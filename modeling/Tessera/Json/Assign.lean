import Tessera.Json.Value
import Tessera.Power

/-!
# Assigning JSON values to variables

A document is read member by member into variables of fixed types, in the order
of the text. A repeated member is assigned again, over what the variable holds:

* `null` leaves a number, a text and a truth value as they are and clears a
  list or a map;
* a list is assigned element by element over the cells the variable has, so an
  element `null` shows what its cell held;
* a map keeps its entries, and a repeated name gets the last value;
* an unassignable value fails the whole document.

Names of members are matched without regard to letter case.
-/

namespace Tessera.Json

/-- How a JSON value changes a variable of type `α`, `none` if it cannot be
assigned. -/
abbrev Assign (α : Type) := α → Node → Option α

/-- Assigns an integer between `lo` and `hi`. -/
def assignInteger (lo hi : Int) : Assign Int
  | old, (_, .null) => some old
  | _, (_, .number literal) =>
    match integer? literal with
    | some n => if lo ≤ n && n ≤ hi then some n else none
    | none => none
  | _, _ => none

/-- Assigns a signed 64-bit integer. -/
def assignInt : Assign Int := assignInteger (-(twoTo 63 : Int)) (twoTo 63 - 1)

/-- Assigns a truth value. -/
def assignBool : Assign Bool
  | old, (_, .null) => some old
  | _, (_, .bool b) => some b
  | _, _ => none

/-- Assigns a text. -/
def assignString : Assign String
  | old, (_, .null) => some old
  | _, (_, .string s) => some s
  | _, _ => none

/-- Assigns any value as it stands. -/
def assignNode : Assign (Option Node)
  | _, node => some (some node)

/-- The cells of a list variable: the first `length` are its elements, and the
others still hold what longer lists left there. -/
structure Cells (α : Type) where
  cells : List α
  length : Nat

/-- The elements of the list. -/
def Cells.toList {α : Type} (c : Cells α) : List α := c.cells.take c.length

/-- Assigns the items one by one to the cells; cells that are missing hold
`zero`. Yields the assigned cells, latest first, and the cells left over. -/
def assignItems {α : Type} (zero : α) (one : Assign α) (acc : List α) :
    List α → List Node → Option (List α × List α)
  | cells, [] => some (acc, cells)
  | [], node :: nodes =>
    match one zero node with
    | some a => assignItems zero one (a :: acc) [] nodes
    | none => none
  | old :: cells, node :: nodes =>
    match one old node with
    | some a => assignItems zero one (a :: acc) cells nodes
    | none => none

/-- Assigns a list; `none` is the variable without a list. -/
def assignList {α : Type} (zero : α) (one : Assign α) : Assign (Option (Cells α))
  | _, (_, .null) => some none
  | _, (_, .array []) => some (some ⟨[], 0⟩)
  | old, (_, .array nodes) =>
    let cells := match old with
      | some c => c.cells
      | none => []
    (assignItems zero one [] cells nodes).map fun (set, left) =>
      some ⟨set.reverse ++ left, nodes.length⟩
  | _, _ => none

/-- Assigns a pair of integers from a list: missing numbers are zero, and what
follows the second one is ignored. -/
def assignPair : Assign (Int × Int)
  | old, (_, .null) => some old
  | _, (_, .array []) => some (0, 0)
  | (a, _), (_, .array [x]) => (assignInt a x).map ((·, 0))
  | (a, b), (_, .array (x :: y :: _)) => do return (← assignInt a x, ← assignInt b y)
  | _, _ => none

/-- Puts a value under a name, in its old place if the name is there. -/
def putEntry {α : Type} (name : String) (a : α) : List (String × α) → List (String × α)
  | [] => [(name, a)]
  | (n, b) :: rest => if n = name then (n, a) :: rest else (n, b) :: putEntry name a rest

/-- Assigns a map; every entry is assigned to a fresh variable that holds
`zero`. -/
def assignMap {α : Type} (zero : α) (one : Assign α) : Assign (List (String × α))
  | _, (_, .null) => some []
  | old, (_, .object members) =>
    members.foldlM (fun entries (name, node) => (one zero node).map (putEntry name · entries)) old
  | _, _ => none

/-- A character with letter case forgotten, as far as letters of member names
can tell. -/
def foldChar (c : Char) : Char :=
  if c = 'ſ' then 'S' else if c = '\u212A' then 'K' else c.toUpper

/-- Whether a member's name stands for the field `field`. -/
def matchesField (field name : String) : Bool :=
  name.toList.map foldChar == field.toList.map foldChar

/-- Assigns the members of an object by `field`, which gives the assignment of a
member's name, if the record has such a field. -/
def assignRecord {α : Type} (field : String → Option (Assign α)) : Assign α
  | old, (_, .null) => some old
  | old, (_, .object members) =>
    members.foldlM (fun a (name, node) => (field name).bind fun assign => assign a node) old
  | _, _ => none

/-- The assignment that the first matching name of a table gives. -/
def fieldOf {α : Type} (table : List (String × Assign α)) (name : String) : Option (Assign α) :=
  (table.find? fun entry => matchesField entry.1 name).map Prod.snd

end Tessera.Json
