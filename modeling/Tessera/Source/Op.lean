import Tessera.Instruction.Basic
import Tessera.Word

/-!
# Operations on accumulator vectors

A program's ALU list names operations and the vectors they apply to. Vectors
are the rows of the stacked accumulator, counted from zero; the vectors of a
second accumulator follow those of the first.

* `AluEntry`: an entry of the list as a program gives it.
* `Resolved`: the same with every vector spelled out.
* `resolve`: all vectors must exist and every operation must have one.
-/

namespace Tessera

/-- A vector an operation writes, and the vector it reads beside it. -/
structure Site where
  dst : Int
  src : Int
  deriving Repr, DecidableEq, Inhabited

/-- The source of an operation that reads no second vector. -/
def noSource : Int := -1

/-- An entry of a program's ALU list. -/
inductive AluEntry where
  /-- An operation with a number for every listed vector. -/
  | immediate (op : AluOp) (imm : Int) (dst : List Int)
  /-- An operation on pairs of vectors. -/
  | vector (op : AluOp) (sites : List Site)
  /-- The maximum with zero, of all vectors if none are listed. -/
  | relu (dst : Option (List Int))
  /-- The sum of the two accumulators. -/
  | addAccumulators
  deriving DecidableEq

namespace AluEntry

/-- The name of the operation. -/
def name : AluEntry → String
  | immediate op _ _ => op.name ++ "_IMM"
  | vector op _ => op.name
  | relu _ => "RELU"
  | addAccumulators => "ADD_ACC"

/-- The entry of number `index` in messages. -/
def object (index : Nat) (e : AluEntry) : String := s!"alu[{index}] {e.name}"

end AluEntry

/-- The arithmetic a name stands for, and whether it takes a number. -/
def classify (name : String) : Option AluOp × Bool :=
  let arithmetic : String → Option AluOp
    | "MIN" => some .min
    | "MAX" => some .max
    | "ADD" => some .add
    | "SHR" => some .shr
    | "MUL" => some .mul
    | _ => none
  if name = "RELU" then (some .max, true)
  else if name = "ADD_ACC" then (some .add, false)
  else
    let cs := name.toList
    let base := cs.take (cs.length - 4)
    if cs = base ++ "_IMM".toList then (arithmetic (String.ofList base), true)
    else (arithmetic name, false)

/-- The numbers `first`, `first + step`, …, `count` of them. -/
def progression (first step count : Int) : Outcome (List Int) := do
  return (List.range (← tableSize count)).map fun (i : Nat) => wrap64 (first + wrap64 (i * step))

/-- An operation with all its vectors. -/
structure Resolved where
  index : Int
  name : String
  op : AluOp
  useImm : Bool
  imm : Int
  sites : List Site
  deriving DecidableEq

namespace Resolved

/-- The operation in messages. -/
def object (r : Resolved) : String := s!"alu[{r.index}] {r.name}"

/-- Whether the operation reads a second vector. -/
def isVector (r : Resolved) : Bool := !r.useImm

end Resolved

/-- Fails with the first of the vectors that is not below `vectors`. -/
def checkVectors (object : String) (vectors : Int) : List Int → Outcome Unit
  | [] => .ok ()
  | v :: vs =>
    if v < 0 ∨ vectors ≤ v then
      Outcome.diagnose object (.shapeMismatch (.vectorOutside v vectors))
    else checkVectors object vectors vs

/-- The sites of an operation without second vectors. -/
def plainSites (dst : List Int) : List Site := dst.map fun d => ⟨d, noSource⟩

/-- Spells out entry number `index` for an accumulator of `vectors` vectors. -/
def AluEntry.resolve (vectors : Int) (index : Nat) (e : AluEntry) : Outcome Resolved := do
  let blank : Resolved := ⟨index, e.name, .add, false, 0, []⟩
  let r ← match e with
    | .immediate op imm dst => do
      checkVectors (e.object index) vectors dst
      pure { blank with op, useImm := true, imm, sites := plainSites dst }
    | .relu dst => do
      let dst ← match dst with
        | some dst => pure dst
        | none => progression 0 1 vectors
      checkVectors (e.object index) vectors dst
      pure { blank with op := .max, useImm := true, sites := plainSites dst }
    | .vector op sites => do
      checkVectors (e.object index) vectors (sites.flatMap fun s => [s.dst, s.src])
      pure { blank with op, sites }
    | .addAccumulators =>
      pure { blank with sites := (below vectors).map fun v => ⟨v, vectors + v⟩ }
  if r.sites.isEmpty then
    Outcome.diagnose r.object (.shapeMismatch .noVectors)
  return r

/-- Spells out a whole ALU list. -/
def resolve (entries : List AluEntry) (vectors : Int) : Outcome (List Resolved) :=
  entries.zipIdx.mapM fun (e, i) => e.resolve vectors i

end Tessera
