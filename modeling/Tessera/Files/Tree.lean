import Tessera.Files.Disk

/-!
# A file system in memory

A tree of directories and files as a list of locations: the names from the root
to each file and directory. The root is always there.

* `Tree.locate`: walks a path up to its last name.
* `Tree.look`, `Tree.makeDirectory`, `Tree.write`: the requests of a `Disk`.
* `Tree.files`: the files in the order of their locations.
-/

namespace Tessera.Files

/-- What stands where; a later entry for a location hides an earlier one. -/
structure Tree where
  entries : List (List String × Node) := []

namespace Tree

/-- The greatest number of bytes of a name. -/
def nameLimit : Nat := 255

/-- The number of bytes from which on a path is too long. -/
def pathLimit : Nat := 4096

/-- What stands at a location. -/
def find? (t : Tree) (location : List String) : Option Node :=
  if location.isEmpty then some .directory
  else (t.entries.find? (·.1 == location)).map Prod.snd

/-- The tree with something else at a location. -/
def put (t : Tree) (location : List String) (n : Node) : Tree :=
  { entries := (location, n) :: t.entries.filter (·.1 != location) }

/-- Walks down directories from a location. -/
def descend (t : Tree) (location : List String) : List String → Except FileReason (List String)
  | [] => .ok location
  | name :: names =>
    if name = "." then t.descend location names
    else if name = ".." then t.descend location.dropLast names
    else if nameLimit < name.utf8ByteSize then .error .nameTooLong
    else match t.find? (location ++ [name]) with
      | none => .error .notFound
      | some (.file _) => .error .notDirectory
      | some .directory => t.descend (location ++ [name]) names

/-- The directory a path leads to and the last name in it. With `strict` a path
that ends in a slash goes on into the directory it names. -/
def locate (t : Tree) (strict : Bool) (path : String) :
    Except FileReason (List String × String) := do
  if path.contains (Char.ofNat 0) then throw .invalidName
  if path = "" then throw .notFound
  if pathLimit ≤ path.utf8ByteSize then throw .nameTooLong
  let names := (path.splitOn "/").filter (· ≠ "")
  let names := if names.isEmpty ∨ (strict ∧ path.endsWith "/") then names ++ ["."] else names
  let last := names.getLast?.getD "."
  let directory ← t.descend [] names.dropLast
  if nameLimit < last.utf8ByteSize then throw .nameTooLong
  return (directory, last)

/-- What stands at a path. -/
def look (t : Tree) (path : String) : Except FileReason Node := do
  let (directory, name) ← t.locate true path
  if name = "." ∨ name = ".." then return .directory
  match t.find? (directory ++ [name]) with
  | some n => return n
  | none => throw .notFound

/-- The tree with a directory more. -/
def makeDirectory (t : Tree) (path : String) : Except FileReason Tree := do
  let (directory, name) ← t.locate false path
  let location := directory ++ [name]
  if name = "." ∨ name = ".." ∨ (t.find? location).isSome then throw .taken
  return t.put location .directory

/-- The tree with a file written; a file that was there is replaced. -/
def write (t : Tree) (path : String) (bytes : List UInt8) : Except FileReason Tree := do
  let (directory, name) ← t.locate true path
  let location := directory ++ [name]
  if name = "." ∨ name = ".." ∨ t.find? location = some .directory then throw .isDirectory
  return t.put location (.file bytes)

/-- A request that changes the tree, unless it is refused. -/
def change (f : Tree → Except FileReason Tree) : StateM Tree (Except FileReason Unit) := do
  match f (← get) with
  | .ok t =>
    set t
    return .ok ()
  | .error reason => return .error reason

/-- The file system whose state is a tree. -/
def disk : Disk (StateM Tree) where
  look path := return (← get).look path
  makeDirectory path := change (·.makeDirectory path)
  write path bytes := change (·.write path bytes)

/-- Adds a directory at a location and all above it. -/
def addDirectory (t : Tree) (location : List String) : Tree :=
  (List.range location.length).foldl (fun t n =>
    if (t.find? (location.take (n + 1))).isSome then t
    else t.put (location.take (n + 1)) .directory) t

/-- Adds a file at a location, with the directories above it. -/
def addFile (t : Tree) (location : List String) (bytes : List UInt8) : Tree :=
  (t.addDirectory location.dropLast).put location (.file bytes)

/-- Whether a location comes before another or equals it, name by name. -/
def locationLe : List String → List String → Bool
  | [], _ => true
  | _ :: _, [] => false
  | a :: as, b :: bs => if a = b then locationLe as bs else decide (a ≤ b)

/-- The files with their locations, in the order of names. -/
def files (t : Tree) : List (List String × List UInt8) :=
  (t.entries.filterMap fun (location, n) => match n with
    | .file bytes => some (location, bytes)
    | .directory => none).mergeSort fun a b => locationLe a.1 b.1

end Tree

end Tessera.Files
