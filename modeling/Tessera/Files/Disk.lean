import Tessera.Failure
import Tessera.Files.Path

/-!
# File systems

A program sees a file system through three requests: look at a path, make a
directory, write a file. Whoever answers them is free in how: `Disk` is a record
of the answers in any monad.

* `Disk.makeDirectories`: makes a directory and all that is missing above it.
* `Disk.writeAll`: writes files into a directory, all of them even if one fails.
-/

namespace Tessera.Files

/-- What stands at a path. -/
inductive Node where
  | directory
  | file (bytes : List UInt8)
  deriving DecidableEq

/-- The answers to the requests to a file system. -/
structure Disk (m : Type → Type) where
  look : String → m (Except FileReason Node)
  makeDirectory : String → m (Except FileReason Unit)
  write : String → List UInt8 → m (Except FileReason Unit)

namespace Disk

variable {m : Type → Type} [Monad m]

/-- Makes the first of some directories, each of which is above the one before;
`path` is the wording for diagnoses. What cannot be looked at is made, once the
directories above it are there. -/
def makeChain (disk : Disk m) : List String → m (Outcome Unit)
  | [] => pure (.ok ())
  | path :: above => do
    let refuse (reason : FileReason) : Outcome Unit := Outcome.refuse (.file ⟨"mkdir", path, reason⟩)
    match ← disk.look path with
    | .ok .directory => pure (.ok ())
    | .ok (.file _) => pure (refuse .notDirectory)
    | .error _ =>
      match ← disk.makeChain above with
      | .error e => pure (.error e)
      | .ok () =>
        match ← disk.makeDirectory path with
        | .ok () => pure (.ok ())
        | .error reason =>
          match ← disk.look path with
          | .ok .directory => pure (.ok ())
          | _ => pure (refuse reason)

/-- Makes a directory and all that is missing above it. -/
def makeDirectories (disk : Disk m) (path : String) : m (Outcome Unit) :=
  disk.makeChain (ancestors path)

/-- Writes files, given by name, path and bytes. All are tried; the failure of
the first that cannot be written is the failure of all. -/
def writeAll (disk : Disk m) : List (String × String × List UInt8) → m (Outcome Unit)
  | [] => pure (.ok ())
  | (name, path, bytes) :: rest => do
    let done ← disk.write path bytes
    let others ← disk.writeAll rest
    match done with
    | .ok () => pure others
    | .error reason =>
      pure (Outcome.within s!"write {name}" (Outcome.refuse (.file ⟨"open", path, reason⟩)))

end Disk

end Tessera.Files
