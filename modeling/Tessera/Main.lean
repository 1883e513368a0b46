import Tessera.CommandLine.Run

/-!
# The program

Reads the arguments, runs the command on the machine's own file system and
prints its transcript. A failure is reported in one line, and the exit code is
one.
-/

namespace Tessera.CommandLine

open Tessera.Files

/-- Why the machine refused a request. -/
def reasonOf : IO.Error → FileReason
  | .noFileOrDirectory _ _ _ => .notFound
  | .alreadyExists _ _ _ => .taken
  | .permissionDenied _ _ details => .denied details.decapitalize
  | .inappropriateType _ _ details => .denied details.decapitalize
  | .invalidArgument _ _ details => .denied details.decapitalize
  | other => .denied other.toString

/-- Does something on the machine, or says why not. -/
def attempt {α : Type} (action : IO α) : IO (Except FileReason α) :=
  try return .ok (← action)
  catch e => return .error (reasonOf e)

/-- What stands at a path of the machine. -/
def lookAt (path : String) : IO Node := do
  let here ← IO.currentDir
  match (← (here / path).metadata).type with
  | .dir => return .directory
  | _ => return .file (← IO.FS.readBinFile path).toList

/-- The machine's own file system. -/
def machineDisk : Disk IO where
  look path := if path = "" then return .error .notFound else attempt (lookAt path)
  makeDirectory path := attempt (IO.FS.createDir path)
  write path bytes := attempt (IO.FS.writeBinFile path ⟨bytes.toArray⟩)

/-- The first line of a file of the machine, or what to say without it. -/
def firstLine (path absent : String) : IO String := do
  try return (((← IO.FS.readFile path).splitOn "\n").headD absent).trimAscii.toString
  catch _ => return absent

/-- The number of processors the machine lists. -/
def countProcessors : IO Nat := do
  try
    let lines := (← IO.FS.readFile "/proc/cpuinfo").splitOn "\n"
    return max 1 (lines.countP (·.startsWith "processor"))
  catch _ => return 1

/-- The machine this runs on. -/
def thisHost : IO Host := do
  let system := (← firstLine "/proc/sys/kernel/ostype" "unknown").decapitalize
  let architecture ← firstLine "/proc/sys/kernel/arch" "unknown"
  let processors ← countProcessors
  return { system, architecture, processors, workers := processors }

/-- How the program is called. -/
def usage : String :=
  "Usage:\n  compile PROGRAM.json [-c CONFIG.json] [-o DIR] [--strategy N] [--inclusive-fit]\n" ++
  "          [-v] [--workers N] [--disasm]\n  disasm INSTRUCTIONS.bin [-u UOPS.bin]\n  info\n"

end Tessera.CommandLine

open Tessera Tessera.CommandLine in
/-- Runs the command the arguments stand for. -/
def main (args : List String) : IO UInt32 := do
  match Command.ofArguments? args with
  | none =>
    IO.eprint usage
    return 1
  | some c =>
    let (outcome, t) ← c.run machineDisk (← thisHost)
    IO.eprint t.notes
    IO.print t.output
    match outcome with
    | .ok () => return 0
    | .error (.report r) =>
      IO.eprintln s!"Error: {r.message}"
      return 1
    | .error _ =>
      IO.eprintln "Error: the program cannot be processed"
      return 2
