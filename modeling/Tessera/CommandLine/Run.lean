import Tessera.Artefact
import Tessera.CommandLine.Command
import Tessera.Files.Disk
import Tessera.Instruction.Text
import Tessera.Source.Document
import Tessera.Text.Utf8

/-!
# Running commands

A command runs on a file system and leaves a transcript: what it wrote to its
two outputs. A failure keeps what was written before it.

* `Command.run`: the transcript and the outcome of a command.
-/

namespace Tessera.CommandLine

open Tessera.Files

/-- The machine a command runs on. -/
structure Host where
  system : String
  architecture : String
  processors : Nat
  workers : Nat
  deriving Repr, DecidableEq

namespace Host

/-- The machine as one line. -/
def banner (h : Host) : String :=
  s!"{h.system}/{h.architecture}, {h.processors} CPUs, {h.workers} workers"

/-- The machine, one line for each of its properties. -/
def report (h : Host) : String :=
  s!"GOOS: {h.system}\nGOARCH: {h.architecture}\nNumCPU: {h.processors}\nWorkers: {h.workers}\n"

end Host

/-- What a command wrote: its answer, and notes on the way to it. -/
structure Transcript where
  output : String := ""
  notes : String := ""
  deriving Repr, DecidableEq

/-- A computation that runs on a file system, writes and may fail. -/
abbrev Shell (m : Type → Type) := ExceptT Failure (StateT Transcript m)

section

variable {m : Type → Type} [Monad m] {α : Type}

/-- Fails if an outcome is a failure. -/
def check (x : Outcome α) : Shell m α :=
  match x with
  | .ok a => pure a
  | .error e => throw e

/-- Writes to the output. -/
def say (text : String) : Shell m Unit :=
  modify fun t => { t with output := t.output ++ text }

/-- Writes lines to the notes. -/
def note (lines : List String) : Shell m Unit :=
  modify fun t => { t with notes := lines.foldl (fun s l => s ++ l ++ "\n") t.notes }

/-- Reads the text of a file and what it describes; `activity` is what fails if
there is no text. -/
def load (disk : Disk m) (path activity : String) (decode : List Char → Outcome α) :
    Shell m α := do
  match ← disk.look path with
  | .error reason => check (Outcome.refuse (.file ⟨"open", path, reason⟩))
  | .ok .directory => check (Outcome.within path (Outcome.within activity
      (Outcome.refuse (.file ⟨"read", path, .isDirectory⟩))))
  | .ok (.file bytes) => check (Outcome.within path (decode (Text.ofBytes bytes).toList))

/-- Reads the bytes of a file and what they encode. -/
def loadBytes (disk : Disk m) (path : String) (decode : List UInt8 → Outcome α) : Shell m α := do
  match ← disk.look path with
  | .error reason => check (Outcome.refuse (.file ⟨"open", path, reason⟩))
  | .ok .directory => check (Outcome.refuse (.file ⟨"read", path, .isDirectory⟩))
  | .ok (.file bytes) => check (Outcome.within path (decode bytes))

/-- Lists code: the instructions and then the micro-operations, if any. -/
def list (c : Code) : Shell m Unit := do
  say (disassemble c.instructions)
  if !c.microOps.isEmpty then
    say "micro-ops:\n"
    say (listMicroOps c.microOps)

/-- Writes the files of a compilation into a directory, and returns their paths. -/
def writeArtefacts (disk : Disk m) (directory : String) (r : Compiled) :
    Shell m (List String) := do
  let activity := "write artefacts"
  let files ← check (Outcome.within activity r.artefacts)
  check (Outcome.within activity (← disk.makeDirectories directory))
  let placed := files.map fun f => (f.name, join directory f.name, f.bytes)
  check (Outcome.within activity (← disk.writeAll placed))
  return placed.map fun (_, path, _) => path

/-- Runs `compile`. -/
def runCompile (disk : Disk m) (host : Host) (flags : CompileFlags) (path : String) :
    Shell m Unit := do
  let config ← if flags.config = "" then pure Config.standard
    else load disk flags.config "decoding config" Config.decode
  let strategy ← check (Strategy.ofNumber flags.strategy)
  let program ← load disk path "decoding program" Program.decode
  let x := compileLogged host.banner config ⟨strategy.number, flags.inclusiveFit⟩ program
  if flags.verbose then note x.lines
  let r ← check x.outcome
  let paths ← writeArtefacts disk flags.output r
  if flags.verbose then note (paths.map ("wrote " ++ ·))
  let name := if program.name = "" then "program" else program.name
  let size := s!"{r.code.instructions.length} instructions, {r.code.microOps.length} micro-ops"
  say s!"{name}: {r.schedule.steps.length} steps, {size} -> {flags.output}\n"
  if flags.disasm then list r.code

/-- Runs `disasm`. -/
def runDisasm (disk : Disk m) (instructions microOps : String) : Shell m Unit := do
  let stream ← loadBytes disk instructions decodeProgram
  let table ← if microOps = "" then pure [] else loadBytes disk microOps decodeTable
  list { instructions := stream, microOps := table }

/-- Runs a command. -/
def Command.run (disk : Disk m) (host : Host) (c : Command) : m (Outcome Unit × Transcript) :=
  let shell : Shell m Unit := match c with
    | .compile flags program => runCompile disk host flags program
    | .disasm instructions microOps => runDisasm disk instructions microOps
    | .info => say host.report
  shell.run.run {}

end

end Tessera.CommandLine
