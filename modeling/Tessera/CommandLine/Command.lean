import Tessera.CommandLine.Arguments

/-!
# Commands

The first argument that is no flag names the command, and the rest belong to
it. Before the command is known every flag without an equals sign is taken to
have a value.

* `Command.ofArguments?`: the command some arguments stand for; none if they are
  wrong or ask for help.
-/

namespace Tessera.CommandLine

/-- What to compile with. -/
structure CompileFlags where
  config : String := ""
  output : String := "."
  strategy : Int := 1
  inclusiveFit : Bool := false
  verbose : Bool := false
  disasm : Bool := false
  deriving Repr, DecidableEq

/-- A command with its arguments. -/
inductive Command where
  /-- Compiles a program and writes its files. -/
  | compile (flags : CompileFlags) (program : String)
  /-- Lists a stream of instructions and perhaps its micro-operations. -/
  | disasm (instructions microOps : String)
  /-- Describes the machine. -/
  | info
  deriving Repr, DecidableEq

/-- Whether an argument before the command is a flag whose value comes next. -/
def takesNext (arg : String) : Bool :=
  !arg.contains '=' && (arg.startsWith "--" || (arg.startsWith "-" && arg.utf8ByteSize == 2))

/-- The first argument that is neither a flag nor the value of one. -/
def commandName? : List String → Option String
  | [] => none
  | arg :: rest =>
    if arg = "--" then none
    else if takesNext arg then
      match rest with
      | _ :: next :: more => commandName? (next :: more)
      | _ => none
    else if arg ≠ "" ∧ !arg.startsWith "-" then some arg
    else commandName? rest

/-- The arguments without the name of the command. -/
def withoutName (name : String) : List String → List String
  | [] => []
  | arg :: rest =>
    if arg = "--" then arg :: rest
    else if takesNext arg then
      match rest with
      | value :: more => arg :: value :: withoutName name more
      | [] => [arg]
    else if arg = name then rest
    else arg :: withoutName name rest

/-- The flag every command has. -/
def helpFlag : Flag := { long := "help", letter := some 'h', kind := .switch }

/-- The flags of `compile`. -/
def compileFlags : List Flag :=
  [helpFlag, { long := "config", letter := some 'c', kind := .text },
    { long := "output", letter := some 'o', kind := .text },
    { long := "strategy", kind := .number }, { long := "inclusive-fit", kind := .switch },
    { long := "verbose", letter := some 'v', kind := .switch },
    { long := "workers", kind := .number }, { long := "disasm", kind := .switch }]

/-- The flags of `disasm`. -/
def disasmFlags : List Flag := [helpFlag, { long := "uops", letter := some 'u', kind := .text }]

/-- Reads the arguments of a command that is not asked for help. -/
def accepted? (flags : List Flag) (args : List String) : Option Parsed :=
  (parse? flags args).filter fun p => !p.isOn "help"

/-- The command some arguments stand for. -/
def Command.ofArguments? (args : List String) : Option Command := do
  let name ← commandName? args
  let args := withoutName name args
  if name = "compile" then
    let p ← accepted? compileFlags args
    let [program] := p.plain | none
    let defaults : CompileFlags := {}
    return .compile
      { config := p.textOf "config" defaults.config
        output := p.textOf "output" defaults.output
        strategy := p.numberOf "strategy" defaults.strategy
        inclusiveFit := p.isOn "inclusive-fit"
        verbose := p.isOn "verbose"
        disasm := p.isOn "disasm" } program
  else if name = "disasm" then
    let p ← accepted? disasmFlags args
    let [instructions] := p.plain | none
    return .disasm instructions (p.textOf "uops" "")
  else if name = "info" then
    let p ← accepted? [helpFlag] args
    let [] := p.plain | none
    return .info
  else none

end Tessera.CommandLine
