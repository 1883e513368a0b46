import Tessera.Text.Numeral

/-!
# Arguments

A command takes flags and plain arguments in any order. A flag has a long name
after two dashes and perhaps a letter after one. Its value follows an equals
sign, or is the next argument; letters can share a dash, and the value of the
last one can follow it directly. A switch needs no value. Two dashes alone end
the flags.

* `Flag.read?`: the value of a flag.
* `parse?`: the values of the flags and the plain arguments.
-/

namespace Tessera.CommandLine

/-- What a flag's value is. -/
inductive FlagKind where
  | switch
  | number
  | text
  deriving Repr, DecidableEq

/-- A flag of a command. -/
structure Flag where
  long : String
  letter : Option Char := none
  kind : FlagKind
  deriving Repr, DecidableEq

/-- A value given to a flag. -/
inductive Value where
  | truth (b : Bool)
  | number (n : Int)
  | text (s : String)
  deriving Repr, DecidableEq

/-- The truth value a word stands for. -/
def truthOf? (word : String) : Option Bool :=
  if ["1", "t", "T", "true", "TRUE", "True"].contains word then some true
  else if ["0", "f", "F", "false", "FALSE", "False"].contains word then some false
  else none

/-- The value a text gives to a flag. -/
def Flag.read? (f : Flag) (text : String) : Option Value :=
  match f.kind with
  | .switch => (truthOf? text).map .truth
  | .number => (Text.signed? text.toList).map .number
  | .text => some (.text text)

/-- What has been read of the arguments; `waiting` is a flag whose value is the
next argument, and `closed` says that no flags follow. -/
structure Parsed where
  values : List (String × Value) := []
  plain : List String := []
  waiting : Option Flag := none
  closed : Bool := false

namespace Parsed

/-- Gives a flag a value, which replaces an earlier one. -/
def give (p : Parsed) (f : Flag) (text : String) : Option Parsed :=
  (f.read? text).map fun v => { p with values := (f.long, v) :: p.values, waiting := none }

/-- Reads letters that share a dash. -/
def letters (flags : List Flag) (p : Parsed) : List Char → Option Parsed
  | [] => some p
  | c :: cs =>
    -- flags of a test harness are passed over
    if "test.".toList.isPrefixOf (c :: cs) then some p
    else match flags.find? (·.letter == some c) with
      | none => none
      | some f =>
        match cs with
        | '=' :: d :: ds => p.give f (String.ofList (d :: ds))
        | _ =>
          if f.kind = .switch then (p.give f "true").bind fun p => p.letters flags cs
          else if cs.isEmpty then some { p with waiting := some f }
          else p.give f (String.ofList cs)

/-- Reads a flag by its long name; `cs` is what follows the dashes. -/
def long (flags : List Flag) (p : Parsed) (cs : List Char) : Option Parsed :=
  if cs.head? = some '-' ∨ cs.head? = some '=' then none
  else
    let name := String.ofList (cs.takeWhile (· ≠ '='))
    match flags.find? (·.long == name), cs.dropWhile (· ≠ '=') with
    | none, _ => none
    | some f, _ :: value => p.give f (String.ofList value)
    | some f, [] => if f.kind = .switch then p.give f "true" else some { p with waiting := some f }

/-- Reads one argument. -/
def argument (flags : List Flag) (p : Parsed) (arg : String) : Option Parsed :=
  let plain := some { p with plain := p.plain ++ [arg] }
  match p.waiting with
  | some f => p.give f arg
  | none =>
    if p.closed then plain
    else match arg.toList with
      | ['-', '-'] => some { p with closed := true }
      | '-' :: '-' :: cs => p.long flags cs
      | '-' :: c :: cs => p.letters flags (c :: cs)
      | _ => plain

/-- The value given to a flag last. -/
def value? (p : Parsed) (name : String) : Option Value :=
  (p.values.find? (·.1 == name)).map Prod.snd

/-- The value of a switch. -/
def isOn (p : Parsed) (name : String) : Bool :=
  match p.value? name with
  | some (.truth b) => b
  | _ => false

/-- The value of a number flag. -/
def numberOf (p : Parsed) (name : String) (absent : Int) : Int :=
  match p.value? name with
  | some (.number n) => n
  | _ => absent

/-- The value of a text flag. -/
def textOf (p : Parsed) (name absent : String) : String :=
  match p.value? name with
  | some (.text s) => s
  | _ => absent

end Parsed

/-- Reads the arguments of a command, unless one is wrong. -/
def parse? (flags : List Flag) (args : List String) : Option Parsed :=
  (args.foldlM (Parsed.argument flags) {}).bind fun p =>
    if p.waiting.isSome then none else some p

end Tessera.CommandLine
