import Tessera.Diagnosis

/-!
# How a computation fails

A computation of this library returns an `Outcome`: a value or a failure. A
failure is a report for the user, or a fault: an operation outside its domain
(an index beyond the data, a division by zero, a negative length or shift
amount), which has no report. A traversal that would never end is `endless`.

* `Report.message`: the contexts, outermost first, and then the cause.
* `Failure.within`: adds a context to a report and leaves the rest alone.
-/

namespace Tessera

/-- Why the file system refused a request. -/
inductive FileReason where
  | notFound
  | notDirectory
  | isDirectory
  | taken
  | nameTooLong
  | invalidName
  | denied (text : String)
  deriving Repr, DecidableEq

/-- The wording of a refusal. -/
def FileReason.message : FileReason → String
  | notFound => "no such file or directory"
  | notDirectory => "not a directory"
  | isDirectory => "is a directory"
  | taken => "file exists"
  | nameTooLong => "file name too long"
  | invalidName => "invalid argument"
  | denied text => text

/-- A refused request of the file system: what was asked, of which path. -/
structure FileError where
  action : String
  path : String
  reason : FileReason
  deriving Repr, DecidableEq

/-- The refusal as one line. -/
def FileError.message (e : FileError) : String := s!"{e.action} {e.path}: {e.reason.message}"

/-- Why a number could not be read from its text. -/
inductive NumeralError where
  | syntaxInvalid
  | outOfRange
  deriving Repr, DecidableEq

/-- Complaints about a text or a table of numbers that no diagnosis covers. -/
inductive Complaint where
  | instructionBytes (need given : Nat)
  | programBytes (size unit : Nat)
  | microOpBytes (size unit : Nat)
  | raggedRows (row given want : Int)
  | factorShapes (aRows aCols bRows bCols : Int)
  | accumulatorShape (rows cols wantRows wantCols : Int)
  | splitColumns (cols block : Int)
  | valueRangeArity (values : List Int)
  | addressForm (text : String)
  | addressNumeral (quoted : String) (error : NumeralError)
  | gemmArity (fields : Nat)
  | weightForm (text : String)
  | indexForm (text : String)
  | negativeCount (triple : List Int)
  | immediateParams
  | vectorParams
  | valueRangeEmpty (quotedName : String) (lo hi : Int)
  deriving Repr, DecidableEq

/-- The wording of a complaint. -/
def Complaint.message : Complaint → String
  | instructionBytes need given => s!"decode instruction: need {need} bytes, have {given}"
  | programBytes size unit => s!"decode program: {size} bytes is not a multiple of {unit}"
  | microOpBytes size unit => s!"decode uops: {size} bytes is not a multiple of {unit}"
  | raggedRows row given want => s!"row {row} has {given} columns, want {want}"
  | factorShapes aRows aCols bRows bCols =>
    s!"matmul: a is {aRows}x{aCols}, b is {bRows}x{bCols}"
  | accumulatorShape rows cols wantRows wantCols =>
    s!"matmul: accumulator is {rows}x{cols}, want at least {wantRows}x{wantCols}"
  | splitColumns cols block => s!"split: {cols} columns not a multiple of block {block}"
  | valueRangeArity values => s!"VALUE_RANGE: want [min, max], got {Text.integers values}"
  | addressForm text => s!"want hex string or number, got {text}"
  | addressNumeral quoted .syntaxInvalid =>
    s!"strconv.ParseUint: parsing {quoted}: invalid syntax"
  | addressNumeral quoted .outOfRange =>
    s!"strconv.ParseUint: parsing {quoted}: value out of range"
  | gemmArity fields => s!"GEMM: want [input, weight|scalar, accumulator?], got {fields} fields"
  | weightForm text => s!"GEMM weight: want matrix name or integer, got {text}"
  | indexForm text => s!"want index or [first, step, count], got {text}"
  | negativeCount triple => s!"negative count in {Text.integers triple}"
  | immediateParams => "params must be [dst, imm]"
  | vectorParams => "params must be [dst, src]"
  | valueRangeEmpty quotedName lo hi =>
    s!"program {quotedName}: value range [{lo}, {hi}] is empty"

/-- The innermost reason of a report. -/
inductive Cause where
  /-- Something is wrong with a named object. -/
  | diagnosis (d : Diagnosis)
  /-- The text is no JSON document of the expected form. -/
  | document
  /-- The file system refused a request. -/
  | file (e : FileError)
  /-- Any other complaint. -/
  | complaint (c : Complaint)
  deriving DecidableEq

/-- The wording of a cause. -/
def Cause.message : Cause → String
  | diagnosis d => d.message
  | document => "<json>"
  | file e => e.message
  | complaint c => c.message

/-- A cause and the contexts it arose in, outermost first. -/
structure Report where
  context : List String
  cause : Cause
  deriving DecidableEq

/-- The report as one line. -/
def Report.message (r : Report) : String := ": ".intercalate (r.context ++ [r.cause.message])

/-- Why a computation has no value. -/
inductive Failure where
  /-- An operation outside its domain. -/
  | fault
  /-- A traversal that never ends. -/
  | endless
  /-- A report for the user. -/
  | report (r : Report)
  deriving DecidableEq

namespace Failure

/-- Adds the context `ctx` in front of a report. -/
def within (ctx : String) : Failure → Failure
  | report r => report { r with context := ctx :: r.context }
  | other => other

/-- The diagnosis a failure reports, if it reports one. -/
def diagnosis? : Failure → Option Diagnosis
  | report ⟨_, .diagnosis d⟩ => some d
  | _ => none

end Failure

/-- A value, or why there is none. -/
abbrev Outcome (α : Type) := Except Failure α

namespace Outcome

/-- Fails with a cause and no context. -/
def refuse {α : Type} (cause : Cause) : Outcome α := .error (.report ⟨[], cause⟩)

/-- Fails with a diagnosis of `object`. -/
def diagnose {α : Type} (object : String) (detail : Detail) : Outcome α :=
  refuse (.diagnosis ⟨object, detail⟩)

/-- Fails with a complaint. -/
def complain {α : Type} (c : Complaint) : Outcome α := refuse (.complaint c)

/-- Adds a context to the report of a failure. -/
def within {α : Type} (ctx : String) (x : Outcome α) : Outcome α := x.mapError (Failure.within ctx)

/-- The value of an option, a fault when there is none. -/
def ofOption {α : Type} : Option α → Outcome α
  | some a => .ok a
  | none => .error .fault

end Outcome

end Tessera
