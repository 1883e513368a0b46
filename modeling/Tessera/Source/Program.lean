import Tessera.Matrix.Basic
import Tessera.Power
import Tessera.Source.Op
import Tessera.Text.Capital
import Tessera.Text.Quoted

/-!
# Programs

A program declares matrices and says what to compute with them: a product of
matrices, or a multiple of one, and then a list of operations on the
accumulator; or, without a product, operations on an accumulator or the sum of
two.

* `Program.roles`: which matrix is the input, the weight and the accumulator.
* `Program.validate`: the checks that need no configuration.
-/

namespace Tessera

/-- The names with a meaning of their own. -/
def inputName : String := "INPUT"

@[inherit_doc inputName]
def weightName : String := "WEIGHT"

@[inherit_doc inputName]
def accumulatorName : String := "ACCUMULATOR"

@[inherit_doc inputName]
def addAccumulatorName : String := "ADD_ACCUMULATOR"

@[inherit_doc inputName]
def outputName : String := "OUTPUT"

/-- A declared matrix. Without data it is filled with seeded numbers. -/
structure Declared where
  name : String
  rows : Int
  cols : Int
  data : Option Matrix := none
  deriving Repr, DecidableEq

/-- A product: input times weight plus accumulator. With `constant` the weight
is the number `scalar` and no matrix. -/
structure Gemm where
  input : String := ""
  weight : String := ""
  scalar : Int := 0
  constant : Bool := false
  accumulator : String := ""
  deriving Repr, DecidableEq

/-- What to compile. -/
structure Program where
  name : String
  matrices : List Declared := []
  gemm : Option Gemm := none
  alu : List AluEntry := []
  baseAddress : UInt64 := 0
  dramOffset : UInt64 := 0
  /-- Outputs are clipped and not wrapped. -/
  clip : Bool := false
  /-- The rows of the input are not padded. -/
  nonSquareInput : Bool := false
  seed : Int := 0
  valueMin : Int := 0
  valueMax : Int := 3
  deriving DecidableEq

/-- The matrix of each role. The empty name stands for a role nobody plays,
unless a matrix has the empty name. -/
structure Roles where
  input : String := ""
  weight : String := ""
  accumulator : String := ""
  addAccumulator : String := ""
  deriving Repr, DecidableEq

namespace Program

/-- The first matrix with the canonical form of `name`. -/
def find? (p : Program) (name : String) : Option Declared :=
  p.matrices.find? (·.name = Text.canonical name)

/-- Whether the program adds two accumulators. -/
def addsAccumulators (p : Program) : Bool := p.alu.any (· = .addAccumulators)

/-- A role's matrix has to be declared. -/
def require (p : Program) (name : String) : Outcome Unit :=
  if (p.find? name).isSome then .ok ()
  else Outcome.diagnose name (.shapeMismatch .undeclared)

/-- The roles of a product: the accumulator may be left to the matrix with that
name, or to nobody. -/
def gemmRoles (p : Program) (g : Gemm) : Outcome Roles := do
  let input := Text.canonical g.input
  p.require input
  let weight := if g.constant then "" else Text.canonical g.weight
  if !g.constant then p.require weight
  let accumulator := Text.canonical g.accumulator
  if accumulator = "" then
    let accumulator := if (p.find? accumulatorName).isSome then accumulatorName else ""
    return { input, weight, accumulator }
  p.require accumulator
  return { input, weight, accumulator }

/-- The accumulator of a program without a product: the matrix with that name,
or else the only matrix that is neither output nor second accumulator. -/
def accumulatorRole (p : Program) : Outcome String :=
  if (p.find? accumulatorName).isSome then .ok accumulatorName
  else
    match (p.matrices.map (·.name)).filter
        fun n => n ≠ outputName ∧ n ≠ addAccumulatorName with
    | [name] => .ok name
    | others => Outcome.diagnose accumulatorName (.shapeMismatch (.noUniqueAccumulator others))

/-- The matrix of each role. -/
def roles (p : Program) : Outcome Roles := do
  let r ← match p.gemm with
    | some g => p.gemmRoles g
    | none => do pure { accumulator := ← p.accumulatorRole }
  if p.addsAccumulators then
    p.require addAccumulatorName
    return { r with addAccumulator := addAccumulatorName }
  return r

/-- Checks the declared matrices; `seen` are the names declared before. -/
def checkMatrices (seen : List String) : List Declared → Outcome Unit
  | [] => .ok ()
  | m :: ms => do
    if m.rows ≤ 0 ∨ m.cols ≤ 0 then
      Outcome.diagnose m.name (.shapeMismatch (.emptyShape m.rows m.cols))
    if seen.contains m.name then
      Outcome.diagnose m.name (.shapeMismatch .declaredTwice)
    match m.data with
    | some d =>
      if d.rows ≠ m.rows ∨ d.cols ≠ m.cols then
        Outcome.diagnose m.name (.shapeMismatch (.dataShape d.rows d.cols m.rows m.cols))
    | none => pure ()
    checkMatrices (m.name :: seen) ms

/-- Checks that the numbers of immediate operations have 16 bits. -/
def checkImmediates (entries : List AluEntry) : Outcome Unit :=
  entries.zipIdx.forM fun (e, i) =>
    match e with
    | .immediate _ imm _ =>
      if imm < -(twoTo 15 : Int) ∨ (twoTo 15 : Int) ≤ imm then
        Outcome.diagnose (e.object i) (.encodingOverflow (.immediate imm))
      else pure ()
    | _ => pure ()

/-- The checks that need no configuration. -/
def validate (p : Program) : Outcome Unit := do
  checkMatrices [] p.matrices
  if p.valueMax < p.valueMin then
    Outcome.complain (.valueRangeEmpty (Text.quoted p.name) p.valueMin p.valueMax)
  if p.gemm.isNone ∧ p.alu.isEmpty then
    Outcome.diagnose p.name (.unsupportedCombination .nothingToDo)
  if p.addsAccumulators then
    if p.gemm.isSome then
      Outcome.diagnose "ADD_ACC" (.unsupportedCombination .addWithGemm)
    if p.alu.length ≠ 1 then
      Outcome.diagnose "ADD_ACC" (.unsupportedCombination (.addNotAlone p.alu.length))
  checkImmediates p.alu
  let _ ← p.roles

end Program

end Tessera
