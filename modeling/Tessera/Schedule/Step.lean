import Tessera.Source.Op

/-!
# Schedules

A schedule is a list of steps. A step says what is moved into the scratchpads,
what stands at each of their positions while it computes, which operations it
runs and what it stores. Blocks and vectors are named by their numbers; the
position of a number in a resident list is its place in the scratchpad.

* `Step.gemms`, `Step.aluOps`: the products a step starts with, and the rest.
* `Schedule.resetBlocks`: how much of the accumulator has to be cleared first.
* `Schedule.stored`: everything the schedule stores, in order.
-/

namespace Tessera

/-- Marks a free place of the accumulator. -/
def free : Int := -1

/-- What accumulator residents and stores count: whole blocks or single vectors. -/
inductive Grain where
  | block
  | vector
  deriving Repr, DecidableEq

namespace Grain

/-- The name of the grain. -/
def name : Grain → String
  | block => "block"
  | vector => "vector"

/-- The grain with the given number: one is the vector. -/
def ofCode (code : Int) : Grain := if code = 1 then vector else block

end Grain

/-- An operation of a step. -/
inductive StepOp where
  /-- Adds input block `a` times weight block `b` to accumulator block `c`. -/
  | gemm (c a b : Int)
  /-- Applies an operation to some of its sites. -/
  | alu (op : Resolved) (sites : List Site)
  deriving DecidableEq

namespace StepOp

/-- Whether the operation is a product. -/
def isGemm : StepOp → Bool
  | gemm _ _ _ => true
  | alu _ _ => false

/-- The operation in messages. -/
def text : StepOp → String
  | gemm c a b => s!"GeMM({c}, {a}, {b})"
  | alu op sites => s!"{op.name}×{sites.length}"

end StepOp

/-- One step of a schedule. -/
structure Step where
  loadA : List Int := []
  loadB : List Int := []
  /-- Accumulator blocks, or vectors if those are resident. -/
  loadX : List Int := []
  /-- Blocks of the second accumulator; among the residents they are counted
  after those of the first. -/
  loadY : List Int := []
  inpResident : List Int := []
  wgtResident : List Int := []
  sramResident : List Int := []
  /-- All that was stored up to and with this step. -/
  dramState : List Int := []
  store : List Int := []
  ops : List StepOp := []
  residentGrain : Grain := .block
  storeGrain : Grain := .block
  deriving DecidableEq

namespace Step

/-- The products a step starts with. -/
def gemms (s : Step) : List StepOp := s.ops.takeWhile StepOp.isGemm

/-- The operations after those products. -/
def aluOps (s : Step) : List StepOp := s.ops.dropWhile StepOp.isGemm

/-- The step as one line. -/
def text (s : Step) : String :=
  let loads := s!"loadA={Text.integers s.loadA} loadB={Text.integers s.loadB} loadX={Text.integers s.loadX}"
  let second := if s.loadY.isEmpty then "" else s!" loadY={Text.integers s.loadY}"
  let rest := s!" sram={Text.integers s.sramResident} store={Text.integers s.store}"
  s!"{loads}{second}{rest} ops={Text.bracketed (s.ops.map StepOp.text)}"

end Step

/-- How a schedule was made. -/
inductive Path where
  | aluFit
  | aluOverflow
  | gemmFit
  | gemmOverflow
  | constant
  | add
  deriving Repr, DecidableEq

namespace Path

/-- The name of the path. -/
def name : Path → String
  | aluFit => "alu"
  | aluOverflow => "alu-overflow"
  | gemmFit => "gemm"
  | gemmOverflow => "gemm-overflow"
  | constant => "constant"
  | add => "add"

/-- The path with the given number. -/
def ofCode? (code : Int) : Option Path :=
  if code < 0 then none
  else [aluFit, aluOverflow, gemmFit, gemmOverflow, constant, add][code.toNat]?

/-- The name of the path with the given number, or the number itself. -/
def nameOfCode (code : Int) : String := ((ofCode? code).map name).getD s!"Path({code})"

end Path

/-- How a product that does not fit is walked through. -/
inductive Strategy where
  /-- One output block after the other. -/
  | output
  /-- Nearly square tiles of output blocks. -/
  | tiled
  /-- Bands of rows, one output column at a time. -/
  | column
  /-- Bands of columns, one output row at a time. -/
  | row
  deriving Repr, DecidableEq

namespace Strategy

/-- The number of the strategy. -/
def number : Strategy → Int
  | output => 1
  | tiled => 2
  | column => 3
  | row => 4

/-- The strategy with the given number. -/
def ofNumber (n : Int) : Outcome Strategy :=
  if n = 1 then .ok output
  else if n = 2 then .ok tiled
  else if n = 3 then .ok column
  else if n = 4 then .ok row
  else Outcome.diagnose "strategy" (.unsupportedCombination (.strategyOutside n))

end Strategy

/-- A list of steps for scratchpads of given capacities. -/
structure Schedule where
  path : Path
  strategy : Strategy
  /-- The program did not fit the scratchpads at once. -/
  overflow : Bool
  /-- The side of a block. -/
  b : Int
  /-- The number of accumulator blocks. -/
  nX : Int
  caps : Capacities
  steps : List Step
  deriving DecidableEq

namespace Schedule

/-- The accumulator blocks a step needs cleared: those it loads, or the blocks
its vectors take. -/
def stepReset (b : Int) (s : Step) : Outcome Int :=
  match s.residentGrain with
  | .block => .ok s.loadX.length
  | .vector => quotient (wrap64 (s.sramResident.length + b - 1)) b

/-- The accumulator blocks that are cleared before the first step. -/
def resetBlocks (s : Schedule) : Outcome Int :=
  s.steps.foldlM (fun n step => return max n (← stepReset s.b step)) 1

/-- Everything the schedule stores. -/
def stored (s : Schedule) : List Int :=
  match s.steps.getLast? with
  | some step => step.dramState
  | none => []

/-- What the schedule stores, blocks or vectors. -/
def storeGrain (s : Schedule) : Grain :=
  match s.steps.head? with
  | some step => step.storeGrain
  | none => .block

end Schedule

end Tessera
