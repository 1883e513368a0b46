import Tessera.Schedule.Eviction
import Tessera.Schedule.Tiles

/-!
# Making a schedule

`plan` schedules a shaped program. What fits the scratchpads is one step;
otherwise each form of program has its own way to be cut into steps.

* `Planner.aluFit`, `Planner.gemmFit`: one step.
* `Planner.constant`: input blocks stream past one diagonal weight block.
* `Planner.add`: the blocks of both accumulators in pairs.
* `Planner.checkShape`: the block counts of a product belong together.
-/

namespace Tessera

namespace Planner

/-- Operations on an accumulator that fits. -/
def aluFit (p : Planner) : List Step :=
  let all := consecutive 0 p.counts.nX
  let vectors := p.data.vectorStore
  [{ loadX := all, sramResident := all, ops := p.aluOn all
     storeGrain := if vectors then .vector else .block
     store := if vectors then p.data.storeMask else p.storable all }]

/-- A product that fits. -/
def gemmFit (p : Planner) : List Step :=
  let c := p.counts
  let loadA := consecutive 0 c.nA
  let loadB := consecutive 0 c.nB
  let all := consecutive 0 c.nX
  [{ loadA, loadB, loadX := all, inpResident := loadA, wgtResident := loadB, sramResident := all
     ops := products loadA loadB c.aCols c.bCols c.xCols ++ p.aluOn all
     store := p.storable all }]

/-- A multiple of the input: its blocks stream past the diagonal weight block,
which is loaded once. -/
def constant (p : Planner) : Outcome (List Step) := do
  let buffer := min (min p.caps.inp p.caps.acc) p.caps.out
  if buffer < 2 then
    Outcome.diagnose "constant multiplier" (.capacityTooSmall (.constantBuffer buffer))
  let parts ← pieces buffer (consecutive 0 p.counts.nA)
  if 1 < parts.length then p.rejectVector
  return parts.zipIdx.map fun (part, i) =>
    { loadA := part, loadX := part, loadB := if i = 0 then [0] else []
      inpResident := part, wgtResident := [0], sramResident := part
      ops := part.map (fun a => .gemm a a 0) ++ p.aluOn part
      store := p.storable part }

/-- The sum of two accumulators, half the scratchpad for each. -/
def add (p : Planner) : Outcome (List Step) := do
  let half := p.caps.acc.tdiv 2
  if half < 1 then
    Outcome.diagnose "ADD_ACC" (.capacityTooSmall (.pairBuffer p.caps.acc))
  let nX := p.counts.nX
  let parts ← pieces half (consecutive 0 nX)
  return parts.map fun part =>
    let resident := part ++ part.map (nX + ·)
    { loadX := part, loadY := part, sramResident := resident
      ops := p.aluOn resident, store := p.storable part }

/-- The name of a tensor; one that is missing is a fault. -/
def nameOf (t : Option Tensor) : Outcome String := return (← Outcome.ofOption t).name

/-- The block counts of a product belong together. -/
def checkShape (p : Planner) : Outcome Unit := do
  let c := p.counts
  if c.aCols = 0 ∨ c.nA.tmod c.aCols ≠ 0 then
    Outcome.diagnose (← nameOf p.data.a) (.shapeMismatch (.blocksNotMultiple c.nA c.aCols))
  if c.bCols = 0 ∨ c.nB.tmod c.bCols ≠ 0 then
    Outcome.diagnose (← nameOf p.data.w) (.shapeMismatch (.blocksNotMultiple c.nB c.bCols))
  if c.xCols = 0 ∨ c.nX.tmod c.xCols ≠ 0 then
    Outcome.diagnose p.data.x.name (.shapeMismatch (.blocksNotMultiple c.nX c.xCols))
  if c.nA.tdiv c.aCols ≠ c.nX.tdiv c.xCols then
    Outcome.diagnose p.data.x.name
      (.shapeMismatch (.blockRowsDiffer (c.nX.tdiv c.xCols) (c.nA.tdiv c.aCols)))
  if c.bCols ≠ c.xCols then
    Outcome.diagnose p.data.x.name (.shapeMismatch (.blockColsDiffer c.xCols c.bCols))

/-- The path of the program, whether it overflows, and its steps. -/
def steps (p : Planner) : Outcome (Path × Bool × List Step) := do
  let c := p.counts
  match p.data.form with
  | .alu =>
    if p.fits c.nX p.caps.acc then return (.aluFit, false, p.aluFit)
    return (.aluOverflow, true, ← p.aluOverflow)
  | .add =>
    let steps ← p.add
    return (.add, 1 < steps.length, steps)
  | .constant =>
    let steps ← p.constant
    return (.constant, 1 < steps.length, steps)
  | .gemm =>
    p.checkShape
    if p.fits c.nA p.caps.inp && p.fits c.nB p.caps.wgt && p.fits c.nX p.caps.acc then
      return (.gemmFit, false, p.gemmFit)
    return (.gemmOverflow, true, ← p.gemmOverflow)

end Planner

/-- Schedules a shaped program for scratchpads of the given capacities. -/
def plan (d : Shaped) (caps : Capacities) (options : PlanOptions) : Outcome Schedule := do
  let strategy ← if options.strategy = 0 then pure Strategy.output
    else Strategy.ofNumber options.strategy
  let p : Planner :=
    { data := d, counts := d.counts, caps, strategy, inclusiveFit := options.inclusiveFit
      results := Std.TreeSet.ofList d.storeBlocks }
  let (path, overflow, steps) ← p.steps
  return { path, strategy, overflow, b := d.b, nX := p.counts.nX, caps
           steps := recordStores steps }

end Tessera
