import Std.Data.TreeSet
import Tessera.Bytes
import Tessera.Schedule.Step
import Tessera.Shaped

/-!
# What all schedules share

* `Planner`: a shaped program, its block counts and the capacities.
* `Planner.aluOn`: the operations restricted to resident blocks.
* `Planner.storable`: the blocks among some that hold results.
* `pieces`: a list of numbers cut for a buffer.
* `strides`: the starts of the bands a range is walked through in.
* `recordStores`: fills in what has been stored up to each step.
-/

namespace Tessera

/-- Which way a schedule is made: the number of a strategy, zero for the usual
one, and whether an operand that fills its scratchpad exactly still fits. -/
structure PlanOptions where
  strategy : Int := 0
  inclusiveFit : Bool := false
  deriving Repr, DecidableEq

/-- What a schedule is made of. -/
structure Planner where
  data : Shaped
  counts : Shaped.Counts
  caps : Capacities
  strategy : Strategy
  inclusiveFit : Bool
  /-- The blocks that hold results. -/
  results : Std.TreeSet Int

/-- `n` consecutive numbers from `start` on; for a negative `n` they descend. -/
def consecutive (start n : Int) : List Int :=
  (List.range n.natAbs).map fun (k : Nat) => if 0 ≤ n then start + k else start - k

/-- The numbers in pieces of `size`, which has to be positive. -/
def pieces (size : Int) (xs : List Int) : Outcome (List (List Int)) :=
  if size ≤ 0 then .error .fault else .ok (chunks size.toNat xs)

/-- The multiples of `step` from zero below `limit`, the starts of its bands. A step of zero
stays where it is. A negative one makes a table of its whole band at the first start, a fault
beyond the address space; a shorter band counts down, and would come back above the limit
only by wrapping around, behind more entries than any memory holds. -/
def strides (limit step : Int) : Outcome (List Int) :=
  if limit ≤ 0 then .ok []
  else if step ≤ 0 then do
    let _ ← tableSize (-step)
    .error .endless
  else .ok ((List.range ((limit + step - 1) / step).toNat).map fun (k : Nat) => k * step)

/-- Fills in what has been stored up to each step: `done` holds the finished
steps, latest first, and `stored` what they stored. -/
def recordStoresFrom (done : List Step) (stored : List Int) : List Step → List Step
  | [] => done.reverse
  | s :: rest =>
    let now := stored ++ s.store
    recordStoresFrom ({ s with dramState := now } :: done) now rest

/-- The steps with what has been stored up to each of them. -/
def recordStores (steps : List Step) : List Step := recordStoresFrom [] [] steps

namespace Planner

/-- Whether `n` blocks fit a scratchpad. -/
def fits (p : Planner) (n capacity : Int) : Bool :=
  if p.inclusiveFit then n ≤ capacity else n < capacity

/-- The blocks that hold results. -/
def storable (p : Planner) (blocks : List Int) : List Int :=
  blocks.filter p.results.contains

/-- The sites of an operation whose vectors are in the blocks `inside`. -/
def sitesIn (b : Int) (inside : Std.TreeSet Int) (sites : List Site) : List Site :=
  sites.filter fun s => inside.contains (s.dst.tdiv b) &&
    (s.src == noSource || inside.contains (s.src.tdiv b))

/-- Every operation on its sites in the resident blocks; an operation without
such a site is left out. -/
def aluOn (p : Planner) (resident : List Int) : List StepOp :=
  let inside := Std.TreeSet.ofList resident
  p.data.ops.filterMap fun r =>
    match sitesIn p.data.b inside r.sites with
    | [] => none
    | sites => some (.alu r sites)

/-- No operation may read a second vector once a product is split. -/
def rejectVector (p : Planner) : Outcome Unit :=
  match p.data.ops.find? (·.isVector) with
  | some r => Outcome.diagnose r.object (.unsupportedCombination .vectorAfterSplitGemm)
  | none => .ok ()

end Planner

/-- The products of input blocks and weight blocks that belong together: the
block column of the input is the block row of the weight. -/
def products (loadA loadB : List Int) (aCols bCols xCols : Int) : List StepOp :=
  loadA.flatMap fun a => loadB.filterMap fun b =>
    if a.tmod aCols = b.tdiv bCols then some (.gemm (a.tdiv aCols * xCols + b.tmod bCols) a b)
    else none

end Tessera
