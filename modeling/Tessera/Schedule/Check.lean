import Std.Data.TreeSet
import Tessera.Schedule.Step

/-!
# Checking a schedule

`Schedule.validate` checks each step of a schedule, in this order: the
capacities of the scratchpads; nothing stands in the accumulator twice; what is
loaded has a place; the operands of every operation are there, and products
come before other operations; what is stored is there; and the record of stores
grows by exactly what each step stores.
-/

namespace Tessera

/-- The numbers that occur more than once, each once, in order. -/
def duplicates (xs : List Int) : List Int :=
  let (_, twice) := xs.foldl (fun ((seen, twice) : Std.TreeSet Int × Std.TreeSet Int) x =>
    if seen.contains x then (seen, twice.insert x) else (seen.insert x, twice)) ({}, {})
  let (found, _) := xs.foldl (fun ((found, left) : List Int × Std.TreeSet Int) x =>
    if left.contains x then (x :: found, left.erase x) else (found, left)) ([], twice)
  found.reverse

/-- A step with the sets of what is resident. -/
structure StepCheck where
  object : String
  b : Int
  nX : Int
  caps : Capacities
  step : Step
  inp : Std.TreeSet Int
  wgt : Std.TreeSet Int
  acc : Std.TreeSet Int

namespace StepCheck

/-- Fails with a diagnosis of the step. -/
def fail {α : Type} (k : StepCheck) (d : Detail) : Outcome α := Outcome.diagnose k.object d

/-- Whether a vector is in the accumulator; with blocks resident, its block is. -/
def holdsVector (k : StepCheck) (v : Int) : Outcome Bool :=
  match k.step.residentGrain with
  | .vector => .ok (k.acc.contains v)
  | .block => return k.acc.contains (← quotient v k.b)

/-- The scratchpads hold what the step puts there. -/
def capacities (k : StepCheck) : Outcome Unit := do
  let s := k.step
  let accCap : Int := match s.residentGrain with
    | .vector => wrap64 (k.caps.acc * k.b)
    | .block => k.caps.acc
  if k.caps.inp < s.loadA.length ∨ k.caps.inp < s.inpResident.length then
    k.fail (.capacityTooSmall (.overfull "INP" s.inpResident.length k.caps.inp))
  if k.caps.wgt < s.loadB.length ∨ k.caps.wgt < s.wgtResident.length then
    k.fail (.capacityTooSmall (.overfull "WGT" s.wgtResident.length k.caps.wgt))
  if accCap < s.sramResident.length then
    k.fail (.capacityTooSmall
      (.accumulatorOverfull s.sramResident.length s.residentGrain.name accCap))

/-- No place of the accumulator is given twice. -/
def distinct (k : StepCheck) : Outcome Unit :=
  match duplicates (k.step.sramResident.filter (· ≠ free)) with
  | [] => .ok ()
  | twice => k.fail (.unresolvedBlock (.heldTwice twice))

/-- Everything of `units` is in `resident`, where it is counted from `offset`. -/
def loaded (k : StepCheck) (what : String) (resident : Std.TreeSet Int) (offset : Int)
    (units : List Int) : Outcome Unit :=
  match units.find? fun u => !resident.contains (wrap64 (offset + u)) with
  | some u => k.fail (.unresolvedBlock (.loadedNowhere what u))
  | none => .ok ()

/-- The vectors of a site are in the accumulator. -/
def siteHeld (k : StepCheck) (s : Site) : Outcome Bool := do
  if !(← k.holdsVector s.dst) then return false
  if s.src = noSource then return true
  k.holdsVector s.src

/-- The sites of an operation are in the accumulator. -/
def sites (k : StepCheck) (r : Resolved) : List Site → Outcome Unit
  | [] => .ok ()
  | s :: rest => do
    if !(← k.siteHeld s) then
      k.fail (.unresolvedBlock (.siteAbsent r.object s.dst s.src))
    k.sites r rest

/-- Operands are there, and no product follows another operation. -/
def operations (k : StepCheck) (seenAlu : Bool) : List StepOp → Outcome Unit
  | [] => .ok ()
  | .gemm c a b :: rest => do
    let op := StepOp.gemm c a b
    if seenAlu then
      k.fail (.unsupportedCombination (.gemmAfterAlu op.text))
    if !k.inp.contains a || !k.wgt.contains b || !k.acc.contains c then
      k.fail (.unresolvedBlock (.operandAbsent op.text))
    k.operations seenAlu rest
  | .alu r sites :: rest => do
    k.sites r sites
    k.operations true rest

/-- What is stored is in the accumulator. -/
def stores (k : StepCheck) : List Int → Outcome Unit
  | [] => .ok ()
  | c :: rest => do
    let held ← match k.step.storeGrain with
      | .vector => k.holdsVector c
      | .block => pure (k.acc.contains c)
    if !held then
      k.fail (.unresolvedBlock (.storedAbsent k.step.storeGrain.name c))
    k.stores rest

/-- All checks of a step; `stored` is what was stored up to and with it. -/
def run (k : StepCheck) (stored : List Int) : Outcome Unit := do
  let s := k.step
  k.capacities
  k.distinct
  k.loaded "INP block" k.inp 0 s.loadA
  k.loaded "WGT block" k.wgt 0 s.loadB
  k.loaded s!"accumulator {s.residentGrain.name}" k.acc 0 s.loadX
  k.loaded "Y block" k.acc k.nX s.loadY
  k.operations false s.ops
  k.stores s.store
  if stored ≠ s.dramState then
    k.fail (.unresolvedBlock (.storesDiffer s.dramState stored))

end StepCheck

namespace Schedule

/-- Checks the steps from number `i` on, after `stored` was stored. -/
def validateFrom (s : Schedule) (i : Nat) (stored : List Int) : List Step → Outcome Unit
  | [] => .ok ()
  | step :: rest => do
    let k : StepCheck :=
      { object := s!"step[{i}]", b := s.b, nX := s.nX, caps := s.caps, step
        inp := .ofList step.inpResident, wgt := .ofList step.wgtResident
        acc := .ofList (step.sramResident.filter (· ≠ free)) }
    let now := stored ++ step.store
    k.run now
    s.validateFrom (i + 1) now rest

/-- Checks every step. -/
def validate (s : Schedule) : Outcome Unit := s.validateFrom 0 [] s.steps

end Schedule

end Tessera
