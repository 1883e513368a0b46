import Tessera.Proofs.Outcome
import Tessera.Schedule.Plan

/-!
# The paths of the planner

The planner goes by the form of the program and by what fits the scratchpads. Whatever is
shown of every schedule is shown path by path, so the paths are taken apart here, once.

* `Planner.steps_product`, `Planner.steps_multiple`, `Planner.steps_operations`,
  `Planner.steps_sum`: what makes the schedule of each form of program.
* `Placing.close`: the end of the run over operations that do not fit.
* `Planner.aluOverflow_eq`: that run as a whole.
-/

namespace Tessera

/-- Closes the step in work before entry `next`, if there is such a step. -/
def Placing.close (s : Placing) (last : Array Nat) (results : Std.TreeSet Int) (next : Nat) :
    Placing :=
  if s.ops.isEmpty then s else s.flush last results next

namespace Planner

variable {p : Planner} {path : Path} {overflow : Bool} {steps : List Step}

/-- A schedule with its path, and with whether its steps overflow. -/
theorem labelled_eq_ok {x : Outcome (List Step)} {way : Path} {exceeds : List Step → Bool} :
    (x >>= fun steps => (pure (way, exceeds steps, steps) : Outcome _)) = .ok (path, overflow, steps) ↔
      path = way ∧ overflow = exceeds steps ∧ x = .ok steps := by
  simp only [Outcome.bind_eq_ok, Outcome.pure_eq_ok, Prod.mk.injEq]
  constructor
  · rintro ⟨steps, h, rfl, rfl, rfl⟩
    exact ⟨rfl, rfl, h⟩
  · rintro ⟨rfl, rfl, h⟩
    exact ⟨steps, h, rfl, rfl, rfl⟩

/-- A product is one step where all of its blocks fit, and walked through otherwise. -/
theorem steps_product (hform : p.data.form = .gemm) :
    p.steps = .ok (path, overflow, steps) ↔ p.checkShape = .ok () ∧
      if (p.fits p.counts.nA p.caps.inp && p.fits p.counts.nB p.caps.wgt &&
          p.fits p.counts.nX p.caps.acc) = true then
        path = .gemmFit ∧ overflow = false ∧ steps = p.gemmFit
      else path = .gemmOverflow ∧ overflow = true ∧ p.gemmOverflow = .ok steps := by
  unfold Planner.steps
  rw [hform]
  simp only [Outcome.bind_eq_ok (x := p.checkShape), Unique.exists_iff]
  refine and_congr_right fun _ => ?_
  split
  · rw [Outcome.pure_eq_ok]
    simp [eq_comm]
  · exact labelled_eq_ok

/-- A multiple of the input is streamed. -/
theorem steps_multiple (hform : p.data.form = .constant) :
    p.steps = .ok (path, overflow, steps) ↔
      path = .constant ∧ overflow = decide (1 < steps.length) ∧ p.constant = .ok steps := by
  unfold Planner.steps
  rw [hform]
  exact labelled_eq_ok

/-- A sum of accumulators is taken in pairs of blocks. -/
theorem steps_sum (hform : p.data.form = .add) :
    p.steps = .ok (path, overflow, steps) ↔
      path = .add ∧ overflow = decide (1 < steps.length) ∧ p.add = .ok steps := by
  unfold Planner.steps
  rw [hform]
  exact labelled_eq_ok

/-- Operations alone are one step where the accumulator fits, and placed site by site
otherwise. -/
theorem steps_operations (hform : p.data.form = .alu) :
    p.steps = .ok (path, overflow, steps) ↔
      if p.fits p.counts.nX p.caps.acc = true then
        path = .aluFit ∧ overflow = false ∧ steps = p.aluFit
      else path = .aluOverflow ∧ overflow = true ∧ p.aluOverflow = .ok steps := by
  unfold Planner.steps
  rw [hform]
  simp only
  split
  · rw [Outcome.pure_eq_ok]
    simp [eq_comm]
  · exact labelled_eq_ok

/-- **Operations that do not fit** are refused for their accumulator, or their sites are
placed one after the other and the last step is closed. -/
theorem aluOverflow_eq (p : Planner) :
    p.aluOverflow =
      if wrap64 (p.caps.acc * p.data.b) < 2 then
        Outcome.diagnose "alu" (.capacityTooSmall
          (.accumulatorVectors (wrap64 (p.caps.acc * p.data.b))))
      else do
        let order ← orderEntries (flatten p.data.ops) p.data.vectors.toNat
        let last := lastTouch p.data.vectors.toNat order
        let results := Std.TreeSet.ofList p.data.storeMask
        let s ← order.zipIdx.foldlM (fun (s : Placing) (e, t) =>
          s.entry (wrap64 (p.caps.acc * p.data.b)) last results t e) {}
        return (s.close last results order.length).done.reverse := by
  unfold Planner.aluOverflow Placing.close
  simp only
  split <;> rfl

/-- The schedule of operations that do not fit, from the vectors of the program and the
order in which its sites are placed. -/
theorem aluOverflow_eq_ok {vectors : Nat} (hvectors : p.data.vectors.toNat = vectors) :
    p.aluOverflow = .ok steps ↔ 2 ≤ wrap64 (p.caps.acc * p.data.b) ∧ ∃ order,
      orderEntries (flatten p.data.ops) vectors = .ok order ∧ ∃ s : Placing,
      order.zipIdx.foldlM (fun (s : Placing) (e, t) =>
        s.entry (wrap64 (p.caps.acc * p.data.b)) (lastTouch vectors order)
          (Std.TreeSet.ofList p.data.storeMask) t e) {} = .ok s ∧
      steps = (s.close (lastTouch vectors order) (Std.TreeSet.ofList p.data.storeMask)
        order.length).done.reverse := by
  subst hvectors
  rw [aluOverflow_eq]
  split
  · simp only [Outcome.diagnose_ne_ok, false_iff, not_and]
    omega
  · rename_i hroom
    simp only [Outcome.bind_eq_ok, Outcome.pure_eq_ok, eq_comm (b := steps)]
    exact ⟨fun h => ⟨by omega, h⟩, fun h => h.2⟩

end Planner

end Tessera
