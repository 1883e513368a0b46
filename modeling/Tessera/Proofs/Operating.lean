import Tessera.Proofs.Execution

/-!
# Programs of operations alone

A program without a product works on the vectors of one accumulator. If it fits, one step
runs all operations; otherwise vectors come and go. Either way the machine ends with the
expected output, provided that whatever is stored was computed: a vector that no operation
writes has no copy in the output scratchpad, and storing its block stores nothing in its
place.

* `aluFit_realises`, `aluOverflow_realises`: the steps do what the operations say.
* `operations_execute`: what is stored is what is expected.
* `rowsRaised_differ`: a block with a row that no operation writes.
-/

namespace Tessera

/-- Steps that run all sites of all operations, to the end they must come to. -/
structure Shaped.Realised (d : Shaped) (acc : Scalar) (b : Nat) (steps : List Step) : Prop where
  simulates : Simulates d acc steps (rowsOf d.final.data b)
  sites : ∀ r ∈ d.ops, ∀ s ∈ r.sites, ∃ a ∈ steps.flatMap (Step.actions d acc), a.dst = s.dst
  supplied : SuppliedFrom [] steps

section Realises

variable {q : Planner} {d : Shaped} {p : Program} {c : Config} {b xr xc : Nat}

/-- The step of operations that fit runs them as they are declared. -/
theorem aluFit_actions (hb : 1 ≤ b) (hcommon : d.Common p c b xr xc) (hplain : d.Plain b)
    (hdata : q.data = d) (hcounts : q.counts = d.counts) :
    q.aluFit.flatMap (Step.actions d c.acc) = actionsOf c.acc d.ops := by
  obtain ⟨hX, -, -, -⟩ := hcommon.sizes hb
  have hon : ∀ r ∈ d.ops, r.OnVectors (((xr * xc : Nat) : Int) * b) (((xr * xc : Nat) : Int) * b) := by
    intro r hr
    exact_mod_cast hcommon.onVectors_of_ne (by rw [hplain.form]; decide) hr
  have hevents : q.aluFit.flatMap Step.events = d.declared := by
    unfold Planner.aluFit Step.events
    simp only [List.flatMap_cons, List.flatMap_nil, List.append_nil]
    rw [aluOn_events, hdata, hcounts, hX, consecutive_zero (by omega), hcommon.side]
    exact List.filter_eq_self.2 fun e he => inside_below hb hon he
  rw [steps_actions, hevents, declared_actions]

/-- **Operations that fit.** -/
theorem aluFit_realises (hb : 1 ≤ b) (hcommon : d.Common p c b xr xc) (hplain : d.Plain b)
    (hdata : q.data = d) (hcounts : q.counts = d.counts)
    (hsound : ∀ st ∈ q.aluFit, st.Sound d c.acc b) : d.Realised c.acc b q.aluFit := by
  obtain ⟨hX, -, -, -⟩ := hcommon.sizes hb
  have hactions := aluFit_actions hb hcommon hplain hdata hcounts
  have hall : consecutive 0 q.counts.nX = below d.counts.nX := by
    rw [hcounts]
    exact consecutive_zero (by omega)
  have hone : ∃ st, q.aluFit = [st] ∧ st.residentGrain = .block ∧ st.loadX = st.sramResident ∧
      st.store.Nodup ∧ st.inpResident = st.loadA ∧ st.wgtResident = st.loadB := by
    refine ⟨_, rfl, rfl, rfl, ?_, rfl, rfl⟩
    dsimp only
    rw [hall]
    split
    · rw [hdata, hcommon.mask]
      exact nodup_resultVectors _ _ _
    · exact (nodup_below _).filter _
  obtain ⟨st, hst, hgrain, hload, hstore, hinp, hwgt⟩ := hone
  rw [hst] at hsound hactions ⊢
  refine ⟨singles_simulate hb hcommon.side (by simpa using hgrain)
    (by simpa [hload] using fun n hn => Or.inl hn)
    (by simpa using hstore) (List.pairwise_singleton _ _) hsound ?_, fun r hr s hs => ?_,
    SuppliedFrom.of_loads _ (by simp [hinp, hwgt])⟩
  · rw [hactions]
    exact (hcommon.plain_run hb hplain).2.2
  · rw [hactions]
    exact ⟨r.action c.acc s, List.mem_flatMap.2 ⟨r, hr, List.mem_map_of_mem hs⟩, rfl⟩

/-- **Operations that do not fit.** -/
theorem aluOverflow_realises {steps : List Step} (hb : 1 ≤ b) (hcommon : d.Common p c b xr xc)
    (hplain : d.Plain b) (hdata : q.data = d) (h : q.aluOverflow = .ok steps) :
    d.Realised c.acc b steps := by
  have hev := aluOverflow_evicted hb hcommon hplain hdata h
  exact ⟨hev.simulates, hev.sites, .of_loads _ hev.supplied⟩

/-- **However the operations are planned, the steps realise them.** -/
theorem operations_realised {steps : List Step} {path : Path} {overflow : Bool} (hb : 1 ≤ b)
    (hcommon : d.Common p c b xr xc) (hplain : d.Plain b) (hdata : q.data = d)
    (hcounts : q.counts = d.counts) (hsound : ∀ st ∈ steps, st.Sound d c.acc b)
    (h : q.steps = .ok (path, overflow, steps)) : d.Realised c.acc b steps := by
  have h := (Planner.steps_operations (by rw [hdata, hplain.form])).1 h
  split at h
  · obtain ⟨-, -, rfl⟩ := h
    exact aluFit_realises hb hcommon hplain hdata hcounts hsound
  · exact aluOverflow_realises hb hcommon hplain hdata h.2.2

end Realises

/-- Where blocks are stored, some operation writes every vector of a block that is stored. -/
def Schedule.Covers (s : Schedule) (d : Shaped) : Prop :=
  s.storeGrain = .block → ∀ v ∈ vectorsOf d.b s.stored, ∃ r ∈ d.ops, ∃ t ∈ r.sites, t.dst = v

instance (s : Schedule) (d : Shaped) : Decidable (s.Covers d) :=
  inferInstanceAs (Decidable (_ → ∀ _ ∈ _, ∃ _ ∈ _, ∃ _ ∈ _, _))

/-- What is stored was written: vectors hold results, and blocks are covered. -/
theorem Schedule.Covers.written {s : Schedule} {d : Shaped} {p : Program} {c : Config}
    {b xr xc : Nat} (h : s.Covers d) (hcommon : d.Common p c b xr xc) (hplain : d.Plain b)
    (hmask : s.storeGrain = .vector → s.stored.Perm d.storeMask) :
    ∀ v ∈ s.storedVectors d, ∃ r ∈ d.ops, ∃ t ∈ r.sites, t.dst = v := by
  intro v hv
  unfold Schedule.storedVectors at hv
  cases hgrain : s.storeGrain with
  | vector =>
    rw [hgrain] at hv
    exact hcommon.mask_written (Or.inl hplain.form) ((hmask hgrain).subset hv)
  | block =>
    rw [hgrain] at hv
    exact h hgrain v hv

/-- **A program of operations alone leaves the output that is expected**, if some operation
writes every vector of the blocks that are stored; where vectors are stored, nothing more is
needed. -/
theorem operations_execute {p : Program} {c : Config} {options : PlanOptions} {r : Compiled}
    (hword : p.WordSized) (hgemm : p.gemm = none) (hadds : p.addsAccumulators = false)
    (h : compile c options p = .ok r) (hfits : r.data.Fits)
    (hfew : r.code.microOps.length < 4294967296) (hcovers : r.schedule.Covers r.data) :
    ∃ bytes, r.execute c = .ok bytes ∧ r.expectedOut = .ok bytes := by
  obtain ⟨rfl, caps, divisors, data, code, table, hmade⟩ := compile_made h
  obtain ⟨b, xr, xc, hsound, hcommon, hformed⟩ := build_formed hword hmade.built
  have hform : r.data.form = .alu := by
    rw [build_form hmade.built, hgemm, hadds]
    rfl
  have hplain := hformed.plain_of_form hform
  obtain ⟨strategy, steps, hplanned⟩ := plan_planned hmade.planned
  have hrealised := operations_realised hsound.pos hcommon hplain rfl rfl
    (hmade.steps_sound hsound hcommon hformed hplanned.recorded) hplanned.planned
  obtain ⟨hgrain, hmask⟩ := plan_grain hsound.pos hcommon hformed hmade.planned
  refine hmade.executes_steps hsound hcommon hformed hfits hfew hplanned.recorded
    hrealised.simulates (fun v hv => ?_) hrealised.supplied
  have hstored : v ∈ r.schedule.storedVectors r.data := by
    rw [storedVectors_recorded hplanned.recorded hgrain, hplanned.recorded, recordStores_eq,
      withStores_flatMap (Step.stores r.data) fun _ _ => rfl]
    exact hv
  obtain ⟨op, hop, t, ht, rfl⟩ := hcovers.written hcommon hplain hmask v hstored
  exact hrealised.sites op hop t ht

/-- A block of two rows, of which the maximum with one is taken of those listed. -/
def Program.rowsRaised (rows : List Int) : Program where
  name := ""
  matrices := [⟨"ACCUMULATOR", 2, 2, some ⟨2, 2, #[5, 6, 7, 8]⟩⟩]
  alu := [.immediate .max 1 rows]

set_option maxRecDepth 100000 in
theorem rowsRaised_compiled : (do
    let r ← compile .twoBlocks {} (.rowsRaised [0, 1])
    return r.data.Fits ∧ r.code.microOps.length < 4294967296 ∧ r.schedule.storeGrain = .block ∧
      r.schedule.Covers r.data ∧ r.expectedOut = .ok [5, 6, 7, 8] : Outcome Bool) = .ok true := by
  decide +kernel

/-- Both rows of a block are computed, and the block is stored. -/
theorem rowsRaised_execute : ∃ r, (Program.rowsRaised [0, 1]).WordSized ∧
    (Program.rowsRaised [0, 1]).gemm = none ∧
    (Program.rowsRaised [0, 1]).addsAccumulators = false ∧
    compile .twoBlocks {} (.rowsRaised [0, 1]) = .ok r ∧ r.data.Fits ∧
    r.code.microOps.length < 4294967296 ∧ r.schedule.storeGrain = .block ∧
    r.schedule.Covers r.data ∧ r.execute .twoBlocks = .ok [5, 6, 7, 8] := by
  obtain ⟨r, hr, h⟩ := Outcome.bind_eq_ok.1 rowsRaised_compiled
  obtain ⟨hfits, hfew, hgrain, hcovers, hout⟩ := of_decide_eq_true (Outcome.pure_eq_ok.1 h)
  have hword : (Program.rowsRaised [0, 1]).WordSized := by decide +kernel
  obtain ⟨bytes, hexec, hexp⟩ := operations_execute hword rfl rfl hr hfits hfew hcovers
  rw [hout] at hexp
  obtain rfl := Except.ok.inj hexp
  exact ⟨r, hword, rfl, rfl, hr, hfits, hfew, hgrain, hcovers, hexec⟩

set_option maxRecDepth 100000 in
/-- **A row that no operation writes** is stored with its block, but the machine holds no
copy of it. -/
theorem rowsRaised_differ : (do
    let r ← compile .twoBlocks {} (.rowsRaised [0])
    return r.data.Fits ∧ r.execute .twoBlocks = .ok [5, 6, 0, 0] ∧
      r.expectedOut = .ok [5, 6, 7, 8] : Outcome Bool) = .ok true := by
  decide +kernel

end Tessera
