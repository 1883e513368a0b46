import Tessera.Proofs.Storing

/-!
# The whole stream

The code of a schedule is the product that clears the accumulator, the groups of every
step with their flags, and FINISH. Flags and empty transfers change nothing, so the
stream runs the groups, and it writes what the replay of the schedule stores.

* `group_exec`: a group runs as its instructions do.
* `step_exec`, `steps_exec`: the code of a step and of all steps.
* `lower_exec`: the whole stream.
* `run_rebase`: the same for the stream that was moved to its table.
-/

namespace Tessera

/-- No instruction ends the stream. -/
def Endless (insns : List Instruction) : Prop := ∀ i ∈ insns, i.opcode ≠ .finish

theorem Endless.append {xs ys : List Instruction} (hx : Endless xs) (hy : Endless ys) :
    Endless (xs ++ ys) := by
  intro i hi
  rcases List.mem_append.1 hi with h | h
  · exact hx i h
  · exact hy i h

theorem Staged.endless {s : Stage} {insns : List Instruction} (h : Staged s insns) :
    Endless insns := fun i hi => (h i hi).2

namespace Machine

variable {m : Machine}

/-- Flags change nothing. -/
theorem exec_flagged (s : State) (f : Flags) (i : Instruction) :
    m.exec s (i.flagged f) = m.exec s i := rfl

theorem exec_withFlags (first last : Flags) (insns : List Instruction) (s : State) :
    (withFlags first last insns).foldlM m.exec s = insns.foldlM m.exec s := by
  rcases List.eq_nil_or_concat insns with rfl | ⟨xs, i, rfl⟩
  · rfl
  rw [List.concat_eq_append]
  cases xs with
  | nil => rfl
  | cons x xs =>
    rw [withFlags_concat, List.cons_append, List.cons_append, List.foldlM_cons, List.foldlM_cons,
      exec_flagged]
    congr 1
    funext s'
    rw [List.foldlM_append, List.foldlM_append]
    rfl

/-- An instruction that transfers nothing. -/
def Idle (m : Machine) (nop : Instruction) : Prop := ∀ s, m.exec s nop = .ok s

theorem fill_nil {α : Type} (f : Nat → α) (start : Nat) : fill f start [] = f := by
  funext n
  simp [fill]

theorem idle_nopLoad (m : Machine) : m.Idle .nopLoad := by
  intro s
  show Except.ok { s with inp := fill s.inp 0 [] } = _
  rw [fill_nil]

theorem idle_nopCompute (m : Machine) : m.Idle .nopCompute := by
  intro s
  show Except.ok { s with uop := fill s.uop 0 [] } = _
  rw [fill_nil]

theorem idle_nopStore (m : Machine) : m.Idle .nopStore := fun _ => rfl

end Machine

namespace Emission

variable {e e' : Emission}

/-- **A group runs as its instructions do.** -/
theorem group_exec {m : Machine} {nop : Instruction} (hnop : m.Idle nop) (first last : Flags)
    (insns : List Instruction) (s : Machine.State) :
    (groupOf nop first last insns).foldlM m.exec s = insns.foldlM m.exec s := by
  unfold groupOf
  rw [Machine.exec_withFlags]
  split
  · rename_i hempty
    rw [List.isEmpty_iff.1 hempty, List.foldlM_cons, hnop s]
    rfl
  · rfl

end Emission

/-- Before a run all rows are zeros. -/
def Rows.blank (b : Nat) : Rows where
  acc _ := List.replicate b 0
  out _ := List.replicate b 0

theorem Rows.even_blank (b : Nat) : (Rows.blank b).Even b :=
  ⟨fun _ => List.length_replicate, fun _ => List.length_replicate, fun _ h => by cases h⟩

namespace Machine

variable {m : Machine}

theorem map_narrowed_zeros (hout : m.out.Supported) (n : Nat) :
    (List.replicate n 0).map (m.out.narrowed m.clip) = List.replicate n 0 := by
  rw [List.map_replicate, Scalar.narrowed_zero hout]

theorem boot_mirrors (hout : m.out.Supported) (mem : UInt64 → UInt8) :
    m.Mirrors (m.boot mem) (Rows.blank m.b) := by
  refine ⟨rfl, funext fun n => ?_⟩
  exact (map_narrowed_zeros hout m.b).symm

/-- Clearing rows that are clear. -/
theorem reset_exec (hout : m.out.Supported) {i : Instruction} (hi : i.reset = true)
    {us : List MicroOp} {s : State} (hmir : m.Mirrors s (Rows.blank m.b)) :
    m.rowSteps (fun s u => m.gemmRow s i u) us s = .ok s := by
  induction us with
  | nil => rfl
  | cons u us ih =>
    refine foldlM_cons_eq_ok.2 ⟨s, ?_, ih⟩
    have hrow : m.gemmRow s i u = .ok (List.replicate m.b 0) := by
      unfold gemmRow
      rw [hi]
      rfl
    have hset : m.setRow s u.dst.toNat (List.replicate m.b 0) = .ok s := by
      refine setRow_eq_ok.2 ⟨_, mapM_of_forall fun v _ => hout.narrow v m.clip, ?_⟩
      have hacc : Function.update s.acc u.dst.toNat (List.replicate m.b 0) = s.acc := by
        rw [hmir.acc]
        exact Function.update_eq_self u.dst.toNat _
      have hcopy : Function.update s.out u.dst.toNat
          ((List.replicate m.b 0).map (m.out.narrowed m.clip)) = s.out := by
        rw [hmir.out]
        exact Function.update_eq_self u.dst.toNat _
      rw [hacc, hcopy]
    exact Outcome.bind_ok hrow hset

end Machine

namespace Emission

variable {e e' : Emission} {env : Lowering} {m : Machine}

/-- The product that clears `n` blocks. -/
def resetInstruction (b n : Int) : Instruction :=
  { opcode := .gemm, reset := true, loopOut := UInt32.ofInt n, loopIn := UInt32.ofInt b,
    dstFactorOut := UInt32.ofInt b, dstFactorIn := 1 }

/-- **The product that clears the accumulator** finds it clear. -/
theorem prologue_exec (hm : env.Suits m) (h : e.prologue env = .ok e') :
    ∃ insns us, Extends e e' insns us ∧ Endless insns ∧ (m.Loaded e.microOps.size us →
      ∀ s, m.Mirrors s (Rows.blank m.b) → ∃ s', insns.foldlM m.exec s = .ok s' ∧
        Machine.Keeps s s' ∧ m.Mirrors s' (Rows.blank m.b)) := by
  obtain ⟨n, -, h⟩ := Outcome.bind_eq_ok.1 h
  refine ⟨_, _, group_extends h, ?_, fun hus s hmir => ?_⟩
  · refine (staged_groupOf bare_nopCompute (bare_batch ?_ _ _ _)).endless
    exact ⟨rfl, by simp, rfl⟩
  obtain ⟨uop, hbatch⟩ := Machine.batch_exec hm.base (.gemm rfl)
    hus.table hus.small
    (Machine.reset_exec hm.out (i := resetInstruction env.data.b n) rfl hmir)
  exact ⟨_, (group_exec (Machine.idle_nopCompute m) _ _ _ s).trans hbatch, ⟨rfl, rfl, rfl⟩, hmir.acc, hmir.out⟩

end Emission

/-- A step that can be run as its replay says. -/
structure Step.Sound (d : Shaped) (acc : Scalar) (b : Nat) (st : Step) : Prop where
  bounded : st.Bounded b
  ready : st.Ready d acc
  stored : ∀ v ∈ st.stores d, ∃ row, st.place d.b v = some row
  grain : st.storeGrain = .block → st.residentGrain = .block

/-- Each step brings in its operands or finds its weights where the step before left
them. -/
def SuppliedFrom (weights : List Int) : List Step → Prop
  | [] => True
  | st :: steps => st.Supplies weights ∧ SuppliedFrom st.wgtResident steps

namespace Emission

variable {e e' : Emission} {env : Lowering} {m : Machine} {st : Step}

/-- **The code of a step** writes what the replay of the step stores. -/
theorem step_exec (hm : env.Suits m) (hregion : m.Region env.out env.data.c)
    (hst : st.Sound env.data m.acc m.b) {i : Nat} (h : e.step env i st = .ok e') :
    ∃ insns us, Extends e e' insns us ∧ Endless insns ∧ (m.Loaded e.microOps.size us →
      ∀ {weights s ρ ρ'}, st.Supplies weights → env.Serves m s.mem →
        m.HoldsWeights env.data weights s → m.Mirrors s ρ →
        ρ.run env.data.initial (st.trace env.data m.acc) = .ok ρ' →
        ∃ s' cells, insns.foldlM m.exec s = .ok s' ∧ m.HoldsWeights env.data st.wgtResident s' ∧
          m.Mirrors s' ρ' ∧ cells.map Prod.fst = st.stores env.data ∧
          ρ'.copies = ρ.copies ++ cells.map Prod.snd ∧
          s'.mem = m.deposit env.out st.position cells s.mem) := by
  obtain ⟨loads, c, stores, e1, e2, e3, hloads, h1, hc, h2, hstores, h3, h⟩ := step_eq_ok.1 h
  have hx := group_extends h1
  have hy := group_extends h2
  have hz := group_extends h3
  have hlast := push_extends h
  refine ⟨_, _, ((hx.trans hy).trans hz).trans hlast, ?_, ?_⟩
  · refine Endless.append (Endless.append (Endless.append ?_ ?_) ?_) fun j hj => ?_
    · exact (staged_groupOf bare_nopLoad (StepLowering.bare_loads hloads)).endless
    · exact (staged_groupOf bare_nopCompute (StepLowering.bare_computes hc)).endless
    · exact (staged_groupOf bare_nopStore (StepLowering.bare_stores hstores)).endless
    rw [List.mem_singleton.1 hj]
    simp [Instruction.nopCompute]
  intro hus weights s ρ ρ' hsup hserves hwgt hmir hrun
  have hsize : e1.microOps.size = e.microOps.size := hx.size
  rw [List.nil_append, List.append_nil, List.append_nil, ← hsize] at hus
  -- loads, then loads and actions of the replay, then its stores
  unfold Step.trace Step.moves at hrun
  rw [List.map_append] at hrun
  obtain ⟨ρ1, hrun1, hrun2⟩ := foldlM_append_eq_ok.1 hrun
  rw [List.map_map] at hrun2
  obtain ⟨hplaced, rfl⟩ := Rows.run_stores hrun2
  obtain ⟨s1, hs1, hmem1, hacc1, hout1, hstock⟩ := StepLowering.loads_exec hm hserves
    hst.bounded hsup hwgt hloads
  have hmir1 : m.Mirrors s1 ρ := ⟨hacc1.trans hmir.acc, hout1.trans hmir.out⟩
  obtain ⟨s2, hs2, hk2, hmir2⟩ := StepLowering.computes_exec hm hst.bounded hst.ready
    (by rw [hmem1]; exact hserves) hstock hc hus hmir1 hrun1
  have hs3 := StepLowering.stores_exec hm hst.bounded hregion hst.grain hst.stored hmir2 hstores
  have hcopies : ρ1.copies = ρ.copies := by
    refine Rows.run_copies (fun f hf v hv => ?_) hrun1
    obtain ⟨x, hx, rfl⟩ := List.mem_map.1 hf
    simp only at hv
    subst hv
    simp at hx
  refine ⟨{ s2 with mem := m.deposit env.out st.position (st.cells env.data ρ1.out) s2.mem },
    st.cells env.data ρ1.out, ?_, ?_, ⟨hmir2.acc, hmir2.out⟩, ?_, ?_, ?_⟩
  · refine foldlM_append_eq_ok.2 ⟨_, foldlM_append_eq_ok.2 ⟨s2, foldlM_append_eq_ok.2 ⟨s1, ?_, ?_⟩,
      (group_exec (Machine.idle_nopStore m) _ _ _ s2).trans hs3⟩, ?_⟩
    · exact (group_exec (Machine.idle_nopLoad m) _ _ _ s).trans hs1
    · exact (group_exec (Machine.idle_nopCompute m) _ _ _ s1).trans hs2
    · exact foldlM_cons_eq_ok.2 ⟨_, Machine.idle_nopCompute m _, rfl⟩
  · intro n hn
    show s2.wgt _ = _
    rw [hk2.wgt]
    exact hstock.wgt n hn
  · exact st.cells_vectors env.data ρ1.out
  · rw [st.cells_rows, ← hcopies]
  · show m.deposit _ _ _ s2.mem = _
    rw [hk2.mem, hmem1]

/-- The places of what is stored do not depend on the step. -/
def Positioned (d : Shaped) (pos : Int → Nat) (steps : List Step) : Prop :=
  ∀ st ∈ steps, ∀ v ∈ st.stores d, st.position v = pos v

/-- A property of memory that gives the operands, and that is kept when copies are
written to the places of vectors that are stored. -/
structure Guards (env : Lowering) (m : Machine) (pos : Int → Nat) (vs : List Int)
    (safe : (UInt64 → UInt8) → Prop) : Prop where
  serves : ∀ mem, safe mem → env.Serves m mem
  kept : ∀ cells mem, (∀ q ∈ cells, q.1 ∈ vs ∧ q.2.length = m.b) → safe mem →
    safe (m.deposit env.out pos cells mem)

/-- **The code of all steps** writes what the replay of the schedule stores. -/
theorem steps_exec (hm : env.Suits m) (hregion : m.Region env.out env.data.c) {pos : Int → Nat}
    {steps : List (Step × Nat)} (hst : ∀ q ∈ steps, q.1.Sound env.data m.acc m.b)
    (hpos : Positioned env.data pos (steps.map Prod.fst))
    {safe : (UInt64 → UInt8) → Prop}
    (hsafe : Guards env m pos ((steps.map Prod.fst).flatMap (Step.stores env.data)) safe)
    (h : steps.foldlM (fun (e : Emission) q => e.step env q.2 q.1) e = .ok e') :
    ∃ insns us, Extends e e' insns us ∧ Endless insns ∧ (m.Loaded e.microOps.size us →
      ∀ {weights s ρ ρ'}, SuppliedFrom weights (steps.map Prod.fst) → safe s.mem →
        m.HoldsWeights env.data weights s → m.Mirrors s ρ → ρ.Even m.b →
        ρ.run env.data.initial (traceOf env.data m.acc (steps.map Prod.fst)) = .ok ρ' →
        ∃ s' cells, insns.foldlM m.exec s = .ok s' ∧
          cells.map Prod.fst = (steps.map Prod.fst).flatMap (Step.stores env.data) ∧
          ρ'.copies = ρ.copies ++ cells.map Prod.snd ∧
          s'.mem = m.deposit env.out pos cells s.mem) := by
  induction steps generalizing e with
  | nil =>
    obtain rfl := Outcome.pure_eq_ok.1 h
    refine ⟨[], [], ⟨by simp, by simp⟩, by simp [Endless], ?_⟩
    intro _ weights s ρ ρ' _ _ _ _ _ hrun
    obtain rfl := Outcome.pure_eq_ok.1 hrun
    exact ⟨s, [], rfl, rfl, by simp, rfl⟩
  | cons q steps ih =>
    obtain ⟨e1, h1, h⟩ := foldlM_cons_eq_ok.1 h
    obtain ⟨xs, us, hx, hxend, hxexec⟩ := step_exec hm hregion (hst q List.mem_cons_self) h1
    obtain ⟨ys, vs, hy, hyend, hyexec⟩ := ih (fun r hr => hst r (List.mem_cons_of_mem _ hr))
      (fun st hs => hpos st (List.mem_cons_of_mem _ hs))
      ⟨hsafe.serves, fun cells mem hc => hsafe.kept cells mem fun r hr => by
        rw [List.map_cons, List.flatMap_cons]
        exact ⟨List.mem_append_right _ (hc r hr).1, (hc r hr).2⟩⟩ h
    refine ⟨_, _, hx.trans hy, hxend.append hyend, ?_⟩
    intro hus weights s ρ ρ' hsup hmem0 hwgt hmir heven hrun
    rw [List.map_cons] at hrun hsup
    unfold traceOf at hrun
    rw [List.flatMap_cons] at hrun
    obtain ⟨ρ1, hrun1, hrun2⟩ := foldlM_append_eq_ok.1 hrun
    obtain ⟨s1, cells, hs1, hwgt1, hmir1, hfst, hsnd, hmem⟩ := hxexec hus.left hsup.1
      (hsafe.serves _ hmem0) hwgt hmir hrun1
    have heven1 : ρ1.Even m.b := by
      have hside : env.data.b.toNat = m.b := by rw [hm.side, Int.toNat_natCast]
      rw [← hside] at heven ⊢
      exact Step.run_even heven hrun1
    -- what the step stored stands where it will be found in the end
    have hplace : ∀ r ∈ cells, q.1.position r.1 = pos r.1 := fun r hr =>
      hpos q.1 List.mem_cons_self r.1 (hfst ▸ List.mem_map.2 ⟨r, hr, rfl⟩)
    rw [Machine.deposit_congr hplace] at hmem
    have hsafe1 : safe s1.mem := by
      rw [hmem]
      refine hsafe.kept cells s.mem (fun r hr => ?_) hmem0
      rw [List.map_cons, List.flatMap_cons, ← hfst]
      refine ⟨List.mem_append_left _ (List.mem_map.2 ⟨r, hr, rfl⟩), heven1.copies r.2 ?_⟩
      rw [hsnd]
      exact List.mem_append_right _ (List.mem_map.2 ⟨r, hr, rfl⟩)
    obtain ⟨s2, cells', hs2, hfst', hsnd', hmem'⟩ := hyexec (by rw [hx.size]; exact hus.right) hsup.2
      hsafe1 hwgt1 hmir1 heven1 hrun2
    refine ⟨s2, cells ++ cells', foldlM_append_eq_ok.2 ⟨s1, hs1, hs2⟩, ?_, ?_, ?_⟩
    · rw [List.map_append, hfst, hfst', List.map_cons, List.flatMap_cons]
    · rw [hsnd', hsnd, List.map_append, List.append_assoc]
    · rw [hmem', hmem, Machine.deposit_append]

end Emission

/-- Everything a machine needs to run the code of a schedule, whose stored vectors have
the places `pos`, from a memory that is `safe`. -/
structure Lowering.Runs (env : Lowering) (m : Machine) (pos : Int → Nat)
    (safe : (UInt64 → UInt8) → Prop) : Prop where
  suits : env.Suits m
  region : m.Region env.out env.data.c
  sound : ∀ st ∈ env.schedule.steps, st.Sound env.data m.acc m.b
  supplied : SuppliedFrom [] env.schedule.steps
  positioned : Emission.Positioned env.data pos env.schedule.steps
  guards : Emission.Guards env m pos (env.schedule.steps.flatMap (Step.stores env.data)) safe

/-- **The whole stream** runs to FINISH and writes what the replay of the schedule
stores. -/
theorem lower_exec {env : Lowering} {m : Machine} {pos : Int → Nat}
    {safe : (UInt64 → UInt8) → Prop} (hout : env.layout.out = some env.out)
    (hm : env.Runs m pos safe) {code : Code}
    (h : lower env.schedule env.data env.layout = .ok code) (htable : m.table = code.microOps)
    (hsmall : code.microOps.length < 4294967296) {mem : UInt64 → UInt8} (hmem0 : safe mem)
    {ρ : Rows} (hrun : (Rows.blank m.b).run env.data.initial
      (traceOf env.data m.acc env.schedule.steps) = .ok ρ) :
    ∃ s cells, m.run code.instructions (m.boot mem) = .ok s ∧
      cells.map Prod.fst = env.schedule.steps.flatMap (Step.stores env.data) ∧
      cells.map Prod.snd = ρ.copies ∧ s.mem = m.deposit env.out pos cells mem := by
  obtain ⟨e1, e2, e3, h1, h2, h3, -, rfl⟩ := Lowering.stages hm.suits.object hout h
  have hsteps : env.schedule.steps.zipIdx.map Prod.fst = env.schedule.steps := List.zipIdx_map_fst ..
  obtain ⟨xs, us, hx, hxend, hxexec⟩ := Emission.prologue_exec hm.suits h1
  obtain ⟨ys, vs, hy, hyend, hyexec⟩ := Emission.steps_exec hm.suits hm.region
    (fun q hq => hm.sound q.1 (hsteps ▸ List.mem_map.2 ⟨q, hq, rfl⟩))
    (by rw [hsteps]; exact hm.positioned) (by rw [hsteps]; exact hm.guards) h2
  have hall := (hx.trans hy).trans (Emission.pushes_extends h3)
  have hmicro : m.table = us ++ vs := by
    rw [htable]
    simpa using hall.microOps
  have hus : m.Loaded 0 (us ++ vs) := by
    refine ⟨fun x _ => by rw [hmicro, Nat.zero_add], ?_⟩
    rw [Nat.zero_add, ← hmicro, htable]
    exact hsmall
  have hsize : e1.microOps.size = us.length := by
    have := hx.size
    simpa using this
  obtain ⟨s1, hs1, hk1, hmir1⟩ := hxexec hus.left (m.boot mem) (Machine.boot_mirrors hm.suits.out mem)
  obtain ⟨s2, cells, hs2, hfst, hsnd, hmem⟩ := hyexec
    (by have := hus.right; rw [Nat.zero_add] at this; rw [hsize]; exact this)
    (by rw [hsteps]; exact hm.supplied) (by rw [hk1.mem]; exact hmem0) (fun n hn => by cases hn) hmir1
    (Rows.even_blank m.b) (by rw [hsteps]; exact hrun)
  rw [hsteps] at hfst
  refine ⟨s2, cells, ?_, hfst, hsnd.symm, by rw [hmem, hk1.mem]; rfl⟩
  -- FINISH is the last instruction and the only one of its kind
  have hcode : e3.instructions.toList = (xs ++ ys ++
      [{ Instruction.nopLoad with flags := { popNext := true, pushNext := true } },
        { Instruction.nopCompute with flags := { popPrev := true } }]) ++ [Instruction.finish] := by
    have := hall.instructions
    simpa [Emission.ending] using this
  show m.run e3.instructions.toList (m.boot mem) = _
  rw [hcode, Machine.run_finish m ?_ rfl]
  · refine foldlM_append_eq_ok.2 ⟨s2, foldlM_append_eq_ok.2 ⟨s1, hs1, hs2⟩, ?_⟩
    exact foldlM_cons_eq_ok.2 ⟨s2, Machine.idle_nopLoad m s2,
      foldlM_cons_eq_ok.2 ⟨s2, Machine.idle_nopCompute m s2, rfl⟩⟩
  · refine (hxend.append hyend).append fun i hi => ?_
    rcases List.mem_cons.1 hi with rfl | hi
    · simp [Instruction.nopLoad]
    · rw [List.mem_singleton.1 hi]
      simp [Instruction.nopCompute]

/-- **It does not matter where the table of micro-operations stands**, for a whole
stream. -/
theorem Machine.run_rebase {m : Machine} {insns : List Instruction}
    (hreach : ∀ i ∈ insns, i.outOfReach m.base = false) (s : State) :
    m.run (insns.map (·.rebase m.base)) s = m.unbased.run insns s := by
  induction insns generalizing s with
  | nil => rfl
  | cons i insns ih =>
    have hop : (i.rebase m.base).opcode = i.opcode := by
      unfold Instruction.rebase
      split <;> rfl
    rw [List.map_cons, run, run, hop, exec_rebase (hreach i List.mem_cons_self)]
    split
    · rfl
    · congr 1
      funext s'
      exact ih (fun j hj => hreach j (List.mem_cons_of_mem _ hj)) s'

end Tessera
