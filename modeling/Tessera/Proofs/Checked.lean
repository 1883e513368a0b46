import Tessera.Proofs.Emitting
import Tessera.Schedule.Check

/-!
# What a checked schedule holds

The check of a schedule looks at every step: the scratchpads have room for what
stands there, and whatever a step loads, computes with or stores stands in the
accumulator. With the numbers of a shaped program this is all that the lowering of a
step relies on.

* `Step.Checked`: what the check of a step tells.
* `validate_checked`: it holds for every step of a checked schedule.
* `Step.DrawnFrom`: the numbers in a step are numbers of the program.
* `sound_of_checked`: together they make a step sound.
-/

namespace Tessera

/-- A vector stands in the accumulator, alone or in its block. -/
def Step.Holds (b : Int) (st : Step) (v : Int) : Prop :=
  match st.residentGrain with
  | .vector => v ∈ st.sramResident
  | .block => wrap64 (v.tdiv b) ∈ st.sramResident

/-- What the check of a step tells. -/
structure Step.Checked (b nX : Int) (caps : Capacities) (st : Step) : Prop where
  inp : st.inpResident.length ≤ caps.inp
  wgt : st.wgtResident.length ≤ caps.wgt
  sram : (st.sramResident.length : Int) ≤ match st.residentGrain with
    | .vector => wrap64 (caps.acc * b)
    | .block => caps.acc
  loadX : ∀ n ∈ st.loadX, wrap64 (0 + n) ∈ st.sramResident
  loadY : ∀ n ∈ st.loadY, wrap64 (nX + n) ∈ st.sramResident
  gemm : ∀ c a w, .gemm c a w ∈ st.ops → c ∈ st.sramResident
  site : ∀ r sites, .alu r sites ∈ st.ops → ∀ s ∈ sites,
    st.Holds b s.dst ∧ (s.src ≠ noSource → st.Holds b s.src)
  store : ∀ v ∈ st.store, match st.storeGrain with
    | .vector => st.Holds b v
    | .block => v ∈ st.sramResident

namespace StepCheck

variable {k : StepCheck}

/-- The set of what stands in the accumulator is that of the step. -/
def Faithful (k : StepCheck) : Prop := ∀ n, k.acc.contains n = true → n ∈ k.step.sramResident

theorem holds_of_holdsVector (hk : k.Faithful) {v : Int} (h : k.holdsVector v = .ok true) :
    k.step.Holds k.b v := by
  unfold holdsVector at h
  unfold Step.Holds
  cases hgrain : k.step.residentGrain with
  | vector =>
    simp only [hgrain] at h ⊢
    exact hk v (Except.ok.inj h)
  | block =>
    simp only [hgrain] at h ⊢
    obtain ⟨q, hq, h⟩ := Outcome.bind_eq_ok.1 h
    obtain ⟨-, rfl⟩ := quotient_eq_ok.1 hq
    exact hk _ (Outcome.pure_eq_ok.1 h)

theorem loaded_mem (hk : k.Faithful) {what : String} {offset : Int} {units : List Int}
    (h : k.loaded what k.acc offset units = .ok ()) :
    ∀ u ∈ units, wrap64 (offset + u) ∈ k.step.sramResident := by
  unfold loaded at h
  split at h
  · cases h
  next hfind =>
    intro u hu
    refine hk _ ?_
    simpa using List.find?_eq_none.1 hfind u hu

theorem sites_held (hk : k.Faithful) {r : Resolved} {sites : List Site}
    (h : k.sites r sites = .ok ()) : ∀ s ∈ sites, k.step.Holds k.b s.dst ∧
      (s.src ≠ noSource → k.step.Holds k.b s.src) := by
  induction sites with
  | nil => simp
  | cons s rest ih =>
    unfold StepCheck.sites at h
    obtain ⟨hheld, h⟩ := Outcome.required_eq_ok.1 h
    refine List.forall_mem_cons.2 ⟨?_, ih h⟩
    unfold siteHeld at hheld
    obtain ⟨first, hfirst, hheld⟩ := Outcome.bind_eq_ok.1 hheld
    cases first with
    | false => cases Outcome.pure_eq_ok.1 hheld
    | true =>
      refine ⟨holds_of_holdsVector hk hfirst, fun hsrc => ?_⟩
      simp only [Bool.not_true, Bool.false_eq_true, if_false, if_neg hsrc] at hheld
      exact holds_of_holdsVector hk hheld

theorem operations_held (hk : k.Faithful) {ops : List StepOp} {seenAlu : Bool}
    (h : k.operations seenAlu ops = .ok ()) :
    (∀ c a w, .gemm c a w ∈ ops → c ∈ k.step.sramResident) ∧
      ∀ r sites, .alu r sites ∈ ops → ∀ s ∈ sites, k.step.Holds k.b s.dst ∧
        (s.src ≠ noSource → k.step.Holds k.b s.src) := by
  induction ops generalizing seenAlu with
  | nil => simp
  | cons op rest ih =>
    cases op with
    | gemm c a w =>
      unfold operations at h
      obtain ⟨-, h⟩ := Outcome.refused_eq_ok.1 h
      obtain ⟨hheld, h⟩ := Outcome.refused_eq_ok.1 h
      obtain ⟨hgemm, hsite⟩ := ih h
      refine ⟨fun c' a' w' hmem => ?_, fun r sites hmem => ?_⟩
      · rcases List.mem_cons.1 hmem with heq | hmem
        · cases heq
          refine hk _ ?_
          simp only [Bool.or_eq_true, Bool.not_eq_true', not_or, Bool.not_eq_false] at hheld
          exact hheld.2
        · exact hgemm c' a' w' hmem
      · rcases List.mem_cons.1 hmem with heq | hmem
        · cases heq
        · exact hsite r sites hmem
    | alu r sites =>
      unfold operations at h
      obtain ⟨⟨⟩, hsites, h⟩ := Outcome.bind_eq_ok.1 h
      obtain ⟨hgemm, hsite⟩ := ih h
      refine ⟨fun c a w hmem => ?_, fun r' sites' hmem => ?_⟩
      · rcases List.mem_cons.1 hmem with heq | hmem
        · cases heq
        · exact hgemm c a w hmem
      · rcases List.mem_cons.1 hmem with heq | hmem
        · cases heq
          exact sites_held hk hsites
        · exact hsite r' sites' hmem

theorem stores_held (hk : k.Faithful) {vs : List Int} (h : k.stores vs = .ok ()) :
    ∀ v ∈ vs, match k.step.storeGrain with
      | .vector => k.step.Holds k.b v
      | .block => v ∈ k.step.sramResident := by
  induction vs with
  | nil => simp
  | cons v rest ih =>
    unfold StepCheck.stores at h
    cases hgrain : k.step.storeGrain with
    | vector =>
      simp only [hgrain] at h ih ⊢
      obtain ⟨hheld, h⟩ := Outcome.required_eq_ok.1 h
      exact List.forall_mem_cons.2 ⟨holds_of_holdsVector hk hheld, ih h⟩
    | block =>
      simp only [hgrain] at h ih ⊢
      obtain ⟨hheld, h⟩ := Outcome.required_eq_ok.1 h
      exact List.forall_mem_cons.2 ⟨hk v (Outcome.pure_eq_ok.1 hheld), ih h⟩

theorem run_checked (hk : k.Faithful) {stored : List Int} (h : k.run stored = .ok ()) :
    k.step.Checked k.b k.nX k.caps := by
  unfold StepCheck.run at h
  obtain ⟨⟨⟩, hcap, h⟩ := Outcome.bind_eq_ok.1 h
  obtain ⟨-, -, h⟩ := Outcome.bind_eq_ok.1 h
  obtain ⟨-, -, h⟩ := Outcome.bind_eq_ok.1 h
  obtain ⟨-, -, h⟩ := Outcome.bind_eq_ok.1 h
  obtain ⟨⟨⟩, hloadX, h⟩ := Outcome.bind_eq_ok.1 h
  obtain ⟨⟨⟩, hloadY, h⟩ := Outcome.bind_eq_ok.1 h
  obtain ⟨⟨⟩, hops, h⟩ := Outcome.bind_eq_ok.1 h
  obtain ⟨⟨⟩, hstores, h⟩ := Outcome.bind_eq_ok.1 h
  unfold capacities at hcap
  simp only [fail] at hcap
  obtain ⟨hinp, hcap⟩ := Outcome.refused_eq_ok.1 hcap
  obtain ⟨hwgt, hcap⟩ := Outcome.refused_eq_ok.1 hcap
  obtain ⟨hgemm, hsite⟩ := operations_held hk hops
  refine ⟨by omega, by omega, ?_, loaded_mem hk hloadX, loaded_mem hk hloadY, hgemm, hsite,
    stores_held hk hstores⟩
  cases hgrain : k.step.residentGrain <;> simp only [hgrain] at hcap ⊢
  all_goals
    by_contra hover
    rw [if_pos (not_le.1 hover)] at hcap
    cases hcap

end StepCheck

theorem validateFrom_checked {s : Schedule} {i : Nat} {stored : List Int} {steps : List Step}
    (h : s.validateFrom i stored steps = .ok ()) :
    ∀ st ∈ steps, st.Checked s.b s.nX s.caps := by
  induction steps generalizing i stored with
  | nil => simp
  | cons st rest ih =>
    unfold Schedule.validateFrom at h
    obtain ⟨⟨⟩, hst, h⟩ := Outcome.bind_eq_ok.1 h
    refine List.forall_mem_cons.2 ⟨StepCheck.run_checked (fun n hn => ?_) hst, ih h⟩
    simp only [Std.TreeSet.contains_ofList] at hn
    exact (List.mem_filter.1 (List.contains_iff_mem.1 hn)).1

/-- **Every step of a checked schedule is checked.** -/
theorem validate_checked {s : Schedule} (h : s.validate = .ok ()) :
    ∀ st ∈ s.steps, st.Checked s.b s.nX s.caps := validateFrom_checked h

/-- The numbers in a step are numbers of the program: its operations are declared, and
what it loads, keeps and stores are blocks or vectors. -/
structure Step.DrawnFrom (d : Shaped) (st : Step) : Prop where
  alu : ∀ r sites, .alu r sites ∈ st.ops → r ∈ d.ops ∧ ∀ s ∈ sites, s ∈ r.sites
  gemm : ∀ c a w, .gemm c a w ∈ st.ops → st.residentGrain = .block ∧ 0 ≤ c
  resident : ∀ n ∈ st.sramResident, n < 72057594037927936
  loadX : ∀ n ∈ st.loadX, 0 ≤ n ∧ n < 72057594037927936
  loadY : ∀ n ∈ st.loadY, 0 ≤ n ∧ n < 72057594037927936
  second : st.residentGrain = .vector → st.loadY = []
  store : ∀ v ∈ st.store, 0 ≤ v ∧ v < 72057594037927936
  grain : st.storeGrain = .block → st.residentGrain = .block

section

variable {d : Shaped} {st : Step} {b : Nat}

theorem Step.place_of_mem {n r : Int} (hb : 1 ≤ b) (hgrain : st.residentGrain = .block) (hn : 0 ≤ n)
    (hmem : n ∈ st.sramResident) (hr : 0 ≤ r ∧ r < b) :
    ∃ row, st.place b (n * b + r) = some row := by
  have hpos : 0 ≤ n * b := Int.mul_nonneg hn (by omega)
  obtain ⟨hdiv, -⟩ := row_col_ediv (i := n) hr.1 hr.2
  obtain ⟨i, hi⟩ := exists_idxOf? hmem
  unfold Step.place
  rw [if_neg (by omega), hgrain]
  simp only [hdiv, hi]
  exact ⟨_, rfl⟩

theorem Step.place_of_holds (hb : 1 ≤ b) {v : Int} (h0 : 0 ≤ v) (hv : v < 4611686018427387904)
    (h : st.Holds b v) : ∃ row, st.place b v = some row := by
  unfold Step.Holds at h
  unfold Step.place
  rw [if_neg (by omega)]
  cases hgrain : st.residentGrain with
  | vector =>
    rw [hgrain] at h
    exact exists_idxOf? h
  | block =>
    rw [hgrain] at h
    have hdiv : v.tdiv b = v / b := Int.tdiv_eq_ediv_of_nonneg h0
    have hle : v / b ≤ v := Int.ediv_le_self _ h0
    have hnn : 0 ≤ v / b := Int.ediv_nonneg h0 (by omega)
    simp only [hdiv] at h
    rw [wrap64_small (by omega) (by omega)] at h
    obtain ⟨i, hi⟩ := exists_idxOf? h
    simp only [hi]
    exact ⟨_, rfl⟩

/-- A step within the capacities of a machine takes few rows. -/
theorem Step.Checked.bounded {nX : Int} {caps : Capacities} (h : st.Checked b nX caps)
    (hcaps : caps.Within b) (hdrawn : st.DrawnFrom d) : st.Bounded b where
  inp := by
    have := Int.mul_le_mul_of_nonneg_right h.inp (show (0 : Int) ≤ b by omega)
    have := hcaps.inp_rows
    zify
    omega
  wgt := by
    have := h.wgt
    have := hcaps.wgt_le
    omega
  sram := by
    have hsram := h.sram
    have hrows := hcaps.acc_rows
    unfold Step.rowCount
    cases hgrain : st.residentGrain with
    | vector =>
      have := hcaps.acc_pos
      have : 0 ≤ caps.acc * b := Int.mul_nonneg (by omega) (by omega)
      simp only [hgrain] at hsram ⊢
      rw [wrap64_small (by omega) (by omega)] at hsram
      omega
    | block =>
      simp only [hgrain] at hsram ⊢
      have := Int.mul_le_mul_of_nonneg_right hsram (show (0 : Int) ≤ b by omega)
      zify
      omega
  number := hdrawn.resident
  second := hdrawn.second

/-- What a checked step loads stands in the accumulator. -/
theorem Step.Checked.loads {caps : Capacities} (hb : 1 ≤ b) (hside : d.b = b)
    (hnX : d.counts.nX < 72057594037927936) (hnX0 : 0 ≤ d.counts.nX)
    (h : st.Checked b d.counts.nX caps) (hdrawn : st.DrawnFrom d) :
    ∀ v ∈ st.loads d, ∃ row, st.place d.b v = some row := by
  intro v hv
  rw [hside]
  unfold Step.loads at hv
  cases hgrain : st.residentGrain with
  | vector =>
    rw [hgrain] at hv
    obtain ⟨h0, hlt⟩ := hdrawn.loadX v hv
    have hmem := h.loadX v hv
    rw [Int.zero_add, wrap64_small (by omega) (by omega)] at hmem
    exact Step.place_of_holds hb h0 (by omega) (by rw [Step.Holds, hgrain]; exact hmem)
  | block =>
    rw [hgrain] at hv
    obtain ⟨n, hn, hv⟩ := List.mem_flatMap.1 hv
    obtain ⟨r, hr, rfl⟩ := List.mem_map.1 hv
    rw [hside] at hr ⊢
    rcases List.mem_append.1 hn with hn | hn
    · obtain ⟨h0, hlt⟩ := hdrawn.loadX n hn
      have hmem := h.loadX n hn
      rw [Int.zero_add, wrap64_small (by omega) (by omega)] at hmem
      exact Step.place_of_mem hb hgrain h0 hmem (mem_below.1 hr)
    · obtain ⟨k, hk, rfl⟩ := List.mem_map.1 hn
      obtain ⟨h0, hlt⟩ := hdrawn.loadY k hk
      have hmem := h.loadY k hk
      rw [wrap64_small (by omega) (by omega)] at hmem
      exact Step.place_of_mem hb hgrain (by omega) hmem (mem_below.1 hr)

/-- What the operations of a checked step read stands in the accumulator. -/
theorem Step.Checked.reads {nX : Int} {caps : Capacities} {acc : Scalar} {vectors total : Int}
    (hb : 1 ≤ b) (hside : d.b = b) (hon : ∀ r ∈ d.ops, r.OnVectors vectors total)
    (hv : vectors < 4611686018427387904) (ht : total < 4611686018427387904)
    (h : st.Checked b nX caps) (hdrawn : st.DrawnFrom d) :
    ∀ a ∈ st.actions d acc, ∀ u ∈ a.reads, ∃ row, st.place d.b u = some row := by
  intro a ha u hu
  rw [hside]
  obtain ⟨op, hop, ha⟩ := List.mem_flatMap.1 ha
  cases op with
  | gemm c x w =>
    obtain ⟨r, hr, rfl⟩ := List.mem_map.1 ha
    obtain ⟨hgrain, hc⟩ := hdrawn.gemm c x w hop
    obtain rfl : u = c * d.b + r := by simpa [Action.reads, productAction] using hu
    rw [hside] at hr ⊢
    exact Step.place_of_mem hb hgrain hc (h.gemm c x w hop) (mem_below.1 hr)
  | alu r sites =>
    obtain ⟨s, hs, rfl⟩ := List.mem_map.1 ha
    obtain ⟨hr, hsites⟩ := hdrawn.alu r sites hop
    obtain ⟨hdst, hsrc⟩ := h.site r sites hop s hs
    rcases List.mem_cons.1 hu with rfl | hu
    · obtain ⟨h0, hlt⟩ := (hon r hr).dst s (hsites s hs)
      exact Step.place_of_holds hb h0 (by show s.dst < _; omega) hdst
    · have himm : r.useImm = false := by
        by_contra himm
        simp [Resolved.action, himm] at hu
      obtain rfl : u = s.src := by simpa [Resolved.action, himm] using hu
      obtain ⟨h0, hlt⟩ := (hon r hr).src himm s (hsites s hs)
      exact Step.place_of_holds hb h0 (by omega) (hsrc (by unfold noSource; omega))

/-- What a checked step stores stands in the accumulator. -/
theorem Step.Checked.stores {nX : Int} {caps : Capacities} (hb : 1 ≤ b) (hside : d.b = b)
    (h : st.Checked b nX caps) (hdrawn : st.DrawnFrom d) :
    ∀ v ∈ st.stores d, ∃ row, st.place d.b v = some row := by
  intro v hv
  rw [hside]
  have hstore := h.store
  unfold Step.stores at hv
  cases hgrain : st.storeGrain with
  | vector =>
    simp only [hgrain] at hv hstore
    obtain ⟨h0, hlt⟩ := hdrawn.store v hv
    exact Step.place_of_holds hb h0 (by omega) (hstore v hv)
  | block =>
    simp only [hgrain] at hv hstore
    obtain ⟨n, hn, hv⟩ := List.mem_flatMap.1 hv
    obtain ⟨r, hr, rfl⟩ := List.mem_map.1 hv
    rw [hside] at hr ⊢
    exact Step.place_of_mem hb (hdrawn.grain hgrain) (hdrawn.store n hn).1 (hstore n hn)
      (mem_below.1 hr)

/-- **A checked step is sound.** -/
theorem sound_of_checked {p : Program} {c : Config} {xr xc : Nat} {caps : Capacities} (hb : 1 ≤ b)
    (hcommon : d.Common p c b xr xc) (hcaps : caps.Within b)
    (h : st.Checked b d.counts.nX caps) (hdrawn : st.DrawnFrom d) : st.Sound d c.acc b := by
  have hsmall := hcommon.x_regular.vectors_small hcommon.x_rows
  have hle : xr * xc * b ≤ xr * xc * b * b := Nat.le_mul_of_pos_right _ hb
  have hle' : xr * xc ≤ xr * xc * b := Nat.le_mul_of_pos_right _ hb
  have hnX : d.counts.nX = (xr * xc : Nat) := congrArg Int.ofNat hcommon.x_regular.size
  have hon := fun r (hr : r ∈ d.ops) => hcommon.onVectors hr
  refine ⟨h.bounded hcaps hdrawn, ⟨h.loads hb hcommon.side (by omega) (by omega) hdrawn,
    h.reads hb hcommon.side hon (by omega) (by split <;> omega) hdrawn,
    fun c a w hop => (hdrawn.gemm c a w hop).1,
    fun r sites hop => (hon r (hdrawn.alu r sites hop).1).imm⟩,
    h.stores hb hcommon.side hdrawn, hdrawn.grain⟩

end

end Tessera
