import Tessera.Proofs.Checked
import Tessera.Proofs.Stored

/-!
# Steps that pass the check

What a schedule has to be made of so that its check passes: steps that keep within the
scratchpads and work on what stands there. It is stated in the numbers of the shaped
program, so that it also tells what can be looked up for such a step.

* `Step.Proper`: what a step keeps to.
* `StepCheck.run_proper`: the check of a proper step passes.
* `validate_proper`: so does that of a schedule whose stores are on record.
-/

namespace Tessera

/-- The units of the first accumulator that a step counts: blocks or vectors. -/
def Step.units (d : Shaped) (st : Step) : Int :=
  match st.residentGrain with
  | .vector => d.vectors
  | .block => d.counts.nX

/-- What a step keeps to. The scratchpads have room for what stands there, and nothing
stands in the accumulator twice. What is loaded, multiplied, computed with and stored are
blocks or vectors of the program that stand there, and products come first. -/
structure Step.Proper (d : Shaped) (caps : Capacities) (st : Step) : Prop where
  inputs : st.inpResident = st.loadA ∧ st.loadA.length ≤ caps.inp
  input : ∀ n ∈ st.loadA, 0 ≤ n ∧ n < d.counts.nA
  weights : st.loadB.length ≤ caps.wgt ∧ st.wgtResident.length ≤ caps.wgt
  weight : ∀ n ∈ st.loadB, n ∈ st.wgtResident ∧ 0 ≤ n ∧ n < d.counts.nB
  room : (st.sramResident.length : Int) ≤ match st.residentGrain with
    | .vector => caps.acc * d.b
    | .block => caps.acc
  distinct : (st.sramResident.filter (· ≠ free)).Nodup
  resident : ∀ n ∈ st.sramResident, n < 2 * st.units d
  loadX : ∀ n ∈ st.loadX, n ∈ st.sramResident ∧ 0 ≤ n ∧ n < st.units d
  loadY : ∀ n ∈ st.loadY, d.counts.nX + n ∈ st.sramResident ∧ 0 ≤ n ∧ n < d.counts.nX
  second : st.loadY ≠ [] → st.residentGrain = .block ∧ d.form = .add
  ordered : ∃ products others, st.ops = products ++ others ∧
    (∀ op ∈ products, op.isGemm = true) ∧ ∀ op ∈ others, op.isGemm = false
  gemm : ∀ c a w, .gemm c a w ∈ st.ops → st.residentGrain = .block ∧
    (0 ≤ c ∧ c ∈ st.sramResident) ∧ a ∈ st.inpResident ∧ w ∈ st.wgtResident
  alu : ∀ r sites, .alu r sites ∈ st.ops → r ∈ d.ops ∧ ∀ s ∈ sites, s ∈ r.sites ∧
    st.Holds d.b s.dst ∧ (s.src ≠ noSource → st.Holds d.b s.src)
  store : ∀ v ∈ st.store, 0 ≤ v ∧ match st.storeGrain with
    | .vector => v < d.vectors ∧ st.Holds d.b v
    | .block => v < d.counts.nX ∧ v ∈ st.sramResident
  grain : st.storeGrain = .block → st.residentGrain = .block

section Duplicates

/-- Numbers of which none was seen are not found twice. -/
theorem seen_fold {xs : List Int} (seen twice : Std.TreeSet Int) (h : xs.Nodup)
    (hnew : ∀ x ∈ xs, seen.contains x = false) :
    (xs.foldl (fun (q : Std.TreeSet Int × Std.TreeSet Int) x =>
      if q.1.contains x then (q.1, q.2.insert x) else (q.1.insert x, q.2)) (seen, twice)).2 =
      twice := by
  induction xs generalizing seen with
  | nil => rfl
  | cons x xs ih =>
    obtain ⟨hx, hxs⟩ := List.nodup_cons.1 h
    rw [List.foldl_cons]
    simp only [hnew x List.mem_cons_self, Bool.false_eq_true, if_false]
    refine ih _ hxs fun y hy => ?_
    have hne : x ≠ y := fun heq => hx (heq ▸ hy)
    simp [Std.TreeSet.contains_insert, hnew y (List.mem_cons_of_mem _ hy), hne]

theorem left_fold (xs found : List Int) :
    (xs.foldl (fun (q : List Int × Std.TreeSet Int) x =>
      if q.2.contains x then (x :: q.1, q.2.erase x) else (q.1, q.2)) (found, {})).1 = found := by
  induction xs generalizing found with
  | nil => rfl
  | cons x xs ih =>
    rw [List.foldl_cons]
    simpa using ih found

theorem duplicates_nodup {xs : List Int} (h : xs.Nodup) : duplicates xs = [] := by
  unfold duplicates
  simp only
  rw [seen_fold {} {} h (by simp), left_fold, List.reverse_nil]

end Duplicates

/-- A vector stands in the accumulator if its block does. -/
theorem Step.holds_block {st : Step} {b v : Int} (hb : 1 ≤ b) (hv : 0 ≤ v)
    (hsmall : v < 9223372036854775808) (hgrain : st.residentGrain = .block) :
    st.Holds b v ↔ v / b ∈ st.sramResident := by
  have hle : v / b ≤ v := Int.ediv_le_self _ hv
  have hnn : 0 ≤ v / b := Int.ediv_nonneg hv (by omega)
  unfold Step.Holds
  rw [hgrain]
  simp only
  rw [Int.tdiv_eq_ediv_of_nonneg hv, wrap64_small (by omega) (by omega)]

/-- The numbers of blocks and of vectors are far below the words'. -/
theorem Shaped.Common.sizes {d : Shaped} {p : Program} {c : Config} {b xr xc : Nat} (hb : 1 ≤ b)
    (h : d.Common p c b xr xc) : d.counts.nX = (xr * xc : Nat) ∧ d.vectors = (xr * xc * b : Nat) ∧
      xr * xc ≤ xr * xc * b ∧ xr * xc * b ≤ 35184372088832 := by
  have hsmall := h.x_regular.vectors_small h.x_rows
  have hle : xr * xc * b ≤ xr * xc * b * b := Nat.le_mul_of_pos_right _ hb
  have hX : d.counts.nX = (xr * xc : Nat) := congrArg Int.ofNat h.x_regular.size
  refine ⟨hX, ?_, Nat.le_mul_of_pos_right _ hb, by omega⟩
  unfold Shaped.vectors
  rw [show d.x.size = d.counts.nX from rfl, hX, h.side]
  push_cast
  rfl

theorem Tensor.Regular.blocks_small {t : Tensor} {b br bc : Nat} (h : t.Regular b br bc)
    (hb : 1 ≤ b) : t.size ≤ 35184372088832 := by
  have hbr : (br : Int) ≤ t.padded.rows := by
    have hgt := h.rows_gt
    have hpos := h.rows_pos
    by_contra hlt
    have := Int.mul_le_mul_of_nonneg_right (show (1 : Int) ≤ b by omega)
      (show 0 ≤ (br : Int) - 1 by omega)
    push_cast at hgt
    nlinarith
  have hbc : (bc : Int) ≤ t.padded.cols := by
    rw [h.cols]
    push_cast
    exact le_mul_of_one_le_right (by omega) (by omega)
  have := Int.mul_le_mul hbr hbc (by omega) (by omega)
  have hsmall := h.small
  rw [Tensor.size, h.size]
  push_cast
  omega

/-- The weight of a constant product: one diagonal block, which stands for a diagonal
matrix. -/
structure Tensor.Diagonal (w : Tensor) (c : Config) (b n scalar : Int) (factor : Matrix) : Prop where
  inside : c.wgt.contains scalar = .ok true
  block : ∃ k, Block.diagonal b scalar = .ok k ∧ w.blocks = #[k]
  side : w.b = b
  role : w.role = .wgt
  type : w.scalar = c.wgt
  matrix : ∃ k, Block.diagonal n scalar = .ok k ∧ factor = ⟨n, n, k.data⟩

theorem constantWeight_diagonal {c : Config} {b n scalar : Int} {w : Tensor} {factor : Matrix}
    (h : Shaped.constantWeight c b n scalar = .ok (w, factor)) : w.Diagonal c b n scalar factor := by
  unfold Shaped.constantWeight at h
  obtain ⟨inside, hinside, h⟩ := Outcome.bind_eq_ok.1 h
  split at h
  · obtain ⟨name, -, h⟩ := Outcome.bind_eq_ok.1 h
    obtain ⟨-, h, -⟩ := Outcome.bind_eq_ok.1 h
    cases h
  · rename_i hin
    obtain ⟨block, hblock, h⟩ := Outcome.bind_eq_ok.1 h
    obtain ⟨whole, hwhole, h⟩ := Outcome.bind_eq_ok.1 h
    cases Outcome.pure_eq_ok.1 h
    obtain rfl : inside = true := by simpa using hin
    exact ⟨hinside, ⟨block, hblock, rfl⟩, rfl, rfl, rfl, whole, hwhole, rfl⟩

/-- The numbers of input and weight blocks are far below the words'. -/
theorem Shaped.Formed.operands_small {d : Shaped} {c : Config} {b xr xc : Nat} (hb : 1 ≤ b)
    (h : d.Formed c b xr xc) : d.counts.nA ≤ 35184372088832 ∧ d.counts.nB ≤ 35184372088832 := by
  unfold Shaped.counts
  cases h with
  | product ac a w h =>
    rw [h.inp, h.wgt]
    exact ⟨h.a_regular.blocks_small hb, h.w_regular.blocks_small hb⟩
  | multiple scalar a w factor h =>
    rw [h.inp, h.wgt]
    refine ⟨h.a_regular.blocks_small hb, ?_⟩
    obtain ⟨block, -, hw⟩ := (constantWeight_diagonal h.weight).block
    simp [hw, Tensor.size]
  | plain h =>
    rw [h.inp, h.wgt]
    simp
  | sum y h =>
    rw [h.inp, h.wgt]
    simp

namespace StepCheck

variable {k : StepCheck} {d : Shaped}

/-- The sets are those of what stands in the scratchpads. -/
structure Exact (k : StepCheck) : Prop where
  inp : ∀ n ∈ k.step.inpResident, k.inp.contains n = true
  wgt : ∀ n ∈ k.step.wgtResident, k.wgt.contains n = true
  acc : ∀ n ∈ k.step.sramResident, n ≠ free → k.acc.contains n = true

theorem Exact.sram (hk : k.Exact) {n : Int} (hn : n ∈ k.step.sramResident) (h0 : 0 ≤ n) :
    k.acc.contains n = true := hk.acc n hn (by unfold free; omega)

theorem holdsVector_of_holds (hk : k.Exact) (hb : 1 ≤ k.b) {v : Int} (hv : 0 ≤ v)
    (hsmall : v < 9223372036854775808) (h : k.step.Holds k.b v) : k.holdsVector v = .ok true := by
  unfold holdsVector
  cases hgrain : k.step.residentGrain with
  | vector =>
    unfold Step.Holds at h
    simp only [hgrain] at h ⊢
    rw [hk.sram h hv]
  | block =>
    have hmem := (Step.holds_block hb hv hsmall hgrain).1 h
    simp only
    rw [quotient_small hv hsmall (by omega), Outcome.ok_bind,
      hk.sram hmem (Int.ediv_nonneg hv (by omega))]
    rfl

theorem loaded_ok {what : String} {resident : Std.TreeSet Int} {offset : Int} {units : List Int}
    (h : ∀ u ∈ units, resident.contains (wrap64 (offset + u)) = true) :
    k.loaded what resident offset units = .ok () := by
  unfold loaded
  rw [List.find?_eq_none.2 fun u hu => by simp [h u hu]]

theorem sites_ok (hk : k.Exact) (hb : 1 ≤ k.b) {r : Resolved} {sites : List Site}
    (h : ∀ s ∈ sites, (0 ≤ s.dst ∧ s.dst < 9223372036854775808 ∧ k.step.Holds k.b s.dst) ∧
      (s.src ≠ noSource → 0 ≤ s.src ∧ s.src < 9223372036854775808 ∧ k.step.Holds k.b s.src)) :
    k.sites r sites = .ok () := by
  induction sites with
  | nil => rfl
  | cons s rest ih =>
    obtain ⟨⟨⟨h0, hlt, hdst⟩, hsrc⟩, hrest⟩ := List.forall_mem_cons.1 h
    have hheld : k.siteHeld s = .ok true := by
      unfold siteHeld
      refine Outcome.bind_ok (holdsVector_of_holds hk hb h0 hlt hdst) ?_
      simp only [Bool.not_true, Bool.false_eq_true, if_false]
      split
      · rfl
      · rename_i hne
        obtain ⟨h0, hlt, hsrc⟩ := hsrc hne
        exact holdsVector_of_holds hk hb h0 hlt hsrc
    unfold StepCheck.sites
    refine Outcome.bind_ok hheld ?_
    simpa using ih hrest

theorem others_ok {ops : List StepOp} (halu : ∀ op ∈ ops, op.isGemm = false)
    (h : ∀ r sites, .alu r sites ∈ ops → k.sites r sites = .ok ()) (seenAlu : Bool) :
    k.operations seenAlu ops = .ok () := by
  induction ops generalizing seenAlu with
  | nil => rfl
  | cons op rest ih =>
    cases op with
    | gemm c a w => cases halu _ List.mem_cons_self
    | alu r sites =>
      unfold operations
      refine Outcome.bind_ok (h r sites List.mem_cons_self) ?_
      exact ih (fun op hop => halu op (List.mem_cons_of_mem _ hop))
        (fun r sites hop => h r sites (List.mem_cons_of_mem _ hop)) true

theorem operations_ok {products others : List StepOp} (hgemm : ∀ op ∈ products, op.isGemm = true)
    (halu : ∀ op ∈ others, op.isGemm = false)
    (hp : ∀ c a w, .gemm c a w ∈ products → k.inp.contains a = true ∧ k.wgt.contains w = true ∧
      k.acc.contains c = true)
    (hs : ∀ r sites, .alu r sites ∈ others → k.sites r sites = .ok ()) :
    k.operations false (products ++ others) = .ok () := by
  induction products with
  | nil => exact others_ok halu hs false
  | cons op rest ih =>
    cases op with
    | alu r sites => cases hgemm _ List.mem_cons_self
    | gemm c a w =>
      obtain ⟨ha, hw, hc⟩ := hp c a w List.mem_cons_self
      rw [List.cons_append]
      unfold operations
      simpa [ha, hw, hc] using ih (fun op hop => hgemm op (List.mem_cons_of_mem _ hop))
        fun c a w hop => hp c a w (List.mem_cons_of_mem _ hop)

theorem stores_ok {vs : List Int} (h : ∀ v ∈ vs, (match k.step.storeGrain with
      | .vector => k.holdsVector v
      | .block => pure (k.acc.contains v)) = .ok true) : k.stores vs = .ok () := by
  induction vs with
  | nil => rfl
  | cons v rest ih =>
    obtain ⟨hv, hrest⟩ := List.forall_mem_cons.1 h
    unfold StepCheck.stores
    cases hgrain : k.step.storeGrain with
    | vector =>
      simp only [hgrain] at hv ⊢
      exact Outcome.bind_ok hv (by simpa using ih hrest)
    | block =>
      simp only [hgrain] at hv ⊢
      exact Outcome.bind_ok hv (by simpa using ih hrest)

/-- What stands in the scratchpads has room there. -/
theorem capacities_ok {b : Nat} (hdata : d.b = b) (hside : k.b = d.b) (hcaps : k.caps.Within b)
    (h : k.step.Proper d k.caps) : k.capacities = .ok () := by
  obtain ⟨hinp, hinpLe⟩ := h.inputs
  obtain ⟨hwgtLoad, hwgt⟩ := h.weights
  have hroom := h.room
  have hacc := hcaps.acc_pos
  have hrows := hcaps.acc_rows
  have hpos : 0 ≤ k.caps.acc * b := Int.mul_nonneg (by omega) (by omega)
  unfold capacities
  rw [hside, hdata]
  rw [hdata] at hroom
  simp only [hinp]
  rw [if_neg (by omega), if_neg (by omega)]
  cases hgrain : k.step.residentGrain with
  | vector =>
    simp only [hgrain] at hroom ⊢
    rw [wrap64_small (by omega) (by omega), if_neg (by omega)]
    rfl
  | block =>
    simp only [hgrain] at hroom ⊢
    rw [if_neg (by omega)]
    rfl

/-- The vectors of a site that a proper step runs on stand in its accumulator. -/
theorem site_held {p : Program} {c : Config} {b xr xc : Nat} (hb : 1 ≤ b)
    (hcommon : d.Common p c b xr xc) (h : k.step.Proper d k.caps) {r : Resolved}
    {sites : List Site} (hop : .alu r sites ∈ k.step.ops) {s : Site} (hs : s ∈ sites) :
    (0 ≤ s.dst ∧ s.dst < 9223372036854775808 ∧ k.step.Holds d.b s.dst) ∧
      (s.src ≠ noSource →
        0 ≤ s.src ∧ s.src < 9223372036854775808 ∧ k.step.Holds d.b s.src) := by
  obtain ⟨hX, hV, hle, hsmall⟩ := hcommon.sizes hb
  obtain ⟨hr, hsites⟩ := h.alu r sites hop
  obtain ⟨hsr, hdst, hsrc⟩ := hsites s hs
  have hon := hcommon.onVectors hr
  obtain ⟨h0, hlt⟩ := hon.dst s hsr
  refine ⟨⟨h0, by omega, hdst⟩, fun hne => ?_⟩
  have himm : r.useImm = false := by
    by_contra himm
    exact hne (hon.plain (by simpa using himm) s hsr)
  obtain ⟨h1, hlt1⟩ := hon.src himm s hsr
  refine ⟨h1, ?_, hsrc hne⟩
  split at hlt1 <;> omega

/-- **The check of a proper step passes.** -/
theorem run_proper {p : Program} {c : Config} {b xr xc : Nat} (hb : 1 ≤ b)
    (hcommon : d.Common p c b xr xc) (hformed : d.Formed c b xr xc) (hcaps : k.caps.Within b)
    (hk : k.Exact) (hside : k.b = d.b) (hnX : k.nX = d.counts.nX) (h : k.step.Proper d k.caps) :
    k.run k.step.dramState = .ok () := by
  obtain ⟨hX, hV, hle, hsmall⟩ := hcommon.sizes hb
  obtain ⟨hA, hB⟩ := hformed.operands_small hb
  have hunits : k.step.units d ≤ 35184372088832 := by
    unfold Step.units
    split <;> omega
  have hkb : 1 ≤ k.b := by
    rw [hside, hcommon.side]
    omega
  have hword : ∀ {n : Int}, 0 ≤ n → n < 9223372036854775808 → wrap64 (0 + n) = n := by
    intro n h0 hlt
    rw [Int.zero_add, wrap64_small (by omega) hlt]
  have hinp := h.inputs.1
  unfold StepCheck.run
  refine Outcome.bind_ok (a := ()) ?_ (Outcome.bind_ok (a := ()) ?_ (Outcome.bind_ok (a := ()) ?_
    (Outcome.bind_ok (a := ()) ?_ (Outcome.bind_ok (a := ()) ?_ (Outcome.bind_ok (a := ()) ?_
    (Outcome.bind_ok (a := ()) ?_ (Outcome.bind_ok (a := ()) ?_ ?_)))))))
  · exact capacities_ok hcommon.side hside hcaps h
  · unfold distinct
    rw [duplicates_nodup h.distinct]
  · refine loaded_ok fun n hn => ?_
    obtain ⟨h0, hlt⟩ := h.input n hn
    rw [hword h0 (by omega)]
    exact hk.inp n (hinp ▸ hn)
  · refine loaded_ok fun n hn => ?_
    obtain ⟨hmem, h0, hlt⟩ := h.weight n hn
    rw [hword h0 (by omega)]
    exact hk.wgt n hmem
  · refine loaded_ok fun n hn => ?_
    obtain ⟨hmem, h0, hlt⟩ := h.loadX n hn
    rw [hword h0 (by omega)]
    exact hk.sram hmem h0
  · refine loaded_ok fun n hn => ?_
    obtain ⟨hmem, h0, hlt⟩ := h.loadY n hn
    rw [hnX, wrap64_small (by omega) (by omega)]
    exact hk.sram hmem (by omega)
  · obtain ⟨products, others, hops, hgemm, halu⟩ := h.ordered
    rw [hops]
    refine operations_ok hgemm halu (fun c a w hop => ?_) fun r sites hop => sites_ok hk hkb fun s hs => ?_
    · obtain ⟨-, ⟨h0, hc⟩, ha, hw⟩ := h.gemm c a w (by rw [hops]; exact List.mem_append_left _ hop)
      exact ⟨hk.inp a ha, hk.wgt w hw, hk.sram hc h0⟩
    · rw [hside]
      exact site_held hb hcommon h (by rw [hops]; exact List.mem_append_right _ hop) hs
  · refine stores_ok fun v hv => ?_
    obtain ⟨h0, hstore⟩ := h.store v hv
    cases hgrain : k.step.storeGrain with
    | vector =>
      simp only [hgrain] at hstore ⊢
      exact holdsVector_of_holds hk hkb h0 (by omega) (hside ▸ hstore.2)
    | block =>
      simp only [hgrain] at hstore ⊢
      rw [hk.sram hstore.2 h0]
      rfl
  · simp

end StepCheck

/-- **A schedule of proper steps whose stores are on record passes the check.** -/
theorem validate_proper {d : Shaped} {p : Program} {c : Config} {b xr xc : Nat} {s : Schedule}
    {steps : List Step} (hb : 1 ≤ b) (hcommon : d.Common p c b xr xc)
    (hformed : d.Formed c b xr xc) (hcaps : s.caps.Within b) (hside : s.b = d.b)
    (hnX : s.nX = d.counts.nX) (hrec : s.steps = recordStores steps)
    (h : ∀ st ∈ steps, st.Proper d s.caps) : s.validate = .ok () := by
  have key : ∀ (steps : List Step) (i : Nat) (stored : List Int),
      (∀ st ∈ steps, st.Proper d s.caps) →
      s.validateFrom i stored (withStores stored steps) = .ok () := by
    intro steps
    induction steps with
    | nil => intros; rfl
    | cons st rest ih =>
      intro i stored h
      obtain ⟨hst, hrest⟩ := List.forall_mem_cons.1 h
      unfold withStores Schedule.validateFrom
      refine Outcome.bind_ok (a := ()) ?_ (ih _ _ hrest)
      refine StepCheck.run_proper hb hcommon hformed hcaps ⟨fun n hn => ?_, fun n hn => ?_,
        fun n hn hne => ?_⟩ hside hnX { hst with }
      · simpa [Std.TreeSet.contains_ofList] using hn
      · simpa [Std.TreeSet.contains_ofList] using hn
      · simpa [Std.TreeSet.contains_ofList] using ⟨hn, hne⟩
  unfold Schedule.validate
  rw [hrec, recordStores_eq]
  exact key steps 0 [] h

end Tessera
