import Mathlib.Algebra.Order.BigOperators.Group.List
import Tessera.Proofs.Output
import Tessera.Proofs.Validity

/-!
# The layout of a planned program

The tensors of a shaped program are small enough for memory, whatever was planned for
it, so a layout has them one behind the other. What the plan stores has its place there.

* `steps_laid`: what the steps of each path are.
* `steps_grain`: a plan stores either blocks throughout or vectors throughout.
* `Shaped.Common.output_blocks`: the blocks of the result.
* `planned_placeable`: the tensors can be placed.
-/

namespace Tessera

section Divisors

variable {c : Config} {b : Nat} {divisors : Divisors}

/-- The transfer units of a valid configuration. -/
theorem Config.Sound.divisors_eq (h : c.Sound b) : c.divisors = .ok
    ⟨(b * c.inp.width : Nat), (b * b * c.wgt.width : Nat), (b * c.acc.width : Nat),
      (b * c.inp.width : Nat), 4, 16⟩ := by
  have hb := h.le
  have hbb : b * b ≤ 64 * 64 := Nat.mul_le_mul hb hb
  have hinp : b * c.inp.width ≤ 64 * 4 := Nat.mul_le_mul hb h.inp.width_pos.2
  have hacc : b * c.acc.width ≤ 64 * 4 := Nat.mul_le_mul hb h.acc.width_pos.2
  have hwgt : b * b * c.wgt.width ≤ 64 * 64 * 4 := Nat.mul_le_mul hbb h.wgt.width_pos.2
  unfold Config.divisors
  rw [h.block, h.inp.bytes, h.wgt.bytes, h.acc.bytes]
  simp only [Outcome.ok_bind, ← Int.natCast_mul]
  rw [wrap64_small (x := ((b * c.inp.width : Nat) : Int)) (by omega) (by omega),
    wrap64_small (x := ((b * b : Nat) : Int)) (by omega) (by omega), ← Int.natCast_mul,
    wrap64_small (x := ((b * b * c.wgt.width : Nat) : Int)) (by omega) (by omega),
    wrap64_small (x := ((b * c.acc.width : Nat) : Int)) (by omega) (by omega)]
  rfl

theorem Config.Sound.divisor_le (h : c.Sound b) (hd : c.divisors = .ok divisors) (r : Region) :
    (r.divisor divisors).toNat ≤ 65536 := by
  have hb := h.le
  have hbb : b * b ≤ 64 * 64 := Nat.mul_le_mul hb hb
  have hinp : b * c.inp.width ≤ 64 * 4 := Nat.mul_le_mul hb h.inp.width_pos.2
  have hacc : b * c.acc.width ≤ 64 * 4 := Nat.mul_le_mul hb h.acc.width_pos.2
  have hwgt : b * b * c.wgt.width ≤ 64 * 64 * 4 := Nat.mul_le_mul hbb h.wgt.width_pos.2
  have hnat : ∀ n : Nat, n ≤ 65536 → (UInt64.ofInt (n : Int)).toNat ≤ 65536 := by
    intro n hn
    rw [ofInt_natCast64, UInt64.toNat_ofNat_of_lt' (by norm_num [UInt64.size]; omega)]
    exact hn
  rw [h.divisors_eq] at hd
  obtain rfl := Except.ok.inj hd
  cases r with
  | inp => exact hnat _ (by omega)
  | wgt => exact hnat _ (by omega)
  | acc => exact hnat _ (by omega)
  | out => exact hnat _ (by omega)
  | uop => exact hnat 4 (by omega)
  | insn => exact hnat 16 (by omega)
  | unnamed code outside => exact hnat 16 (by omega)

end Divisors

section Sizes

/-- A tensor of not too many blocks is not too large. -/
theorem Tensor.sizes_lt {t : Tensor} (hs : t.scalar.Supported)
    (hblock : ∀ k ∈ t.blocks.toList, k.data.size ≤ 4096) (hsize : t.size ≤ 35184372088832) :
    t.sizes.sum < 1152921504606846976 := by
  have hle : t.sizes.sum ≤ t.sizes.length * 16384 := by
    refine List.sum_le_card_nsmul _ _ fun n hn => ?_
    obtain ⟨k, hk, rfl⟩ := List.mem_map.1 hn
    exact Nat.mul_le_mul (hblock k hk) hs.width_pos.2
  rw [Tensor.sizes, List.length_map, Array.length_toList] at hle
  have hlen : (t.blocks.size : Int) ≤ 35184372088832 := hsize
  unfold Tensor.sizes
  omega

theorem Tensor.Regular.block_le {t : Tensor} {b br bc : Nat} (h : t.Regular b br bc) (hb' : b ≤ 64) :
    ∀ k ∈ t.blocks.toList, k.data.size ≤ 4096 := by
  intro k hk
  obtain ⟨n, hn⟩ := List.getElem?_of_mem hk
  have hblock := h.block n k (by simpa using hn)
  have hheight : k.height * b ≤ (b : Int) * b := by
    refine Int.mul_le_mul_of_nonneg_right ?_ (by omega)
    rw [hblock.height]
    omega
  have hbb : b * b ≤ 64 * 64 := Nat.mul_le_mul hb' hb'
  have := hblock.size
  have : (k.data.size : Int) ≤ ((b * b : Nat) : Int) := by
    push_cast
    omega
  omega

theorem Tensor.Regular.sizes_lt {t : Tensor} {b br bc : Nat} (h : t.Regular b br bc) (hb : 1 ≤ b)
    (hb' : b ≤ 64) (hs : t.scalar.Supported) : t.sizes.sum < 1152921504606846976 :=
  Tensor.sizes_lt hs (h.block_le hb') (h.blocks_small hb)

/-- A diagonal block is a table of zeros that fits, with the diagonal filled in. -/
theorem diagonal_eq_ok {n : Nat} {scalar : Int} {k : Block}
    (h : Block.diagonal n scalar = .ok k) : n * n ≤ 35184372088832 ∧
      k = ⟨n, Nat.fold n (fun i _ out => out.setIfInBounds (i * n + i) scalar)
        (Array.replicate (n * n) 0)⟩ := by
  unfold Block.diagonal at h
  obtain ⟨size, hsize, h⟩ := Outcome.bind_eq_ok.1 h
  simp only [Outcome.faulted_eq_ok] at h
  obtain ⟨hroom, h⟩ := h
  obtain ⟨hsize, hsmall⟩ := tableSize_eq_ok.1 hsize
  rw [← Int.natCast_mul] at hsize hroom hsmall
  have hword : wrap64 ((n * n : Nat) : Int) = (n * n : Nat) := wrap64_small (by omega) (by omega)
  rw [hword] at hsize hsmall
  obtain rfl : size = n * n := by exact_mod_cast hsize
  exact ⟨by omega, (Outcome.pure_eq_ok.1 h).symm⟩

/-- A diagonal block: its entries on the diagonal are one number, all others zero. -/
theorem diagonal_cells {n : Nat} {scalar : Int} {k : Block}
    (h : Block.diagonal n scalar = .ok k) : k.Full n ∧
      ∀ i < n, ∀ j < n, k.data.getD (i * n + j) 0 = if i = j then scalar else 0 := by
  obtain ⟨-, rfl⟩ := diagonal_eq_ok h
  -- the first `m` rows are done
  have key : ∀ m ≤ n, ∀ out, out = Nat.fold m (fun i _ (out : Array Int) =>
      out.setIfInBounds (i * n + i) scalar) (Array.replicate (n * n) 0) → out.size = n * n ∧
      ∀ i < n, ∀ j < n, out.getD (i * n + j) 0 = if i = j ∧ i < m then scalar else 0 := by
    intro m
    induction m with
    | zero =>
      rintro - out rfl
      refine ⟨by simp, fun i hi j hj => ?_⟩
      simp only [Nat.fold_zero, Array.getD_eq_getD_getElem?, Array.getElem?_replicate]
      split <;> simp
    | succ m ih =>
      rintro hm out rfl
      obtain ⟨hlen, hcells⟩ := ih (by omega) _ rfl
      rw [Nat.fold_succ]
      refine ⟨by rw [Array.size_setIfInBounds, hlen], fun i hi j hj => ?_⟩
      have hin : m * n + m < n * n := index_lt (by omega) (by omega)
      have hsame : m * n + m = i * n + j ↔ m = i ∧ m = j := index_inj (by omega) hj
      have := hcells i hi j hj
      rw [Array.getD_eq_getD_getElem?] at this ⊢
      rw [Array.getElem?_setIfInBounds, hlen]
      by_cases heq : m * n + m = i * n + j
      · obtain ⟨rfl, rfl⟩ := hsame.1 heq
        rw [if_pos heq, if_pos hin, if_pos ⟨rfl, by omega⟩]
        rfl
      · rw [if_neg heq, this]
        have : ¬(m = i ∧ m = j) := fun h => heq (hsame.2 h)
        by_cases hij : i = j
        · subst hij
          simp only [true_and]
          split <;> split <;> omega
        · simp [hij]
  obtain ⟨hlen, hcells⟩ := key n le_rfl _ rfl
  refine ⟨⟨rfl, hlen⟩, fun i hi j hj => ?_⟩
  rw [hcells i hi j hj]
  simp [hi]

end Sizes

section Grain

variable {p : Planner} {d : Shaped} {pr : Program} {c : Config} {b xr xc : Nat} {steps : List Step}

/-- The steps of each path: a product that fits or its tiles, the pieces of a multiple, operations
that fit or that evict vectors, the pairs of a sum. -/
inductive Planner.Laid (p : Planner) (d : Shaped) (acc : Scalar) (b : Nat) : List Step → Prop
  | product : p.Laid d acc b p.gemmFit
  | tiles (slices : List (List Int)) (shapes : List (List Int × List Int)) :
    p.Laid d acc b (shapes.flatMap fun q => p.tileSteps slices q.1 q.2)
  | multiple (parts : List (List Int)) : p.Laid d acc b (p.multipleSteps parts)
  | operations : p.Laid d acc b p.aluFit
  | evicting (steps : List Step) : d.Evicted acc b steps → p.Laid d acc b steps
  | sum (parts : List (List Int)) : p.Laid d acc b (p.sumSteps parts)

/-- **The steps of a plan** are those of one of the paths. -/
theorem steps_laid {path : Path} {overflow : Bool} (hb : 1 ≤ b) (hcommon : d.Common pr c b xr xc)
    (hformed : d.Formed c b xr xc) (hdata : p.data = d) (hcounts : p.counts = d.counts)
    (hresults : p.results = Std.TreeSet.ofList d.storeBlocks)
    (h : p.steps = .ok (path, overflow, steps)) : p.Laid d c.acc b steps := by
  cases hformed with
  | product ac a w hprod =>
    obtain ⟨-, h⟩ := (Planner.steps_product (by rw [hdata, hprod.form])).1 h
    split at h
    · obtain ⟨-, -, rfl⟩ := h
      exact .product
    · obtain ⟨hg, -, -, hnX, hsmall⟩ := gridded_of_product hb hcommon hprod hdata hcounts hresults
      obtain ⟨-, chunk, shapes, -, htiles, -⟩ := gemmOverflow_shapes hg hnX hsmall h.2.2
      rw [tiles_eq_ok htiles]
      exact .tiles _ _
  | multiple scalar a w factor hmul =>
    obtain ⟨-, -, hsteps⟩ := (Planner.steps_multiple (by rw [hdata, hmul.form])).1 h
    rw [(constant_eq_ok hsteps).2.1]
    exact .multiple _
  | plain hplain =>
    have h := (Planner.steps_operations (by rw [hdata, hplain.form])).1 h
    split at h
    · obtain ⟨-, -, rfl⟩ := h
      exact .operations
    · exact .evicting _ (aluOverflow_evicted hb hcommon hplain hdata h.2.2)
  | sum y hsum =>
    obtain ⟨-, -, hsteps⟩ := (Planner.steps_sum (by rw [hdata, hsum.form])).1 h
    rw [(add_eq_ok hsteps).2]
    exact .sum _

/-- Steps that store blocks, or steps that store the vectors with results. -/
def OneGrain (d : Shaped) (steps : List Step) : Prop :=
  (∀ st ∈ steps, st.storeGrain = .block) ∨
    (∀ st ∈ steps, st.storeGrain = .vector) ∧ (steps.flatMap (·.store)).Perm d.storeMask

/-- **A plan stores either blocks throughout or vectors throughout.** -/
theorem steps_grain {path : Path} {overflow : Bool} (hb : 1 ≤ b) (hcommon : d.Common pr c b xr xc)
    (hformed : d.Formed c b xr xc) (hdata : p.data = d) (hcounts : p.counts = d.counts)
    (hresults : p.results = Std.TreeSet.ofList d.storeBlocks)
    (h : p.steps = .ok (path, overflow, steps)) : OneGrain d steps := by
  cases steps_laid hb hcommon hformed hdata hcounts hresults h with
  | product =>
    refine Or.inl fun st hst => ?_
    rw [List.mem_singleton.1 hst]
  | tiles slices shapes =>
    refine Or.inl fun st hst => ?_
    obtain ⟨q, -, hst⟩ := List.mem_flatMap.1 hst
    obtain ⟨q, -, rfl⟩ := List.mem_map.1 hst
    rfl
  | multiple parts =>
    refine Or.inl fun st hst => ?_
    obtain ⟨q, -, rfl⟩ := List.mem_map.1 hst
    rfl
  | operations =>
    unfold OneGrain Planner.aluFit
    rw [hdata]
    cases hvec : d.vectorStore <;> simp
  | evicting steps hevicted =>
    refine Or.inr ⟨fun st hst => (hevicted.grain st hst).2, ?_⟩
    refine Eq.mp (congrArg (List.Perm · _) (List.flatMap_congr fun st hst => ?_)) hevicted.stores
    rw [Step.stores, (hevicted.grain st hst).2]
  | sum parts =>
    refine Or.inl fun st hst => ?_
    obtain ⟨q, -, rfl⟩ := List.mem_map.1 hst
    rfl

/-- The grain of a schedule is that of its steps. -/
theorem OneGrain.schedule {s : Schedule} (h : OneGrain d steps) (hrec : s.steps = recordStores steps) :
    (∀ st ∈ steps, st.storeGrain = s.storeGrain) ∧
      (s.storeGrain = .vector → s.stored.Perm d.storeMask) := by
  rw [stored_recordStores hrec]
  unfold Schedule.storeGrain
  rw [hrec, recordStores_eq]
  cases steps with
  | nil => simp [withStores]
  | cons t rest =>
    rw [withStores, List.head?_cons]
    rcases h with h | ⟨h, hperm⟩
    · have ht := h t List.mem_cons_self
      simp only [ht]
      exact ⟨h, fun hv => by cases hv⟩
    · have ht := h t List.mem_cons_self
      simp only [ht]
      exact ⟨h, fun _ => hperm⟩

/-- What is planned for a shaped program stores one grain. -/
theorem plan_grain {caps : Capacities} {options : PlanOptions} {s : Schedule} (hb : 1 ≤ b)
    (hcommon : d.Common pr c b xr xc) (hformed : d.Formed c b xr xc)
    (h : plan d caps options = .ok s) :
    (∀ st ∈ s.steps, st.storeGrain = s.storeGrain) ∧
      (s.storeGrain = .vector → s.stored.Perm d.storeMask) := by
  obtain ⟨strategy, steps, hplanned⟩ := plan_planned h
  obtain ⟨hsame, hperm⟩ := (steps_grain hb hcommon hformed rfl rfl rfl hplanned.planned).schedule
    hplanned.recorded
  refine ⟨fun st hst => ?_, hperm⟩
  rw [hplanned.recorded, recordStores_eq] at hst
  obtain ⟨t, ht, _, rfl⟩ := mem_withStores hst
  exact hsame t ht

end Grain

section Placeable

variable {d : Shaped} {p : Program} {c : Config} {b xr xc : Nat} {s : Schedule}

/-- The blocks of the result of a shaped program. -/
theorem Shaped.Common.output_blocks (h : d.Common p c b xr xc) (hsound : c.Sound b) :
    d.c.scalar = c.out ∧ d.c.blocks.size = xr * xc ∧ ∀ n (k : Block), d.c.blocks[n]? = some k →
      k.IsResult b (rowsOf d.final.data b) (c.out.narrowed p.clip) n := by
  have hsmall := h.x_regular.vectors_small h.x_rows
  have := outputTensor_blocks hsound.out (h.x_regular.full_blocks h.x_rows)
    (by rw [h.x_regular.size]; exact hsmall) hsound.pos h.output
  rwa [h.x_regular.size] at this

theorem Shaped.Common.output_full (h : d.Common p c b xr xc) (hsound : c.Sound b) :
    ∀ k ∈ d.c.blocks.toList, k.Full b := by
  intro k hk
  obtain ⟨n, hn⟩ := List.getElem?_of_mem hk
  exact ((h.output_blocks hsound).2.2 n k (by simpa using hn)).full

namespace Shaped.Formed

/-- An input is a matrix in blocks of the input type. -/
theorem inp (h : d.Formed c b xr xc) {t : Tensor} (ht : d.a = some t) :
    ∃ br bc, t.Regular b br bc ∧ t.role = .inp ∧ t.scalar = c.inp := by
  cases h with
  | product ac a w h =>
    rw [h.inp] at ht
    cases ht
    exact ⟨_, _, h.a_regular, h.a_role, h.a_scalar⟩
  | multiple scalar a w factor h =>
    rw [h.inp] at ht
    cases ht
    exact ⟨_, _, h.a_regular, h.a_role, h.a_scalar⟩
  | plain h =>
    rw [h.inp] at ht
    cases ht
  | sum y h =>
    rw [h.inp] at ht
    cases ht

/-- A weight is made of full blocks of the weight type. -/
theorem wgt (h : d.Formed c b xr xc) (hsound : c.Sound b) {t : Tensor} (ht : d.w = some t) :
    t.b = b ∧ t.role = .wgt ∧ t.scalar = c.wgt ∧ (∀ k ∈ t.blocks.toList, k.Full b) ∧
      t.size ≤ 35184372088832 := by
  cases h with
  | product ac a w h =>
    rw [h.wgt] at ht
    cases ht
    exact ⟨h.w_regular.side, h.w_role, h.w_scalar, h.w_regular.full_blocks h.w_rows,
      h.w_regular.blocks_small hsound.pos⟩
  | multiple scalar a w factor h =>
    rw [h.wgt] at ht
    cases ht
    have hdiag := constantWeight_diagonal h.weight
    obtain ⟨k, hk, hblocks⟩ := hdiag.block
    refine ⟨hdiag.side, hdiag.role, hdiag.type, fun k' hk' => ?_, by simp [Tensor.size, hblocks]⟩
    rw [hblocks] at hk'
    rw [show k' = k by simpa using hk']
    exact (diagonal_cells hk).1
  | plain h =>
    rw [h.wgt] at ht
    cases ht
  | sum y h =>
    rw [h.wgt] at ht
    cases ht

/-- A second accumulator has the shape of the first. -/
theorem accBis (h : d.Formed c b xr xc) {t : Tensor} (ht : d.y = some t) :
    t.Regular b xr xc ∧ t.padded.rows = (xr * b : Nat) ∧ t.role = .accBis ∧ t.scalar = c.acc := by
  cases h with
  | product ac a w h =>
    rw [h.second] at ht
    cases ht
  | multiple scalar a w factor h =>
    rw [h.second] at ht
    cases ht
  | plain h =>
    rw [h.second] at ht
    cases ht
  | sum y h =>
    rw [h.second] at ht
    cases ht
    exact ⟨h.y_regular, h.y_rows, h.y_role, h.y_scalar⟩

/-- The tensors of a shaped program have types to compute with and are not too large. -/
theorem tensor (h : d.Formed c b xr xc) (hcommon : d.Common p c b xr xc) (hsound : c.Sound b)
    {t : Tensor} (ht : d.a = some t ∨ d.w = some t ∨ d.x = t ∨ d.y = some t) :
    t.scalar.Supported ∧ t.sizes.sum < 1152921504606846976 := by
  have hb := hsound.pos
  have hb' := hsound.le
  rcases ht with ht | ht | rfl | ht
  · obtain ⟨br, bc, hreg, -, hscalar⟩ := h.inp ht
    have hs : t.scalar.Supported := hscalar ▸ hsound.inp
    exact ⟨hs, hreg.sizes_lt hb hb' hs⟩
  · obtain ⟨-, -, hscalar, hfull, hsize⟩ := h.wgt hsound ht
    have hs : t.scalar.Supported := hscalar ▸ hsound.wgt
    have hbb : b * b ≤ 64 * 64 := Nat.mul_le_mul hb' hb'
    exact ⟨hs, Tensor.sizes_lt hs (fun k hk => (hfull k hk).2.trans_le hbb) hsize⟩
  · have hs : d.x.scalar.Supported := hcommon.x_scalar ▸ hsound.acc
    exact ⟨hs, hcommon.x_regular.sizes_lt hb hb' hs⟩
  · obtain ⟨hreg, -, -, hscalar⟩ := h.accBis ht
    have hs : t.scalar.Supported := hscalar ▸ hsound.acc
    exact ⟨hs, hreg.sizes_lt hb hb' hs⟩

end Shaped.Formed

/-- The output region is not too large. -/
theorem Shaped.Common.units_small (h : d.Common p c b xr xc) (hsound : c.Sound b)
    (hstored : s.storeGrain = .vector → s.stored.Perm d.storeMask) :
    s.units d b * (b * d.c.scalar.width) < 1152921504606846976 := by
  obtain ⟨hscalar, hsize, -⟩ := h.output_blocks hsound
  have hsmall := h.x_regular.vectors_small h.x_rows
  have hunits : s.units d b ≤ xr * xc * b := by
    unfold Schedule.units
    cases hg : s.storeGrain with
    | block => rw [hsize]
    | vector =>
      have hlen := (hstored hg).length_eq
      rw [h.mask] at hlen
      have hle : (resultVectors d.form (xr * xc * b : Nat) d.ops).length ≤ xr * xc * b := by
        have hsub := List.subperm_of_subset (nodup_resultVectors d.form (xr * xc * b : Nat) d.ops)
          fun v hv => mem_below.2 (mem_resultVectors hv).1
        have := hsub.length_le
        rwa [length_below, Int.toNat_natCast] at this
      simp only
      omega
  have hw : d.c.scalar.width ≤ 4 := hscalar ▸ hsound.out.width_pos.2
  calc s.units d b * (b * d.c.scalar.width) ≤ xr * xc * b * (b * 4) :=
        Nat.mul_le_mul hunits (Nat.mul_le_mul_left _ hw)
    _ = xr * xc * b * b * 4 := by ring
    _ < 1152921504606846976 := by omega

/-- **The tensors of a planned program can be placed.** -/
theorem planned_placeable (hcommon : d.Common p c b xr xc) (hformed : d.Formed c b xr xc)
    (hsound : c.Sound b) (hstored : s.storeGrain = .vector → s.stored.Perm d.storeMask) :
    d.Placeable s b where
  side := hcommon.side
  tensor _ ht := hformed.tensor hcommon hsound ht
  scalar := (hcommon.output_blocks hsound).1 ▸ hsound.out
  full := hcommon.output_full hsound
  small := hcommon.units_small hsound hstored

end Placeable

end Tessera
