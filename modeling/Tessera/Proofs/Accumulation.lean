import Tessera.Proofs.Paths
import Tessera.Proofs.Stored
import Tessera.Proofs.Tiling

/-!
# How a product is accumulated

Whatever the strategy, the schedule of a product is a list of tiles. So every
product of blocks is computed once, each output block has one stay in the
accumulator, and its operations follow its products.

* `Planner.Tiled`: steps that are the steps of some tiles.
* `gemmFit_tiled`, `gemmOverflow_tiled`: a product that fits is one tile, and the
  four strategies make tiles.
* `walk_progress`: three of the strategies cannot fail.
* `Shaped.Accumulated`: the protocol of one output block.
* `plan_accumulates`: every schedule of a product keeps it.
-/

namespace Tessera

/-- Steps that are the steps of tiles, all cut into the same slices; the operations
on a block of a tile have all their vectors in the tile. -/
def Planner.Tiled (p : Planner) (xr xc ac : Int) (steps : List Step) : Prop :=
  ∃ shapes slices, Tiling xr xc shapes ∧ slices.flatten = below ac ∧
    steps = (shapes.flatMap fun q => p.tileSteps slices q.1 q.2) ∧
    ∀ q ∈ shapes, ∀ i ∈ q.1, ∀ j ∈ q.2, ∀ e ∈ p.data.declared,
      e.touches p.data.b (i * xc + j) = true →
        e.inside p.data.b (tileBlocks xc q.1 q.2) = true

theorem rejectVector_eq_ok {p : Planner} :
    p.rejectVector = .ok () ↔ ∀ r ∈ p.data.ops, r.useImm = true := by
  unfold Planner.rejectVector
  cases hf : p.data.ops.find? (·.isVector) with
  | some r =>
    simp only [Outcome.diagnose_ne_ok, false_iff, not_forall]
    refine ⟨r, List.mem_of_find?_eq_some hf, ?_⟩
    have := List.find?_some hf
    simp only [Resolved.isVector, Bool.not_eq_true'] at this
    simp [this]
  | none =>
    simp only [true_iff]
    intro r hr
    have := List.find?_eq_none.1 hf r hr
    simpa [Resolved.isVector] using this

/-- Operations that read no second vector have their vectors in any blocks they
touch. -/
theorem touches_inside_of_plain {d : Shaped} {vectors total : Int}
    (hon : ∀ r ∈ d.ops, r.OnVectors vectors total) (hplain : ∀ r ∈ d.ops, r.useImm = true)
    {n : Int} {resident : List Int} (hn : n ∈ resident) {e : Event} (he : e ∈ d.declared)
    (ht : e.touches d.b n = true) : e.inside d.b resident = true := by
  obtain ⟨r, hr, he⟩ := List.mem_flatMap.1 he
  obtain ⟨s, hs, rfl⟩ := List.mem_map.1 he
  have hsrc := (hon r hr).plain (hplain r hr) s hs
  simp only [Event.touches, hsrc, bne_self_eq_false, Bool.false_and, Bool.or_false,
    beq_iff_eq] at ht
  simp [Event.inside, hsrc, ht, hn]

/-- A tile and a slice of `chunk` inner numbers have room in the scratchpads. -/
structure TileFits (caps : Capacities) (chunk : Int) (q : List Int × List Int) : Prop where
  inp : q.1.length * chunk ≤ caps.inp
  wgt : chunk * q.2.length ≤ caps.wgt
  acc : (q.1.length : Int) * q.2.length ≤ caps.acc

theorem strides_lt {limit step : Int} {starts : List Int} (h : strides limit step = .ok starts) :
    (0 < limit → 0 < step) ∧ ∀ i ∈ starts, i < limit := by
  unfold strides at h
  split at h
  · cases h
    exact ⟨fun _ => by omega, by simp⟩
  · split at h
    · obtain ⟨-, -, h⟩ := Outcome.bind_eq_ok.1 h
      cases h
    · cases h
      refine ⟨fun _ => by omega, fun i hi => ?_⟩
      obtain ⟨k, hk, rfl⟩ := List.mem_map.1 hi
      have hk : (k : Int) < (limit + step - 1) / step := by
        have := List.mem_range.1 hk
        omega
      have := Int.mul_le_of_le_ediv (by omega) (show (k : Int) + 1 ≤ (limit + step - 1) / step by omega)
      rw [Int.add_mul] at this
      omega

theorem length_band {i limit step : Int} (hi : i < limit) (hstep : 0 < step) :
    ((consecutive i (min step (limit - i))).length : Int) ≤ step := by
  unfold consecutive
  rw [List.length_map, List.length_range]
  omega

theorem quotient_mul_le {a b q : Int} (h : quotient a b = .ok q) (ha : 0 ≤ a)
    (hsmall : a < 9223372036854775808) (hb : 0 < b) : b * q ≤ a := by
  rw [quotient_small ha hsmall hb] at h
  obtain rfl := Except.ok.inj h
  exact Int.mul_ediv_self_le (by omega)

/-- A nearly square tile has a row, and room in the accumulator. -/
theorem tileShape_room {acc xr xc h w : Int} (hshape : tileShape acc xr xc = .ok (h, w))
    (hacc : 0 ≤ acc) (hsmall : acc < 9223372036854775808) (hxr : 0 < xr) :
    0 < h ∧ h * w ≤ acc := by
  unfold tileShape at hshape
  obtain ⟨q, hq, hshape⟩ := Outcome.bind_eq_ok.1 hshape
  obtain ⟨rfl, rfl⟩ := Prod.mk.inj (Outcome.pure_eq_ok.1 hshape)
  have hpos : 0 < min (max (divisorUpTo acc (roundedRoot acc.toNat) : Int) 1) xr := by omega
  refine ⟨hpos, le_trans ?_ (quotient_mul_le hq hacc hsmall hpos)⟩
  exact Int.mul_le_mul_of_nonneg_left (Int.min_le_left _ _) (by omega)

theorem strides_ok (limit : Int) {step : Int} (h : 0 < step) :
    ∃ starts, strides limit step = .ok starts := by
  unfold strides
  split
  · exact ⟨_, rfl⟩
  · rw [if_neg (by omega)]
    exact ⟨_, rfl⟩

/-- How a product that does not fit is walked through, given the sides of the result and of
the first factor in blocks. -/
def Planner.walk (p : Planner) (xr xc ac : Int) : Outcome (List Step) :=
  match p.strategy with
  | .tiled => do
    let (h, w) ← tileShape p.caps.acc xr xc
    let chunk := min (min ac (← quotient p.caps.inp h)) (← quotient p.caps.wgt w)
    if chunk < 1 then
      Outcome.diagnose "gemm" (.capacityTooSmall (.noSlice h w))
    let downs ← strides xr h
    let acrosses ← strides xc w
    p.tiles chunk (downs.flatMap fun i => acrosses.map fun j =>
      (consecutive i (min h (xr - i)), consecutive j (min w (xc - j))))
  | .column => do
    let band := min (min (min p.caps.inp p.caps.acc) p.caps.out) xr
    let downs ← strides xr band
    p.tiles 1 (downs.flatMap fun i => (below xc).map fun j =>
      (consecutive i (min band (xr - i)), [j]))
  | .row => do
    let band := min (min (min p.caps.wgt p.caps.acc) p.caps.out) xc
    let acrosses ← strides xc band
    p.tiles 1 (acrosses.flatMap fun j => (below xr).map fun i =>
      ([i], consecutive j (min band (xc - j))))
  | .output =>
    p.tiles (min (min (min (min p.caps.inp p.caps.wgt) p.caps.acc) p.caps.out) ac)
      ((below xr).flatMap fun i => (below xc).map fun j => ([i], [j]))

/-- **A product that does not fit** is refused for its scratchpads or its operations, or walked
through. -/
theorem gemmOverflow_walk {p : Planner} {xr xc ac : Int} (hg : p.Gridded xr xc ac)
    (hnX : p.counts.nX = xr * xc) (hsmall : xr * xc < 9223372036854775808) :
    p.gemmOverflow =
      if min (min p.caps.inp p.caps.wgt) p.caps.acc < 2 then
        Outcome.diagnose "gemm" (.capacityTooSmall (.smallestScratchpad
          (min (min p.caps.inp p.caps.wgt) p.caps.acc)))
      else p.rejectVector >>= fun _ => p.walk xr xc ac := by
  have hxr0 := hg.xr_pos
  have hxc0 := hg.xc_pos
  have hmul : 0 ≤ xr * xc := Int.mul_nonneg (by omega) (by omega)
  unfold Planner.gemmOverflow Planner.walk
  simp only
  rw [hnX, hg.xCols, hg.aCols, quotient_small hmul hsmall (by omega),
    Int.mul_ediv_cancel _ (by omega)]
  split
  · rfl
  · rfl

/-- Square tiles cover the output, and the scratchpads have room for them and for a slice. -/
theorem walk_squares {p : Planner} {xr xc ac : Int} {steps : List Step}
    (hg : p.Gridded xr xc ac) (hstrategy : p.strategy = .tiled)
    (h : p.walk xr xc ac = .ok steps) :
    ∃ chunk shapes, Tiling xr xc shapes ∧ p.tiles chunk shapes = .ok steps ∧
      ∀ b, 1 ≤ b → p.caps.Within b → 0 < chunk ∧ ∀ q ∈ shapes, TileFits p.caps chunk q := by
  have hxr0 := hg.xr_pos
  have hxc0 := hg.xc_pos
  unfold Planner.walk at h
  rw [hstrategy] at h
  obtain ⟨⟨h', w⟩, hshape, h⟩ := Outcome.bind_eq_ok.1 h
  obtain ⟨n1, hn1, h⟩ := Outcome.bind_eq_ok.1 h
  obtain ⟨n2, hn2, h⟩ := Outcome.bind_eq_ok.1 h
  simp only [Outcome.refused_eq_ok] at h
  obtain ⟨hchunk, h⟩ := h
  obtain ⟨downs, hd, h⟩ := Outcome.bind_eq_ok.1 h
  obtain ⟨acrosses, ha, h⟩ := Outcome.bind_eq_ok.1 h
  refine ⟨_, _, ?_, h, fun b hb hcaps => ?_⟩
  · have := (tiling_grid (strides_band hd (by omega)) (strides_band ha (by omega))).1
    simpa only [List.flatMap_map, List.map_map, Function.comp_def] using this
  · obtain ⟨hinp, hwgt, hacc⟩ := hcaps.small hb
    obtain ⟨hh, hroom⟩ := tileShape_room hshape (by omega) (by omega) hxr0
    obtain ⟨hdown, hdlt⟩ := strides_lt hd
    obtain ⟨hacross, halt⟩ := strides_lt ha
    have hw := hacross hxc0
    have hn1 := quotient_mul_le hn1 (by omega) (by omega) hh
    have hn2 := quotient_mul_le hn2 (by omega) (by omega) hw
    refine ⟨by omega, fun q hq => ?_⟩
    obtain ⟨i, hi, hq⟩ := List.mem_flatMap.1 hq
    obtain ⟨j, hj, rfl⟩ := List.mem_map.1 hq
    -- a tile is not larger than the shape chosen, and a slice fits beside each of its sides
    have hr := length_band (hdlt i hi) hh
    have hc := length_band (halt j hj) hw
    constructor
    · exact le_trans (Int.mul_le_mul hr (show _ ≤ n1 by omega) (by omega) (by omega)) hn1
    · rw [Int.mul_comm]
      exact le_trans (Int.mul_le_mul hc (show _ ≤ n2 by omega) (by omega) (by omega)) hn2
    · exact le_trans (Int.mul_le_mul hr hc (by omega) (by omega)) hroom

/-- **The tiles of the four strategies** cover the output, and the scratchpads have room
for them and for a slice of the inner dimension. -/
theorem gemmOverflow_shapes {p : Planner} {xr xc ac : Int} {steps : List Step}
    (hg : p.Gridded xr xc ac) (hnX : p.counts.nX = xr * xc) (hsmall : xr * xc < 9223372036854775808)
    (h : p.gemmOverflow = .ok steps) :
    (∀ r ∈ p.data.ops, r.useImm = true) ∧ ∃ chunk shapes, Tiling xr xc shapes ∧
      p.tiles chunk shapes = .ok steps ∧
      ∀ b, 1 ≤ b → p.caps.Within b → 0 < chunk ∧ ∀ q ∈ shapes, TileFits p.caps chunk q := by
  have hxr0 := hg.xr_pos
  have hxc0 := hg.xc_pos
  have hac0 := hg.ac_pos
  rw [gemmOverflow_walk hg hnX hsmall] at h
  split at h
  · cases h
  rename_i hsmallest
  obtain ⟨⟨⟩, hrej, h⟩ := Outcome.bind_eq_ok.1 h
  refine ⟨rejectVector_eq_ok.1 hrej, ?_⟩
  cases hstrategy : p.strategy with
  | output =>
    unfold Planner.walk at h
    rw [hstrategy] at h
    refine ⟨_, _, ?_, h, fun b hb hcaps => ?_⟩
    · have := (tiling_grid (flatten_singletons xr) (flatten_singletons xc)).1
      simpa only [List.flatMap_map, List.map_map, Function.comp_def] using this
    · have hout := hcaps.out
      refine ⟨by omega, fun q hq => ?_⟩
      obtain ⟨i, -, hq⟩ := List.mem_flatMap.1 hq
      obtain ⟨j, -, rfl⟩ := List.mem_map.1 hq
      constructor <;> simp only [List.length_singleton] <;> omega
  | tiled => exact walk_squares hg hstrategy h
  | column =>
    unfold Planner.walk at h
    rw [hstrategy] at h
    obtain ⟨downs, hd, h⟩ := Outcome.bind_eq_ok.1 h
    obtain ⟨hband, hlt⟩ := strides_lt hd
    refine ⟨_, _, ?_, h, fun b hb hcaps => ⟨Int.one_pos, fun q hq => ?_⟩⟩
    · have := (tiling_grid (strides_band hd (by omega)) (flatten_singletons xc)).1
      simpa only [List.flatMap_map, List.map_map, Function.comp_def] using this
    · obtain ⟨i, hi, hq⟩ := List.mem_flatMap.1 hq
      obtain ⟨j, -, rfl⟩ := List.mem_map.1 hq
      have := length_band (hlt i hi) (hband hxr0)
      constructor <;> simp only [List.length_singleton] <;> omega
  | row =>
    unfold Planner.walk at h
    rw [hstrategy] at h
    obtain ⟨acrosses, ha, h⟩ := Outcome.bind_eq_ok.1 h
    obtain ⟨hband, hlt⟩ := strides_lt ha
    refine ⟨_, _, ?_, h, fun b hb hcaps => ⟨Int.one_pos, fun q hq => ?_⟩⟩
    · have := (tiling_grid (flatten_singletons xr) (strides_band ha (by omega))).2
      simpa only [List.flatMap_map, List.map_map, Function.comp_def] using this
    · obtain ⟨j, hj, hq⟩ := List.mem_flatMap.1 hq
      obtain ⟨i, -, rfl⟩ := List.mem_map.1 hq
      have := length_band (hlt j hj) (hband hxc0)
      constructor <;> simp only [List.length_singleton] <;> omega

/-- A product that does not fit is a list of tiles. -/
theorem gemmOverflow_tiled {p : Planner} {xr xc ac vectors total : Int} {steps : List Step}
    (hg : p.Gridded xr xc ac) (hnX : p.counts.nX = xr * xc) (hsmall : xr * xc < 9223372036854775808)
    (hon : ∀ r ∈ p.data.ops, r.OnVectors vectors total) (h : p.gemmOverflow = .ok steps) :
    p.Tiled xr xc ac steps := by
  obtain ⟨hplain, chunk, shapes, htiling, hsteps, -⟩ := gemmOverflow_shapes hg hnX hsmall h
  have hac0 := hg.ac_pos
  refine ⟨shapes, _, htiling, ?_, tiles_eq_ok hsteps, ?_⟩
  · rw [flatten_chunks, hg.aCols, consecutive_zero (by omega)]
  · intro q hq i hi j hj e he ht
    have hw := htiling.within q hq
    exact touches_inside_of_plain hon hplain ((mem_tileBlocks hw (hw.col j hj)).2 ⟨hi, hj⟩) he ht

/-- A product that fits is one tile with one slice. -/
theorem gemmFit_eq_tile {p : Planner} {xr xc ac : Int} (hg : p.Gridded xr xc ac)
    (hnA : p.counts.nA = xr * ac) (hnB : p.counts.nB = ac * xc) (hnX : p.counts.nX = xr * xc) :
    p.gemmFit = p.tileSteps [below ac] (below xr) (below xc) := by
  have hxr0 := hg.xr_pos
  have hxc0 := hg.xc_pos
  have hac0 := hg.ac_pos
  have hA : consecutive 0 (xr * ac) = (below xr).flatMap fun i => (below ac).map fun k => i * ac + k := by
    rw [consecutive_zero (Int.mul_nonneg (by omega) (by omega)), below_mul (by omega) (by omega)]
  have hB : consecutive 0 (ac * xc) = (below ac).flatMap fun k => (below xc).map fun j => k * xc + j := by
    rw [consecutive_zero (Int.mul_nonneg (by omega) (by omega)), below_mul (by omega) (by omega)]
  have hX : consecutive 0 (xr * xc) = (below xr).flatMap fun i => (below xc).map fun j => i * xc + j := by
    rw [consecutive_zero (Int.mul_nonneg (by omega) (by omega)), below_mul (by omega) (by omega)]
  unfold Planner.gemmFit Planner.tileSteps tileBlocks
  simp only [hnA, hnB, hnX, hg.aCols, hg.bCols, hg.xCols, hA, hB, hX]
  rfl

/-- All vectors of the declared operations are in the blocks of the accumulator. -/
theorem inside_below {d : Shaped} {n : Int} {b : Nat} (hb : 1 ≤ b)
    (hon : ∀ r ∈ d.ops, r.OnVectors (n * b) (n * b)) {e : Event} (he : e ∈ d.declared) :
    e.inside b (below n) = true := by
  have hall : ∀ v : Int, 0 ≤ v → v < n * b → v.tdiv b ∈ below n := by
    intro v h0 h1
    rw [mem_below, Int.tdiv_eq_ediv_of_nonneg h0]
    exact ⟨Int.ediv_nonneg h0 (by omega), Int.ediv_lt_of_lt_mul (by omega) h1⟩
  obtain ⟨r, hr, he⟩ := List.mem_flatMap.1 he
  obtain ⟨s, hs, rfl⟩ := List.mem_map.1 he
  have hd := (hon r hr).dst s hs
  simp only [Event.inside, Bool.and_eq_true, Bool.or_eq_true, List.contains_iff_mem, beq_iff_eq]
  refine ⟨hall _ hd.1 hd.2, ?_⟩
  cases himm : r.useImm with
  | true => exact Or.inl ((hon r hr).plain himm s hs)
  | false =>
    have := (hon r hr).src himm s hs
    exact Or.inr (hall _ this.1 this.2)

theorem gemmFit_tiled {p : Planner} {xr xc ac : Int} {b : Nat} (hg : p.Gridded xr xc ac)
    (hnA : p.counts.nA = xr * ac) (hnB : p.counts.nB = ac * xc) (hnX : p.counts.nX = xr * xc)
    (hb : 1 ≤ b) (hside : p.data.b = b)
    (hon : ∀ r ∈ p.data.ops, r.OnVectors (xr * xc * b) (xr * xc * b)) :
    p.Tiled xr xc ac p.gemmFit := by
  have hxr0 := hg.xr_pos
  have hxc0 := hg.xc_pos
  have hac0 := hg.ac_pos
  have hgrid := (tiling_grid (show [below xr].flatten = below xr by simp)
    (show [below xc].flatten = below xc by simp)).1
  refine ⟨[(below xr, below xc)], [below ac], hgrid, by simp, ?_, ?_⟩
  · rw [gemmFit_eq_tile hg hnA hnB hnX]
    simp
  · intro q hq i hi j hj e he ht
    obtain rfl := List.mem_singleton.1 hq
    have hblocks : tileBlocks xc (below xr) (below xc) = below (xr * xc) :=
      (below_mul (by omega) (by omega)).symm
    rw [hside, hblocks]
    exact inside_below hb hon he

/-- The planner that `plan` sets up. -/
def Planner.of (d : Shaped) (caps : Capacities) (strategy : Strategy) (inclusiveFit : Bool) :
    Planner :=
  { data := d, counts := d.counts, caps, strategy, inclusiveFit
    results := Std.TreeSet.ofList d.storeBlocks }

/-- A schedule is made of the planner's steps. -/
structure Schedule.Planned (s : Schedule) (p : Planner) (steps : List Step) : Prop where
  planned : p.steps = .ok (s.path, s.overflow, steps)
  recorded : s.steps = recordStores steps
  side : s.b = p.data.b
  blocks : s.nX = p.counts.nX
  capacities : s.caps = p.caps

theorem plan_planned {d : Shaped} {caps : Capacities} {options : PlanOptions} {s : Schedule}
    (h : plan d caps options = .ok s) :
    ∃ strategy steps, s.Planned (Planner.of d caps strategy options.inclusiveFit) steps := by
  unfold plan at h
  simp only [Outcome.ite_bind] at h
  obtain ⟨strategy, -, h⟩ := Outcome.bind_eq_ok.1 h
  obtain ⟨⟨path, overflow, steps⟩, hsteps, h⟩ := Outcome.bind_eq_ok.1 h
  obtain rfl := Outcome.pure_eq_ok.1 h
  exact ⟨strategy, steps, hsteps, rfl, rfl, rfl, rfl⟩

/-- An accumulator has a row of blocks. -/
theorem Shaped.Common.rows_pos {d : Shaped} {p : Program} {c : Config} {b xr xc : Nat}
    (h : d.Common p c b xr xc) : 1 ≤ xr := by
  by_contra hlt
  obtain rfl : xr = 0 := by omega
  have h1 := h.x_regular.rows_pos
  rw [h.x_rows] at h1
  simp at h1

/-- The block counts of a shaped product. -/
theorem gridded_of_product {d : Shaped} {p : Program} {c : Config} {b xr xc ac : Nat}
    {a w : Tensor} (hb : 1 ≤ b) (hcommon : d.Common p c b xr xc)
    (hprod : d.Product c b xr xc ac a w) {q : Planner} (hdata : q.data = d)
    (hcounts : q.counts = d.counts) (hresults : q.results = Std.TreeSet.ofList d.storeBlocks) :
    q.Gridded xr xc ac ∧ q.counts.nA = xr * ac ∧ q.counts.nB = ac * xc ∧ q.counts.nX = xr * xc ∧
      (xr : Int) * xc < 9223372036854775808 := by
  have hxr := hcommon.rows_pos
  have hsmall := hcommon.x_regular.vectors_small hcommon.x_rows
  have hle : xr * xc ≤ xr * xc * b * b := by
    calc xr * xc ≤ xr * xc * b := Nat.le_mul_of_pos_right _ hb
      _ ≤ xr * xc * b * b := Nat.le_mul_of_pos_right _ hb
  have hac := hprod.a_regular.cols_pos
  have hxc := hcommon.x_regular.cols_pos
  have hn : q.counts = { nA := (xr * ac : Nat), aCols := ac, nB := (ac * xc : Nat), bCols := xc
                         nX := (xr * xc : Nat), xCols := xc } := by
    rw [hcounts]
    simp only [Shaped.counts, hprod.inp, hprod.wgt, Option.map_some, Option.getD_some, Tensor.size,
      hprod.a_regular.blockCols, hprod.w_regular.blockCols, hcommon.x_regular.blockCols,
      hprod.a_regular.size, hprod.w_regular.size, hcommon.x_regular.size]
  rw [hn]
  refine ⟨⟨by rw [hn], by rw [hn], by rw [hn], by rw [hdata, hresults], by omega, by omega,
    by omega⟩, by push_cast; rfl, by push_cast; rfl, by push_cast; rfl, ?_⟩
  have : ((xr * xc : Nat) : Int) < 9223372036854775808 := by omega
  exact_mod_cast this

/-- **The schedule of a product is a list of tiles.** -/
theorem planned_tiled {d : Shaped} {p : Program} {c : Config} {b xr xc ac : Nat} {a w : Tensor}
    {q : Planner} {s : Schedule} {steps : List Step} (hb : 1 ≤ b)
    (hcommon : d.Common p c b xr xc) (hprod : d.Product c b xr xc ac a w) (hdata : q.data = d)
    (hcounts : q.counts = d.counts) (hresults : q.results = Std.TreeSet.ofList d.storeBlocks)
    (h : s.Planned q steps) : q.Gridded xr xc ac ∧ q.Tiled xr xc ac steps := by
  obtain ⟨hg, hnA, hnB, hnX, hsmall⟩ := gridded_of_product hb hcommon hprod hdata hcounts hresults
  have hon : ∀ r ∈ q.data.ops, r.OnVectors ((xr : Int) * xc * b) ((xr : Int) * xc * b) := by
    intro r hr
    exact_mod_cast hcommon.onVectors_of_ne (by rw [hprod.form]; decide) (hdata ▸ hr)
  refine ⟨hg, ?_⟩
  obtain ⟨-, hp⟩ := (Planner.steps_product (by rw [hdata, hprod.form])).1 h.planned
  split at hp
  · obtain ⟨-, -, rfl⟩ := hp
    exact gemmFit_tiled hg hnA hnB hnX hb (by rw [hdata]; exact hcommon.side) hon
  · exact gemmOverflow_tiled hg hnX hsmall hon hp.2.2

/-- The protocol of output block `(i, j)`: the steps of its stay in the accumulator
follow each other, and no other step has to do with it. -/
def Shaped.Accumulated (d : Shaped) (steps : List Step) (i j : Int) : Prop :=
  ∃ before stay after, steps = before ++ stay ++ after ∧
    (∀ s ∈ before ++ after, d.Away (i * d.counts.xCols + j) s) ∧
    d.Stay (i * d.counts.xCols + j)
      (productsOf d.counts.aCols d.counts.bCols d.counts.xCols i j) stay

theorem away_withStores {d : Shaped} {n : Int} {stored : List Int} {steps : List Step}
    (h : ∀ s ∈ steps, d.Away n s) : ∀ s ∈ withStores stored steps, d.Away n s := by
  intro s hs
  obtain ⟨t, ht, _, rfl⟩ := mem_withStores hs
  exact ⟨(h t ht).resident, (h t ht).loadX, (h t ht).store, (h t ht).events⟩

theorem stay_withStores {d : Shaped} {n : Int} {ps : List Event} {steps : List Step}
    (h : d.Stay n ps steps) (stored : List Int) : d.Stay n ps (withStores stored steps) := by
  constructor
  case nonempty =>
    intro hnil
    refine h.nonempty ?_
    rw [← List.length_eq_zero_iff, ← length_withStores stored, hnil]
    rfl
  case place =>
    obtain ⟨place, hplace⟩ := h.place
    refine ⟨place, fun s hs => ?_⟩
    obtain ⟨t, ht, _, rfl⟩ := mem_withStores hs
    exact hplace t ht
  case loaded =>
    intro m s hs
    obtain ⟨t, ht, rfl⟩ := withStores_getElem hs
    exact h.loaded m t ht
  case stored =>
    intro m s hs
    obtain ⟨t, ht, rfl⟩ := withStores_getElem hs
    rw [length_withStores]
    exact h.stored m t ht
  case events =>
    rw [withStores_flatMap Step.events (fun _ _ => rfl)]
    exact h.events

/-- **Tiles keep the protocol of every block.** -/
theorem tiled_accumulated {p : Planner} {xr xc ac : Int} {steps : List Step}
    (hg : p.Gridded xr xc ac) (hcounts : p.counts = p.data.counts) (h : p.Tiled xr xc ac steps)
    {i j : Int} (hi : 0 ≤ i ∧ i < xr) (hj : 0 ≤ j ∧ j < xc) :
    p.data.Accumulated (recordStores steps) i j := by
  obtain ⟨shapes, slices, htiling, hslices, rfl, hsites⟩ := h
  obtain ⟨before, q, after, rfl, hiq, hjq, hothers⟩ := htiling.once i j hi hj
  unfold Shaped.Accumulated
  rw [← hcounts, hg.aCols, hg.bCols, hg.xCols, recordStores_eq, List.flatMap_append,
    List.flatMap_cons, ← List.append_assoc, withStores_append, withStores_append]
  have haway : ∀ part : List (List Int × List Int), (∀ q' ∈ part, q' ∈ before ++ after) →
      ∀ s ∈ part.flatMap fun q => p.tileSteps slices q.1 q.2, p.data.Away (i * xc + j) s := by
    intro part hpart s hs
    obtain ⟨q', hq', hs⟩ := List.mem_flatMap.1 hs
    have hin := hpart q' hq'
    refine tile_away hg hslices (htiling.within q' ?_) hj (hothers q' hin) s hs
    rcases List.mem_append.1 hin with h | h <;> simp [h]
  refine ⟨_, _, _, rfl, ?_, stay_withStores ?_ _⟩
  · intro s hs
    rcases List.mem_append.1 hs with hs | hs
    · exact away_withStores (haway before fun q' h => List.mem_append_left _ h) s hs
    · exact away_withStores (haway after fun q' h => List.mem_append_right _ h) s hs
  · have hmem : q ∈ before ++ q :: after := by simp
    exact tile_stay hg hslices (htiling.within q hmem) hiq hjq (hsites q hmem i hiq j hjq)

/-- Every product of the tiles is one of the product of matrices. -/
theorem tiled_products {p : Planner} {xr xc ac : Int} {steps : List Step}
    (hg : p.Gridded xr xc ac) (h : p.Tiled xr xc ac steps) {n a w : Int}
    (he : Event.product n a w ∈ steps.flatMap Step.events) :
    ∃ i j k, (0 ≤ i ∧ i < xr) ∧ (0 ≤ j ∧ j < xc) ∧ (0 ≤ k ∧ k < ac) ∧
      n = i * xc + j ∧ a = i * ac + k ∧ w = k * xc + j := by
  obtain ⟨shapes, slices, htiling, hslices, rfl, -⟩ := h
  simp only [List.mem_flatMap] at he
  obtain ⟨s, ⟨q, hq, hs⟩, he⟩ := he
  have hw := htiling.within q hq
  obtain ⟨⟨ks, m⟩, hks, rfl⟩ := List.mem_map.1 hs
  have hks : ks ∈ slices := List.fst_mem_of_mem_zipIdx hks
  simp only [Step.events] at he
  rw [tileStep_events hg hslices hw hks, List.mem_append] at he
  rcases he with he | he
  · obtain ⟨i, hi, k, hk, j, hj, heq⟩ := mem_products_tile.1 he
    exact ⟨i, j, k, hw.row i hi, hw.col j hj, (piece_of_below hslices hks).1 k hk,
      Event.product.inj heq⟩
  · -- operations are no products
    split at he
    · obtain ⟨r, -, he⟩ := List.mem_flatMap.1 (List.mem_of_mem_filter he)
      obtain ⟨_, -, he⟩ := List.mem_map.1 he
      cases he
    · cases he

/-- A block that keeps the protocol has each of its products once. -/
theorem accumulated_count {d : Shaped} {steps : List Step} {i j k : Int}
    (h : d.Accumulated steps i j) (hk : 0 ≤ k ∧ k < d.counts.aCols) :
    (steps.flatMap Step.events).count (.product (i * d.counts.xCols + j) (i * d.counts.aCols + k)
      (k * d.counts.bCols + j)) = 1 := by
  obtain ⟨before, stay, after, rfl, haway, hstay⟩ := h
  set e : Event := .product (i * d.counts.xCols + j) (i * d.counts.aCols + k)
    (k * d.counts.bCols + j)
  have htouch : e.touches d.b (i * d.counts.xCols + j) = true := by simp [e, Event.touches]
  have hnone : ∀ part : List Step, (∀ s ∈ part, s ∈ before ++ after) →
      (part.flatMap Step.events).count e = 0 := by
    intro part hpart
    rw [List.count_eq_zero]
    intro he
    obtain ⟨s, hs, he⟩ := List.mem_flatMap.1 he
    rw [(haway s (hpart s hs)).events e he] at htouch
    cases htouch
  have hps : (productsOf d.counts.aCols d.counts.bCols d.counts.xCols i j).count e = 1 := by
    refine List.count_eq_one_of_mem ?_ (List.mem_map.2 ⟨k, mem_below.2 hk, rfl⟩)
    refine (nodup_below _).map fun k k' heq => ?_
    simp only [Event.product.injEq] at heq
    omega
  have hdecl : (d.declared.filter (Event.touches d.b (i * d.counts.xCols + j))).count e = 0 := by
    rw [List.count_eq_zero]
    intro he
    obtain ⟨r, -, he⟩ := List.mem_flatMap.1 (List.mem_of_mem_filter he)
    obtain ⟨_, -, he⟩ := List.mem_map.1 he
    simp [e] at he
  rw [List.flatMap_append, List.flatMap_append, List.count_append, List.count_append,
    hnone before fun s h => List.mem_append_left _ h,
    hnone after fun s h => List.mem_append_right _ h,
    ← List.count_filter (p := Event.touches d.b (i * d.counts.xCols + j)) htouch, hstay.events,
    List.count_append, hps, hdecl]

/-- Three of the walks cannot fail: their bands and slices are not empty. -/
theorem walk_progress {p : Planner} {xr xc ac : Int} (hg : p.Gridded xr xc ac)
    (hcaps : 2 ≤ min (min p.caps.inp p.caps.wgt) p.caps.acc) (hout : 0 < p.caps.out)
    (hstrategy : p.strategy ≠ .tiled) : ∃ steps, p.walk xr xc ac = .ok steps := by
  have hxr0 := hg.xr_pos
  have hxc0 := hg.xc_pos
  have hac0 := hg.ac_pos
  unfold Planner.walk
  cases hs : p.strategy with
  | output => exact tiles_progress (by omega) _
  | tiled => exact absurd hs hstrategy
  | column =>
    obtain ⟨downs, hd⟩ := strides_ok xr
      (show 0 < min (min (min p.caps.inp p.caps.acc) p.caps.out) xr by omega)
    simp only [hd, Outcome.ok_bind]
    exact tiles_progress (by omega) _
  | row =>
    obtain ⟨acrosses, ha⟩ := strides_ok xc
      (show 0 < min (min (min p.caps.wgt p.caps.acc) p.caps.out) xc by omega)
    simp only [ha, Outcome.ok_bind]
    exact tiles_progress (by omega) _

theorem gemmOverflow_progress {p : Planner} {xr xc ac : Int} (hg : p.Gridded xr xc ac)
    (hnX : p.counts.nX = xr * xc) (hsmall : xr * xc < 9223372036854775808)
    (hcaps : 2 ≤ p.caps.inp ∧ 2 ≤ p.caps.wgt ∧ 2 ≤ p.caps.acc ∧ p.caps.out = p.caps.acc)
    (hplain : ∀ r ∈ p.data.ops, r.useImm = true) (hstrategy : p.strategy ≠ .tiled) :
    ∃ steps, p.gemmOverflow = .ok steps := by
  rw [gemmOverflow_walk hg hnX hsmall, if_neg (by omega), rejectVector_eq_ok.2 hplain,
    Outcome.ok_bind]
  exact walk_progress hg (by omega) (by omega) hstrategy

/-- The block counts of a product pass the planner's check. -/
theorem checkShape_gridded {p : Planner} {xr xc ac : Int} (hg : p.Gridded xr xc ac)
    (hnA : p.counts.nA = xr * ac) (hnB : p.counts.nB = ac * xc) (hnX : p.counts.nX = xr * xc) :
    p.checkShape = .ok () := by
  have hxc0 := hg.xc_pos
  have hac0 := hg.ac_pos
  unfold Planner.checkShape
  simp only [hg.aCols, hg.bCols, hg.xCols, hnA, hnB, hnX]
  rw [if_neg (by simp; omega), if_neg (by simp; omega), if_neg (by simp; omega),
    if_neg (by rw [Int.mul_tdiv_cancel _ (by omega), Int.mul_tdiv_cancel _ (by omega)]; simp),
    if_neg (by simp)]
  rfl

/-- **Every schedule of a product accumulates it as it must**: each product of
blocks is computed once and no other; each output block has one stay in the
accumulator, at one place, loaded at its start and stored at its end if it holds
results, with its products first and then its declared operations in order. The
strategies other than square tiles make a schedule for every scratchpad of at
least two blocks, if no operation reads a second vector. -/
theorem plan_accumulates {p : Program} {c c' : Config} {d : Shaped} {caps : Capacities}
    {options : PlanOptions} (hword : p.WordSized) (hbuild : Shaped.build p c = .ok d)
    (hform : d.form = .gemm) (hvalid : c'.validate = .ok ())
    (hcaps : c'.schedulingCapacities = .ok caps) :
    (∀ s, plan d caps options = .ok s →
      (∀ i j k, (0 ≤ i ∧ i < d.counts.nX / d.counts.xCols) → (0 ≤ j ∧ j < d.counts.xCols) →
        (0 ≤ k ∧ k < d.counts.aCols) →
        (s.steps.flatMap Step.events).count (.product (i * d.counts.xCols + j)
          (i * d.counts.aCols + k) (k * d.counts.bCols + j)) = 1) ∧
      (∀ n a w, Event.product n a w ∈ s.steps.flatMap Step.events →
        ∃ i j k, (0 ≤ i ∧ i < d.counts.nX / d.counts.xCols) ∧ (0 ≤ j ∧ j < d.counts.xCols) ∧
          (0 ≤ k ∧ k < d.counts.aCols) ∧ n = i * d.counts.xCols + j ∧
          a = i * d.counts.aCols + k ∧ w = k * d.counts.bCols + j) ∧
      ∀ i j, (0 ≤ i ∧ i < d.counts.nX / d.counts.xCols) → (0 ≤ j ∧ j < d.counts.xCols) →
        d.Accumulated s.steps i j) ∧
    (2 ≤ min (min caps.inp caps.wgt) caps.acc → (∀ r ∈ d.ops, r.isVector = false) →
      options.strategy ∈ [0, 1, 3, 4] → ∃ s, plan d caps options = .ok s) := by
  obtain ⟨b, xr, xc, hsound, hcommon, hformed⟩ := build_formed hword hbuild
  obtain ⟨ac, a, w, hprod⟩ := hformed.product_of_form hform
  have hgrid : ∀ strategy, (Planner.of d caps strategy options.inclusiveFit).Gridded xr xc ac ∧ _ :=
    fun strategy => gridded_of_product hsound.pos hcommon hprod rfl rfl rfl
  obtain ⟨hg, hnA, hnB, hnX, hsmall⟩ := hgrid .output
  have hxc0 := hg.xc_pos
  have hrows : d.counts.nX / d.counts.xCols = xr := by
    have h1 : d.counts.nX = xr * xc := hnX
    have h2 : d.counts.xCols = xc := hg.xCols
    rw [h1, h2, Int.mul_ediv_cancel _ (by omega)]
  have hcols : d.counts.xCols = xc := hg.xCols
  rw [hrows]
  refine ⟨fun s hs => ?_, fun hmin hops hstrategy => ?_⟩
  · obtain ⟨strategy, steps, hplanned⟩ := plan_planned hs
    obtain ⟨hg, htiled⟩ := planned_tiled hsound.pos hcommon hprod rfl rfl rfl hplanned
    have hacc : ∀ i j, (0 ≤ i ∧ i < (xr : Int)) → (0 ≤ j ∧ j < d.counts.xCols) →
        d.Accumulated s.steps i j := by
      intro i j hi hj
      rw [hplanned.recorded]
      exact tiled_accumulated hg rfl htiled hi (hcols ▸ hj)
    refine ⟨fun i j k hi hj hk => accumulated_count (hacc i j hi hj) hk, fun n a w he => ?_, hacc⟩
    rw [hplanned.recorded, recordStores_eq, withStores_flatMap Step.events fun _ _ => rfl] at he
    obtain ⟨i, j, k, hi, hj, hk, hn, ha, hw⟩ := tiled_products hg htiled he
    have h1 : d.counts.aCols = ac := hg.aCols
    have h2 : d.counts.bCols = xc := hg.bCols
    rw [h1, h2, hcols]
    exact ⟨i, j, k, hi, hj, hk, hn, ha, hw⟩
  · -- the number chosen stands for one of the three strategies
    obtain ⟨_, -, caps', hcaps', hwithin⟩ := Config.validate_sound hvalid
    rw [hcaps] at hcaps'
    obtain rfl := Except.ok.inj hcaps'
    obtain ⟨strategy, hstrat, hne⟩ : ∃ strategy : Strategy,
        (if options.strategy = 0 then pure Strategy.output
          else Strategy.ofNumber options.strategy : Outcome Strategy) = .ok strategy ∧
        strategy ≠ .tiled := by
      simp only [List.mem_cons, List.not_mem_nil, or_false] at hstrategy
      rcases hstrategy with h | h | h | h <;> rw [h]
      exacts [⟨.output, rfl, by decide⟩, ⟨.output, rfl, by decide⟩, ⟨.column, rfl, by decide⟩,
        ⟨.row, rfl, by decide⟩]
    obtain ⟨hg, hnA, hnB, hnX, hsmall⟩ := hgrid strategy
    have hsteps : ∃ r, (Planner.of d caps strategy options.inclusiveFit).steps = .ok r := by
      unfold Planner.steps
      rw [show (Planner.of d caps strategy options.inclusiveFit).data.form = .gemm from hform]
      simp only [checkShape_gridded hg hnA hnB hnX, Outcome.ok_bind]
      split
      · exact ⟨_, rfl⟩
      · obtain ⟨steps, hsteps⟩ := gemmOverflow_progress hg hnX hsmall
          ⟨show 2 ≤ caps.inp by omega, show 2 ≤ caps.wgt by omega, show 2 ≤ caps.acc by omega,
            hwithin.out⟩ (fun r hr => by simpa [Resolved.isVector] using hops r hr) hne
        exact ⟨_, Outcome.bind_ok hsteps rfl⟩
    obtain ⟨r, hr⟩ := hsteps
    unfold plan
    simp only [Outcome.ite_bind]
    exact ⟨_, Outcome.bind_ok hstrat (Outcome.bind_ok hr rfl)⟩

/-- Blocks of side two, and scratchpads for two blocks of each kind. -/
def Config.twoBlocks : Config := ⟨3, 3, 5, 1, 2, 3, 4, 2⟩

/-- A product of four output blocks, followed by the maximum with zero. -/
def Program.fourBlocks : Program where
  name := ""
  matrices := [⟨"INPUT", 3, 4, some ⟨3, 4, #[1, 2, 3, 4, 5, 6, 7, 8, 9, 10, 11, 12]⟩⟩,
    ⟨"WEIGHT", 4, 3, some ⟨4, 3, #[1, 0, 2, -1, 1, 0, 0, 3, 1, 1, 1, 1]⟩⟩]
  gemm := some { input := "INPUT", weight := "WEIGHT" }
  alu := [.relu none]

set_option maxRecDepth 100000 in
theorem fourBlocks_planned : (do
    Config.twoBlocks.validate
    let caps ← Config.twoBlocks.schedulingCapacities
    let d ← Shaped.build .fourBlocks .twoBlocks
    let s ← plan d caps { strategy := 3 }
    return d.form = .gemm ∧ s.path = .gemmOverflow ∧ s.steps.length = 4 ∧
      d.counts = ⟨4, 2, 4, 2, 4, 2⟩ : Outcome Bool) = .ok true := by
  decide +kernel

/-- The product of four blocks, column by column. -/
theorem fourBlocks_accumulates : ∃ d caps s, Program.fourBlocks.WordSized ∧
    Shaped.build .fourBlocks .twoBlocks = .ok d ∧ d.form = .gemm ∧
    Config.twoBlocks.validate = .ok () ∧ Config.twoBlocks.schedulingCapacities = .ok caps ∧
    plan d caps { strategy := 3 } = .ok s ∧ s.steps.length = 4 ∧
    (s.steps.flatMap Step.events).count (.product 3 3 3) = 1 ∧ d.Accumulated s.steps 1 1 := by
  have h := fourBlocks_planned
  obtain ⟨⟨⟩, hv, h⟩ := Outcome.bind_eq_ok.1 h
  obtain ⟨caps, hcaps, h⟩ := Outcome.bind_eq_ok.1 h
  obtain ⟨d, hd, h⟩ := Outcome.bind_eq_ok.1 h
  obtain ⟨s, hs, h⟩ := Outcome.bind_eq_ok.1 h
  obtain ⟨hform, -, hlen, hn⟩ := of_decide_eq_true (Outcome.pure_eq_ok.1 h)
  have hword : Program.fourBlocks.WordSized := by decide +kernel
  obtain ⟨hcount, -, hacc⟩ := (plan_accumulates hword hd hform hv hcaps).1 s hs
  refine ⟨d, caps, s, hword, hd, hform, hv, hcaps, hs, hlen, ?_, ?_⟩
  · have := hcount 1 1 1 (by rw [hn]; decide) (by rw [hn]; decide) (by rw [hn]; decide)
    rwa [hn] at this
  · exact hacc 1 1 (by rw [hn]; decide) (by rw [hn]; decide)

end Tessera
