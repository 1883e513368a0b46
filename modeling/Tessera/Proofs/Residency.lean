import Tessera.Proofs.Accumulation
import Tessera.Proofs.Eviction
import Tessera.Proofs.Proper
import Tessera.Schedule.Plan

/-!
# What the planner puts into the scratchpads

Each of the six ways to make a schedule keeps its own books of what stands where. In the
end all of them make proper steps.

* `Planner.Keeps`: the books of a step of whole blocks, which is proper if they are in order.
* `tileStep_proper`, `aluFit_proper`, `constant_proper`, `add_proper`: the steps of tiles, of
  what fits, of a multiple and of a sum.
* `aluOverflow_proper`: the steps of vectors.
-/

namespace Tessera

section AluOn

variable {p : Planner} {resident : List Int} {op : StepOp}

/-- What the operations on some blocks consist of. -/
theorem mem_aluOn (h : op ∈ p.aluOn resident) : ∃ r sites, op = .alu r sites ∧ r ∈ p.data.ops ∧
    ∀ s ∈ sites, s ∈ r.sites ∧ s.dst.tdiv p.data.b ∈ resident ∧
      (s.src = noSource ∨ s.src.tdiv p.data.b ∈ resident) := by
  unfold Planner.aluOn at h
  obtain ⟨r, hr, h⟩ := List.mem_filterMap.1 h
  split at h
  · cases h
  · obtain rfl := Option.some.inj h
    refine ⟨r, _, rfl, hr, fun s hs => ?_⟩
    obtain ⟨hsite, hin⟩ := List.mem_filter.1 hs
    simp only [Std.TreeSet.contains_ofList, Bool.and_eq_true, Bool.or_eq_true,
      List.contains_iff_mem, beq_iff_eq] at hin
    exact ⟨hsite, hin.1, hin.2⟩

end AluOn

section Blocks

variable {d : Shaped} {st : Step}

/-- The books of a step of whole blocks: its blocks are there, each once, and it works on no
others. It runs `products` first and then `others`, which are operations of the planner. -/
structure Planner.Keeps (p : Planner) (d : Shaped) (caps : Capacities) (products others : List StepOp)
    (st : Step) : Prop where
  grain : st.residentGrain = .block
  ops : st.ops = products ++ others
  products : ∀ op ∈ products, ∃ c ∈ st.sramResident, ∃ a ∈ st.inpResident,
    ∃ w ∈ st.wgtResident, op = .gemm c a w
  others : ∀ op ∈ others, op ∈ p.aluOn st.sramResident
  nodup : st.sramResident.Nodup
  range : ∀ n ∈ st.sramResident, 0 ≤ n ∧ n < 2 * d.counts.nX
  room : st.sramResident.length ≤ caps.acc
  inputs : st.inpResident = st.loadA ∧ st.loadA.length ≤ caps.inp
  input : ∀ n ∈ st.loadA, 0 ≤ n ∧ n < d.counts.nA
  weights : st.loadB.length ≤ caps.wgt ∧ st.wgtResident.length ≤ caps.wgt
  weight : ∀ n ∈ st.loadB, n ∈ st.wgtResident ∧ 0 ≤ n ∧ n < d.counts.nB
  loadX : ∀ n ∈ st.loadX, n ∈ st.sramResident ∧ n < d.counts.nX
  loadY : ∀ n ∈ st.loadY, d.counts.nX + n ∈ st.sramResident ∧ 0 ≤ n
  second : st.loadY ≠ [] → d.form = .add
  store : ∀ v ∈ st.store, 0 ≤ v ∧ match st.storeGrain with
    | .vector => v < d.vectors ∧ st.Holds d.b v
    | .block => v < d.counts.nX ∧ v ∈ st.sramResident

/-- **A step of whole blocks is proper** if its books are in order. -/
theorem Planner.Keeps.proper (p : Planner) (products others : List StepOp) {caps : Capacities}
    (hdata : p.data = d) (hnX : d.counts.nX ≤ 35184372088832)
    (h : p.Keeps d caps products others st) : st.Proper d caps where
  inputs := h.inputs
  input := h.input
  weights := h.weights
  weight := h.weight
  room := by
    rw [h.grain]
    exact h.room
  distinct := h.nodup.filter _
  resident := by
    unfold Step.units
    rw [h.grain]
    exact fun n hn => (h.range n hn).2
  loadX := by
    unfold Step.units
    rw [h.grain]
    exact fun n hn => ⟨(h.loadX n hn).1, (h.range n (h.loadX n hn).1).1, (h.loadX n hn).2⟩
  loadY n hn := by
    obtain ⟨hmem, h0⟩ := h.loadY n hn
    have := h.range _ hmem
    exact ⟨hmem, h0, by omega⟩
  second hne := ⟨h.grain, h.second hne⟩
  ordered := by
    refine ⟨products, others, h.ops, fun op hop => ?_, fun op hop => ?_⟩
    · obtain ⟨c, -, a, -, w, -, rfl⟩ := h.products op hop
      rfl
    · obtain ⟨r, sites, rfl, -⟩ := mem_aluOn (h.others op hop)
      rfl
  gemm c a w hop := by
    rw [h.ops] at hop
    rcases List.mem_append.1 hop with hop | hop
    · obtain ⟨c', hc, a', ha, w', hw, heq⟩ := h.products _ hop
      cases heq
      exact ⟨h.grain, ⟨(h.range c hc).1, hc⟩, ha, hw⟩
    · obtain ⟨r, sites, heq, -⟩ := mem_aluOn (h.others _ hop)
      cases heq
  alu r sites hop := by
    rw [h.ops] at hop
    rcases List.mem_append.1 hop with hop | hop
    · obtain ⟨c', -, a', -, w', -, heq⟩ := h.products _ hop
      cases heq
    · obtain ⟨r', sites', heq, hr, hsites⟩ := mem_aluOn (h.others _ hop)
      cases heq
      -- a block that stands there has a small number
      have hholds : ∀ v : Int, v.tdiv d.b ∈ st.sramResident → st.Holds d.b v := by
        intro v hv
        have := h.range _ hv
        unfold Step.Holds
        rw [h.grain]
        simp only
        rwa [wrap64_small (by omega) (by omega)]
      rw [hdata] at hr hsites
      refine ⟨hr, fun s hs => ?_⟩
      obtain ⟨hsite, hdst, hsrc⟩ := hsites s hs
      exact ⟨hsite, hholds _ hdst, fun hne => hholds _ (hsrc.resolve_left hne)⟩
  store := h.store
  grain _ := h.grain

end Blocks

theorem length_grid (rows cols : List Int) (f : Int → Int → Int) :
    (rows.flatMap fun i => cols.map fun j => f i j).length = rows.length * cols.length := by
  simp [List.length_flatMap]

/-- The cells of a part of a grid are cells of the grid. -/
theorem part_range {m n : Int} {rows cols : List Int} (hrows : ∀ i ∈ rows, 0 ≤ i ∧ i < m)
    (hcols : ∀ j ∈ cols, 0 ≤ j ∧ j < n) :
    ∀ c ∈ rows.flatMap fun i => cols.map fun j => i * n + j, 0 ≤ c ∧ c < m * n := by
  intro c hc
  obtain ⟨i, hi, hc⟩ := List.mem_flatMap.1 hc
  obtain ⟨j, hj, rfl⟩ := List.mem_map.1 hc
  exact cell_range (hrows i hi) (hcols j hj)

section Tiles

variable {p : Planner} {d : Shaped} {xr xc ac : Int} {slices : List (List Int)}
  {rows cols : List Int}

/-- **The steps of a tile are proper.** -/
theorem tileStep_proper (hg : p.Gridded xr xc ac) (hdata : p.data = d) (hcounts : p.counts = d.counts)
    (hnA : p.counts.nA = xr * ac) (hnB : p.counts.nB = ac * xc) (hnX : p.counts.nX = xr * xc)
    (hsmall : p.counts.nX ≤ 35184372088832) (hslices : slices.flatten = below ac)
    (htile : TileWithin xr xc rows cols)
    (hfit : ∀ ks ∈ slices, TileFits p.caps ks.length (rows, cols)) :
    ∀ st ∈ p.tileSteps slices rows cols, st.Proper d p.caps := by
  intro st hst
  obtain ⟨⟨ks, n⟩, hq, rfl⟩ := List.mem_map.1 hst
  have hks := List.fst_mem_of_mem_zipIdx hq
  obtain ⟨hk, hkn⟩ := piece_of_below hslices hks
  have hroom := hfit ks hks
  have hblocks := part_range htile.row htile.col
  have hX0 : 0 ≤ p.counts.nX := by
    rw [hnX]
    exact Int.mul_nonneg hg.xr_pos.le hg.xc_pos.le
  rw [hcounts] at hnA hnB hnX hsmall hX0
  refine Planner.Keeps.proper p
    (rows.flatMap fun i => ks.flatMap fun k => cols.map fun j =>
      StepOp.gemm (i * xc + j) (i * ac + k) (k * xc + j))
    (if n + 1 = slices.length then p.aluOn (tileBlocks p.counts.xCols rows cols) else [])
    hdata hsmall ?_
  constructor
  case grain => exact rfl
  case ops =>
    simp only [hg.aCols, hg.bCols, hg.xCols]
    rw [products_tile (fun i hi => (htile.row i hi).1) hk hkn htile.col]
  case products =>
    intro op hop
    simp only [List.mem_flatMap, List.mem_map] at hop
    obtain ⟨i, hi, k, hk, j, hj, rfl⟩ := hop
    simp only [hg.aCols, hg.bCols, hg.xCols]
    refine ⟨_, (mem_tileBlocks htile (htile.col j hj)).2 ⟨hi, hj⟩, _, ?_, _, ?_, rfl⟩
    · exact List.mem_flatMap.2 ⟨i, hi, List.mem_map.2 ⟨k, hk, rfl⟩⟩
    · exact List.mem_flatMap.2 ⟨k, hk, List.mem_map.2 ⟨j, hj, rfl⟩⟩
  case others =>
    intro op hop
    split at hop
    · exact hop
    · cases hop
  case nodup =>
    simp only [hg.xCols]
    exact nodup_tileBlocks htile
  case range =>
    simp only [hg.xCols]
    intro c hc
    have := hblocks c hc
    omega
  case room =>
    simp only [tileBlocks]
    rw [length_grid]
    exact_mod_cast hroom.acc
  case inputs =>
    refine ⟨rfl, ?_⟩
    simp only
    rw [length_grid]
    exact_mod_cast hroom.inp
  case input =>
    simp only [hg.aCols]
    rw [hnA]
    exact part_range htile.row hk
  case weights =>
    simp only
    rw [length_grid]
    exact ⟨by exact_mod_cast hroom.wgt, by exact_mod_cast hroom.wgt⟩
  case weight =>
    simp only [hg.bCols]
    intro c hc
    rw [hnB]
    exact ⟨hc, part_range hk htile.col c hc⟩
  case loadX =>
    simp only [hg.xCols]
    intro c hc
    split at hc
    · have := hblocks c hc
      exact ⟨hc, by omega⟩
    · cases hc
  case loadY => exact fun n hn => absurd hn List.not_mem_nil
  case second => exact fun hne => absurd rfl hne
  case store =>
    simp only [hg.xCols]
    intro v hv
    split at hv
    · have hmem := ((mem_storable hg.results).1 hv).1
      have := hblocks v hmem
      exact ⟨this.1, by omega, hmem⟩
    · cases hv

theorem fits_le {n capacity : Int} (h : p.fits n capacity = true) : n ≤ capacity := by
  unfold Planner.fits at h
  split at h
  · exact of_decide_eq_true h
  · exact (of_decide_eq_true h).le

/-- **The schedule of a product is made of proper steps.** -/
theorem product_proper {b xr xc ac : Nat} {c : Config} {pr : Program} {a w : Tensor} {path : Path}
    {overflow : Bool} {steps : List Step} (hb : 1 ≤ b) (hcommon : d.Common pr c b xr xc)
    (hprod : d.Product c b xr xc ac a w) (hcaps : p.caps.Within b) (hdata : p.data = d)
    (hcounts : p.counts = d.counts) (hresults : p.results = Std.TreeSet.ofList d.storeBlocks)
    (h : p.steps = .ok (path, overflow, steps)) : ∀ st ∈ steps, st.Proper d p.caps := by
  obtain ⟨hg, hnA, hnB, hnX, hsmall⟩ := gridded_of_product hb hcommon hprod hdata hcounts hresults
  have hsize : p.counts.nX ≤ 35184372088832 := by
    obtain ⟨hX, -, hle, hsmall⟩ := hcommon.sizes hb
    rw [hcounts]
    omega
  obtain ⟨-, h⟩ := (Planner.steps_product (by rw [hdata, hprod.form])).1 h
  split at h
  · rename_i hfits
    obtain ⟨-, -, rfl⟩ := h
    simp only [Bool.and_eq_true] at hfits
    have hfit : TileFits p.caps (below ac).length (below xr, below xc) := by
      have h1 := fits_le hfits.1.1
      have h2 := fits_le hfits.1.2
      have h3 := fits_le hfits.2
      rw [hnA] at h1
      rw [hnB] at h2
      rw [hnX] at h3
      constructor <;> simpa [length_below]
    rw [gemmFit_eq_tile hg hnA hnB hnX]
    refine tileStep_proper hg hdata hcounts hnA hnB hnX hsize (by simp)
      ⟨fun i hi => mem_below.1 hi, fun j hj => mem_below.1 hj, nodup_below _, nodup_below _⟩ ?_
    intro ks hks
    rwa [List.mem_singleton.1 hks]
  · obtain ⟨-, chunk, shapes, htiling, htiles, hroom⟩ := gemmOverflow_shapes hg hnX hsmall h.2.2
    obtain ⟨hchunk, hfits⟩ := hroom b hb hcaps
    have hac0 := hg.ac_pos
    rw [tiles_eq_ok htiles]
    intro st hst
    obtain ⟨q, hq, hst⟩ := List.mem_flatMap.1 hst
    refine tileStep_proper hg hdata hcounts hnA hnB hnX hsize ?_ (htiling.within q hq) ?_ st hst
    · rw [flatten_chunks, hg.aCols, consecutive_zero (by omega)]
    · -- a slice has at most `chunk` inner numbers
      intro ks hks
      have hlen := chunks_length_le (show 0 < chunk.toNat by omega) _ ks hks
      have hq := hfits q hq
      exact ⟨le_trans (Int.mul_le_mul_of_nonneg_left (by omega) (by omega)) hq.inp,
        le_trans (Int.mul_le_mul_of_nonneg_right (by omega) (by omega)) hq.wgt, hq.acc⟩

end Tiles

section Others

variable {p : Planner} {d : Shaped} {pr : Program} {c : Config} {b xr xc : Nat}

/-- Operations on an accumulator that fits make a proper step. -/
theorem aluFit_proper (hb : 1 ≤ b) (hcommon : d.Common pr c b xr xc) (hcaps : p.caps.Within b)
    (hdata : p.data = d) (hcounts : p.counts = d.counts)
    (hresults : p.results = Std.TreeSet.ofList d.storeBlocks)
    (hfits : p.fits p.counts.nX p.caps.acc = true) : ∀ st ∈ p.aluFit, st.Proper d p.caps := by
  obtain ⟨hX, hV, hle, hsmall⟩ := hcommon.sizes hb
  obtain ⟨hinp, hwgt, -⟩ := hcaps.small hb
  have hroom := fits_le hfits
  intro st hst
  unfold Planner.aluFit at hst
  have hst := List.mem_singleton.1 hst
  rw [hcounts] at hroom hst
  rw [consecutive_zero (show 0 ≤ d.counts.nX by omega)] at hst
  subst hst
  refine Planner.Keeps.proper p [] (p.aluOn (below d.counts.nX)) hdata (by omega) ?_
  constructor
  case grain => exact rfl
  case ops => exact rfl
  case products => exact fun op hop => absurd hop List.not_mem_nil
  case others => exact fun op hop => hop
  case nodup => exact nodup_below _
  case range =>
    intro n hn
    have := mem_below.1 hn
    omega
  case room =>
    simp only [length_below]
    omega
  case inputs => exact ⟨rfl, by simp; omega⟩
  case input => exact fun n hn => absurd hn List.not_mem_nil
  case weights => exact ⟨by simp; omega, by simp; omega⟩
  case weight => exact fun n hn => absurd hn List.not_mem_nil
  case loadX => exact fun n hn => ⟨hn, (mem_below.1 hn).2⟩
  case loadY => exact fun n hn => absurd hn List.not_mem_nil
  case second => exact fun hne => absurd rfl hne
  case store =>
    simp only
    intro v hv
    split at hv
    · rename_i hvec
      rw [hdata] at hv
      obtain ⟨h0, hlt⟩ := hcommon.mask_range hv
      simp only [hvec, if_true]
      refine ⟨h0, by omega, ?_⟩
      rw [hcommon.side, Step.holds_block (by omega) h0 (by omega) rfl]
      refine mem_below.2 ⟨Int.ediv_nonneg h0 (by omega), Int.ediv_lt_of_lt_mul (by omega) ?_⟩
      rw [hX]
      exact_mod_cast hlt
    · rename_i hvec
      have hmem := ((mem_storable (hdata ▸ hresults)).1 hv).1
      simp only [hvec, Bool.false_eq_true, if_false]
      exact ⟨(mem_below.1 hmem).1, (mem_below.1 hmem).2, hmem⟩

/-- The steps of a multiple, for given pieces of the input. -/
def Planner.multipleSteps (p : Planner) (parts : List (List Int)) : List Step :=
  parts.zipIdx.map fun (part, i) =>
    { loadA := part, loadX := part, loadB := if i = 0 then [0] else []
      inpResident := part, wgtResident := [0], sramResident := part
      ops := part.map (fun a => .gemm a a 0) ++ p.aluOn part
      store := p.storable part }

/-- The steps of a sum, for given pieces of the accumulator. -/
def Planner.sumSteps (p : Planner) (parts : List (List Int)) : List Step :=
  parts.map fun part =>
    { loadX := part, loadY := part, sramResident := part ++ part.map (p.counts.nX + ·)
      ops := p.aluOn (part ++ part.map (p.counts.nX + ·)), store := p.storable part }

/-- How much of a multiple is in the scratchpads at once. -/
def Planner.buffer (p : Planner) : Int := min (min p.caps.inp p.caps.acc) p.caps.out

theorem constant_eq_ok {steps : List Step} (h : p.constant = .ok steps) : 2 ≤ p.buffer ∧
    steps = p.multipleSteps (chunks p.buffer.toNat (consecutive 0 p.counts.nA)) ∧
    (1 < (chunks p.buffer.toNat (consecutive 0 p.counts.nA)).length →
      ∀ r ∈ p.data.ops, r.useImm = true) := by
  unfold Planner.constant at h
  simp only [Outcome.refused_eq_ok] at h
  obtain ⟨hbuffer, h⟩ := h
  obtain ⟨parts, hparts, h⟩ := Outcome.bind_eq_ok.1 h
  obtain ⟨hpos, rfl⟩ := pieces_eq_ok.1 hparts
  refine ⟨not_lt.1 hbuffer, ?_⟩
  split at h
  · obtain ⟨⟨⟩, hreject, h⟩ := Outcome.bind_eq_ok.1 h
    exact ⟨(Outcome.pure_eq_ok.1 h).symm, fun _ => rejectVector_eq_ok.1 hreject⟩
  · rename_i hone
    exact ⟨(Outcome.pure_eq_ok.1 h).symm, fun hlt => absurd hlt hone⟩

theorem add_eq_ok {steps : List Step} (h : p.add = .ok steps) : 1 ≤ p.caps.acc.tdiv 2 ∧
    steps = p.sumSteps (chunks (p.caps.acc.tdiv 2).toNat (consecutive 0 p.counts.nX)) := by
  unfold Planner.add at h
  simp only [Outcome.refused_eq_ok] at h
  obtain ⟨hhalf, h⟩ := h
  obtain ⟨parts, hparts, h⟩ := Outcome.bind_eq_ok.1 h
  obtain ⟨hpos, rfl⟩ := pieces_eq_ok.1 hparts
  exact ⟨not_lt.1 hhalf, (Outcome.pure_eq_ok.1 h).symm⟩

/-- The pieces of a multiple make proper steps. -/
theorem constant_proper {scalar : Int} {a w : Tensor} {factor : Matrix} {steps : List Step}
    (hb : 1 ≤ b) (hcommon : d.Common pr c b xr xc) (hmul : d.Multiple c b xr xc scalar a w factor)
    (hcaps : p.caps.Within b) (hdata : p.data = d) (hcounts : p.counts = d.counts)
    (hresults : p.results = Std.TreeSet.ofList d.storeBlocks) (h : p.constant = .ok steps) :
    ∀ st ∈ steps, st.Proper d p.caps := by
  obtain ⟨hX, hV, hle, hsmall⟩ := hcommon.sizes hb
  obtain ⟨hinp, hwgt, hacc⟩ := hcaps.small hb
  have hA : d.counts.nA = d.counts.nX := by
    rw [hX]
    simp [Shaped.counts, hmul.inp, Tensor.size, hmul.a_regular.size]
  have hB : d.counts.nB = 1 := by
    obtain ⟨block, -, hw⟩ := (constantWeight_diagonal hmul.weight).block
    simp [Shaped.counts, hmul.wgt, Tensor.size, hw]
  obtain ⟨hbuffer, rfl, -⟩ := constant_eq_ok h
  have hroom : p.buffer ≤ p.caps.inp ∧ p.buffer ≤ p.caps.acc := by
    unfold Planner.buffer
    omega
  intro st hst
  obtain ⟨⟨part, i⟩, hq, rfl⟩ := List.mem_map.1 hst
  have hmem := List.fst_mem_of_mem_zipIdx hq
  have hlen := chunks_length_le (show 0 < p.buffer.toNat by omega) _ part hmem
  have hflat : (chunks p.buffer.toNat (consecutive 0 p.counts.nA)).flatten =
      below d.counts.nX := by
    rw [flatten_chunks, hcounts, hA, consecutive_zero (by omega)]
  obtain ⟨hrange, hnodup⟩ := piece_of_below hflat hmem
  refine Planner.Keeps.proper p (part.map fun n => .gemm n n 0) (p.aluOn part) hdata (by omega) ?_
  constructor
  case grain => exact rfl
  case ops => exact rfl
  case products =>
    intro op hop
    obtain ⟨n, hn, rfl⟩ := List.mem_map.1 hop
    exact ⟨n, hn, n, hn, 0, List.mem_singleton_self 0, rfl⟩
  case others => exact fun op hop => hop
  case nodup => exact hnodup
  case range =>
    intro n hn
    have := hrange n hn
    omega
  case room =>
    simp only
    omega
  case inputs =>
    refine ⟨rfl, ?_⟩
    simp only
    omega
  case input =>
    rw [hA]
    exact hrange
  case weights =>
    refine ⟨?_, ?_⟩
    · simp only
      split <;> simp <;> omega
    · simp
      omega
  case weight =>
    simp only
    intro n hn
    split at hn
    · obtain rfl := List.mem_singleton.1 hn
      exact ⟨List.mem_singleton_self 0, le_rfl, by omega⟩
    · cases hn
  case loadX => exact fun n hn => ⟨hn, (hrange n hn).2⟩
  case loadY => exact fun n hn => absurd hn List.not_mem_nil
  case second => exact fun hne => absurd rfl hne
  case store =>
    intro v hv
    have hmem := ((mem_storable (hdata ▸ hresults)).1 hv).1
    exact ⟨(hrange v hmem).1, (hrange v hmem).2, hmem⟩

/-- The pieces of a sum make proper steps. -/
theorem add_proper {y : Tensor} {steps : List Step} (hb : 1 ≤ b)
    (hcommon : d.Common pr c b xr xc) (hsum : d.Sum c b xr xc y) (hcaps : p.caps.Within b)
    (hdata : p.data = d) (hcounts : p.counts = d.counts)
    (hresults : p.results = Std.TreeSet.ofList d.storeBlocks) (h : p.add = .ok steps) :
    ∀ st ∈ steps, st.Proper d p.caps := by
  obtain ⟨hX, hV, hle, hsmall⟩ := hcommon.sizes hb
  obtain ⟨hinp, hwgt, hacc⟩ := hcaps.small hb
  obtain ⟨hhalf, rfl⟩ := add_eq_ok h
  have htwice : p.caps.acc.tdiv 2 * 2 ≤ p.caps.acc := by
    rw [Int.tdiv_eq_ediv_of_nonneg (by omega)]
    omega
  intro st hst
  obtain ⟨part, hmem, rfl⟩ := List.mem_map.1 hst
  have hlen := chunks_length_le (by omega) _ part hmem
  have hflat : (chunks (p.caps.acc.tdiv 2).toNat (consecutive 0 p.counts.nX)).flatten =
      below d.counts.nX := by
    rw [flatten_chunks, hcounts, consecutive_zero (by omega)]
  obtain ⟨hrange, hnodup⟩ := piece_of_below hflat hmem
  rw [hcounts]
  refine Planner.Keeps.proper p [] (p.aluOn (part ++ part.map (d.counts.nX + ·))) hdata (by omega) ?_
  constructor
  case grain => exact rfl
  case ops => exact rfl
  case products => exact fun op hop => absurd hop List.not_mem_nil
  case others => exact fun op hop => hop
  case nodup =>
    refine List.nodup_append.2 ⟨hnodup, hnodup.map fun m n heq => by simpa using heq, ?_⟩
    intro m hm n hn
    obtain ⟨k, hk, rfl⟩ := List.mem_map.1 hn
    have := hrange m hm
    have := hrange k hk
    omega
  case range =>
    intro n hn
    rcases List.mem_append.1 hn with hn | hn
    · have := hrange n hn
      omega
    · obtain ⟨k, hk, rfl⟩ := List.mem_map.1 hn
      have := hrange k hk
      omega
  case room =>
    simp
    omega
  case inputs => exact ⟨rfl, by simp; omega⟩
  case input => exact fun n hn => absurd hn List.not_mem_nil
  case weights => exact ⟨by simp; omega, by simp; omega⟩
  case weight => exact fun n hn => absurd hn List.not_mem_nil
  case loadX => exact fun n hn => ⟨List.mem_append_left _ hn, (hrange n hn).2⟩
  case loadY =>
    exact fun n hn => ⟨List.mem_append_right _ (List.mem_map.2 ⟨n, hn, rfl⟩), (hrange n hn).1⟩
  case second => exact fun _ => hsum.form
  case store =>
    intro v hv
    have hmem := ((mem_storable (hdata ▸ hresults)).1 hv).1
    exact ⟨(hrange v hmem).1, (hrange v hmem).2, List.mem_append_left _ hmem⟩

end Others

namespace Placing

/-- The books of the scheduler of vectors: the slots are within the capacity and hold
vectors of the program, the step in work runs declared sites, and the steps done are
proper. -/
structure Booked (d : Shaped) (caps : Capacities) (s : Placing) : Prop where
  room : s.slots.length ≤ caps.acc * d.b
  range : ∀ i h, s.At i h → h.vector < d.vectors
  ops : ∀ q ∈ s.ops, q.1 ∈ d.ops ∧ ∀ site ∈ q.2, site ∈ q.1.sites
  done : ∀ t ∈ s.done, t.Proper d caps

section Books

variable {d : Shaped} {caps : Capacities} {acc : Scalar} {last : Array Nat} {before : List Entry}
  {need : List Int} {s : Placing}

theorem mem_closing {stores : List Int} {v : Int} (h : s.Has v) :
    v ∈ (s.closing stores).sramResident := by
  obtain ⟨i, h, hat, rfl⟩ := h
  exact List.mem_map.2 ⟨some h, List.mem_of_getElem? hat, rfl⟩

theorem closing_distinct (hs : s.Distinct) (stores : List Int) :
    ((s.closing stores).sramResident.filter (· ≠ free)).Nodup := by
  unfold closing
  simp only
  rw [List.Nodup, List.pairwise_filter, List.pairwise_map, List.pairwise_iff_getElem]
  intro i j hi hj hij hfree hfree' heq
  -- a slot that is not free holds the vector that stands there
  cases hsi : s.slots[i] with
  | none => simp [hsi] at hfree
  | some h =>
    cases hsj : s.slots[j] with
    | none => simp [hsj] at hfree'
    | some k =>
      have := hs.one i j h k (by rw [At, List.getElem?_eq_getElem hi, hsi])
        (by rw [At, List.getElem?_eq_getElem hj, hsj]) (by simpa [hsi, hsj] using heq)
      omega

/-- **The step that is closed is proper.** -/
theorem closing_proper {vectors total : Int} (hs : s.Sound d acc last before need)
    (hbook : s.Booked d caps) (hcaps : 0 ≤ caps.inp ∧ 0 ≤ caps.wgt) (hvectors : 0 ≤ d.vectors)
    (hon : ∀ r ∈ d.ops, r.OnVectors vectors total) (results : Std.TreeSet Int) (next : Nat) :
    (s.closing (s.leaving last results next)).Proper d caps where
  inputs := ⟨rfl, hcaps.1⟩
  input _ hn := absurd hn List.not_mem_nil
  weights := ⟨hcaps.2, hcaps.2⟩
  weight _ hn := absurd hn List.not_mem_nil
  room := by
    unfold closing
    simpa using hbook.room
  distinct := closing_distinct hs.distinct _
  resident := by
    intro n hn
    obtain ⟨slot, hslot, rfl⟩ := List.mem_map.1 hn
    obtain ⟨i, hi⟩ := List.getElem?_of_mem hslot
    unfold Step.units closing
    simp only
    cases slot with
    | none => simp only [free]; omega
    | some h =>
      have := hbook.range i h hi
      simp only
      omega
  loadX := by
    intro n hn
    obtain ⟨⟨i, h, hat, rfl, -⟩, -⟩ := hs.loaded n (List.mem_reverse.1 hn)
    exact ⟨mem_closing ⟨i, h, hat, rfl⟩, hs.distinct.nonneg i h hat, hbook.range i h hat⟩
  loadY _ hn := absurd hn List.not_mem_nil
  second hne := absurd rfl hne
  ordered := by
    refine ⟨[], _, rfl, by simp, fun op hop => ?_⟩
    obtain ⟨q, -, rfl⟩ := List.mem_map.1 hop
    rfl
  gemm c a w hop := by
    obtain ⟨q, -, hq⟩ := List.mem_map.1 hop
    cases hq
  alu r sites hop := by
    obtain ⟨q, hq, heq⟩ := List.mem_map.1 hop
    cases heq
    have hq := List.mem_reverse.1 hq
    obtain ⟨hr, hsites⟩ := hbook.ops q hq
    refine ⟨hr, fun site hsite => ?_⟩
    have hsite := List.mem_reverse.1 hsite
    have hreads := (hs.reads q hq).2 site hsite
    have hholds : ∀ u ∈ (q.1.action acc site).reads, (s.closing (s.leaving last results next)).Holds
        d.b u := by
      intro u hu
      obtain ⟨i, h, hat, rfl, -⟩ := hreads u hu
      exact mem_closing ⟨i, h, hat, rfl⟩
    refine ⟨hsites site hsite, hholds _ (by simp [Action.reads, Resolved.action]), fun hne => hholds _ ?_⟩
    have himm : q.1.useImm = false := by
      by_contra himm
      exact hne ((hon q.1 hr).plain (by simpa using himm) site (hsites site hsite))
    simp [Action.reads, Resolved.action, himm]
  store := by
    intro v hv
    obtain ⟨i, h, hat, -, -, -, rfl⟩ := mem_leaving.1 hv
    exact ⟨hs.distinct.nonneg i h hat, hbook.range i h hat, mem_closing ⟨i, h, hat, rfl⟩⟩
  grain h := by cases h

theorem flush_booked {vectors total : Int} (hs : s.Sound d acc last before need)
    (hbook : s.Booked d caps) (hcaps : 0 ≤ caps.inp ∧ 0 ≤ caps.wgt) (hvectors : 0 ≤ d.vectors)
    (hon : ∀ r ∈ d.ops, r.OnVectors vectors total) (results : Std.TreeSet Int) (next : Nat) :
    (s.flush last results next).Booked d caps where
  room := by
    unfold flush
    simpa using hbook.room
  range i h hat := by
    obtain ⟨k, hk, -, rfl⟩ := flush_at.1 hat
    exact hbook.range i k hk
  ops q hq := by cases hq
  done t ht := by
    rw [flush_done] at ht
    rcases List.mem_cons.1 ht with rfl | ht
    · exact closing_proper hs hbook hcaps hvectors hon results next
    · exact hbook.done t ht

theorem length_place_le {capacity : Int} {v : Int} {s' : Placing} (h : s.slots.length ≤ capacity)
    (hplace : s.place capacity need v = .ok s') : s'.slots.length ≤ capacity := by
  obtain ⟨slots, hslots, hplace⟩ := Outcome.bind_eq_ok.1 hplace
  obtain rfl := Outcome.pure_eq_ok.1 hplace
  unfold slotsWith at hslots
  split at hslots
  · obtain rfl := Except.ok.inj hslots
    simpa using h
  split at hslots
  · obtain rfl := Except.ok.inj hslots
    rw [List.length_append, List.length_singleton]
    omega
  split at hslots
  · obtain rfl := Except.ok.inj hslots
    simpa using h
  · cases hslots

theorem place_booked {v : Int} {s' : Placing} (hbook : s.Booked d caps) (hneed : v ∈ need)
    (hv : v < d.vectors) (hplace : s.place (caps.acc * d.b) need v = .ok s') : s'.Booked d caps := by
  have hroom := length_place_le hbook.room hplace
  obtain ⟨⟨j, -, hat, -⟩, slots, rfl⟩ := place_at hneed hplace
  refine ⟨hroom, fun i h hi => ?_, hbook.ops, hbook.done⟩
  rcases (hat i h).1 hi with ⟨-, rfl⟩ | ⟨-, hi⟩
  · exact hv
  · exact hbook.range i h hi

theorem execute_booked {e : Entry} (hbook : s.Booked d caps) (hop : e.op ∈ d.ops)
    (hsite : e.site ∈ e.op.sites) (hindex : ∀ r ∈ d.ops, r.index = e.op.index → r = e.op) :
    (s.execute e).Booked d caps where
  room := by
    unfold execute
    simpa using hbook.room
  range i h hat := by
    obtain ⟨k, hk, rfl⟩ := execute_at.1 hat
    exact hbook.range i k hk
  ops q hq := by
    obtain ⟨hr, hsites⟩ := execute_ops (fun q hq => hindex q.1 (hbook.ops q hq).1) q hq
    have hmem : q.1 ∈ d.ops := by
      rcases hr with hr | ⟨q', hq', hr⟩
      · rwa [hr]
      · rw [hr]
        exact (hbook.ops q' hq').1
    refine ⟨hmem, fun site hs => ?_⟩
    rcases hsites site hs with ⟨hr, rfl⟩ | ⟨q', hq', hr, hs⟩
    · rwa [hr]
    · rw [hr]
      exact (hbook.ops q' hq').2 site hs
  done := hbook.done

/-- **Placing an entry keeps the books in order.** -/
theorem entry_booked {e : Entry} {vectors total : Int} {s' : Placing}
    (hs : s.Sound d acc last before []) (hbook : s.Booked d caps)
    (hcaps : 0 ≤ caps.inp ∧ 0 ≤ caps.wgt) (hvectors : 0 ≤ d.vectors)
    (hon : ∀ r ∈ d.ops, r.OnVectors vectors total) (hop : e.op ∈ d.ops)
    (hsite : e.site ∈ e.op.sites) (hindex : ∀ r ∈ d.ops, r.index = e.op.index → r = e.op)
    (hneed : ∀ v ∈ e.need, v < d.vectors) {results : Std.TreeSet Int} {t : Nat}
    (h : s.entry (caps.acc * d.b) last results t e = .ok s') : s'.Booked d caps := by
  exact entry_invariant (I := fun s => s.Booked d caps) (P := (· < d.vectors))
    (J := fun s => s.Booked d caps) hbook (flush_booked hs hbook hcaps hvectors hon results t)
    (fun hbook hv hneed _ hplace => place_booked hbook hneed hv hplace) hneed
    (fun hbook _ => execute_booked hbook hop hsite hindex) h

end Books

end Placing

/-- **The schedule of operations that do not fit is made of proper steps.** -/
theorem aluOverflow_proper {p : Planner} {d : Shaped} {pr : Program} {c : Config} {b xr xc : Nat}
    {steps : List Step} (hb : 1 ≤ b) (hcommon : d.Common pr c b xr xc) (hplain : d.Plain b)
    (hcaps : p.caps.Within b) (hdata : p.data = d) (h : p.aluOverflow = .ok steps) :
    ∀ st ∈ steps, st.Proper d p.caps := by
  obtain ⟨hX, hV, hle, hsmall⟩ := hcommon.sizes hb
  obtain ⟨hinp, hwgt, hacc⟩ := hcaps.small hb
  have hon : ∀ r ∈ d.ops, r.OnVectors (xr * xc * b : Nat) (xr * xc * b : Nat) :=
    fun r hr => hcommon.onVectors_of_ne (by rw [hplain.form]; decide) hr
  have hindex : ∀ r ∈ d.ops, ∀ r' ∈ d.ops, r.index = r'.index → r = r' :=
    fun r hr r' hr' => hcommon.op_eq_of_index hr hr'
  have hcapacity : wrap64 (p.caps.acc * d.b) = p.caps.acc * d.b := by
    have := hcaps.acc_rows
    have : 0 ≤ p.caps.acc * (b : Int) := Int.mul_nonneg (by omega) (by omega)
    rw [hcommon.side]
    exact wrap64_small (by omega) (by omega)
  have hvectors : p.data.vectors.toNat = xr * xc * b := by rw [hdata, hV, Int.toNat_natCast]
  obtain ⟨hroom, order, horder, s, hs, rfl⟩ := (Planner.aluOverflow_eq_ok hvectors).1 h
  rw [hdata, hcapacity] at hs hroom
  rw [hdata] at horder ⊢
  have hperm := orderEntries_perm horder
  have hbooked := foldlM_invariant (fun (done rest : List (Entry × Nat)) (s : Placing) =>
    done ++ rest = order.zipIdx ∧
      s.Sound d c.acc (lastTouch (xr * xc * b) order) (done.map Prod.fst) [] ∧ s.Booked d p.caps)
    ?_ [] order.zipIdx {} s ⟨rfl, Placing.sound_nil d c.acc _, ?_⟩ hs
  · obtain ⟨-, hsound, hbook⟩ := hbooked
    have hfinal : (s.close (lastTouch (xr * xc * b) order) (Std.TreeSet.ofList d.storeMask)
        order.length).Booked d p.caps := by
      unfold Placing.close
      split
      · exact hbook
      · exact Placing.flush_booked hsound hbook ⟨by omega, by omega⟩ (by omega) hon _ _
    exact fun st hst => hfinal.done st (List.mem_reverse.1 hst)
  · rintro done ⟨e, t⟩ rest s s' ⟨hsplit, hsound, hbook⟩ hstep
    obtain ⟨hmem, -, hnext, -⟩ := placing_step hon hindex hperm hsplit hsound hstep
    obtain ⟨hop, hsite⟩ := mem_flatten hmem
    refine ⟨by simpa using hsplit, by simpa using hnext, ?_⟩
    refine Placing.entry_booked hsound hbook ⟨by omega, by omega⟩ (by omega) hon hop hsite
      (fun r hr => hindex r hr _ hop) (fun v hv => ?_) hstep
    rw [hV]
    exact (need_range hon hmem v hv).2
  · refine ⟨?_, fun i h hat => by simp [Placing.At] at hat, by simp, by simp⟩
    simp only [List.length_nil]
    omega

end Tessera
