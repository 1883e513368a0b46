import Tessera.Proofs.Products

/-!
# In which order products and operations run

A program multiplies and then runs its operations. A schedule that keeps some blocks at a
time runs all that is to be done to them before it turns to the next ones. Where no
operation reads a second vector, blocks do not see each other, and so the order among them
is free.

* `Shaped.Ordered`: the orders in which a schedule may run products and operations.
* `Shaped.Ordered.run`: all of them end in the same values.
* `product_ordered`, `multiple_ordered`: the schedules of products keep to such an order.
* `sum_declared`: the schedule of a sum runs its sites as they are declared.
-/

namespace Tessera

/-- Events that run the products `ps` and then the declared operations; or, where no
operation reads a second vector, any order that keeps those on each block in order. -/
inductive Shaped.Ordered (d : Shaped) (ps : List Event) : List Event → Prop
  | declared : d.Ordered ps (ps ++ d.declared)
  | blockwise {es : List Event} (plain : ∀ r ∈ d.ops, r.useImm = true)
      (same : ∀ n, es.filter (Event.touches d.b n) =
        (ps ++ d.declared).filter (Event.touches d.b n)) : d.Ordered ps es

/-- The block that an event writes. -/
def Event.home (b : Int) : Event → Int
  | .product c _ _ => c
  | .site _ s => s.dst.tdiv b

/-- An event that reads no second vector. -/
def Event.Plain : Event → Prop
  | .product _ _ _ => True
  | .site _ s => s.src = noSource

theorem Event.touches_home (b : Int) (e : Event) : e.touches b (e.home b) = true := by
  cases e <;> simp [Event.touches, Event.home]

theorem Event.Plain.touches {e : Event} (h : e.Plain) (b n : Int) :
    e.touches b n = decide (e.home b = n) := by
  cases e with
  | product c a w => rfl
  | site r s =>
    have hsrc : s.src = noSource := h
    simp only [Event.touches, Event.home, hsrc, bne_self_eq_false, Bool.false_and, Bool.or_false]
    rfl

theorem Event.Plain.inside {e : Event} (h : e.Plain) (b : Int) (resident : List Int) :
    e.inside b resident = resident.contains (e.home b) := by
  cases e with
  | product c a w => rfl
  | site r s =>
    have hsrc : s.src = noSource := h
    simp [Event.inside, Event.home, hsrc]

section Ordered

variable {d : Shaped} {acc : Scalar} {b : Nat} {ps es : List Event}

/-- No event is left out, and none is added. -/
theorem Shaped.Ordered.mem (h : d.Ordered ps es) {e : Event} : e ∈ es ↔ e ∈ ps ++ d.declared := by
  cases h with
  | declared => rfl
  | blockwise plain same =>
    have := e.touches_home d.b
    constructor
    · intro he
      have : e ∈ es.filter (Event.touches d.b (e.home d.b)) := List.mem_filter.2 ⟨he, this⟩
      rw [same] at this
      exact List.mem_of_mem_filter this
    · intro he
      have : e ∈ (ps ++ d.declared).filter (Event.touches d.b (e.home d.b)) :=
        List.mem_filter.2 ⟨he, this⟩
      rw [← same] at this
      exact List.mem_of_mem_filter this

/-- Operations that read no second vector make plain events. -/
theorem declared_plain {vectors total : Int} (hon : ∀ r ∈ d.ops, r.OnVectors vectors total)
    (plain : ∀ r ∈ d.ops, r.useImm = true) {e : Event} (he : e ∈ d.declared) : e.Plain := by
  obtain ⟨r, hr, he⟩ := List.mem_flatMap.1 he
  obtain ⟨s, hs, rfl⟩ := List.mem_map.1 he
  exact (hon r hr).plain (plain r hr) s hs

/-- **Every such order ends in the same values.** -/
theorem Shaped.Ordered.run (h : d.Ordered ps es) (hside : d.b = b) (hps : AllProducts ps)
    {vectors total : Int} (hon : ∀ r ∈ d.ops, r.OnVectors vectors total) {σ τ : Int → Row}
    (hrun : Action.run ((ps ++ d.declared).flatMap (Event.actions d acc)) σ = .ok τ) :
    Action.run (es.flatMap (Event.actions d acc)) σ = .ok τ := by
  have hmem := fun {e} => h.mem (e := e)
  cases h with
  | declared => exact hrun
  | blockwise plain same =>
    have hpart : ∀ e ∈ ps ++ d.declared, ∀ a ∈ e.actions d acc, a.Parted (fun v => v / b) ∧
        ∀ n, e.touches d.b n = decide (a.dst / b = n) := by
      intro e he action haction
      rcases List.mem_append.1 he with hp | hd
      · obtain ⟨c, a, w, rfl⟩ := hps e hp
        obtain ⟨r, hr, rfl⟩ := List.mem_map.1 haction
        have hr := mem_below.1 hr
        refine ⟨fun v hv => ?_, fun n => ?_⟩
        · obtain rfl : v = c * d.b + r := by simpa [Action.reads, productAction] using hv
          rfl
        · obtain ⟨hdiv, -⟩ := row_col_ediv (i := c) hr.1 hr.2
          simp only [productAction, ← hside, hdiv]
          rfl
      · have htouch := (declared_plain hon plain hd).touches d.b
        obtain ⟨r, hr, hd⟩ := List.mem_flatMap.1 hd
        obtain ⟨s, hs, rfl⟩ := List.mem_map.1 hd
        obtain rfl := List.mem_singleton.1 haction
        refine ⟨fun v hv => ?_, fun n => ?_⟩
        · obtain rfl : v = s.dst := by simpa [Action.reads, Resolved.action, plain r hr] using hv
          rfl
        · rw [htouch, Event.home, Resolved.action, hside,
            Int.tdiv_eq_ediv_of_nonneg ((hon r hr).dst s hs).1]
    refine run_of_events (fun e he => hpart e ?_) (fun n => (same n).symm) hrun
    rcases List.mem_append.1 he with he | he
    · exact he
    · exact hmem.1 he

end Ordered

/-- All products of blocks of a product of matrices, by rows of the input. -/
def gridProducts (xr xc ac : Int) : List Event :=
  ((below xr).flatMap fun i => (below ac).flatMap fun k => (below xc).map fun j =>
    StepOp.gemm (i * xc + j) (i * ac + k) (k * xc + j)).flatMap StepOp.events

theorem mem_gridProducts {xr xc ac : Int} {e : Event} : e ∈ gridProducts xr xc ac ↔
    ∃ i ∈ below xr, ∃ k ∈ below ac, ∃ j ∈ below xc,
      e = .product (i * xc + j) (i * ac + k) (k * xc + j) :=
  mem_products_tile

theorem allProducts_grid (xr xc ac : Int) : AllProducts (gridProducts xr xc ac) := by
  intro e he
  obtain ⟨i, -, k, -, j, -, rfl⟩ := mem_gridProducts.1 he
  exact ⟨_, _, _, rfl⟩

/-- A block of a grid has a row and a column. -/
theorem grid_coordinates {xr xc n : Int} (hxc : 0 < xc) (hn : 0 ≤ n ∧ n < xr * xc) :
    ∃ i j, (0 ≤ i ∧ i < xr) ∧ (0 ≤ j ∧ j < xc) ∧ i * xc + j = n := by
  refine ⟨n / xc, n % xc, ⟨Int.ediv_nonneg hn.1 (by omega), Int.ediv_lt_of_lt_mul hxc hn.2⟩,
    ⟨Int.emod_nonneg _ (by omega), Int.emod_lt_of_pos _ hxc⟩, ?_⟩
  rw [Int.mul_comm]
  exact Int.mul_ediv_add_emod n xc

section Grid

variable {p : Planner} {xr xc ac : Int} {steps : List Step}

theorem gridProducts_block {b i j : Int} (hi : 0 ≤ i ∧ i < xr) (hj : 0 ≤ j ∧ j < xc) :
    (gridProducts xr xc ac).filter (Event.touches b (i * xc + j)) = productsOf ac xc xc i j :=
  products_tile_filter (nodup_below _) (nodup_below _) (fun _ h => mem_below.1 h)
    (mem_below.2 hi) (mem_below.2 hj)

theorem gridProducts_outside {b n : Int} (hn : ¬(0 ≤ n ∧ n < xr * xc)) :
    (gridProducts xr xc ac).filter (Event.touches b n) = [] := by
  refine List.filter_eq_nil_iff.2 fun e he => ?_
  obtain ⟨i, hi, k, -, j, hj, rfl⟩ := mem_gridProducts.1 he
  simp only [Event.touches, beq_iff_eq]
  rintro rfl
  exact hn (cell_range (mem_below.1 hi) (mem_below.1 hj))

/-- Every block of the grid has a product. -/
theorem gridProducts_some {n : Int} (hxc : 0 < xc) (hac : 0 < ac) (hn : 0 ≤ n ∧ n < xr * xc) :
    ∃ a w, Event.product n a w ∈ gridProducts xr xc ac := by
  obtain ⟨i, j, hi, hj, rfl⟩ := grid_coordinates hxc hn
  exact ⟨_, _, mem_gridProducts.2
    ⟨i, mem_below.2 hi, 0, mem_below.2 ⟨le_rfl, hac⟩, j, mem_below.2 hj, rfl⟩⟩

/-- A product that fits runs all its products and then the declared operations. -/
theorem gemmFit_events {b : Nat} (hg : p.Gridded xr xc ac) (hnA : p.counts.nA = xr * ac)
    (hnB : p.counts.nB = ac * xc) (hnX : p.counts.nX = xr * xc) (hb : 1 ≤ b) (hside : p.data.b = b)
    (hon : ∀ r ∈ p.data.ops, r.OnVectors (xr * xc * b) (xr * xc * b)) :
    p.gemmFit.flatMap Step.events = gridProducts xr xc ac ++ p.data.declared := by
  have hxr := hg.xr_pos
  have hxc := hg.xc_pos
  have hwithin : TileWithin xr xc (below xr) (below xc) :=
    ⟨fun _ h => mem_below.1 h, fun _ h => mem_below.1 h, nodup_below _, nodup_below _⟩
  rw [gemmFit_eq_tile hg hnA hnB hnX]
  unfold Planner.tileSteps Step.events
  simp only [List.zipIdx_singleton, List.map_cons, List.map_nil, List.flatMap_cons, List.flatMap_nil,
    List.append_nil]
  rw [tileStep_events hg (show [below ac].flatten = below ac by simp) hwithin List.mem_cons_self,
    if_pos (by simp)]
  refine congrArg (gridProducts xr xc ac ++ ·) (List.filter_eq_self.2 fun e he => ?_)
  rw [hside, show tileBlocks xc (below xr) (below xc) = below (xr * xc) from
    (below_mul (by omega) (by omega)).symm]
  exact inside_below hb hon he

/-- **What tiles do to a block**: its products, and then the operations on it. -/
theorem tiled_block (hg : p.Gridded xr xc ac) (hcounts : p.counts = p.data.counts)
    (h : p.Tiled xr xc ac steps) {i j : Int} (hi : 0 ≤ i ∧ i < xr) (hj : 0 ≤ j ∧ j < xc) :
    (steps.flatMap Step.events).filter (Event.touches p.data.b (i * xc + j)) =
      productsOf ac xc xc i j ++ p.data.declared.filter (Event.touches p.data.b (i * xc + j)) := by
  obtain ⟨before, stay, after, hsteps, haway, hstay⟩ := tiled_accumulated hg hcounts h hi hj
  rw [← hcounts, hg.aCols, hg.bCols, hg.xCols] at hstay
  rw [← hcounts, hg.xCols] at haway
  have hnone : ∀ part : List Step, (∀ s ∈ part, s ∈ before ++ after) →
      (part.flatMap Step.events).filter (Event.touches p.data.b (i * xc + j)) = [] := by
    intro part hpart
    refine List.filter_eq_nil_iff.2 fun e he => ?_
    obtain ⟨s, hs, he⟩ := List.mem_flatMap.1 he
    rw [(haway s (hpart s hs)).events e he]
    simp
  rw [← withStores_flatMap Step.events (fun _ _ => rfl) [], ← recordStores_eq, hsteps,
    List.flatMap_append, List.flatMap_append, List.filter_append, List.filter_append,
    hnone before fun s h => List.mem_append_left _ h,
    hnone after fun s h => List.mem_append_right _ h, hstay.events, List.nil_append, List.append_nil]

/-- Tiles do nothing outside the grid. -/
theorem tiled_outside (hg : p.Gridded xr xc ac) (h : p.Tiled xr xc ac steps) {n : Int}
    (hn : ¬(0 ≤ n ∧ n < xr * xc)) :
    (steps.flatMap Step.events).filter (Event.touches p.data.b n) = [] := by
  obtain ⟨shapes, slices, htiling, hslices, rfl, -⟩ := h
  have hxc := hg.xc_pos
  have hj : 0 ≤ n % xc ∧ n % xc < xc :=
    ⟨Int.emod_nonneg _ (by omega), Int.emod_lt_of_pos _ hxc⟩
  have hnumber : n / xc * xc + n % xc = n := by
    rw [Int.mul_comm]
    exact Int.mul_ediv_add_emod n xc
  refine List.filter_eq_nil_iff.2 fun e he => ?_
  obtain ⟨s, hs, he⟩ := List.mem_flatMap.1 he
  obtain ⟨q, hq, hs⟩ := List.mem_flatMap.1 hs
  have hout : ¬(n / xc ∈ q.1 ∧ n % xc ∈ q.2) := by
    rintro ⟨hi, -⟩
    rw [← hnumber] at hn
    exact hn (cell_range ((htiling.within q hq).row _ hi) hj)
  have haway := tile_away hg hslices (htiling.within q hq) hj hout s hs
  rw [hnumber] at haway
  rw [haway.events e he]
  simp

/-- **Tiles keep the order on every block.** -/
theorem tiled_ordered {b : Nat} (hg : p.Gridded xr xc ac) (hcounts : p.counts = p.data.counts)
    (hb : 1 ≤ b) (hside : p.data.b = b)
    (hon : ∀ r ∈ p.data.ops, r.OnVectors (xr * xc * b) (xr * xc * b))
    (plain : ∀ r ∈ p.data.ops, r.useImm = true) (h : p.Tiled xr xc ac steps) :
    p.data.Ordered (gridProducts xr xc ac) (steps.flatMap Step.events) := by
  refine .blockwise plain fun n => ?_
  rw [List.filter_append]
  by_cases hn : 0 ≤ n ∧ n < xr * xc
  · obtain ⟨i, j, hi, hj, rfl⟩ := grid_coordinates hg.xc_pos hn
    rw [tiled_block hg hcounts h hi hj, gridProducts_block hi hj]
  · rw [tiled_outside hg h hn, gridProducts_outside hn, List.nil_append, Eq.comm,
      List.filter_eq_nil_iff]
    intro e he htouch
    -- the operations are on the grid
    have hin := inside_below (n := xr * xc) hb hon he
    have hplain := declared_plain hon plain he
    rw [hside, hplain.touches] at htouch
    rw [hplain.inside, List.contains_iff_mem, of_decide_eq_true htouch] at hin
    exact hn (mem_below.1 hin)

/-- **The schedule of a product keeps the order on every block.** -/
theorem product_ordered {d : Shaped} {pr : Program} {c : Config} {b xr xc ac : Nat} {a w : Tensor}
    {path : Path} {overflow : Bool} (hb : 1 ≤ b) (hcommon : d.Common pr c b xr xc)
    (hprod : d.Product c b xr xc ac a w) (hdata : p.data = d) (hcounts : p.counts = d.counts)
    (hresults : p.results = Std.TreeSet.ofList d.storeBlocks)
    (h : p.steps = .ok (path, overflow, steps)) :
    d.Ordered (gridProducts xr xc ac) (steps.flatMap Step.events) := by
  subst hdata
  obtain ⟨hg, hnA, hnB, hnX, hsmall⟩ := gridded_of_product hb hcommon hprod rfl hcounts hresults
  have hon : ∀ r ∈ p.data.ops, r.OnVectors ((xr : Int) * xc * b) ((xr : Int) * xc * b) := by
    intro r hr
    exact_mod_cast hcommon.onVectors_of_ne (by rw [hprod.form]; decide) hr
  obtain ⟨-, h⟩ := (Planner.steps_product hprod.form).1 h
  split at h
  · obtain ⟨-, -, rfl⟩ := h
    rw [gemmFit_events hg hnA hnB hnX hb hcommon.side hon]
    exact .declared
  · exact tiled_ordered hg hcounts hb hcommon.side hon (gemmOverflow_shapes hg hnX hsmall h.2.2).1
      (gemmOverflow_tiled hg hnX hsmall hon h.2.2)

end Grid

/-- A piece of the numbers below `n`, picked out of them. -/
theorem filter_piece {n : Int} {parts : List (List Int)} (hflat : parts.flatten = below n)
    {part : List Int} (hpart : part ∈ parts) : (below n).filter part.contains = part := by
  obtain ⟨before, after, rfl⟩ := List.append_of_mem hpart
  have hdis := (List.nodup_flatten.1 (hflat ▸ nodup_below n)).2
  have hnone : ∀ others : List (List Int), (∀ o ∈ others, o ∈ before ++ after) →
      others.flatten.filter part.contains = [] := by
    intro others hothers
    refine List.filter_eq_nil_iff.2 fun v hv hin => ?_
    obtain ⟨o, ho, hv⟩ := List.mem_flatten.1 hv
    have hin : v ∈ part := by simpa using hin
    rcases List.mem_append.1 (hothers o ho) with ho | ho
    · exact (List.pairwise_append.1 hdis).2.2 o ho part List.mem_cons_self hv hin
    · exact (List.pairwise_cons.1 (List.pairwise_append.1 hdis).2.1).1 o ho hin hv
  rw [← hflat, List.flatten_append, List.flatten_cons, List.filter_append, List.filter_append,
    hnone before fun o h => List.mem_append_left _ h,
    hnone after fun o h => List.mem_append_right _ h, List.nil_append, List.append_nil,
    List.filter_eq_self]
  simp

/-- All products of a multiple, block by block. -/
def blockMultiples (n : Int) : List Event := (below n).map fun m => .product m m 0

theorem allProducts_multiples (n : Int) : AllProducts (blockMultiples n) := by
  intro e he
  obtain ⟨m, -, rfl⟩ := List.mem_map.1 he
  exact ⟨_, _, _, rfl⟩

theorem blockMultiples_block {b m n : Int} (hm : 0 ≤ m ∧ m < n) :
    (blockMultiples n).filter (Event.touches b m) = [.product m m 0] := by
  have hone := filter_piece (flatten_singletons n) (List.mem_map_of_mem (mem_below.2 hm))
  rw [blockMultiples, List.filter_map]
  refine (congrArg (List.map _) (Eq.trans (List.filter_congr fun k _ => ?_) hone)).trans rfl
  rw [Bool.eq_iff_iff]
  simp [Event.touches]

theorem blockMultiples_outside {b m n : Int} (hm : ¬(0 ≤ m ∧ m < n)) :
    (blockMultiples n).filter (Event.touches b m) = [] := by
  refine List.filter_eq_nil_iff.2 fun e he => ?_
  obtain ⟨k, hk, rfl⟩ := List.mem_map.1 he
  simp only [Event.touches, beq_iff_eq]
  rintro rfl
  exact hm (mem_below.1 hk)

section Pieces

variable {q : Planner} {d : Shaped} {p : Program} {c : Config} {b xr xc : Nat} {steps : List Step}

/-- **Events taken piece by piece** keep their order on every block. -/
theorem pieces_filter {n : Int} {parts : List (List Int)} (hflat : parts.flatten = below n)
    {es : List Event} {b : Int} (hes : ∀ e ∈ es, e.Plain ∧ e.home b ∈ below n) (m : Int) :
    (parts.flatMap fun part => es.filter (Event.inside b part)).filter (Event.touches b m) =
      es.filter (Event.touches b m) := by
  have hpiece : ∀ part : List Int, (es.filter (Event.inside b part)).filter (Event.touches b m) =
      if m ∈ part then es.filter (Event.touches b m) else [] := by
    intro part
    rw [List.filter_filter]
    split
    · rename_i hm
      refine List.filter_congr fun e he => ?_
      rw [(hes e he).1.touches, (hes e he).1.inside]
      by_cases hhome : e.home b = m
      · simp [hhome, hm]
      · simp [hhome]
    · rename_i hm
      refine List.filter_eq_nil_iff.2 fun e he => ?_
      rw [(hes e he).1.touches, (hes e he).1.inside]
      by_cases hhome : e.home b = m
      · simp [hhome, hm]
      · simp [hhome]
  rw [List.filter_flatMap, List.flatMap_congr fun part _ => hpiece part]
  by_cases hm : 0 ≤ m ∧ m < n
  · obtain ⟨before, part, after, rfl, hin, hothers⟩ := band_of hflat hm
    have hnone : ∀ others : List (List Int), (∀ o ∈ others, o ∈ before ++ after) →
        (others.flatMap fun part => if m ∈ part then es.filter (Event.touches b m) else []) = [] := by
      intro others hsub
      refine List.flatMap_eq_nil_iff.2 fun o ho => ?_
      rw [if_neg (hothers o (hsub o ho))]
    rw [List.flatMap_append, List.flatMap_cons, if_pos hin,
      hnone before fun o h => List.mem_append_left _ h,
      hnone after fun o h => List.mem_append_right _ h, List.nil_append, List.append_nil]
  · have hempty : es.filter (Event.touches b m) = [] := by
      refine List.filter_eq_nil_iff.2 fun e he htouch => ?_
      rw [(hes e he).1.touches] at htouch
      exact hm (mem_below.1 (of_decide_eq_true htouch ▸ (hes e he).2))
    rw [hempty]
    simp

/-- What the pieces of a multiple do. -/
theorem multipleSteps_events (q : Planner) (parts : List (List Int)) :
    (q.multipleSteps parts).flatMap Step.events = parts.flatMap fun part =>
      (part.map fun n => Event.product n n 0) ++
        q.data.declared.filter (Event.inside q.data.b part) := by
  unfold Planner.multipleSteps
  rw [List.flatMap_map]
  calc _ = parts.zipIdx.flatMap fun x => (x.1.map fun n => Event.product n n 0) ++
          q.data.declared.filter (Event.inside q.data.b x.1) := by
        refine List.flatMap_congr fun x _ => ?_
        rw [Step.events, List.flatMap_append, aluOn_events, List.flatMap_map, List.map_eq_flatMap]
        rfl
    _ = _ := by
        conv_rhs => rw [← List.zipIdx_map_fst 0 parts, List.flatMap_map]

/-- A multiple has as many input blocks as accumulator blocks. -/
theorem Shaped.Multiple.inputs {scalar : Int} {a w : Tensor} {factor : Matrix}
    (hmult : d.Multiple c b xr xc scalar a w factor) : d.counts.nA = (xr * xc : Nat) := by
  simp [Shaped.counts, hmult.inp, Tensor.size, hmult.a_regular.size]

/-- **The schedule of a multiple keeps the order on every block.** -/
theorem multiple_ordered {scalar : Int} {a w : Tensor} {factor : Matrix} (hb : 1 ≤ b)
    (hcommon : d.Common p c b xr xc) (hmult : d.Multiple c b xr xc scalar a w factor)
    (hdata : q.data = d) (hcounts : q.counts = d.counts) (h : q.constant = .ok steps) :
    d.Ordered (blockMultiples (xr * xc : Nat)) (steps.flatMap Step.events) := by
  have hon : ∀ r ∈ d.ops, r.OnVectors (((xr * xc : Nat) : Int) * b) (((xr * xc : Nat) : Int) * b) := by
    intro r hr
    exact_mod_cast hcommon.onVectors_of_ne (by rw [hmult.form]; decide) hr
  obtain ⟨-, rfl, hplain⟩ := constant_eq_ok h
  have hflat : (chunks q.buffer.toNat (consecutive 0 q.counts.nA)).flatten =
      below (xr * xc : Nat) := by
    rw [flatten_chunks, hcounts, hmult.inputs, consecutive_zero (by omega)]
  revert hplain hflat
  generalize chunks q.buffer.toNat (consecutive 0 q.counts.nA) = parts
  intro hplain hflat
  rw [multipleSteps_events, hdata, hcommon.side]
  by_cases hone : 1 < parts.length
  · -- several pieces, and no operation that reads a second vector
    have hplain := hplain hone
    rw [hdata] at hplain
    have hall : ∀ e ∈ blockMultiples (xr * xc : Nat) ++ d.declared,
        e.Plain ∧ e.home b ∈ below (xr * xc : Nat) := by
      intro e he
      rcases List.mem_append.1 he with he | he
      · obtain ⟨m, hm, rfl⟩ := List.mem_map.1 he
        exact ⟨trivial, hm⟩
      · have hpe := declared_plain hon hplain he
        have hin := inside_below hb hon he
        rw [hpe.inside, List.contains_iff_mem] at hin
        exact ⟨hpe, hin⟩
    refine .blockwise hplain fun n => ?_
    rw [hcommon.side, ← pieces_filter hflat hall n]
    congr 1
    refine List.flatMap_congr fun part hpart => ?_
    rw [List.filter_append, blockMultiples, List.filter_map]
    congr 2
    exact (filter_piece hflat hpart).symm
  · -- one piece, which is all of the input
    obtain ⟨part, rfl⟩ : ∃ part, parts = [part] := by
      refine List.length_eq_one_iff.1 (le_antisymm (not_lt.1 hone) (List.length_pos_iff.2 ?_))
      rintro rfl
      have hlen := congrArg List.length hflat
      rw [length_below, Int.toNat_natCast] at hlen
      have := Nat.mul_pos hcommon.rows_pos hcommon.x_regular.cols_pos
      rw [List.flatten_nil, List.length_nil] at hlen
      omega
    obtain rfl : part = below (xr * xc : Nat) := by simpa using hflat
    rw [List.flatMap_cons, List.flatMap_nil, List.append_nil,
      List.filter_eq_self.2 fun e he => inside_below hb hon he]
    exact .declared

/-- What the pieces of a sum do. -/
theorem sumSteps_events (q : Planner) (parts : List (List Int)) :
    (q.sumSteps parts).flatMap Step.events = parts.flatMap fun part =>
      q.data.declared.filter (Event.inside q.data.b (part ++ part.map (q.counts.nX + ·))) := by
  unfold Planner.sumSteps
  rw [List.flatMap_map]
  exact List.flatMap_congr fun part _ => aluOn_events q _

/-- A site of a sum is in the step of the piece that its vector is in. -/
theorem sum_site_inside {n : Nat} {r : Resolved} {v : Int} {part : List Int} (hb : 1 ≤ b)
    (hv : v ∈ below (n * b : Nat)) (hpart : ∀ m ∈ part, 0 ≤ m ∧ m < n) :
    (Event.site r ⟨v, (n * b : Nat) + v⟩).inside b (part ++ part.map ((n : Int) + ·)) =
      part.contains (v / b) := by
  have hv := mem_below.1 hv
  have hblock := (block_below (n := n) hb).2 ⟨hv.1, by exact_mod_cast hv.2⟩
  have hsrc : (((n * b : Nat) : Int) + v).tdiv b = n + v / b := by
    rw [Int.tdiv_eq_ediv_of_nonneg (by omega), Int.natCast_mul, Int.mul_comm,
      Int.mul_add_ediv_left _ _ (by omega)]
  have hne : ((n * b : Nat) : Int) + v ≠ noSource := by
    have : noSource = -1 := rfl
    omega
  have hfirst : v / b ∈ part ++ part.map ((n : Int) + ·) ↔ v / b ∈ part := by
    rw [List.mem_append, or_iff_left]
    intro h
    obtain ⟨m, hm, heq⟩ := List.mem_map.1 h
    have := hpart m hm
    omega
  have hsecond : (n : Int) + v / b ∈ part ++ part.map ((n : Int) + ·) ↔ v / b ∈ part := by
    rw [List.mem_append, or_iff_right]
    · constructor
      · intro h
        obtain ⟨m, hm, heq⟩ := List.mem_map.1 h
        rwa [show v / b = m by omega]
      · exact List.mem_map_of_mem
    · intro h
      have := hpart _ h
      omega
  rw [Event.inside, Int.tdiv_eq_ediv_of_nonneg hv.1, hsrc, Bool.eq_iff_iff]
  simp only [Bool.and_eq_true, Bool.or_eq_true, List.contains_iff_mem, beq_iff_eq, hne, false_or,
    hfirst, hsecond, and_self]

/-- The sites of a sum, in order. -/
theorem Shaped.Common.declared_sum (hcommon : d.Common p c b xr xc) (hform : d.form = .add) :
    ∃ r, d.declared = (below (xr * xc * b : Nat)).map fun v =>
      Event.site r ⟨v, (xr * xc * b : Nat) + v⟩ := by
  rw [Shaped.declared, hcommon.ops_add hform]
  simp only [List.flatMap_cons, List.flatMap_nil, List.append_nil, List.map_map]
  exact ⟨_, rfl⟩

/-- **The schedule of a sum runs its sites as they are declared.** -/
theorem sum_declared {y : Tensor} (hb : 1 ≤ b) (hcommon : d.Common p c b xr xc)
    (hsum : d.Sum c b xr xc y) (hdata : q.data = d) (hcounts : q.counts = d.counts)
    (h : q.add = .ok steps) : steps.flatMap Step.events = d.declared := by
  obtain ⟨hX, -, -, -⟩ := hcommon.sizes hb
  obtain ⟨-, rfl⟩ := add_eq_ok h
  have hflat : (chunks (q.caps.acc.tdiv 2).toNat (consecutive 0 q.counts.nX)).flatten =
      below (xr * xc : Nat) := by
    rw [flatten_chunks, hcounts, hX, consecutive_zero (by omega)]
  revert hflat
  generalize chunks (q.caps.acc.tdiv 2).toNat (consecutive 0 q.counts.nX) = parts
  intro hflat
  obtain ⟨r, hdeclared⟩ := hcommon.declared_sum hsum.form
  rw [sumSteps_events, hdata, hcounts, hX, hcommon.side, hdeclared]
  -- the sites of a piece are those on the vectors of its blocks
  have hvectors : below (xr * xc * b : Nat) = vectorsOf b (below (xr * xc : Nat)) := by
    rw [vectorsOf, Int.natCast_mul]
    exact below_mul (by omega) (by omega)
  have hpiece : ∀ part ∈ parts, (below (xr * xc * b : Nat)).filter (fun v => part.contains (v / b)) =
      vectorsOf b part := by
    intro part hpart
    rw [hvectors, vectorsOf, filter_flatMap_of (q := part.contains), filter_piece hflat hpart]
    · rfl
    intro n _ v hv
    obtain ⟨r, hr, rfl⟩ := List.mem_map.1 hv
    have hr := mem_below.1 hr
    rw [(row_col_ediv hr.1 hr.2).1]
  have hstep : ∀ part ∈ parts, ((below (xr * xc * b : Nat)).map fun v =>
      Event.site r ⟨v, (xr * xc * b : Nat) + v⟩).filter
        (Event.inside b (part ++ part.map (((xr * xc : Nat) : Int) + ·))) =
      (vectorsOf b part).map fun v => Event.site r ⟨v, (xr * xc * b : Nat) + v⟩ := by
    intro part hpart
    rw [List.filter_map, ← hpiece part hpart]
    refine congrArg (List.map _) (List.filter_congr fun v hv => ?_)
    exact sum_site_inside hb hv (piece_of_below hflat hpart).1
  rw [List.flatMap_congr hstep, ← List.map_flatMap, hvectors, ← hflat]
  refine congrArg (List.map _) ?_
  unfold vectorsOf
  rw [List.flatten_eq_flatMap, List.flatMap_assoc]
  rfl

end Pieces

end Tessera
