import Tessera.Proofs.Operations
import Tessera.Schedule.Tiles

/-!
# Tiles of a product

A tile keeps the output blocks of some rows and columns in the accumulator while
the inner dimension streams through in slices. Read as a list of events, a tile
runs, for each of its blocks, the products along the inner dimension in order and
then the declared operations on the block; it leaves all other blocks alone.

* `Event`, `Step.events`, `Event.touches`: what a step does, and to which blocks.
* `Shaped.Away`: steps that have nothing to do with a block.
* `Shaped.Stay`: the steps of a block's stay in the accumulator.
* `tileStep_events`, `tileStep_touching`: what a step of a tile does, and does to a block.
* `tile_stay`, `tile_away`: the steps of a tile, for its blocks and for others.
* `Tiling`, `tiling_grid`: tiles that cover every block once; row bands and column
  bands do.
-/

namespace Tessera

/-- One thing a step does: a product of blocks, or an operation on one site. -/
inductive Event where
  | product (c a w : Int)
  | site (r : Resolved) (s : Site)
  deriving DecidableEq

/-- What an operation of a step does, in order. -/
def StepOp.events : StepOp → List Event
  | .gemm c a w => [.product c a w]
  | .alu r sites => sites.map (.site r)

/-- What a step does, in order. -/
def Step.events (s : Step) : List Event := s.ops.flatMap StepOp.events

/-- Whether an event reads or writes block `n` of the accumulator; a vector is in
the block its number divided by `b` names. -/
def Event.touches (b n : Int) : Event → Bool
  | .product c _ _ => c == n
  | .site _ s => s.dst.tdiv b == n || (s.src != noSource && s.src.tdiv b == n)

/-- The declared operations, site by site. -/
def Shaped.declared (d : Shaped) : List Event := d.ops.flatMap fun r => r.sites.map (.site r)

/-- The products that make up output block `(i, j)`, along the inner dimension. -/
def productsOf (aCols bCols xCols i j : Int) : List Event :=
  (below aCols).map fun k => .product (i * xCols + j) (i * aCols + k) (k * bCols + j)

/-- A step that has nothing to do with block `n`. -/
structure Shaped.Away (d : Shaped) (n : Int) (s : Step) : Prop where
  resident : n ∉ s.sramResident
  loadX : n ∉ s.loadX
  store : n ∉ s.store
  events : ∀ e ∈ s.events, e.touches d.b n = false

/-- The stay of block `n` in the accumulator: it has one place there, it is loaded
in the first step and stored in the last, if it holds results, and what is done to
it are the products `ps` and then the declared operations, in order. -/
structure Shaped.Stay (d : Shaped) (n : Int) (ps : List Event) (steps : List Step) : Prop where
  nonempty : steps ≠ []
  place : ∃ place : Nat, ∀ s ∈ steps, ∀ m, s.sramResident[m]? = some n ↔ m = place
  loaded : ∀ m s, steps[m]? = some s → s.loadX.count n = if m = 0 then 1 else 0
  stored : ∀ m s, steps[m]? = some s →
    s.store.count n = if m + 1 = steps.length ∧ n ∈ d.storeBlocks then 1 else 0
  events : (steps.flatMap Step.events).filter (Event.touches d.b n) =
    ps ++ d.declared.filter (Event.touches d.b n)

/-- What is done to the vectors of some blocks, with all vectors among them. -/
def Event.inside (b : Int) (resident : List Int) : Event → Bool
  | .product c _ _ => resident.contains c
  | .site _ s => resident.contains (s.dst.tdiv b) &&
    (s.src == noSource || resident.contains (s.src.tdiv b))

/-- What is inside some blocks touches no other. -/
theorem Event.touches_of_inside {b n : Int} {resident : List Int} {e : Event}
    (h : e.inside b resident = true) (hn : n ∉ resident) : e.touches b n = false := by
  cases e with
  | product c a w =>
    have hc : c ∈ resident := List.contains_iff_mem.1 h
    exact beq_eq_false_iff_ne.2 fun heq => hn (heq ▸ hc)
  | site r s =>
    simp only [Event.inside, Bool.and_eq_true, Bool.or_eq_true, List.contains_iff_mem,
      beq_iff_eq] at h
    simp only [Event.touches, Bool.or_eq_false_iff, Bool.and_eq_false_iff,
      beq_eq_false_iff_ne, bne_eq_false_iff_eq]
    refine ⟨fun heq => hn (heq ▸ h.1), ?_⟩
    rcases h.2 with hsrc | hsrc
    · exact Or.inl hsrc
    · exact Or.inr fun heq => hn (heq ▸ hsrc)

/-- What is stored of some blocks are those that hold results. -/
theorem mem_storable {p : Planner} {resident : List Int} {v : Int}
    (hresults : p.results = Std.TreeSet.ofList p.data.storeBlocks) :
    v ∈ p.storable resident ↔ v ∈ resident ∧ v ∈ p.data.storeBlocks := by
  unfold Planner.storable
  rw [List.mem_filter, hresults, Std.TreeSet.contains_ofList, List.contains_iff_mem]

theorem aluOn_events (p : Planner) (resident : List Int) :
    (p.aluOn resident).flatMap StepOp.events =
      p.data.declared.filter (Event.inside p.data.b resident) := by
  unfold Planner.aluOn Shaped.declared
  simp only [List.filter_flatMap]
  induction p.data.ops with
  | nil => rfl
  | cons r rs ih =>
    -- an operation without a site inside has no event inside
    have hsites : Planner.sitesIn p.data.b (Std.TreeSet.ofList resident) r.sites =
        r.sites.filter fun s => (Event.site r s).inside p.data.b resident := by
      unfold Planner.sitesIn
      apply List.filter_congr
      intro s _
      simp [Event.inside, Std.TreeSet.contains_ofList]
    have hmap : ((r.sites.map (Event.site r)).filter (Event.inside p.data.b resident)) =
        (Planner.sitesIn p.data.b (Std.TreeSet.ofList resident) r.sites).map (Event.site r) := by
      rw [hsites, List.filter_map]
      rfl
    rw [List.filterMap_cons, List.flatMap_cons, hmap]
    cases hs : Planner.sitesIn p.data.b (Std.TreeSet.ofList resident) r.sites with
    | nil => simpa using ih
    | cons s ss =>
      rw [List.flatMap_cons, ih]
      rfl

/-- **The products of a tile**: for each row, each inner number and each column. -/
theorem products_tile {aCols xCols : Int} {rows ks cols : List Int}
    (hrows : ∀ i ∈ rows, 0 ≤ i) (hks : ∀ k ∈ ks, 0 ≤ k ∧ k < aCols) (hnodup : ks.Nodup)
    (hcols : ∀ j ∈ cols, 0 ≤ j ∧ j < xCols) :
    products (rows.flatMap fun i => ks.map fun k => i * aCols + k)
      (ks.flatMap fun k => cols.map fun j => k * xCols + j) aCols xCols xCols =
    rows.flatMap fun i => ks.flatMap fun k => cols.map fun j =>
      StepOp.gemm (i * xCols + j) (i * aCols + k) (k * xCols + j) := by
  unfold products
  rw [List.flatMap_assoc]
  apply List.flatMap_congr
  intro i hi
  rw [List.flatMap_map]
  apply List.flatMap_congr
  intro k hk
  obtain ⟨h1, h2⟩ := row_col_tdiv (hrows i hi) (hks k hk).1 (hks k hk).2
  rw [h1, h2, List.filterMap_flatMap]
  -- only the weights in block row `k` belong to this input block
  have hother : ∀ k' ∈ ks, k' ≠ k → ((cols.map fun j => k' * xCols + j).filterMap fun b =>
      if k = b.tdiv xCols then some (StepOp.gemm (i * xCols + b.tmod xCols) (i * aCols + k) b)
      else none) = [] := by
    intro k' hk' hne
    rw [List.filterMap_eq_nil_iff]
    intro w hw
    obtain ⟨j, hj, rfl⟩ := List.mem_map.1 hw
    rw [(row_col_tdiv (hks k' hk').1 (hcols j hj).1 (hcols j hj).2).1, if_neg (Ne.symm hne)]
  rw [flatMap_single hnodup hk hother, List.filterMap_map, ← List.filterMap_eq_map]
  apply List.filterMap_congr
  intro j hj
  obtain ⟨h3, h4⟩ := row_col_tdiv (hks k hk).1 (hcols j hj).1 (hcols j hj).2
  simp only [Function.comp_apply, h3, h4, if_true]

/-- A product of a tile is that of a row, an inner number and a column. -/
theorem mem_products_tile {aCols xCols : Int} {rows ks cols : List Int} {e : Event} :
    e ∈ (rows.flatMap fun i => ks.flatMap fun k => cols.map fun j =>
        StepOp.gemm (i * xCols + j) (i * aCols + k) (k * xCols + j)).flatMap StepOp.events ↔
      ∃ i ∈ rows, ∃ k ∈ ks, ∃ j ∈ cols,
        e = .product (i * xCols + j) (i * aCols + k) (k * xCols + j) := by
  simp only [List.mem_flatMap, List.mem_map]
  constructor
  · rintro ⟨op, ⟨i, hi, k, hk, j, hj, rfl⟩, he⟩
    exact ⟨i, hi, k, hk, j, hj, List.mem_singleton.1 he⟩
  · rintro ⟨i, hi, k, hk, j, hj, rfl⟩
    exact ⟨_, ⟨i, hi, k, hk, j, hj, rfl⟩, List.mem_singleton_self _⟩

/-- The products of a tile that belong to one of its blocks. -/
theorem products_tile_filter {aCols xCols : Int} {b : Int} {rows ks cols : List Int} {i j : Int}
    (hrows : rows.Nodup) (hcols : cols.Nodup) (hcr : ∀ j ∈ cols, 0 ≤ j ∧ j < xCols)
    (hi : i ∈ rows) (hj : j ∈ cols) :
    ((rows.flatMap fun i => ks.flatMap fun k => cols.map fun j =>
      StepOp.gemm (i * xCols + j) (i * aCols + k) (k * xCols + j)).flatMap StepOp.events).filter
        (Event.touches b (i * xCols + j)) =
      ks.map fun k => Event.product (i * xCols + j) (i * aCols + k) (k * xCols + j) := by
  have hcell : ∀ i' ∈ rows, ∀ k ∈ ks, ((cols.map fun j =>
      StepOp.gemm (i' * xCols + j) (i' * aCols + k) (k * xCols + j)).flatMap StepOp.events).filter
        (Event.touches b (i * xCols + j)) =
      if i' = i then [Event.product (i * xCols + j) (i * aCols + k) (k * xCols + j)] else [] := by
    intro i' _ k _
    rw [List.flatMap_map, List.filter_flatMap]
    by_cases hii : i' = i
    · subst hii
      rw [if_pos rfl, flatMap_single hcols hj]
      · simp [StepOp.events, Event.touches]
      · intro j' hj' hne
        simp only [StepOp.events, Event.touches, List.filter_cons, List.filter_nil, beq_iff_eq]
        rw [if_neg]
        intro heq
        exact hne (row_col_unique (hcr j' hj').1 (hcr j' hj').2 (hcr j hj).1 (hcr j hj).2 heq).2
    · rw [if_neg hii, List.flatMap_eq_nil_iff]
      intro j' hj'
      simp only [StepOp.events, Event.touches, List.filter_cons, List.filter_nil, beq_iff_eq]
      rw [if_neg]
      intro heq
      exact hii (row_col_unique (hcr j' hj').1 (hcr j' hj').2 (hcr j hj).1 (hcr j hj).2 heq).1
  rw [List.flatMap_assoc, List.filter_flatMap, flatMap_single hrows hi]
  · rw [List.flatMap_assoc, List.filter_flatMap, List.map_eq_flatMap]
    apply List.flatMap_congr
    intro k hk
    rw [hcell i hi k hk, if_pos rfl]
  · intro i' hi' hne
    rw [List.flatMap_assoc, List.filter_flatMap, List.flatMap_eq_nil_iff]
    intro k hk
    rw [hcell i' hi' k hk, if_neg hne]

/-- The blocks of a tile, row by row. -/
def tileBlocks (xCols : Int) (rows cols : List Int) : List Int :=
  rows.flatMap fun i => cols.map fun j => i * xCols + j

/-- The steps of a tile for given slices of the inner dimension. -/
def Planner.tileSteps (p : Planner) (slices : List (List Int)) (rows cols : List Int) : List Step :=
  let c := p.counts
  let resident := tileBlocks c.xCols rows cols
  slices.zipIdx.map fun (ks, n) =>
    let loadA := rows.flatMap fun i => ks.map fun k => i * c.aCols + k
    let loadB := ks.flatMap fun k => cols.map fun j => k * c.bCols + j
    let last := n + 1 = slices.length
    { loadA, loadB, inpResident := loadA, wgtResident := loadB, sramResident := resident
      loadX := if n = 0 then resident else []
      ops := products loadA loadB c.aCols c.bCols c.xCols ++ if last then p.aluOn resident else []
      store := if last then p.storable resident else [] }

theorem tile_eq_ok {p : Planner} {rows cols : List Int} {chunk : Int} {steps : List Step} :
    p.tile rows cols chunk = .ok steps ↔ 0 < chunk ∧
      steps = p.tileSteps (chunks chunk.toNat (consecutive 0 p.counts.aCols)) rows cols := by
  unfold Planner.tile
  simp only [Outcome.bind_eq_ok, Outcome.pure_eq_ok, pieces_eq_ok]
  constructor
  · rintro ⟨_, ⟨h1, rfl⟩, rfl⟩; exact ⟨h1, rfl⟩
  · rintro ⟨h1, rfl⟩; exact ⟨_, ⟨h1, rfl⟩, rfl⟩

theorem tiles_eq_ok {p : Planner} {chunk : Int} {shapes : List (List Int × List Int)}
    {steps : List Step} (h : p.tiles chunk shapes = .ok steps) :
    steps = shapes.flatMap fun q =>
      p.tileSteps (chunks chunk.toNat (consecutive 0 p.counts.aCols)) q.1 q.2 := by
  unfold Planner.tiles at h
  obtain ⟨parts, hparts, h⟩ := Outcome.bind_eq_ok.1 h
  obtain rfl := Outcome.pure_eq_ok.1 h
  rw [mapM_eq_map hparts fun q _ ss hq => (tile_eq_ok.1 hq).2, List.flatMap_def]

theorem tiles_progress {p : Planner} {chunk : Int} (hc : 0 < chunk)
    (shapes : List (List Int × List Int)) : ∃ steps, p.tiles chunk shapes = .ok steps := by
  have htile : ∀ q ∈ shapes, p.tile q.1 q.2 chunk =
      .ok (p.tileSteps (chunks chunk.toNat (consecutive 0 p.counts.aCols)) q.1 q.2) :=
    fun q _ => tile_eq_ok.2 ⟨hc, rfl⟩
  exact ⟨_, Outcome.bind_ok (mapM_of_forall htile) rfl⟩

/-- The shape of a product, as the planner counts it: the block columns of the
weight are those of the accumulator. -/
structure Planner.Gridded (p : Planner) (xr xc ac : Int) : Prop where
  aCols : p.counts.aCols = ac
  bCols : p.counts.bCols = xc
  xCols : p.counts.xCols = xc
  results : p.results = Std.TreeSet.ofList p.data.storeBlocks
  ac_pos : 0 < ac
  xc_pos : 0 < xc
  xr_pos : 0 < xr

/-- Rows and columns of a tile within the grid. -/
structure TileWithin (xr xc : Int) (rows cols : List Int) : Prop where
  row : ∀ i ∈ rows, 0 ≤ i ∧ i < xr
  col : ∀ j ∈ cols, 0 ≤ j ∧ j < xc
  rows_nodup : rows.Nodup
  cols_nodup : cols.Nodup

theorem mem_tileBlocks {xr xc : Int} {rows cols : List Int} (h : TileWithin xr xc rows cols)
    {i j : Int} (hj : 0 ≤ j ∧ j < xc) :
    i * xc + j ∈ tileBlocks xc rows cols ↔ i ∈ rows ∧ j ∈ cols := by
  unfold tileBlocks
  simp only [List.mem_flatMap, List.mem_map]
  constructor
  · rintro ⟨i', hi', j', hj', heq⟩
    obtain ⟨rfl, rfl⟩ := row_col_unique (h.col j' hj').1 (h.col j' hj').2 hj.1 hj.2 heq
    exact ⟨hi', hj'⟩
  · rintro ⟨hi, hj⟩; exact ⟨i, hi, j, hj, rfl⟩

theorem nodup_tileBlocks {xr xc : Int} {rows cols : List Int} (h : TileWithin xr xc rows cols) :
    (tileBlocks xc rows cols).Nodup := by
  refine nodup_flatMap_of (fun i _ => ?_) ?_
  · exact h.cols_nodup.map fun j j' heq => by simpa using heq
  · refine (List.nodup_iff_pairwise_ne.1 h.rows_nodup).imp fun {i i'} hne n hn hn' => ?_
    obtain ⟨j, hj, rfl⟩ := List.mem_map.1 hn
    obtain ⟨j', hj', heq⟩ := List.mem_map.1 hn'
    exact hne (row_col_unique (h.col j' hj').1 (h.col j' hj').2 (h.col j hj).1 (h.col j hj).2
      heq).1.symm

section Tile

variable {p : Planner} {xr xc ac : Int} {slices : List (List Int)} {rows cols : List Int}

theorem tileSteps_getElem {m : Nat} {s : Step} (hs : (p.tileSteps slices rows cols)[m]? = some s) :
    s.sramResident = tileBlocks p.counts.xCols rows cols ∧
      s.loadX = (if m = 0 then tileBlocks p.counts.xCols rows cols else []) ∧
      s.store = (if m + 1 = slices.length then p.storable (tileBlocks p.counts.xCols rows cols)
        else []) := by
  unfold Planner.tileSteps at hs
  rw [List.getElem?_map] at hs
  obtain ⟨⟨ks, n⟩, hq, rfl⟩ := Option.map_eq_some_iff.1 hs
  obtain ⟨hlt, hq⟩ := List.getElem?_eq_some_iff.1 hq
  rw [List.getElem_zipIdx] at hq
  obtain rfl : m = n := by simpa using (Prod.mk.inj hq).2
  exact ⟨rfl, rfl, rfl⟩

/-- The events of a tile's step. -/
theorem tileStep_events (hg : p.Gridded xr xc ac) (hslices : slices.flatten = below ac)
    (htile : TileWithin xr xc rows cols) {ks : List Int} (hks : ks ∈ slices) (last : Prop)
    [Decidable last] :
    (products (rows.flatMap fun i => ks.map fun k => i * p.counts.aCols + k)
      (ks.flatMap fun k => cols.map fun j => k * p.counts.bCols + j) p.counts.aCols p.counts.bCols
      p.counts.xCols ++
        if last then p.aluOn (tileBlocks p.counts.xCols rows cols) else []).flatMap StepOp.events =
    (rows.flatMap fun i => ks.flatMap fun k => cols.map fun j =>
      StepOp.gemm (i * xc + j) (i * ac + k) (k * xc + j)).flatMap StepOp.events ++
    if last then p.data.declared.filter (Event.inside p.data.b (tileBlocks xc rows cols))
    else [] := by
  obtain ⟨hk, hkn⟩ := piece_of_below hslices hks
  rw [List.flatMap_append, hg.aCols, hg.bCols, hg.xCols,
    products_tile (fun i hi => (htile.row i hi).1) hk hkn htile.col]
  congr 1
  split
  · exact aluOn_events p _
  · rfl

/-- Of what a tile's step does, a block of the tile sees its products along the slice and,
in the last step, the operations on it. -/
theorem tileStep_touching (hg : p.Gridded xr xc ac) (hslices : slices.flatten = below ac)
    (htile : TileWithin xr xc rows cols) {i j : Int} (hi : i ∈ rows) (hj : j ∈ cols)
    (hsites : ∀ e ∈ p.data.declared, e.touches p.data.b (i * xc + j) = true →
      e.inside p.data.b (tileBlocks xc rows cols) = true)
    {ks : List Int} (hks : ks ∈ slices) (last : Prop) [Decidable last] :
    ((products (rows.flatMap fun i => ks.map fun k => i * p.counts.aCols + k)
      (ks.flatMap fun k => cols.map fun j => k * p.counts.bCols + j) p.counts.aCols p.counts.bCols
      p.counts.xCols ++
        if last then p.aluOn (tileBlocks p.counts.xCols rows cols) else []).flatMap
          StepOp.events).filter (Event.touches p.data.b (i * xc + j)) =
    (ks.map fun k => Event.product (i * xc + j) (i * ac + k) (k * xc + j)) ++
      if last then p.data.declared.filter (Event.touches p.data.b (i * xc + j)) else [] := by
  rw [tileStep_events hg hslices htile hks, List.filter_append,
    products_tile_filter htile.rows_nodup htile.cols_nodup htile.col hi hj]
  congr 1
  split
  · rw [List.filter_filter]
    apply List.filter_congr
    intro e he
    cases ht : e.touches p.data.b (i * xc + j) with
    | true => exact hsites e he ht
    | false => rfl
  · rfl

/-- **A block's stay in the accumulator lasts for the steps of its tile.** -/
theorem tile_stay (hg : p.Gridded xr xc ac) (hslices : slices.flatten = below ac)
    (htile : TileWithin xr xc rows cols) {i j : Int} (hi : i ∈ rows) (hj : j ∈ cols)
    (hsites : ∀ e ∈ p.data.declared, e.touches p.data.b (i * xc + j) = true →
      e.inside p.data.b (tileBlocks xc rows cols) = true) :
    p.data.Stay (i * xc + j) (productsOf ac xc xc i j) (p.tileSteps slices rows cols) := by
  have hmem : i * xc + j ∈ tileBlocks xc rows cols :=
    (mem_tileBlocks htile (htile.col j hj)).2 ⟨hi, hj⟩
  have hnodup := nodup_tileBlocks htile
  have hlen : (p.tileSteps slices rows cols).length = slices.length := by
    simp [Planner.tileSteps]
  have hne : slices ≠ [] := by
    rintro rfl
    have h0 : (0 : Int) ∈ below ac := mem_below.2 ⟨le_rfl, hg.ac_pos⟩
    rw [← hslices] at h0
    cases h0
  constructor
  case nonempty =>
    intro hnil
    rw [hnil, List.length_nil] at hlen
    exact hne (List.length_eq_zero_iff.1 hlen.symm)
  case place =>
    obtain ⟨place, hplace⟩ := nodup_place hnodup hmem
    refine ⟨place, fun s hs m => ?_⟩
    obtain ⟨n, hn⟩ := List.getElem?_of_mem hs
    rw [(tileSteps_getElem hn).1, hg.xCols]
    exact hplace m
  case loaded =>
    intro m s hs
    rw [(tileSteps_getElem hs).2.1, hg.xCols]
    split
    · exact List.count_eq_one_of_mem hnodup hmem
    · rfl
  case stored =>
    intro m s hs
    rw [(tileSteps_getElem hs).2.2, hg.xCols, hlen]
    by_cases hlast : m + 1 = slices.length
    · have hcount := (hnodup.filter p.results.contains).count (a := i * xc + j)
      rw [if_pos hlast]
      refine hcount.trans (if_congr ?_ rfl rfl)
      rw [and_iff_right hlast]
      exact (mem_storable hg.results).trans (and_iff_right hmem)
    · rw [if_neg hlast, if_neg fun h => hlast h.1]
      rfl
  case events =>
    -- the operations follow the last slice, and the slices make up the inner dimension
    have hstep := fun q (hq : q ∈ slices.zipIdx) => tileStep_touching hg hslices htile hi hj hsites
      (List.fst_mem_of_mem_zipIdx hq) (q.2 + 1 = slices.length)
    unfold Planner.tileSteps
    rw [List.flatMap_map, List.filter_flatMap]
    refine (List.flatMap_congr hstep).trans ?_
    rw [flatMap_zipIdx_last _ _ hne, productsOf, ← hslices, List.map_flatten, List.flatMap_def]

/-- **A tile leaves the blocks of other tiles alone.** -/
theorem tile_away (hg : p.Gridded xr xc ac) (hslices : slices.flatten = below ac)
    (htile : TileWithin xr xc rows cols) {i j : Int} (hj : 0 ≤ j ∧ j < xc)
    (hout : ¬(i ∈ rows ∧ j ∈ cols)) :
    ∀ s ∈ p.tileSteps slices rows cols, p.data.Away (i * xc + j) s := by
  have hnot : i * xc + j ∉ tileBlocks xc rows cols := fun h => hout ((mem_tileBlocks htile hj).1 h)
  intro s hs
  obtain ⟨m, hm⟩ := List.getElem?_of_mem hs
  obtain ⟨h1, h2, h3⟩ := tileSteps_getElem hm
  rw [hg.xCols] at h1 h2 h3
  refine ⟨h1 ▸ hnot, ?_, ?_, ?_⟩
  · rw [h2]; split
    · exact hnot
    · simp
  · rw [h3]; split
    · exact fun h => hnot (List.mem_of_mem_filter h)
    · simp
  · intro e he
    obtain ⟨⟨ks, n⟩, hq, rfl⟩ := List.mem_map.1 hs
    have hks : ks ∈ slices := List.fst_mem_of_mem_zipIdx hq
    simp only [Step.events] at he
    rw [tileStep_events hg hslices htile hks, List.mem_append] at he
    -- products are for blocks of the tile, and operations have their vectors in them
    refine Event.touches_of_inside ?_ hnot
    rcases he with he | he
    · obtain ⟨i', hi', k, -, j', hj', rfl⟩ := mem_products_tile.1 he
      exact List.contains_iff_mem.2 ((mem_tileBlocks htile (htile.col j' hj')).2 ⟨hi', hj'⟩)
    · split at he
      · exact (List.mem_filter.1 he).2
      · cases he

end Tile

/-- Tiles that lie in the grid and hold every block of it once. -/
structure Tiling (xr xc : Int) (shapes : List (List Int × List Int)) : Prop where
  within : ∀ q ∈ shapes, TileWithin xr xc q.1 q.2
  once : ∀ i j, (0 ≤ i ∧ i < xr) → (0 ≤ j ∧ j < xc) → ∃ before q after,
    shapes = before ++ q :: after ∧ i ∈ q.1 ∧ j ∈ q.2 ∧
      ∀ q' ∈ before ++ after, ¬(i ∈ q'.1 ∧ j ∈ q'.2)

/-- The band that a number is in. -/
theorem band_of {n : Int} {bands : List (List Int)} (h : bands.flatten = below n) {i : Int}
    (hi : 0 ≤ i ∧ i < n) : ∃ before band after, bands = before ++ band :: after ∧ i ∈ band ∧
      ∀ band' ∈ before ++ after, i ∉ band' := by
  have hmem : i ∈ bands.flatten := h ▸ mem_below.2 hi
  obtain ⟨band, hband, hib⟩ := List.mem_flatten.1 hmem
  obtain ⟨before, after, rfl⟩ := List.append_of_mem hband
  refine ⟨before, band, after, rfl, hib, fun band' hband' hib' => ?_⟩
  have hdis := (List.nodup_flatten.1 (h ▸ nodup_below n)).2
  rcases List.mem_append.1 hband' with hb | hb
  · exact (List.pairwise_append.1 hdis).2.2 band' hb band List.mem_cons_self hib' hib
  · exact (List.pairwise_cons.1 (List.pairwise_append.1 hdis).2.1).1 band' hb hib hib'

theorem band_within {xr xc : Int} {rows cols : List (List Int)} (hr : rows.flatten = below xr)
    (hc : cols.flatten = below xc) {r c : List Int} (hrm : r ∈ rows) (hcm : c ∈ cols) :
    TileWithin xr xc r c :=
  ⟨(piece_of_below hr hrm).1, (piece_of_below hc hcm).1, (piece_of_below hr hrm).2,
    (piece_of_below hc hcm).2⟩

/-- Rows and columns change places. -/
theorem Tiling.swap {xr xc : Int} {shapes : List (List Int × List Int)} (h : Tiling xr xc shapes) :
    Tiling xc xr (shapes.map Prod.swap) := by
  constructor
  case within =>
    intro _ hmem
    obtain ⟨q, hq, rfl⟩ := List.mem_map.1 hmem
    obtain ⟨hrow, hcol, hrows, hcols⟩ := h.within q hq
    exact ⟨hcol, hrow, hcols, hrows⟩
  case once =>
    intro i j hi hj
    obtain ⟨before, q, after, rfl, hj, hi, hothers⟩ := h.once j i hj hi
    refine ⟨before.map Prod.swap, q.swap, after.map Prod.swap, by rw [List.map_append, List.map_cons],
      hi, hj, fun _ hmem => ?_⟩
    rw [← List.map_append] at hmem
    obtain ⟨q', hq', rfl⟩ := List.mem_map.1 hmem
    exact fun hboth => hothers q' hq' hboth.symm

/-- **Bands of rows times bands of columns tile the grid.** -/
theorem tiling_bands {xr xc : Int} {rows cols : List (List Int)} (hr : rows.flatten = below xr)
    (hc : cols.flatten = below xc) : Tiling xr xc (rows.flatMap fun r => cols.map fun c => (r, c)) := by
  constructor
  case within =>
    intro q hq
    obtain ⟨r, hrm, hq⟩ := List.mem_flatMap.1 hq
    obtain ⟨c, hcm, rfl⟩ := List.mem_map.1 hq
    exact band_within hr hc hrm hcm
  case once =>
    intro i j hi hj
    obtain ⟨rb, r, ra, rfl, hir, hro⟩ := band_of hr hi
    obtain ⟨cb, c, ca, rfl, hjc, hco⟩ := band_of hc hj
    refine ⟨(rb.flatMap fun r => (cb ++ c :: ca).map fun c => (r, c)) ++ cb.map fun c => (r, c),
      (r, c), (ca.map fun c => (r, c)) ++ ra.flatMap fun r => (cb ++ c :: ca).map fun c => (r, c),
      by simp, hir, hjc, ?_⟩
    rintro ⟨r', c'⟩ hq ⟨hir', hjc'⟩
    simp only [List.mem_append, List.mem_flatMap, List.mem_map, Prod.mk.injEq] at hq
    rcases hq with (⟨_, h, _, -, rfl, -⟩ | ⟨_, h, -, rfl⟩) | (⟨_, h, -, rfl⟩ | ⟨_, h, _, -, rfl, -⟩)
    · exact hro _ (List.mem_append_left _ h) hir'
    · exact hco _ (List.mem_append_left _ h) hjc'
    · exact hco _ (List.mem_append_right _ h) hjc'
    · exact hro _ (List.mem_append_right _ h) hir'

/-- The bands tile the grid, whichever of rows and columns come first. -/
theorem tiling_grid {xr xc : Int} {rows cols : List (List Int)} (hr : rows.flatten = below xr)
    (hc : cols.flatten = below xc) :
    Tiling xr xc (rows.flatMap fun r => cols.map fun c => (r, c)) ∧
      Tiling xr xc (cols.flatMap fun c => rows.map fun r => (r, c)) := by
  refine ⟨tiling_bands hr hc, ?_⟩
  have hswap := (tiling_bands hc hr).swap
  rw [List.map_flatMap] at hswap
  simpa only [List.map_map, Function.comp_def, Prod.swap_prod_mk] using hswap

theorem flatten_singletons (n : Int) : ((below n).map fun i => [i]).flatten = below n := by
  rw [← List.flatMap_def]
  simp

end Tessera
