import Tessera.Proofs.Execution
import Tessera.Proofs.Orders

/-!
# Programs with a product or a sum

A program with a product keeps its output blocks tile by tile, or piece by piece if it only
multiplies by a number; a sum of accumulators goes piece by piece through both. Every block
that is stored was multiplied or added to before, so that the machine ends with the expected
output, whatever the program, the strategy and the scratchpads.

* `Shaped.Carried`: steps that compute what a program asks for.
* `tile_sitting`, `Tiling.apart`: the stay of a tile, and no block in two tiles.
* `product_carried`, `multiple_carried`, `sum_carried`: the schedules of the three forms.
* `products_execute`: what is stored is what is expected.
-/

namespace Tessera

/-- Steps that compute what a program asks for, find what they need and store what they
computed. -/
structure Shaped.Carried (d : Shaped) (acc : Scalar) (b : Nat) (steps : List Step) : Prop where
  simulates : Simulates d acc steps (rowsOf d.final.data b)
  written : ∀ v ∈ steps.flatMap (Step.stores d),
    ∃ a ∈ steps.flatMap (Step.actions d acc), a.dst = v
  supplied : SuppliedFrom [] steps

section Tiles

variable {p : Planner} {d : Shaped} {xr xc ac : Int} {slices : List (List Int)}
  {rows cols : List Int}

theorem tileSteps_blocks {st : Step} (hst : st ∈ p.tileSteps slices rows cols) :
    st.residentGrain = .block ∧ st.storeGrain = .block ∧ st.loadY = [] ∧
      st.inpResident = st.loadA ∧ st.wgtResident = st.loadB := by
  obtain ⟨q, -, rfl⟩ := List.mem_map.1 hst
  exact ⟨rfl, rfl, rfl, rfl, rfl⟩

/-- **The blocks of a tile stay for the steps of the tile.** -/
theorem tile_sitting (hb : 0 < d.b) (hcols : p.counts.xCols = xc)
    (hwithin : TileWithin xr xc rows cols) :
    Sitting d (tileBlocks xc rows cols) (p.tileSteps slices rows cols) := by
  have hlen : (p.tileSteps slices rows cols).length = slices.length := by
    simp [Planner.tileSteps]
  constructor
  case grain => exact fun st hst => (tileSteps_blocks hst).1
  case resident =>
    intro st hst
    obtain ⟨m, hm⟩ := List.getElem?_of_mem hst
    rw [(tileSteps_getElem hm).1, hcols]
  case first =>
    intro st hst v _ hv
    obtain ⟨hgrain, -⟩ := tileSteps_blocks (List.mem_of_getElem? hst)
    rw [Step.loads, hgrain, (tileSteps_getElem hst).2.1, if_pos rfl, hcols]
    exact (mem_vectorsOf hb).2 (List.mem_append_left _ hv)
  case later =>
    intro m st hst
    obtain ⟨hgrain, -, hy, -⟩ := tileSteps_blocks (List.mem_of_getElem? hst)
    rw [Step.loads, hgrain, (tileSteps_getElem hst).2.1, if_neg (by omega), hy]
    rfl
  case stores =>
    intro m st hst hlt
    obtain ⟨-, hgrain, -⟩ := tileSteps_blocks (List.mem_of_getElem? hst)
    rw [Step.stores, hgrain, (tileSteps_getElem hst).2.2, if_neg (by omega)]
    rfl
  case once =>
    intro st hst
    obtain ⟨m, hm⟩ := List.getElem?_of_mem hst
    rw [Step.stores, (tileSteps_blocks hst).2.1, (tileSteps_getElem hm).2.2, hcols]
    refine nodup_vectorsOf ?_
    split
    · exact (nodup_tileBlocks hwithin).filter _
    · exact List.nodup_nil

/-- **No block is in two tiles.** -/
theorem Tiling.apart {shapes : List (List Int × List Int)} (h : Tiling xr xc shapes) :
    shapes.Pairwise fun q q' => ∀ n ∈ tileBlocks xc q.1 q.2, n ∉ tileBlocks xc q'.1 q'.2 := by
  rw [List.pairwise_iff_getElem]
  intro m m' hm hm' hlt n hn hn'
  obtain ⟨i, hi, hn⟩ := List.mem_flatMap.1 hn
  obtain ⟨j, hj, rfl⟩ := List.mem_map.1 hn
  have hwithin := h.within _ (List.getElem_mem hm)
  have hboth := (mem_tileBlocks (h.within _ (List.getElem_mem hm')) (hwithin.col j hj)).1 hn'
  obtain ⟨before, q, after, rfl, -, -, hothers⟩ := h.once i j (hwithin.row i hi) (hwithin.col j hj)
  -- both tiles hold the block, and so both are the one that does
  have hplace : ∀ k (hk : k < (before ++ q :: after).length),
      i ∈ (before ++ q :: after)[k].1 ∧ j ∈ (before ++ q :: after)[k].2 → k = before.length := by
    intro k hk hin
    by_contra hne
    refine hothers _ ?_ hin
    rw [List.mem_append]
    rcases Nat.lt_or_gt_of_ne hne with hk' | hk'
    · rw [List.getElem_append_left hk']
      exact Or.inl (List.getElem_mem _)
    · rw [List.getElem_append_right (by omega), List.getElem_cons, dif_neg (by omega)]
      exact Or.inr (List.getElem_mem _)
  have h1 := hplace m hm ⟨hi, hj⟩
  have h2 := hplace m' hm' hboth
  omega

end Tiles

section Carried

variable {q : Planner} {d : Shaped} {p : Program} {c : Config} {b xr xc : Nat} {steps : List Step}

/-- The vectors that a proper step stores are vectors of the accumulator. -/
theorem Step.Proper.stores_below {st : Step} {caps : Capacities} (h : st.Proper d caps) (hb : 1 ≤ b)
    (hcommon : d.Common p c b xr xc) {v : Int} (hv : v ∈ st.stores d) :
    0 ≤ v ∧ v < (xr * xc * b : Nat) := by
  obtain ⟨hX, hV, -, -⟩ := hcommon.sizes hb
  cases hgrain : st.storeGrain with
  | vector =>
    rw [Step.stores, hgrain] at hv
    have := h.store v hv
    rw [hgrain, hV] at this
    exact ⟨this.1, this.2.1⟩
  | block =>
    rw [Step.stores, hgrain, hcommon.side, mem_vectorsOf (by omega)] at hv
    have := h.store _ hv
    rw [hgrain, hX] at this
    exact_mod_cast (block_below hb).1 ⟨this.1, this.2.1⟩

/-- After products on all blocks, every vector was computed. -/
theorem products_written {ps : List Event} (hb : 1 ≤ b) (hcommon : d.Common p c b xr xc)
    (hordered : d.Ordered ps (steps.flatMap Step.events))
    (hps : ∀ n : Int, 0 ≤ n → n < (xr * xc : Nat) → ∃ a w, Event.product n a w ∈ ps)
    {caps : Capacities} (hproper : ∀ st ∈ steps, st.Proper d caps) :
    ∀ v ∈ steps.flatMap (Step.stores d), ∃ a ∈ steps.flatMap (Step.actions d c.acc), a.dst = v := by
  intro v hv
  obtain ⟨st, hst, hv⟩ := List.mem_flatMap.1 hv
  have hrange := (hproper st hst).stores_below hb hcommon hv
  have hblock := (block_below hb).2 ⟨hrange.1, by exact_mod_cast hrange.2⟩
  obtain ⟨a, w, he⟩ := hps _ hblock.1 hblock.2
  rw [steps_actions]
  refine ⟨productAction d c.acc (v / b) a w (v % b), List.mem_flatMap.2 ⟨_, hordered.mem.2
    (List.mem_append_left _ he), List.mem_map_of_mem (mem_below.2 ?_)⟩, ?_⟩
  · rw [hcommon.side]
    exact ⟨Int.emod_nonneg _ (by omega), Int.emod_lt_of_pos _ (by omega)⟩
  · rw [productAction, hcommon.side, Int.mul_comm]
    exact Int.mul_ediv_add_emod v b

/-- **The schedule of a product.** -/
theorem product_carried {ac : Nat} {a w : Tensor} {s : Schedule} {caps : Capacities}
    (hsound : c.Sound b) (hcommon : d.Common p c b xr xc) (hprod : d.Product c b xr xc ac a w)
    (hdata : q.data = d) (hcounts : q.counts = d.counts)
    (hresults : q.results = Std.TreeSet.ofList d.storeBlocks) (h : s.Planned q steps)
    (hsteps : ∀ st ∈ steps, st.Sound d c.acc b) (hproper : ∀ st ∈ steps, st.Proper d caps) :
    d.Carried c.acc b steps := by
  have hb := hsound.pos
  obtain ⟨hg, htiled⟩ := planned_tiled hb hcommon hprod hdata hcounts hresults h
  have hordered := product_ordered hb hcommon hprod hdata hcounts hresults h.planned
  -- the order of the schedule ends where the declared order does
  have hrun := hprod.run hcommon hsound (allProducts_grid xr xc ac)
    (fun i hi j hj => gridProducts_block (by omega) (by omega))
    (fun n hn => gridProducts_outside (by exact_mod_cast hn))
  have hrun := hordered.run hcommon.side (allProducts_grid xr xc ac)
    (fun r hr => hcommon.onVectors hr) hrun
  rw [← steps_actions] at hrun
  have hwritten := products_written hb hcommon hordered
    (fun n h0 hn => gridProducts_some hg.xc_pos hg.ac_pos ⟨h0, by exact_mod_cast hn⟩) hproper
  obtain ⟨shapes, slices, htiling, -, rfl, -⟩ := htiled
  refine ⟨?_, hwritten, .of_loads _ fun st hst => ?_⟩
  · have hgroups : (shapes.map fun x => (tileBlocks (xc : Int) x.1 x.2,
        q.tileSteps slices x.1 x.2)).flatMap Prod.snd =
        shapes.flatMap fun x => q.tileSteps slices x.1 x.2 := by
      rw [List.flatMap_map]
    rw [← hgroups] at hsteps hrun ⊢
    refine sittings_simulate hb hcommon.side (fun g hgroup => ?_)
      (List.pairwise_map.2 htiling.apart) hsteps hrun
    obtain ⟨x, hx, rfl⟩ := List.mem_map.1 hgroup
    exact tile_sitting (by rw [hcommon.side]; omega) hg.xCols (htiling.within x hx)
  · obtain ⟨x, -, hst⟩ := List.mem_flatMap.1 hst
    exact (tileSteps_blocks hst).2.2.2

/-- Pieces of a list of numbers share no number. -/
theorem pieces_apart {n : Int} {parts : List (List Int)} (hflat : parts.flatten = below n) :
    parts.Pairwise fun part part' => ∀ m ∈ part, m ∉ part' :=
  (List.nodup_flatten.1 (hflat ▸ nodup_below n)).2.imp fun h _ hm hm' => h hm hm'

/-- Blocks of the first accumulator and their partners in the second, piece by piece, share
no number either: the partners come after all blocks of the first. -/
theorem pairs_apart {n : Int} {parts : List (List Int)} (hflat : parts.flatten = below n) :
    parts.Pairwise fun part part' => ∀ m ∈ part ++ part.map (n + ·), m ∉ part' ++ part'.map (n + ·) := by
  refine (pieces_apart hflat).imp_of_mem fun {part part'} hp hp' hdis m hm hm' => ?_
  have hin := (piece_of_below hflat hp).1
  have hin' := (piece_of_below hflat hp').1
  rcases List.mem_append.1 hm with h | h <;> rcases List.mem_append.1 hm' with h' | h'
  · exact hdis m h h'
  · obtain ⟨k', hk', rfl⟩ := List.mem_map.1 h'
    have := hin _ h
    have := hin' k' hk'
    omega
  · obtain ⟨k, hk, rfl⟩ := List.mem_map.1 h
    have := hin k hk
    have := hin' _ h'
    omega
  · obtain ⟨k, hk, rfl⟩ := List.mem_map.1 h
    obtain ⟨k', hk', heq⟩ := List.mem_map.1 h'
    obtain rfl : k' = k := by omega
    exact hdis k' hk hk'

/-- Steps that all use the same weights find them, once they are there. -/
theorem SuppliedFrom.kept {weights : List Int} (h : ∀ st ∈ steps, st.inpResident = st.loadA ∧
    st.wgtResident = weights ∧ (st.loadB = weights ∨ st.loadB = [])) : SuppliedFrom weights steps := by
  induction steps with
  | nil => trivial
  | cons st steps ih =>
    obtain ⟨⟨hinp, hwgt, hload⟩, hrest⟩ := List.forall_mem_cons.1 h
    refine ⟨⟨hinp, ?_⟩, hwgt ▸ ih hrest⟩
    rcases hload with hload | hload
    · exact Or.inl (hwgt.trans hload.symm)
    · exact Or.inr ⟨hload, hwgt⟩

/-- Pieces find the weight where the first of them put it. -/
theorem multipleSteps_supplied (q : Planner) (parts : List (List Int)) :
    SuppliedFrom [] (q.multipleSteps parts) := by
  cases parts with
  | nil => trivial
  | cons part parts =>
    refine ⟨⟨rfl, Or.inl rfl⟩, .kept fun st hst => ?_⟩
    obtain ⟨x, -, rfl⟩ := List.mem_map.1 hst
    refine ⟨rfl, rfl, ?_⟩
    dsimp only
    split
    · exact Or.inl rfl
    · exact Or.inr rfl

/-- **The schedule of a multiple.** -/
theorem multiple_carried {scalar : Int} {a w : Tensor} {factor : Matrix} {caps : Capacities}
    (hsound : c.Sound b) (hcommon : d.Common p c b xr xc)
    (hmult : d.Multiple c b xr xc scalar a w factor) (hdata : q.data = d)
    (hcounts : q.counts = d.counts) (h : q.constant = .ok steps)
    (hsteps : ∀ st ∈ steps, st.Sound d c.acc b) (hproper : ∀ st ∈ steps, st.Proper d caps) :
    d.Carried c.acc b steps := by
  have hb := hsound.pos
  have hordered := multiple_ordered hb hcommon hmult hdata hcounts h
  have hall := allProducts_multiples (xr * xc : Nat)
  have hrun := hmult.run hcommon hsound hall (fun n hn => blockMultiples_block (by omega))
    (fun n hn => blockMultiples_outside hn)
  have hrun := hordered.run hcommon.side hall (fun r hr => hcommon.onVectors hr) hrun
  rw [← steps_actions] at hrun
  have hwritten := products_written hb hcommon hordered
    (fun n h0 hn => ⟨n, 0, List.mem_map.2 ⟨n, mem_below.2 ⟨h0, hn⟩, rfl⟩⟩) hproper
  obtain ⟨-, rfl, -⟩ := constant_eq_ok h
  have hflat : (chunks q.buffer.toNat (consecutive 0 q.counts.nA)).flatten =
      below (xr * xc : Nat) := by
    rw [flatten_chunks, hcounts, hmult.inputs, consecutive_zero (by omega)]
  refine ⟨singles_simulate hb hcommon.side ?_ ?_ ?_ ?_ hsteps hrun, hwritten,
    multipleSteps_supplied _ _⟩
  · intro st hst
    obtain ⟨x, -, rfl⟩ := List.mem_map.1 hst
    rfl
  · intro st hst n hn
    obtain ⟨x, -, rfl⟩ := List.mem_map.1 hst
    exact List.mem_append_left _ hn
  · intro st hst
    obtain ⟨x, hx, rfl⟩ := List.mem_map.1 hst
    exact (piece_of_below hflat (List.fst_mem_of_mem_zipIdx hx)).2.filter _
  · have hapart := pieces_apart hflat
    rw [← List.zipIdx_map_fst 0 (chunks _ _)] at hapart
    exact List.pairwise_map.2 (List.pairwise_map.1 hapart)

/-- **The schedule of a sum.** -/
theorem sum_carried {y : Tensor} {caps : Capacities} (hsound : c.Sound b)
    (hcommon : d.Common p c b xr xc) (hsum : d.Sum c b xr xc y) (hdata : q.data = d)
    (hcounts : q.counts = d.counts) (h : q.add = .ok steps)
    (hsteps : ∀ st ∈ steps, st.Sound d c.acc b) (hproper : ∀ st ∈ steps, st.Proper d caps) :
    d.Carried c.acc b steps := by
  have hb := hsound.pos
  obtain ⟨hX, -, -, -⟩ := hcommon.sizes hb
  have hevents := sum_declared hb hcommon hsum hdata hcounts h
  have hactions : steps.flatMap (Step.actions d c.acc) = actionsOf c.acc d.ops := by
    rw [steps_actions, hevents, declared_actions]
  have hwritten : ∀ v ∈ steps.flatMap (Step.stores d),
      ∃ a ∈ steps.flatMap (Step.actions d c.acc), a.dst = v := by
    intro v hv
    obtain ⟨st, hst, hv⟩ := List.mem_flatMap.1 hv
    have hrange := (hproper st hst).stores_below hb hcommon hv
    obtain ⟨r, hdeclared⟩ := hcommon.declared_sum hsum.form
    rw [steps_actions, hevents, hdeclared]
    refine ⟨r.action c.acc ⟨v, (xr * xc * b : Nat) + v⟩, List.mem_flatMap.2
      ⟨_, List.mem_map_of_mem (mem_below.2 hrange), List.mem_singleton_self _⟩, rfl⟩
  obtain ⟨-, rfl⟩ := add_eq_ok h
  have hflat : (chunks (q.caps.acc.tdiv 2).toNat (consecutive 0 q.counts.nX)).flatten =
      below (xr * xc : Nat) := by
    rw [flatten_chunks, hcounts, hX, consecutive_zero (by omega)]
  refine ⟨singles_simulate hb hcommon.side ?_ ?_ ?_ ?_ hsteps ?_, hwritten,
    .of_loads _ fun st hst => ?_⟩
  · intro st hst
    obtain ⟨part, -, rfl⟩ := List.mem_map.1 hst
    rfl
  · intro st hst n hn
    obtain ⟨part, -, rfl⟩ := List.mem_map.1 hst
    rwa [hcounts] at hn
  · intro st hst
    obtain ⟨part, hpart, rfl⟩ := List.mem_map.1 hst
    exact (piece_of_below hflat hpart).2.filter _
  · rw [hcounts, hX] at hflat ⊢
    rw [Planner.sumSteps, List.pairwise_map, hcounts, hX]
    exact pairs_apart hflat
  · rw [hactions]
    exact hcommon.sum_run hb hsum
  · obtain ⟨part, -, rfl⟩ := List.mem_map.1 hst
    exact ⟨rfl, rfl⟩

/-- **However a product or a sum is planned**, the steps compute what it asks for. -/
theorem forms_carried {s : Schedule} {caps : Capacities} (hsound : c.Sound b)
    (hcommon : d.Common p c b xr xc) (hformed : d.Formed c b xr xc) (hform : d.form ≠ .alu)
    (hdata : q.data = d) (hcounts : q.counts = d.counts)
    (hresults : q.results = Std.TreeSet.ofList d.storeBlocks) (h : s.Planned q steps)
    (hsteps : ∀ st ∈ steps, st.Sound d c.acc b) (hproper : ∀ st ∈ steps, st.Proper d caps) :
    d.Carried c.acc b steps := by
  cases hformed with
  | product ac a w hprod =>
    exact product_carried hsound hcommon hprod hdata hcounts hresults h hsteps hproper
  | multiple scalar a w factor hmult =>
    obtain ⟨-, -, hplanned⟩ := (Planner.steps_multiple (by rw [hdata, hmult.form])).1 h.planned
    exact multiple_carried hsound hcommon hmult hdata hcounts hplanned hsteps hproper
  | plain hplain => exact absurd hplain.form hform
  | sum y hsum =>
    obtain ⟨-, -, hplanned⟩ := (Planner.steps_sum (by rw [hdata, hsum.form])).1 h.planned
    exact sum_carried hsound hcommon hsum hdata hcounts hplanned hsteps hproper

end Carried

/-- **A program with a product or a sum of accumulators leaves the output that is expected**:
whatever the matrices, the operations that follow, the strategy and the scratchpads, if it
can be compiled, the machine runs its instructions to the end and holds the expected bytes in
the output region, provided that all numbers are numbers of their types and that the
micro-operations can be counted. -/
theorem products_execute {p : Program} {c : Config} {options : PlanOptions} {r : Compiled}
    (hword : p.WordSized) (hform : p.gemm.isSome = true ∨ p.addsAccumulators = true)
    (h : compile c options p = .ok r) (hfits : r.data.Fits)
    (hfew : r.code.microOps.length < 4294967296) :
    ∃ bytes, r.execute c = .ok bytes ∧ r.expectedOut = .ok bytes := by
  obtain ⟨rfl, caps, divisors, data, code, table, hmade⟩ := compile_made h
  obtain ⟨b, xr, xc, hsound, hcommon, hformed⟩ := build_formed hword hmade.built
  have hform : r.data.form ≠ .alu := by
    rw [build_form hmade.built]
    cases hgemm : r.program.gemm with
    | some g => cases hk : g.constant <;> simp [hk]
    | none =>
      rw [hgemm] at hform
      simp [hform.resolve_left (by simp)]
  obtain ⟨strategy, steps, hplanned⟩ := plan_planned hmade.planned
  have hwithin := build_within hmade.built hsound hmade.capacities
  have hcarried := forms_carried hsound hcommon hformed hform rfl rfl rfl hplanned
    (hmade.steps_sound hsound hcommon hformed hplanned.recorded)
    (steps_proper hsound.pos hcommon hformed hwithin rfl rfl rfl hplanned.planned)
  exact hmade.executes_steps hsound hcommon hformed hfits hfew hplanned.recorded
    hcarried.simulates hcarried.written hcarried.supplied

set_option maxRecDepth 100000 in
theorem fourBlocks_compiled : (do
    let r ← compile .twoBlocks { strategy := 3 } .fourBlocks
    return r.data.Fits ∧ r.code.microOps.length < 4294967296 ∧ r.schedule.path = .gemmOverflow ∧
      r.expectedOut = .ok [3, 15, 7, 35, 9, 0, 25, 0, 11, 55, 0, 0, 41, 0, 0, 0] :
      Outcome Bool) = .ok true := by
  decide +kernel

/-- The product of four blocks, which does not fit the scratchpads. -/
theorem fourBlocks_execute : ∃ r, Program.fourBlocks.WordSized ∧
    Program.fourBlocks.gemm.isSome = true ∧
    compile .twoBlocks { strategy := 3 } .fourBlocks = .ok r ∧ r.data.Fits ∧
    r.code.microOps.length < 4294967296 ∧ r.schedule.path = .gemmOverflow ∧
    r.execute .twoBlocks = .ok [3, 15, 7, 35, 9, 0, 25, 0, 11, 55, 0, 0, 41, 0, 0, 0] := by
  obtain ⟨r, hr, h⟩ := Outcome.bind_eq_ok.1 fourBlocks_compiled
  obtain ⟨hfits, hfew, hpath, hout⟩ := of_decide_eq_true (Outcome.pure_eq_ok.1 h)
  have hword : Program.fourBlocks.WordSized := by decide +kernel
  obtain ⟨bytes, hexec, hexp⟩ := products_execute hword (Or.inl rfl) hr hfits hfew
  rw [hout] at hexp
  obtain rfl := Except.ok.inj hexp
  exact ⟨r, hword, rfl, hr, hfits, hfew, hpath, hexec⟩

end Tessera
