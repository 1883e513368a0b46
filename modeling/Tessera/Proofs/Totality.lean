import Tessera.Proofs.Accumulation
import Tessera.Proofs.Eviction

/-!
# Plans for scratchpads of any size

A plan ends for almost every choice of capacities: in a schedule, or in a diagnosis that
names what is too small. The walks through a product that does not fit are the exception.
Three of the four take the size of their bands and slices from the output scratchpad too,
and its size is not among those that are checked first.

* `aluOverflow_refuses`, `add_refuses`, `constant_refuses`: what always ends.
* `Planner.Stalls`, `Strategy.stalled`: a walk whose bands or slices are not positive, and
  what comes of it.
* `gemmOverflow_refuses`, `gemmOverflow_stalls`: a product ends unless its walk stalls, and
  then it does not.
* `plan_total`: so does every plan.
-/

namespace Tessera

/-- The capacities that enter a division are words. -/
structure Capacities.Words (caps : Capacities) : Prop where
  inp : caps.inp < 9223372036854775808
  wgt : caps.wgt < 9223372036854775808
  acc : caps.acc < 9223372036854775808

/-- The walk through a product that does not fit takes bands or slices that are not positive:
it is not that of square tiles, the three scratchpads that are checked are large enough, and
the output scratchpad holds nothing. -/
structure Planner.Stalls (p : Planner) : Prop where
  form : p.data.form = .gemm
  unfit : ¬(p.fits p.counts.nA p.caps.inp && p.fits p.counts.nB p.caps.wgt &&
    p.fits p.counts.nX p.caps.acc) = true
  strategy : p.strategy ≠ .tiled
  room : 2 ≤ min (min p.caps.inp p.caps.wgt) p.caps.acc
  plain : ∀ r ∈ p.data.ops, r.useImm = true
  out : p.caps.out ≤ 0

/-- How a walk ends that stalls over an output scratchpad of `out` blocks: slices of no length
cannot be cut, and bands of no length never get on. A negative band faults when its table is
larger than the address space, and else counts down. -/
def Strategy.stalled (s : Strategy) (out : Int) : Failure :=
  if s = .output ∨ out < -(twoTo 45 : Int) then .fault else .endless

/-- The strategy that the options choose. -/
def PlanOptions.chosen (o : PlanOptions) : Outcome Strategy :=
  if o.strategy = 0 then .ok .output else Strategy.ofNumber o.strategy

section Refusals

variable {p : Planner} {P : Detail → Prop}

theorem rejectVector_refuses : p.rejectVector.OnlyRefuses fun _ => True := by
  unfold Planner.rejectVector
  split
  · exact .diagnose _ trivial
  · exact .of_ok rfl

/-- The scheduler of vectors comes to a schedule or to a diagnosis. -/
theorem aluOverflow_refuses (hsites : ∀ r ∈ p.data.ops, ∀ s ∈ r.sites, s.Below p.data.vectors.toNat) :
    p.aluOverflow.OnlyRefuses fun _ => True := by
  obtain ⟨order, horder, -⟩ := orderEntries_ok hsites
  rw [Planner.aluOverflow_eq]
  split
  · exact .diagnose _ trivial
  · simp only [horder, Outcome.ok_bind]
    exact (Outcome.OnlyRefuses.foldlM (fun q _ s => Placing.entry_refuses) _).bind
      fun _ _ => .of_ok rfl

theorem add_refuses : p.add.OnlyRefuses fun _ => True := by
  unfold Planner.add
  refine .refused (fun _ => trivial) fun hhalf => ?_
  dsimp only
  rw [pieces_eq_ok.2 ⟨by omega, rfl⟩]
  exact .of_ok rfl

theorem constant_refuses : p.constant.OnlyRefuses fun _ => True := by
  unfold Planner.constant
  refine .refused (fun _ => trivial) fun hbuffer => ?_
  dsimp only
  rw [pieces_eq_ok.2 ⟨by omega, rfl⟩, Outcome.ok_bind]
  split
  · exact rejectVector_refuses.bind fun _ _ => .of_ok rfl
  · exact .of_ok rfl

/-- The divisor found is at most the number. -/
theorem divisorUpTo_le {n : Int} (hn : 0 < n) (k : Nat) : (divisorUpTo n k : Int) ≤ n := by
  induction k using divisorUpTo.induct n with
  | case1 => simp [divisorUpTo]; omega
  | case2 => simp [divisorUpTo]; omega
  | case3 k hne hmod =>
    rw [divisorUpTo, if_pos hmod]
    · exact Int.le_of_dvd hn (Int.dvd_of_tmod_eq_zero hmod)
    · exact hne
  | case4 k hne hmod ih =>
    rw [divisorUpTo, if_neg hmod]
    · exact ih
    · exact hne

/-- A nearly square tile exists, and has rows and columns. -/
theorem tileShape_ok {acc xr xc : Int} (hacc : 0 < acc) (hsmall : acc < 9223372036854775808)
    (hxr : 0 < xr) (hxc : 0 < xc) : ∃ h w, tileShape acc xr xc = .ok (h, w) ∧ 0 < h ∧ 0 < w := by
  have hle := divisorUpTo_le hacc (roundedRoot acc.toNat)
  unfold tileShape
  simp only
  set h := min (max (divisorUpTo acc (roundedRoot acc.toNat) : Int) 1) xr with hh
  have hpos : 0 < h := by omega
  have hq : 1 ≤ acc / h := Int.le_ediv_of_mul_le hpos (by omega)
  rw [quotient_small hacc.le hsmall hpos]
  exact ⟨h, min (acc / h) xc, rfl, hpos, by omega⟩

/-- Bands that do not get on fault when the table of the first is too large. -/
theorem strides_stall {s : Strategy} {limit step : Int} (hs : s ≠ .output) (hlimit : 0 < limit)
    (hstep : step ≤ 0) : strides limit step = .error (s.stalled step) := by
  have hspace : (twoTo 48 : Int) = 8 * twoTo 45 := by decide
  unfold strides Strategy.stalled tableSize
  rw [if_neg (by omega), if_pos hstep]
  by_cases hlong : step < -(twoTo 45 : Int)
  · rw [if_neg (by omega), if_pos (Or.inr hlong)]
    rfl
  · rw [if_pos (by omega), if_neg (by simp [hs, hlong])]
    rfl

/-- Without slices there is no tile. -/
theorem tiles_fault {chunk : Int} (hc : chunk ≤ 0) {shapes : List (List Int × List Int)}
    (hne : shapes ≠ []) : p.tiles chunk shapes = .error .fault := by
  obtain ⟨⟨rows, cols⟩, rest, rfl⟩ := List.exists_cons_of_ne_nil hne
  have htile : p.tile rows cols chunk = .error .fault := by
    unfold Planner.tile pieces
    simp only [if_pos hc]
    rfl
  unfold Planner.tiles
  simp only [List.mapM_cons, htile]
  rfl

/-- The scheduler of products comes to a schedule or to a diagnosis, unless its walk stalls. -/
theorem gemmOverflow_refuses {xr xc ac : Int} (hg : p.Gridded xr xc ac)
    (hnX : p.counts.nX = xr * xc) (hsmall : xr * xc < 9223372036854775808) (hcaps : p.caps.Words)
    (hends : p.strategy ≠ .tiled → (∀ r ∈ p.data.ops, r.useImm = true) →
      2 ≤ min (min p.caps.inp p.caps.wgt) p.caps.acc → 0 < p.caps.out) :
    p.gemmOverflow.OnlyRefuses fun _ => True := by
  have hxr0 := hg.xr_pos
  have hxc0 := hg.xc_pos
  have hac0 := hg.ac_pos
  obtain ⟨hinp, hwgt, hacc⟩ := hcaps
  rw [gemmOverflow_walk hg hnX hsmall]
  split
  · exact .diagnose _ trivial
  rename_i hroom
  refine rejectVector_refuses.bind fun _ hplain => ?_
  -- only the walk of square tiles does not look at the output scratchpad
  by_cases hs : p.strategy = .tiled
  · obtain ⟨h, w, hshape, hh, hw⟩ := tileShape_ok (show 0 < p.caps.acc by omega) hacc hxr0 hxc0
    unfold Planner.walk
    simp only [hs, hshape, Outcome.ok_bind]
    rw [quotient_small (by omega) hinp hh, quotient_small (by omega) hwgt hw, Outcome.ok_bind,
      Outcome.ok_bind]
    refine .refused (fun _ => trivial) fun hchunk => ?_
    obtain ⟨downs, hd⟩ := strides_ok xr hh
    obtain ⟨acrosses, ha⟩ := strides_ok xc hw
    rw [hd, ha, Outcome.ok_bind, Outcome.ok_bind]
    have hchunk : 0 < min (min ac (p.caps.inp / h)) (p.caps.wgt / w) := by omega
    obtain ⟨steps, hsteps⟩ := tiles_progress hchunk _
    exact .of_ok hsteps
  · have hout := hends hs (rejectVector_eq_ok.1 hplain) (by omega)
    obtain ⟨steps, hsteps⟩ := walk_progress hg (by omega) hout hs
    exact .of_ok hsteps

/-- A walk that stalls neither ends in a schedule nor in a diagnosis. -/
theorem gemmOverflow_stalls {xr xc ac : Int} (hg : p.Gridded xr xc ac)
    (hnX : p.counts.nX = xr * xc) (hsmall : xr * xc < 9223372036854775808) (h : p.Stalls) :
    p.gemmOverflow = .error (p.strategy.stalled p.caps.out) := by
  have hxr0 := hg.xr_pos
  have hxc0 := hg.xc_pos
  have hout := h.out
  have hroom := h.room
  rw [gemmOverflow_walk hg hnX hsmall, if_neg (by omega), rejectVector_eq_ok.2 h.plain,
    Outcome.ok_bind]
  unfold Planner.walk
  cases hs : p.strategy with
  | output =>
    -- the tile of the first block is cut into slices of no length
    refine tiles_fault (by omega) (List.ne_nil_of_mem (a := ([0], [0])) ?_)
    refine List.mem_flatMap.2 ⟨0, mem_below.2 ⟨le_rfl, hxr0⟩, ?_⟩
    exact List.mem_map.2 ⟨0, mem_below.2 ⟨le_rfl, hxc0⟩, rfl⟩
  | tiled => exact absurd hs h.strategy
  | column =>
    have hband : min (min (min p.caps.inp p.caps.acc) p.caps.out) xr = p.caps.out := by omega
    simp only [hband, strides_stall (show Strategy.column ≠ .output by decide) hxr0 hout]
    rfl
  | row =>
    have hband : min (min (min p.caps.wgt p.caps.acc) p.caps.out) xc = p.caps.out := by omega
    simp only [hband, strides_stall (show Strategy.row ≠ .output by decide) hxc0 hout]
    rfl

end Refusals

section Plan

variable {p : Planner} {d : Shaped} {pr : Program} {c : Config} {b xr xc : Nat}

/-- **No path faults or fails to end**, unless the walk stalls. -/
theorem steps_refuses (hb : 1 ≤ b) (hcommon : d.Common pr c b xr xc) (hformed : d.Formed c b xr xc)
    (hcaps : p.caps.Words) (hdata : p.data = d) (hcounts : p.counts = d.counts)
    (hresults : p.results = Std.TreeSet.ofList d.storeBlocks) (hends : ¬p.Stalls) :
    p.steps.OnlyRefuses fun _ => True := by
  unfold Planner.steps
  cases hformed with
  | product ac a w hprod =>
    obtain ⟨hg, hnA, hnB, hnX, hsmall⟩ := gridded_of_product hb hcommon hprod hdata hcounts hresults
    have hform : p.data.form = .gemm := by rw [hdata, hprod.form]
    rw [hform]
    simp only [checkShape_gridded hg hnA hnB hnX, Outcome.ok_bind]
    split
    · exact .of_ok rfl
    · rename_i hover
      refine (gemmOverflow_refuses hg hnX hsmall hcaps fun hs hplain hroom => ?_).bind
        fun _ _ => .of_ok rfl
      by_contra hout
      exact hends ⟨hform, hover, hs, hroom, hplain, by omega⟩
  | multiple scalar a w factor hmul =>
    rw [hdata, hmul.form]
    exact constant_refuses.bind fun _ _ => .of_ok rfl
  | plain hplain =>
    rw [hdata, hplain.form]
    simp only
    split
    · exact .of_ok rfl
    · have hvectors : p.data.vectors.toNat = xr * xc * b := by
        rw [hdata, Shaped.vectors, Tensor.size, hcommon.x_regular.size, hcommon.side]
        exact Int.toNat_natCast _
      refine (aluOverflow_refuses ?_).bind fun _ _ => .of_ok rfl
      rw [hvectors, hdata]
      exact below_of_onVectors fun r hr => hcommon.onVectors_of_ne (by rw [hplain.form]; decide) hr
  | sum y hsum =>
    rw [hdata, hsum.form]
    exact add_refuses.bind fun _ _ => .of_ok rfl

/-- A walk that stalls takes the planner with it. -/
theorem steps_stall (hb : 1 ≤ b) (hcommon : d.Common pr c b xr xc) (hformed : d.Formed c b xr xc)
    (hdata : p.data = d) (hcounts : p.counts = d.counts)
    (hresults : p.results = Std.TreeSet.ofList d.storeBlocks) (h : p.Stalls) :
    p.steps = .error (p.strategy.stalled p.caps.out) := by
  obtain ⟨ac, a, w, hprod⟩ := hformed.product_of_form (hdata ▸ h.form)
  obtain ⟨hg, hnA, hnB, hnX, hsmall⟩ := gridded_of_product hb hcommon hprod hdata hcounts hresults
  unfold Planner.steps
  rw [h.form]
  simp only [checkShape_gridded hg hnA hnB hnX, Outcome.ok_bind]
  rw [if_neg h.unfit, gemmOverflow_stalls hg hnX hsmall h]
  rfl

/-- A plan is made by the planner of the strategy chosen. -/
theorem plan_eq (d : Shaped) (caps : Capacities) (options : PlanOptions) :
    plan d caps options = (do
      let strategy ← options.chosen
      let (path, overflow, steps) ← (Planner.of d caps strategy options.inclusiveFit).steps
      return { path, strategy, overflow, b := d.b, nX := d.counts.nX, caps
               steps := recordStores steps }) := by
  unfold plan PlanOptions.chosen
  simp only [Outcome.ite_bind]
  split <;> rfl

/-- A plan is a schedule or a diagnosis, unless the walk chosen stalls. -/
theorem plan_ends {caps : Capacities} {options : PlanOptions} (hb : 1 ≤ b)
    (hcommon : d.Common pr c b xr xc) (hformed : d.Formed c b xr xc) (hcaps : caps.Words)
    (hends : ∀ strategy, options.chosen = .ok strategy →
      ¬(Planner.of d caps strategy options.inclusiveFit).Stalls) :
    (plan d caps options).OnlyRefuses fun _ => True := by
  rw [plan_eq]
  refine Outcome.OnlyRefuses.bind ?_ fun strategy hs => ?_
  · unfold PlanOptions.chosen Strategy.ofNumber
    repeat' split
    all_goals first | exact .of_ok rfl | exact .diagnose _ trivial
  · refine Outcome.OnlyRefuses.bind ?_ fun _ _ => .of_ok rfl
    exact steps_refuses hb hcommon hformed hcaps rfl rfl rfl (hends strategy hs)

end Plan

/-- **A plan ends for scratchpads of any size**, in a schedule or a diagnosis, exactly unless the
walk chosen stalls. No capacity has to be positive, and the side of a walk may be anything.
A walk that stalls faults over slices of no length and over bands too long for a table, or
never gets on. -/
theorem plan_total {p : Program} {c : Config} {d : Shaped} {caps : Capacities}
    (hword : p.WordSized) (hbuild : Shaped.build p c = .ok d) (hcaps : caps.Words)
    (options : PlanOptions) :
    (∀ strategy, options.chosen = .ok strategy →
      (Planner.of d caps strategy options.inclusiveFit).Stalls →
      plan d caps options = .error (strategy.stalled caps.out)) ∧
    ((∀ strategy, options.chosen = .ok strategy →
      ¬(Planner.of d caps strategy options.inclusiveFit).Stalls) →
      (∃ s, plan d caps options = .ok s) ∨
        ∃ object detail, plan d caps options = Outcome.diagnose object detail) := by
  obtain ⟨b, xr, xc, hsound, hcommon, hformed⟩ := build_formed hword hbuild
  refine ⟨fun strategy hs hstalls => ?_, fun hends => ?_⟩
  · rw [plan_eq, hs, Outcome.ok_bind, steps_stall hsound.pos hcommon hformed rfl rfl rfl hstalls]
    rfl
  · rcases (plan_ends hsound.pos hcommon hformed hcaps hends).ok_or_diagnose with
      hok | ⟨object, detail, h, -⟩
    · exact Or.inl hok
    · exact Or.inr ⟨object, detail, h⟩

/-- Room for two blocks of each kind, and for some number of output blocks. -/
def Capacities.twoAndOutputs (out : Int) : Capacities := ⟨2, 2, 2, out, 8⟩

set_option maxRecDepth 100000 in
theorem fourBlocks_walked : (do
    let d ← Shaped.build .fourBlocks .twoBlocks
    return d.form = .gemm ∧ d.counts = ⟨4, 2, 4, 2, 4, 2⟩ ∧ (∀ r ∈ d.ops, r.useImm = true) ∧
      plan d (.twoAndOutputs 0) {} = .error .fault ∧
      plan d (.twoAndOutputs 0) { strategy := 3 } = .error .endless : Outcome Bool) = .ok true := by
  decide +kernel

/-- Without room for outputs a product that does not fit is neither planned nor refused: block
by block there is a fault, and in bands of rows no end. -/
theorem noOutputs_unplanned : ∃ d, Shaped.build .fourBlocks .twoBlocks = .ok d ∧
    plan d (.twoAndOutputs 0) {} = .error .fault ∧
    plan d (.twoAndOutputs 0) { strategy := 3 } = .error .endless ∧
    ¬((∃ s, plan d (.twoAndOutputs 0) {} = .ok s) ∨
      ∃ object detail, plan d (.twoAndOutputs 0) {} = Outcome.diagnose object detail) := by
  obtain ⟨d, hd, h⟩ := Outcome.bind_eq_ok.1 fourBlocks_walked
  obtain ⟨-, -, -, hfault, hendless⟩ := of_decide_eq_true (Outcome.pure_eq_ok.1 h)
  refine ⟨d, hd, hfault, hendless, ?_⟩
  rw [hfault]
  rintro (⟨s, hs⟩ | ⟨object, detail, h⟩)
  · cases hs
  · cases h

/-- The usual walk stalls without room for outputs, and ends with room for one. -/
theorem fourBlocks_total : ∃ d, Program.fourBlocks.WordSized ∧
    Shaped.build .fourBlocks .twoBlocks = .ok d ∧
    plan d (.twoAndOutputs 0) {} = .error (Strategy.output.stalled 0) ∧
    ((∃ s, plan d (.twoAndOutputs 1) {} = .ok s) ∨
      ∃ object detail, plan d (.twoAndOutputs 1) {} = Outcome.diagnose object detail) := by
  obtain ⟨d, hd, h⟩ := Outcome.bind_eq_ok.1 fourBlocks_walked
  obtain ⟨hform, hcounts, hplain, -, -⟩ := of_decide_eq_true (Outcome.pure_eq_ok.1 h)
  have hword : Program.fourBlocks.WordSized := by decide +kernel
  have hwords : ∀ out, (Capacities.twoAndOutputs out).Words := by
    intro out
    have htwo : (2 : Int) < 9223372036854775808 := by decide
    exact ⟨htwo, htwo, htwo⟩
  refine ⟨d, hword, hd, ?_, ?_⟩
  · refine (plan_total hword hd (hwords 0) {}).1 .output rfl ?_
    refine ⟨hform, ?_, by simp [Planner.of], by simp [Planner.of, Capacities.twoAndOutputs], hplain,
      by simp [Planner.of, Capacities.twoAndOutputs]⟩
    simp [Planner.fits, Planner.of, Capacities.twoAndOutputs, hcounts]
  · refine (plan_total hword hd (hwords 1) {}).2 fun strategy _ hstalls => ?_
    have hout : (1 : Int) ≤ 0 := hstalls.out
    omega

end Tessera
