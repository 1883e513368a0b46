import Tessera.Proofs.Building
import Tessera.Proofs.Frames

/-!
# What shaping reads of the numbers

The shapes of the tensors of a program, its operations and the vectors that hold results do
not depend on the numbers of its matrices.

* `Program.blank`: a program without its numbers.
* `ofMatrix_frame`, `factors_frame`, `plainOperands_frame`: what is made of matrices of the
  same shapes.
* `build_frame`: programs that differ in their numbers only are shaped into one frame.
-/

namespace Tessera

/-- A program without the numbers of its matrices. -/
def Program.blank (p : Program) : Program :=
  { p with matrices := p.matrices.map fun m => { m with data := none } }

theorem Program.find?_blank (p : Program) (name : String) :
    (p.blank.find? name).isSome = (p.find? name).isSome := by
  unfold Program.find? Program.blank
  simp only [List.find?_map, Option.isSome_map, Function.comp_def]

/-- The roles of a program do not depend on its numbers. -/
theorem Program.roles_blank (p : Program) : p.blank.roles = p.roles := by
  have hnames : p.blank.matrices.map (·.name) = p.matrices.map (·.name) := by
    unfold Program.blank
    rw [List.map_map]
    rfl
  unfold Program.roles Program.gemmRoles Program.accumulatorRole Program.require
  simp only [Program.find?_blank, hnames]
  rfl

/-- The shapes of a program do not depend on its numbers. -/
theorem Program.WordSized.of_blank {p q : Program} (h : p.WordSized) (hblank : p.blank = q.blank) :
    q.WordSized := by
  obtain ⟨-, hmatrices, -⟩ := Program.mk.inj hblank
  intro m hm
  obtain ⟨m', hm', heq⟩ := List.mem_map.1 (hmatrices ▸ List.mem_map_of_mem hm)
  obtain ⟨-, hrows, hcols, -⟩ := Declared.mk.inj heq
  rw [← hrows, ← hcols]
  exact h m' hm'

namespace Shaped

/-- The shapes of some values. -/
def shapesOf (values : List (String × Matrix)) : List (String × Int × Int) :=
  values.map fun q => (q.1, q.2.rows, q.2.cols)

variable {p q : Program} {c : Config} {b : Nat} {roles : Roles}
  {values values' : List (String × Matrix)}

/-- The values of a program have the shapes that it declares. -/
theorem materialise_shapes (hcheck : Program.checkMatrices [] p.matrices = .ok ())
    (h : materialise p c roles = .ok values) :
    shapesOf values = (p.matrices.map fun m => (m.name, m.rows, m.cols)).reverse := by
  unfold materialise at h
  obtain ⟨⟨vs, g⟩, hfold, h⟩ := Outcome.bind_eq_ok.1 h
  obtain rfl := Outcome.pure_eq_ok.1 h
  have hshape := checkMatrices_shape hcheck
  have := foldlM_invariant (fun done rest (s : List (String × Matrix) × Random.Generator) =>
    (∀ m ∈ done ++ rest, m ∈ p.matrices) ∧
      shapesOf s.1 = (done.map fun m => (m.name, m.rows, m.cols)).reverse) ?_ [] p.matrices _ _
    ⟨by simp, rfl⟩ hfold
  · exact this.2
  rintro done m rest ⟨s, g⟩ ⟨s', g'⟩ ⟨hin, hs⟩ hstep
  refine ⟨by simpa using hin, ?_⟩
  rw [List.map_append, List.reverse_append, ← hs]
  cases hdata : m.data with
  | some d =>
    simp only [hdata, Outcome.pure_eq_ok, Prod.mk.injEq] at hstep
    obtain ⟨h1, h2⟩ := (hshape m (hin m (by simp))).2.2 d hdata
    rw [← hstep.1]
    simp [shapesOf, h1, h2]
  | none =>
    simp only [hdata, Outcome.bind_eq_ok, Outcome.pure_eq_ok, Prod.mk.injEq] at hstep
    obtain ⟨lo, -, hi, -, n, -, hs', -⟩ := hstep
    rw [← hs']
    rfl

theorem lookup_shapes (values : List (String × Matrix)) (name : String) :
    (values.lookup name).map (fun m => (m.rows, m.cols)) = (shapesOf values).lookup name := by
  induction values with
  | nil => rfl
  | cons q values ih =>
    unfold shapesOf at ih ⊢
    rw [List.map_cons, List.lookup_cons, List.lookup_cons]
    cases name == q.1 with
    | true => rfl
    | false => exact ih

theorem valueOf_shape (h : shapesOf values = shapesOf values') (name : String) :
    (valueOf values name).rows = (valueOf values' name).rows ∧
      (valueOf values name).cols = (valueOf values' name).cols := by
  have hlookup := lookup_shapes values name
  rw [h, ← lookup_shapes] at hlookup
  unfold valueOf
  cases hx : values.lookup name with
  | none =>
    rw [hx, Option.map_none, eq_comm, Option.map_eq_none_iff] at hlookup
    rw [hlookup]
    exact ⟨rfl, rfl⟩
  | some m =>
    rw [hx, Option.map_some, eq_comm, Option.map_eq_some_iff] at hlookup
    obtain ⟨m', hm', hshape⟩ := hlookup
    obtain ⟨h1, h2⟩ := Prod.mk.inj hshape
    rw [hm']
    exact ⟨h1.symm, h2.symm⟩

/-- **Matrices of one shape make tensors of one frame.** -/
theorem ofMatrix_frame {role : Role} {name : String} {m m' : Matrix} {scalar : Scalar} {s : Bool}
    {t t' : Tensor} (hb : 1 ≤ b) (hb' : b ≤ 64) (hm : m.Proper) (hr : m.rows = m'.rows)
    (hc : m.cols = m'.cols) (h : Tensor.ofMatrix role name m scalar b s = .ok t)
    (h' : Tensor.ofMatrix role name m' scalar b s = .ok t') :
    t.frame = t'.frame ∧ t.padded.cols = t'.padded.cols := by
  obtain ⟨br, bc, hreg, hbr, hbc, hrows, h1, h2, h3, h4, h5⟩ :=
    ofMatrix_regular hb hb' hm.rows_pos hm.cols_pos hm.cols_lt h
  obtain ⟨br', bc', hreg', hbr', hbc', hrows', h1', h2', h3', h4', h5'⟩ :=
    ofMatrix_regular hb hb' (hr ▸ hm.rows_pos) (hc ▸ hm.cols_pos) (hc ▸ hm.cols_lt) h'
  rw [← hr, ← hbr] at hbr'
  rw [← hc, ← hbc] at hbc'
  obtain rfl : br' = br := by exact_mod_cast hbr'
  obtain rfl : bc' = bc := by exact_mod_cast hbc'
  rw [← hr, ← hrows] at hrows'
  have hblocks : t.blocks.map Block.frame = t'.blocks.map Block.frame := by
    refine Array.ext (by rw [Array.size_map, Array.size_map, hreg.size, hreg'.size]) fun n h1 h2 => ?_
    rw [Array.size_map] at h1 h2
    rw [Array.getElem_map, Array.getElem_map]
    have hk := hreg.block n _ (Array.getElem?_eq_getElem h1)
    have hk' := hreg'.block n _ (Array.getElem?_eq_getElem h2)
    have hheight : t.blocks[n].height = t'.blocks[n].height := by
      rw [hk.height, hk'.height, hrows']
    have hsize : t.blocks[n].data.size = t'.blocks[n].data.size := by
      have h1 := hk.size
      have h2 := hk'.size
      rw [hheight, ← h2] at h1
      exact_mod_cast h1
    unfold Block.frame
    rw [hheight, hsize]
  refine ⟨?_, by rw [hreg.cols, hreg'.cols]⟩
  simp only [Tensor.frame, Tensor.mk.injEq]
  exact ⟨h1.trans h1'.symm, h2.trans h2'.symm, by rw [h4, h4', hr], by rw [h5, h5', hc],
    h3.trans h3'.symm, hreg.side.trans hreg'.side.symm, hreg.blockRows.trans hreg'.blockRows.symm,
    hreg.blockCols.trans hreg'.blockCols.symm, hblocks, trivial⟩

section Factors

variable {g : Gemm} {f f' : Factors}

theorem startOf_name {name : String} {start : Matrix} {rows cols : Int}
    (h : startOf roles values rows cols = .ok (name, start)) :
    name = if ((shapesOf values).lookup roles.accumulator).isSome then roles.accumulator
      else accumulatorName := by
  rw [← lookup_shapes, Option.isSome_map]
  unfold startOf at h
  cases hx : values.lookup roles.accumulator with
  | some x =>
    simp only [hx] at h
    cases Outcome.pure_eq_ok.1 h
    rfl
  | none =>
    simp only [hx] at h
    obtain ⟨m, -, h⟩ := Outcome.bind_eq_ok.1 h
    cases Outcome.pure_eq_ok.1 h
    rfl

/-- **Factors of the same shapes** make tensors of the same frames. -/
theorem factors_frame (hb : 1 ≤ b) (hb' : b ≤ 64) (hin : (valueOf values roles.input).Proper)
    (hwgt : g.constant = false → (valueOf values roles.weight).Proper)
    (hshapes : shapesOf values = shapesOf values') (hflag : p.nonSquareInput = q.nonSquareInput)
    (h : factors p g c b roles values = .ok f) (h' : factors q g c b roles values' = .ok f') :
    f.a.frame = f'.a.frame ∧ f.w.frame = f'.w.frame ∧ f.x.frame = f'.x.frame := by
  have hstart := Factors.start_proper hin hwgt h
  obtain ⟨cols, name, ha, hw, hs, hshape, hx⟩ := factors_ok.1 h
  obtain ⟨cols', name', ha', hw', hs', hshape', hx'⟩ := factors_ok.1 h'
  obtain ⟨hrows, hcols⟩ := valueOf_shape hshapes roles.input
  rw [← hflag] at ha'
  obtain ⟨haframe, hacols⟩ := ofMatrix_frame hb hb' hin hrows hcols ha ha'
  obtain rfl : name = name' := by rw [startOf_name hs, startOf_name hs', hshapes]
  have hweight : cols = cols' ∧ f.w.frame = f'.w.frame := by
    cases hk : g.constant with
    | true =>
      obtain ⟨hw, hcols1⟩ := (weightOf_constant hk).1 hw
      obtain ⟨hw', hcols2⟩ := (weightOf_constant hk).1 hw'
      rw [← hacols, hw] at hw'
      exact ⟨by rw [← hcols1, ← hcols2, hcols], by rw [(Prod.mk.inj (Except.ok.inj hw')).1]⟩
    | false =>
      obtain ⟨hw, -, hcols1⟩ := (weightOf_matrix hk).1 hw
      obtain ⟨hw', -, hcols2⟩ := (weightOf_matrix hk).1 hw'
      obtain ⟨hwr, hwc⟩ := valueOf_shape hshapes roles.weight
      unfold matrixWeight at hw hw'
      simp only [Outcome.refused_eq_ok, Outcome.bind_eq_ok, Outcome.pure_eq_ok] at hw hw'
      obtain ⟨-, t, ht, -, rfl⟩ := hw
      obtain ⟨-, t', ht', -, rfl⟩ := hw'
      exact ⟨by rw [← hcols1, ← hcols2, hwc], (ofMatrix_frame hb hb' (hwgt hk) hwr hwc ht ht').1⟩
  exact ⟨haframe, hweight.2, (ofMatrix_frame hb hb' hstart (by rw [hshape.1, hshape'.1, hrows])
    (by rw [hshape.2, hshape'.2, hweight.1]) hx hx').1⟩

end Factors

/-- The operands with all their numbers zero. -/
def Operands.frame (o : Operands) : Operands :=
  { o with a := o.a.map Tensor.frame, w := o.w.map Tensor.frame, x := o.x.frame
           y := o.y.map Tensor.frame, acc := default }

theorem Factors.operands_frame {g : Gemm} {f f' : Factors} {o o' : Operands}
    {multiply : Multiplier} (ha : f.a.frame = f'.a.frame) (hw : f.w.frame = f'.w.frame)
    (hx : f.x.frame = f'.x.frame) (h : f.operands g c b multiply = .ok o)
    (h' : f'.operands g c b multiply = .ok o') : o.frame = o'.frame := by
  unfold Factors.operands at h h'
  simp only [Outcome.bind_eq_ok, Outcome.pure_eq_ok] at h h'
  obtain ⟨m, -, blocks, -, acc, -, rfl⟩ := h
  obtain ⟨m', -, blocks', -, acc', -, rfl⟩ := h'
  simp only [Operands.frame, Option.map_some, ha, hw, hx]

theorem plainOperands_frame {o o' : Operands} (hb : 1 ≤ b) (hb' : b ≤ 64)
    (hx : (valueOf values roles.accumulator).Proper) (hshapes : shapesOf values = shapesOf values')
    (hadds : p.addsAccumulators = q.addsAccumulators)
    (h : plainOperands p c b roles values = .ok o) (h' : plainOperands q c b roles values' = .ok o') :
    o.frame = o'.frame := by
  obtain ⟨hxr, hxc⟩ := valueOf_shape hshapes roles.accumulator
  obtain ⟨hyr, hyc⟩ := valueOf_shape hshapes roles.addAccumulator
  unfold plainOperands at h h'
  rw [← hadds] at h'
  obtain ⟨t, ht, h⟩ := Outcome.bind_eq_ok.1 h
  obtain ⟨t', ht', h'⟩ := Outcome.bind_eq_ok.1 h'
  have hframe := (ofMatrix_frame hb hb' hx hxr hxc ht ht').1
  by_cases hnone : roles.addAccumulator = ""
  · rw [if_pos hnone] at h h'
    simp only [Outcome.bind_eq_ok, Outcome.pure_eq_ok] at h h'
    obtain ⟨acc, -, rfl⟩ := h
    obtain ⟨acc', -, rfl⟩ := h'
    simp only [Operands.frame, hframe]
  · rw [if_neg hnone] at h h'
    simp only [Outcome.refused_eq_ok, Outcome.bind_eq_ok, Outcome.pure_eq_ok, ne_eq, not_or,
      not_not] at h h'
    obtain ⟨hshape, u, hu, acc, -, rfl⟩ := h
    obtain ⟨-, u', hu', acc', -, rfl⟩ := h'
    have hy : (valueOf values roles.addAccumulator).Proper :=
      ⟨hshape.1 ▸ hx.rows_pos, hshape.2 ▸ hx.cols_pos, hshape.2 ▸ hx.cols_lt⟩
    have huframe := (ofMatrix_frame hb hb' hy hyr hyc hu hu').1
    simp only [Operands.frame, hframe, Option.map_some, huframe]

/-- The blocks of the output, without their numbers. -/
theorem Common.output_frame {d : Shaped} {xr xc : Nat} (h : d.Common p c b xr xc)
    (hsound : c.Sound b) : d.c.blocks.map Block.frame =
      Array.replicate d.x.blocks.size ⟨b, Array.replicate (b * b) 0⟩ := by
  obtain ⟨-, hsize, -⟩ := h.output_blocks hsound
  rw [← h.x_regular.size] at hsize
  refine Array.ext (by simpa using hsize) fun n h1 h2 => ?_
  rw [Array.size_map] at h1
  obtain ⟨hheight, hdata⟩ := h.output_full hsound d.c.blocks[n] (by simp)
  rw [Array.getElem_map, Array.getElem_replicate, Block.frame, hheight, hdata]

/-- **Operands of one frame are finished in one frame**, with the same operations. -/
theorem finish_frame {o o' : Operands} {d d' : Shaped} {xr xc xr' xc' : Nat} (hsound : c.Sound b)
    (hframe : o.frame = o'.frame) (halu : p.alu = q.alu) (h : finish p c b o = .ok d)
    (h' : finish q c b o' = .ok d') (hcommon : d.Common p c b xr xc)
    (hcommon' : d'.Common q c b xr' xc') : d.frame = d'.frame ∧ d.ops = d'.ops := by
  have hout := hcommon.output_frame hsound
  have hout' := hcommon'.output_frame hsound
  obtain ⟨hform, hscalar, ha, hw, hx, hy, -⟩ := Operands.mk.inj hframe
  have hsize : o.x.size = o'.x.size := by rw [← Tensor.size_frame, hx, Tensor.size_frame]
  have hcount : o.x.blocks.size = o'.x.blocks.size := Int.ofNat_inj.1 hsize
  obtain ⟨-, -, hrows, hcols, -, -, hbr, hbc, -⟩ := Tensor.mk.inj hx
  unfold finish at h h'
  simp only [Outcome.bind_eq_ok, Outcome.pure_eq_ok] at h h'
  rw [← halu, ← hsize] at h'
  obtain ⟨ops, hops, final, -, output, houtput, rfl⟩ := h
  obtain ⟨ops', hops', final', -, output', houtput', rfl⟩ := h'
  obtain rfl := Except.ok.inj (hops.symm.trans hops')
  refine ⟨?_, rfl⟩
  -- the output has the shape of the accumulator
  have hc : output.frame = output'.frame := by
    unfold outputTensor at houtput houtput'
    simp only [Outcome.bind_eq_ok, Outcome.pure_eq_ok] at houtput houtput'
    obtain ⟨-, -, -, -, blocks, -, padded, -, rfl⟩ := houtput
    obtain ⟨-, -, -, -, blocks', -, padded', -, rfl⟩ := houtput'
    simp only [Tensor.frame, Tensor.mk.injEq, hrows, hcols, hbr, hbc, true_and, and_true]
    exact hout.trans ((congrArg (Array.replicate · _) hcount).trans hout'.symm)
  simp only [Shaped.frame, Shaped.mk.injEq, true_and]
  exact ⟨hform, hscalar, ha, hw, hx, hy, by rw [hform], hc, by rw [hform]⟩

/-- **Programs that differ in their numbers only** are shaped into one frame, with the same
operations. -/
theorem build_frame {d d' : Shaped} (hword : p.WordSized) (hblank : p.blank = q.blank)
    (h : build p c = .ok d) (h' : build q c = .ok d') : d.frame = d'.frame ∧ d.ops = d'.ops := by
  obtain ⟨-, hmatrices, hgemm, halu, -, -, -, hflag, -⟩ := Program.mk.inj hblank
  have hadds : p.addsAccumulators = q.addsAccumulators := by
    unfold Program.addsAccumulators
    rw [halu]
  have hdeclared : p.matrices.map (fun m => (m.name, m.rows, m.cols)) =
      q.matrices.map fun m => (m.name, m.rows, m.cols) := by
    have := congrArg (List.map fun m : Declared => (m.name, m.rows, m.cols)) hmatrices
    simpa only [List.map_map, Function.comp_def] using this
  obtain ⟨b, xr, xc, hsound, hcommon, -⟩ := build_formed hword h
  obtain ⟨b', xr', xc', hsound', hcommon', -⟩ := build_formed (hword.of_blank hblank) h'
  obtain ⟨roles, b₁, values, o, hv, ho, hd⟩ := build_ok.1 h
  obtain ⟨roles', b₂, values', o', hv', ho', hd'⟩ := build_ok.1 h'
  obtain rfl := Int.ofNat_inj.1 (Except.ok.inj (hsound.block.symm.trans hv.block))
  obtain rfl := Int.ofNat_inj.1 (Except.ok.inj (hsound.block.symm.trans hsound'.block))
  obtain rfl := Int.ofNat_inj.1 (Except.ok.inj (hsound.block.symm.trans hv'.block))
  obtain rfl : roles = roles' := by
    have hroles := hv.named
    rw [← Program.roles_blank, hblank, Program.roles_blank, hv'.named] at hroles
    exact (Except.ok.inj hroles).symm
  have hshapes : shapesOf values = shapesOf values' := by
    rw [materialise_shapes (validate_checks hv.program).1 hv.valued, hdeclared,
      materialise_shapes (validate_checks hv'.program).1 hv'.valued]
  have hb := hsound.pos
  have hb' := hsound.le
  refine finish_frame hsound ?_ halu hd hd' hcommon hcommon'
  unfold operandsOf at ho ho'
  rw [← hgemm] at ho'
  cases hg : p.gemm with
  | some g =>
    simp only [hg] at ho ho'
    obtain ⟨f, hf, ho⟩ := Outcome.bind_eq_ok.1 ho
    obtain ⟨f', hf', ho'⟩ := Outcome.bind_eq_ok.1 ho'
    obtain ⟨hin, hwgt⟩ := hv.factors_proper hword hg
    obtain ⟨ha, hw, hx⟩ := factors_frame hb hb' hin hwgt hshapes hflag hf hf'
    exact Factors.operands_frame ha hw hx ho ho'
  | none =>
    simp only [hg] at ho ho'
    have hx := (hv.proper hword).2 _ ((roles_declared hv.named).plain hg)
    exact plainOperands_frame hb hb' hx hshapes hadds ho ho'

end Shaped

end Tessera
