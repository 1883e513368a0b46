import Tessera.Proofs.Building

/-!
# Products without their padding

The accumulator after a product is seen in blocks and vectors, and its factors are padded.
None of this shows in its entries: each is an entry of the product of the matrices as they
were declared, or a zero. So neither does it matter whether the rows of the input are padded,
nor who adds which term.

* `Shaped.productCell`: an entry of the product of the matrices as declared.
* `Shaped.Factors.cell`: an entry of the padded product.
* `Shaped.build_unpadded`: the same program without padded input rows.
* `Shaped.build_mulAddIn`: the same program, multiplied out by some workers.
* `Shaped.product_transparent`: all of it, for every program with a product.
-/

namespace Tessera

theorem sum_range_tail (f : Nat → Int) {m n : Nat} (hmn : m ≤ n) (h : ∀ k, m ≤ k → f k = 0) :
    ((List.range n).map f).sum = ((List.range m).map f).sum := by
  obtain ⟨t, rfl⟩ := Nat.exists_eq_add_of_le hmn
  rw [List.range_add, List.map_append, List.sum_append, List.map_map]
  have htail : ((List.range t).map (f ∘ fun k => m + k)).sum = 0 := by
    refine List.sum_eq_zero fun v hv => ?_
    obtain ⟨k, -, rfl⟩ := List.mem_map.1 hv
    exact h (m + k) (by omega)
  rw [htail, add_zero]

namespace Shaped

section Unpadded

variable (g : Gemm) (roles : Roles) (values : List (String × Matrix))

/-- Entry `(k, j)` of the weight as declared; a constant stands for a multiple of the
identity. -/
def weightCell (k j : Nat) : Int :=
  if g.constant then if k = j then g.scalar else 0 else (valueOf values roles.weight).cell k j

/-- The columns of the product as declared. -/
def productCols : Int :=
  if g.constant then (valueOf values roles.input).cols else (valueOf values roles.weight).cols

/-- Entry `(i, j)` of the accumulator as declared, zero if there is none. -/
def startCell (i j : Nat) : Int := ((values.lookup roles.accumulator).map (·.cell i j)).getD 0

/-- Entry `(i, j)` of the product as declared, added to the accumulator: an integer, not yet
brought into a scalar type. -/
def productCell (i j : Nat) : Int :=
  startCell roles values i j + ((List.range (valueOf values roles.input).cols.toNat).map fun k =>
    (valueOf values roles.input).cell i k * weightCell g roles values k j).sum

/-- Whether `(i, j)` lies in the product as declared. -/
def InProduct (i j : Nat) : Prop :=
  (i : Int) < (valueOf values roles.input).rows ∧ (j : Int) < productCols g roles values

instance (i j : Nat) : Decidable (InProduct g roles values i j) :=
  inferInstanceAs (Decidable (_ ∧ _))

end Unpadded

section Cells

variable {p : Program} {g : Gemm} {c : Config} {b : Nat} {roles : Roles}
  {values : List (String × Matrix)}

theorem weightOf_cols {a w : Tensor} {factor : Matrix} {cols : Int}
    (h : weightOf g c b roles values a = .ok (w, factor, cols)) :
    cols = productCols g roles values := by
  unfold productCols
  cases hk : g.constant with
  | true => rw [if_pos rfl, ((weightOf_constant hk).1 h).2]
  | false => rw [if_neg (by simp), ((weightOf_matrix hk).1 h).2.2]

/-- The weight as a matrix, entry by entry. -/
theorem weightOf_cells {a w : Tensor} {factor : Matrix} {cols : Int} {n : Nat} (hb : 1 ≤ b)
    (hb' : b ≤ 64) (hwgt : g.constant = false → (valueOf values roles.weight).Proper)
    (hn : a.padded.cols = n) (hle : (valueOf values roles.input).cols ≤ n)
    (h : weightOf g c b roles values a = .ok (w, factor, cols)) {k j : Nat}
    (hk : (k : Int) < (valueOf values roles.input).cols) (hj : j < factor.cols.toNat) :
    factor.cell k j =
      if (j : Int) < productCols g roles values then weightCell g roles values k j else 0 := by
  rw [← weightOf_cols h]
  unfold weightCell
  cases hconst : g.constant with
  | true =>
    obtain ⟨hw, rfl⟩ := (weightOf_constant hconst).1 h
    obtain ⟨m, hdiag, rfl⟩ := (constantWeight_diagonal hw).matrix
    rw [hn] at hdiag hj ⊢
    rw [Int.toNat_natCast] at hj
    rw [if_pos rfl, Matrix.cell, Int.toNat_natCast, (diagonal_cells hdiag).2 k (by omega) j hj]
    by_cases heq : k = j
    · rw [if_pos heq, if_pos (by omega)]
    · rw [if_neg heq, ite_self]
  | false =>
    obtain ⟨hw, rfl, rfl⟩ := (weightOf_matrix hconst).1 h
    unfold matrixWeight at hw
    simp only [Outcome.refused_eq_ok, Outcome.bind_eq_ok, Outcome.pure_eq_ok, ne_eq, not_not] at hw
    obtain ⟨hrows, t, ht, -, rfl⟩ := hw
    simp only [Bool.false_eq_true, if_false]
    rw [ofMatrix_cells hb hb' (hwgt hconst) ht k hj, hrows]
    by_cases hin : (j : Int) < (valueOf values roles.weight).cols
    · rw [if_pos ⟨hk, hin⟩, if_pos hin]
    · rw [if_neg fun h => hin h.2, if_neg hin]

/-- The accumulator before it is padded. -/
theorem startOf_cell {name : String} {start : Matrix} {rows cols : Int}
    (h : startOf roles values rows cols = .ok (name, start)) (i j : Nat) :
    start.cell i j = startCell roles values i j := by
  unfold startOf at h
  unfold startCell
  cases hx : values.lookup roles.accumulator with
  | some x =>
    simp only [hx] at h
    cases Outcome.pure_eq_ok.1 h
    rfl
  | none =>
    simp only [hx] at h
    obtain ⟨m, hm, h⟩ := Outcome.bind_eq_ok.1 h
    cases Outcome.pure_eq_ok.1 h
    obtain ⟨n, -, -, rfl⟩ := zero_eq_ok.1 hm
    rw [Matrix.cell, Array.getD_eq_getD_getElem?, Array.getElem?_replicate]
    split <;> rfl

variable {f : Factors}

/-- **An entry of the padded product** is one of the product as declared, or zero. -/
theorem Factors.cell (hb : 1 ≤ b) (hb' : b ≤ 64) (hin : (valueOf values roles.input).Proper)
    (hwgt : g.constant = false → (valueOf values roles.weight).Proper)
    (h : factors p g c b roles values = .ok f) (i : Nat) {j : Nat} (hj : j < f.x.padded.cols.toNat) :
    f.x.padded.cell i j + f.a.padded.dot f.factor i j =
      if InProduct g roles values i j then productCell g roles values i j else 0 := by
  obtain ⟨ar, ac, xr, xc, hafill, hffill, hxreg, -, -⟩ := Factors.filled hb hb' hin hwgt h
  obtain ⟨cols, name, ha, hw, hs, hshape, hx⟩ := factors_ok.1 h
  have hcols := weightOf_cols hw
  have hacols : (valueOf values roles.input).cols ≤ (ac * b : Nat) := by
    have := pad_shape (by omega) (by omega) hin.rows_pos hin.cols_pos hin.cols_lt (ofMatrix_parts ha).1
    have hbound := ceil_bounds (a := (valueOf values roles.input).cols) (b := b) (by omega)
    rw [← this.1, hafill.cols] at hbound
    omega
  have hfj : j < f.factor.cols.toNat := by
    rw [hxreg.cols] at hj
    rwa [hffill.cols]
  have hstart := Factors.start_proper hin hwgt h
  have hx : f.x.padded.cell i j =
      if InProduct g roles values i j then startCell roles values i j else 0 := by
    rw [ofMatrix_cells hb hb' hstart hx i hj, startOf_cell hs, hshape.1, hshape.2, hcols]
    rfl
  -- a term counts inside the product and before the last column of the input
  have hterm : ∀ k < ac * b, f.a.padded.cell i k * f.factor.cell k j =
      if (k : Int) < (valueOf values roles.input).cols then
        if InProduct g roles values i j then
          (valueOf values roles.input).cell i k * weightCell g roles values k j else 0
      else 0 := by
    intro k hk
    rw [ofMatrix_cells hb hb' hin ha i (by rwa [hafill.cols, Int.toNat_natCast])]
    by_cases hkc : (k : Int) < (valueOf values roles.input).cols
    · rw [if_pos hkc, weightOf_cells hb hb' hwgt hafill.cols hacols hw hkc hfj]
      by_cases hi : (i : Int) < (valueOf values roles.input).rows
      · by_cases hj : (j : Int) < productCols g roles values
        · rw [if_pos ⟨hi, hkc⟩, if_pos hj, if_pos (show InProduct g roles values i j from ⟨hi, hj⟩)]
        · rw [if_neg hj, mul_zero, if_neg fun h : InProduct g roles values i j => hj h.2]
      · rw [if_neg fun h => hi h.1, zero_mul, if_neg fun h : InProduct g roles values i j => hi h.1]
    · rw [if_neg fun h => hkc h.2, zero_mul, if_neg hkc]
  have hdot : f.a.padded.dot f.factor i j =
      ((List.range (valueOf values roles.input).cols.toNat).map fun k =>
        if InProduct g roles values i j then
          (valueOf values roles.input).cell i k * weightCell g roles values k j else 0).sum := by
    unfold Matrix.dot
    rw [hafill.cols, Int.toNat_natCast,
      List.map_congr_left fun k hk => hterm k (List.mem_range.1 hk),
      sum_range_tail _ (show (valueOf values roles.input).cols.toNat ≤ ac * b by omega)
        fun k hk => if_neg (by omega)]
    refine congrArg List.sum (List.map_congr_left fun k hk => if_pos ?_)
    have := List.mem_range.1 hk
    omega
  rw [hx, hdot]
  unfold productCell
  by_cases hprod : InProduct g roles values i j
  · simp only [if_pos hprod]
  · simp only [if_neg hprod]
    rw [List.sum_eq_zero, add_zero]
    intro v hv
    obtain ⟨-, -, rfl⟩ := List.mem_map.1 hv
    rfl

/-- The accumulator has the shape of the product as declared, and its blocks cover it. -/
theorem Factors.shape {xr xc : Nat} (hb : 1 ≤ b) (hb' : b ≤ 64)
    (hin : (valueOf values roles.input).Proper)
    (hwgt : g.constant = false → (valueOf values roles.weight).Proper)
    (h : factors p g c b roles values = .ok f) (hreg : f.x.Regular b xr xc) :
    f.x.rows = (valueOf values roles.input).rows ∧ f.x.cols = productCols g roles values ∧
      (0 ≤ f.x.rows ∧ f.x.rows ≤ (xr * b : Nat)) ∧ (0 ≤ f.x.cols ∧ f.x.cols ≤ (xc * b : Nat)) := by
  have hstart := Factors.start_proper hin hwgt h
  obtain ⟨cols, name, -, hw, -, hshape, hx⟩ := factors_ok.1 h
  obtain ⟨br, bc, hreg', hbr, hbc, -, -, -, -, hrows, hcols⟩ :=
    ofMatrix_regular hb hb' hstart.rows_pos hstart.cols_pos hstart.cols_lt hx
  obtain rfl : br = xr := by exact_mod_cast hreg'.blockRows.symm.trans hreg.blockRows
  obtain rfl : bc = xc := by exact_mod_cast hreg'.blockCols.symm.trans hreg.blockCols
  have h1 := ceil_bounds (a := f.start.rows) (b := b) (by omega)
  have h2 := ceil_bounds (a := f.start.cols) (b := b) (by omega)
  rw [← hbr] at h1
  rw [← hbc] at h2
  have h3 := hstart.rows_pos
  have h4 := hstart.cols_pos
  refine ⟨hrows.trans hshape.1, by rw [hcols, hshape.2, weightOf_cols hw], ?_, ?_⟩
  · rw [hrows]
    push_cast
    exact ⟨by omega, h1.1⟩
  · rw [hcols]
    push_cast
    exact ⟨by omega, h2.1⟩

/-- **The padded product**, entry by entry. -/
theorem Factors.mulAdd_ok (hc : c.Sound b) (hin : (valueOf values roles.input).Proper)
    (hwgt : g.constant = false → (valueOf values roles.weight).Proper)
    (h : factors p g c b roles values = .ok f) :
    ∃ m xr xc, f.x.Regular b xr xc ∧ mulAdd f.a.padded f.factor f.x.padded c.acc = .ok m ∧
      m.Filled (xr * b) (xc * b) ∧ ∀ i < xr * b, ∀ j < xc * b, m.cell i j = c.acc.wrapped
        (if InProduct g roles values i j then productCell g roles values i j else 0) := by
  obtain ⟨ar, ac, xr, xc, hafill, hffill, hxreg, hxrows, har⟩ :=
    Factors.filled hc.pos hc.le hin hwgt h
  have hxfill := hxreg.filled_rows hxrows
  obtain ⟨m, hm⟩ := mulAdd_progress hafill hffill hxfill har hc.acc
  obtain ⟨hmfill, hcells⟩ := mulAdd_cells hafill hffill hxfill har hc.acc hm
  refine ⟨m, xr, xc, hxreg, hm, hmfill, fun i hi j hj => ?_⟩
  rw [hcells i hi j hj, Factors.cell hc.pos hc.le hin hwgt h i
    (by rwa [hxreg.cols, Int.toNat_natCast])]

end Cells

section Variants

variable {p : Program} {g : Gemm} {c : Config} {b : Nat} {roles : Roles}
  {values : List (String × Matrix)} {f : Factors}

/-- The weight reads of the input how many columns its blocks have. -/
theorem weightOf_congr {a a' : Tensor} (hcols : a'.padded.cols = a.padded.cols)
    (hblocks : a'.blockCols = a.blockCols) :
    weightOf g c b roles values a' = weightOf g c b roles values a := by
  unfold weightOf matrixWeight
  rw [hcols, hblocks]

/-- The columns of a tensor do not depend on whether its rows are padded. -/
theorem ofMatrix_cols {role : Role} {name : String} {m : Matrix} {scalar : Scalar} {s s' : Bool}
    {t t' : Tensor} (hb : 1 ≤ b) (hb' : b ≤ 64) (hm : m.Proper)
    (h : Tensor.ofMatrix role name m scalar b s = .ok t)
    (h' : Tensor.ofMatrix role name m scalar b s' = .ok t') :
    t'.padded.cols = t.padded.cols ∧ t'.blockCols = t.blockCols := by
  obtain ⟨br, bc, hreg, -, hbc, -⟩ := ofMatrix_regular hb hb' hm.rows_pos hm.cols_pos hm.cols_lt h
  obtain ⟨br', bc', hreg', -, hbc', -⟩ :=
    ofMatrix_regular hb hb' hm.rows_pos hm.cols_pos hm.cols_lt h'
  obtain rfl : bc' = bc := by exact_mod_cast hbc'.trans hbc.symm
  exact ⟨by rw [hreg.cols, hreg'.cols], by rw [hreg.blockCols, hreg'.blockCols]⟩

/-- Padding the rows of the input or not changes the input alone. -/
theorem factors_flag (hb : 1 ≤ b) (hb' : b ≤ 64) (hin : (valueOf values roles.input).Proper)
    (h : factors p g c b roles values = .ok f) {s : Bool} {a : Tensor}
    (ha : Tensor.ofMatrix .inp roles.input (valueOf values roles.input) c.inp b (!s) = .ok a) :
    factors { p with nonSquareInput := s } g c b roles values = .ok { f with a } := by
  obtain ⟨cols, name, hfa, hw, hs, hshape, hx⟩ := factors_ok.1 h
  obtain ⟨hcols, hblocks⟩ := ofMatrix_cols hb hb' hin hfa ha
  rw [← weightOf_congr hcols hblocks] at hw
  exact factors_ok.2 ⟨cols, name, ha, hw, hs, hshape, hx⟩

theorem operands_flag (hc : c.Sound b) (hin : (valueOf values roles.input).Proper)
    (hwgt : g.constant = false → (valueOf values roles.weight).Proper)
    (h : factors p g c b roles values = .ok f) {s : Bool} {a : Tensor}
    (ha : Tensor.ofMatrix .inp roles.input (valueOf values roles.input) c.inp b (!s) = .ok a)
    {o : Operands} (ho : f.operands g c b mulAdd = .ok o) :
    ({ f with a } : Factors).operands g c b mulAdd = .ok { o with a := some a } := by
  have hflag := factors_flag hc.pos hc.le hin h ha
  obtain ⟨m, xr, xc, hreg, hm, hfill, hcells⟩ := Factors.mulAdd_ok hc hin hwgt h
  obtain ⟨m', xr', xc', hreg', hm', hfill', hcells'⟩ := Factors.mulAdd_ok hc hin hwgt hflag
  obtain rfl : xr' = xr := by exact_mod_cast hreg'.blockRows.symm.trans hreg.blockRows
  obtain rfl : xc' = xc := by exact_mod_cast hreg'.blockCols.symm.trans hreg.blockCols
  obtain rfl : m' = m := hfill'.ext hfill fun i hi j hj => by
    rw [hcells' i hi j hj, hcells i hi j hj]
  unfold Factors.operands at ho ⊢
  rw [hm] at ho
  rw [hm']
  simp only [Outcome.bind_eq_ok, Outcome.pure_eq_ok] at ho ⊢
  obtain ⟨product, hproduct, blocks, hblocks, acc, hacc, rfl⟩ := ho
  exact ⟨product, hproduct, blocks, hblocks, acc, hacc, rfl⟩

theorem finish_flag {o : Operands} {d : Shaped} (h : finish p c b o = .ok d) (s : Bool)
    (a : Option Tensor) :
    finish { p with nonSquareInput := s } c b { o with a } = .ok { d with a } := by
  unfold finish at h ⊢
  simp only [Outcome.bind_eq_ok, Outcome.pure_eq_ok] at h ⊢
  obtain ⟨ops, hops, final, hfinal, output, hout, rfl⟩ := h
  exact ⟨ops, hops, final, hfinal, output, hout, by simp only⟩

theorem Valued.flag (h : Valued p c roles b values) (s : Bool) :
    Valued { p with nonSquareInput := s } c roles b values :=
  ⟨h.config, h.program, h.named, h.block, h.valued⟩

/-- **The same program with the rows of its input not padded**: only the input changes. -/
theorem build_unpadded {d : Shaped} (hword : p.WordSized) (hg : p.gemm = some g)
    (h : build p c = .ok d) :
    (∃ a, build { p with nonSquareInput := true } c = .ok { d with a := some a }) ∧
      ∀ s d', build { p with nonSquareInput := s } c = .ok d' → d' = { d with a := d'.a } := by
  obtain ⟨roles, b, values, f, o, hv, hf, ho, hd⟩ := (build_gemm_ok hg).1 h
  have hc := hv.sound
  obtain ⟨hin, hwgt⟩ := hv.factors_proper hword hg
  -- any other input tensor of the same matrix
  have hvariant : ∀ s a, Tensor.ofMatrix .inp roles.input (valueOf values roles.input) c.inp b (!s) =
      .ok a → build { p with nonSquareInput := s } c = .ok { d with a := some a } := by
    intro s a ha
    refine (build_gemm_ok (p := { p with nonSquareInput := s }) hg).2 ⟨roles, b, values, { f with a },
      { o with a := some a }, hv.flag s, factors_flag hc.pos hc.le hin hf ha, ?_,
      finish_flag hd s (some a)⟩
    exact operands_flag hc hin hwgt hf ha ho
  obtain ⟨-, -, hfa, -⟩ := factors_ok.1 hf
  constructor
  · cases hflag : p.nonSquareInput with
    | true => exact ⟨f.a, hvariant true f.a (by rwa [hflag] at hfa)⟩
    | false =>
      rw [hflag] at hfa
      obtain ⟨a, ha⟩ := ofMatrix_unpadded hc.pos hc.le hin hfa
      exact ⟨a, hvariant true a ha⟩
  · intro s d' h'
    obtain ⟨roles', b', values', f', o', hv', hf', ho', hd'⟩ :=
      (build_gemm_ok (p := { p with nonSquareInput := s }) hg).1 h'
    obtain rfl := Except.ok.inj (hv'.named.symm.trans hv.named)
    obtain rfl : b' = b := Int.ofNat_inj.1 (Except.ok.inj (hv'.block.symm.trans hv.block))
    obtain rfl := Except.ok.inj (hv'.valued.symm.trans hv.valued)
    obtain ⟨-, -, ha, -⟩ := factors_ok.1 hf'
    rw [hvariant s f'.a ha] at h'
    rw [← Except.ok.inj h']

/-- **The same program, multiplied out by some workers** in an order of theirs. -/
theorem build_mulAddIn (hword : p.WordSized) (hg : p.gemm = some g) {w : Option Workers}
    (hw : ∀ x ∈ w, 0 < x.count) {order : Int → Int → Int → List Term}
    (horder : ∀ r n c, (order r n c).Perm (Workers.terms w r n c)) :
    build p c (mulAddIn order) = build p c := by
  rw [build_eq, build_eq]
  simp only [operandsOf, hg, bind_assoc]
  refine Outcome.bind_congr fun _ hvalid => Outcome.bind_congr fun _ hp =>
    Outcome.bind_congr fun roles hr => Outcome.bind_congr fun b hb =>
    Outcome.bind_congr fun values hvalues => Outcome.bind_congr fun f hf => ?_
  obtain ⟨b, hc, -⟩ := Config.validate_sound hvalid
  obtain rfl := Except.ok.inj (hb.symm.trans hc.block)
  obtain ⟨hin, hwgt⟩ := Valued.factors_proper ⟨hvalid, hp, hr, hb, hvalues⟩ hword hg
  obtain ⟨ar, ac, xr, xc, hafill, hffill, hxreg, hxrows, har⟩ :=
    Factors.filled hc.pos hc.le hin hwgt hf
  unfold Factors.operands
  rw [mulAddIn_eq hafill hffill (hxreg.filled_rows hxrows) har hc.acc hw horder]

end Variants

/-- The row of the matrix that vector `v` is a part of. -/
def rowOf (d : Shaped) (v : Nat) : Nat :=
  v / d.b.toNat / d.x.blockCols.toNat * d.b.toNat + v % d.b.toNat

/-- The column of the matrix in which entry `e` of vector `v` stands. -/
def colOf (d : Shaped) (v e : Nat) : Nat :=
  v / d.b.toNat % d.x.blockCols.toNat * d.b.toNat + e

section Vectors

variable {p : Program} {g : Gemm} {c : Config} {b xr xc : Nat} {roles : Roles}
  {values : List (String × Matrix)} {d : Shaped} {f : Factors}

/-- An entry of a stack of vectors. -/
theorem get_rowsOf {m : Matrix} {n v e : Nat} (hcols : m.cols = b) (hsize : m.data.size = n * b)
    (hsmall : n * b < 4611686018427387904) (hv : v < n) (he : e < b) :
    m.get v e = .ok ((rowsOf m.data b v).getD e 0) := by
  have hle := row_room b (show v < n by omega)
  unfold Matrix.get Matrix.index
  rw [hcols, show (v : Int) * b = ((v * b : Nat) : Int) by push_cast; rfl,
    wrap64_small (x := ((v * b : Nat) : Int)) (by omega) (by omega),
    show ((v * b : Nat) : Int) + e = ((v * b + e : Nat) : Int) by push_cast; rfl,
    wrap64_small (by omega) (by omega), entry_eq_ok, Int.toNat_natCast]
  refine ⟨by omega, ?_⟩
  rw [getD_rowsOf m.data v he, Array.getD_eq_getD_getElem?, Array.getElem?_eq_getElem (by omega),
    Option.getD_some]

/-- Every entry of a matrix of blocks has a place in a vector. -/
theorem place_surjective (hb : 1 ≤ b) {i j : Nat} (hi : i < xr * b) (hj : j < xc * b) :
    (i / b * xc + j / b) * b + i % b < xr * xc * b ∧
      ((i / b * xc + j / b) * b + i % b) / b = i / b * xc + j / b ∧
      ((i / b * xc + j / b) * b + i % b) % b = i % b ∧
      (i / b * xc + j / b) / xc = i / b ∧ (i / b * xc + j / b) % xc = j / b := by
  have hr : i % b < b := Nat.mod_lt _ hb
  have hi' : i / b < xr := Nat.div_lt_of_lt_mul (by rwa [Nat.mul_comm])
  have hj' : j / b < xc := Nat.div_lt_of_lt_mul (by rwa [Nat.mul_comm])
  exact ⟨index_lt (index_lt hi' hj') hr, row_of_index hr, Nat.mul_add_mod_of_lt hr,
    row_of_index hj', Nat.mul_add_mod_of_lt hj'⟩

/-- **The accumulator after a product**, entry by entry; operations keep its shape. -/
theorem Common.product_cells (hcommon : d.Common p c b xr xc) (hc : c.Sound b) (hform : d.form ≠ .add)
    (hin : (valueOf values roles.input).Proper)
    (hwgt : g.constant = false → (valueOf values roles.weight).Proper)
    (hf : factors p g c b roles values = .ok f) (hx : d.x = f.x) (hy : d.y = none)
    (hacc : ∃ product blocks br bc, mulAdd f.a.padded f.factor f.x.padded c.acc = .ok product ∧
      product.split b = .ok (blocks, br, bc) ∧ stack blocks b = .ok d.acc) :
    d.final.cols = b ∧ d.final.data.size = xr * xc * b * b ∧ ∀ v < xr * xc * b, ∀ e < b,
      d.acc.get v e = .ok (c.acc.wrapped (if InProduct g roles values (d.rowOf v) (d.colOf v e) then
        productCell g roles values (d.rowOf v) (d.colOf v e) else 0)) := by
  obtain ⟨ar, ac, xr', xc', hafill, hffill, hxreg, -, har⟩ := Factors.filled hc.pos hc.le hin hwgt hf
  rw [← hx] at hxreg hacc
  obtain rfl : xr' = xr := by exact_mod_cast hxreg.blockRows.symm.trans hcommon.x_regular.blockRows
  obtain rfl : xc' = xc := by exact_mod_cast hxreg.blockCols.symm.trans hcommon.x_regular.blockCols
  obtain ⟨hcols, hsize, hrows⟩ := hcommon.product_rows hc hy hafill hffill har hacc
  have hsmall := hxreg.vectors_small hcommon.x_rows
  obtain ⟨hfcols, hfsize, -⟩ := runOps_run hcols hsize (by omega)
    (fun r hr => hcommon.onVectors_of_ne hform hr) le_rfl le_rfl hcommon.final
  refine ⟨hfcols, hfsize, fun v hv e he => ?_⟩
  have hplace := place_lt hc.pos hxreg.cols_pos hv he
  rw [get_rowsOf hcols hsize (by omega) hv he, hrows, if_pos ⟨by omega, by omega⟩,
    List.getD_eq_getElem?_getD, List.getElem?_map, List.getElem?_range he, Option.map_some,
    Option.getD_some, hcommon.initial_cell hc.pos hy hv he, Int.toNat_natCast, hx,
    Factors.cell hc.pos hc.le hin hwgt hf]
  · unfold rowOf colOf
    rw [hcommon.side, hxreg.blockCols, Int.toNat_natCast, Int.toNat_natCast]
  · rw [← hx, hxreg.cols, Int.toNat_natCast]
    exact hplace.2

/-- An entry of pieces of one length, put behind each other. -/
theorem getElem?_pieces {α : Type} {size n r e : Nat} {g : Nat → List α}
    (hg : ∀ r < n, (g r).length = size) (hr : r < n) (he : e < size) :
    ((List.range n).flatMap g)[r * size + e]? = (g r)[e]? := by
  induction n with
  | zero => omega
  | succ n ih =>
    have hlen := length_pieces fun r hr => hg r (Nat.lt_succ_of_lt hr)
    rw [List.range_succ, List.flatMap_append, List.flatMap_singleton]
    rcases Nat.lt_succ_iff_lt_or_eq.1 hr with hlt | rfl
    · have hle := row_room size (show r < n by omega)
      rw [List.getElem?_append_left (by rw [hlen]; omega),
        ih (fun r hr => hg r (Nat.lt_succ_of_lt hr)) hlt]
    · rw [List.getElem?_append_right (by rw [hlen]; omega), hlen, Nat.add_sub_cancel_left]

/-- An entry of a block of the result. -/
theorem isResult_cell {k : Block} {final : Int → Row} {narrow : Int → Int} {n r e : Nat}
    (h : k.IsResult b final narrow n) (hfinal : ∀ v, (final v).length = b) (hr : r < b) (he : e < b) :
    k.cell b r e = narrow ((final ((n * b + r : Nat) : Int)).getD e 0) := by
  rw [Block.cell, Array.getD_eq_getD_getElem?, ← Array.getElem?_toList, h.data,
    getElem?_pieces (fun r _ => by rw [List.length_map, hfinal]) hr he, List.getElem?_map,
    List.getD_eq_getElem?_getD,
    List.getElem?_eq_getElem (show e < (final ((n * b + r : Nat) : Int)).length by rwa [hfinal])]
  rfl

theorem outputTensor_shape {clip : Bool} {x t : Tensor} {final : Matrix}
    (h : outputTensor c b clip x final = .ok t) :
    t.rows = x.rows ∧ t.cols = x.cols ∧ t.b = b ∧ t.blockCols = x.blockCols := by
  unfold outputTensor at h
  simp only [Outcome.bind_eq_ok, Outcome.pure_eq_ok] at h
  obtain ⟨data, -, narrowed, -, blocks, -, padded, -, rfl⟩ := h
  exact ⟨rfl, rfl, rfl, rfl⟩

/-- **The result without its padding** is the final stack, narrowed. -/
theorem Common.unpadded_cells (hcommon : d.Common p c b xr xc) (hc : c.Sound b) {R C : Nat}
    (hR : d.x.rows = R) (hC : d.x.cols = C) (hRle : R ≤ xr * b) (hCle : C ≤ xc * b)
    (hcols : d.final.cols = b) (hsize : d.final.data.size = xr * xc * b * b) :
    ∃ u, d.c.unpadded = .ok u ∧ u.rows = R ∧ u.cols = C ∧ ∀ v < xr * xc * b, ∀ e < b,
      d.rowOf v < R → d.colOf v e < C → ∃ z, d.final.get v e = .ok z ∧
        u.get (d.rowOf v) (d.colOf v e) = .ok (c.out.narrowed p.clip z) := by
  have hb := hc.pos
  have hxc := hcommon.x_regular.cols_pos
  have hsmall := hcommon.x_regular.vectors_small hcommon.x_rows
  obtain ⟨hrows', hcols', hside, hbc⟩ := outputTensor_shape hcommon.output
  obtain ⟨-, hlen, hblocks⟩ := hcommon.output_blocks hc
  have htable : R * C ≤ 35184372088832 := by
    have := Nat.mul_le_mul hRle hCle
    rw [show xr * b * (xc * b) = xr * xc * b * b by ring] at this
    omega
  have hcount : xr * xc ≤ xr * xc * b * b := by
    rw [Nat.mul_assoc]
    exact Nat.le_mul_of_pos_right _ (Nat.mul_pos hb hb)
  obtain ⟨u, hu, hfill, hcells⟩ := unsplit_cells hb hxc hCle
    (fun k hk => (hcommon.output_full hc k hk).within hc.le)
    (by rw [Array.length_toList, hlen]; omega) htable
  refine ⟨u, ?_, hfill.rows, hfill.cols, fun v hv e he hi hj => ?_⟩
  · unfold Tensor.unpadded
    rw [hbc, hside, hrows', hcols', hR, hC, hcommon.x_regular.blockCols]
    exact hu
  refine ⟨_, get_rowsOf hcols hsize (by omega) hv he, ?_⟩
  have hn : v / b < xr * xc := Nat.div_lt_of_lt_mul (by rwa [Nat.mul_comm])
  have hr : v % b < b := Nat.mod_lt _ hb
  have hrow : d.rowOf v = v / b / xc * b + v % b := by
    unfold rowOf
    rw [hcommon.side, hcommon.x_regular.blockCols, Int.toNat_natCast, Int.toNat_natCast]
  have hcol : d.colOf v e = v / b % xc * b + e := by
    unfold colOf
    rw [hcommon.side, hcommon.x_regular.blockCols, Int.toNat_natCast, Int.toNat_natCast]
  have hget := get_rowsOf hfill.cols hfill.size hfill.small hi hj
  rw [getD_rowsOf u.data _ hj, ← hfill.cell, hcells _ hi _ hj] at hget
  -- the place of the entry names its block and its place there
  have hplace : (v / b / xc * b + v % b) / b * xc + (v / b % xc * b + e) / b = v / b := by
    rw [row_of_index hr, row_of_index he]
    exact Nat.div_add_mod' _ _
  have hmod : (v / b / xc * b + v % b) % b = v % b ∧ (v / b % xc * b + e) % b = e :=
    ⟨Nat.mul_add_mod_of_lt hr, Nat.mul_add_mod_of_lt he⟩
  have hblock : v / b < d.c.blocks.size := by rwa [hlen]
  rw [hget, hrow, hcol, hplace, hmod.1, hmod.2, Array.length_toList, if_pos hblock,
    List.getD_eq_getElem?_getD, Array.getElem?_toList, Array.getElem?_eq_getElem hblock,
    Option.getD_some, isResult_cell (hblocks _ _ (Array.getElem?_eq_getElem hblock))
      (fun _ => length_rowsOf _ _ _) hr he, Nat.mul_comm, Nat.div_add_mod]

end Vectors

/-- **Padding, blocks and workers do not show in a product.** -/
structure Transparent (d : Shaped) (p : Program) (c : Config) (g : Gemm) (roles : Roles)
    (values : List (String × Matrix)) : Prop where
  /-- The accumulator holds the product as declared, and zeros around it. -/
  acc : ∀ v e : Nat, (v : Int) < d.vectors → (e : Int) < d.b → d.acc.get v e = .ok
    (if InProduct g roles values (d.rowOf v) (d.colOf v e) then
      c.acc.wrapped (productCell g roles values (d.rowOf v) (d.colOf v e)) else 0)
  /-- Every entry of the product has a place in a vector. -/
  placed : ∀ i j : Nat, InProduct g roles values i j →
    ∃ v e : Nat, (v : Int) < d.vectors ∧ (e : Int) < d.b ∧ d.rowOf v = i ∧ d.colOf v e = j
  /-- The output without its padding has the shape of the product, and its entries are those of
  the final stack, narrowed. -/
  output : ∃ u, d.c.unpadded = .ok u ∧ u.rows = (valueOf values roles.input).rows ∧
    u.cols = productCols g roles values ∧ ∀ v e : Nat, (v : Int) < d.vectors → (e : Int) < d.b →
      InProduct g roles values (d.rowOf v) (d.colOf v e) → ∃ z, d.final.get v e = .ok z ∧
        u.get (d.rowOf v) (d.colOf v e) = .ok (c.out.narrowed p.clip z)
  /-- The program can be shaped without padding the rows of its input, and whether they are
  padded changes the input alone. -/
  square : (∃ a, build { p with nonSquareInput := true } c = .ok { d with a := some a }) ∧
    ∀ s d', build { p with nonSquareInput := s } c = .ok d' → d' = { d with a := d'.a }
  /-- Whoever adds the terms, and in whatever order, nothing changes. -/
  pooled : ∀ (w : Option Workers) (order : Int → Int → Int → List Term), (∀ x ∈ w, 0 < x.count) →
    (∀ r n c, (order r n c).Perm (Workers.terms w r n c)) → build p c (mulAddIn order) = .ok d

/-- **Every product is transparent.** -/
theorem product_transparent {p : Program} {c : Config} {g : Gemm} {d : Shaped}
    (hword : p.WordSized) (hg : p.gemm = some g) (h : build p c = .ok d) :
    ∃ roles values, p.roles = .ok roles ∧ materialise p c roles = .ok values ∧
      d.Transparent p c g roles values := by
  obtain ⟨roles, b, values, f, o, hv, hf, ho, hd⟩ := (build_gemm_ok hg).1 h
  have hc := hv.sound
  obtain ⟨hin, hwgt⟩ := hv.factors_proper hword hg
  obtain ⟨b', xr, xc, hc', hcommon, -⟩ := build_formed hword h
  obtain rfl : b' = b := Int.ofNat_inj.1 (Except.ok.inj (hc'.block.symm.trans hc.block))
  obtain ⟨hx, hy, hacc⟩ : d.x = f.x ∧ d.y = none ∧ ∃ product blocks br bc,
      mulAdd f.a.padded f.factor f.x.padded c.acc = .ok product ∧
      product.split b' = .ok (blocks, br, bc) ∧ stack blocks b' = .ok d.acc := by
    unfold finish at hd
    unfold Factors.operands at ho
    simp only [Outcome.bind_eq_ok, Outcome.within_eq_ok, Outcome.pure_eq_ok] at hd ho
    obtain ⟨product, hproduct, ⟨blocks, br, bc⟩, hsplit, acc, hstack, rfl⟩ := ho
    obtain ⟨ops, -, final, -, output, -, rfl⟩ := hd
    exact ⟨rfl, rfl, product, blocks, br, bc, hproduct, hsplit, hstack⟩
  have hvectors : d.vectors = (xr * xc * b' : Nat) := by
    unfold Shaped.vectors Tensor.size
    rw [hcommon.side, hcommon.x_regular.size]
    push_cast
    rfl
  have hform : d.form ≠ .add := by
    rw [build_form h, hg]
    simp only
    split <;> simp
  obtain ⟨hfcols, hfsize, hcells⟩ := hcommon.product_cells hc hform hin hwgt hf hx hy hacc
  have hb := hc.pos
  have hreg := hcommon.x_regular
  have hshape := Factors.shape hc.pos hc.le hin hwgt hf (hx ▸ hreg)
  rw [← hx] at hshape
  obtain ⟨hrows, hcols, hRle, hCle⟩ := hshape
  obtain ⟨R, hR⟩ : ∃ R : Nat, d.x.rows = R := ⟨d.x.rows.toNat, by omega⟩
  obtain ⟨C, hC⟩ : ∃ C : Nat, d.x.cols = C := ⟨d.x.cols.toNat, by omega⟩
  obtain ⟨u, hu, hurows, hucols, hucells⟩ := hcommon.unpadded_cells hc hR hC
    (by omega) (by omega) hfcols hfsize
  refine ⟨roles, values, hv.named, hv.valued, ?_, ?_, ?_, build_unpadded hword hg h, ?_⟩
  · intro v e hv he
    rw [hvectors] at hv
    rw [hcommon.side] at he
    rw [hcells v (by omega) e (by omega), apply_ite c.acc.wrapped]
    simp [Scalar.wrapped]
  · rintro i j ⟨hi, hj⟩
    have hi : i < xr * b' := by omega
    have hj : j < xc * b' := by omega
    obtain ⟨h1, h2, h3, h4, h5⟩ := place_surjective hb hi hj
    have hjb : j % b' < b' := Nat.mod_lt _ hb
    refine ⟨(i / b' * xc + j / b') * b' + i % b', j % b', by omega, by rw [hcommon.side]; omega, ?_, ?_⟩
    · unfold rowOf
      rw [hcommon.side, hreg.blockCols, Int.toNat_natCast, Int.toNat_natCast, h2, h3, h4,
        Nat.mul_comm, Nat.div_add_mod]
    · unfold colOf
      rw [hcommon.side, hreg.blockCols, Int.toNat_natCast, Int.toNat_natCast, h2, h5,
        Nat.mul_comm, Nat.div_add_mod]
  · refine ⟨u, hu, by rw [hurows, ← hR, hrows], by rw [hucols, ← hC, hcols], ?_⟩
    intro v e hv he hin
    rw [hvectors] at hv
    rw [hcommon.side] at he
    exact hucells v (by omega) e (by omega) (by have := hin.1; omega) (by have := hin.2; omega)
  · intro w order hw horder
    rw [build_mulAddIn hword hg hw horder, h]

end Shaped

/-- Blocks of side two, and sums of eight bits. -/
def Config.shortSums : Config := ⟨3, 3, 3, 1, 2, 3, 4, 2⟩

/-- A product whose rows do not fill its blocks and whose sums do not fit. -/
def Program.ragged : Program where
  name := ""
  matrices := [⟨"INPUT", 3, 2, some ⟨3, 2, #[100, 1, 2, 3, 4, 5]⟩⟩,
    ⟨"WEIGHT", 2, 1, some ⟨2, 1, #[2, 7]⟩⟩, ⟨"ACCUMULATOR", 3, 1, some ⟨3, 1, #[0, -1, 100]⟩⟩]
  gemm := some { input := "INPUT", weight := "WEIGHT", accumulator := "ACCUMULATOR" }

/-- The values of its matrices. -/
def raggedValues : List (String × Matrix) := [("ACCUMULATOR", ⟨3, 1, #[0, -1, 100]⟩),
  ("WEIGHT", ⟨2, 1, #[2, 7]⟩), ("INPUT", ⟨3, 2, #[100, 1, 2, 3, 4, 5]⟩)]

set_option maxRecDepth 100000 in
theorem ragged_built : (do
    let d ← Shaped.build .ragged .shortSums
    let roles ← Program.ragged.roles
    let values ← Shaped.materialise .ragged .shortSums roles
    return d.vectors = 4 ∧ d.b = 2 ∧ d.x.blockCols = 1 ∧
      roles = ⟨"INPUT", "WEIGHT", "ACCUMULATOR", ""⟩ ∧ values = raggedValues : Outcome Bool) =
      .ok true := by
  decide +kernel

/-- The last row of a product stands alone in its block, and its sum has wrapped around. -/
theorem ragged_transparent : ∃ d a, Program.ragged.WordSized ∧
    Shaped.build .ragged .shortSums = .ok d ∧ d.acc.get 2 0 = .ok (-113) ∧ d.acc.get 3 0 = .ok 0 ∧
    (∃ u, d.c.unpadded = .ok u ∧ u.rows = 3 ∧ u.cols = 1) ∧
    Shaped.build { Program.ragged with nonSquareInput := true } .shortSums =
      .ok { d with a := some a } := by
  obtain ⟨d, hd, h⟩ := Outcome.bind_eq_ok.1 ragged_built
  obtain ⟨roles, hroles, h⟩ := Outcome.bind_eq_ok.1 h
  obtain ⟨values, hvalues, h⟩ := Outcome.bind_eq_ok.1 h
  obtain ⟨hvectors, hb, hcols, rfl, rfl⟩ := of_decide_eq_true (Outcome.pure_eq_ok.1 h)
  have hword : Program.ragged.WordSized := by decide +kernel
  obtain ⟨roles', values', hroles', hvalues', ht⟩ := Shaped.product_transparent hword rfl hd
  obtain rfl := Except.ok.inj (hroles'.symm.trans hroles)
  obtain rfl := Except.ok.inj (hvalues'.symm.trans hvalues)
  obtain ⟨u, hu, hurows, hucols, -⟩ := ht.output
  obtain ⟨⟨a, ha⟩, -⟩ := ht.square
  have hrow : ∀ v, d.rowOf v = v / 2 / 1 * 2 + v % 2 := fun v => by
    unfold Shaped.rowOf
    rw [hb, hcols]
    rfl
  have hcol : ∀ v e, d.colOf v e = v / 2 % 1 * 2 + e := fun v e => by
    unfold Shaped.colOf
    rw [hb, hcols]
    rfl
  refine ⟨d, a, hword, hd, ?_, ?_, ⟨u, hu, by rw [hurows]; decide, by rw [hucols]; decide⟩, ha⟩
  · have := ht.acc 2 0 (by omega) (by omega)
    rw [hrow, hcol] at this
    exact this.trans (by decide)
  · have := ht.acc 3 0 (by omega) (by omega)
    rw [hrow, hcol] at this
    exact this.trans (by decide)

end Tessera
