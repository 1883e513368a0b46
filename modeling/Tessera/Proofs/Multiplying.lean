import Tessera.Proofs.Allocation

/-!
# The product of matrices, entry by entry

* `Matrix.Filled`: a matrix whose table is as large as its shape says.
* `Matrix.dot`: an entry of the product of two matrices.
* `mulAdd_cells`: the sum of a matrix and a product, brought into a scalar type.
* `sum_blocks`: a sum along the inner dimension, block by block.
* `dot_diagonal`: the product with a diagonal matrix.
* `Shaped.Common.product_rows`: the accumulator after a product, vector by vector.
-/

namespace Tessera

/-- A matrix of the given shape, whose table is full and not too large. -/
structure Matrix.Filled (m : Matrix) (r c : Nat) : Prop where
  rows : m.rows = r
  cols : m.cols = c
  size : m.data.size = r * c
  small : r * c < 4611686018427387904

/-- Entry `(i, j)` of the product of two matrices. -/
def Matrix.dot (a w : Matrix) (i j : Nat) : Int :=
  ((List.range a.cols.toNat).map fun p => a.cell i p * w.cell p j).sum

/-- A row that is cut out of a table. -/
theorem extract_row {data : Array Int} {r c i : Nat} (hsize : data.size = r * c) (hi : i < r) :
    (data.extract (i * c) ((i + 1) * c)).size = c ∧
      ∀ j < c, (data.extract (i * c) ((i + 1) * c)).getD j 0 = data.getD (i * c + j) 0 := by
  have hle := row_room c hi
  rw [Nat.succ_mul]
  refine ⟨?_, fun j hj => ?_⟩
  · rw [Array.size_extract, hsize, Nat.min_eq_left hle]
    omega
  · rw [Array.getD_eq_getD_getElem?, Array.getElem?_extract, hsize, Nat.min_eq_left hle,
      if_pos (by omega), ← Array.getD_eq_getD_getElem?]

section Filled

variable {m : Matrix} {r c : Nat}

theorem Matrix.Filled.cell (h : m.Filled r c) (i j : Nat) :
    m.cell i j = m.data.getD (i * c + j) 0 := by
  rw [Matrix.cell, h.cols, Int.toNat_natCast]

/-- Below the last row there are zeros. -/
theorem Matrix.Filled.cell_below (h : m.Filled r c) {i : Nat} (hi : r ≤ i) (j : Nat) :
    m.cell i j = 0 := by
  have := Nat.mul_le_mul_right c hi
  rw [h.cell, Array.getD_eq_getD_getElem?, Array.getElem?_eq_none (by rw [h.size]; omega)]
  rfl

theorem Matrix.Filled.dot_below {w : Matrix} (h : m.Filled r c) {i : Nat} (hi : r ≤ i)
    (j : Nat) : m.dot w i j = 0 := by
  unfold Matrix.dot
  refine List.sum_eq_zero fun v hv => ?_
  obtain ⟨p, -, rfl⟩ := List.mem_map.1 hv
  rw [h.cell_below hi, zero_mul]

/-- A row of a filled matrix. -/
theorem Matrix.Filled.row (h : m.Filled r c) {i : Nat} (hi : i < r) :
    ∃ row, m.row i = .ok row ∧ row.size = c ∧ ∀ j < c, row.getD j 0 = m.cell i j := by
  have hsmall := h.small
  unfold Matrix.row
  rw [h.cols, slice_row h.size (by omega) (by omega) (by omega), Int.toNat_natCast]
  obtain ⟨hsize, hcells⟩ := extract_row h.size hi
  refine ⟨_, rfl, hsize, fun j hj => ?_⟩
  rw [h.cell, hcells j hj]

/-- A matrix with new entries, each a function of an entry of a table. -/
theorem Matrix.Filled.mapped (h : m.Filled r c) (f : Int → Int) {data : Array Int}
    (hsize : data.size = r * c) :
    Matrix.Filled { m with data := data.map f } r c ∧ ∀ i < r, ∀ j < c,
      Matrix.cell { m with data := data.map f } i j = f (data.getD (i * c + j) 0) := by
  have hfilled : Matrix.Filled { m with data := data.map f } r c :=
    ⟨h.rows, h.cols, by simpa using hsize, h.small⟩
  refine ⟨hfilled, fun i hi j hj => ?_⟩
  have hin : i * c + j < data.size := hsize ▸ index_lt hi hj
  rw [hfilled.cell, Array.getD_eq_getD_getElem?, Array.getD_eq_getD_getElem?, Array.getElem?_map,
    Array.getElem?_eq_getElem hin, Option.map_some, Option.getD_some, Option.getD_some]

/-- Matrices of one shape with the same entries are equal. -/
theorem Matrix.Filled.ext {m' : Matrix} (h : m.Filled r c) (h' : m'.Filled r c)
    (hcells : ∀ i < r, ∀ j < c, m.cell i j = m'.cell i j) : m = m' := by
  obtain ⟨rows, cols, data⟩ := m
  obtain ⟨rows', cols', data'⟩ := m'
  obtain rfl : rows = rows' := h.rows.trans h'.rows.symm
  obtain rfl : cols = cols' := h.cols.trans h'.cols.symm
  congr 1
  refine Array.ext (h.size.trans h'.size.symm) fun k hk hk' => ?_
  have hsize : data.size = r * c := h.size
  have hc : 0 < c := by
    refine Nat.pos_of_ne_zero fun h0 => ?_
    rw [h0, Nat.mul_zero] at hsize
    omega
  have hcell := hcells (k / c) (Nat.div_lt_of_lt_mul (by rw [Nat.mul_comm]; omega)) (k % c)
    (Nat.mod_lt _ hc)
  rw [h.cell, h'.cell, Nat.mul_comm, Nat.div_add_mod] at hcell
  simpa [Array.getD_eq_getD_getElem?, Array.getElem?_eq_getElem hk,
    Array.getElem?_eq_getElem hk'] using hcell

end Filled

theorem sum_range_succ (f : Nat → Int) (n : Nat) :
    ((List.range (n + 1)).map f).sum = ((List.range n).map f).sum + f n := by
  rw [List.range_succ, List.map_append, List.sum_append]
  simp

/-- A table to which a multiple of another was added. -/
theorem getD_zipWith {row other : Array Int} {n : Nat} (hrow : row.size = n) (hother : other.size = n)
    (factor : Int) {j : Nat} (hj : j < n) :
    (Array.zipWith (fun d v => d + factor * v) row other).getD j 0 =
      row.getD j 0 + factor * other.getD j 0 := by
  simp only [Array.getD_eq_getD_getElem?, Array.getElem?_zipWith,
    Array.getElem?_eq_getElem (show j < row.size by omega),
    Array.getElem?_eq_getElem (show j < other.size by omega), Option.getD_some]

section MulAdd

variable {a w x m : Matrix} {acc : Scalar} {ar ac xr xc : Nat}

/-- **One row of a product, added to a row.** -/
theorem addRow_cells (ha : a.Filled ar ac) (hw : w.Filled ac xc) {i : Nat}
    (hi : i < ar) {row out : Array Int} (hrow : row.size = xc) (h : addRow a w i row = .ok out) :
    out.size = xc ∧ ∀ j < xc, out.getD j 0 = row.getD j 0 + a.dot w i j := by
  unfold addRow at h
  have hle := row_room ac (show i < ar by omega)
  have hsmall := ha.small
  -- the products with the first `p` entries of the row of `a`
  have := loopBelow_invariant (fun p (out : Array Int) => out.size = xc ∧ ∀ j < xc, out.getD j 0 =
    row.getD j 0 + ((List.range p).map fun p => a.cell i p * w.cell p j).sum) ?_ ?_ h
  · unfold Matrix.dot
    exact this
  · intro p out out' hp hP hf
    rw [ha.cols] at hp hf
    obtain ⟨factor, hfactor, hf⟩ := Outcome.bind_eq_ok.1 hf
    have hcell : factor = a.cell i p := by
      have hindex : (i : Int) * ac + p = ((i * ac + p : Nat) : Int) := by push_cast; rfl
      rw [hindex, wrap64_small (by omega) (by omega)] at hfactor
      obtain ⟨-, hfactor⟩ := entry_eq_ok.1 hfactor
      rw [Int.toNat_natCast] at hfactor
      rw [ha.cell, Array.getD_eq_getD_getElem?, hfactor]
      rfl
    by_cases hzero : factor = 0
    · rw [if_pos hzero] at hf
      obtain rfl := Outcome.pure_eq_ok.1 hf
      refine ⟨hP.1, fun j hj => ?_⟩
      rw [hP.2 j hj, sum_range_succ, ← hcell, hzero, zero_mul, add_zero]
    · rw [if_neg hzero] at hf
      obtain ⟨other, hother, hf⟩ := Outcome.bind_eq_ok.1 hf
      obtain ⟨other', hother', hsize, hcells⟩ := hw.row (show p < ac by omega)
      obtain rfl := Except.ok.inj (hother.symm.trans hother')
      obtain rfl := Outcome.pure_eq_ok.1 hf
      refine ⟨by rw [Array.size_zipWith, hP.1, hsize, Nat.min_self], fun j hj => ?_⟩
      rw [getD_zipWith hP.1 hsize factor hj, hP.2 j hj, hcells j hj, sum_range_succ, hcell, add_assoc]
  · exact ⟨hrow, fun j _ => by simp⟩

/-- **The sum of a matrix and a product**, entry by entry. -/
theorem mulAdd_cells (ha : a.Filled ar ac) (hw : w.Filled ac xc) (hx : x.Filled xr xc)
    (har : ar ≤ xr) (hacc : acc.Supported) (h : mulAdd a w x acc = .ok m) :
    m.Filled xr xc ∧ ∀ i < xr, ∀ j < xc, m.cell i j = acc.wrapped (x.cell i j + a.dot w i j) := by
  unfold mulAdd at h
  simp only [Outcome.complained_eq_ok] at h
  obtain ⟨-, -, h⟩ := h
  obtain ⟨data, hdata, h⟩ := Outcome.bind_eq_ok.1 h
  rw [hacc.wrapAll] at h
  obtain rfl := Outcome.pure_eq_ok.1 h
  -- the first `k` rows are done
  have := loopBelow_invariant (fun k (data : Array Int) => data.size = xr * xc ∧ ∀ i < xr, ∀ j < xc,
    data.getD (i * xc + j) 0 = x.cell i j + if i < k then a.dot w i j else 0) ?_ ?_ hdata
  · obtain ⟨hsize, hcells⟩ := this
    obtain ⟨hfilled, hmapped⟩ := hx.mapped acc.wrapped hsize
    refine ⟨hfilled, fun i hi j hj => ?_⟩
    rw [hmapped i hi j hj, hcells i hi j hj, ha.rows, Int.toNat_natCast]
    by_cases hlt : i < ar
    · rw [if_pos hlt]
    · rw [if_neg hlt, ha.dot_below (by omega)]
  · intro k data data' hk hP hf
    rw [ha.rows] at hk
    rw [hw.cols] at hf
    obtain ⟨row, hrow, hadd⟩ := Outcome.bind_eq_ok.1 hf
    obtain ⟨out, hout, hwrite⟩ := Outcome.bind_eq_ok.1 hadd
    have hkx : k < xr := by omega
    have hle := row_room xc hkx
    have hsmall := hx.small
    rw [slice_row hP.1 (by omega) (by omega) (by omega), Int.toNat_natCast] at hrow
    obtain rfl := Except.ok.inj hrow
    obtain ⟨hrowsize, hrowcells⟩ := extract_row hP.1 hkx
    obtain ⟨hosize, hocells⟩ := addRow_cells ha hw (show k < ar by omega) hrowsize hout
    rw [show (k : Int) * xc = ((k * xc : Nat) : Int) by push_cast; rfl,
      wrap64_small (by omega) (by omega)] at hwrite
    obtain ⟨-, rfl⟩ := overwrite_eq_ok.1 hwrite
    rw [Int.toNat_natCast]
    refine ⟨by rw [size_copyInto, hP.1], fun i hi j hj => ?_⟩
    rw [getD_copyInto_row hP.1 hkx hosize i hj]
    have hold := hP.2 i hi j hj
    by_cases hik : i = k
    · subst hik
      rw [if_pos rfl, hocells j hj, hrowcells j hj, hold, if_neg (by omega), add_zero,
        if_pos (by omega)]
    · rw [if_neg hik, hold]
      by_cases hlt : i < k
      · rw [if_pos hlt, if_pos (by omega)]
      · rw [if_neg hlt, if_neg (by omega)]
  · refine ⟨hx.size, fun i _ j _ => ?_⟩
    rw [hx.cell, if_neg (by omega), add_zero]

end MulAdd

/-- **A sum along the inner dimension, block by block.** -/
theorem sum_blocks (f : Nat → Int) (n b : Nat) :
    ((List.range (n * b)).map f).sum =
      ((List.range n).map fun k => ((List.range b).map fun t => f (k * b + t)).sum).sum := by
  induction n with
  | zero => simp
  | succ n ih =>
    rw [Nat.succ_mul, List.range_add, List.map_append, List.sum_append, ih, sum_range_succ,
      List.map_map]
    rfl

/-- A sum of which only one term is not zero. -/
theorem sum_single (f : Nat → Int) (s : Int) {n j : Nat} (hj : j < n) :
    ((List.range n).map fun p => f p * if p = j then s else 0).sum = f j * s := by
  induction n with
  | zero => omega
  | succ n ih =>
    rw [sum_range_succ]
    by_cases hjn : n = j
    · subst hjn
      rw [if_pos rfl, List.sum_eq_zero, zero_add]
      intro v hv
      obtain ⟨p, hp, rfl⟩ := List.mem_map.1 hv
      rw [if_neg (by have := List.mem_range.1 hp; omega), mul_zero]
    · rw [ih (by omega), if_neg hjn, mul_zero, add_zero]

/-- **The product with a diagonal matrix** is a multiple. -/
theorem dot_diagonal {a : Matrix} {n : Nat} {scalar : Int} {k : Block} (hcols : a.cols = n)
    (h : Block.diagonal n scalar = .ok k) (i : Nat) {j : Nat} (hj : j < n) :
    a.dot ⟨n, n, k.data⟩ i j = a.cell i j * scalar := by
  obtain ⟨-, hcells⟩ := diagonal_cells h
  unfold Matrix.dot
  have hmap : (List.range n).map (fun p => a.cell i p * (⟨n, n, k.data⟩ : Matrix).cell p j) =
      (List.range n).map fun p => a.cell i p * if p = j then scalar else 0 := by
    refine List.map_congr_left fun p hp => ?_
    refine congrArg (a.cell i p * ·) ?_
    rw [Matrix.cell, Int.toNat_natCast, hcells p (List.mem_range.1 hp) j hj]
  rw [hcols, Int.toNat_natCast, hmap]
  exact sum_single _ _ hj

/-- A diagonal matrix has a full table. -/
theorem filled_diagonal {n : Nat} {scalar : Int} {k : Block} (h : Block.diagonal n scalar = .ok k) :
    Matrix.Filled ⟨n, n, k.data⟩ n n := by
  have := (diagonal_eq_ok h).1
  exact ⟨rfl, rfl, (diagonal_cells h).1.2, by omega⟩

section Tensors

variable {t : Tensor} {b br bc : Nat}

/-- The padded matrix of a regular tensor has a full table. -/
theorem Tensor.Regular.filled (h : t.Regular b br bc) :
    t.padded.Filled t.padded.rows.toNat (bc * b) := by
  have hpos := h.rows_pos
  have hrows : t.padded.rows = (t.padded.rows.toNat : Int) := (Int.toNat_of_nonneg (by omega)).symm
  have hfull := h.full
  have hsmall := h.small
  rw [h.cols, hrows, ← Int.natCast_mul] at hfull hsmall
  exact ⟨hrows, h.cols, by exact_mod_cast hfull, by omega⟩

theorem Tensor.Regular.filled_rows (h : t.Regular b br bc) (hrows : t.padded.rows = (br * b : Nat)) :
    t.padded.Filled (br * b) (bc * b) := by
  have := h.filled
  rwa [hrows, Int.toNat_natCast] at this

/-- The entries of a block of a regular tensor are entries of its padded matrix. -/
theorem Tensor.Regular.cell_blockOf (h : t.Regular b br bc) {n : Int} (h0 : 0 ≤ n)
    (hn : n < (br * bc : Nat)) {r e : Nat} (hr : r < b) (he : e < b) :
    (blockOf (some t) n).cell b r e =
      t.padded.cell (n.toNat / bc * b + r) (n.toNat % bc * b + e) := by
  have hin : n.toNat < t.blocks.size := by
    rw [h.size]
    omega
  rw [blockOf, Option.bind_some, Array.getElem?_eq_getElem hin, Option.getD_some]
  exact (h.block n.toNat _ (Array.getElem?_eq_getElem hin)).cell r hr e he

end Tensors

section Rows

variable {d : Shaped} {p : Program} {c : Config} {b xr xc : Nat}

/-- The place of a vector in a matrix of `xr` times `xc` blocks. -/
theorem place_lt (hb : 1 ≤ b) (hxc : 1 ≤ xc) {v e : Nat} (hv : v < xr * xc * b) (he : e < b) :
    v / b / xc * b + v % b < xr * b ∧ v / b % xc * b + e < xc * b := by
  have hn : v / b < xr * xc := Nat.div_lt_of_lt_mul (by rwa [Nat.mul_comm])
  have hi : v / b / xc < xr := Nat.div_lt_of_lt_mul (by rwa [Nat.mul_comm])
  exact ⟨index_lt hi (Nat.mod_lt _ hb), index_lt (Nat.mod_lt _ hxc) he⟩

/-- The numbers of a vector before the program runs: those of its row in the accumulator. -/
theorem Shaped.Common.initial_cell (hcommon : d.Common p c b xr xc) (hb : 1 ≤ b)
    (hsecond : d.y = none) {v e : Nat} (hv : v < xr * xc * b) (he : e < b) :
    (d.initial v).getD e 0 = d.x.padded.cell (v / b / xc * b + v % b) (v / b % xc * b + e) := by
  have hblock : v / b < d.x.blocks.size := by
    rw [hcommon.x_regular.size]
    exact Nat.div_lt_of_lt_mul (by rwa [Nat.mul_comm])
  rw [← (hcommon.x_regular.block _ _ (Array.getElem?_eq_getElem hblock)).cell _ (Nat.mod_lt _ hb) _ he]
  unfold Shaped.initial Shaped.stackedBlocks
  simp only [hcommon.side, Int.toNat_natCast, hsecond, Option.map_none, Option.getD_none,
    List.append_nil, if_neg (show ¬(v : Int) < 0 by omega)]
  rw [List.getD_eq_getElem?_getD, List.getElem?_map, List.getElem?_range he,
    List.getD_eq_getElem?_getD, Array.getElem?_toList, Array.getElem?_eq_getElem hblock]
  rfl

/-- A vector that the accumulator does not have holds zeros. -/
theorem Shaped.Common.initial_outside (hcommon : d.Common p c b xr xc) (hb : 1 ≤ b)
    (hsecond : d.y = none) {v : Int} (hv : ¬(0 ≤ v ∧ v < (xr * xc * b : Nat))) :
    d.initial v = (List.range b).map fun _ => 0 := by
  unfold Shaped.initial Shaped.stackedBlocks
  simp only [hcommon.side, Int.toNat_natCast, hsecond, Option.map_none, Option.getD_none,
    List.append_nil]
  refine List.map_congr_left fun e _ => ?_
  by_cases hneg : v < 0
  · rw [if_pos hneg]
  · have hn : xr * xc ≤ v.toNat / b := by
      rw [Nat.le_div_iff_mul_le hb]
      omega
    rw [if_neg hneg, List.getD_eq_getElem?_getD,
      List.getElem?_eq_none (by rw [Array.length_toList, hcommon.x_regular.size]; exact hn)]
    rfl

/-- The product in blocks: as many as the accumulator has. -/
theorem Shaped.Common.product_blocks (hcommon : d.Common p c b xr xc) (hsound : c.Sound b)
    {m : Matrix} (hm : m.Filled (xr * b) (xc * b)) {blocks : List Block} {br bc : Int}
    (h : m.split b = .ok (blocks, br, bc)) :
    blocks.length = xr * xc ∧ ∀ n k, blocks[n]? = some k → m.IsBlock b xc n k := by
  have hb := hsound.pos
  have hle := hsound.le
  have hrows := hcommon.x_regular.rows_pos
  have hsmall := hcommon.x_regular.small
  rw [hcommon.x_rows] at hrows hsmall
  rw [hcommon.x_regular.cols] at hsmall
  obtain ⟨hrle, hcle⟩ :=
    sides_le hrows (by exact_mod_cast Nat.mul_pos hcommon.x_regular.cols_pos hb) hsmall
  obtain ⟨rfl, rfl, hlen, hblock⟩ := split_blocks hb (by rw [hm.rows]; omega)
    (by rw [hm.rows]; omega) hm.cols (by rw [hm.cols]; omega)
    (by rw [hm.rows, hm.cols, hm.size]; push_cast; rfl)
    (by rw [hm.rows, hm.cols]; exact hsmall) h
  refine ⟨?_, hblock⟩
  rw [hm.rows, show ((xr * b : Nat) : Int) + b - 1 = (b - 1) + xr * b by push_cast; ring,
    Int.add_mul_ediv_right _ _ (by omega), Int.ediv_eq_zero_of_lt (by omega) (by omega),
    Int.zero_add] at hlen
  exact_mod_cast hlen

/-- **What the operations start from after a product**, vector by vector: the vectors that
memory holds, with the rows of the product added. -/
theorem Shaped.Common.product_rows (hcommon : d.Common p c b xr xc) (hsound : c.Sound b)
    (hsecond : d.y = none) {a f : Matrix} {ar ac : Nat} (ha : a.Filled ar ac)
    (hf : f.Filled ac (xc * b)) (har : ar ≤ xr * b)
    (h : ∃ product blocks br bc, mulAdd a f d.x.padded c.acc = .ok product ∧
      product.split b = .ok (blocks, br, bc) ∧ stack blocks b = .ok d.acc) :
    d.acc.cols = b ∧ d.acc.data.size = xr * xc * b * b ∧ ∀ v : Int, rowsOf d.acc.data b v =
      if 0 ≤ v ∧ v < (xr * xc * b : Nat) then (List.range b).map fun e =>
        c.acc.wrapped ((d.initial v).getD e 0 +
          a.dot f (v.toNat / b / xc * b + v.toNat % b) (v.toNat / b % xc * b + e))
      else d.initial v := by
  have hb := hsound.pos
  obtain ⟨m, blocks, br, bc, hm, hsplit, hstack⟩ := h
  have hx := hcommon.x_regular.filled_rows hcommon.x_rows
  obtain ⟨hfilled, hcells⟩ := mulAdd_cells ha hf hx har hsound.acc hm
  obtain ⟨hlen, hblock⟩ := hcommon.product_blocks hsound hfilled hsplit
  have hfull := full_blocks hfilled.rows hlen hblock
  have hvectors := hcommon.x_regular.vectors_small hcommon.x_rows
  have hle := hsound.le
  obtain ⟨hcols, hsize, hrows⟩ := stack_rows hb hfull (by rw [hlen, ← Nat.mul_assoc]; omega) hstack
  rw [hlen] at hsize
  refine ⟨hcols, hsize, fun v => ?_⟩
  rw [hrows v]
  by_cases hv : 0 ≤ v ∧ v < (xr * xc * b : Nat)
  · rw [if_pos hv]
    obtain ⟨v, rfl⟩ := Int.eq_ofNat_of_zero_le hv.1
    refine List.map_congr_left fun e he => ?_
    have he := List.mem_range.1 he
    have hv : v < xr * xc * b := by exact_mod_cast hv.2
    have hplace := place_lt hb hcommon.x_regular.cols_pos hv he
    have hn : v / b < blocks.length := hlen ▸ Nat.div_lt_of_lt_mul (by rwa [Nat.mul_comm])
    rw [if_neg (by omega), Int.toNat_natCast, hcommon.initial_cell hb hsecond hv he,
      List.getD_eq_getElem?_getD, List.getElem?_eq_getElem hn, Option.getD_some,
      (hblock _ _ (List.getElem?_eq_getElem hn)).cell _ (Nat.mod_lt _ hb) _ he,
      hcells _ hplace.1 _ hplace.2]
  · rw [if_neg hv, hcommon.initial_outside hb hsecond hv]
    refine List.map_congr_left fun e _ => ?_
    by_cases hneg : v < 0
    · rw [if_pos hneg]
    · have hn : xr * xc ≤ v.toNat / b := by
        rw [Nat.le_div_iff_mul_le hb]
        omega
      rw [if_neg hneg, List.getD_eq_getElem?_getD, List.getElem?_eq_none (by omega)]
      rfl

end Rows

end Tessera
