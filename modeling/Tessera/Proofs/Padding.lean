import Tessera.Proofs.Multiplying

/-!
# Padding taken back

Padding keeps the entries of a matrix and adds zeros, and whether rows are padded or not
changes neither the entries nor the number of blocks. Blocks put back in their places
give the matrix they were cut from.

* `Copied`: the loop of padding, between two of its rounds.
* `pad_cells`: a padded matrix, entry by entry.
* `pad_unpadded`: a matrix whose rows can be padded can be taken without padding them.
* `split_progress`: when a matrix can be cut into blocks.
* `ofMatrix_unpadded`: the tensor of a matrix, its rows not padded.
* `unsplit_cells`: the matrix that blocks make up, entry by entry.
-/

namespace Tessera

section Rows

variable {m : Matrix} {i r c : Nat}

/-- A row that could be cut out of a matrix holds its entries. -/
theorem row_cells {row : Array Int} (hcols : m.cols = c)
    (hsmall : (i + 1) * c < 4611686018427387904) (h : m.row i = .ok row) :
    row.size = c ∧ ∀ j < c, row.getD j 0 = m.cell i j := by
  rcases Nat.eq_zero_or_pos c with rfl | hc
  · rw [Matrix.row, hcols, Nat.cast_zero, mul_zero, mul_zero] at h
    obtain ⟨-, rfl⟩ := slice_eq_ok.1 h
    exact ⟨by simp [wrap64], by simp⟩
  have hi : i + 1 ≤ (i + 1) * c := Nat.le_mul_of_pos_right _ hc
  have hle : i * c ≤ (i + 1) * c := Nat.mul_le_mul_right c (by omega)
  have hsucc : (i + 1) * c = i * c + c := by ring
  unfold Matrix.row at h
  rw [hcols, show (i : Int) * c = ((i * c : Nat) : Int) by push_cast; rfl,
    wrap64_small (x := ((i * c : Nat) : Int)) (by omega) (by omega),
    wrap64_small (x := (i : Int) + 1) (by omega) (by omega),
    show ((i : Int) + 1) * c = (((i + 1) * c : Nat) : Int) by push_cast; rfl,
    wrap64_small (by omega) (by omega)] at h
  obtain ⟨⟨-, -, hin⟩, rfl⟩ := slice_eq_ok.1 h
  rw [Int.toNat_natCast, Int.toNat_natCast]
  have hin : (i + 1) * c ≤ m.data.size := by exact_mod_cast hin
  refine ⟨by rw [Array.size_extract]; omega, fun j hj => ?_⟩
  rw [Matrix.cell, hcols, Int.toNat_natCast, Array.getD_eq_getD_getElem?, Array.getElem?_extract,
    if_pos (by omega), Array.getD_eq_getD_getElem?]

end Rows

section Pad

variable {m out : Matrix} {b : Nat} {c C : Nat}

/-- **One row copied** into a wider table. -/
theorem padRow_cells {data data' : Array Int} {R k : Nat} (hcols : m.cols = c) (hcC : c ≤ C)
    (hk : k < R) (hsize : data.size = R * C) (hsmall : R * C < 4611686018427387904)
    (h : padRow m C k data = .ok data') :
    data'.size = R * C ∧ (∃ row, m.row k = .ok row) ∧ ∀ i, ∀ j < C, data'.getD (i * C + j) 0 =
      if i = k ∧ j < c then m.cell i j else data.getD (i * C + j) 0 := by
  have hkC : (k + 1) * C ≤ R * C := Nat.mul_le_mul_right C hk
  have hkc : (k + 1) * c ≤ (k + 1) * C := Nat.mul_le_mul_left (k + 1) hcC
  have hsucc : (k + 1) * C = k * C + C := by ring
  unfold padRow at h
  simp only [Outcome.faulted_eq_ok] at h
  obtain ⟨-, h⟩ := h
  obtain ⟨row, hrow, h⟩ := Outcome.bind_eq_ok.1 h
  obtain ⟨-, rfl⟩ := overwrite_eq_ok.1 h
  obtain ⟨hrsize, hrcells⟩ := row_cells hcols (by omega) hrow
  rw [show (k : Int) * C = ((k * C : Nat) : Int) by push_cast; rfl,
    wrap64_small (by omega) (by omega), Int.toNat_natCast]
  refine ⟨by rw [size_copyInto, hsize], ⟨row, hrow⟩, fun i j hj => ?_⟩
  rw [getD_copyInto, hrsize, hsize]
  by_cases hik : i = k
  · subst hik
    by_cases hjc : j < c
    · rw [if_pos ⟨by omega, by omega, by omega⟩, if_pos ⟨rfl, hjc⟩, Nat.add_sub_cancel_left,
        hrcells j hjc]
    · rw [if_neg (by omega), if_neg (by omega)]
  · rw [if_neg (show ¬(i = k ∧ j < c) from fun h => hik h.1), if_neg]
    rintro ⟨h1, h2, -⟩
    rcases Nat.lt_or_gt_of_ne hik with h | h
    · have := row_room C (show i < k by omega)
      omega
    · have := row_room C (show k < i by omega)
      omega

theorem padRow_progress {data row : Array Int} {R k : Nat} (hcols : m.cols = c) (hcC : c ≤ C)
    (hk : k < R) (hsize : data.size = R * C) (hsmall : R * C < 4611686018427387904)
    (hrow : m.row k = .ok row) : ∃ data', padRow m C k data = .ok data' := by
  have hkC : (k + 1) * C ≤ R * C := Nat.mul_le_mul_right C hk
  have hsucc : (k + 1) * C = k * C + C := by ring
  have hstart : wrap64 ((k : Int) * C) = (k * C : Nat) := by
    rw [show (k : Int) * C = ((k * C : Nat) : Int) by push_cast; rfl,
      wrap64_small (by omega) (by omega)]
  have hstop : wrap64 (((k * C : Nat) : Int) + c) = (k * C + c : Nat) := by
    rw [wrap64_small (by omega) (by omega)]
    push_cast
    rfl
  unfold padRow
  simp only [hcols, hrow, hstart, hstop, Outcome.ok_bind, Outcome.faulted_eq_ok, hsize]
  have hno : ¬(((k * C : Nat) : Int) < 0 ∨ ((k * C + c : Nat) : Int) < (k * C : Nat) ∨
      ((R * C : Nat) : Int) < (k * C + c : Nat)) := by
    clear hsmall hstart hstop
    omega
  have hin : (0 : Int) ≤ (k * C : Nat) ∧ ((k * C : Nat) : Int) ≤ data.size := by omega
  exact ⟨_, hno, overwrite_eq_ok.2 ⟨hin, rfl⟩⟩

/-- The first `k` rows of a matrix of `c` columns stand in a table of `R` rows and `C` columns, which
is blank elsewhere. -/
structure Copied (m : Matrix) (c R C k : Nat) (data : Array Int) : Prop where
  size : data.size = R * C
  cells : ∀ i, ∀ j < C, data.getD (i * C + j) 0 = if i < k ∧ j < c then m.cell i j else 0

theorem Copied.blank (m : Matrix) (c R C : Nat) : Copied m c R C 0 (Array.replicate (R * C) 0) := by
  refine ⟨by simp, fun i j _ => ?_⟩
  rw [if_neg (by omega), Array.getD_eq_getD_getElem?, Array.getElem?_replicate]
  split <;> rfl

/-- A round of padding copies one more row, which could be cut out of the matrix. -/
theorem Copied.round {data data' : Array Int} {R k : Nat} (h : Copied m c R C k data)
    (hcols : m.cols = c) (hcC : c ≤ C) (hk : k < R) (hsmall : R * C < 4611686018427387904)
    (hround : padRow m C k data = .ok data') :
    Copied m c R C (k + 1) data' ∧ ∃ row, m.row k = .ok row := by
  obtain ⟨hsize, hrow, hcells⟩ := padRow_cells hcols hcC hk h.size hsmall hround
  refine ⟨⟨hsize, fun i j hj => ?_⟩, hrow⟩
  rw [hcells i j hj, h.cells i j hj]
  by_cases hjc : j < c
  · rcases Nat.lt_trichotomy i k with hik | rfl | hik
    · rw [if_neg (by omega), if_pos ⟨hik, hjc⟩, if_pos ⟨by omega, hjc⟩]
    · rw [if_pos ⟨rfl, hjc⟩, if_pos ⟨by omega, hjc⟩]
    · rw [if_neg (by omega), if_neg (by omega), if_neg (by omega)]
  · rw [if_neg (by omega), if_neg (by omega), if_neg (by omega)]

/-- **A padded matrix**, entry by entry; every row could be cut out of the matrix. -/
theorem pad_cells {padRows : Bool} (hb : 1 ≤ b) (hb' : b ≤ 64) (hm : m.Proper)
    (h : m.pad b padRows = .ok out) :
    (∀ k : Nat, (k : Int) < m.rows → ∃ row, m.row k = .ok row) ∧
      ∀ i, ∀ j < out.cols.toNat, out.cell i j =
        if (i : Int) < m.rows ∧ (j : Int) < m.cols then m.cell i j else 0 := by
  have hpos := hm.rows_pos
  have hpos' := hm.cols_pos
  obtain ⟨hC, hR, hfull, hsmall, hmr, hmc⟩ :=
    pad_shape (by omega) (by omega) hpos hpos' hm.cols_lt h
  have hbC := ceil_bounds (a := m.cols) (b := b) (by omega)
  have hbR := ceil_bounds (a := m.rows) (b := b) (by omega)
  rw [← hC] at hbC
  have hRle : m.rows ≤ out.rows := by
    rw [hR]
    split <;> omega
  -- rows and columns as naturals
  obtain ⟨c, hc⟩ : ∃ c : Nat, m.cols = c := ⟨m.cols.toNat, by omega⟩
  obtain ⟨C, hC'⟩ : ∃ C : Nat, out.cols = C := ⟨out.cols.toNat, by omega⟩
  obtain ⟨R, hR'⟩ : ∃ R : Nat, out.rows = R := ⟨out.rows.toNat, by omega⟩
  rw [hC', hR', ← Int.natCast_mul] at hfull hsmall
  rw [hC'] at hbC
  rw [hR'] at hRle
  obtain ⟨-, -, n, hn, -, hdata⟩ := pad_eq_ok.1 h
  rw [hC', hR', ← Int.natCast_mul, wrap64_small (by omega) (by omega)] at hn
  obtain rfl : n = R * C := by omega
  rw [hC'] at hdata
  -- after `k` rounds the first `k` rows are copied
  have := loopBelow_invariant (fun k data => Copied m c R C k data ∧
    ∀ i : Nat, i < k → ∃ row, m.row i = .ok row) ?_ ⟨.blank m c R C, fun i hi => by omega⟩ hdata
  · obtain ⟨hcopied, hrow⟩ := this
    refine ⟨fun k hk => hrow k (by omega), fun i j hj => ?_⟩
    rw [hC', Int.toNat_natCast] at hj
    rw [Matrix.cell, hC', Int.toNat_natCast, hcopied.cells i j hj, hc]
    by_cases hin : i < m.rows.toNat ∧ j < c
    · rw [if_pos hin, if_pos (by omega)]
    · rw [if_neg hin, if_neg (by omega)]
  · intro k data data' hk hP hf
    obtain ⟨hnext, hrow⟩ := hP.1.round hc (by omega) (by omega) (by omega) hf
    refine ⟨hnext, fun i hi => ?_⟩
    rcases Nat.lt_succ_iff_lt_or_eq.1 hi with hi | rfl
    · exact hP.2 i hi
    · exact hrow

/-- **A matrix whose rows can be padded can be taken without padding them.** -/
theorem pad_unpadded (hb : 1 ≤ b) (hb' : b ≤ 64) (hm : m.Proper) (h : m.pad b true = .ok out) :
    ∃ out', m.pad b false = .ok out' := by
  have hpos := hm.rows_pos
  have hpos' := hm.cols_pos
  obtain ⟨hrow, -⟩ := pad_cells hb hb' hm h
  obtain ⟨hC, hR, -, hsmall, hmr, hmc⟩ := pad_shape (by omega) (by omega) hpos hpos' hm.cols_lt h
  have hbC := ceil_bounds (a := m.cols) (b := b) (by omega)
  have hbR := ceil_bounds (a := m.rows) (b := b) (by omega)
  rw [if_pos rfl] at hR
  have hround := roundUp_small (a := m.cols) (b := b) (by omega) (by omega) (by omega)
  rw [← hC] at hbC hround
  obtain ⟨c, hc⟩ : ∃ c : Nat, m.cols = c := ⟨m.cols.toNat, by omega⟩
  obtain ⟨C, hC'⟩ : ∃ C : Nat, out.cols = C := ⟨out.cols.toNat, by omega⟩
  obtain ⟨R, hR'⟩ : ∃ R : Nat, m.rows = R := ⟨m.rows.toNat, by omega⟩
  have hle : (R : Int) * C ≤ 35184372088832 := by
    have := Int.mul_le_mul_of_nonneg_right (show m.rows ≤ out.rows by omega)
      (show 0 ≤ out.cols by omega)
    rw [hR', hC'] at this
    rw [hC'] at hsmall
    omega
  rw [← Int.natCast_mul] at hle
  obtain ⟨data, hdata, -⟩ := loopBelow_progress (f := padRow m C) (n := (R : Int))
    (Copied m c R C) (fun k data hk h => by
      obtain ⟨row, hrow⟩ := hrow k (by omega)
      obtain ⟨data', hd⟩ :=
        padRow_progress hc (by omega) (show k < R by omega) h.size (by omega) hrow
      exact ⟨data', hd, (h.round hc (by omega) (by omega) (by omega) hd).1⟩)
    (.blank m c R C)
  refine ⟨⟨R, C, data⟩, pad_eq_ok.2 ⟨?_, ?_, R * C, ?_, by omega, hR' ▸ hdata⟩⟩
  · rw [if_neg (by simp), hR']
    rfl
  · rw [hround, hC']
  · rw [← Int.natCast_mul, wrap64_small (by omega) (by omega)]

end Pad

section Split

variable {m : Matrix} {b bc : Nat}

/-- A block that starts in the matrix can be cut out. -/
theorem blockAt_progress {h i j : Nat} (hhb : h * b ≤ 35184372088832) (hcols : 0 ≤ m.cols)
    (hsmall : (m.data.size : Int) ≤ 35184372088832)
    (hin : ∀ r < h, ((i + r : Nat) : Int) * m.cols + j ≤ m.data.size) :
    ∃ k, m.blockAt b h i j = .ok k := by
  have htable : tableSize (wrap64 ((h : Int) * b)) = .ok (h * b) := by
    rw [tableSize_eq_ok, ← Int.natCast_mul, wrap64_small (by omega) (by omega)]
    exact ⟨rfl, by omega⟩
  obtain ⟨data, hdata, -⟩ := loopBelow_progress (fun _ _ => True) (n := (h : Int)) (s := #[])
    (f := fun r data => do
      return data ++ (← Matrix.piece m.data (wrap64 (wrap64 (((i : Int) + r) * m.cols) + j)) b))
    (fun r data hr _ => by
      have hr := hin r (by omega)
      have h0 : (0 : Int) ≤ ((i + r : Nat) : Int) * m.cols := Int.mul_nonneg (by omega) hcols
      have hstart : wrap64 (wrap64 (((i : Int) + r) * m.cols) + j) =
          ((i + r : Nat) : Int) * m.cols + j := by
        rw [show (i : Int) + (r : Int) = ((i + r : Nat) : Int) by push_cast; rfl,
          wrap64_small (x := ((i + r : Nat) : Int) * m.cols) (by omega) (by omega),
          wrap64_small (by omega) (by omega)]
      simp only [hstart, Matrix.piece]
      rw [if_pos (by omega)]
      exact ⟨_, rfl, trivial⟩)
    trivial
  exact ⟨⟨h, data⟩, Outcome.bind_ok htable (Outcome.bind_ok hdata rfl)⟩

/-- **When a matrix can be cut into blocks.** -/
theorem split_progress (hb : 1 ≤ b) (hr : 0 ≤ m.rows) (hrb : m.rows + b ≤ 9223372036854775808)
    (hc : m.cols = (bc * b : Nat)) (hcb : m.cols < 9223372036854775808) (hsize : (m.data.size : Int) = m.rows * m.cols)
    (hsmall : m.rows * m.cols ≤ 35184372088832)
    (hcount : (m.rows + b - 1) / b * bc * 32 ≤ 281474976710656) :
    ∃ blocks, m.split b = .ok (blocks, (m.rows + b - 1) / b, (bc : Int)) := by
  rw [split_eq hb hr hrb hc hcb hsmall, if_neg (by omega)]
  obtain ⟨blocks, hblocks, -⟩ := loopBelow_progress (fun _ _ => True)
    (n := (m.rows + b - 1) / b) (s := ([] : List Block))
    (f := fun bi done => loopBelow bc done fun bj done =>
      return (← m.blockAt b (min b (m.rows - bi * b)) (bi * b) (bj * b)) :: done)
    (fun bi done hbi _ => by
      have hib := split_shape hb bi hbi
      obtain ⟨done', hdone, -⟩ := loopBelow_progress (fun _ _ => True) (n := (bc : Int)) (s := done)
        (f := fun bj done =>
          return (← m.blockAt b (min b (m.rows - bi * b)) (bi * b) (bj * b)) :: done)
        (fun bj done hbj _ => by
          obtain ⟨hh, hhh⟩ : ∃ hh : Nat, (hh : Int) = min (b : Int) (m.rows - bi * b) :=
            ⟨(min (b : Int) (m.rows - bi * b)).toNat, by omega⟩
          -- a block is no larger than the matrix
          have hib0 : (0 : Int) ≤ bi * b := by positivity
          have hcols : b ≤ bc * b := Nat.le_mul_of_pos_left b (by omega)
          have hhb : (hh : Int) * b ≤ m.rows * m.cols :=
            Int.mul_le_mul (by omega) (by omega) (by omega) (by omega)
          obtain ⟨k, hk⟩ := blockAt_progress (m := m) (h := hh) (i := bi * b) (j := bj * b)
            (by exact_mod_cast hhb.trans hsmall) (by omega) (by omega) (fun r hr' => by
              have h1 : ((bi * b + r : Nat) : Int) + 1 ≤ m.rows := by push_cast; omega
              have h2 := Int.mul_le_mul_of_nonneg_right h1 (show 0 ≤ m.cols by omega)
              have h3 : bj * b ≤ bc * b := Nat.mul_le_mul_right b (by omega)
              rw [add_mul, one_mul] at h2
              omega)
          rw [hhh] at hk
          push_cast at hk
          exact ⟨_, Outcome.bind_ok hk rfl, trivial⟩)
        trivial
      exact ⟨done', hdone, trivial⟩)
    trivial
  exact ⟨_, Outcome.bind_ok hblocks rfl⟩

end Split

section OfMatrix

variable {role : Role} {name : String} {m : Matrix} {scalar : Scalar} {b : Nat} {padRows : Bool}
  {t : Tensor}

/-- The padded matrix of a tensor, and its blocks. -/
theorem ofMatrix_parts (h : Tensor.ofMatrix role name m scalar b padRows = .ok t) :
    m.pad b padRows = .ok t.padded ∧ ∃ blocks br bc, t.padded.split b = .ok (blocks, br, bc) ∧
      t = { role, name, rows := m.rows, cols := m.cols, scalar, b, blockRows := br, blockCols := bc,
            blocks := blocks.toArray, padded := t.padded } := by
  unfold Tensor.ofMatrix at h
  simp only [Outcome.refused_eq_ok, Outcome.bind_eq_ok, Outcome.pure_eq_ok] at h
  obtain ⟨padded, hpad, _, -, -, ⟨blocks, br, bc⟩, hsplit, rfl⟩ := h
  exact ⟨hpad, blocks, br, bc, hsplit, rfl⟩

/-- **The padded matrix of a tensor**, entry by entry. -/
theorem ofMatrix_cells (hb : 1 ≤ b) (hb' : b ≤ 64) (hm : m.Proper)
    (h : Tensor.ofMatrix role name m scalar b padRows = .ok t) (i : Nat) {j : Nat}
    (hj : j < t.padded.cols.toNat) :
    t.padded.cell i j = if (i : Int) < m.rows ∧ (j : Int) < m.cols then m.cell i j else 0 :=
  (pad_cells hb hb' hm (ofMatrix_parts h).1).2 i j hj

/-- **A matrix that makes a tensor with padded rows** makes one without. -/
theorem ofMatrix_unpadded (hb : 1 ≤ b) (hb' : b ≤ 64) (hm : m.Proper)
    (h : Tensor.ofMatrix role name m scalar b true = .ok t) :
    ∃ t', Tensor.ofMatrix role name m scalar b false = .ok t' := by
  have hpos := hm.rows_pos
  have hpos' := hm.cols_pos
  obtain ⟨hpad, blocks, brs, bcs, hsplit, -⟩ := ofMatrix_parts h
  obtain ⟨out, hout⟩ := pad_unpadded hb hb' hm hpad
  obtain ⟨hC, hR, -, hsmall, hmr, hmc⟩ :=
    pad_shape (by omega) (by omega) hpos hpos' hm.cols_lt hpad
  obtain ⟨hC', hR', hfull', hsmall', -, -⟩ :=
    pad_shape (by omega) (by omega) hpos hpos' hm.cols_lt hout
  rw [if_pos rfl] at hR
  rw [if_neg (by simp)] at hR'
  have hbR := ceil_bounds (a := m.rows) (b := b) (by omega)
  have hbC := ceil_bounds (a := m.cols) (b := b) (by omega)
  obtain ⟨bc, hbc⟩ : ∃ bc : Nat, (bc : Int) = (m.cols + b - 1) / b :=
    ⟨((m.cols + b - 1) / b).toNat, Int.toNat_of_nonneg (Int.ediv_nonneg (by omega) (by omega))⟩
  rw [← hbc] at hC hC' hbC
  have hbc1 : 1 ≤ bc := by
    by_contra hlt
    rw [show bc = 0 by omega] at hbC
    simp only [Nat.cast_zero, Int.zero_mul] at hbC
    omega
  -- padding the rows does not change how many block rows there are
  have hceil : (t.padded.rows + b - 1) / b = (m.rows + b - 1) / b := by
    rw [hR, show (m.rows + b - 1) / b * b + b - 1 = (b - 1) + (m.rows + b - 1) / b * b by ring,
      Int.add_mul_ediv_right _ _ (by omega), Int.ediv_eq_zero_of_lt (by omega) (by omega),
      Int.zero_add]
  rw [split_eq hb (by omega) (by omega) (by rw [hC]; push_cast; rfl) (by omega) hsmall, hceil]
    at hsplit
  have hcount : ¬281474976710656 < (m.rows + b - 1) / b * bc * 32 := by
    intro hmany
    rw [if_pos hmany] at hsplit
    cases hsplit
  have hcols : out.cols = (bc * b : Nat) := by rw [hC']; push_cast; rfl
  obtain ⟨blocks', hsplit'⟩ := split_progress hb (by omega) (by omega) hcols (by omega) hfull' hsmall'
    (by rw [hR']; omega)
  have hrem : remainder out.cols b = .ok 0 := by
    have hnonneg : (0 : Int) ≤ (bc * b : Nat) := by omega
    rw [hcols, remainder_small hnonneg (by omega)]
    push_cast
    rw [Int.mul_emod_left]
  unfold Tensor.ofMatrix
  simp only [hout, hrem, hsplit', Outcome.ok_bind, ne_eq, not_true_eq_false, if_false]
  exact ⟨_, rfl⟩

end OfMatrix

section Unsplit

variable {m : Matrix} {b R C : Nat}

/-- One entry replaced. -/
theorem Matrix.Filled.set (h : m.Filled R C) {i j : Nat} (hi : i < R) (hj : j < C) (v : Int) :
    ∃ m', m.set i j v = .ok m' ∧ m'.Filled R C ∧ ∀ i' < R, ∀ j' < C,
      m'.cell i' j' = if i' = i ∧ j' = j then v else m.cell i' j' := by
  have hle := row_room C hi
  have hsmall := h.small
  have hindex : m.index i j = (i * C + j : Nat) := by
    unfold Matrix.index
    rw [h.cols, show (i : Int) * C = ((i * C : Nat) : Int) by push_cast; rfl,
      wrap64_small (x := ((i * C : Nat) : Int)) (by omega) (by omega),
      wrap64_small (by omega) (by omega)]
    push_cast
    rfl
  have hfilled : Matrix.Filled { m with data := m.data.setIfInBounds (i * C + j) v } R C :=
    ⟨h.rows, h.cols, by simpa using h.size, h.small⟩
  refine ⟨_, ?_, hfilled, fun i' hi' j' hj' => ?_⟩
  · unfold Matrix.set
    simp only [hindex, Int.toNat_natCast]
    rw [if_pos ⟨by omega, by rw [h.size]; omega⟩]
  · rw [hfilled.cell, h.cell, Array.getD_eq_getD_getElem?, Array.getElem?_setIfInBounds,
      Array.getD_eq_getD_getElem?]
    by_cases heq : i' = i ∧ j' = j
    · rw [if_pos heq, heq.1, heq.2, if_pos rfl, if_pos (by rw [h.size]; omega)]
      rfl
    · rw [if_neg heq, if_neg]
      intro hplace
      obtain ⟨h1, h2⟩ := (index_inj hj hj').1 hplace
      exact heq ⟨h1.symm, h2.symm⟩

/-- A block of at most `b` rows, with a full table that fits the address space. -/
structure Block.Within (k : Block) (b : Nat) : Prop where
  height : 0 ≤ k.height ∧ k.height ≤ b
  size : (k.data.size : Int) = k.height * b
  small : k.data.size ≤ 35184372088832

theorem Block.Full.within {k : Block} (hk : k.Full b) (hb' : b ≤ 64) : k.Within b := by
  have hbb : b * b ≤ 64 * 64 := Nat.mul_le_mul hb' hb'
  refine ⟨by rw [hk.1]; omega, ?_, by rw [hk.2]; omega⟩
  rw [hk.1, hk.2]
  push_cast
  rfl

/-- An entry of a block. -/
theorem Block.Within.entry {k : Block} (hk : k.Within b) {r c : Nat} (hr : (r : Int) < k.height)
    (hc : c < b) : entry k.data (wrap64 ((r : Int) * b + c)) = .ok (k.cell b r c) := by
  have hin : (r * b + c : Nat) < k.data.size := by
    have hle := Int.mul_le_mul_of_nonneg_right (show (r : Int) + 1 ≤ k.height by omega)
      (show (0 : Int) ≤ b by omega)
    rw [add_mul, ← hk.size] at hle
    have hle : r * b + 1 * b ≤ k.data.size := by exact_mod_cast hle
    omega
  have hsmall := hk.small
  rw [show (r : Int) * b + c = ((r * b + c : Nat) : Int) by push_cast; rfl,
    wrap64_small (by omega) (by omega), entry_eq_ok, Int.toNat_natCast, Block.cell,
    Array.getD_eq_getD_getElem?, Array.getElem?_eq_getElem hin]
  exact ⟨by omega, rfl⟩

/-- Below the last row of a block there are zeros. -/
theorem Block.Within.cell_below {k : Block} (hk : k.Within b) {r : Nat} (hr : k.height ≤ r)
    (c : Nat) : k.cell b r c = 0 := by
  have hle := Int.mul_le_mul_of_nonneg_right hr (show (0 : Int) ≤ b by omega)
  rw [← hk.size] at hle
  have hle : k.data.size ≤ r * b := by exact_mod_cast hle
  rw [Block.cell, Array.getD_eq_getD_getElem?, Array.getElem?_eq_none (by omega)]
  rfl

/-- One row of a block put in its place, as far as the matrix has columns. -/
theorem placeRow_cells {k : Block} {i₀ r : Nat} (j₀ : Nat) (h : m.Filled R C) (hk : k.Within b)
    (hr : (r : Int) < k.height) (hi : i₀ + r < R) :
    ∃ m', loopBelow (min (b : Int) (m.cols - j₀)) m (fun c out => do
        out.set (i₀ + r) (j₀ + c) (← entry k.data (wrap64 (r * b + c)))) = .ok m' ∧
      m'.Filled R C ∧ ∀ i < R, ∀ j < C, m'.cell i j =
        if i = i₀ + r ∧ j₀ ≤ j ∧ j < j₀ + b then k.cell b r (j - j₀) else m.cell i j := by
  rw [h.cols]
  obtain ⟨m', hm', hfilled, hcells⟩ := loopBelow_progress (n := min (b : Int) (C - j₀)) (s := m)
    (f := fun c out => do out.set (i₀ + r) (j₀ + c) (← entry k.data (wrap64 (r * b + c))))
    (fun w (m' : Matrix) => m'.Filled R C ∧ ∀ i < R, ∀ j < C, m'.cell i j =
      if i = i₀ + r ∧ j₀ ≤ j ∧ j < j₀ + w then k.cell b r (j - j₀) else m.cell i j)
    (fun c m' hc hP => by
      obtain ⟨m'', hset, hfilled, hcells⟩ :=
        hP.1.set hi (show j₀ + c < C by omega) (k.cell b r c)
      push_cast at hset
      refine ⟨m'', Outcome.bind_ok (hk.entry hr (by omega)) hset, hfilled, fun i hi' j hj => ?_⟩
      rw [hcells i hi' j hj, hP.2 i hi' j hj]
      by_cases hnew : i = i₀ + r ∧ j = j₀ + c
      · rw [if_pos hnew, if_pos (by omega), hnew.2, Nat.add_sub_cancel_left]
      · rw [if_neg hnew]
        by_cases hold : i = i₀ + r ∧ j₀ ≤ j ∧ j < j₀ + c
        · rw [if_pos hold, if_pos (by omega)]
        · rw [if_neg hold, if_neg (by omega)])
    ⟨h, fun i _ j _ => by rw [if_neg (by omega)]⟩
  refine ⟨m', hm', hfilled, fun i hi' j hj => ?_⟩
  rw [hcells i hi' j hj]
  by_cases hin : i = i₀ + r ∧ j₀ ≤ j ∧ j < j₀ + b
  · rw [if_pos hin, if_pos (by omega)]
  · rw [if_neg hin, if_neg (by omega)]

/-- The block of an entry, and its place in the block: row `i % b` and column `j % b`. -/
theorem block_of_entry {i j n b bc : Nat} (hb : 1 ≤ b) (hj : j < bc * b) :
    i / b * bc + j / b = n ↔ (n / bc * b ≤ i ∧ i < n / bc * b + b) ∧
      n % bc * b ≤ j ∧ j < n % bc * b + b := by
  have hjc : j / b < bc := Nat.div_lt_of_lt_mul (by rwa [Nat.mul_comm])
  have hi' := Nat.div_add_mod' i b
  have hj' := Nat.div_add_mod' j b
  have hib := Nat.mod_lt i hb
  have hjb := Nat.mod_lt j hb
  constructor
  · rintro rfl
    rw [row_of_index hjc, Nat.mul_add_mod_of_lt hjc]
    omega
  · rintro ⟨hrow, hcol⟩
    have hdiv : i / b = n / bc := by
      rw [Nat.div_eq_iff hb]
      omega
    have hmod : j / b = n % bc := by
      rw [Nat.div_eq_iff hb]
      omega
    rw [hdiv, hmod]
    exact Nat.div_add_mod' n bc

/-- **One block put in its place.** -/
theorem placeBlock_cells {bc n : Nat} {k : Block} (h : m.Filled R C) (hk : k.Within b) (hb : 1 ≤ b)
    (hbc : 1 ≤ bc) (hC : C ≤ bc * b) (hn : n < 4611686018427387904) :
    ∃ m', placeBlock bc b m n k = .ok m' ∧ m'.Filled R C ∧ ∀ i < R, ∀ j < C,
      m'.cell i j = if i / b * bc + j / b = n ∧ ((i % b : Nat) : Int) < k.height then
        k.cell b (i % b) (j % b) else m.cell i j := by
  have hheight := hk.height
  have hq : quotient (n : Int) bc = .ok ((n / bc : Nat) : Int) := by
    rw [quotient_small (by omega) (by omega) (by omega)]
    push_cast
    rfl
  have hr : remainder (n : Int) bc = .ok ((n % bc : Nat) : Int) := by
    rw [remainder_small (by omega) (by omega)]
    push_cast
    rfl
  obtain ⟨m', hm', hfilled, hcells⟩ := loopBelow_progress
    (n := min k.height (R - (n / bc * b : Nat))) (s := m)
    (f := fun r out => loopBelow (min (b : Int) (out.cols - (n % bc * b : Nat))) out fun c out => do
      out.set ((n / bc * b : Nat) + r) ((n % bc * b : Nat) + c) (← entry k.data (wrap64 (r * b + c))))
    (fun w (m' : Matrix) => m'.Filled R C ∧ ∀ i < R, ∀ j < C, m'.cell i j =
      if (n / bc * b ≤ i ∧ i < n / bc * b + w) ∧ n % bc * b ≤ j ∧ j < n % bc * b + b then
        k.cell b (i - n / bc * b) (j - n % bc * b) else m.cell i j)
    (fun r m' hr hP => by
      obtain ⟨m'', hrow, hfilled, hcells⟩ := placeRow_cells (n % bc * b) hP.1 hk
        (show (r : Int) < k.height by omega) (show n / bc * b + r < R by omega)
      refine ⟨m'', hrow, hfilled, fun i hi j hj => ?_⟩
      rw [hcells i hi j hj, hP.2 i hi j hj]
      by_cases hnew : i = n / bc * b + r ∧ n % bc * b ≤ j ∧ j < n % bc * b + b
      · rw [if_pos hnew, if_pos (by omega), hnew.1, Nat.add_sub_cancel_left]
      · rw [if_neg hnew]
        by_cases hold : (n / bc * b ≤ i ∧ i < n / bc * b + r) ∧ n % bc * b ≤ j ∧ j < n % bc * b + b
        · rw [if_pos hold, if_pos (by omega)]
        · rw [if_neg hold, if_neg (by omega)])
    ⟨h, fun i _ j _ => by rw [if_neg (by omega)]⟩
  refine ⟨m', ?_, hfilled, fun i hi j hj => ?_⟩
  · unfold placeBlock
    simp only [hq, hr, Outcome.ok_bind, h.rows]
    push_cast at hm' ⊢
    exact hm'
  · rw [hcells i hi j hj]
    have hplace := block_of_entry (i := i) (n := n) hb (hj.trans_le hC)
    have hdiv := Nat.div_add_mod' i b
    have hmod := Nat.div_add_mod' j b
    by_cases heq : i / b * bc + j / b = n
    · -- the entry is in the block, in the row and column that are left of its own
      have hrow : n / bc = i / b := by rw [← heq, row_of_index (Nat.div_lt_of_lt_mul (by
        rw [Nat.mul_comm]; omega))]
      have hcol : n % bc = j / b := by rw [← heq, Nat.mul_add_mod_of_lt (Nat.div_lt_of_lt_mul (by
        rw [Nat.mul_comm]; omega))]
      rw [hrow, hcol, show i - i / b * b = i % b by omega, show j - j / b * b = j % b by omega]
      have hjb := Nat.mod_lt j hb
      refine if_congr ?_ rfl rfl
      rw [and_iff_right heq]
      omega
    · rw [if_neg fun h => heq (hplace.2 ⟨⟨h.1.1, by omega⟩, h.2⟩), if_neg fun h => heq h.1]

theorem placeBlocks_cells {bc : Nat} (hb : 1 ≤ b) (hbc : 1 ≤ bc) (hC : C ≤ bc * b)
    {blocks : List Block} (hwithin : ∀ k ∈ blocks, k.Within b) (start : Nat)
    (hlen : start + blocks.length < 4611686018427387904) (h : m.Filled R C) :
    ∃ m', (blocks.zipIdx start).foldlM (fun out (k, n) => placeBlock bc b out n k) m = .ok m' ∧
      m'.Filled R C ∧ ∀ i < R, ∀ j < C, m'.cell i j =
        if (start ≤ i / b * bc + j / b ∧ i / b * bc + j / b < start + blocks.length) ∧
            ((i % b : Nat) : Int) < (blocks.getD (i / b * bc + j / b - start) default).height then
          (blocks.getD (i / b * bc + j / b - start) default).cell b (i % b) (j % b)
        else m.cell i j := by
  induction blocks generalizing start m with
  | nil => exact ⟨m, rfl, h, fun i _ j _ => by rw [if_neg (by simp only [List.length_nil]; omega)]⟩
  | cons k blocks ih =>
    rw [List.length_cons] at hlen
    obtain ⟨m₁, hplace, hfilled, hcells⟩ :=
      placeBlock_cells h (hwithin k List.mem_cons_self) hb hbc hC (show start < _ by omega)
    obtain ⟨m₂, hrest, hfilled', hcells'⟩ :=
      ih (fun k hk => hwithin k (List.mem_cons_of_mem _ hk)) (start + 1) (by omega) hfilled
    refine ⟨m₂, foldlM_cons_eq_ok.2 ⟨m₁, hplace, hrest⟩, hfilled', fun i hi j hj => ?_⟩
    rw [hcells' i hi j hj, hcells i hi j hj, List.length_cons]
    by_cases heq : i / b * bc + j / b = start
    · rw [if_neg (by omega), heq, Nat.sub_self, List.getD_cons_zero]
      by_cases hlt : ((i % b : Nat) : Int) < k.height
      · rw [if_pos ⟨rfl, hlt⟩, if_pos ⟨by omega, hlt⟩]
      · rw [if_neg fun h => hlt h.2, if_neg fun h => hlt h.2]
    · have hother : ¬(i / b * bc + j / b = start ∧ ((i % b : Nat) : Int) < k.height) :=
        fun h => heq h.1
      rw [if_neg hother]
      by_cases hlater : start + 1 ≤ i / b * bc + j / b ∧
          i / b * bc + j / b < start + 1 + blocks.length
      · obtain ⟨q, hq⟩ : ∃ q, i / b * bc + j / b - start = q + 1 :=
          ⟨i / b * bc + j / b - start - 1, by omega⟩
        rw [hq, List.getD_cons_succ, show i / b * bc + j / b - (start + 1) = q by omega]
        by_cases hlt : ((i % b : Nat) : Int) < (blocks.getD q default).height
        · rw [if_pos ⟨hlater, hlt⟩, if_pos ⟨by omega, hlt⟩]
        · rw [if_neg fun h => hlt h.2, if_neg fun h => hlt h.2]
      · rw [if_neg (by omega), if_neg (by omega)]

/-- **The matrix that blocks make up**, entry by entry. -/
theorem unsplit_cells {bc : Nat} (hb : 1 ≤ b) (hbc : 1 ≤ bc) (hC : C ≤ bc * b)
    {blocks : List Block} (hwithin : ∀ k ∈ blocks, k.Within b) (hlen : blocks.length < 4611686018427387904)
    (hsmall : R * C ≤ 35184372088832) :
    ∃ m, unsplit blocks bc b R C = .ok m ∧ m.Filled R C ∧ ∀ i < R, ∀ j < C, m.cell i j =
      if i / b * bc + j / b < blocks.length then
        (blocks.getD (i / b * bc + j / b) default).cell b (i % b) (j % b)
      else 0 := by
  have hblank : Matrix.Filled ⟨R, C, Array.replicate (R * C) 0⟩ R C :=
    ⟨rfl, rfl, by simp, by omega⟩
  obtain ⟨m, hm, hfilled, hcells⟩ :=
    placeBlocks_cells hb hbc hC hwithin 0 (by omega) hblank
  refine ⟨m, Outcome.bind_ok (zero_small hsmall) hm, hfilled, fun i hi j hj => ?_⟩
  have hzeros : Matrix.cell ⟨R, C, Array.replicate (R * C) 0⟩ i j = 0 := by
    rw [hblank.cell, Array.getD_eq_getD_getElem?, Array.getElem?_replicate]
    split <;> rfl
  rw [hcells i hi j hj, Nat.zero_add, Nat.sub_zero, hzeros]
  by_cases hin : i / b * bc + j / b < blocks.length
  · rw [if_pos hin]
    split
    · rfl
    · rename_i hnot
      have hmem : blocks.getD (i / b * bc + j / b) default ∈ blocks := by
        rw [List.getD_eq_getElem?_getD, List.getElem?_eq_getElem hin, Option.getD_some]
        exact List.getElem_mem hin
      have hbelow := Int.not_lt.1 fun hlt => hnot ⟨⟨Nat.zero_le _, hin⟩, hlt⟩
      exact ((hwithin _ hmem).cell_below hbelow _).symm
  · rw [if_neg hin, if_neg fun h => hin h.1.2]

end Unsplit

end Tessera
