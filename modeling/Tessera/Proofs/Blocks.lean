import Mathlib.Tactic.Linarith
import Mathlib.Tactic.Ring
import Tessera.Proofs.Table
import Tessera.Tensor

/-!
# Padded matrices and their blocks

Padding and cutting succeed only for matrices whose tables fit the address
space, so no number that occurs in them leaves the range of words.

* `pad_shape`: the shape of a padded matrix.
* `split_blocks`: the blocks of a matrix, entry by entry.
* `Tensor.Regular`: what a tensor made from a matrix is like.
* `ofMatrix_regular`: every such tensor is regular.
-/

namespace Tessera

/-- Entry `(i, j)` of a matrix, zero outside its table. -/
def Matrix.cell (m : Matrix) (i j : Nat) : Int := m.data.getD (i * m.cols.toNat + j) 0

/-- Entry `(r, c)` of a block with rows of length `b`, zero outside its table. -/
def Block.cell (k : Block) (b r c : Nat) : Int := k.data.getD (r * b + c) 0

theorem ceilDiv_small {a b : Int} (ha : 0 ≤ a) (hb : 1 ≤ b) (hab : a + b ≤ 9223372036854775808) :
    ceilDiv a b = .ok ((a + b - 1) / b) := by
  have hone : wrap64 (wrap64 (a + b) - 1) = wrap64 (a + b - 1) := Int.bmod_sub_bmod
  unfold ceilDiv
  rw [hone, wrap64_small (by omega) (by omega)]
  exact quotient_small (by omega) (by omega) (by omega)

/-- The number of blocks that cover `a`, and their length. -/
theorem ceil_bounds {a b : Int} (hb : 1 ≤ b) :
    a ≤ (a + b - 1) / b * b ∧ (a + b - 1) / b * b ≤ a + b - 1 := by
  have h1 := Int.lt_ediv_add_one_mul_self (a + b - 1) (show 0 < b by omega)
  have h2 := Int.ediv_mul_le (a + b - 1) (show b ≠ 0 by omega)
  rw [add_mul] at h1
  omega

theorem roundUp_small {a b : Int} (ha : 0 ≤ a) (hb : 1 ≤ b) (hab : a + b ≤ 9223372036854775808) :
    roundUp a b = .ok ((a + b - 1) / b * b) := by
  unfold roundUp
  have := ceil_bounds (a := a) hb
  rw [ceilDiv_small ha hb hab]
  show Except.ok _ = _
  rw [wrap64_small (by omega) (by omega)]

theorem zero_eq_ok {rows cols : Int} {m : Matrix} :
    Matrix.zero rows cols = .ok m ↔
      ∃ n : Nat, (n : Int) = wrap64 (rows * cols) ∧ (n : Int) * 8 ≤ 281474976710656 ∧
        m = ⟨rows, cols, Array.replicate n 0⟩ := by
  unfold Matrix.zero
  simp only [Outcome.bind_eq_ok, Outcome.pure_eq_ok, tableSize_eq_ok]
  constructor
  · rintro ⟨n, ⟨h1, h2⟩, rfl⟩; exact ⟨n, h1, by omega, rfl⟩
  · rintro ⟨n, h1, h2, rfl⟩; exact ⟨n, ⟨h1, by omega⟩, rfl⟩

/-- A table of zeros that fits the address space. -/
theorem zero_small {R C : Nat} (h : R * C ≤ 35184372088832) :
    Matrix.zero R C = .ok ⟨R, C, Array.replicate (R * C) 0⟩ := by
  refine zero_eq_ok.2 ⟨R * C, ?_, by omega, rfl⟩
  rw [← Int.natCast_mul, wrap64_small (by omega) (by omega)]

/-- The round of padding that copies row `i`. -/
def padRow (m : Matrix) (cols i : Int) (data : Array Int) : Outcome (Array Int) := do
  let start := wrap64 (i * cols)
  let stop := wrap64 (start + m.cols)
  if start < 0 ∨ stop < start ∨ data.size < stop then .error .fault
  overwrite data start (← m.row i)

/-- **Padding** copies the rows of a matrix into a table of zeros, one after the other. -/
theorem pad_eq_ok {m out : Matrix} {b : Int} {padRows : Bool} :
    m.pad b padRows = .ok out ↔
      (if padRows then roundUp m.rows b else pure m.rows) = .ok out.rows ∧
      roundUp m.cols b = .ok out.cols ∧
      ∃ n : Nat, (n : Int) = wrap64 (out.rows * out.cols) ∧ (n : Int) * 8 ≤ 281474976710656 ∧
        loopBelow m.rows (Array.replicate n 0) (padRow m out.cols) = .ok out.data := by
  unfold Matrix.pad
  simp only [Outcome.ite_bind, Outcome.bind_eq_ok, Outcome.pure_eq_ok, zero_eq_ok]
  constructor
  · rintro ⟨rows, hrows, cols, hcols, _, ⟨n, hn, hn8, rfl⟩, data, hdata, rfl⟩
    exact ⟨hrows, hcols, n, hn, hn8, hdata⟩
  · rintro ⟨hrows, hcols, n, hn, hn8, hdata⟩
    exact ⟨_, hrows, _, hcols, _, ⟨n, hn, hn8, rfl⟩, _, hdata, rfl⟩

/-- The rows of a matrix that was padded have room in the padded table. -/
theorem pad_loop {m : Matrix} {cols : Int} {n : Nat} {data out : Array Int} (hn : data.size = n)
    (h : loopBelow m.rows data (padRow m cols) = .ok out) :
    out.size = n ∧ ∀ i : Nat, (i : Int) < m.rows →
      0 ≤ wrap64 (i * cols) ∧ wrap64 (i * cols) ≤ wrap64 (wrap64 (i * cols) + m.cols) ∧
        wrap64 (wrap64 (i * cols) + m.cols) ≤ n := by
  have := loopBelow_invariant (fun k (d : Array Int) => d.size = n ∧ ∀ i : Nat, i < k →
      0 ≤ wrap64 (i * cols) ∧ wrap64 (i * cols) ≤ wrap64 (wrap64 (i * cols) + m.cols) ∧
        wrap64 (wrap64 (i * cols) + m.cols) ≤ n) ?_ ⟨hn, fun i hi => by omega⟩ h
  · exact ⟨this.1, fun i hi => this.2 i (by omega)⟩
  · intro k d d' _ hP hf
    unfold padRow at hf
    simp only [Outcome.faulted_eq_ok] at hf
    obtain ⟨hc, hf⟩ := hf
    obtain ⟨row, -, hf⟩ := Outcome.bind_eq_ok.1 hf
    obtain ⟨-, rfl⟩ := overwrite_eq_ok.1 hf
    refine ⟨by rw [size_copyInto]; exact hP.1, fun i hi => ?_⟩
    rcases Nat.lt_succ_iff_lt_or_eq.1 hi with hi | rfl
    · exact hP.2 i hi
    · rw [hP.1] at hc; omega

/-- Rows that have room in words start within the table: one after the other, none of them
overflows. -/
theorem pad_starts {C cols rows : Int} {n : Nat} (hC : 0 ≤ C) (hC' : C < 4611686018427387904)
    (hn : n < 4611686018427387904)
    (hroom : ∀ i : Nat, (i : Int) < rows → 0 ≤ wrap64 (i * C) ∧
      wrap64 (i * C) ≤ wrap64 (wrap64 (i * C) + cols) ∧ wrap64 (wrap64 (i * C) + cols) ≤ n) :
    ∀ i : Nat, (i : Int) < rows → (i : Int) * C ≤ n := by
  intro i
  induction i with
  | zero => intro _; simp
  | succ i ih =>
    intro hi
    have h1 := ih (by omega)
    have h2 : ((i + 1 : Nat) : Int) * C = i * C + C := by push_cast; ring
    have h3 : (0 : Int) ≤ i * C := Int.mul_nonneg (by omega) hC
    have h4 := hroom (i + 1) hi
    rw [wrap64_small (x := ((i + 1 : Nat) : Int) * C) (by omega) (by omega)] at h4
    omega

/-- **The shape of a padded matrix**: its sides are the next multiples of `b`, the
rows only if they are padded, and its table is full. -/
theorem pad_shape {m out : Matrix} {b : Int} {padRows : Bool} (hb : 1 ≤ b) (hb' : b ≤ 64)
    (hr : 1 ≤ m.rows) (hc : 1 ≤ m.cols) (hc' : m.cols < 9223372036854775808)
    (h : m.pad b padRows = .ok out) :
    out.cols = (m.cols + b - 1) / b * b ∧
      out.rows = (if padRows then (m.rows + b - 1) / b * b else m.rows) ∧
      (out.data.size : Int) = out.rows * out.cols ∧ out.rows * out.cols ≤ 35184372088832 ∧
      m.rows ≤ 35184372088833 ∧ m.cols ≤ 35184372088832 := by
  obtain ⟨hrows, hcols, n, hn, hn8, hdata⟩ := pad_eq_ok.1 h
  obtain ⟨hsize, hroom⟩ := pad_loop (by simp : (Array.replicate n (0 : Int)).size = n) hdata
  -- the first row bounds the columns
  have h0 := hroom 0 (by omega)
  simp only [Nat.cast_zero, zero_mul, zero_add, wrap64_small (x := 0) (by omega) (by omega),
    wrap64_small (x := m.cols) (by omega) (by omega)] at h0
  rw [roundUp_small (by omega) hb (by omega)] at hcols
  have hC := ceil_bounds (a := m.cols) hb
  rw [Except.ok.inj hcols] at hC ⊢
  set C := out.cols
  -- and so every row starts within the table
  have hlast := pad_starts (by omega) (by omega) (by omega) hroom (m.rows - 1).toNat (by omega)
  rw [Int.toNat_of_nonneg (by omega)] at hlast
  have hge : m.rows - 1 ≤ (m.rows - 1) * C := by
    have : (m.rows - 1) * 1 ≤ (m.rows - 1) * C :=
      Int.mul_le_mul_of_nonneg_left (by omega) (by omega)
    omega
  have hR : out.rows = if padRows then (m.rows + b - 1) / b * b else m.rows := by
    cases padRows with
    | true =>
      rw [if_pos rfl, roundUp_small (by omega) hb (by omega)] at hrows
      rw [if_pos rfl]; exact (Except.ok.inj hrows).symm
    | false =>
      rw [if_neg (by simp)] at hrows
      rw [if_neg (by simp)]; exact (Outcome.pure_eq_ok.1 hrows).symm
  have hRb : 1 ≤ out.rows ∧ out.rows ≤ m.rows - 1 + 64 := by
    have := ceil_bounds (a := m.rows) hb
    rw [hR]; split <;> omega
  have hRC : out.rows * C ≤ (m.rows - 1) * C + 64 * C := by
    have : out.rows * C ≤ (m.rows - 1 + 64) * C :=
      Int.mul_le_mul_of_nonneg_right hRb.2 (by omega)
    rwa [add_mul] at this
  have hRC0 : 0 ≤ out.rows * C := Int.mul_nonneg (by omega) (by omega)
  rw [wrap64_small (by omega) (by omega)] at hn
  have hmax : out.rows * C ≤ 35184372088832 := by omega
  exact ⟨rfl, hR, by rw [hsize, hn], hmax, by omega, by omega⟩

/-- The number of block rows, and how they cover the rows. -/
theorem split_shape {rows : Int} {b : Nat} (hb : 1 ≤ b) (k : Nat)
    (hk : (k : Int) < (rows + b - 1) / b) : (k : Int) * b < rows := by
  have h1 : (k : Int) + 1 ≤ (rows + b - 1) / b := by omega
  have h2 := (Int.le_ediv_iff_mul_le (show (0 : Int) < b by omega)).1 h1
  rw [add_mul] at h2
  omega

/-- What a piece of a table reads like. -/
theorem piece_eq_ok {data out : Array Int} {start : Int} {b : Nat}
    (h : Matrix.piece data start b = .ok out) :
    out.size = b ∧ ∀ c < b, out.getD c 0 = data.getD (start.toNat + c) 0 := by
  unfold Matrix.piece at h
  split at h
  · rename_i hs
    obtain rfl := Except.ok.inj h
    refine ⟨by simp; omega, fun c hc => ?_⟩
    simp only [Array.getD_eq_getD_getElem?, Array.getElem?_append, Array.size_extract,
      Array.getElem?_extract, Array.getElem?_replicate]
    by_cases hin : start.toNat + c < data.size
    · rw [if_pos (by omega), if_pos (by omega)]
    · rw [if_neg (by omega), Array.getElem?_eq_none (by omega)]
      split <;> rfl
  · cases h

/-- **One block of a matrix**, entry by entry. -/
theorem blockAt_cells {m : Matrix} {b h i j : Nat} {k : Block}
    (hsmall : ∀ r < h, (((i + r : Nat) : Int) * m.cols + j) < 4611686018427387904) (hcols : 0 ≤ m.cols)
    (hk : m.blockAt b h i j = .ok k) :
    k.height = h ∧ k.data.size = h * b ∧
      ∀ r < h, ∀ c < b, k.cell b r c = m.data.getD ((i + r) * m.cols.toNat + j + c) 0 := by
  unfold Matrix.blockAt at hk
  obtain ⟨_, -, hk⟩ := Outcome.bind_eq_ok.1 hk
  obtain ⟨data, hdata, hk⟩ := Outcome.bind_eq_ok.1 hk
  obtain rfl := Outcome.pure_eq_ok.1 hk
  have := loopBelow_invariant (fun n (d : Array Int) => d.size = n * b ∧ ∀ r < n, ∀ c < b,
    d.getD (r * b + c) 0 = m.data.getD ((i + r) * m.cols.toNat + j + c) 0) ?_ (by simp) hdata
  · rw [Int.toNat_natCast] at this
    exact ⟨rfl, this.1, this.2⟩
  intro r d d' hr hP hf
  obtain ⟨out, hout, hf⟩ := Outcome.bind_eq_ok.1 hf
  obtain rfl := Outcome.pure_eq_ok.1 hf
  obtain ⟨hs, hc⟩ := piece_eq_ok hout
  rw [Int.toNat_natCast] at hs hc
  have h1 := hsmall r (by omega)
  have h0 : (0 : Int) ≤ ((i + r : Nat) : Int) * m.cols := Int.mul_nonneg (by omega) hcols
  rw [show ((i : Int) + (r : Int)) = ((i + r : Nat) : Int) by push_cast; rfl,
    wrap64_small (x := ((i + r : Nat) : Int) * m.cols) (by omega) (by omega),
    wrap64_small (by omega) (by omega)] at hc
  have hst : (((i + r : Nat) : Int) * m.cols + j).toNat = (i + r) * m.cols.toNat + j := by
    rw [Int.toNat_add h0 (by omega), Int.toNat_mul (by omega) hcols, Int.toNat_natCast,
      Int.toNat_natCast]
  rw [hst] at hc
  refine ⟨by rw [Array.size_append, hs, hP.1]; ring, fun r' hr' c hcb => ?_⟩
  rw [Array.getD_eq_getD_getElem?, Array.getElem?_append, hP.1]
  rcases Nat.lt_succ_iff_lt_or_eq.1 hr' with hlt | rfl
  · have : r' * b + c < r * b := by
      have : (r' + 1) * b ≤ r * b := Nat.mul_le_mul_right b hlt
      rw [add_mul] at this
      omega
    rw [if_pos this, ← Array.getD_eq_getD_getElem?]
    exact hP.2 r' hlt c hcb
  · rw [if_neg (by omega), ← Array.getD_eq_getD_getElem?, Nat.add_sub_cancel_left]
    exact hc c hcb

/-- Block number `n` of a matrix in blocks of side `b`, `bc` to a row: which rows
it has, and its entries. -/
structure Matrix.IsBlock (m : Matrix) (b bc n : Nat) (k : Block) : Prop where
  height : k.height = min (b : Int) (m.rows - (n / bc * b : Nat))
  size : (k.data.size : Int) = k.height * b
  cell : ∀ r < b, ∀ c < b, k.cell b r c = m.cell (n / bc * b + r) (n % bc * b + c)

/-- **The block cut at row `i` and column `j` of the grid** is block number `i * bc + j`. -/
theorem blockAt_isBlock {m : Matrix} {b bc i j : Nat} {k : Block} (hb : 1 ≤ b)
    (hc : m.cols = (bc * b : Nat)) (hsize : (m.data.size : Int) = m.rows * m.cols)
    (hsmall : m.rows * m.cols ≤ 35184372088832) (hi : (i : Int) * b < m.rows) (hj : j < bc)
    (hk : m.blockAt b (min (b : Int) (m.rows - i * b)) (i * b) (j * b) = .ok k) :
    m.IsBlock b bc (i * bc + j) k := by
  have hdiv : (i * bc + j) / bc = i := row_of_index hj
  have hmod : (i * bc + j) % bc = j := Nat.mul_add_mod_of_lt hj
  -- the height is positive and no more than the side
  obtain ⟨hh, hhh⟩ : ∃ hh : Nat, (hh : Int) = min (b : Int) (m.rows - i * b) :=
    ⟨(min (b : Int) (m.rows - i * b)).toNat, by omega⟩
  rw [← hhh, show ((i : Int) * b) = ((i * b : Nat) : Int) by push_cast; rfl,
    show ((j : Int) * b) = ((j * b : Nat) : Int) by push_cast; rfl] at hk
  have hjc : j * b + b ≤ bc * b := by
    have := Nat.mul_le_mul_right b (show j + 1 ≤ bc by omega)
    rwa [add_mul, one_mul] at this
  have hrow : ∀ r < hh, ((i * b + r : Nat) : Int) * m.cols + (j * b : Nat) + b ≤ m.rows * m.cols := by
    intro r hr'
    have h1 : ((i * b + r : Nat) : Int) + 1 ≤ m.rows := by push_cast; omega
    have h2 := Int.mul_le_mul_of_nonneg_right h1 (show 0 ≤ m.cols by omega)
    rw [add_mul] at h2
    rw [hc] at h2 ⊢
    push_cast at h2 hjc ⊢
    have : (j : Int) * b + b ≤ bc * b := by exact_mod_cast hjc
    linarith
  obtain ⟨h1, h2, h3⟩ := blockAt_cells (fun r hr' => by have := hrow r hr'; omega) (by omega) hk
  refine ⟨by rw [h1, hdiv, hhh]; push_cast; rfl, by rw [h1, h2]; push_cast; rfl,
    fun r hr' c hcb' => ?_⟩
  rw [hdiv, hmod]
  by_cases hrh : r < hh
  · rw [h3 r hrh c hcb', Matrix.cell, Nat.add_assoc]
  · -- below the last row both tables have ended
    have hge : m.rows ≤ ((i * b + r : Nat) : Int) := by push_cast; omega
    rw [Block.cell, Matrix.cell, Array.getD_eq_getD_getElem?, Array.getD_eq_getD_getElem?,
      Array.getElem?_eq_none, Array.getElem?_eq_none]
    · have h4 := Int.mul_le_mul_of_nonneg_right hge (show 0 ≤ m.cols by omega)
      have h5 : (m.data.size : Int) ≤ ((i * b + r) * m.cols.toNat : Nat) := by
        rw [hsize]
        push_cast
        rw [Int.toNat_of_nonneg (by omega)]
        push_cast at h4
        exact h4
      have h6 : m.data.size ≤ (i * b + r) * m.cols.toNat := by exact_mod_cast h5
      omega
    · rw [h2]
      have := Nat.mul_le_mul_right b (show hh ≤ r by omega)
      omega

/-- The first `n` blocks of a matrix are cut, the latest first. -/
structure Matrix.Cut (m : Matrix) (b bc n : Nat) (blocks : List Block) : Prop where
  length : blocks.length = n
  block : ∀ i k, blocks.reverse[i]? = some k → m.IsBlock b bc i k

theorem Matrix.Cut.push {m : Matrix} {b bc n : Nat} {blocks : List Block} {k : Block}
    (h : m.Cut b bc n blocks) (hk : m.IsBlock b bc n k) : m.Cut b bc (n + 1) (k :: blocks) := by
  refine ⟨by simp [h.length], fun i k' hi => ?_⟩
  rw [List.reverse_cons, List.getElem?_append] at hi
  split at hi
  · exact h.block i k' hi
  · rename_i hge
    rw [List.length_reverse, h.length] at hge hi
    have : i - n = 0 := by
      by_contra hne
      rw [List.getElem?_eq_none (by simp; omega)] at hi
      cases hi
    obtain rfl : i = n := by omega
    simp at hi
    exact hi ▸ hk

/-- The blocks of the matrix, block row by block row, latest first. -/
def cutBlocks (m : Matrix) (b blockRows blockCols : Int) : Outcome (List Block) :=
  loopBelow blockRows [] fun bi done =>
    loopBelow blockCols done fun bj done =>
      return (← m.blockAt b (min b (m.rows - bi * b)) (bi * b) (bj * b)) :: done

/-- The sides of a table that is not empty are no longer than it. -/
theorem sides_le {R C n : Int} (hR : 1 ≤ R) (hC : 1 ≤ C) (h : R * C ≤ n) : R ≤ n ∧ C ≤ n := by
  have h1 := Int.mul_le_mul_of_nonneg_left hC (show 0 ≤ R by omega)
  have h2 := Int.mul_le_mul_of_nonneg_right hR (show 0 ≤ C by omega)
  omega

/-- Cutting a matrix fails only if there are too many blocks, or at a block. -/
theorem split_eq {m : Matrix} {b bc : Nat} (hb : 1 ≤ b) (hr : 0 ≤ m.rows)
    (hrb : m.rows + b ≤ 9223372036854775808) (hc : m.cols = (bc * b : Nat))
    (hcb : m.cols < 9223372036854775808) (hsmall : m.rows * m.cols ≤ 35184372088832) :
    m.split b =
      if 281474976710656 < (m.rows + b - 1) / b * bc * 32 then .error .fault
      else cutBlocks m b ((m.rows + b - 1) / b) bc >>= fun blocks =>
        .ok (blocks.reverse, (m.rows + b - 1) / b, (bc : Int)) := by
  have hbcle : bc ≤ bc * b := Nat.le_mul_of_pos_right bc hb
  have hrem : remainder m.cols b = .ok 0 := by
    rw [remainder_small (by omega) (by omega), hc]
    push_cast
    rw [Int.mul_emod_left]
  have hq : quotient m.cols b = .ok (bc : Int) := by
    rw [quotient_small (by omega) (by omega) (by omega), hc]
    congr 1
    push_cast
    exact Int.mul_ediv_cancel _ (by omega)
  have hceil := ceilDiv_small (a := m.rows) (b := b) hr (by omega) hrb
  have hbr0 : 0 ≤ (m.rows + b - 1) / b := Int.ediv_nonneg (by omega) (by omega)
  have hbrle : (m.rows + b - 1) / b ≤ m.rows := by
    have hpos := Int.mul_nonneg hr (show (0 : Int) ≤ (b : Int) - 1 by omega)
    rw [Int.mul_sub] at hpos
    have hlt : (m.rows + b - 1) / b < m.rows + 1 :=
      (Int.ediv_lt_iff_lt_mul (by omega)).2 (by rw [add_mul]; omega)
    omega
  have hcount0 : 0 ≤ (m.rows + b - 1) / b * bc := Int.mul_nonneg hbr0 (by omega)
  have hcount : (m.rows + b - 1) / b * bc ≤ m.rows * m.cols :=
    calc (m.rows + b - 1) / b * bc ≤ m.rows * bc := Int.mul_le_mul_of_nonneg_right hbrle (by omega)
      _ ≤ m.rows * m.cols := Int.mul_le_mul_of_nonneg_left (by omega) (by omega)
  have htable : ((twoTo 48 : Nat) : Int) = 281474976710656 := by norm_num [twoTo_eq]
  unfold Matrix.split
  simp only [hrem, hceil, hq, Outcome.ok_bind, ne_eq, not_true_eq_false, if_false, htable]
  rw [wrap64_small (by omega) (by omega)]
  by_cases hmany : 281474976710656 < (m.rows + b - 1) / b * bc * 32
  · rw [if_pos hmany, if_pos (Or.inr hmany)]
    rfl
  · rw [if_neg hmany, if_neg (by omega)]
    rfl

/-- **The blocks of a matrix**, block row by block row. -/
theorem split_blocks {m : Matrix} {b bc : Nat} {blocks : List Block} {brs bcs : Int}
    (hb : 1 ≤ b) (hr : 0 ≤ m.rows) (hrb : m.rows + b ≤ 9223372036854775808)
    (hc : m.cols = (bc * b : Nat)) (hcb : m.cols < 9223372036854775808)
    (hsize : (m.data.size : Int) = m.rows * m.cols) (hsmall : m.rows * m.cols ≤ 35184372088832)
    (h : m.split b = .ok (blocks, brs, bcs)) :
    bcs = bc ∧ brs = (m.rows + b - 1) / b ∧ (blocks.length : Int) = brs * bc ∧
      ∀ n k, blocks[n]? = some k → m.IsBlock b bc n k := by
  rw [split_eq hb hr hrb hc hcb hsmall] at h
  split at h
  · cases h
  obtain ⟨done, hdone, h⟩ := Outcome.bind_eq_ok.1 h
  obtain ⟨rfl, rfl, rfl⟩ : done.reverse = blocks ∧ (m.rows + b - 1) / b = brs ∧ (bc : Int) = bcs := by
    simpa using h
  have hbr := ceil_bounds (a := m.rows) (b := b) (by omega)
  set br := (m.rows + b - 1) / (b : Int) with hbrdef
  have hbr0 : 0 ≤ br := Int.ediv_nonneg (by omega) (by omega)
  have hcut := loopBelow_invariant (fun n l => m.Cut b bc (n * bc) l) ?_
    ⟨by simp, fun i k hi => by simp at hi⟩ hdone
  · rw [← Int.toNat_of_nonneg hbr0] at *
    refine ⟨rfl, rfl, ?_, hcut.block⟩
    rw [List.length_reverse, hcut.length]
    push_cast
    simp
  -- one row of blocks, block by block
  intro i l l' hi hcut hloop
  have hrow := loopBelow_invariant (fun j l => m.Cut b bc (i * bc + j) l) ?_ (by simpa using hcut)
    hloop
  · rw [Int.toNat_natCast] at hrow
    rwa [add_mul, one_mul]
  intro j l l' hj hcut hf
  obtain ⟨k, hk, hf⟩ := Outcome.bind_eq_ok.1 hf
  obtain rfl := Outcome.pure_eq_ok.1 hf
  exact hcut.push (blockAt_isBlock hb hc hsize hsmall (split_shape hb i hi) (by omega) hk)

/-- A tensor in `br` times `bc` blocks of side `b`, whose padded matrix has a full
table of `rows` rows. -/
structure Tensor.Regular (t : Tensor) (b br bc : Nat) : Prop where
  side : t.b = b
  blockRows : t.blockRows = br
  blockCols : t.blockCols = bc
  cols : t.padded.cols = (bc * b : Nat)
  full : (t.padded.data.size : Int) = t.padded.rows * t.padded.cols
  small : t.padded.rows * t.padded.cols ≤ 35184372088832
  rows_pos : 1 ≤ t.padded.rows
  rows_le : t.padded.rows ≤ (br * b : Nat)
  rows_gt : ((br * b : Nat) : Int) < t.padded.rows + b
  cols_pos : 1 ≤ bc
  size : t.blocks.size = br * bc
  block : ∀ n k, t.blocks[n]? = some k → t.padded.IsBlock b bc n k

/-- **The tensor of a matrix is regular.** -/
theorem ofMatrix_regular {role : Role} {name : String} {m : Matrix} {scalar : Scalar} {b : Nat}
    {padRows : Bool} {t : Tensor} (hb : 1 ≤ b) (hb' : b ≤ 64) (hr : 1 ≤ m.rows) (hc : 1 ≤ m.cols)
    (hc' : m.cols < 9223372036854775808)
    (h : Tensor.ofMatrix role name m scalar b padRows = .ok t) :
    ∃ br bc : Nat, t.Regular b br bc ∧ (br : Int) = (m.rows + b - 1) / b ∧
      (bc : Int) = (m.cols + b - 1) / b ∧
      t.padded.rows = (if padRows then ((br * b : Nat) : Int) else m.rows) ∧
      t.role = role ∧ t.name = name ∧ t.scalar = scalar ∧ t.rows = m.rows ∧ t.cols = m.cols := by
  unfold Tensor.ofMatrix at h
  obtain ⟨padded, hpad, h⟩ := Outcome.bind_eq_ok.1 h
  obtain ⟨rem, -, h⟩ := Outcome.bind_eq_ok.1 h
  simp only [Outcome.refused_eq_ok] at h
  obtain ⟨-, h⟩ := h
  obtain ⟨⟨blocks, brs, bcs⟩, hsplit, h⟩ := Outcome.bind_eq_ok.1 h
  obtain rfl := Outcome.pure_eq_ok.1 h
  obtain ⟨hcols, hrows, hfull, hsmall, hmr, hmc⟩ :=
    pad_shape (by omega) (by omega) hr hc hc' hpad
  have hbcb := ceil_bounds (a := m.cols) (b := b) (by omega)
  have hbrb := ceil_bounds (a := m.rows) (b := b) (by omega)
  obtain ⟨bc, hbc⟩ : ∃ bc : Nat, (bc : Int) = (m.cols + b - 1) / b :=
    ⟨((m.cols + b - 1) / b).toNat, Int.toNat_of_nonneg (Int.ediv_nonneg (by omega) (by omega))⟩
  obtain ⟨br, hbr⟩ : ∃ br : Nat, (br : Int) = (m.rows + b - 1) / b :=
    ⟨((m.rows + b - 1) / b).toNat, Int.toNat_of_nonneg (Int.ediv_nonneg (by omega) (by omega))⟩
  rw [← hbc] at hbcb hcols
  rw [← hbr] at hbrb hrows
  have hbc1 : 1 ≤ bc := by
    by_contra hlt
    have : bc = 0 := by omega
    subst this
    simp at hbcb
    omega
  have hrow1 : 1 ≤ padded.rows := by rw [hrows]; split <;> omega
  have hrowb : padded.rows + b ≤ 9223372036854775808 := by rw [hrows]; split <;> omega
  obtain ⟨h1, h2, h3, h4⟩ := split_blocks hb (by omega) hrowb (by rw [hcols]; push_cast; rfl)
    (by omega) hfull hsmall hsplit
  -- padding the rows does not change how many block rows there are
  have hbrs : brs = br := by
    rw [h2, hrows]
    cases padRows with
    | false => rw [if_neg (by simp), hbr]
    | true =>
      rw [if_pos rfl, show (br : Int) * b + b - 1 = (b - 1) + br * b by ring,
        Int.add_mul_ediv_right _ _ (by omega), Int.ediv_eq_zero_of_lt (by omega) (by omega)]
      omega
  refine ⟨br, bc, ?_, hbr, hbc, by rw [hrows]; push_cast; rfl, rfl, rfl, rfl, rfl, rfl⟩
  constructor
  case side => rfl
  case blockRows => exact hbrs
  case blockCols => exact h1
  case cols => rw [hcols]; push_cast; rfl
  case full => exact hfull
  case small => exact hsmall
  case rows_pos => exact hrow1
  case rows_le =>
    show padded.rows ≤ _
    rw [hrows]; push_cast; split <;> omega
  case rows_gt =>
    show _ < padded.rows + _
    rw [hrows]; push_cast; split <;> omega
  case cols_pos => exact hbc1
  case size =>
    have : ((blocks.toArray.size : Nat) : Int) = (br * bc : Nat) := by
      rw [List.size_toArray, h3, hbrs]; push_cast; rfl
    exact_mod_cast this
  case block =>
    intro n k hk
    exact h4 n k (by simpa using hk)

end Tessera
