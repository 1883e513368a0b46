import Tessera.Proofs.Stacking

/-!
# Matrices block by block

A matrix that is padded, cut into blocks and put together again is the matrix itself, whatever its
shape is and however short its last blocks are; and the vectors of its blocks, below each other,
are parts of its rows.

* `roundedUp`, `paddedRows`: the shape of a padded matrix.
* `FitsBlocks`: a shape for which the sides and the tables fit the machine.
* `pad_filled`, `pad_again`: padding, once and twice.
* `split_filled`: the blocks of a matrix.
* `unsplit_split`: the blocks of a padded matrix put together.
* `vector_part`: the vectors of the blocks of a matrix.
* `tiles_exact`: all this, for every matrix and every list of blocks.
-/

namespace Tessera

/-- The least multiple of `b` that is at least `n`. -/
def roundedUp (n b : Nat) : Nat := (n + b - 1) / b * b

/-- The rows of a padded matrix. -/
def paddedRows (padRows : Bool) (r b : Nat) : Nat := if padRows then roundedUp r b else r

/-- A matrix of `R` rows and `C` columns can be handled in blocks of side `b`: its sides are rounded
up in words, and its table, of eight bytes an entry, and the table of its blocks, of 32 bytes a
block, fit the address space. -/
structure FitsBlocks (R C b : Nat) : Prop where
  side : 1 ≤ b
  rows : R + b ≤ 2 ^ 63
  cols : C + b ≤ 2 ^ 63
  table : R * C * 8 ≤ 2 ^ 48
  blocks : (R + b - 1) / b * (C / b) * 32 ≤ 2 ^ 48

section Rounding

variable {n b : Nat}

theorem le_roundedUp (hb : 1 ≤ b) : n ≤ roundedUp n b := by
  have := ceil_bounds (a := n) (b := b) (by omega)
  unfold roundedUp
  have hcast : (((n + b - 1) / b * b : Nat) : Int) = ((n : Int) + b - 1) / b * b := by
    push_cast [show 1 ≤ n + b by omega]
    rfl
  omega

/-- A multiple is not rounded. -/
theorem roundedUp_mul (hb : 1 ≤ b) (q : Nat) : roundedUp (q * b) b = q * b := by
  unfold roundedUp
  rw [show q * b + b - 1 = b - 1 + q * b by omega, Nat.add_mul_div_right _ _ hb,
    Nat.div_eq_of_lt (by omega), Nat.zero_add]

theorem roundedUp_roundedUp (hb : 1 ≤ b) : roundedUp (roundedUp n b) b = roundedUp n b :=
  roundedUp_mul hb _

theorem paddedRows_paddedRows (padRows : Bool) (hb : 1 ≤ b) :
    paddedRows padRows (paddedRows padRows n b) b = paddedRows padRows n b := by
  cases padRows with
  | false => rfl
  | true => exact roundedUp_roundedUp hb

theorem le_paddedRows (padRows : Bool) (hb : 1 ≤ b) : n ≤ paddedRows padRows n b := by
  cases padRows with
  | false => exact le_rfl
  | true => exact le_roundedUp hb

/-- Rounding up in words. -/
theorem roundUp_eq (hb : 1 ≤ b) (h : roundedUp n b + b ≤ 2 ^ 63) :
    roundUp (n : Int) b = .ok (roundedUp n b : Nat) := by
  have hle := le_roundedUp (n := n) hb
  rw [roundUp_small (by omega) (by omega) (by omega)]
  unfold roundedUp
  push_cast [show 1 ≤ n + b by omega]
  rfl

end Rounding

section Pad

variable {m : Matrix} {r c b : Nat} {padRows : Bool}

/-- One more row is copied. -/
theorem Copied.next {R C k : Nat} {data : Array Int} (hm : m.Filled r c) (hcC : c ≤ C) (hrR : r ≤ R)
    (hsmall : R * C < 4611686018427387904) (hk : k < r) (h : Copied m c R C k data) :
    ∃ data', padRow m C k data = .ok data' ∧ Copied m c R C (k + 1) data' := by
  obtain ⟨row, hrow, -⟩ := hm.row hk
  have hkR : k < R := by omega
  obtain ⟨data', hd⟩ := padRow_progress hm.cols hcC hkR h.size hsmall hrow
  exact ⟨data', hd, (h.round hm.cols hcC hkR hsmall hd).1⟩

/-- **A padded matrix** has the entries of the matrix, and zeros elsewhere. -/
theorem pad_filled (hm : m.Filled r c)
    (hfit : FitsBlocks (paddedRows padRows r b) (roundedUp c b) b) :
    ∃ p, m.pad b padRows = .ok p ∧ p.Filled (paddedRows padRows r b) (roundedUp c b) ∧
      ∀ i, ∀ j < roundedUp c b, p.cell i j = if i < r ∧ j < c then m.cell i j else 0 := by
  obtain ⟨hb, hR, hC, htable, -⟩ := hfit
  have hrR := le_paddedRows (n := r) padRows hb
  have hcC := le_roundedUp (n := c) hb
  have hcols := roundUp_eq hb hC
  have hrows : (if padRows then roundUp (r : Int) b else pure (r : Int)) =
      .ok ((paddedRows padRows r b : Nat) : Int) := by
    cases padRows with
    | false => rfl
    | true => exact roundUp_eq hb hR
  generalize paddedRows padRows r b = R at *
  generalize roundedUp c b = C at *
  obtain ⟨data, hdata, hcopied⟩ := loopBelow_progress (f := padRow m C) (Copied m c R C)
    (n := (r : Int)) (fun k _ hk h => h.next hm hcC hrR (by omega) (by exact_mod_cast hk))
    (.blank m c R C)
  have hfilled : Matrix.Filled ⟨R, C, data⟩ R C := ⟨rfl, rfl, hcopied.size, by omega⟩
  refine ⟨⟨R, C, data⟩, ?_, hfilled, fun i j hj => ?_⟩
  · refine pad_eq_ok.2 ⟨?_, by rw [hm.cols, hcols], R * C, ?_, by omega, hm.rows ▸ hdata⟩
    · rw [hm.rows, hrows]
    · rw [← Int.natCast_mul, wrap64_small (by omega) (by omega)]
  · rw [hfilled.cell, hcopied.cells i j hj, Int.toNat_natCast]

/-- **Padding twice** is padding once. -/
theorem pad_again {p : Matrix} (hp : p.Filled (paddedRows padRows r b) (roundedUp c b))
    (hfit : FitsBlocks (paddedRows padRows r b) (roundedUp c b) b) : p.pad b padRows = .ok p := by
  have hb := hfit.side
  have hrows := paddedRows_paddedRows (n := r) padRows hb
  have hcols := roundedUp_roundedUp (n := c) hb
  obtain ⟨p', hpad, hp', hcells⟩ := @pad_filled p _ _ b padRows hp (by rwa [hrows, hcols])
  rw [hrows, hcols] at hp'
  rw [hpad, hp'.ext hp fun i hi j hj => by rw [hcells i j (by rwa [hcols]), if_pos ⟨hi, hj⟩]]

end Pad

section Split

variable {p : Matrix} {R b bc : Nat} {blocks : List Block}

/-- **The blocks of a matrix** whose columns are a multiple of the side. -/
theorem split_filled (hp : p.Filled R (bc * b)) (hfit : FitsBlocks R (bc * b) b) :
    ∃ blocks, p.split b = .ok (blocks, ((R + b - 1) / b : Nat), (bc : Int)) ∧
      blocks.length = (R + b - 1) / b * bc ∧ ∀ n k, blocks[n]? = some k → p.IsBlock b bc n k := by
  obtain ⟨hb, hR, hC, htable, hcount⟩ := hfit
  rw [Nat.mul_div_cancel _ hb] at hcount
  have hceil : ((R : Int) + b - 1) / b = (((R + b - 1) / b : Nat) : Int) := by
    push_cast [show 1 ≤ R + b by omega]
    rfl
  have hfull : (p.data.size : Int) = p.rows * p.cols := by
    rw [hp.size, hp.rows, hp.cols, ← Int.natCast_mul]
  have hsmall : p.rows * p.cols ≤ 35184372088832 := by
    rw [hp.rows, hp.cols, ← Int.natCast_mul]
    omega
  have hrb : p.rows + b ≤ 9223372036854775808 := by
    rw [hp.rows]
    omega
  have hcb : p.cols < 9223372036854775808 := by
    rw [hp.cols]
    omega
  have hr0 : 0 ≤ p.rows := by
    rw [hp.rows]
    omega
  obtain ⟨blocks, hsplit⟩ := split_progress hb hr0 hrb hp.cols hcb hfull hsmall (by
    rw [hp.rows, hceil]
    exact_mod_cast hcount)
  obtain ⟨-, -, hlen, hblock⟩ := split_blocks hb hr0 hrb hp.cols hcb hfull hsmall hsplit
  rw [hp.rows, hceil] at hsplit hlen
  exact ⟨blocks, hsplit, by exact_mod_cast hlen, hblock⟩

/-- A block of a matrix starts at one of its rows. -/
theorem block_start (hb : 1 ≤ b) (hlen : blocks.length = (R + b - 1) / b * bc) {n : Nat} {k : Block}
    (hk : blocks[n]? = some k) : 1 ≤ bc ∧ n / bc * b < R := by
  have hn := (List.getElem?_eq_some_iff.1 hk).1
  rw [hlen] at hn
  have hbc : 1 ≤ bc := Nat.pos_of_ne_zero fun h0 => by
    rw [h0, Nat.mul_zero] at hn
    omega
  have hrow : n / bc < (R + b - 1) / b := Nat.div_lt_of_lt_mul (by rwa [Nat.mul_comm])
  have hmul := (Nat.le_div_iff_mul_le hb).1 (show n / bc + 1 ≤ (R + b - 1) / b from hrow)
  rw [Nat.succ_mul] at hmul
  exact ⟨hbc, by omega⟩

/-- The blocks of a matrix are no higher than wide. -/
theorem blocks_within (hp : p.Filled R (bc * b)) (hfit : FitsBlocks R (bc * b) b)
    (hlen : blocks.length = (R + b - 1) / b * bc)
    (hblock : ∀ n k, blocks[n]? = some k → p.IsBlock b bc n k) : ∀ k ∈ blocks, k.Within b := by
  intro k hk
  obtain ⟨n, hn⟩ := List.getElem?_of_mem hk
  obtain ⟨hbc, hstart⟩ := block_start hfit.side hlen hn
  have hk := hblock n k hn
  have hheight := hk.height
  rw [hp.rows] at hheight
  have hcols : b ≤ bc * b := Nat.le_mul_of_pos_left b hbc
  have hsize : (k.data.size : Int) ≤ ((R * (bc * b) : Nat) : Int) := by
    rw [hk.size, Int.natCast_mul]
    exact Int.mul_le_mul (by omega) (by exact_mod_cast hcols) (by omega) (by omega)
  have htable := hfit.table
  exact ⟨by omega, hk.size, by omega⟩

/-- **The blocks of a padded matrix put together** are the matrix. -/
theorem unsplit_split {m : Matrix} {r c : Nat} (hm : m.Filled r c) (hr : r ≤ R) (hc : c ≤ bc * b)
    (hp : p.Filled R (bc * b)) (hfit : FitsBlocks R (bc * b) b)
    (hcells : ∀ i < r, ∀ j < c, p.cell i j = m.cell i j)
    (hlen : blocks.length = (R + b - 1) / b * bc)
    (hblock : ∀ n k, blocks[n]? = some k → p.IsBlock b bc n k) :
    unsplit blocks bc b r c = .ok m := by
  have hb := hfit.side
  have htable := hfit.table
  have hcount := hfit.blocks
  rw [Nat.mul_div_cancel _ hb] at hcount
  have hrc : r * c ≤ R * (bc * b) := Nat.mul_le_mul hr hc
  have hwithin := blocks_within hp hfit hlen hblock
  rcases Nat.eq_zero_or_pos bc with rfl | hbc
  · -- without columns there are no blocks
    rw [Nat.mul_zero] at hlen
    obtain rfl : c = 0 := by omega
    obtain rfl := List.length_eq_zero_iff.1 hlen
    have hblank : Matrix.Filled ⟨r, (0 : Nat), Array.replicate 0 0⟩ r 0 :=
      ⟨rfl, rfl, by simp, by omega⟩
    have hzero : Matrix.zero r (0 : Nat) = .ok ⟨r, (0 : Nat), Array.replicate 0 0⟩ :=
      zero_eq_ok.2 ⟨0, by simp [wrap64], by omega, rfl⟩
    rw [hm.ext hblank fun _ _ _ hj => absurd hj (Nat.not_lt_zero _)]
    exact Outcome.bind_ok hzero rfl
  · obtain ⟨u, hu, hfilled, hucells⟩ :=
      unsplit_cells hb hbc hc hwithin (by omega) (show r * c ≤ _ by omega)
    rw [hu, hfilled.ext hm fun i hi j hj => ?_]
    -- entry `(i, j)` is in the block that its place names
    have hi' : i / b < (R + b - 1) / b := by
      refine (Nat.div_lt_iff_lt_mul hb).2 ?_
      have := le_roundedUp (n := R) hb
      unfold roundedUp at this
      omega
    have hj' : j / b < bc := Nat.div_lt_of_lt_mul (by rw [Nat.mul_comm]; omega)
    have hin : i / b * bc + j / b < blocks.length := hlen ▸ index_lt hi' hj'
    rw [hucells i hi j hj, if_pos hin, List.getD_eq_getElem?_getD, List.getElem?_eq_getElem hin,
      Option.getD_some,
      (hblock _ _ (List.getElem?_eq_getElem hin)).cell _ (Nat.mod_lt i hb) _ (Nat.mod_lt j hb),
      row_of_index hj', Nat.mul_add_mod_of_lt hj', Nat.div_add_mod', Nat.div_add_mod', hcells i hi j hj]

/-- Blocks of full height have no more entries than their matrix. -/
theorem entries_le (hp : p.Filled R (bc * b))
    (hlen : blocks.length = (R + b - 1) / b * bc)
    (hblock : ∀ n k, blocks[n]? = some k → p.IsBlock b bc n k) (hfull : ∀ k ∈ blocks, k.Full b) :
    (entriesOf blocks).length ≤ R * (bc * b) := by
  rw [length_entriesOf_full hfull, hlen]
  generalize hbr : (R + b - 1) / b = br at hlen ⊢
  rcases Nat.eq_zero_or_pos (br * bc) with h0 | hpos
  · rw [h0]
    omega
  -- the last block row has its full height
  have hbc : 1 ≤ bc := Nat.pos_of_mul_pos_left hpos
  obtain ⟨n, rfl⟩ : ∃ n, br = n + 1 := ⟨br - 1, by have := Nat.pos_of_mul_pos_right hpos; omega⟩
  have hin : n * bc < blocks.length := by
    rw [hlen, Nat.succ_mul]
    omega
  have hk := List.getElem?_eq_getElem hin
  have hheight := (hblock _ _ hk).height
  rw [(hfull _ (List.getElem_mem hin)).1, hp.rows, Nat.mul_div_cancel _ hbc] at hheight
  have hrows : (n + 1) * b ≤ R := by
    rw [Nat.succ_mul]
    omega
  calc (n + 1) * bc * b * b = (n + 1) * b * (bc * b) := by ring
    _ ≤ R * (bc * b) := Nat.mul_le_mul_right _ hrows

/-- **A vector of the blocks of a matrix** is a part of one of its rows. -/
theorem vector_part (hp : p.Filled R (bc * b)) (hfit : FitsBlocks R (bc * b) b)
    (hlen : blocks.length = (R + b - 1) / b * bc)
    (hblock : ∀ n k, blocks[n]? = some k → p.IsBlock b bc n k)
    (hheight : ∀ k ∈ blocks, k.height = b) :
    ∃ s, stack blocks b = .ok s ∧ ∀ v < blocks.length * b, ∃ k row whole,
      blocks[v / b]? = some k ∧ s.row v = .ok row ∧ k.vector (v % b : Nat) b = .ok row ∧
      p.row (v / b / bc * b + v % b : Nat) = .ok whole ∧
      row = whole.extract (v / b % bc * b) (v / b % bc * b + b) := by
  have hb := hfit.side
  have htable := hfit.table
  have hfull : ∀ k ∈ blocks, k.Full b := fun k hk => by
    have hsize := (blocks_within hp hfit hlen hblock k hk).size
    rw [hheight k hk] at hsize
    exact ⟨hheight k hk, by exact_mod_cast hsize⟩
  have hentries := entries_le hp hlen hblock hfull
  have hs := stack_eq hb (fun k hk => (hfull k hk).formed) (by omega)
  refine ⟨_, hs, fun v hv => ?_⟩
  obtain ⟨k, row, hk, hrow, hvector, hsize, hcells⟩ := stack_vector hb hfull (by omega) hs hv
  have hr : v % b < b := Nat.mod_lt v hb
  obtain ⟨hbc, hstart⟩ := block_start hb hlen hk
  have hheight := (hblock _ _ hk).height
  rw [(hfull k (List.mem_of_getElem? hk)).1, hp.rows] at hheight
  obtain ⟨whole, hwhole, hwsize, hwcells⟩ := hp.row (show v / b / bc * b + v % b < R by omega)
  have hcol : v / b % bc * b + b ≤ bc * b := by
    have := Nat.mul_le_mul_right b (show v / b % bc + 1 ≤ bc from Nat.mod_lt _ hbc)
    rwa [Nat.succ_mul] at this
  refine ⟨k, row, whole, hk, hrow, hvector, hwhole, ?_⟩
  have hpart : (whole.extract (v / b % bc * b) (v / b % bc * b + b)).size = b := by
    rw [Array.size_extract]
    omega
  refine Array.ext (hsize.trans hpart.symm) fun e he he' => ?_
  have hcell := hcells e (hsize ▸ he)
  rw [(hblock _ _ hk).cell _ hr _ (hsize ▸ he), ← hwcells _ (by omega)] at hcell
  rw [Array.getElem_extract]
  simpa [Array.getD_eq_getD_getElem?, Array.getElem?_eq_getElem he,
    Array.getElem?_eq_getElem (show v / b % bc * b + e < whole.size by omega)] using hcell

end Split

/-- **Blocks and what they are made of.** A matrix whose padded form fits the machine is padded
without a fault: it keeps its entries, gets zeros elsewhere, and does not change if it is padded
again. It is cut into blocks, which put together in its own shape give it back; if all have full
height, vector `v` of their stack is row `v % b` of block `v / b`, and a part of a row of the padded
matrix. Any blocks whose entries fit the address space are stacked, and cutting the stack at their
heights gives them back; if all have full height, its rows are theirs. -/
theorem tiles_exact {b : Nat} (hb : 1 ≤ b) :
    (∀ (m : Matrix) (padRows : Bool), m.WellFormed →
      FitsBlocks (paddedRows padRows m.rows.toNat b) (roundedUp m.cols.toNat b) b →
      ∃ (p : Matrix) (blocks : List Block) (br bc : Nat), m.pad b padRows = .ok p ∧
        (p.rows = paddedRows padRows m.rows.toNat b ∧ p.cols = roundedUp m.cols.toNat b ∧
          p.WellFormed) ∧
        (∀ i, ∀ j < roundedUp m.cols.toNat b,
          p.cell i j = if (i : Int) < m.rows ∧ (j : Int) < m.cols then m.cell i j else 0) ∧
        p.pad b padRows = .ok p ∧
        p.split b = .ok (blocks, (br : Int), (bc : Int)) ∧
        unsplit blocks bc b m.rows m.cols = .ok m ∧
        ((∀ k ∈ blocks, k.height = b) →
          ∃ s, stack blocks b = .ok s ∧ ∀ v < blocks.length * b, ∃ k row whole,
            blocks[v / b]? = some k ∧ s.row v = .ok row ∧ k.vector (v % b : Nat) b = .ok row ∧
            p.row (v / b / bc * b + v % b : Nat) = .ok whole ∧
            row = whole.extract (v / b % bc * b) (v / b % bc * b + b))) ∧
    ∀ blocks : List Block, (∀ k ∈ blocks, k.Formed b) → (entriesOf blocks).length * 8 ≤ 2 ^ 48 →
      ∃ s, stack blocks b = .ok s ∧ s.unstack (blocks.map (·.height)) = .ok blocks ∧
        ((∀ k ∈ blocks, k.height = b) → ∀ v < blocks.length * b, ∃ k row,
          blocks[v / b]? = some k ∧ s.row v = .ok row ∧ k.vector (v % b : Nat) b = .ok row) := by
  refine ⟨fun m padRows hm hfit => ?_, fun blocks hformed hsmall => ?_⟩
  · obtain ⟨hr, hc, hsize⟩ := hm
    obtain ⟨r, hr'⟩ := Int.eq_ofNat_of_zero_le hr
    obtain ⟨c, hc'⟩ := Int.eq_ofNat_of_zero_le hc
    rw [hr', hc'] at hsize ⊢
    rw [hr', hc', Int.toNat_natCast, Int.toNat_natCast] at hfit
    rw [Int.toNat_natCast, Int.toNat_natCast]
    have htable := hfit.table
    have hrR := le_paddedRows (n := r) padRows hb
    have hcC := le_roundedUp (n := c) hb
    have hrc := Nat.mul_le_mul hrR hcC
    have hfilled : m.Filled r c := ⟨hr', hc', by exact_mod_cast hsize, by omega⟩
    obtain ⟨p, hpad, hp, hcells⟩ := pad_filled hfilled hfit
    have hagain := pad_again hp hfit
    have hformed : p.WellFormed := by
      refine ⟨by rw [hp.rows]; omega, by rw [hp.cols]; omega, ?_⟩
      rw [hp.size, hp.rows, hp.cols, Int.natCast_mul]
    have hshape := hp
    unfold roundedUp at hshape hfit
    obtain ⟨blocks, hsplit, hlen, hblock⟩ := split_filled hshape hfit
    refine ⟨p, blocks, _, _, hpad, ⟨hp.rows, hp.cols, hformed⟩, fun i j hj => ?_, hagain, hsplit, ?_,
      fun hheight => vector_part hshape hfit hlen hblock hheight⟩
    · rw [hcells i j hj]
      simp only [Nat.cast_lt]
    · refine unsplit_split hfilled hrR hcC hshape hfit (fun i hi j hj => ?_) hlen hblock
      rw [hcells i j (hj.trans_le hcC), if_pos ⟨hi, hj⟩]
  · have hs := stack_eq hb hformed hsmall
    refine ⟨_, hs, unstack_stack hformed hsmall, fun hheight v hv => ?_⟩
    have hfull : ∀ k ∈ blocks, k.Full b := fun k hk => by
      have hsize := (hformed k hk).size
      rw [hheight k hk] at hsize
      exact ⟨hheight k hk, by exact_mod_cast hsize⟩
    obtain ⟨k, row, hk, hrow, hvector, -⟩ := stack_vector hb hfull hsmall hs hv
    exact ⟨k, row, hk, hrow, hvector⟩

/-- Three rows of five, in blocks of side two: the last block row is one row high, and the last
column of every block row is blank. -/
def ragged : Matrix := ⟨3, 5, #[1, 2, 3, 4, 5, 6, 7, 8, 9, 10, 11, 12, 13, 14, 15]⟩

theorem ragged_exact : ∃ p blocks br bc, ragged.pad 2 false = .ok p ∧ p.rows = 3 ∧ p.cols = 6 ∧
    p.pad 2 false = .ok p ∧ p.split 2 = .ok (blocks, br, bc) ∧
    unsplit blocks bc 2 3 5 = .ok ragged ∧
    ∃ s, stack [⟨2, #[1, 2, 3, 4]⟩, ⟨1, #[5, 6]⟩] 2 = .ok s ∧
      s.unstack [2, 1] = .ok [⟨2, #[1, 2, 3, 4]⟩, ⟨1, #[5, 6]⟩] := by
  obtain ⟨hmatrix, hblocks⟩ := @tiles_exact 2 (by decide)
  obtain ⟨p, blocks, br, bc, hpad, ⟨hrows, hcols, -⟩, -, hagain, hsplit, hunsplit, -⟩ :=
    hmatrix ragged false ⟨by decide, by decide, by decide⟩
      ⟨by decide, by decide, by decide, by decide, by decide⟩
  obtain ⟨s, hs, hunstack, -⟩ := hblocks [⟨2, #[1, 2, 3, 4]⟩, ⟨1, #[5, 6]⟩]
    (by
      intro k hk
      rcases List.mem_pair.1 hk with rfl | rfl
      · exact ⟨by decide, by decide⟩
      · exact ⟨by decide, by decide⟩)
    (by decide)
  exact ⟨p, blocks, br, bc, hpad, hrows, hcols, hagain, hsplit, hunsplit, s, hs, hunstack⟩

/-- A matrix without rows. The sides of its padded form and their product are words, but counting
its blocks overflows, and it is padded to a negative width. A matrix of one entry, whose padded
form would have 2⁶⁰, cannot be padded at all. -/
theorem widest_unpadded :
    (⟨0, 4611686018427387905, #[]⟩ : Matrix).WellFormed ∧
    roundedUp 4611686018427387905 4611686018427387905 < 2 ^ 63 ∧
    paddedRows true 0 4611686018427387905 * roundedUp 4611686018427387905 4611686018427387905 <
      2 ^ 63 ∧
    (⟨0, 4611686018427387905, #[]⟩ : Matrix).pad 4611686018427387905 true =
      .ok ⟨0, -4611686018427387905, #[]⟩ ∧
    (⟨0, -4611686018427387905, #[]⟩ : Matrix).pad 4611686018427387905 true = .ok ⟨0, 0, #[]⟩ ∧
    (⟨1, 1, #[5]⟩ : Matrix).WellFormed ∧
    paddedRows true 1 1073741824 * roundedUp 1 1073741824 < 2 ^ 63 ∧
    (⟨1, 1, #[5]⟩ : Matrix).pad 1073741824 true = .error .fault := by
  exact ⟨⟨by decide, by decide, by decide⟩, by decide, by decide, rfl, rfl,
    ⟨by decide, by decide, by decide⟩, by decide, rfl⟩

end Tessera
