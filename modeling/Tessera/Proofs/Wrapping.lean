import Tessera.Proofs.Sharing
import Tessera.Proofs.Words

/-!
# A product in machine words

The product of matrices is an integer sum with one reduction at the end. A machine adds its terms
in place, in words that lose their high bits, and takes ranges of rows in any order. What comes
out is the same: no bit that is lost on the way decides about the result, and the only table that
is written is the new one.

* `Workers.HandsOut`: ranges that are handed out by counting in words.
* `Workers.ranges_handsOut`: they are the ranges of the indices.
* `WordMatrix`: a matrix whose entries are words in memory.
* `addWord`, `mulAddWords`: a term, and a whole product, in words.
* `Carries`: words that agree with integers in their 64 bits.
* `addWords_carry`: terms added in words and in integers.
* `mulAdd_exact`: the product, in integers and in words.
-/

namespace Tessera

namespace Workers

/-- Ranges of length `chunk` from `lo` on, the last one up to `n`, with `lo` counted in words. -/
inductive CountsOut (n chunk : Int) : Int → List (Int × Int) → Prop
  | stop {lo : Int} : n ≤ lo → CountsOut n chunk lo []
  | next {lo : Int} {rs : List (Int × Int)} : lo < n → CountsOut n chunk (wrap64 (lo + chunk)) rs →
      CountsOut n chunk lo ((lo, min (wrap64 (lo + chunk)) n) :: rs)

/-- The ranges handed out for the indices below `n`, in words: as many as there are workers, or all
in one on the spot. -/
def HandsOut (w : Option Workers) (n : Int) (rs : List (Int × Int)) : Prop :=
  if n ≤ 0 then rs = []
  else if inline w || n == 1 then rs = [(0, n)]
  else ∃ chunk, quotient (wrap64 (wrap64 (n + min (size w : Int) n) - 1)) (min (size w : Int) n) =
    .ok chunk ∧ CountsOut n chunk 0 rs

theorem countsOut_range {n chunk : Int} (hchunk : 1 ≤ chunk) (m : Nat) {lo : Int} (hlo : 0 ≤ lo)
    (hsmall : lo + m * chunk < 2 ^ 63) (hm : ((n - lo + chunk - 1) / chunk).toNat = m) :
    CountsOut n chunk lo ((List.range m).map fun (k : Nat) =>
      (lo + k * chunk, min (lo + k * chunk + chunk) n)) := by
  induction m generalizing lo with
  | zero =>
    have hq : (n - lo + chunk - 1) / chunk < 1 := by omega
    have := (Int.ediv_lt_iff_lt_mul (by omega)).1 hq
    exact .stop (by omega)
  | succ m ih =>
    have hq : 1 ≤ (n - lo + chunk - 1) / chunk := by omega
    have hlt := (Int.le_ediv_iff_mul_le (by omega)).1 hq
    have hend : lo + (m + 1 : Nat) * chunk = lo + chunk + m * chunk := by push_cast; ring
    have hrest0 : 0 ≤ (m : Int) * chunk := Int.mul_nonneg (by omega) (by omega)
    have hword : wrap64 (lo + chunk) = lo + chunk := wrap64_small (by omega) (by omega)
    have hnext : (n - (lo + chunk) + chunk - 1) / chunk = (n - lo + chunk - 1) / chunk - 1 := by
      rw [show n - (lo + chunk) + chunk - 1 = (n - lo + chunk - 1) + (-1) * chunk by ring,
        Int.add_mul_ediv_right _ _ (by omega)]
      rfl
    have hrest := ih (show 0 ≤ lo + chunk by omega) (by omega) (by rw [hnext]; omega)
    have hcons := CountsOut.next (show lo < n by omega) (by rw [hword]; exact hrest)
    rw [List.range_succ_eq_map, List.map_cons, List.map_map]
    rw [hword] at hcons
    convert hcons using 2
    · simp
    · refine List.map_congr_left fun k _ => ?_
      simp only [Function.comp_apply, Nat.succ_eq_add_one, Nat.cast_add, Nat.cast_one]
      rw [show lo + ((k : Int) + 1) * chunk = lo + chunk + k * chunk by ring]

/-- The length of a range is the number of indices for each part, rounded up, also in words: all parts
together have room for the indices, and by less than one for each part too much. -/
theorem quotient_chunk {n parts : Int} (hparts : 1 ≤ parts) (hle : parts ≤ n)
    (hsmall : n + parts < 2 ^ 63) : ∃ chunk, (n + parts - 1).tdiv parts = chunk ∧
      quotient (wrap64 (wrap64 (n + parts) - 1)) parts = .ok chunk ∧ 1 ≤ chunk ∧
      n ≤ parts * chunk ∧ parts * chunk < n + parts := by
  have hdiv : (n + parts - 1).tdiv parts = (n + parts - 1) / parts :=
    Int.tdiv_eq_ediv_of_nonneg (by omega)
  obtain ⟨hroom, hover⟩ := ceil_bounds (a := n) hparts
  rw [Int.mul_comm] at hroom hover
  refine ⟨_, hdiv, ?_, (Int.le_ediv_iff_mul_le (by omega)).2 (by omega), hroom, by omega⟩
  rw [wrap64_small (x := n + parts) (by omega) (by omega), wrap64_small (by omega) (by omega),
    quotient_small (by omega) (by omega) (by omega)]

/-- **The ranges of the indices are handed out in words**, as long as the indices and the parts that
they are split into have a sum that is a word. -/
theorem ranges_handsOut_of_sum {w : Option Workers} (hw : ∀ v ∈ w, 0 < v.count) {n : Int}
    (hsmall : n + min (size w : Int) n < 2 ^ 63) : HandsOut w n (ranges w n) := by
  unfold HandsOut ranges
  by_cases h0 : n ≤ 0
  · rw [if_pos h0, if_pos h0]
  rw [if_neg h0, if_neg h0]
  by_cases hone : (inline w || n == 1) = true
  · rw [if_pos hone, if_pos hone]
  rw [if_neg hone, if_neg hone]
  have hsize := size_pos hw
  simp only
  generalize hparts : min (size w : Int) n = parts at hsmall
  have hp : 1 ≤ parts ∧ parts ≤ n := by omega
  obtain ⟨chunk, hdiv, hquotient, hchunk, hroom, hover⟩ := quotient_chunk hp.1 hp.2 hsmall
  refine ⟨chunk, hquotient, ?_⟩
  rw [hdiv]
  -- there are no more ranges than parts
  have hfew : (n + chunk - 1) / chunk ≤ parts := by
    refine Int.le_of_lt_add_one ((Int.ediv_lt_iff_lt_mul (by omega)).2 ?_)
    rw [Int.add_mul, one_mul]
    omega
  have hend : (((n + chunk - 1) / chunk).toNat : Int) * chunk ≤ parts * chunk :=
    Int.mul_le_mul_of_nonneg_right (by omega) (by omega)
  have := countsOut_range hchunk ((n + chunk - 1) / chunk).toNat le_rfl (by omega) (by rw [sub_zero])
  simpa using this

/-- **The ranges of fewer than `2 ^ 62` indices are handed out in words**, however many workers. -/
theorem ranges_handsOut {w : Option Workers} (hw : ∀ v ∈ w, 0 < v.count) {n : Int} (hn : n < 2 ^ 62) :
    HandsOut w n (ranges w n) :=
  ranges_handsOut_of_sum hw (by omega)

end Workers

/-- A matrix whose entries are words in memory; every table has a place of its own. -/
structure WordMatrix where
  place : Nat
  rows : Nat
  cols : Nat

namespace WordMatrix

variable {m : WordMatrix} {mem : Nat → Array Int64}

/-- The matrix of integers. -/
def matrix (m : WordMatrix) (mem : Nat → Array Int64) : Matrix :=
  ⟨m.rows, m.cols, (mem m.place).map Int64.toInt⟩

/-- The table has as many words as the shape says, of eight bytes each. -/
structure Full (m : WordMatrix) (mem : Nat → Array Int64) : Prop where
  size : (mem m.place).size = m.rows * m.cols
  bytes : (mem m.place).size * 8 < 2 ^ 64

theorem Full.filled (h : m.Full mem) : (m.matrix mem).Filled m.rows m.cols := by
  have := h.bytes
  rw [h.size] at this
  exact ⟨rfl, rfl, by simpa [matrix] using h.size, by omega⟩

theorem matrix_congr {mem' : Nat → Array Int64} (h : mem' m.place = mem m.place) :
    m.matrix mem' = m.matrix mem := by
  rw [matrix, matrix, h]

end WordMatrix

/-- One term added in place, to the words of table `out`. -/
def addWord (a b : WordMatrix) (out : Nat) (mem : Nat → Array Int64) (t : Term) :
    Outcome (Nat → Array Int64) := do
  let factor ← entry (mem a.place) (wrap64 (t.row * a.cols + t.inner))
  if factor = 0 then return mem
  let v ← entry (mem b.place) (wrap64 (t.inner * b.cols + t.col))
  let place := wrap64 (t.row * b.cols + t.col)
  let old ← entry (mem out) place
  return Function.update mem out ((mem out).setIfInBounds place.toNat (old + factor * v))

/-- The sum of `x` and the product of `a` and `b` in words: `x` is copied to table `out`, the terms
are added there in some order, and every word is brought into the type. -/
def mulAddWords (acc : Scalar) (a b x : WordMatrix) (out : Nat) (order : List Term)
    (mem : Nat → Array Int64) : Outcome (Nat → Array Int64) := do
  let mem ← order.foldlM (addWord a b out) (Function.update mem out (mem x.place))
  return Function.update mem out ((mem out).map acc.wrapWord)

/-- Words that agree with integers in their 64 bits. -/
def Carries (words : Array Int64) (data : Array Int) : Prop :=
  words.map Int64.toInt = data.map (·.bmod (2 ^ 64))

section Carry

variable {a b : WordMatrix} {mem : Nat → Array Int64} {out : Nat} {data data' : Array Int}

theorem entry_map {α β : Type} {f : α → β} {xs : Array α} {i : Int} {y : β} :
    entry (xs.map f) i = .ok y ↔ ∃ x, entry xs i = .ok x ∧ f x = y := by
  simp only [entry_eq_ok, Array.getElem?_map, Option.map_eq_some_iff]
  constructor
  · rintro ⟨h0, x, hx, rfl⟩
    exact ⟨x, ⟨h0, hx⟩, rfl⟩
  · rintro ⟨x, ⟨h0, hx⟩, rfl⟩
    exact ⟨h0, x, hx, rfl⟩

/-- Words agree with themselves. -/
theorem carries_toInt (words : Array Int64) : Carries words (words.map Int64.toInt) := by
  unfold Carries
  rw [Array.map_map]
  refine Array.map_congr_left fun v _ => ?_
  have h0 := v.le_toInt
  have h1 := v.toInt_lt
  exact (Int.bmod_eq_of_le (by omega) (by omega)).symm

/-- Words that agree with integers are brought to the same numbers of a type. -/
theorem Carries.wrapped {acc : Scalar} (hacc : acc.Supported) {words : Array Int64}
    (h : Carries words data) : (words.map acc.wrapWord).map Int64.toInt = data.map acc.wrapped := by
  have hwords : (words.map acc.wrapWord).map Int64.toInt =
      (words.map Int64.toInt).map acc.wrapped := by
    rw [Array.map_map, Array.map_map]
    exact Array.map_congr_left fun v _ => hacc.wrapWord v
  have hdata : (data.map (·.bmod (2 ^ 64))).map acc.wrapped = data.map acc.wrapped := by
    rw [Array.map_map]
    exact Array.map_congr_left fun v _ => Scalar.wrapped_bmod hacc v
  rw [hwords, h, hdata]

/-- **One term added**, in words and in integers; no other table is written. -/
theorem addWord_carries (hcarry : Carries (mem out) data) {t : Term}
    (h : addTerm (a.matrix mem) (b.matrix mem) data t = .ok data') :
    ∃ mem', addWord a b out mem t = .ok mem' ∧ Carries (mem' out) data' ∧
      ∀ k ≠ out, mem' k = mem k := by
  unfold addTerm at h
  obtain ⟨factor, hfactor, h⟩ := Outcome.bind_eq_ok.1 h
  obtain ⟨factor, hfactor', rfl⟩ := entry_map.1 hfactor
  have hzero : factor.toInt = 0 ↔ factor = 0 := Int64.toInt_inj (y := 0)
  unfold addWord
  simp only [show entry (mem a.place) (wrap64 (t.row * a.cols + t.inner)) = .ok factor from hfactor',
    Outcome.ok_bind]
  by_cases hf : factor = 0
  · rw [if_pos (hzero.2 hf)] at h
    obtain rfl := Outcome.pure_eq_ok.1 h
    rw [if_pos hf]
    exact ⟨mem, rfl, hcarry, fun _ _ => rfl⟩
  · rw [if_neg (mt hzero.1 hf)] at h
    obtain ⟨v, hv, h⟩ := Outcome.bind_eq_ok.1 h
    obtain ⟨v, hv', rfl⟩ := entry_map.1 hv
    obtain ⟨old, hold, h⟩ := Outcome.bind_eq_ok.1 h
    obtain rfl := Outcome.pure_eq_ok.1 h
    -- the word at the place agrees with the integer there
    have hplace : entry ((mem out).map Int64.toInt) (wrap64 (t.row * b.cols + t.col)) =
        .ok (old.bmod (2 ^ 64)) := by
      rw [show (mem out).map Int64.toInt = _ from hcarry]
      exact entry_map.2 ⟨old, hold, rfl⟩
    obtain ⟨word, hword, hagree⟩ := entry_map.1 hplace
    rw [if_neg hf]
    simp only [show entry (mem b.place) (wrap64 (t.inner * b.cols + t.col)) = .ok v from hv', hword,
      Outcome.ok_bind]
    refine ⟨_, rfl, ?_, fun k hk => Function.update_of_ne hk _ _⟩
    unfold Carries
    rw [Function.update_self, Array.map_setIfInBounds, Array.map_setIfInBounds,
      show (mem out).map Int64.toInt = _ from hcarry]
    refine congrArg _ ?_
    rw [Int64.toInt_add, Int64.toInt_mul, hagree]
    simp

/-- **Terms added one after the other**, in words and in integers. -/
theorem addWords_carry (ha : a.place ≠ out) (hb : b.place ≠ out) {order : List Term}
    (hcarry : Carries (mem out) data)
    (h : order.foldlM (addTerm (a.matrix mem) (b.matrix mem)) data = .ok data') :
    ∃ mem', order.foldlM (addWord a b out) mem = .ok mem' ∧ Carries (mem' out) data' ∧
      ∀ k ≠ out, mem' k = mem k := by
  induction order generalizing mem data with
  | nil =>
    obtain rfl := Outcome.pure_eq_ok.1 h
    exact ⟨mem, rfl, hcarry, fun _ _ => rfl⟩
  | cons t order ih =>
    obtain ⟨data₁, h1, h⟩ := foldlM_cons_eq_ok.1 h
    obtain ⟨mem₁, hmem₁, hcarry₁, hkeep₁⟩ := addWord_carries hcarry h1
    -- the factors are still what they were
    rw [← WordMatrix.matrix_congr (hkeep₁ _ ha), ← WordMatrix.matrix_congr (hkeep₁ _ hb)] at h
    obtain ⟨mem₂, hmem₂, hcarry₂, hkeep₂⟩ := ih hcarry₁ h
    exact ⟨mem₂, foldlM_cons_eq_ok.2 ⟨mem₁, hmem₁, hmem₂⟩, hcarry₂, fun k hk =>
      (hkeep₂ k hk).trans (hkeep₁ k hk)⟩

end Carry

/-- **A product is exact for every group of workers**: it returns a full matrix, of which every
entry is the number of the type that is congruent to the integer sum; below the rows of `a` there
is no product in it. The terms of all workers, added in words in any order, make the same matrix in
table `out`, and no other table changes. The ranges of rows are handed out by counting in words. -/
theorem mulAdd_exact {a b x : WordMatrix} {mem : Nat → Array Int64} (ha : a.Full mem)
    (hb : b.Full mem) (hx : x.Full mem) (hinner : a.cols = b.rows) (hcols : x.cols = b.cols)
    (hrows : a.rows ≤ x.rows) (hfew : x.rows < 2 ^ 62) {acc : Scalar} (hacc : acc.Supported)
    {w : Option Workers} (hw : ∀ v ∈ w, 0 < v.count) {order : List Term}
    (horder : order.Perm (Workers.terms w a.rows a.cols b.cols)) {out : Nat}
    (hout : a.place ≠ out ∧ b.place ≠ out ∧ x.place ≠ out) :
    Workers.HandsOut w a.rows (Workers.ranges w a.rows) ∧
    ∃ m mem', mulAdd (a.matrix mem) (b.matrix mem) (x.matrix mem) acc = .ok m ∧
      (m.rows = x.rows ∧ m.cols = x.cols ∧ m.WellFormed) ∧
      (∀ i < x.rows, ∀ j < x.cols, acc.Reduces ((x.matrix mem).cell i j +
        if i < a.rows then (a.matrix mem).dot (b.matrix mem) i j else 0) (m.cell i j)) ∧
      mulAddWords acc a b x out order mem = .ok mem' ∧ { x with place := out }.matrix mem' = m ∧
      ∀ k ≠ out, mem' k = mem k := by
  have hafill := ha.filled
  have hbfill := hb.filled
  have hxfill := hx.filled
  rw [hinner] at hafill
  rw [hcols] at hxfill
  obtain ⟨data, hdata, hm⟩ := addTerms_eq hafill hbfill hxfill hrows hacc hw (hinner ▸ horder)
  obtain ⟨hmfill, hcells⟩ := mulAdd_cells hafill hbfill hxfill hrows hacc hm
  refine ⟨Workers.ranges_handsOut hw (by exact_mod_cast hrows.trans_lt hfew),
    { x.matrix mem with data := data.map acc.wrapped }, ?_⟩
  -- the terms are added to a copy of `x`
  set start := Function.update mem out (mem x.place) with hstart
  have hkeep : ∀ k ≠ out, start k = mem k := fun k hk => Function.update_of_ne hk _ _
  have hcarry : Carries (start out) (x.matrix mem).data := by
    rw [hstart, Function.update_self]
    exact carries_toInt _
  rw [← WordMatrix.matrix_congr (hkeep _ hout.1), ← WordMatrix.matrix_congr (hkeep _ hout.2.1)]
    at hdata
  obtain ⟨sum, hsum, hcarry', hkeep'⟩ := addWords_carry hout.1 hout.2.1 hcarry hdata
  refine ⟨_, hm, ⟨rfl, rfl, ?_⟩, fun i hi j hj => ?_, Outcome.bind_ok hsum rfl, ?_, fun k hk => ?_⟩
  · refine ⟨Int.natCast_nonneg _, Int.natCast_nonneg _, ?_⟩
    rw [hmfill.size, hmfill.rows, hmfill.cols]
    push_cast
    rfl
  · rw [hcells i hi j (hcols ▸ hj)]
    split
    · exact .wrapped hacc _
    · rw [hafill.dot_below (by omega)]
      exact .wrapped hacc _
  · unfold WordMatrix.matrix
    simp only [Function.update_self, hcarry'.wrapped hacc]
  · rw [Function.update_of_ne hk, hkeep' k hk, hkeep k hk]

/-- The least word and the greatest, in the factors and in the sum. -/
def extremes : Nat → Array Int64 := fun k =>
  if k = 0 then #[Int64.minValue, 3, 0, -1]
  else if k = 1 then #[5, 7, Int64.maxValue, 1]
  else #[1, Int64.minValue, 0, 0, 100, 200]

theorem extremes_exact : ∃ m mem', mulAdd ((⟨0, 2, 2⟩ : WordMatrix).matrix extremes)
      ((⟨1, 2, 2⟩ : WordMatrix).matrix extremes) ((⟨2, 3, 2⟩ : WordMatrix).matrix extremes) ⟨3⟩ =
        .ok m ∧
    Scalar.Reduces ⟨3⟩ (1 + (Int64.minValue.toInt * 5 + 3 * Int64.maxValue.toInt)) (m.cell 0 0) ∧
    Scalar.Reduces ⟨3⟩ 200 (m.cell 2 1) ∧
    mulAddWords ⟨3⟩ ⟨0, 2, 2⟩ ⟨1, 2, 2⟩ ⟨2, 3, 2⟩ 3 (Workers.terms (some ⟨2, false⟩) 2 2 2).reverse
      extremes = .ok mem' ∧
    (⟨3, 3, 2⟩ : WordMatrix).matrix mem' = m ∧ ∀ k < 3, mem' k = extremes k := by
  obtain ⟨-, m, mem', hm, -, hcells, hwords, hout, hkeep⟩ :=
    @mulAdd_exact ⟨0, 2, 2⟩ ⟨1, 2, 2⟩ ⟨2, 3, 2⟩ extremes ⟨rfl, by decide⟩ ⟨rfl, by decide⟩
      ⟨rfl, by decide⟩ rfl rfl (by decide) (by decide) ⟨3⟩ (by decide) (some ⟨2, false⟩)
      (by simp) (Workers.terms (some ⟨2, false⟩) 2 2 2).reverse (List.reverse_perm _) 3 (by decide)
  have hfirst : ((⟨2, 3, 2⟩ : WordMatrix).matrix extremes).cell 0 0 +
      ((⟨0, 2, 2⟩ : WordMatrix).matrix extremes).dot ((⟨1, 2, 2⟩ : WordMatrix).matrix extremes) 0 0 =
      1 + (Int64.minValue.toInt * 5 + 3 * Int64.maxValue.toInt) := by
    simp [WordMatrix.matrix, extremes, Matrix.cell, Matrix.dot, List.range_succ]
  have hlast : ((⟨2, 3, 2⟩ : WordMatrix).matrix extremes).cell 2 1 + 0 = 200 := by
    simp [WordMatrix.matrix, extremes, Matrix.cell]
  have h00 := hcells 0 (by decide) 0 (by decide)
  have h21 := hcells 2 (by decide) 1 (by decide)
  rw [if_pos (by decide), hfirst] at h00
  rw [if_neg (by decide), hlast] at h21
  exact ⟨m, mem', hm, h00, h21, hwords, hout, fun k hk => hkeep k (by omega)⟩

end Tessera
