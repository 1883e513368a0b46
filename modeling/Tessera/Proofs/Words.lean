import Tessera.Proofs.Containment

/-!
# Arithmetic in words

The accumulator arithmetic is stated in integers. A machine has words of 64 bits: sums,
products and shifts to the left lose their high bits, and a number is brought into a type
by shifting it up and down again. No bit that is lost decides about the result, with one
exception: the least word has no opposite, and so no shift to the left by its size.

* `Scalar.Reduces`: the number of a type that is congruent to an integer.
* `toInt_shiftLeft64`, `toInt_shiftRight64`: shifts of words, in integers.
* `Scalar.wrapWord`, `AluOp.onWords`: the operations on words.
* `AluOp.Makes`: what an operation makes of two integers.
* `alu_right`, `alu_left`: the two directions of a shift.
* `alu_exact`: an operation on two words, in integers and on words.
-/

namespace Tessera

namespace Scalar

variable {s : Scalar}

/-- `v` is the number of the type that is congruent to `x` modulo its size. -/
structure Reduces (s : Scalar) (x v : Int) : Prop where
  has : s.Has v
  dvd : (2 ^ (8 * s.width) : Int) ∣ x - v

theorem Reduces.wrapped (hs : s.Supported) (x : Int) : s.Reduces x (s.wrapped x) := by
  refine ⟨.wrapped hs x, ?_⟩
  have := Int.dvd_self_sub_bmod (x := x) (m := 2 ^ (8 * s.width))
  rw [Nat.cast_pow, Nat.cast_ofNat] at this
  exact this

/-- There is one such number. -/
theorem reduces_iff (hs : s.Supported) {x v : Int} : s.Reduces x v ↔ v = s.wrapped x := by
  refine ⟨fun h => ?_, fun h => h ▸ .wrapped hs x⟩
  have hx := Reduces.wrapped hs x
  obtain ⟨q, hq⟩ : (2 ^ (8 * s.width) : Int) ∣ s.wrapped x - v := by
    have := Int.dvd_sub h.dvd hx.dvd
    rwa [show x - v - (x - s.wrapped x) = s.wrapped x - v by ring] at this
  -- two numbers of the type are less than its size apart
  have h1 := h.has
  have h2 := hx.has
  unfold Has at h1 h2
  rcases hs.cases with ⟨-, hw⟩ | ⟨-, hw⟩ | ⟨-, hw⟩ <;> rw [hw] at hq h1 h2 <;>
    norm_num at hq h1 h2 <;> omega

/-- Bits above those of the type do not count. -/
theorem wrapped_bmod (hs : s.Supported) (x : Int) : s.wrapped (x.bmod (2 ^ 64)) = s.wrapped x := by
  refine Int.bmod_bmod_of_dvd (Nat.pow_dvd_pow 2 ?_)
  have := hs.width_pos
  omega

/-- A number shifted out of the type leaves zero. -/
theorem wrapped_shifted (x : Int) {n : Nat} (hn : 8 * s.width ≤ n) : s.wrapped (x * 2 ^ n) = 0 := by
  refine Int.bmod_eq_zero_of_dvd ?_
  push_cast
  exact Dvd.dvd.mul_left (pow_dvd_pow 2 hn) x

end Scalar

section Shifts

variable {n : Int64}

/-- A shift amount is taken as it is if it is less than the bits of a word. -/
theorem toNat_smod64 (h0 : 0 ≤ n.toInt) (h : n.toInt < 64) :
    (n.toBitVec.smod 64).toNat = n.toInt.toNat := by
  have hmod : (n.toBitVec.smod 64).toInt = n.toInt := by
    rw [BitVec.toInt_smod]
    show n.toInt.fmod 64 = n.toInt
    rw [Int.fmod_eq_emod_of_nonneg _ (by omega), Int.emod_eq_of_lt h0 h]
  rw [BitVec.toInt_eq_toNat_cond] at hmod
  split at hmod <;> omega

/-- A word shifted to the left loses its high bits. -/
theorem toInt_shiftLeft64 (a : Int64) (h0 : 0 ≤ n.toInt) (h : n.toInt < 64) :
    (a <<< n).toInt = (a.toInt * 2 ^ n.toInt.toNat).bmod (2 ^ 64) := by
  show (a <<< n).toBitVec.toInt = (a.toBitVec.toInt * _).bmod _
  rw [Int64.toBitVec_shiftLeft, BitVec.shiftLeft_eq', toNat_smod64 h0 h, BitVec.toInt_shiftLeft,
    Nat.shiftLeft_eq, BitVec.toInt_eq_toNat_bmod a.toBitVec, Int.bmod_mul_bmod]
  push_cast
  rfl

/-- A word shifted to the right is rounded down. -/
theorem toInt_shiftRight64 (a : Int64) (h0 : 0 ≤ n.toInt) (h : n.toInt < 64) :
    (a >>> n).toInt = a.toInt / 2 ^ n.toInt.toNat := by
  show (a >>> n).toBitVec.toInt = _
  rw [Int64.toBitVec_shiftRight, BitVec.sshiftRight_eq', toNat_smod64 h0 h,
    BitVec.toInt_sshiftRight, Int.shiftRight_eq_div_pow]
  push_cast
  rfl

/-- Shifted up and down again, a number keeps its low bits and the sign of the highest. -/
theorem bmod_mul_ediv (x : Int) {k m : Nat} (hk : 0 < k) (hm : 0 < m) :
    (x * k).bmod (k * m) / k = x.bmod m := by
  have hlo : -(m : Int) ≤ x.bmod m * 2 := by
    have := Int.le_bmod (x := x) hm
    omega
  have hhi : x.bmod m * 2 < m := by
    have := Int.bmod_lt (x := x) hm
    omega
  have hbdiv : x * k = x.bmod m * k + ((k * m : Nat) : Int) * x.bdiv m := by
    conv_lhs => rw [← Int.bmod_add_bdiv x m]
    push_cast
    ring
  rw [hbdiv, Int.add_mul_bmod_self_left, Int.bmod_eq_of_le_mul_two,
    Int.mul_ediv_cancel _ (by omega)]
  · have := Int.mul_le_mul_of_nonneg_left hlo (show 0 ≤ (k : Int) by omega)
    push_cast
    linarith
  · have := Int.mul_lt_mul_of_pos_left hhi (show 0 < (k : Int) by omega)
    push_cast
    linarith

end Shifts

namespace Scalar

/-- Brings a word into a type: its high bits are shifted out, and the sign comes back in. -/
def wrapWord (s : Scalar) (v : Int64) : Int64 :=
  let shift := Int64.ofNat (64 - 8 * s.width)
  (v <<< shift) >>> shift

theorem Supported.wrapWord {s : Scalar} (hs : s.Supported) (v : Int64) :
    (s.wrapWord v).toInt = s.wrapped v.toInt := by
  obtain ⟨hw, hw4⟩ := hs.width_pos
  have hshift : (Int64.ofNat (64 - 8 * s.width)).toInt = ((64 - 8 * s.width : Nat) : Int) :=
    Int64.toInt_ofNat_of_lt (by omega)
  have hsplit : 2 ^ 64 = 2 ^ (64 - 8 * s.width) * 2 ^ (8 * s.width) := by
    rw [← Nat.pow_add]
    congr 1
    omega
  unfold Scalar.wrapWord
  simp only
  rw [toInt_shiftRight64 _ (by omega) (by omega), toInt_shiftLeft64 _ (by omega) (by omega), hshift,
    Int.toNat_natCast, hsplit]
  have := bmod_mul_ediv v.toInt (k := 2 ^ (64 - 8 * s.width)) (m := 2 ^ (8 * s.width))
    (by positivity) (by positivity)
  rw [Nat.cast_pow, Nat.cast_ofNat] at this
  exact this

end Scalar

namespace AluOp

/-- An operation on words; an unknown one makes nothing, nor does a shift by a negative amount
that has no opposite. -/
def onWords (op : AluOp) (s : Scalar) (a b : Int64) : Option Int64 :=
  match op with
  | .min => some (if a ≤ b then a else b)
  | .max => some (if a ≤ b then b else a)
  | .add => some (s.wrapWord (a + b))
  | .mul => some (s.wrapWord (a * b))
  | .shr =>
    if 0 ≤ b then some (a >>> (if b ≤ 63 then b else 63))
    else if 64 ≤ -b then some 0
    else if -b < 0 then none
    else some (s.wrapWord (a <<< (-b)))
  | .unassigned _ _ => none

/-- What an operation makes of two integers: minimum and maximum as they are, sums, products
and shifts to the left reduced to the type, shifts to the right rounded down. -/
def Makes (op : AluOp) (s : Scalar) (a b v : Int) : Prop :=
  match op with
  | .min => v = Min.min a b
  | .max => v = Max.max a b
  | .add => s.Reduces (a + b) v
  | .mul => s.Reduces (a * b) v
  | .shr => if 0 ≤ b then v = a / 2 ^ b.toNat else s.Reduces (a * 2 ^ (-b).toNat) v
  | .unassigned _ _ => False

end AluOp

section Exact

variable {s : Scalar} {op : AluOp}

/-- Shifted to the right by all its bits or more, a word leaves its sign. -/
theorem ediv_two_pow_large {a : Int} (h0 : -2 ^ 63 ≤ a) (h1 : a < 2 ^ 63) {n : Nat} (hn : 63 ≤ n) :
    a / 2 ^ n = a / 2 ^ 63 := by
  have hpow : (2 : Int) ^ 63 ≤ 2 ^ n := pow_le_pow_right₀ (by norm_num) hn
  have hsmall : ∀ p : Int, 2 ^ 63 ≤ p → a / p = if a < 0 then -1 else 0 := by
    intro p hp
    split
    · exact Int.ediv_eq_neg_one_of_neg_of_le (by omega) (by omega)
    · exact Int.ediv_eq_zero_of_lt (by omega) (by omega)
  rw [hsmall _ hpow, hsmall _ le_rfl]

/-- A shift to the right. -/
theorem alu_right (s : Scalar) (a : Int) {b : Int} (h0 : 0 ≤ b) :
    alu .shr a b s = .ok (a / 2 ^ (min b 63).toNat) := by
  unfold alu
  simp only
  rw [if_pos h0, twoTo_eq, Nat.cast_pow, Nat.cast_ofNat]

/-- A shift to the left by an amount that has an opposite. By 64 places or more it leaves nothing,
as the number is shifted out of its type. -/
theorem alu_left (hs : s.Supported) (a : Int) {b : Int} (hb : -2 ^ 63 < b) (hneg : b < 0) :
    alu .shr a b s = .ok (s.wrapped (a * 2 ^ (-b).toNat)) := by
  unfold alu
  simp only
  rw [if_neg (by omega), wrap64_small (by omega) (by omega)]
  by_cases hlarge : 64 ≤ -b
  · have := hs.width_pos
    rw [if_pos hlarge, Scalar.wrapped_shifted a (by omega)]
  · rw [if_neg hlarge, if_neg (by omega), hs.wrap, twoTo_eq, Nat.cast_pow, Nat.cast_ofNat]

/-- **What an operation on two words makes.** -/
theorem alu_makes (hs : s.Supported) {a b v : Int} (ha : -2 ^ 63 ≤ a ∧ a < 2 ^ 63)
    (hb : -2 ^ 63 ≤ b ∧ b < 2 ^ 63) (h : alu op a b s = .ok v) : op.Makes s a b v := by
  cases op with
  | min => exact (Except.ok.inj h).symm
  | max => exact (Except.ok.inj h).symm
  | add => exact (Scalar.reduces_iff hs).2 (Except.ok.inj ((hs.wrap _).symm.trans h)).symm
  | mul => exact (Scalar.reduces_iff hs).2 (Except.ok.inj ((hs.wrap _).symm.trans h)).symm
  | unassigned code high => simp [alu] at h
  | shr =>
    unfold AluOp.Makes
    simp only
    by_cases h0 : 0 ≤ b
    · obtain rfl := Except.ok.inj ((alu_right s a h0).symm.trans h)
      rw [if_pos h0]
      rcases le_total b 63 with hle | hge
      · rw [min_eq_left hle]
      · rw [min_eq_right hge]
        exact (ediv_two_pow_large ha.1 ha.2 (by omega)).symm
    · have hleast : b ≠ -2 ^ 63 := fun hb => by
        subst hb
        cases h
      rw [if_neg h0, Scalar.reduces_iff hs]
      exact (Except.ok.inj ((alu_left hs a (by omega) (by omega)).symm.trans h)).symm

theorem toInt_neg64 {b : Int64} (h : b ≠ Int64.minValue) : (-b).toInt = -b.toInt := by
  have h1 := b.le_toInt
  have h2 := b.toInt_lt
  have h3 : b.toInt ≠ -2 ^ 63 := fun h' => h (Int64.toInt_inj.1 h')
  rw [Int64.toInt_neg]
  exact Int.bmod_eq_of_le (by omega) (by omega)

/-- **On words an operation makes the same.** -/
theorem alu_onWords (hs : s.Supported) {a b v : Int64} (h : op.onWords s a b = some v) :
    alu op a.toInt b.toInt s = .ok v.toInt := by
  cases op with
  | min =>
    obtain rfl := Option.some.inj h
    simp only [alu, min_def, Int64.le_iff_toInt_le]
    split <;> rfl
  | max =>
    obtain rfl := Option.some.inj h
    simp only [alu, max_def, Int64.le_iff_toInt_le]
    split <;> rfl
  | add =>
    obtain rfl := Option.some.inj h
    rw [hs.wrapWord, Int64.toInt_add, Scalar.wrapped_bmod hs]
    exact hs.wrap _
  | mul =>
    obtain rfl := Option.some.inj h
    rw [hs.wrapWord, Int64.toInt_mul, Scalar.wrapped_bmod hs]
    exact hs.wrap _
  | unassigned code high => cases h
  | shr =>
    have hzero : (0 : Int64).toInt = 0 := rfl
    have h63 : (63 : Int64).toInt = 63 := rfl
    have h64 : (64 : Int64).toInt = 64 := rfl
    have hword := b.le_toInt
    unfold AluOp.onWords at h
    simp only [Int64.le_iff_toInt_le, hzero, h64] at h
    by_cases h0 : 0 ≤ b.toInt
    · rw [if_pos h0] at h
      obtain rfl := Option.some.inj h
      have hmin : (if b.toInt ≤ (63 : Int64).toInt then b else 63).toInt = min b.toInt 63 := by
        rw [h63, min_def]
        split <;> rfl
      rw [alu_right s _ h0, toInt_shiftRight64 _ (by omega) (by omega), hmin]
    · have hleast : b ≠ Int64.minValue := fun hb => by
        subst hb
        cases h
      have hne : b.toInt ≠ -2 ^ 63 := fun h' => hleast (Int64.toInt_inj.1 h')
      have hneg := toInt_neg64 hleast
      rw [if_neg h0, hneg] at h
      rw [alu_left hs _ (by omega) (by omega)]
      by_cases hlarge : 64 ≤ -b.toInt
      · rw [if_pos hlarge] at h
        obtain rfl := Option.some.inj h
        have := hs.width_pos
        rw [Scalar.wrapped_shifted _ (by omega)]
        rfl
      · rw [if_neg hlarge, if_neg (by rw [Int64.lt_iff_toInt_lt, hneg, hzero]; omega)] at h
        obtain rfl := Option.some.inj h
        rw [hs.wrapWord, toInt_shiftLeft64 _ (by omega) (by omega), Scalar.wrapped_bmod hs, hneg]

/-- Every known operation makes something of two words, but for the least shift. -/
theorem onWords_some (s : Scalar) (a : Int64) {b : Int64} (hop : op.code ≤ 4)
    (hleast : ¬(op = .shr ∧ b = Int64.minValue)) : ∃ v, op.onWords s a b = some v := by
  cases op with
  | min => exact ⟨_, rfl⟩
  | max => exact ⟨_, rfl⟩
  | add => exact ⟨_, rfl⟩
  | mul => exact ⟨_, rfl⟩
  | unassigned code high => exact absurd hop (UInt8.not_le.2 high)
  | shr =>
    have hb : b ≠ Int64.minValue := fun hb => hleast ⟨rfl, hb⟩
    unfold AluOp.onWords
    simp only
    by_cases h0 : 0 ≤ b
    · exact ⟨_, if_pos h0⟩
    rw [if_neg h0]
    by_cases hlarge : 64 ≤ -b
    · exact ⟨_, if_pos hlarge⟩
    rw [if_neg hlarge, if_neg]
    · exact ⟨_, rfl⟩
    · rw [Int64.lt_iff_toInt_lt, toInt_neg64 hb]
      rw [Int64.le_iff_toInt_le] at h0
      have hzero : (0 : Int64).toInt = 0 := rfl
      omega

end Exact

/-- **An operation on two words**, in integers and on words: what it makes, that it stays in the
type, and the two cases in which it makes nothing. -/
theorem alu_exact {s : Scalar} (hs : s.Supported) (a b : Int64) :
    (∀ op : AluOp, op.code ≤ 4 → ¬(op = .shr ∧ b = Int64.minValue) → ∃ v : Int64,
      alu op a.toInt b.toInt s = .ok v.toInt ∧ op.onWords s a b = some v ∧
        op.Makes s a.toInt b.toInt v.toInt ∧ (s.Has a.toInt → s.Has b.toInt → s.Has v.toInt)) ∧
    alu .shr a.toInt Int64.minValue.toInt s = .error .fault ∧
    ∀ code high, alu (.unassigned code high) a.toInt b.toInt s =
      Outcome.diagnose (AluOp.unassigned code high).name (.unknownOp .noSemantics) := by
  refine ⟨fun op hop hleast => ?_, rfl, fun _ _ => rfl⟩
  obtain ⟨v, hv⟩ := onWords_some s a hop hleast
  have hword := alu_onWords hs hv
  refine ⟨v, hword, hv, alu_makes hs ⟨a.le_toInt, a.toInt_lt⟩ ⟨b.le_toInt, b.toInt_lt⟩ hword,
    fun ha hb => alu_has hs ha (hb.takes op) hword⟩

/-- A number of 16 bits shifted to the left by six places, out of its type. -/
theorem shiftedOut_exact : Scalar.Supported ⟨4⟩ ∧ alu .shr 1000 (-6) ⟨4⟩ = .ok (-1536) ∧
    AluOp.shr.onWords ⟨4⟩ 1000 (-6) = some (-1536) ∧ AluOp.shr.Makes ⟨4⟩ 1000 (-6) (-1536) ∧
    Scalar.Has ⟨4⟩ (-1536) := by
  have hword : AluOp.shr.onWords ⟨4⟩ 1000 (-6) = some (-1536) := by decide
  obtain ⟨v, hv, hwords, hmakes, hhas⟩ :=
    (alu_exact (s := ⟨4⟩) (by decide) 1000 (-6)).1 .shr (by decide) (by decide)
  obtain rfl : v = -1536 := Option.some.inj (hwords.symm.trans hword)
  exact ⟨by decide, hv, hword, hmakes, hhas ⟨by decide, by decide⟩ ⟨by decide, by decide⟩⟩

/-- The least word says to shift to the left by `2 ^ 63` places, which leaves nothing of any
number; but it has no opposite, and the shift is a fault. -/
theorem leastShift_faults : Scalar.Supported ⟨3⟩ ∧
    AluOp.shr.Makes ⟨3⟩ 1 Int64.minValue.toInt 0 ∧
    ¬∃ v, alu .shr 1 Int64.minValue.toInt ⟨3⟩ = .ok v := by
  have hs : Scalar.Supported ⟨3⟩ := by decide
  refine ⟨hs, ?_, fun ⟨v, hv⟩ => by cases hv⟩
  unfold AluOp.Makes
  simp only
  rw [if_neg (by decide), Scalar.reduces_iff hs, Scalar.wrapped_shifted]
  decide

end Tessera
