import Mathlib.Tactic.Linarith
import Tessera.Proofs.Outcome

/-!
# Tables

Matrices, blocks and images of memory are tables. What an operation on a table
makes is said entry by entry, with zero for an entry that is not there.

* `wrap64_small`: a number of less than 63 bits is its own word.
* `row_room`, `index_lt`, `row_of_index`, `index_inj`: the place of an entry names its row and
  its column.
* `getD_copyInto`: a table into which another was copied.
* `slice_eq_ok`, `overwrite_eq_ok`, `entry_eq_ok`, `tableSize_eq_ok`: when these
  operations succeed, and with what.
-/

namespace Tessera

variable {α : Type}

theorem twoTo_eq (n : Nat) : twoTo n = 2 ^ n := rfl

/-- A small number is its own word. -/
theorem wrap64_small {x : Int} (lo : -9223372036854775808 ≤ x) (hi : x < 9223372036854775808) :
    wrap64 x = x :=
  wrap64_eq_self (by simpa [twoTo_eq] using lo) (by simpa [twoTo_eq] using hi)

theorem wrap64_range (x : Int) :
    -9223372036854775808 ≤ wrap64 x ∧ wrap64 x < 9223372036854775808 := by
  unfold wrap64
  rw [twoTo_eq]
  have h1 := Int.le_bmod (x := x) (m := 2 ^ 64) (by norm_num)
  have h2 := Int.bmod_lt (x := x) (m := 2 ^ 64) (by norm_num)
  omega

/-- The row of an entry, from its place in a table with rows of length `n`. -/
theorem row_of_index {i j n : Nat} (hj : j < n) : (i * n + j) / n = i := by
  rw [Nat.mul_comm, Nat.mul_add_div (by omega), Nat.div_eq_of_lt hj, Nat.add_zero]

/-- A row of a table ends where the table does, or before. -/
theorem row_room (n : Nat) {i m : Nat} (hi : i < m) : i * n + n ≤ m * n := by
  rw [← Nat.succ_mul]
  exact Nat.mul_le_mul_right n hi

/-- The entry in row `i` and column `j` stands in the table. -/
theorem index_lt {i j m n : Nat} (hi : i < m) (hj : j < n) : i * n + j < m * n := by
  have := row_room n hi
  omega

/-- The place of an entry names its row and its column. -/
theorem index_inj {i j i' j' n : Nat} (hj : j < n) (hj' : j' < n) :
    i * n + j = i' * n + j' ↔ i = i' ∧ j = j' := by
  constructor
  · intro h
    have hrow := congrArg (· / n) h
    have hcol := congrArg (· % n) h
    simp only [row_of_index hj, row_of_index hj', Nat.mul_add_mod_of_lt hj,
      Nat.mul_add_mod_of_lt hj'] at hrow hcol
    exact ⟨hrow, hcol⟩
  · rintro ⟨rfl, rfl⟩
    rfl

theorem tableSize_eq_ok {n : Int} {k : Nat} :
    tableSize n = .ok k ↔ (k : Int) = n ∧ n * 8 ≤ 281474976710656 := by
  unfold tableSize
  rw [show ((twoTo 48 : Nat) : Int) = 281474976710656 by simp [twoTo_eq]]
  by_cases h : 0 ≤ n ∧ n * 8 ≤ 281474976710656
  · rw [if_pos h]
    simp only [Except.ok.injEq]
    omega
  · rw [if_neg h]
    simp only [reduceCtorEq, false_iff]
    omega

theorem quotient_eq_ok {a b q : Int} : quotient a b = .ok q ↔ b ≠ 0 ∧ wrap64 (a.tdiv b) = q := by
  unfold quotient
  by_cases h : b = 0 <;> simp [h]

theorem remainder_eq_ok {a b r : Int} : remainder a b = .ok r ↔ b ≠ 0 ∧ a.tmod b = r := by
  unfold remainder
  by_cases h : b = 0 <;> simp [h]

/-- A quotient of small numbers. -/
theorem quotient_small {a b : Int} (ha : 0 ≤ a) (ha' : a < 9223372036854775808) (hb : 0 < b) :
    quotient a b = .ok (a / b) := by
  rw [quotient_eq_ok]
  have h1 : 0 ≤ a / b := Int.ediv_nonneg ha hb.le
  have h2 : a / b ≤ a := Int.ediv_le_self b ha
  exact ⟨by omega, by rw [Int.tdiv_eq_ediv_of_nonneg ha, wrap64_small (by omega) (by omega)]⟩

/-- A remainder of small numbers. -/
theorem remainder_small {a b : Int} (ha : 0 ≤ a) (hb : 0 < b) : remainder a b = .ok (a % b) := by
  rw [remainder_eq_ok]
  exact ⟨by omega, Int.tmod_eq_emod_of_nonneg ha⟩

theorem entry_eq_ok {xs : Array α} {i : Int} {a : α} :
    entry xs i = .ok a ↔ 0 ≤ i ∧ xs[i.toNat]? = some a := by
  unfold entry
  by_cases h : i < 0
  · rw [if_pos h]; simp only [reduceCtorEq, false_iff]; omega
  · rw [if_neg h, Outcome.ofOption_eq_ok]
    exact ⟨fun h' => ⟨by omega, h'⟩, fun h' => h'.2⟩

theorem slice_eq_ok {xs ys : Array α} {lo hi : Int} :
    slice xs lo hi = .ok ys ↔
      (0 ≤ lo ∧ lo ≤ hi ∧ hi ≤ xs.size) ∧ xs.extract lo.toNat hi.toNat = ys := by
  unfold slice
  by_cases h : 0 ≤ lo ∧ lo ≤ hi ∧ hi ≤ xs.size <;> simp [h]

theorem overwrite_eq_ok {dst src out : Array α} {start : Int} :
    overwrite dst start src = .ok out ↔
      (0 ≤ start ∧ start ≤ dst.size) ∧ copyInto dst start.toNat src = out := by
  unfold overwrite
  by_cases h : 0 ≤ start ∧ start ≤ dst.size <;> simp [h]

/-- Writing the values `g` one after the other from `start` on. -/
theorem fold_setIfInBounds (dst : Array α) (start : Nat) :
    ∀ (n : Nat) (g : (j : Nat) → j < n → α),
      let out := Nat.fold n (fun j hj out => out.setIfInBounds (start + j) (g j hj)) dst
      out.size = dst.size ∧
        (∀ j (hj : j < n), start + j < dst.size → out[start + j]? = some (g j hj)) ∧
        ∀ k, (k < start ∨ start + n ≤ k) → out[k]? = dst[k]? := by
  intro n
  induction n with
  | zero => intro g; exact ⟨rfl, fun j hj => by omega, fun k _ => rfl⟩
  | succ n ih =>
    intro g
    obtain ⟨hs, hin, hout⟩ := ih fun j hj => g j (by omega)
    simp only [Nat.fold_succ, Array.size_setIfInBounds, Array.getElem?_setIfInBounds, hs]
    refine ⟨trivial, fun j hj hlt => ?_, fun k hk => ?_⟩
    · by_cases hjn : n = j
      · subst hjn; rw [if_pos rfl, if_pos hlt]
      · rw [if_neg (by omega)]; exact hin j (by omega) hlt
    · rw [if_neg (by omega)]; exact hout k (by omega)

@[simp] theorem size_copyInto (dst : Array α) (start : Nat) (src : Array α) :
    (copyInto dst start src).size = dst.size :=
  (fold_setIfInBounds dst start src.size fun j _ => src[j]).1

/-- **A table into which another was copied**, entry by entry. -/
theorem getElem?_copyInto (dst : Array α) (start : Nat) (src : Array α) (k : Nat) :
    (copyInto dst start src)[k]? =
      if start ≤ k ∧ k < start + src.size ∧ k < dst.size then src[k - start]? else dst[k]? := by
  obtain ⟨-, hin, hout⟩ := fold_setIfInBounds dst start src.size fun j _ => src[j]
  by_cases h : start ≤ k ∧ k < start + src.size ∧ k < dst.size
  · obtain ⟨h1, h2, h3⟩ := h
    rw [if_pos ⟨h1, h2, h3⟩]
    have := hin (k - start) (by omega) (by omega)
    rw [show start + (k - start) = k by omega] at this
    rw [Array.getElem?_eq_getElem (show k - start < src.size by omega)]
    exact this
  · rw [if_neg h]
    by_cases hk : k < dst.size
    · exact hout k (by omega)
    · rw [Array.getElem?_eq_none (by simp; omega), Array.getElem?_eq_none (by omega)]

theorem getD_copyInto (dst : Array α) (start : Nat) (src : Array α) (d : α) (k : Nat) :
    (copyInto dst start src).getD k d =
      if start ≤ k ∧ k < start + src.size ∧ k < dst.size then src.getD (k - start) d
      else dst.getD k d := by
  simp only [Array.getD_eq_getD_getElem?, getElem?_copyInto]
  by_cases h : start ≤ k ∧ k < start + src.size ∧ k < dst.size
  · rw [if_pos h, if_pos h]
  · rw [if_neg h, if_neg h]

end Tessera
