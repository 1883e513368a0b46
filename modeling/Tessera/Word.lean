import Tessera.Failure
import Tessera.Power

/-!
# Machine words

Every number of a program is a signed 64-bit word. The library computes with
integers and names the places where a word can overflow: there the result is
the word congruent to it modulo `2 ^ 64`. An operation outside its domain is a
fault.

* `wrap64`: the word congruent to an integer.
* `shiftOne`, `quotient`, `remainder`: word operations that can fault.
* `slice`: the part of an array between two bounds, a fault outside it.
* `tableSize`: a length for which a table of words can be made.
* `loopBelow`: a loop over the indices below a bound.
-/

namespace Tessera

/-- The signed 64-bit word congruent to `x`. -/
def wrap64 (x : Int) : Int := x.bmod (twoTo 64)

theorem wrap64_eq_self {x : Int} (lo : -(twoTo 63 : Int) ≤ x) (hi : x < (twoTo 63 : Int)) :
    wrap64 x = x := by
  have half : twoTo 63 = 9223372036854775808 := rfl
  have whole : twoTo 64 = 18446744073709551616 := rfl
  unfold wrap64
  rw [half] at lo hi
  rw [whole]
  apply Int.bmod_eq_of_le <;> omega

/-- One shifted left by `n` places: zero from 64 places on, a fault below none. -/
def shiftOne (n : Int) : Outcome Int :=
  if n < 0 then .error .fault
  else if 64 ≤ n then .ok 0
  else .ok (wrap64 (twoTo n.toNat))

/-- The quotient rounded toward zero; division by zero is a fault. -/
def quotient (a b : Int) : Outcome Int :=
  if b = 0 then .error .fault else .ok (wrap64 (a.tdiv b))

/-- The remainder with the sign of `a`; division by zero is a fault. -/
def remainder (a b : Int) : Outcome Int :=
  if b = 0 then .error .fault else .ok (a.tmod b)

/-- The entry at `i`, a fault outside the array. -/
def entry {α : Type} (xs : Array α) (i : Int) : Outcome α :=
  if i < 0 then .error .fault else Outcome.ofOption xs[i.toNat]?

/-- The entries from `lo` up to `hi`, a fault unless `0 ≤ lo ≤ hi ≤ size`. -/
def slice {α : Type} (xs : Array α) (lo hi : Int) : Outcome (Array α) :=
  if 0 ≤ lo ∧ lo ≤ hi ∧ hi ≤ xs.size then .ok (xs.extract lo.toNat hi.toNat)
  else .error .fault

/-- The number of words a table of `n` words has: a fault for a negative number
and for one beyond the 48-bit address space. -/
def tableSize (n : Int) : Outcome Nat :=
  if 0 ≤ n ∧ n * 8 ≤ (twoTo 48 : Int) then .ok n.toNat else .error .fault

/-- The entries of `dst` from `start` on replaced by those of `src`, as many as
there is room for. -/
def copyInto {α : Type} (dst : Array α) (start : Nat) (src : Array α) : Array α :=
  Nat.fold src.size (fun j _ out => out.setIfInBounds (start + j) src[j]) dst

/-- Copies `src` over the entries of `dst` from `start` on, as many as there is
room for; a start beyond the end is a fault. -/
def overwrite {α : Type} (dst : Array α) (start : Int) (src : Array α) : Outcome (Array α) :=
  if 0 ≤ start ∧ start ≤ dst.size then .ok (copyInto dst start.toNat src) else .error .fault

/-- The integers from zero below `n`, none for a negative `n`. -/
def below (n : Int) : List Int := (List.range n.toNat).map Int.ofNat

/-- Applies `f` to the indices from `i` on, `count` of them, and stops at the
first failure. -/
def loopFrom {σ : Type} (f : Int → σ → Outcome σ) : (count i : Nat) → σ → Outcome σ
  | 0, _, s => .ok s
  | count + 1, i, s =>
    match f i s with
    | .ok s' => loopFrom f count (i + 1) s'
    | .error e => .error e

/-- Applies `f` to the indices from zero below `n`. -/
def loopBelow {σ : Type} (n : Int) (init : σ) (f : Int → σ → Outcome σ) : Outcome σ :=
  loopFrom f n.toNat 0 init

end Tessera
