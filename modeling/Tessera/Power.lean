/-!
# Powers of two

The sizes of words, fields, scratchpads and pages are powers of two.
-/

namespace Tessera

/-- Two to the power `n`. -/
def twoTo (n : Nat) : Nat := Nat.pow 2 n

theorem twoTo_succ (n : Nat) : twoTo (n + 1) = twoTo n * 2 := rfl

theorem twoTo_pos (n : Nat) : 0 < twoTo n := by
  induction n with
  | zero => exact Nat.one_pos
  | succ n ih => rw [twoTo_succ]; omega

end Tessera
