/-!
# Splitting work

Rows of a product and blocks of a tensor are independent of each other, so they
may be handed to workers. Which ranges are handed out depends on the number of
workers; what they compute together does not.

* `hired`: as many workers as are wanted.
* `ranges`: the contiguous ranges the indices below `n` are split into.
* `singles`: the indices below `n`, each on its own.
-/

namespace Tessera

/-- A group of workers. A group that is closed, or has only one worker, runs all
work on the spot. -/
structure Workers where
  count : Nat
  closed : Bool := false
  deriving Repr, DecidableEq

namespace Workers

/-- A group of `wanted` workers; unless some are wanted, of one for each processor. -/
def hired (wanted : Int) (processors : Nat) : Workers where
  count := if wanted ≤ 0 then processors else wanted.toNat

/-- How many may work at once; without a group, one. -/
def size : Option Workers → Nat
  | none => 1
  | some w => w.count

/-- Whether all work is done on the spot. -/
def inline : Option Workers → Bool
  | none => true
  | some w => w.closed || w.count == 1

/-- The ranges, first index and first index after it, that the indices below `n`
are split into: at most `size` of them, all but the last of one length. -/
def ranges (w : Option Workers) (n : Int) : List (Int × Int) :=
  if n ≤ 0 then []
  else if inline w || n == 1 then [(0, n)]
  else
    let parts := min (size w : Int) n
    let chunk := (n + parts - 1).tdiv parts
    (List.range ((n + chunk - 1) / chunk).toNat).map fun (k : Nat) =>
      (k * chunk, min (k * chunk + chunk) n)

/-- The indices below `n` as ranges of one. -/
def singles (n : Int) : List (Int × Int) :=
  (List.range n.toNat).map fun (k : Nat) => ((k : Int), (k : Int) + 1)

end Workers

end Tessera
