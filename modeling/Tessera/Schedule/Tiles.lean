import Tessera.Power
import Tessera.Schedule.Planner

/-!
# Products that do not fit

A product that exceeds the scratchpads is computed tile by tile: some output
blocks stay in the accumulator while the inputs and weights they need stream
through.

* `Planner.tile`: the steps of one tile.
* `tileShape`: a nearly square tile within the accumulator's capacity.
* `Planner.gemmOverflow`: the tiles of the four strategies.
-/

namespace Tessera

/-- The integer square root of a number below `4 ^ bits`, one bit at a time: the
root of a quarter of `n`, doubled, is the root of `n` or one less. -/
def rootBelow (n : Nat) : Nat → Nat
  | 0 => 0
  | bits + 1 =>
    let high := rootBelow (n / 4) bits * 2
    if (high + 1) * (high + 1) ≤ n then high + 1 else high

/-- The integer square root. -/
def root (n : Nat) : Nat := rootBelow n (n.log2 / 2 + 1)

/-- `n` rounded to 53 significant bits, a half to the even neighbour. -/
def round53 (n : Nat) : Nat :=
  let drop := n.log2 + 1 - 53
  let unit := twoTo drop
  let low := n / unit
  let rest := n % unit
  if 2 * rest < unit || (2 * rest = unit && low % 2 = 0) || drop = 0 then low * unit
  else (low + 1) * unit

/-- The square root of `n` with all numbers rounded to 53 significant bits, and
what follows the point left out. It is the integer root, except that a root just
below a large integer rounds up to it. -/
def roundedRoot (n : Nat) : Nat :=
  let f := round53 n
  let s := root f
  let scale := twoTo (53 - s.log2)
  let edge := (s + 1) * scale - 1
  if 0 < s && edge * edge < f * (scale * scale) then s + 1 else s

/-- The greatest divisor of `n` up to `k`, one if there is no other. -/
def divisorUpTo (n : Int) : Nat → Nat
  | 0 => 0
  | 1 => 1
  | k + 1 => if n.tmod (k + 1 : Nat) = 0 then k + 1 else divisorUpTo n k

/-- Height and width of a tile of at most `acc` blocks. -/
def tileShape (acc xRows xCols : Int) : Outcome (Int × Int) := do
  let h := min (max (divisorUpTo acc (roundedRoot acc.toNat) : Int) 1) xRows
  return (h, min (← quotient acc h) xCols)

namespace Planner

/-- The steps that compute the output blocks in the given rows and columns. The
inner dimension streams through in pieces of `chunk` block columns; the
accumulator is loaded with the first piece, and operations and stores follow the
last. -/
def tile (p : Planner) (rows cols : List Int) (chunk : Int) : Outcome (List Step) := do
  let c := p.counts
  let resident := rows.flatMap fun i => cols.map fun j => i * c.xCols + j
  let slices ← pieces chunk (consecutive 0 c.aCols)
  return slices.zipIdx.map fun (ks, n) =>
    let loadA := rows.flatMap fun i => ks.map fun k => i * c.aCols + k
    let loadB := ks.flatMap fun k => cols.map fun j => k * c.bCols + j
    let last := n + 1 = slices.length
    { loadA, loadB, inpResident := loadA, wgtResident := loadB, sramResident := resident
      loadX := if n = 0 then resident else []
      ops := products loadA loadB c.aCols c.bCols c.xCols ++ if last then p.aluOn resident else []
      store := if last then p.storable resident else [] }

/-- The steps of several tiles. -/
def tiles (p : Planner) (chunk : Int) (shapes : List (List Int × List Int)) :
    Outcome (List Step) :=
  return (← shapes.mapM fun (rows, cols) => p.tile rows cols chunk).flatten

/-- The schedule of a product that does not fit. -/
def gemmOverflow (p : Planner) : Outcome (List Step) := do
  let c := p.counts
  let caps := p.caps
  let smallest := min (min caps.inp caps.wgt) caps.acc
  if smallest < 2 then
    Outcome.diagnose "gemm" (.capacityTooSmall (.smallestScratchpad smallest))
  p.rejectVector
  let xRows ← quotient c.nX c.xCols
  match p.strategy with
  | .tiled =>
    let (h, w) ← tileShape caps.acc xRows c.xCols
    let chunk := min (min c.aCols (← quotient caps.inp h)) (← quotient caps.wgt w)
    if chunk < 1 then
      Outcome.diagnose "gemm" (.capacityTooSmall (.noSlice h w))
    let downs ← strides xRows h
    let acrosses ← strides c.xCols w
    p.tiles chunk (downs.flatMap fun i => acrosses.map fun j =>
      (consecutive i (min h (xRows - i)), consecutive j (min w (c.xCols - j))))
  | .column =>
    let band := min (min (min caps.inp caps.acc) caps.out) xRows
    let downs ← strides xRows band
    p.tiles 1 (downs.flatMap fun i => (below c.xCols).map fun j =>
      (consecutive i (min band (xRows - i)), [j]))
  | .row =>
    let band := min (min (min caps.wgt caps.acc) caps.out) c.xCols
    let acrosses ← strides c.xCols band
    p.tiles 1 (acrosses.flatMap fun j => (below xRows).map fun i =>
      ([i], consecutive j (min band (c.xCols - j))))
  | .output =>
    let chunk := min (min (min (min caps.inp caps.wgt) caps.acc) caps.out) c.aCols
    p.tiles chunk ((below xRows).flatMap fun i => (below c.xCols).map fun j => ([i], [j]))

end Planner

end Tessera
