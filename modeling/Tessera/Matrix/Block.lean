import Tessera.Matrix.Basic

/-!
# Blocks of a matrix

A padded matrix is cut into blocks of `b` columns and at most `b` rows, block
row by block row. Stacked below each other the blocks form a matrix of `b`
columns, whose rows are called vectors: vector `v` is row `v % b` of block
`v / b`.

* `Matrix.pad`: zeros up to the next multiple of `b`.
* `Matrix.split` and `unsplit`: into blocks and back.
* `stack` and `Matrix.unstack`: into vectors and back.
* `transposed`: a block with rows and columns exchanged.
* `Block.diagonal`: a multiple of the identity.
-/

namespace Tessera

/-- A block: some rows of equal length, row by row. -/
structure Block where
  height : Int
  data : Array Int
  deriving Repr, DecidableEq, Inhabited

namespace Block

/-- Row `r` of a block whose rows have `size` entries. -/
def vector (k : Block) (r size : Int) : Outcome (Array Int) :=
  slice k.data (wrap64 (r * size)) (wrap64 (wrap64 (r + 1) * size))

/-- The block of side `b` with `c` on the diagonal and zeros elsewhere; a diagonal that
leaves the table is a fault. -/
def diagonal (b c : Int) : Outcome Block := do
  let size ← tableSize (wrap64 (b * b))
  if size < b * b then .error .fault
  let data := Nat.fold b.toNat (fun i _ out => out.setIfInBounds (i * b.toNat + i) c)
    (Array.replicate size (0 : Int))
  return ⟨b, data⟩

end Block

namespace Matrix

/-- Zeros added on the right, and with `padRows` below, up to multiples of `b`. -/
def pad (m : Matrix) (b : Int) (padRows : Bool) : Outcome Matrix := do
  let rows ← if padRows then roundUp m.rows b else pure m.rows
  let cols ← roundUp m.cols b
  let out ← zero rows cols
  let data ← loopBelow m.rows out.data fun i data => do
    let start := wrap64 (i * cols)
    let stop := wrap64 (start + m.cols)
    if start < 0 ∨ stop < start ∨ data.size < stop then .error .fault
    overwrite data start (← m.row i)
  return ⟨rows, cols, data⟩

/-- The entries of `data` from `start` on, `b` of them, zeros after its end; a
start beyond the end is a fault. -/
def piece (data : Array Int) (start : Int) (b : Nat) : Outcome (Array Int) :=
  if 0 ≤ start ∧ start ≤ data.size then
    let found := data.extract start.toNat (start.toNat + b)
    .ok (found ++ Array.replicate (b - found.size) 0)
  else .error .fault

/-- The block of `h` rows whose first entry is in row `i` and column `j`. -/
def blockAt (m : Matrix) (b h i j : Int) : Outcome Block := do
  let _ ← tableSize (wrap64 (h * b))
  let data ← loopBelow h #[] fun r data =>
    return data ++ (← piece m.data (wrap64 (wrap64 ((i + r) * m.cols) + j)) b.toNat)
  return ⟨h, data⟩

/-- The blocks of a matrix whose columns are a multiple of `b`, block row by
block row, with the numbers of block rows and block columns. The blocks of the
last block row are shorter if the rows are no multiple. -/
def split (m : Matrix) (b : Int) : Outcome (List Block × Int × Int) := do
  if (← remainder m.cols b) ≠ 0 then
    Outcome.complain (.splitColumns m.cols b)
  let blockRows ← ceilDiv m.rows b
  let blockCols ← quotient m.cols b
  let count := wrap64 (blockRows * blockCols)
  if count < 0 ∨ (twoTo 48 : Int) < count * 32 then .error .fault
  let blocks ← loopBelow blockRows [] fun bi done =>
    loopBelow blockCols done fun bj done =>
      return (← m.blockAt b (min b (m.rows - bi * b)) (bi * b) (bj * b)) :: done
  return (blocks.reverse, blockRows, blockCols)

end Matrix

/-- Writes block number `n` of `blockCols` to a row into the matrix; what lies
outside is left out. -/
def placeBlock (blockCols b : Int) (out : Matrix) (n : Nat) (k : Block) : Outcome Matrix := do
  let i := (← quotient n blockCols) * b
  let j := (← remainder n blockCols) * b
  loopBelow (min k.height (out.rows - i)) out fun r out =>
    loopBelow (min b (out.cols - j)) out fun c out => do
      out.set (i + r) (j + c) (← entry k.data (wrap64 (r * b + c)))

/-- The matrix of the given shape that the blocks make up; what lies outside the
shape is left out. -/
def unsplit (blocks : List Block) (blockCols b rows cols : Int) : Outcome Matrix := do
  blocks.zipIdx.foldlM (fun out (k, n) => placeBlock blockCols b out n k) (← Matrix.zero rows cols)

/-- The blocks below each other: a matrix of `b` columns. -/
def stack (blocks : List Block) (b : Int) : Outcome Matrix := do
  let rows := blocks.foldl (fun n k => wrap64 (n + k.height)) 0
  let out ← Matrix.zero rows b
  let (data, _) ← blocks.foldlM
    (fun (data, off) k => return (← overwrite data off k.data, off + k.data.size))
    (out.data, (0 : Int))
  return { out with data }

/-- The blocks of the given heights that a matrix is stacked of. -/
def Matrix.unstack (m : Matrix) (heights : List Int) : Outcome (List Block) := do
  let (blocks, _) ← heights.foldlM
    (fun (done, off) h => do
      let next := wrap64 (off + wrap64 (h * m.cols))
      return (⟨h, ← slice m.data off next⟩ :: done, next))
    ([], (0 : Int))
  return blocks.reverse

/-- The block of side `b` with rows and columns exchanged. -/
def transposed (data : Array Int) (b : Int) : Outcome (Array Int) := do
  let size ← tableSize (wrap64 (b * b))
  if b ≤ 0 then return Array.replicate size 0
  if data.size < size then .error .fault
  let n := b.toNat
  return Array.ofFn fun k : Fin size => data.getD (k.val % n * n + k.val / n) 0

end Tessera
