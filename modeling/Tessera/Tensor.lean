import Tessera.Matrix.Block

/-!
# Tensors

A tensor is a matrix in the form the accelerator reads it: padded, cut into
blocks, and with a scalar type.

* `Tensor.ofMatrix`: pads and cuts a matrix.
* `Tensor.bytes`: the blocks one after the other; weight blocks are transposed,
  because the product reads them column by column.
* `Tensor.unpadded`: the matrix again.
-/

namespace Tessera

/-- The part a tensor plays. -/
inductive Role where
  | inp
  | wgt
  | acc
  | accBis
  | out
  deriving Repr, DecidableEq

namespace Role

/-- The name of the part. -/
def name : Role → String
  | inp => "INP"
  | wgt => "WGT"
  | acc => "ACC"
  | accBis => "ACC_BIS"
  | out => "OUT"

/-- The part with the given number. -/
def ofCode? (code : Int) : Option Role :=
  if code < 0 then none else [inp, wgt, acc, accBis, out][code.toNat]?

/-- The name of the part with the given number, or the number itself. -/
def nameOfCode (code : Int) : String := ((ofCode? code).map name).getD s!"Role({code})"

end Role

/-- A padded matrix in blocks; `rows` and `cols` are its shape before padding. -/
structure Tensor where
  role : Role
  name : String
  rows : Int
  cols : Int
  scalar : Scalar
  b : Int
  blockRows : Int
  blockCols : Int
  blocks : Array Block
  padded : Matrix
  deriving DecidableEq

namespace Tensor

/-- The tensor of a matrix in blocks of side `b`; without `padRows` only columns
are padded, and the last blocks may be shorter. -/
def ofMatrix (role : Role) (name : String) (m : Matrix) (scalar : Scalar) (b : Int)
    (padRows : Bool) : Outcome Tensor := do
  let padded ← m.pad b padRows
  if (← remainder padded.cols b) ≠ 0 then
    Outcome.diagnose name (.shapeMismatch (.unsplittable padded.cols b))
  let (blocks, blockRows, blockCols) ← padded.split b
  return {
    role, name, rows := m.rows, cols := m.cols, scalar, b, blockRows, blockCols
    blocks := blocks.toArray
    padded }

/-- The number of blocks. -/
def size (t : Tensor) : Int := t.blocks.size

/-- The rows of each block. -/
def heights (t : Tensor) : List Int := t.blocks.toList.map (·.height)

/-- The bytes of each block. -/
def blockSizes (t : Tensor) : Outcome (List Int) := do
  let width ← t.scalar.bytes
  return t.blocks.toList.map fun k => k.data.size * width

/-- The bytes of one block. -/
def blockBytes (t : Tensor) (k : Block) : Outcome (List UInt8) := do
  let data ← if t.role = .wgt then transposed k.data t.b else pure k.data
  return data.toList.flatMap t.scalar.bytesOf

/-- The bytes of the blocks in order. -/
def bytes (t : Tensor) : Outcome (List UInt8) :=
  return (← t.blocks.toList.mapM t.blockBytes).flatten

/-- The matrix without padding. -/
def unpadded (t : Tensor) : Outcome Matrix :=
  unsplit t.blocks.toList t.blockCols t.b t.rows t.cols

end Tensor

end Tessera
