import Tessera.Hardware.Config
import Tessera.Matrix.Arithmetic
import Tessera.Matrix.Product
import Tessera.Random.Generator
import Tessera.Source.Program
import Tessera.Tensor

/-!
# Shaped programs

Shaping turns a program into tensors and works out what the accelerator has to
produce. The accumulator is seen as a stack of vectors: vector `v` is row
`v % b` of block `v / b`, and a second accumulator follows the first.

* `Shaped.build`: tensors, operations, the accumulator before and after the
  operations, and the output.
* `runOps`: the operations on the stack, in order.
* `resultVectors`: the vectors that hold results: those an operation writes, or all
  of them after a product, except those read again after their last write.
-/

namespace Tessera

/-- What a program computes. -/
inductive Form where
  | gemm
  | constant
  | alu
  | add
  deriving Repr, DecidableEq

namespace Form

/-- The name of the form. -/
def name : Form → String
  | gemm => "gemm"
  | constant => "const-gemm"
  | alu => "alu"
  | add => "add"

/-- The form with the given number. -/
def ofCode? (code : Int) : Option Form :=
  if code < 0 then none else [gemm, constant, alu, add][code.toNat]?

/-- The name of the form with the given number, or the number itself. -/
def nameOfCode (code : Int) : String := ((ofCode? code).map name).getD s!"Kind({code})"

end Form

/-- A program as the accelerator sees it, with its result. -/
structure Shaped where
  form : Form
  /-- The side of a block. -/
  b : Int
  scalar : Int
  /-- The input and the weight of a product. -/
  a : Option Tensor
  w : Option Tensor
  /-- The accumulator, and the second one of a sum. -/
  x : Tensor
  y : Option Tensor
  ops : List Resolved
  /-- The stacked accumulators after the product and before any operation. -/
  acc : Matrix
  /-- The stacked accumulators after all operations. -/
  final : Matrix
  /-- The vectors that hold results, in order. -/
  storeMask : List Int
  /-- The result in the scalar type of outputs. -/
  c : Tensor
  /-- Results are stored vector by vector. -/
  vectorStore : Bool

/-- One operation on one site of the stack `data` of rows of length `cols`. -/
def runSite (cols : Int) (acc : Scalar) (r : Resolved) (data : Array Int) (s : Site) :
    Outcome (Array Int) := do
  let rowAt (v : Int) := slice data (wrap64 (v * cols)) (wrap64 (wrap64 (v + 1) * cols))
  let dst ← rowAt s.dst
  let result ← if r.useImm then aluImmediate r.op dst.toList r.imm acc
    else do aluVector r.op dst.toList (← rowAt s.src).toList acc
  overwrite data (wrap64 (s.dst * cols)) result.toArray

/-- One operation on all its sites. -/
def runOp (cols : Int) (acc : Scalar) (data : Array Int) (r : Resolved) : Outcome (Array Int) :=
  Outcome.within r.object (r.sites.foldlM (runSite cols acc r) data)

/-- The operations in order. -/
def runOps (m : Matrix) (ops : List Resolved) (acc : Scalar) : Outcome Matrix := do
  return { m with data := ← ops.foldlM (runOp m.cols acc) m.data }

/-- The last times each vector was written and read, zero for never; the first
site has time `t + 1`. -/
def lastUses (vectors : Nat) (sites : List Site) : Array Nat × Array Nat :=
  let (writes, reads, _) := sites.foldl (fun (writes, reads, t) s =>
    let reads := if s.src ≠ noSource ∧ s.src < vectors then
        reads.setIfInBounds s.src.toNat (t + 1) else reads
    (writes.setIfInBounds s.dst.toNat (t + 1), reads, t + 1))
    (Array.replicate vectors 0, Array.replicate vectors 0, 0)
  (writes, reads)

/-- The vectors that hold results. -/
def resultVectors (form : Form) (vectors : Int) (ops : List Resolved) : List Int :=
  let (writes, reads) := lastUses vectors.toNat (ops.flatMap (·.sites))
  (below vectors).filter fun v =>
    let written := writes.getD v.toNat 0
    if written = 0 then form = .gemm || form = .constant
    else !(decide (written < reads.getD v.toNat 0))

namespace Shaped

/-- The numbers of blocks and of block columns of input, weight and accumulator. -/
structure Counts where
  nA : Int := 0
  aCols : Int := 0
  nB : Int := 0
  bCols : Int := 0
  nX : Int
  xCols : Int
  deriving Repr, DecidableEq

/-- The numbers of blocks; a tensor that is missing has none. -/
def counts (d : Shaped) : Counts where
  nA := (d.a.map (·.size)).getD 0
  aCols := (d.a.map (·.blockCols)).getD 0
  nB := (d.w.map (·.size)).getD 0
  bCols := (d.w.map (·.blockCols)).getD 0
  nX := d.x.size
  xCols := d.x.blockCols

/-- The number of vectors of the accumulator. -/
def vectors (d : Shaped) : Int := d.x.size * d.b

/-- The blocks in which a vector holds a result, each once; the vectors are in
order. -/
def storeBlocks (d : Shaped) : List Int :=
  (d.storeMask.foldl (fun blocks v =>
    let block := v.tdiv d.b
    if blocks.head? = some block then blocks else block :: blocks) []).reverse

/-- The values of the declared matrices: their data, or seeded numbers from the
program's range cut to the scalar type of the matrix's role. -/
def materialise (p : Program) (c : Config) (roles : Roles) : Outcome (List (String × Matrix)) := do
  let (values, _) ← p.matrices.foldlM (fun (done, g) m => do
    match m.data with
    | some data => return ((m.name, data) :: done, g)
    | none =>
      let scalar := if m.name = roles.input then c.inp
        else if m.name = roles.weight then c.wgt else c.acc
      let lo ← scalar.clip p.valueMin
      let hi ← scalar.clip p.valueMax
      let count ← tableSize (wrap64 (m.rows * m.cols))
      let (data, g) := Random.Generator.draws lo (hi - lo + 1).toNat count #[] g
      return ((m.name, ⟨m.rows, m.cols, data⟩) :: done, g))
    (([] : List (String × Matrix)), Random.Generator.ofSeed p.seed)
  return values

/-- The value of a matrix; an unknown one is empty. -/
def valueOf (values : List (String × Matrix)) (name : String) : Matrix :=
  (values.lookup name).getD ⟨0, 0, #[]⟩

/-- The tensors of a program and its stacked accumulators before operations. -/
structure Operands where
  form : Form
  scalar : Int := 0
  a : Option Tensor := none
  w : Option Tensor := none
  x : Tensor
  y : Option Tensor := none
  acc : Matrix

/-- The weight of a constant product: one diagonal block as a tensor, and the
diagonal matrix of side `n`. -/
def constantWeight (c : Config) (b n scalar : Int) : Outcome (Tensor × Matrix) := do
  if !(← c.wgt.contains scalar) then
    Outcome.diagnose "GEMM" (.dtypeUnsupported (.scalarOutside scalar (← c.wgt.name)))
  let block ← Block.diagonal b scalar
  let t : Tensor := {
    role := .wgt, name := "SCALAR", rows := b, cols := b, scalar := c.wgt, b
    blockRows := 1, blockCols := 1, blocks := #[block], padded := ⟨b, b, block.data⟩ }
  return (t, ⟨n, n, (← Block.diagonal n scalar).data⟩)

/-- The weight of a product of matrices, which has as many rows as the input has
columns. -/
def matrixWeight (c : Config) (roles : Roles) (b : Int) (input : Matrix) (a : Tensor)
    (w : Matrix) : Outcome Tensor := do
  if w.rows ≠ input.cols then
    Outcome.diagnose roles.weight
      (.shapeMismatch (.weightRows w.rows roles.input input.cols))
  let t ← Tensor.ofMatrix .wgt roles.weight w c.wgt b true
  if t.blockRows ≠ a.blockCols then
    Outcome.diagnose roles.weight
      (.shapeMismatch (.weightBlockRows t.blockRows a.blockCols))
  return t

/-- A way to add a product to a matrix in a scalar type. -/
abbrev Multiplier := Matrix → Matrix → Matrix → Scalar → Outcome Matrix

/-- The operands of a product, multiplied out. -/
def gemmOperands (p : Program) (g : Gemm) (c : Config) (b : Int) (roles : Roles)
    (values : List (String × Matrix)) (multiply : Multiplier := mulAdd) : Outcome Operands := do
  let input := valueOf values roles.input
  let a ← Tensor.ofMatrix .inp roles.input input c.inp b (!p.nonSquareInput)
  let (w, factor, cols) ← if g.constant then do
      let (t, m) ← constantWeight c b a.padded.cols g.scalar
      pure (t, m, input.cols)
    else do
      let weight := valueOf values roles.weight
      let t ← matrixWeight c roles b input a weight
      pure (t, t.padded, weight.cols)
  let (name, x) ← match values.lookup roles.accumulator with
    | some x => pure (roles.accumulator, x)
    | none => do pure (accumulatorName, ← Matrix.zero input.rows cols)
  if x.rows ≠ input.rows ∨ x.cols ≠ cols then
    Outcome.diagnose name (.shapeMismatch (.productShape x.rows x.cols input.rows cols))
  let t ← Tensor.ofMatrix .acc name x c.acc b true
  let product ← Outcome.within "reference gemm" (multiply a.padded factor t.padded c.acc)
  let (blocks, _, _) ← product.split b
  return {
    form := if g.constant then .constant else .gemm
    scalar := if g.constant then g.scalar else 0
    a := some a, w := some w, x := t, acc := ← stack blocks b }

/-- The accumulator of a program without a product, or both of a sum. -/
def plainOperands (p : Program) (c : Config) (b : Int) (roles : Roles)
    (values : List (String × Matrix)) : Outcome Operands := do
  let form := if p.addsAccumulators then Form.add else Form.alu
  let x := valueOf values roles.accumulator
  let t ← Tensor.ofMatrix .acc roles.accumulator x c.acc b true
  if roles.addAccumulator = "" then
    return { form, x := t, acc := ← stack t.blocks.toList b }
  let y := valueOf values roles.addAccumulator
  if y.rows ≠ x.rows ∨ y.cols ≠ x.cols then
    Outcome.diagnose roles.addAccumulator
      (.shapeMismatch (.pairShape y.rows y.cols roles.accumulator x.rows x.cols))
  let u ← Tensor.ofMatrix .accBis roles.addAccumulator y c.acc b true
  return { form, x := t, y := some u, acc := ← stack (t.blocks.toList ++ u.blocks.toList) b }

/-- The result: the vectors of the first accumulator in the scalar type of
outputs, in the blocks of the accumulator. -/
def outputTensor (c : Config) (b : Int) (clip : Bool) (x : Tensor) (final : Matrix) :
    Outcome Tensor := do
  let n := wrap64 (x.size * b)
  let data ← slice final.data 0 (wrap64 (n * b))
  let narrowed ← Matrix.narrow ⟨n, b, data⟩ c.out clip
  let blocks ← narrowed.unstack x.heights
  let padded ← unsplit blocks x.blockCols b x.padded.rows x.padded.cols
  return {
    role := .out, name := outputName, rows := x.rows, cols := x.cols, scalar := c.out, b
    blockRows := x.blockRows, blockCols := x.blockCols, blocks := blocks.toArray, padded }

/-- Shapes a program for a configuration; a product is worked out by `multiply`. -/
def build (p : Program) (c : Config) (multiply : Multiplier := mulAdd) : Outcome Shaped := do
  c.validate
  p.validate
  let roles ← p.roles
  let b ← c.block
  let values ← materialise p c roles
  let o ← match p.gemm with
    | some g => gemmOperands p g c b roles values multiply
    | none => plainOperands p c b roles values
  let vectors := wrap64 (o.x.size * b)
  let ops ← resolve p.alu vectors
  let final ← runOps o.acc ops c.acc
  let output ← outputTensor c b p.clip o.x final
  return {
    form := o.form, b, scalar := o.scalar, a := o.a, w := o.w, x := o.x, y := o.y, ops
    acc := o.acc, final, storeMask := resultVectors o.form vectors ops, c := output
    vectorStore := o.form = .alu && ops.any (·.isVector) }

end Shaped

end Tessera
