import Tessera.Bytes
import Tessera.Stream.Code

/-!
# Micro-operations of a loop

An ALU instruction repeats each of its micro-operations in an inner loop that
moves one row further every time. Rows that follow each other are swept by that
loop if all such runs have one length; otherwise every row has a
micro-operation of its own.

* `runs`: the rows cut where they do not follow each other.
* `sweep`: the micro-operations and the length of the inner loop.
* `batch`: the instructions that bring micro-operations into the scratchpad,
  as many at a time as it holds, and run them.
-/

namespace Tessera

/-- The accumulator rows an operation writes and reads. -/
structure RowPair where
  dst : Int
  src : Int := 0
  deriving Repr, DecidableEq

namespace RowPair

/-- Whether `q` is one row behind `p`; the rows read count for `vector` only. -/
def follows (vector : Bool) (p q : RowPair) : Bool :=
  q.dst == p.dst + 1 && (!vector || q.src == p.src + 1)

/-- The micro-operation that starts at a pair. -/
def microOp (vector : Bool) (p : RowPair) : MicroOp :=
  { dst := UInt32.ofInt p.dst, src := if vector then UInt32.ofInt p.src else 0 }

end RowPair

/-- Rows that follow each other: the first pair and how many there are. -/
structure Run where
  start : RowPair
  length : Nat
  deriving Repr, DecidableEq

/-- Cuts pairs into runs: `done` holds the finished ones, latest first, and
`current` the one in work, whose latest pair is `last`. -/
def runsFrom (vector : Bool) (done : List Run) (current : Run) (last : RowPair) :
    List RowPair → List Run
  | [] => (current :: done).reverse
  | p :: ps =>
    if last.follows vector p then
      runsFrom vector done { current with length := current.length + 1 } p ps
    else runsFrom vector (current :: done) ⟨p, 1⟩ p ps

/-- The longest runs of pairs that follow each other. -/
def runs (vector : Bool) : List RowPair → List Run
  | [] => []
  | p :: ps => runsFrom vector [] ⟨p, 1⟩ p ps

/-- The micro-operations for some pairs of rows, and how often the inner loop
repeats them. -/
def sweep (vector : Bool) (pairs : List RowPair) : List MicroOp × Nat :=
  let each := (pairs.map (·.microOp vector), 1)
  match runs vector pairs with
  | [] => each
  | r :: rs =>
    if rs.all fun s => s.length == r.length then
      ((r :: rs).map fun s => s.start.microOp vector, r.length)
    else each

/-- Code that runs `i` on some micro-operations, of which the scratchpad holds
`capacity` at a time; in the table they come after `start` others. -/
def batch (capacity : Int) (start : Nat) (i : Instruction) (microOps : List MicroOp) : Code :=
  let size := (max capacity 1).toNat
  let instructions := (chunks size microOps).zipIdx.flatMap fun (piece, k) =>
    let n := UInt32.ofNat piece.length
    [Instruction.load .uop 0 (UInt32.ofNat (start + k * size)) 1 n n,
      { i with uopBegin := 0, uopEnd := n }]
  { instructions, microOps }

end Tessera
