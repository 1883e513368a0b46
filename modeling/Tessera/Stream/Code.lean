import Tessera.Instruction.Codec

/-!
# Machine code

The code of a program is its stream of instructions and the table of
micro-operations those load. As long as nobody has decided where the table
stands in memory, its loads count from the start of the table.

* `Code.encode`: the bytes of both parts.
* `Code.relocate`: adds the address of the table to every load from it.
-/

namespace Tessera

namespace Instruction

/-- Whether the instruction loads micro-operations. -/
def loadsMicroOps (i : Instruction) : Bool :=
  i.opcode == .load && i.buffer == .uop && !i.isNop

/-- Where the instruction loads from once the table stands at `base`. -/
def tableAddress (base : UInt64) (i : Instruction) : UInt64 := i.dramBase.toUInt64 + base

/-- Whether the address of a load from the table has more than 32 bits. -/
def outOfReach (base : UInt64) (i : Instruction) : Bool :=
  i.loadsMicroOps && 0xffffffff < i.tableAddress base

/-- The instruction for a table at `base`. -/
def rebase (base : UInt64) (i : Instruction) : Instruction :=
  if i.loadsMicroOps then { i with dramBase := (i.tableAddress base).toUInt32 } else i

end Instruction

/-- A stream of instructions with its table of micro-operations. -/
structure Code where
  instructions : List Instruction := []
  microOps : List MicroOp := []
  deriving DecidableEq

namespace Code

/-- The number of instructions with an opcode. -/
def count (c : Code) (opcode : Opcode) : Nat := c.instructions.countP (·.opcode == opcode)

/-- The bytes of the stream and of the table. -/
def encode (c : Code) : Outcome (List UInt8 × List UInt8) := do
  let stream ← encodeProgram c.instructions
  return (stream, ← encodeTable c.microOps)

/-- Moves the loads of a stream to a table at `base`, up to the first one whose address
would need more than 32 bits. The instructions are numbered from `n` on. -/
def relocateFrom (base : UInt64) (n : Nat) : List Instruction → List Instruction × Outcome Unit
  | [] => ([], .ok ())
  | i :: is =>
    if i.outOfReach base then
      (i :: is, Outcome.diagnose s!"insn[{n}]"
        (.encodingOverflow (.uopAddress (i.tableAddress base).toNat)))
    else
      let (rest, moved) := relocateFrom base (n + 1) is
      (i.rebase base :: rest, moved)

/-- Moves the table to `base`. The first load that would need more than 32 bits
is refused; the loads before it are moved all the same. -/
def relocate (base : UInt64) (c : Code) : Code × Outcome Unit :=
  let (insns, moved) := relocateFrom base 0 c.instructions
  ({ c with instructions := insns }, moved)

end Code

end Tessera
