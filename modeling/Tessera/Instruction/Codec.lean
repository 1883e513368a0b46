import Tessera.Bytes
import Tessera.Failure
import Tessera.Instruction.Basic
import Tessera.Instruction.Bits
import Tessera.Power

/-!
# The binary form of instructions and micro-operations

An instruction is 16 bytes and a micro-operation four, both little-endian. The
layout of an instruction depends on its opcode, and one table for each layout
serves both directions: a slot has a width, and knows how to read and how to
write its part of the record.

* `Instruction.layout?`: the slots of an opcode, none for an unassigned code.
* `Instruction.encode`, `Instruction.decode`: one instruction.
* `encodeProgram`, `decodeProgram`: streams; an error names the first bad index.
* `MicroOp.encode`, `MicroOp.decode`, `encodeTable`, `decodeTable`: the same for
  micro-operations.
-/

namespace Tessera

/-- One field of an instruction's binary form. -/
structure Slot where
  name : String
  width : Nat
  get : Instruction → Nat
  set : Instruction → Nat → Instruction

namespace Slot

/-- A slot of one bit. -/
def flag (name : String) (get : Instruction → Bool) (set : Instruction → Bool → Instruction) :
    Slot :=
  ⟨name, 1, fun i => (get i).toNat, fun i n => set i (n == 1)⟩

/-- A slot for a 32-bit field. -/
def word (name : String) (width : Nat) (get : Instruction → UInt32)
    (set : Instruction → UInt32 → Instruction) : Slot :=
  ⟨name, width, fun i => (get i).toNat, fun i n => set i (UInt32.ofNat n)⟩

/-- A slot that no field uses. -/
def unused (width : Nat) : Slot := ⟨"unused", width, fun _ => 0, fun i _ => i⟩

end Slot

namespace Instruction

/-- The slots every instruction starts with. -/
def headSlots : List Slot :=
  [⟨"opcode", 3, fun i => i.opcode.code.toNat,
      fun i n => { i with opcode := .ofCode (UInt8.ofNat n) }⟩,
    .flag "pop_prev_dep" (·.flags.popPrev) fun i b => { i with flags.popPrev := b },
    .flag "pop_next_dep" (·.flags.popNext) fun i b => { i with flags.popNext := b },
    .flag "push_prev_dep" (·.flags.pushPrev) fun i b => { i with flags.pushPrev := b },
    .flag "push_next_dep" (·.flags.pushNext) fun i b => { i with flags.pushNext := b }]

/-- The slots of a transfer. -/
def transferSlots : List Slot :=
  [⟨"buffer_id", 3, fun i => i.buffer.code.toNat,
      fun i n => { i with buffer := .ofCode (UInt8.ofNat n) }⟩,
    .word "sram_base" 16 (·.sramBase) fun i n => { i with sramBase := n },
    .word "dram_base" 32 (·.dramBase) fun i n => { i with dramBase := n },
    .unused 6,
    .word "y_size" 16 (·.ySize) fun i n => { i with ySize := n },
    .word "x_size" 16 (·.xSize) fun i n => { i with xSize := n },
    .word "x_stride" 16 (·.xStride) fun i n => { i with xStride := n },
    .word "y_pad_top" 4 (·.yPadTop) fun i n => { i with yPadTop := n },
    .word "y_pad_bottom" 4 (·.yPadBottom) fun i n => { i with yPadBottom := n },
    .word "x_pad_left" 4 (·.xPadLeft) fun i n => { i with xPadLeft := n },
    .word "x_pad_right" 4 (·.xPadRight) fun i n => { i with xPadRight := n }]

/-- The slots of the loops of GEMM and ALU. -/
def loopSlots : List Slot :=
  [.flag "reset" (·.reset) fun i b => { i with reset := b },
    .word "uop_bgn" 13 (·.uopBegin) fun i n => { i with uopBegin := n },
    .word "uop_end" 14 (·.uopEnd) fun i n => { i with uopEnd := n },
    .word "loop_out" 14 (·.loopOut) fun i n => { i with loopOut := n },
    .word "loop_in" 14 (·.loopIn) fun i n => { i with loopIn := n },
    .unused 1,
    .word "dst_factor_out" 11 (·.dstFactorOut) fun i n => { i with dstFactorOut := n },
    .word "dst_factor_in" 11 (·.dstFactorIn) fun i n => { i with dstFactorIn := n },
    .word "src_factor_out" 11 (·.srcFactorOut) fun i n => { i with srcFactorOut := n },
    .word "src_factor_in" 11 (·.srcFactorIn) fun i n => { i with srcFactorIn := n }]

/-- The slots of the weights of GEMM. -/
def weightSlots : List Slot :=
  [.word "wgt_factor_out" 10 (·.wgtFactorOut) fun i n => { i with wgtFactorOut := n },
    .word "wgt_factor_in" 10 (·.wgtFactorIn) fun i n => { i with wgtFactorIn := n }]

/-- The slots of the operand of ALU; the immediate stands in its low 16 bits. -/
def operandSlots : List Slot :=
  [⟨"alu_opcode", 3, fun i => i.aluOp.code.toNat,
      fun i n => { i with aluOp := .ofCode (UInt8.ofNat n) }⟩,
    .flag "use_imm" (·.useImm) fun i b => { i with useImm := b },
    ⟨"imm", 16, fun i => (i.imm.toInt % (twoTo 16 : Int)).toNat,
      fun i n => { i with imm := Int32.ofInt (Int.bmod n (twoTo 16)) }⟩]

/-- The slots of an opcode in the order of the bits. -/
def layout? : Opcode → Option (List Slot)
  | .load | .store | .finish => some (headSlots ++ transferSlots)
  | .gemm => some (headSlots ++ loopSlots ++ weightSlots)
  | .alu => some (headSlots ++ loopSlots ++ operandSlots)
  | .unassigned _ _ => none

/-- The size of an encoded instruction. -/
def byteSize : Nat := 16

/-- The fields of an instruction as the slots read them. -/
def fields (i : Instruction) (slots : List Slot) : List Bits.Field :=
  slots.map fun s => ⟨s.name, s.get i, s.width⟩

/-- The 16 bytes of an instruction. The immediate of an ALU instruction is
checked before any other field. -/
def encode (i : Instruction) : Outcome (List UInt8) :=
  match layout? i.opcode with
  | none => Outcome.diagnose "instruction" (.unknownOp (.opcodeUnassigned i.opcode.code.toNat))
  | some slots =>
    if i.opcode = .alu ∧ (i.imm.toInt < -(twoTo 15 : Int) ∨ (twoTo 15 : Int) ≤ i.imm.toInt) then
      Outcome.diagnose i.opcode.name (.encodingOverflow (.immediateField i.imm.toInt))
    else do
      let packer ← Bits.Packer.putAll {} (i.fields slots)
      match packer.refused with
      | some f => Outcome.diagnose i.opcode.name (.encodingOverflow (.field f.name f.value f.width))
      | none => return packer.wide.bytes

/-- The instruction whose slots hold some values, each the low bits of a word. -/
def ofValues (slots : List Slot) (values : List UInt64) : Instruction :=
  (slots.zip values).foldl (fun i (s, v) => s.set i v.toNat) { opcode := .load }

/-- The instruction 16 bytes stand for. -/
def decode (bytes : List UInt8) : Outcome Instruction :=
  if bytes.length < byteSize then
    Outcome.complain (.instructionBytes byteSize bytes.length)
  else do
    let unpacker : Bits.Unpacker := { wide := .ofBytes bytes }
    let (code, _) ← unpacker.get 3
    let opcode := Opcode.ofCode (UInt8.ofNat code.toNat)
    match layout? opcode with
    | none => Outcome.diagnose "instruction" (.unknownOp (.opcodeUnassigned opcode.code.toNat))
    | some slots => return ofValues slots (← unpacker.getAll (slots.map (·.width)))

end Instruction

/-- Maps a list; a failure gets the index of the first element that fails as its
context. -/
def mapIndexed {α β : Type} (what : String) (f : α → Outcome β) (xs : List α) :
    Outcome (List β) :=
  xs.zipIdx.mapM fun (x, i) => Outcome.within s!"{what} {i}" (f x)

/-- The bytes of an instruction stream. -/
def encodeProgram (insns : List Instruction) : Outcome (List UInt8) :=
  return (← mapIndexed "instruction" Instruction.encode insns).flatten

/-- The instruction stream some bytes stand for. -/
def decodeProgram (bytes : List UInt8) : Outcome (List Instruction) :=
  if bytes.length % Instruction.byteSize ≠ 0 then
    Outcome.complain (.programBytes bytes.length Instruction.byteSize)
  else mapIndexed "instruction" Instruction.decode (chunks Instruction.byteSize bytes)

namespace MicroOp

/-- The size of an encoded micro-operation. -/
def byteSize : Nat := 4

/-- The word of a micro-operation: destination, source and weight from the low
bits up. -/
def encode (u : MicroOp) : Outcome UInt32 :=
  if twoTo rowBits ≤ u.dst.toNat ∨ twoTo rowBits ≤ u.src.toNat ∨ twoTo blockBits ≤ u.wgt.toNat then
    Outcome.diagnose "uop" (.encodingOverflow (.microOp u.dst.toNat u.src.toNat u.wgt.toNat))
  else
    .ok (u.dst ||| u.src <<< UInt32.ofNat rowBits ||| u.wgt <<< UInt32.ofNat (rowBits + rowBits))

/-- The micro-operation of a word. -/
def decode (word : UInt32) : MicroOp where
  dst := word &&& (1 <<< UInt32.ofNat rowBits - 1)
  src := word >>> UInt32.ofNat rowBits &&& (1 <<< UInt32.ofNat rowBits - 1)
  wgt := word >>> UInt32.ofNat (rowBits + rowBits)

end MicroOp

/-- The bytes of a table of micro-operations. -/
def encodeTable (uops : List MicroOp) : Outcome (List UInt8) :=
  return (← mapIndexed "uop" MicroOp.encode uops).flatMap fun w =>
    littleEndian MicroOp.byteSize w.toNat

/-- The table of micro-operations some bytes stand for. -/
def decodeTable (bytes : List UInt8) : Outcome (List MicroOp) :=
  if bytes.length % MicroOp.byteSize ≠ 0 then
    Outcome.complain (.microOpBytes bytes.length MicroOp.byteSize)
  else
    .ok ((chunks MicroOp.byteSize bytes).map fun b => MicroOp.decode (UInt32.ofNat (ofLittleEndian b)))

end Tessera
