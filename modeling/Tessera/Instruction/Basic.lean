/-!
# Instructions and micro-operations

The accelerator has three stages (load, compute and store), each with its own
instructions. An instruction is a record of all fields any instruction can
have; which of them count depends on its opcode: the transfer fields for LOAD,
STORE and FINISH, the loop fields for GEMM and ALU, the operand fields for ALU.

* `Opcode`, `Buffer`, `AluOp`: the codes with a name and those without.
* `Flags`: the four token flags of an instruction.
* `Instruction.stage`: the stage that executes it.
* `Instruction.isNop`: a transfer of nothing, which only carries flags.
-/

namespace Tessera

/-- The operation of an instruction; codes above four have no meaning. -/
inductive Opcode where
  | load
  | store
  | gemm
  | finish
  | alu
  | unassigned (code : UInt8) (high : 4 < code)
  deriving DecidableEq

namespace Opcode

/-- The operation with the given code. -/
def ofCode (code : UInt8) : Opcode :=
  if h : 4 < code then unassigned code h
  else if code = 0 then load
  else if code = 1 then store
  else if code = 2 then gemm
  else if code = 3 then finish
  else alu

/-- The code of the operation. -/
def code : Opcode → UInt8
  | load => 0
  | store => 1
  | gemm => 2
  | finish => 3
  | alu => 4
  | unassigned code _ => code

/-- The name of the operation. -/
def name : Opcode → String
  | load => "LOAD"
  | store => "STORE"
  | gemm => "GEMM"
  | finish => "FINISH"
  | alu => "ALU"
  | unassigned code _ => s!"Opcode({code})"

end Opcode

/-- The scratchpad of a transfer; codes above five have no meaning. -/
inductive Buffer where
  | uop
  | wgt
  | inp
  | acc
  | out
  | acc8
  | unassigned (code : UInt8) (high : 5 < code)
  deriving DecidableEq

namespace Buffer

/-- The scratchpad with the given code. -/
def ofCode (code : UInt8) : Buffer :=
  if h : 5 < code then unassigned code h
  else if code = 0 then uop
  else if code = 1 then wgt
  else if code = 2 then inp
  else if code = 3 then acc
  else if code = 4 then out
  else acc8

/-- The code of the scratchpad. -/
def code : Buffer → UInt8
  | uop => 0
  | wgt => 1
  | inp => 2
  | acc => 3
  | out => 4
  | acc8 => 5
  | unassigned code _ => code

/-- The name of the scratchpad. -/
def name : Buffer → String
  | uop => "UOP"
  | wgt => "WGT"
  | inp => "INP"
  | acc => "ACC"
  | out => "OUT"
  | acc8 => "ACC8"
  | unassigned code _ => s!"BufferID({code})"

end Buffer

/-- The arithmetic of an ALU instruction; codes above four have no meaning. -/
inductive AluOp where
  | min
  | max
  | add
  | shr
  | mul
  | unassigned (code : UInt8) (high : 4 < code)
  deriving DecidableEq

namespace AluOp

/-- The arithmetic with the given code. -/
def ofCode (code : UInt8) : AluOp :=
  if h : 4 < code then unassigned code h
  else if code = 0 then min
  else if code = 1 then max
  else if code = 2 then add
  else if code = 3 then shr
  else mul

/-- The code of the arithmetic. -/
def code : AluOp → UInt8
  | min => 0
  | max => 1
  | add => 2
  | shr => 3
  | mul => 4
  | unassigned code _ => code

/-- The name of the arithmetic. -/
def name : AluOp → String
  | min => "MIN"
  | max => "MAX"
  | add => "ADD"
  | shr => "SHR"
  | mul => "MUL"
  | unassigned code _ => s!"AluOpcode({code})"

end AluOp

/-- The tokens an instruction takes before it runs and gives when it is done.
The stage before load and the stage after store do not exist. -/
structure Flags where
  popPrev : Bool := false
  popNext : Bool := false
  pushPrev : Bool := false
  pushNext : Bool := false
  deriving Repr, DecidableEq, Inhabited

namespace Flags

/-- The flags set in one of two records. -/
def union (a b : Flags) : Flags where
  popPrev := a.popPrev || b.popPrev
  popNext := a.popNext || b.popNext
  pushPrev := a.pushPrev || b.pushPrev
  pushNext := a.pushNext || b.pushNext

/-- Four characters, one for each flag, a dash where it is not set. -/
def text (f : Flags) : String :=
  String.ofList [if f.popPrev then 'p' else '-', if f.popNext then 'n' else '-',
    if f.pushPrev then 'P' else '-', if f.pushNext then 'N' else '-']

end Flags

/-- The stages of the accelerator. -/
inductive Stage where
  | load
  | compute
  | store
  deriving Repr, DecidableEq

namespace Stage

/-- The name of the stage. -/
def name : Stage → String
  | load => "load"
  | compute => "compute"
  | store => "store"

/-- The name in capitals. -/
def title : Stage → String
  | load => "LOAD"
  | compute => "COMPUTE"
  | store => "STORE"

/-- The stage with the given number. -/
def ofCode? (code : Int) : Option Stage :=
  if code = 0 then some load
  else if code = 1 then some compute
  else if code = 2 then some store
  else none

/-- The name of the stage with the given number, or the number itself. -/
def nameOfCode (code : Int) : String := ((ofCode? code).map name).getD s!"Stage({code})"

end Stage

/-- An instruction with every field any opcode has. -/
structure Instruction where
  opcode : Opcode
  flags : Flags := {}
  buffer : Buffer := .uop
  sramBase : UInt32 := 0
  dramBase : UInt32 := 0
  ySize : UInt32 := 0
  xSize : UInt32 := 0
  xStride : UInt32 := 0
  yPadTop : UInt32 := 0
  yPadBottom : UInt32 := 0
  xPadLeft : UInt32 := 0
  xPadRight : UInt32 := 0
  reset : Bool := false
  uopBegin : UInt32 := 0
  uopEnd : UInt32 := 0
  loopOut : UInt32 := 0
  loopIn : UInt32 := 0
  dstFactorOut : UInt32 := 0
  dstFactorIn : UInt32 := 0
  srcFactorOut : UInt32 := 0
  srcFactorIn : UInt32 := 0
  wgtFactorOut : UInt32 := 0
  wgtFactorIn : UInt32 := 0
  aluOp : AluOp := .min
  useImm : Bool := false
  imm : Int32 := 0
  deriving DecidableEq

namespace Instruction

/-- The stage that executes the instruction: a LOAD of inputs or weights runs on
the load stage, a STORE on the store stage, and everything else, loads of
micro-operations and accumulators included, on the compute stage. -/
def stage (i : Instruction) : Stage :=
  match i.opcode, i.buffer with
  | .load, .inp => .load
  | .load, .wgt => .load
  | .store, _ => .store
  | _, _ => .compute

/-- Whether the instruction is a transfer of nothing. -/
def isNop (i : Instruction) : Bool :=
  (i.opcode == .load || i.opcode == .store) && i.ySize == 0 && i.xSize == 0

/-- A LOAD of `ySize` rows of `xSize` units, whose starts are `xStride` apart. -/
def load (buffer : Buffer) (sram dram ySize xSize xStride : UInt32) : Instruction :=
  { opcode := .load, buffer, sramBase := sram, dramBase := dram, ySize, xSize, xStride }

/-- A STORE from the output scratchpad. -/
def store (sram dram ySize xSize xStride : UInt32) : Instruction :=
  { opcode := .store, buffer := .out, sramBase := sram, dramBase := dram, ySize, xSize, xStride }

/-- The empty transfer of the load stage. -/
def nopLoad : Instruction := { opcode := .load, buffer := .inp }

/-- The empty transfer of the compute stage. -/
def nopCompute : Instruction := { opcode := .load, buffer := .uop }

/-- The empty transfer of the store stage. -/
def nopStore : Instruction := { opcode := .store, buffer := .out }

/-- The instruction that ends a stream. -/
def finish : Instruction := { opcode := .finish }

end Instruction

/-- A micro-operation: rows of the accumulator and input scratchpads and a
weight block. -/
structure MicroOp where
  dst : UInt32 := 0
  src : UInt32 := 0
  wgt : UInt32 := 0
  deriving Repr, DecidableEq, Inhabited

namespace MicroOp

/-- The bits in which a micro-operation counts rows. -/
def rowBits : Nat := 11

/-- The bits in which it counts weight blocks. -/
def blockBits : Nat := 10

end MicroOp

end Tessera
