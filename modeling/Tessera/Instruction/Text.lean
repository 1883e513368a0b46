import Tessera.Instruction.Basic
import Tessera.Text.Format

/-!
# The text of instructions and micro-operations

One line for each instruction: its name in a column of eleven characters, its
flags in brackets and the fields that count for its opcode. An empty transfer
shows the stage it runs on. A listing numbers its lines in a column of five.
-/

namespace Tessera

namespace Instruction

/-- The instruction as one line. -/
def text (i : Instruction) : String :=
  let head := s!"{Text.padRight 11 i.opcode.name} [{i.flags.text}]"
  let loops := s!"uop=[{i.uopBegin},{i.uopEnd}) loop=({i.loopOut},{i.loopIn}) dst=({i.dstFactorOut},{i.dstFactorIn}) src=({i.srcFactorOut},{i.srcFactorIn})"
  match i.opcode with
  | .load | .store =>
    if i.isNop then
      s!"NOP-{Text.padRight 7 i.stage.title} [{i.flags.text}] {i.buffer.name}"
    else
      let place := s!"{Text.padRight 4 i.buffer.name} sram={Text.hexLiteral i.sramBase.toNat} dram={Text.hexLiteral i.dramBase.toNat}"
      let size := s!"y={i.ySize} x={i.xSize} stride={i.xStride}"
      s!"{head} {place} {size} pad=({i.yPadTop},{i.yPadBottom},{i.xPadLeft},{i.xPadRight})"
  | .gemm =>
    s!"{head} reset={Text.truth i.reset} {loops} wgt=({i.wgtFactorOut},{i.wgtFactorIn})"
  | .alu =>
    let operand := if i.useImm then s!"imm={i.imm.toInt}" else "vec"
    s!"{head} {i.aluOp.name} {operand} {loops}"
  | .finish => head
  | .unassigned _ _ => i.opcode.name

end Instruction

/-- The micro-operation in parentheses. -/
def MicroOp.text (u : MicroOp) : String := s!"(dst={u.dst}, src={u.src}, wgt={u.wgt})"

/-- Numbered lines. -/
def listing (lines : List String) : String :=
  String.join (lines.zipIdx.map fun (line, i) => s!"{Text.padLeft 5 (toString i)}  {line}\n")

/-- The listing of an instruction stream. -/
def disassemble (insns : List Instruction) : String := listing (insns.map Instruction.text)

/-- The listing of a table of micro-operations. -/
def listMicroOps (uops : List MicroOp) : String := listing (uops.map MicroOp.text)

end Tessera
