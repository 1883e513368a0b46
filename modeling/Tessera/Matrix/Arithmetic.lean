import Tessera.Instruction.Basic
import Tessera.Scalar

/-!
# Arithmetic on accumulators

`alu op a b acc` is what an ALU instruction makes of the accumulator value `a`
and the operand `b`. Minimum and maximum are taken as they are; sums, products
and left shifts wrap to the scalar type `acc`. A shift to the right goes toward
the smaller number, and a negative amount shifts to the left.
-/

namespace Tessera

/-- The value of one operation. -/
def alu (op : AluOp) (a b : Int) (acc : Scalar) : Outcome Int :=
  match op with
  | .min => .ok (min a b)
  | .max => .ok (max a b)
  | .add => acc.wrap (a + b)
  | .mul => acc.wrap (a * b)
  | .shr =>
    if 0 ≤ b then .ok (a / (twoTo (min b 63).toNat : Int))
    else
      let left := wrap64 (-b)
      if 64 ≤ left then .ok 0
      else if left < 0 then .error .fault
      else acc.wrap (a * (twoTo left.toNat : Int))
  | .unassigned _ _ => Outcome.diagnose op.name (.unknownOp .noSemantics)

/-- The values of an operation on two vectors, number by number; a source that
is too short is a fault. -/
def aluVector (op : AluOp) (dst src : List Int) (acc : Scalar) : Outcome (List Int) :=
  match dst, src with
  | [], _ => .ok []
  | _ :: _, [] => .error .fault
  | a :: dst, b :: src => do
    let v ← alu op a b acc
    return v :: (← aluVector op dst src acc)

/-- The values of an operation with one operand for a whole vector. -/
def aluImmediate (op : AluOp) (dst : List Int) (imm : Int) (acc : Scalar) : Outcome (List Int) :=
  dst.mapM fun a => alu op a imm acc

end Tessera
