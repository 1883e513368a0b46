import Tessera.Text.Format

/-!
# Sizes of the scratchpads and of transfers

`Capacities` holds how much each scratchpad of the accelerator can keep, and
`Divisors` how many bytes one transfer unit of each kind of memory object has.
-/

namespace Tessera

/-- The capacity of each scratchpad: blocks for inputs, weights, accumulators
and outputs, single micro-operations for `uop`. -/
structure Capacities where
  inp : Int
  wgt : Int
  acc : Int
  out : Int
  uop : Int
  deriving Repr, DecidableEq, Inhabited

/-- The capacities with their names, in braces. -/
def Capacities.text (c : Capacities) : String :=
  s!"\x7bInp:{c.inp} Wgt:{c.wgt} Acc:{c.acc} Out:{c.out} Uop:{c.uop}\x7d"

/-- The size in bytes of one transfer unit of each kind of memory object. -/
structure Divisors where
  inp : Int
  wgt : Int
  acc : Int
  out : Int
  uop : Int
  insn : Int
  deriving Repr, DecidableEq, Inhabited

end Tessera
