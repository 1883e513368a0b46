import Tessera.Memory
import Tessera.Schedule.Step
import Tessera.Shaped

/-!
# The layout of the data

Before code is made for a schedule, the tensors are placed in memory in the
order input, weight, accumulator, second accumulator, output. A schedule that
stores single vectors needs room for those only, so its output has no blocks.
-/

namespace Tessera

/-- Where the tensors of a program stand in memory. -/
structure Layout where
  inp : Option Placed := none
  wgt : Option Placed := none
  acc : Option Placed := none
  accBis : Option Placed := none
  out : Option Placed := none
  deriving DecidableEq

namespace Layout

/-- Places a tensor, if there is one. -/
def placeTensor (m : Memory) (name : String) (r : Region) :
    Option Tensor → Outcome (Option Placed × Memory)
  | none => .ok (none, m)
  | some t => do
    let (o, m) ← Memory.granted (m.place name r (← t.blockSizes))
    return (some o, m)

/-- Places the output of a schedule. -/
def placeOutput (m : Memory) (d : Shaped) (s : Schedule) : Outcome (Option Placed × Memory) :=
  match s.storeGrain with
  | .block => placeTensor m "OUT" .out (some d.c)
  | .vector => do
    let size := wrap64 (wrap64 (s.stored.length * d.b) * (← d.c.scalar.bytes))
    let (o, m) ← Memory.granted (m.reserve "OUT" .out size)
    return (some o, m)

/-- Places the tensors of a shaped program for a schedule of it. -/
def allocate (m : Memory) (d : Shaped) (s : Schedule) : Outcome (Layout × Memory) := do
  let (inp, m) ← placeTensor m "INP" .inp d.a
  let (wgt, m) ← placeTensor m "WGT" .wgt d.w
  let (acc, m) ← placeTensor m "ACC" .acc (some d.x)
  let (accBis, m) ← placeTensor m "ACC_BIS" .acc d.y
  let (out, m) ← placeOutput m d s
  return ({ inp, wgt, acc, accBis, out }, m)

end Layout

end Tessera
