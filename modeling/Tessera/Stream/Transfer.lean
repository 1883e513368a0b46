import Tessera.Instruction.Basic
import Tessera.Word

/-!
# Transfers

A step moves blocks or vectors between memory and a scratchpad. Transfers at
equal distances in both are one instruction with two dimensions; otherwise each
has an instruction of its own.

* `strided`: the transfers lie at equal distances.
* `moves`: the instructions of some transfers.
-/

namespace Tessera

/-- One block or vector that is moved. Addresses and sizes count transfer units
of the scratchpad. -/
structure Transfer where
  /-- The number of the block or vector. -/
  index : Int
  sram : Int
  dram : UInt32
  size : Int
  /-- Units of zeros that follow the data in the scratchpad. -/
  pad : Int := 0
  deriving Repr, DecidableEq

namespace Transfer

/-- How far a transfer lies behind another: in number, in memory and in the
scratchpad. Numbers and places in the scratchpad are words, and so is how far they
are apart. -/
def distance (t u : Transfer) : Int × Int × Int :=
  (wrap64 (u.index - t.index), (u.dram.toNat : Int) - t.dram.toNat, wrap64 (u.sram - t.sram))

end Transfer

/-- Whether every transfer lies behind the one before it by `step`. -/
def evenly (step : Int × Int × Int) : List Transfer → Bool
  | t :: u :: rest => t.distance u == step && evenly step (u :: rest)
  | _ => true

/-- Whether the transfers, at least two, are all of the size `full`, `slot` apart
in the scratchpad and in memory as far apart as the first two, in rising order. -/
def strided (full slot : Int) : List Transfer → Bool
  | t :: u :: rest =>
    let (number, gap, _) := t.distance u
    decide (0 < number) && decide (0 < gap) &&
      (t :: u :: rest).all (fun v => v.size == full) && evenly (number, gap, slot) (t :: u :: rest)
  | _ => false

/-- An instruction that moves data, given its scratchpad and memory addresses,
rows, units in a row and distance of the rows. -/
abbrev Mover := UInt32 → UInt32 → UInt32 → UInt32 → UInt32 → Instruction

/-- The instruction of a single transfer. -/
def Transfer.move (m : Mover) (t : Transfer) : Instruction :=
  let n := UInt32.ofInt t.size
  { m (UInt32.ofInt t.sram) t.dram 1 n n with xPadRight := UInt32.ofInt t.pad }

/-- The instructions of some transfers. -/
def moves (m : Mover) (full slot : Int) (ts : List Transfer) : List Instruction :=
  if strided full slot ts then
    match ts with
    | t :: u :: _ =>
      [m (UInt32.ofInt t.sram) t.dram (UInt32.ofNat ts.length) (UInt32.ofInt full)
        (u.dram - t.dram)]
    | _ => []
  else ts.map (·.move m)

end Tessera
