import Tessera.Failure
import Tessera.Hardware.Capacities
import Tessera.Text.Separated

/-!
# Objects in memory

The accelerator's memory is handed out from a moving cursor. Every object
starts on a page, and instructions address it by its logical address: its
distance from the memory's origin, counted in transfer units of its kind.

* `Region`: the kinds of objects, each with a transfer unit.
* `Memory.findPage`: the next page whose distance is a multiple of the unit.
* `Memory.place`: an object made of blocks; `Memory.reserve`: one without. Both return
  the memory beside the answer.
* `Memory.table`: the objects as comma-separated lines.
-/

namespace Tessera

/-- The kind of a memory object; numbers above five have no name and are
counted like instructions. -/
inductive Region where
  | inp
  | wgt
  | acc
  | out
  | uop
  | insn
  | unnamed (code : Int) (outside : code < 0 ∨ 5 < code)
  deriving DecidableEq

namespace Region

/-- The kind with the given number. -/
def ofCode (code : Int) : Region :=
  if h : code < 0 ∨ 5 < code then unnamed code h
  else if code = 0 then inp
  else if code = 1 then wgt
  else if code = 2 then acc
  else if code = 3 then out
  else if code = 4 then uop
  else insn

/-- The name of the kind. -/
def name : Region → String
  | inp => "INP"
  | wgt => "WGT"
  | acc => "ACC"
  | out => "OUT"
  | uop => "UOP"
  | insn => "INSN"
  | unnamed code _ => s!"Type({code})"

/-- The bytes of one transfer unit. -/
def divisor (d : Divisors) : Region → UInt64
  | inp => UInt64.ofInt d.inp
  | wgt => UInt64.ofInt d.wgt
  | acc => UInt64.ofInt d.acc
  | out => UInt64.ofInt d.out
  | uop => UInt64.ofInt d.uop
  | insn => UInt64.ofInt d.insn
  | unnamed _ _ => UInt64.ofInt d.insn

end Region

/-- The addresses of a block, in bytes and in transfer units. -/
structure BlockAddress where
  physical : UInt64
  logical : UInt64
  deriving Repr, DecidableEq, Inhabited

/-- An object in memory. -/
structure Placed where
  name : String
  region : Region
  physical : UInt64
  logical : UInt64
  size : UInt64
  blocks : Array BlockAddress := #[]
  deriving DecidableEq

namespace Placed

/-- The first byte after the object. -/
def stop (o : Placed) : UInt64 := o.physical + o.size

/-- The logical address of block `i`. -/
def block (o : Placed) (i : Int) : Outcome UInt64 :=
  match if i < 0 then none else o.blocks[i.toNat]? with
  | some b => .ok b.logical
  | none => Outcome.diagnose o.name (.unresolvedBlock (.blockOutside i o.blocks.size))

end Placed

/-- The memory: its origin, the transfer units, the first free byte and the
objects so far, latest first. -/
structure Memory where
  origin : UInt64
  divisors : Divisors
  cursor : UInt64
  placed : List Placed := []

namespace Memory

/-- The bytes of a page. -/
def pageSize : UInt64 := 4096

/-- The empty memory whose first object starts at or after `base`. -/
def empty (base origin : UInt64) (divisors : Divisors) : Memory :=
  { origin, divisors, cursor := max base origin }

/-- The bytes of one transfer unit of a kind. -/
def divisor (m : Memory) (r : Region) : UInt64 := r.divisor m.divisors

/-- The objects in the order they were placed. -/
def objects (m : Memory) : List Placed := m.placed.reverse

/-- The first object with the given name. -/
def find? (m : Memory) (name : String) : Option Placed := m.objects.find? (·.name = name)

/-- The least multiple of `unit` from `v` on. -/
def alignUp (v unit : UInt64) : UInt64 := (v + unit - 1) / unit * unit

/-- Whether an address is a whole number of units from the origin; a unit of no
bytes is a fault. -/
def onUnit (m : Memory) (r : Region) (physical : UInt64) : Outcome Bool :=
  if m.divisor r = 0 then .error .fault
  else .ok ((physical - m.origin) % m.divisor r == 0)

/-- The logical address of a physical one, or a diagnosis of `object`. -/
def logical (m : Memory) (object : String) (r : Region) (physical : UInt64) : Outcome UInt64 := do
  let misaligned := Outcome.diagnose object (.addressMisaligned
    (.offUnit physical.toNat (m.divisor r).toNat m.origin.toNat))
  if physical < m.origin then misaligned
  else if ← m.onUnit r physical then return (physical - m.origin) / m.divisor r
  else misaligned

/-- Tries `tries` pages from `physical` on for one that is on a unit. -/
def searchPage (m : Memory) (r : Region) : (tries : Nat) → (physical : UInt64) →
    Outcome (Option UInt64)
  | 0, _ => .ok none
  | tries + 1, physical =>
    match m.onUnit r physical with
    | .ok true => .ok (some physical)
    | .ok false => m.searchPage r tries (physical + pageSize)
    | .error e => .error e

/-- The next page on a unit of the kind. As many pages are tried as a unit
covers. -/
def findPage (m : Memory) (object : String) (r : Region) : Outcome UInt64 := do
  let tries := max 1 (m.divisor r / pageSize)
  match ← m.searchPage r tries.toNat (alignUp m.cursor pageSize) with
  | some page => return page
  | none => Outcome.diagnose object (.addressMisaligned
      (.noPage m.origin.toNat (m.divisor r).toNat))

/-- The memory with an object more. -/
def add (m : Memory) (o : Placed) : Memory := { m with cursor := o.stop, placed := o :: m.placed }

/-- The addresses of consecutive blocks of the given sizes from `physical` on,
and the first byte after them; the first block has number `i`. -/
def blockAddresses (m : Memory) (name : String) (r : Region) (acc : Array BlockAddress) (i : Nat)
    (physical : UInt64) : List Int → Outcome (Array BlockAddress × UInt64)
  | [] => .ok (acc, physical)
  | size :: sizes =>
    match m.logical s!"{name}[{i}]" r physical with
    | .ok logical =>
      m.blockAddresses name r (acc.push ⟨physical, logical⟩) (i + 1)
        (physical + UInt64.ofInt size) sizes
    | .error e => .error e

/-- The object made of blocks of the given sizes in bytes that would come next. -/
def blocked (m : Memory) (name : String) (r : Region) (sizes : List Int) : Outcome Placed := do
  let physical ← m.findPage name r
  let logical ← m.logical name r physical
  let (blocks, stop) ← m.blockAddresses name r #[] 0 physical sizes
  return { name, region := r, physical, logical, size := stop - physical, blocks }

/-- The object of `size` bytes without blocks that would come next. -/
def plain (m : Memory) (name : String) (r : Region) (size : Int) : Outcome Placed := do
  let physical ← m.findPage name r
  let logical ← m.logical name r physical
  return { name, region := r, physical, logical, size := UInt64.ofInt size }

/-- The memory after an answer, beside it: a refusal leaves the memory as it is. -/
def commit (m : Memory) : Outcome Placed → Outcome Placed × Memory
  | .ok o => (.ok o, m.add o)
  | .error e => (.error e, m)

/-- Places an object made of blocks of the given sizes in bytes. -/
def place (m : Memory) (name : String) (r : Region) (sizes : List Int) : Outcome Placed × Memory :=
  m.commit (m.blocked name r sizes)

/-- Places an object of `size` bytes without blocks. -/
def reserve (m : Memory) (name : String) (r : Region) (size : Int) : Outcome Placed × Memory :=
  m.commit (m.plain name r size)

/-- An answer for those who go on only with an object. -/
def granted : Outcome Placed × Memory → Outcome (Placed × Memory)
  | (.ok o, m) => .ok (o, m)
  | (.error e, _) => .error e

/-- One line for each object: name, physical and logical address. -/
def table (m : Memory) : String :=
  String.join (m.objects.map fun o => Text.separatedLine
    [o.name, Text.hexLiteral8 o.physical.toNat, Text.hexLiteral8 o.logical.toNat])

end Memory

end Tessera
