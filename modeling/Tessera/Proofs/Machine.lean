import Mathlib.Algebra.Ring.Int.Defs
import Tessera.Artefact
import Tessera.Proofs.Action

/-!
# The accelerator

A machine that runs code one instruction after the other. Memory holds bytes, and
the scratchpads hold rows, which keep their contents until they are overwritten. A
LOAD copies transfer units and rows of zeros into a scratchpad. GEMM and ALU update
rows of the accumulator; whenever they write a row, its narrowed copy is written to
the same row of the output scratchpad. A STORE copies rows of that one to memory.

* `Machine`, `Machine.State`: what stays the same during a run, and what changes.
* `Machine.exec`: one instruction.
* `Machine.run`: instructions up to FINISH; a stream without FINISH is a fault.
* `Compiled.execute`: the output region after a compiled program has run.
-/

namespace Tessera

/-- Consecutive rows of a scratchpad replaced, from `start` on. -/
def fill {α : Type} (rows : Nat → α) (start : Nat) (new : List α) : Nat → α :=
  fun n => if n < start then rows n else (new[n - start]?).getD (rows n)

/-- Consecutive bytes of memory replaced, from `start` on. -/
def writeBytes (mem : UInt64 → UInt8) (start : UInt64) (bytes : List UInt8) : UInt64 → UInt8 :=
  fun a => (bytes[(a - start).toNat]?).getD (mem a)

/-- The signed number that some bytes stand for, least significant first. -/
def signedOf (bytes : List UInt8) : Int :=
  (ofLittleEndian bytes : Int).bmod (twoTo (8 * bytes.length))

/-- An accelerator with its memory's origin and the table of micro-operations, which
stands at `base`. -/
structure Machine where
  inp : Scalar
  wgt : Scalar
  acc : Scalar
  out : Scalar
  b : Nat
  divisors : Divisors
  origin : UInt64
  /-- Whether copies are clipped. -/
  clip : Bool
  table : List MicroOp
  base : UInt64

namespace Machine

/-- The contents of the memory and of the scratchpads. -/
structure State where
  mem : UInt64 → UInt8
  uop : Nat → MicroOp
  inp : Nat → Row
  wgt : Nat → Row
  acc : Nat → Row
  out : Nat → Row

/-- The state before a run: zeros, apart from the memory. -/
def boot (m : Machine) (mem : UInt64 → UInt8) : State where
  mem
  uop _ := {}
  inp _ := List.replicate m.b 0
  wgt _ := List.replicate (m.b * m.b) 0
  acc _ := List.replicate m.b 0
  out _ := List.replicate m.b 0

/-- The address of a transfer unit of `size` bytes. -/
def address (m : Machine) (size : Int) (unit : UInt64) : UInt64 := m.origin + unit * UInt64.ofInt size

/-- The `n` numbers of a type from an address on. -/
def numbers (mem : UInt64 → UInt8) (s : Scalar) (n : Nat) (start : UInt64) : Outcome Row := do
  let width := (← s.bytes).toNat
  return (List.range n).map fun e =>
    signedOf ((List.range width).map fun k => mem (start + UInt64.ofNat (e * width + k)))

/-- The transfer unit in row `y` and column `x` of a transfer. -/
def unitAt (i : Instruction) (y x : Nat) : UInt64 :=
  i.dramBase.toUInt64 + UInt64.ofNat y * i.xStride.toUInt64 + UInt64.ofNat x

/-- The units a LOAD brings in, row by row, and where it fills in zeros. -/
def loadUnits (i : Instruction) : List (Option UInt64) :=
  let top := i.yPadTop.toNat
  let left := i.xPadLeft.toNat
  let height := i.ySize.toNat
  let width := i.xSize.toNat
  (List.range (top + height + i.yPadBottom.toNat)).flatMap fun y =>
    (List.range (left + width + i.xPadRight.toNat)).map fun x =>
      if top ≤ y ∧ y < top + height ∧ left ≤ x ∧ x < left + width then
        some (unitAt i (y - top) (x - left))
      else none

/-- The rows a LOAD brings in, of `n` numbers each. -/
def loadRows (m : Machine) (mem : UInt64 → UInt8) (t : Scalar) (n : Nat) (size : Int)
    (i : Instruction) : Outcome (List Row) :=
  (loadUnits i).mapM fun
    | some unit => numbers mem t n (m.address size unit)
    | none => pure (List.replicate n 0)

/-- The micro-operations a LOAD brings in. -/
def loadTable (m : Machine) (i : Instruction) : Outcome (List MicroOp) :=
  (List.range i.xSize.toNat).mapM fun x =>
    Outcome.ofOption m.table[(i.dramBase.toUInt64 - m.base).toNat + x]?

/-- The state after a LOAD. -/
def load (m : Machine) (s : State) (i : Instruction) : Outcome State := do
  let start := i.sramBase.toNat
  match i.buffer with
  | .uop => return { s with uop := fill s.uop start (← m.loadTable i) }
  | .inp =>
    return { s with inp := fill s.inp start (← m.loadRows s.mem m.inp m.b m.divisors.inp i) }
  | .wgt =>
    return { s with
      wgt := fill s.wgt start (← m.loadRows s.mem m.wgt (m.b * m.b) m.divisors.wgt i) }
  | .acc =>
    return { s with acc := fill s.acc start (← m.loadRows s.mem m.acc m.b m.divisors.acc i) }
  | _ => return { s with out := fill s.out start (← m.loadRows s.mem m.out m.b m.divisors.out i) }

/-- The rows and the weight block of each iteration of GEMM or ALU. -/
def iterations (i : Instruction) (uop : Nat → MicroOp) : List MicroOp :=
  (List.range (i.uopEnd.toNat - i.uopBegin.toNat)).flatMap fun n =>
    let u := uop (i.uopBegin.toNat + n)
    (List.range i.loopOut.toNat).flatMap fun o =>
      (List.range i.loopIn.toNat).map fun j =>
        { dst := u.dst + UInt32.ofNat o * i.dstFactorOut + UInt32.ofNat j * i.dstFactorIn
          src := u.src + UInt32.ofNat o * i.srcFactorOut + UInt32.ofNat j * i.srcFactorIn
          wgt := u.wgt + UInt32.ofNat o * i.wgtFactorOut + UInt32.ofNat j * i.wgtFactorIn }

/-- Writes a row of the accumulator and its copy. -/
def setRow (m : Machine) (s : State) (n : Nat) (row : Row) : Outcome State := do
  let copy ← row.mapM fun v => m.out.narrow v m.clip
  return { s with acc := Function.update s.acc n row, out := Function.update s.out n copy }

/-- The row GEMM writes: the product of a row of input and a weight block, which
stands column by column, is added to the row of the accumulator. -/
def gemmRow (m : Machine) (s : State) (i : Instruction) (u : MicroOp) : Outcome Row :=
  if i.reset then pure (List.replicate m.b 0)
  else (List.range m.b).mapM fun n => m.acc.wrap ((s.acc u.dst.toNat).getD n 0 +
    ((List.range m.b).map fun k =>
      (s.inp u.src.toNat).getD k 0 * (s.wgt u.wgt.toNat).getD (n * m.b + k) 0).sum)

/-- The row ALU writes. -/
def aluRow (m : Machine) (s : State) (i : Instruction) (u : MicroOp) : Outcome Row :=
  if i.useImm then aluImmediate i.aluOp (s.acc u.dst.toNat) i.imm.toInt m.acc
  else aluVector i.aluOp (s.acc u.dst.toNat) (s.acc u.src.toNat) m.acc

/-- The state after all iterations of GEMM or ALU; `row` is what one writes. -/
def sweepRows (m : Machine) (row : State → Instruction → MicroOp → Outcome Row) (s : State)
    (i : Instruction) : Outcome State :=
  (iterations i s.uop).foldlM (fun s u => do m.setRow s u.dst.toNat (← row s i u)) s

/-- The state after a STORE. -/
def store (m : Machine) (s : State) (i : Instruction) : State :=
  let units := (List.range i.ySize.toNat).flatMap fun y =>
    (List.range i.xSize.toNat).map fun x => unitAt i y x
  { s with mem := units.zipIdx.foldl (fun mem (unit, n) =>
      writeBytes mem (m.address m.divisors.out unit)
        ((s.out (i.sramBase.toNat + n)).flatMap m.out.bytesOf)) s.mem }

/-- The state after an instruction. -/
def exec (m : Machine) (s : State) (i : Instruction) : Outcome State :=
  match i.opcode with
  | .load => m.load s i
  | .store => .ok (m.store s i)
  | .gemm => m.sweepRows m.gemmRow s i
  | .alu => m.sweepRows m.aluRow s i
  | .finish => .ok s
  | .unassigned _ _ => .ok s

/-- The state when FINISH is reached. -/
def run (m : Machine) : List Instruction → State → Outcome State
  | [], _ => .error .fault
  | i :: is, s => if i.opcode = .finish then .ok s else do m.run is (← m.exec s i)

/-- A stream that ends with its only FINISH runs all its instructions. -/
theorem run_finish (m : Machine) {is : List Instruction} (h : ∀ i ∈ is, i.opcode ≠ .finish)
    {last : Instruction} (hlast : last.opcode = .finish) (s : State) :
    m.run (is ++ [last]) s = is.foldlM m.exec s := by
  induction is generalizing s with
  | nil => simp [run, hlast]; rfl
  | cons i is ih =>
    rw [List.cons_append, run, if_neg (h i List.mem_cons_self), List.foldlM_cons]
    congr 1
    funext s'
    exact ih (fun j hj => h j (List.mem_cons_of_mem _ hj)) s'

end Machine

namespace Compiled

/-- The memory before a run: the tensors at their addresses, zeros elsewhere. -/
def image (r : Compiled) : Outcome (UInt64 → UInt8) :=
  [(r.data.a, r.layout.inp), (r.data.w, r.layout.wgt), (some r.data.x, r.layout.acc),
    (r.data.y, r.layout.accBis)].foldlM (fun mem (t, o) =>
      match t with
      | none => pure mem
      | some t => do
        return writeBytes mem (← Outcome.ofOption o).physical (← t.bytes)) fun _ => 0

/-- The machine a compiled program runs on. -/
def machine (r : Compiled) (c : Config) : Outcome Machine := do
  let table ← Outcome.ofOption (r.memory.find? "UOP")
  return {
    inp := c.inp, wgt := c.wgt, acc := c.acc, out := c.out, b := (← c.block).toNat
    divisors := ← c.divisors, origin := r.program.dramOffset, clip := r.program.clip
    table := r.code.microOps, base := table.logical }

/-- The output region after the program has run. -/
def execute (r : Compiled) (c : Config) : Outcome (List UInt8) := do
  let m ← r.machine c
  let s ← m.run r.code.instructions (m.boot (← r.image))
  let out ← Outcome.ofOption r.layout.out
  return (List.range out.size.toNat).map fun n => s.mem (out.physical + UInt64.ofNat n)

end Compiled

end Tessera
