import Std.Data.TreeMap
import Tessera.Stream.Layout
import Tessera.Stream.Sweep
import Tessera.Stream.Token
import Tessera.Stream.Transfer

/-!
# From a schedule to code

Every step becomes four groups of instructions: loads of inputs and weights on
the load stage; loads of the accumulator, products and operations on the compute
stage; stores on the store stage; and a closing empty transfer on the compute
stage. The first instruction of a group takes the token that admits it, and the
last gives the tokens that release the next stage. An empty group is an empty
transfer that does both. A product that clears the accumulator comes before the
first step, and FINISH after the last.

* `StepLowering.loads`, `.computes`, `.stores`: the groups of a step.
* `Emission.group`: appends a group with its flags.
* `lower`: the code of a schedule.
-/

namespace Tessera

/-- The first position of each number in a list. -/
abbrev Positions := Std.TreeMap Int Nat

/-- The first position of each of the numbers. -/
def positions (xs : List Int) : Positions :=
  xs.zipIdx.foldl (fun (m : Positions) (x, i) => m.insertIfNew x i) {}

/-- What lowering knows: the schedule, the data and where they stand. -/
structure Lowering where
  schedule : Schedule
  data : Shaped
  layout : Layout
  acc : Placed
  out : Placed

/-- A step with the positions of what is resident; `object` names it in
diagnoses. -/
structure StepLowering where
  env : Lowering
  object : String
  step : Step
  inp : Positions
  wgt : Positions
  sram : Positions

/-- The greatest number of rows that can be filled with zeros, plus one. -/
def padLimit : Int := 16

namespace StepLowering

/-- Fails with a diagnosis of the step. -/
def fail {α : Type} (k : StepLowering) (d : Detail) : Outcome α := Outcome.diagnose k.object d

/-- The side of a block. -/
def b (k : StepLowering) : Int := k.env.data.b

/-- The memory address of an instruction, which has 32 bits. -/
def address (k : StepLowering) (logical : UInt64) : Outcome UInt32 :=
  if 0xffffffff < logical then k.fail (.encodingOverflow (.dramAddress logical.toNat))
  else .ok logical.toUInt32

/-- The transfer of a block, which is resident under its number plus `offset`.
With `rows` it moves as its rows, in a slot of as many rows as a block has, and
the rows it lacks are filled with zeros; otherwise it moves as one unit. -/
def block (k : StepLowering) (what : String) (resident : Positions) (offset : Int) (o : Placed)
    (t : Tensor) (rows : Bool) (id : Int) : Outcome Transfer :=
  match resident[wrap64 (id + offset)]? with
  | none => k.fail (.unresolvedBlock (.blockUnplaced what id))
  | some position => do
    let dram ← k.address (← o.block id)
    if !rows then
      return { index := id, sram := position, dram, size := 1 }
    let height := (← entry t.blocks id).height
    let pad := k.b - height
    if padLimit ≤ pad then
      k.fail (.encodingOverflow (.zeroFill what id height pad))
    return { index := id, sram := position * k.b, dram, size := height, pad }

/-- The transfers of some blocks of a tensor. -/
def blocks (k : StepLowering) (what : String) (ids : List Int) (resident : Positions)
    (offset : Int) (o : Option Placed) (t : Option Tensor) (rows : Bool) :
    Outcome (List Transfer) :=
  if ids.isEmpty then .ok []
  else match o, t with
    | some o, some t => ids.mapM (k.block what resident offset o t rows)
    | _, _ => k.fail (.unresolvedBlock (.operandMissing what ids))

/-- The transfer of a vector into its place in the accumulator. -/
def vector (k : StepLowering) (v : Int) : Outcome Transfer :=
  match k.sram[v]? with
  | none => k.fail (.unresolvedBlock (.vectorUnplaced v))
  | some slot => do
    let logical ← k.env.acc.block (← quotient v k.b)
    let dram ← k.address (logical + UInt64.ofInt (← remainder v k.b))
    return { index := v, sram := slot, dram, size := 1 }

/-- The accumulator row that holds a vector. -/
def row (k : StepLowering) (v : Int) : Outcome Int := do
  let absent := k.fail (.unresolvedBlock (.vectorAbsent v))
  match k.step.residentGrain with
  | .vector =>
    match k.sram[v]? with
    | some i => return i
    | none => absent
  | .block =>
    match k.sram[← quotient v k.b]? with
    | some i => return i * k.b + (← remainder v k.b)
    | none => absent

/-- The loads of inputs and weights. -/
def loads (k : StepLowering) : Outcome (List Instruction) := do
  let s := k.step
  let inp ← k.blocks "INP" s.loadA k.inp 0 k.env.layout.inp k.env.data.a true
  let wgt ← k.blocks "WGT" s.loadB k.wgt 0 k.env.layout.wgt k.env.data.w false
  return moves (.load .inp) k.b k.b inp ++ moves (.load .wgt) 1 1 wgt

/-- The loads of the accumulator. -/
def accLoads (k : StepLowering) : Outcome (List Instruction) :=
  match k.step.residentGrain with
  | .vector => return moves (.load .acc) 1 1 (← k.step.loadX.mapM k.vector)
  | .block => do
    let ts ← k.blocks "ACC" k.step.loadX k.sram 0 k.env.layout.acc (some k.env.data.x) true
    return moves (.load .acc) k.b k.b ts

/-- The loads of the second accumulator. -/
def accBisLoads (k : StepLowering) : Outcome (List Instruction) := do
  let ts ← k.blocks "ACC_BIS" k.step.loadY k.sram k.env.schedule.nX k.env.layout.accBis
    k.env.data.y true
  return moves (.load .acc) k.b k.b ts

/-- The micro-operation of a product. -/
def product (k : StepLowering) (op : StepOp) : Outcome MicroOp :=
  match op with
  | .gemm c a w =>
    match k.sram[c]?, k.inp[a]?, k.wgt[w]? with
    | some c, some a, some w =>
      .ok { dst := UInt32.ofInt (c * k.b), src := UInt32.ofInt (a * k.b), wgt := UInt32.ofNat w }
    | _, _, _ => k.fail (.unresolvedBlock (.operandUnplaced op.text))
  | .alu _ _ => .error .fault

/-- The products of a step, whose micro-operations come after `start` others. -/
def products (k : StepLowering) (start : Nat) : Outcome Code := do
  let microOps ← k.step.gemms.mapM k.product
  return batch k.env.schedule.caps.uop start
    { opcode := .gemm, loopOut := 1, loopIn := UInt32.ofInt k.b, dstFactorIn := 1,
      srcFactorIn := 1 } microOps

/-- The rows of a site; an operation with an immediate reads no second one. -/
def siteRows (k : StepLowering) (r : Resolved) (s : Site) : Outcome RowPair := do
  let dst ← k.row s.dst
  if r.useImm then return { dst }
  return { dst, src := ← k.row s.src }

/-- The code of an operation that is no product; a product here is a fault. -/
def operation (k : StepLowering) (start : Nat) : StepOp → Outcome Code
  | .gemm _ _ _ => .error .fault
  | .alu r sites => do
    let (microOps, loopIn) := sweep (!r.useImm) (← sites.mapM (k.siteRows r))
    return batch k.env.schedule.caps.uop start
      { opcode := .alu, loopOut := 1, loopIn := UInt32.ofNat loopIn, dstFactorIn := 1,
        srcFactorIn := if r.useImm then 0 else 1, aluOp := r.op, useImm := r.useImm,
        imm := Int32.ofInt r.imm } microOps

/-- The code of several operations, latest first, and the number of
micro-operations up to then. -/
def operations (k : StepLowering) (start : Nat) (ops : List StepOp) :
    Outcome (List Code × Nat) :=
  ops.foldlM (fun (done, start) op => do
    let c ← k.operation start op
    return (c :: done, start + c.microOps.length)) ([], start)

/-- The group of the compute stage. -/
def computes (k : StepLowering) (start : Nat) : Outcome Code := do
  let acc ← k.accLoads
  let accBis ← k.accBisLoads
  let gemms ← k.products start
  let (alus, _) ← k.operations (start + gemms.microOps.length) k.step.aluOps
  let parts := { instructions := acc ++ accBis } :: gemms :: alus.reverse
  return { instructions := parts.flatMap (·.instructions), microOps := parts.flatMap (·.microOps) }

/-- The store of a vector, which goes to its place in the order of all stores. -/
def storeVector (k : StepLowering) (recorded : Positions) (v : Int) : Outcome Instruction := do
  let row ← k.row v
  match recorded[v]? with
  | none => k.fail (.unresolvedBlock (.storeUnrecorded v))
  | some i =>
    let dram ← k.address (k.env.out.logical + UInt64.ofNat i)
    return .store (UInt32.ofInt row) dram 1 1 1

/-- The group of the store stage. -/
def stores (k : StepLowering) : Outcome (List Instruction) :=
  match k.step.storeGrain with
  | .vector =>
    if k.step.store.isEmpty then .ok []
    else k.step.store.mapM (k.storeVector (positions k.step.dramState))
  | .block => do
    let ts ← k.blocks "OUT" k.step.store k.sram 0 (some k.env.out) (some k.env.data.c) true
    return moves .store k.b k.b ts

end StepLowering

/-- The instructions with more flags on the first and on the last of them. -/
def withFlags (first last : Flags) (insns : List Instruction) : List Instruction :=
  let add (f : Flags) (i : Instruction) : Instruction := { i with flags := i.flags.union f }
  let insns := insns.modifyHead (add first)
  match insns.getLast? with
  | none => []
  | some i => insns.dropLast ++ [add last i]

/-- The code made so far and the tokens after it. -/
structure Emission where
  instructions : Array Instruction := #[]
  microOps : Array MicroOp := #[]
  tokens : Tokens := {}

namespace Emission

/-- Appends an instruction, if the tokens admit it. -/
def push (e : Emission) (i : Instruction) : Outcome Emission := do
  let tokens ← e.tokens.step e.instructions.size i
  return { e with instructions := e.instructions.push i, tokens }

/-- Appends a group: `nop` stands for an empty one. -/
def group (e : Emission) (nop : Instruction) (first last : Flags) (c : Code) : Outcome Emission :=
  let insns := if c.instructions.isEmpty then [nop] else c.instructions
  (withFlags first last insns).foldlM push { e with microOps := e.microOps ++ c.microOps }

/-- Appends the product that clears the accumulator. -/
def prologue (e : Emission) (env : Lowering) : Outcome Emission := do
  let side := UInt32.ofInt env.data.b
  let reset : Instruction :=
    { opcode := .gemm, reset := true, loopOut := UInt32.ofInt (← env.schedule.resetBlocks)
      loopIn := side, dstFactorOut := side, dstFactorIn := 1 }
  e.group .nopCompute {} { pushPrev := true }
    (batch env.schedule.caps.uop e.microOps.size reset [{}])

/-- Appends step number `i`. -/
def step (e : Emission) (env : Lowering) (i : Nat) (s : Step) : Outcome Emission := do
  let k : StepLowering :=
    { env, object := s!"step[{i}]", step := s, inp := positions s.inpResident
      wgt := positions s.wgtResident, sram := positions s.sramResident }
  let e ← e.group .nopLoad { popNext := true } { pushNext := true }
    { instructions := ← k.loads }
  let e ← e.group .nopCompute { popPrev := true } { pushPrev := true, pushNext := true }
    (← k.computes e.microOps.size)
  let e ← e.group .nopStore { popPrev := true } { pushPrev := true }
    { instructions := ← k.stores }
  e.push { Instruction.nopCompute with flags := { popNext := true } }

/-- Appends what ends the stream; no token may be left after it. -/
def epilogue (e : Emission) : Outcome Emission := do
  let e ← [{ Instruction.nopLoad with flags := { popNext := true, pushNext := true } },
    { Instruction.nopCompute with flags := { popPrev := true } }, Instruction.finish].foldlM push e
  if e.tokens.isZero then return e
  Outcome.diagnose "epilogue" (.semaphoreImbalance (.outstanding e.tokens.text))

end Emission

/-- The code of a schedule, whose data stand in memory as the layout says. -/
def lower (s : Schedule) (d : Shaped) (l : Layout) : Outcome Code :=
  match l.acc, l.out with
  | some acc, some out => do
    let env : Lowering := { schedule := s, data := d, layout := l, acc, out }
    let e ← Emission.prologue {} env
    let e ← s.steps.zipIdx.foldlM (fun (e : Emission) (step, i) => e.step env i step) e
    let e ← e.epilogue
    return { instructions := e.instructions.toList, microOps := e.microOps.toList }
  | _, _ => Outcome.diagnose "layout" (.unresolvedBlock .layoutIncomplete)

end Tessera
