import Tessera.Proofs.Execution
import Tessera.Proofs.Sweeping

/-!
# An operation that is repeated

An operation may name one vector any number of times, and each time takes a micro-operation of
its own. This module compiles such a program, whatever the number.
-/

namespace Tessera

/-- A step of a fold that changes nothing may be repeated. -/
theorem foldlM_replicate {σ α : Type} {f : σ → α → Outcome σ} {s : σ} {x : α} (h : f s x = .ok s)
    (n : Nat) : (List.replicate n x).foldlM f s = .ok s := by
  induction n with
  | zero => rfl
  | succ n ih => exact foldlM_cons_eq_ok.2 ⟨s, h, ih⟩

/-- Rows of one number, and a scratchpad for `2 ^ 16` micro-operations. -/
def Config.longTable : Config := ⟨3, 3, 5, 0, 15, 18, 17, 18⟩

/-- The maximum of the number 5 with 0, taken `n` times. -/
def Program.repeated (n : Nat) : Program where
  name := "repeated"
  matrices := [⟨"ACCUMULATOR", 1, 1, some ⟨1, 1, #[5]⟩⟩]
  alu := [.immediate .max 0 (List.replicate n 0)]

namespace Repeated

/-- What the scratchpads hold. -/
def caps : Capacities := ⟨2048, 1024, 2048, 2048, 65536⟩

/-- The bytes of the transfer units. -/
def divisors : Divisors := ⟨1, 1, 4, 1, 4, 16⟩

theorem longTable_sized : Config.longTable.validate = .ok () ∧ Config.longTable.block = .ok 1 ∧
    Config.longTable.schedulingCapacities = .ok caps ∧ Config.longTable.divisors = .ok divisors := by
  decide +kernel

/-- The number as an accumulator. -/
def accumulator : Tensor where
  role := .acc
  name := "ACCUMULATOR"
  rows := 1
  cols := 1
  scalar := ⟨5⟩
  b := 1
  blockRows := 1
  blockCols := 1
  blocks := #[⟨1, #[5]⟩]
  padded := ⟨1, 1, #[5]⟩

/-- The operation with its sites. -/
def operation (n : Nat) : Resolved :=
  ⟨0, "MAX_IMM", .max, true, 0, List.replicate n ⟨0, noSource⟩⟩

/-- The shaped program. -/
def shaped (n : Nat) : Shaped where
  form := .alu
  b := 1
  scalar := 0
  a := none
  w := none
  x := accumulator
  y := none
  ops := [operation n]
  acc := ⟨1, 1, #[5]⟩
  final := ⟨1, 1, #[5]⟩
  storeMask := [0]
  c := { accumulator with role := .out, name := "OUTPUT", scalar := ⟨3⟩ }
  vectorStore := false

theorem resolve_repeated (n : Nat) :
    resolve (Program.repeated (n + 1)).alu 1 = .ok [operation (n + 1)] := by
  have hcheck : ∀ object n, checkVectors object 1 (List.replicate n 0) = .ok () := by
    intro object n
    induction n with
    | zero => rfl
    | succ n ih => exact ih
  have hsites : plainSites (List.replicate (n + 1) 0) = List.replicate (n + 1) ⟨0, noSource⟩ :=
    List.map_replicate
  have hentry : (AluEntry.immediate .max 0 (List.replicate (n + 1) 0)).resolve 1 0 =
      .ok (operation (n + 1)) := by
    unfold AluEntry.resolve
    refine Outcome.bind_ok (hcheck _ (n + 1)) ?_
    rw [hsites]
    rfl
  exact Outcome.bind_ok hentry rfl

theorem runOps_repeated (n : Nat) :
    runOps ⟨1, 1, #[5]⟩ [operation n] ⟨5⟩ = .ok ⟨1, 1, #[5]⟩ := by
  have hsite : runSite 1 ⟨5⟩ (operation n) #[5] ⟨0, noSource⟩ = .ok #[5] := by
    show runSite 1 ⟨5⟩ (operation 0) #[5] ⟨0, noSource⟩ = .ok #[5]
    rfl
  have hop : runOp 1 ⟨5⟩ #[5] (operation n) = .ok #[5] :=
    Outcome.within_eq_ok.2 (foldlM_replicate hsite n)
  exact Outcome.bind_ok (foldlM_cons_eq_ok.2 ⟨_, hop, rfl⟩) rfl

/-- The vector is written last, and never read. -/
theorem lastUses_replicate (n : Nat) :
    lastUses 1 (List.replicate n ⟨0, noSource⟩) = (#[n], #[0]) := by
  have hfold : ∀ t, (List.replicate n (⟨0, noSource⟩ : Site)).foldl
      (fun (q : Array Nat × Array Nat × Nat) s =>
        (q.1.setIfInBounds s.dst.toNat (q.2.2 + 1),
          if s.src ≠ noSource ∧ s.src < ((1 : Nat) : Int) then
            q.2.1.setIfInBounds s.src.toNat (q.2.2 + 1) else q.2.1, q.2.2 + 1))
      (#[t], #[0], t) = (#[t + n], #[0], t + n) := by
    induction n with
    | zero => intro t; rfl
    | succ n ih =>
      intro t
      rw [List.replicate_succ, List.foldl_cons]
      refine (ih (t + 1)).trans ?_
      rw [show t + 1 + n = t + (n + 1) by omega]
  have := hfold 0
  rw [Nat.zero_add] at this
  exact congrArg (fun q : Array Nat × Array Nat × Nat => (q.1, q.2.1)) this

theorem resultVectors_repeated (n : Nat) : resultVectors .alu 1 [operation (n + 1)] = [0] := by
  unfold resultVectors
  rw [List.flatMap_singleton, show (operation (n + 1)).sites = List.replicate (n + 1) ⟨0, noSource⟩
    from rfl, show (1 : Int).toNat = 1 from rfl, lastUses_replicate]
  rfl

/-- **The repeated operation is shaped.** -/
theorem build_repeated (n : Nat) :
    Shaped.build (.repeated (n + 1)) .longTable = .ok (shaped (n + 1)) := by
  have hvalid : (Program.repeated (n + 1)).validate = .ok () := by
    show (Program.repeated 1).validate = .ok ()
    rfl
  have hroles : (Program.repeated (n + 1)).roles = .ok { accumulator := "ACCUMULATOR" } := by
    show (Program.repeated 1).roles = .ok { accumulator := "ACCUMULATOR" }
    rfl
  have htensor : Tensor.ofMatrix .acc "ACCUMULATOR" ⟨1, 1, #[5]⟩ ⟨5⟩ 1 true = .ok accumulator :=
    rfl
  have houtput : Shaped.outputTensor .longTable 1 false accumulator ⟨1, 1, #[5]⟩ =
      .ok (shaped (n + 1)).c := by
    show _ = Except.ok (shaped 0).c
    decide +kernel
  have hstack : stack accumulator.blocks.toList 1 = .ok ⟨1, 1, #[5]⟩ :=
    rfl
  obtain ⟨hconfig, hblock, -⟩ := longTable_sized
  have hvalues : Shaped.materialise (.repeated (n + 1)) .longTable { accumulator := "ACCUMULATOR" } =
      .ok [("ACCUMULATOR", ⟨1, 1, #[5]⟩)] := rfl
  have hplain : Shaped.plainOperands (.repeated (n + 1)) .longTable 1 { accumulator := "ACCUMULATOR" }
      [("ACCUMULATOR", ⟨1, 1, #[5]⟩)] = .ok { form := .alu, x := accumulator, acc := ⟨1, 1, #[5]⟩ } := by
    refine Outcome.bind_ok htensor ?_
    rw [if_pos rfl]
    exact Outcome.bind_ok hstack rfl
  unfold Shaped.build
  refine Outcome.bind_ok hconfig (Outcome.bind_ok hvalid (Outcome.bind_ok hroles
    (Outcome.bind_ok hblock (Outcome.bind_ok hvalues (Outcome.bind_ok hplain ?_)))))
  have hvectors : wrap64 (accumulator.size * 1) = 1 := wrap64_small (by decide) (by decide)
  simp only [hvectors]
  refine Outcome.bind_ok (resolve_repeated n) (Outcome.bind_ok (runOps_repeated (n + 1))
    (Outcome.bind_ok houtput ?_))
  rw [resultVectors_repeated]
  rfl

/-- The only step. -/
def step (n : Nat) : Step where
  loadX := [0]
  sramResident := [0]
  dramState := [0]
  store := [0]
  ops := [.alu (operation n) (operation n).sites]

/-- The schedule. -/
def schedule (n : Nat) : Schedule where
  path := .aluFit
  strategy := .output
  overflow := false
  b := 1
  nX := 1
  caps
  steps := [step n]

/-- What the schedule is made of. -/
def planner (n : Nat) : Planner where
  data := shaped n
  counts := (shaped n).counts
  caps
  strategy := .output
  inclusiveFit := false
  results := .ofList (shaped n).storeBlocks

theorem aluOn_repeated (n : Nat) :
    (planner (n + 1)).aluOn [0] = [.alu (operation (n + 1)) (operation (n + 1)).sites] := by
  have hsites : Planner.sitesIn (planner (n + 1)).data.b (.ofList [(0 : Int)])
      (operation (n + 1)).sites = (operation (n + 1)).sites := by
    unfold Planner.sitesIn
    rw [List.filter_eq_self]
    intro s hs
    obtain rfl := List.eq_of_mem_replicate hs
    have hheld : (Std.TreeSet.ofList [(0 : Int)]).contains (Int.tdiv 0 1) = true := rfl
    exact Bool.and_eq_true_iff.2 ⟨hheld, rfl⟩
  unfold Planner.aluOn
  rw [show (planner (n + 1)).data.ops = [operation (n + 1)] from rfl, List.filterMap_cons_some
    (b := .alu (operation (n + 1)) (operation (n + 1)).sites) (by rw [hsites]; rfl), List.filterMap_nil]

theorem plan_repeated (n : Nat) : plan (shaped (n + 1)) caps {} = .ok (schedule (n + 1)) := by
  have hall : consecutive 0 (planner (n + 1)).counts.nX = [0] := by
    show consecutive 0 (shaped 0).counts.nX = [0]
    rfl
  have hstore : (planner (n + 1)).storable [0] = [0] := by
    show (planner 0).storable [0] = [0]
    rfl
  have hfits : (planner (n + 1)).fits (planner (n + 1)).counts.nX (planner (n + 1)).caps.acc = true := by
    show (planner 0).fits (planner 0).counts.nX (planner 0).caps.acc = true
    rfl
  have hstep : (planner (n + 1)).aluFit = [{ step (n + 1) with dramState := [] }] := by
    unfold Planner.aluFit
    simp only [hall, aluOn_repeated, hstore]
    rfl
  have hsteps : (planner (n + 1)).steps = .ok (.aluFit, false, (planner (n + 1)).aluFit) := by
    rw [Planner.steps_operations rfl, if_pos hfits]
    exact ⟨rfl, rfl, rfl⟩
  rw [hstep] at hsteps
  exact Outcome.bind_ok (a := Strategy.output) rfl (Outcome.bind_ok hsteps rfl)

/-- The step with the sets of what is resident. -/
def check (n : Nat) : StepCheck where
  object := "step[0]"
  b := 1
  nX := 1
  caps
  step := step n
  inp := {}
  wgt := {}
  acc := .ofList [(0 : Int)]

theorem validate_repeated (n : Nat) : (schedule n).validate = .ok () := by
  have hheld : (check n).siteHeld ⟨0, noSource⟩ = .ok true := by
    show (check 0).siteHeld ⟨0, noSource⟩ = .ok true
    rfl
  have hsites : ∀ m, (check n).sites (operation n) (List.replicate m ⟨0, noSource⟩) = .ok () := by
    intro m
    induction m with
    | zero => rfl
    | succ m ih => exact Outcome.bind_ok hheld ih
  have hcapacities : (check n).capacities = .ok () := by
    show (check 0).capacities = .ok ()
    rfl
  have hdistinct : (check n).distinct = .ok () := by
    show (check 0).distinct = .ok ()
    rfl
  have hloaded : (check n).loaded "accumulator block" (check n).acc 0 [0] = .ok () := by
    show (check 0).loaded "accumulator block" (check 0).acc 0 [0] = .ok ()
    rfl
  have hstores : (check n).stores [0] = .ok () := by
    show (check 0).stores [0] = .ok ()
    rfl
  refine Outcome.bind_ok (a := ()) ?_ rfl
  refine Outcome.bind_ok hcapacities (Outcome.bind_ok hdistinct (Outcome.bind_ok rfl
    (Outcome.bind_ok rfl (Outcome.bind_ok hloaded (Outcome.bind_ok rfl ?_)))))
  exact Outcome.bind_ok (Outcome.bind_ok (hsites n) rfl) (Outcome.bind_ok hstores rfl)

/-- Where the accumulator stands. -/
def acc : Placed := ⟨"ACC", .acc, 0, 0, 4, #[⟨0, 0⟩]⟩

/-- Where the output stands. -/
def out : Placed := ⟨"OUT", .out, 4096, 4096, 1, #[⟨4096, 4096⟩]⟩

/-- The layout of the data. -/
def layout : Layout where
  acc := some acc
  out := some out

/-- The memory that holds the data. -/
def memory : Memory := ⟨0, divisors, 4097, [out, acc]⟩

theorem allocate_repeated (n : Nat) :
    Layout.allocate (.empty 0 0 divisors) (shaped n) (schedule n) = .ok (layout, memory) := by
  have hacc : Layout.placeTensor (.empty 0 0 divisors) "ACC" .acc (some accumulator) =
      .ok (some acc, ⟨0, divisors, 4, [acc]⟩) := rfl
  have hpage : Memory.findPage ⟨0, divisors, 4, [acc]⟩ "OUT" .out = .ok 4096 := rfl
  have hlogical : Memory.logical ⟨0, divisors, 4, [acc]⟩ "OUT" .out 4096 = .ok 4096 :=
    rfl
  have hsizes : (shaped n).c.blockSizes = .ok [1] := by
    show (shaped 0).c.blockSizes = .ok [1]
    decide +kernel
  have hblocks : Memory.blockAddresses ⟨0, divisors, 4, [acc]⟩ "OUT" .out #[] 0 4096 [1] =
      .ok (out.blocks, 4097) := rfl
  have hplace : Memory.place ⟨0, divisors, 4, [acc]⟩ "OUT" .out [1] = (.ok out, memory) :=
    Memory.commit_eq_ok.2 ⟨Outcome.bind_ok hpage (Outcome.bind_ok hlogical
      (Outcome.bind_ok hblocks rfl)), rfl⟩
  have hout : Layout.placeOutput ⟨0, divisors, 4, [acc]⟩ (shaped n) (schedule n) =
      .ok (some out, memory) :=
    Outcome.bind_ok hsizes (Outcome.bind_ok (Memory.granted_eq_ok.2 hplace) rfl)
  exact Outcome.bind_ok rfl (Outcome.bind_ok rfl (Outcome.bind_ok hacc (Outcome.bind_ok rfl
    (Outcome.bind_ok hout rfl))))

/-- What the lowering knows. -/
def env (n : Nat) : Lowering where
  schedule := schedule n
  data := shaped n
  layout
  acc
  out

/-- The instruction of the operation. -/
def alu (n : Nat) : Instruction :=
  { opcode := .alu, uopEnd := UInt32.ofNat n, loopOut := 1, loopIn := 1, dstFactorIn := 1
    aluOp := .max, useImm := true }

theorem operation_code {n : Nat} (hn : n < 65536) (start : Nat) :
    ((env (n + 1)).stepOf 0 (step (n + 1))).operation start
      (.alu (operation (n + 1)) (operation (n + 1)).sites) = .ok
        { instructions := [.load .uop 0 (UInt32.ofNat start) 1 (UInt32.ofNat (n + 1))
            (UInt32.ofNat (n + 1)), alu (n + 1)], microOps := List.replicate (n + 1) {} } := by
  have hrow : ((env (n + 1)).stepOf 0 (step (n + 1))).siteRows (operation (n + 1)) ⟨0, noSource⟩ =
      .ok ⟨0, 0⟩ := by
    show ((env 0).stepOf 0 (step 0)).siteRows (operation 0) ⟨0, noSource⟩ = .ok ⟨0, 0⟩
    rfl
  have hrows : (operation (n + 1)).sites.mapM
      (((env (n + 1)).stepOf 0 (step (n + 1))).siteRows (operation (n + 1))) =
        .ok (List.replicate (n + 1) ⟨0, 0⟩) := by
    rw [mapM_of_forall (g := fun _ => (⟨0, 0⟩ : RowPair)) fun s hs => ?_]
    · exact congrArg Except.ok List.map_replicate
    · obtain rfl := List.eq_of_mem_replicate hs
      exact hrow
  refine Outcome.bind_ok hrows ?_
  have hroom : (List.replicate (n + 1) ({} : MicroOp)).length ≤ (max (65536 : Int) 1).toNat := by
    rw [List.length_replicate]
    omega
  have hcode := batch_one start { alu 0 with uopEnd := 0 } (by simp) hroom
  rw [List.length_replicate] at hcode
  simp only [show (!(operation (n + 1)).useImm) = false from rfl, sweep_replicate]
  exact congrArg Except.ok hcode

/-- The code of the compute stage. -/
theorem computes_code {n : Nat} (hn : n < 65536) (start : Nat) :
    ((env (n + 1)).stepOf 0 (step (n + 1))).computes start = .ok
      { instructions := [.load .acc 0 0 1 1 1, .load .uop 0 (UInt32.ofNat start) 1
          (UInt32.ofNat (n + 1)) (UInt32.ofNat (n + 1)), alu (n + 1)]
        microOps := List.replicate (n + 1) {} } := by
  have hacc : ((env (n + 1)).stepOf 0 (step (n + 1))).accLoads = .ok [.load .acc 0 0 1 1 1] := by
    show ((env 0).stepOf 0 (step 0)).accLoads = .ok [.load .acc 0 0 1 1 1]
    rfl
  have hops : ((env (n + 1)).stepOf 0 (step (n + 1))).operations start (step (n + 1)).aluOps = .ok
      ([{ instructions := [.load .uop 0 (UInt32.ofNat start) 1 (UInt32.ofNat (n + 1))
        (UInt32.ofNat (n + 1)), alu (n + 1)], microOps := List.replicate (n + 1) {} }],
        start + (List.replicate (n + 1) ({} : MicroOp)).length) :=
    foldlM_cons_eq_ok.2 ⟨_, Outcome.bind_ok (operation_code hn start) rfl, rfl⟩
  refine Outcome.bind_ok hacc (Outcome.bind_ok rfl (Outcome.bind_ok rfl (Outcome.bind_ok hops ?_)))
  exact congrArg Except.ok (congrArg (Code.mk _) (List.append_nil _))

/-- The code before its table is placed. -/
def code (n : Nat) : Code where
  instructions := [.load .uop 0 0 1 1 1,
    { opcode := .gemm, flags := { pushPrev := true }, reset := true, uopEnd := 1, loopOut := 1
      loopIn := 1, dstFactorOut := 1, dstFactorIn := 1 },
    { Instruction.nopLoad with flags := { popNext := true, pushNext := true } },
    { Instruction.load .acc 0 0 1 1 1 with flags := { popPrev := true } },
    .load .uop 0 1 1 (UInt32.ofNat n) (UInt32.ofNat n),
    { alu n with flags := { pushPrev := true, pushNext := true } },
    { Instruction.store 0 4096 1 1 1 with flags := { popPrev := true, pushPrev := true } },
    { Instruction.nopCompute with flags := { popNext := true } },
    { Instruction.nopLoad with flags := { popNext := true, pushNext := true } },
    { Instruction.nopCompute with flags := { popPrev := true } }, .finish]
  microOps := {} :: List.replicate n {}

/-- The emission after the prologue. -/
def reset : Emission where
  instructions := ((code 0).instructions.take 2).toArray
  microOps := #[{}]
  tokens := { computeLoad := 1 }

theorem prologue_code (n : Nat) : Emission.prologue {} (env n) = .ok reset := by
  rfl

/-- The emission after the step. -/
def stepped (n : Nat) : Emission where
  instructions := ((code n).instructions.take 8).toArray
  microOps := reset.microOps ++ List.replicate n ({} : MicroOp)
  tokens := { computeLoad := 1 }

theorem lower_repeated {n : Nat} (hn : n < 65536) :
    lower (schedule (n + 1)) (shaped (n + 1)) layout = .ok (code (n + 1)) := by
  have hloads : ((env (n + 1)).stepOf 0 (step (n + 1))).loads = .ok [] := rfl
  have hstores : ((env (n + 1)).stepOf 0 (step (n + 1))).stores = .ok [.store 0 4096 1 1 1] := by
    show ((env 0).stepOf 0 (step 0)).stores = .ok [.store 0 4096 1 1 1]
    rfl
  have hstep : reset.step (env (n + 1)) 0 (step (n + 1)) = .ok (stepped (n + 1)) := by
    refine Outcome.bind_ok hloads (Outcome.bind_ok rfl (Outcome.bind_ok (computes_code hn 1)
      (Outcome.bind_ok rfl (Outcome.bind_ok hstores (Outcome.bind_ok rfl (Outcome.bind_ok rfl ?_))))))
    refine congrArg Except.ok ?_
    unfold stepped
    rw [Emission.mk.injEq]
    refine ⟨?_, ?_, ?_⟩
    · rfl
    · rfl
    · rfl
  have hmicro : (stepped (n + 1)).microOps.toList = (code (n + 1)).microOps := by
    simp [stepped, reset, code]
  refine Outcome.bind_ok (prologue_code (n + 1)) (Outcome.bind_ok (foldlM_cons_eq_ok.2
    ⟨_, hstep, rfl⟩) (Outcome.bind_ok rfl ?_))
  exact congrArg (fun us => Except.ok (Code.mk (code (n + 1)).instructions us)) hmicro

/-- The operation that takes as many micro-operations as there is room for. -/
def longest : Code := code 65536

/-- Where its table stands. -/
def table : Placed := ⟨"UOP", .uop, 8192, 2048, 262148, #[]⟩

/-- Its code once the table is placed. -/
def moved : Code := { longest with instructions := longest.instructions.map (·.rebase 2048) }

/-- The memory that holds the table, too. -/
def tabled : Memory := ⟨0, divisors, 270340, [table, out, acc]⟩

/-- Where its instructions stand. -/
def stream : Placed := ⟨"INSN", .insn, 274432, 17152, 176, #[]⟩

/-- The memory that holds all. -/
def full : Memory := ⟨0, divisors, 274608, [stream, table, out, acc]⟩

theorem place_longest : placeCode memory longest = .ok (moved, full) := by
  have hlen : wrap64 (longest.microOps.length * microOpBytes) = 262148 := by
    unfold longest code
    rw [List.length_cons, List.length_replicate]
    rfl
  have hpage : memory.findPage "UOP" .uop = .ok 8192 := rfl
  have hlogical : memory.logical "UOP" .uop 8192 = .ok 2048 := rfl
  have htable : memory.reserve "UOP" .uop 262148 = (.ok table, tabled) :=
    Memory.commit_eq_ok.2 ⟨Outcome.bind_ok hpage (Outcome.bind_ok hlogical rfl), rfl⟩
  have hpage' : tabled.findPage "INSN" .insn = .ok 274432 := rfl
  have hlogical' : tabled.logical "INSN" .insn 274432 = .ok 17152 := rfl
  have hstream : tabled.reserve "INSN" .insn 176 = (.ok stream, full) :=
    Memory.commit_eq_ok.2 ⟨Outcome.bind_ok hpage' (Outcome.bind_ok hlogical' rfl), rfl⟩
  have hcount : wrap64 (longest.instructions.length * instructionBytes) = 176 :=
    wrap64_small (by decide) (by decide)
  have hreach : ∀ i ∈ longest.instructions, i.outOfReach 2048 = false := by decide
  have haudit : audit moved.instructions = .ok () := rfl
  have hmoved : longest.relocate 2048 = (moved, .ok ()) := by
    unfold Code.relocate
    rw [Code.relocateFrom_eq 0 hreach]
    rfl
  unfold placeCode
  rw [hlen, hcount]
  refine Outcome.bind_ok (Outcome.within_eq_ok.2 (Memory.granted_eq_ok.2 htable)) ?_
  refine Outcome.bind_ok (Outcome.within_eq_ok.2 (Memory.granted_eq_ok.2 hstream)) ?_
  simp only [show table.logical = 2048 from rfl, hmoved]
  exact Outcome.bind_ok rfl (Outcome.bind_ok (Outcome.within_eq_ok.2 haudit) rfl)

/-- What is compiled. -/
def compiled : Compiled where
  program := .repeated 65536
  data := shaped 65536
  schedule := schedule 65536
  layout := layout
  memory := full
  code := moved

/-- **The longest operation is compiled.** -/
theorem compile_longest : compile .longTable {} (.repeated 65536) = .ok compiled := by
  obtain ⟨hconfig, -, hcaps, hdivisors⟩ := longTable_sized
  have hlower : lower (schedule 65536) (shaped 65536) layout = .ok longest :=
    lower_repeated (n := 65535) (by omega)
  rw [compile_eq]
  refine Outcome.bind_ok (Outcome.within_eq_ok.2 hconfig) (Outcome.bind_ok hcaps (Outcome.bind_ok rfl ?_))
  refine Outcome.bind_ok (Outcome.within_eq_ok.2 (build_repeated 65535)) ?_
  refine Outcome.bind_ok (Outcome.within_eq_ok.2 (plan_repeated 65535)) ?_
  refine Outcome.bind_ok (Outcome.within_eq_ok.2 (validate_repeated 65536)) (Outcome.bind_ok hdivisors ?_)
  refine Outcome.bind_ok (Outcome.within_eq_ok.2 (allocate_repeated 65536)) ?_
  exact Outcome.bind_ok (Outcome.within_eq_ok.2 hlower) (Outcome.bind_ok place_longest rfl)

end Repeated

end Tessera
