import Tessera.Proofs.Outcome
import Tessera.Stream.Lower

/-!
# The groups of a step

Lowering appends instructions in groups. All instructions of a group run on one stage; the
first of them carries the flags that admit the group, and the last those that release the
next. This module says what a group consists of and what appending it does.

* `Bare`: the stage of a group (`bare_loads`, `bare_computes`, `bare_stores`), whose
  instructions have no flags of their own.
* `block_rows_eq_ok`, `block_whole_eq_ok`, `blocks_eq_ok`, `vector_eq_ok`, `product_eq_ok`: the
  transfers and the products that a group is made from.
* `accLoads_eq_ok`, `computes_eq_ok`: what the group of the compute stage is made of.
* `withFlags_forall`, `groupOf_head`, `groupOf_last`: what flags change, and where they are.
* `Emission.Extends`: what was appended (`push_extends`, `group_extends`, `steps_extends`).
* `Lowering.Stages`: the whole of a lowering, stage by stage (`lower_stages`).
-/

namespace Tessera

/-- A step of a lowering. -/
def Lowering.stepOf (env : Lowering) (i : Nat) (s : Step) : StepLowering where
  env
  object := s!"step[{i}]"
  step := s
  inp := positions s.inpResident
  wgt := positions s.wgtResident
  sram := positions s.sramResident

section StepOf

variable (env : Lowering) (i : Nat) (s : Step)

@[simp] theorem stepOf_env : (env.stepOf i s).env = env := rfl
@[simp] theorem stepOf_step : (env.stepOf i s).step = s := rfl
@[simp] theorem stepOf_inp : (env.stepOf i s).inp = positions s.inpResident := rfl
@[simp] theorem stepOf_wgt : (env.stepOf i s).wgt = positions s.wgtResident := rfl
@[simp] theorem stepOf_sram : (env.stepOf i s).sram = positions s.sramResident := rfl
@[simp] theorem stepOf_b : (env.stepOf i s).b = env.data.b := rfl

end StepOf

/-- Instructions of one stage, none of which ends the stream. -/
def Staged (s : Stage) (insns : List Instruction) : Prop :=
  ∀ i ∈ insns, i.stage = s ∧ i.opcode ≠ .finish

/-- An instruction of a stage as it is before its group gets flags. -/
structure Instruction.Bare (s : Stage) (i : Instruction) : Prop where
  stage : i.stage = s
  goes_on : i.opcode ≠ .finish
  flags : i.flags = {}

/-- Instructions of one stage before they get flags. -/
def Bare (s : Stage) (insns : List Instruction) : Prop := ∀ i ∈ insns, i.Bare s

theorem Bare.staged {s : Stage} {insns : List Instruction} (h : Bare s insns) : Staged s insns :=
  fun i hi => ⟨(h i hi).stage, (h i hi).goes_on⟩

theorem bare_nopLoad : Instruction.nopLoad.Bare .load := ⟨rfl, by decide, rfl⟩

theorem bare_nopCompute : Instruction.nopCompute.Bare .compute := ⟨rfl, by decide, rfl⟩

theorem bare_nopStore : Instruction.nopStore.Bare .store := ⟨rfl, by decide, rfl⟩

theorem Bare.append {s : Stage} {xs ys : List Instruction} (hx : Bare s xs)
    (hy : Bare s ys) : Bare s (xs ++ ys) := by
  intro i hi
  rcases List.mem_append.1 hi with h | h
  · exact hx i h
  · exact hy i h

theorem bare_moves {s : Stage} {mover : Mover}
    (hm : ∀ a b c d e, (mover a b c d e).Bare s)
    (full slot : Int) (ts : List Transfer) : Bare s (moves mover full slot ts) := by
  unfold moves
  split
  · split
    · intro i hi
      rw [List.mem_singleton.1 hi]
      exact hm _ _ _ _ _
    · intro i hi
      cases hi
  · intro i hi
    obtain ⟨t, -, rfl⟩ := List.mem_map.1 hi
    obtain ⟨hstage, hop, hflags⟩ := hm (UInt32.ofInt t.sram) t.dram 1 (UInt32.ofInt t.size)
      (UInt32.ofInt t.size)
    exact ⟨hstage, hop, hflags⟩

theorem bare_loadMoves {s : Stage} {buffer : Buffer}
    (hs : (Instruction.load buffer 0 0 0 0 0).stage = s) (full slot : Int) (ts : List Transfer) :
    Bare s (moves (.load buffer) full slot ts) := by
  apply bare_moves
  exact fun _ _ _ _ _ => ⟨hs, by simp [Instruction.load], rfl⟩

theorem bare_batch {i : Instruction} (hi : i.Bare .compute)
    (capacity : Int) (start : Nat) (us : List MicroOp) :
    Bare .compute (batch capacity start i us).instructions := by
  intro j hj
  obtain ⟨⟨piece, k⟩, -, hj⟩ := List.mem_flatMap.1 hj
  rcases List.mem_cons.1 hj with rfl | hj
  · exact ⟨rfl, by simp [Instruction.load], rfl⟩
  · rw [List.mem_singleton.1 hj]
    exact ⟨hi.stage, hi.goes_on, hi.flags⟩

namespace StepLowering

variable {k : StepLowering}

section Transfers

variable {what : String} {ids : List Int} {resident : Positions} {offset id : Int}

/-- A block that is moved as one unit. -/
theorem block_whole_eq_ok {o : Placed} {t : Tensor} {tr : Transfer} :
    k.block what resident offset o t false id = .ok tr ↔ ∃ position l dram,
      resident[wrap64 (id + offset)]? = some position ∧ o.block id = .ok l ∧
      k.address l = .ok dram ∧ tr = { index := id, sram := position, dram, size := 1 } := by
  unfold block
  cases resident[wrap64 (id + offset)]? with
  | none => simp [fail]
  | some position =>
    simp only [Outcome.bind_eq_ok, Bool.not_false, if_true, Outcome.pure_eq_ok]
    constructor
    · rintro ⟨l, hl, dram, hdram, rfl⟩
      exact ⟨position, l, dram, rfl, hl, hdram, rfl⟩
    · rintro ⟨_, l, dram, ⟨⟩, hl, hdram, rfl⟩
      exact ⟨l, hl, dram, hdram, rfl⟩

/-- A block that is moved as its rows: those it lacks are filled with zeros, if there are
not too many. -/
theorem block_rows_eq_ok {o : Placed} {t : Tensor} {tr : Transfer} :
    k.block what resident offset o t true id = .ok tr ↔ ∃ position l dram blk,
      resident[wrap64 (id + offset)]? = some position ∧ o.block id = .ok l ∧
      k.address l = .ok dram ∧ entry t.blocks id = .ok blk ∧ k.b - blk.height < padLimit ∧
      tr = { index := id, sram := position * k.b, dram, size := blk.height, pad := k.b - blk.height } := by
  unfold block
  cases resident[wrap64 (id + offset)]? with
  | none => simp [fail]
  | some position =>
    simp only [Outcome.bind_eq_ok, Bool.not_true, Bool.false_eq_true, if_false, fail,
      Outcome.refused_eq_ok, Outcome.pure_eq_ok, Int.not_le]
    constructor
    · rintro ⟨l, hl, dram, hdram, blk, hblk, hpad, rfl⟩
      exact ⟨position, l, dram, blk, rfl, hl, hdram, hblk, hpad, rfl⟩
    · rintro ⟨_, l, dram, blk, ⟨⟩, hl, hdram, hblk, hpad, rfl⟩
      exact ⟨l, hl, dram, hdram, blk, hblk, hpad, rfl⟩

/-- Blocks are moved one by one, out of a tensor that has its place. -/
theorem blocks_eq_ok {o : Option Placed} {t : Option Tensor} {rows : Bool} {ts : List Transfer} :
    k.blocks what ids resident offset o t rows = .ok ts ↔ (ids = [] ∧ ts = []) ∨
      ∃ o' t', o = some o' ∧ t = some t' ∧
        ids.mapM (k.block what resident offset o' t' rows) = .ok ts := by
  unfold blocks
  cases ids with
  | nil =>
    constructor
    · intro h
      exact Or.inl ⟨rfl, (Except.ok.inj h).symm⟩
    · rintro (⟨-, rfl⟩ | ⟨o', t', -, -, h⟩)
      · rfl
      · exact h
  | cons id ids => cases o <;> cases t <;> simp [fail]

/-- A vector is moved as one row of its block. -/
theorem vector_eq_ok {v : Int} {tr : Transfer} : k.vector v = .ok tr ↔ ∃ slot q l r dram,
    k.sram[v]? = some slot ∧ quotient v k.b = .ok q ∧ k.env.acc.block q = .ok l ∧
      remainder v k.b = .ok r ∧ k.address (l + UInt64.ofInt r) = .ok dram ∧
      tr = { index := v, sram := slot, dram, size := 1 } := by
  unfold vector
  cases k.sram[v]? with
  | none => simp [fail]
  | some slot =>
    simp only [Outcome.bind_eq_ok, Outcome.pure_eq_ok]
    constructor
    · rintro ⟨q, hq, l, hl, r, hr, dram, hdram, rfl⟩
      exact ⟨slot, q, l, r, dram, rfl, hq, hl, hr, hdram, rfl⟩
    · rintro ⟨_, q, l, r, dram, ⟨⟩, hq, hl, hr, hdram, rfl⟩
      exact ⟨q, hq, l, hl, r, hr, dram, hdram, rfl⟩

/-- The micro-operation of a product, from the positions of its operands. -/
theorem product_eq_ok {c a w : Int} {u : MicroOp} : k.product (.gemm c a w) = .ok u ↔ ∃ cpos apos wpos,
    k.sram[c]? = some cpos ∧ k.inp[a]? = some apos ∧ k.wgt[w]? = some wpos ∧
      u = { dst := UInt32.ofInt (cpos * k.b), src := UInt32.ofInt (apos * k.b)
            wgt := UInt32.ofNat wpos } := by
  unfold product
  simp only
  constructor
  · intro h
    split at h
    · rename_i cpos apos wpos hc ha hw
      exact ⟨cpos, apos, wpos, hc, ha, hw, (Except.ok.inj h).symm⟩
    · cases h
  · rintro ⟨cpos, apos, wpos, hc, ha, hw, rfl⟩
    simp only [hc, ha, hw]

end Transfers

theorem bare_loads {insns : List Instruction} (h : k.loads = .ok insns) :
    Bare .load insns := by
  obtain ⟨inp, -, h⟩ := Outcome.bind_eq_ok.1 h
  obtain ⟨wgt, -, h⟩ := Outcome.bind_eq_ok.1 h
  obtain rfl := Outcome.pure_eq_ok.1 h
  exact (bare_loadMoves rfl _ _ _).append (bare_loadMoves rfl _ _ _)

theorem bare_operation {n : Nat} {op : StepOp} {c : Code} (h : k.operation n op = .ok c) :
    Bare .compute c.instructions := by
  cases op with
  | gemm c a w => cases h
  | alu r sites =>
    obtain ⟨pairs, -, h⟩ := Outcome.bind_eq_ok.1 h
    obtain rfl := Outcome.pure_eq_ok.1 h
    exact bare_batch ⟨rfl, by simp, rfl⟩ _ _ _

/-- What holds of the code of each operation holds of the code of several. -/
theorem operations_forall {P : Code → Prop} {n : Nat} {ops : List StepOp} {alus : List Code × Nat}
    (hP : ∀ op ∈ ops, ∀ m c, k.operation m op = .ok c → P c) (h : k.operations n ops = .ok alus) :
    ∀ c ∈ alus.1, P c := by
  refine foldlM_invariant (fun _ rest (q : List Code × Nat) => (∀ op ∈ rest, op ∈ ops) ∧
    ∀ c ∈ q.1, P c) (fun done op rest q q' hq hstep => ?_) [] ops _ _ ⟨fun _ h => h, by simp⟩ h |>.2
  obtain ⟨c', hc', hstep⟩ := Outcome.bind_eq_ok.1 hstep
  obtain rfl := Outcome.pure_eq_ok.1 hstep
  refine ⟨fun op' hop' => hq.1 op' (List.mem_cons_of_mem _ hop'), fun c hc => ?_⟩
  rcases List.mem_cons.1 hc with rfl | hc
  · exact hP op (hq.1 op List.mem_cons_self) _ _ hc'
  · exact hq.2 c hc

/-- The loads of the accumulator, by what they load: vectors, each a transfer of one row, or
blocks of as many rows as a block has. -/
theorem accLoads_eq_ok {insns : List Instruction} : k.accLoads = .ok insns ↔
    match k.step.residentGrain with
    | .vector => ∃ ts, k.step.loadX.mapM k.vector = .ok ts ∧ insns = moves (.load .acc) 1 1 ts
    | .block => ∃ ts, k.blocks "ACC" k.step.loadX k.sram 0 k.env.layout.acc (some k.env.data.x)
        true = .ok ts ∧ insns = moves (.load .acc) k.b k.b ts := by
  unfold accLoads
  cases k.step.residentGrain <;>
    simp only [Outcome.bind_eq_ok, Outcome.pure_eq_ok, eq_comm (a := moves _ _ _ _)]

/-- All loads of the accumulators are transfers. -/
theorem accLoads_moves {insns : List Instruction}
    (h : k.accLoads = .ok insns ∨ k.accBisLoads = .ok insns) :
    ∃ full slot ts, insns = moves (.load .acc) full slot ts := by
  rcases h with h | h
  · have h := accLoads_eq_ok.1 h
    split at h <;>
    · obtain ⟨ts, -, rfl⟩ := h
      exact ⟨_, _, _, rfl⟩
  · obtain ⟨ts, -, h⟩ := Outcome.bind_eq_ok.1 h
    exact ⟨_, _, _, (Outcome.pure_eq_ok.1 h).symm⟩

/-- **What the compute stage does in a step**: it loads the accumulators, and runs the products
and then the other operations. -/
theorem computes_eq_ok {n : Nat} {c : Code} : k.computes n = .ok c ↔
    ∃ acc accBis gemms alus, k.accLoads = .ok acc ∧ k.accBisLoads = .ok accBis ∧
      k.products n = .ok gemms ∧
      k.operations (n + gemms.microOps.length) k.step.aluOps = .ok alus ∧
      c = { instructions := ({ instructions := acc ++ accBis } :: gemms :: alus.1.reverse).flatMap
              (·.instructions)
            microOps := ({ instructions := acc ++ accBis } :: gemms :: alus.1.reverse).flatMap
              (·.microOps) } := by
  unfold computes
  simp only [Outcome.bind_eq_ok, Outcome.pure_eq_ok, eq_comm (a := c)]
  constructor
  · rintro ⟨acc, hacc, accBis, hbis, gemms, hgemms, alus, halus, h⟩
    exact ⟨acc, accBis, gemms, alus, hacc, hbis, hgemms, halus, h⟩
  · rintro ⟨acc, accBis, gemms, alus, hacc, hbis, hgemms, halus, h⟩
    exact ⟨acc, hacc, accBis, hbis, gemms, hgemms, alus, halus, h⟩

theorem bare_computes {n : Nat} {c : Code} (h : k.computes n = .ok c) :
    Bare .compute c.instructions := by
  obtain ⟨acc, accBis, gemms, alus, hacc, hbis, hgemms, halus, rfl⟩ := computes_eq_ok.1 h
  intro i hcode
  obtain ⟨part, hpart, hi⟩ := List.mem_flatMap.1 hcode
  rcases List.mem_cons.1 hpart with rfl | hpart
  · obtain ⟨_, _, _, rfl⟩ := accLoads_moves (Or.inl hacc)
    obtain ⟨_, _, _, rfl⟩ := accLoads_moves (Or.inr hbis)
    exact (bare_loadMoves rfl _ _ _).append (bare_loadMoves rfl _ _ _) i hi
  rcases List.mem_cons.1 hpart with rfl | hpart
  · obtain ⟨us, -, hgemms⟩ := Outcome.bind_eq_ok.1 hgemms
    obtain rfl := Outcome.pure_eq_ok.1 hgemms
    exact bare_batch ⟨rfl, by simp, rfl⟩ _ _ _ i hi
  · exact operations_forall (fun _ _ _ _ hc => bare_operation hc) halus part
      (List.mem_reverse.1 hpart) i hi

theorem bare_stores {insns : List Instruction} (h : k.stores = .ok insns) :
    Bare .store insns := by
  unfold stores at h
  split at h
  · split at h
    · cases h
      exact fun i hi => by cases hi
    · intro i hi
      obtain ⟨v, -, hv⟩ := forall₂_right (mapM_eq_ok.1 h) hi
      obtain ⟨row, -, hv⟩ := Outcome.bind_eq_ok.1 hv
      split at hv
      · cases hv
      · obtain ⟨dram, -, hv⟩ := Outcome.bind_eq_ok.1 hv
        obtain rfl := Outcome.pure_eq_ok.1 hv
        exact ⟨rfl, by simp [Instruction.store], rfl⟩
  · obtain ⟨ts, -, h⟩ := Outcome.bind_eq_ok.1 h
    obtain rfl := Outcome.pure_eq_ok.1 h
    apply bare_moves
    exact fun _ _ _ _ _ => ⟨rfl, by simp [Instruction.store], rfl⟩

end StepLowering

/-- Flags that are set already. -/
def Flags.Sets (f g : Flags) : Prop := f.union g = f

theorem Flags.union_sets (f g : Flags) : (f.union g).Sets g := by
  simp [Sets, union]

theorem Flags.Sets.union {f g : Flags} (h : f.Sets g) (k : Flags) : (f.union k).Sets g := by
  have hp := congrArg popPrev h
  have hn := congrArg popNext h
  have hP := congrArg pushPrev h
  have hN := congrArg pushNext h
  simp only [Flags.union] at hp hn hP hN
  simp only [Sets, Flags.union, mk.injEq]
  grind

/-- An instruction with more flags. -/
def Instruction.flagged (f : Flags) (i : Instruction) : Instruction :=
  { i with flags := i.flags.union f }

/-- The flags of a group stand on its first and on its last instruction. -/
theorem withFlags_concat (first last : Flags) (x : Instruction) (xs : List Instruction)
    (i : Instruction) :
    withFlags first last (x :: xs ++ [i]) = x.flagged first :: xs ++ [i.flagged last] := by
  simp only [withFlags, List.cons_append, List.modifyHead_cons]
  rw [← List.cons_append, List.getLast?_concat]
  simp only [List.dropLast_concat]
  rfl

section WithFlags

variable {first last : Flags} {insns : List Instruction}

theorem withFlags_head (h : insns ≠ []) :
    ∃ i rest, withFlags first last insns = i :: rest ∧ i.flags.Sets first := by
  obtain ⟨xs, i, rfl⟩ := List.eq_nil_or_concat insns |>.resolve_left h
  rw [List.concat_eq_append]
  cases xs with
  | nil => exact ⟨_, _, rfl, (Flags.union_sets _ _).union _⟩
  | cons x xs => exact ⟨_, _, withFlags_concat .., Flags.union_sets _ _⟩

theorem withFlags_last (h : insns ≠ []) :
    ∃ init i, withFlags first last insns = init ++ [i] ∧ i.flags.Sets last := by
  obtain ⟨xs, i, rfl⟩ := List.eq_nil_or_concat insns |>.resolve_left h
  rw [List.concat_eq_append]
  cases xs with
  | nil => exact ⟨[], _, rfl, Flags.union_sets _ _⟩
  | cons x xs => exact ⟨_, _, withFlags_concat .., Flags.union_sets _ _⟩

/-- What holds of instructions with any flags holds of those of a group. -/
theorem withFlags_forall {P : Instruction → Prop} (hP : ∀ i f, P i → P (i.flagged f))
    (h : ∀ i ∈ insns, P i) : ∀ i ∈ withFlags first last insns, P i := by
  rcases List.eq_nil_or_concat insns with rfl | ⟨xs, i, rfl⟩
  · exact fun j hj => by cases hj
  rw [List.concat_eq_append] at h ⊢
  have hi := h i (by simp)
  cases xs with
  | nil =>
    intro j hj
    rw [List.mem_singleton.1 hj]
    exact hP _ _ (hP i first hi)
  | cons x xs =>
    intro j hj
    rw [withFlags_concat, List.cons_append] at hj
    rcases List.mem_cons.1 hj with rfl | hj
    · exact hP x first (h x (by simp))
    rcases List.mem_append.1 hj with hj | hj
    · exact h j (by simp [hj])
    · rw [List.mem_singleton.1 hj]
      exact hP i last hi

theorem staged_withFlags {s : Stage} (h : Staged s insns) :
    Staged s (withFlags first last insns) := withFlags_forall (fun _ _ hi => hi) h

end WithFlags

/-- The instructions of a group, for which `nop` stands if there are none. -/
def groupOf (nop : Instruction) (first last : Flags) (insns : List Instruction) :
    List Instruction :=
  withFlags first last (if insns.isEmpty then [nop] else insns)

section GroupOf

variable (nop : Instruction) (first last : Flags) (insns : List Instruction)

theorem group_ne_nil : (if insns.isEmpty then [nop] else insns) ≠ [] := by
  split
  · simp
  · rename_i hne
    exact fun hnil => hne (by rw [hnil]; rfl)

variable {nop insns} in
theorem bare_group {s : Stage} (hnop : nop.Bare s) (h : Bare s insns) :
    Bare s (if insns.isEmpty then [nop] else insns) := by
  split
  · intro i hi
    rw [List.mem_singleton.1 hi]
    exact hnop
  · exact h

theorem groupOf_head :
    ∃ i rest, groupOf nop first last insns = i :: rest ∧ i.flags.Sets first :=
  withFlags_head (group_ne_nil nop insns)

theorem groupOf_last :
    ∃ init i, groupOf nop first last insns = init ++ [i] ∧ i.flags.Sets last :=
  withFlags_last (group_ne_nil nop insns)

end GroupOf

theorem staged_groupOf {s : Stage} {nop : Instruction} {first last : Flags}
    {insns : List Instruction} (hnop : nop.Bare s) (h : Bare s insns) :
    Staged s (groupOf nop first last insns) :=
  staged_withFlags (bare_group hnop h).staged

namespace Emission

variable {e e' : Emission}

/-- What was appended to an emission. -/
structure Extends (e e' : Emission) (insns : List Instruction) (us : List MicroOp) : Prop where
  instructions : e'.instructions.toList = e.instructions.toList ++ insns
  microOps : e'.microOps.toList = e.microOps.toList ++ us

theorem Extends.trans {e'' : Emission} {xs ys : List Instruction} {us vs : List MicroOp}
    (h : Extends e e' xs us) (h' : Extends e' e'' ys vs) : Extends e e'' (xs ++ ys) (us ++ vs) :=
  ⟨by rw [h'.instructions, h.instructions, List.append_assoc],
    by rw [h'.microOps, h.microOps, List.append_assoc]⟩

theorem Extends.size {insns : List Instruction} {us : List MicroOp} (h : Extends e e' insns us) :
    e'.microOps.size = e.microOps.size + us.length := by
  have := congrArg List.length h.microOps
  simpa using this

theorem push_extends {i : Instruction} (h : e.push i = .ok e') : Extends e e' [i] [] := by
  obtain ⟨tokens, -, h⟩ := Outcome.bind_eq_ok.1 h
  obtain rfl := Outcome.pure_eq_ok.1 h
  exact ⟨by simp, by simp⟩

theorem pushes_extends {insns : List Instruction} (h : insns.foldlM push e = .ok e') :
    Extends e e' insns [] := by
  induction insns generalizing e with
  | nil =>
    obtain rfl := Outcome.pure_eq_ok.1 h
    exact ⟨by simp, by simp⟩
  | cons i insns ih =>
    obtain ⟨e1, h1, h⟩ := foldlM_cons_eq_ok.1 h
    exact (push_extends h1).trans (ih h)

/-- **What a group appends.** -/
theorem group_extends {nop : Instruction} {first last : Flags} {c : Code}
    (h : e.group nop first last c = .ok e') :
    Extends e e' (groupOf nop first last c.instructions) c.microOps := by
  have hpush := pushes_extends h
  refine ⟨hpush.instructions, ?_⟩
  rw [hpush.microOps]
  simp

/-- **What a step emits**: a group for each of the three stages, and an instruction that tells
the loads of the next step to begin. -/
theorem step_eq_ok {env : Lowering} {i : Nat} {st : Step} : e.step env i st = .ok e' ↔
    ∃ loads c stores e1 e2 e3, (env.stepOf i st).loads = .ok loads ∧
      e.group .nopLoad { popNext := true } { pushNext := true } { instructions := loads } =
        .ok e1 ∧
      (env.stepOf i st).computes e1.microOps.size = .ok c ∧
      e1.group .nopCompute { popPrev := true } { pushPrev := true, pushNext := true } c = .ok e2 ∧
      (env.stepOf i st).stores = .ok stores ∧
      e2.group .nopStore { popPrev := true } { pushPrev := true } { instructions := stores } =
        .ok e3 ∧
      e3.push { Instruction.nopCompute with flags := { popNext := true } } = .ok e' := by
  constructor
  · intro h
    obtain ⟨loads, hloads, h⟩ := Outcome.bind_eq_ok.1 h
    obtain ⟨e1, h1, h⟩ := Outcome.bind_eq_ok.1 h
    obtain ⟨c, hc, h⟩ := Outcome.bind_eq_ok.1 h
    obtain ⟨e2, h2, h⟩ := Outcome.bind_eq_ok.1 h
    obtain ⟨stores, hstores, h⟩ := Outcome.bind_eq_ok.1 h
    obtain ⟨e3, h3, h⟩ := Outcome.bind_eq_ok.1 h
    exact ⟨loads, c, stores, e1, e2, e3, hloads, h1, hc, h2, hstores, h3, h⟩
  · rintro ⟨loads, c, stores, e1, e2, e3, hloads, h1, hc, h2, hstores, h3, h⟩
    exact Outcome.bind_ok hloads (Outcome.bind_ok h1 (Outcome.bind_ok hc
      (Outcome.bind_ok h2 (Outcome.bind_ok hstores (Outcome.bind_ok h3 h)))))

/-- The instructions that end a stream. -/
def ending : List Instruction :=
  [{ Instruction.nopLoad with flags := { popNext := true, pushNext := true } },
    { Instruction.nopCompute with flags := { popPrev := true } }, Instruction.finish]

/-- The end of a stream leaves no token. -/
theorem epilogue_eq_ok : e.epilogue = .ok e' ↔
    ending.foldlM push e = .ok e' ∧ e'.tokens.isZero = true := by
  refine Outcome.bind_eq_ok.trans ⟨?_, fun ⟨h, hzero⟩ => ⟨e', h, if_pos hzero⟩⟩
  rintro ⟨e1, h1, h⟩
  split at h
  · rename_i hzero
    obtain rfl := Outcome.pure_eq_ok.1 h
    exact ⟨h1, hzero⟩
  · cases h

/-- What a step appends. -/
theorem step_extends {env : Lowering} {i : Nat} {st : Step} (h : e.step env i st = .ok e') :
    ∃ insns us, Extends e e' insns us := by
  obtain ⟨loads, c, stores, e1, e2, e3, -, h1, -, h2, -, h3, h⟩ := step_eq_ok.1 h
  exact ⟨_, _, (((group_extends h1).trans (group_extends h2)).trans (group_extends h3)).trans
    (push_extends h)⟩

/-- What all steps append. -/
theorem steps_extends {env : Lowering} {steps : List (Step × Nat)}
    (h : steps.foldlM (fun (e : Emission) q => e.step env q.2 q.1) e = .ok e') :
    ∃ insns us, Extends e e' insns us := by
  induction steps generalizing e with
  | nil =>
    obtain rfl := Outcome.pure_eq_ok.1 h
    exact ⟨[], [], by simp, by simp⟩
  | cons q steps ih =>
    obtain ⟨e1, h1, h⟩ := foldlM_cons_eq_ok.1 h
    obtain ⟨xs, us, hx⟩ := step_extends h1
    obtain ⟨ys, vs, hy⟩ := ih h
    exact ⟨_, _, hx.trans hy⟩

end Emission

/-- A lowering, stage by stage: `e1` is what clears the accumulator, to which `e2` adds the steps
and `e3` the end of the stream. -/
structure Lowering.Stages (env : Lowering) (e1 e2 e3 : Emission) (code : Code) : Prop where
  clears : Emission.prologue {} env = .ok e1
  steps : env.schedule.steps.zipIdx.foldlM (fun (e : Emission) q => e.step env q.2 q.1) e1 = .ok e2
  ends : Emission.ending.foldlM Emission.push e2 = .ok e3
  zero : e3.tokens.isZero = true
  code_eq : code = { instructions := e3.instructions.toList, microOps := e3.microOps.toList }

/-- **The stages of a lowering**, where the accumulator and the output have objects. -/
theorem lower_stages {s : Schedule} {d : Shaped} {l : Layout} {code : Code}
    (h : lower s d l = .ok code) : ∃ acc out e1 e2 e3, l.acc = some acc ∧ l.out = some out ∧
      Lowering.Stages ⟨s, d, l, acc, out⟩ e1 e2 e3 code := by
  unfold lower at h
  split at h
  · rename_i acc out hacc hout
    obtain ⟨e1, h1, h⟩ := Outcome.bind_eq_ok.1 h
    obtain ⟨e2, h2, h⟩ := Outcome.bind_eq_ok.1 h
    obtain ⟨e3, h3, h⟩ := Outcome.bind_eq_ok.1 h
    obtain ⟨h3, hzero⟩ := Emission.epilogue_eq_ok.1 h3
    exact ⟨acc, out, e1, e2, e3, hacc, hout, h1, h2, h3, hzero, (Outcome.pure_eq_ok.1 h).symm⟩
  · cases h

/-- The stages of a lowering with given objects. -/
theorem Lowering.stages {env : Lowering} (hacc : env.layout.acc = some env.acc)
    (hout : env.layout.out = some env.out) {code : Code}
    (h : lower env.schedule env.data env.layout = .ok code) :
    ∃ e1 e2 e3, env.Stages e1 e2 e3 code := by
  obtain ⟨acc, out, e1, e2, e3, hacc', hout', hstages⟩ := lower_stages h
  obtain rfl := Option.some.inj (hacc.symm.trans hacc')
  obtain rfl := Option.some.inj (hout.symm.trans hout')
  exact ⟨e1, e2, e3, hstages⟩

end Tessera
