import Tessera.Proofs.Allocation
import Tessera.Proofs.Groups
import Tessera.Proofs.Pipelines

/-!
# The pieces of the table of micro-operations

The table is cut into pieces that fit the scratchpad. Every piece is loaded by one
instruction and run by the one after it, and the pieces follow each other in the table from
its first micro-operation to its last, through the product that clears the accumulator and
the products and operations of all steps.

* `Instruction.Apart`, `Fragment`: an instruction that has nothing to do with the table, and
  the two of a piece.
* `Framed`: a stream whose pieces tile a part of the table.
* `batch_framed`, `computes_framed`, `step_continues`, `lower_framed`: the code of a batch, of a
  group, of a step and of a schedule.
* `Framed.flagged`, `Framed.rebase`: flags, and the place of the table, change nothing.
* `Fragmented`: what this says of each instruction; `compiled_fragmented`: a compiled program.
-/

namespace Tessera

namespace Instruction

/-- Whether the instruction runs micro-operations. -/
def runsMicroOps (i : Instruction) : Bool := i.opcode == .gemm || i.opcode == .alu

/-- Whether the instruction is an empty transfer of the compute stage. -/
def idles (i : Instruction) : Bool := i.opcode == .load && i.buffer == .uop && i.isNop

/-- An instruction that has nothing to do with the table. -/
structure Apart (i : Instruction) : Prop where
  loads : i.loadsMicroOps = false
  runs : i.runsMicroOps = false
  idle : i.idles = true → i.dramBase = 0

end Instruction

/-- An instruction that runs micro-operations brings none in. -/
theorem Instruction.loads_of_runs {i : Instruction} (h : i.runsMicroOps = true) :
    i.loadsMicroOps = false ∧ i.idles = false := by
  unfold runsMicroOps at h
  unfold loadsMicroOps idles
  cases ho : i.opcode <;> simp_all

/-- The two instructions of a piece of `n` micro-operations, which come after `start` others. -/
structure Fragment (capacity start n : Nat) (load run : Instruction) : Prop where
  loads : load.loadsMicroOps = true
  place : load.sramBase = 0
  dram : load.dramBase.toNat = start
  rows : load.ySize = 1
  size : load.xSize.toNat = n
  pos : 1 ≤ n
  room : n ≤ capacity
  runs : run.runsMicroOps = true
  first : run.uopBegin = 0
  last : run.uopEnd = load.xSize

/-- A stream whose pieces are those of the table from `start` to `stop`. -/
inductive Framed (capacity : Nat) : Nat → Nat → List Instruction → Prop
  | nil (n : Nat) : Framed capacity n n []
  | apart {start stop : Nat} {i : Instruction} {is : List Instruction} :
    i.Apart → Framed capacity start stop is → Framed capacity start stop (i :: is)
  | fragment {start stop n : Nat} {load run : Instruction} {is : List Instruction} :
    Fragment capacity start n load run → Framed capacity (start + n) stop is →
      Framed capacity start stop (load :: run :: is)

variable {capacity start stop : Nat} {insns : List Instruction}

theorem Framed.append {stop' : Nat} {insns' : List Instruction} (h : Framed capacity start stop insns)
    (h' : Framed capacity stop stop' insns') : Framed capacity start stop' (insns ++ insns') := by
  induction h with
  | nil => exact h'
  | apart hi _ ih => exact .apart hi (ih h')
  | fragment hf _ ih => exact .fragment hf (ih h')

theorem Framed.of_apart (h : ∀ i ∈ insns, i.Apart) (n : Nat) : Framed capacity n n insns := by
  induction insns with
  | nil => exact .nil n
  | cons i insns ih =>
    rw [List.forall_mem_cons] at h
    exact .apart h.1 (ih h.2)

section Flags

/-- Flags change nothing. -/
theorem Framed.flagged {insns' : List Instruction} (h : Framed capacity start stop insns)
    (hsame : List.Forall₂ (fun i j => ∃ f, j = { i with flags := f }) insns insns') :
    Framed capacity start stop insns' := by
  induction h generalizing insns' with
  | nil =>
    cases hsame
    exact .nil _
  | apart hi _ ih =>
    cases hsame with
    | cons hij hsame =>
      obtain ⟨f, rfl⟩ := hij
      exact .apart ⟨hi.loads, hi.runs, hi.idle⟩ (ih hsame)
  | fragment hf _ ih =>
    cases hsame with
    | cons hload hsame =>
      cases hsame with
      | cons hrun hsame =>
        obtain ⟨f, rfl⟩ := hload
        obtain ⟨g, rfl⟩ := hrun
        exact .fragment ⟨hf.loads, hf.place, hf.dram, hf.rows, hf.size, hf.pos, hf.room, hf.runs,
          hf.first, hf.last⟩ (ih hsame)

theorem withFlags_same (first last : Flags) (insns : List Instruction) :
    List.Forall₂ (fun i j => ∃ f, j = { i with flags := f }) insns (withFlags first last insns) := by
  have hsame : ∀ xs : List Instruction,
      List.Forall₂ (fun i j => ∃ f, j = { i with flags := f }) xs xs := fun xs =>
    List.forall₂_same.2 fun i _ => ⟨i.flags, rfl⟩
  rcases List.eq_nil_or_concat insns with rfl | ⟨xs, i, rfl⟩
  · exact .nil
  rw [List.concat_eq_append]
  cases xs with
  | nil => exact .cons ⟨_, rfl⟩ .nil
  | cons x xs =>
    rw [withFlags_concat]
    exact List.rel_append (.cons ⟨_, rfl⟩ (hsame xs)) (.cons ⟨_, rfl⟩ .nil)

/-- The pieces of a group. -/
theorem groupOf_framed {nop : Instruction} (hnop : nop.Apart) (first last : Flags)
    (h : Framed capacity start stop insns) :
    Framed capacity start stop (groupOf nop first last insns) := by
  unfold groupOf
  refine Framed.flagged ?_ (withFlags_same first last _)
  split
  · rename_i hempty
    rw [List.isEmpty_iff.1 hempty] at h
    cases h
    exact .apart hnop (.nil _)
  · exact h

end Flags

section Rebase

/-- **The place of the table** moves its pieces and nothing else, if no address overflows. -/
theorem Framed.rebase {base : UInt64} (hbase : base.toNat ≤ 18446744069414584320)
    (hreach : ∀ i ∈ insns, i.outOfReach base = false) (h : Framed capacity start stop insns) :
    Framed capacity (base.toNat + start) (base.toNat + stop) (insns.map (·.rebase base)) := by
  have hstays : ∀ i : Instruction, i.loadsMicroOps = false → i.rebase base = i := fun i hi => by
    rw [Instruction.rebase, if_neg (by rw [hi]; decide)]
  induction h with
  | nil => exact .nil _
  | apart hi _ ih =>
    rw [List.forall_mem_cons] at hreach
    rw [List.map_cons, hstays _ hi.loads]
    exact .apart hi (ih hreach.2)
  | @fragment start stop n load run is hf _ ih =>
    simp only [List.forall_mem_cons] at hreach
    obtain ⟨hload, -, hrest⟩ := hreach
    rw [List.map_cons, List.map_cons, hstays run (Instruction.loads_of_runs hf.runs).1]
    -- the address has 32 bits, so it is the sum
    have haddress : (load.tableAddress base).toNat = base.toNat + start := by
      have hlt := load.dramBase.toNat_lt
      rw [Instruction.tableAddress, UInt64.toNat_add, UInt32.toNat_toUInt64, hf.dram]
      rw [hf.dram] at hlt
      omega
    have hbits : base.toNat + start < 4294967296 := by
      unfold Instruction.outOfReach at hload
      rw [hf.loads, Bool.true_and, decide_eq_false_iff_not, UInt64.lt_iff_toNat_lt, haddress,
        show (4294967295 : UInt64).toNat = 4294967295 from rfl] at hload
      omega
    have hrebase : load.rebase base =
        { load with dramBase := (load.tableAddress base).toUInt32 } := by
      rw [Instruction.rebase, if_pos hf.loads]
    have hnext := ih hrest
    rw [← Nat.add_assoc] at hnext
    refine .fragment (n := n) ?_ hnext
    rw [hrebase]
    refine ⟨hf.loads, hf.place, ?_, hf.rows, hf.size, hf.pos, hf.room, hf.runs, hf.first, hf.last⟩
    show (load.tableAddress base).toUInt32.toNat = _
    rw [UInt64.toNat_toUInt32, haddress, Nat.mod_eq_of_lt (by norm_num; omega)]

end Rebase

/-- Code whose pieces come after `start` micro-operations of the table, if that is not too
large. -/
def Code.FramedFrom (capacity start : Nat) (c : Code) : Prop :=
  start + c.microOps.length < 4294967296 →
    Framed capacity start (start + c.microOps.length) c.instructions

section Batch

/-- The instructions of pieces that follow each other, of which all but the last are full. -/
theorem pieces_framed (start : Nat) {i : Instruction} (hi : i.runsMicroOps = true) {size : Nat}
    {pieces : List (List MicroOp)} (hne : ∀ p ∈ pieces, p ≠ []) (hle : ∀ p ∈ pieces, p.length ≤ size)
    (hfull : ∀ p ∈ pieces.dropLast, p.length = size) (k : Nat)
    (hsmall : start + k * size + pieces.flatten.length < 4294967296) :
    Framed size (start + k * size) (start + k * size + pieces.flatten.length)
      ((pieces.zipIdx k).flatMap fun (piece, k) =>
        [Instruction.load .uop 0 (UInt32.ofNat (start + k * size)) 1 (UInt32.ofNat piece.length)
          (UInt32.ofNat piece.length), { i with uopBegin := 0, uopEnd := UInt32.ofNat piece.length }])
    := by
  induction pieces generalizing k with
  | nil => exact .nil _
  | cons p ps ih =>
    simp only [List.forall_mem_cons] at hne hle
    have hp := List.length_pos_of_ne_nil hne.1
    have hlen : (p :: ps).flatten.length = p.length + ps.flatten.length := by simp
    rw [hlen] at hsmall ⊢
    rw [List.zipIdx_cons, List.flatMap_cons]
    refine .fragment (n := p.length) ⟨?_, rfl, ?_, rfl, ?_, hp, hle.1, hi, rfl, rfl⟩ ?_
    · simp [Instruction.loadsMicroOps, Instruction.load, Instruction.isNop]
    · exact toNat_ofNat32 (by omega)
    · exact toNat_ofNat32 (by omega)
    -- a piece that others follow is full
    cases ps with
    | nil => exact .nil _
    | cons q ps =>
      have hpsize : p.length = size := hfull p (by simp)
      have hnext : start + k * size + p.length = start + (k + 1) * size := by
        rw [hpsize, Nat.succ_mul, Nat.add_assoc]
      have hrest := ih hne.2 hle.2 (fun r hr => hfull r (by simp [hr])) (k + 1)
        (by rw [← hnext]; omega)
      rw [← Nat.add_assoc, hnext]
      exact hrest

/-- **The code of a batch.** -/
theorem batch_framed {i : Instruction} (hi : i.runsMicroOps = true) {cap : Int} (hcap : 1 ≤ cap)
    (us : List MicroOp) : (batch cap start i us).FramedFrom cap.toNat start := by
  intro hsmall
  have hsize : (max cap 1).toNat = cap.toNat := by rw [max_eq_left hcap]
  have hpos : 0 < cap.toNat := by omega
  have h := pieces_framed start hi (chunks_ne_nil hpos us) (chunks_length_le hpos us)
    (chunks_full hpos us) 0 (by rw [flatten_chunks, Nat.zero_mul]; exact hsmall)
  rw [flatten_chunks, Nat.zero_mul, Nat.add_zero] at h
  unfold batch
  rw [hsize]
  exact h

end Batch

section Apart

theorem Instruction.Bare.apart {s : Stage} {i : Instruction} (h : i.Bare s) (hs : s ≠ .compute) :
    i.Apart := by
  have hstage := h.stage
  unfold Instruction.stage at hstage
  have hno : i.opcode = .load → i.buffer ≠ .uop := by
    intro ho hb
    rw [ho, hb] at hstage
    exact hs hstage.symm
  have hruns : i.runsMicroOps = false := by
    unfold Instruction.runsMicroOps
    cases ho : i.opcode <;> rw [ho] at hstage <;> first | rfl | exact absurd hstage.symm hs
  refine ⟨?_, hruns, fun hidle => ?_⟩
  · by_contra hl
    simp only [Instruction.loadsMicroOps, Bool.not_eq_false, Bool.and_eq_true, beq_iff_eq] at hl
    exact hno hl.1.1 hl.1.2
  · simp only [Instruction.idles, Bool.and_eq_true, beq_iff_eq] at hidle
    exact absurd hidle.1.2 (hno hidle.1.1)

theorem apart_nopCompute (f : Flags) : { Instruction.nopCompute with flags := f }.Apart :=
  ⟨rfl, rfl, fun _ => rfl⟩

/-- The transfers of accumulators. -/
theorem apart_accMoves (full slot : Int) (ts : List Transfer) :
    ∀ i ∈ moves (.load .acc) full slot ts, i.Apart := by
  have happart : ∀ sram dram y x stride pad : UInt32,
      { Instruction.load .acc sram dram y x stride with xPadRight := pad }.Apart := fun _ _ _ _ _ _ =>
    ⟨by simp [Instruction.loadsMicroOps, Instruction.load], rfl,
      by simp [Instruction.idles, Instruction.load]⟩
  intro i hi
  unfold moves at hi
  split at hi
  · split at hi
    · rw [List.mem_singleton.1 hi]
      exact happart _ _ _ _ _ 0
    · cases hi
  · obtain ⟨t, -, rfl⟩ := List.mem_map.1 hi
    exact happart _ _ _ _ _ _

end Apart

namespace StepLowering

variable {k : StepLowering} {n : Nat}

/-- **The code of an operation.** -/
theorem operation_framed (hcap : 1 ≤ k.env.schedule.caps.uop) {op : StepOp} {c : Code}
    (h : k.operation n op = .ok c) : c.FramedFrom k.env.schedule.caps.uop.toNat n := by
  cases op with
  | gemm c a w => cases h
  | alu r sites =>
    obtain ⟨pairs, -, h⟩ := Outcome.bind_eq_ok.1 h
    obtain rfl := Outcome.pure_eq_ok.1 h
    exact batch_framed rfl hcap _

/-- The code of several operations. -/
theorem operations_framed (hcap : 1 ≤ k.env.schedule.caps.uop) {ops : List StepOp}
    {alus : List Code × Nat} (h : k.operations n ops = .ok alus) :
    Code.FramedFrom k.env.schedule.caps.uop.toNat n
      { instructions := alus.1.reverse.flatMap (·.instructions)
        microOps := alus.1.reverse.flatMap (·.microOps) } := by
  have := foldlM_invariant (fun _ _ (q : List Code × Nat) =>
    q.2 = n + (q.1.reverse.flatMap (·.microOps)).length ∧
      (q.2 < 4294967296 → Framed k.env.schedule.caps.uop.toNat n q.2
        (q.1.reverse.flatMap (·.instructions)))) ?_ [] ops _ _
    ⟨by simp, fun _ => .nil n⟩ h
  -- after each operation: the count is right, and the code so far is framed up to it
  · intro hsmall
    obtain ⟨hcount, hframed⟩ := this
    rw [← hcount] at hsmall ⊢
    exact hframed hsmall
  rintro - op - ⟨done, m⟩ q ⟨hcount, hframed⟩ hstep
  obtain ⟨c, hc, hstep⟩ := Outcome.bind_eq_ok.1 hstep
  obtain rfl := Outcome.pure_eq_ok.1 hstep
  simp only [List.reverse_cons, List.flatMap_append, List.flatMap_cons, List.flatMap_nil,
    List.append_nil, List.length_append] at hcount hframed ⊢
  exact ⟨by omega, fun hsmall =>
    (hframed (by omega)).append (operation_framed hcap hc hsmall)⟩

/-- **The code of the compute stage**: transfers, then products, then operations. -/
theorem computes_framed (hcap : 1 ≤ k.env.schedule.caps.uop) {c : Code}
    (h : k.computes n = .ok c) : c.FramedFrom k.env.schedule.caps.uop.toNat n := by
  obtain ⟨acc, accBis, gemms, alus, hacc, hbis, hgemms, halus, rfl⟩ := computes_eq_ok.1 h
  have hloads : ∀ i ∈ acc ++ accBis, i.Apart := by
    intro i hi
    obtain ⟨_, _, _, rfl⟩ := accLoads_moves (Or.inl hacc)
    obtain ⟨_, _, _, rfl⟩ := accLoads_moves (Or.inr hbis)
    rcases List.mem_append.1 hi with hi | hi <;> exact apart_accMoves _ _ _ i hi
  have hproducts : gemms.FramedFrom k.env.schedule.caps.uop.toNat n := by
    obtain ⟨us, -, hgemms⟩ := Outcome.bind_eq_ok.1 hgemms
    obtain rfl := Outcome.pure_eq_ok.1 hgemms
    exact batch_framed rfl hcap _
  intro hsmall
  simp only [List.flatMap_cons, List.nil_append, List.length_append, ← Nat.add_assoc] at hsmall ⊢
  exact (Framed.of_apart hloads n).append ((hproducts (by omega)).append
    (operations_framed hcap halus hsmall))

end StepLowering

namespace Emission

variable {e e' e'' : Emission} {env : Lowering} {capacity : Nat}

/-- What was appended to an emission: code whose pieces come after those of the emission. -/
def Continues (capacity : Nat) (e e' : Emission) : Prop :=
  ∃ c : Code, Extends e e' c.instructions c.microOps ∧ c.FramedFrom capacity e.microOps.size

theorem Continues.trans (h : Continues capacity e e') (h' : Continues capacity e' e'') :
    Continues capacity e e'' := by
  obtain ⟨c, hc, hframed⟩ := h
  obtain ⟨c', hc', hframed'⟩ := h'
  refine ⟨{ instructions := c.instructions ++ c'.instructions
            microOps := c.microOps ++ c'.microOps }, hc.trans hc', fun hsmall => ?_⟩
  unfold Code.FramedFrom at hframed'
  simp only [hc.size, List.length_append, ← Nat.add_assoc] at hframed' hsmall ⊢
  exact (hframed (by omega)).append (hframed' hsmall)

/-- Instructions that have nothing to do with the table. -/
theorem continues_of_apart {insns : List Instruction} (hinsns : ∀ i ∈ insns, i.Apart)
    (h : insns.foldlM push e = .ok e') : Continues capacity e e' :=
  ⟨{ instructions := insns }, pushes_extends h, fun _ => .of_apart hinsns _⟩

/-- **A group of pieces.** -/
theorem group_continues (capacity : Nat) {nop : Instruction} (hnop : nop.Apart)
    {first last : Flags} {c : Code} (hc : c.FramedFrom capacity e.microOps.size)
    (h : e.group nop first last c = .ok e') :
    Continues capacity e e' :=
  ⟨{ instructions := groupOf nop first last c.instructions, microOps := c.microOps }, group_extends h,
    fun hsmall => groupOf_framed hnop first last (hc hsmall)⟩

/-- The product that clears the accumulator loads the first piece. -/
theorem prologue_continues (hcap : 1 ≤ env.schedule.caps.uop) (h : e.prologue env = .ok e') :
    Continues env.schedule.caps.uop.toNat e e' := by
  obtain ⟨n, -, h⟩ := Outcome.bind_eq_ok.1 h
  exact group_continues _ (apart_nopCompute {}) (batch_framed rfl hcap _) h

/-- **The code of a step**: only the compute stage has to do with the table. -/
theorem step_continues (hcap : 1 ≤ env.schedule.caps.uop) {i : Nat} {st : Step}
    (h : e.step env i st = .ok e') : Continues env.schedule.caps.uop.toNat e e' := by
  obtain ⟨loads, c, stores, e1, e2, e3, hloads, h1, hc, h2, hstores, h3, h⟩ := step_eq_ok.1 h
  have hload := group_continues env.schedule.caps.uop.toNat
    (bare_nopLoad.apart (by decide)) (fun _ => .of_apart (fun i hi =>
      (StepLowering.bare_loads hloads i hi).apart (by decide)) _) h1
  have hcompute := group_continues _ (apart_nopCompute {}) (StepLowering.computes_framed hcap hc) h2
  have hstore := group_continues env.schedule.caps.uop.toNat
    (bare_nopStore.apart (by decide)) (fun _ => .of_apart (fun i hi =>
      (StepLowering.bare_stores hstores i hi).apart (by decide)) _) h3
  have hlast : Continues env.schedule.caps.uop.toNat e3 e' :=
    ⟨{ instructions := [_] }, push_extends h, fun _ =>
      .of_apart (List.forall_mem_singleton.2 (apart_nopCompute _)) _⟩
  exact ((hload.trans hcompute).trans hstore).trans hlast

/-- **The code of all steps.** -/
theorem steps_continues (hcap : 1 ≤ env.schedule.caps.uop) {steps : List (Step × Nat)}
    (h : steps.foldlM (fun (e : Emission) q => e.step env q.2 q.1) e = .ok e') :
    Continues env.schedule.caps.uop.toNat e e' := by
  induction steps generalizing e with
  | nil =>
    obtain rfl := Outcome.pure_eq_ok.1 h
    exact ⟨{}, ⟨by simp, by simp⟩, fun _ => .nil _⟩
  | cons q steps ih =>
    obtain ⟨e1, h1, h⟩ := foldlM_cons_eq_ok.1 h
    exact (step_continues hcap h1).trans (ih h)

/-- Nothing at the end of the stream has to do with the table. -/
theorem ending_continues (h : ending.foldlM push e = .ok e') : Continues capacity e e' := by
  refine continues_of_apart (fun i hi => ?_) h
  simp only [ending, List.mem_cons, List.not_mem_nil, or_false] at hi
  rcases hi with rfl | rfl | rfl
  · exact ⟨rfl, rfl, by simp [Instruction.idles, Instruction.nopLoad]⟩
  · exact apart_nopCompute _
  · exact ⟨rfl, rfl, by simp [Instruction.idles, Instruction.finish]⟩

end Emission

/-- **The code of a schedule** has the pieces of its whole table. -/
theorem lower_framed {s : Schedule} {d : Shaped} {l : Layout} {code : Code}
    (hcap : 1 ≤ s.caps.uop) (h : lower s d l = .ok code)
    (hsmall : code.microOps.length < 4294967296) :
    Framed s.caps.uop.toNat 0 code.microOps.length code.instructions := by
  obtain ⟨acc, out, e1, e2, e3, -, -, h1, h2, h3, -, rfl⟩ := lower_stages h
  obtain ⟨c, hc, hframed⟩ := ((Emission.prologue_continues hcap h1).trans
    (Emission.steps_continues hcap h2)).trans (Emission.ending_continues h3)
  have hinsns : e3.instructions.toList = c.instructions := by simpa using hc.instructions
  have hmicro : e3.microOps.toList = c.microOps := by simpa using hc.microOps
  simp only [hinsns, hmicro] at hsmall ⊢
  simpa using hframed (by simpa using hsmall)

section Fragmented

/-- The loads of a stream, one behind the other, tile the table from `start` to `stop`. -/
def Tiled : Nat → Nat → List Instruction → Prop
  | start, stop, [] => start = stop
  | start, stop, i :: is => i.dramBase.toNat = start ∧ Tiled (start + i.xSize.toNat) stop is

/-- The instructions of a stream that has to do with the table from `start` to `stop`. -/
structure Fragmented (capacity : Int) (start stop : Nat) (insns : List Instruction) : Prop where
  tiled : Tiled start stop (insns.filter (·.loadsMicroOps))
  followed : ∀ (k : Nat) (i : Instruction), insns[k]? = some i → i.loadsMicroOps = true →
    i.sramBase = 0 ∧ i.ySize = 1 ∧ 1 ≤ i.xSize.toNat ∧ (i.xSize.toNat : Int) ≤ capacity ∧
      ∃ j : Instruction, insns[k + 1]? = some j ∧ j.runsMicroOps = true ∧ j.uopBegin = 0 ∧
        j.uopEnd = i.xSize
  preceded : ∀ (k : Nat) (j : Instruction), insns[k]? = some j → j.runsMicroOps = true →
    ∃ (m : Nat) (i : Instruction), k = m + 1 ∧ insns[m]? = some i ∧ i.loadsMicroOps = true
  idle : ∀ i ∈ insns, i.idles = true → i.dramBase = 0

variable {capacity start stop : Nat} {insns : List Instruction}

theorem Framed.tiled (h : Framed capacity start stop insns) :
    Tiled start stop (insns.filter (·.loadsMicroOps)) := by
  induction h with
  | nil => rfl
  | apart hi _ ih =>
    rw [List.filter_cons_of_neg (by rw [hi.loads]; decide)]
    exact ih
  | fragment hf _ ih =>
    rw [List.filter_cons_of_pos hf.loads, List.filter_cons_of_neg (by
      rw [(Instruction.loads_of_runs hf.runs).1]
      decide)]
    exact ⟨hf.dram, hf.size ▸ ih⟩

/-- **What a stream of pieces says of each instruction.** -/
theorem Framed.fragmented {cap : Int} (hcap : 0 ≤ cap) (h : Framed cap.toNat start stop insns) :
    Fragmented cap start stop insns := by
  refine ⟨h.tiled, ?_, ?_, ?_⟩
  -- a load is the first instruction of a piece, and what follows it the second
  · induction h with
    | nil => simp
    | apart hi _ ih =>
      rintro (_ | k) i hk hl
      · obtain rfl := Option.some.inj hk
        rw [hi.loads] at hl
        cases hl
      · exact ih k i hk hl
    | @fragment start stop n load run is hf _ ih =>
      rintro (_ | _ | k) i hk hl
      · obtain rfl := Option.some.inj hk
        have hpos := hf.pos
        have hroom := hf.room
        rw [← hf.size] at hpos hroom
        exact ⟨hf.place, hf.rows, hpos, by omega, run, rfl, hf.runs, hf.first, hf.last⟩
      · obtain rfl := Option.some.inj hk
        rw [(Instruction.loads_of_runs hf.runs).1] at hl
        cases hl
      · exact ih k i hk hl
  · induction h with
    | nil => simp
    | apart hi _ ih =>
      rintro (_ | k) j hk hr
      · obtain rfl := Option.some.inj hk
        rw [hi.runs] at hr
        cases hr
      · obtain ⟨m, i, rfl, hm, hl⟩ := ih k j hk hr
        exact ⟨m + 1, i, rfl, hm, hl⟩
    | @fragment start stop n load run is hf _ ih =>
      rintro (_ | _ | k) j hk hr
      · obtain rfl := Option.some.inj hk
        have hl := hf.loads
        rw [(Instruction.loads_of_runs hr).1] at hl
        cases hl
      · exact ⟨0, load, rfl, rfl, hf.loads⟩
      · obtain ⟨m, i, rfl, hm, hl⟩ := ih k j hk hr
        exact ⟨m + 2, i, rfl, hm, hl⟩
  · induction h with
    | nil => simp
    | apart hi _ ih => exact List.forall_mem_cons.2 ⟨hi.idle, ih⟩
    | @fragment start stop n load run is hf _ ih =>
      have hl := hf.loads
      refine List.forall_mem_cons.2 ⟨fun hidle => ?_, List.forall_mem_cons.2 ⟨fun hidle => ?_, ih⟩⟩
      · unfold Instruction.loadsMicroOps at hl
        unfold Instruction.idles at hidle
        simp_all
      · rw [(Instruction.loads_of_runs hf.runs).2] at hidle
        cases hidle

end Fragmented

section Table

/-- A memory that grew without an object of the given name. -/
structure Memory.Spares (name : String) (m m' : Memory) : Prop where
  divisors : m'.divisors = m.divisors
  names : ∀ o ∈ m'.placed, o ∈ m.placed ∨ o.name ≠ name

namespace Memory.Spares

variable {name object : String} {m m' m'' : Memory}

theorem refl (name : String) (m : Memory) : m.Spares name m := ⟨rfl, fun _ ho => Or.inl ho⟩

theorem trans (h : m.Spares name m') (h' : m'.Spares name m'') : m.Spares name m'' where
  divisors := h'.divisors.trans h.divisors
  names := fun o ho => (h'.names o ho).elim (h.names o) Or.inr

theorem add {o : Placed} (ho : o.name ≠ name) : m.Spares name (m.add o) where
  divisors := rfl
  names := fun o' ho' => by
    rcases List.mem_cons.1 ho' with rfl | ho'
    · exact Or.inr ho
    · exact Or.inl ho'

theorem tensor {r : Region} {t : Option Tensor} {o : Option Placed} (hne : object ≠ name)
    (h : Layout.placeTensor m object r t = .ok (o, m')) : m.Spares name m' := by
  cases t with
  | none =>
    obtain ⟨-, rfl⟩ := Prod.mk.inj (Except.ok.inj h)
    exact .refl name m
  | some t =>
    obtain ⟨sizes, -, h⟩ := Outcome.bind_eq_ok.1 h
    obtain ⟨⟨out, m1⟩, hplace, h⟩ := Outcome.bind_eq_ok.1 h
    obtain ⟨-, rfl⟩ := Prod.mk.inj (Outcome.pure_eq_ok.1 h)
    obtain ⟨rfl, hname⟩ := Memory.place_eq_ok (Memory.granted_eq_ok.1 hplace)
    exact .add (hname ▸ hne)

theorem output {d : Shaped} {s : Schedule} {o : Option Placed} (hne : "OUT" ≠ name)
    (h : Layout.placeOutput m d s = .ok (o, m')) : m.Spares name m' := by
  unfold Layout.placeOutput at h
  split at h
  · exact .tensor hne h
  · obtain ⟨bytes, -, h⟩ := Outcome.bind_eq_ok.1 h
    obtain ⟨⟨out, m1⟩, hreserve, h⟩ := Outcome.bind_eq_ok.1 h
    obtain ⟨-, rfl⟩ := Prod.mk.inj (Outcome.pure_eq_ok.1 h)
    obtain ⟨rfl, hname, -⟩ := Memory.reserve_eq_ok (Memory.granted_eq_ok.1 hreserve)
    exact .add (hname ▸ hne)

end Memory.Spares

/-- No tensor is called like the table. -/
theorem allocate_spares {m m' : Memory} {d : Shaped} {s : Schedule} {l : Layout}
    (h : Layout.allocate m d s = .ok (l, m')) : m.Spares "UOP" m' := by
  obtain ⟨m1, m2, m3, m4, h1, h2, h3, h4, h5⟩ := Layout.allocate_eq_ok.1 h
  exact ((((Memory.Spares.tensor (by decide) h1).trans (.tensor (by decide) h2)).trans
    (.tensor (by decide) h3)).trans (.tensor (by decide) h4)).trans (.output (by decide) h5)

/-- A logical address counts units, so that there are not more of them than fit a word. -/
theorem Memory.logical_le {m : Memory} {object : String} {r : Region} {physical l : UInt64}
    (h : m.logical object r physical = .ok l) :
    l.toNat ≤ 18446744073709551615 / (m.divisor r).toNat := by
  unfold Memory.logical at h
  simp only at h
  split at h
  · simp at h
  obtain ⟨unit, -, h⟩ := Outcome.bind_eq_ok.1 h
  split at h
  swap
  · simp at h
  obtain rfl := Outcome.pure_eq_ok.1 h
  have hlt := (physical - m.origin).toNat_lt
  rw [UInt64.toNat_div]
  exact Nat.div_le_div_right (by omega)

/-- **The table is loaded and run piece by piece.** Whatever program is compiled, if its
micro-operations can be counted, its loads of them tile the table, in order; each fills the
scratchpad from its start and is run from there, whole, by the instruction behind it; and no
instruction runs micro-operations without such a load before it. -/
theorem compiled_fragmented {p : Program} {c : Config} {options : PlanOptions} {r : Compiled}
    (h : compile c options p = .ok r) (hfew : r.code.microOps.length < 4294967296) :
    ∃ caps table, c.schedulingCapacities = .ok caps ∧ r.memory.find? "UOP" = some table ∧
      Fragmented caps.uop table.logical.toNat (table.logical.toNat + r.code.microOps.length)
        r.code.instructions := by
  obtain ⟨rfl, caps, divisors, data, code, table, hmade, m, hreserved⟩ := compile_stages h
  have hspares := allocate_spares hmade.allocated
  have hvalid : c.validate = .ok () := by
    obtain ⟨⟨⟩, hvalid, -⟩ := Outcome.bind_eq_ok.1 hmade.built
    exact hvalid
  obtain ⟨b, hsound, -⟩ := Config.validate_sound hvalid
  obtain ⟨strategy, steps, hplanned⟩ := plan_planned hmade.planned
  have hcaps : r.schedule.caps = caps := hplanned.capacities
  have hpos : 1 ≤ caps.uop := (build_within hmade.built hsound hmade.capacities).uop_pos
  have hfound : r.memory.find? "UOP" = some table :=
    hmade.found fun o ho => (hspares.names o ho).resolve_left (by simp [Memory.empty])
  refine ⟨caps, table, hmade.capacities, hfound, ?_⟩
  -- the table counts units of four bytes, so that its address is far from the end of a word
  have hunit : (data.divisor .uop).toNat = 4 := by
    have hdivisors : data.divisors = divisors := hspares.divisors
    have hunits := hmade.units
    rw [hsound.divisors_eq] at hunits
    rw [Memory.divisor, hdivisors, ← Except.ok.inj hunits]
    rfl
  have hplace : table.logical.toNat ≤ 18446744069414584320 := by
    have hle := Memory.logical_le (Memory.reserve_eq_ok hreserved).2.2
    rw [hunit] at hle
    omega
  have hmicro : r.code.microOps = code.microOps := by rw [hmade.code_eq]
  rw [hmicro] at hfew ⊢
  have hframed := lower_framed (by rw [hcaps]; exact hpos) hmade.lowered hfew
  have hmoved := hframed.rebase hplace hmade.reach
  rw [Nat.add_zero, hcaps] at hmoved
  rw [hmade.code_eq]
  exact hmoved.fragmented (by omega)

/-- The product of four blocks, for a scratchpad with room for one micro-operation. -/
theorem fourBlocks_fragmented : ∃ r caps table,
    compile .twoBlocks { strategy := 3 } .fourBlocks = .ok r ∧
    r.code.microOps.length < 4294967296 ∧ Config.twoBlocks.schedulingCapacities = .ok caps ∧
    caps.uop = 1 ∧ r.memory.find? "UOP" = some table ∧
    Fragmented 1 table.logical.toNat (table.logical.toNat + r.code.microOps.length)
      r.code.instructions := by
  obtain ⟨r, hr, h⟩ := Outcome.bind_eq_ok.1 fourBlocks_compiled
  obtain ⟨-, hfew, -⟩ := of_decide_eq_true (Outcome.pure_eq_ok.1 h)
  obtain ⟨caps, table, hcaps, htable, hfragmented⟩ := compiled_fragmented hr hfew
  have huop : Config.twoBlocks.schedulingCapacities.map (·.uop) = .ok 1 := by decide
  rw [hcaps] at huop
  have hone : caps.uop = 1 := Except.ok.inj huop
  rw [hone] at hfragmented
  exact ⟨r, caps, table, hr, hfew, hcaps, hone, htable, hfragmented⟩

end Table

end Tessera
