import Tessera.Proofs.Sequence
import Tessera.Proofs.Transfers

/-!
# Micro-operations on the machine

The instructions of a batch bring its micro-operations into the scratchpad, as many
as it holds, and run each of them over the rows of the inner loop. In the end every
iteration of every micro-operation has been made, in order.

* `Machine.expand`: the iterations of one micro-operation.
* `Machine.rowSteps`: rows written one after the other.
* `batch_exec`: the instructions of a batch.
* `runs_pairs`: rows cut into runs.
* `sweep_runs`: the micro-operations of a swept operation.
* `sweep_pairs`: the iterations of a swept operation are the rows it is about.
* `exec_rebase`: it does not matter where the table of micro-operations stands.
-/

namespace Tessera

namespace Machine

/-- The iterations of one micro-operation. -/
def expand (i : Instruction) (u : MicroOp) : List MicroOp :=
  (List.range i.loopOut.toNat).flatMap fun o =>
    (List.range i.loopIn.toNat).map fun j =>
      { dst := u.dst + UInt32.ofNat o * i.dstFactorOut + UInt32.ofNat j * i.dstFactorIn
        src := u.src + UInt32.ofNat o * i.srcFactorOut + UInt32.ofNat j * i.srcFactorIn
        wgt := u.wgt + UInt32.ofNat o * i.wgtFactorOut + UInt32.ofNat j * i.wgtFactorIn }

/-- Rows written one after the other. -/
def rowSteps (m : Machine) (row : State → MicroOp → Outcome Row) (us : List MicroOp) (s : State) :
    Outcome State :=
  us.foldlM (fun s u => do m.setRow s u.dst.toNat (← row s u)) s

/-- What is written does not depend on the micro-operations in the scratchpad. -/
def IgnoresTable (row : State → MicroOp → Outcome Row) : Prop :=
  ∀ s uop u, row { s with uop } u = row s u

theorem setRow_eq_ok {m : Machine} {s s' : State} {n : Nat} {row : Row} :
    m.setRow s n row = .ok s' ↔ ∃ copy, (row.mapM fun v => m.out.narrow v m.clip) = .ok copy ∧
      s' = { s with acc := Function.update s.acc n row, out := Function.update s.out n copy } := by
  unfold setRow
  rw [Outcome.bind_eq_ok]
  simp only [Outcome.pure_eq_ok]
  exact exists_congr fun _ => and_congr_right fun _ => eq_comm

theorem rowSteps_uop {m : Machine} {row : State → MicroOp → Outcome Row} (hrow : IgnoresTable row)
    {us : List MicroOp} {s s' : State} (h : m.rowSteps row us s = .ok s') (uop : Nat → MicroOp) :
    m.rowSteps row us { s with uop } = .ok { s' with uop } := by
  induction us generalizing s with
  | nil =>
    obtain rfl := Outcome.pure_eq_ok.1 h
    rfl
  | cons u us ih =>
    obtain ⟨s1, h1, h⟩ := foldlM_cons_eq_ok.1 h
    obtain ⟨x, hx, h1⟩ := Outcome.bind_eq_ok.1 h1
    obtain ⟨copy, hcopy, rfl⟩ := setRow_eq_ok.1 h1
    refine foldlM_cons_eq_ok.2 ⟨_, Outcome.bind_ok ((hrow s uop u).trans hx)
      (setRow_eq_ok.2 ⟨copy, hcopy, rfl⟩), ?_⟩
    exact ih h

/-- The instruction of a batch runs every iteration of the micro-operations that were
loaded for it. -/
theorem iterations_loaded {i : Instruction} {piece : List MicroOp} (hlen : piece.length < 4294967296)
    (uop : Nat → MicroOp) :
    iterations { i with uopBegin := 0, uopEnd := UInt32.ofNat piece.length } (fill uop 0 piece) =
      piece.flatMap (expand i) := by
  rw [flatMap_eq_range (g := fun n => expand i (fill uop 0 piece n))]
  · simp only [iterations, toNat_ofNat32 hlen, show (0 : UInt32).toNat = 0 from rfl, Nat.sub_zero,
      Nat.zero_add]
    rfl
  · intro n u hu
    simp [fill, hu]

/-- The instructions that compute, with what they write. -/
inductive Computes (m : Machine) (i : Instruction) : (State → MicroOp → Outcome Row) → Prop
  | gemm : i.opcode = .gemm → Computes m i fun s u => m.gemmRow s i u
  | alu : i.opcode = .alu → Computes m i fun s u => m.aluRow s i u

theorem Computes.ignoresTable {m : Machine} {i : Instruction} {row : State → MicroOp → Outcome Row}
    (h : m.Computes i row) : IgnoresTable row := by
  cases h <;> exact fun _ _ _ => rfl

theorem Computes.exec {m : Machine} {i : Instruction} {row : State → MicroOp → Outcome Row}
    (h : m.Computes i row) {first last : UInt32} (s : State) :
    m.exec s { i with uopBegin := first, uopEnd := last } =
      m.rowSteps row (iterations { i with uopBegin := first, uopEnd := last } s.uop) s := by
  cases h with
  | gemm hop =>
    unfold Machine.exec
    simp only [hop]
    rfl
  | alu hop =>
    unfold Machine.exec
    simp only [hop]
    rfl

/-- A LOAD of micro-operations from a table that stands at the start of memory. -/
theorem exec_loadTable {m : Machine} (hbase : m.base = 0) {s : State} {start : Nat}
    {piece : List MicroOp} (hlen : start + piece.length < 4294967296)
    (htable : ∀ x < piece.length, m.table[start + x]? = piece[x]?) {n : UInt32} :
    m.exec s (.load .uop 0 (UInt32.ofNat start) n (UInt32.ofNat piece.length)
      (UInt32.ofNat piece.length)) = .ok { s with uop := fill s.uop 0 piece } := by
  have hmap : m.loadTable (.load .uop 0 (UInt32.ofNat start) n (UInt32.ofNat piece.length)
      (UInt32.ofNat piece.length)) = .ok piece := by
    unfold loadTable
    simp only [Instruction.load, hbase, UInt64.sub_zero, UInt32.toNat_toUInt64,
      toNat_ofNat32 (show start < 4294967296 by omega),
      toNat_ofNat32 (show piece.length < 4294967296 by omega)]
    rw [mapM_of_forall (g := fun x => piece.getD x {})]
    · congr 1
      apply List.ext_getElem?
      intro x
      rw [List.getElem?_map]
      by_cases hx : x < piece.length
      · rw [List.getElem?_range hx, List.getElem?_eq_getElem hx, Option.map_some,
          List.getD_eq_getElem?_getD, List.getElem?_eq_getElem hx]
        rfl
      · rw [List.getElem?_eq_none (by simpa using hx), List.getElem?_eq_none (by omega)]
        rfl
    · intro x hx
      have hx := List.mem_range.1 hx
      rw [Outcome.ofOption_eq_ok, htable x hx, List.getD_eq_getElem?_getD,
        List.getElem?_eq_getElem hx]
      rfl
  unfold exec load
  simp only [Instruction.load]
  exact Outcome.bind_ok hmap rfl

/-- **The instructions of a batch** make every iteration of every micro-operation, if
the table holds these from `start` on. -/
theorem batch_exec {m : Machine} (hbase : m.base = 0) {i : Instruction}
    {row : State → MicroOp → Outcome Row} (hi : m.Computes i row) {capacity : Int} {start : Nat}
    {us : List MicroOp} (htable : ∀ x < us.length, m.table[start + x]? = us[x]?)
    (hlen : start + us.length < 4294967296) {s s' : State}
    (h : m.rowSteps row (us.flatMap (expand i)) s = .ok s') :
    ∃ uop, (batch capacity start i us).instructions.foldlM m.exec s = .ok { s' with uop } := by
  set size := (max capacity 1).toNat with hsize
  have hpos : 0 < size := by omega
  -- the pieces that are left, after `k` full ones
  have key : ∀ (ps : List (List MicroOp)) (k : Nat) (s s' : State),
      (∀ p ∈ ps.dropLast, p.length = size) →
      (∀ x < ps.flatten.length, m.table[start + k * size + x]? = ps.flatten[x]?) →
      start + k * size + ps.flatten.length < 4294967296 →
      m.rowSteps row (ps.flatten.flatMap (expand i)) s = .ok s' →
      ∃ uop, ((ps.zipIdx k).flatMap fun q =>
        [Instruction.load .uop 0 (UInt32.ofNat (start + q.2 * size)) 1 (UInt32.ofNat q.1.length)
          (UInt32.ofNat q.1.length),
          { i with uopBegin := 0, uopEnd := UInt32.ofNat q.1.length }]).foldlM m.exec s =
        .ok { s' with uop } := by
    intro ps
    induction ps with
    | nil =>
      intro k s s' _ _ _ hrun
      obtain rfl := Outcome.pure_eq_ok.1 hrun
      exact ⟨s.uop, rfl⟩
    | cons p ps ih =>
      intro k s s' hfull htab hsmall hrun
      rw [List.flatten_cons, List.length_append] at hsmall htab
      rw [List.flatten_cons, List.flatMap_append] at hrun
      obtain ⟨s1, h1, h2⟩ := foldlM_append_eq_ok.1 hrun
      have hp : ∀ x < p.length, m.table[start + k * size + x]? = p[x]? := fun x hx => by
        rw [htab x (by omega), List.getElem?_append_left hx]
      have hstep : ∀ t : State, [Instruction.load .uop 0 (UInt32.ofNat (start + k * size)) 1
          (UInt32.ofNat p.length) (UInt32.ofNat p.length),
          { i with uopBegin := 0, uopEnd := UInt32.ofNat p.length }].foldlM m.exec t =
          m.rowSteps row (p.flatMap (expand i)) { t with uop := fill t.uop 0 p } := by
        intro t
        rw [List.foldlM_cons, exec_loadTable hbase (by omega) hp, Outcome.ok_bind, List.foldlM_cons,
          hi.exec, iterations_loaded (by omega)]
        simp only [List.foldlM_nil, bind_pure]
      rw [List.zipIdx_cons, List.flatMap_cons, List.foldlM_append, hstep,
        rowSteps_uop hi.ignoresTable h1, Outcome.ok_bind]
      cases ps with
      | nil =>
        obtain rfl := Outcome.pure_eq_ok.1 h2
        exact ⟨_, rfl⟩
      | cons q rest =>
        have hplen : p.length = size := hfull p (by simp)
        have hnext : start + (k + 1) * size = start + k * size + p.length := by rw [hplen]; ring
        obtain ⟨uop, huop⟩ := ih (k + 1) _ _ (fun r hr => hfull r (by simp [hr]))
          (fun x hx => by
            rw [hnext, Nat.add_assoc, htab (p.length + x) (by omega),
              List.getElem?_append_right (by omega), Nat.add_sub_cancel_left])
          (by rw [hnext]; omega) (rowSteps_uop hi.ignoresTable h2 (fill s.uop 0 p))
        exact ⟨uop, huop⟩
  have hflat := flatten_chunks size us
  obtain ⟨uop, huop⟩ := key (chunks size us) 0 s s' (chunks_full hpos us)
    (by rw [hflat, Nat.zero_mul, Nat.add_zero]; exact htable)
    (by rw [hflat, Nat.zero_mul, Nat.add_zero]; exact hlen) (by rw [hflat]; exact h)
  exact ⟨uop, huop⟩

end Machine

/-- The pairs of a run. -/
def Run.pairs (vector : Bool) (r : Run) : List RowPair :=
  (List.range r.length).map fun (j : Nat) =>
    ⟨r.start.dst + j, if vector then r.start.src + j else r.start.src⟩

theorem Run.pairs_succ (vector : Bool) (start : RowPair) (n : Nat) :
    Run.pairs vector ⟨start, n + 1⟩ = Run.pairs vector ⟨start, n⟩ ++
      [⟨start.dst + n, if vector then start.src + n else start.src⟩] := by
  simp [Run.pairs, List.range_succ]

/-- Rows are cut into runs, with the run in work so far. -/
theorem runsFrom_pairs {vector : Bool} {done : List Run} {start last : RowPair} {n : Nat}
    {ps : List RowPair} (hsrc : vector = false → start.src = 0 ∧ ∀ p ∈ ps, p.src = 0)
    (hlast : last = ⟨start.dst + n, if vector then start.src + n else start.src⟩) :
    (runsFrom vector done ⟨start, n + 1⟩ last ps).flatMap (Run.pairs vector) =
      done.reverse.flatMap (Run.pairs vector) ++ Run.pairs vector ⟨start, n + 1⟩ ++ ps := by
  induction ps generalizing done start last n with
  | nil => simp [runsFrom, List.flatMap_append]
  | cons p ps ih =>
    rw [runsFrom]
    by_cases hf : last.follows vector p = true
    · rw [if_pos hf]
      have hp : p = ⟨start.dst + (n + 1 : Nat),
          if vector then start.src + (n + 1 : Nat) else start.src⟩ := by
        unfold RowPair.follows at hf
        rw [hlast] at hf
        obtain ⟨dst, src⟩ := p
        simp only [Bool.and_eq_true, beq_iff_eq, Bool.or_eq_true, Bool.not_eq_true'] at hf
        cases vector with
        | true =>
          simp only [Bool.true_eq_false, false_or, if_true] at hf
          simp only [RowPair.mk.injEq, if_true]
          push_cast
          omega
        | false =>
          have h0 := hsrc rfl
          have h1 := h0.2 _ List.mem_cons_self
          simp only [RowPair.mk.injEq, Bool.false_eq_true, if_false]
          simp only at h1
          push_cast
          omega
      rw [ih (fun hv => ⟨(hsrc hv).1, fun q hq => (hsrc hv).2 q (List.mem_cons_of_mem _ hq)⟩) hp,
        Run.pairs_succ vector start (n + 1), ← hp]
      simp
    · rw [if_neg hf, ih (n := 0) (fun hv => ⟨(hsrc hv).2 p List.mem_cons_self,
        fun q hq => (hsrc hv).2 q (List.mem_cons_of_mem _ hq)⟩) (by simp)]
      have : Run.pairs vector ⟨p, 0 + 1⟩ = [p] := by simp [Run.pairs]
      rw [this]
      simp

/-- **Rows cut into runs.** -/
theorem runs_pairs {vector : Bool} {ps : List RowPair}
    (hsrc : vector = false → ∀ p ∈ ps, p.src = 0) : (runs vector ps).flatMap (Run.pairs vector) = ps := by
  cases ps with
  | nil => rfl
  | cons p ps =>
    rw [runs, runsFrom_pairs (n := 0) (fun hv => ⟨hsrc hv p List.mem_cons_self,
      fun q hq => hsrc hv q (List.mem_cons_of_mem _ hq)⟩) (by simp)]
    have : Run.pairs vector ⟨p, 0 + 1⟩ = [p] := by simp [Run.pairs]
    rw [this]
    rfl

theorem runsFrom_pos {vector : Bool} {done : List Run} {current : Run} {last : RowPair}
    {ps : List RowPair} (hd : ∀ r ∈ done, 1 ≤ r.length) (hc : 1 ≤ current.length) :
    ∀ r ∈ runsFrom vector done current last ps, 1 ≤ r.length := by
  induction ps generalizing done current last with
  | nil =>
    intro r hr
    rcases List.mem_cons.1 (List.mem_reverse.1 hr) with rfl | hr
    · exact hc
    · exact hd r hr
  | cons p ps ih =>
    rw [runsFrom]
    split
    · exact ih hd (by simp)
    · refine ih (fun r hr => ?_) (by simp)
      rcases List.mem_cons.1 hr with rfl | hr
      · exact hc
      · exact hd r hr

theorem runs_pos {vector : Bool} {ps : List RowPair} : ∀ r ∈ runs vector ps, 1 ≤ r.length := by
  cases ps with
  | nil => simp [runs]
  | cons p ps => exact runsFrom_pos (by simp) (by simp)

/-- A run starts with its first pair. -/
theorem Run.start_mem {vector : Bool} {r : Run} (h : 1 ≤ r.length) : r.start ∈ r.pairs vector :=
  List.mem_map.2 ⟨0, List.mem_range.2 h, by simp⟩

/-- **The micro-operations of a sweep** are those of runs of one length, which make up the pairs:
the runs the pairs were cut into, or the pairs themselves. -/
theorem sweep_runs {vector : Bool} {ps : List RowPair} {us : List MicroOp} {n : Nat}
    (hsrc : vector = false → ∀ p ∈ ps, p.src = 0) (h : sweep vector ps = (us, n)) :
    ∃ rs : List Run, us = rs.map (fun r => r.start.microOp vector) ∧
      rs.flatMap (Run.pairs vector) = ps ∧ (∀ r ∈ rs, r.length = n) ∧ 1 ≤ n ∧
      (rs = [] → n = 1) := by
  have heach : (us, n) = (ps.map (·.microOp vector), 1) → ∃ rs : List Run,
      us = rs.map (fun r => r.start.microOp vector) ∧ rs.flatMap (Run.pairs vector) = ps ∧
        (∀ r ∈ rs, r.length = n) ∧ 1 ≤ n ∧ (rs = [] → n = 1) := by
    intro heq
    obtain ⟨rfl, rfl⟩ := Prod.mk.inj heq
    refine ⟨ps.map fun p => ⟨p, 1⟩, by simp, ?_, by simp, le_rfl, fun _ => rfl⟩
    rw [List.flatMap_map]
    simp [Run.pairs]
  unfold sweep at h
  simp only at h
  cases hr : runs vector ps with
  | nil =>
    rw [hr] at h
    exact heach h.symm
  | cons r rs =>
    rw [hr] at h
    simp only at h
    split at h
    · rename_i hall
      obtain ⟨rfl, rfl⟩ := Prod.mk.inj h
      refine ⟨r :: rs, rfl, hr ▸ runs_pairs hsrc, fun q hq => ?_,
        runs_pos r (hr ▸ List.mem_cons_self), fun hnil => by cases hnil⟩
      rcases List.mem_cons.1 hq with rfl | hq
      · rfl
      · simpa using List.all_eq_true.1 hall q hq
    · exact heach h.symm

/-- The rows an iteration is about; those it reads count for `vector` only. -/
def MicroOp.rows (vector : Bool) (u : MicroOp) : Nat × Nat :=
  (u.dst.toNat, if vector then u.src.toNat else 0)

/-- The same rows, as a pair. -/
def RowPair.rows (vector : Bool) (p : RowPair) : Nat × Nat :=
  (p.dst.toNat, if vector then p.src.toNat else 0)

/-- The rows of a pair can be addressed. -/
def RowPair.Small (p : RowPair) : Prop :=
  (0 ≤ p.dst ∧ p.dst < 4294967296) ∧ 0 ≤ p.src ∧ p.src < 4294967296

/-- The instruction that sweeps micro-operations over rows. -/
structure Machine.Sweeps (i : Instruction) (vector : Bool) (n : Nat) : Prop where
  out : i.loopOut = 1
  inner : i.loopIn.toNat = n
  dst : i.dstFactorIn = 1
  src : vector = true → i.srcFactorIn = 1

/-- The iterations of a micro-operation that starts a run. -/
theorem expand_run {i : Instruction} {vector : Bool} {r : Run}
    (hi : Machine.Sweeps i vector r.length) (hsmall : ∀ p ∈ r.pairs vector, p.Small)
    (hstart : r.start.Small) :
    (Machine.expand i (r.start.microOp vector)).map (MicroOp.rows vector) =
      (r.pairs vector).map (RowPair.rows vector) := by
  unfold Machine.expand
  rw [hi.out, show (1 : UInt32).toNat = 1 from rfl, List.range_one, List.flatMap_singleton,
    List.map_map, hi.inner, Run.pairs, List.map_map]
  apply List.map_congr_left
  intro j hj
  have hp := hsmall ⟨r.start.dst + j, if vector then r.start.src + j else r.start.src⟩
    (List.mem_map.2 ⟨j, hj, rfl⟩)
  obtain ⟨⟨hd0, hd1⟩, hs0, hs1⟩ := hp
  obtain ⟨⟨hd2, hd3⟩, hs2, hs3⟩ := hstart
  -- counting rows in words of 32 bits does not overflow
  have hword : ∀ x : Int, 0 ≤ x → x < 4294967296 → x + j < 4294967296 →
      (UInt32.ofInt x + 0 * 0 + UInt32.ofNat j * 1).toNat = (x + j).toNat := by
    intro x h0 h1 h2
    rw [UInt32.mul_one, UInt32.zero_mul, UInt32.add_zero, UInt32.toNat_add, toNat_ofInt32 h0 h1,
      toNat_ofNat32 (by omega)]
    norm_num
    omega
  simp only [Function.comp_apply, MicroOp.rows, RowPair.rows, RowPair.microOp, hi.dst, Prod.mk.injEq]
  simp only at hd1
  cases vector with
  | true =>
    simp only [if_true] at hs1 ⊢
    rw [hi.src rfl]
    exact ⟨by simpa using hword _ hd2 hd3 hd1, by simpa using hword _ hs2 hs3 hs1⟩
  | false => exact ⟨by simpa using hword _ hd2 hd3 hd1, rfl⟩

/-- **The iterations of a swept operation are the rows it is about.** -/
theorem sweep_pairs {vector : Bool} {ps : List RowPair} {us : List MicroOp} {n : Nat}
    (hsrc : vector = false → ∀ p ∈ ps, p.src = 0) (hsmall : ∀ p ∈ ps, p.Small)
    (h : sweep vector ps = (us, n)) {i : Instruction} (hi : Machine.Sweeps i vector n) :
    (us.flatMap (Machine.expand i)).map (MicroOp.rows vector) = ps.map (RowPair.rows vector) := by
  obtain ⟨rs, rfl, rfl, hlen, hn, -⟩ := sweep_runs hsrc h
  rw [List.flatMap_map, List.map_flatMap, List.map_flatMap]
  refine List.flatMap_congr fun r hr => ?_
  have hin : ∀ p ∈ r.pairs vector, p.Small := fun p hp => hsmall p (List.mem_flatMap.2 ⟨r, hr, hp⟩)
  have hrun := hlen r hr
  exact expand_run (hrun ▸ hi) hin (hin _ (Run.start_mem (hrun ▸ hn)))

/-- The machine with its table of micro-operations at the start of memory. -/
def Machine.unbased (m : Machine) : Machine := { m with base := 0 }

theorem Machine.loadTable_rebase {m : Machine} {i : Instruction}
    (hreach : i.outOfReach m.base = false) (hop : i.opcode = .load) (hbuf : i.buffer = .uop) :
    m.loadTable (i.rebase m.base) = m.unbased.loadTable i := by
  cases hl : i.loadsMicroOps with
  | false =>
    -- an empty transfer brings nothing in
    have hx : i.xSize.toNat = 0 := by
      unfold Instruction.loadsMicroOps Instruction.isNop at hl
      simp only [hop, hbuf, beq_self_eq_true, Bool.true_and, Bool.true_or, Bool.not_eq_false',
        Bool.and_eq_true, beq_iff_eq] at hl
      rw [hl.2]
      rfl
    unfold loadTable
    rw [show i.rebase m.base = i by simp [Instruction.rebase, hl], hx]
    rfl
  | true =>
    have hle : (i.dramBase.toUInt64 + m.base).toNat ≤ 4294967295 := by
      unfold Instruction.outOfReach Instruction.tableAddress at hreach
      rw [hl, Bool.true_and, decide_eq_false_iff_not] at hreach
      have := UInt64.not_lt.1 hreach
      exact UInt64.le_iff_toNat_le.1 this
    have haddr : (i.dramBase.toUInt64 + m.base).toUInt32.toUInt64 - m.base = i.dramBase.toUInt64 := by
      have : (i.dramBase.toUInt64 + m.base).toUInt32.toUInt64 = i.dramBase.toUInt64 + m.base := by
        apply UInt64.toNat_inj.1
        rw [UInt32.toNat_toUInt64, UInt64.toNat_toUInt32]
        omega
      rw [this, UInt64.add_sub_cancel]
    unfold loadTable
    simp only [Instruction.rebase, hl, if_true, Instruction.tableAddress, unbased, UInt64.sub_zero,
      haddr]

/-- **It does not matter where the table of micro-operations stands.** -/
theorem Machine.exec_rebase {m : Machine} {i : Instruction} (hreach : i.outOfReach m.base = false)
    (s : State) : m.exec s (i.rebase m.base) = m.unbased.exec s i := by
  by_cases hload : i.opcode = .load ∧ i.buffer = .uop
  · have hop : (i.rebase m.base).opcode = .load ∧ (i.rebase m.base).buffer = .uop ∧
        (i.rebase m.base).sramBase = i.sramBase := by
      unfold Instruction.rebase
      split <;> exact ⟨hload.1, hload.2, rfl⟩
    unfold exec load
    simp only [hop.1, hop.2.1, hop.2.2, hload.1, hload.2, loadTable_rebase hreach hload.1 hload.2]
  · have hl : i.loadsMicroOps = false := by
      unfold Instruction.loadsMicroOps
      by_contra hne
      simp only [Bool.and_eq_false_iff, not_or, Bool.not_eq_false, beq_iff_eq] at hne
      exact hload ⟨hne.1.1, hne.1.2⟩
    rw [show i.rebase m.base = i by simp [Instruction.rebase, hl]]
    unfold exec load
    cases hop : i.opcode with
    | load =>
      cases hbuf : i.buffer with
      | uop => exact absurd ⟨hop, hbuf⟩ hload
      | _ => rfl
    | _ => rfl

end Tessera
