import Tessera.Proofs.Computing

/-!
# The sites that code touches

An ALU operation names sites: pairs of accumulator rows, one written and one read. Its code
sweeps micro-operations over rows, and brings them into the scratchpad as many at a time as it
holds. Read back instruction by instruction, the code touches exactly these sites, in their order
and as often as they occur.

* `Instruction.touched`, `touched`: the sites that an instruction and a stream touch.
* `sweep_unread`: an operation with an immediate ignores the rows that are read.
* `touched_batch`: what a batch touches does not depend on how it is cut; `batch_one`: one that
  is not cut.
* `sweep_chain`, `sweep_apart`: pairs that all follow each other are one micro-operation, and
  pairs that never do have one each; so have pairs that are repeated, by `sweep_replicate`.
* `sweep_exact`: the code of an operation touches its sites.
* `allRows_untouched`: `2 ^ 32` rows, which no count of an instruction reaches.
-/

namespace Tessera

/-- The sites an instruction touches: every micro-operation in its range is repeated by the inner
loop, which moves both rows by their factors. -/
def Instruction.touched (i : Instruction) (uop : Nat → MicroOp) : List (Nat × Nat) :=
  (List.range (i.uopEnd.toNat - i.uopBegin.toNat)).flatMap fun n =>
    let u := uop (i.uopBegin.toNat + n)
    (List.range i.loopIn.toNat).map fun j =>
      (u.dst.toNat + j * i.dstFactorIn.toNat, u.src.toNat + j * i.srcFactorIn.toNat)

/-- The sites a stream touches, whose loads bring micro-operations of a table into the
scratchpad; at first that holds `uop`. -/
def touched (table : List MicroOp) : List Instruction → (Nat → MicroOp) → List (Nat × Nat)
  | [], _ => []
  | i :: is, uop =>
    if i.loadsMicroOps then
      touched table is
        (fill uop i.sramBase.toNat ((table.drop i.dramBase.toNat).take i.xSize.toNat))
    else i.touched uop ++ touched table is uop

section Unread

/-- A pair of which only the row that is written counts. -/
def RowPair.unread (p : RowPair) : RowPair := { dst := p.dst }

/-- A run of such pairs. -/
def Run.unread (r : Run) : Run := { r with start := r.start.unread }

theorem runsFrom_unread (done : List Run) (current : Run) (last : RowPair) (ps : List RowPair) :
    runsFrom false (done.map Run.unread) current.unread last.unread (ps.map RowPair.unread) =
      (runsFrom false done current last ps).map Run.unread := by
  induction ps generalizing done current last with
  | nil => simp [runsFrom]
  | cons p ps ih =>
    have hfollows : last.unread.follows false p.unread = last.follows false p := rfl
    rw [List.map_cons, runsFrom, runsFrom, hfollows]
    split
    · exact ih done { current with length := current.length + 1 } p
    · exact ih (current :: done) ⟨p, 1⟩ p

/-- **An operation with an immediate ignores the rows that are read.** -/
theorem sweep_unread (ps : List RowPair) : sweep false (ps.map RowPair.unread) = sweep false ps := by
  have hruns : runs false (ps.map RowPair.unread) = (runs false ps).map Run.unread := by
    cases ps with
    | nil => rfl
    | cons p ps => exact runsFrom_unread [] ⟨p, 1⟩ p ps
  have heach : (ps.map RowPair.unread).map (RowPair.microOp false) =
      ps.map (RowPair.microOp false) := by
    rw [List.map_map]
    rfl
  unfold sweep
  simp only [hruns, heach]
  cases runs false ps with
  | nil => rfl
  | cons r rs =>
    have hall : (rs.map Run.unread).all (fun s => s.length == r.unread.length) =
        rs.all fun s => s.length == r.length := by
      rw [List.all_map]
      rfl
    simp only [List.map_cons, hall, List.map_map]
    rfl

end Unread

section Batch

variable {table : List MicroOp} {i : Instruction}

/-- What an instruction touches with some micro-operations at the start of the scratchpad. -/
theorem touched_loaded {piece : List MicroOp} (hlen : piece.length < 4294967296)
    (uop : Nat → MicroOp) :
    { i with uopBegin := 0, uopEnd := UInt32.ofNat piece.length }.touched (fill uop 0 piece) =
      piece.flatMap fun u => (List.range i.loopIn.toNat).map fun j =>
        (u.dst.toNat + j * i.dstFactorIn.toNat, u.src.toNat + j * i.srcFactorIn.toNat) := by
  rw [flatMap_eq_range (g := fun n => (List.range i.loopIn.toNat).map fun j =>
    ((fill uop 0 piece n).dst.toNat + j * i.dstFactorIn.toNat,
      (fill uop 0 piece n).src.toNat + j * i.srcFactorIn.toNat))]
  · unfold Instruction.touched
    simp only [toNat_ofNat32 hlen, show (0 : UInt32).toNat = 0 from rfl, Nat.sub_zero, Nat.zero_add]
  · intro n u hu
    simp [fill, hu]

/-- The loads of a batch. -/
theorem loadsMicroOps_load (dram n : UInt32) :
    (Instruction.load .uop 0 dram 1 n n).loadsMicroOps = true := by
  simp [Instruction.loadsMicroOps, Instruction.load, Instruction.isNop]

/-- The pieces of a batch, after `k` full ones, touch what their micro-operations do. -/
theorem touched_pieces (hi : i.loadsMicroOps = false) {start size : Nat}
    {pieces : List (List MicroOp)} (hfull : ∀ p ∈ pieces.dropLast, p.length = size) (k : Nat)
    (htable : ∃ rest, table.drop (start + k * size) = pieces.flatten ++ rest)
    (hsmall : start + k * size + pieces.flatten.length < 4294967296) (uop : Nat → MicroOp) :
    touched table ((pieces.zipIdx k).flatMap fun (piece, k) =>
      [Instruction.load .uop 0 (UInt32.ofNat (start + k * size)) 1 (UInt32.ofNat piece.length)
        (UInt32.ofNat piece.length),
        { i with uopBegin := 0, uopEnd := UInt32.ofNat piece.length }]) uop =
      pieces.flatten.flatMap fun u => (List.range i.loopIn.toNat).map fun j =>
        (u.dst.toNat + j * i.dstFactorIn.toNat, u.src.toNat + j * i.srcFactorIn.toNat) := by
  induction pieces generalizing k uop with
  | nil => rfl
  | cons p ps ih =>
    obtain ⟨rest, hrest⟩ := htable
    rw [List.flatten_cons, List.length_append] at hsmall
    rw [List.flatten_cons, List.append_assoc] at hrest
    have hrun : ∀ n : UInt32, { i with uopBegin := 0, uopEnd := n }.loadsMicroOps = false :=
      fun _ => hi
    have hpiece : (table.drop (UInt32.ofNat (start + k * size)).toNat).take
        (UInt32.ofNat p.length).toNat = p := by
      rw [toNat_ofNat32 (by omega), toNat_ofNat32 (by omega), hrest, List.take_left]
    rw [List.zipIdx_cons, List.flatMap_cons, List.flatten_cons, List.flatMap_append,
      List.cons_append, List.cons_append, List.nil_append, touched, if_pos (loadsMicroOps_load _ _), touched,
      if_neg (by rw [hrun]; exact Bool.false_ne_true)]
    simp only [Instruction.load, hpiece]
    rw [show (0 : UInt32).toNat = 0 from rfl, touched_loaded (by omega)]
    congr 1
    -- a piece that others follow is full
    cases ps with
    | nil => rfl
    | cons q ps =>
      have hp : p.length = size := hfull p (by simp)
      have hnext : start + (k + 1) * size = start + k * size + p.length := by
        rw [hp]
        ring
      refine ih (fun r hr => hfull r (by simp [hr])) (k + 1) ⟨rest, ?_⟩ (by rw [hnext]; omega) _
      rw [hnext, ← List.drop_drop, hrest, List.drop_left]

/-- **What a batch touches** does not depend on how it is cut. -/
theorem touched_batch (hi : i.loadsMicroOps = false) (capacity : Int) {prior us later : List MicroOp}
    (hsmall : prior.length + us.length < 4294967296) (uop : Nat → MicroOp) :
    touched (prior ++ us ++ later) (batch capacity prior.length i us).instructions uop =
      us.flatMap fun u => (List.range i.loopIn.toNat).map fun j =>
        (u.dst.toNat + j * i.dstFactorIn.toNat, u.src.toNat + j * i.srcFactorIn.toNat) := by
  have hpos : 0 < (max capacity 1).toNat := by omega
  have hrest : ∃ rest, (prior ++ us ++ later).drop (prior.length + 0 * (max capacity 1).toNat) =
      (chunks (max capacity 1).toNat us).flatten ++ rest :=
    ⟨later, by simp [flatten_chunks]⟩
  have := touched_pieces hi (chunks_full hpos us) 0 hrest (by simpa [flatten_chunks] using hsmall) uop
  rwa [flatten_chunks] at this

/-- Micro-operations for which there is room are brought in at once. -/
theorem batch_one {capacity : Int} {us : List MicroOp} (start : Nat) (i : Instruction)
    (hne : us ≠ []) (hroom : us.length ≤ (max capacity 1).toNat) :
    batch capacity start i us =
      { instructions := [.load .uop 0 (UInt32.ofNat start) 1 (UInt32.ofNat us.length)
          (UInt32.ofNat us.length), { i with uopBegin := 0, uopEnd := UInt32.ofNat us.length }]
        microOps := us } := by
  have hpieces := chunks_one hroom hne
  unfold batch
  simp [hpieces]

/-- An instruction cannot say that it runs `2 ^ 32` micro-operations at once. -/
theorem touched_unsaid (hi : i.loadsMicroOps = false) {capacity : Int} {start : Nat}
    {us : List MicroOp} (hlen : us.length = 4294967296) (hcapacity : 4294967296 ≤ capacity)
    (uop : Nat → MicroOp) : touched table (batch capacity start i us).instructions uop = [] := by
  have hrun : { i with uopBegin := 0, uopEnd := 0 }.loadsMicroOps = false := hi
  have hcount : UInt32.ofNat 4294967296 = 0 := by decide
  rw [batch_one start i (List.ne_nil_of_length_pos (by omega)) (by omega)]
  simp only [hlen, hcount, touched, loadsMicroOps_load, hrun]
  simp [Instruction.touched]

end Batch

/-- **The sites of a sweep**: its micro-operations, repeated `n` times, go through the pairs. -/
theorem sweep_sites {vector : Bool} {ps : List RowPair} {us : List MicroOp} {n : Nat}
    (h : sweep vector ps = (us, n)) (hdst : ∀ p ∈ ps, 0 ≤ p.dst ∧ p.dst < 4294967296)
    (hsrc : vector = true → ∀ p ∈ ps, 0 ≤ p.src ∧ p.src < 4294967296)
    (hread : vector = false → ∀ p ∈ ps, p.src = 0) :
    (us.flatMap fun u => (List.range n).map fun j =>
      (u.dst.toNat + j, u.src.toNat + if vector then j else 0)) =
      ps.map fun p => (p.dst.toNat, if vector then p.src.toNat else 0) := by
  obtain ⟨rs, rfl, rfl, hlen, hn, -⟩ := sweep_runs hread h
  rw [List.flatMap_map, List.map_flatMap]
  refine List.flatMap_congr fun r hr => ?_
  have hstart : r.start ∈ rs.flatMap (Run.pairs vector) :=
    List.mem_flatMap.2 ⟨r, hr, Run.start_mem (hlen r hr ▸ hn)⟩
  obtain ⟨hd0, hd1⟩ := hdst _ hstart
  rw [Run.pairs, List.map_map, hlen r hr]
  refine List.map_congr_left fun j _ => ?_
  simp only [Function.comp_apply, RowPair.microOp, toNat_ofInt32 hd0 hd1, Prod.mk.injEq]
  refine ⟨by omega, ?_⟩
  cases vector with
  | false => rfl
  | true =>
    obtain ⟨hs0, hs1⟩ := hsrc rfl _ hstart
    simp only [if_true, toNat_ofInt32 hs0 hs1]
    omega

section Chain

variable {vector : Bool} {done : List Run} {current : Run} {last p : RowPair} {ps : List RowPair}

theorem runsFrom_chain (h : (last :: ps).IsChain fun p q => p.follows vector q = true) :
    runsFrom vector done current last ps =
      ({ current with length := current.length + ps.length } :: done).reverse := by
  induction ps generalizing current last with
  | nil => rfl
  | cons p ps ih =>
    obtain ⟨hfollows, hrest⟩ := List.isChain_cons_cons.1 h
    rw [runsFrom, if_pos hfollows, ih hrest, List.length_cons, Nat.add_assoc, Nat.add_comm 1]

/-- **Pairs that all follow each other** are one micro-operation. -/
theorem sweep_chain (h : (p :: ps).IsChain fun p q => p.follows vector q = true) :
    sweep vector (p :: ps) = ([p.microOp vector], ps.length + 1) := by
  rw [sweep, runs, runsFrom_chain h]
  simp [Nat.add_comm]

theorem runsFrom_apart (h : (last :: ps).IsChain fun p q => p.follows vector q = false) :
    runsFrom vector done current last ps = done.reverse ++ current :: ps.map fun p => ⟨p, 1⟩ := by
  induction ps generalizing done current last with
  | nil => simp [runsFrom]
  | cons p ps ih =>
    obtain ⟨hapart, hrest⟩ := List.isChain_cons_cons.1 h
    rw [runsFrom, if_neg (by rw [hapart]; exact Bool.false_ne_true), ih hrest]
    simp

/-- Pairs of which none follows the one before have a micro-operation each. -/
theorem sweep_apart (h : (p :: ps).IsChain fun p q => p.follows vector q = false) :
    sweep vector (p :: ps) = ((p :: ps).map (RowPair.microOp vector), 1) := by
  rw [sweep, runs, runsFrom_apart h]
  simp [Function.comp_def]

/-- No row is behind itself. -/
theorem follows_self (vector : Bool) (p : RowPair) : p.follows vector p = false := by
  unfold RowPair.follows
  rw [Bool.and_eq_false_iff]
  exact .inl (by rw [beq_eq_false_iff_ne]; omega)

/-- A pair that is repeated has a micro-operation for each time. -/
theorem sweep_replicate (vector : Bool) (p : RowPair) (n : Nat) :
    sweep vector (List.replicate (n + 1) p) = (List.replicate (n + 1) (p.microOp vector), 1) := by
  have hapart : (List.replicate (n + 1) p).IsChain fun p q => p.follows vector q = false :=
    List.isChain_replicate_of_rel _ (follows_self vector p)
  rw [List.replicate_succ] at hapart ⊢
  rw [sweep_apart hapart, ← List.replicate_succ, List.map_replicate]

end Chain

namespace StepLowering

/-- **The code of an operation touches its sites**, in their order and as often as they occur; with
an immediate, row zero stands for the one that is not read. The rows are below `2 ^ 32`, and so
have to be the length of the inner loop and the number of micro-operations in the table: an
instruction counts both with 32 bits. -/
theorem sweep_exact {r : Resolved} {ps : List RowPair} {us : List MicroOp} {n : Nat}
    (hsweep : sweep (!r.useImm) ps = (us, n))
    (hdst : ∀ p ∈ ps, 0 ≤ p.dst ∧ p.dst < 4294967296)
    (hsrc : r.useImm = false → ∀ p ∈ ps, 0 ≤ p.src ∧ p.src < 4294967296)
    (hloop : n < 4294967296) (capacity : Int) {prior later : List MicroOp}
    (htable : prior.length + us.length < 4294967296) (uop : Nat → MicroOp) :
    let code := batch capacity prior.length (aluInstruction r n) us
    code.microOps = us ∧
    touched (prior ++ code.microOps ++ later) code.instructions uop =
      ps.map (fun p => (p.dst.toNat, if r.useImm then 0 else p.src.toNat)) ∧
    ∀ (k : StepLowering) (sites : List Site), k.env.schedule.caps.uop = capacity →
      sites.mapM (k.siteRows r) = .ok ps → k.operation prior.length (.alu r sites) = .ok code := by
  intro code
  refine ⟨rfl, ?_, fun k sites hcap hsites => ?_⟩
  · refine (touched_batch rfl capacity htable uop).trans ?_
    have hinner : (aluInstruction r n).loopIn.toNat = n := toNat_ofNat32 hloop
    have hfactor : (aluInstruction r n).srcFactorIn.toNat = if r.useImm then 0 else 1 := by
      unfold aluInstruction
      split <;> rfl
    rw [hinner, hfactor, show (aluInstruction r n).dstFactorIn.toNat = 1 from rfl]
    cases himm : r.useImm with
    | false =>
      rw [himm] at hsweep
      simpa using sweep_sites hsweep hdst (fun _ => hsrc himm) nofun
    | true =>
      rw [himm, Bool.not_true, ← sweep_unread] at hsweep
      simpa [RowPair.unread, Function.comp_def] using
        sweep_sites hsweep (by simpa [RowPair.unread] using hdst) nofun (by simp [RowPair.unread])
  · rw [operation, hsites, Outcome.ok_bind, hsweep, hcap]
    rfl

/-- An addition of rows. -/
def adding : Resolved := ⟨0, "ADD", .add, false, 0, []⟩

/-- Two runs of two pairs, of which the second starts with the last pair of the first. -/
def overlapping : List RowPair := [⟨0, 4⟩, ⟨1, 5⟩, ⟨1, 5⟩, ⟨2, 6⟩]

theorem overlapping_exact :
    sweep true overlapping = ([{ dst := 0, src := 4 }, { dst := 1, src := 5 }], 2) ∧
    touched [{ dst := 0, src := 4 }, { dst := 1, src := 5 }]
      (batch 1 0 (aluInstruction adding 2) [{ dst := 0, src := 4 }, { dst := 1, src := 5 }]).instructions
      (fun _ => {}) = [(0, 4), (1, 5), (1, 5), (2, 6)] := by
  have hsweep : sweep true overlapping = ([{ dst := 0, src := 4 }, { dst := 1, src := 5 }], 2) := by
    decide
  have hsmall : ∀ p ∈ overlapping, (0 ≤ p.dst ∧ p.dst < 4294967296) ∧
      0 ≤ p.src ∧ p.src < 4294967296 := by
    decide
  exact ⟨hsweep, (@sweep_exact adding overlapping _ 2 hsweep (fun p hp => (hsmall p hp).1)
    (fun _ p hp => (hsmall p hp).2) (by decide) 1 [] [] (by decide) (fun _ => {})).2.1⟩

/-- An operation with an immediate. -/
def clamping : Resolved := ⟨0, "MAX_IMM", .max, true, 0, []⟩

/-- The rows below `n`. -/
def firstRows (n : Nat) : List RowPair := (List.range n).map fun k : Nat => ⟨k, 0⟩

/-- The rows below `n` are one micro-operation. -/
theorem sweep_firstRows (n : Nat) : sweep false (firstRows (n + 1)) = ([{}], n + 1) := by
  have hfollows : (firstRows (n + 1)).IsChain fun p q => p.follows false q = true := by
    rw [firstRows, List.isChain_map, List.isChain_range]
    intro k _
    simp [RowPair.follows]
  have hfirst : firstRows (n + 1) = ⟨0, 0⟩ :: (List.range n).map fun k : Nat => ⟨k + 1, 0⟩ := by
    rw [firstRows, List.range_succ_eq_map, List.map_cons, List.map_map]
    rfl
  rw [hfirst] at hfollows ⊢
  rw [sweep_chain hfollows, List.length_map, List.length_range]
  rfl

/-- **Where counts wrap**: through all the `2 ^ 32` rows there are the inner loop goes zero times,
and of `2 ^ 32` micro-operations that are brought into the scratchpad at once none runs. -/
theorem allRows_untouched :
    (sweep false (firstRows 4294967296) = ([{}], 4294967296) ∧
      (∀ p ∈ firstRows 4294967296, 0 ≤ p.dst ∧ p.dst < 4294967296) ∧
      firstRows 4294967296 ≠ [] ∧
      touched [{}] (batch 1 0 (aluInstruction clamping 4294967296) [{}]).instructions
        (fun _ => {}) = []) ∧
    (sweep false (List.replicate 4294967296 ⟨0, 0⟩) = (List.replicate 4294967296 {}, 1) ∧
      (touched (List.replicate 4294967296 {})
        (batch 4294967296 0 (aluInstruction clamping 1) (List.replicate 4294967296 {})).instructions
          fun _ => {}) = []) := by
  refine ⟨⟨sweep_firstRows 4294967295, fun p hp => ?_, fun hnil => ?_, by decide⟩,
    sweep_replicate false ⟨0, 0⟩ 4294967295, touched_unsaid rfl List.length_replicate (le_refl _) _⟩
  · obtain ⟨k, hk, rfl⟩ := List.mem_map.1 hp
    have := List.mem_range.1 hk
    exact ⟨by simp, by simp; omega⟩
  · have hlength : (firstRows 4294967296).length = 4294967296 := by
      rw [firstRows, List.length_map, List.length_range]
    rw [hnil, List.length_nil] at hlength
    cases hlength

end StepLowering

end Tessera
