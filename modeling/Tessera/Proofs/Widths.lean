import Tessera.Proofs.Codec
import Tessera.Proofs.Computing
import Tessera.Proofs.Lowerable
import Tessera.Proofs.MicroOps

/-!
# The widths of the fields of a stream

The scratchpads bound what the code of a schedule counts: rows, weight blocks, blocks that are
cleared, rows of zeros. They do not bound how far rows lie apart in memory, nor how many
micro-operations an operation has.

* `Instruction.trimmed`: an instruction without the fields that nothing bounds.
* `Instruction.Confined`: every other field fits its width.
* `moves_confined`, `batch_confined`: transfers and micro-operations.
* `Lowering.Addressable`: what the scratchpads of a lowering keep to.
* `StepLowering.loads_confined`, `.computes_confined`, `.stores_confined`: the groups of a step.
-/

namespace Tessera

namespace Instruction

/-- The instruction with zeros for the numbers that no scratchpad bounds: how far the rows of a
transfer lie apart, and how many micro-operations are brought in or run. -/
def trimmed (i : Instruction) : Instruction :=
  match i.opcode with
  | .load | .store => { i with xStride := 0, xSize := if i.loadsMicroOps then 0 else i.xSize }
  | .gemm | .alu => { i with uopEnd := 0 }
  | _ => i

/-- The instruction has no fields but those of its opcode, and these fit their widths apart from
the numbers that no scratchpad bounds; micro-operations are brought in from one row. -/
structure Confined (i : Instruction) : Prop where
  fields : i.trimmed.Encodable
  own : i.visible = i
  table : i.loadsMicroOps = true → i.xSize = i.xStride

variable {i : Instruction}

/-- **Such an instruction can be written** unless one of these numbers is too large. -/
theorem Confined.encodable_iff (h : i.Confined) : i.Encodable ↔
    (i.opcode = .load ∨ i.opcode = .store → i.xStride.toNat < 2 ^ 16) ∧
      (i.opcode = .gemm ∨ i.opcode = .alu → i.uopEnd.toNat < 2 ^ 14) := by
  have hfields := h.fields
  have htable := h.table
  unfold trimmed at hfields
  unfold Encodable at hfields ⊢
  cases ho : i.opcode with
  | unassigned c hc => simp only [ho] at hfields
  | finish => simpa [ho] using hfields
  | gemm =>
    simp only [ho] at hfields ⊢
    exact ⟨fun hfit => ⟨by simp, fun _ => hfit.1.uopEnd⟩,
      fun hfit => ⟨{ hfields.1 with uopEnd := hfit.2 (Or.inl trivial) }, { hfields.2 with }⟩⟩
  | alu =>
    simp only [ho] at hfields ⊢
    exact ⟨fun hfit => ⟨by simp, fun _ => hfit.1.uopEnd⟩,
      fun hfit => ⟨{ hfields.1 with uopEnd := hfit.2 (Or.inr trivial) }, { hfields.2 with }⟩⟩
  | load =>
    simp only [ho] at hfields ⊢
    refine ⟨fun hfit => ⟨fun _ => hfit.xStride, by simp⟩, fun hfit => ?_⟩
    have hstride := hfit.1 (Or.inl trivial)
    have hsize : i.xSize.toNat < 2 ^ 16 := by
      cases hl : i.loadsMicroOps with
      | true => rwa [htable hl]
      | false => simpa [hl] using hfields.xSize
    exact { hfields with xStride := hstride, xSize := hsize }
  | store =>
    have hl : i.loadsMicroOps = false := by simp [loadsMicroOps, ho]
    simp only [ho, hl] at hfields ⊢
    exact ⟨fun hfit => ⟨fun _ => hfit.xStride, by simp⟩,
      fun hfit => { hfields with xStride := hfit.1 (Or.inr trivial) }⟩

/-- Flags have fields of their own. -/
theorem Confined.flagged (h : i.Confined) (f : Flags) : (i.flagged f).Confined := by
  obtain ⟨hfields, hown, htable⟩ := h
  refine ⟨?_, ?_, htable⟩
  · rcases i with ⟨_ | _ | _ | _ | _ | _⟩
    case unassigned => exact hfields
    case gemm => exact ⟨{ hfields.1 with }, { hfields.2 with }⟩
    case alu => exact ⟨{ hfields.1 with }, { hfields.2 with }⟩
    all_goals exact { hfields with }
  · have hvisible : (i.flagged f).visible = i.visible.flagged f := by
      rcases i with ⟨_ | _ | _ | _ | _ | _⟩ <;> rfl
    rw [hvisible, hown]

/-- Where the table of micro-operations stands makes no difference. -/
theorem Confined.rebase (h : i.Confined) (base : UInt64) : (i.rebase base).Confined := by
  obtain ⟨hfields, hown, htable⟩ := h
  unfold Instruction.rebase
  split
  · rename_i hl
    generalize (i.tableAddress base).toUInt32 = a
    have ho : i.opcode = .load := by
      unfold loadsMicroOps at hl
      simp only [Bool.and_eq_true, beq_iff_eq] at hl
      exact hl.1.1
    have hvisible : { i with dramBase := a }.visible = { i.visible with dramBase := a } := by
      rcases i with ⟨_ | _ | _ | _ | _ | _⟩
      case load => rfl
      all_goals cases ho
    refine ⟨?_, by rw [hvisible, hown], htable⟩
    rcases i with ⟨_ | _ | _ | _ | _ | _⟩
    case load => exact { hfields with dramBase := UInt32.toNat_lt _ }
    all_goals cases ho
  · exact ⟨hfields, hown, htable⟩

end Instruction

/-- What a transfer counts fits the fields of an instruction. -/
structure Transfer.Confined (t : Transfer) : Prop where
  sram : 0 ≤ t.sram ∧ t.sram < 2048
  size : 0 ≤ t.size ∧ t.size ≤ 64
  pad : 0 ≤ t.pad ∧ t.pad < 16

/-- An instruction that moves data has room for what a transfer counts. -/
structure Mover.Confined (m : Mover) : Prop where
  plain : ∀ sram dram y x stride : UInt32, sram.toNat < 2 ^ 16 → y.toNat < 2 ^ 16 →
    x.toNat < 2 ^ 16 → (m sram dram y x stride).Confined
  padded : ∀ sram dram y x stride pad : UInt32, sram.toNat < 2 ^ 16 → y.toNat < 2 ^ 16 →
    x.toNat < 2 ^ 16 → pad.toNat < 2 ^ 4 → { m sram dram y x stride with xPadRight := pad }.Confined

section Moves

/-- A field that is not used fits. -/
theorem zero_fits (k : Nat) : (0 : UInt32).toNat < 2 ^ k := by
  rw [show (0 : UInt32).toNat = 0 from rfl]
  positivity

theorem load_confined {buffer : Buffer} (hb : buffer.code.toNat < 2 ^ 3) (hne : buffer ≠ .uop) :
    Mover.Confined (.load buffer) := by
  have hpad : ∀ sram dram y x stride pad : UInt32, sram.toNat < 2 ^ 16 → y.toNat < 2 ^ 16 →
      x.toNat < 2 ^ 16 → pad.toNat < 2 ^ 4 →
      { Instruction.load buffer sram dram y x stride with xPadRight := pad }.Confined := by
    intro sram dram y x stride pad hsram hy hx hp
    have hl : { Instruction.load buffer sram dram y x stride with xPadRight := pad }.loadsMicroOps =
        false := by
      simp [Instruction.loadsMicroOps, Instruction.load, hne]
    refine ⟨?_, rfl, fun h => by rw [hl] at h; cases h⟩
    unfold Instruction.trimmed
    rw [hl]
    exact ⟨hb, hsram, UInt32.toNat_lt _, hy, hx, zero_fits 16, zero_fits 4, zero_fits 4, zero_fits 4, hp⟩
  exact ⟨fun sram dram y x stride h1 h2 h3 => hpad sram dram y x stride 0 h1 h2 h3 (zero_fits 4), hpad⟩

theorem store_confined : Mover.Confined .store := by
  have hpad : ∀ sram dram y x stride pad : UInt32, sram.toNat < 2 ^ 16 → y.toNat < 2 ^ 16 →
      x.toNat < 2 ^ 16 → pad.toNat < 2 ^ 4 →
      { Instruction.store sram dram y x stride with xPadRight := pad }.Confined := by
    intro sram dram y x stride pad hsram hy hx hp
    have hb : Buffer.out.code.toNat < 2 ^ 3 := by decide
    exact ⟨⟨hb, hsram, UInt32.toNat_lt _, hy, hx, zero_fits 16, zero_fits 4, zero_fits 4, zero_fits 4,
      hp⟩, rfl, fun h => by cases h⟩
  exact ⟨fun sram dram y x stride h1 h2 h3 => hpad sram dram y x stride 0 h1 h2 h3 (zero_fits 4), hpad⟩

/-- **The instructions of some transfers.** Those that are one instruction lie within the
scratchpad, so there are not more of them than it has rows. -/
theorem moves_confined {m : Mover} (hm : m.Confined) {full slot : Int} (hfull : 0 ≤ full ∧ full ≤ 64)
    (hslot : 1 ≤ slot) {ts : List Transfer} (hts : ∀ t ∈ ts, t.Confined) :
    ∀ i ∈ moves m full slot ts, i.Confined := by
  intro i hi
  unfold moves at hi
  split at hi
  · rename_i hst
    split at hi
    · rename_i t u rest
      have hsram := fun v hv => (hts v hv).sram
      have hlen := (strided_inStride hst fun v hv => by have := hsram v hv; omega).length_le
        (n := 2048) hslot hsram
      have ht := (hts t List.mem_cons_self).sram
      rw [List.mem_singleton.1 hi]
      refine hm.plain _ _ _ _ _ ?_ ?_ ?_
      · rw [toNat_ofInt32 ht.1 (by omega)]
        omega
      · rw [toNat_ofNat32 (by omega)]
        omega
      · rw [toNat_ofInt32 hfull.1 (by omega)]
        omega
    · cases hi
  · obtain ⟨t, ht, rfl⟩ := List.mem_map.1 hi
    obtain ⟨hsram, hsize, hpad⟩ := hts t ht
    refine hm.padded _ _ _ _ _ _ ?_ (by decide) ?_ ?_
    · rw [toNat_ofInt32 hsram.1 (by omega)]
      omega
    · rw [toNat_ofInt32 hsize.1 (by omega)]
      omega
    · rw [toNat_ofInt32 hpad.1 (by omega)]
      omega

end Moves

/-- Code whose instructions and micro-operations fit, apart from what nothing bounds. -/
structure Code.Confined (c : Code) : Prop where
  instructions : ∀ i ∈ c.instructions, i.Confined
  microOps : ∀ u ∈ c.microOps, u.Confined

/-- **The code of a batch.** -/
theorem batch_confined {i : Instruction} (hi : ∀ n, { i with uopBegin := 0, uopEnd := n }.Confined)
    {us : List MicroOp} (hus : ∀ u ∈ us, u.Confined) (capacity : Int) (start : Nat) :
    (batch capacity start i us).Confined := by
  refine ⟨fun j hj => ?_, hus⟩
  obtain ⟨⟨piece, k⟩, -, hj⟩ := List.mem_flatMap.1 hj
  rcases List.mem_cons.1 hj with rfl | hj
  · have hb : Buffer.uop.code.toNat < 2 ^ 3 := by decide
    have hy : (1 : UInt32).toNat < 2 ^ 16 := by decide
    have hl : ∀ a n : UInt32, (Instruction.load .uop 0 a 1 n n).loadsMicroOps = true :=
      fun a n => by simp [Instruction.loadsMicroOps, Instruction.load, Instruction.isNop]
    refine ⟨?_, rfl, fun _ => rfl⟩
    unfold Instruction.trimmed
    simp only [hl]
    exact ⟨hb, zero_fits 16, UInt32.toNat_lt _, hy, zero_fits 16, zero_fits 16, zero_fits 4,
      zero_fits 4, zero_fits 4, zero_fits 4⟩
  · rw [List.mem_singleton.1 hj]
    exact hi _

section Sweep

/-- The micro-operations of a sweep are those of pairs of rows. -/
theorem sweep_starts {vector : Bool} {ps : List RowPair} {us : List MicroOp} {n : Nat}
    (hsrc : vector = false → ∀ p ∈ ps, p.src = 0) (h : sweep vector ps = (us, n)) :
    ∀ u ∈ us, ∃ p ∈ ps, u = p.microOp vector := by
  obtain ⟨rs, rfl, rfl, hlen, hn, -⟩ := sweep_runs hsrc h
  intro u hu
  obtain ⟨r, hr, rfl⟩ := List.mem_map.1 hu
  exact ⟨r.start, List.mem_flatMap.2 ⟨r, hr, Run.start_mem ((hlen r hr) ▸ hn)⟩, rfl⟩

end Sweep

/-- **The rows of a proper step** can be addressed by a micro-operation. -/
theorem Step.Proper.rowCount_le {d : Shaped} {caps : Capacities} {st : Step} {b : Nat}
    (hst : st.Proper d caps) (hcaps : caps.Within b) (hside : d.b = b) : st.rowCount b ≤ 2048 := by
  have hroom := hst.room
  have hrows := hcaps.acc_rows
  unfold Step.rowCount
  cases hg : st.residentGrain with
  | vector =>
    simp only [hg, hside] at hroom ⊢
    omega
  | block =>
    simp only [hg] at hroom ⊢
    have hmul := Int.mul_le_mul_of_nonneg_right hroom (Int.natCast_nonneg b)
    exact_mod_cast le_trans hmul hrows

/-- A place in a list of blocks, and the rows it takes. -/
theorem position_rows {xs : List Int} {v : Int} {n b : Nat} (h : (positions xs)[v]? = some n)
    (hroom : xs.length * b ≤ 2048) : n * b + b ≤ 2048 := by
  rw [positions_eq] at h
  have hlt := idxOf?_lt h
  have hmul := row_room b (show n < xs.length by omega)
  omega

namespace StepLowering

section Blocks

variable {k : StepLowering} {b : Nat} {what : String} {xs : List Int} {offset : Int}

/-- **The transfer of a block** that is moved as its rows. -/
theorem block_rows_confined (hb : k.b = b) (hpos : 1 ≤ b) (hle : b ≤ 64)
    (hroom : xs.length * b ≤ 2048) {o : Placed} {t : Tensor} {id : Int} {tr : Transfer}
    (hheight : ∀ kk ∈ t.blocks.toList, 0 ≤ kk.height ∧ kk.height ≤ b)
    (h : k.block what (positions xs) offset o t true id = .ok tr) : tr.Confined := by
  obtain ⟨position, l, dram, kk, hposition, -, -, hkk, hpad, rfl⟩ := block_rows_eq_ok.1 h
  have hrows := position_rows hposition hroom
  have hshape := hheight kk (List.mem_of_getElem? (by simpa using (entry_eq_ok.1 hkk).2))
  unfold padLimit at hpad
  have hsram : (position : Int) * b = (position * b : Nat) := by push_cast; rfl
  refine ⟨?_, ?_, ?_⟩ <;> simp only [hb, hsram] at hpad ⊢ <;> omega

/-- The transfer of a block that is moved as one unit. -/
theorem block_whole_confined (hroom : xs.length ≤ 2048) {o : Placed} {t : Tensor} {id : Int}
    {tr : Transfer} (h : k.block what (positions xs) offset o t false id = .ok tr) :
    tr.Confined := by
  obtain ⟨position, l, dram, hposition, -, -, rfl⟩ := block_whole_eq_ok.1 h
  have hrows := position_rows (b := 1) hposition (by omega)
  exact ⟨by simp only; omega, by simp, by simp⟩

/-- The transfers of some blocks are those of each of them. -/
theorem mem_blocks {ids : List Int} {resident : Positions} {o : Option Placed} {t : Option Tensor}
    {rows : Bool} {ts : List Transfer} (h : k.blocks what ids resident offset o t rows = .ok ts)
    {tr : Transfer} (htr : tr ∈ ts) :
    ∃ o' t', t = some t' ∧ ∃ id ∈ ids, k.block what resident offset o' t' rows id = .ok tr := by
  obtain ⟨-, rfl⟩ | ⟨o', t', -, rfl, hts⟩ := blocks_eq_ok.1 h
  · cases htr
  · exact ⟨o', t', rfl, forall₂_right (mapM_eq_ok.1 hts) htr⟩

end Blocks

end StepLowering

/-- A lowering whose scratchpads can be addressed: no block is taller than a block can be, and
every operation has a code. -/
structure Lowering.Addressable (env : Lowering) (caps : Capacities) (b xr xc : Nat) : Prop where
  complete : env.Complete b xr xc
  within : caps.Within b
  le : b ≤ 64
  short : ∀ a, env.data.a = some a → ∀ k ∈ a.blocks.toList, 0 ≤ k.height ∧ k.height ≤ b
  coded : ∀ r ∈ env.data.ops, r.op.code.toNat < 2 ^ 3

namespace StepLowering

section Groups

variable {env : Lowering} {st : Step} {caps : Capacities} {b xr xc i : Nat}

/-- A full block is not taller than a block can be. -/
theorem tall_height (henv : env.Complete b xr xc) {t : Tensor}
    (ht : t = env.data.x ∨ env.data.y = some t ∨ t = env.data.c) :
    ∀ k ∈ t.blocks.toList, 0 ≤ k.height ∧ k.height ≤ b := by
  intro k hk
  have := henv.tall t ht k hk
  omega

/-- **The loads of a proper step.** -/
theorem loads_confined (henv : env.Addressable caps b xr xc) (hst : st.Proper env.data caps)
    {insns : List Instruction} (h : (env.stepOf i st).loads = .ok insns) :
    ∀ j ∈ insns, j.Confined := by
  have hpos := henv.complete.pos
  have hle := henv.le
  have hside : (env.stepOf i st).b = b := henv.complete.side
  obtain ⟨inp, hinp, h⟩ := Outcome.bind_eq_ok.1 h
  obtain ⟨wgt, hwgt, h⟩ := Outcome.bind_eq_ok.1 h
  obtain rfl := Outcome.pure_eq_ok.1 h
  intro j hj
  rcases List.mem_append.1 hj with hj | hj
  · refine moves_confined (load_confined (by decide) (by decide)) (by omega) (by omega) (fun tr htr => ?_) j hj
    obtain ⟨o, a, ha, id, -, hid⟩ := mem_blocks hinp htr
    have hroom : st.inpResident.length * b ≤ 2048 := by
      rw [hst.inputs.1]
      have hmul := Int.mul_le_mul_of_nonneg_right hst.inputs.2 (Int.natCast_nonneg b)
      exact_mod_cast le_trans hmul henv.within.inp_rows
    exact block_rows_confined hside hpos hle hroom (henv.short a ha) hid
  · refine moves_confined (load_confined (by decide) (by decide)) (by omega) le_rfl (fun tr htr => ?_) j hj
    obtain ⟨o, w, -, id, -, hid⟩ := mem_blocks hwgt htr
    have hroom := hst.weights.2
    have hwgt := henv.within.wgt_le
    exact block_whole_confined (by omega) hid

/-- The transfer of a vector that stands in the accumulator. -/
theorem vector_confined (hroom : st.sramResident.length ≤ 2048) {v : Int} {tr : Transfer}
    (h : (env.stepOf i st).vector v = .ok tr) : tr.Confined := by
  obtain ⟨slot, q, l, r, dram, hslot, -, -, -, -, rfl⟩ := vector_eq_ok.1 h
  have hrows := position_rows (b := 1) hslot (by omega)
  exact ⟨by simp only; omega, by simp, by simp⟩

theorem rows_block (henv : env.Addressable caps b xr xc) (hst : st.Proper env.data caps)
    (hg : st.residentGrain = .block) : st.sramResident.length * b ≤ 2048 := by
  have := hst.rowCount_le henv.within henv.complete.side
  rwa [Step.rowCount, hg] at this

theorem rows_vector (henv : env.Addressable caps b xr xc) (hst : st.Proper env.data caps)
    (hg : st.residentGrain = .vector) : st.sramResident.length ≤ 2048 := by
  have := hst.rowCount_le henv.within henv.complete.side
  rwa [Step.rowCount, hg] at this

/-- The loads of the accumulator. -/
theorem accLoads_confined (henv : env.Addressable caps b xr xc) (hst : st.Proper env.data caps)
    {insns : List Instruction} (h : (env.stepOf i st).accLoads = .ok insns) :
    ∀ j ∈ insns, j.Confined := by
  have hpos := henv.complete.pos
  have hle := henv.le
  have hside : (env.stepOf i st).b = b := henv.complete.side
  rw [accLoads_eq_ok, stepOf_step] at h
  cases hg : st.residentGrain with
  | vector =>
    rw [hg] at h
    obtain ⟨ts, hts, rfl⟩ := h
    refine moves_confined (load_confined (by decide) (by decide)) (by omega) le_rfl fun tr htr => ?_
    obtain ⟨v, -, hv⟩ := forall₂_right (mapM_eq_ok.1 hts) htr
    exact vector_confined (rows_vector henv hst hg) hv
  | block =>
    rw [hg] at h
    obtain ⟨ts, hts, rfl⟩ := h
    refine moves_confined (load_confined (by decide) (by decide)) (by omega) (by omega) fun tr htr => ?_
    obtain ⟨o, t, ht, id, -, hid⟩ := mem_blocks hts htr
    obtain rfl := Option.some.inj ht
    exact block_rows_confined hside hpos hle (rows_block henv hst hg)
      (tall_height henv.complete (Or.inl rfl)) hid

/-- The loads of the second accumulator. -/
theorem accBisLoads_confined (henv : env.Addressable caps b xr xc) (hst : st.Proper env.data caps)
    {insns : List Instruction} (h : (env.stepOf i st).accBisLoads = .ok insns) :
    ∀ j ∈ insns, j.Confined := by
  have hpos := henv.complete.pos
  have hle := henv.le
  have hside : (env.stepOf i st).b = b := henv.complete.side
  obtain ⟨ts, hts, h⟩ := Outcome.bind_eq_ok.1 h
  obtain rfl := Outcome.pure_eq_ok.1 h
  refine moves_confined (load_confined (by decide) (by decide)) (by omega) (by omega) fun tr htr => ?_
  obtain ⟨o, t, ht, id, hmem, hid⟩ := mem_blocks hts htr
  have hg := (hst.second (List.ne_nil_of_mem hmem)).1
  exact block_rows_confined hside hpos hle (rows_block henv hst hg)
    (tall_height henv.complete (Or.inr (Or.inl ht))) hid

/-- **The micro-operation of a product.** -/
theorem product_confined (henv : env.Addressable caps b xr xc) (hst : st.Proper env.data caps)
    {c a w : Int} (hop : .gemm c a w ∈ st.ops) {u : MicroOp}
    (h : (env.stepOf i st).product (.gemm c a w) = .ok u) : u.Confined := by
  have hpos := henv.complete.pos
  have hside : (env.stepOf i st).b = b := henv.complete.side
  have hwgt := le_trans hst.weights.2 henv.within.wgt_le
  have hinp : st.inpResident.length * b ≤ 2048 := by
    rw [hst.inputs.1]
    have hmul := Int.mul_le_mul_of_nonneg_right hst.inputs.2 (Int.natCast_nonneg b)
    exact_mod_cast le_trans hmul henv.within.inp_rows
  obtain ⟨cpos, apos, wpos, hcpos, hapos, hwpos, rfl⟩ := product_eq_ok.1 h
  have hc := position_rows hcpos (rows_block henv hst (hst.gemm c a w hop).1)
  have ha := position_rows hapos hinp
  rw [stepOf_wgt, positions_eq] at hwpos
  have hw := idxOf?_lt hwpos
  have hrow : ∀ n : Nat, n * b + b ≤ 2048 → (UInt32.ofInt ((n : Int) * (env.stepOf i st).b)).toNat < 2 ^ 11 := by
    intro n hn
    rw [hside, show (n : Int) * b = (n * b : Nat) by push_cast; rfl, toNat_ofInt32 (by omega) (by omega)]
    omega
  refine ⟨hrow cpos hc, hrow apos ha, ?_⟩
  rw [toNat_ofNat32 (by omega)]
  omega

/-- **The row of a vector** can be addressed. -/
theorem row_lt (henv : env.Addressable caps b xr xc) (hst : st.Proper env.data caps) {v n : Int}
    (h0 : 0 ≤ v) (hsmall : v < 9223372036854775808) (h : (env.stepOf i st).row v = .ok n) :
    0 ≤ n ∧ n < 2048 := by
  have hpos := henv.complete.pos
  have hside : (env.stepOf i st).b = b := henv.complete.side
  unfold row at h
  simp only [stepOf_step, stepOf_sram, hside] at h
  cases hg : st.residentGrain with
  | vector =>
    simp only [hg] at h
    split at h
    · rename_i k hk
      have hrows := position_rows (b := 1) hk (by have := rows_vector henv hst hg; omega)
      obtain rfl := Outcome.pure_eq_ok.1 h
      omega
    · cases h
  | block =>
    simp only [hg, quotient_small h0 hsmall (show (0 : Int) < b by omega),
      remainder_small h0 (show (0 : Int) < b by omega), Outcome.ok_bind] at h
    split at h
    · rename_i k hk
      have hrows := position_rows hk (rows_block henv hst hg)
      obtain rfl := Outcome.pure_eq_ok.1 h
      have hmod := Int.emod_nonneg v (show (b : Int) ≠ 0 by omega)
      have hlt := Int.emod_lt_of_pos v (show (0 : Int) < b by omega)
      have hmul : (k : Int) * b = (k * b : Nat) := by push_cast; rfl
      omega
    · cases h

/-- The rows of a site can be addressed. -/
theorem siteRows_lt (henv : env.Addressable caps b xr xc) (hst : st.Proper env.data caps)
    {r : Resolved} (hr : r ∈ env.data.ops) {s : Site} (hs : s ∈ r.sites) {p : RowPair}
    (h : (env.stepOf i st).siteRows r s = .ok p) :
    (0 ≤ p.dst ∧ p.dst < 2048) ∧ (0 ≤ p.src ∧ p.src < 2048) ∧ (r.useImm = true → p.src = 0) := by
  have hfew := henv.complete.few
  have hon := henv.complete.sites r hr
  have hdst := hon.dst s hs
  unfold siteRows at h
  obtain ⟨dst, hd, h⟩ := Outcome.bind_eq_ok.1 h
  have hdst := row_lt henv hst hdst.1 (by omega) hd
  cases himm : r.useImm with
  | true =>
    rw [himm] at h
    obtain rfl := Outcome.pure_eq_ok.1 h
    exact ⟨hdst, by simp, fun _ => rfl⟩
  | false =>
    simp only [himm, Bool.false_eq_true, if_false] at h
    obtain ⟨src, hs', h⟩ := Outcome.bind_eq_ok.1 h
    obtain rfl := Outcome.pure_eq_ok.1 h
    have hsrc := hon.src himm s hs
    exact ⟨hdst, row_lt henv hst hsrc.1 (by split at hsrc <;> omega) hs', by simp⟩

/-- The instruction of an operation. -/
theorem aluInstruction_confined {r : Resolved} (hcode : r.op.code.toNat < 2 ^ 3)
    (himm : -32768 ≤ r.imm ∧ r.imm < 32768) {loop : Nat} (hloop : loop ≤ 2048) (n : UInt32) :
    { aluInstruction r loop with uopBegin := 0, uopEnd := n }.Confined := by
  have hone : (1 : UInt32).toNat < 2 ^ 14 := by decide
  have hstep : (1 : UInt32).toNat < 2 ^ 11 := by decide
  refine ⟨⟨⟨zero_fits 13, zero_fits 14, hone, ?_, zero_fits 11, hstep, zero_fits 11, ?_⟩,
    ⟨hcode, ?_, ?_⟩⟩, rfl, fun hl => by cases hl⟩
  · show (UInt32.ofNat loop).toNat < 2 ^ 14
    rw [toNat_ofNat32 (by omega)]
    omega
  · show (if r.useImm then (0 : UInt32) else 1).toNat < 2 ^ 11
    split
    · exact zero_fits 11
    · exact hstep
  · show -2 ^ 15 ≤ (Int32.ofInt r.imm).toInt
    rw [Int32.toInt_ofInt_of_le (by omega) (by omega)]
    omega
  · show (Int32.ofInt r.imm).toInt < 2 ^ 15
    rw [Int32.toInt_ofInt_of_le (by omega) (by omega)]
    omega

/-- **The code of an operation.** -/
theorem operation_confined (henv : env.Addressable caps b xr xc) (hst : st.Proper env.data caps)
    {op : StepOp} (hop : op ∈ st.aluOps) {start : Nat} {c : Code}
    (h : (env.stepOf i st).operation start op = .ok c) : c.Confined := by
  obtain ⟨hgemm, hmem⟩ := hst.split.2 op hop
  cases op with
  | gemm c a w => cases hgemm
  | alu r sites =>
    obtain ⟨hr, hsites⟩ := hst.alu r sites hmem
    have himm := (henv.complete.sites r hr).imm
    obtain ⟨pairs, hpairs, h⟩ := Outcome.bind_eq_ok.1 h
    have hall : ∀ p ∈ pairs, (0 ≤ p.dst ∧ p.dst < 2048) ∧ (0 ≤ p.src ∧ p.src < 2048) ∧
        (r.useImm = true → p.src = 0) := by
      intro p hp
      obtain ⟨s, hs, hsp⟩ := forall₂_right (mapM_eq_ok.1 hpairs) hp
      exact siteRows_lt henv hst hr (hsites s hs).1 hsp
    have hsrc : (!r.useImm) = false → ∀ p ∈ pairs, p.src = 0 := fun hv p hp =>
      (hall p hp).2.2 (by simpa using hv)
    obtain ⟨⟨us, n⟩, hsweep⟩ : ∃ q, sweep (!r.useImm) pairs = q := ⟨_, rfl⟩
    rw [hsweep] at h
    obtain rfl := Outcome.pure_eq_ok.1 h
    have hloop : n ≤ 2048 :=
      sweep_loop_le hsrc (by omega) (fun p hp => by have := hall p hp; omega) hsweep
    have hword : ∀ x : Int, 0 ≤ x ∧ x < 2048 → (UInt32.ofInt x).toNat < 2 ^ 11 := by
      intro x hx
      rw [toNat_ofInt32 hx.1 (by omega)]
      omega
    refine batch_confined (i := aluInstruction r n)
      (aluInstruction_confined (henv.coded r hr) himm hloop) (fun u hu => ?_) _ _
    obtain ⟨p, hp, rfl⟩ := sweep_starts hsrc hsweep u hu
    obtain ⟨hd, hs, -⟩ := hall p hp
    refine ⟨hword _ hd, ?_, zero_fits 10⟩
    unfold RowPair.microOp
    simp only
    split
    · exact hword _ hs
    · exact zero_fits 11

/-- The instruction of a product. -/
theorem gemmInstruction_confined {b : Nat} (hle : b ≤ 64) (n : UInt32) :
    { gemmInstruction b with uopBegin := 0, uopEnd := n }.Confined := by
  have hone : (1 : UInt32).toNat < 2 ^ 14 := by decide
  have hstep : (1 : UInt32).toNat < 2 ^ 11 := by decide
  refine ⟨⟨⟨zero_fits 13, zero_fits 14, hone, ?_, zero_fits 11, hstep, zero_fits 11, hstep⟩,
    ⟨zero_fits 10, zero_fits 10⟩⟩, rfl, fun hl => by cases hl⟩
  show (UInt32.ofInt (b : Int)).toNat < 2 ^ 14
  rw [toNat_ofInt32 (by omega) (by omega)]
  omega

/-- The products of a step. -/
theorem products_confined (henv : env.Addressable caps b xr xc) (hst : st.Proper env.data caps)
    {start : Nat} {c : Code} (h : (env.stepOf i st).products start = .ok c) : c.Confined := by
  have hside : (env.stepOf i st).b = b := henv.complete.side
  obtain ⟨us, hus, h⟩ := Outcome.bind_eq_ok.1 h
  obtain rfl := Outcome.pure_eq_ok.1 h
  rw [hside]
  refine batch_confined (i := gemmInstruction b) (gemmInstruction_confined henv.le) (fun u hu => ?_) _ _
  obtain ⟨op, hop, hopu⟩ := forall₂_right (mapM_eq_ok.1 hus) hu
  obtain ⟨hmem, c, a, w, rfl⟩ := mem_gemms hop
  exact product_confined henv hst hmem hopu

/-- **The group of the compute stage.** -/
theorem computes_confined (henv : env.Addressable caps b xr xc) (hst : st.Proper env.data caps)
    {n : Nat} {c : Code} (h : (env.stepOf i st).computes n = .ok c) : c.Confined := by
  obtain ⟨acc, accBis, gemms, alus, hacc, hbis, hgemms, halus, rfl⟩ := computes_eq_ok.1 h
  have hparts : ∀ part ∈ { instructions := acc ++ accBis } :: gemms :: alus.1.reverse, part.Confined := by
    intro part hpart
    rcases List.mem_cons.1 hpart with rfl | hpart
    · refine ⟨fun j hj => ?_, fun u hu => by cases hu⟩
      rcases List.mem_append.1 hj with hj | hj
      · exact accLoads_confined henv hst hacc j hj
      · exact accBisLoads_confined henv hst hbis j hj
    rcases List.mem_cons.1 hpart with rfl | hpart
    · exact products_confined henv hst hgemms
    · exact operations_forall (fun op hop _ _ hc => operation_confined henv hst hop hc) halus part
        (List.mem_reverse.1 hpart)
  refine ⟨fun j hj => ?_, fun u hu => ?_⟩
  · obtain ⟨part, hpart, hj⟩ := List.mem_flatMap.1 hj
    exact (hparts part hpart).instructions j hj
  · obtain ⟨part, hpart, hu⟩ := List.mem_flatMap.1 hu
    exact (hparts part hpart).microOps u hu

/-- **The group of the store stage.** -/
theorem stores_confined (henv : env.Addressable caps b xr xc) (hst : st.Proper env.data caps)
    {insns : List Instruction} (h : (env.stepOf i st).stores = .ok insns) :
    ∀ j ∈ insns, j.Confined := by
  have hpos := henv.complete.pos
  have hle := henv.le
  have hfew := henv.complete.few
  have hside : (env.stepOf i st).b = b := henv.complete.side
  have hone : (1 : UInt32).toNat < 2 ^ 16 := by decide
  have hstore := hst.store
  unfold stores at h
  rw [stepOf_step] at h
  cases hg : st.storeGrain with
  | vector =>
    simp only [hg] at h hstore
    split at h
    · cases h
      exact fun j hj => by cases hj
    intro j hj
    obtain ⟨v, hv, hvj⟩ := forall₂_right (mapM_eq_ok.1 h) hj
    obtain ⟨h0, hlt, -⟩ := hstore v hv
    have hvectors : env.data.vectors = (xr * xc * b : Nat) := by
      rw [Shaped.vectors, Tensor.size, henv.complete.blocks, henv.complete.side]
      push_cast
      rfl
    obtain ⟨n, hn, hvj⟩ := Outcome.bind_eq_ok.1 hvj
    have hrow := row_lt henv hst h0 (by omega) hn
    split at hvj
    · cases hvj
    obtain ⟨dram, -, hvj⟩ := Outcome.bind_eq_ok.1 hvj
    obtain rfl := Outcome.pure_eq_ok.1 hvj
    refine store_confined.plain _ _ _ _ _ ?_ hone hone
    rw [toNat_ofInt32 hrow.1 (by omega)]
    omega
  | block =>
    rw [hg] at h
    obtain ⟨ts, hts, h⟩ := Outcome.bind_eq_ok.1 h
    obtain rfl := Outcome.pure_eq_ok.1 h
    refine moves_confined store_confined (by omega) (by omega) fun tr htr => ?_
    obtain ⟨o, t, ht, id, -, hid⟩ := mem_blocks hts htr
    obtain rfl := Option.some.inj ht
    exact block_rows_confined hside hpos hle (rows_block henv hst (hst.grain hg))
      (tall_height henv.complete (Or.inr (Or.inr rfl))) hid

end Groups

end StepLowering

end Tessera
