import Tessera.Proofs.Fields

/-!
# Instructions in binary

The 16 bytes of an instruction are one number. Its fields stand at fixed places that
depend on the opcode; six bits of a transfer and one bit of a loop have no field.
Everything here is said in terms of the places and widths of the fields, apart from
the table of slots by which instructions are written and read.

* `Instruction.Encodable`: the opcode has a meaning and each of its fields fits.
* `Instruction.number`: the fields at their places.
* `Instruction.visible`: the instruction without the fields its opcode has not.
* `Instruction.encode_eq`: the bytes of an instruction and what is read from them.
* `Instruction.encode_decode`: bytes that are read and written again.
* `instructions_round_trip`: both directions, for instructions and for streams.
-/

namespace Tessera

namespace Instruction

/-- The fields of a transfer fit their widths. -/
@[mk_iff]
structure TransferFits (i : Instruction) : Prop where
  buffer : i.buffer.code.toNat < 2 ^ 3
  sramBase : i.sramBase.toNat < 2 ^ 16
  dramBase : i.dramBase.toNat < 2 ^ 32
  ySize : i.ySize.toNat < 2 ^ 16
  xSize : i.xSize.toNat < 2 ^ 16
  xStride : i.xStride.toNat < 2 ^ 16
  yPadTop : i.yPadTop.toNat < 2 ^ 4
  yPadBottom : i.yPadBottom.toNat < 2 ^ 4
  xPadLeft : i.xPadLeft.toNat < 2 ^ 4
  xPadRight : i.xPadRight.toNat < 2 ^ 4

/-- The fields of the loops fit their widths. -/
@[mk_iff]
structure LoopFits (i : Instruction) : Prop where
  uopBegin : i.uopBegin.toNat < 2 ^ 13
  uopEnd : i.uopEnd.toNat < 2 ^ 14
  loopOut : i.loopOut.toNat < 2 ^ 14
  loopIn : i.loopIn.toNat < 2 ^ 14
  dstFactorOut : i.dstFactorOut.toNat < 2 ^ 11
  dstFactorIn : i.dstFactorIn.toNat < 2 ^ 11
  srcFactorOut : i.srcFactorOut.toNat < 2 ^ 11
  srcFactorIn : i.srcFactorIn.toNat < 2 ^ 11

/-- The weights of a product fit their widths. -/
@[mk_iff]
structure WeightFits (i : Instruction) : Prop where
  wgtFactorOut : i.wgtFactorOut.toNat < 2 ^ 10
  wgtFactorIn : i.wgtFactorIn.toNat < 2 ^ 10

/-- The operand of an operation fits its width; the immediate is a signed number. -/
@[mk_iff]
structure OperandFits (i : Instruction) : Prop where
  aluOp : i.aluOp.code.toNat < 2 ^ 3
  imm_low : -2 ^ 15 ≤ i.imm.toInt
  imm_high : i.imm.toInt < 2 ^ 15

/-- The opcode has a meaning, and every field it has fits its width. -/
def Encodable (i : Instruction) : Prop :=
  match i.opcode with
  | .load | .store | .finish => i.TransferFits
  | .gemm => i.LoopFits ∧ i.WeightFits
  | .alu => i.LoopFits ∧ i.OperandFits
  | .unassigned _ _ => False

/-- The fields that every instruction has, at their places. -/
def headNumber (i : Instruction) : Nat :=
  i.opcode.code.toNat + i.flags.popPrev.toNat * 2 ^ 3 + i.flags.popNext.toNat * 2 ^ 4 +
    i.flags.pushPrev.toNat * 2 ^ 5 + i.flags.pushNext.toNat * 2 ^ 6

/-- The fields of a transfer at their places; bits 58 to 63 have none. -/
def transferNumber (i : Instruction) : Nat :=
  i.buffer.code.toNat * 2 ^ 7 + i.sramBase.toNat * 2 ^ 10 + i.dramBase.toNat * 2 ^ 26 +
    i.ySize.toNat * 2 ^ 64 + i.xSize.toNat * 2 ^ 80 + i.xStride.toNat * 2 ^ 96 +
    i.yPadTop.toNat * 2 ^ 112 + i.yPadBottom.toNat * 2 ^ 116 + i.xPadLeft.toNat * 2 ^ 120 +
    i.xPadRight.toNat * 2 ^ 124

/-- The fields of the loops at their places; bit 63 has none. -/
def loopNumber (i : Instruction) : Nat :=
  i.reset.toNat * 2 ^ 7 + i.uopBegin.toNat * 2 ^ 8 + i.uopEnd.toNat * 2 ^ 21 +
    i.loopOut.toNat * 2 ^ 35 + i.loopIn.toNat * 2 ^ 49 + i.dstFactorOut.toNat * 2 ^ 64 +
    i.dstFactorIn.toNat * 2 ^ 75 + i.srcFactorOut.toNat * 2 ^ 86 + i.srcFactorIn.toNat * 2 ^ 97

/-- The weights of a product at their places. -/
def weightNumber (i : Instruction) : Nat :=
  i.wgtFactorOut.toNat * 2 ^ 108 + i.wgtFactorIn.toNat * 2 ^ 118

/-- The operand of an operation at its place, the immediate in two's complement. -/
def operandNumber (i : Instruction) : Nat :=
  i.aluOp.code.toNat * 2 ^ 108 + i.useImm.toNat * 2 ^ 111 + (i.imm.toInt % 2 ^ 16).toNat * 2 ^ 112

/-- The number an instruction is written as. -/
def number (i : Instruction) : Nat :=
  i.headNumber +
    match i.opcode with
    | .gemm => i.loopNumber + i.weightNumber
    | .alu => i.loopNumber + i.operandNumber
    | _ => i.transferNumber

/-- The instruction with only the fields its opcode has, all others zero. -/
def visible (i : Instruction) : Instruction :=
  match i.opcode with
  | .gemm =>
    { opcode := i.opcode, flags := i.flags, reset := i.reset, uopBegin := i.uopBegin,
      uopEnd := i.uopEnd, loopOut := i.loopOut, loopIn := i.loopIn,
      dstFactorOut := i.dstFactorOut, dstFactorIn := i.dstFactorIn,
      srcFactorOut := i.srcFactorOut, srcFactorIn := i.srcFactorIn,
      wgtFactorOut := i.wgtFactorOut, wgtFactorIn := i.wgtFactorIn }
  | .alu =>
    { opcode := i.opcode, flags := i.flags, reset := i.reset, uopBegin := i.uopBegin,
      uopEnd := i.uopEnd, loopOut := i.loopOut, loopIn := i.loopIn,
      dstFactorOut := i.dstFactorOut, dstFactorIn := i.dstFactorIn,
      srcFactorOut := i.srcFactorOut, srcFactorIn := i.srcFactorIn,
      aluOp := i.aluOp, useImm := i.useImm, imm := i.imm }
  | _ =>
    { opcode := i.opcode, flags := i.flags, buffer := i.buffer, sramBase := i.sramBase,
      dramBase := i.dramBase, ySize := i.ySize, xSize := i.xSize, xStride := i.xStride,
      yPadTop := i.yPadTop, yPadBottom := i.yPadBottom, xPadLeft := i.xPadLeft,
      xPadRight := i.xPadRight }

end Instruction

/-- The code in the low three bits of the first byte. -/
def opcodeBits (bytes : List UInt8) : Nat := ofLittleEndian bytes % 8

/-- The bytes of an instruction with the bits cleared that have no field: 58 to 63 of a
transfer and 63 of a loop, all in the byte before the middle. -/
def clearUnused (bytes : List UInt8) : List UInt8 :=
  if opcodeBits bytes = 2 ∨ opcodeBits bytes = 4 then bytes.modify 7 (· &&& 0x7f)
  else bytes.modify 7 (· &&& 0x03)

namespace Opcode

/-- A code read is the code that was there. -/
@[simp] theorem code_ofCode (c : UInt8) : (ofCode c).code = c := by
  unfold ofCode
  split
  · rfl
  · have : c = 0 ∨ c = 1 ∨ c = 2 ∨ c = 3 ∨ c = 4 := by
      simp only [UInt8.lt_iff_toNat_lt, ← UInt8.toNat_inj, UInt8.reduceToNat] at *
      omega
    rcases this with rfl | rfl | rfl | rfl | rfl <;> decide

@[simp] theorem ofCode_code (o : Opcode) : ofCode o.code = o := by
  cases o with
  | unassigned c h => simp [code, ofCode, h]
  | _ => decide

end Opcode

namespace Buffer

@[simp] theorem code_ofCode (c : UInt8) : (ofCode c).code = c := by
  unfold ofCode
  split
  · rfl
  · have : c = 0 ∨ c = 1 ∨ c = 2 ∨ c = 3 ∨ c = 4 ∨ c = 5 := by
      simp only [UInt8.lt_iff_toNat_lt, ← UInt8.toNat_inj, UInt8.reduceToNat] at *
      omega
    rcases this with rfl | rfl | rfl | rfl | rfl | rfl <;> decide

@[simp] theorem ofCode_code (b : Buffer) : ofCode b.code = b := by
  cases b with
  | unassigned c h => simp [code, ofCode, h]
  | _ => decide

end Buffer

namespace AluOp

@[simp] theorem code_ofCode (c : UInt8) : (ofCode c).code = c := by
  unfold ofCode
  split
  · rfl
  · have : c = 0 ∨ c = 1 ∨ c = 2 ∨ c = 3 ∨ c = 4 := by
      simp only [UInt8.lt_iff_toNat_lt, ← UInt8.toNat_inj, UInt8.reduceToNat] at *
      omega
    rcases this with rfl | rfl | rfl | rfl | rfl <;> decide

@[simp] theorem ofCode_code (o : AluOp) : ofCode o.code = o := by
  cases o with
  | unassigned c h => simp [code, ofCode, h]
  | _ => decide

end AluOp

namespace Slot

/-- A slot is no wider than a word, and reads no more than one. -/
def Sized (s : Slot) : Prop := s.width ≤ 64 ∧ ∀ i, s.get i < 2 ^ 64

theorem flag_sized (name : String) (get : Instruction → Bool)
    (set : Instruction → Bool → Instruction) : (Slot.flag name get set).Sized := by
  have hbit : ∀ b : Bool, b.toNat < 2 ^ 64 := by decide
  exact ⟨Nat.one_le_ofNat, fun i => hbit (get i)⟩

theorem word_sized {name : String} {width : Nat} (hwidth : width ≤ 64)
    (get : Instruction → UInt32) (set : Instruction → UInt32 → Instruction) :
    (Slot.word name width get set).Sized :=
  ⟨hwidth, fun i => lt_trans (get i).toNat_lt (by decide)⟩

theorem unused_sized {width : Nat} (hwidth : width ≤ 64) : (Slot.unused width).Sized :=
  ⟨hwidth, fun _ => Nat.two_pow_pos 64⟩

end Slot

namespace Instruction

variable {i : Instruction} {slots : List Slot}

theorem bit_toNat (b : Bool) : (b.toNat == 1) = b := by cases b <;> rfl

/-- The slots of an opcode that has a meaning. -/
theorem layout?_cases {o : Opcode} (h : layout? o = some slots) :
    (o ≠ .gemm ∧ o ≠ .alu ∧ slots = headSlots ++ transferSlots) ∨
      (o = .gemm ∧ slots = headSlots ++ loopSlots ++ weightSlots) ∨
      (o = .alu ∧ slots = headSlots ++ loopSlots ++ operandSlots) := by
  cases o <;> simp_all [layout?]

theorem fields_append (i : Instruction) (as bs : List Slot) :
    i.fields (as ++ bs) = i.fields as ++ i.fields bs := List.map_append

theorem width_fields (i : Instruction) (slots : List Slot) :
    Bits.width (i.fields slots) = (slots.map (·.width)).sum := by
  rw [Bits.width, fields, List.map_map]
  rfl

/-- The slots of an opcode take all bits. -/
theorem width_layout (h : layout? i.opcode = some slots) : Bits.width (i.fields slots) = 128 := by
  rw [width_fields]
  obtain ⟨_, _, rfl⟩ | ⟨_, rfl⟩ | ⟨_, rfl⟩ := layout?_cases h <;> rfl

theorem head_sized : ∀ s ∈ headSlots, s.Sized := by
  simp only [headSlots, List.forall_mem_cons, Slot.flag_sized, true_and]
  exact ⟨⟨by decide, fun i => lt_trans (UInt8.toNat_lt _) (by decide)⟩, by simp⟩

theorem transfer_sized : ∀ s ∈ transferSlots, s.Sized := by
  simp only [transferSlots, List.forall_mem_cons, Slot.word_sized, Slot.unused_sized,
    Nat.reduceLeDiff, true_and]
  exact ⟨⟨by decide, fun i => lt_trans (UInt8.toNat_lt _) (by decide)⟩, by simp⟩

theorem loop_sized : ∀ s ∈ loopSlots, s.Sized := by
  simp only [loopSlots, List.forall_mem_cons, Slot.flag_sized, Slot.word_sized, Slot.unused_sized,
    Nat.reduceLeDiff, true_and]
  simp

theorem weight_sized : ∀ s ∈ weightSlots, s.Sized := by
  simp only [weightSlots, List.forall_mem_cons, Slot.word_sized, Nat.reduceLeDiff, true_and]
  simp

theorem operand_sized : ∀ s ∈ operandSlots, s.Sized := by
  have himm : ∀ i : Instruction, (i.imm.toInt % ((2 ^ 16 : Nat) : Int)).toNat < 2 ^ 64 :=
    fun i => by omega
  simp only [operandSlots, List.forall_mem_cons, Slot.flag_sized, true_and]
  exact ⟨⟨by decide, fun i => lt_trans (UInt8.toNat_lt _) (by decide)⟩, ⟨by decide, himm⟩, by simp⟩

/-- The fields of an instruction are words. -/
theorem fields_sized (h : layout? i.opcode = some slots) :
    ∀ f ∈ i.fields slots, f.value < 2 ^ 64 ∧ f.width ≤ 64 := by
  have hslots : ∀ s ∈ slots, s.Sized := by
    obtain ⟨_, _, rfl⟩ | ⟨_, rfl⟩ | ⟨_, rfl⟩ := layout?_cases h <;>
      simp only [List.forall_mem_append]
    · exact ⟨head_sized, transfer_sized⟩
    · exact ⟨⟨head_sized, loop_sized⟩, weight_sized⟩
    · exact ⟨⟨head_sized, loop_sized⟩, operand_sized⟩
  exact List.forall_mem_map.2 fun s hs => ⟨(hslots s hs).2 i, (hslots s hs).1⟩

theorem head_number (i : Instruction) : Bits.number 0 (i.fields headSlots) = i.headNumber := by
  simp only [fields, headSlots, Slot.flag, List.map_cons, List.map_nil, Bits.number, headNumber]
  ring

theorem transfer_number (i : Instruction) :
    Bits.number 7 (i.fields transferSlots) = i.transferNumber := by
  simp only [fields, transferSlots, Slot.word, Slot.unused, List.map_cons, List.map_nil,
    Bits.number, transferNumber]
  ring

theorem loop_number (i : Instruction) : Bits.number 7 (i.fields loopSlots) = i.loopNumber := by
  simp only [fields, loopSlots, Slot.flag, Slot.word, Slot.unused, List.map_cons, List.map_nil,
    Bits.number, loopNumber]
  ring

theorem weight_number (i : Instruction) :
    Bits.number 108 (i.fields weightSlots) = i.weightNumber := by
  simp only [fields, weightSlots, Slot.word, List.map_cons, List.map_nil, Bits.number, weightNumber]
  ring

theorem operand_number (i : Instruction) :
    Bits.number 108 (i.fields operandSlots) = i.operandNumber := by
  have himm : ((twoTo 16 : Nat) : Int) = 2 ^ 16 := by norm_num [twoTo_eq]
  simp only [fields, operandSlots, Slot.flag, List.map_cons, List.map_nil, Bits.number,
    operandNumber, himm]
  ring

/-- **The slots of an instruction make up its number.** -/
theorem number_fields (h : layout? i.opcode = some slots) :
    Bits.number 0 (i.fields slots) = i.number := by
  have hhead : Bits.width (i.fields headSlots) = 7 := rfl
  have hloop : Bits.width (i.fields loopSlots) = 101 := rfl
  obtain ⟨h1, h2, rfl⟩ | ⟨ho, rfl⟩ | ⟨ho, rfl⟩ := layout?_cases h
  · rw [fields_append, Bits.number_append, hhead, head_number, transfer_number]
    unfold number
    split <;> simp_all
  · rw [fields_append, fields_append, Bits.number_append, Bits.number_append, Bits.width_append,
      hhead, hloop, head_number, loop_number, weight_number, number, ho, Nat.add_assoc]
  · rw [fields_append, fields_append, Bits.number_append, Bits.number_append, Bits.width_append,
      hhead, hloop, head_number, loop_number, operand_number, number, ho, Nat.add_assoc]

theorem head_fits (h : layout? i.opcode = some slots) : ∀ f ∈ i.fields headSlots, f.Fits := by
  have hcode : i.opcode.code.toNat < 2 ^ 3 := by
    cases ho : i.opcode with
    | unassigned c hc => rw [ho] at h; cases h
    | _ => decide
  have hbit : ∀ b : Bool, b.toNat < 2 ^ 1 := by decide
  simp only [fields, headSlots, Slot.flag, List.map_cons, List.map_nil, List.forall_mem_cons,
    Bits.Field.Fits, twoTo_eq, hcode, hbit, true_and]
  simp

theorem transfer_fits (i : Instruction) :
    (∀ f ∈ i.fields transferSlots, f.Fits) ↔ i.TransferFits := by
  simp only [fields, transferSlots, Slot.word, Slot.unused, List.map_cons, List.map_nil,
    List.forall_mem_cons, Bits.Field.Fits, twoTo_eq, transferFits_iff, Nat.two_pow_pos, true_and]
  simp

theorem loop_fits (i : Instruction) : (∀ f ∈ i.fields loopSlots, f.Fits) ↔ i.LoopFits := by
  have hbit : i.reset.toNat < 2 ^ 1 := by cases i.reset <;> decide
  simp only [fields, loopSlots, Slot.flag, Slot.word, Slot.unused, List.map_cons, List.map_nil,
    List.forall_mem_cons, Bits.Field.Fits, twoTo_eq, loopFits_iff, Nat.two_pow_pos, hbit, true_and]
  simp

theorem weight_fits (i : Instruction) : (∀ f ∈ i.fields weightSlots, f.Fits) ↔ i.WeightFits := by
  simp only [fields, weightSlots, Slot.word, List.map_cons, List.map_nil, List.forall_mem_cons,
    Bits.Field.Fits, twoTo_eq, weightFits_iff]
  simp

/-- The slot of the immediate takes any number; that it is in range is checked before. -/
theorem operand_fits (i : Instruction) :
    (∀ f ∈ i.fields operandSlots, f.Fits) ↔ i.aluOp.code.toNat < 2 ^ 3 := by
  have hbit : i.useImm.toNat < 2 ^ 1 := by cases i.useImm <;> decide
  have himm : (i.imm.toInt % ((2 ^ 16 : Nat) : Int)).toNat < 2 ^ 16 := by omega
  simp only [fields, operandSlots, Slot.flag, List.map_cons, List.map_nil, List.forall_mem_cons,
    Bits.Field.Fits, twoTo_eq, hbit, himm, true_and]
  simp

/-- An instruction that can be written has slots, and what they read fits them. -/
theorem Encodable.fields_fit (h : i.Encodable) :
    ∃ slots, layout? i.opcode = some slots ∧ ∀ f ∈ i.fields slots, f.Fits := by
  cases hl : layout? i.opcode with
  | none =>
    unfold Encodable at h
    cases ho : i.opcode <;> simp_all [layout?]
  | some slots =>
    have hhead := head_fits hl
    refine ⟨slots, rfl, ?_⟩
    unfold Encodable at h
    obtain ⟨h1, h2, rfl⟩ | ⟨ho, rfl⟩ | ⟨ho, rfl⟩ := layout?_cases hl
    · simp only [fields_append, List.forall_mem_append, transfer_fits]
      refine ⟨hhead, ?_⟩
      split at h <;> simp_all
    · rw [ho] at h
      simp only [fields_append, List.forall_mem_append, loop_fits, weight_fits]
      exact ⟨⟨hhead, h.1⟩, h.2⟩
    · rw [ho] at h
      simp only [fields_append, List.forall_mem_append, loop_fits, operand_fits]
      exact ⟨⟨hhead, h.1⟩, h.2.aluOp⟩

/-- **An instruction can be written if its opcode has a meaning and each field fits.** -/
theorem encode_of_encodable (h : i.Encodable) :
    i.encode = .ok (littleEndian byteSize i.number) := by
  obtain ⟨slots, hl, hfit⟩ := h.fields_fit
  have himm : ¬(i.opcode = .alu ∧
      (i.imm.toInt < -(twoTo 15 : Int) ∨ (twoTo 15 : Int) ≤ i.imm.toInt)) := by
    rintro ⟨ho, hr⟩
    unfold Encodable at h
    rw [ho] at h
    have h1 := h.2.imm_low
    have h2 := h.2.imm_high
    norm_num [twoTo_eq] at hr h1 h2
    omega
  obtain ⟨w, hput, hnumber⟩ := Bits.Packer.putAll_empty hfit
    (fun f hf => (fields_sized hl f hf).2) (width_layout hl).le
  rw [number_fields hl] at hnumber
  unfold encode
  simp only [hl, if_neg himm, hput, Outcome.ok_bind, Bits.Wide.bytes_eq, hnumber]
  rfl

/-- An instruction whose slots hold what they read can be written, if its immediate is
in range. -/
theorem encodable_of_fields (hl : layout? i.opcode = some slots)
    (hfit : ∀ f ∈ i.fields slots, f.Fits)
    (himm : i.opcode = .alu → -2 ^ 15 ≤ i.imm.toInt ∧ i.imm.toInt < 2 ^ 15) : i.Encodable := by
  unfold Encodable
  obtain ⟨h1, h2, rfl⟩ | ⟨ho, rfl⟩ | ⟨ho, rfl⟩ := layout?_cases hl
  · simp only [fields_append, List.forall_mem_append, transfer_fits] at hfit
    cases ho : i.opcode <;> simp_all [layout?]
  · simp only [fields_append, List.forall_mem_append, loop_fits, weight_fits] at hfit
    rw [ho]
    exact ⟨hfit.1.2, hfit.2⟩
  · simp only [fields_append, List.forall_mem_append, loop_fits, operand_fits] at hfit
    rw [ho]
    exact ⟨hfit.1.2, hfit.2, (himm ho).1, (himm ho).2⟩

/-- An immediate that passes the check is in range. -/
theorem imm_in_range (himm : ¬(i.opcode = .alu ∧
      (i.imm.toInt < -(twoTo 15 : Int) ∨ (twoTo 15 : Int) ≤ i.imm.toInt)))
    (ho : i.opcode = .alu) : -2 ^ 15 ≤ i.imm.toInt ∧ i.imm.toInt < 2 ^ 15 := by
  norm_num [ho, twoTo_eq] at himm ⊢
  exact himm

/-- **Only such an instruction can be written.** -/
theorem encodable_of_encode {bs : List UInt8} (h : i.encode = .ok bs) : i.Encodable := by
  unfold encode at h
  cases hl : layout? i.opcode with
  | none => simp [hl] at h
  | some slots =>
    simp only [hl] at h
    by_cases himm : i.opcode = .alu ∧
        (i.imm.toInt < -(twoTo 15 : Int) ∨ (twoTo 15 : Int) ≤ i.imm.toInt)
    · simp [himm] at h
    · rw [if_neg himm] at h
      refine encodable_of_fields hl ?_ (imm_in_range himm)
      by_contra hno
      obtain ⟨q, f, hput⟩ := Bits.Packer.putAll_unfit hno (fields_sized hl) (width_layout hl).le
      simp only [hput, Outcome.ok_bind] at h
      exact Outcome.diagnose_ne_ok h

/-- What the slots read of `i`, written over `j`. -/
def restore (i : Instruction) (slots : List Slot) (j : Instruction) : Instruction :=
  slots.foldl (fun j s => s.set j (s.get i)) j

theorem restore_append (as bs : List Slot) (j : Instruction) :
    i.restore (as ++ bs) j = i.restore bs (i.restore as j) := List.foldl_append

theorem restore_head (i j : Instruction) :
    i.restore headSlots j = { j with opcode := i.opcode, flags := i.flags } := by
  simp only [restore, headSlots, Slot.flag, List.foldl_cons, List.foldl_nil, bit_toNat,
    UInt8.ofNat_toNat, Opcode.ofCode_code]

theorem restore_transfer (i j : Instruction) :
    i.restore transferSlots j =
      { j with
        buffer := i.buffer, sramBase := i.sramBase, dramBase := i.dramBase, ySize := i.ySize,
        xSize := i.xSize, xStride := i.xStride, yPadTop := i.yPadTop, yPadBottom := i.yPadBottom,
        xPadLeft := i.xPadLeft, xPadRight := i.xPadRight } := by
  simp only [restore, transferSlots, Slot.word, Slot.unused, List.foldl_cons, List.foldl_nil,
    UInt8.ofNat_toNat, UInt32.ofNat_toNat, Buffer.ofCode_code]

theorem restore_loop (i j : Instruction) :
    i.restore loopSlots j =
      { j with
        reset := i.reset, uopBegin := i.uopBegin, uopEnd := i.uopEnd, loopOut := i.loopOut,
        loopIn := i.loopIn, dstFactorOut := i.dstFactorOut, dstFactorIn := i.dstFactorIn,
        srcFactorOut := i.srcFactorOut, srcFactorIn := i.srcFactorIn } := by
  simp only [restore, loopSlots, Slot.flag, Slot.word, Slot.unused, List.foldl_cons,
    List.foldl_nil, bit_toNat, UInt32.ofNat_toNat]

theorem restore_weight (i j : Instruction) :
    i.restore weightSlots j =
      { j with wgtFactorOut := i.wgtFactorOut, wgtFactorIn := i.wgtFactorIn } := by
  simp only [restore, weightSlots, Slot.word, List.foldl_cons, List.foldl_nil, UInt32.ofNat_toNat]

theorem restore_operand (h : i.OperandFits) (j : Instruction) :
    i.restore operandSlots j =
      { j with aluOp := i.aluOp, useImm := i.useImm, imm := i.imm } := by
  have himm : Int32.ofInt (Int.bmod (i.imm.toInt % (twoTo 16 : Int)).toNat (twoTo 16)) = i.imm := by
    have h1 := h.imm_low
    have h2 := h.imm_high
    rw [Int.toNat_of_nonneg (Int.emod_nonneg _ (by decide)), Int.emod_bmod, twoTo_eq,
      Int.bmod_eq_of_le (by norm_num at h1 ⊢; exact h1) (by norm_num at h2 ⊢; exact h2),
      Int32.ofInt_toInt]
  simp only [restore, operandSlots, Slot.flag, List.foldl_cons, List.foldl_nil, bit_toNat,
    UInt8.ofNat_toNat, AluOp.ofCode_code, himm]

/-- The instruction whose slots hold the values of `word`. -/
def ofWord (slots : List Slot) (word : Nat) : Instruction :=
  (slots.zip (Bits.unpack (slots.map (·.width)) word)).foldl (fun i (s, v) => s.set i v)
    { opcode := .load }

/-- The slots unpacked from fields that fit hold these fields. -/
theorem ofWord_fields (h : ∀ f ∈ i.fields slots, f.Fits) :
    ofWord slots (Bits.number 0 (i.fields slots)) = i.restore slots { opcode := .load } := by
  have hw : (i.fields slots).map (·.width) = slots.map (·.width) := by simp [fields]
  have hv : (i.fields slots).map (·.value) = slots.map (·.get i) := by simp [fields]
  have hz : slots.zip (slots.map (·.get i)) = slots.map fun s => (s, s.get i) := by
    simpa using List.zip_map' (f := id) (g := fun s : Slot => s.get i) (l := slots)
  rw [ofWord, ← hw, Bits.unpack_number h, hv, hz, restore, List.foldl_map]

/-- The low bits of an instruction are its opcode. -/
theorem number_mod (i : Instruction) : i.number % 8 = i.opcode.code.toNat % 8 := by
  unfold number headNumber
  split
  · simp only [loopNumber, weightNumber]
    omega
  · simp only [loopNumber, operandNumber]
    omega
  · simp only [transferNumber]
    omega

theorem Encodable.number_lt (h : i.Encodable) : i.number < 2 ^ 128 := by
  obtain ⟨slots, hl, hfit⟩ := h.fields_fit
  rw [← number_fields hl, ← width_layout hl]
  exact Bits.number_lt hfit

/-- The slots of an instruction's own number give its visible fields. -/
theorem Encodable.ofWord_number (h : i.Encodable) (hl : layout? i.opcode = some slots) :
    ofWord slots i.number = i.visible := by
  obtain ⟨_, hl', hfit⟩ := h.fields_fit
  obtain rfl := Option.some.inj (hl.symm.trans hl')
  rw [← number_fields hl, ofWord_fields hfit]
  unfold Encodable at h
  unfold visible
  obtain ⟨h1, h2, rfl⟩ | ⟨ho, rfl⟩ | ⟨ho, rfl⟩ := layout?_cases hl
  · rw [restore_append, restore_head, restore_transfer]
    split <;> simp_all
  · rw [restore_append, restore_append, restore_head, restore_loop, restore_weight, ho]
  · rw [ho] at h
    rw [restore_append, restore_append, restore_head, restore_loop, restore_operand h.2, ho]

/-- The number that encoded bytes stand for. -/
theorem Encodable.ofLittleEndian_number (h : i.Encodable) :
    ofLittleEndian (littleEndian byteSize i.number) = i.number :=
  ofLittleEndian_of_lt h.number_lt

/-- The values read one after the other are those of the number. -/
theorem ofValues_eq {values : List UInt64} {w : Nat}
    (h : values.map (·.toNat) = Bits.unpack (slots.map (·.width)) w) :
    ofValues slots values = ofWord slots w := by
  rw [ofWord, ← h, List.zip_map_right, List.foldl_map]
  rfl

/-- **Sixteen bytes are read as a number**: the opcode in its low bits, then the slots of the
opcode. -/
theorem decode_eq {bs : List UInt8} (hlen : bs.length = 16) :
    decode bs = match layout? (.ofCode (UInt8.ofNat (ofLittleEndian bs % 8))) with
      | none => Outcome.diagnose "instruction" (.unknownOp
          (.opcodeUnassigned (Opcode.ofCode (UInt8.ofNat (ofLittleEndian bs % 8))).code.toNat))
      | some slots => .ok (ofWord slots (ofLittleEndian bs)) := by
  have hnumber := Bits.Wide.number_ofBytes hlen
  obtain ⟨code, hget, hcode⟩ :=
    Bits.Unpacker.get_eq { wide := .ofBytes bs } (show 3 ≤ 64 by decide) (show 0 + 3 ≤ 128 by decide)
  have hcode : code.toNat = ofLittleEndian bs % 8 := by
    rwa [hnumber, pow_zero, Nat.div_one] at hcode
  unfold decode
  rw [if_neg (by rw [hlen]; decide)]
  simp only [hget, Outcome.ok_bind, hcode]
  cases hl : layout? (.ofCode (UInt8.ofNat (ofLittleEndian bs % 8))) with
  | none => rfl
  | some slots =>
    have hslots : (∀ n ∈ slots.map (·.width), n ≤ 64) ∧ (slots.map (·.width)).sum = 128 := by
      obtain ⟨_, _, rfl⟩ | ⟨_, rfl⟩ | ⟨_, rfl⟩ := layout?_cases hl <;> decide
    obtain ⟨values, hvalues, heq⟩ := Bits.Unpacker.getAll_eq { wide := .ofBytes bs } hslots.1
      (by rw [hslots.2])
    rw [hnumber, pow_zero, Nat.div_one] at heq
    exact Outcome.bind_ok hvalues (congrArg Except.ok (ofValues_eq heq))

/-- **Reading what was written** gives the fields the opcode has. -/
theorem decode_encode (h : i.Encodable) :
    decode (littleEndian byteSize i.number) = .ok i.visible := by
  obtain ⟨slots, hl, _⟩ := h.fields_fit
  have hcode : i.opcode.code.toNat < 8 := by
    cases ho : i.opcode with
    | unassigned c hc => rw [ho] at hl; cases hl
    | _ => decide
  have hop : Opcode.ofCode (UInt8.ofNat (i.number % 8)) = i.opcode := by
    rw [number_mod, Nat.mod_eq_of_lt hcode, UInt8.ofNat_toNat, Opcode.ofCode_code]
  rw [decode_eq (length_littleEndian byteSize _), h.ofLittleEndian_number]
  simp only [hop, hl, h.ofWord_number hl]

/-- The instruction `j` with the slots set to consecutive fields of `w`. -/
def write (slots : List Slot) (w : Nat) (j : Instruction) : Instruction :=
  (slots.zip (Bits.unpack (slots.map (·.width)) w)).foldl (fun i (s, v) => s.set i v) j

theorem write_nil (w : Nat) (j : Instruction) : write [] w j = j := rfl

theorem write_cons (s : Slot) (slots : List Slot) (w : Nat) (j : Instruction) :
    write (s :: slots) w j = write slots (w / 2 ^ s.width) (s.set j (w % 2 ^ s.width)) := rfl

theorem write_append (as bs : List Slot) (w : Nat) (j : Instruction) :
    write (as ++ bs) w j = write bs (w / 2 ^ (as.map (·.width)).sum) (write as w j) := by
  induction as generalizing w j with
  | nil => simp [write_nil]
  | cons s as ih =>
    rw [List.cons_append, write_cons, write_cons, ih, List.map_cons, List.sum_cons, pow_add,
      Nat.div_div_eq_div_mul]

/-- Names and widths of slots. -/
def names (slots : List Slot) : List (String × Nat) := slots.map fun s => (s.name, s.width)

theorem toNat_ofNat_mod {k : Nat} (n : Nat) (h : k ≤ 32) :
    (UInt32.ofNat (n % 2 ^ k)).toNat = n % 2 ^ k := by
  have hlt : n % 2 ^ k < 2 ^ k := Nat.mod_lt _ (Nat.two_pow_pos k)
  have hle : 2 ^ k ≤ 2 ^ 32 := Nat.pow_le_pow_right (by decide) h
  rw [UInt32.toNat_ofNat', Nat.mod_eq_of_lt (lt_of_lt_of_le hlt hle)]

theorem toNat_ofNat_code (n : Nat) : (UInt8.ofNat (n % 2 ^ 3)).toNat = n % 2 ^ 3 := by
  rw [UInt8.toNat_ofNat']
  omega

theorem toNat_bit (n : Nat) : (n % 2 ^ 1 == 1).toNat = n % 2 ^ 1 := by
  rcases Nat.mod_two_eq_zero_or_one n with h | h <;> simp [h]

/-- The immediate that 16 bits stand for. -/
theorem toInt_imm (n : Nat) :
    (Int32.ofInt (Int.bmod n (twoTo 16))).toInt = Int.bmod n (2 ^ 16) := by
  have h1 := Int.le_bmod (x := n) (m := 2 ^ 16) (by decide)
  have h2 := Int.bmod_lt (x := n) (m := 2 ^ 16) (by decide)
  rw [twoTo_eq, Int32.toInt_ofInt]
  apply Int.bmod_eq_of_le
  · norm_num at h1 ⊢
    omega
  · norm_num at h2 ⊢
    omega

theorem imm_ofNat (n : Nat) :
    ((Int32.ofInt (Int.bmod (n % 2 ^ 16 : Nat) (twoTo 16))).toInt % (twoTo 16 : Int)).toNat =
      n % 2 ^ 16 := by
  rw [toInt_imm, twoTo_eq, Int.bmod_emod]
  omega

theorem write_head (w : Nat) (j : Instruction) :
    (write headSlots w j).fields headSlots = Bits.readings (names headSlots) w := by
  simp only [fields, headSlots, Slot.flag, write_cons, write_nil, names, Bits.readings,
    List.map_cons, List.map_nil, Opcode.code_ofCode, toNat_ofNat_code, toNat_bit]

theorem write_transfer (w : Nat) (j : Instruction) :
    (write transferSlots w j).fields transferSlots =
      Bits.readings (names (transferSlots.take 3)) w ++ ⟨"unused", 0, 6⟩ ::
        Bits.readings (names (transferSlots.drop 4)) (w / 2 ^ 57) := by
  have hskip : w / 2 ^ 57 = w / 2 ^ 3 / 2 ^ 16 / 2 ^ 32 / 2 ^ 6 := by
    simp only [Nat.div_div_eq_div_mul, ← pow_add]
  rw [hskip]
  simp (disch := decide) only [fields, transferSlots, Slot.word, Slot.unused, write_cons,
    write_nil, names, Bits.readings, List.map_cons, List.map_nil, List.take, List.drop,
    Buffer.code_ofCode, toNat_ofNat_code, toNat_ofNat_mod, List.cons_append, List.nil_append]

theorem write_loop (w : Nat) (j : Instruction) :
    (write loopSlots w j).fields loopSlots =
      Bits.readings (names (loopSlots.take 5)) w ++ ⟨"unused", 0, 1⟩ ::
        Bits.readings (names (loopSlots.drop 6)) (w / 2 ^ 57) := by
  have hskip : w / 2 ^ 57 = w / 2 ^ 1 / 2 ^ 13 / 2 ^ 14 / 2 ^ 14 / 2 ^ 14 / 2 ^ 1 := by
    simp only [Nat.div_div_eq_div_mul, ← pow_add]
  rw [hskip]
  simp (disch := decide) only [fields, loopSlots, Slot.flag, Slot.word, Slot.unused, write_cons,
    write_nil, names, Bits.readings, List.map_cons, List.map_nil, List.take, List.drop,
    toNat_bit, toNat_ofNat_mod, List.cons_append, List.nil_append]

theorem write_weight (w : Nat) (j : Instruction) :
    (write weightSlots w j).fields weightSlots = Bits.readings (names weightSlots) w := by
  simp (disch := decide) only [fields, weightSlots, Slot.word, write_cons, write_nil, names,
    Bits.readings, List.map_cons, List.map_nil, toNat_ofNat_mod]

theorem write_operand (w : Nat) (j : Instruction) :
    (write operandSlots w j).fields operandSlots = Bits.readings (names operandSlots) w := by
  simp only [fields, operandSlots, Slot.flag, write_cons, write_nil, names, Bits.readings,
    List.map_cons, List.map_nil, AluOp.code_ofCode, toNat_ofNat_code, toNat_bit, imm_ofNat]

theorem names_append (as bs : List Slot) : names (as ++ bs) = names as ++ names bs :=
  List.map_append

theorem sum_names (slots : List Slot) :
    ((names slots).map (·.2)).sum = (slots.map (·.width)).sum := by
  rw [names, List.map_map]
  rfl

/-- The slots of a transfer leave the head as it is. -/
theorem head_write_transfer (w : Nat) (j : Instruction) :
    (write transferSlots w j).fields headSlots = j.fields headSlots := by
  simp only [fields, headSlots, transferSlots, Slot.flag, Slot.word, Slot.unused, write_cons,
    write_nil, List.map_cons, List.map_nil]

theorem head_write_loop (w : Nat) (j : Instruction) :
    (write loopSlots w j).fields headSlots = j.fields headSlots := by
  simp only [fields, headSlots, loopSlots, Slot.flag, Slot.word, Slot.unused, write_cons, write_nil,
    List.map_cons, List.map_nil]

/-- The slots of the weights leave head and loops as they are. -/
theorem loop_write_weight (w : Nat) (j : Instruction) :
    (write weightSlots w j).fields (headSlots ++ loopSlots) = j.fields (headSlots ++ loopSlots) := by
  simp only [fields, headSlots, loopSlots, weightSlots, Slot.flag, Slot.word, Slot.unused,
    write_cons, write_nil, List.cons_append, List.nil_append, List.map_cons, List.map_nil]

theorem loop_write_operand (w : Nat) (j : Instruction) :
    (write operandSlots w j).fields (headSlots ++ loopSlots) =
      j.fields (headSlots ++ loopSlots) := by
  simp only [fields, headSlots, loopSlots, operandSlots, Slot.flag, Slot.word, Slot.unused,
    write_cons, write_nil, List.cons_append, List.nil_append, List.map_cons, List.map_nil]

/-- **What a transfer read from a number has in its slots**: the number's own fields, and
zero where it has none. -/
theorem fields_transfer (w : Nat) :
    (ofWord (headSlots ++ transferSlots) w).fields (headSlots ++ transferSlots) =
      Bits.readings (names (headSlots ++ transferSlots.take 3)) w ++ ⟨"unused", 0, 6⟩ ::
        Bits.readings (names (transferSlots.drop 4)) (w / 2 ^ (58 + 6)) := by
  have hsplit : ofWord (headSlots ++ transferSlots) w =
      write transferSlots (w / 2 ^ 7) (write headSlots w { opcode := .load }) :=
    write_append headSlots transferSlots w _
  rw [fields_append, hsplit, head_write_transfer, write_head, write_transfer, names_append,
    Bits.readings_append, sum_names, List.append_assoc, Nat.div_div_eq_div_mul, ← pow_add]
  rfl

/-- The loops of an instruction read from a number. -/
theorem fields_loop (w : Nat) (j : Instruction) :
    (write loopSlots (w / 2 ^ 7) (write headSlots w j)).fields (headSlots ++ loopSlots) =
      Bits.readings (names (headSlots ++ loopSlots.take 5)) w ++ ⟨"unused", 0, 1⟩ ::
        Bits.readings (names (loopSlots.drop 6)) (w / 2 ^ (63 + 1)) := by
  rw [fields_append, head_write_loop, write_head, write_loop, names_append, Bits.readings_append,
    sum_names, List.append_assoc, Nat.div_div_eq_div_mul, ← pow_add]
  rfl

/-- What a product or an operation read from a number has in its slots, if those after
the loops are read as they are written. -/
theorem fields_looping {tail : List Slot}
    (hkeep : ∀ w j, (write tail w j).fields (headSlots ++ loopSlots) =
      j.fields (headSlots ++ loopSlots))
    (hread : ∀ w j, (write tail w j).fields tail = Bits.readings (names tail) w) (w : Nat) :
    (ofWord (headSlots ++ loopSlots ++ tail) w).fields (headSlots ++ loopSlots ++ tail) =
      Bits.readings (names (headSlots ++ loopSlots.take 5)) w ++ ⟨"unused", 0, 1⟩ ::
        Bits.readings (names (loopSlots.drop 6 ++ tail)) (w / 2 ^ (63 + 1)) := by
  have hsplit : ofWord (headSlots ++ loopSlots ++ tail) w =
      write tail (w / 2 ^ 108)
        (write loopSlots (w / 2 ^ 7) (write headSlots w { opcode := .load })) := by
    have h1 := write_append (headSlots ++ loopSlots) tail w { opcode := .load }
    rw [write_append headSlots loopSlots] at h1
    exact h1
  have hrest : w / 2 ^ (63 + 1) / 2 ^ ((names (loopSlots.drop 6)).map (·.2)).sum = w / 2 ^ 108 := by
    rw [sum_names, Nat.div_div_eq_div_mul, ← pow_add]
    rfl
  rw [fields_append, hsplit, hkeep, fields_loop, hread, names_append _ tail,
    Bits.readings_append _ (names tail), hrest]
  simp only [List.append_assoc, List.cons_append]

/-- An instruction with the fields of a number around a gap can be written, as the number
without what it has in the gap. -/
theorem encodable_of_gap {w : Nat} {pre post : List (String × Nat)} {gap : Bits.Field}
    (hw : w < 2 ^ 128) (hl : layout? i.opcode = some slots) (hgap : gap.value = 0)
    (hpre : (pre.map (·.2)).sum + gap.width = 64) (hpost : (post.map (·.2)).sum = 64)
    (hfields : i.fields slots = Bits.readings pre w ++ gap :: Bits.readings post (w / 2 ^ 64))
    (himm : i.opcode = .alu → -2 ^ 15 ≤ i.imm.toInt ∧ i.imm.toInt < 2 ^ 15) :
    i.Encodable ∧ i.number = w % 2 ^ (pre.map (·.2)).sum + 2 ^ 64 * (w / 2 ^ 64) := by
  have hfit : ∀ f ∈ i.fields slots, f.Fits := by
    rw [hfields, List.forall_mem_append, List.forall_mem_cons]
    refine ⟨Bits.readings_fit _ _, ?_, Bits.readings_fit _ _⟩
    rw [Bits.Field.Fits, hgap]
    exact twoTo_pos _
  have hnumber := Bits.number_gap pre post w hgap
    (by rw [hpre, hpost]; omega)
  rw [hpre] at hnumber
  exact ⟨encodable_of_fields hl hfit himm, by rw [← number_fields hl, hfields, hnumber]⟩

/-- The opcode in the low bits of a number. -/
def opcodeOf (w : Nat) : Opcode := Opcode.ofCode (UInt8.ofNat (w % 8))

theorem code_opcodeOf (w : Nat) : (opcodeOf w).code.toNat = w % 8 := by
  rw [opcodeOf, Opcode.code_ofCode]
  exact toNat_ofNat_code w

theorem opcode_ofWord {w : Nat} (hl : layout? (opcodeOf w) = some slots) :
    (ofWord slots w).opcode = opcodeOf w := by
  obtain ⟨_, _, rfl⟩ | ⟨_, rfl⟩ | ⟨_, rfl⟩ := layout?_cases hl <;> rfl

/-- **An instruction read from a number can be written again**, as the number without the
bits that have no field. -/
theorem ofWord_encodable {w : Nat} (hw : w < 2 ^ 128) (hl : layout? (opcodeOf w) = some slots) :
    (ofWord slots w).Encodable ∧
      (ofWord slots w).number =
        if w % 8 = 2 ∨ w % 8 = 4 then w % 2 ^ 63 + 2 ^ 64 * (w / 2 ^ 64)
        else w % 2 ^ 58 + 2 ^ 64 * (w / 2 ^ 64) := by
  have hop := opcode_ofWord hl
  have hl' : layout? (ofWord slots w).opcode = some slots := by rw [hop, hl]
  have hcode := code_opcodeOf w
  obtain ⟨h1, h2, rfl⟩ | ⟨ho, rfl⟩ | ⟨ho, rfl⟩ := layout?_cases hl
  · have hno : ¬(w % 8 = 2 ∨ w % 8 = 4) := by
      rintro (h | h)
      · exact h1 (by rw [opcodeOf, h]; decide)
      · exact h2 (by rw [opcodeOf, h]; decide)
    rw [if_neg hno]
    exact encodable_of_gap hw hl' rfl rfl rfl (fields_transfer w)
      fun h => absurd (hop.symm.trans h) h2
  · rw [if_pos (Or.inl (by rw [← hcode, ho]; rfl))]
    refine encodable_of_gap hw hl' rfl rfl rfl (fields_looping loop_write_weight write_weight w) ?_
    intro h
    rw [hop, ho] at h
    cases h
  · rw [if_pos (Or.inr (by rw [← hcode, ho]; rfl))]
    refine encodable_of_gap hw hl' rfl rfl rfl (fields_looping loop_write_operand write_operand w) ?_
    intro _
    obtain ⟨n, hn⟩ : ∃ n : Nat, (ofWord (headSlots ++ loopSlots ++ operandSlots) w).imm =
        Int32.ofInt (Int.bmod n (twoTo 16)) := ⟨_, rfl⟩
    have hlow := Int.le_bmod (x := n) (m := 2 ^ 16) (by decide)
    have hhigh := Int.bmod_lt (x := n) (m := 2 ^ 16) (by decide)
    rw [hn, toInt_imm]
    norm_num at hlow hhigh ⊢
    omega

end Instruction

theorem length_clearUnused (bs : List UInt8) : (clearUnused bs).length = bs.length := by
  unfold clearUnused
  split <;> simp

/-- The number that bytes with the unused bits cleared stand for. -/
theorem ofLittleEndian_clearUnused {bs : List UInt8} (hlen : bs.length = 16) :
    ofLittleEndian (clearUnused bs) =
      if ofLittleEndian bs % 8 = 2 ∨ ofLittleEndian bs % 8 = 4 then
        ofLittleEndian bs % 2 ^ 63 + 2 ^ 64 * (ofLittleEndian bs / 2 ^ 64)
      else ofLittleEndian bs % 2 ^ 58 + 2 ^ 64 * (ofLittleEndian bs / 2 ^ 64) := by
  have hk : 7 < bs.length := by omega
  have hbyte := getElem_ofLittleEndian hk
  have hmask : ∀ b : UInt8, (b &&& 0x7f).toNat = b.toNat % 2 ^ 7 ∧ (b &&& 0x03).toNat = b.toNat % 2 ^ 2 :=
    fun b => ⟨Nat.and_two_pow_sub_one_eq_mod b.toNat 7, Nat.and_two_pow_sub_one_eq_mod b.toNat 2⟩
  unfold clearUnused opcodeBits
  split
  · have hmod := ofLittleEndian_modify (· &&& 0x7f) hk
    rw [(hmask _).1, hbyte] at hmod
    omega
  · have hmod := ofLittleEndian_modify (· &&& 0x03) hk
    rw [(hmask _).2, hbyte] at hmod
    omega

namespace Instruction

/-- **Writing what was read** gives the bytes with the unused bits cleared. -/
theorem encode_decode {bs : List UInt8} (hlen : bs.length = 16) (hop : opcodeBits bs ≤ 4) :
    ∃ i, decode bs = .ok i ∧ i.encode = .ok (clearUnused bs) := by
  have hlt : ofLittleEndian bs < 2 ^ 128 := by
    have := ofLittleEndian_lt bs
    rw [hlen] at this
    norm_num at this ⊢
    exact this
  obtain ⟨slots, hl⟩ : ∃ slots, layout? (opcodeOf (ofLittleEndian bs)) = some slots := by
    have hcode := code_opcodeOf (ofLittleEndian bs)
    unfold opcodeBits at hop
    cases ho : opcodeOf (ofLittleEndian bs) with
    | unassigned c hc =>
      rw [ho] at hcode
      rw [UInt8.lt_iff_toNat_lt] at hc
      simp only [Opcode.code, UInt8.reduceToNat] at hcode hc
      omega
    | _ => exact ⟨_, rfl⟩
  obtain ⟨hfit, hnumber⟩ := ofWord_encodable hlt hl
  refine ⟨ofWord slots (ofLittleEndian bs), ?_, ?_⟩
  · rw [decode_eq hlen]
    unfold opcodeOf at hl
    simp only [hl]
  · have hwrite := littleEndian_ofLittleEndian (clearUnused bs)
    rw [length_clearUnused, hlen, ofLittleEndian_clearUnused hlen] at hwrite
    rw [encode_of_encodable hfit, hnumber, byteSize, hwrite]

/-- A code without a meaning cannot be read. -/
theorem decode_unassigned {bs : List UInt8} (hlen : bs.length = 16) (hop : 5 ≤ opcodeBits bs) :
    decode bs = Outcome.diagnose "instruction" (.unknownOp (.opcodeUnassigned (opcodeBits bs))) := by
  have hcode := code_opcodeOf (ofLittleEndian bs)
  have hl : layout? (opcodeOf (ofLittleEndian bs)) = none := by
    unfold opcodeBits at hop
    cases ho : opcodeOf (ofLittleEndian bs) with
    | unassigned c hc => rfl
    | _ =>
      rw [ho] at hcode
      simp only [Opcode.code, UInt8.reduceToNat] at hcode
      omega
  rw [decode_eq hlen]
  unfold opcodeOf at hl hcode
  simp only [hl, hcode, opcodeBits]

variable {i : Instruction}

/-- What cannot be written is refused with a diagnosis. -/
theorem encode_refuses (h : ¬i.Encodable) :
    ∃ object detail, i.encode = Outcome.diagnose object detail := by
  unfold encode
  cases hl : layout? i.opcode with
  | none => exact ⟨_, _, rfl⟩
  | some slots =>
    by_cases himm : i.opcode = .alu ∧
        (i.imm.toInt < -(twoTo 15 : Int) ∨ (twoTo 15 : Int) ≤ i.imm.toInt)
    · exact ⟨_, _, if_pos himm⟩
    · have hno : ¬∀ f ∈ i.fields slots, f.Fits := fun hfit =>
        h (encodable_of_fields hl hfit (imm_in_range himm))
      obtain ⟨q, f, hput⟩ := Bits.Packer.putAll_unfit hno (fields_sized hl) (width_layout hl).le
      simp only [if_neg himm, hput, Outcome.ok_bind]
      exact ⟨_, _, rfl⟩

/-- The fields an opcode has not do not count. -/
theorem Encodable.visible (h : i.Encodable) :
    i.visible.Encodable ∧ i.visible.number = i.number := by
  unfold Encodable at h ⊢
  unfold Instruction.visible
  cases ho : i.opcode with
  | gemm =>
    simp only [ho, loopFits_iff, weightFits_iff] at h ⊢
    exact ⟨h, by simp only [number, headNumber, loopNumber, weightNumber, ho]⟩
  | alu =>
    simp only [ho, loopFits_iff, operandFits_iff] at h ⊢
    exact ⟨h, by simp only [number, headNumber, loopNumber, operandNumber, ho]⟩
  | unassigned c hc => simp only [ho] at h
  | _ =>
    simp only [ho, transferFits_iff] at h ⊢
    exact ⟨h, by simp only [number, headNumber, transferNumber, ho]⟩

/-- **The bytes of an instruction**: 16 of them, its number, nothing in the unused bits. -/
theorem encode_eq {bs : List UInt8} (h : i.encode = .ok bs) :
    bs.length = 16 ∧ ofLittleEndian bs = i.number ∧ clearUnused bs = bs ∧
      decode bs = .ok i.visible := by
  have hfit := encodable_of_encode h
  obtain rfl := Except.ok.inj ((encode_of_encodable hfit).symm.trans h)
  have hread := decode_encode hfit
  have hlen : (littleEndian byteSize i.number).length = 16 := length_littleEndian _ _
  have hop : opcodeBits (littleEndian byteSize i.number) ≤ 4 := by
    by_contra hop
    rw [decode_unassigned hlen (by omega)] at hread
    exact Outcome.diagnose_ne_ok hread
  -- the bytes read and written again are both the cleared ones and the ones written first
  obtain ⟨j, hj, hwrite⟩ := encode_decode hlen hop
  obtain rfl := Except.ok.inj (hread.symm.trans hj)
  rw [encode_of_encodable hfit.visible.1, hfit.visible.2] at hwrite
  exact ⟨hlen, hfit.ofLittleEndian_number, (Except.ok.inj hwrite).symm, hread⟩

end Instruction

open Instruction

/-- Pieces of 16 bytes are read one by one. -/
theorem decodeProgram_flatten {parts : List (List UInt8)} (hlen : ∀ b ∈ parts, b.length = 16) :
    decodeProgram parts.flatten = mapIndexed "instruction" decode parts := by
  have hall : parts.flatten.length % byteSize = 0 := by
    rw [List.length_flatten, List.map_congr_left hlen]
    simp [byteSize]
  unfold decodeProgram
  rw [if_neg (by simpa using hall), chunks_flatten (n := byteSize) (by decide) hlen]

/-- **A stream can be written if each of its instructions can**, and is read back. -/
theorem encodeProgram_eq {is : List Instruction} (h : ∀ i ∈ is, i.Encodable) :
    ∃ parts, List.Forall₂ (fun i b => i.encode = .ok b) is parts ∧
      encodeProgram is = .ok parts.flatten ∧ decodeProgram parts.flatten = .ok (is.map visible) := by
  have hparts : List.Forall₂ (fun i b => i.encode = .ok b) is
      (is.map fun i => littleEndian byteSize i.number) := by
    rw [List.forall₂_map_right_iff, List.forall₂_same]
    exact fun i hi => encode_of_encodable (h i hi)
  refine ⟨_, hparts, Outcome.bind_ok (mapIndexed_eq_ok.2 hparts) rfl, ?_⟩
  rw [decodeProgram_flatten (by simp [byteSize]), mapIndexed_eq_ok, List.forall₂_map_left_iff,
    List.forall₂_map_right_iff, List.forall₂_same]
  exact fun i hi => decode_encode (h i hi)

/-- Only such a stream can be written. -/
theorem encodable_of_encodeProgram {is : List Instruction} {bs : List UInt8}
    (h : encodeProgram is = .ok bs) : ∀ i ∈ is, i.Encodable := by
  obtain ⟨parts, hparts, _⟩ := Outcome.bind_eq_ok.1 h
  intro i hi
  obtain ⟨b, _, hb⟩ := forall₂_left (mapIndexed_eq_ok.1 hparts) hi
  exact encodable_of_encode hb

/-- **The first instruction that cannot be written is named.** -/
theorem encodeProgram_first {pre post : List Instruction} {i : Instruction}
    (hpre : ∀ a ∈ pre, a.Encodable) (hi : ¬i.Encodable) :
    ∃ cause, i.encode = Outcome.refuse cause ∧
      encodeProgram (pre ++ i :: post) =
        .error (.report ⟨[s!"instruction {pre.length}"], cause⟩) := by
  obtain ⟨object, detail, he⟩ := encode_refuses hi
  refine ⟨_, he, ?_⟩
  unfold encodeProgram
  rw [mapIndexed_error (fun a ha => ⟨_, encode_of_encodable (hpre a ha)⟩) he]
  rfl

/-- **A stream of codes with a meaning can be read**, and is written again with the unused
bits cleared. -/
theorem decodeProgram_eq {parts : List (List UInt8)} (hlen : ∀ b ∈ parts, b.length = 16)
    (hop : ∀ b ∈ parts, opcodeBits b ≤ 4) :
    ∃ is, decodeProgram parts.flatten = .ok is ∧
      encodeProgram is = .ok (parts.map clearUnused).flatten := by
  have hread : ∀ b ∈ parts, ∃ i, decode b = .ok i ∧ i.encode = .ok (clearUnused b) :=
    fun b hb => encode_decode (hlen b hb) (hop b hb)
  obtain ⟨is, his, hwrite⟩ : ∃ is, List.Forall₂ (fun b i => decode b = .ok i) parts is ∧
      List.Forall₂ (fun i b => i.encode = .ok b) is (parts.map clearUnused) := by
    clear hlen hop
    induction parts with
    | nil => exact ⟨[], .nil, .nil⟩
    | cons b parts ih =>
      obtain ⟨i, hi, hb⟩ := hread b List.mem_cons_self
      obtain ⟨is, his, hbs⟩ := ih fun b hb => hread b (List.mem_cons_of_mem _ hb)
      exact ⟨i :: is, .cons hi his, .cons hb hbs⟩
  refine ⟨is, ?_, Outcome.bind_ok (mapIndexed_eq_ok.2 hwrite) rfl⟩
  rw [decodeProgram_flatten hlen, mapIndexed_eq_ok]
  exact his

/-- **The first code without a meaning is named.** -/
theorem decodeProgram_first {pre post : List (List UInt8)} {b : List UInt8}
    (hlen : ∀ c ∈ pre ++ b :: post, c.length = 16) (hpre : ∀ c ∈ pre, opcodeBits c ≤ 4)
    (hb : 5 ≤ opcodeBits b) :
    decodeProgram (pre ++ b :: post).flatten =
      .error (.report ⟨[s!"instruction {pre.length}"],
        .diagnosis ⟨"instruction", .unknownOp (.opcodeUnassigned (opcodeBits b))⟩⟩) := by
  rw [decodeProgram_flatten hlen]
  refine mapIndexed_error (fun c hc => ?_) (decode_unassigned (hlen b (by simp)) hb)
  obtain ⟨i, hi, _⟩ := encode_decode (hlen c (by simp [hc])) (hpre c hc)
  exact ⟨i, hi⟩

/-- **Instructions in binary, both ways.** An instruction can be written if its opcode has a
meaning and every field of it fits, and then as the number with these fields at their places;
reading gives back the fields the opcode has. Every 16 bytes with such an opcode can be read,
and are written again with only the unused bits cleared; an opcode without a meaning is
refused. Streams are written and read instruction by instruction, and a failure names the
first that fails. -/
theorem instructions_round_trip :
    (∀ i : Instruction,
      ((∃ bs, i.encode = .ok bs) ↔ i.Encodable) ∧
      ∀ bs, i.encode = .ok bs →
        bs.length = 16 ∧ ofLittleEndian bs = i.number ∧ clearUnused bs = bs ∧
          decode bs = .ok i.visible) ∧
    (∀ bs : List UInt8, bs.length = 16 →
      (opcodeBits bs ≤ 4 → ∃ i, decode bs = .ok i ∧ i.encode = .ok (clearUnused bs)) ∧
      (5 ≤ opcodeBits bs → decode bs =
        Outcome.diagnose "instruction" (.unknownOp (.opcodeUnassigned (opcodeBits bs))))) ∧
    (∀ is : List Instruction,
      ((∃ bs, encodeProgram is = .ok bs) ↔ ∀ i ∈ is, i.Encodable) ∧
      ∀ bs, encodeProgram is = .ok bs →
        (∃ parts, List.Forall₂ (fun i b => i.encode = .ok b) is parts ∧ bs = parts.flatten) ∧
          decodeProgram bs = .ok (is.map visible)) ∧
    (∀ (pre : List Instruction) (i : Instruction) (post : List Instruction),
      (∀ a ∈ pre, a.Encodable) → ¬i.Encodable →
        ∃ cause, i.encode = Outcome.refuse cause ∧
          encodeProgram (pre ++ i :: post) =
            .error (.report ⟨[s!"instruction {pre.length}"], cause⟩)) ∧
    (∀ parts : List (List UInt8), (∀ b ∈ parts, b.length = 16) → (∀ b ∈ parts, opcodeBits b ≤ 4) →
      ∃ is, decodeProgram parts.flatten = .ok is ∧
        encodeProgram is = .ok (parts.map clearUnused).flatten) ∧
    (∀ (pre : List (List UInt8)) (b : List UInt8) (post : List (List UInt8)),
      (∀ c ∈ pre ++ b :: post, c.length = 16) → (∀ c ∈ pre, opcodeBits c ≤ 4) →
      5 ≤ opcodeBits b →
        decodeProgram (pre ++ b :: post).flatten =
          .error (.report ⟨[s!"instruction {pre.length}"],
            .diagnosis ⟨"instruction", .unknownOp (.opcodeUnassigned (opcodeBits b))⟩⟩)) := by
  refine ⟨fun i => ⟨⟨?_, ?_⟩, fun bs h => encode_eq h⟩, fun bs hlen => ⟨encode_decode hlen,
    decode_unassigned hlen⟩, fun is => ⟨⟨?_, ?_⟩, fun bs h => ?_⟩, fun pre i post hpre hi =>
    encodeProgram_first hpre hi, fun parts hlen hop => decodeProgram_eq hlen hop,
    fun pre b post hlen hpre hb => decodeProgram_first hlen hpre hb⟩
  · rintro ⟨bs, h⟩
    exact encodable_of_encode h
  · intro h
    exact ⟨_, encode_of_encodable h⟩
  · rintro ⟨bs, h⟩ i hi
    exact encodable_of_encodeProgram h i hi
  · intro h
    obtain ⟨parts, _, hwrite, _⟩ := encodeProgram_eq h
    exact ⟨_, hwrite⟩
  · obtain ⟨parts, hparts, hwrite, hread⟩ := encodeProgram_eq (encodable_of_encodeProgram h)
    obtain rfl := Except.ok.inj (hwrite.symm.trans h)
    exact ⟨⟨parts, hparts, rfl⟩, hread⟩

/-- An operation with the widest loops and the least immediate, and a field of a transfer
besides. -/
def Instruction.widest : Instruction where
  opcode := .alu
  flags := ⟨true, false, true, true⟩
  dramBase := 5
  uopBegin := 8191
  uopEnd := 16383
  loopOut := 16383
  loopIn := 16383
  dstFactorOut := 2047
  srcFactorIn := 2047
  aluOp := .mul
  useImm := true
  imm := -32768

theorem widest_round_trips :
    Instruction.widest.Encodable ∧
      (∃ bs, widest.encode = .ok bs ∧ decode bs = .ok { widest with dramBase := 0 }) ∧
      (∃ i, decode (List.replicate 16 0xfa) = .ok i ∧
        i.encode = .ok (List.replicate 7 0xfa ++ 0x7a :: List.replicate 8 0xfa)) ∧
      (∃ cause, encodeProgram [widest, { widest with imm := 32768 }] =
        .error (.report ⟨["instruction 1"], cause⟩)) ∧
      decodeProgram (List.replicate 16 0xfa ++ List.replicate 16 0xff) =
        .error (.report ⟨["instruction 1"],
          .diagnosis ⟨"instruction", .unknownOp (.opcodeUnassigned 7)⟩⟩) := by
  obtain ⟨hone, hread, hstream, hfirst, -, hbad⟩ := instructions_round_trip
  have hfit : widest.Encodable := by
    refine ⟨⟨?_, ?_, ?_, ?_, ?_, ?_, ?_, ?_⟩, ⟨?_, ?_, ?_⟩⟩ <;> decide
  have hwide : ¬({ widest with imm := 32768 } : Instruction).Encodable := by
    rintro ⟨_, h⟩
    exact absurd h.imm_high (by decide)
  refine ⟨hfit, ?_, ?_, ?_, ?_⟩
  · obtain ⟨bs, hbs⟩ := (hone widest).1.2 hfit
    exact ⟨bs, hbs, ((hone widest).2 bs hbs).2.2.2⟩
  · exact (hread (List.replicate 16 0xfa) rfl).1 (by decide)
  · obtain ⟨cause, _, h⟩ := hfirst [widest] _ [] (by simpa using hfit) hwide
    exact ⟨cause, h⟩
  · exact hbad [List.replicate 16 0xfa] (List.replicate 16 0xff) [] (by simp) (by decide) (by decide)

end Tessera
