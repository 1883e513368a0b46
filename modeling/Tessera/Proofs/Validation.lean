import Tessera.Proofs.Hardware

/-!
# Which configurations are accepted

A configuration is accepted if its scalar types are supported, its blocks have at most 64 rows,
and each buffer holds a unit of what it is for and has less than `2 ^ 63` bytes. Any other
configuration is refused with a diagnosis, but for one kind: the size of a buffer with a negative
logarithm cannot be computed, and the attempt is a fault.

* `Config.Sized`, `Config.Accepted`: what is asked of a configuration.
* `unitsIn_cases`: how much a buffer holds.
* `Config.Sized.scheduling_cases`: how much the buffers of a configuration hold.
* `Config.validate_cases`, `Config.validate_exact`: what validation comes to.
* `Config.negativeBuffer_faults`: a configuration that is neither accepted nor refused.
-/

namespace Tessera

theorem twoTo_lt_half {n : Nat} (h : n < 63) : twoTo n < 9223372036854775808 :=
  Nat.pow_lt_pow_right (by decide) h

/-- A product of powers of two, if it is a word. -/
theorem wrap64_twoTo_mul {m n : Nat} (h : m + n < 63) :
    wrap64 ((twoTo m : Int) * (twoTo n : Int)) = (twoTo (m + n) : Int) := by
  have hlt := twoTo_lt_half h
  have hmul : twoTo m * twoTo n = twoTo (m + n) := (pow_add 2 m n).symm
  rw [← Int.natCast_mul, hmul, wrap64_small (by omega) (by omega)]

theorem shiftOne_eq {n : Int} (h0 : 0 ≤ n) (h62 : n ≤ 62) : shiftOne n = .ok (twoTo n.toNat : Int) := by
  have hlt := twoTo_lt_half (n := n.toNat) (by omega)
  rw [shiftOne, if_neg (by omega), if_neg (by omega), wrap64_small (by omega) (by omega)]

/-- A power of two that is no word is read as zero or as a negative number. -/
theorem shiftOne_large {n : Int} (h : 63 ≤ n) :
    ∃ a, shiftOne n = .ok a ∧ -9223372036854775808 ≤ a ∧ a ≤ 0 := by
  rcases eq_or_lt_of_le h with rfl | h64
  · exact ⟨-9223372036854775808, rfl, le_rfl, by decide⟩
  · exact ⟨0, by rw [shiftOne, if_neg (by omega), if_pos (by omega)], by decide, le_rfl⟩

theorem quotient_nonpos {a : Int} {b : Nat} (hb : 0 < b) (lo : -9223372036854775808 ≤ a) (hi : a ≤ 0) :
    ∃ q, quotient a b = .ok q ∧ q ≤ 0 := by
  obtain ⟨m, rfl⟩ := Int.exists_eq_neg_ofNat hi
  have hdiv := Nat.div_le_self m b
  rw [quotient, if_neg (by omega), Int.neg_tdiv, ← Int.ofNat_tdiv]
  generalize m / b = q at hdiv
  exact ⟨_, rfl, by rw [wrap64_small (by omega) (by omega)]; omega⟩

theorem Scalar.ofLog_supported {n : Int} (h : Scalar.Supported ⟨n⟩) (object : String) :
    Scalar.ofLog object n = .ok ⟨n⟩ := by
  have hlow : 3 ≤ n := h.1
  have hhigh : n ≤ 5 := h.2
  exact if_neg (by omega)

theorem Scalar.ofLog_unsupported {n : Int} (h : ¬Scalar.Supported ⟨n⟩) (object : String) :
    Scalar.ofLog object n = Outcome.diagnose object (.dtypeUnsupported (.logWidth n)) := by
  refine if_pos ?_
  by_contra hn
  exact h ⟨show 3 ≤ n by omega, show n ≤ 5 by omega⟩

/-- How many units of `2 ^ m` bytes a buffer of `2 ^ n` bytes holds. -/
def unitsIn (n : Int) (m : Nat) : Outcome Int := do quotient (← shiftOne n) (twoTo m)

/-- **What a buffer holds**: nothing can be said if its logarithm is negative, and it holds a unit
if it is not smaller than one and its size is a word. -/
theorem unitsIn_cases (n : Int) (m : Nat) :
    unitsIn n m = .error .fault ∧ n < 0 ∨
    ∃ q, unitsIn n m = .ok q ∧ 0 ≤ n ∧ (1 ≤ q ↔ m ≤ n ∧ n ≤ 62) := by
  have hpos := twoTo_pos m
  rcases lt_or_ge n 0 with hneg | hnonneg
  · left
    rw [unitsIn, shiftOne, if_pos hneg]
    exact ⟨rfl, hneg⟩
  right
  rcases le_or_gt n 62 with h62 | hlarge
  · have hlt := twoTo_lt_half (n := n.toNat) (by omega)
    have hquotient := quotient_small (a := twoTo n.toNat) (b := twoTo m) (by omega) (by omega) (by omega)
    refine ⟨_, Outcome.bind_ok (shiftOne_eq hnonneg h62) hquotient, hnonneg, ?_⟩
    rw [Int.le_ediv_iff_mul_le (by omega), one_mul, Int.ofNat_le]
    have hpow : twoTo m ≤ twoTo n.toNat ↔ m ≤ n.toNat := Nat.pow_le_pow_iff_right (by decide)
    omega
  · obtain ⟨size, hsize, hlow, hhigh⟩ := shiftOne_large (show 63 ≤ n by omega)
    obtain ⟨q, hq, hle⟩ := quotient_nonpos hpos hlow hhigh
    exact ⟨q, Outcome.bind_ok hsize hq, hnonneg, by omega⟩

namespace Config

/-- The scalar types are supported, and blocks have at most 64 rows. -/
structure Sized (c : Config) : Prop where
  inp : 3 ≤ c.logInpWidth ∧ c.logInpWidth ≤ 5
  wgt : 3 ≤ c.logWgtWidth ∧ c.logWgtWidth ≤ 5
  acc : 3 ≤ c.logAccWidth ∧ c.logAccWidth ≤ 5
  block : 0 ≤ c.logBlock ∧ c.logBlock ≤ 6

/-- Each buffer holds a unit as well: a row of inputs or accumulators, a block of weights, a
micro-operation. -/
structure Accepted (c : Config) : Prop extends Sized c where
  inpBuffer : c.logInpWidth - 3 + c.logBlock ≤ c.logInpBuffer ∧ c.logInpBuffer ≤ 62
  wgtBuffer : c.logWgtWidth - 3 + 2 * c.logBlock ≤ c.logWgtBuffer ∧ c.logWgtBuffer ≤ 62
  accBuffer : c.logAccWidth - 3 + c.logBlock ≤ c.logAccBuffer ∧ c.logAccBuffer ≤ 62
  uopBuffer : 2 ≤ c.logUopBuffer ∧ c.logUopBuffer ≤ 62

/-- Some buffer has a negative logarithm. -/
def NegativeBuffer (c : Config) : Prop :=
  c.logInpBuffer < 0 ∨ c.logWgtBuffer < 0 ∨ c.logAccBuffer < 0 ∨ c.logUopBuffer < 0

/-- What a configuration is refused for: a width, the side of a block, or what the buffers
hold. -/
inductive Refused (c : Config) : String → Detail → Prop
  | inp : ¬c.inp.Supported → Refused c "LOG_INP_WIDTH" (.dtypeUnsupported (.logWidth c.logInpWidth))
  | wgt : ¬c.wgt.Supported → Refused c "LOG_WGT_WIDTH" (.dtypeUnsupported (.logWidth c.logWgtWidth))
  | acc : ¬c.acc.Supported → Refused c "LOG_ACC_WIDTH" (.dtypeUnsupported (.logWidth c.logAccWidth))
  | block : c.logBlock < 0 ∨ 6 < c.logBlock →
      Refused c "LOG_BLOCK" (.capacityTooSmall (.blockSize c.logBlock))
  | buffers {caps : Capacities} : c.schedulingCapacities = .ok caps →
      caps.inp < 1 ∨ caps.wgt < 1 ∨ caps.acc < 1 ∨ caps.uop < 1 →
      Refused c "config" (.capacityTooSmall (.noBlockFits caps))

variable {c : Config}

/-- Buffers that hold a unit have no negative logarithm. -/
theorem Accepted.not_negative (h : c.Accepted) : ¬c.NegativeBuffer := by
  obtain ⟨⟨hi, hw, ha, hb⟩, hinp, hwgt, hacc, huop⟩ := h
  unfold NegativeBuffer
  omega

/-- The capacities in terms of what blocks and scalars take. -/
theorem capacities_of_bytes {b inp wgt acc : Int} (hb : c.block = .ok b) (hinp : c.inp.bytes = .ok inp)
    (hwgt : c.wgt.bytes = .ok wgt) (hacc : c.acc.bytes = .ok acc) : c.capacities = do
    let acc ← quotient (← shiftOne c.logAccBuffer) (wrap64 (acc * b))
    let inp ← quotient (← shiftOne c.logInpBuffer) (wrap64 (inp * b))
    let wgt ← quotient (← shiftOne c.logWgtBuffer) (wrap64 (wrap64 (wgt * b) * b))
    let uop ← quotient (← shiftOne c.logUopBuffer) 4
    return ⟨inp, wgt, acc, acc, uop⟩ := by
  rw [capacities, hb, hinp, hwgt, hacc]
  simp only [Outcome.ok_bind]

/-- The logarithm of the bytes of a row. -/
def rowLog (c : Config) (s : Scalar) : Nat := (s.logWidth - 3).toNat + c.logBlock.toNat

namespace Sized

theorem rowLog_eq (h : c.Sized) {s : Scalar} (hs : s.Supported) :
    (c.rowLog s : Int) = s.logWidth - 3 + c.logBlock := by
  have hwidth : 3 ≤ s.logWidth := hs.1
  have hblock := h.block
  unfold rowLog
  omega

theorem rowLog_le (h : c.Sized) {s : Scalar} (hs : s.Supported) : c.rowLog s ≤ 8 := by
  have hlog := h.rowLog_eq hs
  have hwidth : s.logWidth ≤ 5 := hs.2
  have hblock := h.block
  omega

theorem block_eq (h : c.Sized) : c.block = .ok (twoTo c.logBlock.toNat : Int) :=
  shiftOne_eq h.block.1 (by have := h.block.2; omega)

/-- The bytes of a row. -/
theorem row_bytes (h : c.Sized) {s : Scalar} (hs : s.Supported) :
    wrap64 ((s.width : Int) * (twoTo c.logBlock.toNat : Int)) = (twoTo (c.rowLog s) : Int) :=
  wrap64_twoTo_mul (lt_of_le_of_lt (h.rowLog_le hs) (by decide))

/-- The bytes of a block of weights. -/
theorem block_bytes (h : c.Sized) (hs : c.wgt.Supported) :
    wrap64 ((twoTo (c.rowLog c.wgt) : Int) * (twoTo c.logBlock.toNat : Int)) =
      (twoTo (c.rowLog c.wgt + c.logBlock.toNat) : Int) := by
  have hrow := h.rowLog_le hs
  have hblock := h.block
  exact wrap64_twoTo_mul (by omega)

/-- **What the scratchpads hold**, buffer by buffer. -/
theorem capacities_eq (h : c.Sized) : c.capacities = do
    let acc ← unitsIn c.logAccBuffer (c.rowLog c.acc)
    let inp ← unitsIn c.logInpBuffer (c.rowLog c.inp)
    let wgt ← unitsIn c.logWgtBuffer (c.rowLog c.wgt + c.logBlock.toNat)
    let uop ← unitsIn c.logUopBuffer 2
    return ⟨inp, wgt, acc, acc, uop⟩ := by
  have hinp : c.inp.Supported := h.inp
  have hwgt : c.wgt.Supported := h.wgt
  have hacc : c.acc.Supported := h.acc
  have hword : (twoTo 2 : Int) = 4 := rfl
  rw [capacities_of_bytes h.block_eq hinp.bytes hwgt.bytes hacc.bytes, h.row_bytes hinp,
    h.row_bytes hwgt, h.row_bytes hacc, h.block_bytes hwgt]
  simp only [unitsIn, bind_assoc, hword]

/-- What micro-operations can address is at least a unit of each kind. -/
theorem scheduling_eq (h : c.Sized) {inp wgt acc uop : Int}
    (hinp : unitsIn c.logInpBuffer (c.rowLog c.inp) = .ok inp)
    (hwgt : unitsIn c.logWgtBuffer (c.rowLog c.wgt + c.logBlock.toNat) = .ok wgt)
    (hacc : unitsIn c.logAccBuffer (c.rowLog c.acc) = .ok acc)
    (huop : unitsIn c.logUopBuffer 2 = .ok uop) :
    ∃ rows, 1 ≤ rows ∧ c.schedulingCapacities =
      .ok ⟨min inp rows, min wgt 1024, min acc rows, min acc rows, uop⟩ := by
  have hpos := twoTo_pos c.logBlock.toNat
  have hside : twoTo c.logBlock.toNat ≤ twoTo 6 :=
    Nat.pow_le_pow_right (by decide) (by have := h.block.2; omega)
  have hsix : twoTo 6 = 64 := rfl
  have hrows : quotient (2048 : Int) (twoTo c.logBlock.toNat : Int) =
      .ok (2048 / (twoTo c.logBlock.toNat : Int)) :=
    quotient_small (by omega) (by omega) (by omega)
  refine ⟨2048 / (twoTo c.logBlock.toNat : Int), ?_, ?_⟩
  · rw [Int.le_ediv_iff_mul_le (by omega)]
    omega
  · have hcaps : c.capacities = .ok ⟨inp, wgt, acc, acc, uop⟩ := by
      rw [h.capacities_eq, hacc, hinp, hwgt, huop]
      rfl
    unfold schedulingCapacities
    exact Outcome.bind_ok hcaps (Outcome.bind_ok h.block_eq (Outcome.bind_ok hrows rfl))

/-- **What the scratchpads are taken to hold**: at least a unit each just if the configuration is
accepted. -/
theorem scheduling_cases (h : c.Sized) :
    c.schedulingCapacities = .error .fault ∧ c.NegativeBuffer ∨
    ∃ caps, c.schedulingCapacities = .ok caps ∧ ¬c.NegativeBuffer ∧
      (c.Accepted ↔ 1 ≤ caps.inp ∧ 1 ≤ caps.wgt ∧ 1 ≤ caps.acc ∧ 1 ≤ caps.uop) := by
  have hcaps := h.capacities_eq
  have hfault : c.capacities = .error .fault → c.schedulingCapacities = .error .fault := fun heq => by
    rw [schedulingCapacities, heq]
    rfl
  unfold NegativeBuffer
  -- the first buffer of which nothing can be said stops the computation
  obtain ⟨hacc, hneg⟩ | ⟨acc, hacc, hacc0, haccIff⟩ := unitsIn_cases c.logAccBuffer (c.rowLog c.acc)
  · rw [hacc] at hcaps
    exact Or.inl ⟨hfault hcaps, by omega⟩
  obtain ⟨hinp, hneg⟩ | ⟨inp, hinp, hinp0, hinpIff⟩ := unitsIn_cases c.logInpBuffer (c.rowLog c.inp)
  · rw [hacc, hinp] at hcaps
    exact Or.inl ⟨hfault hcaps, by omega⟩
  obtain ⟨hwgt, hneg⟩ | ⟨wgt, hwgt, hwgt0, hwgtIff⟩ :=
    unitsIn_cases c.logWgtBuffer (c.rowLog c.wgt + c.logBlock.toNat)
  · rw [hacc, hinp, hwgt] at hcaps
    exact Or.inl ⟨hfault hcaps, by omega⟩
  obtain ⟨huop, hneg⟩ | ⟨uop, huop, huop0, huopIff⟩ := unitsIn_cases c.logUopBuffer 2
  · rw [hacc, hinp, hwgt, huop] at hcaps
    exact Or.inl ⟨hfault hcaps, by omega⟩
  right
  obtain ⟨rows, hrows, heq⟩ := h.scheduling_eq hinp hwgt hacc huop
  refine ⟨_, heq, by omega, ?_⟩
  have hinpLog : (c.rowLog c.inp : Int) = c.logInpWidth - 3 + c.logBlock := h.rowLog_eq h.inp
  have hwgtLog : (c.rowLog c.wgt : Int) = c.logWgtWidth - 3 + c.logBlock := h.rowLog_eq h.wgt
  have haccLog : (c.rowLog c.acc : Int) = c.logAccWidth - 3 + c.logBlock := h.rowLog_eq h.acc
  have hblock := h.block
  dsimp only
  constructor
  · rintro ⟨-, hinpBuffer, hwgtBuffer, haccBuffer, huopBuffer⟩
    refine ⟨?_, ?_, ?_, ?_⟩ <;> omega
  · rintro ⟨h1, h2, h3, h4⟩
    refine ⟨h, ?_, ?_, ?_, ?_⟩ <;> omega

/-- With supported types and blocks, the buffers decide. -/
theorem validate_eq (h : c.Sized) : c.validate = c.schedulingCapacities >>= fun caps =>
    if caps.inp < 1 ∨ caps.wgt < 1 ∨ caps.acc < 1 ∨ caps.uop < 1 then
      Outcome.diagnose "config" (.capacityTooSmall (.noBlockFits caps))
    else .ok () := by
  have hblock := h.block
  rw [validate, Scalar.ofLog_supported h.inp, Scalar.ofLog_supported h.wgt,
    Scalar.ofLog_supported h.acc]
  simp only [Outcome.ok_bind]
  rw [if_neg (by omega)]
  rfl

end Sized

/-- Without, validation names the first type that is not supported, or else the block. -/
theorem refused_of_not_sized (h : ¬c.Sized) :
    ∃ object detail, c.Refused object detail ∧ c.validate = Outcome.diagnose object detail := by
  unfold validate
  by_cases hi : c.inp.Supported
  swap
  · rw [Scalar.ofLog_unsupported hi]
    exact ⟨_, _, .inp hi, rfl⟩
  by_cases hw : c.wgt.Supported
  swap
  · rw [Scalar.ofLog_supported hi, Scalar.ofLog_unsupported hw]
    exact ⟨_, _, .wgt hw, rfl⟩
  by_cases ha : c.acc.Supported
  swap
  · rw [Scalar.ofLog_supported hi, Scalar.ofLog_supported hw, Scalar.ofLog_unsupported ha]
    exact ⟨_, _, .acc ha, rfl⟩
  have hblock : c.logBlock < 0 ∨ 6 < c.logBlock := by
    by_contra hb
    exact h ⟨hi, hw, ha, by omega⟩
  rw [Scalar.ofLog_supported hi, Scalar.ofLog_supported hw, Scalar.ofLog_supported ha]
  simp only [Outcome.ok_bind]
  rw [if_pos hblock]
  exact ⟨_, _, .block hblock, rfl⟩

/-- **Validation comes to one of three ends.** -/
theorem validate_cases (c : Config) :
    c.validate = .ok () ∧ c.Accepted ∨
    c.validate = .error .fault ∧ c.Sized ∧ c.NegativeBuffer ∨
    ∃ object detail, c.Refused object detail ∧ c.validate = Outcome.diagnose object detail ∧
      ¬c.Accepted ∧ ¬(c.Sized ∧ c.NegativeBuffer) := by
  by_cases hsized : c.Sized
  swap
  · obtain ⟨object, detail, hrefused, heq⟩ := refused_of_not_sized hsized
    exact Or.inr (Or.inr ⟨object, detail, hrefused, heq, fun h => hsized h.toSized, fun h => hsized h.1⟩)
  obtain ⟨hfault, hneg⟩ | ⟨caps, hcaps, hneg, hiff⟩ := hsized.scheduling_cases
  · right
    left
    rw [hsized.validate_eq, hfault]
    exact ⟨rfl, hsized, hneg⟩
  rw [hsized.validate_eq, hcaps, Outcome.ok_bind]
  by_cases hsmall : caps.inp < 1 ∨ caps.wgt < 1 ∨ caps.acc < 1 ∨ caps.uop < 1
  · refine Or.inr (Or.inr ⟨_, _, .buffers hcaps hsmall, if_pos hsmall, fun h => ?_, fun h => hneg h.2⟩)
    obtain ⟨h1, h2, h3, h4⟩ := hiff.1 h
    omega
  · exact Or.inl ⟨if_neg hsmall, hiff.2 (by omega)⟩

/-- **Which configurations are accepted, and what that means.** Validation accepts a configuration
just if it should, and all others are refused for a reason, but for those with supported types and
blocks of which some buffer has a negative logarithm: they fault. The scratchpads of an accepted
configuration hold at least a unit each and no more than a micro-operation can address. -/
theorem validate_exact (c : Config) :
    (c.validate = .ok () ↔ c.Accepted) ∧
    (c.validate = .error .fault ↔ c.Sized ∧ c.NegativeBuffer) ∧
    (c.validate = .ok () ∨ c.validate = .error .fault ∨
      ∃ object detail, c.Refused object detail ∧ c.validate = Outcome.diagnose object detail) ∧
    (c.Accepted → ∃ (b : Nat) (caps : Capacities), c.block = .ok (b : Int) ∧
      c.schedulingCapacities = .ok caps ∧
      (1 ≤ caps.inp ∧ 1 ≤ caps.wgt ∧ 1 ≤ caps.acc ∧ 1 ≤ caps.out ∧ 1 ≤ caps.uop) ∧
      caps.inp * b ≤ 2 ^ 11 ∧ caps.acc * b ≤ 2 ^ 11 ∧ caps.wgt ≤ 2 ^ 10) := by
  have haccepted : c.validate = .ok () ↔ c.Accepted := by
    obtain ⟨heq, h⟩ | ⟨heq, -, hneg⟩ | ⟨object, detail, -, heq, h, -⟩ := validate_cases c
    · exact iff_of_true heq h
    · exact iff_of_false (fun h => by rw [heq] at h; cases h) fun h => h.not_negative hneg
    · exact iff_of_false (fun h => by rw [heq] at h; cases h) h
  refine ⟨haccepted, ?_, ?_, fun h => ?_⟩
  · obtain ⟨heq, h⟩ | ⟨heq, hsized, hneg⟩ | ⟨object, detail, -, heq, -, h⟩ := validate_cases c
    · exact iff_of_false (fun h => by rw [heq] at h; cases h) fun hbad => h.not_negative hbad.2
    · exact iff_of_true heq ⟨hsized, hneg⟩
    · exact iff_of_false (fun h => by rw [heq] at h; cases h) h
  · obtain ⟨heq, -⟩ | ⟨heq, -⟩ | ⟨object, detail, hrefused, heq, -⟩ := validate_cases c
    · exact Or.inl heq
    · exact Or.inr (Or.inl heq)
    · exact Or.inr (Or.inr ⟨object, detail, hrefused, heq⟩)
  · have hrows : (2 : Int) ^ 11 = 2048 := by norm_num
    have hblocks : (2 : Int) ^ 10 = 1024 := by norm_num
    obtain ⟨b, hsound, caps, hcaps, hwithin⟩ := validate_sound (haccepted.2 h)
    rw [hrows, hblocks]
    exact ⟨b, caps, hsound.block, hcaps, ⟨hwithin.inp_pos, hwithin.wgt_pos, hwithin.acc_pos,
      hwithin.out ▸ hwithin.acc_pos, hwithin.uop_pos⟩, hwithin.inp_rows, hwithin.acc_rows,
      hwithin.wgt_le⟩

/-- The standard configuration is accepted. -/
theorem standard_accepted : standard.Accepted ∧ ∃ (b : Nat) (caps : Capacities),
    standard.block = .ok (b : Int) ∧ standard.schedulingCapacities = .ok caps ∧
    (1 ≤ caps.inp ∧ 1 ≤ caps.wgt ∧ 1 ≤ caps.acc ∧ 1 ≤ caps.out ∧ 1 ≤ caps.uop) ∧
    caps.inp * b ≤ 2 ^ 11 ∧ caps.acc * b ≤ 2 ^ 11 ∧ caps.wgt ≤ 2 ^ 10 := by
  have hsized : standard.Sized := ⟨by decide, by decide, by decide, by decide⟩
  have haccepted : standard.Accepted := ⟨hsized, by decide, by decide, by decide, by decide⟩
  exact ⟨haccepted, (validate_exact standard).2.2.2 haccepted⟩

/-- **A negative logarithm is not refused.** The buffer for inputs has the only one of this
configuration, and nothing else is wrong with it. -/
theorem negativeBuffer_faults :
    { standard with logInpBuffer := -1 }.validate = .error .fault ∧
    ¬∃ object detail, { standard with logInpBuffer := -1 }.validate =
      Outcome.diagnose object detail :=
  ⟨rfl, fun ⟨_, _, h⟩ => by cases h⟩

end Config

end Tessera
