import Mathlib.Tactic.Ring
import Tessera.Proofs.Outcome
import Tessera.Stream.Code

/-!
# Moving the table of micro-operations

The loads of a stream count from the start of their table until it is known where the table
stands. Then each load is moved in turn, and the first one out of reach ends it: those before
it are moved by then, and stay so.

* `Instruction.Moved`: what moving the table makes of an instruction.
* `Instruction.rebase_moved`, `Instruction.address_of_outOfReach`: an instruction that is
  moved, and one that is refused.
* `Code.relocateFrom_eq`, `Code.relocate_eq_ok`: streams of which all loads are in reach.
* `Code.relocate_moves`: every stream.
* `Instruction.rebase_wraps`, `Code.relocate_wraps`: addresses that reach `2 ^ 64`.
* `Code.twoLoads_halfMoved`: a stream that is refused and changed.
-/

namespace Tessera

namespace Instruction

variable {base : UInt64} {i : Instruction}

/-- What moving the table by `base` makes of an instruction: a load from the table has its
address larger by `base`, nothing else of it changes, and no other instruction does. -/
structure Moved (base : Nat) (i j : Instruction) : Prop where
  fields : j = { i with dramBase := j.dramBase }
  other : i.loadsMicroOps = false → j = i
  address : i.loadsMicroOps = true → i.dramBase.toNat + base < 2 ^ 64 →
    j.dramBase.toNat = i.dramBase.toNat + base

/-- The address of a load is a sum of words. -/
theorem toNat_tableAddress (base : UInt64) (i : Instruction) :
    (i.tableAddress base).toNat = (i.dramBase.toNat + base.toNat) % 2 ^ 64 := by
  rw [tableAddress, UInt64.toNat_add, UInt32.toNat_toUInt64]

theorem outOfReach_iff :
    i.outOfReach base = true ↔ i.loadsMicroOps = true ∧ 2 ^ 32 ≤ (i.tableAddress base).toNat := by
  rw [outOfReach, Bool.and_eq_true, decide_eq_true_eq, UInt64.lt_iff_toNat_lt]
  rfl

/-- **A load that is refused** has an address of more than 32 bits. -/
theorem address_of_outOfReach (h : i.outOfReach base = true) :
    i.loadsMicroOps = true ∧ 2 ^ 32 ≤ i.dramBase.toNat + base.toNat ∧
      (i.tableAddress base).toNat = i.dramBase.toNat + base.toNat := by
  obtain ⟨hloads, hlarge⟩ := outOfReach_iff.1 h
  rw [toNat_tableAddress] at hlarge ⊢
  have hdram := i.dramBase.toNat_lt
  have hbase := base.toNat_lt
  refine ⟨hloads, ?_, ?_⟩ <;> omega

/-- **An instruction that is not refused** is moved. -/
theorem rebase_moved (h : i.outOfReach base = false) : i.Moved base.toNat (i.rebase base) := by
  unfold rebase
  cases hloads : i.loadsMicroOps with
  | false => exact ⟨rfl, fun _ => rfl, fun hno => absurd (hloads.symm.trans hno) (by decide)⟩
  | true =>
    refine ⟨rfl, fun hno => absurd (hloads.symm.trans hno) (by decide), fun _ hlt => ?_⟩
    have hsmall : (i.tableAddress base).toNat < 2 ^ 32 := by
      by_contra hlarge
      rw [outOfReach_iff.2 ⟨hloads, by omega⟩] at h
      cases h
    rw [toNat_tableAddress, Nat.mod_eq_of_lt hlt] at hsmall
    show (i.tableAddress base).toUInt32.toNat = _
    rw [UInt64.toNat_toUInt32, toNat_tableAddress, Nat.mod_eq_of_lt hlt, Nat.mod_eq_of_lt hsmall]

/-- **A load whose address wraps around** is not refused. Its new address is what is left over
`2 ^ 64`, below its old one. -/
theorem rebase_wraps (hloads : i.loadsMicroOps = true)
    (hwrap : 2 ^ 64 ≤ i.dramBase.toNat + base.toNat) :
    i.outOfReach base = false ∧
      (i.rebase base).dramBase.toNat + 2 ^ 64 = i.dramBase.toNat + base.toNat := by
  have hdram := i.dramBase.toNat_lt
  have hbase := base.toNat_lt
  have haddress : (i.tableAddress base).toNat + 2 ^ 64 = i.dramBase.toNat + base.toNat := by
    rw [toNat_tableAddress]
    omega
  constructor
  · rw [Bool.eq_false_iff, Ne, outOfReach_iff]
    omega
  · rw [rebase, if_pos hloads]
    show (i.tableAddress base).toUInt32.toNat + _ = _
    rw [UInt64.toNat_toUInt32]
    omega

end Instruction

namespace Code

variable {base : UInt64} {is : List Instruction}

/-- Streams of which all loads are in reach are moved. -/
theorem relocateFrom_eq (n : Nat) (h : ∀ i ∈ is, i.outOfReach base = false) :
    relocateFrom base n is = (is.map (·.rebase base), .ok ()) := by
  induction is generalizing n with
  | nil => rfl
  | cons i is ih =>
    rw [List.forall_mem_cons] at h
    rw [relocateFrom, h.1, ih (n + 1) h.2]
    rfl

/-- Only such streams are moved as a whole. -/
theorem reach_of_relocateFrom {n : Nat} (h : (relocateFrom base n is).2 = .ok ()) :
    ∀ i ∈ is, i.outOfReach base = false := by
  induction is generalizing n with
  | nil => exact fun i hi => by cases hi
  | cons i is ih =>
    rw [relocateFrom] at h
    cases hi : i.outOfReach base with
    | true =>
      rw [hi, if_pos rfl] at h
      exact absurd h Outcome.diagnose_ne_ok
    | false =>
      rw [hi, if_neg (by decide)] at h
      exact List.forall_mem_cons.2 ⟨hi, ih h⟩

theorem relocate_eq_ok {code : Code} (h : (code.relocate base).2 = .ok ()) :
    (∀ i ∈ code.instructions, i.outOfReach base = false) ∧
      (code.relocate base).1 = { code with instructions := code.instructions.map (·.rebase base) } := by
  have hreach := reach_of_relocateFrom h
  refine ⟨hreach, ?_⟩
  unfold relocate
  rw [relocateFrom_eq 0 hreach]

/-- **The loads of a stream are moved in turn**, up to the first one out of reach. -/
theorem relocateFrom_moves (base : UInt64) (n : Nat) (is : List Instruction) :
    (∃ js, relocateFrom base n is = (js, .ok ()) ∧
      List.Forall₂ (Instruction.Moved base.toNat) is js) ∨
    ∃ (pre : List Instruction) (i : Instruction) (post js : List Instruction),
      is = pre ++ i :: post ∧ i.loadsMicroOps = true ∧ 2 ^ 32 ≤ i.dramBase.toNat + base.toNat ∧
      List.Forall₂ (Instruction.Moved base.toNat) pre js ∧
      relocateFrom base n is = (js ++ i :: post, Outcome.diagnose s!"insn[{n + pre.length}]"
        (.encodingOverflow (.uopAddress (i.dramBase.toNat + base.toNat)))) := by
  induction is generalizing n with
  | nil => exact Or.inl ⟨[], rfl, .nil⟩
  | cons i is ih =>
    rw [relocateFrom]
    cases hi : i.outOfReach base with
    | true =>
      obtain ⟨hloads, hlarge, haddress⟩ := Instruction.address_of_outOfReach hi
      exact Or.inr ⟨[], i, is, [], rfl, hloads, hlarge, .nil, by rw [haddress]; rfl⟩
    | false =>
      have hmoved := Instruction.rebase_moved hi
      rcases ih (n + 1) with ⟨js, hrest, hall⟩ | ⟨pre, k, post, js, rfl, hloads, hlarge, hall, hrest⟩
      · exact Or.inl ⟨i.rebase base :: js, by rw [hrest]; rfl, .cons hmoved hall⟩
      · refine Or.inr ⟨i :: pre, k, post, i.rebase base :: js, rfl, hloads, hlarge,
          .cons hmoved hall, ?_⟩
        rw [hrest, show n + 1 + pre.length = n + (i :: pre).length by rw [List.length_cons]; omega]
        rfl

/-- **Moving the table**: either every instruction is moved, or a load whose address has more
than 32 bits is refused with all instructions before it moved, and it and all behind it as they
were. The table itself never changes. -/
theorem relocate_moves (base : UInt64) (c : Code) :
    (∃ js, c.relocate base = (⟨js, c.microOps⟩, .ok ()) ∧
      List.Forall₂ (Instruction.Moved base.toNat) c.instructions js) ∨
    ∃ (pre : List Instruction) (i : Instruction) (post js : List Instruction),
      c.instructions = pre ++ i :: post ∧ i.loadsMicroOps = true ∧
      2 ^ 32 ≤ i.dramBase.toNat + base.toNat ∧
      List.Forall₂ (Instruction.Moved base.toNat) pre js ∧
      c.relocate base = (⟨js ++ i :: post, c.microOps⟩, Outcome.diagnose s!"insn[{pre.length}]"
        (.encodingOverflow (.uopAddress (i.dramBase.toNat + base.toNat)))) := by
  unfold relocate
  rcases relocateFrom_moves base 0 c.instructions with
    ⟨js, hmoved, hall⟩ | ⟨pre, i, post, js, hinsns, hloads, hlarge, hall, hrefused⟩
  · exact Or.inl ⟨js, by rw [hmoved], hall⟩
  · refine Or.inr ⟨pre, i, post, js, hinsns, hloads, hlarge, hall, ?_⟩
    rw [hrefused, Nat.zero_add]

/-- **A table whose end wraps around is moved without a refusal**, if every load of the stream
is behind the wrap. Each then has its address lowered. -/
theorem relocate_wraps {code : Code} (h : ∀ i ∈ code.instructions, i.loadsMicroOps = true →
      2 ^ 64 ≤ i.dramBase.toNat + base.toNat) :
    code.relocate base =
      ({ code with instructions := code.instructions.map (·.rebase base) }, .ok ()) := by
  have hreach : ∀ i ∈ code.instructions, i.outOfReach base = false := by
    intro i hi
    cases hloads : i.loadsMicroOps with
    | false => rw [Instruction.outOfReach, hloads, Bool.false_and]
    | true => exact (Instruction.rebase_wraps hloads (h i hi hloads)).1
  rw [relocate, relocateFrom_eq 0 hreach]

/-- With its table 512 bytes below the end of the addresses, a load at 512 is moved to zero. -/
example : Code.relocate 0xfffffffffffffe00 { instructions := [.load .uop 0 512 1 1 1] } =
    ({ instructions := [.load .uop 0 0 1 1 1] }, .ok ()) :=
  rfl

/-- Two loads from the table, one after the other. -/
def twoLoads : Code where
  instructions := [.load .uop 0 0 1 1 1, .load .uop 0 1 1 1 1]
  microOps := [{}, {}]

/-- **A table that is refused has moved some loads.** The first load still reaches its entry at the
last address of 32 bits, the second does not. -/
theorem twoLoads_halfMoved :
    twoLoads.relocate 0xffffffff =
      ({ twoLoads with instructions := [.load .uop 0 0xffffffff 1 1 1, .load .uop 0 1 1 1 1] },
        Outcome.diagnose "insn[1]" (.encodingOverflow (.uopAddress 0x100000000))) ∧
    (twoLoads.relocate 0xffffffff).1 ≠ twoLoads :=
  ⟨rfl, by decide⟩

end Code

end Tessera
