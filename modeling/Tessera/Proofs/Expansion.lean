import Mathlib.Data.List.Chain
import Mathlib.Data.List.Induction
import Mathlib.Data.List.Range
import Tessera.Proofs.Addresses
import Tessera.Stream.Transfer

/-!
# What transfers move, unit by unit

A transfer, or an instruction with two dimensions, pairs units of a scratchpad with
the units of memory that move to or from them, and with zeros behind the data of a
row. The instructions of some transfers pair the same units in the same order,
whether they are one instruction or one each.

* `Instruction.expansion`, `Transfer.expansion`: the pairs, row by row.
* `InStride`, `Rising`, `strided_iff_rising`: when some transfers are one instruction.
* `expansion_move`, `expansion_inStride`: the pairs of an instruction are those of its
  transfers.
* `moves_exact`: the instructions move what the transfers move.
* `outermost_merged`: numbers and counts that wrap around.
-/

namespace Tessera

theorem toNat_ofInt32 {x : Int} (h0 : 0 ≤ x) (h1 : x < 4294967296) :
    (UInt32.ofInt x).toNat = x.toNat := by
  unfold UInt32.ofInt
  rw [UInt32.toNat_ofNat']
  omega

theorem toNat_ofNat32 {n : Nat} (h : n < 4294967296) : (UInt32.ofNat n).toNat = n := by
  rw [UInt32.toNat_ofNat']
  exact Nat.mod_eq_of_lt h

/-- A list spelled out by position. -/
theorem flatMap_eq_range {α β : Type} {f : α → List β} {g : Nat → List β} {xs : List α}
    (h : ∀ y x, xs[y]? = some x → f x = g y) : xs.flatMap f = (List.range xs.length).flatMap g := by
  induction xs using List.reverseRecOn with
  | nil => rfl
  | append_singleton xs x ih =>
    rw [List.length_append, List.length_singleton, List.range_succ, List.flatMap_append,
      List.flatMap_append, List.flatMap_singleton, List.flatMap_singleton,
      h xs.length x (by simp), ih fun y z hz => h y z ?_]
    rw [List.getElem?_append_left (List.getElem?_eq_some_iff.1 hz).1]
    exact hz

/-- Two facts about all neighbours are one. -/
theorem isChain_and {α : Type} {R S : α → α → Prop} {xs : List α} (hr : xs.IsChain R)
    (hs : xs.IsChain S) : xs.IsChain fun x y => R x y ∧ S x y :=
  List.isChain_iff_getElem.2 fun i hi =>
    ⟨List.isChain_iff_getElem.1 hr i hi, List.isChain_iff_getElem.1 hs i hi⟩

/-- One row: units of memory from `dram` on, beside units of the scratchpad from
`sram` on, and zeros behind them. -/
def rowUnits (sram dram size pad : Nat) : List (Nat × Option Nat) :=
  ((List.range size).map fun x => (sram + x, some (dram + x))) ++
    (List.range pad).map fun x => (sram + size + x, none)

/-- The units an instruction pairs: its rows lie `xStride` apart in memory, and follow
each other in the scratchpad. -/
def Instruction.expansion (i : Instruction) : List (Nat × Option Nat) :=
  (List.range i.ySize.toNat).flatMap fun y =>
    rowUnits (i.sramBase.toNat + y * (i.xSize.toNat + i.xPadRight.toNat))
      (i.dramBase.toNat + y * i.xStride.toNat) i.xSize.toNat i.xPadRight.toNat

/-- The units a transfer pairs. -/
def Transfer.expansion (t : Transfer) : List (Nat × Option Nat) :=
  rowUnits t.sram.toNat t.dram.toNat t.size.toNat t.pad.toNat

/-- A mover that leaves all fields but its own at zero. -/
structure Mover.Plain (m : Mover) : Prop where
  base : ∀ sram dram height width stride, (m sram dram height width stride).sramBase = sram ∧
    (m sram dram height width stride).dramBase = dram
  size : ∀ sram dram height width stride, (m sram dram height width stride).ySize = height ∧
    (m sram dram height width stride).xSize = width
  stride : ∀ sram dram height width stride, (m sram dram height width stride).xStride = stride
  pad : ∀ sram dram height width stride, (m sram dram height width stride).xPadRight = 0

theorem Mover.plain {m : Mover}
    (h : (∃ buffer, m = Instruction.load buffer) ∨ m = Instruction.store) : m.Plain := by
  rcases h with ⟨buffer, rfl⟩ | rfl <;>
    exact ⟨fun _ _ _ _ _ => ⟨rfl, rfl⟩, fun _ _ _ _ _ => ⟨rfl, rfl⟩, fun _ _ _ _ _ => rfl,
      fun _ _ _ _ _ => rfl⟩

section

variable {m : Mover} {full slot : Int} {t u : Transfer} {ts rest : List Transfer}

/-- The instruction of a single transfer pairs its units. -/
theorem Transfer.expansion_move (hm : m.Plain) (hsram : 0 ≤ t.sram ∧ t.sram < 4294967296)
    (hsize : 0 ≤ t.size ∧ t.size < 4294967296) (hpad : 0 ≤ t.pad ∧ t.pad < 4294967296) :
    (t.move m).expansion = t.expansion := by
  unfold Instruction.expansion Transfer.expansion Transfer.move
  simp only [hm.base, hm.size, toNat_ofInt32 hsram.1 hsram.2, toNat_ofInt32 hsize.1 hsize.2,
    toNat_ofInt32 hpad.1 hpad.2]
  simp

/-- `u` comes behind `t`: so far in memory and in the scratchpad. -/
def Transfer.Behind (gap slot : Int) (t u : Transfer) : Prop :=
  (u.dram.toNat : Int) = t.dram.toNat + gap ∧ u.sram = t.sram + slot

/-- Transfers that follow each other at equal distances: at least two, all of the size
`full`, which rise by the same distance in memory every time, and lie `slot` apart in
the scratchpad. -/
structure InStride (full slot : Int) (ts : List Transfer) : Prop where
  two : 2 ≤ ts.length
  size : ∀ t ∈ ts, t.size = full
  steps : ∃ gap : Int, 0 < gap ∧ ts.IsChain (Transfer.Behind gap slot)

/-- Transfers whose numbers rise by the same every time. -/
def Rising (ts : List Transfer) : Prop :=
  ∃ number : Int, 0 < number ∧ ts.IsChain fun t u => u.index = t.index + number

/-- The numbers of two transfers differ by a word. -/
def Transfer.Near (t u : Transfer) : Prop :=
  -9223372036854775808 ≤ u.index - t.index ∧ u.index - t.index < 9223372036854775808

theorem evenly_iff {step : Int × Int × Int} :
    evenly step ts = true ↔ ts.IsChain fun t u => t.distance u = step := by
  induction ts with
  | nil => simp [evenly]
  | cons t ts ih =>
    cases ts with
    | nil => simp [evenly]
    | cons u ts => rw [evenly, Bool.and_eq_true, ih, List.isChain_cons_cons, beq_iff_eq]

/-- When some transfers are one instruction: by their distances. -/
theorem strided_iff : strided full slot ts = true ↔
    2 ≤ ts.length ∧ (∀ t ∈ ts, t.size = full) ∧ ∃ number gap : Int, 0 < number ∧ 0 < gap ∧
      ts.IsChain fun t u => t.distance u = (number, gap, slot) := by
  match ts with
  | [] => simp [strided]
  | [t] => simp [strided]
  | t :: u :: rest =>
    unfold strided
    simp only [Bool.and_eq_true, List.all_eq_true, beq_iff_eq, evenly_iff]
    constructor
    · rintro ⟨⟨⟨hnumber, hgap⟩, hsize⟩, hchain⟩
      exact ⟨by simp, hsize, _, _, of_decide_eq_true hnumber, of_decide_eq_true hgap, hchain⟩
    · rintro ⟨-, hsize, number, gap, hnumber, hgap, hchain⟩
      -- the distance of the first two is the distance of all
      have hfirst : t.distance u = (number, gap, slot) := (List.isChain_cons_cons.1 hchain).1
      rw [hfirst]
      exact ⟨⟨⟨decide_eq_true hnumber, decide_eq_true hgap⟩, hsize⟩, hchain⟩

/-- Places in the scratchpad are so small that their differences do not wrap. -/
theorem Transfer.wrap_sram (ht : 0 ≤ t.sram ∧ t.sram < 4294967296)
    (hu : 0 ≤ u.sram ∧ u.sram < 4294967296) : wrap64 (u.sram - t.sram) = u.sram - t.sram :=
  wrap64_small (by omega) (by omega)

/-- Transfers that are one instruction are in stride. -/
theorem strided_inStride (h : strided full slot ts = true)
    (hsram : ∀ t ∈ ts, 0 ≤ t.sram ∧ t.sram < 4294967296) : InStride full slot ts := by
  obtain ⟨htwo, hsize, number, gap, -, hgap, hchain⟩ := strided_iff.1 h
  refine ⟨htwo, hsize, gap, hgap, hchain.imp_of_mem_imp fun t u ht hu hstep => ?_⟩
  rw [Transfer.distance, Transfer.wrap_sram (hsram t ht) (hsram u hu), Prod.mk.injEq,
    Prod.mk.injEq] at hstep
  exact ⟨by omega, by omega⟩

/-- **When some transfers are one instruction**: if they are in stride and their numbers rise.
Only numbers that differ by a word are told apart so. -/
theorem strided_iff_rising (hsram : ∀ t ∈ ts, 0 ≤ t.sram ∧ t.sram < 4294967296)
    (hnear : ts.IsChain Transfer.Near) :
    strided full slot ts = true ↔ InStride full slot ts ∧ Rising ts := by
  have hwrap : ∀ t u : Transfer, t.Near u → wrap64 (u.index - t.index) = u.index - t.index :=
    fun t u h => wrap64_small h.1 h.2
  constructor
  · intro h
    refine ⟨strided_inStride h hsram, ?_⟩
    obtain ⟨-, -, number, gap, hnumber, -, hchain⟩ := strided_iff.1 h
    refine ⟨number, hnumber, (isChain_and hnear hchain).imp fun t u ⟨hn, hstep⟩ => ?_⟩
    rw [Transfer.distance, hwrap t u hn, Prod.mk.injEq] at hstep
    omega
  · rintro ⟨⟨htwo, hsize, gap, hgap, hsteps⟩, number, hnumber, hrise⟩
    refine strided_iff.2 ⟨htwo, hsize, number, gap, hnumber, hgap, ?_⟩
    refine (isChain_and hnear (isChain_and hsteps hrise)).imp_of_mem_imp
      fun t u ht hu ⟨hn, ⟨hdram, hslot⟩, hindex⟩ => ?_
    rw [Transfer.distance, hwrap t u hn, Transfer.wrap_sram (hsram t ht) (hsram u hu),
      Prod.mk.injEq, Prod.mk.injEq]
    omega

/-- A transfer that zeros fill up to `full` units. -/
structure Transfer.Filled (full : Int) (t : Transfer) : Prop where
  sram : 0 ≤ t.sram ∧ t.sram < 4294967296
  size : 1 ≤ t.size ∧ t.size ≤ full
  pad : t.pad = full - t.size

/-- Such transfers move something. -/
theorem filled_moves (hts : ∀ t ∈ ts, t.Filled full) (hne : 0 < ts.length) :
    ts.flatMap Transfer.expansion ≠ [] := by
  obtain ⟨t, ht⟩ := List.exists_mem_of_length_pos hne
  have hsize := (hts t ht).size
  have hlength : t.expansion.length = t.size.toNat + t.pad.toNat := by
    simp [Transfer.expansion, rowUnits]
  intro hnil
  rw [List.flatMap_eq_nil_iff.1 hnil t ht, List.length_nil] at hlength
  omega

/-- Where each of some transfers at equal distances lies. -/
theorem chain_getElem {gap : Int} (h : (t :: ts).IsChain (Transfer.Behind gap slot))
    {y : Nat} {v : Transfer} (hv : (t :: ts)[y]? = some v) :
    (v.dram.toNat : Int) = t.dram.toNat + y * gap ∧ v.sram = t.sram + y * slot := by
  -- induction on the transfers behind the first, for any first
  induction ts generalizing t y with
  | nil =>
    cases y with
    | zero =>
      obtain rfl : t = v := by simpa using hv
      simp
    | succ y => simp at hv
  | cons u ts ih =>
    obtain ⟨⟨hdram, hsram⟩, h⟩ := List.isChain_cons_cons.1 h
    cases y with
    | zero =>
      obtain rfl : t = v := by simpa using hv
      simp
    | succ y =>
      obtain ⟨h1, h2⟩ := ih h (by simpa using hv)
      push_cast
      constructor
      · rw [h1, hdram]
        ring
      · rw [h2, hsram]
        ring

/-- Transfers in stride without gaps fill the scratchpad in one piece. -/
theorem InStride.sram_getElem (h : InStride full full (t :: ts)) (ht : 0 ≤ t.sram) (hfull : 0 ≤ full)
    {y : Nat} {v : Transfer} (hv : (t :: ts)[y]? = some v) :
    v.sram.toNat = t.sram.toNat + y * full.toNat := by
  obtain ⟨gap, -, hchain⟩ := h.steps
  have hsram := (chain_getElem hchain hv).2
  have : (0 : Int) ≤ y * full := Int.mul_nonneg (by omega) hfull
  zify
  rw [Int.toNat_of_nonneg (by omega), Int.toNat_of_nonneg ht, Int.toNat_of_nonneg hfull, hsram]

/-- Transfers in stride are not more than there are places for them. -/
theorem InStride.length_le {n : Nat} (h : InStride full slot ts) (hslot : 1 ≤ slot)
    (hroom : ∀ v ∈ ts, 0 ≤ v.sram ∧ v.sram < n) : ts.length ≤ n := by
  obtain ⟨gap, -, hchain⟩ := h.steps
  match ts, h.two with
  | t :: ts, _ =>
    obtain ⟨v, hv⟩ : ∃ v, (t :: ts)[ts.length]? = some v := ⟨_, List.getElem?_eq_getElem (by simp)⟩
    have hsram := (chain_getElem hchain hv).2
    have h0 := hroom t List.mem_cons_self
    have h1 := hroom v (List.mem_of_getElem? hv)
    have hle : (ts.length : Int) * 1 ≤ ts.length * slot :=
      Int.mul_le_mul_of_nonneg_left hslot (by omega)
    rw [List.length_cons]
    omega

/-- Transfers that are one instruction have a row for each of them. -/
theorem moves_strided (m : Mover) (h : strided full slot ts = true) :
    ∃ t u rest, ts = t :: u :: rest ∧
      moves m full slot ts = [m (UInt32.ofInt t.sram) t.dram (UInt32.ofNat ts.length)
        (UInt32.ofInt full) (u.dram - t.dram)] := by
  obtain ⟨t, u, rest, rfl⟩ : ∃ t u rest, ts = t :: u :: rest := by
    match ts, (strided_iff.1 h).1 with
    | t :: u :: rest, _ => exact ⟨t, u, rest, rfl⟩
  refine ⟨t, u, rest, rfl, ?_⟩
  unfold moves
  rw [if_pos h]

/-- Other transfers are an instruction each. -/
theorem moves_single (m : Mover) (h : ¬strided full slot ts = true) :
    moves m full slot ts = ts.map (·.move m) := by
  unfold moves
  rw [if_neg h]

/-- The rows of the one instruction are the data of the transfers. -/
theorem expansion_inStride (hm : m.Plain) (h : InStride full full (t :: u :: rest))
    (hfull : 0 ≤ full ∧ full < 4294967296) (hlen : (t :: u :: rest).length < 4294967296)
    (ht : 0 ≤ t.sram ∧ t.sram < 4294967296) :
    (m (UInt32.ofInt t.sram) t.dram (UInt32.ofNat (t :: u :: rest).length) (UInt32.ofInt full)
      (u.dram - t.dram)).expansion =
        (t :: u :: rest).flatMap fun v => rowUnits v.sram.toNat v.dram.toNat v.size.toNat 0 := by
  obtain ⟨gap, hgap, hchain⟩ := h.steps
  have hfirst := (List.isChain_cons_cons.1 hchain).1.1
  -- memory addresses rise, so their difference does not wrap
  have hstride : (u.dram - t.dram).toNat = gap.toNat := by
    rw [UInt32.toNat_sub_of_le _ _ (UInt32.le_iff_toNat_le.2 (by omega))]
    omega
  unfold Instruction.expansion
  simp only [hm.base, hm.size, hm.stride, hm.pad, toNat_ofInt32 ht.1 ht.2,
    toNat_ofInt32 hfull.1 hfull.2, toNat_ofNat32 hlen, hstride]
  symm
  refine flatMap_eq_range fun y v hv => ?_
  have hdram : v.dram.toNat = t.dram.toNat + y * gap.toNat := by
    zify
    rw [Int.toNat_of_nonneg (by omega), (chain_getElem hchain hv).1]
  rw [h.size v (List.mem_of_getElem? hv), h.sram_getElem ht.1 hfull.1 hv, hdram]
  rfl

/-- Without zeros behind it, a transfer pairs its data. -/
theorem Transfer.expansion_unpadded (h : t.pad = 0) :
    t.expansion = rowUnits t.sram.toNat t.dram.toNat t.size.toNat 0 := by
  rw [expansion, h]
  rfl

/-- **The instructions of some transfers move what the transfers move**, unit by unit
and in the same order, whatever their numbers. An instruction counts units and rows with
32 bits: a transfer of more units, or a row for each of `2 ^ 32` transfers, it cannot say.
The instructions are a single one, which counts the transfers, exactly if the transfers are
in stride and their numbers rise, as long as consecutive numbers differ by a word. -/
theorem moves_exact (hm : (∃ buffer, m = Instruction.load buffer) ∨ m = Instruction.store)
    (hts : ∀ t ∈ ts, t.Filled full) :
    (full < 4294967296 → ts.length ≠ 4294967296 →
      (moves m full full ts).flatMap Instruction.expansion = ts.flatMap Transfer.expansion) ∧
    (ts.IsChain Transfer.Near →
      (InStride full full ts ∧ Rising ts → ∃ i, moves m full full ts = [i] ∧
        (ts.length ≠ 4294967296 → i.ySize.toNat = ts.length)) ∧
      (¬(InStride full full ts ∧ Rising ts) → moves m full full ts = ts.map (·.move m))) := by
  have hplain := Mover.plain hm
  have hsram := fun t ht => (hts t ht).sram
  -- their places in the scratchpad differ, so there are no more than it has units
  have hle : InStride full full ts → ts.length ≤ 4294967296 := fun h => by
    obtain ⟨t, ht⟩ := List.exists_mem_of_length_pos (Nat.lt_of_lt_of_le Nat.zero_lt_two h.two)
    have hsize := (hts t ht).size
    exact h.length_le (by omega) hsram
  refine ⟨fun hfull hlen => ?_, fun hnear => ?_⟩
  · by_cases h : strided full full ts = true
    · have hstride := strided_inStride h hsram
      have := hle hstride
      obtain ⟨t, u, rest, rfl, hmoves⟩ := moves_strided m h
      have hsize := (hts t List.mem_cons_self).size
      rw [hmoves, List.flatMap_singleton, expansion_inStride hplain hstride (by omega) (by omega)
        (hsram t List.mem_cons_self)]
      refine List.flatMap_congr fun v hv => (Transfer.expansion_unpadded ?_).symm
      rw [(hts v hv).pad, hstride.size v hv, sub_self]
    · rw [moves_single m h, List.flatMap_map]
      refine List.flatMap_congr fun t ht => ?_
      obtain ⟨ht, hsize, hpad⟩ := hts t ht
      exact Transfer.expansion_move hplain ht (by omega) (by omega)
  · rw [← strided_iff_rising hsram hnear]
    refine ⟨fun h => ?_, moves_single m⟩
    have := hle (strided_inStride h hsram)
    obtain ⟨t, u, rest, rfl, hmoves⟩ := moves_strided m h
    refine ⟨_, hmoves, fun hlen => ?_⟩
    rw [(hplain.size _ _ _ _ _).1, toNat_ofNat32 (by omega)]

/-- Three blocks, every other one of a row of blocks. -/
def everyOther : List Transfer := [⟨0, 0, 100, 16, 0⟩, ⟨2, 16, 132, 16, 0⟩, ⟨4, 32, 164, 16, 0⟩]

theorem everyOther_exact :
    (moves (.load .inp) 16 16 everyOther).flatMap Instruction.expansion =
      everyOther.flatMap Transfer.expansion ∧
    ∃ i, moves (.load .inp) 16 16 everyOther = [i] ∧ i.ySize.toNat = 3 := by
  have hfilled : ∀ t ∈ everyOther, t.Filled 16 := by
    simp only [everyOther, List.forall_mem_cons]
    exact ⟨⟨by decide, by decide, rfl⟩, ⟨by decide, by decide, rfl⟩, ⟨by decide, by decide, rfl⟩,
      nofun⟩
  have hstride : InStride 16 16 everyOther :=
    strided_inStride (by decide) fun t ht => (hfilled t ht).sram
  have hrise : Rising everyOther := ⟨2, by decide, by simp [everyOther]⟩
  obtain ⟨hsame, hform⟩ := @moves_exact (.load .inp) 16 everyOther (.inl ⟨_, rfl⟩) hfilled
  obtain ⟨i, hone, hcount⟩ := (hform (by simp [everyOther, Transfer.Near])).1 ⟨hstride, hrise⟩
  exact ⟨hsame (by decide) (by decide), i, hone, hcount (by decide)⟩

/-- Two blocks with the largest and the smallest number there is. -/
def outermost : List Transfer :=
  [⟨9223372036854775807, 0, 0, 1, 0⟩, ⟨-9223372036854775808, 1, 1, 1, 0⟩]

/-- A block of `2 ^ 32` units. -/
def hugeBlock : List Transfer := [⟨0, 0, 0, 4294967296, 0⟩]

/-- Blocks of one unit, one after another. -/
def unitBlocks (n : Nat) : List Transfer :=
  (List.range n).map fun k : Nat => ⟨k, k, UInt32.ofNat k, 1, 0⟩

section Units

variable {n : Nat}

theorem unitBlocks_filled (hn : n ≤ 4294967296) : ∀ t ∈ unitBlocks n, t.Filled 1 := by
  intro t ht
  obtain ⟨k, hk, rfl⟩ := List.mem_map.1 ht
  have := List.mem_range.1 hk
  exact ⟨⟨by simp, by simp; omega⟩, ⟨le_refl 1, le_refl 1⟩, rfl⟩

theorem unitBlocks_strided (htwo : 2 ≤ n) (hn : n ≤ 4294967296) :
    strided 1 1 (unitBlocks n) = true := by
  refine strided_iff.2 ⟨by simpa [unitBlocks] using htwo, ?_, 1, 1, Int.one_pos, Int.one_pos, ?_⟩
  · intro t ht
    obtain ⟨k, -, rfl⟩ := List.mem_map.1 ht
    rfl
  · unfold unitBlocks
    rw [List.isChain_map, List.isChain_range]
    intro k hk
    have hone : wrap64 1 = 1 := by decide
    simp only [Transfer.distance, Nat.succ_eq_add_one, toNat_ofNat32 (show k < 4294967296 by omega),
      toNat_ofNat32 (show k + 1 < 4294967296 by omega)]
    push_cast
    rw [add_sub_cancel_left, hone]

end Units

/-- **Where numbers and counts wrap.** Two blocks whose numbers fall, from the largest to the
smallest, are one instruction all the same. The instruction of a block of `2 ^ 32` units, and the
one of `2 ^ 32` blocks in stride, move nothing. -/
theorem outermost_merged :
    ((∀ t ∈ outermost, t.Filled 1) ∧ ¬Rising outermost ∧
      moves (.load .inp) 1 1 outermost = [.load .inp 0 0 2 1 1]) ∧
    ((∀ t ∈ hugeBlock, t.Filled 4294967296) ∧ hugeBlock.flatMap Transfer.expansion ≠ [] ∧
      (moves (.load .inp) 4294967296 4294967296 hugeBlock).flatMap Instruction.expansion = []) ∧
    ((∀ t ∈ unitBlocks 4294967296, t.Filled 1) ∧
      (unitBlocks 4294967296).flatMap Transfer.expansion ≠ [] ∧
      ∃ i, moves (.load .inp) 1 1 (unitBlocks 4294967296) = [i] ∧ i.expansion = []) := by
  have houter : ∀ t ∈ outermost, t.Filled 1 := by
    simp only [outermost, List.forall_mem_cons]
    exact ⟨⟨by decide, by decide, rfl⟩, ⟨by decide, by decide, rfl⟩, nofun⟩
  have hhuge : ∀ t ∈ hugeBlock, t.Filled 4294967296 := by
    simp only [hugeBlock, List.forall_mem_singleton]
    exact ⟨by decide, by decide, rfl⟩
  have hunits : ∀ t ∈ unitBlocks 4294967296, t.Filled 1 := unitBlocks_filled (le_refl _)
  have hlength : (unitBlocks 4294967296).length = 4294967296 := by
    rw [unitBlocks, List.length_map, List.length_range]
  refine ⟨⟨houter, ?_, by decide⟩, ⟨hhuge, filled_moves hhuge (by decide), by decide⟩, hunits,
    filled_moves hunits (by rw [hlength]; decide), ?_⟩
  · rintro ⟨number, hnumber, hrise⟩
    have hfirst : (-9223372036854775808 : Int) = 9223372036854775807 + number :=
      (List.isChain_cons_cons.1 hrise).1
    omega
  · obtain ⟨t, u, rest, -, hmoves⟩ := moves_strided (.load .inp)
      (unitBlocks_strided (n := 4294967296) (by decide) (le_refl _))
    refine ⟨_, hmoves, ?_⟩
    have hrows : UInt32.ofNat 4294967296 = 0 := by decide
    rw [Instruction.expansion, hlength]
    simp only [Instruction.load, hrows]
    rfl

end

end Tessera
