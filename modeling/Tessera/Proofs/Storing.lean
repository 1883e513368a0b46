import Tessera.Proofs.Computing

/-!
# The stores of a step

The stores of a step write the narrowed copies of vectors to the output region: blocks
stand at their places there, and single vectors in the order in which all of them are
stored.

* `Machine.Region`: where the units of the output region stand.
* `Machine.deposit`: memory after some vectors were written.
* `stores_exec`: the group of the store stage.
-/

namespace Tessera

namespace Machine

/-- The bytes of a unit of the output region. -/
def unit (m : Machine) : Nat := m.b * m.out.width

/-- Logical addresses lead to the output region, where the vectors of a block stand
one after the other. -/
structure Region (m : Machine) (out : Placed) (c : Tensor) : Prop where
  size : UInt64.ofInt m.divisors.out = UInt64.ofNat m.unit
  start : m.origin + out.logical * UInt64.ofNat m.unit = out.physical
  block : ∀ (n : Nat) l, out.block n = .ok l →
    m.origin + l * UInt64.ofNat m.unit = out.physical + UInt64.ofNat (n * m.b * m.unit)
  few : c.blocks.size < 72057594037927936
  full : ∀ k ∈ c.blocks.toList, k.height = m.b

/-- The address of a unit behind another one. -/
theorem address_add {m : Machine} {size : Int} {n : Nat} (hsize : UInt64.ofInt size = UInt64.ofNat n)
    {l a : UInt64} (hl : m.origin + l * UInt64.ofNat n = a) (r : Nat) :
    m.address size (l + UInt64.ofNat r) = a + UInt64.ofNat (r * n) := by
  rw [address, hsize, UInt64.add_mul, ← UInt64.add_assoc, hl, UInt64.ofNat_mul]

/-- The bytes of the copy of a vector. -/
def copyBytes (m : Machine) (row : Row) : List UInt8 := rowBytes m.out (row.map (m.out.narrowed m.clip))

/-- Memory after the copies of some vectors were written to their places. -/
def deposit (m : Machine) (out : Placed) (pos : Int → Nat) (cells : List (Int × Row))
    (mem : UInt64 → UInt8) : UInt64 → UInt8 :=
  cells.foldl (fun mem q =>
    writeBytes mem (out.physical + UInt64.ofNat (pos q.1 * m.unit)) (m.copyBytes q.2)) mem

theorem deposit_append (m : Machine) (out : Placed) (pos : Int → Nat) (xs ys : List (Int × Row))
    (mem : UInt64 → UInt8) :
    m.deposit out pos (xs ++ ys) mem = m.deposit out pos ys (m.deposit out pos xs mem) :=
  List.foldl_append

theorem deposit_congr {m : Machine} {out : Placed} {pos pos' : Int → Nat} {cells : List (Int × Row)}
    (h : ∀ q ∈ cells, pos q.1 = pos' q.1) (mem : UInt64 → UInt8) :
    m.deposit out pos cells mem = m.deposit out pos' cells mem := by
  refine List.foldl_ext _ _ _ fun mem q hq => ?_
  rw [h q hq]

/-- Units written from rows of the output scratchpad are copies of vectors. -/
theorem writes_deposit {m : Machine} {out : Placed} {pos : Int → Nat} {f : Nat → Row}
    {units : List (UInt64 × Nat)} {cells : List (Int × Row)}
    (h : List.Forall₂ (fun u q => m.address m.divisors.out u.1 =
      out.physical + UInt64.ofNat (pos q.1 * m.unit) ∧
      f u.2 = q.2.map (m.out.narrowed m.clip)) units cells) (mem : UInt64 → UInt8) :
    m.writes f units mem = m.deposit out pos cells mem := by
  unfold writes deposit
  induction h generalizing mem with
  | nil => rfl
  | cons hq _ ih =>
    rw [List.foldl_cons, List.foldl_cons, ih, hq.1, hq.2]
    rfl

/-- STOREs one after the other. -/
theorem exec_stores {m : Machine} {insns : List Instruction} {units : List (UInt64 × Nat)}
    (h : List.Forall₂ (fun i u => ∀ s, m.exec s i = .ok { s with mem := m.writes s.out [u] s.mem })
      insns units) (s : State) :
    insns.foldlM m.exec s = .ok { s with mem := m.writes s.out units s.mem } := by
  induction h generalizing s with
  | nil => rfl
  | cons hi _ ih => rw [List.foldlM_cons, hi, Outcome.ok_bind, ih]; rfl

end Machine

/-- The place of a vector in the output region. -/
def Step.position (st : Step) (v : Int) : Nat :=
  match st.storeGrain with
  | .vector => (st.dramState.idxOf? v).getD 0
  | .block => v.toNat

/-- What a step stores, with the values last written to the rows. -/
def Step.cells (d : Shaped) (st : Step) (out : Nat → Row) : List (Int × Row) :=
  (st.stores d).map fun v => (v, out ((st.place d.b v).getD 0))

theorem Step.cells_vectors (d : Shaped) (st : Step) (out : Nat → Row) :
    (st.cells d out).map Prod.fst = st.stores d := by
  rw [cells, List.map_map]
  exact List.map_id _

theorem Step.cells_rows (d : Shaped) (st : Step) (out : Nat → Row) :
    (st.cells d out).map Prod.snd = (st.stores d).map fun v => out ((st.place d.b v).getD 0) := by
  rw [cells, List.map_map]
  rfl

namespace StepLowering

variable {env : Lowering} {m : Machine} {i : Nat} {st : Step} {s : Machine.State} {ρ : Rows}

/-- The store of a vector. -/
theorem storeVector_exec (hm : env.Suits m) (hst : st.Bounded m.b) {v : Int} {row : Nat}
    (hrow : st.place m.b v = some row) {insn : Instruction}
    (h : (env.stepOf i st).storeVector (positions st.dramState) v = .ok insn) (s : Machine.State) :
    m.exec s insn = .ok { s with
      mem := m.writes s.out
        [(env.out.logical + UInt64.ofNat ((st.dramState.idxOf? v).getD 0), row)] s.mem } := by
  have hlt := Step.place_lt hm.pos hst hrow
  unfold storeVector at h
  rw [row_eq hm hst hrow, Outcome.ok_bind, positions_eq] at h
  split at h
  · cases h
  rename_i n hn
  obtain ⟨dram, hdram, h⟩ := Outcome.bind_eq_ok.1 h
  obtain rfl := Outcome.pure_eq_ok.1 h
  refine Machine.exec_store rfl ?_
  simp only [Instruction.store, Machine.unitAt, show (1 : UInt32).toNat = 1 from rfl,
    List.range_one, List.flatMap_singleton, List.map_singleton, toNat_ofInt32
      (show (0 : Int) ≤ row by omega) (show (row : Int) < 4294967296 by omega)]
  have hlogical : (env.stepOf i st).env.out.logical = env.out.logical := rfl
  rw [address_eq_ok hdram, hn, hlogical]
  simp

/-- The stores of single vectors. -/
theorem stores_vector (hm : env.Suits m) (hst : st.Bounded m.b)
    (hregion : m.Region env.out env.data.c) (hgrain : st.storeGrain = .vector)
    (hstored : ∀ v ∈ st.stores env.data, ∃ row, st.place env.data.b v = some row)
    (hmir : m.Mirrors s ρ) {insns : List Instruction} (h : (env.stepOf i st).stores = .ok insns) :
    insns.foldlM m.exec s = .ok { s with
      mem := m.deposit env.out st.position (st.cells env.data ρ.out) s.mem } := by
  unfold Step.cells
  rw [Step.stores, hgrain] at hstored ⊢
  rw [hm.side] at hstored ⊢
  have hmap : st.store.mapM ((env.stepOf i st).storeVector (positions st.dramState)) = .ok insns := by
    unfold stores at h
    rw [show (env.stepOf i st).step = st from rfl, hgrain] at h
    simp only at h
    split at h
    · rename_i hempty
      rw [List.isEmpty_iff.1 hempty]
      exact h
    · exact h
  have hexec : List.Forall₂ (fun insn u => ∀ s, m.exec s insn = .ok { s with
      mem := m.writes s.out [u] s.mem }) insns (st.store.map fun v =>
        (env.out.logical + UInt64.ofNat ((st.dramState.idxOf? v).getD 0),
          (st.place m.b v).getD 0)) := by
    rw [List.forall₂_map_right_iff]
    have hboth := (List.forall₂_and_left _ _).2
      ⟨fun v (hv : v ∈ st.store) => hv, mapM_eq_ok.1 hmap⟩
    refine List.Forall₂.flip (hboth.imp fun v insn hv => ?_)
    obtain ⟨row, hrow⟩ := hstored v hv.1
    simp only [flip, hrow]
    exact storeVector_exec hm hst hrow hv.2
  rw [Machine.exec_stores hexec, Machine.writes_deposit]
  rw [List.forall₂_map_left_iff, List.forall₂_map_right_iff, List.forall₂_same]
  intro v _
  refine ⟨?_, by rw [hmir.out]⟩
  rw [Machine.address_add hregion.size hregion.start, Step.position, hgrain]

/-- The stores of blocks. -/
theorem stores_block (hm : env.Suits m) (hst : st.Bounded m.b)
    (hregion : m.Region env.out env.data.c) (hgrain : st.storeGrain = .block)
    (hresident : st.residentGrain = .block)
    (hmir : m.Mirrors s ρ) {insns : List Instruction} (h : (env.stepOf i st).stores = .ok insns) :
    insns.foldlM m.exec s = .ok { s with
      mem := m.deposit env.out st.position (st.cells env.data ρ.out) s.mem } := by
  have hpos := hm.pos
  have hle := hm.le
  have hside : (env.stepOf i st).b = m.b := hm.side
  have hroom : st.sramResident.length * m.b ≤ 65536 := by
    have := hst.sram
    rwa [Step.rowCount, hresident] at this
  unfold stores at h
  rw [show (env.stepOf i st).step = st from rfl, hgrain] at h
  obtain ⟨ts, hts, h⟩ := Outcome.bind_eq_ok.1 h
  obtain rfl := Outcome.pure_eq_ok.1 h
  have hmoves : List.Forall₂ (fun n tr =>
      Transfer.Moves m.b st.sramResident 0 env.out env.data.c n tr) st.store ts := by
    rcases blocks_moves hside (fun o t _ ht => by cases ht; exact hregion.few) ⟨le_rfl, by omega⟩ hts
      with ⟨hnil, rfl⟩ | ⟨o, t, ho, ht, hmoves⟩
    · rw [hnil]
      exact .nil
    · cases ho
      cases ht
      exact hmoves
  have hheight : ∀ k ∈ env.data.c.blocks.toList, 0 ≤ k.height ∧ k.height ≤ m.b := by
    intro k hk
    have := hregion.full k hk
    omega
  rw [hside, Machine.moves_store (fun tr htr => ?_) (by omega), Machine.writes_deposit]
  · unfold Step.cells
    rw [Step.stores, hgrain, hm.side, vectorsOf, List.map_flatMap]
    refine List.Forall₂.flip (forall₂_flatMap hmoves fun n hn tr htr => ?_)
    obtain ⟨k, hk, hsize, -⟩ := htr.block
    have hfull := hregion.full k (List.mem_of_getElem? (by simpa using hk))
    obtain ⟨j, hj⟩ := exists_idxOf? htr.held
    have hsram := htr.sram
    rw [hj] at hsram
    rw [Int.add_zero] at hj
    rw [Transfer.cells, hsize, hfull, Int.toNat_natCast, hsram, Option.getD_some, Int.toNat_natCast,
      List.map_map, below, Int.toNat_natCast, List.map_map, List.forall₂_map_left_iff,
      List.forall₂_map_right_iff, List.forall₂_same]
    intro r hr
    have hr := List.mem_range.1 hr
    -- vector `n * b + r` is row `r` of block `n`
    obtain ⟨n, rfl⟩ := Int.eq_ofNat_of_zero_le htr.nonneg
    have hplace := Step.place_block hpos hresident htr.nonneg hj hr
    refine ⟨?_, ?_⟩
    · rw [Machine.address_add hregion.size (hregion.block n _ htr.dram), Step.position, hgrain,
        add_ofNat_add]
      simp only [Function.comp_apply, Int.ofNat_eq_natCast]
      congr 2
      rw [show (n : Int) * m.b + r = ((n * m.b + r : Nat) : Int) by push_cast; rfl,
        Int.toNat_natCast]
      ring
    · simp only [Function.comp_apply, Int.ofNat_eq_natCast, hplace, Option.getD_some]
      rw [hmir.out]
  · obtain ⟨n, -, hn⟩ := forall₂_right hmoves htr
    exact hn.small hroom hpos hle hheight

/-- **The group of the store stage** writes the copies of what the step stores. -/
theorem stores_exec (hm : env.Suits m) (hst : st.Bounded m.b)
    (hregion : m.Region env.out env.data.c)
    (hgrain : st.storeGrain = .block → st.residentGrain = .block)
    (hstored : ∀ v ∈ st.stores env.data, ∃ row, st.place env.data.b v = some row)
    (hmir : m.Mirrors s ρ) {insns : List Instruction} (h : (env.stepOf i st).stores = .ok insns) :
    insns.foldlM m.exec s = .ok { s with
      mem := m.deposit env.out st.position (st.cells env.data ρ.out) s.mem } := by
  cases hg : st.storeGrain with
  | vector => exact stores_vector hm hst hregion hg hstored hmir h
  | block => exact stores_block hm hst hregion hg (hgrain hg) hmir h

end StepLowering

end Tessera
