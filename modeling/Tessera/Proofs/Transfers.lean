import Tessera.Proofs.Expansion

/-!
# Transfers on the machine

A list of transfers becomes one instruction with two dimensions or one instruction
each. Either way the machine makes the same transfers in the same order.

* `Transfer.units`, `Transfer.cells`: the units a transfer reads, and the units it
  writes with the rows they come from.
* `Machine.loadUnits_expansion`, `Machine.exec_store_expansion`: what the machine
  reads and writes for an instruction is what it pairs.
* `moves_load`: the LOADs of some transfers.
* `moves_store`: their STOREs.
-/

namespace Tessera

/-- Replacing rows in two pieces that follow each other. -/
theorem fill_append {α : Type} (f : Nat → α) (start : Nat) (xs ys : List α) :
    fill (fill f start xs) (start + xs.length) ys = fill f start (xs ++ ys) := by
  funext n
  unfold fill
  by_cases h1 : n < start
  · rw [if_pos (by omega), if_pos h1, if_pos h1]
  · rw [if_neg h1, if_neg h1]
    by_cases h2 : n < start + xs.length
    · rw [if_pos h2, List.getElem?_append_left (by omega)]
    · rw [if_neg h2, List.getElem?_append_right (by omega), List.getElem?_eq_none (l := xs) (by omega),
        Nat.sub_sub]
      rfl

theorem fill_singleton {α : Type} (f : Nat → α) (start : Nat) (x : α) :
    fill f start [x] = Function.update f start x := by
  funext n
  unfold fill
  by_cases h : n = start
  · subst h
    simp
  · rw [Function.update_of_ne h]
    split
    · rfl
    · rw [List.getElem?_eq_none (by simp; omega)]
      rfl

namespace Transfer

/-- The units a transfer reads, and where zeros follow them. -/
def units (t : Transfer) : List (Option UInt64) :=
  ((List.range t.size.toNat).map fun x => some (t.dram.toUInt64 + UInt64.ofNat x)) ++
    List.replicate t.pad.toNat none

/-- The units a transfer writes, and the rows they come from. -/
def cells (t : Transfer) : List (UInt64 × Nat) :=
  (List.range t.size.toNat).map fun x => (t.dram.toUInt64 + UInt64.ofNat x, t.sram.toNat + x)

theorem units_expansion (t : Transfer) :
    t.expansion.map (fun q => q.2.map UInt64.ofNat) = t.units := by
  rw [expansion, rowUnits, units, List.map_append, List.map_map, List.map_map]
  congr 1
  · simp [UInt64.ofNat_add]
  · simp [Function.comp_def, List.map_const']

theorem cells_rowUnits (t : Transfer) (pad : Nat) :
    (rowUnits t.sram.toNat t.dram.toNat t.size.toNat pad).filterMap
      (fun q => q.2.map fun unit => (UInt64.ofNat unit, q.1)) = t.cells := by
  rw [rowUnits, cells, List.filterMap_append, List.filterMap_map, List.filterMap_map]
  simp [UInt64.ofNat_add]

/-- The numbers of a transfer fit the fields of an instruction. -/
structure Small (t : Transfer) : Prop where
  sram : 0 ≤ t.sram ∧ t.sram < 65536
  size : 0 ≤ t.size ∧ t.size < 65536
  pad : 0 ≤ t.pad ∧ t.pad < 65536

end Transfer

theorem sram_small {ts : List Transfer} (hsmall : ∀ t ∈ ts, t.Small) :
    ∀ t ∈ ts, 0 ≤ t.sram ∧ t.sram < 4294967296 := by
  intro t ht
  obtain ⟨hlo, hhi⟩ := (hsmall t ht).sram
  omega

/-- Transfers in stride are few. -/
theorem InStride.length_small {full : Int} {ts : List Transfer} (h : InStride full full ts)
    (hfull : 1 ≤ full) (hsmall : ∀ t ∈ ts, t.Small) : ts.length < 4294967296 := by
  have := h.length_le (n := 65536) hfull fun t ht => (hsmall t ht).sram
  omega

theorem Transfer.Small.expansion_move {m : Mover} {t : Transfer} (hm : m.Plain) (ht : t.Small) :
    (t.move m).expansion = t.expansion := by
  obtain ⟨hsram, hsize, hpad⟩ := ht
  exact Transfer.expansion_move hm (by omega) (by omega) (by omega)

namespace Machine

/-- The scratchpads that hold data. -/
inductive Data where
  | inp
  | wgt
  | acc

/-- The scratchpad in instructions. -/
def Data.buffer : Data → Buffer
  | .inp => .inp
  | .wgt => .wgt
  | .acc => .acc

/-- The rows of a scratchpad. -/
def Data.rows (s : State) : Data → Nat → Row
  | .inp => s.inp
  | .wgt => s.wgt
  | .acc => s.acc

/-- The state with other rows in a scratchpad. -/
def Data.set (s : State) (rows : Nat → Row) : Data → State
  | .inp => { s with inp := rows }
  | .wgt => { s with wgt := rows }
  | .acc => { s with acc := rows }

@[simp] theorem Data.rows_set (s : State) (f : Nat → Row) (p : Data) : p.rows (p.set s f) = f := by
  cases p <;> rfl

@[simp] theorem Data.set_set (s : State) (f g : Nat → Row) (p : Data) :
    p.set (p.set s f) g = p.set s g := by cases p <;> rfl

@[simp] theorem Data.set_rows (s : State) (p : Data) : p.set s (p.rows s) = s := by cases p <;> rfl

@[simp] theorem Data.set_mem (s : State) (f : Nat → Row) (p : Data) : (p.set s f).mem = s.mem := by
  cases p <;> rfl

/-- What a unit of a scratchpad's kind holds in memory, and a row of zeros. -/
def unitRow (m : Machine) (mem : UInt64 → UInt8) (p : Data) : Option UInt64 → Outcome Row :=
  let (t, n, size) := match p with
    | .inp => (m.inp, m.b, m.divisors.inp)
    | .wgt => (m.wgt, m.b * m.b, m.divisors.wgt)
    | .acc => (m.acc, m.b, m.divisors.acc)
  fun
    | some unit => numbers mem t n (m.address size unit)
    | none => pure (List.replicate n 0)

/-- A LOAD whose units read as some rows. -/
theorem exec_load {m : Machine} {s : State} {i : Instruction} {p : Data} {rows : List Row}
    (hop : i.opcode = .load) (hbuf : i.buffer = p.buffer)
    (h : (loadUnits i).mapM (m.unitRow s.mem p) = .ok rows) :
    m.exec s i = .ok (p.set s (fill (p.rows s) i.sramBase.toNat rows)) := by
  unfold exec load
  rw [hop]
  cases p <;>
  · simp only [hbuf, Data.buffer]
    exact Outcome.bind_ok h rfl

theorem unitAt_eq (i : Instruction) (y x : Nat) :
    unitAt i y x = UInt64.ofNat (i.dramBase.toNat + y * i.xStride.toNat + x) := by
  rw [unitAt, UInt64.ofNat_add, UInt64.ofNat_add, UInt64.ofNat_mul, UInt64.ofNat_uInt32ToNat,
    UInt64.ofNat_uInt32ToNat]

/-- The memory side of the pairs of a LOAD is what the machine reads for it. -/
theorem loadUnits_expansion {i : Instruction} (htop : i.yPadTop = 0) (hbottom : i.yPadBottom = 0)
    (hleft : i.xPadLeft = 0) :
    loadUnits i = i.expansion.map fun q => q.2.map UInt64.ofNat := by
  unfold loadUnits Instruction.expansion
  simp only [htop, hbottom, hleft, show (0 : UInt32).toNat = 0 from rfl, Nat.zero_add, Nat.add_zero,
    List.map_flatMap]
  refine List.flatMap_congr fun y hy => ?_
  have hy := List.mem_range.1 hy
  rw [rowUnits, List.range_add, List.map_append, List.map_append, List.map_map, List.map_map,
    List.map_map]
  congr 1
  · refine List.map_congr_left fun x hx => ?_
    have hx := List.mem_range.1 hx
    rw [if_pos (by omega)]
    simp [unitAt_eq]
  · refine List.map_congr_left fun x _ => ?_
    simp only [Function.comp_apply]
    rw [if_neg (by omega)]
    rfl

/-- Rows that some transfers bring into a scratchpad. -/
def fills (ts : List Transfer) (rows : Transfer → List Row) (f : Nat → Row) : Nat → Row :=
  ts.foldl (fun f t => fill f t.sram.toNat (rows t)) f

/-- Transfers without gaps fill the scratchpad in one piece. -/
theorem fills_contiguous {full : Nat} {start : Nat} {rows : Transfer → List Row}
    {ts : List Transfer} (hsram : ∀ (y : Nat) t, ts[y]? = some t → t.sram.toNat = start + y * full)
    (hlen : ∀ t ∈ ts, (rows t).length = full) (f : Nat → Row) :
    fills ts rows f = fill f start (ts.flatMap rows) := by
  induction ts using List.reverseRecOn with
  | nil =>
    funext n
    simp [fills, fill]
  | append_singleton ts t ih =>
    have hin : ∀ (y : Nat) u, ts[y]? = some u → (ts ++ [t])[y]? = some u := fun y u hu => by
      rw [List.getElem?_append_left (List.getElem?_eq_some_iff.1 hu).1]
      exact hu
    have hprefix : (ts.flatMap rows).length = ts.length * full := by
      rw [List.length_flatMap, List.map_congr_left fun u hu => hlen u (List.mem_append_left _ hu)]
      simp
    unfold fills at ih ⊢
    rw [List.foldl_append, ih (fun y u hu => hsram y u (hin y u hu)) fun u hu =>
      hlen u (List.mem_append_left _ hu), List.foldl_cons, List.foldl_nil,
      hsram ts.length t (by simp), ← hprefix, fill_append, List.flatMap_append,
      List.flatMap_singleton]

/-- **The LOADs of some transfers**, whose units read as `rows`. -/
theorem moves_load {m : Machine} {s : State} {p : Data} {full : Int} {ts : List Transfer}
    {rows : Transfer → List Row} (hsmall : ∀ t ∈ ts, t.Small) (hfull : 1 ≤ full ∧ full < 65536)
    (hpad : ∀ t ∈ ts, t.size = full → t.pad = 0)
    (hrows : ∀ t ∈ ts, t.units.mapM (m.unitRow s.mem p) = .ok (rows t)) :
    (moves (.load p.buffer) full full ts).foldlM m.exec s =
      .ok (p.set s (fills ts rows (p.rows s))) := by
  have hplain : Mover.Plain (.load p.buffer) := Mover.plain (.inl ⟨_, rfl⟩)
  by_cases h : strided full full ts = true
  · have hstride := strided_inStride h (sram_small hsmall)
    obtain ⟨t, u, rest, rfl, hmoves⟩ := moves_strided (.load p.buffer) h
    have hpad' : ∀ v ∈ t :: u :: rest, v.pad = 0 := fun v hv => hpad v hv (hstride.size v hv)
    have ht := (hsmall t List.mem_cons_self).sram
    have hunits : loadUnits (Instruction.load p.buffer (UInt32.ofInt t.sram) t.dram
        (UInt32.ofNat (t :: u :: rest).length) (UInt32.ofInt full) (u.dram - t.dram)) =
          (t :: u :: rest).flatMap Transfer.units := by
      rw [loadUnits_expansion rfl rfl rfl,
        expansion_inStride hplain hstride (by omega) (hstride.length_small hfull.1 hsmall) (by omega),
        List.map_flatMap]
      refine List.flatMap_congr fun v hv => ?_
      rw [← Transfer.expansion_unpadded (hpad' v hv), v.units_expansion]
    have hread := mapM_flatMap hrows
    rw [← hunits] at hread
    simp only [hmoves, List.foldlM_cons, List.foldlM_nil]
    rw [exec_load rfl rfl hread, Outcome.ok_bind]
    -- the rows follow each other in the scratchpad
    have hlength : ∀ v ∈ t :: u :: rest, (rows v).length = full.toNat := by
      intro v hv
      rw [← (mapM_eq_ok.1 (hrows v hv)).length_eq, Transfer.units, hpad' v hv, hstride.size v hv]
      simp
    rw [fills_contiguous (fun y v hv => hstride.sram_getElem ht.1 (by omega) hv) hlength,
      show (Instruction.load p.buffer (UInt32.ofInt t.sram) t.dram
        (UInt32.ofNat (t :: u :: rest).length) (UInt32.ofInt full) (u.dram - t.dram)).sramBase.toNat =
          t.sram.toNat from toNat_ofInt32 ht.1 (by omega)]
    rfl
  · rw [moves_single _ h]
    clear h
    induction ts generalizing s with
    | nil => simp [fills]
    | cons t ts ih =>
      have ht := hsmall t List.mem_cons_self
      have hread := hrows t List.mem_cons_self
      rw [← Transfer.units_expansion, ← ht.expansion_move hplain, ← loadUnits_expansion rfl rfl rfl]
        at hread
      have hnext := ih (s := p.set s (fill (p.rows s) t.sram.toNat (rows t)))
        (fun u hu => hsmall u (List.mem_cons_of_mem _ hu))
        (fun u hu => hpad u (List.mem_cons_of_mem _ hu))
        (fun u hu => by rw [Data.set_mem]; exact hrows u (List.mem_cons_of_mem _ hu))
      rw [Data.rows_set, Data.set_set] at hnext
      rw [List.map_cons, List.foldlM_cons, exec_load rfl rfl hread, Outcome.ok_bind,
        show (t.move (.load p.buffer)).sramBase.toNat = t.sram.toNat from
          toNat_ofInt32 ht.sram.1 (by have := ht.sram.2; omega), hnext]
      rfl

/-- Memory after rows of the output scratchpad were written to some units. -/
def writes (m : Machine) (out : Nat → Row) (cells : List (UInt64 × Nat)) (mem : UInt64 → UInt8) :
    UInt64 → UInt8 :=
  cells.foldl (fun mem q => writeBytes mem (m.address m.divisors.out q.1)
    ((out q.2).flatMap m.out.bytesOf)) mem

theorem writes_append (m : Machine) (out : Nat → Row) (xs ys : List (UInt64 × Nat))
    (mem : UInt64 → UInt8) : m.writes out (xs ++ ys) mem = m.writes out ys (m.writes out xs mem) :=
  List.foldl_append

theorem exec_store {m : Machine} {s : State} {i : Instruction} {cells : List (UInt64 × Nat)}
    (hop : i.opcode = .store)
    (h : ((List.range i.ySize.toNat).flatMap fun y => (List.range i.xSize.toNat).map fun x =>
      unitAt i y x).zipIdx.map (fun q => (q.1, i.sramBase.toNat + q.2)) = cells) :
    m.exec s i = .ok { s with mem := m.writes s.out cells s.mem } := by
  unfold exec store writes
  rw [hop, ← h, List.foldl_map]

theorem zipIdx_map_range {α : Type} (f : Nat → α) (n start : Nat) :
    ((List.range n).map f).zipIdx.map (fun q => (q.1, start + q.2)) =
      (List.range n).map fun x => (f x, start + x) := by
  apply List.ext_getElem?
  intro x
  simp only [List.getElem?_map, List.getElem?_zipIdx]
  by_cases hx : x < n
  · simp [List.getElem?_range hx]
  · rw [List.getElem?_eq_none (by simp; omega)]
    rfl

/-- The rows of pieces of one length, counted from the start of each. -/
theorem zipIdx_flatMap_range {α : Type} (f : Nat → Nat → α) (n w start : Nat) :
    ((List.range n).flatMap fun y => (List.range w).map (f y)).zipIdx.map
      (fun q => (q.1, start + q.2)) =
      (List.range n).flatMap fun y => (List.range w).map fun x => (f y x, start + y * w + x) := by
  induction n with
  | zero => rfl
  | succ n ih =>
    have hlen : ((List.range n).flatMap fun y => (List.range w).map (f y)).length = n * w := by
      simp
    rw [List.range_succ, List.flatMap_append, List.flatMap_append, List.flatMap_singleton,
      List.flatMap_singleton, List.zipIdx_append, List.map_append, ih, hlen, Nat.zero_add]
    congr 1
    rw [← zipIdx_map_range (f n) w (start + n * w), List.zipIdx_eq_map_add, List.map_map]
    apply List.map_congr_left
    intro q _
    simp only [Function.comp_apply]
    congr 1
    omega

/-- A STORE writes the pairs it moves. Padding is not stored, so only a single row
may have it. -/
theorem exec_store_expansion {m : Machine} {s : State} {i : Instruction} (hop : i.opcode = .store)
    (hpad : i.xPadRight = 0 ∨ i.ySize = 1) :
    m.exec s i = .ok { s with
      mem := m.writes s.out
        (i.expansion.filterMap fun q => q.2.map fun unit => (UInt64.ofNat unit, q.1)) s.mem } := by
  refine exec_store hop ?_
  rw [zipIdx_flatMap_range, Instruction.expansion, List.filterMap_flatMap]
  refine List.flatMap_congr fun y hy => ?_
  -- rows follow each other without gaps, or there is only the first
  have hrow : y * (i.xSize.toNat + i.xPadRight.toNat) = y * i.xSize.toNat := by
    rcases hpad with hpad | hpad
    · simp [hpad]
    · have hy := List.mem_range.1 hy
      rw [hpad] at hy
      obtain rfl : y = 0 := by simpa using hy
      simp
  rw [rowUnits, List.filterMap_append, List.filterMap_map, List.filterMap_map, hrow]
  simp [unitAt_eq]

/-- **The STOREs of some transfers.** -/
theorem moves_store {m : Machine} {s : State} {full : Int} {ts : List Transfer}
    (hsmall : ∀ t ∈ ts, t.Small) (hfull : 1 ≤ full ∧ full < 65536) :
    (moves .store full full ts).foldlM m.exec s =
      .ok { s with mem := m.writes s.out (ts.flatMap Transfer.cells) s.mem } := by
  have hplain : Mover.Plain .store := Mover.plain (.inr rfl)
  by_cases h : strided full full ts = true
  · have hstride := strided_inStride h (sram_small hsmall)
    obtain ⟨t, u, rest, rfl, hmoves⟩ := moves_strided .store h
    have ht := (hsmall t List.mem_cons_self).sram
    simp only [hmoves, List.foldlM_cons, List.foldlM_nil]
    rw [exec_store_expansion rfl (.inl rfl),
      expansion_inStride hplain hstride (by omega) (hstride.length_small hfull.1 hsmall) (by omega),
      List.filterMap_flatMap, List.flatMap_congr fun v _ => v.cells_rowUnits 0]
    rfl
  · rw [moves_single _ h]
    clear h
    induction ts generalizing s with
    | nil => rfl
    | cons t ts ih =>
      rw [List.map_cons, List.foldlM_cons, exec_store_expansion rfl (.inr rfl),
        (hsmall t List.mem_cons_self).expansion_move hplain, Transfer.expansion, t.cells_rowUnits,
        Outcome.ok_bind, ih fun u hu => hsmall u (List.mem_cons_of_mem _ hu), List.flatMap_cons,
        writes_append]

end Machine

end Tessera
