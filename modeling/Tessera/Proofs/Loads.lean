import Tessera.Proofs.Lowering

/-!
# The loads of a step

What the loads of a step bring in: inputs and weights where they are resident, and the
vectors of the accumulator in their rows.

* `Machine.ReadsRows`, `Machine.ReadsColumns`: memory reads as the blocks of a tensor.
* `Lowering.Suits`, `Lowering.Serves`: a machine for a lowering, and its memory.
* `loads_exec`: the loads of inputs and weights.
* `accLoads_exec`: the loads of the accumulators.
-/

namespace Tessera

/-- The addresses of an instruction are exact. -/
theorem StepLowering.address_eq_ok {k : StepLowering} {l : UInt64} {dram : UInt32}
    (h : k.address l = .ok dram) : dram.toUInt64 = l := by
  unfold StepLowering.address at h
  split at h
  · cases h
  · rename_i hle
    cases h
    apply UInt64.toNat_inj.1
    have : l.toNat ≤ 4294967295 := by
      have := UInt64.lt_iff_toNat_lt.not.1 hle
      simpa using this
    rw [UInt32.toNat_toUInt64, UInt64.toNat_toUInt32, Nat.mod_eq_of_lt (by omega)]

/-- A block that an object has. -/
theorem Placed.block_eq_ok {o : Placed} {id : Int} {l : UInt64} (h : o.block id = .ok l) :
    0 ≤ id ∧ ∃ a, o.blocks[id.toNat]? = some a ∧ a.logical = l := by
  unfold Placed.block at h
  split at h
  · rename_i a ha
    cases h
    split at ha
    · cases ha
    · exact ⟨by omega, a, ha, rfl⟩
  · cases h

/-- The rows a block lacks read as zeros. -/
theorem Block.line_beyond {k : Block} {b r : Nat} (h : k.data.size ≤ r * b) :
    k.line b r = List.replicate b 0 := by
  rw [List.eq_replicate_iff]
  refine ⟨by simp [line], fun v hv => ?_⟩
  obtain ⟨e, -, rfl⟩ := List.mem_map.1 hv
  rw [cell, Array.getD_eq_getD_getElem?, Array.getElem?_eq_none (by omega)]
  rfl

namespace Machine

/-- Memory reads as the blocks of a tensor, row by row. -/
structure ReadsRows (m : Machine) (mem : UInt64 → UInt8) (p : Data) (o : Placed) (t : Tensor) :
    Prop where
  few : t.blocks.size < 72057594037927936
  same : o.blocks.size = t.blocks.size
  height : ∀ k ∈ t.blocks.toList, 0 ≤ k.height ∧ k.height ≤ m.b ∧ k.data.size ≤ k.height.toNat * m.b
  row : ∀ (n : Int) k l, t.blocks[n.toNat]? = some k → o.block n = .ok l →
    ∀ r < k.height.toNat, m.unitRow mem p (some (l + UInt64.ofNat r)) = .ok (k.line m.b r)

/-- Memory reads as the blocks of a weight tensor, column by column. -/
def ReadsColumns (m : Machine) (mem : UInt64 → UInt8) (o : Placed) (t : Option Tensor) : Prop :=
  ∀ (n : Int) l, o.block n = .ok l → n < 72057594037927936 ∧
    m.unitRow mem .wgt (some l) = .ok ((blockOf t n).columns m.b)

end Machine

/-- The transfer of a block: its place, its data and its addresses. -/
structure Transfer.Moves (b : Nat) (resident : List Int) (offset : Int) (o : Placed) (t : Tensor)
    (id : Int) (tr : Transfer) : Prop where
  nonneg : 0 ≤ id
  index : tr.index = id
  held : id + offset ∈ resident
  sram : tr.sram = (((resident.idxOf? (id + offset)).getD 0 * b : Nat) : Int)
  dram : o.block id = .ok tr.dram.toUInt64
  block : ∃ k, t.blocks[id.toNat]? = some k ∧ tr.size = k.height ∧ tr.pad = b - k.height

/-- The transfer of a block that is moved as its rows. -/
theorem StepLowering.block_moves {k : StepLowering} {b : Nat} (hb : k.b = b) {what : String}
    {resident : List Int} {offset id : Int} {o : Placed} {t : Tensor} {tr : Transfer}
    (hfew : t.blocks.size < 72057594037927936)
    (hoff : 0 ≤ offset ∧ offset < 72057594037927936)
    (h : k.block what (positions resident) offset o t true id = .ok tr) :
    Transfer.Moves b resident offset o t id tr := by
  obtain ⟨position, l, dram, blk, hpos, hl, hdram, hblk, -, rfl⟩ := block_rows_eq_ok.1 h
  obtain ⟨h0, hblk⟩ := entry_eq_ok.1 hblk
  have hlt := (Array.getElem?_eq_some_iff.1 hblk).1
  rw [positions_eq, wrap64_small (by omega) (by omega)] at hpos
  refine ⟨h0, rfl, mem_of_idxOf? hpos, ?_, ?_, blk, hblk, rfl, ?_⟩
  · rw [hpos, hb]
    push_cast
    rfl
  · rw [address_eq_ok hdram]
    exact hl
  · rw [hb]

namespace Transfer.Moves

variable {b : Nat} {resident : List Int} {offset : Int} {o : Placed} {t : Tensor} {id : Int}
  {tr : Transfer}

theorem slot_lt (h : Moves b resident offset o t id tr) (hroom : resident.length * b ≤ 65536)
    (hb : 1 ≤ b) : ((resident.idxOf? (id + offset)).getD 0 * b) < 65536 := by
  obtain ⟨i, hi⟩ := exists_idxOf? h.held
  have hlt := idxOf?_lt hi
  have := row_room b (show i < resident.length by omega)
  rw [hi]
  simp only [Option.getD_some]
  omega

theorem small (h : Moves b resident offset o t id tr) (hroom : resident.length * b ≤ 65536)
    (hb : 1 ≤ b) (hb' : b ≤ 64) (hheight : ∀ k ∈ t.blocks.toList, 0 ≤ k.height ∧ k.height ≤ b) :
    tr.Small := by
  have hslot := h.slot_lt hroom hb
  obtain ⟨k, hk, hsize, hpad⟩ := h.block
  have := hheight k (List.mem_of_getElem? (by simpa using hk))
  have hsram := h.sram
  exact ⟨by omega, by omega, by omega⟩

/-- What the units of a block read as: its rows, and zeros for those it lacks. -/
theorem rows {m : Machine} {mem : UInt64 → UInt8} {p : Machine.Data}
    (h : Moves m.b resident offset o t id tr) (hp : p ≠ .wgt) (hr : m.ReadsRows mem p o t) :
    tr.units.mapM (m.unitRow mem p) =
      .ok ((List.range m.b).map ((blockOf (some t) id).line m.b)) := by
  obtain ⟨k, hk, hsize, hpad⟩ := h.block
  obtain ⟨h0, hle, hdata⟩ := hr.height k (List.mem_of_getElem? (by simpa using hk))
  have hblock : blockOf (some t) id = k := by
    simp [blockOf, hk]
  have hpadNat : tr.pad.toNat = m.b - k.height.toNat := by omega
  have hsplit : List.range m.b = List.range k.height.toNat ++
      (List.range (m.b - k.height.toNat)).map (k.height.toNat + ·) := by
    rw [← List.range_add, Nat.add_sub_cancel' (by omega)]
  have hzero : m.unitRow mem p none = .ok (List.replicate m.b 0) := by
    cases p with
    | inp => rfl
    | wgt => exact absurd rfl hp
    | acc => rfl
  rw [hblock, hsplit, List.map_append, Transfer.units, hsize, hpadNat]
  have hnone : List.replicate (m.b - k.height.toNat) (none : Option UInt64) =
      (List.range (m.b - k.height.toNat)).map fun _ => none := by simp
  rw [mapM_eq_ok, hnone]
  refine List.rel_append ?_ ?_
  · rw [List.forall₂_map_left_iff, List.forall₂_map_right_iff, List.forall₂_same]
    intro r hr'
    exact hr.row id k _ hk h.dram r (List.mem_range.1 hr')
  · rw [List.map_map, List.forall₂_map_left_iff, List.forall₂_map_right_iff, List.forall₂_same]
    intro r _
    have := Nat.mul_le_mul_right m.b (show k.height.toNat ≤ k.height.toNat + r by omega)
    rw [Function.comp_apply, Block.line_beyond (by omega), hzero]

end Transfer.Moves

namespace StepLowering

variable {k : StepLowering} {m : Machine} {s : Machine.State}

/-- The transfers of blocks put them where they are resident. -/
theorem fills_loadBlocks {b : Nat} {slot : Int → Nat} {block : Int → Nat → Row} {ids : List Int}
    {ts : List Transfer}
    (h : List.Forall₂ (fun n t => t.index = n ∧ t.sram.toNat = slot n * b) ids ts) (f : Nat → Row) :
    Machine.fills ts (fun t => (List.range b).map (block t.index)) f =
      loadBlocks b slot block ids f := by
  unfold Machine.fills loadBlocks
  induction h generalizing f with
  | nil => rfl
  | cons hnt _ ih =>
    rw [List.foldl_cons, List.foldl_cons, ih]
    simp only [hnt.1, hnt.2]

/-- The transfers of some blocks. -/
theorem blocks_moves {b : Nat} (hb : k.b = b) {what : String} {ids resident : List Int}
    {offset : Int} {o : Option Placed} {t : Option Tensor} {ts : List Transfer}
    (hfew : ∀ o' t', o = some o' → t = some t' → t'.blocks.size < 72057594037927936)
    (hoff : 0 ≤ offset ∧ offset < 72057594037927936)
    (h : k.blocks what ids (positions resident) offset o t true = .ok ts) :
    (ids = [] ∧ ts = []) ∨ ∃ o' t', o = some o' ∧ t = some t' ∧
      List.Forall₂ (fun n tr => Transfer.Moves b resident offset o' t' n tr) ids ts := by
  obtain hnone | ⟨o', t', rfl, rfl, hts⟩ := blocks_eq_ok.1 h
  · exact Or.inl hnone
  · refine Or.inr ⟨o', t', rfl, rfl, (mapM_eq_ok.1 hts).imp fun n tr htr => ?_⟩
    exact block_moves hb (hfew o' t' rfl rfl) hoff htr

/-- **The loads of some blocks as rows**: each stands where it is resident. -/
theorem blocks_load {p : Machine.Data} (hb : k.b = m.b) (h1 : 1 ≤ m.b) (h64 : m.b ≤ 64)
    (hp : p ≠ .wgt) {what : String} {ids resident : List Int} {offset : Int} {o : Option Placed}
    {t : Option Tensor} {ts : List Transfer}
    (hreads : ∀ o' t', o = some o' → t = some t' → m.ReadsRows s.mem p o' t')
    (hoff : 0 ≤ offset ∧ offset < 72057594037927936) (hroom : resident.length * m.b ≤ 65536)
    (h : k.blocks what ids (positions resident) offset o t true = .ok ts) :
    (∀ n ∈ ids, 0 ≤ n ∧ n + offset ∈ resident ∧ ∃ t', t = some t' ∧ n.toNat < t'.blocks.size) ∧
      (moves (.load p.buffer) k.b k.b ts).foldlM m.exec s = .ok (p.set s
        (loadBlocks m.b (fun n => (resident.idxOf? (n + offset)).getD 0)
          (fun n r => (blockOf t n).line m.b r) ids (p.rows s))) := by
  rcases blocks_moves hb (fun o' t' ho ht => (hreads o' t' ho ht).few) hoff h with ⟨rfl, rfl⟩ | ⟨o', t', rfl, rfl, hmoves⟩
  · exact ⟨by simp, by rw [show (moves (.load p.buffer) k.b k.b []).foldlM m.exec s = .ok s from rfl,
      loadBlocks, List.foldl_nil, Machine.Data.set_rows]⟩
  have hr := hreads o' t' rfl rfl
  have hheight : ∀ k ∈ t'.blocks.toList, 0 ≤ k.height ∧ k.height ≤ m.b := fun k hk =>
    ⟨(hr.height k hk).1, (hr.height k hk).2.1⟩
  refine ⟨fun n hn => ?_, ?_⟩
  · obtain ⟨tr, -, htr⟩ := forall₂_left hmoves hn
    obtain ⟨k, hk, -⟩ := htr.block
    exact ⟨htr.nonneg, htr.held, t', rfl, (Array.getElem?_eq_some_iff.1 hk).1⟩
  · rw [hb, Machine.moves_load]
    · rw [fills_loadBlocks]
      refine hmoves.imp fun n tr htr => ⟨htr.index, ?_⟩
      rw [htr.sram, Int.toNat_natCast]
    · intro tr htr
      obtain ⟨n, -, hn⟩ := forall₂_right hmoves htr
      exact hn.small hroom h1 h64 hheight
    · omega
    · intro tr htr hfull
      obtain ⟨n, -, hn⟩ := forall₂_right hmoves htr
      obtain ⟨k, -, hsize, hpad⟩ := hn.block
      omega
    · intro tr htr
      obtain ⟨n, -, hn⟩ := forall₂_right hmoves htr
      rw [hn.index]
      exact hn.rows hp hr

/-- The transfer of a weight block: it goes where the block is resident, and brings in the
columns of the block. -/
theorem block_loadWhole {what : String} {resident : List Int} {o : Placed} {t : Tensor} {n : Int}
    {tr : Transfer} (hreads : m.ReadsColumns s.mem o (some t)) (hroom : resident.length ≤ 65536)
    (h : k.block what (positions resident) 0 o t false n = .ok tr) :
    (n ∈ resident ∧ tr.index = n ∧ tr.sram = (((resident.idxOf? n).getD 0 : Nat) : Int)) ∧
      tr.Small ∧ tr.pad = 0 ∧
      tr.units.mapM (m.unitRow s.mem .wgt) = .ok [(blockOf (some t) tr.index).columns m.b] := by
  obtain ⟨position, l, dram, hpos, hl, hdram, rfl⟩ := block_whole_eq_ok.1 h
  obtain ⟨hn, hread⟩ := hreads n l hl
  obtain ⟨h0, -⟩ := Placed.block_eq_ok hl
  rw [positions_eq, Int.add_zero, wrap64_small (by omega) (by omega)] at hpos
  have hlt := idxOf?_lt hpos
  refine ⟨⟨mem_of_idxOf? hpos, rfl, by rw [hpos]; rfl⟩, ⟨?_, ?_, ?_⟩, rfl, ?_⟩
  · simp only
    omega
  · simp only
    omega
  · simp only
    omega
  have hunits : Transfer.units { index := n, sram := position, dram, size := 1 } = [some l] := by
    unfold Transfer.units
    simp [address_eq_ok hdram]
  rw [hunits]
  exact mapM_of_forall (g := fun _ => (blockOf (some t) n).columns m.b)
    fun u hu => by rw [List.mem_singleton.1 hu]; exact hread

/-- **The loads of some weight blocks**: each stands where it is resident. -/
theorem blocks_loadWhole {what : String} {ids resident : List Int} {o : Option Placed}
    {t : Option Tensor} {ts : List Transfer}
    (hreads : ∀ o', o = some o' → m.ReadsColumns s.mem o' t) (hroom : resident.length ≤ 65536)
    (h : k.blocks what ids (positions resident) 0 o t false = .ok ts) :
    (∀ n ∈ ids, n ∈ resident) ∧ (moves (.load .wgt) 1 1 ts).foldlM m.exec s = .ok { s with
      wgt := loadBlocks 1 (fun n => (resident.idxOf? n).getD 0)
        (fun n _ => (blockOf t n).columns m.b) ids s.wgt } := by
  obtain ⟨rfl, rfl⟩ | ⟨o', t', rfl, rfl, hts⟩ := blocks_eq_ok.1 h
  · exact ⟨fun n hn => absurd hn List.not_mem_nil, rfl⟩
  have hmoves := (mapM_eq_ok.1 hts).imp fun n tr htr => block_loadWhole (hreads o' rfl) hroom htr
  refine ⟨fun n hn => ?_, ?_⟩
  · obtain ⟨tr, -, htr⟩ := forall₂_left hmoves hn
    exact htr.1.1
  · rw [show Instruction.load .wgt = .load (Machine.Data.wgt).buffer from rfl,
      Machine.moves_load]
    · rw [fills_loadBlocks]
      · rfl
      refine hmoves.imp fun n tr htr => ⟨htr.1.2.1, ?_⟩
      rw [htr.1.2.2, Int.toNat_natCast, Nat.mul_one]
    · intro tr htr
      obtain ⟨n, -, -, hsmall, -⟩ := forall₂_right hmoves htr
      exact hsmall
    · omega
    · intro tr htr _
      obtain ⟨n, -, -, -, hpad, -⟩ := forall₂_right hmoves htr
      exact hpad
    · intro tr htr
      obtain ⟨n, -, -, -, -, hunits⟩ := forall₂_right hmoves htr
      exact hunits

end StepLowering

/-- Two numbers at one position are one. -/
theorem position_inj {xs : List Int} {x y : Int} (hx : x ∈ xs) (hy : y ∈ xs)
    (h : (xs.idxOf? x).getD 0 = (xs.idxOf? y).getD 0) : x = y := by
  obtain ⟨i, hi⟩ := exists_idxOf? hx
  obtain ⟨j, hj⟩ := exists_idxOf? hy
  rw [hi, hj] at h
  have hxi := getElem?_of_idxOf? hi
  have hyj := getElem?_of_idxOf? hj
  rw [show i = j from h, hyj] at hxi
  exact (Option.some.inj hxi).symm

/-- The rows of the accumulator that the residents of a step take. -/
def Step.rowCount (b : Nat) (s : Step) : Nat :=
  match s.residentGrain with
  | .vector => s.sramResident.length
  | .block => s.sramResident.length * b

/-- The residents of a step can be addressed, and their numbers are small. The second
accumulator comes in blocks. -/
structure Step.Bounded (b : Nat) (s : Step) : Prop where
  inp : s.inpResident.length * b ≤ 65536
  wgt : s.wgtResident.length ≤ 65536
  sram : s.rowCount b ≤ 65536
  number : ∀ n ∈ s.sramResident, n < 72057594037927936
  second : s.residentGrain = .vector → s.loadY = []

namespace Lowering

/-- A machine for a lowering: blocks have the machine's side, the accumulator is full
blocks, and the types can be computed with. -/
structure Suits (env : Lowering) (m : Machine) : Prop where
  side : env.data.b = m.b
  pos : 1 ≤ m.b
  le : m.b ≤ 64
  acc : m.acc.Supported
  out : m.out.Supported
  base : m.base = 0
  object : env.layout.acc = some env.acc
  blocks : env.schedule.nX = env.data.x.size
  full : ∀ k ∈ env.data.x.blocks.toList, k.Full m.b

/-- Memory reads as the operands of a program. -/
structure Serves (env : Lowering) (m : Machine) (mem : UInt64 → UInt8) : Prop where
  inp : ∀ o t, env.layout.inp = some o → env.data.a = some t → m.ReadsRows mem .inp o t
  wgt : ∀ o, env.layout.wgt = some o → m.ReadsColumns mem o env.data.w
  acc : m.ReadsRows mem .acc env.acc env.data.x
  accBis : ∀ o t, env.layout.accBis = some o → env.data.y = some t → m.ReadsRows mem .acc o t

end Lowering

/-- The weights stand at their positions in the scratchpad. -/
def Machine.HoldsWeights (m : Machine) (d : Shaped) (weights : List Int) (s : State) : Prop :=
  ∀ n ∈ weights, s.wgt ((weights.idxOf? n).getD 0) = (blockOf d.w n).columns m.b

/-- The scratchpads hold the inputs and weights that are resident in a step. -/
structure Machine.Stocked (m : Machine) (d : Shaped) (st : Step) (s : State) : Prop where
  inp : ∀ n ∈ st.inpResident, ∀ r < m.b,
    s.inp ((st.inpResident.idxOf? n).getD 0 * m.b + r) = (blockOf d.a n).line m.b r
  wgt : m.HoldsWeights d st.wgtResident s

/-- A step brings in its inputs, and its weights unless they are those of the step
before. -/
structure Step.Supplies (weights : List Int) (st : Step) : Prop where
  inp : st.inpResident = st.loadA
  wgt : st.wgtResident = st.loadB ∨ st.loadB = [] ∧ st.wgtResident = weights

namespace StepLowering

variable {env : Lowering} {m : Machine} {s : Machine.State} {i : Nat} {st : Step}

/-- **The loads of a step** bring in what its products use. -/
theorem loads_exec (hm : env.Suits m) (hserves : env.Serves m s.mem) (hst : st.Bounded m.b)
    {weights : List Int} (hsup : st.Supplies weights)
    (hwgt : m.HoldsWeights env.data weights s)
    {insns : List Instruction} (h : (env.stepOf i st).loads = .ok insns) :
    ∃ s', insns.foldlM m.exec s = .ok s' ∧ s'.mem = s.mem ∧ s'.acc = s.acc ∧ s'.out = s.out ∧
      m.Stocked env.data st s' := by
  obtain ⟨inp, hinp, h⟩ := Outcome.bind_eq_ok.1 h
  obtain ⟨wgt, hwgts, h⟩ := Outcome.bind_eq_ok.1 h
  obtain rfl := Outcome.pure_eq_ok.1 h
  have hside : (env.stepOf i st).b = m.b := hm.side
  obtain ⟨hheld, hexec⟩ := blocks_load (p := .inp) (s := s) hside hm.pos hm.le (by simp)
    hserves.inp ⟨le_rfl, by omega⟩ hst.inp hinp
  set s1 := Machine.Data.inp.set s (loadBlocks m.b _ _ _ _) with hs1
  obtain ⟨hheld', hexec'⟩ := blocks_loadWhole (m := m) (s := s1) hserves.wgt hst.wgt hwgts
  refine ⟨_, foldlM_append_eq_ok.2 ⟨_, hexec, hexec'⟩, rfl, rfl, rfl, ?_, ?_⟩
  · intro n hn r hr
    have hslot : ∀ x ∈ st.loadA, ∀ y ∈ st.loadA,
        (st.inpResident.idxOf? (x + 0)).getD 0 = (st.inpResident.idxOf? (y + 0)).getD 0 → x = y := by
      intro x hx y hy heq
      have := position_inj (hheld x hx).2.1 (hheld y hy).2.1 heq
      omega
    have := loadBlocks_at (fun n r => (blockOf env.data.a n).line m.b r) hslot
      (hsup.inp ▸ hn) hr s.inp
    rw [Int.add_zero] at this
    exact this
  · intro n hn
    rcases hsup.wgt with heq | ⟨hnil, heq⟩
    · have := loadBlocks_at (fun n _ => (blockOf env.data.w n).columns m.b)
        (fun x hx y hy => position_inj (hheld' x hx) (hheld' y hy)) (heq ▸ hn) Nat.one_pos s.wgt
      rw [Nat.mul_one, Nat.add_zero] at this
      exact this
    · show loadBlocks 1 _ _ st.loadB s.wgt _ = _
      rw [hnil, heq]
      exact hwgt n (heq ▸ hn)

end StepLowering

namespace Shaped

variable {d : Shaped} {b : Nat}

/-- A row of a block in memory. -/
theorem initial_line (hb : d.b = b) {n r : Nat} (hr : r < b) :
    d.initial ((n * b + r : Nat) : Int) = (d.stackedBlocks.getD n ⟨0, #[]⟩).line b r := by
  unfold initial Block.line
  rw [hb, Int.toNat_natCast]
  apply List.map_congr_left
  intro e _
  rw [if_neg (by omega), Int.toNat_natCast, row_of_index hr, Nat.mul_add_mod_of_lt hr]

theorem initial_first (hb : d.b = b) {n : Int} {r : Nat} (hn : 0 ≤ n)
    (hlt : n.toNat < d.x.blocks.size) (hr : r < b) :
    d.initial (n * b + r) = (blockOf (some d.x) n).line b r := by
  obtain ⟨n, rfl⟩ := Int.eq_ofNat_of_zero_le hn
  have := initial_line hb (n := n) hr
  push_cast at this
  rw [this]
  congr 1
  rw [Int.toNat_natCast] at hlt
  simp only [stackedBlocks, blockOf, Option.bind_some, Int.toNat_natCast]
  rw [List.getD_eq_getElem?_getD, List.getElem?_append_left (by simpa using hlt),
    Array.getElem?_toList]

theorem initial_second (hb : d.b = b) {n : Int} {r : Nat} (hn : 0 ≤ n) (hr : r < b) :
    d.initial ((d.x.size + n) * b + r) = (blockOf d.y n).line b r := by
  obtain ⟨n, rfl⟩ := Int.eq_ofNat_of_zero_le hn
  have := initial_line hb (n := d.x.blocks.size + n) hr
  push_cast at this
  rw [Tensor.size, this]
  congr 1
  simp only [stackedBlocks, blockOf, Int.toNat_natCast]
  rw [List.getD_eq_getElem?_getD, List.getElem?_append_right (by simp), Array.length_toList,
    Nat.add_sub_cancel_left]
  cases d.y with
  | none => simp
  | some t => simp

end Shaped

namespace StepLowering

variable {env : Lowering} {m : Machine} {s : Machine.State} {i : Nat} {st : Step} {ρ ρ' : Rows}

/-- The loads of accumulator blocks. -/
theorem accLoads_block (hm : env.Suits m) (hserves : env.Serves m s.mem) (hst : st.Bounded m.b)
    (hgrain : st.residentGrain = .block) (hmir : m.Mirrors s ρ)
    {acc accBis : List Instruction} (hacc : (env.stepOf i st).accLoads = .ok acc)
    (hbis : (env.stepOf i st).accBisLoads = .ok accBis)
    (hrun : ρ.run env.data.initial
      ((st.loads env.data).map fun v => ⟨st.place env.data.b, .load v⟩) = .ok ρ') :
    ∃ s', (acc ++ accBis).foldlM m.exec s = .ok s' ∧ Machine.Keeps s s' ∧ m.Mirrors s' ρ' := by
  have hside : (env.stepOf i st).b = m.b := hm.side
  have hroom : st.sramResident.length * m.b ≤ 65536 := by
    have := hst.sram
    rwa [Step.rowCount, hgrain] at this
  have hnX : 0 ≤ env.schedule.nX ∧ env.schedule.nX < 72057594037927936 := by
    have := hserves.acc.few
    rw [hm.blocks, Tensor.size]
    omega
  rw [accLoads_eq_ok, stepOf_step, hgrain] at hacc
  obtain ⟨ts, hts, rfl⟩ := hacc
  obtain ⟨us, hus, hbis⟩ := Outcome.bind_eq_ok.1 hbis
  obtain rfl := Outcome.pure_eq_ok.1 hbis
  obtain ⟨hheld, hexec⟩ := blocks_load (p := .acc) (s := s) hside hm.pos hm.le (by simp)
    (fun o t ho ht => by
      have ho : env.layout.acc = some o := ho
      rw [hm.object] at ho
      cases ho
      cases ht
      exact hserves.acc) ⟨le_rfl, by omega⟩ hroom hts
  set s1 := Machine.Data.acc.set s (loadBlocks m.b _ _ _ _) with hs1
  obtain ⟨hheld', hexec'⟩ := blocks_load (p := .acc) (s := s1) hside hm.pos hm.le (by simp)
    hserves.accBis hnX hroom hus
  -- the same blocks in the replay
  have hids : ∀ n ∈ st.loadX ++ st.loadY.map (env.data.counts.nX + ·), 0 ≤ n ∧ n ∈ st.sramResident := by
    intro n hn
    rcases List.mem_append.1 hn with hn | hn
    · obtain ⟨h0, hmem, -⟩ := hheld n hn
      exact ⟨h0, by simpa using hmem⟩
    · obtain ⟨y, hy, rfl⟩ := List.mem_map.1 hn
      obtain ⟨h0, hmem, -⟩ := hheld' y hy
      rw [show env.data.counts.nX = env.schedule.nX from hm.blocks.symm, Int.add_comm]
      exact ⟨by omega, hmem⟩
  rw [Step.loads, hgrain, hm.side, Rows.run_loadBlocks hm.pos hgrain hids] at hrun
  obtain rfl := Except.ok.inj hrun
  refine ⟨_, foldlM_append_eq_ok.2 ⟨_, hexec, hexec'⟩, ⟨rfl, rfl, rfl⟩, ?_, hmir.out⟩
  show loadBlocks m.b _ _ st.loadY (loadBlocks m.b _ _ st.loadX s.acc) = _
  rw [hmir.acc, loadBlocks_append, loadBlocks_map]
  have hfirst : loadBlocks m.b (fun n => (st.sramResident.idxOf? (n + 0)).getD 0)
      (fun n r => (blockOf (some env.data.x) n).line m.b r) st.loadX ρ.acc =
      loadBlocks m.b (fun n => (st.sramResident.idxOf? n).getD 0)
        (fun n r => env.data.initial (n * m.b + r)) st.loadX ρ.acc := by
    refine loadBlocks_congr (fun n _ => by rw [Int.add_zero]) (fun n hn r hr => ?_) _
    obtain ⟨h0, -, t', ht', hlt⟩ := hheld n hn
    cases ht'
    exact (Shaped.initial_first hm.side h0 hlt hr).symm
  refine (congrArg _ hfirst).trans ?_
  refine loadBlocks_congr (fun n _ => ?_) (fun n hn r hr => ?_) _
  · rw [Function.comp_apply, show env.data.counts.nX = env.schedule.nX from hm.blocks.symm,
      Int.add_comm]
  · exact (Shaped.initial_second hm.side (hheld' n hn).1 hr).symm

/-- The transfers of vectors put them in their rows. -/
theorem fills_vectors {place : Int → Option Nat} {memory : Int → Row} {vs : List Int}
    {ts : List Transfer}
    (h : List.Forall₂ (fun v tr => place v = some tr.sram.toNat ∧ tr.index = v) vs ts)
    (f : Nat → Row) :
    Machine.fills ts (fun tr => [memory tr.index]) f =
      vs.foldl (fun f v => Function.update f ((place v).getD 0) (memory v)) f := by
  unfold Machine.fills
  induction h generalizing f with
  | nil => rfl
  | cons hv _ ih =>
    rw [List.foldl_cons, List.foldl_cons, ih]
    simp only [hv.1, hv.2, fill_singleton, Option.getD_some]

/-- The transfer of a vector. -/
theorem vector_moves (hm : env.Suits m) {v : Int} (h0 : 0 ≤ v) (hv : v < 72057594037927936)
    {tr : Transfer} (h : (env.stepOf i st).vector v = .ok tr) :
    ∃ slot l, st.sramResident.idxOf? v = some slot ∧ env.acc.block (v / m.b) = .ok l ∧
      tr.dram.toUInt64 = l + UInt64.ofNat (v % m.b).toNat ∧
      tr = { index := v, sram := slot, dram := tr.dram, size := 1 } := by
  have hside : (env.stepOf i st).b = m.b := hm.side
  have hpos := hm.pos
  obtain ⟨slot, q, l, r, dram, hslot, hq, hl, hr, hdram, rfl⟩ := vector_eq_ok.1 h
  rw [hside, quotient_small h0 (by omega) (by omega)] at hq
  rw [hside, remainder_small h0 (by omega)] at hr
  obtain rfl := Except.ok.inj hq
  obtain rfl := Except.ok.inj hr
  rw [stepOf_sram, positions_eq] at hslot
  refine ⟨slot, l, hslot, hl, ?_, rfl⟩
  have hmod : 0 ≤ v % (m.b : Int) := Int.emod_nonneg _ (by omega)
  rw [address_eq_ok hdram, ← ofInt_natCast64, Int.toNat_of_nonneg hmod]

/-- The transfer of a vector that is loaded: it goes where the replay puts the vector, and
brings in the vector's line. -/
theorem vector_load (hm : env.Suits m) (hserves : env.Serves m s.mem) (hst : st.Bounded m.b)
    (hgrain : st.residentGrain = .vector) {v : Int} {tr : Transfer}
    (hplaced : ∃ row, st.place env.data.b v = some row) (h : (env.stepOf i st).vector v = .ok tr) :
    (st.place env.data.b v = some tr.sram.toNat ∧ tr.index = v) ∧ tr.Small ∧ tr.pad = 0 ∧
      tr.units.mapM (m.unitRow s.mem .acc) = .ok [env.data.initial tr.index] := by
  have hpos := hm.pos
  obtain ⟨row, hrow⟩ := hplaced
  have h0 : 0 ≤ v := by
    by_contra hneg
    rw [Step.place, if_pos (by omega)] at hrow
    cases hrow
  have hplace : st.place env.data.b v = st.sramResident.idxOf? v := by
    rw [Step.place, if_neg (by omega), hgrain]
  have hmem : v ∈ st.sramResident := by
    rw [hplace] at hrow
    exact mem_of_idxOf? hrow
  obtain ⟨slot, l, hslot, hl, hdram, htr⟩ := vector_moves hm h0 (hst.number v hmem) h
  have hlt := idxOf?_lt hslot
  have hroom : st.sramResident.length ≤ 65536 := by
    have := hst.sram
    rwa [Step.rowCount, hgrain] at this
  rw [htr]
  refine ⟨⟨by rw [hplace]; simpa using hslot, rfl⟩, ⟨?_, ?_, ?_⟩, rfl, ?_⟩
  · simp only
    omega
  · simp only
    omega
  · simp only
    omega
  -- the unit is row `v % b` of block `v / b`
  obtain ⟨hdiv, a, ha, -⟩ := Placed.block_eq_ok hl
  obtain ⟨blk, hblk⟩ : ∃ blk, env.data.x.blocks[(v / (m.b : Int)).toNat]? = some blk := by
    refine ⟨_, Array.getElem?_eq_getElem ?_⟩
    rw [← hserves.acc.same]
    exact (Array.getElem?_eq_some_iff.1 ha).1
  have hfull := hm.full blk (List.mem_of_getElem? (by simpa using hblk))
  have hmod := Int.emod_nonneg v (show (m.b : Int) ≠ 0 by omega)
  have hmod' := Int.emod_lt_of_pos v (show 0 < (m.b : Int) by omega)
  have hread := hserves.acc.row _ blk l hblk hl (v % (m.b : Int)).toNat
    (by rw [hfull.1, Int.toNat_natCast]; omega)
  have hinit := Shaped.initial_first hm.side hdiv (Array.getElem?_eq_some_iff.1 hblk).1
    (show (v % (m.b : Int)).toNat < m.b by omega)
  rw [Int.toNat_of_nonneg hmod, Int.mul_comm, Int.mul_ediv_add_emod] at hinit
  have hblock : blockOf (some env.data.x) (v / (m.b : Int)) = blk := by simp [blockOf, hblk]
  rw [hblock] at hinit
  have hunits : Transfer.units { index := v, sram := slot, dram := tr.dram, size := 1 } =
      [some (l + UInt64.ofNat (v % (m.b : Int)).toNat)] := by
    unfold Transfer.units
    simp [hdram]
  rw [hunits, hinit]
  exact mapM_of_forall (g := fun _ => blk.line m.b (v % (m.b : Int)).toNat)
    fun u hu => by rw [List.mem_singleton.1 hu]; exact hread

/-- The loads of accumulator vectors. -/
theorem accLoads_vector (hm : env.Suits m) (hserves : env.Serves m s.mem) (hst : st.Bounded m.b)
    (hgrain : st.residentGrain = .vector) (hmir : m.Mirrors s ρ)
    (hloads : ∀ v ∈ st.loads env.data, ∃ row, st.place env.data.b v = some row)
    {acc accBis : List Instruction} (hacc : (env.stepOf i st).accLoads = .ok acc)
    (hbis : (env.stepOf i st).accBisLoads = .ok accBis)
    (hrun : ρ.run env.data.initial
      ((st.loads env.data).map fun v => ⟨st.place env.data.b, .load v⟩) = .ok ρ') :
    ∃ s', (acc ++ accBis).foldlM m.exec s = .ok s' ∧ Machine.Keeps s s' ∧ m.Mirrors s' ρ' := by
  rw [Rows.run_loads hloads] at hrun
  obtain rfl := Except.ok.inj hrun
  rw [Step.loads, hgrain] at hloads ⊢
  have hempty : accBis = [] := by
    unfold accBisLoads blocks at hbis
    rw [show (env.stepOf i st).step = st from rfl, hst.second hgrain] at hbis
    exact (Outcome.pure_eq_ok.1 hbis).symm
  rw [accLoads_eq_ok, stepOf_step, hgrain] at hacc
  obtain ⟨ts, hts, rfl⟩ := hacc
  -- each transfer brings in one vector
  have hmoves : List.Forall₂ (fun v tr => (st.place env.data.b v = some tr.sram.toNat ∧
      tr.index = v) ∧ tr.Small ∧ tr.pad = 0 ∧
      tr.units.mapM (m.unitRow s.mem .acc) = .ok [env.data.initial tr.index]) st.loadX ts := by
    have hboth := (List.forall₂_and_left _ _).2 ⟨fun v (hv : v ∈ st.loadX) => hv, mapM_eq_ok.1 hts⟩
    exact hboth.imp fun v tr htr => vector_load hm hserves hst hgrain (hloads v htr.1) htr.2
  have hexec := Machine.moves_load (m := m) (s := s) (p := .acc)
    (fun tr htr => by obtain ⟨v, -, h⟩ := forall₂_right hmoves htr; exact h.2.1)
    (show 1 ≤ (1 : Int) ∧ (1 : Int) < 65536 by omega)
    (fun tr htr _ => by obtain ⟨v, -, h⟩ := forall₂_right hmoves htr; exact h.2.2.1)
    (fun tr htr => by obtain ⟨v, -, h⟩ := forall₂_right hmoves htr; exact h.2.2.2)
  rw [hempty, List.append_nil]
  refine ⟨_, hexec, ⟨rfl, rfl, rfl⟩, ?_, hmir.out⟩
  show Machine.fills ts _ s.acc = _
  rw [hmir.acc]
  exact fills_vectors (hmoves.imp fun v tr h => h.1) ρ.acc

/-- **The loads of the accumulators** are those of the replay. -/
theorem accLoads_exec (hm : env.Suits m) (hserves : env.Serves m s.mem) (hst : st.Bounded m.b)
    (hmir : m.Mirrors s ρ)
    (hloads : ∀ v ∈ st.loads env.data, ∃ row, st.place env.data.b v = some row)
    {acc accBis : List Instruction} (hacc : (env.stepOf i st).accLoads = .ok acc)
    (hbis : (env.stepOf i st).accBisLoads = .ok accBis)
    (hrun : ρ.run env.data.initial
      ((st.loads env.data).map fun v => ⟨st.place env.data.b, .load v⟩) = .ok ρ') :
    ∃ s', (acc ++ accBis).foldlM m.exec s = .ok s' ∧ Machine.Keeps s s' ∧ m.Mirrors s' ρ' := by
  cases hgrain : st.residentGrain with
  | block => exact accLoads_block hm hserves hst hgrain hmir hacc hbis hrun
  | vector => exact accLoads_vector hm hserves hst hgrain hmir hloads hacc hbis hrun

end StepLowering

end Tessera
