import Tessera.Proofs.Loads

/-!
# The computations of a step

The products and operations of a step, run from micro-operations, do to the rows of the
accumulator what the actions of the step do in its replay.

* `batch_mirrors`: a batch whose iterations stand for actions.
* `products_mirror`, `operation_mirrors`: the products and one operation of a step.
* `computes_exec`: the whole group of the compute stage.
-/

namespace Tessera

namespace Step

variable {b : Nat} {st : Step}

theorem nonneg_of_place {v : Int} {row : Nat} (h : st.place b v = some row) : 0 ≤ v := by
  by_contra hneg
  rw [place, if_pos (by omega)] at h
  cases h

/-- A vector with a row is resident, or its block is. -/
theorem place_held {v : Int} {row : Nat} (h : st.place b v = some row) :
    match st.residentGrain with
    | .vector => st.sramResident.idxOf? v = some row
    | .block => ∃ i, st.sramResident.idxOf? (v / b) = some i ∧ row = i * b + (v % b).toNat := by
  have h0 := nonneg_of_place h
  rw [place, if_neg (by omega)] at h
  cases hg : st.residentGrain with
  | vector => rwa [hg] at h
  | block =>
    rw [hg] at h
    obtain ⟨i, hi, hrow⟩ := Option.map_eq_some_iff.1 h
    exact ⟨i, hi, by rw [← hrow, Int.toNat_natCast]⟩

/-- The rows of a step can be addressed. -/
theorem place_lt (hb : 1 ≤ b) (hst : st.Bounded b) {v : Int} {row : Nat}
    (h : st.place b v = some row) : row < 65536 := by
  have hheld := place_held h
  have hroom := hst.sram
  cases hg : st.residentGrain with
  | vector =>
    rw [hg] at hheld
    rw [rowCount, hg] at hroom
    have := idxOf?_lt hheld
    exact lt_of_lt_of_le this hroom
  | block =>
    rw [hg] at hheld
    rw [rowCount, hg] at hroom
    obtain ⟨i, hi, rfl⟩ := hheld
    have hlt := idxOf?_lt hi
    have hmul := Nat.mul_le_mul_right b (show i + 1 ≤ st.sramResident.length by omega)
    have hmod := Int.emod_lt_of_pos v (show 0 < (b : Int) by omega)
    rw [add_mul, one_mul] at hmul
    have hroom : st.sramResident.length * b ≤ 65536 := hroom
    omega

end Step

/-- The vectors of a step have rows, its products are on blocks, and its immediates are
small. -/
structure Step.Ready (d : Shaped) (acc : Scalar) (st : Step) : Prop where
  loads : ∀ v ∈ st.loads d, ∃ row, st.place d.b v = some row
  reads : ∀ a ∈ st.actions d acc, ∀ u ∈ a.reads, ∃ row, st.place d.b u = some row
  grain : ∀ c a w, .gemm c a w ∈ st.ops → st.residentGrain = .block
  imm : ∀ r sites, .alu r sites ∈ st.ops → -32768 ≤ r.imm ∧ r.imm < 32768

namespace StepLowering

variable {env : Lowering} {m : Machine} {i : Nat} {st : Step}

/-- **The row of a vector** is the one of the replay. -/
theorem row_eq (hm : env.Suits m) (hst : st.Bounded m.b) {v : Int} {row : Nat}
    (h : st.place m.b v = some row) : (env.stepOf i st).row v = .ok (row : Int) := by
  have hside : (env.stepOf i st).b = m.b := hm.side
  have hpos := hm.pos
  have h0 := Step.nonneg_of_place h
  have hheld := Step.place_held h
  unfold StepLowering.row
  rw [show (env.stepOf i st).step = st from rfl,
    show (env.stepOf i st).sram = positions st.sramResident from rfl]
  cases hg : st.residentGrain with
  | vector =>
    rw [hg] at hheld
    simp only [positions_eq, hheld]
    rfl
  | block =>
    rw [hg] at hheld
    obtain ⟨j, hj, rfl⟩ := hheld
    have hmem := mem_of_idxOf? hj
    have hnum := hst.number _ hmem
    have hv : v < 9223372036854775808 := by
      have h1 := Int.lt_ediv_add_one_mul_self v (show 0 < (m.b : Int) by omega)
      have h2 : (v / (m.b : Int) + 1) * m.b ≤ 72057594037927936 * 64 :=
        Int.mul_le_mul (by omega) (by have := hm.le; omega) (by omega) (by omega)
      omega
    have hmod := Int.emod_nonneg v (show (m.b : Int) ≠ 0 by omega)
    simp only [hside, quotient_small h0 hv (show 0 < (m.b : Int) by omega),
      remainder_small h0 (show 0 < (m.b : Int) by omega), Outcome.ok_bind, positions_eq, hj]
    show Except.ok _ = _
    congr 1
    push_cast
    rw [Int.toNat_of_nonneg hmod]

end StepLowering

/-- The table holds some micro-operations from `start` on. -/
structure Machine.Loaded (m : Machine) (start : Nat) (us : List MicroOp) : Prop where
  table : ∀ x < us.length, m.table[start + x]? = us[x]?
  small : start + us.length < 4294967296

namespace Machine

theorem Loaded.left {m : Machine} {start : Nat} {us vs : List MicroOp}
    (h : m.Loaded start (us ++ vs)) : m.Loaded start us := by
  have hsmall := h.small
  rw [List.length_append] at hsmall
  refine ⟨fun x hx => ?_, by omega⟩
  rw [h.table x (by rw [List.length_append]; omega), List.getElem?_append_left hx]

theorem Loaded.right {m : Machine} {start : Nat} {us vs : List MicroOp}
    (h : m.Loaded start (us ++ vs)) : m.Loaded (start + us.length) vs := by
  have hsmall := h.small
  rw [List.length_append] at hsmall
  refine ⟨fun x hx => ?_, by omega⟩
  rw [Nat.add_assoc, h.table _ (by rw [List.length_append]; omega),
    List.getElem?_append_right (by omega), Nat.add_sub_cancel_left]

/-- **A batch whose iterations stand for actions** does to the rows what they do. -/
theorem batch_mirrors {m : Machine} (hbase : m.base = 0) (hout : m.out.Supported) {i : Instruction}
    {row : State → MicroOp → Outcome Row} (hi : m.Computes i row) {capacity : Int} {n : Nat}
    {us : List MicroOp} (hus : m.Loaded n us) {place : Int → Option Nat} {start : State}
    {as : List Action} (henact : List.Forall₂ (m.Enacts row place start) (us.flatMap (expand i)) as)
    {memory : Int → Row} {s : State} {ρ ρ' : Rows} (hkeep : Keeps start s) (hmir : m.Mirrors s ρ)
    (hrun : ρ.run memory (as.map fun a => ⟨place, .act a⟩) = .ok ρ') :
    ∃ s', (batch capacity n i us).instructions.foldlM m.exec s = .ok s' ∧ Keeps start s' ∧
      m.Mirrors s' ρ' := by
  obtain ⟨s1, h1, hk1, hm1⟩ := rowSteps_mirrors hout henact hkeep hmir hrun
  obtain ⟨uop, hexec⟩ := batch_exec hbase hi hus.table hus.small h1
  exact ⟨_, hexec, ⟨hk1.mem, hk1.inp, hk1.wgt⟩, ⟨hm1.acc, hm1.out⟩⟩

end Machine

namespace StepLowering

variable {env : Lowering} {m : Machine} {i : Nat} {st : Step}

/-- The instruction of a product. -/
def gemmInstruction (b : Int) : Instruction :=
  { opcode := .gemm, loopOut := 1, loopIn := UInt32.ofInt b, dstFactorIn := 1, srcFactorIn := 1 }

/-- The row that iteration `r` of a product addresses, in the block at position `n`. -/
theorem toNat_productRow {n b r : Nat} (hroom : n * b + b ≤ 65536) (hr : r < b) :
    (UInt32.ofInt ((n : Int) * b) + 0 * 0 + UInt32.ofNat r * 1).toNat = n * b + r := by
  rw [show (n : Int) * b = ((n * b : Nat) : Int) by push_cast; rfl,
    show (0 : UInt32) * 0 = 0 from rfl, UInt32.add_zero, UInt32.mul_one, UInt32.toNat_add,
    toNat_ofInt32 (by omega) (by omega), toNat_ofNat32 (by omega), Int.toNat_natCast,
    Nat.mod_eq_of_lt (by norm_num; omega)]

/-- The iterations of a product are its rows. -/
theorem product_enacts (hm : env.Suits m) (hst : st.Bounded m.b) {start : Machine.State}
    (hstock : m.Stocked env.data st start) (hgrain : st.residentGrain = .block) {c a w : Int}
    (hc : 0 ≤ c) {u : MicroOp} (h : (env.stepOf i st).product (.gemm c a w) = .ok u) :
    List.Forall₂ (m.Enacts (fun s u => m.gemmRow s (gemmInstruction m.b) u) (st.place m.b) start)
      (Machine.expand (gemmInstruction m.b) u) (StepOp.actions env.data m.acc (.gemm c a w)) := by
  have hpos := hm.pos
  have hle := hm.le
  have hside : (env.stepOf i st).b = m.b := hm.side
  obtain ⟨cpos, apos, wpos, hcpos, hapos, hwpos, rfl⟩ := product_eq_ok.1 h
  rw [stepOf_sram, positions_eq] at hcpos
  rw [stepOf_inp, positions_eq] at hapos
  rw [stepOf_wgt, positions_eq] at hwpos
  -- the rows of the three operands can be addressed
  have hsram := hst.sram
  rw [Step.rowCount, hgrain] at hsram
  have hcroom := (row_room m.b (idxOf?_lt hcpos)).trans hsram
  have haroom := (row_room m.b (idxOf?_lt hapos)).trans hst.inp
  have hwlt := (idxOf?_lt hwpos).trans_le hst.wgt
  have hinner : (gemmInstruction m.b).loopIn.toNat = m.b := by
    show (UInt32.ofInt (m.b : Int)).toNat = m.b
    rw [toNat_ofInt32 (by omega) (by omega), Int.toNat_natCast]
  have hactions : StepOp.actions env.data m.acc (.gemm c a w) =
      (List.range m.b).map fun (r : Nat) => productAction env.data m.acc c a w r := by
    rw [StepOp.actions, hm.side, below, Int.toNat_natCast, List.map_map]
    rfl
  unfold Machine.expand
  rw [hactions, show (gemmInstruction m.b).loopOut.toNat = 1 from rfl, List.range_one,
    List.flatMap_singleton, hinner, List.forall₂_map_left_iff, List.forall₂_map_right_iff,
    List.forall₂_same]
  intro r hr
  have hr := List.mem_range.1 hr
  refine Machine.gemm_enacts hm.acc hm.side rfl ?_ ?_ ?_
  · rw [hm.side, Step.place_block hpos hgrain hc hcpos hr]
    rw [hside]
    exact congrArg some (toNat_productRow hcroom hr).symm
  · have := hstock.inp a (mem_of_idxOf? hapos) r hr
    rw [hapos] at this
    rw [Int.toNat_natCast, ← this, hside]
    exact congrArg start.inp (toNat_productRow haroom hr)
  · have := hstock.wgt w (mem_of_idxOf? hwpos)
    rw [hwpos] at this
    rw [← this]
    refine congrArg start.wgt ?_
    show (UInt32.ofNat wpos + 0 * 0 + UInt32.ofNat r * 0).toNat = wpos
    rw [show (0 : UInt32) * 0 = 0 from rfl, UInt32.mul_zero, UInt32.add_zero, UInt32.add_zero,
      toNat_ofNat32 (by omega)]

theorem mem_gemms {op : StepOp} (h : op ∈ st.gemms) : op ∈ st.ops ∧ ∃ c a w, op = .gemm c a w := by
  refine ⟨(List.takeWhile_subset _) h, ?_⟩
  have := List.all_eq_true.1 List.all_takeWhile op h
  cases op with
  | gemm c a w => exact ⟨c, a, w, rfl⟩
  | alu r sites => cases this

/-- **The products of a step** are those of its replay. -/
theorem products_mirror (hm : env.Suits m) (hst : st.Bounded m.b) (hr : st.Ready env.data m.acc)
    {n : Nat} {c : Code} (h : (env.stepOf i st).products n = .ok c) (hus : m.Loaded n c.microOps)
    {start s : Machine.State} {ρ ρ' : Rows} (hstock : m.Stocked env.data st start)
    (hkeep : Machine.Keeps start s) (hmir : m.Mirrors s ρ) {memory : Int → Row}
    (hrun : ρ.run memory ((st.gemms.flatMap (StepOp.actions env.data m.acc)).map fun a =>
      ⟨st.place env.data.b, .act a⟩) = .ok ρ') :
    ∃ s', c.instructions.foldlM m.exec s = .ok s' ∧ Machine.Keeps start s' ∧ m.Mirrors s' ρ' := by
  obtain ⟨us, hmap, h⟩ := Outcome.bind_eq_ok.1 h
  obtain rfl := Outcome.pure_eq_ok.1 h
  rw [hm.side] at hrun
  have henact : List.Forall₂ (m.Enacts (fun s u => m.gemmRow s (gemmInstruction m.b) u)
      (st.place m.b) start) (us.flatMap (Machine.expand (gemmInstruction m.b)))
      (st.gemms.flatMap (StepOp.actions env.data m.acc)) := by
    refine List.Forall₂.flip (forall₂_flatMap (mapM_eq_ok.1 hmap) fun op hop u hu => ?_)
    obtain ⟨hops, c, a, w, rfl⟩ := mem_gemms hop
    -- the first row of the block is written
    have hc : 0 ≤ c := by
      obtain ⟨row, hrow⟩ := hr.reads (productAction env.data m.acc c a w 0)
        (List.mem_flatMap.2 ⟨_, hops, List.mem_map.2 ⟨0, mem_below.2 (by
          rw [hm.side]; have := hm.pos; omega), rfl⟩⟩) _ List.mem_cons_self
      have h0 := Step.nonneg_of_place (b := m.b) (by rw [← hm.side]; exact hrow)
      simp only [productAction, hm.side, Int.add_zero] at h0
      exact nonneg_of_mul_nonneg_left h0 (by have := hm.pos; omega)
    exact List.Forall₂.flip (product_enacts hm hst hstock (hr.grain c a w hops) hc hu)
  refine Machine.batch_mirrors hm.base hm.out (.gemm rfl) hus ?_ hkeep hmir hrun
  have hside : (env.stepOf i st).b = m.b := hm.side
  rw [hside]
  exact henact

/-- The rows of a site: those of its vectors in the replay. -/
structure SiteRows (st : Step) (b : Int) (r : Resolved) (site : Site) (p : RowPair) : Prop where
  dst : st.place b site.dst = some p.dst.toNat
  src : r.useImm = false → st.place b site.src = some p.src.toNat
  none : r.useImm = true → p.src = 0
  small : (0 ≤ p.dst ∧ p.dst < 65536) ∧ 0 ≤ p.src ∧ p.src < 65536

theorem siteRows_eq (hm : env.Suits m) (hst : st.Bounded m.b) {r : Resolved} {site : Site}
    (hreads : ∀ u ∈ (r.action m.acc site).reads, ∃ row, st.place m.b u = some row) {p : RowPair}
    (h : (env.stepOf i st).siteRows r site = .ok p) : SiteRows st m.b r site p := by
  obtain ⟨d, hd⟩ := hreads site.dst List.mem_cons_self
  have hdlt := Step.place_lt hm.pos hst hd
  unfold siteRows at h
  rw [row_eq hm hst hd, Outcome.ok_bind] at h
  cases himm : r.useImm with
  | true =>
    rw [himm] at h
    obtain rfl := Outcome.pure_eq_ok.1 h
    refine ⟨by simpa using hd, fun hf => ?_, fun _ => rfl, ?_⟩
    · rw [himm] at hf
      cases hf
    · simp only
      omega
  | false =>
    obtain ⟨n, hn⟩ := hreads site.src (by simp [Action.reads, Resolved.action, himm])
    have hnlt := Step.place_lt hm.pos hst hn
    simp only [himm, Bool.false_eq_true, if_false, row_eq hm hst hn, Outcome.ok_bind] at h
    obtain rfl := Outcome.pure_eq_ok.1 h
    refine ⟨by simpa using hd, fun _ => by simpa using hn, fun hf => ?_, ?_⟩
    · rw [himm] at hf
      cases hf
    · simp only
      omega

end StepLowering

/-- The inner loop of a sweep is not longer than there are rows for it. -/
theorem sweep_loop_le {vector : Bool} {ps : List RowPair} {us : List MicroOp} {n rows : Nat}
    (hsrc : vector = false → ∀ p ∈ ps, p.src = 0) (hrows : 1 ≤ rows)
    (hroom : ∀ p ∈ ps, 0 ≤ p.dst ∧ p.dst < rows) (h : sweep vector ps = (us, n)) : n ≤ rows := by
  obtain ⟨rs, -, rfl, hlen, hn, hone⟩ := sweep_runs hsrc h
  cases rs with
  | nil =>
    have := hone rfl
    omega
  | cons r rs =>
    have hr := hlen r List.mem_cons_self
    -- the last row of the run is one of the pairs
    have hmem : ∀ p ∈ r.pairs vector, p ∈ (r :: rs).flatMap (Run.pairs vector) := fun p hp =>
      List.mem_flatMap.2 ⟨r, List.mem_cons_self, hp⟩
    have hfirst := hroom _ (hmem _ (Run.start_mem (by omega)))
    have hlast := hroom _ (hmem _ (List.mem_map.2 ⟨r.length - 1, List.mem_range.2 (by omega), rfl⟩))
    simp only at hlast
    omega

/-- The inner loop of a sweep is short. -/
theorem sweep_loop_small {vector : Bool} {ps : List RowPair} {us : List MicroOp} {n : Nat}
    (hsrc : vector = false → ∀ p ∈ ps, p.src = 0) (hsmall : ∀ p ∈ ps, 0 ≤ p.dst ∧ p.dst < 65536)
    (h : sweep vector ps = (us, n)) : n < 4294967296 := by
  have hle : n ≤ 65536 := sweep_loop_le hsrc (by norm_num) hsmall h
  omega

namespace StepLowering

variable {env : Lowering} {m : Machine} {i : Nat} {st : Step}

/-- The instruction of an operation. -/
def aluInstruction (r : Resolved) (loopIn : Nat) : Instruction :=
  { opcode := .alu, loopOut := 1, loopIn := UInt32.ofNat loopIn, dstFactorIn := 1,
    srcFactorIn := if r.useImm then 0 else 1, aluOp := r.op, useImm := r.useImm,
    imm := Int32.ofInt r.imm }

/-- The rows of the sites of an operation. -/
theorem sites_rows (hm : env.Suits m) (hst : st.Bounded m.b) (hr : st.Ready env.data m.acc)
    {r : Resolved} {sites : List Site} (hop : .alu r sites ∈ st.ops) {pairs : List RowPair}
    (h : sites.mapM ((env.stepOf i st).siteRows r) = .ok pairs) :
    List.Forall₂ (SiteRows st m.b r) sites pairs := by
  have hboth := (List.forall₂_and_left _ _).2
    ⟨fun site (hs : site ∈ sites) => hs, mapM_eq_ok.1 h⟩
  refine hboth.imp fun site p hp => siteRows_eq hm hst (fun u hu => ?_) hp.2
  have haction : r.action m.acc site ∈ st.actions env.data m.acc :=
    List.mem_flatMap.2 ⟨_, hop, List.mem_map.2 ⟨site, hp.1, rfl⟩⟩
  have hrow := hr.reads _ haction u hu
  rwa [hm.side] at hrow

/-- A sweep has an iteration for each pair of rows. -/
theorem sweep_iterations {r : Resolved} {sites : List Site} {pairs : List RowPair} {b : Int}
    (hsites : List.Forall₂ (SiteRows st b r) sites pairs) {us : List MicroOp} {loopIn : Nat}
    (h : sweep (!r.useImm) pairs = (us, loopIn)) :
    List.Forall₂ (fun (u : MicroOp) (p : RowPair) => u.rows (!r.useImm) = p.rows (!r.useImm))
      (us.flatMap (Machine.expand (aluInstruction r loopIn))) pairs := by
  have hsrc : (!r.useImm) = false → ∀ p ∈ pairs, p.src = 0 := by
    intro hv p hp
    obtain ⟨site, -, hs⟩ := forall₂_right hsites hp
    exact hs.none (by simpa using hv)
  have hsmall : ∀ p ∈ pairs, (0 ≤ p.dst ∧ p.dst < 65536) ∧ 0 ≤ p.src ∧ p.src < 65536 := by
    intro p hp
    obtain ⟨site, -, hs⟩ := forall₂_right hsites hp
    exact hs.small
  have hloop := sweep_loop_small hsrc (fun p hp => (hsmall p hp).1) h
  have hrows := sweep_pairs (i := aluInstruction r loopIn) hsrc
    (fun p hp => by have := hsmall p hp; exact ⟨by omega, by omega⟩) h
    ⟨rfl, toNat_ofNat32 hloop, rfl, fun hv => if_neg (by simpa using hv)⟩
  rw [← List.forall₂_map_right_iff (f := RowPair.rows (!r.useImm)),
    ← List.forall₂_map_left_iff (f := MicroOp.rows (!r.useImm)) (R := Eq),
    List.forall₂_eq_eq_eq]
  exact hrows

/-- **One operation of a step** is that of its replay. -/
theorem operation_mirrors (hm : env.Suits m) (hst : st.Bounded m.b) (hr : st.Ready env.data m.acc)
    {op : StepOp} (hop : op ∈ st.ops) {n : Nat} {c : Code}
    (h : (env.stepOf i st).operation n op = .ok c) (hus : m.Loaded n c.microOps)
    {start s : Machine.State} {ρ ρ' : Rows} (hkeep : Machine.Keeps start s) (hmir : m.Mirrors s ρ)
    {memory : Int → Row}
    (hrun : ρ.run memory ((op.actions env.data m.acc).map fun a =>
      ⟨st.place env.data.b, .act a⟩) = .ok ρ') :
    ∃ s', c.instructions.foldlM m.exec s = .ok s' ∧ Machine.Keeps start s' ∧ m.Mirrors s' ρ' := by
  cases op with
  | gemm c a w => cases h
  | alu r sites =>
    rw [operation] at h
    obtain ⟨pairs, hpairs, h⟩ := Outcome.bind_eq_ok.1 h
    obtain ⟨us, loopIn, hsweep⟩ : ∃ us loopIn, sweep (!r.useImm) pairs = (us, loopIn) :=
      ⟨_, _, rfl⟩
    rw [hsweep] at h
    obtain rfl := Outcome.pure_eq_ok.1 h
    rw [hm.side] at hrun
    have hsites := sites_rows hm hst hr hop hpairs
    have hiter := sweep_iterations hsites hsweep
    have himm := hr.imm r sites hop
    refine Machine.batch_mirrors hm.base hm.out (i := aluInstruction r loopIn) (.alu rfl) hus ?_
      hkeep hmir hrun
    unfold StepOp.actions
    simp only
    rw [List.forall₂_map_right_iff]
    -- an iteration for each pair of rows, and so for each site
    refine (forall₂_comp hiter hsites.flip).imp fun u site hu => ?_
    obtain ⟨p, hup, hp⟩ := hu
    obtain ⟨hdst, hsrc⟩ := Prod.mk.inj hup
    refine Machine.alu_enacts rfl rfl ?_ (by rw [hdst]; exact hp.dst) fun hu => ?_
    · show (Int32.ofInt r.imm).toInt = r.imm
      rw [Int32.toInt_ofInt_of_le (by omega) (by omega)]
    · rw [hu] at hsrc
      rw [show u.src.toNat = p.src.toNat from hsrc]
      exact hp.src hu

/-- The operations of a step one after the other: `parts` is their code. -/
theorem operations_mirror (hm : env.Suits m) (hst : st.Bounded m.b) (hr : st.Ready env.data m.acc)
    {ops : List StepOp} (hops : ∀ op ∈ ops, op ∈ st.ops) {done alus : List Code} {n stop : Nat}
    (h : ops.foldlM (fun (q : List Code × Nat) op => do
      let c ← (env.stepOf i st).operation q.2 op
      return (c :: q.1, q.2 + c.microOps.length)) (done, n) = .ok (alus, stop)) :
    ∃ parts : List Code, alus = parts.reverse ++ done ∧
      (m.Loaded n (parts.flatMap (·.microOps)) → ∀ {start s : Machine.State} {ρ ρ' : Rows}
        {memory : Int → Row}, Machine.Keeps start s → m.Mirrors s ρ →
        ρ.run memory ((ops.flatMap (StepOp.actions env.data m.acc)).map fun a =>
          ⟨st.place env.data.b, .act a⟩) = .ok ρ' →
        ∃ s', (parts.flatMap (·.instructions)).foldlM m.exec s = .ok s' ∧ Machine.Keeps start s' ∧
          m.Mirrors s' ρ') := by
  induction ops generalizing done n with
  | nil =>
    obtain ⟨rfl, rfl⟩ := Prod.mk.inj (Outcome.pure_eq_ok.1 h)
    refine ⟨[], rfl, fun _ start s ρ ρ' memory hkeep hmir hrun => ?_⟩
    obtain rfl := Outcome.pure_eq_ok.1 hrun
    exact ⟨s, rfl, hkeep, hmir⟩
  | cons op ops ih =>
    obtain ⟨q, hq, h⟩ := foldlM_cons_eq_ok.1 h
    obtain ⟨c, hc, hq⟩ := Outcome.bind_eq_ok.1 hq
    obtain rfl := Outcome.pure_eq_ok.1 hq
    obtain ⟨parts, hparts, hrest⟩ := ih (fun op' hop' => hops op' (List.mem_cons_of_mem _ hop')) h
    refine ⟨c :: parts, by rw [hparts]; simp, fun hus start s ρ ρ' memory hkeep hmir hrun => ?_⟩
    rw [List.flatMap_cons] at hus
    rw [List.flatMap_cons, List.map_append] at hrun
    obtain ⟨ρ1, hrun1, hrun2⟩ := foldlM_append_eq_ok.1 hrun
    obtain ⟨s1, hs1, hk1, hm1⟩ := operation_mirrors hm hst hr (hops op List.mem_cons_self) hc
      hus.left hkeep hmir hrun1
    obtain ⟨s2, hs2, hk2, hm2⟩ := hrest hus.right hk1 hm1 hrun2
    rw [List.flatMap_cons]
    exact ⟨s2, foldlM_append_eq_ok.2 ⟨s1, hs1, hs2⟩, hk2, hm2⟩

/-- **The group of the compute stage** does to the rows what the loads and actions of
the step do. -/
theorem computes_exec (hm : env.Suits m) (hst : st.Bounded m.b) (hr : st.Ready env.data m.acc)
    {s : Machine.State} (hserves : env.Serves m s.mem) (hstock : m.Stocked env.data st s)
    {n : Nat} {c : Code} (h : (env.stepOf i st).computes n = .ok c) (hus : m.Loaded n c.microOps)
    {ρ ρ' : Rows} (hmir : m.Mirrors s ρ)
    (hrun : ρ.run env.data.initial (((st.loads env.data).map Motion.load ++
      (st.actions env.data m.acc).map Motion.act).map fun e => ⟨st.place env.data.b, e⟩) = .ok ρ') :
    ∃ s', c.instructions.foldlM m.exec s = .ok s' ∧ Machine.Keeps s s' ∧ m.Mirrors s' ρ' := by
  obtain ⟨acc, accBis, gemms, ⟨alus, stop⟩, hacc, hbis, hgemms, halus, rfl⟩ := computes_eq_ok.1 h
  have hsplit : st.gemms ++ st.aluOps = st.ops := List.takeWhile_append_dropWhile
  obtain ⟨parts, hparts, hrest⟩ := operations_mirror hm hst hr
    (fun op hop => hsplit ▸ List.mem_append_right _ hop) halus
  rw [List.append_nil] at hparts
  simp only [hparts, List.reverse_reverse, List.flatMap_cons, List.nil_append] at hus ⊢
  -- the replay in the same parts
  rw [List.map_append, List.map_map, List.map_map] at hrun
  obtain ⟨ρ1, hrun1, hrun⟩ := foldlM_append_eq_ok.1 hrun
  rw [Step.actions, ← hsplit, List.flatMap_append, List.map_append] at hrun
  obtain ⟨ρ2, hrun2, hrun3⟩ := foldlM_append_eq_ok.1 hrun
  obtain ⟨s1, hs1, hk1, hm1⟩ := accLoads_exec hm hserves hst hmir hr.loads hacc hbis hrun1
  obtain ⟨s2, hs2, hk2, hm2⟩ := products_mirror hm hst hr hgemms hus.left hstock hk1 hm1 hrun2
  obtain ⟨s3, hs3, hk3, hm3⟩ := hrest hus.right hk2 hm2 hrun3
  exact ⟨s3, foldlM_append_eq_ok.2 ⟨s1, hs1, foldlM_append_eq_ok.2 ⟨s2, hs2, hs3⟩⟩, hk3, hm3⟩

end StepLowering

end Tessera
