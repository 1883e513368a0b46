import Mathlib.Data.List.TakeWhile
import Tessera.Proofs.Allocation
import Tessera.Proofs.Handshake

/-!
# What can be lowered

Lowering looks up every block and vector of a step again, in the scratchpads and in
memory, and passes tokens from group to group. For a planned schedule all of it is found
and every token is there, so lowering fails only where an instruction has no room for an
address or for the rows of zeros behind a short block of the input.

* `Unencodable`: what an instruction has no room for.
* `Tokens.Passes`: what instructions do to the tokens (`group_passes`).
* `Lowering.Complete`: the tensors of a lowering stand in memory.
* `StepLowering.loads_refuses`, `.computes_refuses`, `.stores_refuses`: the groups of a step.
* `lower_encodes`: a whole schedule.
-/

namespace Tessera

/-- What an instruction has no room for: an address of more than 32 bits, or 16 rows of
zeros behind a short block of the input. -/
inductive Unencodable (d : Shaped) : Detail → Prop
  | address (n : Nat) : 0xffffffff < n → Unencodable d (.encodingOverflow (.dramAddress n))
  | rows (a : Tensor) (id : Int) (k : Block) : d.a = some a → 0 ≤ id →
    a.blocks[id.toNat]? = some k → 16 ≤ d.b - k.height →
    Unencodable d (.encodingOverflow (.zeroFill "INP" id k.height (d.b - k.height)))

namespace Tokens

/-- Every instruction of a stage with the flags `f` takes the tokens from `t` to `t'`. -/
def Passes (s : Stage) (f : Flags) (t t' : Tokens) : Prop :=
  ∀ n i, i.stage = s → i.flags = f → t.step n i = .ok t'

theorem passes_bare (s : Stage) (t : Tokens) : Passes s {} t t := by
  intro n i hs hf
  have hmoves : i.moves = .ok [] := by
    unfold Instruction.moves
    rw [hs, hf]
    cases s <;> rfl
  unfold step apply
  rw [hmoves]
  rfl

/-- What flags make of the tokens does not depend on the instruction that has them. -/
theorem passes_of {s : Stage} {f : Flags} {t t' : Tokens} (j : Instruction) {ms : List Move}
    (hs : j.stage = s) (hf : j.flags = f) (hmoves : j.moves = .ok ms)
    (h : ∀ opcode, t.makeMoves opcode ms = (t', none)) : Passes s f t t' := by
  intro n i his hif
  have hsame : i.moves = j.moves := by
    unfold Instruction.moves
    rw [his, hif, hs, hf]
  unfold step apply
  rw [hsame, hmoves]
  simp only [h]

theorem passes_load {f : Flags} {t t' : Tokens} {ms : List Move}
    (hmoves : { Instruction.nopLoad with flags := f }.moves = .ok ms)
    (h : ∀ opcode, t.makeMoves opcode ms = (t', none)) : Passes .load f t t' :=
  passes_of { Instruction.nopLoad with flags := f } rfl rfl hmoves h

theorem passes_compute {f : Flags} {t t' : Tokens} {ms : List Move}
    (hmoves : { Instruction.nopCompute with flags := f }.moves = .ok ms)
    (h : ∀ opcode, t.makeMoves opcode ms = (t', none)) : Passes .compute f t t' :=
  passes_of { Instruction.nopCompute with flags := f } rfl rfl hmoves h

theorem passes_store {f : Flags} {t t' : Tokens} {ms : List Move}
    (hmoves : { Instruction.nopStore with flags := f }.moves = .ok ms)
    (h : ∀ opcode, t.makeMoves opcode ms = (t', none)) : Passes .store f t t' :=
  passes_of { Instruction.nopStore with flags := f } rfl rfl hmoves h

/-- The tokens between two steps: the load stage may go on. -/
def between : Tokens := { computeLoad := 1 }

end Tokens

namespace Emission

open Tokens

variable {e : Emission} {s : Stage}

theorem push_passes {i : Instruction} {f : Flags} {t : Tokens} (hs : i.stage = s) (hf : i.flags = f)
    (h : Passes s f e.tokens t) : ∃ e', e.push i = .ok e' ∧ e'.tokens = t :=
  ⟨_, Outcome.bind_ok (h _ i hs hf) rfl, rfl⟩

theorem pushes_bare {insns : List Instruction} (h : Bare s insns) :
    ∃ e', insns.foldlM push e = .ok e' ∧ e'.tokens = e.tokens := by
  induction insns generalizing e with
  | nil => exact ⟨e, rfl, rfl⟩
  | cons i insns ih =>
    have hi := h i List.mem_cons_self
    obtain ⟨e1, h1, ht1⟩ := push_passes (e := e) hi.stage hi.flags (passes_bare s e.tokens)
    obtain ⟨e2, h2, ht2⟩ := ih (e := e1) fun j hj => h j (List.mem_cons_of_mem _ hj)
    exact ⟨e2, foldlM_cons_eq_ok.2 ⟨e1, h1, h2⟩, ht2.trans ht1⟩

/-- **A group can be appended** if the tokens admit its first instruction and leave room
for what its last one gives; a single instruction has the flags of both. -/
theorem group_passes {nop : Instruction} {first last : Flags} {c : Code} {t t' : Tokens}
    (hnop : nop.Bare s) (hc : Bare s c.instructions) (hfirst : Passes s first e.tokens t)
    (hlast : Passes s last t t') (hboth : Passes s (first.union last) e.tokens t') :
    ∃ e', e.group nop first last c = .ok e' ∧ e'.tokens = t' := by
  have hbare := bare_group hnop hc
  have hne := group_ne_nil nop c.instructions
  unfold group
  simp only
  set insns := if c.instructions.isEmpty then [nop] else c.instructions with hinsns
  clear_value insns
  have hflag : ∀ {f : Flags} {i : Instruction}, i.flags = {} → (i.flagged f).flags = f := by
    intro f i hi
    simp [Instruction.flagged, hi, Flags.union]
  obtain ⟨xs, i, rfl⟩ := List.eq_nil_or_concat insns |>.resolve_left hne
  rw [List.concat_eq_append] at hbare ⊢
  have hi := hbare i (by simp)
  cases xs with
  | nil =>
    obtain ⟨e1, h1, ht1⟩ := push_passes (e := { e with microOps := e.microOps ++ c.microOps })
      (i := (i.flagged first).flagged last) hi.stage
      (by rw [Instruction.flagged, hflag hi.flags]) hboth
    exact ⟨e1, foldlM_cons_eq_ok.2 ⟨e1, h1, rfl⟩, ht1⟩
  | cons x xs =>
    have hx := hbare x (by simp)
    obtain ⟨e1, h1, ht1⟩ := push_passes (e := { e with microOps := e.microOps ++ c.microOps })
      (i := x.flagged first) hx.stage (hflag hx.flags) hfirst
    have hxs : Bare s xs := fun j hj => hbare j (by simp [hj])
    obtain ⟨e2, h2, ht2⟩ := pushes_bare (e := e1) hxs
    obtain ⟨e3, h3, ht3⟩ := push_passes (e := e2) (i := i.flagged last) hi.stage (hflag hi.flags)
      (by rw [ht2, ht1]; exact hlast)
    rw [withFlags_concat]
    exact ⟨e3, foldlM_cons_eq_ok.2 ⟨e1, h1, foldlM_append_eq_ok.2 ⟨e2, h2,
      foldlM_cons_eq_ok.2 ⟨e3, h3, rfl⟩⟩⟩, ht3⟩

end Emission

/-- What stands in a list has a position there. -/
theorem position_of_mem {xs : List Int} {v : Int} (h : v ∈ xs) : ∃ n : Nat, (positions xs)[v]? = some n := by
  rw [positions_eq]
  exact exists_idxOf? h

theorem Placed.block_ok {o : Placed} {id : Int} (h0 : 0 ≤ id) (hlt : id < o.blocks.size) :
    ∃ l, o.block id = .ok l := by
  have hat := Array.getElem?_eq_getElem (show id.toNat < o.blocks.size by omega)
  unfold block
  rw [if_neg (by omega), hat]
  exact ⟨_, rfl⟩

/-- The tensors of a lowering stand in memory: every block of the operands and, if blocks
are stored, every block of the result has an address. Only blocks of the input may be
short. -/
structure Lowering.Complete (env : Lowering) (b xr xc : Nat) : Prop where
  pos : 1 ≤ b
  side : env.data.b = b
  operands : env.data.counts.nA ≤ 35184372088832 ∧ env.data.counts.nB ≤ 35184372088832
  few : xr * xc * b ≤ 35184372088832
  blocks : env.data.x.blocks.size = xr * xc
  inp : ∀ a, env.data.a = some a → ∃ o, env.layout.inp = some o ∧ o.blocks.size = a.blocks.size
  wgt : ∀ w, env.data.w = some w → ∃ o, env.layout.wgt = some o ∧ o.blocks.size = w.blocks.size
  acc : env.layout.acc = some env.acc ∧ env.acc.blocks.size = env.data.x.blocks.size
  accBis : ∀ y, env.data.y = some y →
    ∃ o, env.layout.accBis = some o ∧ o.blocks.size = y.blocks.size
  out : env.schedule.storeGrain = .block → env.out.blocks.size = env.data.c.blocks.size
  result : env.data.c.blocks.size = xr * xc
  second : env.data.form = .add → ∃ y, env.data.y = some y ∧ y.blocks.size = xr * xc
  tall : ∀ t, t = env.data.x ∨ env.data.y = some t ∨ t = env.data.c →
    ∀ k ∈ t.blocks.toList, k.height = b
  count : env.schedule.nX = env.data.counts.nX
  divides : env.schedule.b = env.data.b
  sites : ∀ r ∈ env.data.ops, r.OnVectors (xr * xc * b : Nat)
    (if env.data.form = .add then (xr * xc * b : Nat) + (xr * xc * b : Nat) else (xr * xc * b : Nat))

/-- The accumulator has the vectors of its blocks. -/
theorem Lowering.Complete.vectors {env : Lowering} {b xr xc : Nat} (h : env.Complete b xr xc) :
    env.data.vectors = (xr * xc * b : Nat) := by
  rw [Shaped.vectors, Tensor.size, h.blocks, h.side]
  push_cast
  rfl

/-- The products a step starts with are all its products. -/
theorem Step.Proper.split {d : Shaped} {caps : Capacities} {st : Step} (hst : st.Proper d caps) :
    (∀ op ∈ st.gemms, op.isGemm = true ∧ op ∈ st.ops) ∧
      ∀ op ∈ st.aluOps, op.isGemm = false ∧ op ∈ st.ops := by
  obtain ⟨products, others, hops, hproducts, hothers⟩ := hst.ordered
  have hdrop : st.aluOps = others := by
    unfold Step.aluOps
    rw [hops, List.dropWhile_append_of_pos hproducts]
    cases others with
    | nil => rfl
    | cons op rest => rw [List.dropWhile_cons_of_neg (by simp [hothers op List.mem_cons_self])]
  refine ⟨fun op hop => ?_, fun op hop => ?_⟩
  · exact ⟨List.mem_takeWhile_imp hop, (List.takeWhile_prefix _).subset hop⟩
  · rw [hdrop] at hop
    exact ⟨hothers op hop, by rw [hops]; exact List.mem_append_right _ hop⟩

namespace StepLowering

section Lookups

variable {k : StepLowering} {b xr xc : Nat}

theorem address_refuses (k : StepLowering) (l : UInt64) :
    (k.address l).OnlyRefuses (Unencodable k.env.data) := by
  unfold address
  split
  · rename_i hlt
    refine .diagnose _ (.address _ ?_)
    simpa using UInt64.lt_iff_toNat_lt.1 hlt
  · exact .of_ok rfl

/-- **The transfer of a block** that stands in a scratchpad and in memory. -/
theorem block_refuses {what : String} {xs : List Int} {offset : Int} {o : Placed} {t : Tensor}
    {rows : Bool} {id : Int} (hres : wrap64 (id + offset) ∈ xs) (h0 : 0 ≤ id)
    (hlt : id < t.blocks.size) (hsame : o.blocks.size = t.blocks.size)
    (htall : rows = true → (what = "INP" ∧ k.env.data.a = some t) ∨
      ∀ kk ∈ t.blocks.toList, kk.height = k.b) :
    (k.block what (positions xs) offset o t rows id).OnlyRefuses (Unencodable k.env.data) := by
  obtain ⟨n, hn⟩ := position_of_mem hres
  obtain ⟨l, hl⟩ := Placed.block_ok h0 (hsame ▸ hlt)
  unfold block
  rw [hn]
  simp only [hl, Outcome.ok_bind]
  refine (address_refuses k l).bind fun dram _ => ?_
  cases rows with
  | false => exact .of_ok rfl
  | true =>
    have hin : id.toNat < t.blocks.size := by omega
    have hat := Array.getElem?_eq_getElem hin
    simp only [Bool.not_true, Bool.false_eq_true, if_false, entry_eq_ok.2 ⟨h0, hat⟩, Outcome.ok_bind]
    refine .refused (fun hpad => ?_) fun _ => .of_ok rfl
    rcases htall rfl with ⟨rfl, ha⟩ | hfull
    · exact .rows t id _ ha h0 hat hpad
    · have := hfull _ (Array.getElem_mem_toList hin)
      rw [this, Int.sub_self] at hpad
      exact absurd hpad (by decide)

/-- The transfers of blocks. -/
theorem blocks_refuses {what : String} {ids xs : List Int} {offset : Int} {o : Option Placed}
    {t : Option Tensor} {rows : Bool}
    (h : ids ≠ [] → ∃ o' t', o = some o' ∧ t = some t' ∧ o'.blocks.size = t'.blocks.size ∧
      (rows = true → (what = "INP" ∧ k.env.data.a = some t') ∨
        ∀ kk ∈ t'.blocks.toList, kk.height = k.b) ∧
      ∀ id ∈ ids, wrap64 (id + offset) ∈ xs ∧ 0 ≤ id ∧ id < t'.blocks.size) :
    (k.blocks what ids (positions xs) offset o t rows).OnlyRefuses (Unencodable k.env.data) := by
  unfold blocks
  split
  · exact .of_ok rfl
  · rename_i hne
    obtain ⟨o', t', rfl, rfl, hsame, htall, hids⟩ := h fun hnil => hne (by rw [hnil]; rfl)
    refine .mapM fun id hid => ?_
    obtain ⟨hres, h0, hlt⟩ := hids id hid
    exact block_refuses hres h0 hlt hsame htall

end Lookups

section Step

variable {env : Lowering} {st : Step} {caps : Capacities} {b xr xc i : Nat}

/-- **The loads of a proper step.** -/
theorem loads_refuses (henv : env.Complete b xr xc) (hst : st.Proper env.data caps) :
    (env.stepOf i st).loads.OnlyRefuses (Unencodable env.data) := by
  obtain ⟨hnA, hnB⟩ := henv.operands
  unfold loads
  refine .bind (blocks_refuses fun hne => ?_) fun _ _ =>
    .bind (blocks_refuses fun hne => ?_) fun _ _ => .of_ok rfl
  · obtain ⟨n, hn⟩ := List.exists_mem_of_ne_nil _ hne
    have hcount := hst.input n hn
    cases ha : env.data.a with
    | none =>
      simp only [Shaped.counts, ha, Option.map_none, Option.getD_none] at hcount
      omega
    | some a =>
      obtain ⟨o, ho, hsame⟩ := henv.inp a ha
      refine ⟨o, a, ho, ha, hsame, fun _ => Or.inl ⟨rfl, ha⟩, fun id hid => ?_⟩
      obtain ⟨h0, hlt⟩ := hst.input id hid
      refine ⟨?_, h0, ?_⟩
      · rw [Int.add_zero, wrap64_small (by omega) (by omega), hst.inputs.1]
        exact hid
      · simpa [Shaped.counts, ha, Tensor.size] using hlt
  · obtain ⟨n, hn⟩ := List.exists_mem_of_ne_nil _ hne
    obtain ⟨-, h0, hlt⟩ := hst.weight n hn
    cases hw : env.data.w with
    | none =>
      simp only [Shaped.counts, hw, Option.map_none, Option.getD_none] at hlt
      omega
    | some w =>
      obtain ⟨o, ho, hsame⟩ := henv.wgt w hw
      refine ⟨o, w, ho, hw, hsame, (fun hf => absurd hf Bool.false_ne_true), fun id hid => ?_⟩
      obtain ⟨hmem, h0, hlt⟩ := hst.weight id hid
      refine ⟨?_, h0, ?_⟩
      · rw [Int.add_zero, wrap64_small (by omega) (by omega)]
        exact hmem
      · simpa [Shaped.counts, hw, Tensor.size] using hlt

/-- The transfer of a vector that stands in the accumulator. -/
theorem vector_refuses (henv : env.Complete b xr xc) {v : Int} (hv : v ∈ st.sramResident)
    (h0 : 0 ≤ v) (hlt : v < env.data.vectors) :
    ((env.stepOf i st).vector v).OnlyRefuses (Unencodable env.data) := by
  obtain ⟨n, hn⟩ := position_of_mem hv
  have hb := henv.pos
  have hfew := henv.few
  rw [henv.vectors] at hlt
  have hblock : v / b < env.acc.blocks.size := by
    rw [henv.acc.2, henv.blocks]
    refine Int.ediv_lt_of_lt_mul (by omega) ?_
    exact_mod_cast hlt
  obtain ⟨l, hl⟩ := Placed.block_ok (Int.ediv_nonneg h0 (by omega)) hblock
  unfold vector
  simp only [stepOf_sram, stepOf_env, stepOf_b, henv.side, hn, hl, Outcome.ok_bind,
    quotient_small h0 (show v < 9223372036854775808 by omega) (show (0 : Int) < b by omega),
    remainder_small h0 (show (0 : Int) < b by omega)]
  exact (address_refuses _ _).bind fun _ _ => .of_ok rfl

/-- The loads of the accumulator of a proper step. -/
theorem accLoads_refuses (henv : env.Complete b xr xc) (hst : st.Proper env.data caps) :
    (env.stepOf i st).accLoads.OnlyRefuses (Unencodable env.data) := by
  have hfew := henv.few
  have hle : xr * xc ≤ xr * xc * b := Nat.le_mul_of_pos_right _ henv.pos
  have hloadX := hst.loadX
  unfold Step.units at hloadX
  unfold accLoads
  simp only [stepOf_step]
  cases hg : st.residentGrain with
  | vector =>
    rw [hg] at hloadX
    refine .bind (.mapM fun v hv => ?_) fun _ _ => .of_ok rfl
    obtain ⟨hmem, h0, hlt⟩ := hloadX v hv
    exact vector_refuses henv hmem h0 hlt
  | block =>
    rw [hg] at hloadX
    refine .bind (blocks_refuses fun _ => ⟨env.acc, env.data.x, henv.acc.1, rfl, henv.acc.2,
      fun _ => Or.inr fun kk hkk => ?_, fun n hn => ?_⟩) fun _ _ => .of_ok rfl
    · exact (henv.tall _ (Or.inl rfl) kk hkk).trans henv.side.symm
    · obtain ⟨hmem, h0, hlt⟩ := hloadX n hn
      have hlt : n < env.data.x.blocks.size := hlt
      have := henv.blocks
      rw [Int.add_zero, wrap64_small (by omega) (by omega)]
      exact ⟨hmem, h0, hlt⟩

/-- The loads of the second accumulator of a proper step. -/
theorem accBisLoads_refuses (henv : env.Complete b xr xc) (hst : st.Proper env.data caps) :
    (env.stepOf i st).accBisLoads.OnlyRefuses (Unencodable env.data) := by
  have hfew := henv.few
  have hle : xr * xc ≤ xr * xc * b := Nat.le_mul_of_pos_right _ henv.pos
  have hX : env.data.counts.nX = (xr * xc : Nat) := congrArg Int.ofNat henv.blocks
  refine .bind (blocks_refuses fun hne => ?_) fun _ _ => .of_ok rfl
  obtain ⟨y, hy, hsize⟩ := henv.second (hst.second hne).2
  obtain ⟨o, ho, hsame⟩ := henv.accBis y hy
  refine ⟨o, y, ho, hy, hsame, fun _ => Or.inr fun kk hkk => ?_, fun n hn => ?_⟩
  · exact (henv.tall _ (Or.inr (Or.inl hy)) kk hkk).trans henv.side.symm
  · obtain ⟨hmem, h0, hlt⟩ := hst.loadY n hn
    rw [stepOf_env, henv.count, Int.add_comm, wrap64_small (by omega) (by omega)]
    exact ⟨hmem, h0, by omega⟩

/-- The row of a vector that stands in the accumulator. -/
theorem row_ok (henv : env.Complete b xr xc) {v : Int} (h0 : 0 ≤ v)
    (hsmall : v < 9223372036854775808) (h : st.Holds env.data.b v) :
    ∃ n, (env.stepOf i st).row v = .ok n := by
  have hb := henv.pos
  unfold row
  simp only [stepOf_step, stepOf_sram, stepOf_b, henv.side]
  cases hg : st.residentGrain with
  | vector =>
    unfold Step.Holds at h
    rw [hg] at h
    obtain ⟨n, hn⟩ := position_of_mem h
    simp only [hn]
    exact ⟨_, rfl⟩
  | block =>
    rw [henv.side, Step.holds_block (by omega) h0 hsmall hg] at h
    obtain ⟨n, hn⟩ := position_of_mem h
    simp only [quotient_small h0 hsmall (show (0 : Int) < b by omega),
      remainder_small h0 (show (0 : Int) < b by omega), Outcome.ok_bind, hn]
    exact ⟨_, rfl⟩

/-- The operations of a proper step. -/
theorem operation_refuses (henv : env.Complete b xr xc) (hst : st.Proper env.data caps)
    {op : StepOp} (hop : op ∈ st.aluOps) (start : Nat) :
    ((env.stepOf i st).operation start op).OnlyRefuses (Unencodable env.data) := by
  have hfew := henv.few
  obtain ⟨hgemm, hmem⟩ := hst.split.2 op hop
  cases op with
  | gemm c a w => cases hgemm
  | alu r sites =>
    obtain ⟨hr, hsites⟩ := hst.alu r sites hmem
    have hon := henv.sites r hr
    refine .bind (.mapM fun s hs => ?_) fun _ _ => .of_ok rfl
    obtain ⟨hsite, hdst, hsrc⟩ := hsites s hs
    have hd := hon.dst s hsite
    obtain ⟨n, hn⟩ := row_ok henv (i := i) hd.1 (by omega) hdst
    unfold siteRows
    rw [hn, Outcome.ok_bind]
    cases himm : r.useImm with
    | true => exact .of_ok rfl
    | false =>
      have hs' := hon.src himm s hsite
      have hlt : s.src < 9223372036854775808 := by
        split at hs' <;> omega
      obtain ⟨m, hm⟩ := row_ok henv (i := i) hs'.1 hlt (hsrc (by unfold noSource; omega))
      simp only [Bool.false_eq_true, if_false, hm, Outcome.ok_bind]
      exact .of_ok rfl

/-- **The computing of a proper step.** -/
theorem computes_refuses (henv : env.Complete b xr xc) (hst : st.Proper env.data caps)
    (start : Nat) : ((env.stepOf i st).computes start).OnlyRefuses (Unencodable env.data) := by
  refine (accLoads_refuses henv hst).bind fun _ _ => (accBisLoads_refuses henv hst).bind
    fun _ _ => .bind (.bind (.mapM fun op hop => ?_) fun _ _ => .of_ok rfl)
    fun _ _ => .bind (.foldlM (fun op hop q => ?_) _) fun _ _ => .of_ok rfl
  · obtain ⟨hgemm, hmem⟩ := hst.split.1 op hop
    cases op with
    | alu r sites => cases hgemm
    | gemm c a w =>
      obtain ⟨-, ⟨-, hc⟩, ha, hw⟩ := hst.gemm c a w hmem
      obtain ⟨n, hn⟩ := position_of_mem hc
      obtain ⟨m, hm⟩ := position_of_mem ha
      obtain ⟨l, hl⟩ := position_of_mem hw
      unfold product
      simp only [stepOf_sram, stepOf_inp, stepOf_wgt, hn, hm, hl]
      exact .of_ok rfl
  · exact (operation_refuses henv hst hop q.2).bind fun _ _ => .of_ok rfl

/-- **The stores of a proper step** that are on record. -/
theorem stores_refuses (henv : env.Complete b xr xc) (hst : st.Proper env.data caps)
    (hgrain : st.storeGrain = env.schedule.storeGrain)
    (hrecord : ∀ v ∈ st.store, v ∈ st.dramState) :
    (env.stepOf i st).stores.OnlyRefuses (Unencodable env.data) := by
  have hfew := henv.few
  have hle : xr * xc ≤ xr * xc * b := Nat.le_mul_of_pos_right _ henv.pos
  have hX : env.data.counts.nX = (xr * xc : Nat) := congrArg Int.ofNat henv.blocks
  have hstore := hst.store
  unfold stores
  cases hg : st.storeGrain with
  | vector =>
    rw [hg] at hstore
    rw [stepOf_step, hg]
    simp only
    split
    · exact .of_ok rfl
    · refine .mapM fun v hv => ?_
      obtain ⟨h0, hlt, hholds⟩ := hstore v hv
      have hvectors := henv.vectors
      obtain ⟨n, hn⟩ := row_ok henv (i := i) h0 (by omega) hholds
      obtain ⟨m, hm⟩ := position_of_mem (hrecord v hv)
      unfold storeVector
      simp only [hn, hm, Outcome.ok_bind]
      exact (address_refuses _ _).bind fun _ _ => .of_ok rfl
  | block =>
    rw [hg] at hstore
    rw [stepOf_step, hg]
    refine .bind (blocks_refuses fun _ => ⟨env.out, env.data.c, rfl, rfl,
      henv.out (hgrain ▸ hg), fun _ => Or.inr fun kk hkk => ?_, fun n hn => ?_⟩) fun _ _ => .of_ok rfl
    · exact (henv.tall _ (Or.inr (Or.inr rfl)) kk hkk).trans henv.side.symm
    · obtain ⟨h0, hlt, hmem⟩ := hstore n hn
      have := henv.result
      rw [Int.add_zero, wrap64_small (by omega) (by omega)]
      exact ⟨hmem, h0, by omega⟩

end Step

end StepLowering

namespace Emission

open Tokens

variable {e : Emission} {env : Lowering} {st : Step} {caps : Capacities} {b xr xc i : Nat}

theorem loadGroup_passes {c : Code} (he : e.tokens = between) (hc : Bare .load c.instructions) :
    ∃ e', e.group .nopLoad { popNext := true } { pushNext := true } c = .ok e' ∧
      e'.tokens = { loadCompute := 1 } :=
  group_passes (t := {}) bare_nopLoad hc (he ▸ passes_load rfl fun _ => rfl)
    (passes_load rfl fun _ => rfl) (he ▸ passes_load rfl fun _ => rfl)

theorem computeGroup_passes {c : Code} (he : e.tokens = { loadCompute := 1 })
    (hc : Bare .compute c.instructions) :
    ∃ e', e.group .nopCompute { popPrev := true } { pushPrev := true, pushNext := true } c = .ok e' ∧
      e'.tokens = { computeLoad := 1, computeStore := 1 } :=
  group_passes (t := {}) bare_nopCompute hc (he ▸ passes_compute rfl fun _ => rfl)
    (passes_compute rfl fun _ => rfl) (he ▸ passes_compute rfl fun _ => rfl)

theorem storeGroup_passes {c : Code} (he : e.tokens = { computeLoad := 1, computeStore := 1 })
    (hc : Bare .store c.instructions) :
    ∃ e', e.group .nopStore { popPrev := true } { pushPrev := true } c = .ok e' ∧
      e'.tokens = { computeLoad := 1, storeCompute := 1 } :=
  group_passes (t := between) bare_nopStore hc (he ▸ passes_store rfl fun _ => rfl)
    (passes_store rfl fun _ => rfl) (he ▸ passes_store rfl fun _ => rfl)

/-- **The code of a proper step.** Its tokens come round: the load stage takes the one that
was there, each group releases the next, and in the end there is one for the load stage
again. -/
theorem step_ensures (henv : env.Complete b xr xc) (hst : st.Proper env.data caps)
    (hgrain : st.storeGrain = env.schedule.storeGrain)
    (hrecord : ∀ v ∈ st.store, v ∈ st.dramState) (he : e.tokens = between) :
    (e.step env i st).Ensures (Unencodable env.data) fun e' => e'.tokens = between := by
  refine (StepLowering.loads_refuses (i := i) henv hst).ensures.bind fun loads hloads _ => ?_
  refine .bind (.of_ok (loadGroup_passes he (StepLowering.bare_loads hloads))) fun e1 _ he1 => ?_
  refine (StepLowering.computes_refuses (i := i) henv hst _).ensures.bind fun c hc _ => ?_
  refine .bind (.of_ok (computeGroup_passes he1 (StepLowering.bare_computes hc))) fun e2 _ he2 => ?_
  refine (StepLowering.stores_refuses (i := i) henv hst hgrain hrecord).ensures.bind
    fun stores hstores _ => ?_
  refine .bind (.of_ok (storeGroup_passes he2 (StepLowering.bare_stores hstores)))
    fun e3 _ he3 => .of_ok ?_
  exact push_passes (s := .compute) rfl rfl (he3 ▸ passes_compute rfl fun _ => rfl)

/-- The product that clears the accumulator. -/
theorem prologue_ensures (henv : env.Complete b xr xc) :
    (prologue {} env).Ensures (Unencodable env.data) fun e' => e'.tokens = between := by
  have hside : env.schedule.b ≠ 0 := by
    rw [henv.divides, henv.side]
    have := henv.pos
    omega
  have hreset : env.schedule.resetBlocks.OnlyRefuses (Unencodable env.data) := by
    refine .foldlM (fun st _ n => .bind ?_ fun _ _ => .of_ok rfl) 1
    unfold Schedule.stepReset
    split
    · exact .of_ok rfl
    · rw [quotient, if_neg hside]
      exact .of_ok rfl
  refine hreset.ensures.bind fun n _ _ => .of_ok ?_
  exact group_passes (t := {}) bare_nopCompute (bare_batch ⟨rfl, by simp, rfl⟩ _ _ _)
    (passes_bare _ _) (passes_compute rfl fun _ => rfl) (passes_compute rfl fun _ => rfl)

/-- What ends a stream finds the token of the load stage and leaves none. -/
theorem epilogue_ensures {P : Detail → Prop} (he : e.tokens = between) :
    e.epilogue.Ensures P fun _ => True := by
  obtain ⟨e1, h1, he1⟩ := push_passes (e := e) (s := .load)
    (i := { Instruction.nopLoad with flags := { popNext := true, pushNext := true } })
    (t := { loadCompute := 1 }) rfl rfl (he ▸ passes_load rfl fun _ => rfl)
  obtain ⟨e2, h2, he2⟩ := push_passes (e := e1) (s := .compute)
    (i := { Instruction.nopCompute with flags := { popPrev := true } }) (t := {}) rfl rfl
    (he1 ▸ passes_compute rfl fun _ => rfl)
  obtain ⟨e3, h3, he3⟩ := push_passes (e := e2) (i := Instruction.finish) rfl rfl
    (passes_bare .compute e2.tokens)
  have hall : ending.foldlM push e = .ok e3 :=
    foldlM_cons_eq_ok.2 ⟨e1, h1, foldlM_cons_eq_ok.2 ⟨e2, h2, foldlM_cons_eq_ok.2 ⟨e3, h3, rfl⟩⟩⟩
  have hzero : e3.tokens.isZero = true := by
    rw [he3, he2]
    rfl
  exact .of_ok ⟨e3, epilogue_eq_ok.2 ⟨hall, hzero⟩, trivial⟩

end Emission

/-- **What can be lowered**: a schedule of proper steps, with their stores on record, whose
tensors stand in memory. -/
theorem lower_refuses {env : Lowering} {caps : Capacities} {b xr xc : Nat}
    (henv : env.Complete b xr xc) (hout : env.layout.out = some env.out)
    (hsteps : ∀ st ∈ env.schedule.steps, st.Proper env.data caps ∧
      st.storeGrain = env.schedule.storeGrain ∧ ∀ v ∈ st.store, v ∈ st.dramState) :
    (lower env.schedule env.data env.layout).OnlyRefuses (Unencodable env.data) := by
  suffices h : (lower env.schedule env.data env.layout).Ensures (Unencodable env.data) fun _ => True from
    h.1
  unfold lower
  rw [henv.acc.1, hout]
  refine (Emission.prologue_ensures henv).bind fun e1 _ he1 => ?_
  refine .bind (.foldlM (fun q hq e he => ?_) he1) fun e2 _ he2 =>
    (Emission.epilogue_ensures he2).bind fun _ _ _ => .of_ok ⟨_, rfl, trivial⟩
  obtain ⟨hst, hgrain, hrecord⟩ := hsteps q.1 (List.fst_mem_of_mem_zipIdx hq)
  exact Emission.step_ensures henv hst hgrain hrecord he

/-- A store of a schedule is on record. -/
theorem store_recorded {steps : List Step} {st : Step} (hst : st ∈ recordStores steps) {v : Int}
    (hv : v ∈ st.store) : v ∈ st.dramState := by
  rw [recordStores_eq] at hst
  obtain ⟨n, hn⟩ := List.getElem?_of_mem hst
  obtain ⟨t, ht, rfl⟩ := withStores_getElem hn
  refine List.mem_append_right _ (List.mem_flatMap.2 ⟨t, ?_, hv⟩)
  obtain ⟨hlt, rfl⟩ := List.getElem?_eq_some_iff.1 ht
  rw [List.mem_iff_getElem]
  exact ⟨n, by rw [List.length_take]; omega, by simp⟩

/-- The tensors of a shaped program stand in memory after they were placed. -/
theorem Layout.Laid.complete {d : Shaped} {p : Program} {c : Config} {s : Schedule} {l : Layout}
    {m m' : Memory} {b xr xc : Nat} {acc out : Placed} (h : l.Laid d s b m m') (hacc : l.acc = some acc)
    (hout : l.out = some out) (hsound : c.Sound b) (hcommon : d.Common p c b xr xc)
    (hformed : d.Formed c b xr xc) (hnX : s.nX = d.counts.nX) (hside : s.b = d.b) :
    Lowering.Complete { schedule := s, data := d, layout := l, acc, out } b xr xc := by
  obtain ⟨-, -, -, hfew⟩ := hcommon.sizes hsound.pos
  -- a tensor that is there has an object with as many blocks
  have hhoused : ∀ {origin divisor : UInt64} {t : Option Tensor} {o : Option Placed},
      Tensor.Housed origin divisor t o → ∀ t', t = some t' →
        ∃ o', o = some o' ∧ o'.blocks.size = t'.blocks.size := by
    rintro origin divisor t o (⟨rfl, -⟩ | ⟨t', o', rfl, rfl, hstands⟩) t'' ht
    · cases ht
    · cases ht
      exact ⟨o', rfl, hstands.same⟩
  obtain ⟨out', hout', -, hblocks⟩ := h.out
  rw [hout] at hout'
  cases hout'
  obtain ⟨acc', hacc', hsame⟩ := hhoused h.acc d.x rfl
  rw [hacc] at hacc'
  cases hacc'
  refine ⟨hsound.pos, hcommon.side, hformed.operands_small hsound.pos, hfew, hcommon.x_regular.size,
    hhoused h.inp, hhoused h.wgt, ⟨hacc, hsame⟩, hhoused h.accBis, hblocks,
    (hcommon.output_blocks hsound).2.1, fun hadd => ?_, fun t ht k hk => ?_, hnX, hside,
    fun r hr => hcommon.onVectors hr⟩
  · obtain ⟨y, h⟩ := hformed.sum_of_form hadd
    exact ⟨y, h.second, h.y_regular.size⟩
  · rcases ht with rfl | ht | rfl
    · exact (hcommon.x_regular.full_blocks hcommon.x_rows k hk).1
    · obtain ⟨hreg, hrows, -⟩ := hformed.accBis ht
      exact (hreg.full_blocks hrows k hk).1
    · exact (hcommon.output_full hsound k hk).1

/-- **Every planned schedule can be lowered**, or needs what an instruction has no room for.
Nothing that is looked up is missing, no token is taken or given out of turn or left over,
and nothing faults. -/
theorem lower_encodes {p : Program} {c : Config} {d : Shaped} {caps : Capacities}
    {options : PlanOptions} {s : Schedule} {divisors : Divisors} {base origin : UInt64}
    {l : Layout} {m : Memory} (hword : p.WordSized) (hbuild : Shaped.build p c = .ok d)
    (hcaps : c.schedulingCapacities = .ok caps) (hs : plan d caps options = .ok s)
    (hdivisors : c.divisors = .ok divisors)
    (hl : Layout.allocate (.empty base origin divisors) d s = .ok (l, m)) :
    (∃ code, lower s d l = .ok code) ∨
      ∃ object detail, lower s d l = Outcome.diagnose object detail ∧ Unencodable d detail := by
  obtain ⟨b, xr, xc, hsound, hcommon, hformed⟩ := build_formed hword hbuild
  have hwithin := build_within hbuild hsound hcaps
  obtain ⟨steps, hrec, hproper, hside, hnX, -⟩ :=
    plan_proper hsound.pos hcommon hformed hwithin hs
  obtain ⟨hgrain, hstored⟩ := plan_grain hsound.pos hcommon hformed hs
  have hlaid : l.Laid d s b (.empty base origin divisors) m :=
    allocate_laid hl (hsound.divisor_le hdivisors) (planned_placeable hcommon hformed hsound hstored)
  obtain ⟨acc, hacc⟩ := hlaid.acc_some
  obtain ⟨out, hout, -⟩ := hlaid.out
  have hsteps : ∀ st ∈ s.steps, st.Proper d caps ∧ st.storeGrain = s.storeGrain ∧
      ∀ v ∈ st.store, v ∈ st.dramState := by
    intro st hst
    refine ⟨?_, hgrain st hst, fun v hv => store_recorded (hrec ▸ hst) hv⟩
    rw [hrec, recordStores_eq] at hst
    obtain ⟨t, ht, _, rfl⟩ := mem_withStores hst
    exact { hproper t ht with }
  exact (lower_refuses (hlaid.complete hacc hout hsound hcommon hformed hnX hside) hout
    hsteps).ok_or_diagnose

/-- The product of four blocks, which stand at the start of memory, is lowered. -/
theorem fourBlocks_encodes : ∃ d caps s divisors l m, Program.fourBlocks.WordSized ∧
    Shaped.build .fourBlocks .twoBlocks = .ok d ∧
    Config.twoBlocks.schedulingCapacities = .ok caps ∧ plan d caps { strategy := 3 } = .ok s ∧
    Config.twoBlocks.divisors = .ok divisors ∧
    Layout.allocate (.empty 0 0 divisors) d s = .ok (l, m) ∧ s.steps.length = 4 ∧
    ∃ code, lower s d l = .ok code := by
  obtain ⟨caps, hcaps, h⟩ := Outcome.bind_eq_ok.1 fourBlocks_lowered
  obtain ⟨d, hd, h⟩ := Outcome.bind_eq_ok.1 h
  obtain ⟨s, hs, h⟩ := Outcome.bind_eq_ok.1 h
  obtain ⟨divisors, hdivisors, h⟩ := Outcome.bind_eq_ok.1 h
  obtain ⟨⟨l, m⟩, hl, h⟩ := Outcome.bind_eq_ok.1 h
  obtain ⟨code, hcode, h⟩ := Outcome.bind_eq_ok.1 h
  obtain ⟨hsteps, -⟩ := of_decide_eq_true (Outcome.pure_eq_ok.1 h)
  have hword : Program.fourBlocks.WordSized := by decide +kernel
  refine ⟨d, caps, s, divisors, l, m, hword, hd, hcaps, hs, hdivisors, hl, hsteps, ?_⟩
  rcases lower_encodes hword hd hcaps hs hdivisors hl with hok | ⟨_, _, hfail, -⟩
  · exact hok
  · rw [hcode] at hfail
    cases hfail

end Tessera
