import Tessera.Proofs.Repeated
import Tessera.Proofs.Widths

/-!
# Streams that can be written

Whatever is compiled, its table of micro-operations can be written in binary. Its stream can,
unless rows in memory lie too far apart or an instruction has too many micro-operations: all
other fields fit their widths, by what the scratchpads hold.

* `Code.Confined`: kept by every group (`group_confined`), so true of a stream (`lower_confined`).
* `steps_loaded`: a step loads no more blocks than stand in the accumulator.
* `Shaped.Common.coded`: the operations of a shaped program have codes.
* `compiled_fits`: what is compiled.
* `longest_overflows`: an operation with more micro-operations than a load can count.
-/

namespace Tessera

namespace Emission

variable {e e' : Emission}

/-- The code made so far. -/
def code (e : Emission) : Code := ⟨e.instructions.toList, e.microOps.toList⟩

theorem Extends.confined {insns : List Instruction} {us : List MicroOp} (h : Extends e e' insns us)
    (he : e.code.Confined) (hc : (⟨insns, us⟩ : Code).Confined) : e'.code.Confined := by
  refine ⟨fun i hi => ?_, fun u hu => ?_⟩
  · rw [code, h.instructions] at hi
    exact (List.mem_append.1 hi).elim (he.instructions i) (hc.instructions i)
  · rw [code, h.microOps] at hu
    exact (List.mem_append.1 hu).elim (he.microOps u) (hc.microOps u)

theorem push_confined {i : Instruction} (hi : i.Confined) (he : e.code.Confined)
    (h : e.push i = .ok e') : e'.code.Confined :=
  (push_extends h).confined he ⟨fun j hj => by rwa [List.mem_singleton.1 hj], fun u hu => by cases hu⟩

/-- **A group keeps the code within its widths.** -/
theorem group_confined {nop : Instruction} {first last : Flags} {c : Code} (hnop : nop.Confined)
    (hc : c.Confined) (he : e.code.Confined) (h : e.group nop first last c = .ok e') :
    e'.code.Confined := by
  refine (group_extends h).confined he ⟨withFlags_forall (fun i f hi => hi.flagged f) ?_, hc.microOps⟩
  split
  · intro i hi
    rwa [List.mem_singleton.1 hi]
  · exact hc.instructions

end Emission

section Idle

theorem nopLoad_confined : Instruction.nopLoad.Confined := by
  have hinp : Mover.Confined (.load .inp) := load_confined (by decide) (by decide)
  exact hinp.plain 0 0 0 0 0 (zero_fits 16) (zero_fits 16) (zero_fits 16)

theorem nopCompute_confined : Instruction.nopCompute.Confined := by
  have hb : Buffer.uop.code.toNat < 2 ^ 3 := by decide
  exact ⟨⟨hb, zero_fits 16, zero_fits 32, zero_fits 16, zero_fits 16, zero_fits 16, zero_fits 4,
    zero_fits 4, zero_fits 4, zero_fits 4⟩, rfl, fun h => by cases h⟩

theorem nopStore_confined : Instruction.nopStore.Confined :=
  store_confined.plain 0 0 0 0 0 (zero_fits 16) (zero_fits 16) (zero_fits 16)

theorem finish_confined : Instruction.finish.Confined := by
  have hb : Instruction.finish.buffer.code.toNat < 2 ^ 3 := by decide
  exact ⟨⟨hb, zero_fits 16, zero_fits 32, zero_fits 16, zero_fits 16, zero_fits 16, zero_fits 4,
    zero_fits 4, zero_fits 4, zero_fits 4⟩, rfl, fun h => by cases h⟩

end Idle

section Reset

/-- A step that loads blocks loads no more than stand in the accumulator. -/
def Step.LoadsResident (st : Step) : Prop :=
  st.residentGrain = .block → st.loadX.length ≤ st.sramResident.length

/-- **What is cleared before the first step** is not more than the accumulator has. -/
theorem resetBlocks_le {s : Schedule} {b : Nat} (hb : 1 ≤ b) (hle : b ≤ 64) (hside : s.b = b)
    (hsteps : ∀ st ∈ s.steps, st.rowCount b ≤ 2048 ∧ st.LoadsResident) {n : Int}
    (h : s.resetBlocks = .ok n) : 0 ≤ n ∧ n ≤ 2112 := by
  refine foldlM_invariant (fun _ rest (n : Int) => (∀ st ∈ rest, st ∈ s.steps) ∧ 0 ≤ n ∧ n ≤ 2112)
    (fun done st rest n n' hn hstep => ?_) [] s.steps 1 n ⟨fun _ h => h, by omega⟩ h |>.2
  obtain ⟨hrest, hn⟩ := hn
  obtain ⟨k, hk, hstep⟩ := Outcome.bind_eq_ok.1 hstep
  obtain rfl := Outcome.pure_eq_ok.1 hstep
  obtain ⟨hrows, hloads⟩ := hsteps st (hrest st List.mem_cons_self)
  suffices hsmall : k ≤ 2112 from ⟨fun st' hst' => hrest st' (List.mem_cons_of_mem _ hst'), by omega⟩
  unfold Schedule.stepReset at hk
  unfold Step.rowCount at hrows
  cases hg : st.residentGrain with
  | block =>
    simp only [hg] at hk hrows
    obtain rfl := Outcome.pure_eq_ok.1 hk
    have := hloads hg
    have := Nat.le_mul_of_pos_right st.sramResident.length hb
    omega
  | vector =>
    simp only [hg] at hk hrows
    rw [hside, wrap64_small (by omega) (by omega), quotient_small (by omega) (by omega) (by omega)] at hk
    obtain rfl := Outcome.pure_eq_ok.1 hk
    have := Int.ediv_le_self (b : Int) (show 0 ≤ (st.sramResident.length : Int) + b - 1 by omega)
    omega

theorem resetInstruction_confined {b : Nat} (hle : b ≤ 64) {n : Int} (hn : 0 ≤ n ∧ n ≤ 2112)
    (m : UInt32) : { Emission.resetInstruction b n with uopBegin := 0, uopEnd := m }.Confined := by
  have hside : (UInt32.ofInt (b : Int)).toNat = b := by
    rw [toNat_ofInt32 (by omega) (by omega), Int.toNat_natCast]
  have hstep : (1 : UInt32).toNat < 2 ^ 11 := by decide
  refine ⟨⟨⟨zero_fits 13, zero_fits 14, ?_, ?_, ?_, hstep, zero_fits 11, zero_fits 11⟩,
    ⟨zero_fits 10, zero_fits 10⟩⟩, rfl, fun hl => by cases hl⟩
  · show (UInt32.ofInt n).toNat < 2 ^ 14
    rw [toNat_ofInt32 hn.1 (by omega)]
    omega
  · show (UInt32.ofInt (b : Int)).toNat < 2 ^ 14
    omega
  · show (UInt32.ofInt (b : Int)).toNat < 2 ^ 11
    omega

end Reset

namespace Emission

variable {e e' : Emission} {env : Lowering} {caps : Capacities} {b xr xc : Nat}

/-- The product that clears the accumulator. -/
theorem prologue_confined (henv : env.Addressable caps b xr xc)
    (hsteps : ∀ st ∈ env.schedule.steps, st.Proper env.data caps ∧ st.LoadsResident)
    (h : prologue {} env = .ok e') : e'.code.Confined := by
  have hside := henv.complete.side
  obtain ⟨n, hn, h⟩ := Outcome.bind_eq_ok.1 h
  have hle := resetBlocks_le henv.complete.pos henv.le (henv.complete.divides.trans hside)
    (fun st hst => ⟨(hsteps st hst).1.rowCount_le henv.within hside, (hsteps st hst).2⟩) hn
  rw [hside] at h
  refine group_confined nopCompute_confined (batch_confined (i := resetInstruction b n)
    (resetInstruction_confined henv.le hle) (fun u hu => ?_) _ _)
    ⟨fun i hi => (List.not_mem_nil hi).elim, fun u hu => (List.not_mem_nil hu).elim⟩ h
  rw [List.mem_singleton.1 hu]
  exact ⟨zero_fits 11, zero_fits 11, zero_fits 10⟩

/-- **The code of a step.** -/
theorem step_confined (henv : env.Addressable caps b xr xc) {st : Step} (hst : st.Proper env.data caps)
    {i : Nat} (he : e.code.Confined) (h : e.step env i st = .ok e') : e'.code.Confined := by
  obtain ⟨loads, c, stores, e1, e2, e3, hloads, h1, hc, h2, hstores, h3, h⟩ := step_eq_ok.1 h
  have he1 := group_confined (c := { instructions := loads }) nopLoad_confined
    ⟨StepLowering.loads_confined (i := i) henv hst hloads, fun u hu => by cases hu⟩ he h1
  have he2 := group_confined nopCompute_confined (StepLowering.computes_confined (i := i) henv hst hc) he1 h2
  have he3 := group_confined (c := { instructions := stores }) nopStore_confined
    ⟨StepLowering.stores_confined (i := i) henv hst hstores, fun u hu => by cases hu⟩ he2 h3
  exact push_confined (nopCompute_confined.flagged { popNext := true }) he3 h

end Emission

/-- **The code of a schedule** of proper steps fits, apart from what nothing bounds. -/
theorem lower_confined {env : Lowering} {caps : Capacities} {b xr xc : Nat}
    (henv : env.Addressable caps b xr xc) (hout : env.layout.out = some env.out)
    (hsteps : ∀ st ∈ env.schedule.steps, st.Proper env.data caps ∧ st.LoadsResident) {code : Code}
    (h : lower env.schedule env.data env.layout = .ok code) : code.Confined := by
  obtain ⟨e1, e2, e3, h1, h2, h3, -, rfl⟩ := Lowering.stages henv.complete.acc.1 hout h
  have he1 := Emission.prologue_confined henv hsteps h1
  have he2 : e2.code.Confined := by
    refine foldlM_invariant (fun _ rest (e : Emission) =>
      (∀ q ∈ rest, q.1 ∈ env.schedule.steps) ∧ e.code.Confined)
      (fun done q rest e e' he hstep => ?_) [] _ e1 e2
      ⟨fun q hq => List.fst_mem_of_mem_zipIdx hq, he1⟩ h2 |>.2
    exact ⟨fun q' hq' => he.1 q' (List.mem_cons_of_mem _ hq'),
      Emission.step_confined henv (hsteps q.1 (he.1 q List.mem_cons_self)).1 he.2 hstep⟩
  -- three instructions without data end the stream
  refine (Emission.pushes_extends h3).confined he2 ⟨fun i hi => ?_, fun u hu => by cases hu⟩
  simp only [Emission.ending, List.mem_cons, List.not_mem_nil, or_false] at hi
  rcases hi with rfl | rfl | rfl
  · exact nopLoad_confined.flagged { popNext := true, pushNext := true }
  · exact nopCompute_confined.flagged { popPrev := true }
  · exact finish_confined

/-- **The steps of every path** load no more blocks than they keep. -/
theorem steps_loaded {p : Planner} {d : Shaped} {pr : Program} {c : Config} {b xr xc : Nat}
    {path : Path} {overflow : Bool} {steps : List Step} (hb : 1 ≤ b)
    (hcommon : d.Common pr c b xr xc) (hformed : d.Formed c b xr xc) (hdata : p.data = d)
    (hcounts : p.counts = d.counts) (hresults : p.results = Std.TreeSet.ofList d.storeBlocks)
    (h : p.steps = .ok (path, overflow, steps)) : ∀ st ∈ steps, st.LoadsResident := by
  intro st hst hg
  cases steps_laid hb hcommon hformed hdata hcounts hresults h with
  | product => rw [List.mem_singleton.1 hst]
  | tiles slices shapes =>
    obtain ⟨q, -, hst⟩ := List.mem_flatMap.1 hst
    obtain ⟨q, -, rfl⟩ := List.mem_map.1 hst
    simp only
    split
    · exact le_rfl
    · exact Nat.zero_le _
  | multiple parts =>
    obtain ⟨q, -, rfl⟩ := List.mem_map.1 hst
    exact le_rfl
  | operations => rw [List.mem_singleton.1 hst]
  | evicting steps hevicted =>
    rw [(hevicted.grain st hst).1] at hg
    cases hg
  | sum parts =>
    obtain ⟨part, -, rfl⟩ := List.mem_map.1 hst
    simp only [List.length_append]
    omega

section Coded

/-- Arithmetic that has a value has a code. -/
theorem alu_coded {op : AluOp} {x y v : Int} {acc : Scalar} (h : alu op x y acc = .ok v) :
    op.code.toNat < 2 ^ 3 := by
  cases op with
  | unassigned c hc => cases h
  | _ => decide

theorem stack_cols {blocks : List Block} {b : Int} {m : Matrix} (h : stack blocks b = .ok m) :
    m.cols = b := by
  unfold stack at h
  obtain ⟨out, hout, h⟩ := Outcome.bind_eq_ok.1 h
  obtain ⟨⟨data, off⟩, -, h⟩ := Outcome.bind_eq_ok.1 h
  obtain rfl := Outcome.pure_eq_ok.1 h
  obtain ⟨n, -, -, rfl⟩ := zero_eq_ok.1 hout
  rfl

/-- An operation that was run on some vector has a code. -/
theorem runOp_coded {b : Nat} (hb : 1 ≤ b) (hle : b ≤ 64) {acc : Scalar} {r : Resolved}
    (hne : r.sites ≠ []) (hdst : ∀ s ∈ r.sites, 0 ≤ s.dst ∧ s.dst < 35184372088832)
    {data data' : Array Int} (h : runOp b acc data r = .ok data') : r.op.code.toNat < 2 ^ 3 := by
  unfold runOp at h
  rw [Outcome.within_eq_ok] at h
  cases hsites : r.sites with
  | nil => exact absurd hsites hne
  | cons s sites =>
    rw [hsites] at h
    obtain ⟨data1, h1, -⟩ := foldlM_cons_eq_ok.1 h
    obtain ⟨h0, hlt⟩ := hdst s (hsites ▸ List.mem_cons_self)
    unfold runSite at h1
    obtain ⟨row, hrow, h1⟩ := Outcome.bind_eq_ok.1 h1
    -- a row has at least one number
    obtain ⟨v, vs, hv⟩ : ∃ v vs, row.toList = v :: vs := by
      refine List.exists_cons_of_length_pos ?_
      have hdst : s.dst * b ≤ 35184372088832 * 64 :=
        Int.mul_le_mul hlt.le (by omega) (by omega) (by omega)
      have hnn : 0 ≤ s.dst * b := Int.mul_nonneg h0 (by omega)
      have hnext : (s.dst + 1) * b = s.dst * b + b := by ring
      beta_reduce at hrow
      rw [wrap64_small (x := s.dst + 1) (by omega) (by omega), hnext, wrap64_small (by omega) (by omega),
        wrap64_small (by omega) (by omega)] at hrow
      obtain ⟨hbounds, rfl⟩ := slice_eq_ok.1 hrow
      simp only [Array.length_toList, Array.size_extract]
      omega
    rw [hv] at h1
    cases himm : r.useImm with
    | true =>
      simp only [himm, if_true, aluImmediate, List.mapM_cons] at h1
      obtain ⟨result, hresult, -⟩ := Outcome.bind_eq_ok.1 h1
      obtain ⟨x, hx, -⟩ := Outcome.bind_eq_ok.1 hresult
      exact alu_coded hx
    | false =>
      simp only [himm, Bool.false_eq_true, if_false] at h1
      obtain ⟨src, -, h1⟩ := Outcome.bind_eq_ok.1 h1
      obtain ⟨result, hresult, -⟩ := Outcome.bind_eq_ok.1 h1
      cases hs : src.toList with
      | nil =>
        rw [hs] at hresult
        cases hresult
      | cons u us =>
        rw [hs, aluVector] at hresult
        obtain ⟨x, hx, -⟩ := Outcome.bind_eq_ok.1 hresult
        exact alu_coded hx

/-- **The operations of a shaped program** have codes: they were all run. -/
theorem Shaped.Common.coded {d : Shaped} {p : Program} {c : Config} {b xr xc : Nat}
    (hcommon : d.Common p c b xr xc) (hsound : c.Sound b) (hformed : d.Formed c b xr xc) :
    ∀ r ∈ d.ops, r.op.code.toNat < 2 ^ 3 := by
  intro r hr
  obtain ⟨-, -, -, hsmall⟩ := hcommon.sizes hsound.pos
  have hcols : d.acc.cols = b := by
    cases hformed with
    | product ac a w h =>
      obtain ⟨_, _, _, _, -, -, hstack⟩ := h.acc
      exact stack_cols hstack
    | multiple scalar a w factor h =>
      obtain ⟨_, _, _, _, -, -, hstack⟩ := h.acc
      exact stack_cols hstack
    | plain h => exact stack_cols h.acc
    | sum y h => exact stack_cols h.acc
  have hne : r.sites ≠ [] := by
    obtain ⟨i, hi⟩ := List.getElem?_of_mem hr
    obtain ⟨-, -, -, hne, -⟩ := hcommon.op_resolved hi
    exact hne
  have hfinal := hcommon.final
  unfold runOps at hfinal
  rw [hcols] at hfinal
  obtain ⟨data, hdata, -⟩ := Outcome.bind_eq_ok.1 hfinal
  obtain ⟨before, after, hops⟩ := List.append_of_mem hr
  rw [hops] at hdata
  obtain ⟨data1, -, hdata⟩ := foldlM_append_eq_ok.1 hdata
  obtain ⟨data2, hrun, -⟩ := foldlM_cons_eq_ok.1 hdata
  refine runOp_coded hsound.pos hsound.le hne (fun s hs => ?_) hrun
  have := (hcommon.onVectors hr).dst s hs
  omega

end Coded

namespace Compiled.Made

variable {r : Compiled} {c : Config} {caps : Capacities} {options : PlanOptions} {divisors : Divisors}
  {data : Memory} {code : Code} {table : Placed} {b xr xc : Nat}

/-- **What was compiled fits**, apart from what nothing bounds. -/
theorem confined (h : r.Made c caps options divisors data code table) (hsound : c.Sound b)
    (hcommon : r.data.Common r.program c b xr xc) (hformed : r.data.Formed c b xr xc) :
    r.code.Confined := by
  have hlaid := h.laid hsound hcommon hformed
  have hwithin := build_within h.built hsound h.capacities
  obtain ⟨strategy, steps, hplanned⟩ := plan_planned h.planned
  obtain ⟨-, -, -, hside, hnX, -⟩ := plan_proper hsound.pos hcommon hformed hwithin h.planned
  obtain ⟨acc, hacc⟩ := hlaid.acc_some
  obtain ⟨out, hout, -⟩ := hlaid.out
  have hcomplete := hlaid.complete hacc hout hsound hcommon hformed hnX hside
  have haddressable : Lowering.Addressable
      { schedule := r.schedule, data := r.data, layout := r.layout, acc, out } caps b xr xc := by
    refine ⟨hcomplete, hwithin, hsound.le, fun a ha k hk => ?_, hcommon.coded hsound hformed⟩
    obtain ⟨br, bc, hreg, -⟩ := hformed.inp ha
    obtain ⟨h0, hle, -⟩ := hreg.block_shape k hk
    exact ⟨h0, hle⟩
  have hcode := lower_confined haddressable hout (fun st hst => ⟨plan_steps_proper hsound.pos hcommon
    hformed hwithin h.planned st hst, ?_⟩) h.lowered
  · rw [h.code_eq]
    refine ⟨fun i hi => ?_, hcode.microOps⟩
    obtain ⟨j, hj, rfl⟩ := List.mem_map.1 hi
    exact (hcode.instructions j hj).rebase _
  · have hst : st ∈ r.schedule.steps := hst
    rw [hplanned.recorded, recordStores_eq] at hst
    obtain ⟨t, ht, _, rfl⟩ := mem_withStores hst
    exact steps_loaded hsound.pos hcommon hformed rfl rfl rfl hplanned.planned t ht

end Compiled.Made

/-- **What is compiled can be written in binary.** The table of micro-operations always can, and
is read back. So are instructions, if no transfer has rows too far apart and no product or
operation too many micro-operations; all other fields fit their widths, but for the length of a
load of micro-operations, which is also the distance of its rows. -/
theorem compiled_fits {p : Program} {c : Config} {options : PlanOptions} {r : Compiled}
    (hword : p.WordSized) (h : compile c options p = .ok r) :
    (∀ u ∈ r.code.microOps, u.dst.toNat < 2 ^ 11 ∧ u.src.toNat < 2 ^ 11 ∧ u.wgt.toNat < 2 ^ 10) ∧
    (∃ bytes, encodeTable r.code.microOps = .ok bytes ∧ decodeTable bytes = .ok r.code.microOps) ∧
    (∀ i ∈ r.code.instructions, i.trimmed.Encodable ∧ (i.loadsMicroOps = true → i.xSize = i.xStride)) ∧
    ((∃ bytes, encodeProgram r.code.instructions = .ok bytes) ↔ ∀ i ∈ r.code.instructions,
      (i.opcode = .load ∨ i.opcode = .store → i.xStride.toNat < 2 ^ 16) ∧
        (i.opcode = .gemm ∨ i.opcode = .alu → i.uopEnd.toNat < 2 ^ 14)) ∧
    ∀ bytes, encodeProgram r.code.instructions = .ok bytes →
      decodeProgram bytes = .ok r.code.instructions := by
  obtain ⟨rfl, caps, divisors, data, code, table, hmade⟩ := compile_made h
  obtain ⟨b, xr, xc, hsound, hcommon, hformed⟩ := build_formed hword hmade.built
  have hfits := hmade.confined hsound hcommon hformed
  have hwrite : ∀ {bytes}, encodeProgram r.code.instructions = .ok bytes →
      decodeProgram bytes = .ok r.code.instructions := by
    intro bytes hbytes
    obtain ⟨parts, -, hparts, hread⟩ := encodeProgram_eq (encodable_of_encodeProgram hbytes)
    obtain rfl := Except.ok.inj (hparts.symm.trans hbytes)
    rw [hread, List.map_congr_left (fun i hi => (hfits.instructions i hi).own), List.map_id']
  refine ⟨fun u hu => ⟨(hfits.microOps u hu).dst, (hfits.microOps u hu).src, (hfits.microOps u hu).wgt⟩,
    table_round_trip hfits.microOps, fun i hi => ⟨(hfits.instructions i hi).fields,
      (hfits.instructions i hi).table⟩, ⟨?_, fun hall => ?_⟩, fun bytes => hwrite⟩
  · rintro ⟨bytes, hbytes⟩ i hi
    exact (hfits.instructions i hi).encodable_iff.1 (encodable_of_encodeProgram hbytes i hi)
  · obtain ⟨parts, -, hparts, -⟩ := encodeProgram_eq fun i hi =>
      (hfits.instructions i hi).encodable_iff.2 (hall i hi)
    exact ⟨_, hparts⟩

set_option maxRecDepth 100000 in
theorem fourBlocks_near : (do
    let r ← compile .twoBlocks { strategy := 3 } .fourBlocks
    return ∀ i ∈ r.code.instructions, i.xStride.toNat < 2 ^ 16 ∧ i.uopEnd.toNat < 2 ^ 14 :
      Outcome Bool) = .ok true := by
  decide +kernel

/-- The product of four blocks can be written and read back. -/
theorem fourBlocks_fits : ∃ r bytes table, Program.fourBlocks.WordSized ∧
    compile .twoBlocks { strategy := 3 } .fourBlocks = .ok r ∧
    encodeProgram r.code.instructions = .ok bytes ∧ decodeProgram bytes = .ok r.code.instructions ∧
    encodeTable r.code.microOps = .ok table ∧ decodeTable table = .ok r.code.microOps := by
  obtain ⟨r, hr, h⟩ := Outcome.bind_eq_ok.1 fourBlocks_near
  have hnear := of_decide_eq_true (Outcome.pure_eq_ok.1 h)
  have hword : Program.fourBlocks.WordSized := by decide +kernel
  obtain ⟨-, ⟨table, htable, hread⟩, -, hstream, hback⟩ := compiled_fits hword hr
  obtain ⟨bytes, hbytes⟩ := hstream.2 fun i hi => ⟨fun _ => (hnear i hi).1, fun _ => (hnear i hi).2⟩
  exact ⟨r, bytes, table, hword, hr, hbytes, hback bytes hbytes, htable, hread⟩

/-- **The length of a load of micro-operations is bounded by nothing, either.** An operation on one
vector, repeated `2 ^ 16` times, is compiled for a scratchpad that has room for it. The load of
its micro-operations has a length beyond 16 bits, and this is why the stream cannot be written. -/
theorem longest_overflows : ∃ r, (Program.repeated 65536).WordSized ∧
    compile .longTable {} (.repeated 65536) = .ok r ∧
    (∃ i ∈ r.code.instructions, i.opcode = .load ∧ ¬i.xSize.toNat < 2 ^ 16) ∧
    encodeProgram r.code.instructions = Outcome.within "instruction 4"
      (Outcome.diagnose "LOAD" (.encodingOverflow (.field "x_size" 65536 16))) := by
  have hword : (Program.repeated 65536).WordSized := by decide +kernel
  refine ⟨_, hword, Repeated.compile_longest, ?_, ?_⟩
  · decide +kernel
  · decide +kernel

end Tessera
