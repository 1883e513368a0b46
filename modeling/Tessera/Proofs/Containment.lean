import Tessera.Proofs.Building
import Tessera.Proofs.Operations
import Tessera.Proofs.Padding

/-!
# Numbers that stay in their type

Padding a matrix, cutting it into blocks and stacking these moves numbers and adds
zeros. A product wraps every number. Of the operations, sums, products and shifts to the
left wrap, and a shift to the right makes a number smaller; the minimum and the maximum
are the number or the operand, so the operand has to be on the right side.

* `ofMatrix_numbers`, `stack_numbers`: the numbers of a tensor, and of stacked blocks.
* `Scalar.Has`, `Scalar.Takes`: the numbers of a type, and the operands that keep an
  operation in it.
* `alu_has`, `runSite_has`, `runOps_has`: a step of the operations, and all of them.
* `Program.Contained`: the numbers that are taken as they stand are of the accumulator
  type.
* `accumulators_contained`: then the accumulators are, before and after the operations.
-/

namespace Tessera

section Tables

variable {α : Type} {dst src out : Array α} {v : α}

theorem mem_copyInto {start : Nat} (h : v ∈ copyInto dst start src) : v ∈ dst ∨ v ∈ src := by
  obtain ⟨k, hk⟩ := Array.mem_iff_getElem?.1 h
  rw [getElem?_copyInto] at hk
  split at hk
  · exact .inr (Array.mem_of_getElem? hk)
  · exact .inl (Array.mem_of_getElem? hk)

theorem mem_overwrite {start : Int} (h : overwrite dst start src = .ok out) (hv : v ∈ out) :
    v ∈ dst ∨ v ∈ src := by
  obtain ⟨-, rfl⟩ := overwrite_eq_ok.1 h
  exact mem_copyInto hv

theorem mem_of_mem_extract {lo hi : Nat} (h : v ∈ src.extract lo hi) : v ∈ src := by
  obtain ⟨k, hk⟩ := Array.mem_iff_getElem?.1 h
  rw [Array.getElem?_extract] at hk
  split at hk
  · exact Array.mem_of_getElem? hk
  · cases hk

theorem mem_slice {lo hi : Int} (h : slice src lo hi = .ok out) (hv : v ∈ out) : v ∈ src := by
  obtain ⟨-, rfl⟩ := slice_eq_ok.1 h
  exact mem_of_mem_extract hv

end Tables

section Numbers

variable {P : Int → Prop} {m out : Matrix} {b : Int}

/-- The numbers of a padded matrix: those of the matrix, and zeros. -/
theorem pad_numbers {padRows : Bool} (h0 : P 0) (hm : ∀ v ∈ m.data, P v)
    (h : m.pad b padRows = .ok out) : ∀ v ∈ out.data, P v := by
  obtain ⟨-, -, n, -, -, hloop⟩ := pad_eq_ok.1 h
  refine loopBelow_invariant (fun _ data => ∀ v ∈ data, P v) ?_ ?_ hloop
  · intro k s s' _ hs hstep v hv
    unfold padRow at hstep
    simp only [Outcome.faulted_eq_ok] at hstep
    obtain ⟨-, hstep⟩ := hstep
    obtain ⟨row, hrow, hstep⟩ := Outcome.bind_eq_ok.1 hstep
    rcases mem_overwrite hstep hv with hv | hv
    · exact hs v hv
    · exact hm v (mem_slice hrow hv)
  · intro v hv
    rw [(Array.mem_replicate.1 hv).2]
    exact h0

/-- The numbers of a block: those of the matrix, and zeros. -/
theorem blockAt_numbers {h i j : Int} {k : Block} (h0 : P 0) (hm : ∀ v ∈ m.data, P v)
    (hk : m.blockAt b h i j = .ok k) : ∀ v ∈ k.data, P v := by
  unfold Matrix.blockAt at hk
  obtain ⟨_, -, hk⟩ := Outcome.bind_eq_ok.1 hk
  obtain ⟨data, hloop, hk⟩ := Outcome.bind_eq_ok.1 hk
  obtain rfl := Outcome.pure_eq_ok.1 hk
  refine loopBelow_invariant (fun _ data => ∀ v ∈ data, P v) ?_ (by simp) hloop
  intro r s s' _ hs hstep v hv
  obtain ⟨piece, hpiece, hstep⟩ := Outcome.bind_eq_ok.1 hstep
  obtain rfl := Outcome.pure_eq_ok.1 hstep
  unfold Matrix.piece at hpiece
  split at hpiece
  · obtain rfl := Except.ok.inj hpiece
    rcases Array.mem_append.1 hv with hv | hv
    · exact hs v hv
    · rcases Array.mem_append.1 hv with hv | hv
      · exact hm v (mem_of_mem_extract hv)
      · rw [(Array.mem_replicate.1 hv).2]
        exact h0
  · cases hpiece

/-- The numbers of the blocks of a matrix: those of the matrix, and zeros. -/
theorem split_numbers {blocks : List Block} {br bc : Int} (h0 : P 0) (hm : ∀ v ∈ m.data, P v)
    (h : m.split b = .ok (blocks, br, bc)) : ∀ k ∈ blocks, ∀ v ∈ k.data, P v := by
  unfold Matrix.split at h
  simp only [Outcome.bind_eq_ok, Outcome.complained_eq_ok, Outcome.faulted_eq_ok,
    Outcome.pure_eq_ok, Prod.mk.injEq] at h
  obtain ⟨_, -, -, _, -, _, -, -, done, hloop, rfl, -⟩ := h
  have hblocks : ∀ k ∈ done, ∀ v ∈ k.data, P v := by
    -- block row by block row, and block by block
    refine loopBelow_invariant (fun _ done => ∀ k ∈ done, ∀ v ∈ k.data, P v) ?_ (by simp) hloop
    intro bi done done' _ hdone hrow
    refine loopBelow_invariant (fun _ done => ∀ k ∈ done, ∀ v ∈ k.data, P v) ?_ hdone hrow
    intro bj done done' _ hdone hblock
    obtain ⟨k, hk, hblock⟩ := Outcome.bind_eq_ok.1 hblock
    obtain rfl := Outcome.pure_eq_ok.1 hblock
    exact List.forall_mem_cons.2 ⟨blockAt_numbers h0 hm hk, hdone⟩
  exact fun k hk => hblocks k (List.mem_reverse.1 hk)

/-- **The numbers of a tensor**: those of its matrix, and zeros. -/
theorem ofMatrix_numbers {role : Role} {name : String} {scalar : Scalar} {b : Nat} {padRows : Bool}
    {t : Tensor} (h0 : P 0) (hm : ∀ v ∈ m.data, P v)
    (h : Tensor.ofMatrix role name m scalar b padRows = .ok t) :
    ∀ k ∈ t.blocks.toList, ∀ v ∈ k.data, P v := by
  obtain ⟨hpad, blocks, br, bc, hsplit, heq⟩ := ofMatrix_parts h
  rw [heq]
  exact split_numbers h0 (pad_numbers h0 hm hpad) hsplit

/-- **The numbers of stacked blocks**: those of the blocks, and zeros. -/
theorem stack_numbers {blocks : List Block} (h0 : P 0) (hblocks : ∀ k ∈ blocks, ∀ v ∈ k.data, P v)
    (h : stack blocks b = .ok out) : ∀ v ∈ out.data, P v := by
  unfold stack at h
  obtain ⟨zeros, hzeros, h⟩ := Outcome.bind_eq_ok.1 h
  obtain ⟨n, -, -, rfl⟩ := zero_eq_ok.1 hzeros
  obtain ⟨⟨data, off⟩, hfold, h⟩ := Outcome.bind_eq_ok.1 h
  obtain rfl := Outcome.pure_eq_ok.1 h
  have := foldlM_invariant (fun done rest (s : Array Int × Int) =>
    (∀ k ∈ done ++ rest, k ∈ blocks) ∧ ∀ v ∈ s.1, P v) ?_ [] blocks _ _ ⟨by simp, ?_⟩ hfold
  · exact this.2
  · rintro done k rest ⟨data, off⟩ ⟨data', off'⟩ ⟨hin, hdata⟩ hstep
    obtain ⟨data'', hover, hstep⟩ := Outcome.bind_eq_ok.1 hstep
    obtain ⟨rfl, -⟩ := Prod.mk.inj (Outcome.pure_eq_ok.1 hstep)
    refine ⟨by simpa using hin, fun v hv => ?_⟩
    rcases mem_overwrite hover hv with hv | hv
    · exact hdata v hv
    · exact hblocks k (hin k (by simp)) v hv
  · intro v hv
    rw [(Array.mem_replicate.1 hv).2]
    exact h0

end Numbers

namespace Scalar

/-- A number of the type. -/
def Has (s : Scalar) (v : Int) : Prop := -2 ^ (8 * s.width - 1) ≤ v ∧ v < 2 ^ (8 * s.width - 1)

/-- An operand with which an operation stays in the type. -/
def Takes (s : Scalar) (op : AluOp) (v : Int) : Prop :=
  (op = .min → -2 ^ (8 * s.width - 1) ≤ v) ∧ (op = .max → v < 2 ^ (8 * s.width - 1))

variable {s : Scalar} {op : AluOp} {v : Int}

theorem Has.zero (s : Scalar) : s.Has 0 := ⟨by simp, by positivity⟩

theorem Has.takes (h : s.Has v) (op : AluOp) : s.Takes op v := ⟨fun _ => h.1, fun _ => h.2⟩

theorem Has.wrapped (hs : s.Supported) (v : Int) : s.Has (s.wrapped v) := by
  have hlo := Int.le_bmod (x := v) (m := 2 ^ (8 * s.width)) (by positivity)
  have hhi := Int.bmod_lt (x := v) (m := 2 ^ (8 * s.width)) (by positivity)
  unfold Has Scalar.wrapped
  rcases hs.cases with ⟨-, hw⟩ | ⟨-, hw⟩ | ⟨-, hw⟩ <;> rw [hw] at hlo hhi ⊢ <;>
    norm_num at hlo hhi ⊢ <;> omega

/-- A number shifted to the right stays between its old value and zero. -/
theorem Has.shifted (h : s.Has v) (n : Nat) : s.Has (v / (twoTo n : Int)) := by
  rw [twoTo_eq]
  have hpos : (0 : Int) < (2 ^ n : Nat) := by positivity
  have hbound : (0 : Int) < 2 ^ (8 * s.width - 1) := by positivity
  refine ⟨Int.le_ediv_of_mul_le hpos ?_, Int.ediv_lt_of_lt_mul hpos ?_⟩
  · nlinarith [h.1]
  · nlinarith [h.2]

end Scalar

section Operations

variable {s : Scalar} {op : AluOp}

/-- **A number of an accumulator stays in its type** if the operand lets it. -/
theorem alu_has {a b v : Int} (hs : s.Supported) (ha : s.Has a) (hb : s.Takes op b)
    (h : alu op a b s = .ok v) : s.Has v := by
  unfold alu at h
  cases op with
  | min =>
    obtain rfl := Except.ok.inj h
    exact ⟨le_min ha.1 (hb.1 rfl), lt_of_le_of_lt (min_le_left a b) ha.2⟩
  | max =>
    obtain rfl := Except.ok.inj h
    exact ⟨le_trans ha.1 (le_max_left a b), max_lt ha.2 (hb.2 rfl)⟩
  | add =>
    obtain rfl := Except.ok.inj ((hs.wrap _).symm.trans h)
    exact .wrapped hs _
  | mul =>
    obtain rfl := Except.ok.inj ((hs.wrap _).symm.trans h)
    exact .wrapped hs _
  | shr =>
    simp only at h
    split at h
    · obtain rfl := Except.ok.inj h
      exact ha.shifted _
    · -- a negative amount shifts to the left
      split at h
      · obtain rfl := Except.ok.inj h
        exact .zero s
      · split at h
        · cases h
        · obtain rfl := Except.ok.inj ((hs.wrap _).symm.trans h)
          exact .wrapped hs _
  | unassigned n hn => simp at h

theorem aluImmediate_has {dst out : List Int} {imm : Int} (hs : s.Supported)
    (hdst : ∀ a ∈ dst, s.Has a) (himm : s.Takes op imm)
    (h : aluImmediate op dst imm s = .ok out) : ∀ v ∈ out, s.Has v := by
  intro v hv
  obtain ⟨a, ha, hav⟩ := forall₂_right (mapM_eq_ok.1 h) hv
  exact alu_has hs (hdst a ha) himm hav

theorem aluVector_has {dst src out : List Int} (hs : s.Supported) (hdst : ∀ a ∈ dst, s.Has a)
    (hsrc : ∀ b ∈ src, s.Has b) (h : aluVector op dst src s = .ok out) : ∀ v ∈ out, s.Has v := by
  induction dst generalizing src out with
  | nil =>
    obtain rfl := Except.ok.inj h
    simp
  | cons a dst ih =>
    cases src with
    | nil => cases h
    | cons b src =>
      rw [List.forall_mem_cons] at hdst hsrc
      obtain ⟨v, hv, h⟩ := Outcome.bind_eq_ok.1 h
      obtain ⟨rest, hrest, h⟩ := Outcome.bind_eq_ok.1 h
      obtain rfl := Outcome.pure_eq_ok.1 h
      exact List.forall_mem_cons.2
        ⟨alu_has hs hdst.1 (hsrc.1.takes op) hv, ih hdst.2 hsrc.2 hrest⟩

/-- **One operation on one site** keeps the numbers in their type. -/
theorem runSite_has {cols : Int} {r : Resolved} {data out : Array Int} {site : Site}
    (hs : s.Supported) (himm : r.useImm = true → s.Takes r.op r.imm) (hdata : ∀ v ∈ data, s.Has v)
    (h : runSite cols s r data site = .ok out) : ∀ v ∈ out, s.Has v := by
  unfold runSite at h
  obtain ⟨dst, hdst, h⟩ := Outcome.bind_eq_ok.1 h
  have hrow : ∀ {lo hi : Int} {row : Array Int}, slice data lo hi = .ok row →
      ∀ a ∈ row.toList, s.Has a := fun hslice a ha =>
    hdata a (mem_slice hslice (Array.mem_toList_iff.1 ha))
  -- with a number or with a second vector, the new row has numbers of the type
  obtain ⟨result, hhas, hover⟩ : ∃ result : List Int, (∀ v ∈ result, s.Has v) ∧
      overwrite data (wrap64 (site.dst * cols)) result.toArray = .ok out := by
    split at h
    · rename_i huse
      obtain ⟨result, hresult, h⟩ := Outcome.bind_eq_ok.1 h
      exact ⟨result, aluImmediate_has hs (hrow hdst) (himm huse) hresult, h⟩
    · obtain ⟨src, hsrc, h⟩ := Outcome.bind_eq_ok.1 h
      obtain ⟨result, hresult, h⟩ := Outcome.bind_eq_ok.1 h
      exact ⟨result, aluVector_has hs (hrow hdst) (hrow hsrc) hresult, h⟩
  intro v hv
  rcases mem_overwrite hover hv with hv | hv
  · exact hdata v hv
  · exact hhas v (by simpa using hv)

/-- **The operations** keep the numbers in their type, whatever their order. -/
theorem runOps_has {m out : Matrix} {ops : List Resolved} (hs : s.Supported)
    (himm : ∀ r ∈ ops, r.useImm = true → s.Takes r.op r.imm) (hm : ∀ v ∈ m.data, s.Has v)
    (h : runOps m ops s = .ok out) : ∀ v ∈ out.data, s.Has v := by
  unfold runOps at h
  obtain ⟨data, hfold, h⟩ := Outcome.bind_eq_ok.1 h
  obtain rfl := Outcome.pure_eq_ok.1 h
  have := foldlM_invariant (fun done rest (data : Array Int) =>
    (∀ r ∈ done ++ rest, r ∈ ops) ∧ ∀ v ∈ data, s.Has v) ?_ [] ops _ _ ⟨by simp, hm⟩ hfold
  · exact this.2
  rintro done r rest data data' ⟨hin, hdata⟩ hstep
  refine ⟨by simpa using hin, ?_⟩
  have := foldlM_invariant (fun _ _ (data : Array Int) => ∀ v ∈ data, s.Has v) ?_ [] r.sites _ _
    hdata (Outcome.within_eq_ok.1 hstep)
  · exact this
  intro _ site _ data data' hdata hsite
  exact runSite_has hs (himm r (hin r (by simp))) hdata hsite

/-- Only eight bits are too few for a number of an operation. -/
theorem immediate_takes {imm : Int} (hs : s.Supported) (hbits : -32768 ≤ imm ∧ imm < 32768)
    (hmin : op = .min → s.logWidth = 3 → -128 ≤ imm)
    (hmax : op = .max → s.logWidth = 3 → imm ≤ 127) : s.Takes op imm := by
  unfold Scalar.Takes
  rcases hs.cases with ⟨rfl, hw⟩ | ⟨rfl, hw⟩ | ⟨rfl, hw⟩ <;> rw [hw] <;> norm_num
  · exact ⟨fun h => hmin h rfl, fun h => by have := hmax h rfl; omega⟩
  · omega
  · omega

/-- A number that an operation takes is one of the program, or the zero of RELU. -/
theorem resolve_immediate {vectors : Int} {i : Nat} {e : AluEntry} {r : Resolved}
    (h : e.resolve vectors i = .ok r) (huse : r.useImm = true) :
    (∃ dst, e = .immediate r.op r.imm dst) ∨ r.op = .max ∧ r.imm = 0 := by
  unfold AluEntry.resolve at h
  cases e with
  | immediate op imm dst =>
    simp only [Outcome.bind_eq_ok, Outcome.refused_eq_ok, Outcome.pure_eq_ok] at h
    obtain ⟨_, -, _, rfl, -, rfl⟩ := h
    exact .inl ⟨dst, rfl⟩
  | vector op sites =>
    simp only [Outcome.bind_eq_ok, Outcome.refused_eq_ok, Outcome.pure_eq_ok] at h
    obtain ⟨_, -, _, rfl, -, rfl⟩ := h
    cases huse
  | relu dst =>
    cases dst with
    | some dst =>
      simp only [Outcome.bind_eq_ok, Outcome.refused_eq_ok, Outcome.pure_eq_ok] at h
      obtain ⟨_, -, _, -, _, rfl, -, rfl⟩ := h
      exact .inr ⟨rfl, rfl⟩
    | none =>
      simp only [Outcome.bind_eq_ok, Outcome.refused_eq_ok, Outcome.pure_eq_ok] at h
      obtain ⟨_, -, _, -, _, rfl, -, rfl⟩ := h
      exact .inr ⟨rfl, rfl⟩
  | addAccumulators =>
    simp only [Outcome.bind_eq_ok, Outcome.refused_eq_ok, Outcome.pure_eq_ok] at h
    obtain ⟨_, rfl, -, rfl⟩ := h
    cases huse

end Operations

namespace Random.Generator

theorem belowBound_lt {bound : Nat} (hb : 0 < bound) (g : Generator) :
    (g.belowBound bound).1 < bound := by
  unfold belowBound
  split <;> exact Nat.mod_lt _ hb

/-- The numbers that are drawn lie in their range. -/
theorem draws_between {lo : Int} {bound count : Nat} {done : Array Int} {g : Generator}
    (hb : 0 < bound) :
    ∀ v ∈ (draws lo bound count done g).1, v ∈ done ∨ lo ≤ v ∧ v < lo + bound := by
  induction count generalizing done g with
  | zero => exact fun v hv => .inl hv
  | succ count ih =>
    intro v hv
    have hlt := belowBound_lt hb g
    change v ∈ (draws lo bound count (done.push (lo + (g.belowBound bound).1))
      (g.belowBound bound).2).1 at hv
    rcases ih v hv with hv | hv
    · rcases Array.mem_push.1 hv with hv | rfl
      · exact .inl hv
      · exact .inr ⟨by omega, by omega⟩
    · exact .inr hv

end Random.Generator

namespace Scalar

variable {s t : Scalar}

theorem Has.narrowed (s : Scalar) (v : Int) : s.Has (s.narrowed true v) := by
  have hpos : (0 : Int) < 2 ^ (8 * s.width - 1) := by positivity
  unfold Has Scalar.narrowed
  simp only [if_true]
  split
  · omega
  · split <;> omega

theorem narrowed_mono (s : Scalar) {u v : Int} (h : u ≤ v) :
    s.narrowed true u ≤ s.narrowed true v := by
  have hpos : (0 : Int) < 2 ^ (8 * s.width - 1) := by positivity
  unfold Scalar.narrowed
  simp only [if_true]
  split <;> split <;> (try split) <;> (try split) <;> omega

/-- A number of a type is one of every wider type. -/
theorem Has.wider {v : Int} (h : s.Has v) (hle : s.logWidth ≤ t.logWidth) : t.Has v := by
  have hwidth : s.width ≤ t.width := Nat.pow_le_pow_right (by omega) (by omega)
  have hpow : (2 : Int) ^ (8 * s.width - 1) ≤ 2 ^ (8 * t.width - 1) :=
    pow_le_pow_right₀ (by omega) (by omega)
  exact ⟨by have := h.1; omega, by have := h.2; omega⟩

end Scalar

/-- The numbers drawn from a range that was cut to a type are of the type. -/
theorem draws_has {s : Scalar} {a b lo hi : Int} {count : Nat} {g : Random.Generator}
    (hs : s.Supported) (hab : a ≤ b) (hlo : s.clip a = .ok lo) (hhi : s.clip b = .ok hi) :
    ∀ v ∈ (Random.Generator.draws lo (hi - lo + 1).toNat count #[] g).1, s.Has v := by
  intro v hv
  obtain rfl := Except.ok.inj ((hs.narrow a true).symm.trans hlo)
  obtain rfl := Except.ok.inj ((hs.narrow b true).symm.trans hhi)
  have hmono := s.narrowed_mono hab
  have hmin := Scalar.Has.narrowed s a
  have hmax := Scalar.Has.narrowed s b
  rcases Random.Generator.draws_between (by omega) v hv with hv | hv
  · simp at hv
  · exact ⟨by have := hmin.1; omega, by have := hmax.2; omega⟩

namespace Program

/-- A program without a product takes its accumulators from this matrix. -/
def Loads (p : Program) (m : Declared) : Prop :=
  p.gemm = none ∧ m ∈ p.matrices ∧ ∃ roles, p.roles = .ok roles ∧
    (m.name = roles.accumulator ∨ p.addsAccumulators = true ∧ m.name = addAccumulatorName)

/-- The numbers that no product wraps are of the accumulator type: those a program gives, and
those drawn for a matrix that has the empty name of an input nobody plays. -/
structure Contained (p : Program) (c : Config) : Prop where
  data : ∀ m, p.Loads m → ∀ x, m.data = some x → ∀ v ∈ x.data, c.acc.contains v = .ok true
  seeded : ∀ m, p.Loads m → m.name = "" → m.data = none → c.inp.logWidth ≤ c.acc.logWidth

theorem validate_range {p : Program} (h : p.validate = .ok ()) : p.valueMin ≤ p.valueMax := by
  unfold validate at h
  obtain ⟨⟨⟩, -, h⟩ := Outcome.bind_eq_ok.1 h
  exact not_lt.1 (Outcome.complained_eq_ok.1 h).1

/-- Without a product nobody plays the input. -/
theorem roles_plain {p : Program} {roles : Roles} (hg : p.gemm = none) (h : p.roles = .ok roles) :
    roles.input = "" ∧ roles.weight = "" ∧
      roles.addAccumulator = if p.addsAccumulators then addAccumulatorName else "" := by
  unfold Program.roles at h
  rw [hg] at h
  obtain ⟨name, -, h⟩ := Outcome.bind_eq_ok.1 h
  rw [pure_bind] at h
  split at h
  · rename_i hadd
    obtain ⟨-, -, h⟩ := Outcome.bind_eq_ok.1 h
    obtain rfl := Outcome.pure_eq_ok.1 h
    exact ⟨rfl, rfl, by rw [if_pos hadd]⟩
  · rename_i hadd
    obtain rfl := Outcome.pure_eq_ok.1 h
    exact ⟨rfl, rfl, by rw [if_neg hadd]⟩

end Program

namespace Shaped

variable {p : Program} {c : Config} {b : Nat} {roles : Roles} {values : List (String × Matrix)}

/-- **The values of the accumulators** of a program without a product. -/
theorem Valued.loaded (h : Valued p c roles b values) (hp : p.Contained c) (hg : p.gemm = none)
    {name : String}
    (hname : name = roles.accumulator ∨ p.addsAccumulators = true ∧ name = addAccumulatorName) :
    ∀ v ∈ (valueOf values name).data, c.acc.Has v := by
  have hs := h.sound
  obtain ⟨hin, hwgt, -⟩ := Program.roles_plain hg h.named
  have hrange := Program.validate_range h.program
  have hvalued := h.valued
  unfold materialise at hvalued
  obtain ⟨⟨vs, g⟩, hfold, heq⟩ := Outcome.bind_eq_ok.1 hvalued
  obtain rfl := Outcome.pure_eq_ok.1 heq
  -- the fold keeps: every value under the name is of the type
  have hall := foldlM_invariant (fun done rest (s : List (String × Matrix) × Random.Generator) =>
    (∀ m ∈ done ++ rest, m ∈ p.matrices) ∧
      ∀ q ∈ s.1, q.1 = name → ∀ v ∈ q.2.data, c.acc.Has v) ?_ [] p.matrices _ _ (by simp) hfold
  · unfold valueOf
    cases hl : vs.lookup name with
    | none => simp
    | some m =>
      obtain ⟨l, r, heq, -⟩ := List.lookup_eq_some_iff.1 hl
      exact hall.2 (name, m) (by rw [heq]; simp) rfl
  rintro done m rest ⟨s, g⟩ ⟨s', g'⟩ ⟨hin', hdone⟩ hstep
  refine ⟨by simpa using hin', ?_⟩
  have hloads : m.name = name → p.Loads m := by
    rintro rfl
    exact ⟨hg, hin' m (by simp), roles, h.named, hname⟩
  cases hdata : m.data with
  | some x =>
    simp only [hdata, Outcome.pure_eq_ok, Prod.mk.injEq] at hstep
    obtain ⟨rfl, -⟩ := hstep
    refine List.forall_mem_cons.2 ⟨fun hm v hv => ?_, hdone⟩
    exact (hs.acc.contains v).1 (hp.data m (hloads hm) x hdata v hv)
  | none =>
    simp only [hdata, Outcome.bind_eq_ok, Outcome.pure_eq_ok, Prod.mk.injEq] at hstep
    obtain ⟨lo, hlo, hi, hhi, count, -, rfl, -⟩ := hstep
    refine List.forall_mem_cons.2 ⟨fun hm v hv => ?_, hdone⟩
    -- the type the numbers are drawn from
    obtain ⟨t, ht, hle, hscalar⟩ : ∃ t : Scalar, t.Supported ∧ t.logWidth ≤ c.acc.logWidth ∧
        (if m.name = roles.input then c.inp else if m.name = roles.weight then c.wgt else c.acc) =
          t := by
      rw [hin, hwgt]
      by_cases hempty : m.name = ""
      · exact ⟨c.inp, hs.inp, hp.seeded m (hloads hm) hempty hdata, if_pos hempty⟩
      · exact ⟨c.acc, hs.acc, le_refl _, by rw [if_neg hempty, if_neg hempty]⟩
    rw [hscalar] at hlo hhi
    exact (draws_has ht hrange hlo hhi v hv).wider hle

/-- What a product starts its operations from was wrapped. -/
theorem Factors.operands_has {f : Factors} {g : Gemm} {o : Operands} (hs : c.Sound b)
    (h : f.operands g c b mulAdd = .ok o) : ∀ v ∈ o.acc.data, c.acc.Has v := by
  unfold Factors.operands at h
  simp only [Outcome.bind_eq_ok, Outcome.pure_eq_ok, Outcome.within_eq_ok] at h
  obtain ⟨product, hproduct, ⟨blocks, br, bc⟩, hsplit, acc, hstack, rfl⟩ := h
  unfold mulAdd at hproduct
  simp only [Outcome.complained_eq_ok, Outcome.bind_eq_ok, Outcome.pure_eq_ok] at hproduct
  obtain ⟨-, -, sums, -, data, hwrap, rfl⟩ := hproduct
  have hwrapped : ∀ v ∈ data, c.acc.Has v := by
    intro v hv
    rw [← Except.ok.inj ((hs.acc.wrapAll sums).symm.trans hwrap)] at hv
    obtain ⟨u, -, rfl⟩ := Array.mem_map.1 hv
    exact .wrapped hs.acc u
  exact stack_numbers (.zero _) (split_numbers (.zero _) hwrapped hsplit) hstack

/-- Without a product, the operations start from the accumulators as they stand. -/
theorem Valued.plain_has {o : Operands} (h : Valued p c roles b values) (hp : p.Contained c)
    (hg : p.gemm = none) (ho : plainOperands p c b roles values = .ok o) :
    ∀ v ∈ o.acc.data, c.acc.Has v := by
  obtain ⟨-, -, hadd⟩ := Program.roles_plain hg h.named
  unfold plainOperands at ho
  obtain ⟨t, ht, ho⟩ := Outcome.bind_eq_ok.1 ho
  have hfirst := ofMatrix_numbers (Scalar.Has.zero c.acc) (h.loaded hp hg (.inl rfl)) ht
  split at ho
  · obtain ⟨acc, hstack, ho⟩ := Outcome.bind_eq_ok.1 ho
    obtain rfl := Outcome.pure_eq_ok.1 ho
    exact stack_numbers (.zero _) hfirst hstack
  · rename_i hsecond
    simp only [Outcome.refused_eq_ok, Outcome.bind_eq_ok, Outcome.pure_eq_ok] at ho
    obtain ⟨-, u, hu, acc, hstack, rfl⟩ := ho
    have hadds : p.addsAccumulators = true := by
      by_contra hno
      rw [if_neg hno] at hadd
      exact hsecond hadd
    rw [if_pos hadds] at hadd
    have hsum := ofMatrix_numbers (Scalar.Has.zero c.acc)
      (h.loaded hp hg (.inr ⟨hadds, hadd⟩)) hu
    refine stack_numbers (.zero _) (fun k hk => ?_) hstack
    rcases List.mem_append.1 hk with hk | hk
    · exact hfirst k hk
    · exact hsum k hk

end Shaped

/-- **The accumulators stay in their type.** Before the operations they are numbers of it if
those that no product wraps are; after them as well, unless the type has eight bits and a
minimum or a maximum is taken with a number outside it. -/
theorem accumulators_contained {p : Program} {c : Config} {d : Shaped}
    (h : Shaped.build p c = .ok d) (hp : p.Contained c) :
    ∃ lo hi, c.acc.min = .ok lo ∧ c.acc.max = .ok hi ∧ (∀ v ∈ d.acc.data, lo ≤ v ∧ v ≤ hi) ∧
      ((c.acc.logWidth = 3 → ∀ imm dst,
          (.immediate .min imm dst ∈ p.alu → -128 ≤ imm) ∧
          (.immediate .max imm dst ∈ p.alu → imm ≤ 127)) →
        ∀ v ∈ d.final.data, lo ≤ v ∧ v ≤ hi) := by
  obtain ⟨roles, b, values, o, hv, ho, hfinish⟩ := Shaped.build_ok.1 h
  have hs := hv.sound
  have hacc : ∀ v ∈ o.acc.data, c.acc.Has v := by
    unfold Shaped.operandsOf at ho
    cases hg : p.gemm with
    | some g =>
      rw [hg] at ho
      obtain ⟨f, -, ho⟩ := Outcome.bind_eq_ok.1 ho
      exact f.operands_has hs ho
    | none =>
      rw [hg] at ho
      exact hv.plain_has hp hg ho
  unfold Shaped.finish at hfinish
  obtain ⟨ops, hops, hfinish⟩ := Outcome.bind_eq_ok.1 hfinish
  obtain ⟨final, hfinal, hfinish⟩ := Outcome.bind_eq_ok.1 hfinish
  obtain ⟨output, -, hfinish⟩ := Outcome.bind_eq_ok.1 hfinish
  obtain rfl := Outcome.pure_eq_ok.1 hfinish
  refine ⟨_, _, hs.acc.min, hs.acc.max, fun v hmem => ?_, fun himm v hmem => ?_⟩
  · have := hacc v hmem
    exact ⟨this.1, by have := this.2; omega⟩
  · have htakes : ∀ r ∈ ops, r.useImm = true → c.acc.Takes r.op r.imm := by
      intro r hr huse
      obtain ⟨i, hi⟩ := List.getElem?_of_mem hr
      obtain ⟨e, he, hresolve⟩ := resolve_getElem hops hi
      rcases resolve_immediate hresolve huse with ⟨dst, rfl⟩ | ⟨-, hzero⟩
      · have hmem := List.mem_of_getElem? he
        have hbits := checkImmediates_eq_ok (validate_checks hv.program).2.1 hmem
        refine immediate_takes hs.acc hbits (fun hop hlog => ?_) fun hop hlog => ?_
        · exact (himm hlog r.imm dst).1 (hop ▸ hmem)
        · exact (himm hlog r.imm dst).2 (hop ▸ hmem)
      · rw [hzero]
        exact (Scalar.Has.zero _).takes _
    have := runOps_has hs.acc htakes hacc hfinal v hmem
    exact ⟨this.1, by have := this.2; omega⟩

/-- Blocks of one number, and numbers of eight bits. -/
def Config.bytes : Config := ⟨3, 3, 3, 0, 15, 18, 17, 15⟩

/-- One operation on an accumulator of two numbers. -/
def Program.pair (data : Array Int) (e : AluEntry) : Program where
  name := ""
  matrices := [⟨"ACCUMULATOR", 2, 1, some ⟨2, 1, data⟩⟩]
  alu := [e]

theorem pair_shaped : (do
    let d ← Shaped.build (.pair #[100, 0] (.immediate .add 100 [0])) .bytes
    return d.acc.data = #[100, 0] ∧ d.final.data = #[-56, 0] : Outcome Bool) = .ok true := by
  decide +kernel

/-- A sum that leaves the type is wrapped into it. -/
theorem pair_contained : ∃ d,
    Shaped.build (.pair #[100, 0] (.immediate .add 100 [0])) .bytes = .ok d ∧
      (Program.pair #[100, 0] (.immediate .add 100 [0])).Contained .bytes ∧
      d.final.data = #[-56, 0] ∧ ∀ v ∈ d.final.data, -128 ≤ v ∧ v ≤ 127 := by
  obtain ⟨d, hd, h⟩ := Outcome.bind_eq_ok.1 pair_shaped
  obtain ⟨-, hfinal⟩ := of_decide_eq_true (Outcome.pure_eq_ok.1 h)
  have hp : (Program.pair #[100, 0] (.immediate .add 100 [0])).Contained .bytes := by
    constructor
    · rintro m ⟨-, hm, -⟩ x hx v hv
      obtain rfl := List.mem_singleton.1 hm
      obtain rfl := Option.some.inj hx
      have hall : ∀ v ∈ #[100, 0], Config.bytes.acc.contains v = .ok true := by decide
      exact hall v hv
    · rintro m ⟨-, hm, -⟩ -
      obtain rfl := List.mem_singleton.1 hm
      simp
  have hnone : ∀ imm dst,
      (.immediate .min imm dst ∈ (Program.pair #[100, 0] (.immediate .add 100 [0])).alu →
        -128 ≤ imm) ∧
      (.immediate .max imm dst ∈ (Program.pair #[100, 0] (.immediate .add 100 [0])).alu →
        imm ≤ 127) := by
    simp [Program.pair]
  obtain ⟨lo, hi, hlo, hhi, -, hin⟩ := accumulators_contained hd hp
  have hmin : Config.bytes.acc.min = .ok (-128) := by decide
  have hmax : Config.bytes.acc.max = .ok 127 := by decide
  obtain rfl := Except.ok.inj (hmin.symm.trans hlo)
  obtain rfl := Except.ok.inj (hmax.symm.trans hhi)
  exact ⟨d, hd, hp, hfinal, hin fun _ => hnone⟩

/-- **Numbers outside the type** that no product and no operation wraps. -/
theorem pair_outside : (do
    let d ← Shaped.build (.pair #[1000, 0] (.immediate .max 1000 [1])) .bytes
    return d.acc.data = #[1000, 0] ∧ d.final.data = #[1000, 1000] ∧
      Config.bytes.acc.max = .ok 127 : Outcome Bool) = .ok true := by
  decide +kernel

end Tessera
