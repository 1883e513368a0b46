import Tessera.Proofs.Allocation
import Tessera.Proofs.Lowerable
import Tessera.Proofs.Relocation
import Tessera.Proofs.Sittings

/-!
# Running what was compiled

A compiled program is run on the machine it was compiled for, with its tensors in memory.
If its schedule takes the vectors to their final values, and every vector that is stored
was computed, then the output region reads as it must.

* `compile_stages`, `compile_made`: the stages of a compilation.
* `Compiled.Made.runs`: the machine has all it needs.
* `Compiled.Made.executes`: what the output region reads in the end.
-/

namespace Tessera

/-- A compilation, stage by stage: the data and the schedule were placed and lowered, and
the code was moved to where its table stands. -/
structure Compiled.Made (r : Compiled) (c : Config) (caps : Capacities) (options : PlanOptions)
    (divisors : Divisors) (data : Memory) (code : Code) (table : Placed) : Prop where
  capacities : c.schedulingCapacities = .ok caps
  built : Shaped.build r.program c = .ok r.data
  planned : plan r.data caps options = .ok r.schedule
  checked : r.schedule.validate = .ok ()
  units : c.divisors = .ok divisors
  allocated : Layout.allocate (.empty r.program.baseAddress r.program.dramOffset divisors) r.data
    r.schedule = .ok (r.layout, data)
  lowered : lower r.schedule r.data r.layout = .ok code
  found : (∀ o ∈ data.placed, o.name ≠ "UOP") → r.memory.find? "UOP" = some table
  reach : ∀ i ∈ code.instructions, i.outOfReach table.logical = false
  code_eq : r.code = { code with instructions := code.instructions.map (·.rebase table.logical) }

/-- **The stages of a compilation**, with room behind the data for the table. -/
theorem compile_stages {c : Config} {options : PlanOptions} {p : Program} {r : Compiled}
    (h : compile c options p = .ok r) :
    r.program = p ∧ ∃ caps divisors data code table, r.Made c caps options divisors data code table ∧
      ∃ m, data.reserve "UOP" .uop (wrap64 (code.microOps.length * microOpBytes)) = (.ok table, m) := by
  rw [compile_eq] at h
  obtain ⟨⟨⟩, -, h⟩ := Outcome.bind_eq_ok.1 h
  obtain ⟨caps, hcaps, h⟩ := Outcome.bind_eq_ok.1 h
  obtain ⟨line, -, h⟩ := Outcome.bind_eq_ok.1 h
  obtain ⟨d, hd, h⟩ := Outcome.bind_eq_ok.1 h
  obtain ⟨s, hs, h⟩ := Outcome.bind_eq_ok.1 h
  obtain ⟨⟨⟩, hvalid, h⟩ := Outcome.bind_eq_ok.1 h
  obtain ⟨divisors, hdivisors, h⟩ := Outcome.bind_eq_ok.1 h
  obtain ⟨⟨l, m⟩, hl, h⟩ := Outcome.bind_eq_ok.1 h
  obtain ⟨code, hcode, h⟩ := Outcome.bind_eq_ok.1 h
  obtain ⟨⟨code', m'⟩, hplace, h⟩ := Outcome.bind_eq_ok.1 h
  obtain rfl := Outcome.pure_eq_ok.1 h
  unfold placeCode at hplace
  obtain ⟨⟨table, m1⟩, h1, hplace⟩ := Outcome.bind_eq_ok.1 hplace
  obtain ⟨⟨insn, m2⟩, h2, hplace⟩ := Outcome.bind_eq_ok.1 hplace
  obtain ⟨⟨⟩, hmoved, hplace⟩ := Outcome.bind_eq_ok.1 hplace
  obtain ⟨⟨⟩, -, hplace⟩ := Outcome.bind_eq_ok.1 hplace
  obtain ⟨rfl, rfl⟩ := Prod.mk.inj (Outcome.pure_eq_ok.1 hplace)
  obtain ⟨hreach, heq⟩ := Code.relocate_eq_ok (Outcome.within_eq_ok.1 hmoved)
  have htable := Memory.granted_eq_ok.1 (Outcome.within_eq_ok.1 h1)
  obtain ⟨rfl, hname1, -⟩ := Memory.reserve_eq_ok htable
  obtain ⟨rfl, -⟩ := Memory.reserve_eq_ok (Memory.granted_eq_ok.1 (Outcome.within_eq_ok.1 h2))
  refine ⟨rfl, caps, divisors, m, code, table, ⟨hcaps, Outcome.within_eq_ok.1 hd,
    Outcome.within_eq_ok.1 hs, Outcome.within_eq_ok.1 hvalid, hdivisors, Outcome.within_eq_ok.1 hl,
    Outcome.within_eq_ok.1 hcode, fun hnames => ?_, hreach, heq⟩, _, htable⟩
  -- the table is the first object of its name
  show (insn :: table :: m.placed).reverse.find? (·.name = "UOP") = some table
  rw [List.reverse_cons, List.reverse_cons, List.append_assoc,
    List.find?_append, List.find?_eq_none.2 fun o ho => by
      simpa using hnames o (List.mem_reverse.1 ho)]
  simp [hname1]

/-- What each stage of a compilation made. -/
theorem compile_made {c : Config} {options : PlanOptions} {p : Program} {r : Compiled}
    (h : compile c options p = .ok r) :
    r.program = p ∧ ∃ caps divisors data code table,
      r.Made c caps options divisors data code table := by
  obtain ⟨hp, caps, divisors, data, code, table, hmade, -⟩ := compile_stages h
  exact ⟨hp, caps, divisors, data, code, table, hmade⟩

section Operands

variable {d : Shaped} {p : Program} {c : Config} {b xr xc : Nat}

/-- The blocks of a regular tensor have between one and `b` rows. -/
theorem Tensor.Regular.block_shape {t : Tensor} {br bc : Nat} (h : t.Regular b br bc) :
    ∀ k ∈ t.blocks.toList, 0 ≤ k.height ∧ k.height ≤ b ∧ k.data.size = k.height.toNat * b := by
  intro k hk
  obtain ⟨n, hn⟩ := List.getElem?_of_mem hk
  have hlt : n < br * bc := by
    have := (List.getElem?_eq_some_iff.1 hn).1
    rwa [Array.length_toList, h.size] at this
  have hblock := h.block n k (by simpa using hn)
  have hdiv : n / bc < br := Nat.div_lt_of_lt_mul (by rwa [Nat.mul_comm] at hlt)
  have hle := row_room b (show n / bc < br by omega)
  have hgt := h.rows_gt
  have hheight := hblock.height
  have h0 : 0 ≤ k.height := by omega
  refine ⟨h0, by omega, ?_⟩
  have hsize := hblock.size
  rw [← Int.toNat_of_nonneg h0] at hsize
  exact_mod_cast hsize

namespace Shaped.Formed

/-- The bytes of every tensor can be written. -/
theorem writable (h : d.Formed c b xr xc) (hcommon : d.Common p c b xr xc) (hsound : c.Sound b)
    {t : Tensor} (ht : d.a = some t ∨ d.w = some t ∨ d.x = t ∨ d.y = some t) : t.Writable b := by
  have hs := (h.tensor hcommon hsound ht).1
  rcases ht with ht | ht | rfl | ht
  · obtain ⟨br, bc, hreg, hrole, -⟩ := h.inp ht
    exact ⟨hreg.side, hs, fun k _ hw => by rw [hrole] at hw; cases hw⟩
  · obtain ⟨hb, -, -, hfull, -⟩ := h.wgt hsound ht
    exact ⟨hb, hs, fun k hk _ => hfull k hk⟩
  · exact ⟨hcommon.x_regular.side, hs, fun k _ hw => by rw [hcommon.x_role] at hw; cases hw⟩
  · obtain ⟨hreg, -, hrole, -⟩ := h.accBis ht
    exact ⟨hreg.side, hs, fun k _ hw => by rw [hrole] at hw; cases hw⟩

end Shaped.Formed

end Operands

namespace Layout.Laid

variable {l : Layout} {d : Shaped} {s : Schedule} {b : Nat} {m m' : Memory}

/-- The operands stand in the objects of the layout, in order, and the output behind
them. -/
theorem operands_objects (h : l.Laid d s b m m') :
    (l.operands d).map Prod.snd ++ l.out.toList = l.objects := by
  obtain ⟨out, hout, -⟩ := h.out
  unfold Layout.operands Layout.objects
  rcases h.inp with ⟨h1, h1'⟩ | ⟨t1, o1, h1, h1', -⟩ <;>
  rcases h.wgt with ⟨h2, h2'⟩ | ⟨t2, o2, h2, h2', -⟩ <;>
  rcases h.acc with ⟨h3, h3'⟩ | ⟨t3, o3, h3, h3', -⟩ <;>
  rcases h.accBis with ⟨h4, h4'⟩ | ⟨t4, o4, h4, h4', -⟩ <;>
  simp [h1, h1', h2, h2', h3', h4, h4', housedPair] at h3 ⊢

/-- **The operands and the output share no byte.** -/
theorem apart (h : l.Laid d s b m m') {out : Placed} (hout : l.out = some out) :
    ((l.operands d).Pairwise fun q q' => q.2.Apart q'.2) ∧
      ∀ q ∈ l.operands d, q.2.Apart out ∧ out.Apart q.2 := by
  obtain ⟨hi, hlt, hgrows⟩ := h.grows
  have hall := hgrows.spread.apart (by omega)
  rw [← h.operands_objects, hout, List.pairwise_append] at hall
  obtain ⟨hops, -, hcross⟩ := hall
  refine ⟨(List.pairwise_map.1 hops).imp fun hq => hq.1, fun q hq => ?_⟩
  exact hcross q.2 (List.mem_map.2 ⟨q, hq, rfl⟩) out (by simp)

/-- An operand is a tensor of the program that stands in its object. -/
theorem operand (h : l.Laid d s b m m') {q : Tensor × Placed} (hq : q ∈ l.operands d) :
    (d.a = some q.1 ∨ d.w = some q.1 ∨ d.x = q.1 ∨ d.y = some q.1) ∧
      ∃ divisor, q.1.Stands q.2 m.origin divisor := by
  have hpair : ∀ {t : Option Tensor} {o : Option Placed} {divisor : UInt64},
      Tensor.Housed m.origin divisor t o → housedPair (t, o) = some q →
        t = some q.1 ∧ q.1.Stands q.2 m.origin divisor := by
    rintro t o divisor (⟨rfl, rfl⟩ | ⟨t', o', rfl, rfl, hstands⟩) hsome
    · cases hsome
    · cases hsome
      exact ⟨rfl, hstands⟩
  obtain ⟨⟨t, o⟩, hmem, hsome⟩ := List.mem_filterMap.1 hq
  simp only [List.mem_cons, List.not_mem_nil, or_false, Prod.mk.injEq] at hmem
  rcases hmem with ⟨rfl, rfl⟩ | ⟨rfl, rfl⟩ | ⟨rfl, rfl⟩ | ⟨rfl, rfl⟩
  · obtain ⟨ht, hst⟩ := hpair h.inp hsome
    exact ⟨Or.inl ht, _, hst⟩
  · obtain ⟨ht, hst⟩ := hpair h.wgt hsome
    exact ⟨Or.inr (Or.inl ht), _, hst⟩
  · obtain ⟨ht, hst⟩ := hpair h.acc hsome
    exact ⟨Or.inr (Or.inr (Or.inl (Option.some.inj ht))), _, hst⟩
  · obtain ⟨ht, hst⟩ := hpair h.accBis hsome
    exact ⟨Or.inr (Or.inr (Or.inr ht)), _, hst⟩

end Layout.Laid

instance (t : Tensor) : Decidable t.Fits := inferInstanceAs (Decidable (∀ _ ∈ _, ∀ _ ∈ _, _))

/-- Every number of every operand is one of its type. -/
def Shaped.Fits (d : Shaped) : Prop :=
  ∀ t, d.a = some t ∨ d.w = some t ∨ d.x = t ∨ d.y = some t → t.Fits

instance (d : Shaped) : Decidable d.Fits :=
  decidable_of_iff (∀ t ∈ d.a.toList ++ d.w.toList ++ d.x :: d.y.toList, t.Fits) (by
    unfold Shaped.Fits
    simp only [List.mem_append, List.mem_cons, Option.mem_toList, or_assoc]
    grind)

/-- The machine of a configuration for a program, with its table at `base`. -/
def Config.machine (c : Config) (b : Nat) (divisors : Divisors) (p : Program)
    (table : List MicroOp) (base : UInt64) : Machine where
  inp := c.inp
  wgt := c.wgt
  acc := c.acc
  out := c.out
  b
  divisors
  origin := p.dramOffset
  clip := p.clip
  table
  base

theorem Tensor.Housed.stands {origin divisor : UInt64} {t : Tensor} {o : Placed}
    (h : Tensor.Housed origin divisor (some t) (some o)) : t.Stands o origin divisor := by
  obtain ⟨h, -⟩ | ⟨t', o', ht, ho, hstands⟩ := h
  · cases h
  · cases ht
    cases ho
    exact hstands

/-- Memory that holds a regular tensor reads as its blocks, row by row. -/
theorem Tensor.Regular.readsRows {m : Machine} {mem : UInt64 → UInt8} {part : Machine.Data}
    {t : Tensor} {o : Placed} {size : Int} {br bc : Nat} (h : t.Regular m.b br bc) (hb : 1 ≤ m.b)
    (hb' : m.b ≤ 64) (hstands : t.Stands o m.origin (UInt64.ofInt size))
    (hread : ∀ u, m.unitRow mem part (some u) =
      Machine.numbers mem t.scalar m.b (m.address size u))
    (hsize : size = (m.b * t.scalar.width : Nat)) (hw : t.Writable m.b) (hfit : t.Fits)
    (hrole : t.role ≠ .wgt) (hmem : HoldsBytes mem o.physical (t.content m.b)) :
    m.ReadsRows mem part o t := by
  have hfew := h.blocks_small hb
  unfold Tensor.size at hfew
  refine hstands.readsRows hread ?_ hb hb' hw hfit hrole (by omega) h.block_shape hmem
  rw [hsize]
  exact ofInt_natCast64 _

namespace Layout.Laid

variable {d : Shaped} {p : Program} {c : Config} {s : Schedule} {l : Layout} {b xr xc : Nat}
  {divisors : Divisors} {base : UInt64} {m : Memory} {mem : UInt64 → UInt8} {table : List MicroOp}

/-- The object of an operand has room for its bytes, and no more. -/
theorem fitted {m₀ : Memory} (h : l.Laid d s b m₀ m) (hsound : c.Sound b)
    (hcommon : d.Common p c b xr xc) (hformed : d.Formed c b xr xc) :
    ∀ q ∈ l.operands d, Placed.Fitted b q := by
  intro q hq
  obtain ⟨ht, divisor, hstands⟩ := h.operand hq
  have hsmall := (hformed.tensor hcommon hsound ht).2
  unfold Placed.Fitted
  rw [Tensor.length_content (hformed.writable hcommon hsound ht), hstands.size,
    UInt64.toNat_ofNat_of_lt' (by norm_num [UInt64.size]; omega)]

/-- **Memory that holds the operands serves the program.** -/
theorem serves (h : l.Laid d s b (.empty base p.dramOffset divisors) m) (hsound : c.Sound b)
    (hcommon : d.Common p c b xr xc) (hformed : d.Formed c b xr xc)
    (hdivisors : c.divisors = .ok divisors) (hfits : d.Fits) {acc out : Placed}
    (hacc : l.acc = some acc)
    (hmem : ∀ q ∈ l.operands d, HoldsBytes mem q.2.physical (q.1.content b)) :
    Lowering.Serves { schedule := s, data := d, layout := l, acc, out }
      (c.machine b divisors p table 0) mem := by
  rw [hsound.divisors_eq] at hdivisors
  obtain rfl := Except.ok.inj hdivisors
  have hb := hsound.pos
  have hb' := hsound.le
  have hholds : ∀ {t : Tensor} {o : Placed}, (d.a = some t ∧ l.inp = some o) ∨
      (d.w = some t ∧ l.wgt = some o) ∨ (d.x = t ∧ l.acc = some o) ∨
      (d.y = some t ∧ l.accBis = some o) → HoldsBytes mem o.physical (t.content b) := by
    intro t o hq
    refine hmem (t, o) (List.mem_filterMap.2 ?_)
    rcases hq with ⟨h1, h2⟩ | ⟨h1, h2⟩ | ⟨h1, h2⟩ | ⟨h1, h2⟩
    · exact ⟨(d.a, l.inp), by simp, by rw [h1, h2]; rfl⟩
    · exact ⟨(d.w, l.wgt), by simp, by rw [h1, h2]; rfl⟩
    · exact ⟨(some d.x, l.acc), by simp, by rw [h1, h2]; rfl⟩
    · exact ⟨(d.y, l.accBis), by simp, by rw [h1, h2]; rfl⟩
  constructor
  case inp =>
    intro o t ho ht
    obtain ⟨br, bc, hreg, hrole, hscalar⟩ := hformed.inp ht
    have hhoused := h.inp
    rw [ht, ho] at hhoused
    exact hreg.readsRows (m := c.machine b _ p table 0) hb hb' hhoused.stands
      (fun u => by rw [hscalar]; rfl) (by rw [hscalar]; rfl)
      (hformed.writable hcommon hsound (Or.inl ht)) (hfits t (Or.inl ht)) (by rw [hrole]; decide)
      (hholds (Or.inl ⟨ht, ho⟩))
  case wgt =>
    intro o ho
    have hhoused := h.wgt
    cases ht : d.w with
    | none =>
      rw [ht, ho] at hhoused
      obtain ⟨-, hnone⟩ | ⟨t, o', hsome, -⟩ := hhoused
      · cases hnone
      · cases hsome
    | some t =>
      obtain ⟨-, hrole, hscalar, -, hfew⟩ := hformed.wgt hsound ht
      rw [ht, ho] at hhoused
      exact hhoused.stands.readsColumns (m := c.machine b _ p table 0) rfl hscalar hb hb'
        (hformed.writable hcommon hsound (Or.inr (Or.inl ht))) (hfits t (Or.inr (Or.inl ht))) hrole
        (by unfold Tensor.size at hfew; omega) (hholds (Or.inr (Or.inl ⟨ht, ho⟩)))
  case acc =>
    have hhoused := h.acc
    rw [hacc] at hhoused
    exact hcommon.x_regular.readsRows (m := c.machine b _ p table 0) hb hb' hhoused.stands
      (fun u => by rw [hcommon.x_scalar]; rfl) (by rw [hcommon.x_scalar]; rfl)
      (hformed.writable hcommon hsound (Or.inr (Or.inr (Or.inl rfl))))
      (hfits d.x (Or.inr (Or.inr (Or.inl rfl)))) (by rw [hcommon.x_role]; decide)
      (hholds (Or.inr (Or.inr (Or.inl ⟨rfl, hacc⟩))))
  case accBis =>
    intro o t ho ht
    obtain ⟨hreg, -, hrole, hscalar⟩ := hformed.accBis ht
    have hhoused := h.accBis
    rw [ht, ho] at hhoused
    exact hreg.readsRows (m := c.machine b _ p table 0) hb hb' hhoused.stands
      (fun u => by rw [hscalar]; rfl) (by rw [hscalar]; rfl)
      (hformed.writable hcommon hsound (Or.inr (Or.inr (Or.inr ht))))
      (hfits t (Or.inr (Or.inr (Or.inr ht)))) (by rw [hrole]; decide)
      (hholds (Or.inr (Or.inr (Or.inr ⟨ht, ho⟩))))

variable (table) in
/-- The units of the output region. -/
theorem region (h : l.Laid d s b (.empty base p.dramOffset divisors) m) (hsound : c.Sound b)
    (hcommon : d.Common p c b xr xc) (hdivisors : c.divisors = .ok divisors) {out : Placed}
    (hout : l.out = some out) :
    (c.machine b divisors p table 0).Region out d.c ∧
      out.Receives p.dramOffset (UInt64.ofNat (b * c.out.width)) b (b * c.out.width) (s.units d b) ∧
      (s.storeGrain = .block → out.blocks.size = d.c.blocks.size) := by
  rw [hsound.divisors_eq] at hdivisors
  obtain rfl := Except.ok.inj hdivisors
  obtain ⟨out', hout', hrec, hblocks⟩ := h.out
  rw [hout] at hout'
  cases hout'
  obtain ⟨hscalar, hsize, -⟩ := hcommon.output_blocks hsound
  have hunit : Memory.divisor (.empty base p.dramOffset ⟨(b * c.inp.width : Nat),
      (b * b * c.wgt.width : Nat), (b * c.acc.width : Nat), (b * c.inp.width : Nat), 4, 16⟩) .out =
      UInt64.ofNat (b * c.out.width) := ofInt_natCast64 _
  rw [hscalar, hunit] at hrec
  obtain ⟨-, -, -, hfew⟩ := hcommon.sizes hsound.pos
  have hle : xr * xc ≤ xr * xc * b := Nat.le_mul_of_pos_right _ hsound.pos
  exact ⟨⟨ofInt_natCast64 _, hrec.start, hrec.block, by omega, fun k hk =>
    (hcommon.output_full hsound k hk).1⟩, hrec, hblocks⟩

end Layout.Laid

section Steps

variable {d : Shaped} {p : Program} {c : Config} {b xr xc : Nat} {caps : Capacities}
  {options : PlanOptions} {s : Schedule}

/-- The numbers in a proper step are numbers of the program. -/
theorem Step.Proper.drawn {st : Step} (h : st.Proper d caps) (hb : 1 ≤ b)
    (hcommon : d.Common p c b xr xc) : st.DrawnFrom d := by
  obtain ⟨hX, hV, hle, hsmall⟩ := hcommon.sizes hb
  have hunits : st.units d ≤ 35184372088832 := by
    unfold Step.units
    split <;> omega
  constructor
  case alu =>
    intro r sites hop
    obtain ⟨hr, hsites⟩ := h.alu r sites hop
    exact ⟨hr, fun s hs => (hsites s hs).1⟩
  case gemm =>
    intro c a w hop
    obtain ⟨hgrain, ⟨h0, -⟩, -⟩ := h.gemm c a w hop
    exact ⟨hgrain, h0⟩
  case resident =>
    intro n hn
    have := h.resident n hn
    omega
  case loadX =>
    intro n hn
    obtain ⟨-, h0, hlt⟩ := h.loadX n hn
    omega
  case loadY =>
    intro n hn
    obtain ⟨-, h0, hlt⟩ := h.loadY n hn
    omega
  case second =>
    intro hgrain
    by_contra hne
    rw [(h.second hne).1] at hgrain
    cases hgrain
  case store =>
    intro v hv
    obtain ⟨h0, hstore⟩ := h.store v hv
    split at hstore <;> omega
  case grain => exact h.grain

/-- The steps of a plan, with their stores on record, are proper. -/
theorem plan_steps_proper (hb : 1 ≤ b) (hcommon : d.Common p c b xr xc) (hformed : d.Formed c b xr xc)
    (hcaps : caps.Within b) (hs : plan d caps options = .ok s) :
    ∀ st ∈ s.steps, st.Proper d caps := by
  intro st hst
  obtain ⟨steps, hrec, hproper, -⟩ := plan_proper hb hcommon hformed hcaps hs
  rw [hrec, recordStores_eq] at hst
  obtain ⟨t, ht, _, rfl⟩ := mem_withStores hst
  exact { hproper t ht with }

/-- **The steps of a plan can be run as their replay says.** -/
theorem plan_sound (hb : 1 ≤ b) (hcommon : d.Common p c b xr xc) (hformed : d.Formed c b xr xc)
    (hcaps : caps.Within b) (hs : plan d caps options = .ok s) (hvalid : s.validate = .ok ()) :
    ∀ st ∈ s.steps, st.Sound d c.acc b := by
  intro st hst
  obtain ⟨-, -, -, hside, hnX, hsame⟩ := plan_proper hb hcommon hformed hcaps hs
  have hchecked := validate_checked hvalid st hst
  rw [hside, hcommon.side, hnX, hsame] at hchecked
  exact sound_of_checked hb hcommon hcaps hchecked
    ((plan_steps_proper hb hcommon hformed hcaps hs st hst).drawn hb hcommon)

theorem idxOf?_append_of_mem {xs : List Int} (ys : List Int) {v : Int} (h : v ∈ xs) :
    (xs ++ ys).idxOf? v = xs.idxOf? v := by
  obtain ⟨i, hi⟩ := exists_idxOf? h
  unfold List.idxOf? at hi ⊢
  rw [List.findIdx?_append, hi]
  rfl

/-- **What a step stores stands where it will be found in the end.** -/
theorem recorded_positioned {steps : List Step} (hrec : s.steps = recordStores steps)
    (hgrain : ∀ st ∈ s.steps, st.storeGrain = s.storeGrain) :
    Emission.Positioned d s.position s.steps := by
  intro st hst v hv
  have hsame := hgrain st hst
  unfold Step.position Schedule.position
  rw [hsame]
  cases hg : s.storeGrain with
  | block => rfl
  | vector =>
    rw [hg] at hsame
    rw [Step.stores, hsame] at hv
    have hmem := store_recorded (hrec ▸ hst) hv
    -- what was stored up to the step is a first part of what is stored in the end
    rw [hrec, recordStores_eq] at hst
    obtain ⟨n, hn⟩ := List.getElem?_of_mem hst
    obtain ⟨t, -, rfl⟩ := withStores_getElem hn
    rw [stored_recordStores hrec]
    conv_rhs => rw [← List.take_append_drop (n + 1) steps, List.flatMap_append]
    rw [List.nil_append] at hmem ⊢
    rw [idxOf?_append_of_mem _ hmem]

theorem stored_eq_steps {steps : List Step} (hrec : s.steps = recordStores steps) :
    s.stored = s.steps.flatMap (·.store) := by
  rw [stored_recordStores hrec, hrec, recordStores_eq,
    withStores_flatMap (fun st => st.store) (fun _ _ => rfl)]

/-- The vectors that a schedule stores are those of its steps. -/
theorem storedVectors_recorded {steps : List Step} (hrec : s.steps = recordStores steps)
    (hgrain : ∀ st ∈ s.steps, st.storeGrain = s.storeGrain) :
    s.storedVectors d = s.steps.flatMap (Step.stores d) := by
  unfold Schedule.storedVectors
  rw [stored_eq_steps hrec]
  cases hg : s.storeGrain with
  | vector =>
    refine List.flatMap_congr fun st hst => ?_
    rw [Step.stores, hgrain st hst, hg]
  | block =>
    simp only
    rw [vectorsOf, List.flatMap_assoc]
    refine List.flatMap_congr fun st hst => ?_
    rw [Step.stores, hgrain st hst, hg]
    rfl

/-- What a plan stores is in the output region. -/
theorem plan_stores_inside (hsound : c.Sound b) (hcommon : d.Common p c b xr xc)
    (hformed : d.Formed c b xr xc) (hcaps : caps.Within b) (hs : plan d caps options = .ok s) :
    s.StoresInside d b := by
  obtain ⟨steps, hrec, -⟩ := plan_proper hsound.pos hcommon hformed hcaps hs
  obtain ⟨hgrain, hperm⟩ := plan_grain hsound.pos hcommon hformed hs
  obtain ⟨hX, -, -, -⟩ := hcommon.sizes hsound.pos
  obtain ⟨-, hsize, -⟩ := hcommon.output_blocks hsound
  refine ⟨fun hg n hn => ?_, fun hg => ?_⟩
  · rw [stored_eq_steps hrec] at hn
    obtain ⟨st, hst, hn⟩ := List.mem_flatMap.1 hn
    obtain ⟨h0, hlt⟩ := (plan_steps_proper hsound.pos hcommon hformed hcaps hs st hst).store n hn
    rw [hgrain st hst, hg] at hlt
    rw [hsize]
    have := hlt.1
    omega
  · have hperm := hperm hg
    refine ⟨hperm.nodup_iff.2 ?_, fun v hv => ?_⟩
    · rw [hcommon.mask]
      exact nodup_resultVectors _ _ _
    · have := hcommon.mask_range (hperm.subset hv)
      rw [hsize]
      omega

/-- The place of a vector that is stored. -/
theorem Schedule.StoresInside.position_lt (h : s.StoresInside d b) (hside : d.b = b) {v : Int}
    (hv : v ∈ s.storedVectors d) : s.position v < s.units d b := by
  unfold Schedule.storedVectors at hv
  unfold Schedule.position Schedule.units
  cases hg : s.storeGrain with
  | vector =>
    rw [hg] at hv
    obtain ⟨i, hi⟩ := exists_idxOf? hv
    simp only [hi, Option.getD_some]
    exact idxOf?_lt hi
  | block =>
    rw [hg] at hv
    obtain ⟨n, hn, hv⟩ := List.mem_flatMap.1 hv
    obtain ⟨r, hr, rfl⟩ := List.mem_map.1 hv
    obtain ⟨h0, hlt⟩ := h.block hg n hn
    rw [hside] at hr ⊢
    have hr := mem_below.1 hr
    have hle := row_room b (show n.toNat < d.c.blocks.size by omega)
    have hcast : n * b = (n.toNat * b : Nat) := by
      push_cast
      rw [Int.toNat_of_nonneg h0]
    simp only
    omega

end Steps

/-- Cells are known by their vectors and their rows. -/
theorem cells_eq {cells : List (Int × Row)} {vs : List Int} {final : Int → Row}
    (hfst : cells.map Prod.fst = vs) (hsnd : cells.map Prod.snd = vs.map final) :
    cells = vs.map fun v => (v, final v) := by
  subst hfst
  rw [List.map_map] at hsnd ⊢
  conv_lhs => rw [← List.map_id cells]
  refine List.map_congr_left fun q hq => ?_
  exact Prod.ext rfl (List.map_inj_left.1 hsnd q hq)

section Run

variable {r : Compiled} {c : Config} {caps : Capacities} {options : PlanOptions} {divisors : Divisors}
  {data : Memory} {code : Code} {table : Placed} {b xr xc : Nat}

namespace Compiled.Made

/-- The operands and the output were placed. -/
theorem laid (h : r.Made c caps options divisors data code table) (hsound : c.Sound b)
    (hcommon : r.data.Common r.program c b xr xc) (hformed : r.data.Formed c b xr xc) :
    r.layout.Laid r.data r.schedule b
      (.empty r.program.baseAddress r.program.dramOffset divisors) data :=
  allocate_laid h.allocated (hsound.divisor_le h.units) (planned_placeable hcommon hformed hsound
    (plan_grain hsound.pos hcommon hformed h.planned).2)

/-- The machine that a compiled program runs on. -/
theorem machine_eq (h : r.Made c caps options divisors data code table) (hsound : c.Sound b)
    (hlaid : r.layout.Laid r.data r.schedule b
      (.empty r.program.baseAddress r.program.dramOffset divisors) data) :
    r.machine c = .ok (c.machine b divisors r.program r.code.microOps table.logical) := by
  obtain ⟨hi, -, hgrows⟩ := hlaid.grows
  have hfound := h.found fun o ho => (hgrows.names o ho).resolve_left (by simp [Memory.empty])
  exact Outcome.bind_ok (Outcome.ofOption_eq_ok.2 hfound) (Outcome.bind_ok hsound.block
    (Outcome.bind_ok h.units (by rw [Int.toNat_natCast]; rfl)))

/-- The memory before the run. -/
theorem image_eq (hsound : c.Sound b) (hcommon : r.data.Common r.program c b xr xc)
    (hformed : r.data.Formed c b xr xc) {m₀ : Memory}
    (hlaid : r.layout.Laid r.data r.schedule b m₀ data) :
    r.image = .ok (written b (r.layout.operands r.data) fun _ => 0) := by
  have hhoused : ∀ {origin divisor : UInt64} {t : Option Tensor} {o : Option Placed},
      Tensor.Housed origin divisor t o → ∀ t', t = some t' → ∃ o', o = some o' := by
    rintro origin divisor t o (⟨rfl, -⟩ | ⟨t', o', rfl, rfl, -⟩) t'' ht
    · cases ht
    · exact ⟨o', rfl⟩
  refine Tessera.image_eq hsound.pos hsound.le fun q hq t ht => ?_
  simp only [List.mem_cons, List.not_mem_nil, or_false] at hq
  rcases hq with rfl | rfl | rfl | rfl
  · exact ⟨hformed.writable hcommon hsound (Or.inl ht), hhoused hlaid.inp t ht⟩
  · exact ⟨hformed.writable hcommon hsound (Or.inr (Or.inl ht)), hhoused hlaid.wgt t ht⟩
  · exact ⟨hformed.writable hcommon hsound (Or.inr (Or.inr (Or.inl (Option.some.inj ht)))),
      hhoused hlaid.acc t ht⟩
  · exact ⟨hformed.writable hcommon hsound (Or.inr (Or.inr (Or.inr ht))), hhoused hlaid.accBis t ht⟩

/-- The result as the machine's output holds it. -/
theorem produces (hsound : c.Sound b) (hcommon : r.data.Common r.program c b xr xc)
    (table : List MicroOp) (base : UInt64) :
    (c.machine b divisors r.program table base).Produces r.data (rowsOf r.data.final.data b) := by
  obtain ⟨hscalar, hsize, hblock⟩ := hcommon.output_blocks hsound
  obtain ⟨-, -, -, hsmall⟩ := hcommon.sizes hsound.pos
  refine ⟨hcommon.side, hsound.pos, hsound.le, hsound.out, hscalar, ?_, hblock,
    fun v => length_rowsOf _ _ _⟩
  rw [hsize]
  exact lt_of_le_of_lt hsmall (by norm_num)

/-- **The machine has all it needs** to run the code of a plan, from any memory that holds
the operands. -/
theorem runs (h : r.Made c caps options divisors data code table) (hsound : c.Sound b)
    (hcommon : r.data.Common r.program c b xr xc) (hformed : r.data.Formed c b xr xc)
    (hfits : r.data.Fits) (hsupplied : SuppliedFrom [] r.schedule.steps) {acc out : Placed}
    (hacc : r.layout.acc = some acc) (hout : r.layout.out = some out) :
    Lowering.Runs { schedule := r.schedule, data := r.data, layout := r.layout, acc, out }
      (c.machine b divisors r.program r.code.microOps 0) r.schedule.position
      fun mem => ∀ q ∈ r.layout.operands r.data, HoldsBytes mem q.2.physical (q.1.content b) := by
  have hlaid := h.laid hsound hcommon hformed
  have hwithin := build_within h.built hsound h.capacities
  obtain ⟨steps, hrec, -, -, hnX, -⟩ := plan_proper hsound.pos hcommon hformed hwithin h.planned
  obtain ⟨hgrain, hperm⟩ := plan_grain hsound.pos hcommon hformed h.planned
  have hinside := plan_stores_inside hsound hcommon hformed hwithin h.planned
  obtain ⟨hregion, hrec', -⟩ := hlaid.region r.code.microOps hsound hcommon h.units hout
  have hunits := hcommon.units_small hsound hperm
  rw [(hcommon.output_blocks hsound).1] at hunits
  refine ⟨⟨hcommon.side, hsound.pos, hsound.le, hsound.acc, hsound.out, rfl, hacc, hnX,
    hcommon.x_regular.full_blocks hcommon.x_rows⟩, hregion,
    plan_sound hsound.pos hcommon hformed hwithin h.planned h.checked, hsupplied,
    recorded_positioned hrec hgrain, ⟨fun mem hmem => ?_, fun cells mem hcells hmem q hq => ?_⟩⟩
  · exact hlaid.serves hsound hcommon hformed h.units hfits hacc hmem
  · have hfit := hlaid.fitted hsound hcommon hformed q hq
    unfold Placed.Fitted at hfit
    have hroom : r.schedule.units r.data b * (b * c.out.width) ≤ out.size.toNat := by
      rw [hrec'.size, UInt64.toNat_ofNat_of_lt' (by norm_num [UInt64.size]; omega)]
    refine (hmem q hq).deposit (by omega) ((hlaid.apart hout).2 q hq).1 hsound.out hroom
      fun cell hcell => ⟨?_, (hcells cell hcell).2⟩
    · refine hinside.position_lt hcommon.side ?_
      rw [storedVectors_recorded hrec hgrain]
      exact (hcells cell hcell).1

/-- **A compiled program leaves the output that is expected**, if its schedule takes the
vectors to their final values and every vector that it stores was written. -/
theorem executes (h : r.Made c caps options divisors data code table) (hsound : c.Sound b)
    (hcommon : r.data.Common r.program c b xr xc) (hformed : r.data.Formed c b xr xc)
    (hfits : r.data.Fits) (hfew : r.code.microOps.length < 4294967296)
    (hsim : Simulates r.data c.acc r.schedule.steps (rowsOf r.data.final.data b))
    (hwritten : ∀ v ∈ r.schedule.steps.flatMap (Step.stores r.data),
      ∃ a ∈ r.schedule.steps.flatMap (Step.actions r.data c.acc), a.dst = v)
    (hsupplied : SuppliedFrom [] r.schedule.steps) :
    ∃ bytes, r.execute c = .ok bytes ∧ r.expectedOut = .ok bytes := by
  have hlaid := h.laid hsound hcommon hformed
  have hwithin := build_within h.built hsound h.capacities
  obtain ⟨steps, hrec, -⟩ := plan_proper hsound.pos hcommon hformed hwithin h.planned
  obtain ⟨hgrain, hperm⟩ := plan_grain hsound.pos hcommon hformed h.planned
  have hinside := plan_stores_inside hsound hcommon hformed hwithin h.planned
  have hunits := hcommon.units_small hsound hperm
  rw [(hcommon.output_blocks hsound).1] at hunits
  obtain ⟨acc, hacc⟩ := hlaid.acc_some
  obtain ⟨out, hout, -⟩ := hlaid.out
  obtain ⟨-, hrec', hblocks⟩ := hlaid.region r.code.microOps hsound hcommon h.units hout
  have htable : r.code.microOps = code.microOps := by rw [h.code_eq]
  -- the run, as the replay of the schedule
  obtain ⟨ρ, copies, hrun, -, hcopies, hfinal⟩ := hsim.stored (Rows.blank b)
  obtain ⟨s, cells, hs, hfst, hsnd, hmem⟩ := lower_exec hout
    (h.runs hsound hcommon hformed hfits hsupplied hacc hout) h.lowered htable (htable ▸ hfew)
    (written_holds (hlaid.fitted hsound hcommon hformed) (hlaid.apart hout).1 fun _ => 0) hrun
  have hcells : cells = r.finalCells (rowsOf r.data.final.data b) := by
    rw [Compiled.finalCells, storedVectors_recorded hrec hgrain]
    refine cells_eq hfst ?_
    rw [hsnd, hcopies, hfinal hwritten]
    rfl
  have hrebased : (c.machine b divisors r.program r.code.microOps table.logical).run
      r.code.instructions ((c.machine b divisors r.program r.code.microOps table.logical).boot
        (written b (r.layout.operands r.data) fun _ => 0)) = .ok s := by
    rw [h.code_eq]
    exact (Machine.run_rebase (m := c.machine b divisors r.program _ table.logical) h.reach _).trans
      (by rw [h.code_eq] at hs; exact hs)
  -- the output region after the run, byte by byte
  have hroom : r.schedule.units r.data b * (b * c.out.width) ≤ out.size.toNat := by
    rw [hrec'.size, UInt64.toNat_ofNat_of_lt' (by norm_num [UInt64.size]; omega)]
  have hplaced : ∀ q ∈ cells, r.schedule.position q.1 < r.schedule.units r.data b ∧ q.2.length = b := by
    intro q hq
    rw [hcells] at hq
    obtain ⟨v, hv, rfl⟩ := List.mem_map.1 hq
    exact ⟨hinside.position_lt hcommon.side hv, length_rowsOf _ _ _⟩
  have hclean : ∀ n < out.size.toNat, written b (r.layout.operands r.data) (fun _ => 0)
      (out.physical + UInt64.ofNat n) = 0 := fun n hn =>
    written_outside (hlaid.fitted hsound hcommon hformed)
      (fun q hq => ((hlaid.apart hout).2 q hq).2 n hn) _
  have hview := Machine.deposit_view (m := c.machine b divisors r.program r.code.microOps 0)
    hsound.out hroom hplaced hclean
  refine ⟨_, Outcome.bind_ok (h.machine_eq hsound hlaid) (Outcome.bind_ok
    (image_eq hsound hcommon hformed hlaid) (Outcome.bind_ok hrebased
      (Outcome.bind_ok (Outcome.ofOption_eq_ok.2 hout) rfl))), ?_⟩
  rw [Compiled.expectedOut_eq (produces hsound hcommon r.code.microOps 0) hout hrec' hblocks
    (lt_trans hunits (by norm_num)) hinside]
  refine congrArg Except.ok (List.map_congr_left fun n hn => ?_)
  rw [hmem, hview n (List.mem_range.1 hn), hcells]

/-- The steps that the planner made can be run as their replay says. -/
theorem steps_sound (h : r.Made c caps options divisors data code table) (hsound : c.Sound b)
    (hcommon : r.data.Common r.program c b xr xc) (hformed : r.data.Formed c b xr xc)
    {steps : List Step} (hrec : r.schedule.steps = recordStores steps) :
    ∀ st ∈ steps, st.Sound r.data c.acc b := by
  have hwithin := build_within h.built hsound h.capacities
  have hall := plan_sound hsound.pos hcommon hformed hwithin h.planned h.checked
  intro st hst
  rw [hrec, recordStores_eq] at hall
  obtain ⟨n, hn⟩ := List.getElem?_of_mem hst
  obtain ⟨u, hu⟩ : ∃ u, (withStores [] steps)[n]? = some u := by
    refine ⟨_, List.getElem?_eq_getElem ?_⟩
    rw [length_withStores]
    exact (List.getElem?_eq_some_iff.1 hn).1
  obtain ⟨t, ht, rfl⟩ := withStores_getElem hu
  obtain rfl := Option.some.inj (hn.symm.trans ht)
  have hst := hall _ (List.mem_of_getElem? hu)
  exact ⟨{ hst.bounded with }, { hst.ready with }, hst.stored, hst.grain⟩

/-- **A compiled program leaves the output that is expected**, if the steps that the planner
made for it do what they must. -/
theorem executes_steps (h : r.Made c caps options divisors data code table) (hsound : c.Sound b)
    (hcommon : r.data.Common r.program c b xr xc) (hformed : r.data.Formed c b xr xc)
    (hfits : r.data.Fits) (hfew : r.code.microOps.length < 4294967296) {steps : List Step}
    (hrec : r.schedule.steps = recordStores steps)
    (hsim : Simulates r.data c.acc steps (rowsOf r.data.final.data b))
    (hwritten : ∀ v ∈ steps.flatMap (Step.stores r.data),
      ∃ a ∈ steps.flatMap (Step.actions r.data c.acc), a.dst = v)
    (hsupplied : SuppliedFrom [] steps) :
    ∃ bytes, r.execute c = .ok bytes ∧ r.expectedOut = .ok bytes := by
  refine h.executes hsound hcommon hformed hfits hfew (hrec ▸ hsim.recorded) ?_ ?_
  · rw [hrec, recordStores_eq, withStores_flatMap (Step.stores r.data) fun _ _ => rfl,
      withStores_flatMap (Step.actions r.data c.acc) fun _ _ => rfl]
    exact hwritten
  · rw [hrec, recordStores_eq]
    exact hsupplied.recorded []

end Compiled.Made

end Run

end Tessera
