import Tessera.Proofs.Accumulation
import Tessera.Proofs.Groups
import Tessera.Proofs.Interleaving

/-!
# The handshake of the stages

The code of a schedule passes its tokens around: the loads of a step release its compute
group, which releases the stores of the step and the loads of the next; the stores release
the closing transfer, after which the stage may compute the next step. So in whatever way
the stages interleave, these groups fire in this order.

* `lower_audited`: the tokens are checked while the code is made.
* `Span`: where the groups of a step stand in the stream (`Span.Holds`, `Span.Fits`).
* `Boundary`: what stands before a step (`Adjoin.boundary`).
* `Handshake.Standing`: where an instruction stands, and so its stage.
* `Handshake.binary`: no channel ever holds two tokens.
* `Coordinated`: the order in which the groups fire.
* `lower_coordinated`: all of it for the code of a schedule.
-/

namespace Tessera

namespace Emission

variable {e e' : Emission}

/-- The tokens of an emission are those that its instructions leave. -/
def Audited (e : Emission) : Prop := Tokens.run 0 {} e.instructions.toList = .ok e.tokens

theorem push_audited {i : Instruction} (he : e.Audited) (h : e.push i = .ok e') : e'.Audited := by
  obtain ⟨tokens, htokens, h⟩ := Outcome.bind_eq_ok.1 h
  obtain rfl := Outcome.pure_eq_ok.1 h
  unfold Audited
  rw [Array.toList_push]
  refine Tokens.run_append_eq_ok.2 ⟨_, he, Tokens.run_cons_eq_ok.2 ⟨tokens, ?_, rfl⟩⟩
  rw [Nat.zero_add, Array.length_toList]
  exact htokens

theorem pushes_audited {insns : List Instruction} (he : e.Audited)
    (h : insns.foldlM push e = .ok e') : e'.Audited :=
  foldlM_invariant (fun _ _ e => e.Audited) (fun _ _ _ _ _ he hp => push_audited he hp)
    [] insns e e' he h

theorem group_audited {nop : Instruction} {first last : Flags} {c : Code} (he : e.Audited)
    (h : e.group nop first last c = .ok e') : e'.Audited :=
  pushes_audited (e := { e with microOps := e.microOps ++ c.microOps }) he h

theorem step_audited {env : Lowering} {i : Nat} {st : Step} (he : e.Audited)
    (h : e.step env i st = .ok e') : e'.Audited := by
  obtain ⟨loads, c, stores, e1, e2, e3, -, h1, -, h2, -, h3, h⟩ := step_eq_ok.1 h
  exact push_audited (group_audited (group_audited (group_audited he h1) h2) h3) h

end Emission

/-- **The code of a schedule passes the audit.** -/
theorem lower_audited {s : Schedule} {d : Shaped} {l : Layout} {code : Code}
    (h : lower s d l = .ok code) : audit code.instructions = .ok () := by
  obtain ⟨acc, out, e1, e2, e3, -, -, h1, h2, h3, hzero, rfl⟩ := lower_stages h
  obtain ⟨n, -, h1⟩ := Outcome.bind_eq_ok.1 h1
  have ha1 : e1.Audited := Emission.group_audited (e := {}) rfl h1
  have ha2 : e2.Audited := foldlM_invariant (fun _ _ (e : Emission) => e.Audited)
    (fun _ _ _ _ _ he hstep => Emission.step_audited he hstep) [] _ e1 e2 ha1 h2
  refine Outcome.bind_ok (Emission.pushes_audited ha2 h3) ?_
  rw [if_pos hzero]
  rfl

/-- Where the groups of a step stand in a stream: the number of the first instruction of
each, and that of the closing transfer. Each group ends where the next begins. -/
structure Span where
  loads : Nat
  computes : Nat
  stores : Nat
  closing : Nat

/-- The stream has the code of a step at its span. -/
structure Span.Holds (insns : List Instruction) (k : StepLowering) (σ : Span) : Prop where
  loads : ∃ xs, k.loads = .ok xs ∧ insns.extract σ.loads σ.computes =
    groupOf .nopLoad { popNext := true } { pushNext := true } xs
  computes : ∃ start c, k.computes start = .ok c ∧ insns.extract σ.computes σ.stores =
    groupOf .nopCompute { popPrev := true } { pushPrev := true, pushNext := true } c.instructions
  stores : ∃ xs, k.stores = .ok xs ∧ insns.extract σ.stores σ.closing =
    groupOf .nopStore { popPrev := true } { pushPrev := true } xs
  closing : insns[σ.closing]? =
    some { Instruction.nopCompute with flags := { popNext := true } }

/-- Spans that follow each other from instruction `start` up to `stop`. -/
def Adjoin : (start : Nat) → List Span → (stop : Nat) → Prop
  | start, [], stop => start = stop
  | start, σ :: rest, stop => σ.loads = start ∧ Adjoin (σ.closing + 1) rest stop

theorem extract_middle {α : Type} (xs ys zs : List α) {a b : Nat} (ha : xs.length = a)
    (hb : a + ys.length = b) : (xs ++ ys ++ zs).extract a b = ys := by
  subst ha hb
  rw [List.extract_eq_take_drop, List.append_assoc, List.drop_left, Nat.add_sub_cancel_left,
    List.take_left]

namespace Emission

variable {e e' : Emission}

/-- **The code of a step** stands in the stream from where it was appended. -/
theorem step_span {env : Lowering} {i : Nat} {st : Step} (h : e.step env i st = .ok e') :
    ∃ σ : Span, σ.loads = e.instructions.size ∧ σ.closing + 1 = e'.instructions.size ∧
      ∀ rest, σ.Holds (e'.instructions.toList ++ rest) (env.stepOf i st) := by
  obtain ⟨loads, c, stores, e1, e2, e3, hloads, h1, hc, h2, hstores, h3, h⟩ := step_eq_ok.1 h
  have hx := (group_extends h1).instructions
  have hy := (group_extends h2).instructions
  have hz := (group_extends h3).instructions
  have hlast := (push_extends h).instructions
  have hxs := congrArg List.length hx
  have hys := congrArg List.length hy
  have hzs := congrArg List.length hz
  have hls := congrArg List.length hlast
  simp only [List.length_append, Array.length_toList, List.length_singleton] at hxs hys hzs hls
  refine ⟨⟨e.instructions.size, e1.instructions.size, e2.instructions.size, e3.instructions.size⟩,
    rfl, hls.symm, fun rest => ⟨⟨loads, hloads, ?_⟩, ⟨_, c, hc, ?_⟩, ⟨stores, hstores, ?_⟩, ?_⟩⟩
  · rw [hlast, hz, hy, hx, List.append_assoc, List.append_assoc, List.append_assoc]
    exact extract_middle _ _ _ (Array.length_toList ..) hxs.symm
  · rw [hlast, hz, hy, List.append_assoc, List.append_assoc]
    exact extract_middle _ _ _ (Array.length_toList ..) hys.symm
  · rw [hlast, hz, List.append_assoc]
    exact extract_middle _ _ _ (Array.length_toList ..) hzs.symm
  · rw [hlast, List.append_assoc, List.getElem?_append_right (by simp)]
    simp

/-- **The code of all steps** stands span by span. -/
theorem steps_span {env : Lowering} {steps : List (Step × Nat)}
    (h : steps.foldlM (fun (e : Emission) q => e.step env q.2 q.1) e = .ok e') :
    ∃ spans, Adjoin e.instructions.size spans e'.instructions.size ∧ ∀ rest,
      List.Forall₂ (fun q σ => σ.Holds (e'.instructions.toList ++ rest) (env.stepOf q.2 q.1))
        steps spans := by
  induction steps generalizing e with
  | nil =>
    obtain rfl := Outcome.pure_eq_ok.1 h
    exact ⟨[], rfl, fun _ => .nil⟩
  | cons q steps ih =>
    obtain ⟨e1, h1, h⟩ := foldlM_cons_eq_ok.1 h
    obtain ⟨σ, hstart, hstop, hholds⟩ := step_span h1
    obtain ⟨spans, hadjoin, hall⟩ := ih h
    obtain ⟨more, _, hmore⟩ := steps_extends h
    refine ⟨σ :: spans, ⟨hstart, by rw [hstop]; exact hadjoin⟩, fun rest => .cons ?_ (hall rest)⟩
    rw [hmore.instructions, List.append_assoc]
    exact hholds _

end Emission

/-- Whether flags take from a channel, on the stage that takes from it. -/
def Flags.pops (f : Flags) : Channel → Bool
  | .loadCompute => f.popPrev
  | .computeLoad => f.popNext
  | .computeStore => f.popPrev
  | .storeCompute => f.popNext

/-- Whether flags give to a channel, on the stage that gives to it. -/
def Flags.pushes (f : Flags) : Channel → Bool
  | .loadCompute => f.pushNext
  | .computeLoad => f.pushPrev
  | .computeStore => f.pushNext
  | .storeCompute => f.pushPrev

theorem Flags.Sets.pops {f g : Flags} (h : f.Sets g) {c : Channel} (hg : g.pops c = true) :
    f.pops c = true := by
  rw [← h]
  cases c <;> simp_all [Flags.pops, Flags.union]

theorem Flags.Sets.pushes {f g : Flags} (h : f.Sets g) {c : Channel} (hg : g.pushes c = true) :
    f.pushes c = true := by
  rw [← h]
  cases c <;> simp_all [Flags.pushes, Flags.union]

namespace Instruction

variable {i : Instruction} {c : Channel}

theorem takes_of_flags (hok : i.moves.isOk = true) (hs : i.stage = c.taker)
    (h : i.flags.pops c = true) : i.takes c = true := by
  have hmem : Move.pop c ∈ i.moved := by
    unfold moved
    unfold moves at hok ⊢
    cases c <;> rw [hs] at hok ⊢ <;> simp only [Channel.taker] at hok ⊢ <;> (try split at hok) <;>
      simp_all [Flags.pops, wanted, Except.isOk, Except.toBool]
  exact decide_eq_true hmem

theorem gives_of_flags (hok : i.moves.isOk = true) (hs : i.stage = c.giver)
    (h : i.flags.pushes c = true) : i.gives c = true := by
  have hmem : Move.push c ∈ i.moved := by
    unfold moved
    unfold moves at hok ⊢
    cases c <;> rw [hs] at hok ⊢ <;> simp only [Channel.giver] at hok ⊢ <;> (try split at hok) <;>
      simp_all [Flags.pushes, wanted, Except.isOk, Except.toBool]
  exact decide_eq_true hmem

end Instruction

/-- **A group in a stream**: all of it is on its stage, its first instruction takes what
`first` names and its last gives what `last` names. -/
theorem group_at {insns xs : List Instruction} (hb : Balanced insns) {s : Stage}
    {nop : Instruction} {first last : Flags} {a b : Nat}
    (hnop : nop.Bare s) (hxs : Bare s xs)
    (h : insns.extract a b = groupOf nop first last xs) (hle : b ≤ insns.length) :
    (∀ n, a ≤ n → n < b → stageAt insns s n = true) ∧
      (∀ c, c.taker = s → first.pops c = true → takesAt insns c a = true) ∧
      (∀ c, c.giver = s → last.pushes c = true → givesAt insns c (b - 1) = true) := by
  have hat : ∀ n, a ≤ n → n < b → insns[n]? = (groupOf nop first last xs)[n - a]? := by
    intro n hn hn'
    rw [← h, List.extract_eq_take_drop, List.getElem?_take_of_lt (by omega), List.getElem?_drop,
      Nat.add_sub_cancel' hn]
  have hlen : (groupOf nop first last xs).length = b - a := by
    rw [← h, List.extract_eq_take_drop, List.length_take, List.length_drop]
    omega
  have hstaged : Staged s (groupOf nop first last xs) := staged_groupOf hnop hxs
  obtain ⟨i, rest, hhead, hfirst⟩ := groupOf_head nop first last xs
  obtain ⟨init, j, hlast, hflags⟩ := groupOf_last nop first last xs
  have hlt : a < b := by
    rw [hhead, List.length_cons] at hlen
    omega
  have hi : insns[a]? = some i := by
    rw [hat a le_rfl hlt, Nat.sub_self, hhead]
    rfl
  have hj : insns[b - 1]? = some j := by
    rw [hat (b - 1) (by omega) (by omega), show b - 1 - a = (groupOf nop first last xs).length - 1 by
      omega, hlast]
    simp
  refine ⟨fun n hn hn' => ?_, fun c hc hp => ?_, fun c hc hp => ?_⟩
  · have hn'' : n - a < (groupOf nop first last xs).length := by omega
    unfold stageAt
    rw [hat n hn hn', List.getElem?_eq_getElem hn'']
    simp [(hstaged _ (List.getElem_mem hn'')).1]
  · have hmem : i ∈ groupOf nop first last xs := by
      rw [hhead]
      exact List.mem_cons_self
    have := Instruction.takes_of_flags (hb.flagged i (List.mem_of_getElem? hi))
      ((hstaged i hmem).1.trans hc.symm) (hfirst.pops hp)
    simp [takesAt, hi, this]
  · have hmem : j ∈ groupOf nop first last xs := by
      rw [hlast]
      simp
    have := Instruction.gives_of_flags (hb.flagged j (List.mem_of_getElem? hj))
      ((hstaged j hmem).1.trans hc.symm) (hflags.pushes hp)
    simp [givesAt, hj, this]

/-- What the groups of a step do to the tokens. -/
structure Span.Fits (insns : List Instruction) (σ : Span) : Prop where
  order : σ.loads < σ.computes ∧ σ.computes < σ.stores ∧ σ.stores < σ.closing ∧
    σ.closing < insns.length
  load : ∀ n, σ.loads ≤ n → n < σ.computes → stageAt insns .load n = true
  compute : ∀ n, σ.computes ≤ n → n < σ.stores → stageAt insns .compute n = true
  store : ∀ n, σ.stores ≤ n → n < σ.closing → stageAt insns .store n = true
  last : stageAt insns .compute σ.closing = true
  loadTakes : takesAt insns .computeLoad σ.loads = true
  loadGives : givesAt insns .loadCompute (σ.computes - 1) = true
  computeTakes : takesAt insns .loadCompute σ.computes = true
  computeReleases : givesAt insns .computeLoad (σ.stores - 1) = true
  computeGives : givesAt insns .computeStore (σ.stores - 1) = true
  storeTakes : takesAt insns .computeStore σ.stores = true
  storeGives : givesAt insns .storeCompute (σ.closing - 1) = true
  closingTakes : ∀ c, takesAt insns c σ.closing = (c == .storeCompute)
  closingGives : ∀ c, givesAt insns c σ.closing = false

theorem extract_lt {insns xs : List Instruction} {nop : Instruction} {first last : Flags}
    {a b : Nat} (h : insns.extract a b = groupOf nop first last xs) : a < b := by
  by_contra hle
  rw [List.extract_eq_take_drop, Nat.sub_eq_zero_of_le (Nat.not_lt.1 hle), List.take_zero] at h
  obtain ⟨i, rest, hhead, -⟩ := groupOf_head nop first last xs
  rw [hhead] at h
  cases h

/-- **The code of a step does what the handshake asks of it.** -/
theorem Span.Holds.fits {insns : List Instruction} {k : StepLowering} {σ : Span}
    (h : σ.Holds insns k) (hb : Balanced insns) : σ.Fits insns := by
  obtain ⟨xs, hxs, hload⟩ := h.loads
  obtain ⟨n, c, hc, hcompute⟩ := h.computes
  obtain ⟨ys, hys, hstore⟩ := h.stores
  have hlt : σ.closing < insns.length := (List.getElem?_eq_some_iff.1 h.closing).1
  have h1 := extract_lt hload
  have h2 := extract_lt hcompute
  have h3 := extract_lt hstore
  obtain ⟨hl, hltake, hlgive⟩ := group_at hb bare_nopLoad (StepLowering.bare_loads hxs) hload
    (by omega)
  obtain ⟨hcs, hctake, hcgive⟩ := group_at hb bare_nopCompute (StepLowering.bare_computes hc)
    hcompute (by omega)
  obtain ⟨hst, hstake, hsgive⟩ := group_at hb bare_nopStore (StepLowering.bare_stores hys) hstore
    (by omega)
  refine ⟨⟨h1, h2, h3, hlt⟩, hl, hcs, hst, ?_, hltake .computeLoad rfl rfl, hlgive .loadCompute rfl rfl,
    hctake .loadCompute rfl rfl, hcgive .computeLoad rfl rfl, hcgive .computeStore rfl rfl,
    hstake .computeStore rfl rfl, hsgive .storeCompute rfl rfl, fun c => ?_, fun c => ?_⟩
  · unfold stageAt
    rw [h.closing]
    decide
  · unfold takesAt
    rw [h.closing]
    cases c <;> decide
  · unfold givesAt
    rw [h.closing]
    cases c <;> decide

/-- What stands before instruction `a`, where the loads of a step begin: someone released
them after all that took from the loads before, and what was stored was waited for. -/
structure Boundary (insns : List Instruction) (a : Nat) : Prop where
  released : ∃ g < a, givesAt insns .computeLoad g = true ∧
    ∀ m < a, takesAt insns .loadCompute m = true → m ≤ g
  drained : ∀ m < a, stageAt insns .store m = true → ∃ d < a, m < d ∧
    takesAt insns .storeCompute d = true ∧ givesAt insns .storeCompute (d - 1) = true

theorem Span.Fits.boundary {insns : List Instruction} {σ : Span} (h : σ.Fits insns) :
    Boundary insns (σ.closing + 1) := by
  obtain ⟨h1, h2, h3, -⟩ := h.order
  refine ⟨⟨σ.stores - 1, by omega, h.computeReleases, fun m hm ht => ?_⟩, fun m hm hs => ?_⟩
  · by_contra hlt
    rcases Nat.lt_or_ge m σ.closing with hm' | hm'
    · cases stageAt_unique (h.store m (by omega) hm') (stageAt_of_takesAt ht)
    · obtain rfl : m = σ.closing := by omega
      rw [h.closingTakes] at ht
      cases ht
  · refine ⟨σ.closing, by omega, ?_, h.closingTakes .storeCompute, h.storeGives⟩
    rcases Nat.lt_or_ge m σ.closing with hm' | hm'
    · exact hm'
    · obtain rfl : m = σ.closing := by omega
      cases stageAt_unique hs h.last

namespace Adjoin

variable {insns : List Instruction} {spans : List Span} {start stop : Nat}

theorem boundary (h : Adjoin start spans stop) (hfits : ∀ σ ∈ spans, σ.Fits insns)
    (h0 : Boundary insns start) :
    (∀ σ ∈ spans, Boundary insns σ.loads) ∧ Boundary insns stop := by
  induction spans generalizing start with
  | nil => exact ⟨fun _ hσ => absurd hσ List.not_mem_nil, h ▸ h0⟩
  | cons σ spans ih =>
    obtain ⟨rfl, h⟩ := h
    obtain ⟨h1, h2⟩ := ih h (fun τ hτ => hfits τ (List.mem_cons_of_mem _ hτ))
      (hfits σ List.mem_cons_self).boundary
    refine ⟨fun τ hτ => ?_, h2⟩
    rcases List.mem_cons.1 hτ with rfl | hτ
    · exact h0
    · exact h1 τ hτ

theorem locate (h : Adjoin start spans stop) {n : Nat} (hn : start ≤ n) (hn' : n < stop) :
    ∃ σ ∈ spans, σ.loads ≤ n ∧ n ≤ σ.closing := by
  induction spans generalizing start with
  | nil =>
    cases h
    omega
  | cons σ spans ih =>
    obtain ⟨rfl, h⟩ := h
    rcases Nat.lt_or_ge σ.closing n with hlt | hge
    · obtain ⟨τ, hτ, hrange⟩ := ih h hlt
      exact ⟨τ, List.mem_cons_of_mem _ hτ, hrange⟩
    · exact ⟨σ, List.mem_cons_self, hn, hge⟩

theorem next (h : Adjoin start spans stop) {k : Nat} {σ τ : Span} (hσ : spans[k]? = some σ)
    (hτ : spans[k + 1]? = some τ) : τ.loads = σ.closing + 1 := by
  induction spans generalizing start k with
  | nil => cases hσ
  | cons ρ spans ih =>
    obtain ⟨-, h⟩ := h
    cases k with
    | zero =>
      cases hσ
      cases spans with
      | nil => cases hτ
      | cons τ' spans =>
        cases hτ
        exact h.1
    | succ k => exact ih h hσ hτ

end Adjoin

/-- A stream that hands tokens from step to step: a group that clears the accumulator, the
spans of the steps from `start` up to `stop`, and three instructions that end it. -/
structure Handshake (insns : List Instruction) (spans : List Span) (start stop : Nat) : Prop where
  balanced : Balanced insns
  opens : 0 < start
  prologue : ∀ n < start, stageAt insns .compute n = true
  released : givesAt insns .computeLoad (start - 1) = true
  adjoin : Adjoin start spans stop
  fits : ∀ σ ∈ spans, σ.Fits insns
  length : insns.length = stop + 3
  load : insns[stop]? = some { Instruction.nopLoad with flags := { popNext := true, pushNext := true } }
  compute : insns[stop + 1]? = some { Instruction.nopCompute with flags := { popPrev := true } }
  finish : insns[stop + 2]? = some .finish

namespace Handshake

variable {insns : List Instruction} {spans : List Span} {start stop : Nat}
  {fired : List Nat} {p : Pipeline}

theorem boundary_start (h : Handshake insns spans start stop) : Boundary insns start := by
  have := h.opens
  refine ⟨⟨start - 1, by omega, h.released, fun m hm _ => by omega⟩, fun m hm hs => ?_⟩
  cases stageAt_unique hs (h.prologue m hm)

theorem boundary (h : Handshake insns spans start stop) :
    (∀ σ ∈ spans, Boundary insns σ.loads) ∧ Boundary insns stop :=
  h.adjoin.boundary h.fits h.boundary_start

theorem stage_load (h : Handshake insns spans start stop) : stageAt insns .load stop = true := by
  unfold stageAt
  rw [h.load]
  decide

theorem stage_compute (h : Handshake insns spans start stop) :
    stageAt insns .compute (stop + 1) = true := by
  unfold stageAt
  rw [h.compute]
  decide

theorem stage_finish (h : Handshake insns spans start stop) :
    stageAt insns .compute (stop + 2) = true := by
  unfold stageAt
  rw [h.finish]
  decide

/-- Where the instruction at a position stands, and so its stage. -/
inductive Standing (insns : List Instruction) (spans : List Span) (start stop n : Nat) : Prop where
  | prologue (before : n < start) (stage : stageAt insns .compute n = true)
  | loads (σ : Span) (mem : σ ∈ spans) (start_le : σ.loads ≤ n) (below : n < σ.computes)
      (stage : stageAt insns .load n = true)
  | computes (σ : Span) (mem : σ ∈ spans) (start_le : σ.computes ≤ n) (below : n < σ.stores)
      (stage : stageAt insns .compute n = true)
  | stores (σ : Span) (mem : σ ∈ spans) (start_le : σ.stores ≤ n) (below : n < σ.closing)
      (stage : stageAt insns .store n = true)
  | closing (σ : Span) (mem : σ ∈ spans) (eq : n = σ.closing)
      (stage : stageAt insns .compute n = true)
  | lastLoad (eq : n = stop) (stage : stageAt insns .load n = true)
  | lastCompute (eq : n = stop + 1) (stage : stageAt insns .compute n = true)
  | finish (eq : n = stop + 2) (stage : stageAt insns .compute n = true)

/-- **Every instruction stands somewhere**: before the steps, in a part of one, or behind them. -/
theorem standing (h : Handshake insns spans start stop) {n : Nat} (hn : n < insns.length) :
    Standing insns spans start stop n := by
  have hlen := h.length
  rcases Nat.lt_or_ge n start with hlt | hge
  · exact .prologue hlt (h.prologue n hlt)
  rcases Nat.lt_or_ge n stop with hlt | hge'
  · obtain ⟨σ, hσ, hlo, hhi⟩ := h.adjoin.locate hge hlt
    have hfit := h.fits σ hσ
    rcases Nat.lt_or_ge n σ.computes with h1 | h1
    · exact .loads σ hσ hlo h1 (hfit.load n hlo h1)
    rcases Nat.lt_or_ge n σ.stores with h2 | h2
    · exact .computes σ hσ h1 h2 (hfit.compute n h1 h2)
    rcases Nat.lt_or_ge n σ.closing with h3 | h3
    · exact .stores σ hσ h2 h3 (hfit.store n h2 h3)
    · obtain rfl : n = σ.closing := by omega
      exact .closing σ hσ rfl hfit.last
  · obtain rfl | rfl | rfl : n = stop ∨ n = stop + 1 ∨ n = stop + 2 := by omega
    · exact .lastLoad rfl h.stage_load
    · exact .lastCompute rfl h.stage_compute
    · exact .finish rfl h.stage_finish

/-- An instruction of the load stage is in the loads of a step, or ends the stream. -/
theorem locate_load (h : Handshake insns spans start stop) {n : Nat}
    (hs : stageAt insns .load n = true) (hn : n < insns.length) :
    ∃ a, Boundary insns a ∧ takesAt insns .computeLoad a = true ∧ a ≤ n ∧
      ∀ k, a ≤ k → k ≤ n → stageAt insns .load k = true := by
  cases h.standing hn with
  | loads σ hσ hlo hlt =>
    have hfit := h.fits σ hσ
    exact ⟨σ.loads, h.boundary.1 σ hσ, hfit.loadTakes, hlo,
      fun k hk hkn => hfit.load k hk (by omega)⟩
  | lastLoad hstop =>
    subst hstop
    refine ⟨n, h.boundary.2, ?_, le_rfl, fun k hk hkn => ?_⟩
    · unfold takesAt
      rw [h.load]
      decide
    · rwa [show k = n by omega]
  | prologue _ hcompute => cases stageAt_unique hs hcompute
  | computes σ _ _ _ hcompute => cases stageAt_unique hs hcompute
  | stores σ _ _ _ hstore => cases stageAt_unique hs hstore
  | closing σ _ _ hcompute => cases stageAt_unique hs hcompute
  | lastCompute _ hcompute => cases stageAt_unique hs hcompute
  | finish _ hcompute => cases stageAt_unique hs hcompute

/-- An instruction of the store stage is in the stores of a step. -/
theorem locate_store (h : Handshake insns spans start stop) {n : Nat}
    (hs : stageAt insns .store n = true) (hn : n < insns.length) :
    ∃ σ ∈ spans, σ.stores ≤ n ∧ n < σ.closing := by
  cases h.standing hn with
  | stores σ hσ hlo hlt => exact ⟨σ, hσ, hlo, hlt⟩
  | prologue _ hcompute => cases stageAt_unique hs hcompute
  | loads σ _ _ _ hload => cases stageAt_unique hs hload
  | computes σ _ _ _ hcompute => cases stageAt_unique hs hcompute
  | closing σ _ _ hcompute => cases stageAt_unique hs hcompute
  | lastLoad _ hload => cases stageAt_unique hs hload
  | lastCompute _ hcompute => cases stageAt_unique hs hcompute
  | finish _ hcompute => cases stageAt_unique hs hcompute

/-- An instruction of the compute stage that gives a token and is not the first group is in
the compute group of a step. -/
theorem locate_compute (h : Handshake insns spans start stop) {n : Nat} {c : Channel}
    (hg : givesAt insns c n = true) (hc : c.giver = .compute) (hn : n < insns.length)
    (hge : start ≤ n) : ∃ σ ∈ spans, σ.computes ≤ n ∧ n < σ.stores := by
  have hs : stageAt insns .compute n = true := hc ▸ stageAt_of_givesAt hg
  cases h.standing hn with
  | computes σ hσ hlo hlt => exact ⟨σ, hσ, hlo, hlt⟩
  | prologue hlt => omega
  | loads σ _ _ _ hload => cases stageAt_unique hs hload
  | stores σ _ _ _ hstore => cases stageAt_unique hs hstore
  | lastLoad _ hload => cases stageAt_unique hs hload
  -- the other instructions of the stage give no token
  | closing σ hσ hlast =>
    rw [hlast, (h.fits σ hσ).closingGives] at hg
    cases hg
  | lastCompute hlast =>
    exfalso
    unfold givesAt at hg
    rw [hlast, h.compute] at hg
    revert hg
    cases c <;> decide
  | finish hlast =>
    exfalso
    unfold givesAt at hg
    rw [hlast, h.finish] at hg
    revert hg
    cases c <;> decide

/-- Whatever is stored before a boundary is stored once someone behind the boundary
computes. -/
theorem drained (h : Handshake insns spans start stop) (hc : Consistent insns fired p)
    {a n m : Nat} (hbound : Boundary insns a) (hn : stageAt insns .compute n = true) (ha : a ≤ n)
    (hfired : n ∈ fired) (hm : stageAt insns .store m = true) (hlt : m < a) : m ∈ fired := by
  obtain ⟨d, hd, hmd, htakes, hgives⟩ := hbound.drained m hlt hm
  have hdf : d ∈ fired := hc.fifo (stageAt_of_takesAt htakes) hn (by omega) hfired
  exact hc.fifo_le hm (stageAt_of_givesAt hgives) (by omega)
    (hc.given_first h.balanced hgives htakes (by omega) hdf)

/-- Whoever gives to a channel has waited for those before it that take from it. -/
theorem waits (h : Handshake insns spans start stop) (hc : Consistent insns fired p)
    {c : Channel} {n m : Nat} (hg : givesAt insns c n = true) (hfired : n ∈ fired)
    (ht : takesAt insns c m = true) (hlt : m < n) : m ∈ fired := by
  have hn := hc.inside n hfired
  have hns := stageAt_of_givesAt hg
  have hms := stageAt_of_takesAt ht
  cases c with
  | loadCompute =>
    obtain ⟨a, hbound, htakes, ha, hload⟩ := h.locate_load hns hn
    obtain ⟨g, hga, hgives, hlast⟩ := hbound.released
    have hma : m < a := by
      by_contra hle
      cases stageAt_unique hms (hload m (by omega) (by omega))
    have hafired := hc.fifo_le (stageAt_of_takesAt htakes) hns ha hfired
    exact hc.fifo_le hms (stageAt_of_givesAt hgives) (hlast m hma ht)
      (hc.given_first h.balanced hgives htakes hga hafired)
  | computeLoad =>
    rcases Nat.lt_or_ge n start with hstart | hge
    · cases stageAt_unique hms (h.prologue m (by omega))
    obtain ⟨σ, hσ, hlo, hhi⟩ := h.locate_compute hg rfl hn hge
    have hfit := h.fits σ hσ
    have hm : m < σ.computes := by
      by_contra hle
      cases stageAt_unique hms (hfit.compute m (by omega) (by omega))
    have hhead := hc.fifo_le (stageAt_of_takesAt hfit.computeTakes) hns hlo hfired
    exact hc.fifo_le hms (stageAt_of_givesAt hfit.loadGives) (by omega)
      (hc.given_first h.balanced hfit.loadGives hfit.computeTakes (by omega) hhead)
  | computeStore =>
    rcases Nat.lt_or_ge n start with hstart | hge
    · cases stageAt_unique hms (h.prologue m (by omega))
    obtain ⟨σ, hσ, hlo, hhi⟩ := h.locate_compute hg rfl hn hge
    have hfit := h.fits σ hσ
    have horder := hfit.order
    have hm : m < σ.loads := by
      by_contra hle
      rcases Nat.lt_or_ge m σ.computes with h1 | h1
      · cases stageAt_unique hms (hfit.load m (by omega) h1)
      · cases stageAt_unique hms (hfit.compute m h1 (by omega))
    exact h.drained hc (h.boundary.1 σ hσ) hns (by omega) hfired hms hm
  | storeCompute =>
    obtain ⟨σ, hσ, hlo, hhi⟩ := h.locate_store hns hn
    have hfit := h.fits σ hσ
    have horder := hfit.order
    have hm : m < σ.stores := by
      by_contra hle
      cases stageAt_unique hms (hfit.store m (by omega) (by omega))
    have hhead := hc.fifo_le (stageAt_of_takesAt hfit.storeTakes) hns hlo hfired
    exact hc.fifo_le hms (stageAt_of_givesAt hfit.computeGives) (by omega)
      (hc.given_first h.balanced hfit.computeGives hfit.storeTakes (by omega) hhead)

/-- **No channel ever holds two tokens.** -/
theorem binary (h : Handshake insns spans start stop) (hc : Consistent insns fired p)
    (c : Channel) : p.tokens c ≤ 1 :=
  hc.token_le_one h.balanced fun _ _ hg hn ht hlt => h.waits hc hg hn ht hlt

/-- The loads of a step have fired when its compute group has begun. -/
theorem loads_first (h : Handshake insns spans start stop) (hc : Consistent insns fired p)
    {σ : Span} (hσ : σ ∈ spans) {n m : Nat} (hn : σ.loads ≤ n) (hn' : n < σ.computes)
    (hm : σ.computes ≤ m) (hm' : m < σ.stores) (hfired : m ∈ fired) : n ∈ fired := by
  have hfit := h.fits σ hσ
  have hhead := hc.fifo_le (stageAt_of_takesAt hfit.computeTakes) (hfit.compute m hm hm') hm hfired
  exact hc.fifo_le (hfit.load n hn hn') (stageAt_of_givesAt hfit.loadGives) (by omega)
    (hc.given_first h.balanced hfit.loadGives hfit.computeTakes (by omega) hhead)

/-- The compute group of a step has fired when its stores have begun. -/
theorem computes_first (h : Handshake insns spans start stop) (hc : Consistent insns fired p)
    {σ : Span} (hσ : σ ∈ spans) {n m : Nat} (hn : σ.computes ≤ n) (hn' : n < σ.stores)
    (hm : σ.stores ≤ m) (hm' : m < σ.closing) (hfired : m ∈ fired) : n ∈ fired := by
  have hfit := h.fits σ hσ
  have hhead := hc.fifo_le (stageAt_of_takesAt hfit.storeTakes) (hfit.store m hm hm') hm hfired
  exact hc.fifo_le (hfit.compute n hn hn') (stageAt_of_givesAt hfit.computeGives) (by omega)
    (hc.given_first h.balanced hfit.computeGives hfit.storeTakes (by omega) hhead)

/-- The compute group of a step has fired when the loads of the next have begun. -/
theorem computes_before_loads (h : Handshake insns spans start stop)
    (hc : Consistent insns fired p) {σ τ : Span} (hσ : σ ∈ spans) (hτ : τ ∈ spans)
    (hnext : τ.loads = σ.closing + 1) {n m : Nat} (hn : σ.computes ≤ n) (hn' : n < σ.stores)
    (hm : τ.loads ≤ m) (hm' : m < τ.computes) (hfired : m ∈ fired) : n ∈ fired := by
  have hfit := h.fits σ hσ
  have horder := hfit.order
  have hhead := hc.fifo_le (stageAt_of_takesAt (h.fits τ hτ).loadTakes)
    ((h.fits τ hτ).load m hm hm') hm hfired
  exact hc.fifo_le (hfit.compute n hn hn') (stageAt_of_givesAt hfit.computeReleases) (by omega)
    (hc.given_first h.balanced hfit.computeReleases (h.fits τ hτ).loadTakes (by omega) hhead)

/-- The stores of a step have fired when the next computes. -/
theorem stores_before_computes (h : Handshake insns spans start stop)
    (hc : Consistent insns fired p) {σ τ : Span} (hσ : σ ∈ spans) (hτ : τ ∈ spans)
    (hnext : τ.loads = σ.closing + 1) {n m : Nat} (hn : σ.stores ≤ n) (hn' : n < σ.closing)
    (hm : τ.computes ≤ m) (hm' : m < τ.closing + 1) (hfired : m ∈ fired) : n ∈ fired := by
  have hfit := h.fits τ hτ
  have horder := hfit.order
  -- a store of the next step waits for its compute group
  obtain ⟨d, hd, hs, hdf⟩ : ∃ d, τ.loads ≤ d ∧ stageAt insns .compute d = true ∧ d ∈ fired := by
    rcases Nat.lt_or_ge m τ.stores with h1 | h1
    · exact ⟨m, by omega, hfit.compute m hm h1, hfired⟩
    rcases Nat.lt_or_ge m τ.closing with h2 | h2
    · exact ⟨τ.computes, by omega, hfit.compute _ le_rfl horder.2.1,
        h.computes_first hc hτ le_rfl horder.2.1 h1 h2 hfired⟩
    · obtain rfl : m = τ.closing := by omega
      exact ⟨τ.closing, by omega, hfit.last, hfired⟩
  exact h.drained hc (hnext ▸ (h.fits σ hσ).boundary) hs (by omega) hdf
    ((h.fits σ hσ).store n hn hn') (by omega)

/-- **When FINISH has fired, everything has.** -/
theorem finish_last (h : Handshake insns spans start stop) (hc : Consistent insns fired p)
    (hfired : stop + 2 ∈ fired) {n : Nat} (hn : n < stop + 2) : n ∈ fired := by
  have hlen := h.length
  have hcompute := hc.fifo h.stage_compute h.stage_finish (by omega) hfired
  cases hs : insns[n].stage with
  | load =>
    have hns : stageAt insns .load n = true := by simp [stageAt, hs, show n < insns.length by omega]
    have hgives : givesAt insns .loadCompute stop = true := by
      unfold givesAt
      rw [h.load]
      decide
    have htakes : takesAt insns .loadCompute (stop + 1) = true := by
      unfold takesAt
      rw [h.compute]
      decide
    have hle : n ≤ stop := by
      by_contra hlt
      obtain rfl : n = stop + 1 := by omega
      cases stageAt_unique hns h.stage_compute
    exact hc.fifo_le hns h.stage_load hle
      (hc.given_first h.balanced hgives htakes (by omega) hcompute)
  | compute =>
    have hns : stageAt insns .compute n = true := by
      simp [stageAt, hs, show n < insns.length by omega]
    exact hc.fifo hns h.stage_finish (by omega) hfired
  | store =>
    have hns : stageAt insns .store n = true := by simp [stageAt, hs, show n < insns.length by omega]
    obtain ⟨σ, hσ, hlo, hhi⟩ := h.locate_store hns (by omega)
    have hlt : n < stop := by
      by_contra hge
      obtain rfl | rfl : n = stop ∨ n = stop + 1 := by omega
      · cases stageAt_unique hns h.stage_load
      · cases stageAt_unique hns h.stage_compute
    exact h.drained hc h.boundary.2 h.stage_finish (by omega) hfired hns hlt

end Handshake

/-- In a run, instruction `n` came before instruction `m`, if that has fired. -/
def Precedes (fired : List Nat) (n m : Nat) : Prop :=
  ∀ before after, fired = before ++ m :: after → n ∈ before

/-- In a run, the instructions from `a` up to `b` came before those from `c` up to `d`. -/
def GroupPrecedes (fired : List Nat) (a b c d : Nat) : Prop :=
  ∀ n m, a ≤ n → n < b → c ≤ m → m < d → Precedes fired n m

/-- What the stages keep to, however they have run: no channel holds two tokens, some stage
can go on until all are done, the groups of the steps follow each other, and FINISH is the
last to fire and leaves no token. -/
structure Coordinated (insns : List Instruction) (spans : List Span) (fired : List Nat)
    (p : Pipeline) : Prop where
  binary : ∀ c, p.tokens c ≤ 1
  unstuck : (∀ n p', ¬ p.Fires insns n p') → ∀ s, p.queue s = []
  loads : ∀ σ ∈ spans, GroupPrecedes fired σ.loads σ.computes σ.computes σ.stores
  computes : ∀ σ ∈ spans, GroupPrecedes fired σ.computes σ.stores σ.stores σ.closing
  nextLoads : ∀ k σ τ, spans[k]? = some σ → spans[k + 1]? = some τ →
    GroupPrecedes fired σ.computes σ.stores τ.loads τ.computes
  nextComputes : ∀ k σ τ, spans[k]? = some σ → spans[k + 1]? = some τ →
    GroupPrecedes fired σ.stores σ.closing τ.computes (τ.closing + 1)
  finish : ∀ n < insns.length - 1, Precedes fired n (insns.length - 1)
  drained : insns.length - 1 ∈ fired →
    fired.getLast? = some (insns.length - 1) ∧ ∀ c, p.tokens c = 0

section Precedes

variable {insns : List Instruction} {fired : List Nat} {p : Pipeline}

/-- What has fired in every run in which another has, fired before that. -/
theorem precedes_of_runs {n m : Nat} (hne : n ≠ m)
    (h : ∀ fired p, Pipeline.Runs insns fired p → m ∈ fired → n ∈ fired)
    (hrun : Pipeline.Runs insns fired p) : Precedes fired n m := by
  intro before after heq
  have hsplit : fired = (before ++ [m]) ++ after := by simpa using heq
  obtain ⟨p', hearlier⟩ := hrun.earlier hsplit
  rcases List.mem_append.1 (h _ _ hearlier (by simp)) with hmem | hmem
  · exact hmem
  · exact absurd (List.mem_singleton.1 hmem) hne

/-- Whatever comes after all others is the last. -/
theorem getLast?_of_precedes (hc : Consistent insns fired p) {m : Nat}
    (hlen : insns.length = m + 1) (hfired : m ∈ fired) (h : ∀ n < m, Precedes fired n m) :
    fired.getLast? = some m := by
  obtain ⟨before, after, rfl⟩ := List.append_of_mem hfired
  have hnodup := hc.nodup
  cases after with
  | nil => simp
  | cons n after =>
    exfalso
    have hn : n < insns.length := hc.inside n (by simp)
    have hne : n ≠ m := by
      rintro rfl
      simp [List.nodup_append] at hnodup
    have hbefore := h n (by omega) before (n :: after) rfl
    exact (List.nodup_append.1 hnodup).2.2 n hbefore n (by simp) rfl

end Precedes

/-- **Whatever the interleaving, a handshake coordinates the stages.** -/
theorem Handshake.coordinated {insns : List Instruction} {spans : List Span} {start stop : Nat}
    (h : Handshake insns spans start stop) {fired : List Nat} {p : Pipeline}
    (hrun : Pipeline.Runs insns fired p) : Coordinated insns spans fired p := by
  have hc := hrun.consistent
  have hlast : insns.length - 1 = stop + 2 := by rw [h.length]; rfl
  have hfinish : ∀ n < stop + 2, Precedes fired n (stop + 2) := fun n hn =>
    precedes_of_runs (by omega)
      (fun _ _ hrun hfired => h.finish_last hrun.consistent hfired hn) hrun
  constructor
  case binary => exact h.binary hc
  case unstuck =>
    intro hstuck
    refine hc.queue_eq_nil (Nat.not_lt.1 fun hlt => ?_)
    obtain ⟨n, p', hfires⟩ := hc.progress h.balanced hlt
    exact hstuck n p' hfires
  case loads =>
    intro σ hσ n m hn hn' hm hm'
    exact precedes_of_runs (by omega)
      (fun _ _ hrun hfired => h.loads_first hrun.consistent hσ hn hn' hm hm' hfired) hrun
  case computes =>
    intro σ hσ n m hn hn' hm hm'
    exact precedes_of_runs (by omega)
      (fun _ _ hrun hfired => h.computes_first hrun.consistent hσ hn hn' hm hm' hfired) hrun
  case nextLoads =>
    intro k σ τ hσ hτ n m hn hn' hm hm'
    have hnext := h.adjoin.next hσ hτ
    have horder := (h.fits σ (List.mem_of_getElem? hσ)).order
    exact precedes_of_runs (by omega)
      (fun _ _ hrun hfired => h.computes_before_loads hrun.consistent (List.mem_of_getElem? hσ)
        (List.mem_of_getElem? hτ) hnext hn hn' hm hm' hfired) hrun
  case nextComputes =>
    intro k σ τ hσ hτ n m hn hn' hm hm'
    have hnext := h.adjoin.next hσ hτ
    have horder := (h.fits τ (List.mem_of_getElem? hτ)).order
    exact precedes_of_runs (by omega)
      (fun _ _ hrun hfired => h.stores_before_computes hrun.consistent (List.mem_of_getElem? hσ)
        (List.mem_of_getElem? hτ) hnext hn hn' hm hm' hfired) hrun
  case finish => exact hlast ▸ hfinish
  case drained =>
    intro hfired
    rw [hlast] at hfired ⊢
    refine ⟨getLast?_of_precedes hc h.length hfired hfinish, fun c => hc.complete h.balanced ?_⟩
    have hall : ∀ n ∈ List.range insns.length, n ∈ fired := by
      intro n hn
      rcases Nat.lt_or_ge n (stop + 2) with hlt | hge
      · exact h.finish_last hc hfired hlt
      · rw [List.mem_range, h.length] at hn
        rwa [show n = stop + 2 by omega]
    have := (List.subperm_of_subset List.nodup_range hall).length_le
    rwa [List.length_range] at this

/-- **The code of a schedule is a handshake.** -/
theorem lower_spans {s : Schedule} {d : Shaped} {l : Layout} {code : Code}
    (h : lower s d l = .ok code) :
    ∃ acc out spans start stop, l.acc = some acc ∧ l.out = some out ∧
      List.Forall₂ (fun q σ => σ.Holds code.instructions
        (Lowering.stepOf ⟨s, d, l, acc, out⟩ q.2 q.1)) s.steps.zipIdx spans ∧
      Handshake code.instructions spans start stop := by
  have hb := audit_balanced (lower_audited h)
  obtain ⟨acc, out, e1, e2, e3, hacc, hout, h1, h2, h3, -, rfl⟩ := lower_stages h
  dsimp only at hb h2 ⊢
  obtain ⟨n, -, h1⟩ := Outcome.bind_eq_ok.1 h1
  have hopen := (Emission.group_extends h1).instructions
  obtain ⟨spans, hadjoin, hholds⟩ := Emission.steps_span h2
  have hend := (Emission.pushes_extends h3).instructions
  obtain ⟨more, _, hmore⟩ := Emission.steps_extends h2
  have hsize : e3.instructions.toList.length = e2.instructions.size + 3 := by
    rw [hend, List.length_append, Array.length_toList]
    rfl
  have hle : e1.instructions.size ≤ e2.instructions.size := by
    have := congrArg List.length hmore.instructions
    rw [List.length_append, Array.length_toList, Array.length_toList] at this
    omega
  -- the three instructions that end the stream
  have hat : ∀ k, e3.instructions.toList[e2.instructions.size + k]? =
      Emission.ending[k]? := by
    intro k
    rw [hend, List.getElem?_append_right (by simp), Array.length_toList, Nat.add_sub_cancel_left]
  -- the group that clears the accumulator
  have hextract : e3.instructions.toList.extract 0 e1.instructions.size =
      e1.instructions.toList := by
    rw [hend, hmore.instructions, List.append_assoc]
    exact extract_middle [] _ _ rfl (by simp)
  have hclear := hextract.trans hopen
  obtain ⟨hstage, -, hgive⟩ := group_at hb bare_nopCompute
    (bare_batch ⟨rfl, by simp, rfl⟩ _ _ _) hclear (by omega)
  refine ⟨acc, out, spans, e1.instructions.size, e2.instructions.size, hacc, hout,
    hend ▸ hholds _, hb, extract_lt hclear, fun n hn => hstage n (Nat.zero_le n) hn,
    hgive .computeLoad rfl rfl, hadjoin, fun σ hσ => ?_, hsize, hat 0, hat 1, hat 2⟩
  obtain ⟨q, -, hq⟩ := forall₂_right (hholds _) hσ
  rw [hend] at hb ⊢
  exact hq.fits hb

/-- **The stages keep to the order of the steps.** The code of a schedule holds the steps
one after the other, each with its loads, its compute group and its stores; and however its
stages interleave, they are coordinated. -/
theorem lower_coordinated {s : Schedule} {d : Shaped} {l : Layout} {code : Code}
    (h : lower s d l = .ok code) :
    ∃ acc out spans start stop, l.acc = some acc ∧ l.out = some out ∧
      List.Forall₂ (fun q σ => σ.Holds code.instructions
        (Lowering.stepOf ⟨s, d, l, acc, out⟩ q.2 q.1)) s.steps.zipIdx spans ∧
      Adjoin start spans stop ∧ (∀ σ ∈ spans, σ.Fits code.instructions) ∧
      code.instructions.length = stop + 3 ∧ code.instructions.getLast? = some .finish ∧
      ∀ fired p, Pipeline.Runs code.instructions fired p →
        Coordinated code.instructions spans fired p := by
  obtain ⟨acc, out, spans, start, stop, hacc, hout, hholds, hs⟩ := lower_spans h
  refine ⟨acc, out, spans, start, stop, hacc, hout, hholds, hs.adjoin, hs.fits, hs.length, ?_,
    fun fired p hrun => hs.coordinated hrun⟩
  rw [List.getLast?_eq_getElem?, hs.length]
  exact hs.finish

set_option maxRecDepth 100000 in
theorem fourBlocks_lowered : (do
    let caps ← Config.twoBlocks.schedulingCapacities
    let d ← Shaped.build .fourBlocks .twoBlocks
    let s ← plan d caps { strategy := 3 }
    let (l, _) ← Layout.allocate (.empty 0 0 (← Config.twoBlocks.divisors)) d s
    let code ← lower s d l
    return s.steps.length = 4 ∧ code.instructions.length = 43 : Outcome Bool) = .ok true := by
  decide +kernel

/-- The product of four blocks runs in four steps, whose groups keep their order. -/
theorem fourBlocks_coordinated : ∃ s d l code spans, lower s d l = .ok code ∧
    s.steps.length = 4 ∧ spans.length = 4 ∧ code.instructions.length = 43 ∧
    code.instructions.getLast? = some .finish ∧
    ∀ fired p, Pipeline.Runs code.instructions fired p →
      Coordinated code.instructions spans fired p := by
  obtain ⟨caps, -, h⟩ := Outcome.bind_eq_ok.1 fourBlocks_lowered
  obtain ⟨d, -, h⟩ := Outcome.bind_eq_ok.1 h
  obtain ⟨s, -, h⟩ := Outcome.bind_eq_ok.1 h
  obtain ⟨divisors, -, h⟩ := Outcome.bind_eq_ok.1 h
  obtain ⟨⟨l, _⟩, -, h⟩ := Outcome.bind_eq_ok.1 h
  obtain ⟨code, hcode, h⟩ := Outcome.bind_eq_ok.1 h
  obtain ⟨hsteps, hlen⟩ := of_decide_eq_true (Outcome.pure_eq_ok.1 h)
  obtain ⟨_, _, spans, _, _, -, -, hholds, -, -, -, hfinish, hall⟩ := lower_coordinated hcode
  refine ⟨s, d, l, code, spans, hcode, hsteps, ?_, hlen, hfinish, hall⟩
  rw [← hholds.length_eq, List.length_zipIdx, hsteps]

end Tessera
