import Tessera.Proofs.Handshake

/-!
# What the audit accepts

The audit runs four counters through a stream at once. It accepts exactly the streams in
which, channel by channel, a token is given, taken, given again, and so on, and the last one
is taken; apart from that no flag may name a stage that does not exist.

* `Instruction.Connected`: flags name stages that exist.
* `Channel.traffic`: the tokens given to a channel and taken from it, in the order of the stream.
* `Channel.Alternates`: each token that is given is taken before the next one.
* `Tokens.step_ok_iff`: when an instruction is not refused.
* `Tokens.run_ok_iff`: when a stream is not refused and leaves no token.
* `audit_alternates`: the streams that the audit accepts.
-/

namespace Tessera

/-- No flag names a stage that does not exist: the load stage has none before it and the store
stage none after it. -/
def Instruction.Connected (i : Instruction) : Prop :=
  (i.stage = .load → i.flags.popPrev = false ∧ i.flags.pushPrev = false) ∧
    (i.stage = .store → i.flags.popNext = false ∧ i.flags.pushNext = false)

namespace Channel

/-- What an instruction does to a channel, by its stage and its flags. No stage is at both ends. -/
def crossing (c : Channel) (i : Instruction) : Option Move :=
  if i.stage = c.giver ∧ i.flags.pushes c = true then some (.push c)
  else if i.stage = c.taker ∧ i.flags.pops c = true then some (.pop c)
  else none

/-- The tokens given to a channel and taken from it, in the order of the stream. -/
def traffic (c : Channel) (insns : List Instruction) : List Move := insns.filterMap c.crossing

/-- Tokens are given and taken by turns, a given one first and a taken one last. -/
inductive Alternates (c : Channel) : List Move → Prop
  | nil : c.Alternates []
  | cons {ms : List Move} : c.Alternates ms → c.Alternates (.push c :: .pop c :: ms)

variable {c : Channel} {i : Instruction} {ms : List Move}

theorem traffic_cons (c : Channel) (i : Instruction) (insns : List Instruction) :
    c.traffic (i :: insns) = (c.crossing i).toList ++ c.traffic insns := by
  unfold traffic
  rw [List.filterMap_cons]
  cases c.crossing i <;> rfl

theorem crossing_cases (c : Channel) (i : Instruction) :
    c.crossing i = none ∨ c.crossing i = some (.push c) ∨ c.crossing i = some (.pop c) := by
  unfold crossing
  split
  · exact Or.inr (Or.inl rfl)
  · split
    · exact Or.inr (Or.inr rfl)
    · exact Or.inl rfl

theorem alternates_push_pop : c.Alternates (.push c :: .pop c :: ms) ↔ c.Alternates ms :=
  ⟨fun h => by cases h; assumption, .cons⟩

theorem not_alternates_pop : ¬c.Alternates (.pop c :: ms) := fun h => by cases h

theorem not_alternates_push_push : ¬c.Alternates (.push c :: .push c :: ms) := fun h => by cases h

theorem not_alternates_push : ¬c.Alternates [.push c] := fun h => by cases h

end Channel

namespace Instruction

variable {i : Instruction} {c : Channel}

theorem mem_wanted {m : Move} {ms : List (Bool × Move)} : m ∈ wanted ms ↔ (true, m) ∈ ms := by
  simp [wanted]

/-- The moves of an instruction with flags that name stages. -/
theorem moves_of_connected (h : i.Connected) : ∃ ms, i.moves = .ok ms ∧
    ∀ c, (.push c ∈ ms ↔ c.crossing i = some (.push c)) ∧
      (.pop c ∈ ms ↔ c.crossing i = some (.pop c)) := by
  obtain ⟨hload, hstore⟩ := h
  unfold moves Channel.crossing
  cases hs : i.stage with
  | load =>
    obtain ⟨hpop, hpush⟩ := hload hs
    refine ⟨_, by simp only [hpop, hpush]; rfl, fun c => ?_⟩
    cases c <;> simp [mem_wanted, Channel.giver, Channel.taker, Flags.pushes, Flags.pops]
  | compute =>
    refine ⟨_, rfl, fun c => ?_⟩
    cases c <;> simp [mem_wanted, Channel.giver, Channel.taker, Flags.pushes, Flags.pops]
  | store =>
    obtain ⟨hpop, hpush⟩ := hstore hs
    refine ⟨_, by simp only [hpop, hpush]; rfl, fun c => ?_⟩
    cases c <;> simp [mem_wanted, Channel.giver, Channel.taker, Flags.pushes, Flags.pops]

theorem connected_of_moves (h : i.moves.isOk = true) : i.Connected := by
  constructor <;> intro hs <;> rw [moves, hs] at h <;> dsimp only at h <;> split at h
  · cases h
  · rename_i hno
    simpa only [Bool.or_eq_true, not_or, Bool.not_eq_true] using hno
  · cases h
  · rename_i hno
    simpa only [Bool.or_eq_true, not_or, Bool.not_eq_true] using hno

end Instruction

/-- The channel of a move. -/
def Move.channel : Move → Channel
  | .pop c => c
  | .push c => c

namespace Tokens

variable {t t' : Tokens} {c : Channel} {i : Instruction} {n : Nat}

/-- Whether a move is not refused: a token that is taken is there, and a channel that is given
one is empty. -/
def Allows (t : Tokens) : Move → Prop
  | .pop c => t.get c = 1
  | .push c => t.get c = 0

theorem move_ok_iff (opcode : Opcode) {m : Move} (hb : t.Binary) :
    (∃ t', t.move opcode m = .ok t') ↔ t.Allows m := by
  cases m with
  | pop c =>
    simp only [move, Allows]
    rcases hb c with h | h <;> simp [h]
  | push c =>
    simp only [move, Allows]
    rcases hb c with h | h <;> simp [h]

/-- A move changes its own channel only. -/
theorem move_allows {opcode : Opcode} {m m' : Move} (hb : t.Binary)
    (h : t.move opcode m = .ok t') (hne : m.channel ≠ m'.channel) : t'.Allows m' ↔ t.Allows m' := by
  have hget : t'.get m'.channel = t.get m'.channel := by
    have h1 := (move_balance hb h).2 m'.channel
    have hpush : [m].count (.push m'.channel) = 0 :=
      List.count_eq_zero.2 fun hm => hne (by rw [← List.mem_singleton.1 hm]; rfl)
    have hpop : [m].count (.pop m'.channel) = 0 :=
      List.count_eq_zero.2 fun hm => hne (by rw [← List.mem_singleton.1 hm]; rfl)
    rw [h1, hpush, hpop]
    simp
  cases m' <;> simp only [Allows, Move.channel] at hget ⊢ <;> rw [hget]

/-- Moves on different channels do not stand in each other's way. -/
theorem makeMoves_ok_iff (opcode : Opcode) {ms : List Move} (hb : t.Binary)
    (hn : (ms.map Move.channel).Nodup) :
    (∃ t', t.makeMoves opcode ms = (t', none)) ↔ ∀ m ∈ ms, t.Allows m := by
  induction ms generalizing t with
  | nil => simp [makeMoves]
  | cons m ms ih =>
    obtain ⟨hm, hn⟩ := List.nodup_cons.1 hn
    rw [List.forall_mem_cons, ← move_ok_iff opcode hb, makeMoves]
    cases hmove : t.move opcode m with
    | error d => simp
    | ok t1 =>
      have hrest : ∀ m' ∈ ms, (t1.Allows m' ↔ t.Allows m') := fun m' hm' =>
        move_allows hb hmove fun heq => hm (heq ▸ List.mem_map_of_mem hm')
      simp only [Except.ok.injEq, exists_eq', true_and]
      rw [ih (move_balance hb hmove).1 hn]
      exact forall₂_congr hrest

/-- **When an instruction is not refused**: its flags name stages that exist, and each channel
allows what it does to it. -/
theorem step_ok_iff (hb : t.Binary) : (∃ t', t.step n i = .ok t') ↔
    i.Connected ∧ ∀ (c : Channel) (m : Move), c.crossing i = some m → t.Allows m := by
  by_cases hc : i.Connected
  · obtain ⟨ms, hms, hmem⟩ := Instruction.moves_of_connected hc
    -- an instruction makes at most one move on a channel
    have hn : (ms.map Move.channel).Nodup := by
      have hmoved : i.moved = ms := by rw [Instruction.moved, hms]
      refine ((hmoved ▸ Instruction.moved_sublist i).map Move.channel).nodup ?_
      cases i.stage <;> decide
    have hall : (∀ m ∈ ms, t.Allows m) ↔
        ∀ (c : Channel) (m : Move), c.crossing i = some m → t.Allows m := by
      constructor
      · intro h c m hm
        rcases Channel.crossing_cases c i with hnone | hpush | hpop
        · rw [hnone] at hm
          cases hm
        · obtain rfl := Option.some.inj (hpush.symm.trans hm)
          exact h _ ((hmem c).1.2 hpush)
        · obtain rfl := Option.some.inj (hpop.symm.trans hm)
          exact h _ ((hmem c).2.2 hpop)
      · intro h m hm
        cases m with
        | push c => exact h c _ ((hmem c).1.1 hm)
        | pop c => exact h c _ ((hmem c).2.1 hm)
    rw [← hall, ← makeMoves_ok_iff i.opcode hb hn]
    simp only [hc, true_and, step, apply, hms]
    cases hmade : t.makeMoves i.opcode ms with
    | mk t1 refusal => cases refusal <;> simp [Outcome.diagnose, Outcome.refuse]
  · refine iff_of_false ?_ fun h => hc h.1
    rintro ⟨t', h⟩
    exact hc (Instruction.connected_of_moves (step_balance hb h).1)

/-- What an instruction leaves on a channel. -/
theorem step_get (hb : t.Binary) (h : t.step n i = .ok t') (c : Channel) :
    t'.get c = match c.crossing i with
      | none => t.get c
      | some (.push _) => t.get c + 1
      | some (.pop _) => t.get c - 1 := by
  obtain ⟨hok, -, hget⟩ := step_balance hb h
  obtain ⟨ms, hms, hmem⟩ := Instruction.moves_of_connected (Instruction.connected_of_moves hok)
  have hgives : i.gives c = decide (c.crossing i = some (.push c)) := by
    rw [Instruction.gives, Instruction.moved, hms, decide_eq_decide]
    exact (hmem c).1
  have htakes : i.takes c = decide (c.crossing i = some (.pop c)) := by
    rw [Instruction.takes, Instruction.moved, hms, decide_eq_decide]
    exact (hmem c).2
  rw [hget, hgives, htakes]
  rcases Channel.crossing_cases c i with hcross | hcross | hcross <;> simp [hcross]

/-- The move that put the token on a channel, if it holds one. -/
def owed (t : Tokens) (c : Channel) : List Move := if t.get c = 1 then [.push c] else []

theorem eq_zero_of_get (h : ∀ c, t.get c = 0) : t = {} := by
  have h1 := h .loadCompute
  have h2 := h .computeLoad
  have h3 := h .computeStore
  have h4 := h .storeCompute
  obtain ⟨a, b, c, d⟩ := t
  simp only [get] at h1 h2 h3 h4
  subst h1 h2 h3 h4
  rfl

/-- A stream that alternates allows its first move. -/
theorem allows_of_alternates {ms : List Move} {m : Move} (hb : t.Binary)
    (hm : c.crossing i = some m)
    (h : c.Alternates (t.owed c ++ ((c.crossing i).toList ++ ms))) : t.Allows m := by
  unfold owed at h
  rcases Channel.crossing_cases c i with hcross | hcross | hcross <;> rw [hcross] at hm h
  · cases hm
  · cases hm
    rcases hb c with h0 | h1
    · exact h0
    · rw [if_pos h1] at h
      exact absurd h Channel.not_alternates_push_push
  · cases hm
    rcases hb c with h0 | h1
    · rw [if_neg (by omega)] at h
      exact absurd h Channel.not_alternates_pop
    · exact h1

/-- **An instruction that is allowed keeps the turns**: the stream alternates from the tokens
before it if the rest does from those after it. -/
theorem alternates_step {ms : List Move} (hb : t.Binary) (h : t.step n i = .ok t') (c : Channel) :
    c.Alternates (t.owed c ++ ((c.crossing i).toList ++ ms)) ↔ c.Alternates (t'.owed c ++ ms) := by
  have hallow := ((step_ok_iff hb).1 ⟨t', h⟩).2 c
  have hget := step_get hb h c
  unfold owed
  rcases Channel.crossing_cases c i with hcross | hcross | hcross <;>
    simp only [hcross] at hallow hget ⊢
  · rw [hget]
    rfl
  · have h0 : t.get c = 0 := hallow _ rfl
    rw [h0] at hget
    rw [h0, hget]
    rfl
  · have h1 : t.get c = 1 := hallow _ rfl
    rw [h1] at hget
    rw [h1, hget]
    exact Channel.alternates_push_pop

/-- **When a stream is not refused and leaves no token.** -/
theorem run_ok_iff {insns : List Instruction} (hb : t.Binary) :
    run n t insns = .ok {} ↔
      (∀ i ∈ insns, i.Connected) ∧ ∀ c : Channel, c.Alternates (t.owed c ++ c.traffic insns) := by
  induction insns generalizing n t with
  | nil =>
    simp only [run, Except.ok.injEq, List.not_mem_nil, false_implies, implies_true, true_and,
      Channel.traffic, List.filterMap_nil, List.append_nil]
    constructor
    · rintro rfl c
      cases c <;> exact .nil
    · intro h
      refine eq_zero_of_get fun c => (hb c).resolve_right fun h1 => ?_
      have hc := h c
      rw [owed, if_pos h1] at hc
      exact Channel.not_alternates_push hc
  | cons i insns ih =>
    simp only [run_cons_eq_ok, List.forall_mem_cons, Channel.traffic_cons]
    constructor
    · rintro ⟨t1, hstep, hrun⟩
      obtain ⟨hrest, halt⟩ := (ih (step_balance hb hstep).2.1).1 hrun
      exact ⟨⟨((step_ok_iff hb).1 ⟨t1, hstep⟩).1, hrest⟩,
        fun c => (alternates_step hb hstep c).2 (halt c)⟩
    · rintro ⟨⟨hi, hrest⟩, halt⟩
      obtain ⟨t1, hstep⟩ := (step_ok_iff (n := n) hb).2
        ⟨hi, fun c m hm => allows_of_alternates hb hm (halt c)⟩
      exact ⟨t1, hstep, (ih (step_balance hb hstep).2.1).2
        ⟨hrest, fun c => (alternates_step hb hstep c).1 (halt c)⟩⟩

end Tokens

/-- **The audit accepts exactly the streams that alternate**: no flag names a stage that does not
exist, and on each channel tokens are given and taken by turns, the last one taken. Every beginning
of such a stream leaves one token or none on each channel. -/
theorem audit_alternates (insns : List Instruction) :
    (audit insns = .ok () ↔
      (∀ i ∈ insns, i.Connected) ∧ ∀ c : Channel, c.Alternates (c.traffic insns)) ∧
    (audit insns = .ok () →
      ∀ n, ∃ t, Tokens.run 0 {} (insns.take n) = .ok t ∧ ∀ c, t.get c = 0 ∨ t.get c = 1) := by
  have haudit : audit insns = .ok () ↔ Tokens.run 0 {} insns = .ok {} := by
    unfold audit
    rw [Outcome.bind_eq_ok]
    constructor
    · rintro ⟨t, hrun, h⟩
      split at h
      · rename_i hz
        obtain rfl : t = {} := by simpa [Tokens.isZero] using hz
        exact hrun
      · cases h
    · intro hrun
      exact ⟨_, hrun, rfl⟩
  refine ⟨?_, fun h n => ?_⟩
  · rw [haudit, Tokens.run_ok_iff Tokens.binary_zero]
    have howed : ∀ c, Tokens.owed {} c = [] := fun c => by cases c <;> rfl
    simp only [howed, List.nil_append]
  · have hrun := haudit.1 h
    rw [← List.take_append_drop n insns] at hrun
    obtain ⟨t, htake, -⟩ := Tokens.run_append_eq_ok.1 hrun
    exact ⟨t, htake, (Tokens.run_balance Tokens.binary_zero htake).1⟩

end Tessera
