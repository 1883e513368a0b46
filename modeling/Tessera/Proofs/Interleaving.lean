import Mathlib.Data.List.Nodup
import Mathlib.Data.List.Perm.Subperm
import Mathlib.Data.Nat.Find
import Mathlib.Logic.Function.Basic
import Tessera.Proofs.Outcome
import Tessera.Stream.Token

/-!
# Stages that run side by side

The stream is audited in its own order, but the stages do not run it in that order: each
works through its own instructions, and an instruction starts as soon as the tokens it
takes are there. This module compares the two.

* `Pipeline`: what each stage has before it, and the tokens between the stages.
* `Pipeline.Fires`, `Pipeline.Runs`: one instruction, and any interleaving of the stages.
* `Balanced`: what the audit says of every place in the stream (`audit_balanced`).
* `Consistent`: a state is what has fired (`Runs.consistent`).
* `Consistent.fifo`, `Consistent.given_first`: an instruction that has fired fired after
  those before it on its stage, and after whatever gave it its tokens.
* `audit_unstuck`: an audited stream runs to its end in any interleaving.
-/

namespace Tessera

namespace Channel

/-- The stage that gives the tokens of a channel. -/
def giver : Channel → Stage
  | loadCompute => .load
  | computeLoad => .compute
  | computeStore => .compute
  | storeCompute => .store

/-- The stage that takes the tokens of a channel. -/
def taker : Channel → Stage
  | loadCompute => .compute
  | computeLoad => .load
  | computeStore => .store
  | storeCompute => .compute

end Channel

namespace Instruction

/-- The moves of an instruction; none if its flags name a stage that does not exist. -/
def moved (i : Instruction) : List Move :=
  match i.moves with
  | .ok ms => ms
  | .error _ => []

/-- Whether the instruction gives a token to a channel. -/
def gives (c : Channel) (i : Instruction) : Bool := decide (Move.push c ∈ i.moved)

/-- Whether the instruction takes a token from a channel. -/
def takes (c : Channel) (i : Instruction) : Bool := decide (Move.pop c ∈ i.moved)

end Instruction

/-- The moves that instructions of a stage can make, in order. -/
def Stage.allMoves : Stage → List Move
  | load => [.pop .computeLoad, .push .loadCompute]
  | compute => [.pop .loadCompute, .pop .storeCompute, .push .computeLoad, .push .computeStore]
  | store => [.pop .computeStore, .push .storeCompute]

namespace Instruction

variable {c : Channel} {i : Instruction}

theorem wanted_sublist (ms : List (Bool × Move)) : (wanted ms).Sublist (ms.map Prod.snd) :=
  List.filter_sublist.map Prod.snd

theorem moved_sublist (i : Instruction) : i.moved.Sublist i.stage.allMoves := by
  unfold moved moves
  cases i.stage with
  | load =>
    dsimp only
    by_cases h : (i.flags.popPrev || i.flags.pushPrev) = true
    · rw [if_pos h]
      exact List.nil_sublist _
    · rw [if_neg h]
      exact wanted_sublist _
  | compute => exact wanted_sublist _
  | store =>
    dsimp only
    by_cases h : (i.flags.popNext || i.flags.pushNext) = true
    · rw [if_pos h]
      exact List.nil_sublist _
    · rw [if_neg h]
      exact wanted_sublist _

theorem nodup_moved (i : Instruction) : i.moved.Nodup := by
  refine (moved_sublist i).nodup ?_
  cases i.stage <;> decide

theorem gives_stage (h : i.gives c = true) : i.stage = c.giver := by
  have hmem := (moved_sublist i).subset (of_decide_eq_true h)
  cases hs : i.stage <;> rw [hs] at hmem <;> cases c <;> revert hmem <;> decide

theorem takes_stage (h : i.takes c = true) : i.stage = c.taker := by
  have hmem := (moved_sublist i).subset (of_decide_eq_true h)
  cases hs : i.stage <;> rw [hs] at hmem <;> cases c <;> revert hmem <;> decide

/-- No instruction gives to a channel and takes from it. -/
theorem not_takes_of_gives (h : i.gives c = true) : i.takes c = false := by
  by_contra htakes
  have hs := (gives_stage h).symm.trans (takes_stage (by simpa using htakes))
  cases c <;> cases hs

theorem not_gives_of_takes (h : i.takes c = true) : i.gives c = false := by
  by_contra hgives
  rw [not_takes_of_gives (by simpa using hgives)] at h
  cases h

theorem count_gives (c : Channel) (i : Instruction) :
    i.moved.count (.push c) = (i.gives c).toNat := by
  unfold gives
  rw [(nodup_moved i).count]
  split <;> simp_all

theorem count_takes (c : Channel) (i : Instruction) :
    i.moved.count (.pop c) = (i.takes c).toNat := by
  unfold takes
  rw [(nodup_moved i).count]
  split <;> simp_all

end Instruction

namespace Tokens

/-- Every channel holds one token or none. -/
def Binary (t : Tokens) : Prop := ∀ c, t.get c = 0 ∨ t.get c = 1

theorem get_set (t : Tokens) (c c' : Channel) (n : Int) :
    (t.set c n).get c' = if c = c' then n else t.get c' := by
  cases c <;> cases c' <;> rfl

theorem binary_zero : Binary {} := fun c => by cases c <;> exact Or.inl rfl

/-- **What a move changes**: a channel that held a token holds none, or the reverse. -/
theorem move_balance {opcode : Opcode} {t t' : Tokens} {m : Move} (hb : t.Binary)
    (h : t.move opcode m = .ok t') :
    t'.Binary ∧ ∀ c, t'.get c = t.get c + [m].count (.push c) - [m].count (.pop c) := by
  cases m with
  | pop c =>
    simp only [move] at h
    split at h
    · cases h
    rename_i hne
    have hone : t.get c = 1 := (hb c).resolve_left hne
    rw [hone, show ((1 : Int) - 1).bmod (twoTo 64) = 0 by decide] at h
    cases h
    refine ⟨fun c' => ?_, fun c' => ?_⟩
    · rw [get_set]
      split
      · exact Or.inl rfl
      · exact hb c'
    · rw [get_set]
      by_cases hc : c = c'
      · subst hc
        simp [hone]
      · simp [hc]
  | push c =>
    simp only [move] at h
    split at h
    swap
    · cases h
    rename_i hzero
    cases h
    refine ⟨fun c' => ?_, fun c' => ?_⟩
    · rw [get_set]
      split
      · exact Or.inr rfl
      · exact hb c'
    · rw [get_set]
      by_cases hc : c = c'
      · subst hc
        simp [hzero]
      · simp [hc]

theorem makeMoves_balance {opcode : Opcode} {ms : List Move} {t t' : Tokens} (hb : t.Binary)
    (h : t.makeMoves opcode ms = (t', none)) :
    t'.Binary ∧ ∀ c, t'.get c = t.get c + ms.count (.push c) - ms.count (.pop c) := by
  induction ms generalizing t with
  | nil =>
    cases h
    exact ⟨hb, fun c => by simp⟩
  | cons m ms ih =>
    unfold makeMoves at h
    split at h
    swap
    · cases h
    rename_i t1 h1
    obtain ⟨hb1, hget1⟩ := move_balance hb h1
    obtain ⟨hb', hget⟩ := ih hb1 h
    refine ⟨hb', fun c => ?_⟩
    rw [hget, hget1, show m :: ms = [m] ++ ms from rfl, List.count_append, List.count_append]
    omega

/-- **What an instruction changes**, if it is not refused. -/
theorem step_balance {n : Nat} {i : Instruction} {t t' : Tokens} (hb : t.Binary)
    (h : t.step n i = .ok t') :
    i.moves.isOk = true ∧ t'.Binary ∧
      ∀ c, t'.get c = t.get c + (i.gives c).toNat - (i.takes c).toNat := by
  unfold step at h
  split at h
  swap
  · cases h
  rename_i t1 h1
  cases h
  unfold apply at h1
  split at h1
  · cases h1
  rename_i ms hms
  split at h1
  swap
  · cases h1
  rename_i t2 h2
  cases h1
  have hmoved : i.moved = ms := by rw [Instruction.moved, hms]
  obtain ⟨hb', hget⟩ := makeMoves_balance hb h2
  refine ⟨by rw [hms]; rfl, hb', fun c => ?_⟩
  rw [hget, ← hmoved, Instruction.count_gives, Instruction.count_takes]

theorem run_cons_eq_ok {n : Nat} {t t' : Tokens} {i : Instruction} {insns : List Instruction} :
    run n t (i :: insns) = .ok t' ↔ ∃ t1, t.step n i = .ok t1 ∧ run (n + 1) t1 insns = .ok t' := by
  rw [run]
  cases t.step n i <;> simp

theorem run_append_eq_ok {n : Nat} {t t' : Tokens} {xs ys : List Instruction} :
    run n t (xs ++ ys) = .ok t' ↔
      ∃ t1, run n t xs = .ok t1 ∧ run (n + xs.length) t1 ys = .ok t' := by
  induction xs generalizing n t with
  | nil => simp [run]
  | cons x xs ih =>
    simp only [List.cons_append, run_cons_eq_ok, ih, List.length_cons,
      show n + 1 + xs.length = n + (xs.length + 1) by omega]
    constructor
    · rintro ⟨t1, h1, t2, h2, h3⟩
      exact ⟨t2, ⟨t1, h1, h2⟩, h3⟩
    · rintro ⟨t2, ⟨t1, h1, h2⟩, h3⟩
      exact ⟨t1, h1, t2, h2, h3⟩

/-- **What a stream changes**: the tokens given less those taken. -/
theorem run_balance {n : Nat} {insns : List Instruction} {t t' : Tokens} (hb : t.Binary)
    (h : run n t insns = .ok t') :
    t'.Binary ∧ ∀ c, t'.get c =
      t.get c + insns.countP (·.gives c) - insns.countP (·.takes c) := by
  induction insns generalizing n t with
  | nil =>
    cases h
    exact ⟨hb, fun c => by simp⟩
  | cons i insns ih =>
    obtain ⟨t1, h1, h⟩ := run_cons_eq_ok.1 h
    obtain ⟨-, hb1, hget1⟩ := step_balance hb h1
    obtain ⟨hb', hget⟩ := ih hb1 h
    refine ⟨hb', fun c => ?_⟩
    rw [hget, hget1, List.countP_cons, List.countP_cons]
    cases i.gives c <;> cases i.takes c <;> simp <;> omega

end Tokens

/-- Whether instruction number `n` gives a token to a channel. -/
def givesAt (insns : List Instruction) (c : Channel) (n : Nat) : Bool := insns[n]?.any (·.gives c)

/-- Whether instruction number `n` takes a token from a channel. -/
def takesAt (insns : List Instruction) (c : Channel) (n : Nat) : Bool := insns[n]?.any (·.takes c)

/-- Whether instruction number `n` runs on a stage. -/
def stageAt (insns : List Instruction) (s : Stage) (n : Nat) : Bool := insns[n]?.any (·.stage == s)

theorem countP_range_at (f : Instruction → Bool) (insns : List Instruction) (n : Nat) :
    (List.range n).countP (fun k => insns[k]?.any f) = (insns.take n).countP f := by
  induction n with
  | zero => rfl
  | succ n ih =>
    rw [List.range_succ, List.countP_append, ih, List.take_add_one, List.countP_append]
    cases h : insns[n]? <;> simp [h]

/-- What the audit says of every place in a stream: flags name stages that exist, a token
is given to an empty channel and taken from one that holds it, and none is left. -/
structure Balanced (insns : List Instruction) : Prop where
  flagged : ∀ i ∈ insns, i.moves.isOk = true
  gives : ∀ {n c}, givesAt insns c n = true →
    (List.range n).countP (givesAt insns c) = (List.range n).countP (takesAt insns c)
  takes : ∀ {n c}, takesAt insns c n = true →
    (List.range n).countP (givesAt insns c) = (List.range n).countP (takesAt insns c) + 1
  even : ∀ c, (List.range insns.length).countP (givesAt insns c) =
    (List.range insns.length).countP (takesAt insns c)

/-- **The audit accepts balanced streams only.** -/
theorem audit_balanced {insns : List Instruction} (h : audit insns = .ok ()) : Balanced insns := by
  obtain ⟨t, hrun, h⟩ := Outcome.bind_eq_ok.1 h
  -- before and after instruction `n` each channel holds one token or none
  have hat : ∀ {n : Nat} {i : Instruction}, insns[n]? = some i → i.moves.isOk = true ∧
      ∀ c, ∃ x : Int, x = (List.range n).countP (givesAt insns c) -
          (List.range n).countP (takesAt insns c) ∧ (x = 0 ∨ x = 1) ∧
        (x + (i.gives c).toNat - (i.takes c).toNat = 0 ∨
          x + (i.gives c).toNat - (i.takes c).toNat = 1) := by
    intro n i hi
    obtain ⟨hn, rfl⟩ := List.getElem?_eq_some_iff.1 hi
    have hsplit : insns = insns.take n ++ insns[n] :: insns.drop (n + 1) := by
      rw [← List.drop_eq_getElem_cons hn, List.take_append_drop]
    rw [hsplit] at hrun
    obtain ⟨t1, h1, h2⟩ := Tokens.run_append_eq_ok.1 hrun
    obtain ⟨t2, h2, -⟩ := Tokens.run_cons_eq_ok.1 h2
    obtain ⟨hb1, hget1⟩ := Tokens.run_balance Tokens.binary_zero h1
    obtain ⟨hflags, hb2, hget2⟩ := Tokens.step_balance hb1 h2
    refine ⟨hflags, fun c => ⟨t1.get c, ?_, hb1 c, by rw [← hget2]; exact hb2 c⟩⟩
    unfold givesAt takesAt
    rw [hget1, countP_range_at, countP_range_at]
    cases c <;> simp [Tokens.get]
  constructor
  case flagged =>
    intro i hi
    obtain ⟨n, hn⟩ := List.mem_iff_getElem?.1 hi
    exact (hat hn).1
  case gives =>
    intro n c hg
    obtain ⟨i, hi, hgives⟩ := (Option.any_eq_true _ _).1 hg
    obtain ⟨x, hx, hbefore, hafter⟩ := (hat hi).2 c
    rw [hgives, Instruction.not_takes_of_gives hgives, Bool.toNat_true, Bool.toNat_false] at hafter
    omega
  case takes =>
    intro n c ht
    obtain ⟨i, hi, htakes⟩ := (Option.any_eq_true _ _).1 ht
    obtain ⟨x, hx, hbefore, hafter⟩ := (hat hi).2 c
    rw [Instruction.not_gives_of_takes htakes, htakes, Bool.toNat_true, Bool.toNat_false] at hafter
    omega
  case even =>
    intro c
    split at h
    swap
    · cases h
    rename_i hz
    obtain rfl : t = {} := by simpa [Tokens.isZero] using hz
    have hget := (Tokens.run_balance Tokens.binary_zero hrun).2 c
    unfold givesAt takesAt
    rw [countP_range_at, countP_range_at, List.take_length]
    have : (0 : Int) = insns.countP (·.gives c) - insns.countP (·.takes c) := by
      cases c <;> simpa [Tokens.get] using hget
    omega

/-- Three stages at work: the numbers of the instructions that each has still to run, in
order, and the tokens on each channel. -/
structure Pipeline where
  queue : Stage → List Nat
  tokens : Channel → Nat

namespace Pipeline

/-- Nothing has run: each stage has its instructions of the stream before it, and there
are no tokens. -/
def start (insns : List Instruction) : Pipeline where
  queue s := (List.range insns.length).filter (stageAt insns s)
  tokens _ := 0

/-- Whether the tokens that an instruction takes are there. Flags that name a stage that
does not exist hold it up for good. -/
def Ready (p : Pipeline) (i : Instruction) : Prop :=
  i.moves.isOk = true ∧ ∀ c, i.takes c = true → 0 < p.tokens c

/-- A stage runs the first of its instructions, which takes its tokens and gives others. -/
inductive Fires (insns : List Instruction) (p : Pipeline) : Nat → Pipeline → Prop
  | head {s : Stage} {n : Nat} {rest : List Nat} {i : Instruction} (hqueue : p.queue s = n :: rest)
    (hat : insns[n]? = some i) (hready : p.Ready i) :
    Fires insns p n
      { queue := Function.update p.queue s rest
        tokens := fun c => p.tokens c - (i.takes c).toNat + (i.gives c).toNat }

/-- The stages run in any interleaving: which instructions have fired, in order, and the
state then. -/
inductive Runs (insns : List Instruction) : List Nat → Pipeline → Prop
  | start : Runs insns [] (.start insns)
  | fire {fired : List Nat} {p p' : Pipeline} {n : Nat} (before : Runs insns fired p)
    (hfires : p.Fires insns n p') : Runs insns (fired ++ [n]) p'

end Pipeline

/-- A state that follows from what has fired: every stage has fired the first of its
instructions, and each channel holds what was given less what was taken. -/
structure Consistent (insns : List Instruction) (fired : List Nat) (p : Pipeline) : Prop where
  queues : ∀ s, fired.filter (stageAt insns s) ++ p.queue s =
    (List.range insns.length).filter (stageAt insns s)
  tokens : ∀ c, p.tokens c + fired.countP (takesAt insns c) = fired.countP (givesAt insns c)
  inside : ∀ n ∈ fired, n < insns.length

namespace Consistent

variable {insns : List Instruction} {fired : List Nat} {p p' : Pipeline} {n : Nat}

theorem start (insns : List Instruction) : Consistent insns [] (.start insns) :=
  ⟨fun _ => rfl, fun _ => rfl, fun _ h => by cases h⟩

/-- **What fires next keeps the state consistent.** -/
theorem fires (h : Consistent insns fired p) (hf : p.Fires insns n p') :
    Consistent insns (fired ++ [n]) p' := by
  obtain ⟨hqueue, hat, hready⟩ := hf
  rename_i s rest i
  -- the instruction stands in the queue of its own stage
  have hmem : n ∈ (List.range insns.length).filter (stageAt insns s) := by
    rw [← h.queues s, hqueue]
    simp
  obtain ⟨hn, hstage⟩ := List.mem_filter.1 hmem
  refine ⟨fun s' => ?_, fun c => ?_, fun k hk => ?_⟩
  · show _ ++ Function.update p.queue s rest s' = _
    rw [List.filter_append, ← h.queues s', List.append_assoc]
    by_cases hs : s' = s
    · subst hs
      rw [hqueue, List.filter_cons_of_pos hstage, Function.update_self]
      rfl
    · have hother : stageAt insns s' n = false := by
        unfold stageAt at hstage ⊢
        rw [hat] at hstage ⊢
        simp only [Option.any_some, beq_iff_eq, beq_eq_false_iff_ne] at hstage ⊢
        exact fun heq => hs (heq.symm.trans hstage)
      rw [List.filter_cons_of_neg (by rw [hother]; simp), Function.update_of_ne hs]
      rfl
  · have htokens := h.tokens c
    have hpos := hready.2 c
    have hg : givesAt insns c n = i.gives c := by simp [givesAt, hat]
    have ht : takesAt insns c n = i.takes c := by simp [takesAt, hat]
    simp only [List.countP_append, List.countP_singleton, hg, ht]
    cases htc : i.takes c <;> cases i.gives c <;> simp [htc] at hpos ⊢ <;> omega
  · rcases List.mem_append.1 hk with hk | hk
    · exact h.inside k hk
    · rw [List.mem_singleton.1 hk]
      exact List.mem_range.1 hn

end Consistent

namespace Pipeline.Runs

variable {insns : List Instruction} {fired : List Nat} {p : Pipeline}

/-- **Every state that is reached is consistent.** -/
theorem consistent (h : Pipeline.Runs insns fired p) : Consistent insns fired p := by
  induction h with
  | start => exact .start insns
  | fire _ hf ih => exact ih.fires hf

/-- What had fired earlier was a run too. -/
theorem earlier {xs ys : List Nat} (h : Pipeline.Runs insns fired p) (heq : fired = xs ++ ys) :
    ∃ p', Pipeline.Runs insns xs p' := by
  induction h generalizing ys with
  | start =>
    obtain ⟨rfl, -⟩ := List.append_eq_nil_iff.1 heq.symm
    exact ⟨_, .start⟩
  | fire before hf ih =>
    rcases List.eq_nil_or_concat ys with rfl | ⟨zs, z, rfl⟩
    · rw [List.append_nil] at heq
      exact ⟨_, heq ▸ before.fire hf⟩
    · rw [List.concat_eq_append, ← List.append_assoc] at heq
      exact ih (List.append_inj' heq rfl).1

end Pipeline.Runs

theorem countP_le_of_subset {xs ys : List Nat} {f : Nat → Bool} (hx : xs.Nodup)
    (h : ∀ x ∈ xs, f x = true → x ∈ ys) : xs.countP f ≤ ys.countP f := by
  rw [List.countP_eq_length_filter, List.countP_eq_length_filter]
  refine (List.subperm_of_subset (hx.filter f) fun x hmem => ?_).length_le
  obtain ⟨hxs, hf⟩ := List.mem_filter.1 hmem
  exact List.mem_filter.2 ⟨h x hxs hf, hf⟩

theorem stageAt_unique {insns : List Instruction} {s s' : Stage} {n : Nat}
    (h : stageAt insns s n = true) (h' : stageAt insns s' n = true) : s = s' := by
  obtain ⟨i, hi, hs⟩ := (Option.any_eq_true _ _).1 h
  obtain ⟨j, hj, hs'⟩ := (Option.any_eq_true _ _).1 h'
  rw [hi] at hj
  cases hj
  simp only [beq_iff_eq] at hs hs'
  exact hs.symm.trans hs'

theorem stageAt_of_givesAt {insns : List Instruction} {c : Channel} {n : Nat}
    (h : givesAt insns c n = true) : stageAt insns c.giver n = true := by
  obtain ⟨i, hi, hg⟩ := (Option.any_eq_true _ _).1 h
  simp [stageAt, hi, Instruction.gives_stage hg]

theorem stageAt_of_takesAt {insns : List Instruction} {c : Channel} {n : Nat}
    (h : takesAt insns c n = true) : stageAt insns c.taker n = true := by
  obtain ⟨i, hi, ht⟩ := (Option.any_eq_true _ _).1 h
  simp [stageAt, hi, Instruction.takes_stage ht]

namespace Consistent

variable {insns : List Instruction} {fired : List Nat} {p : Pipeline} {c : Channel} {n m : Nat}

/-- Every instruction fires at most once. -/
theorem nodup (h : Consistent insns fired p) : fired.Nodup := by
  refine List.nodup_iff_count_le_one.2 fun n => ?_
  by_cases hn : n ∈ fired
  swap
  · rw [List.count_eq_zero_of_not_mem hn]
    exact Nat.zero_le 1
  have hlt := h.inside n hn
  have hstage : stageAt insns insns[n].stage n = true := by simp [stageAt, hlt]
  calc fired.count n
      = (fired.filter (stageAt insns insns[n].stage)).count n := (List.count_filter hstage).symm
    _ ≤ ((List.range insns.length).filter (stageAt insns insns[n].stage)).count n := by
        rw [← h.queues, List.count_append]
        exact Nat.le_add_right _ _
    _ ≤ 1 := List.nodup_iff_count_le_one.1 (List.nodup_range.filter _) n

/-- **A stage fires its instructions in order.** -/
theorem fifo (h : Consistent insns fired p) {s : Stage} (hn : stageAt insns s n = true)
    (hm : stageAt insns s m = true) (hlt : n < m) (hfired : m ∈ fired) : n ∈ fired := by
  have hmem : n ∈ fired.filter (stageAt insns s) ++ p.queue s := by
    rw [h.queues]
    exact List.mem_filter.2 ⟨List.mem_range.2 (Nat.lt_trans hlt (h.inside m hfired)), hn⟩
  rcases List.mem_append.1 hmem with hmem | hmem
  · exact (List.mem_filter.1 hmem).1
  -- what waits comes after what has fired
  have hsorted : (fired.filter (stageAt insns s) ++ p.queue s).Pairwise (· < ·) := by
    rw [h.queues]
    exact List.pairwise_lt_range.filter _
  have := (List.pairwise_append.1 hsorted).2.2 m (List.mem_filter.2 ⟨hfired, hm⟩) n hmem
  omega

theorem fifo_le (h : Consistent insns fired p) {s : Stage} (hn : stageAt insns s n = true)
    (hm : stageAt insns s m = true) (hle : n ≤ m) (hfired : m ∈ fired) : n ∈ fired := by
  rcases Nat.eq_or_lt_of_le hle with rfl | hlt
  · exact hfired
  · exact h.fifo hn hm hlt hfired

/-- If an instruction that gives has not fired, only those before it have given. -/
theorem given_le (h : Consistent insns fired p) (hg : givesAt insns c n = true)
    (hn : n ∉ fired) :
    fired.countP (givesAt insns c) ≤ (List.range n).countP (givesAt insns c) := by
  refine countP_le_of_subset h.nodup fun m hm hgm => List.mem_range.2 ?_
  by_contra hle
  rcases Nat.eq_or_lt_of_le (Nat.not_lt.1 hle) with rfl | hlt
  · exact hn hm
  · exact hn (h.fifo (stageAt_of_givesAt hg) (stageAt_of_givesAt hgm) hlt hm)

/-- If an instruction that takes has not fired, only those before it have taken. -/
theorem taken_le (h : Consistent insns fired p) (ht : takesAt insns c n = true)
    (hn : n ∉ fired) :
    fired.countP (takesAt insns c) ≤ (List.range n).countP (takesAt insns c) := by
  refine countP_le_of_subset h.nodup fun m hm htm => List.mem_range.2 ?_
  by_contra hle
  rcases Nat.eq_or_lt_of_le (Nat.not_lt.1 hle) with rfl | hlt
  · exact hn hm
  · exact hn (h.fifo (stageAt_of_takesAt ht) (stageAt_of_takesAt htm) hlt hm)

/-- If an instruction that takes has fired, those before it have taken too. -/
theorem le_taken (h : Consistent insns fired p) (ht : takesAt insns c n = true)
    (hn : n ∈ fired) :
    (List.range n).countP (takesAt insns c) + 1 ≤ fired.countP (takesAt insns c) := by
  have hsucc : (List.range (n + 1)).countP (takesAt insns c) =
      (List.range n).countP (takesAt insns c) + 1 := by
    rw [List.range_succ, List.countP_append, List.countP_singleton, if_pos ht]
  rw [← hsucc]
  refine countP_le_of_subset List.nodup_range fun m hm htm => ?_
  rcases Nat.eq_or_lt_of_le (Nat.le_of_lt_succ (List.mem_range.1 hm)) with rfl | hlt
  · exact hn
  · exact h.fifo (stageAt_of_takesAt htm) (stageAt_of_takesAt ht) hlt hn

/-- **A token is given before it is taken**: an instruction that takes from a channel
fires after every one that stands before it and gives to that channel. -/
theorem given_first (h : Consistent insns fired p) (hb : Balanced insns)
    (hg : givesAt insns c n = true) (ht : takesAt insns c m = true) (hlt : n < m)
    (hfired : m ∈ fired) : n ∈ fired := by
  by_contra hn
  have h1 := h.given_le hg hn
  have h2 := h.le_taken ht hfired
  have h3 := hb.gives hg
  have h4 := h.tokens c
  have h5 : (List.range n).countP (takesAt insns c) ≤ (List.range m).countP (takesAt insns c) :=
    countP_le_of_subset List.nodup_range fun k hk _ =>
      List.mem_range.2 (Nat.lt_trans (List.mem_range.1 hk) hlt)
  omega

/-- **The first instruction that has not fired can fire.** -/
theorem first_ready (h : Consistent insns fired p) (hb : Balanced insns) (hlen : n < insns.length)
    (hn : n ∉ fired) (hfirst : ∀ m < n, m ∈ fired) : ∃ p', p.Fires insns n p' := by
  have hat : insns[n]? = some insns[n] := List.getElem?_eq_getElem hlen
  have hstage : stageAt insns insns[n].stage n = true := by simp [stageAt, hlen]
  -- it is the first that waits on its stage
  have hwaits : n ∈ p.queue insns[n].stage := by
    have hmem : n ∈ fired.filter (stageAt insns insns[n].stage) ++ p.queue insns[n].stage := by
      rw [h.queues]
      exact List.mem_filter.2 ⟨List.mem_range.2 hlen, hstage⟩
    exact (List.mem_append.1 hmem).resolve_left fun hf => hn (List.mem_filter.1 hf).1
  have hsorted : (fired.filter (stageAt insns insns[n].stage) ++
      p.queue insns[n].stage).Pairwise (· < ·) := by
    rw [h.queues]
    exact List.pairwise_lt_range.filter _
  obtain ⟨m, rest, hqueue⟩ := List.exists_cons_of_ne_nil (List.ne_nil_of_mem hwaits)
  obtain rfl : m = n := by
    by_contra hne
    obtain ⟨-, hq, hcross⟩ := List.pairwise_append.1 hsorted
    rw [hqueue] at hq hwaits
    have hlt : m < n := by
      rcases List.mem_cons.1 hwaits with rfl | hrest
      · exact absurd rfl hne
      · exact (List.pairwise_cons.1 hq).1 n hrest
    -- `m` is before `n`, so it has fired and cannot wait
    have hm : stageAt insns insns[n].stage m = true := by
      have : m ∈ (List.range insns.length).filter (stageAt insns insns[n].stage) := by
        rw [← h.queues, hqueue]
        simp
      exact (List.mem_filter.1 this).2
    have := hcross m (List.mem_filter.2 ⟨hfirst m hlt, hm⟩) m (by rw [hqueue]; simp)
    omega
  refine ⟨_, .head hqueue hat ⟨hb.flagged _ (List.getElem_mem hlen), fun c htakes => ?_⟩⟩
  have ht : takesAt insns c m = true := by simp [takesAt, hat, htakes]
  have h1 := hb.takes ht
  have h2 := h.taken_le ht hn
  have h3 := h.tokens c
  have h4 : (List.range m).countP (givesAt insns c) ≤ fired.countP (givesAt insns c) :=
    countP_le_of_subset List.nodup_range fun k hk _ => hfirst k (List.mem_range.1 hk)
  omega

/-- A channel holds at most one token if whoever gives to it has waited for those before
it that take from it. -/
theorem token_le_one (h : Consistent insns fired p) (hb : Balanced insns)
    (hwait : ∀ n m, givesAt insns c n = true → n ∈ fired → takesAt insns c m = true → m < n →
      m ∈ fired) : p.tokens c ≤ 1 := by
  have htokens := h.tokens c
  by_cases hnone : fired.countP (givesAt insns c) = 0
  · omega
  -- the last instruction that gave
  have hsome : ∃ n, (fired.filter (givesAt insns c)).max? = some n := by
    rw [List.countP_eq_length_filter] at hnone
    rcases hmax : (fired.filter (givesAt insns c)).max? with - | n
    · rw [List.max?_eq_none_iff] at hmax
      rw [hmax] at hnone
      exact absurd rfl hnone
    · exact ⟨n, rfl⟩
  obtain ⟨n, hmax⟩ := hsome
  obtain ⟨hmem, hle⟩ := List.max?_eq_some_iff.1 hmax
  obtain ⟨hn, hg⟩ := List.mem_filter.1 hmem
  have h1 : fired.countP (givesAt insns c) ≤ (List.range (n + 1)).countP (givesAt insns c) :=
    countP_le_of_subset h.nodup fun m hm hgm =>
      List.mem_range.2 (Nat.lt_succ_of_le (hle m (List.mem_filter.2 ⟨hm, hgm⟩)))
  have h2 : (List.range n).countP (takesAt insns c) ≤ fired.countP (takesAt insns c) :=
    countP_le_of_subset List.nodup_range fun m hm htm => hwait n m hg hn htm (List.mem_range.1 hm)
  have h3 := hb.gives hg
  rw [List.range_succ, List.countP_append, List.countP_singleton, if_pos hg] at h1
  omega

/-- As long as something has not fired, something can. -/
theorem progress (h : Consistent insns fired p) (hb : Balanced insns)
    (hlt : fired.length < insns.length) : ∃ n p', p.Fires insns n p' := by
  have hsome : ∃ n, n < insns.length ∧ n ∉ fired := by
    by_contra hnone
    push Not at hnone
    have := (List.subperm_of_subset List.nodup_range
      fun n hn => hnone n (List.mem_range.1 hn)).length_le
    rw [List.length_range] at this
    omega
  obtain ⟨hlen, hn⟩ := Nat.find_spec hsome
  refine ⟨_, h.first_ready hb hlen hn fun m hm => ?_⟩
  by_contra hnot
  exact Nat.find_min hsome hm ⟨by omega, hnot⟩

/-- When as many have fired as there are, all have. -/
theorem perm_range (h : Consistent insns fired p) (hall : insns.length ≤ fired.length) :
    fired.Perm (List.range insns.length) := by
  have hsub : fired.Subperm (List.range insns.length) :=
    List.subperm_of_subset h.nodup fun n hn => List.mem_range.2 (h.inside n hn)
  exact hsub.perm_of_length_le (by rwa [List.length_range])

/-- When everything has fired, nothing waits. -/
theorem queue_eq_nil (h : Consistent insns fired p) (hall : insns.length ≤ fired.length)
    (s : Stage) : p.queue s = [] := by
  have hlen := congrArg List.length (h.queues s)
  rw [List.length_append, ((h.perm_range hall).filter _).length_eq] at hlen
  exact List.eq_nil_of_length_eq_zero (by omega)

/-- When everything has fired, no token is left. -/
theorem complete (h : Consistent insns fired p) (hb : Balanced insns)
    (hall : insns.length ≤ fired.length) : p.tokens c = 0 := by
  have hperm := h.perm_range hall
  have h1 := h.tokens c
  have h2 := hb.even c
  rw [hperm.countP_eq, hperm.countP_eq] at h1
  omega

end Consistent

/-- **An audited stream runs to its end in any interleaving of the stages.** However they
have run so far, every instruction has fired at most once; as long as some have not, one of
them can; and when all have, no token is left. -/
theorem audit_unstuck {insns : List Instruction} (h : audit insns = .ok ()) {fired : List Nat}
    {p : Pipeline} (hrun : Pipeline.Runs insns fired p) :
    (fired.Nodup ∧ ∀ n ∈ fired, n < insns.length) ∧
      (fired.length < insns.length → ∃ n p', p.Fires insns n p') ∧
      (fired.length = insns.length → ∀ c, p.tokens c = 0) := by
  have hb := audit_balanced h
  have hc := hrun.consistent
  exact ⟨⟨hc.nodup, hc.inside⟩, hc.progress hb, fun hall c => hc.complete hb (Nat.le_of_eq hall.symm)⟩

/-- A product that releases a store, and between them a load that nothing holds up. -/
def productAndStore : List Instruction :=
  [{ opcode := .gemm, flags := { pushNext := true } }, .nopLoad,
    { Instruction.nopStore with flags := { popPrev := true } }]

/-- The load may come first; then the product has fired, and the store can. -/
theorem productAndStore_unstuck :
    audit productAndStore = .ok () ∧ ∃ p, Pipeline.Runs productAndStore [1, 0] p ∧
      ([1, 0].Nodup ∧ ∀ n ∈ [1, 0], n < productAndStore.length) ∧
      ([1, 0].length < productAndStore.length → ∃ n p', p.Fires productAndStore n p') ∧
      ([1, 0].length = productAndStore.length → ∀ c, p.tokens c = 0) := by
  have haudit : audit productAndStore = .ok () := by decide
  have hload : ((Pipeline.start productAndStore).Fires productAndStore 1 _) :=
    .head (show (Pipeline.start productAndStore).queue .load = [1] by decide) rfl
      ⟨by decide, fun c => by cases c <;> decide⟩
  have hrun := (Pipeline.Runs.start.fire hload).fire
    (.head (s := .compute) (show _ = [0] by decide) rfl ⟨by decide, fun c => by cases c <;> decide⟩)
  exact ⟨haudit, _, hrun, audit_unstuck haudit hrun⟩

end Tessera
