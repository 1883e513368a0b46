import Tessera.Proofs.Sharing

/-!
# Workers that draw their work from a counter

Work on indices is handed out one index at a time. Each worker draws an index from a counter
that all share, runs the task of that index action by action, and draws again; it goes when
the index that it has drawn is behind the last. Drawing is one step: nobody else reads the
counter before it is counted up. Between two steps of a worker any other may take any number of
steps.

If each task minds only its own part of what the workers share, the order of their steps does
not matter: every index is worked on once, no worker waits for another, all of them have gone
after finitely many steps, and what they leave behind is what their tasks do one by one.

* `Job`, `Crew`, `Crew.Step`, `Crew.Runs`: tasks for indices, workers, and the runs of a crew.
* `Crew.Consistent`: the counter, the indices drawn and the workers in every state of a run.
* `Crew.potential`: the steps that a crew can still take.
* `Job.Separated`: tasks that mind their own part; `Crew.Knows`: what is known then.
* `Job.Separated.crew`: the runs of a crew whose tasks are separated.
-/

namespace Tessera

/-- Work for each index: how its task starts, and what the next action of a task does to what the
workers share and to the task itself. A task without a next action is done. -/
structure Job (σ τ : Type) where
  start : Int → Outcome τ
  act : σ → τ → Option (σ × τ)

/-- What a worker is at: it draws an index next, it works on one, or it has gone. -/
inductive Turn (τ : Type) where
  | idle
  | busy (index : Int) (task : τ)
  | gone

namespace Turn

variable {τ : Type}

/-- Whether the worker has gone. -/
def isGone : Turn τ → Bool
  | idle => false
  | busy _ _ => false
  | gone => true

/-- The index that the worker is at. -/
def index? : Turn τ → Option Int
  | idle => none
  | busy i _ => some i
  | gone => none

/-- How many of some workers have gone. -/
def countGone (turns : List (Turn τ)) : Nat := turns.countP isGone

/-- The indices that some workers are at. -/
def held (turns : List (Turn τ)) : List Int := turns.filterMap index?

variable (before after : List (Turn τ))

theorem mem_middle {turn turn' : Turn τ} :
    turn' ∈ before ++ turn :: after ↔ turn' = turn ∨ turn' ∈ before ++ after := by
  rw [List.perm_middle.mem_iff, List.mem_cons]

/-- One worker more has gone if it has. -/
theorem countGone_middle (turn : Turn τ) :
    countGone (before ++ turn :: after) = countGone (before ++ after) + turn.isGone.toNat := by
  unfold countGone
  rw [(List.perm_middle (a := turn)).countP_eq, List.countP_cons]
  cases turn.isGone <;> rfl

/-- One index more is held if the worker is at one. -/
theorem held_middle (turn : Turn τ) :
    (held (before ++ turn :: after)).Perm (turn.index?.toList ++ held (before ++ after)) :=
  filterMap_middle index? before after turn

theorem countGone_le : countGone before ≤ before.length := List.countP_le_length

theorem held_eq_nil {turns : List (Turn τ)} (h : ∀ turn ∈ turns, turn = .gone) : held turns = [] := by
  refine List.filterMap_eq_nil_iff.2 fun turn hturn => ?_
  rw [h turn hturn]
  rfl

theorem mem_held {turns : List (Turn τ)} {i : Int} :
    i ∈ held turns ↔ ∃ task, .busy i task ∈ turns := by
  simp only [held, List.mem_filterMap]
  constructor
  · rintro ⟨turn, hturn, hindex⟩
    cases turn with
    | busy j task =>
      obtain rfl := Option.some.inj hindex
      exact ⟨task, hturn⟩
    | idle => cases hindex
    | gone => cases hindex
  · rintro ⟨task, hturn⟩
    exact ⟨_, hturn, rfl⟩

end Turn

/-- Workers with what they share, the counter that they draw indices from, and the indices
whose tasks have begun, in order. -/
structure Crew (σ τ : Type) where
  shared : σ
  counter : Int
  turns : List (Turn τ)
  begun : List Int

namespace Crew

variable {σ τ : Type}

/-- The index that is drawn: the counter before it was counted up. -/
def drawn (counter : Int) : Int := wrap64 (wrap64 (counter + 1) - 1)

/-- A worker takes a step. One that has drawn an index below `n` begins with its task, which
reads nothing that is shared; a task that cannot be begun leaves its worker stuck. -/
inductive Step (job : Job σ τ) (n : Int) : Crew σ τ → Crew σ τ → Prop
  | draw {s : σ} {counter : Int} {before after : List (Turn τ)} {begun : List Int} {task : τ}
    (hlt : drawn counter < n) (hstart : job.start (drawn counter) = .ok task) :
    Step job n ⟨s, counter, before ++ .idle :: after, begun⟩
      ⟨s, wrap64 (counter + 1), before ++ .busy (drawn counter) task :: after,
        begun ++ [drawn counter]⟩
  | leave {s : σ} {counter : Int} {before after : List (Turn τ)} {begun : List Int}
    (hle : n ≤ drawn counter) :
    Step job n ⟨s, counter, before ++ .idle :: after, begun⟩
      ⟨s, wrap64 (counter + 1), before ++ .gone :: after, begun⟩
  | act {s s' : σ} {counter i : Int} {before after : List (Turn τ)} {begun : List Int} {task task' : τ}
    (hact : job.act s task = some (s', task')) :
    Step job n ⟨s, counter, before ++ .busy i task :: after, begun⟩
      ⟨s', counter, before ++ .busy i task' :: after, begun⟩
  | finish {s : σ} {counter i : Int} {before after : List (Turn τ)} {begun : List Int} {task : τ}
    (hact : job.act s task = none) :
    Step job n ⟨s, counter, before ++ .busy i task :: after, begun⟩
      ⟨s, counter, before ++ .idle :: after, begun⟩

/-- Workers before their first step. -/
def start (workers : Nat) (s : σ) : Crew σ τ := ⟨s, 0, List.replicate workers .idle, []⟩

/-- The states that workers reach, with the number of steps. -/
inductive Runs (job : Job σ τ) (n : Int) (crew₀ : Crew σ τ) : Nat → Crew σ τ → Prop
  | start : Runs job n crew₀ 0 crew₀
  | step {m : Nat} {crew crew' : Crew σ τ} (before : Runs job n crew₀ m crew)
    (hstep : Step job n crew crew') : Runs job n crew₀ (m + 1) crew'

/-- All workers have gone. -/
def Over (crew : Crew σ τ) : Prop := ∀ turn ∈ crew.turns, turn = .gone

end Crew

/-- **Whatever turns the workers take**, what they do comes to an end, none of them is ever stuck,
and in the end they share `t`. -/
structure Job.Computes {σ τ : Type} (job : Job σ τ) (n : Int) (workers : Nat) (s t : σ) : Prop where
  bounded : ∃ bound, ∀ m crew, Crew.Runs job n (.start workers s) m crew → m ≤ bound
  unstuck : ∀ m crew, Crew.Runs job n (.start workers s) m crew → ¬crew.Over →
    ∃ crew', Crew.Step job n crew crew'
  result : ∀ m crew, Crew.Runs job n (.start workers s) m crew → crew.Over → crew.shared = t

/-- How many workers share the work on `n` indices. Work that is done on the spot is that of a single
worker. -/
def Workers.hands (w : Option Workers) (n : Int) : Nat :=
  if inline w then 1 else (min (size w : Int) n).toNat

/-- There is someone to do the work, if there is any. -/
theorem Workers.hands_pos {w : Option Workers} (hw : ∀ x ∈ w, 0 < x.count) {n : Int} (hn : 0 < n) :
    1 ≤ hands w n := by
  have hsize := size_pos hw
  unfold hands
  split <;> omega

/-- No more share the work than there is work for, or one. -/
theorem Workers.hands_le (w : Option Workers) (n : Int) : hands w n ≤ max 1 n.toNat := by
  unfold hands
  split <;> omega

namespace Crew

variable {σ τ : Type} {job : Job σ τ} {n : Int} {workers : Nat} {crew crew' : Crew σ τ}

/-- As long as a worker has not gone it can take a step, if the task of the index that is drawn next can
be begun. -/
theorem exists_step (hstart : .idle ∈ crew.turns → drawn crew.counter < n →
    ∃ task, job.start (drawn crew.counter) = .ok task) (hover : ¬crew.Over) :
    ∃ crew', Step job n crew crew' := by
  unfold Over at hover
  push Not at hover
  obtain ⟨turn, hturn, hgone⟩ := hover
  obtain ⟨s, counter, turns, begun⟩ := crew
  obtain ⟨before, after, rfl⟩ := List.append_of_mem hturn
  cases turn with
  | idle =>
    by_cases hlt : drawn counter < n
    · obtain ⟨task, htask⟩ := hstart hturn hlt
      exact ⟨_, .draw hlt htask⟩
    · exact ⟨_, .leave (by omega)⟩
  | busy i task =>
    cases hact : job.act s task with
    | none => exact ⟨_, .finish hact⟩
    | some next =>
      obtain ⟨s', task'⟩ := next
      exact ⟨_, .act hact⟩
  | gone => exact absurd rfl hgone

/-- What every action keeps, holds of what the workers share throughout a run. -/
theorem Runs.keeps {P : σ → Prop} {s : σ} {m : Nat} (hs : P s)
    (hact : ∀ s s' task task', job.act s task = some (s', task') → P s → P s')
    (h : Runs job n (Crew.start workers s) m crew) : P crew.shared := by
  induction h with
  | start => exact hs
  | step _ hstep ih =>
    cases hstep with
    | draw => exact ih
    | leave => exact ih
    | act h => exact hact _ _ _ _ h ih
    | finish => exact ih

/-- The indices drawn are those from zero on, and the counter counts them and the workers that have
gone; nobody goes before all indices are drawn, and no two workers are at one index. -/
structure Consistent (n : Int) (workers : Nat) (crew : Crew σ τ) : Prop where
  size : crew.turns.length = workers
  begun : crew.begun = below crew.begun.length
  le : crew.begun.length ≤ n.toNat
  counter : crew.counter = crew.begun.length + Turn.countGone crew.turns
  last : Turn.countGone crew.turns = 0 ∨ crew.begun.length = n.toNat
  busy : ∀ i ∈ Turn.held crew.turns, 0 ≤ i ∧ i < crew.begun.length
  alone : (Turn.held crew.turns).Nodup

namespace Consistent

theorem start (s : σ) : Consistent n workers (Crew.start workers s : Crew σ τ) := by
  have hgone : Turn.countGone (List.replicate workers (.idle : Turn τ)) = 0 := by
    simp [Turn.countGone, List.countP_replicate, Turn.isGone]
  have hheld : Turn.held (List.replicate workers (.idle : Turn τ)) = [] := by
    simp [Turn.held, List.filterMap_replicate, Turn.index?]
  refine ⟨List.length_replicate, rfl, Nat.zero_le _, ?_, Or.inl hgone, ?_, ?_⟩
  · show (0 : Int) = _ + (Turn.countGone (List.replicate workers (.idle : Turn τ)) : Nat)
    rw [hgone]
    rfl
  · show ∀ i ∈ Turn.held (List.replicate workers (.idle : Turn τ)), _
    rw [hheld]
    exact fun i hi => absurd hi List.not_mem_nil
  · show (Turn.held (List.replicate workers (.idle : Turn τ))).Nodup
    rw [hheld]
    exact List.nodup_nil

/-- What is known of a worker and of the others. -/
theorem middle {s : σ} {counter : Int} {before after : List (Turn τ)} {turn : Turn τ}
    {begun : List Int} : Consistent n workers ⟨s, counter, before ++ turn :: after, begun⟩ ↔
      (before ++ after).length + 1 = workers ∧ begun = below begun.length ∧
      begun.length ≤ n.toNat ∧
      counter = begun.length + (Turn.countGone (before ++ after) + turn.isGone.toNat : Nat) ∧
      (Turn.countGone (before ++ after) + turn.isGone.toNat = 0 ∨ begun.length = n.toNat) ∧
      (∀ i ∈ turn.index?.toList ++ Turn.held (before ++ after), 0 ≤ i ∧ i < begun.length) ∧
      (turn.index?.toList ++ Turn.held (before ++ after)).Nodup := by
  have hlength : (before ++ turn :: after).length = (before ++ after).length + 1 :=
    List.perm_middle.length_eq
  have hgone := Turn.countGone_middle before after turn
  have hheld := Turn.held_middle before after turn
  constructor
  · rintro ⟨hsize, hbegun, hle, hcounter, hlast, hbusy, halone⟩
    simp only [hgone] at hcounter hlast
    exact ⟨hlength.symm.trans hsize, hbegun, hle, hcounter, hlast,
      fun i hi => hbusy i (hheld.mem_iff.2 hi), hheld.nodup_iff.1 halone⟩
  · rintro ⟨hsize, hbegun, hle, hcounter, hlast, hbusy, halone⟩
    rw [← hgone] at hcounter hlast
    exact ⟨hlength.trans hsize, hbegun, hle, hcounter, hlast,
      fun i hi => hbusy i (hheld.mem_iff.1 hi), hheld.nodup_iff.2 halone⟩

/-- A worker that draws gets what the counter was. -/
theorem drawn_eq {s : σ} {counter : Int} {before after : List (Turn τ)} {begun : List Int}
    (h : Consistent n workers ⟨s, counter, before ++ .idle :: after, begun⟩)
    (hfew : n.toNat + workers < 9223372036854775808) :
    drawn counter = counter ∧ wrap64 (counter + 1) = counter + 1 := by
  obtain ⟨hsize, -, hle, hcounter, -⟩ := middle.1 h
  have hgone := Turn.countGone_le (before ++ after)
  rw [Turn.isGone, Bool.toNat_false] at hcounter
  have hup : wrap64 (counter + 1) = counter + 1 := wrap64_small (by omega) (by omega)
  refine ⟨?_, hup⟩
  unfold drawn
  rw [hup, Int.add_sub_cancel]
  exact wrap64_small (by omega) (by omega)

/-- As long as there are indices to draw nobody has gone, so that the next index is the number of
those drawn. -/
theorem draws {s : σ} {counter : Int} {before after : List (Turn τ)} {begun : List Int}
    (h : Consistent n workers ⟨s, counter, before ++ .idle :: after, begun⟩)
    (hfew : n.toNat + workers < 9223372036854775808) (hlt : drawn counter < n) :
    drawn counter = begun.length ∧ counter = begun.length ∧
      Turn.countGone (before ++ after) = 0 := by
  obtain ⟨hdrawn, -⟩ := h.drawn_eq hfew
  obtain ⟨-, -, -, hcounter, hlast, -⟩ := middle.1 h
  simp only [Turn.isGone, Bool.toNat_false] at hcounter hlast
  rw [hdrawn] at hlt ⊢
  have hnone : Turn.countGone (before ++ after) = 0 := by
    rcases hlast with hlast | hlast <;> omega
  exact ⟨by omega, by omega, hnone⟩

/-- **Every step keeps the crew consistent.** -/
theorem step (h : Consistent n workers crew) (hfew : n.toNat + workers < 9223372036854775808)
    (hstep : Step job n crew crew') : Consistent n workers crew' := by
  cases hstep with
  | @draw s counter before after begun task hlt hstart =>
    obtain ⟨hdrawn, rfl, hnone⟩ := h.draws hfew hlt
    obtain ⟨-, hup⟩ := h.drawn_eq hfew
    obtain ⟨hsize, hbegun, hle, hcounter, hlast, hbusy, halone⟩ := middle.1 h
    simp only [Turn.index?, Option.toList_none, List.nil_append] at hbusy halone
    rw [hdrawn] at hlt ⊢
    rw [hup]
    have hlength : (begun ++ [(begun.length : Int)]).length = begun.length + 1 := List.length_append
    refine middle.2 ⟨hsize, ?_, by omega, ?_, Or.inl hnone, fun i hi => ?_, ?_⟩
    · rw [hlength, Nat.cast_add_one, below_succ (by omega), ← hbegun]
    · rw [hlength, hnone]
      rfl
    · rw [hlength]
      rcases List.mem_cons.1 hi with rfl | hi
      · omega
      · have := hbusy i hi
        omega
    · exact List.nodup_cons.2 ⟨fun hi => by have := hbusy _ hi; omega, halone⟩
  | @leave s counter before after begun hge =>
    obtain ⟨hdrawn, hup⟩ := h.drawn_eq hfew
    obtain ⟨hsize, hbegun, hle, hcounter, hlast, hbusy, halone⟩ := middle.1 h
    simp only [Turn.isGone, Turn.index?, Bool.toNat_false, Option.toList_none, List.nil_append]
      at hcounter hlast hbusy halone
    rw [hdrawn] at hge
    rw [hup]
    refine middle.2 ⟨hsize, hbegun, hle, ?_, Or.inr ?_, hbusy, halone⟩
    · rw [hcounter, Turn.isGone, Bool.toNat_true]
      omega
    · rcases hlast with hlast | hlast <;> omega
  | @act s s' counter i before after begun task task' hact =>
    have hsame := middle.1 h
    exact middle.2 hsame
  | @finish s counter i before after begun task hact =>
    obtain ⟨hsize, hbegun, hle, hcounter, hlast, hbusy, halone⟩ := middle.1 h
    exact middle.2 ⟨hsize, hbegun, hle, hcounter, hlast,
      fun j hj => hbusy j (List.mem_cons_of_mem _ hj), (List.nodup_cons.1 halone).2⟩

/-- Every state that is reached is consistent. -/
theorem runs {s : σ} {m : Nat} (hfew : n.toNat + workers < 9223372036854775808)
    (h : Runs job n (Crew.start workers s) m crew) : Consistent n workers crew := by
  induction h with
  | start => exact .start s
  | step _ hstep ih => exact ih.step hfew hstep

/-- **When all workers have gone**, all indices have been drawn, in order. -/
theorem all_drawn (h : Consistent n workers crew) (hover : crew.Over) (hworkers : 0 < n → 1 ≤ workers) :
    crew.begun = below n := by
  have hgone : Turn.countGone crew.turns = workers := by
    rw [← h.size]
    exact List.countP_eq_length.2 fun turn hturn => by rw [hover turn hturn]; rfl
  have hall : crew.begun.length = n.toNat := by
    have hle := h.le
    rcases h.last with hlast | hlast <;> omega
  rw [h.begun, hall, below_toNat]

end Consistent

end Crew

/-- How far the task of an index is. -/
inductive Phase (τ : Type) where
  | waiting
  | running (task : τ)
  | done

/-- **Tasks that mind their own part** of what the workers share: `know` is what is known of the part
of an index when its task is in some phase. Actions of a task keep what is known of all other indices,
and every action leaves less to do. -/
structure Job.Separated {σ τ : Type} (job : Job σ τ) (n : Int) (know : Nat → Phase τ → σ → Prop)
    (size : τ → Nat) : Prop where
  begins : ∀ (i : Nat) s, (i : Int) < n → know i .waiting s →
    ∃ task, job.start i = .ok task ∧ know i (.running task) s
  acts : ∀ i s s' task task', know i (.running task) s → job.act s task = some (s', task') →
    know i (.running task') s'
  finishes : ∀ i s task, know i (.running task) s → job.act s task = none → know i .done s
  keeps : ∀ i j s s' task task' phase, i ≠ j → know i (.running task) s →
    job.act s task = some (s', task') → know j phase s → know j phase s'
  shrinks : ∀ s s' task task', job.act s task = some (s', task') → size task' < size task

namespace Crew

variable {σ τ : Type} {job : Job σ τ} {n : Int} {workers : Nat} {crew crew' : Crew σ τ}
  {know : Nat → Phase τ → σ → Prop} {size : τ → Nat}

/-- What is known for each index holds of what the workers share. -/
structure Knows (know : Nat → Phase τ → σ → Prop) (n : Int) (crew : Crew σ τ) : Prop where
  waiting : ∀ i : Nat, crew.begun.length ≤ i → (i : Int) < n → know i .waiting crew.shared
  running : ∀ (i : Nat) task, .busy i task ∈ crew.turns → know i (.running task) crew.shared
  done : ∀ i : Nat, i < crew.begun.length → (i : Int) ∉ Turn.held crew.turns →
    know i .done crew.shared

namespace Knows

/-- Before the first step all indices are waiting. -/
theorem start {s : σ} (h : ∀ i : Nat, (i : Int) < n → know i .waiting s) :
    Knows know n (Crew.start workers s) where
  waiting i _ hi := h i hi
  running i task hturn := by cases (List.mem_replicate.1 hturn).2
  done i hi := absurd hi (Nat.not_lt_zero i)

/-- What is known, seen from one worker. -/
theorem middle {s : σ} {counter : Int} {before after : List (Turn τ)} {turn : Turn τ}
    {begun : List Int} : Knows know n ⟨s, counter, before ++ turn :: after, begun⟩ ↔
      (∀ i : Nat, begun.length ≤ i → (i : Int) < n → know i .waiting s) ∧
      (∀ (i : Nat) task, turn = .busy i task → know i (.running task) s) ∧
      (∀ (i : Nat) task, .busy i task ∈ before ++ after → know i (.running task) s) ∧
      (∀ i : Nat, i < begun.length → (i : Int) ∉ turn.index?.toList ++ Turn.held (before ++ after) →
        know i .done s) := by
  have hheld := Turn.held_middle before after turn
  constructor
  · rintro ⟨hwaiting, hrunning, hdone⟩
    refine ⟨hwaiting, fun i task heq => ?_, fun i task hturn => ?_, fun i hi hnot => ?_⟩
    · exact hrunning i task ((Turn.mem_middle before after).2 (Or.inl heq.symm))
    · exact hrunning i task ((Turn.mem_middle before after).2 (Or.inr hturn))
    · exact hdone i hi fun hin => hnot (hheld.mem_iff.1 hin)
  · rintro ⟨hwaiting, hself, hothers, hdone⟩
    refine ⟨hwaiting, fun i task hturn => ?_, fun i hi hnot => ?_⟩
    · rcases (Turn.mem_middle before after).1 hturn with heq | hturn
      · exact hself i task heq.symm
      · exact hothers i task hturn
    · exact hdone i hi fun hin => hnot (hheld.mem_iff.2 hin)

/-- **Every step keeps what is known**: it is the step of one task, or of none. -/
theorem step (hjob : job.Separated n know size) (hk : Knows know n crew)
    (h : Consistent n workers crew) (hfew : n.toNat + workers < 9223372036854775808)
    (hstep : Step job n crew crew') : Knows know n crew' := by
  cases hstep with
  | @draw s counter before after begun task hlt hstart =>
    obtain ⟨hwaiting, -, hothers, hdone⟩ := middle.1 hk
    obtain ⟨hdrawn, -⟩ := h.draws hfew hlt
    rw [hdrawn] at hlt hstart ⊢
    obtain ⟨task', htask, hrunning⟩ := hjob.begins _ s hlt (hwaiting _ le_rfl hlt)
    obtain rfl := Except.ok.inj (hstart.symm.trans htask)
    have hlength : (begun ++ [(begun.length : Int)]).length = begun.length + 1 := List.length_append
    refine middle.2 ⟨fun i hi hin => hwaiting i (by omega) hin, ?_, hothers, fun i hi hnot => ?_⟩
    · intro i task'' heq
      obtain ⟨hi, rfl⟩ := Turn.busy.inj heq
      rwa [← Int.ofNat_inj.1 hi]
    · obtain ⟨hne, hnot⟩ := not_or.1 (mt List.mem_cons.2 hnot)
      exact hdone i (by omega) hnot
  | @leave s counter before after begun hge =>
    obtain ⟨hwaiting, -, hothers, hdone⟩ := middle.1 hk
    refine middle.2 ⟨hwaiting, fun i task heq => ?_, hothers, hdone⟩
    cases heq
  | @act s s' counter j before after begun task task' hact =>
    obtain ⟨-, -, -, -, -, hbusy, halone⟩ := Consistent.middle.1 h
    obtain ⟨hwaiting, hself, hothers, hdone⟩ := middle.1 hk
    have hj := hbusy j List.mem_cons_self
    obtain ⟨j, rfl⟩ := Int.eq_ofNat_of_zero_le hj.1
    have hrunning := hself j task rfl
    -- what is known of another index is kept
    have hkeeps : ∀ (i : Nat) phase, i ≠ j → know i phase s → know i phase s' :=
      fun i phase hne => hjob.keeps j i s s' task task' phase hne.symm hrunning hact
    refine middle.2 ⟨fun i hi hin => hkeeps i _ (by omega) (hwaiting i hi hin), ?_, ?_, ?_⟩
    · intro i task'' heq
      obtain ⟨hi, rfl⟩ := Turn.busy.inj heq
      rw [← Int.ofNat_inj.1 hi]
      exact hjob.acts j s s' task _ hrunning hact
    · intro i task'' hother
      refine hkeeps i _ ?_ (hothers i task'' hother)
      rintro rfl
      exact (List.nodup_cons.1 halone).1 (Turn.mem_held.2 ⟨task'', hother⟩)
    · intro i hi hnot
      refine hkeeps i _ ?_ (hdone i hi hnot)
      rintro rfl
      exact hnot List.mem_cons_self
  | @finish s counter j before after begun task hact =>
    obtain ⟨-, -, -, -, -, hbusy, -⟩ := Consistent.middle.1 h
    obtain ⟨hwaiting, hself, hothers, hdone⟩ := middle.1 hk
    obtain ⟨j, rfl⟩ := Int.eq_ofNat_of_zero_le (hbusy j List.mem_cons_self).1
    refine middle.2 ⟨hwaiting, fun i task heq => ?_, hothers, fun i hi hnot => ?_⟩
    · cases heq
    · by_cases hij : i = j
      · rw [hij]
        exact hjob.finishes j s task (hself j task rfl) hact
      · refine hdone i hi fun hin => ?_
        rcases List.mem_cons.1 hin with heq | hin
        · exact hij (Int.ofNat_inj.1 heq)
        · exact hnot hin

/-- What is known holds of every state that is reached. -/
theorem runs {s : σ} {m : Nat} (hjob : job.Separated n know size)
    (hwaiting : ∀ i : Nat, (i : Int) < n → know i .waiting s)
    (hfew : n.toNat + workers < 9223372036854775808)
    (h : Runs job n (Crew.start workers s) m crew) : Knows know n crew := by
  induction h with
  | start => exact .start hwaiting
  | step before hstep ih => exact ih.step hjob (Consistent.runs hfew before) hfew hstep

/-- **No worker is ever stuck**: as long as one has not gone, it can take a step. -/
theorem unstuck (hjob : job.Separated n know size) (hk : Knows know n crew)
    (h : Consistent n workers crew) (hfew : n.toNat + workers < 9223372036854775808)
    (hover : ¬crew.Over) : ∃ crew', Step job n crew crew' := by
  refine exists_step (fun hidle hlt => ?_) hover
  obtain ⟨s, counter, turns, begun⟩ := crew
  obtain ⟨before, after, rfl⟩ := List.append_of_mem hidle
  obtain ⟨hdrawn, -⟩ := h.draws hfew hlt
  obtain ⟨task, htask, -⟩ := hjob.begins begun.length s (hdrawn ▸ hlt)
    (hk.waiting _ le_rfl (hdrawn ▸ hlt))
  exact ⟨task, hdrawn ▸ htask⟩

end Knows

end Crew

/-- The steps that a worker can still take before it draws the next index. -/
def Turn.potential {τ : Type} (size : τ → Nat) : Turn τ → Nat
  | idle => 1
  | busy _ task => size task + 2
  | gone => 0

/-- The steps that go with the task of an index. -/
def Job.cost {σ τ : Type} (job : Job σ τ) (size : τ → Nat) (i : Int) : Nat :=
  match job.start i with
  | .ok task => size task + 2
  | .error _ => 0

namespace Crew

variable {σ τ : Type} {job : Job σ τ} {n : Int} {workers : Nat} {crew crew' : Crew σ τ}
  {know : Nat → Phase τ → σ → Prop} {size : τ → Nat}

/-- The steps that a crew can still take: those with the tasks not yet begun, and those of each
worker. -/
def potential (job : Job σ τ) (size : τ → Nat) (n : Int) (crew : Crew σ τ) : Nat :=
  (((below n).drop crew.begun.length).map (job.cost size)).sum +
    (crew.turns.map (Turn.potential size)).sum

theorem potential_middle (s : σ) (counter : Int) (before after : List (Turn τ)) (turn : Turn τ)
    (begun : List Int) : potential job size n ⟨s, counter, before ++ turn :: after, begun⟩ =
      (((below n).drop begun.length).map (job.cost size)).sum +
        (turn.potential size + ((before ++ after).map (Turn.potential size)).sum) := by
  unfold potential
  rw [(List.perm_middle.map _).sum_eq, List.map_cons, List.sum_cons]

/-- **Every step leaves fewer steps to take.** -/
theorem potential_step (hjob : job.Separated n know size) (h : Consistent n workers crew)
    (hfew : n.toNat + workers < 9223372036854775808) (hstep : Step job n crew crew') :
    potential job size n crew' < potential job size n crew := by
  cases hstep with
  | @draw s counter before after begun task hlt hstart =>
    obtain ⟨hdrawn, -⟩ := h.draws hfew hlt
    rw [hdrawn] at hlt hstart ⊢
    -- the index that is drawn is the next of those not yet begun
    have hnext : (below n).drop begun.length =
        (begun.length : Int) :: (below n).drop (begun.length + 1) := by
      have hin : begun.length < (below n).length := by
        rw [length_below]
        omega
      rw [List.drop_eq_getElem_cons hin]
      simp [below]
    have hcost : job.cost size begun.length = size task + 2 := by
      unfold Job.cost
      rw [hstart]
    rw [potential_middle, potential_middle, hnext, List.map_cons, List.sum_cons, hcost,
      List.length_append, List.length_singleton, Turn.potential, Turn.potential]
    omega
  | leave hge =>
    rw [potential_middle, potential_middle, Turn.potential, Turn.potential]
    omega
  | act hact =>
    have hless := hjob.shrinks _ _ _ _ hact
    rw [potential_middle, potential_middle, Turn.potential, Turn.potential]
    omega
  | finish hact =>
    rw [potential_middle, potential_middle, Turn.potential, Turn.potential]
    omega

/-- **A run has an end**: it takes no more steps than the crew has before the first. -/
theorem Runs.le_potential {s : σ} {m : Nat} (hjob : job.Separated n know size)
    (hfew : n.toNat + workers < 9223372036854775808)
    (h : Runs job n (Crew.start workers s) m crew) :
    m + potential job size n crew ≤ potential job size n (Crew.start workers s) := by
  induction h with
  | start => omega
  | step before hstep ih =>
    have hless := potential_step hjob (Consistent.runs hfew before) hfew hstep
    omega

end Crew

/-- **The runs of a crew whose tasks mind their own part**: they are bounded, no worker is ever stuck,
and when all have gone every index has been worked on, one after the other begun, and its task
is done. -/
theorem Job.Separated.crew {σ τ : Type} {job : Job σ τ} {n : Int} {workers : Nat}
    {know : Nat → Phase τ → σ → Prop} {size : τ → Nat} {s : σ} (hjob : job.Separated n know size)
    (hwaiting : ∀ i : Nat, (i : Int) < n → know i .waiting s)
    (hfew : n.toNat + workers < 9223372036854775808) (hworkers : 0 < n → 1 ≤ workers) :
    (∃ bound, ∀ m crew, Crew.Runs job n (.start workers s) m crew → m ≤ bound) ∧
      ∀ m crew, Crew.Runs job n (.start workers s) m crew →
        (¬crew.Over → ∃ crew', Crew.Step job n crew crew') ∧
        (crew.Over → crew.begun = below n ∧ ∀ i : Nat, (i : Int) < n → know i .done crew.shared) := by
  refine ⟨⟨_, fun m crew hrun => (Nat.le_add_right _ _).trans (hrun.le_potential hjob hfew)⟩,
    fun m crew hrun => ?_⟩
  have hconsistent := Crew.Consistent.runs hfew hrun
  have hknows := Crew.Knows.runs hjob hwaiting hfew hrun
  refine ⟨hknows.unstuck hjob hconsistent hfew, fun hover => ?_⟩
  have hbegun := hconsistent.all_drawn hover hworkers
  refine ⟨hbegun, fun i hi => hknows.done i ?_ ?_⟩
  · rw [hbegun, length_below]
    omega
  · rw [Turn.held_eq_nil hover]
    exact List.not_mem_nil

end Tessera
