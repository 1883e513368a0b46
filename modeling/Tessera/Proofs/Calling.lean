import Tessera.Proofs.Crew
import Tessera.Proofs.Dispatch

/-!
# Calls that workers make

Workers call with what they are handed: each of some tasks makes one call, or each draws indices from
a counter, as long as there are any, and calls with them. A call goes on for as long as it likes and may
do anything to what the workers share but the counter; it is made in a step of its own, so that
others may draw and call in between.

* `Callback`, `Callback.call`: calls, with a record of those made.
* `Callback.loop`: what a worker does that draws indices.
* `Crew.Accounted`: the calls made and the calls due are the indices drawn, in any order.
* `Crew.Enacts`: workers that take such loops from a queue are a crew.
* `Callback.makes_calls`, `Callback.makes_draws`: all calls are made, each once.
-/

namespace Tessera

/-- What is called: what a call starts with, and what its next action does to what the workers share and
to the call itself. A call without a next action returns. -/
structure Callback (ι σ τ : Type) where
  enter : ι → τ
  act : σ → τ → Option (σ × τ)

/-- How far a call is: it is due, or it has been made and goes on. -/
inductive Call (ι τ : Type) where
  | due (arg : ι)
  | made (state : τ)

/-- What the call is due with. -/
def Call.due? {ι τ : Type} : Call ι τ → Option ι
  | due i => some i
  | made _ => none

namespace Callback

variable {ι σ τ : Type}

/-- The next action of a call, with a record of the calls made. A call that is due is made in an action of
its own, so that others may do anything before. -/
def call (f : Callback ι σ τ) : σ × List ι → Call ι τ → Option ((σ × List ι) × Call ι τ)
  | (s, calls), .due i => some ((s, calls ++ [i]), .made (f.enter i))
  | (s, calls), .made state => (f.act s state).map fun (s', state') => ((s', calls), .made state')

/-- Calls as the tasks of a crew. -/
def job (f : Callback Int σ τ) : Job (σ × List Int) (Call Int τ) where
  start i := .ok (.due i)
  act := f.call

/-- The next action of a worker that draws the indices below `n` and calls with them. -/
def loop (f : Callback Int σ τ) (n : Int) : (σ × List Int) × Int → Turn (Call Int τ) →
    Option (((σ × List Int) × Int) × Turn (Call Int τ))
  | (s, counter), .idle =>
    some ((s, wrap64 (counter + 1)),
      if Crew.drawn counter < n then .busy (Crew.drawn counter) (.due (Crew.drawn counter))
      else .gone)
  | (s, counter), .busy i call =>
    match f.call s call with
    | some (s', call') => some ((s', counter), .busy i call')
    | none => some ((s, counter), .idle)
  | _, .gone => none

/-- Every call returns. -/
def Returns (f : Callback ι σ τ) : Prop :=
  ∃ weight : τ → Nat,
    ∀ s s' state state', f.act s state = some (s', state') → weight state' < weight state

/-- Calls that return at once. -/
def immediate : Callback ι Unit Unit := ⟨fun _ => (), fun _ _ => none⟩

theorem immediate_returns (ι : Type) : (immediate : Callback ι Unit Unit).Returns :=
  ⟨fun _ => 0, fun _ _ _ _ h => by cases h⟩

/-- The actions that are left of a call. -/
def weigh (f : Callback ι σ τ) (weight : τ → Nat) : Call ι τ → Nat
  | .due i => weight (f.enter i) + 1
  | .made state => weight state

variable {f : Callback ι σ τ} {s s' : σ × List ι} {c c' : Call ι τ}

/-- An action of a call makes it if it is due, and otherwise no call. -/
theorem call_record (h : f.call s c = some (s', c')) :
    s'.2 ++ c'.due?.toList = s.2 ++ c.due?.toList := by
  obtain ⟨s, calls⟩ := s
  cases c with
  | due i =>
    cases h
    exact List.append_nil _
  | made state =>
    obtain ⟨⟨t, state'⟩, -, heq⟩ := Option.map_eq_some_iff.1 h
    cases heq
    rfl

/-- A call returns after it has been made. -/
theorem call_eq_none (h : f.call s c = none) : c.due? = none := by
  cases c with
  | due i => cases h
  | made state => rfl

/-- Calls that return have less to do after each action. -/
theorem call_less {weight : τ → Nat}
    (hless : ∀ s s' state state', f.act s state = some (s', state') → weight state' < weight state)
    (h : f.call s c = some (s', c')) : f.weigh weight c' < f.weigh weight c := by
  obtain ⟨s, calls⟩ := s
  cases c with
  | due i =>
    cases h
    exact Nat.lt_succ_self _
  | made state =>
    obtain ⟨⟨t, state'⟩, hact, heq⟩ := Option.map_eq_some_iff.1 h
    cases heq
    exact hless _ _ _ _ hact

/-- Calls that return make a crew come to an end. -/
theorem separated {f : Callback Int σ τ} {weight : τ → Nat}
    (hless : ∀ s s' state state', f.act s state = some (s', state') → weight state' < weight state)
    (n : Int) : f.job.Separated n (fun _ _ _ => True) (f.weigh weight) where
  begins i _ _ _ := ⟨.due i, rfl, trivial⟩
  acts _ _ _ _ _ _ _ := trivial
  finishes _ _ _ _ _ := trivial
  keeps _ _ _ _ _ _ _ _ _ _ _ := trivial
  shrinks _ _ _ _ hact := call_less hless hact

/-- An action of a worker is a step of its crew. -/
theorem loop_step {f : Callback Int σ τ} {n : Int} {s s' : σ × List Int} {counter counter' : Int}
    {turn turn' : Turn (Call Int τ)} (h : f.loop n (s, counter) turn = some ((s', counter'), turn'))
    (before after : List (Turn (Call Int τ))) (begun : List Int) :
    ∃ begun', Crew.Step f.job n ⟨s, counter, before ++ turn :: after, begun⟩
      ⟨s', counter', before ++ turn' :: after, begun'⟩ := by
  cases turn with
  | idle =>
    cases h
    split
    · exact ⟨_, .draw ‹_› rfl⟩
    · exact ⟨_, .leave (by omega)⟩
  | busy i call =>
    cases hcall : f.call s call with
    | none =>
      simp only [loop, hcall] at h
      cases h
      exact ⟨_, .finish hcall⟩
    | some next =>
      simp only [loop, hcall] at h
      cases h
      exact ⟨_, .act hcall⟩
  | gone => cases h

/-- A worker is done when it has gone. -/
theorem loop_eq_none {f : Callback Int σ τ} {n : Int} {s : (σ × List Int) × Int}
    {turn : Turn (Call Int τ)} (h : f.loop n s turn = none) : turn = .gone := by
  cases turn with
  | idle => cases h
  | busy i call => cases hcall : f.call s.1 call <;> simp [loop, hcall] at h
  | gone => rfl

end Callback

/-! ### Calls with indices that are drawn -/

namespace Turn

variable {τ : Type}

/-- The index with which the worker calls next. -/
def due? : Turn (Call Int τ) → Option Int
  | idle => none
  | busy _ call => call.due?
  | gone => none

/-- The indices with which some workers call next. -/
def due (turns : List (Turn (Call Int τ))) : List Int := turns.filterMap due?

end Turn

namespace Crew

variable {σ τ : Type} {f : Callback Int σ τ} {n : Int} {workers : Nat}
  {crew crew' : Crew (σ × List Int) (Call Int τ)}

/-- The calls made and the calls due are the indices drawn, in any order. -/
def Accounted (crew : Crew (σ × List Int) (Call Int τ)) : Prop :=
  (crew.shared.2 ++ Turn.due crew.turns).Perm crew.begun

namespace Accounted

theorem start (s : σ) : Accounted (Crew.start workers (s, []) : Crew (σ × List Int) (Call Int τ)) := by
  have hdue : Turn.due (List.replicate workers (.idle : Turn (Call Int τ))) = [] :=
    List.filterMap_replicate_of_none rfl
  unfold Accounted Crew.start
  rw [hdue]
  exact .refl _

/-- What is known of a worker and of the others. -/
theorem middle {s : σ × List Int} {begun : List Int} {counter : Int}
    {before after : List (Turn (Call Int τ))} {turn : Turn (Call Int τ)} :
    Accounted ⟨s, counter, before ++ turn :: after, begun⟩ ↔
      ((s.2 ++ turn.due?.toList) ++ Turn.due (before ++ after)).Perm begun := by
  have hdue := (filterMap_middle Turn.due? before after turn).append_left s.2
  rw [List.append_assoc]
  exact ⟨hdue.symm.trans, hdue.trans⟩

/-- **Every step keeps account**: a draw makes a call due, and a call that is due is made. -/
theorem step (h : Accounted crew) (hstep : Step f.job n crew crew') : Accounted crew' := by
  cases hstep with
  | @draw s counter before after begun task hlt hstart =>
    cases hstart
    have hbefore := (middle.1 h).append_right [drawn counter]
    rw [Turn.due?, Option.toList_none, List.append_nil] at hbefore
    refine middle.2 (.trans ?_ hbefore)
    rw [List.append_assoc, List.append_assoc]
    exact List.perm_append_comm.append_left s.2
  | leave hle =>
    have hbefore := middle.1 h
    exact middle.2 hbefore
  | @act s s' counter i before after begun call call' hact =>
    refine middle.2 ?_
    rw [Turn.due?, Callback.call_record hact]
    exact middle.1 h
  | @finish s counter i before after begun call hact =>
    have hbefore := middle.1 h
    rw [Turn.due?, Callback.call_eq_none hact] at hbefore
    exact middle.2 hbefore

/-- Every state that is reached is accounted for. -/
theorem runs {s : σ} {m : Nat} (h : Runs f.job n (Crew.start workers (s, [])) m crew) :
    Accounted crew := by
  induction h with
  | start => exact .start s
  | step _ hstep ih => exact ih.step hstep

/-- The calls made are with indices below `n`, each at most once. -/
theorem among (h : Accounted crew) (hc : Consistent n workers crew) :
    crew.shared.2.Subperm (below n) := by
  have hle := hc.le
  have hpart : crew.begun.Sublist (below n) := by
    rw [hc.begun]
    exact (List.range_sublist.2 (by omega)).map _
  exact ((List.sublist_append_left _ _).subperm.trans h.subperm).trans hpart.subperm

/-- **When all workers have gone** there has been a call with every index. -/
theorem all_called (h : Accounted crew) (hc : Consistent n workers crew) (hover : crew.Over)
    (hworkers : 0 < n → 1 ≤ workers) : crew.shared.2.Perm (below n) := by
  have hdue : Turn.due crew.turns = [] := by
    refine List.filterMap_eq_nil_iff.2 ?_
    intro turn hturn
    rw [hover turn hturn]
    rfl
  unfold Accounted at h
  rwa [hdue, List.append_nil, hc.all_drawn hover hworkers] at h

end Accounted

/-- **Workers of a pool are a crew**: they share the same, and the workers of the crew are the tasks of the
pool, those that are done having gone. -/
structure Enacts (crew : Crew (σ × List Int) (Call Int τ))
    (pool : Pool ((σ × List Int) × Int) (Turn (Call Int τ))) : Prop where
  shared : (crew.shared, crew.counter) = pool.shared
  turns : ∃ done : Nat, crew.turns.Perm (List.replicate done .gone ++ pool.left)

namespace Enacts

variable {pool pool' : Pool ((σ × List Int) × Int) (Turn (Call Int τ))} {room size : Nat}

/-- A step of the pool is one of the crew, or the crew waits while a task is passed on. -/
theorem step (h : crew.Enacts pool) (hstep : Pool.Step (f.loop n) room pool pool') :
    (crew.Enacts pool' ∧ pool'.errands + 1 = pool.errands) ∨
      ∃ crew', Step f.job n crew crew' ∧ crew'.Enacts pool' ∧ pool'.errands = pool.errands := by
  obtain ⟨hshared, done, hturns⟩ := h
  obtain ⟨hsame, hleft, herrands⟩ | ⟨turn, turn', rest, hact, hleft, hleft', herrands⟩ |
    ⟨turn, rest, hact, hsame, hleft, hleft', herrands⟩ := Pool.step_cases hstep
  · exact Or.inl ⟨⟨hshared.trans hsame.symm, done, hturns.trans (hleft.symm.append_left _)⟩, herrands⟩
  · -- the worker whose task it is stands somewhere in the crew
    have hplace : crew.turns.Perm (turn :: (List.replicate done .gone ++ rest)) :=
      (hturns.trans (hleft.append_left _)).trans List.perm_middle
    obtain ⟨s, counter, turns, begun⟩ := crew
    obtain ⟨before, after, rfl⟩ := List.append_of_mem (hplace.mem_iff.2 List.mem_cons_self)
    have hothers := (List.perm_middle.symm.trans hplace).cons_inv
    rw [← hshared] at hact
    obtain ⟨begun', hcrew⟩ := Callback.loop_step hact before after begun
    refine Or.inr ⟨_, hcrew, ⟨rfl, done, ?_⟩, herrands⟩
    exact List.perm_middle.trans ((hothers.cons turn').trans
      (List.perm_middle.symm.trans (hleft'.symm.append_left _)))
  · obtain rfl := Callback.loop_eq_none hact
    refine Or.inl ⟨⟨hshared.trans hsame.symm, done + 1, ?_⟩, herrands⟩
    rw [List.replicate_succ]
    exact (hturns.trans (hleft.append_left _)).trans
      (List.perm_middle.trans ((hleft'.symm.append_left _).cons _))

/-- **A run of the pool is one of the crew**, but for the steps that pass tasks on. -/
theorem runs {s : σ} {m : Nat} (h : Pool.Runs (f.loop n) room
      (.start size ((s, []), 0) (List.replicate workers .idle)) m pool) :
    ∃ k crew, Runs f.job n (Crew.start workers (s, [])) k crew ∧ crew.Enacts pool ∧
      m + pool.errands = k + (Pool.start size ((s, ([] : List Int)), (0 : Int))
        (List.replicate workers (.idle : Turn (Call Int τ)))).errands := by
  induction h with
  | start =>
    refine ⟨0, _, .start, ⟨rfl, 0, ?_⟩, rfl⟩
    rw [Pool.left_start]
    exact .refl _
  | step _ hstep ih =>
    obtain ⟨k, crew, hrun, henacts, hsteps⟩ := ih
    obtain ⟨hstays, herrands⟩ | ⟨crew', hcrew, hgoes, herrands⟩ := henacts.step hstep
    · exact ⟨k, crew, hrun, hstays, by omega⟩
    · exact ⟨k + 1, crew', hrun.step hcrew, hgoes, by omega⟩

/-- When no task is left all workers have gone. -/
theorem all_gone (h : crew.Enacts pool) (hleft : pool.left = []) : crew.Over := by
  obtain ⟨-, done, hturns⟩ := h
  rw [hleft, List.append_nil] at hturns
  intro turn hturn
  exact List.eq_of_mem_replicate (hturns.mem_iff.1 hturn)

end Enacts

end Crew

/-! ### All calls -/

namespace Callback

/-- The calls made and the calls due are those that there is a task for. -/
theorem calls_accounted {ι σ τ : Type} {f : Callback ι σ τ} {s : σ} {args : List ι} {size room m : Nat}
    {pool : Pool (σ × List ι) (Call ι τ)}
    (h : Pool.Runs f.call room (.start size (s, []) (args.map .due)) m pool) :
    (pool.shared.2 ++ pool.left.filterMap Call.due?).Perm args := by
  induction h with
  | start =>
    rw [Pool.left_start, List.filterMap_map]
    exact .of_eq List.filterMap_some
  | @step m pool pool' _ hstep ih =>
    obtain ⟨hsame, hleft, -⟩ | ⟨call, call', rest, hact, hleft, hleft', -⟩ |
      ⟨call, rest, hact, hsame, hleft, hleft', -⟩ := Pool.step_cases hstep
    · rw [hsame]
      exact ((hleft.filterMap _).append_left _).trans ih
    · have hone := (hleft.filterMap Call.due?).trans (filterMap_middle Call.due? [] rest call)
      have hone' := (hleft'.filterMap Call.due?).trans (filterMap_middle Call.due? [] rest call')
      have hafter := hone'.append_left pool'.shared.2
      rw [← List.append_assoc, call_record hact, List.append_assoc] at hafter
      exact hafter.trans ((hone.append_left _).symm.trans ih)
    · have hbefore := ((hleft.filterMap Call.due?).append_left _).symm.trans ih
      rw [List.filterMap_cons_none (call_eq_none hact)] at hbefore
      rw [hsame]
      exact ((hleft'.filterMap _).append_left _).trans hbefore

/-- **Tasks that make a call each** make all calls. -/
theorem makes_calls {ι σ τ : Type} (f : Callback ι σ τ) (s : σ) (args : List ι) {size room : Nat}
    (hsize : 0 < size) (hroom : 0 < room) :
    Pool.Makes f.call room (.start size (s, []) (args.map .due)) (·.2) args f.Returns where
  among m pool hrun := (List.sublist_append_left _ _).subperm.trans (calls_accounted hrun).subperm
  unstuck m pool hrun hback := hrun.unstuck hsize hroom hback
  all m pool hrun hback := by
    have hall := calls_accounted hrun
    rwa [hrun.left_eq_nil rfl hback, List.filterMap_nil, List.append_nil] at hall
  bounded := by
    rintro ⟨weight, hless⟩
    exact ⟨_, fun m pool hrun =>
      (Nat.le_add_right _ _).trans (hrun.le_weight fun _ _ _ _ => call_less hless)⟩

/-- **Tasks that draw indices and call with them** make a call with every index. -/
theorem makes_draws {σ τ : Type} (f : Callback Int σ τ) (s : σ) {n : Int} {size room workers : Nat}
    (hsize : 0 < size) (hroom : 0 < room) (hfew : n.toNat + workers < 9223372036854775808)
    (hworkers : 0 < n → 1 ≤ workers) :
    Pool.Makes (f.loop n) room (.start size ((s, []), 0) (List.replicate workers .idle)) (·.1.2)
      (below n) f.Returns where
  among m pool hrun := by
    obtain ⟨k, crew, hcrew, henacts, -⟩ := Crew.Enacts.runs hrun
    rw [← henacts.shared]
    exact (Crew.Accounted.runs hcrew).among (.runs hfew hcrew)
  unstuck m pool hrun hback := hrun.unstuck hsize hroom hback
  all m pool hrun hback := by
    obtain ⟨k, crew, hcrew, henacts, -⟩ := Crew.Enacts.runs hrun
    rw [← henacts.shared]
    exact (Crew.Accounted.runs hcrew).all_called (.runs hfew hcrew)
      (henacts.all_gone (hrun.left_eq_nil rfl hback)) hworkers
  bounded := by
    rintro ⟨weight, hless⟩
    obtain ⟨bound, hbound⟩ := ((f.separated hless n).crew (s := (s, []))
      (fun _ _ => trivial) hfew hworkers).1
    refine ⟨bound + (Pool.start size ((s, ([] : List Int)), (0 : Int))
      (List.replicate workers (.idle : Turn (Call Int τ)))).errands, ?_⟩
    intro m pool hrun
    obtain ⟨k, crew, hcrew, -, hsteps⟩ := Crew.Enacts.runs hrun
    have := hbound k crew hcrew
    omega

end Callback

end Tessera
