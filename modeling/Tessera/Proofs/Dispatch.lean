import Mathlib.Algebra.BigOperators.Group.List.Basic
import Tessera.Proofs.Sequence

/-!
# Tasks that workers take from a queue

A caller sends tasks to a queue, and waits as long as the queue has no room. Workers take the tasks,
the oldest first; each runs its task action by action until no action is left, and takes another. When
none of its tasks is left the caller returns. Between two steps of one worker the caller and the
other workers may take any number of steps.

* `Pool`, `Pool.Step`, `Pool.Runs`: a caller, its queue and the workers, and their runs.
* `Pool.left`, `Pool.errands`: the tasks that are not done, and the steps that only pass them on.
* `Pool.step_cases`: what a step makes of the tasks that are left.
* `Pool.Runs.unstuck`: somebody can go on until the caller returns.
* `Pool.Runs.le_weight`: a bound for runs of tasks each of which comes to an end.
* `Pool.Makes`: calls that are made, whatever turns are taken.
-/

namespace Tessera

/-- A caller and workers, with what the workers share: the tasks that the caller has yet to send,
those in the queue, the task that each worker is at, and whether the caller has returned. -/
structure Pool (σ τ : Type) where
  shared : σ
  unsent : List τ
  queue : List τ
  hands : List (Option τ)
  returned : Bool

namespace Pool

variable {σ τ : Type} {act : σ → τ → Option (σ × τ)} {room : Nat} {pool₀ pool pool' : Pool σ τ}

/-- The caller or a worker takes a step: `act` is the next action of a task, if it has one, and there is
room for `room` tasks in the queue. The caller returns when nothing is left to send, to take or to run. -/
inductive Step (act : σ → τ → Option (σ × τ)) (room : Nat) : Pool σ τ → Pool σ τ → Prop
  | send {s : σ} {task : τ} {unsent queue : List τ} {hands : List (Option τ)}
    (hroom : queue.length < room) :
    Step act room ⟨s, task :: unsent, queue, hands, false⟩ ⟨s, unsent, queue ++ [task], hands, false⟩
  | take {s : σ} {task : τ} {unsent queue : List τ} {before after : List (Option τ)} {returned : Bool} :
    Step act room ⟨s, unsent, task :: queue, before ++ none :: after, returned⟩
      ⟨s, unsent, queue, before ++ some task :: after, returned⟩
  | act {s s' : σ} {task task' : τ} {unsent queue : List τ} {before after : List (Option τ)}
    {returned : Bool} (hact : act s task = some (s', task')) :
    Step act room ⟨s, unsent, queue, before ++ some task :: after, returned⟩
      ⟨s', unsent, queue, before ++ some task' :: after, returned⟩
  | done {s : σ} {task : τ} {unsent queue : List τ} {before after : List (Option τ)} {returned : Bool}
    (hact : act s task = none) :
    Step act room ⟨s, unsent, queue, before ++ some task :: after, returned⟩
      ⟨s, unsent, queue, before ++ none :: after, returned⟩
  | back {s : σ} {hands : List (Option τ)} (hfree : ∀ hand ∈ hands, hand = none) :
    Step act room ⟨s, [], [], hands, false⟩ ⟨s, [], [], hands, true⟩

/-- A caller before its first step, with `size` workers. -/
def start (size : Nat) (s : σ) (tasks : List τ) : Pool σ τ :=
  ⟨s, tasks, [], List.replicate size none, false⟩

/-- The states that a caller and workers reach, with the number of steps. -/
inductive Runs (act : σ → τ → Option (σ × τ)) (room : Nat) (pool₀ : Pool σ τ) : Nat → Pool σ τ → Prop
  | start : Runs act room pool₀ 0 pool₀
  | step {m : Nat} {pool pool' : Pool σ τ} (before : Runs act room pool₀ m pool)
    (hstep : Step act room pool pool') : Runs act room pool₀ (m + 1) pool'

/-- The tasks that are not done. -/
def left (pool : Pool σ τ) : List τ := pool.hands.filterMap id ++ (pool.queue ++ pool.unsent)

/-- The steps that only pass tasks on, which are still to be taken: each task is sent, taken and put
away, and the caller returns. -/
def errands (pool : Pool σ τ) : Nat :=
  3 * pool.unsent.length + 2 * pool.queue.length + (pool.hands.filterMap id).length +
    (!pool.returned).toNat

theorem left_start (size : Nat) (s : σ) (tasks : List τ) : (start size s tasks).left = tasks := by
  unfold left start
  rw [List.filterMap_replicate_of_none rfl]
  simp only [List.nil_append]

/-- The tasks of one worker and of the others, and those that no worker is at. -/
theorem left_middle {s : σ} {unsent queue : List τ} {before after : List (Option τ)} {hand : Option τ}
    {returned : Bool} : (left ⟨s, unsent, queue, before ++ hand :: after, returned⟩).Perm
      (hand.toList ++ ((before ++ after).filterMap id ++ (queue ++ unsent))) := by
  rw [← List.append_assoc]
  exact (filterMap_middle id before after hand).append_right _

theorem length_middle {before after : List (Option τ)} {hand : Option τ} :
    ((before ++ hand :: after).filterMap id).length =
      hand.toList.length + ((before ++ after).filterMap id).length := by
  rw [(filterMap_middle id before after hand).length_eq, List.length_append]
  rfl

/-- **What a step makes of the tasks that are left**: it passes one on, or it is an action of one, or it
puts one away that has no action left. -/
theorem step_cases (h : Step act room pool pool') :
    (pool'.shared = pool.shared ∧ pool'.left.Perm pool.left ∧ pool'.errands + 1 = pool.errands) ∨
    (∃ task task' rest, act pool.shared task = some (pool'.shared, task') ∧
      pool.left.Perm (task :: rest) ∧ pool'.left.Perm (task' :: rest) ∧ pool'.errands = pool.errands) ∨
    ∃ task rest, act pool.shared task = none ∧ pool'.shared = pool.shared ∧
      pool.left.Perm (task :: rest) ∧ pool'.left.Perm rest ∧ pool'.errands + 1 = pool.errands := by
  cases h with
  | @send s task unsent queue hands hroom =>
    refine Or.inl ⟨rfl, ?_, ?_⟩
    · apply List.Perm.append_left
      rw [List.append_assoc]
      exact .refl _
    · simp only [errands, List.length_append, List.length_cons, List.length_nil]
      omega
  | @take s task unsent queue before after returned =>
    refine Or.inl ⟨rfl, ?_, ?_⟩
    · have hbefore : (left ⟨s, unsent, task :: queue, before ++ none :: after, returned⟩).Perm
          ((before ++ after).filterMap id ++ task :: (queue ++ unsent)) := left_middle
      have hafter : (left ⟨s, unsent, queue, before ++ some task :: after, returned⟩).Perm
          (task :: ((before ++ after).filterMap id ++ (queue ++ unsent))) := left_middle
      exact hafter.trans (List.perm_middle.symm.trans hbefore.symm)
    · simp only [errands, length_middle, List.length_cons, Option.toList_none, Option.toList_some,
        List.length_nil]
      omega
  | @act s s' task task' unsent queue before after returned hact =>
    refine Or.inr (Or.inl ⟨task, task', _, hact, left_middle, left_middle, ?_⟩)
    simp only [errands, length_middle, Option.toList_some, List.length_singleton]
  | @done s task unsent queue before after returned hact =>
    refine Or.inr (Or.inr ⟨task, _, hact, rfl, left_middle, left_middle, ?_⟩)
    simp only [errands, length_middle, Option.toList_none, Option.toList_some, List.length_singleton,
      List.length_nil]
    omega
  | @back s hands hfree =>
    refine Or.inl ⟨rfl, .refl _, ?_⟩
    simp only [errands, Bool.not_true, Bool.toNat_false, Bool.not_false, Bool.toNat_true]

/-- A worker can go on with its task or take one, or the caller can send one or return. -/
theorem exists_step (hhands : pool.hands ≠ []) (hroom : 0 < room) (hback : pool.returned = false) :
    ∃ pool', Step act room pool pool' := by
  obtain ⟨s, unsent, queue, hands, returned⟩ := pool
  obtain rfl : returned = false := hback
  by_cases hfree : ∀ hand ∈ hands, hand = none
  · cases queue with
    | nil =>
      cases unsent with
      | nil => exact ⟨_, .back hfree⟩
      | cons task unsent => exact ⟨_, .send hroom⟩
    | cons task queue =>
      cases hands with
      | nil => exact absurd rfl hhands
      | cons hand hands =>
        obtain rfl := hfree hand List.mem_cons_self
        exact ⟨_, @Step.take _ _ _ _ s task unsent queue [] hands false⟩
  · push Not at hfree
    obtain ⟨hand, hhand, hbusy⟩ := hfree
    obtain ⟨task, rfl⟩ := Option.ne_none_iff_exists'.1 hbusy
    obtain ⟨before, after, rfl⟩ := List.append_of_mem hhand
    cases hact : act s task with
    | none => exact ⟨_, .done hact⟩
    | some next =>
      obtain ⟨s', task'⟩ := next
      exact ⟨_, .act hact⟩

namespace Runs

variable {m : Nat}

/-- Workers stay. -/
theorem length_hands (h : Runs act room pool₀ m pool) : pool.hands.length = pool₀.hands.length := by
  induction h with
  | start => rfl
  | step _ hstep ih =>
    rw [← ih]
    cases hstep with
    | send => rfl
    | take => simp only [List.length_append, List.length_cons]
    | act => simp only [List.length_append, List.length_cons]
    | done => simp only [List.length_append, List.length_cons]
    | back => rfl

/-- **Somebody can go on** until the caller has returned, if there are workers and there is room. -/
theorem unstuck {size : Nat} {s : σ} {tasks : List τ} (hsize : 0 < size) (hroom : 0 < room)
    (h : Runs act room (Pool.start size s tasks) m pool) (hback : pool.returned = false) :
    ∃ pool', Step act room pool pool' := by
  refine exists_step ?_ hroom hback
  rw [← List.length_pos_iff, h.length_hands]
  unfold Pool.start
  rwa [List.length_replicate]

/-- When the caller has returned no task is left. -/
theorem left_eq_nil (hstart : pool₀.returned = false) (h : Runs act room pool₀ m pool)
    (hback : pool.returned = true) : pool.left = [] := by
  induction h with
  | start => rw [hstart] at hback; cases hback
  | step _ hstep ih =>
    cases hstep with
    | send => cases hback
    | take => exact absurd (left_middle.symm.trans (.of_eq (ih hback))) (by simp)
    | act => exact absurd (left_middle.symm.trans (.of_eq (ih hback))) (by simp)
    | done => exact absurd (left_middle.symm.trans (.of_eq (ih hback))) (by simp)
    | back hfree =>
      have hnone : List.filterMap id _ = [] := List.filterMap_eq_nil_iff.2 hfree
      simp only [left, hnone, List.append_nil]

/-- **A run of tasks that come to an end has an end.** -/
theorem le_weight {weight : τ → Nat}
    (hless : ∀ s s' task task', act s task = some (s', task') → weight task' < weight task)
    (h : Runs act room pool₀ m pool) : m + (pool.errands + (pool.left.map weight).sum) ≤
      pool₀.errands + (pool₀.left.map weight).sum := by
  induction h with
  | start => omega
  | @step m pool pool' before hstep ih =>
    obtain ⟨-, hleft, herrands⟩ | ⟨task, task', rest, hact, hleft, hleft', herrands⟩ |
      ⟨task, rest, -, -, hleft, hleft', herrands⟩ := step_cases hstep
    · have := (hleft.map weight).sum_eq
      omega
    · have h1 := (hleft.map weight).sum_eq
      have h2 := (hleft'.map weight).sum_eq
      rw [List.map_cons, List.sum_cons] at h1 h2
      have := hless _ _ _ _ hact
      omega
    · have h1 := (hleft.map weight).sum_eq
      have h2 := (hleft'.map weight).sum_eq
      rw [List.map_cons, List.sum_cons] at h1
      omega

end Runs

/-- **Whatever turns the caller and the workers take**: the calls `made` that what they share tells of are
among those wanted; somebody can go on until the caller returns; when it does the calls made are those
wanted, in any order; and it does, provided that calls return. -/
structure Makes {ι : Type} (act : σ → τ → Option (σ × τ)) (room : Nat) (pool₀ : Pool σ τ)
    (made : σ → List ι) (wanted : List ι) (returns : Prop) : Prop where
  among : ∀ m pool, Runs act room pool₀ m pool → (made pool.shared).Subperm wanted
  unstuck : ∀ m pool, Runs act room pool₀ m pool → pool.returned = false →
    ∃ pool', Step act room pool pool'
  all : ∀ m pool, Runs act room pool₀ m pool → pool.returned = true → (made pool.shared).Perm wanted
  bounded : returns → ∃ bound, ∀ m pool, Runs act room pool₀ m pool → m ≤ bound

/-- If calls return, so does the caller. -/
theorem Makes.exists_returned {ι : Type} {made : σ → List ι} {wanted : List ι} {returns : Prop}
    (h : Makes act room pool₀ made wanted returns) (hreturns : returns) :
    ∃ m pool, Runs act room pool₀ m pool ∧ pool.returned = true := by
  by_contra hnever
  push Not at hnever
  have hlong : ∀ m, ∃ pool, Runs act room pool₀ m pool := by
    intro m
    induction m with
    | zero => exact ⟨_, .start⟩
    | succ m ih =>
      obtain ⟨pool, hrun⟩ := ih
      obtain ⟨pool', hstep⟩ := h.unstuck m pool hrun (Bool.eq_false_iff.2 (hnever m pool hrun))
      exact ⟨pool', hrun.step hstep⟩
  obtain ⟨bound, hbound⟩ := h.bounded hreturns
  obtain ⟨pool, hrun⟩ := hlong (bound + 1)
  have := hbound _ _ hrun
  omega

end Pool

end Tessera
