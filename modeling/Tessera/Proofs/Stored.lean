import Tessera.Schedule.Planner

/-!
# The record of what was stored

* `withStores`: steps with what was stored up to each of them; `recordStores` is
  this from nothing.
* `stored_recordStores`: in the end the record holds what all steps store.
-/

namespace Tessera

/-- The steps with what was stored up to each of them, after `stored`. -/
def withStores (stored : List Int) : List Step → List Step
  | [] => []
  | s :: rest => { s with dramState := stored ++ s.store } :: withStores (stored ++ s.store) rest

theorem recordStoresFrom_eq (done : List Step) (stored : List Int) (steps : List Step) :
    recordStoresFrom done stored steps = done.reverse ++ withStores stored steps := by
  induction steps generalizing done stored with
  | nil => simp [recordStoresFrom, withStores]
  | cons s rest ih => rw [recordStoresFrom, ih]; simp [withStores]

theorem recordStores_eq (steps : List Step) : recordStores steps = withStores [] steps := by
  rw [recordStores, recordStoresFrom_eq]
  rfl

theorem withStores_append (stored : List Int) (l₁ l₂ : List Step) :
    withStores stored (l₁ ++ l₂) =
      withStores stored l₁ ++ withStores (stored ++ l₁.flatMap (·.store)) l₂ := by
  induction l₁ generalizing stored with
  | nil => simp [withStores]
  | cons s rest ih => simp [withStores, ih]

theorem withStores_getElem {stored : List Int} {steps : List Step} {m : Nat} {s : Step}
    (h : (withStores stored steps)[m]? = some s) :
    ∃ t, steps[m]? = some t ∧
      s = { t with dramState := stored ++ (steps.take (m + 1)).flatMap (·.store) } := by
  induction steps generalizing stored m with
  | nil => simp [withStores] at h
  | cons t rest ih =>
    cases m with
    | zero =>
      obtain rfl := Option.some.inj h
      exact ⟨t, rfl, by simp⟩
    | succ m =>
      obtain ⟨u, hu, rfl⟩ := ih h
      exact ⟨u, hu, by simp⟩

theorem mem_withStores {stored : List Int} {steps : List Step} {s : Step}
    (h : s ∈ withStores stored steps) : ∃ t ∈ steps, ∃ d, s = { t with dramState := d } := by
  obtain ⟨m, hm⟩ := List.getElem?_of_mem h
  obtain ⟨t, ht, rfl⟩ := withStores_getElem hm
  exact ⟨t, List.mem_of_getElem? ht, _, rfl⟩

@[simp] theorem length_withStores (stored : List Int) (steps : List Step) :
    (withStores stored steps).length = steps.length := by
  induction steps generalizing stored with
  | nil => rfl
  | cons s rest ih => simp [withStores, ih]

/-- What the record leaves alone is read off the steps as before. -/
theorem withStores_flatMap {α : Type} (f : Step → List α)
    (hf : ∀ s d, f { s with dramState := d } = f s) (stored : List Int) (steps : List Step) :
    (withStores stored steps).flatMap f = steps.flatMap f := by
  induction steps generalizing stored with
  | nil => rfl
  | cons s rest ih => rw [withStores, List.flatMap_cons, List.flatMap_cons, ih, hf]

theorem take_withStores (stored : List Int) (steps : List Step) (n : Nat) :
    (withStores stored steps).take n = withStores stored (steps.take n) := by
  induction steps generalizing stored n with
  | nil => simp [withStores]
  | cons s rest ih =>
    cases n with
    | zero => rfl
    | succ n => simp [withStores, ih]

theorem withStores_getLast (stored : List Int) (steps : List Step) (hne : steps ≠ []) :
    ((withStores stored steps).getLast?.map (·.dramState)) =
      some (stored ++ steps.flatMap (·.store)) := by
  induction steps generalizing stored with
  | nil => exact absurd rfl hne
  | cons s rest ih =>
    cases rest with
    | nil => simp [withStores]
    | cons t rest =>
      have := ih (stored ++ s.store) (by simp)
      rw [withStores, withStores] at *
      rw [List.getLast?_cons_cons, this]
      simp

/-- **In the end the record holds what all steps store.** -/
theorem stored_recordStores {s : Schedule} {steps : List Step} (h : s.steps = recordStores steps) :
    s.stored = steps.flatMap (·.store) := by
  unfold Schedule.stored
  rw [h, recordStores_eq]
  cases steps with
  | nil => rfl
  | cons t rest =>
    have := withStores_getLast [] (t :: rest) (by simp)
    cases hl : (withStores [] (t :: rest)).getLast? with
    | none => rw [hl] at this; cases this
    | some u =>
      rw [hl] at this
      simpa using this

end Tessera
