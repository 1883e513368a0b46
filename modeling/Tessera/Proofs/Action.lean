import Mathlib.Data.List.Induction
import Mathlib.Data.List.Perm.Basic
import Mathlib.Logic.Function.Basic
import Tessera.Proofs.Outcome

/-!
# Actions on vectors

An action writes one vector; what it writes depends on the old value of that
vector and of at most one other. A schedule runs the actions of a program in
another order, and this module says when that makes no difference.

* `Action.run`: actions on the values of all vectors, in order.
* `run_reorder`: an order that keeps every two conflicting actions in order ends
  in the same values.
* `run_of_parts`: so does an order that keeps, for each part of the vectors, the
  actions on that part in order, if no action reads across parts.
-/

namespace Tessera

/-- The numbers of a vector. -/
abbrev Row := List Int

/-- What is done to one vector: the new value from the old one and that of a second
vector, if it reads one. -/
structure Action where
  dst : Int
  src : Option Int
  act : Row → Row → Outcome Row

namespace Action

/-- The vectors whose values an action depends on. -/
def reads (a : Action) : List Int := a.dst :: a.src.toList

/-- The value an action writes. -/
def value (a : Action) (σ : Int → Row) : Outcome Row :=
  a.act (σ a.dst) ((a.src.map σ).getD [])

/-- The values after an action. -/
def apply (σ : Int → Row) (a : Action) : Outcome (Int → Row) :=
  return Function.update σ a.dst (← a.value σ)

/-- The values after some actions in order. -/
def run (as : List Action) (σ : Int → Row) : Outcome (Int → Row) := as.foldlM apply σ

theorem apply_eq_ok {a : Action} {σ τ : Int → Row} :
    a.apply σ = .ok τ ↔ ∃ x, a.value σ = .ok x ∧ τ = Function.update σ a.dst x := by
  unfold apply
  simp only [Outcome.bind_eq_ok, Outcome.pure_eq_ok]
  constructor
  · rintro ⟨x, hx, rfl⟩; exact ⟨x, hx, rfl⟩
  · rintro ⟨x, hx, rfl⟩; exact ⟨x, hx, rfl⟩

@[simp] theorem run_nil {σ τ : Int → Row} : run [] σ = .ok τ ↔ σ = τ := Outcome.pure_eq_ok

theorem run_cons {a : Action} {as : List Action} {σ τ : Int → Row} :
    run (a :: as) σ = .ok τ ↔ ∃ σ', a.apply σ = .ok σ' ∧ run as σ' = .ok τ := foldlM_cons_eq_ok

theorem run_append {as bs : List Action} {σ τ : Int → Row} :
    run (as ++ bs) σ = .ok τ ↔ ∃ σ', run as σ = .ok σ' ∧ run bs σ' = .ok τ := foldlM_append_eq_ok

theorem run_concat {a : Action} {as : List Action} {σ τ : Int → Row} :
    run (as ++ [a]) σ = .ok τ ↔ ∃ σ', run as σ = .ok σ' ∧ a.apply σ' = .ok τ := by
  rw [run_append]
  constructor
  · rintro ⟨σ', h, h'⟩
    obtain ⟨τ', h1, h2⟩ := run_cons.1 h'
    obtain rfl := run_nil.1 h2
    exact ⟨σ', h, h1⟩
  · rintro ⟨σ', h, h'⟩; exact ⟨σ', h, run_cons.2 ⟨τ, h', run_nil.2 rfl⟩⟩

/-- The value depends only on the vectors the action reads. -/
theorem value_congr {a : Action} {σ τ : Int → Row} (h : ∀ v ∈ a.reads, σ v = τ v) :
    a.value σ = a.value τ := by
  unfold value
  rw [h a.dst List.mem_cons_self]
  cases hs : a.src with
  | none => rfl
  | some u =>
    have : σ u = τ u := h u (by simp [reads, hs])
    simp [this]

/-- A vector that no action writes keeps its value. -/
theorem run_untouched {as : List Action} {σ τ : Int → Row} (h : run as σ = .ok τ) {v : Int}
    (hv : v ∉ as.map dst) : τ v = σ v := by
  induction as generalizing σ with
  | nil => rw [run_nil.1 h]
  | cons a as ih =>
    obtain ⟨σ', ha, h⟩ := run_cons.1 h
    obtain ⟨x, -, rfl⟩ := apply_eq_ok.1 ha
    simp only [List.map_cons, List.mem_cons, not_or] at hv
    rw [ih h hv.2, Function.update_of_ne hv.1]

/-- Neither action writes what the other reads or writes. -/
def Independent (a b : Action) : Prop := b.dst ∉ a.reads ∧ a.dst ∉ b.reads

/-- Independent actions can be exchanged. -/
theorem apply_comm {a b : Action} (h : a.Independent b) {σ σ' τ : Int → Row}
    (ha : a.apply σ = .ok σ') (hb : b.apply σ' = .ok τ) :
    ∃ σ'', b.apply σ = .ok σ'' ∧ a.apply σ'' = .ok τ := by
  obtain ⟨x, hx, rfl⟩ := apply_eq_ok.1 ha
  obtain ⟨y, hy, rfl⟩ := apply_eq_ok.1 hb
  have hne : a.dst ≠ b.dst := fun heq => h.2 (heq ▸ List.mem_cons_self)
  refine ⟨_, apply_eq_ok.2 ⟨y, ?_, rfl⟩, apply_eq_ok.2 ⟨x, ?_, ?_⟩⟩
  · rw [← hy]
    refine value_congr fun v hv => ?_
    rw [Function.update_of_ne fun heq : v = a.dst => h.2 (heq ▸ hv)]
  · rw [← hx]
    refine value_congr fun v hv => ?_
    rw [Function.update_of_ne fun heq : v = b.dst => h.1 (heq ▸ hv)]
  · rw [Function.update_comm hne]

/-- An action can be delayed past actions it is independent of. -/
theorem run_delay {a : Action} {before after : List Action}
    (h : ∀ b ∈ before, a.Independent b) {σ τ : Int → Row}
    (hrun : run (a :: (before ++ after)) σ = .ok τ) : run (before ++ a :: after) σ = .ok τ := by
  induction before generalizing σ with
  | nil => exact hrun
  | cons b bs ih =>
    obtain ⟨σ1, h1, hrun⟩ := run_cons.1 hrun
    obtain ⟨σ2, h2, hrun⟩ := run_cons.1 hrun
    obtain ⟨σ3, h3, h4⟩ := apply_comm (h b List.mem_cons_self) h1 h2
    refine run_cons.2 ⟨σ3, h3, ih (fun b hb => h b (List.mem_cons_of_mem _ hb)) ?_⟩
    exact run_cons.2 ⟨σ2, h4, hrun⟩

/-- **An order that keeps conflicting actions in order ends in the same values.**
`xs` is the first order; `place` says where an entry comes in the second one. -/
theorem run_reorder {α : Type} (f : α → Action) (place : α → Nat) {xs ys : List α}
    (hperm : xs.Perm ys) (hys : ys.Pairwise fun a b => place a < place b)
    (hxs : xs.Pairwise fun a b => (f a).Independent (f b) ∨ place a ≤ place b)
    {σ τ : Int → Row} (h : run (xs.map f) σ = .ok τ) : run (ys.map f) σ = .ok τ := by
  induction xs generalizing ys σ with
  | nil => rwa [List.nil_perm.1 hperm]
  | cons a as ih =>
    -- the entries that come before `a` in the second order are independent of it
    obtain ⟨before, after, rfl⟩ := List.append_of_mem (hperm.subset List.mem_cons_self)
    have hrest : as.Perm (before ++ after) :=
      List.Perm.cons_inv (hperm.trans List.perm_middle)
    rw [List.map_append, List.map_cons]
    refine run_delay (fun b' hb' => ?_) ?_
    · obtain ⟨b, hb, rfl⟩ := List.mem_map.1 hb'
      have hlt : place b < place a :=
        (List.pairwise_append.1 hys).2.2 b hb a List.mem_cons_self
      have hmem : b ∈ as := hrest.symm.subset (List.mem_append_left _ hb)
      rcases (List.pairwise_cons.1 hxs).1 b hmem with hi | hle
      · exact hi
      · omega
    · obtain ⟨σ', h1, h2⟩ := run_cons.1 h
      rw [← List.map_append]
      refine run_cons.2 ⟨σ', h1, ih hrest ?_ (List.pairwise_cons.1 hxs).2 h2⟩
      exact hys.sublist (List.Sublist.append_left (List.sublist_cons_self _ _) _)

/-- No action reads across the parts that `part` divides the vectors into. -/
def Parted {ι : Type} (part : Int → ι) (a : Action) : Prop := ∀ v ∈ a.reads, part v = part a.dst

/-- The values of a part depend only on the actions on that part. -/
theorem run_part {ι : Type} [DecidableEq ι] {part : Int → ι} {as : List Action}
    (hp : ∀ a ∈ as, a.Parted part) {σ τ : Int → Row} (h : run as σ = .ok τ) (n : ι) :
    ∃ τ', run (as.filter fun a => part a.dst = n) σ = .ok τ' ∧ ∀ v, part v = n → τ' v = τ v := by
  induction as using List.reverseRecOn generalizing τ with
  | nil => exact ⟨σ, run_nil.2 rfl, fun v _ => by rw [run_nil.1 h]⟩
  | append_singleton as a ih =>
    obtain ⟨σ', h1, h2⟩ := run_concat.1 h
    obtain ⟨τ', h3, h4⟩ := ih (fun b hb => hp b (List.mem_append_left _ hb)) h1
    obtain ⟨x, hx, rfl⟩ := apply_eq_ok.1 h2
    rw [List.filter_append]
    by_cases hn : part a.dst = n
    · simp only [List.filter_cons, hn, decide_true, if_true, List.filter_nil]
      refine ⟨_, run_concat.2 ⟨τ', h3, apply_eq_ok.2 ⟨x, ?_, rfl⟩⟩, fun v hv => ?_⟩
      · rw [← hx]
        exact value_congr fun v hv => h4 v ((hp a (by simp) v hv).trans hn)
      · by_cases hva : v = a.dst
        · rw [hva, Function.update_self, Function.update_self]
        · rw [Function.update_of_ne hva, Function.update_of_ne hva, h4 v hv]
    · simp only [List.filter_cons, hn, decide_false, Bool.false_eq_true, if_false, List.filter_nil,
        List.append_nil]
      refine ⟨τ', h3, fun v hv => ?_⟩
      rw [Function.update_of_ne (fun hva : v = a.dst => hn (hva ▸ hv)), h4 v hv]

/-- Actions can be run if those on each part can. -/
theorem run_progress {ι : Type} [DecidableEq ι] {part : Int → ι} {as : List Action}
    (hp : ∀ a ∈ as, a.Parted part) {σ : Int → Row}
    (h : ∀ n, ∃ τ, run (as.filter fun a => part a.dst = n) σ = .ok τ) :
    ∃ τ, run as σ = .ok τ := by
  induction as using List.reverseRecOn with
  | nil => exact ⟨σ, run_nil.2 rfl⟩
  | append_singleton as a ih =>
    have hp' : ∀ b ∈ as, b.Parted part := fun b hb => hp b (List.mem_append_left _ hb)
    obtain ⟨τ, hτ⟩ := ih hp' fun n => by
      obtain ⟨τ, hn⟩ := h n
      rw [List.filter_append] at hn
      obtain ⟨σ', h1, -⟩ := run_append.1 hn
      exact ⟨σ', h1⟩
    -- the last action finds the values it found among the actions on its part
    obtain ⟨τ', hn⟩ := h (part a.dst)
    rw [List.filter_append, show [a].filter (fun b => part b.dst = part a.dst) = [a] by simp] at hn
    obtain ⟨σ', h1, h2⟩ := run_concat.1 hn
    obtain ⟨x, hx, -⟩ := apply_eq_ok.1 h2
    obtain ⟨σ'', h3, h4⟩ := run_part hp' hτ (part a.dst)
    rw [h1] at h3
    obtain rfl := Except.ok.inj h3
    refine ⟨_, run_concat.2 ⟨τ, hτ, apply_eq_ok.2 ⟨x, ?_, rfl⟩⟩⟩
    rw [← hx]
    exact value_congr fun v hv => (h4 v (hp a (by simp) v hv)).symm

/-- **An order that keeps the actions on each part in order ends in the same
values.** -/
theorem run_of_parts {ι : Type} [DecidableEq ι] {part : Int → ι} {as bs : List Action}
    (ha : ∀ a ∈ as, a.Parted part) (hb : ∀ a ∈ bs, a.Parted part)
    (hsame : ∀ n, as.filter (fun a => part a.dst = n) = bs.filter fun a => part a.dst = n)
    {σ τ : Int → Row} (h : run as σ = .ok τ) : run bs σ = .ok τ := by
  obtain ⟨τ', h'⟩ := run_progress hb fun n => by
    obtain ⟨τ', h1, -⟩ := run_part ha h n
    exact ⟨τ', hsame n ▸ h1⟩
  rw [h']
  congr 1
  funext v
  obtain ⟨τ1, h1, h2⟩ := run_part ha h (part v)
  obtain ⟨τ2, h3, h4⟩ := run_part hb h' (part v)
  rw [hsame, h3] at h1
  obtain rfl := Except.ok.inj h1
  rw [← h2 v rfl, h4 v rfl]

end Action

end Tessera
