import Mathlib.Data.List.Forall2
import Tessera.Word

/-!
# Computations that succeed

A computation of this library is opened from its result: if it came to a value,
so did each of its parts. The lemmas here take a successful computation apart.

* `bind_eq_ok`, `within_eq_ok`, `refused_eq_ok`: one step of a computation.
* `mapM_eq_ok`: a table of results is one result for each entry.
* `foldlM_invariant`: what each step of a fold keeps, the fold keeps.
* `loopBelow_invariant`: the same for a loop over indices.
* `OnlyRefuses`: a computation that comes to a value or to a diagnosis of some kind;
  `Ensures`: to a value of some kind.
-/

namespace Tessera

variable {α β γ σ : Type}

namespace Outcome

@[simp] theorem bind_eq_ok {x : Outcome α} {f : α → Outcome β} {b : β} :
    (x >>= f) = .ok b ↔ ∃ a, x = .ok a ∧ f a = .ok b := by
  cases x with
  | error e => simp [bind, Except.bind]
  | ok a => simp [bind, Except.bind]

@[simp] theorem pure_eq_ok {a b : α} : (pure a : Outcome α) = .ok b ↔ a = b := by
  simp [pure, Except.pure]

@[simp] theorem map_eq_ok {x : Outcome α} {f : α → β} {b : β} :
    (f <$> x) = .ok b ↔ ∃ a, x = .ok a ∧ f a = b := by
  cases x with
  | error e => simp [Functor.map, Except.map]
  | ok a => simp [Functor.map, Except.map]

@[simp] theorem diagnose_ne_ok {object : String} {d : Detail} {a : α} :
    (diagnose object d : Outcome α) ≠ .ok a := by
  simp [diagnose, refuse]

@[simp] theorem complain_ne_ok {c : Complaint} {a : α} : (complain c : Outcome α) ≠ .ok a := by
  simp [complain, refuse]

@[simp] theorem within_eq_ok {ctx : String} {x : Outcome α} {a : α} :
    within ctx x = .ok a ↔ x = .ok a := by
  cases x <;> simp [within, Except.mapError]

@[simp] theorem ofOption_eq_ok {x : Option α} {a : α} : ofOption x = .ok a ↔ x = some a := by
  cases x <;> simp [ofOption]

@[simp] theorem ok_bind (a : α) (f : α → Outcome β) : ((.ok a : Outcome α) >>= f) = f a := rfl

/-- A check that refuses with a diagnosis passes if its condition does not hold. -/
@[simp] theorem refused_eq_ok {p : Prop} [Decidable p] {object : String} {d : Detail}
    {f : β → Outcome α} {x : Outcome α} {a : α} :
    (if p then diagnose object d >>= f else x) = .ok a ↔ ¬p ∧ x = .ok a := by
  by_cases hp : p <;> simp [hp]

/-- A check of a computed condition passes if the condition is computed and holds. -/
theorem required_eq_ok {x : Outcome Bool} {object : String} {d : Detail} {f : β → Outcome α}
    {rest : Outcome α} {a : α} :
    (x >>= fun held => if (!held) = true then diagnose object d >>= f else rest) = .ok a ↔
      x = .ok true ∧ rest = .ok a := by
  rw [bind_eq_ok]
  constructor
  · rintro ⟨held, hheld, h⟩
    obtain ⟨hnot, h⟩ := refused_eq_ok.1 h
    obtain rfl : held = true := by simpa using hnot
    exact ⟨hheld, h⟩
  · rintro ⟨hheld, h⟩
    exact ⟨true, hheld, refused_eq_ok.2 ⟨by decide, h⟩⟩

/-- A check that refuses with a complaint passes if its condition does not hold. -/
theorem complained_eq_ok {p : Prop} [Decidable p] {c : Complaint} {f : β → Outcome α}
    {x : Outcome α} {a : α} :
    (if p then complain c >>= f else x) = .ok a ↔ ¬p ∧ x = .ok a := by
  by_cases hp : p <;> simp [hp]

/-- Two ways to a value and one way on. -/
theorem ite_bind {p : Prop} [Decidable p] {x y : Outcome α} {f : α → Outcome β} :
    (if p then x >>= f else y >>= f) = (if p then x else y) >>= f := by
  by_cases hp : p <;> simp [hp]

/-- A check that faults passes if its condition does not hold. -/
@[simp] theorem faulted_eq_ok {p : Prop} [Decidable p] {e : Failure} {f : β → Outcome α}
    {x : Outcome α} {a : α} :
    (if p then (.error e : Outcome β) >>= f else x) = .ok a ↔ ¬p ∧ x = .ok a := by
  by_cases hp : p <;> simp [hp]

/-- A result that the computation reaches, from the result of its last part. -/
theorem bind_ok {x : Outcome α} {f : α → Outcome β} {a : α} {b : β} (h : x = .ok a)
    (hf : f a = .ok b) : (x >>= f) = .ok b := bind_eq_ok.2 ⟨a, h, hf⟩

/-- Two ways on from the same computation, which differ at no value that it comes to. -/
theorem bind_congr {x : Outcome α} {f f' : α → Outcome β} (h : ∀ a, x = .ok a → f a = f' a) :
    (x >>= f) = (x >>= f') := by
  cases x with
  | error e => rfl
  | ok a => exact h a rfl

/-- A computation that can only fail with a diagnosis, of the kind `P`. -/
def OnlyRefuses (P : Detail → Prop) (x : Outcome α) : Prop :=
  ∀ e, x = .error e → ∃ object detail, e = .report ⟨[], .diagnosis ⟨object, detail⟩⟩ ∧ P detail

namespace OnlyRefuses

variable {P : Detail → Prop} {x : Outcome α}

theorem of_ok {a : α} (h : x = .ok a) : x.OnlyRefuses P := by
  intro e he
  rw [h] at he
  cases he

theorem diagnose {d : Detail} (object : String) (h : P d) :
    (Outcome.diagnose object d : Outcome α).OnlyRefuses P := by
  intro e he
  cases he
  exact ⟨object, d, rfl, h⟩

theorem bind {f : α → Outcome β} (hx : x.OnlyRefuses P)
    (hf : ∀ a, x = .ok a → (f a).OnlyRefuses P) : (x >>= f).OnlyRefuses P := by
  cases x with
  | ok a => exact hf a rfl
  | error e =>
    intro e' he
    cases he
    exact hx e rfl

/-- A check that refuses with a diagnosis. -/
theorem refused {p : Prop} [Decidable p] {object : String} {d : Detail} {f : β → Outcome α}
    (hd : p → P d) (hx : ¬p → x.OnlyRefuses P) :
    (if p then Outcome.diagnose object d >>= f else x).OnlyRefuses P := by
  by_cases hp : p
  · rw [if_pos hp]
    exact (diagnose object (hd hp)).bind fun _ h => absurd h (by simp)
  · rw [if_neg hp]
    exact hx hp

/-- It gives a value or a diagnosis. -/
theorem ok_or_diagnose (h : x.OnlyRefuses P) :
    (∃ a, x = .ok a) ∨ ∃ object detail, x = Outcome.diagnose object detail ∧ P detail := by
  cases x with
  | ok a => exact Or.inl ⟨a, rfl⟩
  | error e =>
    obtain ⟨object, detail, rfl, hP⟩ := h e rfl
    exact Or.inr ⟨object, detail, rfl, hP⟩

end OnlyRefuses

/-- A computation that comes to a value of the kind `Q` or to a diagnosis of the kind `P`. -/
def Ensures (P : Detail → Prop) (Q : α → Prop) (x : Outcome α) : Prop :=
  x.OnlyRefuses P ∧ ∀ a, x = .ok a → Q a

namespace Ensures

variable {P : Detail → Prop} {Q : α → Prop} {x : Outcome α}

theorem of_ok (h : ∃ a, x = .ok a ∧ Q a) : x.Ensures P Q := by
  obtain ⟨a, rfl, hQ⟩ := h
  exact ⟨.of_ok rfl, fun b hb => by cases hb; exact hQ⟩

theorem bind {f : α → Outcome β} {R : β → Prop} (hx : x.Ensures P Q)
    (hf : ∀ a, x = .ok a → Q a → (f a).Ensures P R) : (x >>= f).Ensures P R := by
  refine ⟨hx.1.bind fun a ha => (hf a ha (hx.2 a ha)).1, fun b hb => ?_⟩
  obtain ⟨a, ha, hb⟩ := bind_eq_ok.1 hb
  exact (hf a ha (hx.2 a ha)).2 b hb

end Ensures

theorem OnlyRefuses.ensures {P : Detail → Prop} {x : Outcome α} (h : x.OnlyRefuses P) :
    x.Ensures P fun _ => True := ⟨h, fun _ _ => trivial⟩

end Outcome

open Outcome

theorem mapM_eq_ok {f : α → Outcome β} {xs : List α} {ys : List β} :
    xs.mapM f = .ok ys ↔ List.Forall₂ (fun x y => f x = .ok y) xs ys := by
  induction xs generalizing ys with
  | nil => cases ys <;> simp [pure, Except.pure]
  | cons x xs ih =>
    rw [List.mapM_cons]
    constructor
    · intro h
      obtain ⟨y, hy, h⟩ := bind_eq_ok.1 h
      obtain ⟨zs, hzs, h⟩ := bind_eq_ok.1 h
      obtain rfl := pure_eq_ok.1 h
      exact .cons hy (ih.1 hzs)
    · intro h
      cases h with
      | cons hy hys => exact bind_ok hy (bind_ok (ih.2 hys) rfl)

/-- A table made entry by entry from values that all exist. -/
theorem mapM_of_forall {f : α → Outcome β} {g : α → β} {xs : List α}
    (h : ∀ x ∈ xs, f x = .ok (g x)) : xs.mapM f = .ok (xs.map g) := by
  rw [mapM_eq_ok, List.forall₂_map_right_iff, List.forall₂_same]
  exact h

/-- A table made of parts, part by part. -/
theorem mapM_flatMap {f : β → Outcome γ} {g : α → List β} {h : α → List γ} {xs : List α}
    (hx : ∀ x ∈ xs, (g x).mapM f = .ok (h x)) : (xs.flatMap g).mapM f = .ok (xs.flatMap h) := by
  induction xs with
  | nil => rfl
  | cons x xs ih =>
    rw [List.flatMap_cons, List.mapM_append, hx x List.mem_cons_self, ok_bind,
      ih fun y hy => hx y (List.mem_cons_of_mem _ hy)]
    rfl

/-- The results of a table, if each of them is known. -/
theorem mapM_eq_map {f : α → Outcome β} {g : α → β} {xs : List α} {ys : List β}
    (h : xs.mapM f = .ok ys) (hg : ∀ x ∈ xs, ∀ y, f x = .ok y → y = g x) : ys = xs.map g := by
  induction xs generalizing ys with
  | nil => cases mapM_eq_ok.1 h; rfl
  | cons x xs ih =>
    cases mapM_eq_ok.1 h with
    | cons hy hys =>
      rw [List.map_cons, hg x List.mem_cons_self _ hy,
        ih (mapM_eq_ok.2 hys) fun x hx => hg x (List.mem_cons_of_mem _ hx)]

theorem forall₂_left {R : α → β → Prop} {xs : List α} {ys : List β} (h : List.Forall₂ R xs ys)
    {x : α} (hx : x ∈ xs) : ∃ y ∈ ys, R x y := by
  induction h with
  | nil => cases hx
  | cons hr _ ih =>
    rcases List.mem_cons.1 hx with rfl | hx
    · exact ⟨_, List.mem_cons_self, hr⟩
    · obtain ⟨y, hy, hr⟩ := ih hx
      exact ⟨y, List.mem_cons_of_mem _ hy, hr⟩

theorem forall₂_right {R : α → β → Prop} {xs : List α} {ys : List β} (h : List.Forall₂ R xs ys)
    {y : β} (hy : y ∈ ys) : ∃ x ∈ xs, R x y := by
  obtain ⟨x, hx, hr⟩ := forall₂_left h.flip hy
  exact ⟨x, hx, hr⟩

theorem forall₂_comp {R : α → β → Prop} {S : β → γ → Prop} {xs : List α} {ys : List β} {zs : List γ}
    (h : List.Forall₂ R xs ys) (h' : List.Forall₂ S ys zs) :
    List.Forall₂ (fun x z => ∃ y, R x y ∧ S y z) xs zs := by
  induction h generalizing zs with
  | nil =>
    cases h'
    exact .nil
  | cons hr _ ih =>
    cases h' with
    | cons hs h' => exact .cons ⟨_, hr, hs⟩ (ih h')

theorem forall₂_flatMap {δ : Type} {R : α → β → Prop} {S : γ → δ → Prop} {f : α → List γ}
    {g : β → List δ} {xs : List α} {ys : List β} (h : List.Forall₂ R xs ys)
    (hfg : ∀ x ∈ xs, ∀ y, R x y → List.Forall₂ S (f x) (g y)) :
    List.Forall₂ S (xs.flatMap f) (ys.flatMap g) := by
  induction h with
  | nil => exact .nil
  | cons hr _ ih =>
    rw [List.flatMap_cons, List.flatMap_cons]
    exact List.rel_append (hfg _ List.mem_cons_self _ hr)
      (ih fun x hx => hfg x (List.mem_cons_of_mem _ hx))

/-- A check made of every entry passes for each. -/
theorem forM_eq_ok {f : α → Outcome Unit} {xs : List α} :
    forM xs f = .ok () ↔ ∀ x ∈ xs, f x = .ok () := by
  induction xs with
  | nil => simp [pure, Except.pure]
  | cons x xs ih =>
    rw [List.forM_cons, bind_eq_ok, List.forall_mem_cons]
    constructor
    · rintro ⟨⟨⟩, h1, h2⟩; exact ⟨h1, ih.1 h2⟩
    · rintro ⟨h1, h2⟩; exact ⟨(), h1, ih.2 h2⟩

theorem foldlM_cons_eq_ok {f : σ → α → Outcome σ} {s t : σ} {x : α} {xs : List α} :
    (x :: xs).foldlM f s = .ok t ↔ ∃ s', f s x = .ok s' ∧ xs.foldlM f s' = .ok t := by
  rw [List.foldlM_cons, bind_eq_ok]

theorem Outcome.OnlyRefuses.mapM {P : Detail → Prop} {f : α → Outcome β} {xs : List α}
    (h : ∀ x ∈ xs, (f x).OnlyRefuses P) : (xs.mapM f).OnlyRefuses P := by
  induction xs with
  | nil => exact .of_ok rfl
  | cons x xs ih =>
    rw [List.mapM_cons]
    refine (h x List.mem_cons_self).bind fun _ _ => ?_
    exact (ih fun y hy => h y (List.mem_cons_of_mem _ hy)).bind fun _ _ => .of_ok rfl

theorem Outcome.OnlyRefuses.foldlM {P : Detail → Prop} {f : σ → α → Outcome σ} {xs : List α}
    (h : ∀ x ∈ xs, ∀ s, (f s x).OnlyRefuses P) (s : σ) : (xs.foldlM f s).OnlyRefuses P := by
  induction xs generalizing s with
  | nil => exact .of_ok rfl
  | cons x xs ih =>
    rw [List.foldlM_cons]
    exact (h x List.mem_cons_self s).bind fun s' _ =>
      ih (fun y hy => h y (List.mem_cons_of_mem _ hy)) s'

theorem Outcome.Ensures.foldlM {P : Detail → Prop} {Q : σ → Prop} {f : σ → α → Outcome σ}
    {xs : List α} (h : ∀ x ∈ xs, ∀ s, Q s → (f s x).Ensures P Q) {s : σ} (hs : Q s) :
    (xs.foldlM f s).Ensures P Q := by
  induction xs generalizing s with
  | nil => exact .of_ok ⟨s, rfl, hs⟩
  | cons x xs ih =>
    rw [List.foldlM_cons]
    exact (h x List.mem_cons_self s hs).bind fun s' _ hs' =>
      ih (fun y hy => h y (List.mem_cons_of_mem _ hy)) hs'

theorem foldlM_append_eq_ok {f : σ → α → Outcome σ} {s t : σ} {xs ys : List α} :
    (xs ++ ys).foldlM f s = .ok t ↔ ∃ s', xs.foldlM f s = .ok s' ∧ ys.foldlM f s' = .ok t := by
  rw [List.foldlM_append, bind_eq_ok]

/-- **What each step of a fold keeps, the fold keeps**; the invariant may speak
of the entries done and those to come. -/
theorem foldlM_invariant {f : σ → α → Outcome σ} (P : List α → List α → σ → Prop)
    (hstep : ∀ done x rest s s', P done (x :: rest) s → f s x = .ok s' → P (done ++ [x]) rest s') :
    ∀ (done rest : List α) (s t : σ), P done rest s → rest.foldlM f s = .ok t →
      P (done ++ rest) [] t := by
  intro done rest
  induction rest generalizing done with
  | nil =>
    intro s t hP h
    obtain rfl := pure_eq_ok.1 h
    rwa [List.append_nil]
  | cons x rest ih =>
    intro s t hP h
    obtain ⟨s', hx, h⟩ := foldlM_cons_eq_ok.1 h
    have := ih (done ++ [x]) s' t (hstep done x rest s s' hP hx) h
    rwa [List.append_assoc] at this

theorem loopFrom_invariant {f : Int → σ → Outcome σ} (P : Nat → σ → Prop) :
    ∀ (count i : Nat) (s t : σ),
      (∀ k s s', i ≤ k → k < i + count → P k s → f k s = .ok s' → P (k + 1) s') →
      P i s → loopFrom f count i s = .ok t → P (i + count) t := by
  intro count
  induction count with
  | zero =>
    intro i s t _ hP h
    cases h
    exact hP
  | succ count ih =>
    intro i s t hstep hP h
    rw [loopFrom] at h
    cases hf : f i s with
    | error e => simp [hf] at h
    | ok s' =>
      simp only [hf] at h
      have hP' := hstep i s s' (Nat.le_refl i) (by omega) hP hf
      have := ih (i + 1) s' t (fun k u u' h1 h2 => hstep k u u' (by omega) (by omega)) hP' h
      rwa [show i + (count + 1) = i + 1 + count by omega]

/-- **What each round of a loop keeps, the loop keeps.** -/
theorem loopBelow_invariant {f : Int → σ → Outcome σ} (P : Nat → σ → Prop) {n : Int} {s t : σ}
    (hstep : ∀ (k : Nat) s s', (k : Int) < n → P k s → f k s = .ok s' → P (k + 1) s')
    (h0 : P 0 s) (h : loopBelow n s f = .ok t) : P n.toNat t := by
  have := loopFrom_invariant P n.toNat 0 s t
    (fun k u u' _ hk => hstep k u u' (by omega)) h0 h
  rwa [Nat.zero_add] at this

theorem loopFrom_progress {f : Int → σ → Outcome σ} (P : Nat → σ → Prop) :
    ∀ (count i : Nat) (s : σ),
      (∀ k s, i ≤ k → k < i + count → P k s → ∃ s', f k s = .ok s' ∧ P (k + 1) s') →
      P i s → ∃ t, loopFrom f count i s = .ok t ∧ P (i + count) t := by
  intro count
  induction count with
  | zero => exact fun i s _ hP => ⟨s, rfl, hP⟩
  | succ count ih =>
    intro i s hstep hP
    obtain ⟨s', hf, hP'⟩ := hstep i s (Nat.le_refl i) (by omega) hP
    obtain ⟨t, ht, hPt⟩ := ih (i + 1) s' (fun k u h1 h2 => hstep k u (by omega) (by omega)) hP'
    refine ⟨t, ?_, by rwa [show i + (count + 1) = i + 1 + count by omega]⟩
    rw [loopFrom, hf]
    exact ht

/-- A loop reaches its end if each round can be run and keeps the invariant. -/
theorem loopBelow_progress {f : Int → σ → Outcome σ} (P : Nat → σ → Prop) {n : Int} {s : σ}
    (hstep : ∀ (k : Nat) s, (k : Int) < n → P k s → ∃ s', f k s = .ok s' ∧ P (k + 1) s')
    (h0 : P 0 s) : ∃ t, loopBelow n s f = .ok t ∧ P n.toNat t := by
  have := loopFrom_progress P n.toNat 0 s (fun k u _ hk => hstep k u (by omega)) h0
  rwa [Nat.zero_add] at this

end Tessera
