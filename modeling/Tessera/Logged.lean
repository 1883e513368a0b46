import Tessera.Failure

/-!
# Computations that tell how far they are

A logged computation has an outcome and the lines it wrote on the way; after a
failure the lines written before it are still there.

* `Logged.write`, `Logged.line`: write lines.
* `Logged.outcome_bind`, `Logged.outcome_of`, `Logged.outcome_write`: what a
  logged computation comes to does not depend on its lines.
-/

namespace Tessera

/-- An outcome and the lines written on the way to it. -/
structure Logged (α : Type) where
  lines : List String
  outcome : Outcome α

namespace Logged

/-- An outcome without lines. -/
def of {α : Type} (x : Outcome α) : Logged α := ⟨[], x⟩

/-- Writes lines. -/
def write (texts : List String) : Logged Unit := ⟨texts, .ok ()⟩

/-- Writes a line. -/
def line (text : String) : Logged Unit := write [text]

/-- Goes on with `f` unless `x` failed. -/
def andThen {α β : Type} (x : Logged α) (f : α → Logged β) : Logged β :=
  match x.outcome with
  | .ok a => ⟨x.lines ++ (f a).lines, (f a).outcome⟩
  | .error e => ⟨x.lines, .error e⟩

instance : Monad Logged where
  pure a := of (.ok a)
  bind := andThen

instance : MonadLift (Except Failure) Logged where
  monadLift := of

@[simp] theorem outcome_of {α : Type} (x : Outcome α) : (of x).outcome = x := rfl

@[simp] theorem outcome_write (texts : List String) : (write texts).outcome = .ok () := rfl

@[simp] theorem outcome_line (text : String) : (line text).outcome = .ok () := rfl

@[simp] theorem outcome_lift {α : Type} (x : Outcome α) :
    (liftM x : Logged α).outcome = x := rfl

@[simp] theorem outcome_pure {α : Type} (a : α) : (pure a : Logged α).outcome = .ok a := rfl

@[simp] theorem outcome_bind {α β : Type} (x : Logged α) (f : α → Logged β) :
    (x >>= f).outcome = x.outcome >>= fun a => (f a).outcome := by
  show (andThen x f).outcome = _
  unfold andThen
  cases h : x.outcome <;> simp [bind, Except.bind]

end Logged

end Tessera
