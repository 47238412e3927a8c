import Mathlib.Tactic.Common
import TextPipeline.Error

/-!
How a computation that calls functions may end: with a result, which is a value or an error,
or with nothing, because a name has no meaning or because more calls were nested than allowed.
-/

namespace TextPipeline

lemma ok_of_bind {ε α β : Type} {x : Except ε α} {f : α → Except ε β} {b : β}
    (h : x >>= f = .ok b) : ∃ a, x = .ok a ∧ f a = .ok b := by
  cases x with
  | error e => cases h
  | ok a => exact ⟨a, rfl, h⟩

lemma bind_of_ok {ε α β : Type} {x : Except ε α} {a : α} (h : x = .ok a)
    (f : α → Except ε β) : x >>= f = f a := by
  rw [h]
  rfl

lemma error_of_bind {α β : Type} {x : Except Error α} {f : α → Except Error β} {e : Error}
    (h : x >>= f = .error e) : x = .error e ∨ ∃ a, x = .ok a ∧ f a = .error e := by
  cases x with
  | error e' => cases h; exact .inl rfl
  | ok a => exact .inr ⟨a, rfl, h⟩

lemma bind_of_error {ε α β : Type} {x : Except ε α} {e : ε} (h : x = .error e)
    (f : α → Except ε β) : x >>= f = .error e := by
  rw [h]
  rfl

section State

variable {α β σ : Type} {x : ExceptT Error (StateM σ) α} {k : α → ExceptT Error (StateM σ) β}
  {s later : σ}

lemma run_bind_ok {a : α} (hx : x s = (.ok a, later)) : (x >>= k) s = k a later := by
  change (match x s with | (r, later) => ExceptT.bindCont k r later) = _
  rw [hx]
  rfl

lemma run_bind_error {e : Error} (hx : x s = (.error e, later)) :
    (x >>= k) s = (.error e, later) := by
  change (match x s with | (r, later) => ExceptT.bindCont k r later) = _
  rw [hx]
  rfl

end State

inductive Outcome (α : Type) where
  | done (result : Except Error α)
  | pending

namespace Outcome

variable {α β : Type}

/-- The first error ends a computation. -/
def bind : Outcome α → (α → Outcome β) → Outcome β
  | done (.ok a), f => f a
  | done (.error e), _ => done (.error e)
  | pending, _ => pending

instance : Monad Outcome where
  pure a := done (.ok a)
  bind := bind

@[simp] lemma pure_eq (a : α) : (pure a : Outcome α) = done (.ok a) := rfl
@[simp] lemma done_ok_bind (a : α) (f : α → Outcome β) : done (.ok a) >>= f = f a := rfl
@[simp] lemma done_error_bind (e : Error) (f : α → Outcome β) :
    done (.error e) >>= f = done (.error e) := rfl
@[simp] lemma pending_bind (f : α → Outcome β) : pending >>= f = pending := rfl

lemma done_bind_done (x : Except Error α) (f : α → Except Error β) :
    (done x >>= fun a => done (f a)) = done (x.bind f) := by
  cases x <;> rfl

lemma done_bind_pure (x : Except Error α) (f : α → β) :
    (done x >>= fun a => pure (f a)) = done (x.map f) := by
  cases x <;> rfl

lemma bind_eq_done {x : Outcome α} {f : α → Outcome β} {r : Except Error β}
    (h : x >>= f = done r) :
    (∃ e, x = done (.error e) ∧ r = .error e) ∨ ∃ a, x = done (.ok a) ∧ f a = done r := by
  rcases x with (e | a) | _
  · cases h
    exact .inl ⟨e, rfl, rfl⟩
  · exact .inr ⟨a, rfl, h⟩
  · cases h

lemma bind_assoc {γ : Type} (x : Outcome α) (f : α → Outcome β) (g : β → Outcome γ) :
    x >>= f >>= g = x >>= fun a => f a >>= g := by
  rcases x with (e | a) | _ <;> rfl

/-- What a computation costs that goes on with the value, if there is one. -/
def after : Outcome α → (α → Nat) → Nat
  | done (.ok a), cost => cost a
  | done (.error _), _ => 0
  | pending, _ => 0

end Outcome

/-- What calling a function on a text comes to. -/
abbrev Calls := String → String → Outcome String

/-- The texts one below the other. -/
def Text.stacked (texts : List String) : String := "\n".intercalate texts

end TextPipeline
