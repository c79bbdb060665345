import Mathlib.Tactic.Common

/-!
# Runs that end in a value or in a fault

Pre- and postconditions for `Except`: `Ends x Q E` says that the run `x` ends in a value with `Q`
or in a fault with `E`. A function that never faults has `E` empty, and a property that only the
runs that return have leaves `E` open. `ends_bind` follows the `do` blocks of a program,
`Ends.mono` weakens what is known at the end of a part to what the whole needs.
-/

set_option autoImplicit false

namespace Pepper.Foundations.Outcome

universe u v

variable {ε : Type u} {α β : Type v}

/-- A run ends in a value with `Q` or in a fault with `E`. -/
def Ends (x : Except ε α) (Q : α → Prop) (E : ε → Prop) : Prop :=
  match x with
  | .ok a => Q a
  | .error e => E e

@[simp] theorem ends_ok (a : α) (Q : α → Prop) (E : ε → Prop) :
    Ends (.ok a) Q E ↔ Q a :=
  Iff.rfl

@[simp] theorem ends_pure (a : α) (Q : α → Prop) (E : ε → Prop) :
    Ends (pure a : Except ε α) Q E ↔ Q a :=
  Iff.rfl

@[simp] theorem ends_error (e : ε) (Q : α → Prop) (E : ε → Prop) :
    Ends (.error e) Q E ↔ E e :=
  Iff.rfl

/-- What comes after a part starts from what the part leaves. -/
@[simp] theorem ends_bind (x : Except ε α) (f : α → Except ε β) (Q : β → Prop) (E : ε → Prop) :
    Ends (x >>= f) Q E ↔ Ends x (fun a => Ends (f a) Q E) E := by
  cases x with
  | ok a => exact Iff.rfl
  | error e => exact Iff.rfl

/-- Nothing is asked of the run. -/
theorem ends_any (x : Except ε α) : Ends x (fun _ => True) fun _ => True := by
  cases x with
  | ok a => trivial
  | error e => trivial

namespace Ends

variable {x : Except ε α} {Q Q' : α → Prop} {E E' : ε → Prop}

theorem mono (h : Ends x Q E) (hQ : ∀ a, Q a → Q' a) (hE : ∀ e, E e → E' e) : Ends x Q' E' := by
  cases x with
  | ok a => exact hQ a h
  | error e => exact hE e h

theorem mono_ok (h : Ends x Q E) (hQ : ∀ a, Q a → Q' a) : Ends x Q' E := h.mono hQ fun _ he => he

/-- Two facts about one run. -/
theorem and (h : Ends x Q E) (h' : Ends x Q' E') :
    Ends x (fun a => Q a ∧ Q' a) (fun e => E e ∧ E' e) := by
  cases x with
  | ok a => exact ⟨h, h'⟩
  | error e => exact ⟨h, h'⟩

theorem of_eq_ok {a : α} (h : Ends x Q E) (hx : x = .ok a) : Q a := by
  subst hx
  exact h

/-- A run without faults has a value. -/
theorem returns (h : Ends x Q fun _ => False) : ∃ a, x = .ok a ∧ Q a := by
  cases x with
  | ok a => exact ⟨a, rfl, h⟩
  | error e => exact h.elim

end Ends

end Pepper.Foundations.Outcome
