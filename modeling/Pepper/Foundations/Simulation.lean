import Mathlib.Logic.Basic
import Mathlib.Tactic.Common

/-!
# Runs of machines that answer requests

A machine takes a request to a new state and an answer, or stops. `run` feeds it a list of
requests. `Along P` states that every step of a run meets `P`.

`run_refines` is the simulation rule: if every step that meets `P` follows the reference machine,
then so does every run all of whose steps meet `P`. `along_of_run` is the converse for a machine
that stops wherever `P` fails.
-/

set_option autoImplicit false

namespace Pepper.Foundations.Simulation

universe u v w x

variable {σ : Type u} {τ : Type v} {α : Type w} {β : Type x}

/-- The answers to a list of requests and the state after them. -/
def run (step : σ → α → Option (σ × β)) : σ → List α → Option (σ × List β)
  | s, [] => some (s, [])
  | s, a :: requests =>
      match step s a with
      | none => none
      | some (s', b) => (run step s' requests).map fun r => (r.1, b :: r.2)

/-- Every step of the run from `s` meets `P`. -/
def Along (step : σ → α → Option (σ × β)) (P : σ → α → Prop) : σ → List α → Prop
  | _, [] => True
  | s, a :: requests =>
      P s a ∧ ∀ s' b, step s a = some (s', b) → Along step P s' requests

variable {step : σ → α → Option (σ × β)} {ref : τ → α → Option (τ × β)}

@[simp] theorem run_nil (s : σ) : run step s [] = some (s, []) := rfl

theorem run_cons_of_step {s s' : σ} {a : α} {b : β} (h : step s a = some (s', b))
    (requests : List α) :
    run step s (a :: requests) = (run step s' requests).map fun r => (r.1, b :: r.2) := by
  rw [run, h]

/-- A run that goes through has a first step that goes through. -/
theorem run_cons_eq_some {s t : σ} {a : α} {requests : List α} {bs : List β}
    (h : run step s (a :: requests) = some (t, bs)) :
    ∃ s' b rest, step s a = some (s', b) ∧ run step s' requests = some (t, rest) ∧
      bs = b :: rest := by
  rw [run] at h
  cases hstep : step s a with
  | none => simp [hstep] at h
  | some r =>
      obtain ⟨s', b⟩ := r
      simp only [hstep, Option.map_eq_some_iff] at h
      obtain ⟨⟨t', rest⟩, hrest, heq⟩ := h
      cases heq
      exact ⟨s', b, rest, rfl, hrest, rfl⟩

/-- Simulation: the machine answers like the reference machine `ref` as long as its steps
meet `P`. -/
theorem run_refines {R : σ → τ → Prop} {P : σ → α → Prop}
    (hstep : ∀ s t a t' b, R s t → P s a → ref t a = some (t', b) →
      ∃ s', step s a = some (s', b) ∧ R s' t')
    {s : σ} {t t' : τ} {requests : List α} {bs : List β} (hR : R s t)
    (halong : Along step P s requests) (hrun : run ref t requests = some (t', bs)) :
    ∃ s', run step s requests = some (s', bs) ∧ R s' t' := by
  induction requests generalizing s t bs with
  | nil =>
      cases hrun
      exact ⟨s, rfl, hR⟩
  | cons a requests ih =>
      obtain ⟨t₁, b, rest, hfirst, hrest, rfl⟩ := run_cons_eq_some hrun
      obtain ⟨s₁, hs₁, hR₁⟩ := hstep s t a t₁ b hR halong.1 hfirst
      obtain ⟨s', hs', hR'⟩ := ih hR₁ (halong.2 s₁ b hs₁) hrest
      refine ⟨s', ?_, hR'⟩
      rw [run_cons_of_step hs₁, hs']
      rfl

/-- A machine that stops where `P` fails goes through only if all its steps meet `P`. -/
theorem along_of_run {P : σ → α → Prop} (hstop : ∀ s a, ¬ P s a → step s a = none)
    {s t : σ} {requests : List α} {bs : List β} (hrun : run step s requests = some (t, bs)) :
    Along step P s requests := by
  induction requests generalizing s bs with
  | nil => trivial
  | cons a requests ih =>
      obtain ⟨s', b, rest, hfirst, hrest, -⟩ := run_cons_eq_some hrun
      refine ⟨?_, ?_⟩
      · by_contra hP
        rw [hstop s a hP] at hfirst
        cases hfirst
      · intro s'' b' h
        rw [hfirst] at h
        cases h
        exact ih hrest

end Pepper.Foundations.Simulation
