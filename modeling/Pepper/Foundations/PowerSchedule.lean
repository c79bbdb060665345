import Mathlib.Algebra.BigOperators.Group.List.Basic
import Mathlib.Algebra.BigOperators.Group.Finset.Basic
import Mathlib.Data.List.Sort

/-!
# Schedules of squarings

A schedule is a list of steps; a step squares an accumulator some times and multiplies a factor in.
Where the steps are given by positions instead, the squarings are the distances from one position
to the next (`gaps`), and the run raises every factor to the power of two of its distance from the
last position (`run_gaps`). In a commutative monoid that product does not depend on the order of
the factors, so steps at one position may come in any order.
-/

set_option autoImplicit false

namespace Pepper.Foundations.PowerSchedule

variable {M : Type*} [CommMonoid M]

/-- Squarings and a factor, one step after the other. -/
def run (steps : List (ℕ × M)) (r : M) : M :=
  steps.foldl (fun r step => r ^ 2 ^ step.1 * step.2) r

@[simp] theorem run_nil (r : M) : run [] r = r := rfl

@[simp] theorem run_cons (step : ℕ × M) (steps : List (ℕ × M)) (r : M) :
    run (step :: steps) r = run steps (r ^ 2 ^ step.1 * step.2) := rfl

/-- The steps for factors at positions, from the position `cur` on. -/
def gaps (cur : ℕ) : List (ℕ × M) → List (ℕ × M)
  | [] => []
  | (loc, x) :: l => (loc - cur, x) :: gaps loc l

/-- The product of the factors, each raised by its distance from `top`. -/
def product (top : ℕ) (l : List (ℕ × M)) : M := (l.map fun e => e.2 ^ 2 ^ (top - e.1)).prod

@[simp] theorem product_nil (top : ℕ) : product top ([] : List (ℕ × M)) = 1 := rfl

@[simp] theorem product_cons (top : ℕ) (e : ℕ × M) (l : List (ℕ × M)) :
    product top (e :: l) = e.2 ^ 2 ^ (top - e.1) * product top l := by
  rw [product, List.map_cons, List.prod_cons, product]

theorem product_append (top : ℕ) (l l' : List (ℕ × M)) :
    product top (l ++ l') = product top l * product top l' := by
  rw [product, List.map_append, List.prod_append, product, product]

/-- The order of the factors does not matter. -/
theorem product_perm {l l' : List (ℕ × M)} (h : l.Perm l') (top : ℕ) :
    product top l = product top l' := (h.map _).prod_eq

/-- Factors further below the top. -/
theorem product_add {top : ℕ} {l : List (ℕ × M)} (h : ∀ e ∈ l, e.1 ≤ top) (k : ℕ) :
    product (top + k) l = product top l ^ 2 ^ k := by
  induction l with
  | nil => rw [product_nil, product_nil, one_pow]
  | cons e l ih =>
      have he : e.1 ≤ top := h e List.mem_cons_self
      rw [product_cons, product_cons, ih fun e' he' => h e' (List.mem_cons_of_mem e he'), mul_pow,
        ← pow_mul, ← pow_add, Nat.sub_add_comm he]

/-- A run over ascending positions up to `top`. -/
theorem run_gaps {cur top : ℕ} {l : List (ℕ × M)} (hsorted : l.Pairwise fun e e' => e.1 ≤ e'.1)
    (hcur : ∀ e ∈ l, cur ≤ e.1) (htop : ∀ e ∈ l, e.1 ≤ top) (r : M) (hne : l = [] → cur = top)
    (hlast : l ≠ [] → ∃ e ∈ l, e.1 = top) :
    run (gaps cur l) r = r ^ 2 ^ (top - cur) * product top l := by
  induction l generalizing cur r with
  | nil => rw [hne rfl, Nat.sub_self, pow_zero, pow_one, product_nil, mul_one, gaps, run_nil]
  | cons e l ih =>
      obtain ⟨hhead, htail⟩ := List.pairwise_cons.1 hsorted
      have hle : e.1 ≤ top := htop e List.mem_cons_self
      have hge : cur ≤ e.1 := hcur e List.mem_cons_self
      obtain ⟨e', he', htop'⟩ := hlast (List.cons_ne_nil _ _)
      rw [gaps, run_cons, ih htail hhead fun e he => htop e (List.mem_cons_of_mem _ he), product_cons,
        mul_pow, ← pow_mul, ← pow_add, ← mul_assoc]
      · have hdist : e.1 - cur + (top - e.1) = top - cur := by omega
        rw [hdist]
      · -- nothing behind the last position
        rintro rfl
        obtain rfl := List.mem_singleton.1 he'
        exact htop'
      · intro hl
        rcases List.mem_cons.1 he' with rfl | he'
        · -- the last position is taken more than once
          obtain ⟨e'', he''⟩ := List.exists_mem_of_ne_nil l hl
          refine ⟨e'', he'', le_antisymm (htop e'' (List.mem_cons_of_mem _ he'')) ?_⟩
          rw [← htop']
          exact hhead e'' he''
        · exact ⟨e', he', htop'⟩

end Pepper.Foundations.PowerSchedule
