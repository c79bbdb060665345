import Mathlib.Algebra.BigOperators.Fin
import Mathlib.Algebra.Field.Basic
import Mathlib.Algebra.Order.BigOperators.Ring.Finset
import Mathlib.Data.Finite.Sum
import Mathlib.SetTheory.Cardinal.Finite
import Mathlib.Tactic.LinearCombination

/-!
# Random tests of linear functions

A verifier that draws elements of a finite field and asks for linear functions of a proof.
`Rare k q event` says that at most `k` in `q` of all outcomes lie in the event. An event in which
one draw is determined by the others is rare (`rare_of_determined`); so are a zero of a linear form
(`rare_linear`) and of a bilinear form (`rare_bilinear`) with a coefficient other than zero.
Independent repetitions are counted by `Rare.all`.
-/

set_option autoImplicit false

namespace Pepper.Foundations.LinearPcp

universe u v

/-! ## Rare events -/

section Rare

variable {Ω : Type u}

/-- At most `k` in `q` of all outcomes. -/
def Rare (k q : ℕ) (event : Ω → Prop) : Prop :=
  q * Nat.card {ω // event ω} ≤ k * Nat.card Ω

variable {k k' q : ℕ} {event event' : Ω → Prop}

theorem Rare.weaken (h : Rare k q event) (hk : k ≤ k') : Rare k' q event :=
  h.trans (Nat.mul_le_mul_right _ hk)

theorem rare_of_never (h : ∀ ω, ¬ event ω) : Rare 0 q event := by
  have : IsEmpty {ω // event ω} := ⟨fun ω => h ω.1 ω.2⟩
  rw [Rare, Nat.card_of_isEmpty, mul_zero]
  exact Nat.zero_le _

variable [Finite Ω]

theorem Rare.mono (h : Rare k q event') (himp : ∀ ω, event ω → event' ω) : Rare k q event := by
  refine (Nat.mul_le_mul_left q ?_).trans h
  exact Nat.card_le_card_of_injective (Subtype.map id himp)
    (Subtype.map_injective himp Function.injective_id)

/-- Two rare events. -/
theorem Rare.or (h : Rare k q event) (h' : Rare k' q event') :
    Rare (k + k') q fun ω => event ω ∨ event' ω := by
  have hcard : Nat.card {ω // event ω ∨ event' ω} ≤
      Nat.card {ω // event ω} + Nat.card {ω // event' ω} := by
    rw [← Nat.card_sum]
    refine Nat.card_le_card_of_surjective
      (Sum.elim (fun ω => ⟨ω.1, Or.inl ω.2⟩) fun ω => ⟨ω.1, Or.inr ω.2⟩) ?_
    rintro ⟨ω, hω | hω⟩
    · exact ⟨Sum.inl ⟨ω, hω⟩, rfl⟩
    · exact ⟨Sum.inr ⟨ω, hω⟩, rfl⟩
  calc q * Nat.card {ω // event ω ∨ event' ω}
      ≤ q * (Nat.card {ω // event ω} + Nat.card {ω // event' ω}) := Nat.mul_le_mul_left q hcard
    _ = q * Nat.card {ω // event ω} + q * Nat.card {ω // event' ω} := Nat.mul_add _ _ _
    _ ≤ k * Nat.card Ω + k' * Nat.card Ω := Nat.add_le_add h h'
    _ = (k + k') * Nat.card Ω := (Nat.add_mul _ _ _).symm

omit [Finite Ω] in
/-- The outcomes of several repetitions, of which one lies in the event. -/
theorem card_at {n : ℕ} (i : Fin (n + 1)) (event : Ω → Prop) :
    Nat.card {ω : Fin (n + 1) → Ω // event (ω i)} =
      Nat.card {ω // event ω} * Nat.card Ω ^ n := by
  have hrest : Nat.card ({j // j ≠ i} → Ω) = Nat.card Ω ^ n := by
    rw [Nat.card_fun, Nat.card_eq_fintype_card (α := {j // j ≠ i}), Fintype.card_subtype_compl, Fintype.card_fin,
      Fintype.card_subtype_eq, Nat.add_sub_cancel]
  rw [← hrest, ← Nat.card_prod]
  exact Nat.card_congr (((Equiv.funSplitAt i Ω).subtypeEquiv fun _ => Iff.rfl).trans
    Equiv.prodSubtypeFstEquivSubtypeProd)

omit [Finite Ω] in
/-- A verdict on repetitions that is that of the last one: few outcomes are accepted, and in all
outcomes as many as for a single repetition. -/
theorem Rare.last (h : Rare k q event) (accepts : (n : ℕ) → (Fin n → Ω) → Prop)
    (hlast : ∀ n ω, accepts (n + 1) ω ↔ event (ω (Fin.last n))) (n : ℕ) :
    Rare k q (accepts (n + 1)) ∧
      Nat.card {ω // accepts (n + 1) ω} * Nat.card (Fin 1 → Ω) =
        Nat.card {ω // accepts 1 ω} * Nat.card (Fin (n + 1) → Ω) := by
  have haccepted : ∀ n, Nat.card {ω // accepts (n + 1) ω} =
      Nat.card {ω // event ω} * Nat.card Ω ^ n := by
    intro n
    rw [← card_at (Fin.last n)]
    exact Nat.card_congr (Equiv.subtypeEquivRight (hlast n))
  have hall : ∀ n, Nat.card (Fin n → Ω) = Nat.card Ω ^ n := by
    intro n
    rw [Nat.card_fun, Nat.card_eq_fintype_card (α := Fin n), Fintype.card_fin]
  constructor
  · rw [Rare, haccepted, hall, pow_succ', ← mul_assoc, ← mul_assoc]
    exact Nat.mul_le_mul_right _ h
  · rw [haccepted, haccepted, hall, hall]
    ring

omit [Finite Ω] in
/-- Events in all of several independent repetitions. -/
theorem Rare.all {n : ℕ} {events : Fin n → Ω → Prop} (h : ∀ i, Rare k q (events i)) :
    Rare (k ^ n) (q ^ n) fun ω : Fin n → Ω => ∀ i, events i (ω i) := by
  have hevent : Nat.card {ω : Fin n → Ω // ∀ i, events i (ω i)} =
      ∏ i, Nat.card {ω // events i ω} := by
    rw [← Nat.card_pi]
    exact Nat.card_congr Equiv.subtypePiEquivPi
  have hpow : ∀ m : ℕ, m ^ n = ∏ _i : Fin n, m := by
    intro m
    rw [Finset.prod_const, Finset.card_univ, Fintype.card_fin]
  rw [Rare, hevent, Nat.card_pi, hpow q, hpow k, ← Finset.prod_mul_distrib,
    ← Finset.prod_mul_distrib]
  exact Finset.prod_le_prod (fun _ _ => Nat.zero_le _) fun i _ => h i

end Rare

/-! ## Draws of field elements -/

section Draws

variable {ι : Type u} {F : Type v} [Finite ι] [Finite F]

/-- In the event one of the draws is determined by the others. -/
theorem rare_of_determined (k : ι) {event : (ι → F) → Prop}
    (h : ∀ ω ω', event ω → event ω' → (∀ i, i ≠ k → ω i = ω' i) → ω k = ω' k) :
    Rare 1 (Nat.card F) event := by
  classical
  rw [Rare, one_mul, ← Nat.card_prod]
  -- any value may stand in place of the determined one
  refine Nat.card_le_card_of_injective (fun a => Function.update a.2.1 k a.1) ?_
  rintro ⟨a, ω, hω⟩ ⟨a', ω', hω'⟩ (heq : Function.update ω k a = Function.update ω' k a')
  have hagree : ∀ i, i ≠ k → ω i = ω' i := by
    intro i hi
    have hi' := congrFun heq i
    rwa [Function.update_of_ne hi, Function.update_of_ne hi] at hi'
  have hvalue := congrFun heq k
  rw [Function.update_self, Function.update_self] at hvalue
  have hpoint : ω = ω' := by
    funext i
    by_cases hi : i = k
    · rw [hi]
      exact h ω ω' hω hω' hagree
    · exact hagree i hi
  subst hpoint
  exact Prod.ext hvalue rfl

/-- A draw out of few values. -/
theorem rare_mem (k : ι) (values : Finset F) :
    Rare values.card (Nat.card F) fun ω : ι → F => ω k ∈ values := by
  classical
  induction values using Finset.induction_on with
  | empty => exact rare_of_never fun _ hω => absurd hω (Finset.notMem_empty _)
  | insert a values ha ih =>
      have hvalue : Rare 1 (Nat.card F) fun ω : ι → F => ω k = a :=
        rare_of_determined k fun ω ω' hω hω' _ => hω.trans hω'.symm
      rw [Finset.card_insert_of_notMem ha]
      exact (ih.or hvalue).mono fun ω hω => (Finset.mem_insert.1 hω).symm

variable [Field F]

/-- A zero of an affine function of one draw, whose coefficients depend on the others. -/
theorem rare_affine (k : ι) {event : (ι → F) → Prop} (slope offset : (ι → F) → F)
    (hslope : ∀ ω ω', (∀ i, i ≠ k → ω i = ω' i) → slope ω = slope ω')
    (hoffset : ∀ ω ω', (∀ i, i ≠ k → ω i = ω' i) → offset ω = offset ω')
    (h : ∀ ω, event ω → slope ω ≠ 0 ∧ offset ω + ω k * slope ω = 0) :
    Rare 1 (Nat.card F) event := by
  refine rare_of_determined k fun ω ω' hω hω' hagree => ?_
  obtain ⟨hne, hzero⟩ := h ω hω
  obtain ⟨-, hzero'⟩ := h ω' hω'
  rw [← hslope ω ω' hagree, ← hoffset ω ω' hagree] at hzero'
  refine mul_right_cancel₀ hne ?_
  linear_combination hzero - hzero'

variable {n m : ℕ}

/-- A zero of a linear form. -/
theorem rare_linear {x : Fin n → ι} (hx : Function.Injective x) {a : Fin n → F} {i : Fin n}
    (ha : a i ≠ 0) (c : F) :
    Rare 1 (Nat.card F) fun ω : ι → F => c + ∑ j, ω (x j) * a j = 0 := by
  classical
  refine rare_affine (x i) (fun _ => a i)
    (fun ω => c + ∑ j ∈ Finset.univ.erase i, ω (x j) * a j)
    (fun _ _ _ => rfl) (fun ω ω' hagree => ?_) fun ω hω => ⟨ha, ?_⟩
  · refine congrArg (c + ·) (Finset.sum_congr rfl fun j hj => ?_)
    rw [hagree (x j) fun heq => Finset.ne_of_mem_erase hj (hx heq)]
  · rw [← hω, add_assoc, add_comm (∑ j ∈ _, _),
      Finset.add_sum_erase _ (fun j => ω (x j) * a j) (Finset.mem_univ i)]

/-- A zero of a bilinear form in two disjoint groups of draws. -/
theorem rare_bilinear {x : Fin n → ι} {y : Fin m → ι} (hx : Function.Injective x)
    (hy : Function.Injective y) (hxy : ∀ i j, x i ≠ y j) {a : Fin n → Fin m → F} {i : Fin n}
    {j : Fin m} (ha : a i j ≠ 0) :
    Rare 2 (Nat.card F) fun ω : ι → F => ∑ i', ∑ j', ω (x i') * ω (y j') * a i' j' = 0 := by
  classical
  let row : Fin n → (ι → F) → F := fun i' ω => ∑ j', ω (y j') * a i' j'
  -- the coefficient of the draw `x i` is zero, or that draw is determined
  have hzero : Rare 1 (Nat.card F) fun ω : ι → F => row i ω = 0 :=
    (rare_linear hy ha 0).mono fun ω hω => by rw [zero_add]; exact hω
  have hrow : ∀ i' ω ω', (∀ l, l ≠ x i → ω l = ω' l) → row i' ω = row i' ω' := by
    intro i' ω ω' hagree
    refine Finset.sum_congr rfl fun j' _ => ?_
    rw [hagree (y j') fun heq => hxy i j' heq.symm]
  have hdetermined : Rare 1 (Nat.card F) fun ω : ι → F =>
      row i ω ≠ 0 ∧ ∑ i', ω (x i') * row i' ω = 0 := by
    refine rare_affine (x i) (row i)
      (fun ω => ∑ i' ∈ Finset.univ.erase i, ω (x i') * row i' ω) (hrow i)
      (fun ω ω' hagree => ?_) fun ω hω => ⟨hω.1, ?_⟩
    · refine Finset.sum_congr rfl fun i' hi' => ?_
      rw [hrow i' ω ω' hagree, hagree (x i') fun heq => Finset.ne_of_mem_erase hi' (hx heq)]
    · rw [add_comm, Finset.add_sum_erase _ (fun i' => ω (x i') * row i' ω) (Finset.mem_univ i)]
      exact hω.2
  refine (hzero.or hdetermined).mono fun ω hω => ?_
  rw [or_iff_not_imp_left]
  refine fun hne => ⟨hne, hω ▸ Finset.sum_congr rfl fun i' _ => ?_⟩
  rw [Finset.mul_sum]
  exact Finset.sum_congr rfl fun j' _ => (mul_assoc _ _ _).symm

end Draws

end Pepper.Foundations.LinearPcp
