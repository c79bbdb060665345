import Pepper.Common.ConstraintEffects

/-!
# Evaluating the accumulated constraints

Values that `MODE_P` leaves in `qF1` are mapped modulo the prime by `convert_to_z`, which is a
homomorphism where it is defined (`Convertible`). What `MODE_V` accumulates from a list of terms is,
at any point, the weighted sum of the constraints (`eval_foldl`).
-/

set_option autoImplicit false

open Pepper.Common.Gmp Pepper.Foundations.Loop
open Pepper.Cmtgkr.Layer (convertToZ)

namespace Pepper.Common.ConstraintGen

/-! ## Rationals modulo the prime -/

section Residue

variable (p : ℕ)

/-- `convert_to_z` is defined: the denominator has an inverse. -/
def Convertible (q : ℚ) : Prop := (q.den : ZMod p) ≠ 0

variable {p} [Fact p.Prime] {q r : ℚ}

theorem cast_convertToZ (h : Convertible p q) : ((convertToZ 0 q p : ℤ) : ZMod p) = (q : ZMod p) := by
  have hden : (((q.den : ℕ) : ℤ) : ZMod p) ≠ 0 := by
    rw [Int.cast_natCast]
    exact h
  rw [convertToZ, ZMod.intCast_mod, Int.cast_mul, cast_mpzInvert _ _ hden, Int.cast_natCast,
    Rat.cast_def, div_eq_mul_inv, mul_comm]

theorem Convertible.of_dvd {n : ℕ} (hn : (n : ZMod p) ≠ 0) (h : q.den ∣ n) : Convertible p q := by
  obtain ⟨m, rfl⟩ := h
  intro hzero
  rw [Nat.cast_mul, hzero, zero_mul] at hn
  exact hn rfl

theorem convertible_intCast (n : ℤ) : Convertible p (n : ℚ) := by
  rw [Convertible, Rat.den_intCast, Nat.cast_one]
  exact one_ne_zero

theorem Convertible.add (hq : Convertible p q) (hr : Convertible p r) : Convertible p (q + r) := by
  refine Convertible.of_dvd ?_ (Rat.add_den_dvd q r)
  rw [Nat.cast_mul]
  exact mul_ne_zero hq hr

theorem Convertible.sub (hq : Convertible p q) (hr : Convertible p r) : Convertible p (q - r) := by
  refine Convertible.of_dvd ?_ (Rat.sub_den_dvd q r)
  rw [Nat.cast_mul]
  exact mul_ne_zero hq hr

theorem Convertible.mul (hq : Convertible p q) (hr : Convertible p r) : Convertible p (q * r) := by
  refine Convertible.of_dvd ?_ (Rat.mul_den_dvd q r)
  rw [Nat.cast_mul]
  exact mul_ne_zero hq hr

end Residue

/-! ## Evaluation of what the verifier accumulates -/

section Evaluation

variable {p : ℕ} (gamma : Vec) (x : ℕ → ZMod p)

/-- A factor of a term; a negative index is an absent one. -/
def factorValue (i : ℤ) : ZMod p := if i < 0 then 1 else x i.toNat

@[simp] theorem factorValue_natCast (i : ℕ) : factorValue x i = x i := by
  rw [factorValue, if_neg (by omega), Int.toNat_natCast]

@[simp] theorem factorValue_neg_one : factorValue x (-1) = 1 := if_pos (by decide)

def termValue (t : Term) : ZMod p :=
  gamma t.constraint * (t.coefficient * factorValue x t.i * factorValue x t.j)

/-- What a list of terms adds to the weighted sum of the constraints. -/
def residual (terms : List Term) : ZMod p := (terms.map (termValue gamma x)).sum

@[simp] theorem residual_nil : residual gamma x [] = 0 := rfl

@[simp] theorem residual_cons (t : Term) (terms : List Term) :
    residual gamma x (t :: terms) = termValue gamma x t + residual gamma x terms := by
  rw [residual, List.map_cons, List.sum_cons]
  rfl

@[simp] theorem residual_append (terms terms' : List Term) :
    residual gamma x (terms ++ terms') = residual gamma x terms + residual gamma x terms' := by
  rw [residual, List.map_append, List.sum_append]
  rfl

theorem residual_flatMap {ι : Type} (l : List ι) (f : ι → List Term) :
    residual gamma x (l.flatMap f) = (l.map fun i => residual gamma x (f i)).sum := by
  induction l with
  | nil => rfl
  | cons i l ih => rw [List.flatMap_cons, residual_append, ih, List.map_cons, List.sum_cons]

theorem residual_range (n : ℕ) (f : ℕ → List Term) :
    residual gamma x ((List.range n).flatMap f) =
      ∑ i ∈ Finset.range n, residual gamma x (f i) := residual_flatMap gamma x _ f

/-- Terms of constraints without weight. -/
theorem residual_eq_zero {terms : List Term}
    (h : ∀ t ∈ terms, ((gamma t.constraint : ℤ) : ZMod p) = 0) : residual gamma x terms = 0 := by
  rw [residual]
  apply List.sum_eq_zero
  intro a ha
  obtain ⟨t, ht, rfl⟩ := List.mem_map.1 ha
  rw [termValue, h t ht, zero_mul]

/-- The polynomial of the accumulators at a point. -/
def Accumulators.eval (length : ℕ) (a : Accumulators) : ZMod p :=
  a.cValue + ∑ i ∈ Finset.range length, a.cktCoefs1 i * x i +
    ∑ m ∈ Finset.range (length * length), a.cktCoefs2 m * (x (m / length) * x (m % length))

theorem sum_update_add (n : ℕ) (f : Vec) {i : ℕ} (hi : i < n) (c : ℤ) (w : ℕ → ZMod p) :
    ∑ j ∈ Finset.range n, (Function.update f i (f i + c) j : ZMod p) * w j =
      ∑ j ∈ Finset.range n, (f j : ZMod p) * w j + c * w i := by
  have hmem := Finset.mem_range.2 hi
  rw [← Finset.add_sum_erase _ _ hmem, ← Finset.add_sum_erase _ (fun j => (f j : ZMod p) * w j) hmem,
    Function.update_self]
  have hrest : ∑ j ∈ (Finset.range n).erase i, (Function.update f i (f i + c) j : ZMod p) * w j =
      ∑ j ∈ (Finset.range n).erase i, (f j : ZMod p) * w j :=
    Finset.sum_congr rfl fun j hj => by rw [Function.update_of_ne (Finset.ne_of_mem_erase hj)]
  rw [hrest]
  push_cast
  ring

/-- The indices of a term are variables of the verifier. -/
def Term.Below (length : ℕ) (t : Term) : Prop := t.i < length ∧ t.j < length

theorem eval_accumulate {length : ℕ} (a : Accumulators) {t : Term} (ht : t.Below length) :
    (accumulate gamma length a t).eval x length = a.eval x length + termValue gamma x t := by
  rcases t with ⟨k, coefficient, i, j⟩
  obtain ⟨hi, hj⟩ : i < length ∧ j < length := ht
  rcases lt_or_ge i 0 with hi0 | hi0
  · rcases lt_or_ge j 0 with hj0 | hj0
    · have hacc : accumulate gamma length a ⟨k, coefficient, i, j⟩ =
          { a with cValue := a.cValue + coefficient * gamma k } := if_pos ⟨hi0, hj0⟩
      rw [hacc, Accumulators.eval, Accumulators.eval, termValue, factorValue, factorValue,
        if_pos hi0, if_pos hj0]
      push_cast
      ring
    · obtain ⟨j, rfl⟩ := Int.eq_ofNat_of_zero_le hj0
      have hacc : accumulate gamma length a ⟨k, coefficient, i, j⟩ =
          { a with
            cktCoefs1 := Function.update a.cktCoefs1 j (a.cktCoefs1 j + coefficient * gamma k) } :=
        (if_neg fun h => not_lt_of_ge hj0 h.2).trans (if_pos ⟨hj0, hi0⟩)
      rw [hacc, Accumulators.eval, Accumulators.eval, termValue, factorValue, if_pos hi0,
        factorValue_natCast, sum_update_add length a.cktCoefs1 (by omega)]
      push_cast
      ring
  · obtain ⟨i, rfl⟩ := Int.eq_ofNat_of_zero_le hi0
    have hconst : ¬((i : ℤ) < 0 ∧ j < 0) := fun h => not_lt_of_ge hi0 h.1
    have hright : ¬(0 ≤ j ∧ (i : ℤ) < 0) := fun h => not_lt_of_ge hi0 h.2
    rcases lt_or_ge j 0 with hj0 | hj0
    · have hacc : accumulate gamma length a ⟨k, coefficient, i, j⟩ =
          { a with
            cktCoefs1 := Function.update a.cktCoefs1 i (a.cktCoefs1 i + coefficient * gamma k) } := by
        simp only [accumulate]
        rw [if_neg hconst, if_neg hright, if_pos ⟨hi0, hj0⟩]
        rfl
      rw [hacc, Accumulators.eval, Accumulators.eval, termValue, factorValue_natCast, factorValue,
        if_pos hj0, sum_update_add length a.cktCoefs1 (by omega)]
      push_cast
      ring
    · obtain ⟨j, rfl⟩ := Int.eq_ofNat_of_zero_le hj0
      have hleft : ¬(0 ≤ (i : ℤ) ∧ (j : ℤ) < 0) := fun h => not_lt_of_ge hj0 h.2
      have hacc : accumulate gamma length a ⟨k, coefficient, i, j⟩ =
          { a with
            cktCoefs2 := Function.update a.cktCoefs2 (i * length + j)
              (a.cktCoefs2 (i * length + j) + coefficient * gamma k) } := by
        simp only [accumulate]
        rw [if_neg hconst, if_neg hright, if_neg hleft]
        rfl
      have hil : i < length := by omega
      have hjl : j < length := by omega
      have hcell : i * length + j < length * length := block_lt hil hjl
      rw [hacc, Accumulators.eval, Accumulators.eval, termValue, factorValue_natCast,
        factorValue_natCast,
        sum_update_add _ a.cktCoefs2 hcell _ fun m => x (m / length) * x (m % length),
        block_div hjl, Nat.mul_add_mod_of_lt hjl]
      push_cast
      ring

/-- Accumulating terms adds what they amount to. -/
theorem eval_foldl {length : ℕ} (terms : List Term) (h : ∀ t ∈ terms, t.Below length)
    (a : Accumulators) :
    (terms.foldl (accumulate gamma length) a).eval x length =
      a.eval x length + residual gamma x terms := by
  induction terms generalizing a with
  | nil => simp
  | cons t terms ih =>
      rw [List.foldl_cons, ih (fun t' ht' => h t' (List.mem_cons_of_mem t ht')),
        eval_accumulate gamma x a (h t List.mem_cons_self), residual_cons, add_assoc]

end Evaluation

end Pepper.Common.ConstraintGen
