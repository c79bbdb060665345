import Mathlib.Tactic.Linarith
import Mathlib.Tactic.NormNum.Prime
import Pepper.Foundations.FieldBits
import Pepper.Zcc.LessThan

/-!
# Soundness of the integer comparison

Over a prime field the bits `N_0`, ..., `N_(N-2)` that satisfy their constraints are those of a
number below `2 ^ (N - 1)`, and exactly one of the three cases is set. The case that is set says
how the operands compare, since the sum in its constraint is below the modulus.
`lessThan_sound` is about every assignment, not only the prover's.
-/

set_option autoImplicit false

open Pepper.Foundations Pepper.Foundations.FieldBits

namespace Pepper.Zcc

universe u

variable {ν : Type u} {p : ℕ}

/-- The case `Mlt`: a difference that is `S - 2 ^ k` for a number `S` of `k` bits. -/
theorem neg_of_bits {d : ℤ} {k S : ℕ} (hp : 2 ^ (k + 2) < p) (hd : |d| ≤ 2 ^ k) (hS : S < 2 ^ k)
    (hzero : ((d - S + 2 ^ k : ℤ) : ZMod p) = 0) : d < 0 := by
  have hS' : (S : ℤ) < 2 ^ k := by exact_mod_cast hS
  have hp' : (2 : ℤ) ^ k * 4 < p := by
    rw [pow_add] at hp
    exact_mod_cast hp
  obtain ⟨hlow, hhigh⟩ := abs_le.1 hd
  have hexact : d - S + 2 ^ k = 0 := by
    refine eq_zero_of_abs_lt (p := p) ?_ hzero
    rw [abs_lt]
    constructor <;> linarith [Int.natCast_nonneg S]
  linarith

/-- Every assignment that satisfies the constraints of an integer comparison has the result of
the comparison at the target. -/
theorem lessThan_sound [Fact p.Prime] {N : ℕ} (hN : 1 ≤ N) (hp : 2 ^ (N + 1) < p) {x y : ℤ}
    (hxy : |x - y| ≤ 2 ^ (N - 1)) {arg0 arg1 : Text (Name ν)} (h0 : IsFactor arg0)
    (h1 : IsFactor arg1) (target : ν) {ρ : Name ν → ZMod p} (hx : meaning ρ arg0 = x)
    (hy : meaning ρ arg1 = y)
    (hsat : ∀ line ∈ lessThanAsBasicConstraints N arg0 arg1 target, meaning ρ line = 0) :
    ρ (.base target) = if x < y then 1 else 0 := by
  obtain ⟨k, rfl⟩ : ∃ k, N = k + 1 := ⟨N - 1, (Nat.sub_add_cancel hN).symm⟩
  rw [Nat.add_sub_cancel] at hxy
  obtain ⟨hbits, hcases, hone, hlt, heq, hgt, hout⟩ :=
    (lessThan_satisfied_iff ρ (k + 1) h0 h1 target).1 hsat
  rw [Nat.add_sub_cancel] at hbits hlt hgt
  rw [hx, hy] at hlt heq hgt
  obtain ⟨S, hS, -, hsum⟩ := exists_weightedBits hbits
  rw [hsum] at hlt hgt
  have hodd : p ≠ 2 := by
    rintro rfl
    exact absurd hp (not_lt.2 (Nat.le_self_pow (by omega) 2))
  rw [← sub_eq_zero.1 hout]
  rcases three_flags hodd (hcases _ (by simp)) (hcases _ (by simp)) (hcases _ (by simp)) hone with
    ⟨hmlt, -, -⟩ | ⟨hmlt, hmeq, -⟩ | ⟨hmlt, -, hmgt⟩
  · -- Mlt: the constraint says that the difference is negative
    rw [hmlt, one_mul] at hlt
    have hneg : x - y < 0 := neg_of_bits hp hxy hS (by push_cast; exact hlt)
    rw [hmlt, if_pos (sub_neg.1 hneg)]
  · -- Meq
    rw [hmeq, one_mul] at heq
    have hsmall : |x - y| < p := by
      refine hxy.trans_lt ?_
      have hpow : 2 ^ k < p := (Nat.pow_lt_pow_right (by norm_num) (by omega)).trans hp
      exact_mod_cast hpow
    have hzero : x - y = 0 := eq_zero_of_abs_lt hsmall (by push_cast; exact heq)
    rw [hmlt, if_neg (by rw [sub_eq_zero.1 hzero]; exact lt_irrefl y)]
  · -- Mgt: the same with the operands exchanged
    rw [hmgt, one_mul] at hgt
    rw [abs_sub_comm] at hxy
    have hneg : y - x < 0 := neg_of_bits hp hxy hS (by push_cast; exact hgt)
    rw [hmlt, if_neg (sub_neg.1 hneg).asymm]

/-- Two bits modulo eleven: `0 < 1` with one bit set. -/
def zeroBelowOne : Name ℕ → ZMod 11
  | .base 2 => 1
  | .aux 2 .mlt => 1
  | .aux 2 (.bit 0) => 1
  | _ => 0

theorem zeroBelowOne_sound : zeroBelowOne (.base 2) = if (0 : ℤ) < 1 then 1 else 0 := by
  have h0 : meaning zeroBelowOne (constText 0) = ((0 : ℤ) : ZMod 11) := by decide
  have h1 : meaning zeroBelowOne (constText 1) = ((1 : ℤ) : ZMod 11) := by decide
  have hsat : ∀ line ∈ lessThanAsBasicConstraints 2 (constText 0) (constText 1) 2,
      meaning zeroBelowOne line = 0 := by decide
  have : Fact (Nat.Prime 11) := ⟨by norm_num⟩
  exact lessThan_sound (by norm_num) (by norm_num) (by norm_num) (.const 0) (.const 1) 2 h0 h1 hsat

end Pepper.Zcc
