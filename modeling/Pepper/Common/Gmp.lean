import Pepper.Foundations.Loop
import Mathlib.Data.ZMod.Basic
import Mathlib.FieldTheory.Finite.Basic
import Mathlib.Tactic

/-!
# Multi-precision integers

An `mpz_t` is an `ℤ`; an array of them is a block `Vec`, its length passed along
as the code does. `mpz_mod` is `%`, whose result is never negative. `mpzInvert`
follows `mpz_invert`. Residues are compared through `ZMod`
(`emod_eq_emod_iff`), and the running products that the code reduces at every pass
are read in the field (`cast_forLoop_prod`).

`Prng` is a random stream: a deterministic function of its state.
-/

set_option autoImplicit false

open Pepper.Foundations.Loop

namespace Pepper.Common.Gmp

/-- A block of `mpz_t`. -/
abbrev Vec := ℕ → ℤ

/-- A block of zeros, as `alloc_init_vec` makes it. -/
def zeroVec : Vec := fun _ => 0

/-- `mpz_invert`: the inverse of `a` modulo `n` in `[0, n)`; without an inverse the
result keeps its old value `rop`. -/
def mpzInvert (rop a n : ℤ) : ℤ := if Int.gcd a n = 1 then Int.gcdA a n % n else rop

/-- The block read modulo `p`. -/
def castVec (p : ℕ) (a : Vec) : ℕ → ZMod p := fun i => (a i : ZMod p)

@[simp] theorem castVec_apply (p : ℕ) (a : Vec) (i : ℕ) : castVec p a i = (a i : ZMod p) := rfl

theorem emod_eq_emod_iff (p : ℕ) (a b : ℤ) :
    a % (p : ℤ) = b % (p : ℤ) ↔ (a : ZMod p) = (b : ZMod p) :=
  (ZMod.intCast_eq_intCast_iff' a b p).symm

/-- Canonical residues are equal exactly when they are congruent. -/
theorem eq_iff_cast_eq {p : ℕ} {a b : ℤ} (ha : 0 ≤ a ∧ a < p) (hb : 0 ≤ b ∧ b < p) :
    a = b ↔ (a : ZMod p) = (b : ZMod p) := by
  rw [← emod_eq_emod_iff, Int.emod_eq_of_lt ha.1 ha.2, Int.emod_eq_of_lt hb.1 hb.2]

section Prime

variable {p : ℕ} [Fact p.Prime]

theorem emod_range (a : ℤ) : 0 ≤ a % (p : ℤ) ∧ a % (p : ℤ) < p := by
  have hpos : (0 : ℤ) < p := by exact_mod_cast (Fact.out : p.Prime).pos
  exact ⟨Int.emod_nonneg a hpos.ne', Int.emod_lt_of_pos a hpos⟩

theorem gcd_eq_one_iff (a : ℤ) : Int.gcd a p = 1 ↔ (a : ZMod p) ≠ 0 := by
  rw [Ne, ZMod.intCast_zmod_eq_zero_iff_dvd]
  constructor
  · intro hgcd hdvd
    have hp : (p : ℤ) ∣ 1 := by
      rw [← Nat.cast_one, ← hgcd]
      exact Int.dvd_coe_gcd hdvd dvd_rfl
    have hle := Int.le_of_dvd one_pos hp
    have htwo := (Fact.out : p.Prime).two_le
    omega
  · intro hdvd
    rw [Int.gcd_comm]
    exact Int.isCoprime_iff_gcd_eq_one.1
      ((Nat.prime_iff_prime_int.1 Fact.out).coprime_iff_not_dvd.2 hdvd)

theorem cast_mpzInvert (rop a : ℤ) (ha : (a : ZMod p) ≠ 0) :
    ((mpzInvert rop a p : ℤ) : ZMod p) = (a : ZMod p)⁻¹ := by
  have hgcd := (gcd_eq_one_iff a).2 ha
  rw [mpzInvert, if_pos hgcd, ZMod.intCast_mod]
  apply eq_inv_of_mul_eq_one_right
  have hbezout := Int.gcd_eq_gcd_ab a p
  rw [hgcd] at hbezout
  have hcast := congrArg (fun z : ℤ => (z : ZMod p)) hbezout
  push_cast at hcast
  rw [ZMod.natCast_self, zero_mul, add_zero] at hcast
  exact hcast.symm

/-- A product reduced at every pass. -/
theorem cast_forLoop_prod (n : ℕ) (f : ℕ → ℤ) (a : ℤ) :
    ((forLoop n (fun i acc => acc * f i % (p : ℤ)) a : ℤ) : ZMod p) =
      a * ∏ i ∈ Finset.range n, (f i : ZMod p) := by
  rw [← forLoop_mul]
  refine forLoop_simulation (R := fun _ (x : ℤ) (y : ZMod p) => (x : ZMod p) = y) rfl ?_
  intro i _ x y hxy
  rw [ZMod.intCast_mod, Int.cast_mul, hxy]

end Prime

/-- A deterministic random stream: a draw below `n` (`get_random`), a draw of `nbits`
bits (`get_randomb`), each with the next state. -/
structure Prng where
  State : Type
  getRandom : State → ℤ → ℤ × State
  getRandomb : State → ℕ → ℤ × State
  getRandom_range : ∀ (s : State) (n : ℤ), 0 < n →
    0 ≤ (getRandom s n).1 ∧ (getRandom s n).1 < n
  getRandomb_range : ∀ (s : State) (nbits : ℕ),
    0 ≤ (getRandomb s nbits).1 ∧ (getRandomb s nbits).1 < 2 ^ nbits

end Pepper.Common.Gmp
