import Pepper.Common.Gmp
import Pepper.Foundations.RootInterpolation

/-!
# Roots of unity and barycentric weights

`powersOfOmega` is the table `generate_root_of_unity` fills and `computeSetV` the
weight table that both the query builder and the prover use. `cast_computeSetV`
says that the weights are the barycentric ones, `ω ^ j / n`.

The table is filled by `powerTable`, which the prover also uses for the powers of
the inverse root.
-/

set_option autoImplicit false

open Pepper.Common.Gmp Pepper.Foundations.Loop Pepper.Foundations.RootInterpolation

namespace Pepper.Libv.Roots

/-- `a[0] = first; a[i + 1] = a[i] * factor mod prime`, for `size` cells. -/
def powerTable (size : ℕ) (first factor prime : ℤ) : Vec :=
  forLoop (size - 1) (fun i a => Function.update a (i + 1) (a i * factor % prime))
    (Function.update zeroVec 0 first)

/-- The powers of `omega`, as `generate_root_of_unity` stores them. -/
def powersOfOmega (size : ℕ) (omega prime : ℤ) : Vec := powerTable size 1 omega prime

/-- `compute_set_v`: the barycentric weights of the nodes in `powers`. -/
def computeSetV (size : ℕ) (powers : Vec) (prime : ℤ) : Vec :=
  let product :=
    forLoop (size - 1) (fun k acc => acc * (powers 0 - powers (k + 1)) % prime) 1
  let v0 := mpzInvert product product prime
  let invOfOmegaC1 := mpzInvert 0 (powers (size - 1)) prime
  powerTable size v0 invOfOmegaC1 prime

theorem powerTable_zero (size : ℕ) (first factor prime : ℤ) :
    powerTable size first factor prime 0 = first := by
  refine forLoop_induction (P := fun _ (a : Vec) => a 0 = first) ?_ ?_
  · exact Function.update_self 0 first zeroVec
  · intro i _ a ha
    rw [Function.update_of_ne (Nat.succ_ne_zero i).symm, ha]

theorem powerTable_succ (size : ℕ) (first factor prime : ℤ) {i : ℕ} (hi : i + 1 < size) :
    powerTable size first factor prime (i + 1) =
      powerTable size first factor prime i * factor % prime := by
  -- cell `j + 1` is written at pass `j`, from a cell that no later pass touches
  refine forLoop_induction
    (P := fun k (a : Vec) => ∀ j, j < k → a (j + 1) = a j * factor % prime)
    (n := size - 1) ?_ ?_ i (by omega)
  · intro j hj
    exact absurd hj (Nat.not_lt_zero j)
  · intro k _ a ha j hj
    by_cases hjk : j = k
    · subst hjk
      rw [Function.update_self, Function.update_of_ne (Nat.succ_ne_self j).symm]
    · have hne : j + 1 ≠ k + 1 := by omega
      have hne' : j ≠ k + 1 := by omega
      rw [Function.update_of_ne hne, Function.update_of_ne hne', ha j (by omega)]

section Prime

variable {p : ℕ} [Fact p.Prime]

theorem cast_powerTable (size : ℕ) (first factor : ℤ) {i : ℕ} (hi : i < size) :
    (powerTable size first factor p i : ZMod p) = first * factor ^ i := by
  induction i with
  | zero => rw [powerTable_zero, pow_zero, mul_one]
  | succ i ih =>
      rw [powerTable_succ size first factor p hi, ZMod.intCast_mod, Int.cast_mul,
        ih (Nat.lt_of_succ_lt hi), pow_succ, mul_assoc]

theorem cast_powersOfOmega (size : ℕ) (omega : ℤ) {i : ℕ} (hi : i < size) :
    (powersOfOmega size omega p i : ZMod p) = (omega : ZMod p) ^ i := by
  rw [powersOfOmega, cast_powerTable size 1 omega hi, Int.cast_one, one_mul]

/-- The stored powers are canonical residues. -/
theorem powersOfOmega_range (size : ℕ) (omega : ℤ) {i : ℕ} (hi : i < size) :
    0 ≤ powersOfOmega size omega p i ∧ powersOfOmega size omega p i < p := by
  cases i with
  | zero =>
      rw [powersOfOmega, powerTable_zero]
      have hone := (Fact.out : p.Prime).one_lt
      omega
  | succ i =>
      rw [powersOfOmega, powerTable_succ size 1 omega p hi]
      exact emod_range _

/-- The length of a table of distinct roots is invertible. -/
theorem natCast_ne_zero_of_isPrimitiveRoot {n : ℕ} (hn : 0 < n) {ω : ZMod p}
    (hω : IsPrimitiveRoot ω n) : (n : ZMod p) ≠ 0 := by
  have hω0 : ω ≠ 0 := hω.ne_zero hn.ne'
  have hdvd : n ∣ p - 1 := hω.dvd_of_pow_eq_one (p - 1) (ZMod.pow_card_sub_one_eq_one hω0)
  have hp := (Fact.out : p.Prime).two_le
  have hle : n ≤ p - 1 := Nat.le_of_dvd (by omega) hdvd
  intro hzero
  have hpn : p ∣ n := (ZMod.natCast_eq_zero_iff n p).1 hzero
  have := Nat.le_of_dvd hn hpn
  omega

/-- `compute_set_v` computes the barycentric weights of the powers of `omega`. -/
theorem cast_computeSetV {n : ℕ} {omega : ℤ} (hω : IsPrimitiveRoot (omega : ZMod p) n) {j : ℕ}
    (hj : j < n) :
    (computeSetV n (powersOfOmega n omega p) p j : ZMod p) =
      (omega : ZMod p) ^ j * (n : ZMod p)⁻¹ := by
  have hn : 0 < n := Nat.zero_lt_of_lt hj
  have hω0 : (omega : ZMod p) ≠ 0 := hω.ne_zero hn.ne'
  have hnF := natCast_ne_zero_of_isPrimitiveRoot hn hω
  -- the product of the differences to the first node
  have hproduct : ((forLoop (n - 1) (fun k acc => acc *
      (powersOfOmega n omega p 0 - powersOfOmega n omega p (k + 1)) % (p : ℤ)) 1 : ℤ) :
        ZMod p) = n := by
    have hweight := nodalWeight_rootNode hω hn
    rw [Lagrange.nodalWeight, pow_zero, one_mul, Finset.prod_inv_distrib, inv_inj] at hweight
    rw [cast_forLoop_prod, Int.cast_one, one_mul, ← hweight]
    have herase : (Finset.range n).erase 0 = Finset.Ico 1 n := by
      ext i
      simp only [Finset.mem_erase, Finset.mem_range, Finset.mem_Ico]
      omega
    rw [herase, Finset.prod_Ico_eq_prod_range]
    apply Finset.prod_congr rfl
    intro k hk
    have hk' : k + 1 < n := by
      rw [Finset.mem_range] at hk
      omega
    rw [Int.cast_sub, cast_powersOfOmega n omega hn, cast_powersOfOmega n omega hk', rootNode,
      rootNode, add_comm 1 k]
  have hlast : ((powersOfOmega n omega p (n - 1) : ℤ) : ZMod p) = (omega : ZMod p)⁻¹ := by
    rw [cast_powersOfOmega n omega (Nat.sub_lt hn one_pos)]
    apply eq_inv_of_mul_eq_one_left
    have hsub : n - 1 + 1 = n := by omega
    rw [← pow_succ, hsub, hω.pow_eq_one]
  have hlast0 : ((powersOfOmega n omega p (n - 1) : ℤ) : ZMod p) ≠ 0 := by
    rw [hlast]
    exact inv_ne_zero hω0
  rw [computeSetV, cast_powerTable _ _ _ hj, cast_mpzInvert _ _ (hproduct ▸ hnF), hproduct,
    cast_mpzInvert _ _ hlast0, hlast, inv_inv, mul_comm]

end Prime

end Pepper.Libv.Roots
