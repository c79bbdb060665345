import Pepper.Foundations.DensePoly
import Pepper.Libv.Evaluation
import Pepper.Libv.FastInterpolate

/-!
# The prover's second proof vector

`computeAssignmentVectors` follows `ZComputationProver::compute_assignment_vectors`:
the three matrices at the roots, their interpolation by the inverse transform, the
product polynomial, and the exact quotient by the divisor of the rows, whose
coefficients become `F2`.

`zcompFastInterpolate_inverseDft` says what the transform leaves in its cells, and
`computeAssignmentVectors_spec` that on a satisfying assignment `F2` holds the
coefficients of the quotient.
-/

set_option autoImplicit false

open Polynomial
open Pepper.Common.Gmp Pepper.Foundations.Loop Pepper.Foundations.RootInterpolation
open Pepper.Foundations.DensePoly
open Pepper.Libv.QuadraticProgram Pepper.Libv.Roots Pepper.Libv.FastInterpolate

namespace Pepper.Libv.Assignment

/-! ## The code -/

/-- The value one entry contributes to its row; `input` and `output` are the two parts
of the contiguous block. -/
def entryAtRoot (q : Qap) (f1 input output : Vec) (e : PolyCompressed) : ℤ :=
  let index := e.i
  if index = 0 then e.coefficient
  else if index ≤ q.sizeF1Vec then e.coefficient * f1 (index - 1)
  else if index > q.sizeF1Vec ∧ index ≤ q.sizeF1Vec + q.sizeInput then
    e.coefficient * input (index - 1 - q.sizeF1Vec)
  else e.coefficient * output (index - 1 - q.sizeInput - q.sizeF1Vec)

/-- `poly_A_pv` and its siblings: a matrix at the roots. -/
def matrixAtRoots (q : Qap) (f1 input output : Vec) (prime : ℤ) (poly : List PolyCompressed) :
    Vec :=
  poly.foldl
    (fun pv e => Function.update pv e.j ((pv e.j + entryAtRoot q f1 input output e) % prime))
    zeroVec

section Field

variable (p : ℕ) [Fact p.Prime]

/-- `z_poly_A_c` and its siblings: the scaled transform of the values at the roots. -/
def interpolateMatrix (size : ℕ) (pv powersOfOmega : Vec) : List (ZMod p) :=
  let coeffs := zcompFastInterpolate size pv powersOfOmega p
  let temp := mpzInvert size size p
  (List.range size).map fun i => ((coeffs i * temp % (p : ℤ) : ℤ) : ZMod p)

/-- `qap_roots`. -/
def qapRoots (omega : ZMod p) : ℕ → ZMod p
  | 0 => 1
  | i + 1 => qapRoots omega i * omega

/-- The prover's own `powers_of_omega` are the powers of the inverse root. -/
def inversePowers (size : ℕ) (omega : ℤ) : Vec := powerTable size 1 (mpzInvert 0 omega p) p

/-- `compute_assignment_vectors`. `oldH` is what `z_poly_H_c` held, which an inexact
division leaves in place, and `oldF2` the block that receives the coefficients. -/
def computeAssignmentVectors (q : Qap) (omega : ℤ) (f1 io : Vec) (oldH : List (ZMod p))
    (oldF2 : Vec) : Vec :=
  let size := q.sizeF2Vec
  let output : Vec := fun k => io (q.sizeInput + k)
  let powers := inversePowers p size omega
  let polyAc := interpolateMatrix p size (matrixAtRoots q f1 io output p q.polyA) powers
  let polyBc := interpolateMatrix p size (matrixAtRoots q f1 io output p q.polyB) powers
  let polyCc := interpolateMatrix p size (matrixAtRoots q f1 io output p q.polyC) powers
  let polyP := add (mul polyAc polyBc) polyCc
  let polyD := buildFromRoots ((List.range (size - 1)).map fun i => qapRoots p omega (i + 1))
  let polyH := (divide polyP polyD).getD oldH
  forLoop size (fun i v => Function.update v i ((coeffAt polyH i).val : ℤ)) oldF2

end Field

/-! ## What it computes -/

variable {p : ℕ} [Fact p.Prime]

/-- The offsets into inputs and outputs address one contiguous block. -/
theorem entryAtRoot_eq (q : Qap) (f1 io : Vec) (e : PolyCompressed) :
    entryAtRoot q f1 io (fun k => io (q.sizeInput + k)) e = e.coefficient * q.wire f1 io e.i := by
  have hsize : q.sizeF1Vec = q.nPrime := rfl
  unfold entryAtRoot Qap.wire
  rw [hsize]
  by_cases h0 : e.i = 0
  · rw [if_pos h0, if_pos h0, mul_one]
  · rw [if_neg h0, if_neg h0]
    by_cases h1 : e.i ≤ q.nPrime
    · rw [if_pos h1, if_pos h1]
    · rw [if_neg h1, if_neg h1]
      by_cases h2 : e.i > q.nPrime ∧ e.i ≤ q.nPrime + q.sizeInput
      · rw [if_pos h2]
      · rw [if_neg h2]
        have hidx : q.sizeInput + (e.i - 1 - q.sizeInput - q.nPrime) = e.i - 1 - q.nPrime := by
          omega
        show e.coefficient * io (q.sizeInput + (e.i - 1 - q.sizeInput - q.nPrime)) = _
        rw [hidx]

theorem cast_matrixAtRoots (q : Qap) (f1 io : Vec) (poly : List PolyCompressed) (j : ℕ) :
    (matrixAtRoots q f1 io (fun k => io (q.sizeInput + k)) p poly j : ZMod p) =
      rowValue poly (q.wire f1 io) j := by
  have hhom := @List.foldl_hom _ _ _ (castVec p)
    (fun (pv : Vec) e => Function.update pv e.j
      ((pv e.j + entryAtRoot q f1 io (fun k => io (q.sizeInput + k)) e) % (p : ℤ)))
    (fun (b : ℕ → ZMod p) e =>
      Function.update b e.j (b e.j + ((e.coefficient * q.wire f1 io e.i : ℤ) : ZMod p)))
    poly zeroVec ?_
  · have hcell := congrFun hhom j
    rw [foldl_scatter_apply PolyCompressed.j] at hcell
    rw [matrixAtRoots, ← castVec_apply, ← hcell, castVec_apply, zeroVec, Int.cast_zero, zero_add,
      rowValue, Int.cast_list_sum, List.map_map]
    rfl
  · intro v e
    funext k
    by_cases hk : k = e.j
    · subst hk
      simp [entryAtRoot_eq]
    · simp [Function.update_of_ne hk]

theorem qapRoots_eq_pow (omega : ZMod p) (i : ℕ) : qapRoots p omega i = omega ^ i := by
  induction i with
  | zero => rw [qapRoots, pow_zero]
  | succ i ih => rw [qapRoots, ih, pow_succ]

theorem cast_inversePowers {size : ℕ} (omega : ℤ) (hω : (omega : ZMod p) ≠ 0) {i : ℕ}
    (hi : i < size) :
    (inversePowers p size omega i : ZMod p) = (omega : ZMod p)⁻¹ ^ i := by
  rw [inversePowers, cast_powerTable size _ _ hi, cast_mpzInvert 0 omega hω, Int.cast_one, one_mul]

/-- The scaled inverse transform interpolates, whichever table holds the powers of the
inverse root. -/
theorem toPoly_interpolateMatrix_of_powers {m : ℕ} (hm : 1 ≤ m) (hm' : m < 32) {omega : ℤ}
    (hω : IsPrimitiveRoot (omega : ZMod p) (2 ^ m)) (pv : Vec) {powers : Vec}
    (hpowers : ∀ i < 2 ^ m, (powers i : ZMod p) = (omega : ZMod p)⁻¹ ^ i) :
    toPoly (interpolateMatrix p (2 ^ m) pv powers) =
      rowPoly (omega : ZMod p) (2 ^ m) (castVec p pv) := by
  have hnF := natCast_ne_zero_of_isPrimitiveRoot (Nat.two_pow_pos m) hω
  have hnF' : (((2 ^ m : ℕ) : ℤ) : ZMod p) ≠ 0 := by
    rwa [Int.cast_natCast]
  have hω' : IsPrimitiveRoot ((omega : ZMod p)⁻¹) (2 ^ m) := hω.inv
  rw [← inverseDft_eq_rowPoly hω hnF, interpolateMatrix, toPoly_map_range, inverseDft]
  apply Finset.sum_congr rfl
  intro i hi
  congr 2
  rw [ZMod.intCast_mod, Int.cast_mul, cast_mpzInvert _ _ hnF', Int.cast_natCast,
    cast_zcompFastInterpolate hm hm' pv _ hω' hpowers (Finset.mem_range.1 hi), mul_comm]
  rfl

theorem toPoly_interpolateMatrix {m : ℕ} (hm : 1 ≤ m) (hm' : m < 32) {omega : ℤ}
    (hω : IsPrimitiveRoot (omega : ZMod p) (2 ^ m)) (pv : Vec) :
    toPoly (interpolateMatrix p (2 ^ m) pv (inversePowers p (2 ^ m) omega)) =
      rowPoly (omega : ZMod p) (2 ^ m) (castVec p pv) := by
  have hω0 : (omega : ZMod p) ≠ 0 := hω.ne_zero (Nat.two_pow_pos m).ne'
  exact toPoly_interpolateMatrix_of_powers hm hm' hω pv
    (fun k hk => cast_inversePowers omega hω0 hk)

/-- `zcomp_fast_interpolate` is the inverse transform for every size an `int` holds: each
cell is the residue of its sum, and after the caller's scaling the cells are the
coefficients of the only polynomial of degree below the size with the given values. -/
theorem zcompFastInterpolate_inverseDft {m : ℕ} (hm : 1 ≤ m) (hint : 2 ^ m < 2 ^ 31)
    {omega : ℤ} (hω : orderOf (omega : ZMod p) = 2 ^ m) (A powers : Vec)
    (hpowers : ∀ i < 2 ^ m, (powers i : ZMod p) = (omega : ZMod p)⁻¹ ^ i) :
    (∀ i < 2 ^ m,
      0 ≤ zcompFastInterpolate (2 ^ m) A powers p i ∧
      zcompFastInterpolate (2 ^ m) A powers p i < p ∧
      (zcompFastInterpolate (2 ^ m) A powers p i : ZMod p) =
        ∑ j ∈ Finset.range (2 ^ m), (A j : ZMod p) * (omega : ZMod p)⁻¹ ^ (i * j)) ∧
    ∀ P : (ZMod p)[X],
      (P.degree < (2 ^ m : ℕ) ∧
        ∀ i < 2 ^ m, P.eval ((omega : ZMod p) ^ i) = (A i : ZMod p)) ↔
      P = toPoly (interpolateMatrix p (2 ^ m) A powers) := by
  have hroot : IsPrimitiveRoot (omega : ZMod p) (2 ^ m) := hω ▸ IsPrimitiveRoot.orderOf _
  have hm' : m < 32 := by
    have hlt := (Nat.pow_lt_pow_iff_right (by norm_num : 1 < 2)).1 hint
    exact hlt.trans (by norm_num)
  have hprime : (0 : ℤ) < p := Int.natCast_pos.2 (Fact.out : p.Prime).pos
  constructor
  · intro i hi
    obtain ⟨hlow, hhigh⟩ := zcompFastInterpolate_range hm hprime A powers hi
    exact ⟨hlow, hhigh, cast_zcompFastInterpolate hm hm' A powers hroot.inv hpowers hi⟩
  · intro P
    have hunique := Lagrange.eq_interpolate_iff (f := P) (r := castVec p A)
      (rootNode_injOn hroot)
    rw [Finset.card_range] at hunique
    rw [toPoly_interpolateMatrix_of_powers hm hm' hroot A hpowers, rowPoly, ← hunique]
    simp only [Finset.mem_range, rootNode, castVec_apply]

theorem zcompFastInterpolate_inverseDft_three :
    (∀ i < 2 ^ 1,
      0 ≤ zcompFastInterpolate (2 ^ 1) (fun j => j + 5) (fun j => 2 ^ j) (3 : ℕ) i ∧
      zcompFastInterpolate (2 ^ 1) (fun j => j + 5) (fun j => 2 ^ j) (3 : ℕ) i < (3 : ℕ) ∧
      (zcompFastInterpolate (2 ^ 1) (fun j => j + 5) (fun j => 2 ^ j) (3 : ℕ) i : ZMod 3) =
        ∑ j ∈ Finset.range (2 ^ 1), (((j : ℤ) + 5 : ℤ) : ZMod 3) *
          ((2 : ℤ) : ZMod 3)⁻¹ ^ (i * j)) ∧
    ∀ P : (ZMod 3)[X],
      (P.degree < (2 ^ 1 : ℕ) ∧
        ∀ i : ℕ, i < 2 ^ 1 → P.eval (((2 : ℤ) : ZMod 3) ^ i) = (((i : ℤ) + 5 : ℤ) : ZMod 3)) ↔
      P = toPoly (interpolateMatrix 3 (2 ^ 1) (fun j => j + 5) (fun j => 2 ^ j)) := by
  have hω : orderOf ((2 : ℤ) : ZMod 3) = 2 ^ 1 := orderOf_eq_prime (p := 2) (by decide) (by decide)
  have hinv : ((2 : ℤ) : ZMod 3)⁻¹ = 2 := inv_eq_of_mul_eq_one_left (by decide)
  have hpowers : ∀ i < 2 ^ 1, (((2 : ℤ) ^ i : ℤ) : ZMod 3) = ((2 : ℤ) : ZMod 3)⁻¹ ^ i := by
    intro i _
    rw [hinv, Int.cast_pow, Int.cast_ofNat]
  exact zcompFastInterpolate_inverseDft le_rfl (by norm_num) hω (fun j => j + 5)
    (fun j => 2 ^ j) hpowers

theorem toPoly_polyD (omega : ZMod p) {n : ℕ} :
    toPoly (buildFromRoots ((List.range (n - 1)).map fun i => qapRoots p omega (i + 1))) =
      rowDivisor omega n := by
  rw [toPoly_buildFromRoots, List.map_map, rowDivisor, Finset.prod_Ico_eq_prod_range,
    Finset.prod_eq_multiset_prod, Finset.range_val, Multiset.range, Multiset.map_coe,
    Multiset.prod_coe]
  congr 1
  apply List.map_congr_left
  intro i _
  rw [Function.comp_apply, qapRoots_eq_pow, add_comm]

/-- On a satisfying assignment the second proof vector is the quotient polynomial. -/
theorem computeAssignmentVectors_spec (q : Qap) {m : ℕ} (hm : 1 ≤ m) (hchi : q.chi + 1 = 2 ^ m)
    {omega : ℤ} (hω : IsPrimitiveRoot (omega : ZMod p) q.sizeF2Vec) (f1 io : Vec)
    (hrows : ∀ j, 1 ≤ j → j ≤ q.chi → q.SatisfiesRow f1 io p j) (oldH : List (ZMod p))
    (oldF2 : Vec) :
    ∃ H : (ZMod p)[X],
      rowExpr (omega : ZMod p) q.sizeF2Vec
          (fun j => (rowValue q.polyA (q.wire f1 io) j : ZMod p))
          (fun j => (rowValue q.polyB (q.wire f1 io) j : ZMod p))
          (fun j => (rowValue q.polyC (q.wire f1 io) j : ZMod p)) =
        H * rowDivisor (omega : ZMod p) q.sizeF2Vec ∧
      ∀ i < q.sizeF2Vec,
        (computeAssignmentVectors p q omega f1 io oldH oldF2 i : ZMod p) = H.coeff i := by
  have hsize : q.sizeF2Vec = 2 ^ m := hchi
  have hm' : m < 32 := by
    have hint := q.sizeF2_int
    rw [hchi] at hint
    have := (Nat.pow_lt_pow_iff_right (by norm_num : 1 < 2)).1 hint
    omega
  -- the values at the roots, interpolated, are the polynomial of the rows
  have hmatrix : ∀ poly : List PolyCompressed,
      toPoly (interpolateMatrix p q.sizeF2Vec
        (matrixAtRoots q f1 io (fun k => io (q.sizeInput + k)) p poly)
        (inversePowers p q.sizeF2Vec omega)) =
      rowPoly (omega : ZMod p) q.sizeF2Vec
        (fun j => (rowValue poly (q.wire f1 io) j : ZMod p)) := by
    intro poly
    have hcells : castVec p (matrixAtRoots q f1 io (fun k => io (q.sizeInput + k)) p poly) =
        fun j => (rowValue poly (q.wire f1 io) j : ZMod p) :=
      funext fun j => cast_matrixAtRoots q f1 io poly j
    rw [hsize] at hω ⊢
    rw [toPoly_interpolateMatrix hm hm' hω, hcells]
  have hD := toPoly_polyD (p := p) (omega : ZMod p) (n := q.sizeF2Vec)
  have hP : toPoly (add
      (mul
        (interpolateMatrix p q.sizeF2Vec
          (matrixAtRoots q f1 io (fun k => io (q.sizeInput + k)) p q.polyA)
          (inversePowers p q.sizeF2Vec omega))
        (interpolateMatrix p q.sizeF2Vec
          (matrixAtRoots q f1 io (fun k => io (q.sizeInput + k)) p q.polyB)
          (inversePowers p q.sizeF2Vec omega)))
      (interpolateMatrix p q.sizeF2Vec
        (matrixAtRoots q f1 io (fun k => io (q.sizeInput + k)) p q.polyC)
        (inversePowers p q.sizeF2Vec omega))) =
      rowExpr (omega : ZMod p) q.sizeF2Vec
        (fun j => (rowValue q.polyA (q.wire f1 io) j : ZMod p))
        (fun j => (rowValue q.polyB (q.wire f1 io) j : ZMod p))
        (fun j => (rowValue q.polyC (q.wire f1 io) j : ZMod p)) := by
    rw [toPoly_add, toPoly_mul, hmatrix, hmatrix, hmatrix, rowExpr]
  have hDne : toPoly (buildFromRoots
      ((List.range (q.sizeF2Vec - 1)).map fun i => qapRoots p (omega : ZMod p) (i + 1))) ≠ 0 := by
    rw [hD]
    exact rowDivisor_monic.ne_zero
  have hdvd := rowDivisor_dvd hω fun j h1 hj =>
    (satisfiesRow_iff_cast q f1 io p j).1 (hrows j h1 (Nat.le_of_lt_succ hj))
  rw [← hD, ← hP] at hdvd
  -- the division is exact, since every row holds at its root
  obtain ⟨quot, hquot⟩ := divide_isSome hDne hdvd
  refine ⟨toPoly quot, ?_, ?_⟩
  · rw [← hP, ← hD]
    exact divide_eq_some hDne hquot
  · intro i hi
    simp only [computeAssignmentVectors]
    rw [hquot, forLoop_fill_apply, if_pos hi, Option.getD_some, coeff_toPoly, Int.cast_natCast,
      ZMod.natCast_zmod_val]

end Pepper.Libv.Assignment
