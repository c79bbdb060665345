import Mathlib.LinearAlgebra.Lagrange
import Mathlib.RingTheory.Polynomial.Cyclotomic.Basic
import Mathlib.Tactic

/-!
# Interpolation at the powers of a root of unity

Nodes `ω ^ 0`, ..., `ω ^ (n - 1)` for a primitive `n`-th root `ω`. Barycentric
weights (`nodalWeight_rootNode`), the inverse Fourier sum as interpolation
(`eval_inverseDft`, `inverseDft_eq_interpolate`), and the arithmetic of vanishing
products over the nodes `1`, ..., `n - 1`: divisibility from vanishing rows
(`rowDivisor_dvd`), vanishing rows from a polynomial identity
(`rows_of_mul_rowDivisor`), and the identity from enough points
(`eq_mul_rowDivisor_of_points`).
-/

set_option autoImplicit false

open Polynomial

namespace Pepper.Foundations.RootInterpolation

universe u

variable {F : Type u} [Field F]

/-- The interpolation nodes. -/
def rootNode (ω : F) (i : ℕ) : F := ω ^ i

/-- The polynomial of degree below `n` with value `a j` at `ω ^ j`. -/
noncomputable def rowPoly (ω : F) (n : ℕ) (a : ℕ → F) : F[X] :=
  Lagrange.interpolate (Finset.range n) (rootNode ω) a

/-- The product of `X - ω ^ i` over `1 ≤ i < n`. -/
noncomputable def rowDivisor (ω : F) (n : ℕ) : F[X] :=
  ∏ i ∈ Finset.Ico 1 n, (X - C (ω ^ i))

section Nodes

variable {ω : F} {n : ℕ}

theorem rootNode_injOn (hω : IsPrimitiveRoot ω n) :
    Set.InjOn (rootNode ω) (Finset.range n : Set ℕ) := by
  intro i hi j hj hij
  exact hω.pow_inj (by simpa using hi) (by simpa using hj) hij

theorem nodal_rootNode (hn : 0 < n) (hω : IsPrimitiveRoot ω n) :
    Lagrange.nodal (Finset.range n) (rootNode ω) = X ^ n - 1 := by
  have hinj := rootNode_injOn hω
  have hdeg : (Lagrange.nodal (Finset.range n) (rootNode ω) - (X ^ n - 1)).degree <
      ((Finset.range n).card : WithBot ℕ) := by
    rw [Finset.card_range]
    have hXn : (X ^ n - 1 : F[X]).degree = n := by
      rw [← C_1, degree_X_pow_sub_C hn]
    have hnodal : (Lagrange.nodal (Finset.range n) (rootNode ω)).degree = n := by
      rw [Lagrange.degree_nodal, Finset.card_range]
    have hlead : (X ^ n - 1 : F[X]).Monic := by
      rw [← C_1]; exact monic_X_pow_sub_C 1 hn.ne'
    have hlt := degree_sub_lt_left (hnodal.trans hXn.symm) Lagrange.nodal_ne_zero
      (by rw [Lagrange.nodal_monic.leadingCoeff, hlead.leadingCoeff])
    rwa [hnodal] at hlt
  refine eq_of_degree_sub_lt_of_eval_index_eq (Finset.range n) hinj hdeg ?_
  intro i hi
  rw [Lagrange.eval_nodal_at_node hi]
  have hone : (ω ^ i) ^ n = 1 := by rw [← pow_mul, mul_comm, pow_mul, hω.pow_eq_one, one_pow]
  simp [rootNode, hone]

/-- The barycentric weight of the `j`-th node is `ω ^ j / n`. -/
theorem nodalWeight_rootNode (hω : IsPrimitiveRoot ω n) {j : ℕ} (hj : j < n) :
    Lagrange.nodalWeight (Finset.range n) (rootNode ω) j = ω ^ j * (n : F)⁻¹ := by
  have hn : 0 < n := Nat.zero_lt_of_lt hj
  have hω0 : ω ≠ 0 := hω.ne_zero hn.ne'
  rw [Lagrange.nodalWeight_eq_eval_derivative_nodal (Finset.mem_range.2 hj), nodal_rootNode hn hω]
  have hpow : (ω ^ j) ^ (n - 1) = (ω ^ j)⁻¹ := by
    apply eq_inv_of_mul_eq_one_left
    rw [← pow_succ, Nat.sub_add_cancel hn, ← pow_mul, mul_comm, pow_mul, hω.pow_eq_one, one_pow]
  simp only [derivative_sub, derivative_X_pow, derivative_one, sub_zero, eval_mul, eval_pow,
    eval_X, eval_C, rootNode, hpow]
  rw [mul_inv, inv_inv, mul_comm]

theorem natDegree_rowDivisor : (rowDivisor ω n).natDegree = n - 1 := by
  rw [rowDivisor, natDegree_prod_of_monic _ _ fun i _ => monic_X_sub_C (ω ^ i)]
  simp only [natDegree_X_sub_C, Finset.sum_const, Nat.card_Ico, smul_eq_mul, mul_one]

theorem rowDivisor_monic : (rowDivisor ω n).Monic :=
  monic_prod_of_monic _ _ fun i _ => monic_X_sub_C (ω ^ i)

theorem eval_rowDivisor (x : F) :
    (rowDivisor ω n).eval x = ∏ i ∈ Finset.Ico 1 n, (x - ω ^ i) := by
  simp [rowDivisor, eval_prod]

/-- The nodal polynomial is `X - 1` times the divisor. -/
theorem eval_nodal_eq_mul_rowDivisor (hn : 0 < n) (x : F) :
    (Lagrange.nodal (Finset.range n) (rootNode ω)).eval x =
      (x - 1) * (rowDivisor ω n).eval x := by
  rw [Lagrange.eval_nodal, eval_rowDivisor, Finset.range_eq_Ico,
    Finset.prod_eq_prod_Ico_succ_bot hn]
  simp [rootNode]

theorem natDegree_rowPoly_le (hω : IsPrimitiveRoot ω n) (a : ℕ → F) :
    (rowPoly ω n a).natDegree ≤ n - 1 := by
  have hdeg := Lagrange.degree_interpolate_le a (rootNode_injOn hω)
  rw [Finset.card_range] at hdeg
  exact natDegree_le_of_degree_le hdeg

theorem eval_rowPoly_node (hω : IsPrimitiveRoot ω n) (a : ℕ → F) {j : ℕ} (hj : j < n) :
    (rowPoly ω n a).eval (ω ^ j) = a j :=
  Lagrange.eval_interpolate_at_node a (rootNode_injOn hω) (Finset.mem_range.2 hj)

/-- Barycentric evaluation away from the nodes. -/
theorem eval_rowPoly (hω : IsPrimitiveRoot ω n) (a : ℕ → F) {x : F}
    (hx : ∀ i < n, x ≠ ω ^ i) :
    (rowPoly ω n a).eval x =
      (Lagrange.nodal (Finset.range n) (rootNode ω)).eval x *
        ∑ j ∈ Finset.range n, ω ^ j * (n : F)⁻¹ * (x - ω ^ j)⁻¹ * a j := by
  rw [rowPoly, Lagrange.eval_interpolate_not_at_node]
  · congr 1
    apply Finset.sum_congr rfl
    intro j hj
    rw [nodalWeight_rootNode hω (Finset.mem_range.1 hj), rootNode]
  · intro i hi
    exact hx i (Finset.mem_range.1 hi)

end Nodes

/-! ## The inverse Fourier sum -/

section InverseDft

variable {ω : F} {n : ℕ}

/-- Orthogonality of the powers of a primitive root. -/
theorem sum_pow_mul_inv_pow (hω : IsPrimitiveRoot ω n) {k u : ℕ} (hk : k < n) (hu : u < n) :
    ∑ i ∈ Finset.range n, (ω ^ k * (ω⁻¹) ^ u) ^ i = if u = k then (n : F) else 0 := by
  have hω0 : ω ≠ 0 := hω.ne_zero (Nat.zero_lt_of_lt hk).ne'
  by_cases huk : u = k
  · subst huk
    have hone : ω ^ u * (ω⁻¹) ^ u = 1 := by
      rw [← mul_pow, mul_inv_cancel₀ hω0, one_pow]
    rw [hone, if_pos rfl]
    simp
  · rw [if_neg huk]
    have hpow : (ω ^ k * (ω⁻¹) ^ u) ^ n = 1 := by
      rw [mul_pow, ← pow_mul, ← pow_mul, mul_comm k, mul_comm u, pow_mul, pow_mul, inv_pow,
        hω.pow_eq_one]
      simp
    have hne : ω ^ k * (ω⁻¹) ^ u ≠ 1 := by
      intro hone
      apply huk
      have heq : ω ^ k = ω ^ u := by
        rw [inv_pow] at hone
        exact (mul_inv_eq_one₀ (pow_ne_zero u hω0)).1 hone
      exact (hω.pow_inj hk hu heq).symm
    have hgeom := geom_sum_mul (ω ^ k * (ω⁻¹) ^ u) n
    rw [hpow, sub_self] at hgeom
    exact (mul_eq_zero.1 hgeom).resolve_right (sub_ne_zero.2 hne)

/-- The polynomial whose coefficients are the scaled inverse transform of `a`. -/
noncomputable def inverseDft (ω : F) (n : ℕ) (a : ℕ → F) : F[X] :=
  ∑ i ∈ Finset.range n,
    C ((n : F)⁻¹ * ∑ u ∈ Finset.range n, a u * (ω⁻¹) ^ (i * u)) * X ^ i

theorem eval_inverseDft (hω : IsPrimitiveRoot ω n) (hnF : (n : F) ≠ 0) (a : ℕ → F)
    {k : ℕ} (hk : k < n) : (inverseDft ω n a).eval (ω ^ k) = a k := by
  have hswap : (inverseDft ω n a).eval (ω ^ k) =
      (n : F)⁻¹ * ∑ u ∈ Finset.range n, a u *
        ∑ i ∈ Finset.range n, (ω ^ k * (ω⁻¹) ^ u) ^ i := by
    simp only [inverseDft, eval_finsetSum, eval_mul, eval_C, eval_pow, eval_X, Finset.mul_sum,
      Finset.sum_mul]
    rw [Finset.sum_comm]
    apply Finset.sum_congr rfl
    intro u _
    apply Finset.sum_congr rfl
    intro i _
    rw [mul_pow, ← pow_mul, ← pow_mul, mul_comm u i]
    ring
  rw [hswap]
  have hpick : ∑ u ∈ Finset.range n, a u * ∑ i ∈ Finset.range n, (ω ^ k * (ω⁻¹) ^ u) ^ i =
      a k * n := by
    rw [Finset.sum_eq_single k]
    · rw [sum_pow_mul_inv_pow hω hk hk, if_pos rfl]
    · intro u hu huk
      rw [sum_pow_mul_inv_pow hω hk (Finset.mem_range.1 hu), if_neg huk, mul_zero]
    · intro hnot
      exact absurd (Finset.mem_range.2 hk) hnot
  rw [hpick]
  field_simp

/-- The inverse transform is the interpolating polynomial. -/
theorem inverseDft_eq_rowPoly (hω : IsPrimitiveRoot ω n) (hnF : (n : F) ≠ 0) (a : ℕ → F) :
    inverseDft ω n a = rowPoly ω n a := by
  refine Lagrange.eq_interpolate_of_eval_eq a (rootNode_injOn hω) ?_ ?_
  · rw [Finset.card_range]
    refine lt_of_le_of_lt (degree_sum_le _ _) ?_
    refine (Finset.sup_lt_iff (WithBot.bot_lt_coe n)).2 ?_
    intro i hi
    refine lt_of_le_of_lt (degree_C_mul_X_pow_le _ _) ?_
    exact Nat.cast_lt.2 (Finset.mem_range.1 hi)
  · intro k hk
    exact eval_inverseDft hω hnF a (Finset.mem_range.1 hk)

end InverseDft

/-! ## Rows and the vanishing divisor -/

section Rows

variable {ω : F} {n : ℕ}

/-- The polynomial whose values at the nodes are the row expressions. -/
noncomputable def rowExpr (ω : F) (n : ℕ) (a b c : ℕ → F) : F[X] :=
  rowPoly ω n a * rowPoly ω n b + rowPoly ω n c

theorem natDegree_rowExpr_le (hω : IsPrimitiveRoot ω n) (a b c : ℕ → F) :
    (rowExpr ω n a b c).natDegree ≤ 2 * (n - 1) := by
  refine natDegree_add_le_of_degree_le ?_ ?_
  · refine natDegree_mul_le.trans ?_
    have ha := natDegree_rowPoly_le hω a
    have hb := natDegree_rowPoly_le hω b
    omega
  · have hc := natDegree_rowPoly_le hω c
    omega

theorem eval_rowExpr_node (hω : IsPrimitiveRoot ω n) (a b c : ℕ → F) {j : ℕ} (hj : j < n) :
    (rowExpr ω n a b c).eval (ω ^ j) = a j * b j + c j := by
  rw [rowExpr, eval_add, eval_mul, eval_rowPoly_node hω a hj, eval_rowPoly_node hω b hj,
    eval_rowPoly_node hω c hj]

/-- If every row from `1` on vanishes, the divisor divides. -/
theorem rowDivisor_dvd (hω : IsPrimitiveRoot ω n) {a b c : ℕ → F}
    (hrows : ∀ j, 1 ≤ j → j < n → a j * b j + c j = 0) :
    rowDivisor ω n ∣ rowExpr ω n a b c := by
  refine Finset.prod_dvd_of_coprime ?_ ?_
  · intro i hi j hj hij
    apply isCoprime_X_sub_C_of_isUnit_sub
    rw [isUnit_iff_ne_zero, sub_ne_zero]
    intro heq
    simp only [Finset.coe_Ico, Set.mem_Ico] at hi hj
    exact hij (hω.pow_inj hi.2 hj.2 heq)
  · intro j hj
    rw [Finset.mem_Ico] at hj
    rw [dvd_iff_isRoot, IsRoot.def, eval_rowExpr_node hω a b c hj.2]
    exact hrows j hj.1 hj.2

/-- A quotient by the divisor has degree below `n`. -/
theorem natDegree_quotient_lt (hn : 0 < n) (hω : IsPrimitiveRoot ω n) {a b c : ℕ → F} {H : F[X]}
    (hH : rowExpr ω n a b c = H * rowDivisor ω n) : H.natDegree < n := by
  by_cases hzero : H = 0
  · simpa [hzero] using hn
  · have hdeg := natDegree_rowExpr_le hω a b c
    rw [hH, natDegree_mul hzero rowDivisor_monic.ne_zero, natDegree_rowDivisor] at hdeg
    omega

/-- A multiple of the divisor vanishes on the rows `1`, ..., `n - 1`. -/
theorem rows_of_mul_rowDivisor (hω : IsPrimitiveRoot ω n) {a b c : ℕ → F} {H : F[X]}
    (hH : rowExpr ω n a b c = H * rowDivisor ω n) {j : ℕ} (hj : 1 ≤ j) (hjn : j < n) :
    a j * b j + c j = 0 := by
  rw [← eval_rowExpr_node hω a b c hjn, hH, eval_mul, eval_rowDivisor,
    Finset.prod_eq_zero (Finset.mem_Ico.2 ⟨hj, hjn⟩) (sub_self _), mul_zero]

/-- Agreement at more than `2 * (n - 1)` points is agreement of polynomials. -/
theorem eq_mul_rowDivisor_of_points (hn : 0 < n) (hω : IsPrimitiveRoot ω n) {a b c : ℕ → F}
    {H : F[X]} (hdeg : H.natDegree < n) (points : Finset F)
    (hcard : 2 * (n - 1) < points.card)
    (heval : ∀ x ∈ points, (rowExpr ω n a b c).eval x = (H * rowDivisor ω n).eval x) :
    rowExpr ω n a b c = H * rowDivisor ω n := by
  apply eq_of_sub_eq_zero
  refine eq_zero_of_natDegree_lt_card_of_eval_eq_zero' _ points ?_ ?_
  · intro x hx
    rw [eval_sub, heval x hx, sub_self]
  · have hprod : (H * rowDivisor ω n).natDegree ≤ 2 * (n - 1) := by
      refine natDegree_mul_le.trans ?_
      rw [natDegree_rowDivisor]
      omega
    have hdiff := natDegree_sub_le_of_le (natDegree_rowExpr_le hω a b c) hprod
    omega

end Rows

end Pepper.Foundations.RootInterpolation
