import Pepper.Foundations.Multilinear

/-!
# Sums over bit vectors

Multilinear extensions of relations between labels are sums of products over the bits of the
labels. Main results: `sum_prod_testBit`, such a sum is a product over the bits, and
`sum_lagrange`, the closed form of the relation that holds when all labels are equal.
-/

set_option autoImplicit false

universe u

namespace Pepper.Foundations.Multilinear

variable {R : Type u} [CommRing R]

theorem testBit_two_pow_add_of_lt {n k i : ℕ} (hi : i < n) :
    (2 ^ n + k).testBit i = k.testBit i := by
  rw [Nat.testBit_two_pow_add_gt hi]

theorem testBit_two_pow_add_self {n k : ℕ} (hk : k < 2 ^ n) : (2 ^ n + k).testBit n = true := by
  rw [Nat.testBit_two_pow_add_eq, Nat.testBit_lt_two_pow hk]
  rfl

/-- Every bit is summed on its own. By induction on the highest bit. -/
theorem sum_prod_testBit (F : ℕ → Bool → R) (n : ℕ) :
    ∑ k ∈ Finset.range (2 ^ n), ∏ i ∈ Finset.range n, F i (k.testBit i) =
      ∏ i ∈ Finset.range n, (F i true + F i false) := by
  induction n with
  | zero =>
      rw [pow_zero, Finset.sum_range_one, Finset.prod_range_zero, Finset.prod_range_zero]
  | succ n ih =>
      have hlow : ∀ k ∈ Finset.range (2 ^ n),
          ∏ i ∈ Finset.range (n + 1), F i (k.testBit i) =
            (∏ i ∈ Finset.range n, F i (k.testBit i)) * F n false := by
        intro k hk
        rw [Finset.prod_range_succ, Nat.testBit_lt_two_pow (Finset.mem_range.1 hk)]
      have hhigh : ∀ k ∈ Finset.range (2 ^ n),
          ∏ i ∈ Finset.range (n + 1), F i ((2 ^ n + k).testBit i) =
            (∏ i ∈ Finset.range n, F i (k.testBit i)) * F n true := by
        intro k hk
        rw [Finset.prod_range_succ, testBit_two_pow_add_self (Finset.mem_range.1 hk)]
        refine congrArg (· * F n true) (Finset.prod_congr rfl fun i hi => ?_)
        rw [testBit_two_pow_add_of_lt (Finset.mem_range.1 hi)]
      rw [pow_succ, mul_two, Finset.sum_range_add, Finset.sum_congr rfl hlow,
        Finset.sum_congr rfl hhigh, ← Finset.sum_mul, ← Finset.sum_mul, ih,
        Finset.prod_range_succ]
      ring

/-- The factor of coordinate `i` in the extension of equality of several labels. -/
def agreementFactor (ps : List (ℕ → R)) (i : ℕ) : R :=
  (ps.map fun p => p i).prod + (ps.map fun p => 1 - p i).prod

/-- The extension of equality of several labels of `n` bits. -/
def agreement (ps : List (ℕ → R)) (n : ℕ) : R := ∏ i ∈ Finset.range n, agreementFactor ps i

/-- A product of Lagrange polynomials, bit by bit. -/
theorem prod_lagrange (ps : List (ℕ → R)) (n k : ℕ) :
    (ps.map fun p => lagrange p n k).prod =
      ∏ i ∈ Finset.range n, (ps.map fun p => bitFactor (k.testBit i) (p i)).prod := by
  induction ps with
  | nil => exact Finset.prod_const_one.symm
  | cons p ps ih =>
      simp only [List.map_cons, List.prod_cons]
      rw [ih, lagrange, Finset.prod_mul_distrib]

/-- Summing over the label that several points share. -/
theorem sum_lagrange (ps : List (ℕ → R)) (n : ℕ) :
    ∑ k ∈ Finset.range (2 ^ n), (ps.map fun p => lagrange p n k).prod = agreement ps n := by
  have hbits := sum_prod_testBit (fun i b => (ps.map fun p => bitFactor b (p i)).prod) n
  simp only [prod_lagrange]
  exact hbits

/-- A sum over the label that two points share. -/
theorem sum_eq_agreement_two (x y : ℕ → R) {k : ℕ} (c : R) {f : ℕ → R}
    (h : ∀ g < 2 ^ k, f g = lagrange x k g * lagrange y k g * c) :
    ∑ g ∈ Finset.range (2 ^ k), f g = agreement [x, y] k * c := by
  rw [← sum_lagrange, Finset.sum_mul]
  refine Finset.sum_congr rfl fun g hg => ?_
  rw [h g (Finset.mem_range.1 hg)]
  simp only [List.map_cons, List.map_nil, List.prod_cons, List.prod_nil, mul_one]

/-- A sum over the label that three points share. -/
theorem sum_eq_agreement_three (x y z : ℕ → R) {k : ℕ} (c : R) {f : ℕ → R}
    (h : ∀ g < 2 ^ k, f g = lagrange x k g * lagrange y k g * lagrange z k g * c) :
    ∑ g ∈ Finset.range (2 ^ k), f g = agreement [x, y, z] k * c := by
  rw [← sum_lagrange, Finset.sum_mul]
  refine Finset.sum_congr rfl fun g hg => ?_
  rw [h g (Finset.mem_range.1 hg)]
  simp only [List.map_cons, List.map_nil, List.prod_cons, List.prod_nil, mul_one, mul_assoc]

/-- The factors from a coordinate on. -/
theorem prod_agreementFactor_add (ps : List (ℕ → R)) (s n : ℕ) :
    ∏ i ∈ Finset.range n, agreementFactor ps (s + i) = agreement (ps.map (shiftPoint s)) n := by
  rw [agreement]
  refine Finset.prod_congr rfl fun i _ => ?_
  rw [agreementFactor, agreementFactor, List.map_map, List.map_map]
  rfl

/-- The point of a label tells it from the other labels. -/
theorem lagrange_label {r : ℕ → R} {n g k : ℕ} (hg : g < 2 ^ n) (hk : k < 2 ^ n)
    (hr : ∀ i < n, r i = if g.testBit i then 1 else 0) :
    lagrange r n k = if k = g then 1 else 0 := by
  split_ifs with h
  · refine Finset.prod_eq_one fun i hi => ?_
    rw [hr i (Finset.mem_range.1 hi), h]
    cases g.testBit i <;> simp
  · obtain ⟨i, hi⟩ := Nat.exists_testBit_ne_of_ne h
    have hlt : i < n := by
      by_contra hge
      have hle : 2 ^ n ≤ 2 ^ i := Nat.pow_le_pow_right Nat.two_pos (not_lt.1 hge)
      exact hi ((Nat.testBit_lt_two_pow (hk.trans_le hle)).trans
        (Nat.testBit_lt_two_pow (hg.trans_le hle)).symm)
    refine Finset.prod_eq_zero (Finset.mem_range.2 hlt) ?_
    rw [hr i hlt, Bool.eq_not.2 hi]
    cases g.testBit i <;> simp

/-! ## Digits -/

theorem digits_lt {m n j k : ℕ} (hj : j < m) (hk : k < n) : j + m * k < m * n :=
  calc j + m * k < m + m * k := Nat.add_lt_add_right hj _
    _ = m * (k + 1) := by rw [Nat.mul_succ, Nat.add_comm]
    _ ≤ m * n := Nat.mul_le_mul_left m hk

/-- A sum over labels, digit by digit. -/
theorem sum_range_mul {M : Type u} [AddCommMonoid M] (f : ℕ → M) (m n : ℕ) :
    ∑ k ∈ Finset.range (m * n), f k =
      ∑ k ∈ Finset.range n, ∑ j ∈ Finset.range m, f (j + m * k) := by
  induction n with
  | zero => rw [Nat.mul_zero, Finset.sum_range_zero, Finset.sum_range_zero]
  | succ n ih =>
      rw [Nat.mul_succ, Finset.sum_range_add, ih, Finset.sum_range_succ]
      simp only [Nat.add_comm (m * n)]

omit [CommRing R] in
theorem shiftPoint_shiftPoint (m n : ℕ) (r : ℕ → R) :
    shiftPoint m (shiftPoint n r) = shiftPoint (n + m) r :=
  funext fun i => congrArg r (Nat.add_assoc n m i).symm

/-- The digits of a label have coordinates of their own. -/
theorem lagrange_digits (r : ℕ → R) {m j : ℕ} (hj : j < 2 ^ m) (n k : ℕ) :
    lagrange r (m + n) (j + 2 ^ m * k) = lagrange r m j * lagrange (shiftPoint m r) n k := by
  have hhigh : (j + 2 ^ m * k) >>> m = k := by
    rw [Nat.shiftRight_eq_div_pow, Nat.add_mul_div_left _ _ (by positivity),
      Nat.div_eq_of_lt hj, Nat.zero_add]
  rw [lagrange_add, lagrange_add_high r k hj, hhigh]

end Pepper.Foundations.Multilinear
