import Mathlib.Algebra.BigOperators.Intervals
import Mathlib.Algebra.BigOperators.Ring.Finset
import Mathlib.Algebra.Polynomial.BigOperators
import Mathlib.Data.Nat.Bitwise
import Mathlib.Tactic.LinearCombination
import Mathlib.Tactic.Ring

/-!
# Multilinear extensions of tables

A table is a function on indices; the bits of an index, lowest first, are matched
with the coordinates of a point. `lagrange r n k` is the Lagrange polynomial of the index
`k` in `n` coordinates, `extension f n r` the multilinear extension of the first `2 ^ n`
entries.

`foldTable` fixes the lowest coordinate of a table; `foldTables` fixes one after the
other, and `foldTables_eq_extension` reads the last entry that remains. Over a commutative
ring throughout.
-/

set_option autoImplicit false

namespace Pepper.Foundations.Multilinear

universe u

variable {R : Type u} [CommRing R]

/-- The factor of one bit: the coordinate, or one minus it. -/
def bitFactor (b : Bool) (x : R) : R := if b then x else 1 - x

@[simp] theorem bitFactor_true (x : R) : bitFactor true x = x := rfl

@[simp] theorem bitFactor_false (x : R) : bitFactor false x = 1 - x := rfl

/-- The Lagrange polynomial of `k` in the first `n` coordinates. -/
def lagrange (r : ℕ → R) (n k : ℕ) : R := ∏ i ∈ Finset.range n, bitFactor (k.testBit i) (r i)

/-- The multilinear extension of the first `2 ^ n` entries. -/
def extension (f : ℕ → R) (n : ℕ) (r : ℕ → R) : R := ∑ k ∈ Finset.range (2 ^ n), f k * lagrange r n k

/-- The point without its first `s` coordinates. -/
def shiftPoint (s : ℕ) (r : ℕ → R) : ℕ → R := fun i => r (s + i)

@[simp] theorem lagrange_zero (r : ℕ → R) (k : ℕ) : lagrange r 0 k = 1 := Finset.prod_range_zero _

theorem lagrange_succ (r : ℕ → R) (n k : ℕ) :
    lagrange r (n + 1) k = lagrange r n k * bitFactor (k.testBit n) (r n) :=
  Finset.prod_range_succ _ _

theorem lagrange_congr {r r' : ℕ → R} {n k k' : ℕ} (hr : ∀ i < n, r i = r' i)
    (hk : ∀ i < n, k.testBit i = k'.testBit i) : lagrange r n k = lagrange r' n k' := by
  apply Finset.prod_congr rfl
  intro i hi
  rw [hr i (Finset.mem_range.1 hi), hk i (Finset.mem_range.1 hi)]

/-- Taking off the lowest bit. -/
theorem lagrange_succ_low (r : ℕ → R) (n k : ℕ) :
    lagrange r (n + 1) k = bitFactor (k.testBit 0) (r 0) * lagrange (shiftPoint 1 r) n (k >>> 1) := by
  rw [lagrange, Finset.prod_range_succ', mul_comm]
  congr 1
  apply Finset.prod_congr rfl
  intro i _
  rw [shiftPoint, Nat.testBit_shiftRight, add_comm 1 i]

/-- Taking off the next bit of the coordinates from `k` on. -/
theorem lagrange_shiftPoint (r : ℕ → R) {k n : ℕ} (hk : k < n) (i : ℕ) :
    lagrange (shiftPoint k r) (n - k) i =
      bitFactor (i.testBit 0) (r k) * lagrange (shiftPoint (k + 1) r) (n - (k + 1)) (i >>> 1) := by
  obtain ⟨m, hm⟩ : ∃ m, n - k = m + 1 := ⟨n - (k + 1), by omega⟩
  have hm' : n - (k + 1) = m := by omega
  have hshift : shiftPoint 1 (shiftPoint k r) = shiftPoint (k + 1) r := by
    funext j
    rw [shiftPoint, shiftPoint, shiftPoint, add_assoc]
  rw [hm, hm', lagrange_succ_low, hshift]
  rfl

/-- Splitting the coordinates. -/
theorem lagrange_add (r : ℕ → R) (m n k : ℕ) :
    lagrange r (m + n) k = lagrange r m k * lagrange (shiftPoint m r) n (k >>> m) := by
  rw [lagrange, Finset.prod_range_add, lagrange, lagrange]
  congr 1
  apply Finset.prod_congr rfl
  intro i _
  rw [shiftPoint, Nat.testBit_shiftRight]

/-- Only the low bits count. -/
theorem lagrange_add_high (r : ℕ → R) {n k : ℕ} (j : ℕ) (hk : k < 2 ^ n) :
    lagrange r n (k + 2 ^ n * j) = lagrange r n k := by
  refine lagrange_congr (fun _ _ => rfl) ?_
  intro i hi
  rw [add_comm, Nat.testBit_two_pow_mul_add j hk, if_pos hi]

/-- The next coordinate of an index in the lower half. -/
theorem lagrange_succ_lt (r : ℕ → R) {n k : ℕ} (hk : k < 2 ^ n) :
    lagrange r (n + 1) k = lagrange r n k * (1 - r n) := by
  rw [lagrange_succ, Nat.testBit_lt_two_pow hk, bitFactor_false]

/-- The next coordinate of an index in the upper half. -/
theorem lagrange_succ_add (r : ℕ → R) {n k : ℕ} (hk : k < 2 ^ n) :
    lagrange r (n + 1) (k + 2 ^ n) = lagrange r n k * r n := by
  have hhigh := lagrange_add_high r 1 hk
  have hbit : (k + 2 ^ n).testBit n = true := by
    rw [add_comm, Nat.testBit_two_pow_add_eq, Nat.testBit_lt_two_pow hk]
    rfl
  rw [mul_one] at hhigh
  rw [lagrange_succ, hhigh, hbit, bitFactor_true]

/-- Even and odd indices. -/
theorem sum_range_two_pow_succ (f : ℕ → R) (n : ℕ) :
    ∑ k ∈ Finset.range (2 ^ (n + 1)), f k =
      ∑ k ∈ Finset.range (2 ^ n), (f (2 * k) + f (2 * k + 1)) := by
  have hrun : ∀ m, ∑ k ∈ Finset.range (2 * m), f k =
      ∑ k ∈ Finset.range m, (f (2 * k) + f (2 * k + 1)) := by
    intro m
    induction m with
    | zero => rfl
    | succ m ih =>
        rw [Nat.mul_succ, Finset.sum_range_succ, Finset.sum_range_succ, Finset.sum_range_succ, ih,
          add_assoc]
  rw [pow_succ, mul_comm (2 ^ n) 2, hrun]

theorem lagrange_two_mul (r : ℕ → R) (n k : ℕ) :
    lagrange r (n + 1) (2 * k) = (1 - r 0) * lagrange (shiftPoint 1 r) n k := by
  have hbit : (2 * k).testBit 0 = false := by simp
  have hshift : (2 * k) >>> 1 = k := by
    rw [Nat.shiftRight_one]
    omega
  rw [lagrange_succ_low, hbit, hshift, bitFactor_false]

theorem lagrange_two_mul_add_one (r : ℕ → R) (n k : ℕ) :
    lagrange r (n + 1) (2 * k + 1) = r 0 * lagrange (shiftPoint 1 r) n k := by
  have hbit : (2 * k + 1).testBit 0 = true := by simp
  have hshift : (2 * k + 1) >>> 1 = k := by
    rw [Nat.shiftRight_one]
    omega
  rw [lagrange_succ_low, hbit, hshift, bitFactor_true]

/-! ## Fixing coordinates -/

/-- Fix the lowest coordinate of a table at `x`. -/
def foldTable (x : R) (f : ℕ → R) : ℕ → R := fun i => f (2 * i) * (1 - x) + f (2 * i + 1) * x

/-- Fix the first `k` coordinates. -/
def foldTables (r : ℕ → R) (f : ℕ → R) : ℕ → ℕ → R
  | 0 => f
  | k + 1 => foldTable (r k) (foldTables r f k)

theorem foldTables_congr {r r' : ℕ → R} {k : ℕ} (h : ∀ i < k, r i = r' i) (f : ℕ → R) :
    foldTables r f k = foldTables r' f k := by
  induction k with
  | zero => rfl
  | succ k ih =>
      rw [foldTables, foldTables, h k (Nat.lt_succ_self k),
        ih fun i hi => h i (Nat.lt_succ_of_lt hi)]

theorem extension_succ (f : ℕ → R) (n : ℕ) (r : ℕ → R) :
    extension f (n + 1) r = extension (foldTable (r 0) f) n (shiftPoint 1 r) := by
  rw [extension, sum_range_two_pow_succ, extension]
  apply Finset.sum_congr rfl
  intro k _
  rw [lagrange_two_mul, lagrange_two_mul_add_one, foldTable]
  ring

theorem foldTables_succ_low (r f : ℕ → R) (k : ℕ) :
    foldTables r f (k + 1) = foldTables (shiftPoint 1 r) (foldTable (r 0) f) k := by
  induction k with
  | zero => rfl
  | succ k ih =>
      rw [foldTables, ih, foldTables, shiftPoint, add_comm 1 k]

/-- When every coordinate is fixed one entry remains, the value of the extension. -/
theorem foldTables_eq_extension (f : ℕ → R) (n : ℕ) (r : ℕ → R) :
    foldTables r f n 0 = extension f n r := by
  induction n generalizing f r with
  | zero => simp [foldTables, extension]
  | succ n ih => rw [foldTables_succ_low, ih, extension_succ]

/-- Entries from `size` on are zero and need no summand. -/
theorem extension_eq_sum {f : ℕ → R} {size n : ℕ} (hsize : size ≤ 2 ^ n) (hf : ∀ k, size ≤ k → f k = 0)
    (r : ℕ → R) : extension f n r = ∑ k ∈ Finset.range size, f k * lagrange r n k := by
  rw [extension]
  symm
  apply Finset.sum_subset (Finset.range_mono hsize)
  intro k _ hk
  rw [hf k (by simpa using hk), zero_mul]

theorem extension_congr {f f' : ℕ → R} {n : ℕ} {r r' : ℕ → R} (hf : ∀ k < 2 ^ n, f k = f' k)
    (hr : ∀ i < n, r i = r' i) : extension f n r = extension f' n r' := by
  apply Finset.sum_congr rfl
  intro k hk
  rw [hf k (Finset.mem_range.1 hk), lagrange_congr hr fun _ _ => rfl]

/-! ## Restriction to a line -/

section Line

open Polynomial

theorem map_extension {S : Type*} [CommRing S] (φ : R →+* S) (f : ℕ → R) (n : ℕ) (r : ℕ → R) :
    φ (extension f n r) = extension (fun k => φ (f k)) n fun i => φ (r i) := by
  rw [extension, map_sum, extension]
  apply Finset.sum_congr rfl
  intro k _
  rw [map_mul, lagrange, map_prod, lagrange]
  congr 1
  apply Finset.prod_congr rfl
  intro i _
  cases k.testBit i <;> simp

/-- The point of the line through `r1` and `r2` with parameter `x`. -/
def lineThrough (r1 r2 : ℕ → R) (x : R) : ℕ → R := fun i => r1 i + x * (r2 i - r1 i)

/-- The extension along the line through two points, as a polynomial. -/
noncomputable def linePoly (f : ℕ → R) (n : ℕ) (r1 r2 : ℕ → R) : R[X] :=
  extension (fun k => C (f k)) n fun i => C (r1 i) + X * C (r2 i - r1 i)

theorem eval_linePoly (f : ℕ → R) (n : ℕ) (r1 r2 : ℕ → R) (x : R) :
    (linePoly f n r1 r2).eval x = extension f n (lineThrough r1 r2 x) := by
  rw [linePoly, ← coe_evalRingHom, map_extension]
  apply extension_congr
  · intro k _
    simp
  · intro i _
    simp [lineThrough]

theorem natDegree_linePoly_le (f : ℕ → R) (n : ℕ) (r1 r2 : ℕ → R) :
    (linePoly f n r1 r2).natDegree ≤ n := by
  have hcoord : ∀ i, (C (r1 i) + X * C (r2 i - r1 i) : R[X]).natDegree ≤ 1 := by
    intro i
    refine (natDegree_add_le _ _).trans (max_le ?_ ?_)
    · rw [natDegree_C]
      exact Nat.zero_le 1
    · exact (natDegree_mul_C_le _ _).trans natDegree_X_le
  have hfactor : ∀ (b : Bool) i,
      (bitFactor b (C (r1 i) + X * C (r2 i - r1 i) : R[X])).natDegree ≤ 1 := by
    intro b i
    cases b with
    | true => exact hcoord i
    | false =>
        refine (natDegree_sub_le _ _).trans (max_le ?_ (hcoord i))
        rw [natDegree_one]
        exact Nat.zero_le 1
  rw [linePoly, extension]
  refine natDegree_sum_le_of_forall_le _ _ fun k _ => ?_
  refine (natDegree_C_mul_le _ _).trans ((natDegree_prod_le _ _).trans ?_)
  calc ∑ i ∈ Finset.range n,
        (bitFactor (k.testBit i) (C (r1 i) + X * C (r2 i - r1 i) : R[X])).natDegree
      ≤ ∑ _i ∈ Finset.range n, 1 := Finset.sum_le_sum fun i _ => hfactor _ i
    _ = n := by simp

end Line

/-! ## Equality of points -/

/-- One coordinate of the extension of equality. -/
def equalityFactor (x y : R) : R := (1 - x) * (1 - y) + x * y

/-- The extension of equality in the first `n` coordinates. -/
def equality (z r : ℕ → R) (n : ℕ) : R := ∏ i ∈ Finset.range n, equalityFactor (z i) (r i)

theorem equality_succ (z r : ℕ → R) (n : ℕ) :
    equality z r (n + 1) = equality z r n * equalityFactor (z n) (r n) :=
  Finset.prod_range_succ _ _

theorem equality_congr {z r r' : ℕ → R} {n : ℕ} (h : ∀ i < n, r i = r' i) :
    equality z r n = equality z r' n := by
  apply Finset.prod_congr rfl
  intro i hi
  rw [h i (Finset.mem_range.1 hi)]

theorem equalityFactor_bit (x : R) (b : Bool) :
    equalityFactor x (if b then 1 else 0) = bitFactor b x := by
  cases b <;> simp [equalityFactor]

end Pepper.Foundations.Multilinear
