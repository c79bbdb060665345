import Pepper.Foundations.LinearPcp
import Pepper.Libv.GingerTests

/-!
# Tests of proofs that are linear

The answers of a proof that is a vector are inner products with it. `corrTest_iff` reads the
correction test of three such vectors as a bilinear form in the two queries, whose coefficients are
zero when the third vector holds the products of the others; otherwise few queries pass
(`rare_corrTest`).
-/

set_option autoImplicit false

open Pepper.Common.Gmp Pepper.Foundations.Loop Pepper.Foundations.LinearPcp
open Pepper.Libv.Queries Pepper.Libv.Evaluation Pepper.Libv.GingerTests

namespace Pepper.Libv.LinearProofs

universe u

variable {p : ℕ} [Fact p.Prime]

/-! ## Draws -/

/-- A vector that has been drawn. -/
def drawnVec {n : ℕ} (x : Fin n → ZMod p) : Vec :=
  fun i => if h : i < n then ((x ⟨i, h⟩).val : ℤ) else 0

theorem cast_drawnVec {n : ℕ} (x : Fin n → ZMod p) (i : Fin n) :
    ((drawnVec x i : ℤ) : ZMod p) = x i := by
  rw [drawnVec, dif_pos i.isLt, Int.cast_natCast, ZMod.natCast_val, ZMod.cast_id]

theorem cast_dotProduct_fin (n : ℕ) (q F : Vec) :
    (dotProduct n q F : ZMod p) = ∑ i : Fin n, (q i : ZMod p) * F i := by
  rw [cast_dotProduct, Finset.sum_range]
  exact Finset.sum_congr rfl fun i _ => mul_comm _ _

theorem cast_dotProduct_drawnVec {n : ℕ} (x : Fin n → ZMod p) (F : Vec) :
    (dotProduct n (drawnVec x) F : ZMod p) = ∑ i, x i * F i := by
  rw [cast_dotProduct_fin]
  exact Finset.sum_congr rfl fun i _ => by rw [cast_drawnVec]

/-! ## Sums in cells -/

omit [Fact p.Prime] in
theorem dotProduct_zeroVec (n : ℕ) (F : Vec) : dotProduct n zeroVec F = 0 := by
  rw [dotProduct_eq_sum]
  exact Finset.sum_eq_zero fun i _ => mul_zero _

omit [Fact p.Prime] in
/-- A query into whose cells values are added. -/
theorem dotProduct_scatter {n k : ℕ} {index : ℕ → ℕ} (h : ∀ i < k, index i < n) (value : ℕ → ℤ)
    (q F : Vec) :
    dotProduct n (forLoop k (fun i q => Function.update q (index i) (q (index i) + value i)) q) F =
      dotProduct n q F + ∑ i ∈ Finset.range k, value i * F (index i) := by
  refine forLoop_induction (P := fun k b => dotProduct n b F =
    dotProduct n q F + ∑ i ∈ Finset.range k, value i * F (index i)) (by simp) ?_
  intro i hi b hb
  rw [dotProduct_add_single n b F (h i hi), hb, Finset.sum_range_succ, add_assoc]

omit [Fact p.Prime] in
theorem dotProduct_addCells (n : ℕ) (value : ℕ → ℤ) (q F : Vec) :
    dotProduct n (forLoop n (fun i q => Function.update q i (q i + value i)) q) F =
      dotProduct n q F + ∑ i ∈ Finset.range n, value i * F i :=
  dotProduct_scatter (fun _ hi => hi) value q F

omit [Fact p.Prime] in
/-- The same over rows and columns. -/
theorem dotProduct_scatter_rows {n k l : ℕ} {index : ℕ → ℕ → ℕ}
    (h : ∀ i < k, ∀ j < l, index i j < n) (value : ℕ → ℕ → ℤ) (q F : Vec) :
    dotProduct n (forLoop k (fun i q => forLoop l (fun j q =>
        Function.update q (index i j) (q (index i j) + value i j)) q) q) F =
      dotProduct n q F + ∑ i ∈ Finset.range k, ∑ j ∈ Finset.range l, value i j * F (index i j) := by
  refine forLoop_induction (P := fun k b => dotProduct n b F = dotProduct n q F +
    ∑ i ∈ Finset.range k, ∑ j ∈ Finset.range l, value i j * F (index i j)) (by simp) ?_
  intro i hi b hb
  rw [dotProduct_scatter (h i hi) (value i), hb, Finset.sum_range_succ, add_assoc]

omit [Fact p.Prime] in
/-- A query that is filled from its first cell on: `body r` writes no cell from `start (r + 1)` on. -/
theorem dotProduct_ascending {n rows : ℕ} (start : ℕ → ℕ) (body : ℕ → Vec → Vec) (total : ℕ → ℤ)
    {F : Vec}
    (h : ∀ r < rows, ∀ q : Vec, (∀ x, start r ≤ x → q x = 0) →
      dotProduct n (body r q) F = dotProduct n q F + total r ∧
        ∀ x, start (r + 1) ≤ x → body r q x = 0)
    {q : Vec} (hq : ∀ x, start 0 ≤ x → q x = 0) :
    dotProduct n (forLoop rows body q) F = dotProduct n q F + ∑ r ∈ Finset.range rows, total r ∧
      ∀ x, start rows ≤ x → forLoop rows body q x = 0 := by
  refine forLoop_induction (P := fun k b => dotProduct n b F =
    dotProduct n q F + ∑ r ∈ Finset.range k, total r ∧ ∀ x, start k ≤ x → b x = 0)
    ⟨by simp, hq⟩ ?_
  rintro r hr b ⟨hdot, hzero⟩
  obtain ⟨hdot', hzero'⟩ := h r hr b hzero
  exact ⟨by rw [hdot', hdot, Finset.sum_range_succ, add_assoc], hzero'⟩

omit [Fact p.Prime] in
theorem dotProduct_ascending_cell {n x : ℕ} (hx : x < n) (v : ℤ) {q : Vec} (F : Vec)
    (hq : ∀ y, x ≤ y → q y = 0) :
    dotProduct n (Function.update q x v) F = dotProduct n q F + v * F x ∧
      ∀ y, x + 1 ≤ y → Function.update q x v y = 0 := by
  constructor
  · have hadd := dotProduct_add_single n q F hx v
    rwa [hq x le_rfl, zero_add] at hadd
  · intro y hy
    rw [Function.update_of_ne (Nat.ne_of_gt hy), hq y (Nat.le_of_succ_le hy)]

/-! ## The correction test -/

section Correction

variable {n m : ℕ}

/-- The query of the correction test against any vector. -/
theorem cast_corrTestQueriesReuse_dot (q1 q2 r F : Vec) :
    (dotProduct (n * m) (createCorrTestQueriesReuse n m q1 q2 r p zeroVec) F : ZMod p) =
      ∑ i ∈ Finset.range n, ∑ j ∈ Finset.range m, (q1 i : ZMod p) * q2 j * F (i * m + j) +
        dotProduct (n * m) r F := by
  rw [cast_dotProduct, cast_dotProduct, sum_cells, sum_cells, ← Finset.sum_add_distrib]
  refine Finset.sum_congr rfl fun i hi => ?_
  rw [← Finset.sum_add_distrib]
  refine Finset.sum_congr rfl fun j hj => ?_
  rw [Finset.mem_range] at hi hj
  have hcell := forLoop_cells m n (fun _ => 0) (fun _ => m) (fun i hi => by omega)
    (fun i j _ => (q1 i * q2 j + r (i * m + j)) % (p : ℤ)) zeroVec (fun _ _ _ _ => rfl) i j hj
  simp only [Nat.zero_add] at hcell
  rw [createCorrTestQueriesReuse, hcell, if_pos ⟨hi, Nat.zero_le _, hj⟩, ZMod.intCast_mod]
  push_cast
  ring

/-- What the third vector lacks of the products of the first two. -/
theorem corrTest_iff (q1 q2 r F1 F2 F3 : Vec) :
    corrTest (dotProduct n q1 F1) (dotProduct m q2 F2)
        (dotProduct (n * m) (createCorrTestQueriesReuse n m q1 q2 r p zeroVec) F3)
        (dotProduct (n * m) r F3) p = true ↔
      ∑ i : Fin n, ∑ j : Fin m, (q1 i : ZMod p) * q2 j *
        ((F1 i : ZMod p) * F2 j - F3 (i * m + j)) = 0 := by
  rw [corrTest, decide_eq_true_eq, emod_eq_emod_iff, Int.cast_sub, cast_corrTestQueriesReuse_dot,
    add_sub_cancel_right, Int.cast_mul, cast_dotProduct, cast_dotProduct, Finset.sum_mul_sum,
    ← sub_eq_zero, ← Finset.sum_sub_distrib, Finset.sum_range]
  refine Eq.congr_left (Finset.sum_congr rfl fun i _ => ?_)
  rw [← Finset.sum_sub_distrib, Finset.sum_range]
  refine Finset.sum_congr rfl fun j _ => ?_
  ring

/-- The third vector holds the products of the first two. -/
def IsProduct (p n m : ℕ) (F1 F2 F3 : Vec) : Prop :=
  ∀ i < n, ∀ j < m, (F3 (i * m + j) : ZMod p) = F1 i * F2 j

theorem corrTest_product {F1 F2 F3 : Vec} (h : IsProduct p n m F1 F2 F3) (q1 q2 r : Vec) :
    corrTest (dotProduct n q1 F1) (dotProduct m q2 F2)
      (dotProduct (n * m) (createCorrTestQueriesReuse n m q1 q2 r p zeroVec) F3)
      (dotProduct (n * m) r F3) p = true := by
  rw [corrTest_iff]
  refine Finset.sum_eq_zero fun i _ => Finset.sum_eq_zero fun j _ => ?_
  rw [h i i.isLt j j.isLt, sub_self, mul_zero]

/-- Queries that are drawn pass rarely when a product is wrong; the query that hides the sum may
depend on all draws. -/
theorem rare_corrTest {ι : Type u} [Finite ι] {x : Fin n → ι} {y : Fin m → ι}
    (hx : Function.Injective x) (hy : Function.Injective y) (hxy : ∀ i j, x i ≠ y j)
    {F1 F2 F3 : Vec} (h : ¬ IsProduct p n m F1 F2 F3) (r : (ι → ZMod p) → Vec) :
    Rare 2 p fun ω : ι → ZMod p =>
      corrTest (dotProduct n (drawnVec fun i => ω (x i)) F1)
        (dotProduct m (drawnVec fun j => ω (y j)) F2)
        (dotProduct (n * m) (createCorrTestQueriesReuse n m (drawnVec fun i => ω (x i))
          (drawnVec fun j => ω (y j)) (r ω) p zeroVec) F3)
        (dotProduct (n * m) (r ω) F3) p = true := by
  rw [IsProduct] at h
  push Not at h
  obtain ⟨i, hi, j, hj, hne⟩ := h
  have hrare := rare_bilinear (F := ZMod p) hx hy hxy
    (a := fun i j => (F1 i : ZMod p) * F2 j - F3 (i * m + j)) (i := ⟨i, hi⟩) (j := ⟨j, hj⟩)
    (sub_ne_zero.2 hne.symm)
  rw [Nat.card_zmod] at hrare
  refine hrare.mono fun ω hω => ?_
  rw [corrTest_iff] at hω
  rw [← hω]
  refine Finset.sum_congr rfl fun i' _ => Finset.sum_congr rfl fun j' _ => ?_
  rw [cast_drawnVec, cast_drawnVec]

end Correction

end Pepper.Libv.LinearProofs
