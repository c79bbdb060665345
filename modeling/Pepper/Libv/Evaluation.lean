import Pepper.Libv.Queries

/-!
# The query builder interpolates

In the field, the cells that `evaluate_polynomial_at_random_point` fills are the
values at `tau` of the wire polynomials: weighted by any wire values they add up to
the value of the row polynomial (`sum_wire_mul_evalMatrix`), and `d_star` is the
value of the divisor of the rows (`cast_dStar`). The self-correction queries cancel
in the dot products (`cast_selfCorrect_dot`, `cast_f2Q1_dot`).
-/

set_option autoImplicit false

open Pepper.Common.Gmp Pepper.Foundations.Loop Pepper.Foundations.RootInterpolation
open Pepper.Libv.QuadraticProgram Pepper.Libv.Roots Pepper.Libv.Queries

namespace Pepper.Libv.Evaluation

variable {p : ℕ} [Fact p.Prime] {q : Qap} {omega : ℤ}

section Tables

theorem cast_init_powersOfOmega (q : Qap) (omega : ℤ) {i : ℕ} (hi : i < q.sizeF2Vec) :
    ((Setup.init q omega p).powersOfOmega i : ZMod p) = (omega : ZMod p) ^ i :=
  cast_powersOfOmega q.sizeF2Vec omega hi

theorem cast_init_setV (hω : IsPrimitiveRoot (omega : ZMod p) q.sizeF2Vec) {j : ℕ}
    (hj : j < q.sizeF2Vec) :
    ((Setup.init q omega p).setV j : ZMod p) =
      (omega : ZMod p) ^ j * (q.sizeF2Vec : ZMod p)⁻¹ :=
  cast_computeSetV hω hj

/-- A point away from the roots of unity differs from every node. -/
theorem ne_node {tau : ℤ} (hω : IsPrimitiveRoot (omega : ZMod p) q.sizeF2Vec)
    (htau : (tau : ZMod p) ^ q.sizeF2Vec ≠ 1) (i : ℕ) :
    (tau : ZMod p) ≠ (omega : ZMod p) ^ i := by
  intro heq
  apply htau
  rw [heq, ← pow_mul, mul_comm, pow_mul, hω.pow_eq_one, one_pow]

end Tables

section AtPoint

variable {tau : ℤ}

/-- The loop over the nodes ends normally, with the nodal polynomial at `tau`. -/
theorem evalLTau_eq_some (hω : IsPrimitiveRoot (omega : ZMod p) q.sizeF2Vec)
    (htau : (tau : ZMod p) ^ q.sizeF2Vec ≠ 1) :
    ∃ lTau, evalLTau (Setup.init q omega p) tau = some lTau ∧ (lTau : ZMod p) =
      (Lagrange.nodal (Finset.range q.sizeF2Vec) (rootNode (omega : ZMod p))).eval
        (tau : ZMod p) := by
  rw [Lagrange.eval_nodal]
  refine forLoop_induction
    (P := fun i (acc : Option ℤ) => ∃ lTau, acc = some lTau ∧ (lTau : ZMod p) =
      ∏ k ∈ Finset.range i, ((tau : ZMod p) - rootNode (omega : ZMod p) k)) ?_ ?_
  · exact ⟨1, rfl, by simp⟩
  · rintro i hi acc ⟨lTau, rfl, hl⟩
    have hcast := cast_init_powersOfOmega (p := p) q omega (i := i) hi
    have hne : tau - (Setup.init q omega p).powersOfOmega i ≠ 0 := by
      intro hzero
      apply ne_node hω htau i
      rw [← hcast, ← sub_eq_zero, ← Int.cast_sub, hzero, Int.cast_zero]
    refine ⟨lTau * (tau - (Setup.init q omega p).powersOfOmega i) % p, ?_, ?_⟩
    · rw [Option.bind_some, if_neg hne]
      rfl
    · rw [ZMod.intCast_mod, Int.cast_mul, Int.cast_sub, hl, hcast, Finset.prod_range_succ, rootNode]

/-- The field value one entry adds. -/
def entryValue (p : ℕ) (s : Setup) (tau : ℤ) (e : PolyCompressed) : ZMod p :=
  (s.setV e.j : ZMod p) * e.coefficient *
    (mpzInvert (tau - s.powersOfOmega e.j) (tau - s.powersOfOmega e.j) p : ℤ)

theorem cast_foldl_addEntry (s : Setup) (hs : s.prime = p) (poly : List PolyCompressed)
    (v : Vec) (i : ℕ) :
    ((poly.foldl (addEntry s tau) v) i : ZMod p) =
      v i + ((poly.filter fun e => e.i = i).map (entryValue p s tau)).sum := by
  have hhom := @List.foldl_hom _ _ _ (castVec p) (addEntry s tau)
    (fun (b : ℕ → ZMod p) e => Function.update b e.i (b e.i + entryValue p s tau e)) poly v ?_
  · have hcell := congrFun hhom i
    rw [foldl_scatter_apply PolyCompressed.i] at hcell
    exact hcell.symm
  · intro v e
    funext k
    by_cases hk : k = e.i
    · subst hk
      simp [addEntry, entryValue, hs]
    · simp [addEntry, Function.update_of_ne hk]

theorem cast_evalMatrix (s : Setup) (hs : s.prime = p) (lTau : ℤ) (poly : List PolyCompressed)
    {i : ℕ} (hi : i < s.qap.n + 1) :
    (evalMatrix s tau lTau poly zeroVec i : ZMod p) =
      ((poly.filter fun e => e.i = i).map (entryValue p s tau)).sum * lTau := by
  rw [evalMatrix, forLoop_update_apply _ (fun _ x => x * lTau % s.prime), if_pos hi, hs,
    ZMod.intCast_mod, Int.cast_mul, cast_foldl_addEntry s hs, zeroVec, Int.cast_zero, zero_add]

/-- Wire values times evaluations add up to the row polynomial at `tau`. -/
theorem sum_wire_mul_evalMatrix (hω : IsPrimitiveRoot (omega : ZMod p) q.sizeF2Vec)
    (htau : (tau : ZMod p) ^ q.sizeF2Vec ≠ 1) {lTau : ℤ}
    (hl : evalLTau (Setup.init q omega p) tau = some lTau) (poly : List PolyCompressed)
    (hpoly : ∀ e ∈ poly, e.InRange q.n q.chi) (w : Vec) :
    ∑ i ∈ Finset.range (q.n + 1),
        (w i : ZMod p) * evalMatrix (Setup.init q omega p) tau lTau poly zeroVec i =
      (rowPoly (omega : ZMod p) q.sizeF2Vec fun j => (rowValue poly w j : ZMod p)).eval
        (tau : ZMod p) := by
  obtain ⟨lTau', hl', hcast⟩ := evalLTau_eq_some hω htau
  obtain rfl : lTau = lTau' := Option.some_inj.1 (hl.symm.trans hl')
  have hrow : ∀ e ∈ poly, e.j < q.sizeF2Vec := fun e he => Nat.lt_succ_of_le (hpoly e he).row_le
  have hwire : ∀ e ∈ poly, e.i < q.n + 1 := fun e he => Nat.lt_succ_of_le (hpoly e he).wire_le
  -- regroup by entry: every entry is read once by its column
  have hleft : ∑ i ∈ Finset.range (q.n + 1),
      (w i : ZMod p) * evalMatrix (Setup.init q omega p) tau lTau poly zeroVec i =
        (poly.map fun e => (w e.i : ZMod p) *
          entryValue p (Setup.init q omega p) tau e).sum * lTau := by
    rw [← sum_mul_scatter (q.n + 1) PolyCompressed.i (fun i => (w i : ZMod p)) _ poly hwire,
      Finset.sum_mul]
    apply Finset.sum_congr rfl
    intro i hi
    rw [cast_evalMatrix _ rfl lTau poly (Finset.mem_range.1 hi), mul_assoc]
  -- and once by its row
  have hrowValue : ∀ j, ((rowValue poly w j : ℤ) : ZMod p) =
      ((poly.filter fun e => e.j = j).map fun e => (e.coefficient : ZMod p) * w e.i).sum := by
    intro j
    rw [rowValue, Int.cast_list_sum, List.map_map]
    congr 1
    apply List.map_congr_left
    intro e _
    exact Int.cast_mul _ _
  rw [hleft, eval_rowPoly hω _ fun i _ => ne_node hω htau i, hcast, mul_comm]
  simp only [hrowValue]
  rw [sum_mul_scatter q.sizeF2Vec PolyCompressed.j
    (fun j => (omega : ZMod p) ^ j * (q.sizeF2Vec : ZMod p)⁻¹ *
      ((tau : ZMod p) - (omega : ZMod p) ^ j)⁻¹) _ poly hrow]
  congr 2
  apply List.map_congr_left
  intro e he
  have hnode : ((tau - (Setup.init q omega p).powersOfOmega e.j : ℤ) : ZMod p) =
      (tau : ZMod p) - (omega : ZMod p) ^ e.j := by
    rw [Int.cast_sub, cast_init_powersOfOmega q omega (hrow e he)]
  -- the point is no root of unity, so the inverse is one
  have hne : ((tau - (Setup.init q omega p).powersOfOmega e.j : ℤ) : ZMod p) ≠ 0 := by
    rw [hnode]
    exact sub_ne_zero.2 (ne_node hω htau e.j)
  rw [entryValue, cast_mpzInvert _ _ hne, hnode, cast_init_setV hω (hrow e he)]
  ring

/-- `d_star` is the product over the rows from `1` on. -/
theorem cast_dStar (hω : IsPrimitiveRoot (omega : ZMod p) q.sizeF2Vec)
    (htau : (tau : ZMod p) ^ q.sizeF2Vec ≠ 1) {lTau : ℤ}
    (hl : evalLTau (Setup.init q omega p) tau = some lTau) :
    ((mpzInvert 0 (tau - 1) p * lTau % (p : ℤ) : ℤ) : ZMod p) =
      (rowDivisor (omega : ZMod p) q.sizeF2Vec).eval (tau : ZMod p) := by
  obtain ⟨lTau', hl', hcast⟩ := evalLTau_eq_some hω htau
  obtain rfl : lTau = lTau' := Option.some_inj.1 (hl.symm.trans hl')
  have hne : ((tau - 1 : ℤ) : ZMod p) ≠ 0 := by
    rw [Int.cast_sub, Int.cast_one]
    apply sub_ne_zero.2
    have hnode := ne_node hω htau 0
    rwa [pow_zero] at hnode
  have hn : 0 < q.sizeF2Vec := Nat.succ_pos q.chi
  rw [ZMod.intCast_mod, Int.cast_mul, cast_mpzInvert _ _ hne, hcast,
    eval_nodal_eq_mul_rowDivisor hn]
  rw [Int.cast_sub, Int.cast_one] at hne ⊢
  field_simp

end AtPoint

section SelfCorrection

theorem cast_dotProduct (size : ℕ) (v d : Vec) :
    (dotProduct size v d : ZMod p) = ∑ i ∈ Finset.range size, (d i : ZMod p) * v i := by
  rw [dotProduct_eq_sum, Int.cast_sum]
  apply Finset.sum_congr rfl
  intro i _
  exact Int.cast_mul _ _

/-- The self-correction query drops out of the difference of the two answers. -/
theorem cast_selfCorrect_dot (size : ℕ) (eval corr old f : Vec) :
    ((dotProduct size (selfCorrect size p eval corr old) f - dotProduct size corr f : ℤ) :
        ZMod p) =
      ∑ i ∈ Finset.range size, (f i : ZMod p) * eval (i + 1) := by
  rw [Int.cast_sub, cast_dotProduct, cast_dotProduct, ← Finset.sum_sub_distrib]
  apply Finset.sum_congr rfl
  intro i hi
  rw [selfCorrect, forLoop_fill_apply, if_pos (Finset.mem_range.1 hi), ZMod.intCast_mod,
    Int.cast_add]
  ring

theorem cast_powersOfTau (size : ℕ) (tau : ℤ) (old : Vec) {i : ℕ} (hi : i < size) :
    (powersOfTau size tau p old i : ZMod p) = (tau : ZMod p) ^ i := by
  -- cell `j` is final once pass `j` is over
  refine forLoop_induction
    (P := fun k (v : Vec) => ∀ j, j < k → (v j : ZMod p) = (tau : ZMod p) ^ j)
    (n := size) ?_ ?_ i hi
  · intro j hj
    exact absurd hj (Nat.not_lt_zero j)
  · intro k _ v hv j hj
    by_cases hjk : j = k
    · subst hjk
      rw [Function.update_self]
      cases j with
      | zero => simp
      | succ j =>
          rw [if_pos (Nat.succ_pos j), Nat.add_sub_cancel, ZMod.intCast_mod, Int.cast_mul,
            hv j (Nat.lt_succ_self j), pow_succ]
    · rw [Function.update_of_ne hjk]
      exact hv j (by omega)

theorem cast_f2Q1_dot (s : Setup) (hs : s.prime = p) (tau : ℤ) (ev : PolyEval)
    (corrQ corrQ2 : Vec) (old : DivQueries) (f : Vec) :
    ((dotProduct s.qap.sizeF2Vec (divQueriesAt s tau ev corrQ corrQ2 old).f2Q1 f -
        dotProduct s.qap.sizeF2Vec corrQ2 f : ℤ) : ZMod p) =
      ∑ i ∈ Finset.range s.qap.sizeF2Vec, (f i : ZMod p) * (tau : ZMod p) ^ i := by
  rw [Int.cast_sub, cast_dotProduct, cast_dotProduct, ← Finset.sum_sub_distrib]
  apply Finset.sum_congr rfl
  intro i hi
  have hi' : i < s.qap.sizeF2Vec := Finset.mem_range.1 hi
  rw [divQueriesAt_f2Q1_apply s tau ev corrQ corrQ2 old hi', hs, ZMod.intCast_mod, Int.cast_add, cast_powersOfTau _ _ _ hi']
  ring

end SelfCorrection

end Pepper.Libv.Evaluation
