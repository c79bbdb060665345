import Pepper.Cmtgkr.LevelStack

/-!
# Predicates of the Hamming distance circuit

The functions of `wiremle_hamdist.cpp`, one for the wiring of every kind of level of
`HamdistCircuit`: all of its levels have two gates behind their data gates that carry the claimed
distance and the constant zero. Each lemma reads a function modulo `p` as the sum over the gates
that it stands for.
-/

set_option autoImplicit false

open Pepper.Common.Gmp Pepper.Foundations.Loop Pepper.Foundations.Multilinear
open Pepper.Cmtgkr.Env Pepper.Cmtgkr.Layer

namespace Pepper.Cmtgkr.HamdistPredicates

/-! ## The code -/

/-- `hamdist_add_last_two`. -/
def hamdistAddLastTwo : MleFn := fun r mi mip1 ni nip1 prime =>
  let tmp := chi (ni - 1) r mi prime
  let tmp := mulChi tmp (nip1 - 1) (offset r mi) mip1 prime
  let ans := chi (ni - 2) r mi prime
  let ans := mulChi ans (nip1 - 2) (offset r mi) mip1 prime
  let ans := ans + tmp
  mulChi ans (nip1 - 1) (offset r (mi + mip1)) mip1 prime

/-- `hamdist_sum_vec`. -/
def hamdistSumVec : MleFn := fun r mi mip1 _ _ prime =>
  let ans := checkEqual 1 [r, offset r mi, offset r (mi + mip1)] 0 (mi - 1) prime
  let ans := ans * oneSub (r (mi - 1))
  let ans := ans * oneSub (r (mi + mip1 - 2))
  let ans := ans * oneSub (r (mi + mip1 - 1))
  let ans := ans * r (mi + 2 * mip1 - 2)
  ans * oneSub (r (mi + 2 * mip1 - 1))

/-- `hamdist_reduce`. -/
def hamdistReduce : MleFn := fun r mi mip1 _ _ prime =>
  let ans := checkEqual 1 [r, offset r (mi + 1), offset r (mi + mip1 + 1)] 0 (mi - 1) prime
  let ans := checkZero ans [r, offset r (mi + 1), offset r (mi + mip1 + 1)] (mi - 1) mi prime
  let ans := ans * oneSub (r mi)
  ans * r (mi + mip1)

/-- `hamdist_flt_mul_lvl1`. -/
def hamdistFltMulLvl1 : MleFn := fun r mi mip1 _ _ prime =>
  let ans := checkEqual 1 [r, offset r mi, offset r (mi + mip1)] 0 (mi - 1) prime
  checkZero ans [r, offset r mi, offset r (mi + mip1)] (mi - 1) mi prime

/-- `hamdist_flt_mul_lvl2`. -/
def hamdistFltMulLvl2 : MleFn := fun r mi mip1 _ _ prime =>
  let ans := checkEqual (r 0) [offset r 1, offset r mi, offset r (mi + mip1)] 0 (mip1 - 1) prime
  checkZero ans [offset r 1, offset r mi, offset r (mi + mip1)] (mip1 - 1) mip1 prime

/-- `hamdist_flt_add_lvl2`. -/
def hamdistFltAddLvl2 : MleFn := fun r mi mip1 _ nip1 prime =>
  let ans := checkEqual (oneSub (r 0)) [offset r 1, offset r mi] 0 (mip1 - 1) prime
  let ans := checkZero ans [offset r 1, offset r mi] (mip1 - 1) mip1 prime
  modmult (chi (nip1 - 1) (offset r (mi + mip1)) mip1 prime) ans prime

/-- `hamdist_flt_add`. -/
def hamdistFltAdd (bit : Bool) : MleFn := fun r mi mip1 _ nip1 prime =>
  if bit then 0
  else
    let ans1 := checkZero 1 [r, offset r mi] 0 1 prime
    let ans1 := checkEqual ans1 [r, offset r mi] 1 (mi - 1) prime
    let ans1 := checkZero ans1 [r, offset r mi] (mi - 1) mi prime
    mulChi ans1 (nip1 - 1) (offset r (mi + mip1)) mip1 prime

/-- `hamdist_flt_mul`. -/
def hamdistFltMul (bit : Bool) : MleFn := fun r mi mip1 _ _ prime =>
  let ans1 := checkEqual 1 [r, offset r mi, offset r (mi + mip1)] 1 (mi - 1) prime
  let ans1 := checkZero ans1 [r, offset r mi, offset r (mi + mip1)] (mi - 1) mi prime
  let ans2 := ans1
  let ans1 := if bit then ans1 * oneSub (r 0) * (oneSub (r mi) * r (mi + mip1)) else 0
  let ans2 := ans2 * r 0
  let ans2 := ans2 * (r mi * r (mi + mip1))
  ans1 + ans2

/-- `hamdist_add_wrap`. -/
def hamdistAddWrap (addFn : MleFn) : MleFn := fun r mi mip1 ni nip1 prime =>
  modadd (addFn r mi mip1 ni nip1 prime) (hamdistAddLastTwo r mi mip1 ni nip1 prime) prime

/-! ## Modulo a prime -/

variable {p : ℕ}

/-- A coordinate that is read by its position in the whole point. -/
theorem cast_position (r : Vec) (m k : ℕ) {i : ℕ} (hi : i = m + k) :
    ((r i : ℤ) : ZMod p) = shiftPoint m (castVec p r) k := by
  rw [hi, shiftPoint, castVec_apply]

theorem cast_hamdistAddLastTwo (r : Vec) (mi mip1 a m : ℕ) :
    ((hamdistAddLastTwo r mi mip1 (a + 2) (m + 2) p : ℤ) : ZMod p) =
      ∑ j ∈ Finset.range 2,
        wireTerm .add mi mip1 (castVec p r) (a + j) ⟨.add, m + j, m + 1⟩ := by
  have hlast : ∀ n, n + 2 - 1 = n + 1 := fun _ => rfl
  simp only [hamdistAddLastTwo, cast_mulChi, cast_chi, Int.cast_add, castVec_offset, hlast,
    Nat.add_sub_cancel, Finset.sum_range_succ, Finset.sum_range_zero, wireTerm_self]
  ring_nf

theorem cast_hamdistAddWrap (addFn : MleFn) (r : Vec) (mi mip1 ni nip1 : ℕ) :
    ((hamdistAddWrap addFn r mi mip1 ni nip1 p : ℤ) : ZMod p) =
      addFn r mi mip1 ni nip1 p + (hamdistAddLastTwo r mi mip1 ni nip1 p : ℤ) :=
  cast_modadd _ _

section Sums

variable (r : Vec) (k : ℕ)

/-- Both vectors are added. -/
theorem cast_hamdistSumVec (ni nip1 : ℕ) :
    ((hamdistSumVec r (k + 1) (k + 2) ni nip1 p : ℤ) : ZMod p) =
      ∑ g ∈ Finset.range (2 ^ k),
        wireTerm .add (k + 1) (k + 2) (castVec p r) g ⟨.add, g, 2 ^ k + g⟩ := by
  have hu : ((r (k + 1 + (k + 2) - 2) : ℤ) : ZMod p) = shiftPoint (k + 1) (castVec p r) k :=
    cast_position r _ _ (by omega)
  have hu' : ((r (k + 1 + (k + 2) - 1) : ℤ) : ZMod p) =
      shiftPoint (k + 1) (castVec p r) (k + 1) := cast_position r _ _ (by omega)
  have hv : ((r (k + 1 + 2 * (k + 2) - 2) : ℤ) : ZMod p) =
      shiftPoint (k + 1 + (k + 2)) (castVec p r) k := cast_position r _ _ (by omega)
  have hv' : ((r (k + 1 + 2 * (k + 2) - 1) : ℤ) : ZMod p) =
      shiftPoint (k + 1 + (k + 2)) (castVec p r) (k + 1) := cast_position r _ _ (by omega)
  rw [sum_eq_agreement_three (castVec p r) (shiftPoint (k + 1) (castVec p r))
    (shiftPoint (k + 1 + (k + 2)) (castVec p r))
    ((1 - castVec p r k) * (1 - shiftPoint (k + 1) (castVec p r) k) *
      (1 - shiftPoint (k + 1) (castVec p r) (k + 1)) *
      shiftPoint (k + 1 + (k + 2)) (castVec p r) k *
      (1 - shiftPoint (k + 1 + (k + 2)) (castVec p r) (k + 1)))]
  · simp only [hamdistSumVec, Nat.add_sub_cancel, Int.cast_mul, cast_oneSub, hu, hu', hv, hv',
      cast_checkEqual_zero, List.map_cons, List.map_nil, castVec_offset, Int.cast_one, one_mul,
      castVec_apply]
    ring
  · intro g hg
    have hg' : g < 2 ^ (k + 1) := hg.trans (Nat.pow_lt_pow_succ one_lt_two)
    have hsum : 2 ^ k + g < 2 ^ (k + 1) := by
      rw [pow_succ, mul_two]
      exact Nat.add_lt_add_left hg _
    rw [wireTerm_self, lagrange_succ_lt _ hg, lagrange_succ_lt _ hg', lagrange_succ_lt _ hg,
      lagrange_succ_lt _ hsum, Nat.add_comm (2 ^ k) g, lagrange_succ_add _ hg]
    ring

/-- The square level. -/
theorem cast_hamdistFltMulLvl1 (ni nip1 : ℕ) :
    ((hamdistFltMulLvl1 r (k + 1) (k + 1) ni nip1 p : ℤ) : ZMod p) =
      ∑ g ∈ Finset.range (2 ^ k),
        wireTerm .mul (k + 1) (k + 1) (castVec p r) g ⟨.mul, g, g⟩ := by
  rw [sum_eq_agreement_three (castVec p r) (shiftPoint (k + 1) (castVec p r))
    (shiftPoint (k + 1 + (k + 1)) (castVec p r))
    ((1 - castVec p r k) * (1 - shiftPoint (k + 1) (castVec p r) k) *
      (1 - shiftPoint (k + 1 + (k + 1)) (castVec p r) k))]
  · simp only [hamdistFltMulLvl1, Nat.add_sub_cancel, cast_checkZero_succ, cast_checkEqual_zero,
      List.map_cons, List.map_nil, List.prod_cons, List.prod_nil, castVec_offset, Int.cast_one,
      one_mul, mul_one, mul_assoc]
  · intro g hg
    rw [wireTerm_self, lagrange_succ_lt _ hg, lagrange_succ_lt _ hg, lagrange_succ_lt _ hg]
    ring

/-- The fourth powers, at the odd labels of the second level. -/
theorem cast_hamdistFltMulLvl2 (ni nip1 : ℕ) :
    ((hamdistFltMulLvl2 r (k + 2) (k + 1) ni nip1 p : ℤ) : ZMod p) =
      ∑ h ∈ Finset.range (2 ^ k),
        wireTerm .mul (k + 2) (k + 1) (castVec p r) (2 * h + 1) ⟨.mul, h, h⟩ := by
  rw [sum_eq_agreement_three (shiftPoint 1 (castVec p r)) (shiftPoint (k + 2) (castVec p r))
    (shiftPoint (k + 2 + (k + 1)) (castVec p r))
    (castVec p r 0 * (1 - shiftPoint 1 (castVec p r) k) *
      (1 - shiftPoint (k + 2) (castVec p r) k) *
      (1 - shiftPoint (k + 2 + (k + 1)) (castVec p r) k))]
  · simp only [hamdistFltMulLvl2, Nat.add_sub_cancel, cast_checkZero_succ, cast_checkEqual_zero,
      List.map_cons, List.map_nil, List.prod_cons, List.prod_nil, castVec_offset, castVec_apply,
      mul_one]
    ring
  · intro h hh
    rw [wireTerm_self, lagrange_two_mul_add_one, lagrange_succ_lt _ hh, lagrange_succ_lt _ hh,
      lagrange_succ_lt _ hh]
    ring

/-- The squares, at the even labels of the second level. -/
theorem cast_hamdistFltAddLvl2 (ni m : ℕ) :
    ((hamdistFltAddLvl2 r (k + 2) (k + 1) ni (m + 2) p : ℤ) : ZMod p) =
      ∑ h ∈ Finset.range (2 ^ k),
        wireTerm .add (k + 2) (k + 1) (castVec p r) (2 * h) ⟨.add, h, m + 1⟩ := by
  have hlast : m + 2 - 1 = m + 1 := rfl
  rw [sum_eq_agreement_two (shiftPoint 1 (castVec p r)) (shiftPoint (k + 2) (castVec p r))
    ((1 - castVec p r 0) * (1 - shiftPoint 1 (castVec p r) k) *
      (1 - shiftPoint (k + 2) (castVec p r) k) *
      lagrange (shiftPoint (k + 2 + (k + 1)) (castVec p r)) (k + 1) (m + 1))]
  · simp only [hamdistFltAddLvl2, Nat.add_sub_cancel, hlast, cast_modmult, cast_chi, cast_oneSub,
      cast_checkZero_succ, cast_checkEqual_zero, List.map_cons, List.map_nil, List.prod_cons,
      List.prod_nil, castVec_offset, castVec_apply, mul_one]
    ring
  · intro h hh
    rw [wireTerm_self, lagrange_two_mul, lagrange_succ_lt _ hh, lagrange_succ_lt _ hh]
    ring

/-- The even labels of a level of the tower, if the bit is clear. -/
theorem cast_hamdistFltAdd (bit : Bool) (ni m : ℕ) :
    ((hamdistFltAdd bit r (k + 2) (k + 2) ni (m + 2) p : ℤ) : ZMod p) =
      ∑ h ∈ Finset.range (2 ^ k), if bit then 0 else
        wireTerm .add (k + 2) (k + 2) (castVec p r) (2 * h) ⟨.add, 2 * h, m + 1⟩ := by
  cases bit with
  | true =>
      simp only [↓reduceIte, Finset.sum_const_zero]
      exact Int.cast_zero
  | false =>
      have hlast : m + 2 - 1 = m + 1 := rfl
      have htop : k + 2 - 1 = k + 1 := rfl
      simp only [Bool.false_eq_true, ↓reduceIte]
      rw [sum_eq_agreement_two (shiftPoint 1 (castVec p r))
        (shiftPoint 1 (shiftPoint (k + 2) (castVec p r)))
        ((1 - castVec p r 0) * (1 - shiftPoint (k + 2) (castVec p r) 0) *
          (1 - castVec p r (k + 1)) * (1 - shiftPoint (k + 2) (castVec p r) (k + 1)) *
          lagrange (shiftPoint (k + 2 + (k + 2)) (castVec p r)) (k + 2) (m + 1))]
      · have hfirst := cast_checkZero_succ (p := p) 1 [r, offset r (k + 2)] 0
        simp only [hamdistFltAdd, Bool.false_eq_true, ↓reduceIte, hlast, htop, cast_mulChi,
          cast_checkZero_succ, cast_checkEqual, hfirst, Nat.add_sub_cancel, prod_agreementFactor_add,
          List.map_cons, List.map_nil, List.prod_cons, List.prod_nil, castVec_offset, mul_one,
          Int.cast_one, one_mul]
        ring
      · intro h hh
        rw [wireTerm_self, lagrange_two_mul, lagrange_two_mul, lagrange_succ_lt _ hh,
          lagrange_succ_lt _ hh]
        simp only [shiftPoint]
        ring_nf

/-- The products of a level of the tower: the squares at the odd labels and, if the bit is set, the
products at the even ones. -/
theorem cast_hamdistFltMul (bit : Bool) (ni nip1 : ℕ) :
    ((hamdistFltMul bit r (k + 2) (k + 2) ni nip1 p : ℤ) : ZMod p) =
      ∑ h ∈ Finset.range (2 ^ k),
        ((if bit then
            wireTerm .mul (k + 2) (k + 2) (castVec p r) (2 * h) ⟨.mul, 2 * h, 2 * h + 1⟩
          else 0) +
          wireTerm .mul (k + 2) (k + 2) (castVec p r) (2 * h + 1) ⟨.mul, 2 * h + 1, 2 * h + 1⟩) := by
  have htop : k + 2 - 1 = k + 1 := rfl
  -- the factors that the even and the odd labels share
  have hshared : ∀ (x u v : ℕ → ZMod p) {h : ℕ}, h < 2 ^ k →
      lagrange (shiftPoint 1 x) (k + 1) h * lagrange (shiftPoint 1 u) (k + 1) h *
          lagrange (shiftPoint 1 v) (k + 1) h =
        lagrange (shiftPoint 1 x) k h * lagrange (shiftPoint 1 u) k h *
          lagrange (shiftPoint 1 v) k h * ((1 - x (k + 1)) * (1 - u (k + 1)) * (1 - v (k + 1))) := by
    intro x u v h hh
    rw [lagrange_succ_lt _ hh, lagrange_succ_lt _ hh, lagrange_succ_lt _ hh]
    simp only [shiftPoint, Nat.add_comm 1 k]
    ring
  let x := castVec p r
  let u := shiftPoint (k + 2) x
  let v := shiftPoint (k + 2 + (k + 2)) x
  have hodd : ∑ h ∈ Finset.range (2 ^ k),
      wireTerm .mul (k + 2) (k + 2) x (2 * h + 1) ⟨.mul, 2 * h + 1, 2 * h + 1⟩ =
        agreement [shiftPoint 1 x, shiftPoint 1 u, shiftPoint 1 v] k *
          ((1 - x (k + 1)) * (1 - u (k + 1)) * (1 - v (k + 1)) * (x 0 * u 0 * v 0)) := by
    refine sum_eq_agreement_three _ _ _ _ fun h hh => ?_
    rw [wireTerm_self, lagrange_two_mul_add_one, lagrange_two_mul_add_one,
      lagrange_two_mul_add_one]
    linear_combination (x 0 * u 0 * v 0) * hshared x u v hh
  have heven : ∑ h ∈ Finset.range (2 ^ k),
      wireTerm .mul (k + 2) (k + 2) x (2 * h) ⟨.mul, 2 * h, 2 * h + 1⟩ =
        agreement [shiftPoint 1 x, shiftPoint 1 u, shiftPoint 1 v] k *
          ((1 - x (k + 1)) * (1 - u (k + 1)) * (1 - v (k + 1)) *
            ((1 - x 0) * (1 - u 0) * v 0)) := by
    refine sum_eq_agreement_three _ _ _ _ fun h hh => ?_
    rw [wireTerm_self, lagrange_two_mul, lagrange_two_mul, lagrange_two_mul_add_one]
    linear_combination ((1 - x 0) * (1 - u 0) * v 0) * hshared x u v hh
  rw [Finset.sum_add_distrib, hodd]
  cases bit with
  | true =>
      simp only [↓reduceIte]
      rw [heven]
      simp only [hamdistFltMul, ↓reduceIte, htop, cast_checkZero_succ, cast_checkEqual,
        Nat.add_sub_cancel, prod_agreementFactor_add, List.map_cons, List.map_nil, List.prod_cons,
        List.prod_nil, castVec_offset, mul_one, Int.cast_one, one_mul, Int.cast_add, Int.cast_mul,
        cast_oneSub]
      simp only [x, u, v, shiftPoint, castVec_apply, Nat.add_zero]
      ring
  | false =>
      simp only [Bool.false_eq_true, ↓reduceIte, Finset.sum_const_zero]
      simp only [hamdistFltMul, Bool.false_eq_true, ↓reduceIte, htop, cast_checkZero_succ,
        cast_checkEqual, Nat.add_sub_cancel, prod_agreementFactor_add, List.map_cons, List.map_nil,
        List.prod_cons, List.prod_nil, castVec_offset, mul_one, Int.cast_one, one_mul, Int.cast_add,
        Int.cast_mul, Int.cast_zero]
      simp only [x, u, v, shiftPoint, castVec_apply, Nat.add_zero]
      ring

/-- The pairs of a level, which the function does not distinguish by their operation. -/
theorem cast_hamdistReduce (gateType : GateType) (ni nip1 : ℕ) :
    ((hamdistReduce r (k + 1) (k + 2) ni nip1 p : ℤ) : ZMod p) =
      ∑ g ∈ Finset.range (2 ^ k),
        wireTerm gateType (k + 1) (k + 2) (castVec p r) g ⟨gateType, 2 * g, 2 * g + 1⟩ := by
  rw [sum_eq_agreement_three (castVec p r) (shiftPoint 1 (shiftPoint (k + 1) (castVec p r)))
    (shiftPoint 1 (shiftPoint (k + 1 + (k + 2)) (castVec p r)))
    ((1 - castVec p r k) * (1 - shiftPoint 1 (shiftPoint (k + 1) (castVec p r)) k) *
      (1 - shiftPoint 1 (shiftPoint (k + 1 + (k + 2)) (castVec p r)) k) *
      (1 - shiftPoint (k + 1) (castVec p r) 0) * shiftPoint (k + 1 + (k + 2)) (castVec p r) 0)]
  · simp only [hamdistReduce, Nat.add_sub_cancel, cast_checkZero_succ, cast_checkEqual_zero,
      List.map_cons, List.map_nil, List.prod_cons, List.prod_nil, castVec_offset,
      shiftPoint_shiftPoint, Int.cast_mul, cast_oneSub, Int.cast_one, one_mul, mul_one]
    simp only [shiftPoint, castVec_apply, Nat.add_zero]
    ring
  · intro g hg
    rw [wireTerm_self, lagrange_two_mul, lagrange_two_mul_add_one, lagrange_succ_lt _ hg,
      lagrange_succ_lt _ hg, lagrange_succ_lt _ hg]
    ring

end Sums

end Pepper.Cmtgkr.HamdistPredicates
