import Pepper.Cmtgkr.LevelStack
import Pepper.Cmtgkr.MatmulCmtPP

/-!
# Predicates of the matrix multiplication circuit

The functions of `cmtgkr_env.cpp` and `wiremle_flt.cpp` that `MatmulCircuit` supplies for its
original layout. For the levels up to the subtraction each lemma reads a function modulo `p` as the
sum over the gates that it stands for; of the functions of the tower only values at some points are
used.
-/

set_option autoImplicit false

open Pepper.Common.Gmp Pepper.Foundations.Loop Pepper.Foundations.Multilinear
open Pepper.Cmtgkr.Env Pepper.Cmtgkr.Layer

namespace Pepper.Cmtgkr.MatmulPredicates

/-! ## The code -/

/-- The factor of two coordinates: both set, or both clear. -/
def pairFactor (a b : ℤ) : ℤ := oneSub a * oneSub b + a * b

/-- The factor of three coordinates. -/
def tripleFactor (a b c : ℤ) : ℤ := a * b * c + oneSub a * oneSub b * oneSub c

/-- The loops of these functions: `n` factors are multiplied to `ans`. -/
def multLoop (n : ℕ) (f : ℕ → ℤ) (ans prime : ℤ) : ℤ :=
  forLoop n (fun j ans => modmult ans (f j) prime) ans

/-- `floor(Log2(n) / 2 + 0.5)`. -/
def halfLog2 (n : ℕ) : ℕ := Nat.log 4 (2 * n)

/-- `mat_add_63_p3d`. -/
def matAdd63P3d : MleFn := fun r mi mip1 ni nip1 prime =>
  let d := (mi - 1) / 3
  -- the label is `i` behind the products
  let ans := multLoop d (fun j => oneSub (r (2 * d + j))) (r (mi - 1)) prime
  let ans := modmult ans (oneSub (r (mi + 2 * d)) * r (mi + 2 * d + 1)) prime
  -- the first input is entry `i` of the claimed product
  let ans := multLoop (2 * d) (fun j => pairFactor (r (mi + j)) (r j)) ans prime
  let ans := mulChi ans (nip1 - 1) (offset r (mi + mip1)) mip1 prime
  checkWiring ans r (ni - 1) (nip1 - 1) (nip1 - 1) mi mip1 prime

/-- `mat_mult_63_p3d`. -/
def matMult63P3d : MleFn := fun r mi mip1 _ _ prime =>
  let d := (mi - 1) / 3
  let rop := oneSub (r (mi - 1)) % prime
  let rop := rop * oneSub (r (mi + mip1 - 1))
  let rop := modmult rop (oneSub (r (mi + mip1 - 2))) prime
  let rop := rop * oneSub (r (mi + 2 * mip1 - 1))
  let rop := modmult rop (r (mi + 2 * mip1 - 2)) prime
  -- the row, the summand and the column
  let rop := multLoop d (fun j => pairFactor (r (2 * d + j)) (r (mi + d + j))) rop prime
  let rop := multLoop d
    (fun j => tripleFactor (r (mi + j)) (r (mi + mip1 + d + j)) (r j)) rop prime
  multLoop d (fun j => pairFactor (r (d + j)) (r (mi + mip1 + j))) rop prime

/-- `mat_add_below_63_p3d`. -/
def matAddBelow63P3d : MleFn := fun r mi mip1 ni nip1 prime =>
  let threeDMinI : ℤ := mi - 1
  let nSquared := ni - 2 ^ (mi - 1) - 1
  let d := halfLog2 nSquared
  let i := (threeDMinI - 3 * d) * (-1)
  let rop := modmult (oneSub (r (mi - 1)))
    (oneSub (r (mi + mip1 - 1)) * oneSub (r (mi + 2 * mip1 - 1))) prime
  let rop := multLoop (mi - 1)
    (fun j => tripleFactor (r (mi + j + 1)) (r (mi + mip1 + j + 1)) (r j)) rop prime
  let rop := modmult (rop * oneSub (r mi)) (r (mi + mip1)) prime
  -- the entries of the claimed product
  let partTwo := multLoop (d - i).toNat (fun j => oneSub (r (2 * d + j))) (r (mi - 1)) prime
  let partTwo := modmult partTwo (r (mi + mip1 - 1)) prime
  let partTwo := multLoop (d - i + 1).toNat (fun j => oneSub (r (mi + 2 * d + j))) partTwo prime
  let partTwo := multLoop (2 * d) (fun j => pairFactor (r j) (r (mi + j))) partTwo prime
  let partTwo := mulChi partTwo (nip1 - 1) (offset r (mi + mip1)) mip1 prime
  let partThree := checkWiring 0 r (ni - 1) (nip1 - 1) (nip1 - 1) mi mip1 prime
  modadd rop (partTwo + partThree) prime

/-- `mat_add_61_p2dp1`. -/
def matAdd61P2dp1 : MleFn := fun r mi mip1 ni nip1 prime =>
  let nSquared := ni - 2 ^ (mi - 2) - 1
  let d := halfLog2 nSquared
  let rop := modmult (oneSub (r (mi - 1)))
    (oneSub (r (mi + 2 * mip1 - 1)) * oneSub (r (mi + mip1 - 1))) prime
  let rop := modmult rop (oneSub (r (mi - 2))) prime
  let rop := multLoop (mi - 2)
    (fun j => tripleFactor (r (mi + j + 1)) (r (mi + mip1 + j + 1)) (r j)) rop prime
  let rop := modmult (rop * oneSub (r mi)) (r (mi + mip1)) prime
  -- the entries of the claimed product
  let partTwo := modmult (oneSub (r (mi - 1))) (r (mi - 2)) prime
  let partTwo := modmult partTwo (oneSub (r (mi + mip1 - 2)) * r (mi + mip1 - 1)) prime
  let partTwo := multLoop (2 * d) (fun j => pairFactor (r j) (r (mi + j))) partTwo prime
  let partTwo := mulChi partTwo (nip1 - 1) (offset r (mi + mip1)) mip1 prime
  let partThree := checkWiring 0 r (ni - 1) (nip1 - 1) (nip1 - 1) mi mip1 prime
  modadd rop (partTwo + partThree) prime

/-- `mat_add_61_p2d`. -/
def matAdd61P2d : MleFn := fun r mi mip1 ni nip1 prime =>
  let rop := multLoop (mi - 1)
    (fun j => tripleFactor (r (mi + j)) (r (mi + mip1 + j)) (r j)) (oneSub (r (mi - 1))) prime
  let rop := modmult rop (oneSub (r (mi + mip1 - 2)) * oneSub (r (mi + mip1 - 1))) prime
  let rop := modmult rop (oneSub (r (mi + 2 * mip1 - 1)) * r (mi + 2 * mip1 - 2)) prime
  checkWiring rop r (ni - 1) (nip1 - 1) (nip1 - 1) mi mip1 prime

/-- `FLT_mul_lvl1`. -/
def fltMulLvl1 : MleFn := f2MultD

/-- `FLT_mul_lvl2`. -/
def fltMulLvl2 : MleFn := fun r mi mip1 _ _ prime =>
  checkEqual (r 0) [offset r 1, offset r mi, offset r (mi + mip1)] 0 mip1 prime

/-- `FLT_add_lvl2`. -/
def fltAddLvl2 : MleFn := fun r mi mip1 _ nip1 prime =>
  -- the halves of even labels are compared with the second input
  let ans := checkEqual (oneSub (r 0)) [offset r 1, offset r (mi + mip1)] 0 mip1 prime
  modmult (chi (nip1 - 1) (offset r mi) mip1 prime) ans prime

/-- `FLT_add`. -/
def fltAdd (bit : Bool) : MleFn := fun r mi mip1 ni nip1 prime =>
  if bit then checkWiring 0 r (ni - 1) (nip1 - 1) (nip1 - 1) mi mip1 prime
  else
    let ans1 := checkEqual (oneSub (r 0)) [r, offset r mi] 0 mi prime
    mulChi ans1 (nip1 - 1) (offset r (mi + mip1)) mip1 prime

/-- `FLT_mul`. -/
def fltMul (bit : Bool) : MleFn := fun r mi mip1 ni nip1 prime =>
  -- from the lowest bit on, which is compared again below
  let ans1 := checkEqual 1 [r, offset r mi, offset r (mi + mip1)] 0 (mi - 1) prime
  let ans2 := ans1
  let ans1 :=
    if bit then
      ans1 * oneSub (r 0) * (oneSub (r mi) * r (mi + mip1)) -
        checkWiring 0 r (ni - 1) (nip1 - 1) (nip1 - 1) mi mip1 prime
    else 0
  let ans2 := ans2 * r 0 * (r mi * r (mi + mip1))
  modmult (ans1 + ans2) (oneSub (r (mi - 1))) prime

/-- `F0mult_d`. -/
def f0MultD : MleFn := reduce

/-! ## Modulo a prime -/

section Cast

variable {p : ℕ}

theorem cast_multLoop (n : ℕ) (f : ℕ → ℤ) (ans : ℤ) :
    ((multLoop n f ans p : ℤ) : ZMod p) = ans * ∏ j ∈ Finset.range n, ((f j : ℤ) : ZMod p) := by
  rw [multLoop]
  refine forLoop_induction
    (P := fun k (x : ℤ) => (x : ZMod p) = ans * ∏ j ∈ Finset.range k, ((f j : ℤ) : ZMod p))
    (by simp) ?_
  intro k _ x hx
  rw [cast_modmult, hx, Finset.prod_range_succ, mul_assoc]

theorem prod_pairFactor (a b : Vec) (n : ℕ) :
    ∏ j ∈ Finset.range n, ((pairFactor (a j) (b j) : ℤ) : ZMod p) =
      agreement [castVec p a, castVec p b] n := by
  refine Finset.prod_congr rfl fun j _ => ?_
  simp only [pairFactor, agreementFactor, castVec_apply, List.map_cons, List.map_nil,
    List.prod_cons, List.prod_nil, Int.cast_add, Int.cast_mul, cast_oneSub]
  ring

theorem agreement_pair_comm (u v : ℕ → ZMod p) (n : ℕ) :
    agreement [u, v] n = agreement [v, u] n := by
  refine Finset.prod_congr rfl fun j _ => ?_
  simp only [agreementFactor, List.map_cons, List.map_nil, List.prod_cons, List.prod_nil]
  ring

theorem prod_tripleFactor (a b c : Vec) (n : ℕ) :
    ∏ j ∈ Finset.range n, ((tripleFactor (a j) (b j) (c j) : ℤ) : ZMod p) =
      agreement [castVec p a, castVec p b, castVec p c] n := by
  refine Finset.prod_congr rfl fun j _ => ?_
  simp only [tripleFactor, agreementFactor, castVec_apply, List.map_cons, List.map_nil,
    List.prod_cons, List.prod_nil, Int.cast_add, Int.cast_mul, cast_oneSub]
  ring

theorem prod_oneSub (a : Vec) (n : ℕ) :
    ∏ j ∈ Finset.range n, (1 - ((a j : ℤ) : ZMod p)) = lagrange (castVec p a) n 0 := by
  refine Finset.prod_congr rfl fun j _ => ?_
  rw [Nat.zero_testBit, bitFactor_false, castVec_apply]

theorem lagrange_one_zero (x : ℕ → ZMod p) : lagrange x 1 0 = 1 - x 0 :=
  Finset.prod_range_one _

theorem lagrange_two_zero (x : ℕ → ZMod p) : lagrange x 2 0 = (1 - x 0) * (1 - x 1) := by
  rw [lagrange_succ, lagrange_one_zero]
  rfl

end Cast

/-! ## Gates that carry the claimed result -/

section Carry

variable {p : ℕ} (x : ℕ → ZMod p)

/-- A label behind `2 ^ (k + n)` data gates. -/
theorem lagrange_behind {k t : ℕ} (n : ℕ) (ht : t < 2 ^ k) :
    lagrange x (k + n + 1) (2 ^ (k + n) + t) =
      lagrange x k t * (lagrange (shiftPoint k x) n 0 * x (k + n)) := by
  have hlow : lagrange x (k + n) t = lagrange x k t * lagrange (shiftPoint k x) n 0 :=
    lagrange_digits x ht n 0
  have ht' : t < 2 ^ (k + n) :=
    ht.trans_le (Nat.pow_le_pow_right Nat.two_pos (Nat.le_add_right k n))
  rw [Nat.add_comm (2 ^ (k + n)), lagrange_succ_add x ht', hlow, mul_assoc]

/-- The gates that add the gate `b` to those behind the data gates. -/
theorem sum_carry (k n m b : ℕ) :
    ∑ t ∈ Finset.range (2 ^ k),
        wireTerm .add (k + n + 1) (k + m + 1) x (2 ^ (k + n) + t) ⟨.add, 2 ^ (k + m) + t, b⟩ =
      agreement [x, shiftPoint (k + n + 1) x] k *
        (lagrange (shiftPoint k x) n 0 * x (k + n) *
          (lagrange (shiftPoint k (shiftPoint (k + n + 1) x)) m 0 *
            shiftPoint (k + n + 1) x (k + m)) *
          lagrange (shiftPoint (k + n + 1 + (k + m + 1)) x) (k + m + 1) b) := by
  refine sum_eq_agreement_two _ _ _ fun t ht => ?_
  rw [wireTerm_self, lagrange_behind x n ht, lagrange_behind _ m ht]
  ring

/-- The same with one more bit in the labels of the level. -/
theorem sum_carry_wide (k m b : ℕ) :
    ∑ t ∈ Finset.range (2 ^ k),
        wireTerm .add (k + 2) (k + m + 1) x (2 ^ k + t) ⟨.add, 2 ^ (k + m) + t, b⟩ =
      agreement [x, shiftPoint (k + 2) x] k *
        (x k * (1 - x (k + 1)) *
          (lagrange (shiftPoint k (shiftPoint (k + 2) x)) m 0 * shiftPoint (k + 2) x (k + m)) *
          lagrange (shiftPoint (k + 2 + (k + m + 1)) x) (k + m + 1) b) := by
  refine sum_eq_agreement_two _ _ _ fun t ht => ?_
  have hlt : 2 ^ k + t < 2 ^ (k + 1) := by
    rw [pow_succ, mul_two]
    exact Nat.add_lt_add_left ht _
  rw [wireTerm_self, lagrange_succ_lt x hlt, Nat.add_comm (2 ^ k), lagrange_succ_add x ht,
    lagrange_behind _ m ht]
  ring

/-- Pairs of the level before, which has `2 ^ (k + 1)` data gates. -/
theorem sum_pairs (k e : ℕ) :
    ∑ g ∈ Finset.range (2 ^ k), wireTerm .add (k + e) (k + 2) x g ⟨.add, 2 * g, 2 * g + 1⟩ =
      agreement [shiftPoint 1 (shiftPoint (k + e) x), shiftPoint 1 (shiftPoint (k + e + (k + 2)) x),
          x] k *
        (lagrange (shiftPoint k x) e 0 * (1 - shiftPoint (k + e) x (k + 1)) *
          (1 - shiftPoint (k + e + (k + 2)) x (k + 1)) *
          ((1 - shiftPoint (k + e) x 0) * shiftPoint (k + e + (k + 2)) x 0)) := by
  refine sum_eq_agreement_three _ _ _ _ fun g hg => ?_
  have hz : lagrange x (k + e) g = lagrange x k g * lagrange (shiftPoint k x) e 0 :=
    lagrange_digits x hg e 0
  rw [wireTerm_self, hz, lagrange_two_mul, lagrange_two_mul_add_one, lagrange_succ_lt _ hg,
    lagrange_succ_lt _ hg]
  simp only [shiftPoint, Nat.add_comm 1]
  ring

/-- A gate and the one `2 ^ k` behind it. -/
theorem sum_halves (k : ℕ) :
    ∑ g ∈ Finset.range (2 ^ k), wireTerm .add (k + 1) (k + 2) x g ⟨.add, g, 2 ^ k + g⟩ =
      agreement [shiftPoint (k + 1) x, shiftPoint (k + 1 + (k + 2)) x, x] k *
        ((1 - x k) * ((1 - shiftPoint (k + 1) x k) * (1 - shiftPoint (k + 1) x (k + 1))) *
          (shiftPoint (k + 1 + (k + 2)) x k * (1 - shiftPoint (k + 1 + (k + 2)) x (k + 1)))) := by
  refine sum_eq_agreement_three _ _ _ _ fun g hg => ?_
  have hg' : g < 2 ^ (k + 1) := hg.trans (Nat.pow_lt_pow_succ one_lt_two)
  have hsum : 2 ^ k + g < 2 ^ (k + 1) := by
    rw [pow_succ, mul_two]
    exact Nat.add_lt_add_left hg _
  rw [wireTerm_self, lagrange_succ_lt _ hg, lagrange_succ_lt _ hg', lagrange_succ_lt _ hg,
    lagrange_succ_lt _ hsum, Nat.add_comm (2 ^ k) g, lagrange_succ_add _ hg]
  ring

end Carry

section Levels

variable {p : ℕ} (r : Vec)

/-- `check_wiring` adds one gate. -/
theorem cast_checkWiring_add (rop : ℤ) (out in1 in2 mi mip1 : ℕ) :
    ((checkWiring rop r out in1 in2 mi mip1 p : ℤ) : ZMod p) =
      rop + wireTerm .add mi mip1 (castVec p r) out ⟨.add, in1, in2⟩ := by
  rw [cast_checkWiring, wireTerm_self]

/-- The claimed products are carried over the level of the products. -/
theorem cast_matAdd63P3d (d ni nip1 : ℕ) :
    ((matAdd63P3d r (2 * d + d + 1) (2 * d + 1 + 1) ni nip1 p : ℤ) : ZMod p) =
      ∑ t ∈ Finset.range (2 ^ (2 * d)),
          wireTerm .add (2 * d + d + 1) (2 * d + 1 + 1) (castVec p r) (2 ^ (2 * d + d) + t)
            ⟨.add, 2 ^ (2 * d + 1) + t, nip1 - 1⟩ +
        wireTerm .add (2 * d + d + 1) (2 * d + 1 + 1) (castVec p r) (ni - 1)
          ⟨.add, nip1 - 1, nip1 - 1⟩ := by
  have hd : (2 * d + d) / 3 = d := by omega
  have hlast : 2 * d + d + 1 - 1 = 2 * d + d := rfl
  have hzero : ∏ j ∈ Finset.range d, (1 - ((r (2 * d + j) : ℤ) : ZMod p)) =
      lagrange (shiftPoint (2 * d) (castVec p r)) d 0 := prod_oneSub (offset r (2 * d)) d
  have hpairs : ∏ j ∈ Finset.range (2 * d),
      ((pairFactor (r (2 * d + d + 1 + j)) (r j) : ℤ) : ZMod p) =
        agreement [castVec p r, shiftPoint (2 * d + d + 1) (castVec p r)] (2 * d) :=
    (prod_pairFactor (offset r (2 * d + d + 1)) r (2 * d)).trans (agreement_pair_comm _ _ _)
  rw [sum_carry]
  simp only [matAdd63P3d, hd, hlast, cast_checkWiring_add, cast_mulChi, cast_multLoop,
    cast_modmult, hzero, hpairs, Int.cast_mul, cast_oneSub, castVec_offset, lagrange_one_zero]
  simp only [shiftPoint, castVec_apply, Nat.add_zero, ← Nat.add_assoc]
  ring

/-- The products. -/
theorem cast_matMult63P3d (d ni nip1 : ℕ) :
    ((matMult63P3d r (2 * d + d + 1) (2 * d + 1 + 1) ni nip1 p : ℤ) : ZMod p) =
      agreement [shiftPoint (2 * d) (castVec p r),
          shiftPoint d (shiftPoint (2 * d + d + 1) (castVec p r))] d *
        agreement [shiftPoint (2 * d + d + 1) (castVec p r),
          shiftPoint d (shiftPoint (2 * d + d + 1 + (2 * d + 1 + 1)) (castVec p r)),
          castVec p r] d *
        agreement [shiftPoint d (castVec p r),
          shiftPoint (2 * d + d + 1 + (2 * d + 1 + 1)) (castVec p r)] d *
        ((1 - castVec p r (2 * d + d)) *
          ((1 - shiftPoint (2 * d + d + 1) (castVec p r) (2 * d)) *
            (1 - shiftPoint (2 * d + d + 1) (castVec p r) (2 * d + 1))) *
          (shiftPoint (2 * d + d + 1 + (2 * d + 1 + 1)) (castVec p r) (2 * d) *
            (1 - shiftPoint (2 * d + d + 1 + (2 * d + 1 + 1)) (castVec p r) (2 * d + 1)))) := by
  have hd : (2 * d + d) / 3 = d := by omega
  have hz : 2 * d + d + 1 - 1 = 2 * d + d := rfl
  have hu : 2 * d + d + 1 + (2 * d + 1 + 1) - 1 = 2 * d + d + 1 + 2 * d + 1 := rfl
  have hu' : 2 * d + d + 1 + (2 * d + 1 + 1) - 2 = 2 * d + d + 1 + 2 * d := rfl
  have hv : 2 * d + d + 1 + 2 * (2 * d + 1 + 1) - 1 =
      2 * d + d + 1 + 2 * d + 1 + 1 + 2 * d + 1 := by omega
  have hv' : 2 * d + d + 1 + 2 * (2 * d + 1 + 1) - 2 =
      2 * d + d + 1 + 2 * d + 1 + 1 + 2 * d := by omega
  have hrow : ∏ j ∈ Finset.range d,
      ((pairFactor (r (2 * d + j)) (r (2 * d + d + 1 + d + j)) : ℤ) : ZMod p) =
        agreement [shiftPoint (2 * d) (castVec p r),
          shiftPoint (2 * d + d + 1 + d) (castVec p r)] d :=
    prod_pairFactor (offset r (2 * d)) (offset r (2 * d + d + 1 + d)) d
  have hsummand : ∏ j ∈ Finset.range d,
      ((tripleFactor (r (2 * d + d + 1 + j)) (r (2 * d + d + 1 + (2 * d + 1 + 1) + d + j)) (r j) :
        ℤ) : ZMod p) =
        agreement [shiftPoint (2 * d + d + 1) (castVec p r),
          shiftPoint (2 * d + d + 1 + (2 * d + 1 + 1) + d) (castVec p r), castVec p r] d :=
    prod_tripleFactor (offset r (2 * d + d + 1))
      (offset r (2 * d + d + 1 + (2 * d + 1 + 1) + d)) r d
  have hcolumn : ∏ j ∈ Finset.range d,
      ((pairFactor (r (d + j)) (r (2 * d + d + 1 + (2 * d + 1 + 1) + j)) : ℤ) : ZMod p) =
        agreement [shiftPoint d (castVec p r),
          shiftPoint (2 * d + d + 1 + (2 * d + 1 + 1)) (castVec p r)] d :=
    prod_pairFactor (offset r d) (offset r (2 * d + d + 1 + (2 * d + 1 + 1))) d
  simp only [matMult63P3d, hz, hd, cast_multLoop, hrow, hsummand, hcolumn, hu, hu', hv, hv',
    cast_modmult, Int.cast_mul, cast_oneSub, ZMod.intCast_mod, shiftPoint_shiftPoint]
  simp only [shiftPoint, castVec_apply, ← Nat.add_assoc]
  ring

theorem halfLog2_four_pow (d : ℕ) : halfLog2 (2 ^ (2 * d)) = d := by
  have hfour : 2 ^ (2 * d) = 4 ^ d := pow_mul 2 2 d
  have hpos : 0 < 4 ^ d := by positivity
  rw [halfLog2, hfour, Nat.log_eq_iff (Or.inr ⟨by decide, by positivity⟩), pow_succ]
  omega

/-- The sums of the first levels, with `2 ^ (2 * d + n)` data gates. -/
theorem cast_matAddBelow63P3d (d n nip1 : ℕ) :
    ((matAddBelow63P3d r (2 * d + n + 1) (2 * d + n + 2)
        (2 ^ (2 * d + n) + 2 ^ (2 * d) + 1) nip1 p : ℤ) : ZMod p) =
      ∑ g ∈ Finset.range (2 ^ (2 * d + n)),
          wireTerm .add (2 * d + n + 1) (2 * d + n + 2) (castVec p r) g
            ⟨.add, 2 * g, 2 * g + 1⟩ +
        (∑ t ∈ Finset.range (2 ^ (2 * d)),
            wireTerm .add (2 * d + n + 1) (2 * d + n + 2) (castVec p r) (2 ^ (2 * d + n) + t)
              ⟨.add, 2 ^ (2 * d + n + 1) + t, nip1 - 1⟩ +
          wireTerm .add (2 * d + n + 1) (2 * d + n + 2) (castVec p r)
            (2 ^ (2 * d + n) + 2 ^ (2 * d)) ⟨.add, nip1 - 1, nip1 - 1⟩) := by
  have hz : 2 * d + n + 1 - 1 = 2 * d + n := rfl
  have hnSquared : 2 ^ (2 * d + n) + 2 ^ (2 * d) + 1 - 2 ^ (2 * d + n) - 1 = 2 ^ (2 * d) := by
    rw [Nat.add_assoc, Nat.add_sub_cancel_left, Nat.add_sub_cancel]
  have hi : ((d : ℤ) - ((2 * d + n + 1 : ℕ) - 1 - 3 * d) * (-1)).toNat = n := by omega
  have hi' : ((d : ℤ) - ((2 * d + n + 1 : ℕ) - 1 - 3 * d) * (-1) + 1).toNat = n + 1 := by omega
  have hu : 2 * d + n + 1 + (2 * d + n + 2) - 1 = 2 * d + n + 1 + (2 * d + n + 1) := rfl
  have hv : 2 * d + n + 1 + 2 * (2 * d + n + 2) - 1 =
      2 * d + n + 1 + (2 * d + n + 2) + (2 * d + n + 1) := by omega
  have hpairs : ∏ j ∈ Finset.range (2 * d + n),
      ((tripleFactor (r (2 * d + n + 1 + j + 1)) (r (2 * d + n + 1 + (2 * d + n + 2) + j + 1))
        (r j) : ℤ) : ZMod p) =
        agreement [shiftPoint 1 (shiftPoint (2 * d + n + 1) (castVec p r)),
          shiftPoint 1 (shiftPoint (2 * d + n + 1 + (2 * d + n + 2)) (castVec p r)),
          castVec p r] (2 * d + n) := by
    simp only [Nat.add_right_comm _ _ 1, shiftPoint_shiftPoint]
    exact prod_tripleFactor (offset r _) (offset r _) r _
  have hzero : ∏ j ∈ Finset.range n, (1 - ((r (2 * d + j) : ℤ) : ZMod p)) =
      lagrange (shiftPoint (2 * d) (castVec p r)) n 0 := prod_oneSub (offset r (2 * d)) n
  have hzero' : ∏ j ∈ Finset.range (n + 1),
      (1 - ((r (2 * d + n + 1 + 2 * d + j) : ℤ) : ZMod p)) =
      lagrange (shiftPoint (2 * d) (shiftPoint (2 * d + n + 1) (castVec p r))) (n + 1) 0 := by
    rw [shiftPoint_shiftPoint]
    exact prod_oneSub (offset r (2 * d + n + 1 + 2 * d)) (n + 1)
  have hcarry : ∏ j ∈ Finset.range (2 * d),
      ((pairFactor (r j) (r (2 * d + n + 1 + j)) : ℤ) : ZMod p) =
        agreement [castVec p r, shiftPoint (2 * d + n + 1) (castVec p r)] (2 * d) :=
    prod_pairFactor r (offset r (2 * d + n + 1)) (2 * d)
  rw [sum_pairs (castVec p r) (2 * d + n) 1, lagrange_one_zero]
  refine Eq.trans ?_ (congrArg (fun y => _ + (y + _))
    (sum_carry (castVec p r) (2 * d) n (n + 1) (nip1 - 1)).symm)
  simp only [matAddBelow63P3d, hz, hnSquared, halfLog2_four_pow, hi, hi', hu, hv, cast_modadd,
    cast_modmult, cast_mulChi, cast_multLoop, cast_checkWiring_add, Nat.add_sub_cancel,
    Int.cast_add, Int.cast_mul, Int.cast_zero, zero_add, cast_oneSub, hpairs, hzero, hzero',
    hcarry, castVec_offset]
  simp only [shiftPoint, castVec_apply, Nat.add_zero, ← Nat.add_assoc]
  ring

/-- The last sums. -/
theorem cast_matAdd61P2dp1 (d nip1 : ℕ) :
    ((matAdd61P2dp1 r (2 * d + 2) (2 * d + 2) (2 ^ (2 * d) + 2 ^ (2 * d) + 1) nip1 p : ℤ) :
        ZMod p) =
      ∑ g ∈ Finset.range (2 ^ (2 * d)),
          wireTerm .add (2 * d + 2) (2 * d + 2) (castVec p r) g ⟨.add, 2 * g, 2 * g + 1⟩ +
        (∑ t ∈ Finset.range (2 ^ (2 * d)),
            wireTerm .add (2 * d + 2) (2 * d + 2) (castVec p r) (2 ^ (2 * d) + t)
              ⟨.add, 2 ^ (2 * d + 1) + t, nip1 - 1⟩ +
          wireTerm .add (2 * d + 2) (2 * d + 2) (castVec p r) (2 ^ (2 * d) + 2 ^ (2 * d))
            ⟨.add, nip1 - 1, nip1 - 1⟩) := by
  have hz : 2 * d + 2 - 1 = 2 * d + 1 := rfl
  have hz' : 2 * d + 2 - 2 = 2 * d := rfl
  have hnSquared : 2 ^ (2 * d) + 2 ^ (2 * d) + 1 - 2 ^ (2 * d) - 1 = 2 ^ (2 * d) := by
    rw [Nat.add_assoc, Nat.add_sub_cancel_left, Nat.add_sub_cancel]
  have hu : 2 * d + 2 + (2 * d + 2) - 1 = 2 * d + 2 + (2 * d + 1) := rfl
  have hu' : 2 * d + 2 + (2 * d + 2) - 2 = 2 * d + 2 + 2 * d := rfl
  have hv : 2 * d + 2 + 2 * (2 * d + 2) - 1 = 2 * d + 2 + (2 * d + 2) + (2 * d + 1) := by omega
  have hpairs : ∏ j ∈ Finset.range (2 * d),
      ((tripleFactor (r (2 * d + 2 + j + 1)) (r (2 * d + 2 + (2 * d + 2) + j + 1)) (r j) : ℤ) :
        ZMod p) =
        agreement [shiftPoint 1 (shiftPoint (2 * d + 2) (castVec p r)),
          shiftPoint 1 (shiftPoint (2 * d + 2 + (2 * d + 2)) (castVec p r)),
          castVec p r] (2 * d) := by
    simp only [Nat.add_right_comm _ _ 1, shiftPoint_shiftPoint]
    exact prod_tripleFactor (offset r _) (offset r _) r _
  have hcarry : ∏ j ∈ Finset.range (2 * d),
      ((pairFactor (r j) (r (2 * d + 2 + j)) : ℤ) : ZMod p) =
        agreement [castVec p r, shiftPoint (2 * d + 2) (castVec p r)] (2 * d) :=
    prod_pairFactor r (offset r (2 * d + 2)) (2 * d)
  rw [sum_pairs (castVec p r) (2 * d) 2, lagrange_two_zero]
  refine Eq.trans ?_ (congrArg (fun y => _ + (y + _))
    (sum_carry_wide (castVec p r) (2 * d) 1 (nip1 - 1)).symm)
  simp only [matAdd61P2dp1, hz, hz', hnSquared, halfLog2_four_pow, hu, hu', hv, cast_modadd,
    cast_modmult, cast_mulChi, cast_multLoop, cast_checkWiring_add, Nat.add_sub_cancel,
    Int.cast_add, Int.cast_mul, Int.cast_zero, zero_add, cast_oneSub, hpairs, hcarry,
    castVec_offset, lagrange_one_zero]
  simp only [shiftPoint, castVec_apply, Nat.add_zero, ← Nat.add_assoc]
  ring

/-- The sums are compared with the claimed products. -/
theorem cast_matAdd61P2d (d ni nip1 : ℕ) :
    ((matAdd61P2d r (2 * d + 1) (2 * d + 2) ni nip1 p : ℤ) : ZMod p) =
      ∑ g ∈ Finset.range (2 ^ (2 * d)),
          wireTerm .add (2 * d + 1) (2 * d + 2) (castVec p r) g ⟨.add, g, 2 ^ (2 * d) + g⟩ +
        wireTerm .add (2 * d + 1) (2 * d + 2) (castVec p r) (ni - 1)
          ⟨.add, nip1 - 1, nip1 - 1⟩ := by
  have hz : 2 * d + 1 - 1 = 2 * d := rfl
  have hu : 2 * d + 1 + (2 * d + 2) - 1 = 2 * d + 1 + (2 * d + 1) := rfl
  have hu' : 2 * d + 1 + (2 * d + 2) - 2 = 2 * d + 1 + 2 * d := rfl
  have hv : 2 * d + 1 + 2 * (2 * d + 2) - 1 = 2 * d + 1 + (2 * d + 2) + (2 * d + 1) := by omega
  have hv' : 2 * d + 1 + 2 * (2 * d + 2) - 2 = 2 * d + 1 + (2 * d + 2) + 2 * d := by omega
  have htriples : ∏ j ∈ Finset.range (2 * d),
      ((tripleFactor (r (2 * d + 1 + j)) (r (2 * d + 1 + (2 * d + 2) + j)) (r j) : ℤ) :
        ZMod p) =
        agreement [shiftPoint (2 * d + 1) (castVec p r),
          shiftPoint (2 * d + 1 + (2 * d + 2)) (castVec p r), castVec p r] (2 * d) :=
    prod_tripleFactor (offset r _) (offset r _) r _
  rw [sum_halves]
  simp only [matAdd61P2d, hz, hu, hu', hv, hv', cast_modmult, cast_multLoop,
    cast_checkWiring_add, Int.cast_mul, cast_oneSub, htriples]
  simp only [shiftPoint, castVec_apply, ← Nat.add_assoc]
  ring

end Levels

end Pepper.Cmtgkr.MatmulPredicates
