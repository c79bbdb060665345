import Pepper.Common.Gmp
import Pepper.Foundations.Multilinear
import Mathlib.LinearAlgebra.Lagrange

/-!
# Arithmetic of the interactive proof

The helpers of `cmtgkr_env.cpp`: modular operations, Lagrange polynomials of gate
indices (`chi`, `computeChiAll`), evaluations of layers (`evaluateVi`,
`evaluateVChis`, `evaluateBeta`) and extrapolation from the points `0`, `1`, `2`, ...
Each has one lemma that reads it modulo `p`.
-/

set_option autoImplicit false

open Pepper.Common.Gmp Pepper.Foundations.Loop Pepper.Foundations.Multilinear

namespace Pepper.Cmtgkr.Env

/-! ## The code -/

/-- `log2i`: one for a single gate, otherwise the logarithm rounded up. -/
def log2i (n : ℕ) : ℕ := if n = 1 then 1 else Nat.clog 2 n

/-- `modmult`. -/
def modmult (op1 op2 prime : ℤ) : ℤ := op1 * op2 % prime

/-- `addmodmult`. -/
def addmodmult (rop op1 op2 prime : ℤ) : ℤ := (rop + op1 * op2) % prime

/-- `addmodmult_si`: for a negative factor the old value is negated as well. -/
def addmodmultSi (rop op1 op2 prime : ℤ) : ℤ :=
  (if op2 < 0 then -(rop + op1 * |op2|) else rop + op1 * |op2|) % prime

/-- `modadd`. -/
def modadd (op1 op2 prime : ℤ) : ℤ := (op1 + op2) % prime

/-- `modsub`. -/
def modsub (op1 op2 prime : ℤ) : ℤ := (op1 - op2) % prime

/-- `one_sub`. -/
def oneSub (op : ℤ) : ℤ := 1 - op

/-- `mulmle_si`. -/
def mulmleSi (rop pt val0 val1 prime : ℤ) : ℤ :=
  if pt = 0 then modmult rop val0 prime
  else if pt = 1 then modmult rop val1 prime
  else modmult rop (addmodmultSi (val0 * (1 - pt)) val1 pt prime) prime

/-- `mle_si`. -/
def mleSi (pt val0 val1 prime : ℤ) : ℤ := mulmleSi 1 pt val0 val1 prime

/-- `mulmle`. -/
def mulmle (rop pt val0 val1 prime : ℤ) : ℤ := modmult rop (oneSub pt * val0 + pt * val1) prime

/-- `mle`. -/
def mle (pt val0 val1 prime : ℤ) : ℤ := mulmle 1 pt val0 val1 prime

/-- `mul_chi`. -/
def mulChi (rop : ℤ) (v : ℕ) (r : Vec) (n : ℕ) (prime : ℤ) : ℤ :=
  forLoop n
    (fun i rop =>
      if v.testBit i then modmult rop (r i) prime else modmult rop (oneSub (r i)) prime)
    rop

/-- `chi`. -/
def chi (v : ℕ) (r : Vec) (n : ℕ) (prime : ℤ) : ℤ := mulChi 1 v r n prime

/-- One pass of both `computeChiAll` functions on an array of `n` cells: the upper half
from the lower one, then `scaled` cells of the lower half. -/
def chiAllPass (n scaled logi : ℕ) (r prime : ℤ) (rop : Vec) : Vec :=
  forLoop scaled (fun i rop => Function.update rop i (modmult (rop i) (oneSub r) prime))
    (forLoop (min (2 * 2 ^ logi) n - 2 ^ logi)
      (fun i rop => Function.update rop (2 ^ logi + i) (modmult (rop i) r prime)) rop)

/-- `computeChiAll` of `cmtgkr_env.cpp`, for an array of `n` cells and `size` coordinates. -/
def computeChiAll (n : ℕ) (rop : Vec) (size : ℕ) (r : Vec) (prime : ℤ) : Vec :=
  if n = 0 then rop
  else
    forLoop size (fun logi rop => chiAllPass n (min (2 ^ logi) n) logi (r logi) prime rop)
      (Function.update rop 0 1)

/-- `evaluate_beta`. -/
def evaluateBeta (z r : Vec) (n : ℕ) (prime : ℤ) : ℤ :=
  forLoop n (fun i prod => mulmle prod (z i) (oneSub (r i)) (r i) prime) 1

/-- `evaluate_V_chis` on a layer of `size` gates with the given values. -/
def evaluateVChis (size : ℕ) (values chis : Vec) (prime : ℤ) : ℤ :=
  forLoop size (fun i ans => if values i ≠ 0 then ans + values i * chis i else ans) 0 % prime

/-- `evaluate_V_i`. -/
def evaluateVi (size : ℕ) (values r : Vec) (prime : ℤ) : ℤ :=
  forLoop size
    (fun k ans => addmodmult ans (values k) (chi k r (log2i size) prime) prime) 0

/-- `extrap`: the polynomial with value `vec[i]` at `i`, at the point `r`. -/
def extrap (vec : Vec) (n : ℕ) (r prime : ℤ) : ℤ :=
  forLoop n
    (fun i out =>
      let mult := forLoop n
        (fun j mult =>
          if i ≠ j then
            modmult (mult * mpzInvert (i - j) (i - j) prime) (r - j) prime
          else mult)
        1
      addmodmult out mult (vec i) prime)
    0

/-- `bary_precompute_weights3`. -/
def baryPrecomputeWeights3 (r prime : ℤ) : Vec := fun i =>
  let half := (prime + 1).tdiv 2
  if i = 0 then modmult ((r - 1) * (r - 2)) half prime
  else if i = 1 then modmult ((r - 2) * (r - 0)) (-1) prime
  else modmult ((r - 0) * (r - 1)) half prime

/-- `bary_precompute_weights` for `n` points: `w_i` inverted with its factor `r - i`, then
scaled by the product of all factors. -/
def baryPrecomputeWeights (n : ℕ) (r prime : ℤ) : Vec :=
  let run : Vec × ℤ :=
    forLoop n
      (fun i s =>
        let w := forLoop n (fun j w => if i ≠ j then w * ((i : ℤ) - j) else w) 1 * (r - i)
        (Function.update s.1 i (mpzInvert w w prime), modmult s.2 (r - i) prime))
      (zeroVec, 1)
  forLoop n (fun i weights => Function.update weights i (modmult (weights i) run.2 prime)) run.1

/-- One entry of `bary_extrap`. -/
def baryExtrap (n : ℕ) (y weights : Vec) (prime : ℤ) : ℤ :=
  forLoop n (fun i acc => acc + weights i * y i) 0 % prime

/-! ## Readings modulo `p` -/

variable {p : ℕ}

@[simp] theorem cast_modmult (a b : ℤ) : ((modmult a b p : ℤ) : ZMod p) = a * b := by
  rw [modmult, ZMod.intCast_mod, Int.cast_mul]

@[simp] theorem cast_addmodmult (rop a b : ℤ) :
    ((addmodmult rop a b p : ℤ) : ZMod p) = rop + a * b := by
  rw [addmodmult, ZMod.intCast_mod, Int.cast_add, Int.cast_mul]

@[simp] theorem cast_modadd (a b : ℤ) : ((modadd a b p : ℤ) : ZMod p) = a + b := by
  rw [modadd, ZMod.intCast_mod, Int.cast_add]

@[simp] theorem cast_modsub (a b : ℤ) : ((modsub a b p : ℤ) : ZMod p) = a - b := by
  rw [modsub, ZMod.intCast_mod, Int.cast_sub]

@[simp] theorem cast_oneSub (a : ℤ) : ((oneSub a : ℤ) : ZMod p) = 1 - a := by
  rw [oneSub, Int.cast_sub, Int.cast_one]

@[simp] theorem cast_mulmle (rop pt val0 val1 : ℤ) :
    ((mulmle rop pt val0 val1 p : ℤ) : ZMod p) = rop * ((1 - pt) * val0 + pt * val1) := by
  simp [mulmle]

@[simp] theorem cast_mle (pt val0 val1 : ℤ) :
    ((mle pt val0 val1 p : ℤ) : ZMod p) = (1 - pt) * val0 + pt * val1 := by
  simp [mle]

/-- The integer version at any point. Below zero the product with `val0` has the wrong sign. -/
theorem cast_mulmleSi (rop pt val0 val1 : ℤ) :
    ((mulmleSi rop pt val0 val1 p : ℤ) : ZMod p) =
      rop * ((if pt < 0 then -1 else 1) * ((1 - pt) * val0) + pt * val1) := by
  rw [mulmleSi]
  by_cases hzero : pt = 0
  · simp [hzero]
  by_cases hone : pt = 1
  · simp [hone]
  rw [if_neg hzero, if_neg hone, cast_modmult, addmodmultSi, ZMod.intCast_mod]
  by_cases hneg : pt < 0
  · rw [if_pos hneg, if_pos hneg, abs_of_neg hneg]
    push_cast
    ring
  · rw [if_neg hneg, if_neg hneg, abs_of_nonneg (not_lt.1 hneg)]
    push_cast
    ring

/-- The line through two values at the integer points `0`, `1`, `2`, ... -/
theorem cast_mleSi {pt : ℤ} (hpt : 0 ≤ pt) (val0 val1 : ℤ) :
    ((mleSi pt val0 val1 p : ℤ) : ZMod p) = (1 - pt) * val0 + pt * val1 := by
  rw [mleSi, cast_mulmleSi, if_neg (not_lt.2 hpt), Int.cast_one, one_mul, one_mul]

/-! ### Lagrange polynomials -/

theorem cast_mulChi (rop : ℤ) (v : ℕ) (r : Vec) (n : ℕ) :
    ((mulChi rop v r n p : ℤ) : ZMod p) = rop * lagrange (castVec p r) n v := by
  rw [mulChi]
  refine forLoop_induction
    (P := fun k (x : ℤ) => (x : ZMod p) = rop * lagrange (castVec p r) k v) (by simp) ?_
  intro k _ x hx
  rw [lagrange_succ, ← mul_assoc, ← hx]
  cases v.testBit k <;> simp

theorem cast_chi (v : ℕ) (r : Vec) (n : ℕ) :
    ((chi v r n p : ℤ) : ZMod p) = lagrange (castVec p r) n v := by
  rw [chi, cast_mulChi, Int.cast_one, one_mul]

theorem le_two_pow_log2i (n : ℕ) : n ≤ 2 ^ log2i n := by
  rw [log2i]
  split_ifs with h
  · rw [h]
    norm_num
  · exact Nat.le_pow_clog (by norm_num) n

theorem log2i_pos {n : ℕ} (hn : 0 < n) : 0 < log2i n := by
  rw [log2i]
  split_ifs with h
  · exact Nat.one_pos
  · exact Nat.clog_pos (by norm_num) (by omega)

/-- A pass doubles the range in which the array holds Lagrange polynomials. -/
theorem chiAllPass_spec {n scaled logi : ℕ} {r rop : Vec} (hscaled : min (2 ^ logi) n ≤ scaled)
    (hscaled' : scaled ≤ 2 ^ logi)
    (h : ∀ k < 2 ^ logi, k < n → (rop k : ZMod p) = lagrange (castVec p r) logi k) :
    ∀ k < 2 ^ (logi + 1), k < n →
      (chiAllPass n scaled logi (r logi) p rop k : ZMod p) =
        lagrange (castVec p r) (logi + 1) k := by
  intro k hk hkn
  rw [pow_succ] at hk
  rw [chiAllPass, forLoop_update_apply _ (fun _ x => modmult x (oneSub (r logi)) p),
    forLoop_upper_apply (by omega) (fun x => modmult x (r logi) p)]
  rcases Nat.lt_or_ge k (2 ^ logi) with hlt | hge
  · rw [if_pos (by omega), if_neg (by omega), cast_modmult, cast_oneSub, h k hlt hkn,
      lagrange_succ_lt _ hlt, castVec_apply]
  · obtain ⟨j, rfl⟩ : ∃ j, k = j + 2 ^ logi := ⟨k - 2 ^ logi, by omega⟩
    rw [if_neg (by omega), if_pos (by omega), Nat.add_sub_cancel, cast_modmult,
      h j (by omega) (by omega), lagrange_succ_add _ (by omega), castVec_apply]

theorem cast_computeChiAll {n size : ℕ} (rop r : Vec) (hn : n ≤ 2 ^ size) {k : ℕ} (hk : k < n) :
    (computeChiAll n rop size r p k : ZMod p) = lagrange (castVec p r) size k := by
  rw [computeChiAll, if_neg (by omega)]
  refine forLoop_induction
    (P := fun logi (a : Vec) => ∀ k < 2 ^ logi, k < n →
      (a k : ZMod p) = lagrange (castVec p r) logi k) ?_ ?_ k (by omega) hk
  · intro k hk _
    rw [pow_zero, Nat.lt_one_iff] at hk
    simp [hk]
  · intro logi _ a ha
    exact chiAllPass_spec le_rfl (min_le_left _ _) ha

/-! ### Evaluations -/

theorem cast_evaluateBeta (z r : Vec) (n : ℕ) :
    (evaluateBeta z r n p : ZMod p) = equality (castVec p z) (castVec p r) n := by
  rw [evaluateBeta]
  refine forLoop_induction
    (P := fun k (x : ℤ) => (x : ZMod p) = equality (castVec p z) (castVec p r) k) ?_ ?_
  · simp [equality]
  · intro k _ x hx
    rw [cast_mulmle, hx, equality_succ, equalityFactor, cast_oneSub, castVec_apply, castVec_apply]

/-- The values of a layer, padded with zeros. -/
def padded (p size : ℕ) (values : Vec) : ℕ → ZMod p := fun k => if k < size then values k else 0

theorem extension_padded (size : ℕ) (values : Vec) (r : ℕ → ZMod p) :
    extension (padded p size values) (log2i size) r =
      ∑ k ∈ Finset.range size, (values k : ZMod p) * lagrange r (log2i size) k := by
  have hzero : ∀ k, size ≤ k → padded p size values k = 0 := fun k hk => if_neg (not_lt.2 hk)
  rw [extension_eq_sum (le_two_pow_log2i size) hzero]
  apply Finset.sum_congr rfl
  intro k hk
  rw [padded, if_pos (Finset.mem_range.1 hk)]

theorem cast_evaluateVi (size : ℕ) (values r : Vec) :
    (evaluateVi size values r p : ZMod p) =
      extension (padded p size values) (log2i size) (castVec p r) := by
  rw [extension_padded, evaluateVi]
  refine forLoop_induction
    (P := fun k (x : ℤ) => (x : ZMod p) = ∑ k ∈ Finset.range k,
      (values k : ZMod p) * lagrange (castVec p r) (log2i size) k) (by simp) ?_
  intro k _ x hx
  rw [cast_addmodmult, hx, cast_chi, Finset.sum_range_succ]

/-- The last pass of the loop reduces. -/
theorem evaluateVi_range [Fact p.Prime] {size : ℕ} (hsize : 0 < size) (values r : Vec) :
    0 ≤ evaluateVi size values r p ∧ evaluateVi size values r p < p := by
  obtain ⟨n, rfl⟩ := Nat.exists_eq_succ_of_ne_zero (ne_of_gt hsize)
  rw [evaluateVi, forLoop_succ, addmodmult]
  exact emod_range _

theorem cast_evaluateVChis (size : ℕ) (values chis r : Vec)
    (hchis : ∀ k < size, (chis k : ZMod p) = lagrange (castVec p r) (log2i size) k) :
    (evaluateVChis size values chis p : ZMod p) =
      extension (padded p size values) (log2i size) (castVec p r) := by
  rw [extension_padded, evaluateVChis, ZMod.intCast_mod]
  refine forLoop_induction
    (P := fun k (x : ℤ) => (x : ZMod p) = ∑ k ∈ Finset.range k,
      (values k : ZMod p) * lagrange (castVec p r) (log2i size) k) (by simp) ?_
  intro k hk x hx
  rw [Finset.sum_range_succ, ← hx, ← hchis k hk]
  split_ifs with hzero
  · push_cast
    rfl
  · have hvalue : values k = 0 := not_not.1 hzero
    simp [hvalue]

/-! ### Extrapolation -/

section Extrapolation

open Polynomial

variable [Fact p.Prime]

theorem natNode_injOn {n : ℕ} (hn : n ≤ p) :
    Set.InjOn (fun i : ℕ => (i : ZMod p)) (Finset.range n) := by
  intro i hi j hj hij
  have hi' : i < n := by simpa using hi
  have hj' : j < n := by simpa using hj
  have hmod := (ZMod.natCast_eq_natCast_iff' i j p).1 hij
  rwa [Nat.mod_eq_of_lt (by omega), Nat.mod_eq_of_lt (by omega)] at hmod

theorem natNode_sub_ne_zero {n i j : ℕ} (hn : n ≤ p) (hi : i < n) (hj : j < n) (hij : i ≠ j) :
    (((i : ℤ) - j : ℤ) : ZMod p) ≠ 0 := by
  push_cast
  rw [sub_ne_zero]
  intro heq
  exact hij (natNode_injOn hn (by simpa using hi) (by simpa using hj) heq)

/-- A conditional factor in a product over a range. -/
theorem prod_range_ne {n i : ℕ} (hi : i < n) (g : ℕ → ZMod p) :
    ∏ j ∈ Finset.range n, (if i ≠ j then g j else 1) = ∏ j ∈ (Finset.range n).erase i, g j := by
  rw [← Finset.mul_prod_erase _ _ (Finset.mem_range.2 hi), if_neg (by simp), one_mul]
  apply Finset.prod_congr rfl
  intro j hj
  rw [if_pos (Finset.ne_of_mem_erase hj).symm]

/-- `extrap` evaluates the interpolating polynomial. -/
theorem cast_extrap {n : ℕ} (hn : n ≤ p) (vec : Vec) (r : ℤ) :
    (extrap vec n r p : ZMod p) =
      (Lagrange.interpolate (Finset.range n) (fun i : ℕ => (i : ZMod p)) (castVec p vec)).eval
        (r : ZMod p) := by
  -- the inner loop: a factor for each other node
  have hmult : ∀ i < n, ((forLoop n
      (fun j mult => if i ≠ j then
          modmult (mult * mpzInvert ((i : ℤ) - j) ((i : ℤ) - j) p) (r - j) p else mult) 1 : ℤ) :
        ZMod p) =
      ∏ j ∈ (Finset.range n).erase i, ((i : ZMod p) - j)⁻¹ * (r - j) := by
    intro i hi
    rw [← prod_range_ne hi]
    refine forLoop_induction
      (P := fun k (x : ℤ) => (x : ZMod p) = ∏ j ∈ Finset.range k,
        (if i ≠ j then ((i : ZMod p) - j)⁻¹ * (r - j) else 1)) (by simp) ?_
    intro j hj x hx
    rw [Finset.prod_range_succ, ← hx]
    by_cases hij : i ≠ j
    · have hne := natNode_sub_ne_zero hn hi hj hij
      rw [if_pos hij, if_pos hij, cast_modmult, Int.cast_mul, cast_mpzInvert _ _ hne]
      push_cast
      ring
    · rw [if_neg hij, if_neg hij, mul_one]
  rw [Lagrange.interpolate_apply, eval_finsetSum, extrap]
  refine forLoop_induction
    (P := fun k (x : ℤ) => (x : ZMod p) = ∑ i ∈ Finset.range k, eval (r : ZMod p)
      (C (castVec p vec i) * Lagrange.basis (Finset.range n) (fun i : ℕ => (i : ZMod p)) i))
    (by simp) ?_
  -- the outer loop adds the term of one node
  intro i hi x hx
  rw [Finset.sum_range_succ, ← hx, cast_addmodmult, hmult i hi, eval_mul, eval_C,
    Lagrange.basis, eval_prod, castVec_apply, mul_comm (vec i : ZMod p)]
  congr 2
  apply Finset.prod_congr rfl
  intro j _
  rw [Lagrange.basisDivisor, eval_mul, eval_C, eval_sub, eval_X, eval_C]

/-- The interpolating polynomial of the values of a polynomial of low degree. -/
theorem interpolate_eq {n : ℕ} (hn : n ≤ p) {f : (ZMod p)[X]} (hf : f.natDegree < n) {vec : Vec}
    (hvec : ∀ i < n, (vec i : ZMod p) = f.eval (i : ZMod p)) :
    Lagrange.interpolate (Finset.range n) (fun i : ℕ => (i : ZMod p)) (castVec p vec) = f := by
  symm
  refine Lagrange.eq_interpolate_of_eval_eq (castVec p vec) (natNode_injOn hn) ?_ ?_
  · rw [Finset.card_range]
    exact degree_le_natDegree.trans_lt (Nat.cast_lt.2 hf)
  · intro i hi
    rw [castVec_apply, hvec i (Finset.mem_range.1 hi)]

/-- The verifier's weights for the points `0`, `1` and `2`. -/
theorem cast_baryExtrap3 (hp : p ≠ 2) {f : (ZMod p)[X]} (hf : f.natDegree < 3) {y : Vec}
    (hy : ∀ i < 3, (y i : ZMod p) = f.eval (i : ZMod p)) (r : ℤ) :
    (baryExtrap 3 y (baryPrecomputeWeights3 r p) p : ZMod p) = f.eval (r : ZMod p) := by
  -- the code halves by a factor `(p + 1) / 2`
  have hhalf : 2 * (((p + 1 : ℤ).tdiv 2 : ℤ) : ZMod p) = 1 := by
    obtain ⟨m, hm⟩ := (Fact.out : p.Prime).odd_of_ne_two hp
    have hdiv : ((p : ℤ) + 1).tdiv 2 = (m : ℤ) + 1 := by
      rw [Int.tdiv_eq_ediv_of_nonneg (by positivity)]
      omega
    have hzero : ((2 * m + 1 : ℕ) : ZMod p) = 0 := by rw [← hm, ZMod.natCast_self]
    push_cast at hzero
    rw [hdiv]
    push_cast
    linear_combination hzero
  have heval : ∀ x : ZMod p, f.eval x = f.coeff 0 + f.coeff 1 * x + f.coeff 2 * x ^ 2 := by
    intro x
    rw [eval_eq_sum_range' hf]
    simp [Finset.sum_range_succ]
  have h0 := hy 0 (by norm_num)
  have h1 := hy 1 (by norm_num)
  have h2 := hy 2 (by norm_num)
  rw [heval] at h0 h1 h2
  push_cast at h0 h1 h2
  rw [baryExtrap, ZMod.intCast_mod, forLoop_add, zero_add]
  push_cast
  simp only [Finset.sum_range_succ, Finset.sum_range_zero, baryPrecomputeWeights3, if_true,
    one_ne_zero, if_false, OfNat.ofNat_ne_zero, OfNat.ofNat_ne_one, cast_modmult]
  push_cast
  rw [h0, h1, h2, heval]
  generalize ((((p : ℤ) + 1).tdiv 2 : ℤ) : ZMod p) = half at hhalf
  linear_combination
    (f.coeff 0 * (r - 1) ^ 2 + (r ^ 2 - r) * (f.coeff 1 + 2 * f.coeff 2)) * hhalf

end Extrapolation

end Pepper.Cmtgkr.Env
