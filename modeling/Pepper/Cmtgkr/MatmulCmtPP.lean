import Pepper.Cmtgkr.CmtCircuit
import Mathlib.Data.Matrix.Mul
import Mathlib.LinearAlgebra.Matrix.Notation

/-!
# Matrix multiplication in the CMT++ layout

`MatmulCircuit::constructCircuit` with `useCmtPP`: a level of all products, whose labels have the
digits of the column, of the row and of the summand, and levels that halve it. Main result
(`matmul_cmtpp`): up to dimension `2 ^ 10` the outputs are the entries of the product of the
matrices, and the specialised predicates of every level are the multilinear extensions of its
wiring. The sizes are variables of type `int`; from dimension `2 ^ 11` on the cube is zero in 32 bits
and the circuit has no outputs (`outGates_of_large`).
-/

set_option autoImplicit false

open Pepper.Common.Gmp Pepper.Foundations.Loop Pepper.Foundations.Multilinear
open Pepper.Cmtgkr.Env Pepper.Cmtgkr.Layer Pepper.Cmtgkr.Layer.CMTCircuit

namespace Pepper.Cmtgkr.MatmulCmtPP

/-! ## The code -/

/-- `mat_sq`. -/
def matSq : MleFn := fun r mi mip1 _ _ prime =>
  let w1 := offset r mi
  let w2 := offset w1 mip1
  let d := mi / 3
  let tmp := checkEqual 1 [r, w2] 0 d prime
  let tmp := checkEqual tmp [offset r d, offset w1 d] 0 d prime
  let tmp := checkEqual tmp [offset r (2 * d), w1, offset w2 d] 0 d prime
  modmult (tmp * w2 (2 * d)) (oneSub (w1 (2 * d))) prime

/-- `mat_reduce`. -/
def matReduce : MleFn := fun r mi mip1 _ _ prime =>
  let w1 := offset r mi
  let w2 := offset w1 mip1
  let tmp := checkEqual 1 [r, w1, w2] 0 (mip1 - 1) prime
  modmult (tmp * w2 (mip1 - 1)) (oneSub (w1 (mip1 - 1))) prime

/-- The two factors of the product with the label `idx`. -/
def productWiring (d : ℕ) (idx : ℕ) : GateWiring :=
  let n := 2 ^ d
  let j := idx &&& (n - 1)
  let i := (idx >>> d) &&& (n - 1)
  let k := (idx >>> (2 * d)) &&& (n - 1)
  ⟨.mul, (i <<< d) + k, n * n + (k <<< d) + j⟩

/-- The two halves of the level before. -/
def reduceWiring (size : ℕ) (idx : ℕ) : GateWiring :=
  let lower := idx &&& (size - 1)
  ⟨.add, lower, size + lower⟩

/-- The value that an `int` of 32 bits holds. -/
def toInt (x : ℤ) : ℤ := Int.bmod x (2 ^ 32)

/-- `makeLevel` with an `int` for the size; no vector has a negative size. -/
def makeIntLevel (size : ℤ) (addFn mulFn : MleFn) (c : CMTCircuit) : Option CMTCircuit :=
  if 0 ≤ size then c.makeLevel size.toNat addFn mulFn else none

/-- One pass of the loop over the levels of sums. -/
def makeSumLevel (nCubed : ℤ) (c : CMTCircuit) (i : ℕ) : Option CMTCircuit := do
  let c ← makeIntLevel (nCubed >>> (i + 1)) matReduce zero c
  pure (c.setWirings 0 (c.clayer 0).size (reduceWiring (c.clayer 0).size))

/-- `constructCircuit` with `useCmtPP`. -/
def constructCircuit (d : ℕ) : Option CMTCircuit := do
  -- `powi` has 64 bits
  let n := toInt (2 ^ d % 2 ^ 64)
  let nSquared := toInt (n * n)
  let nCubed := toInt (nSquared * n)
  let c ← makeIntLevel (toInt (2 * nSquared)) zero zero (makeShell (d + 2))
  let c := c.addInGates (c.depth - 1) 0 (toInt (2 * nSquared)).toNat
  let c ← makeIntLevel nCubed zero matSq c
  let c := c.setWirings 0 (c.clayer 0).size (productWiring d)
  let c ← (List.range d).foldlM (makeSumLevel nCubed) c
  pure (c.addOutGates 0 0 (c.layer 0).size)

/-! ## The levels -/

/-- The levels over `inputs` input gates and `nCubed` products, from the input level on. -/
def sizedLevel (d inputs nCubed : ℕ) : ℕ → CircuitLayer
  | 0 => .fresh inputs zero zero
  | 1 => (CircuitLayer.fresh nCubed zero matSq).setWirings 0 nCubed (productWiring d)
  | i + 2 => (CircuitLayer.fresh (nCubed >>> (i + 1)) matReduce zero).setWirings 0
      (nCubed >>> (i + 1)) (reduceWiring (nCubed >>> (i + 1)))

/-- The circuit of these levels. -/
def sizedCircuit (d inputs nCubed : ℕ) : CMTCircuit :=
  ofLevels 0 (d + 2) (sizedLevel d inputs nCubed) (addGatesFromLevel [] (d + 1) 0 inputs)
    (addGatesFromLevel [] 0 0 (sizedLevel d inputs nCubed (d + 1)).size)

theorem makeIntLevel_natCast (size : ℕ) (addFn mulFn : MleFn) (c : CMTCircuit) :
    makeIntLevel size addFn mulFn c = c.makeLevel size addFn mulFn :=
  if_pos (Int.natCast_nonneg size)

/-- The circuit that is built when the `int` variables hold the sizes `inputs` and `nCubed`. -/
theorem constructCircuit_sized {d inputs nCubed : ℕ}
    (hinputs : toInt (2 * toInt (toInt (2 ^ d % 2 ^ 64) * toInt (2 ^ d % 2 ^ 64))) = inputs)
    (hcubed : toInt (toInt (toInt (2 ^ d % 2 ^ 64) * toInt (2 ^ d % 2 ^ 64)) *
      toInt (2 ^ d % 2 ^ 64)) = nCubed) :
    constructCircuit d = some (sizedCircuit d inputs nCubed) := by
  let level := sizedLevel d inputs nCubed
  let ins := addGatesFromLevel [] (d + 1) 0 inputs
  have hinput : building (d + 1) 0 level (.fresh inputs zero zero) ins [] =
      ofLevels (d + 1) 1 level ins [] := building_eq rfl
  have hproducts : building d 1 level
      ((CircuitLayer.fresh nCubed zero matSq).setWirings 0 nCubed (productWiring d)) ins [] =
      ofLevels (d - 0) (0 + 2) level ins [] := building_eq rfl
  have hshift : ∀ i : ℕ, (nCubed : ℤ) >>> (i + 1) = ((nCubed >>> (i + 1) : ℕ) : ℤ) :=
    fun _ => rfl
  have hloop := foldlM_range_eq (n := d) (f := makeSumLevel nCubed)
    (g := fun i => ofLevels (d - i) (i + 2) level ins []) fun i hi => by
      obtain ⟨k, hk⟩ : ∃ k, d - i = k + 1 := ⟨d - i - 1, by omega⟩
      have hk' : d - (i + 1) = k := by omega
      simp only [makeSumLevel, hshift, makeIntLevel_natCast, hk, hk', makeLevel_ofLevels,
        Option.bind_eq_bind, Option.bind_some, clayer_building_zero, setWirings_building,
        CircuitLayer.size_fresh, Option.pure_def]
      exact congrArg some (building_eq rfl)
  rw [constructCircuit]
  simp only [hinputs, hcubed, Int.toNat_natCast, makeIntLevel_natCast, makeShell_eq _ level,
    makeLevel_ofLevels, Option.bind_eq_bind, Option.bind_some, depth_building, Nat.zero_add,
    Nat.add_sub_cancel, addInGates_building]
  rw [hinput]
  simp only [makeLevel_ofLevels, Option.bind_some, clayer_building_zero, CircuitLayer.size_fresh,
    setWirings_building]
  rw [hproducts, hloop, Option.bind_some, Nat.sub_self, addOutGates_ofLevels,
    layer_ofLevels (Nat.succ_pos _)]
  rfl

/-- The levels of the circuit for matrices of dimension `2 ^ d`, from the input level on. -/
def level (d : ℕ) : ℕ → CircuitLayer
  | 0 => .fresh (2 * (2 ^ d * 2 ^ d)) zero zero
  | 1 => (CircuitLayer.fresh (2 ^ d * 2 ^ d * 2 ^ d) zero matSq).setWirings 0
      (2 ^ d * 2 ^ d * 2 ^ d) (productWiring d)
  | i + 2 => (CircuitLayer.fresh ((2 ^ d * 2 ^ d * 2 ^ d) >>> (i + 1)) matReduce zero).setWirings 0
      ((2 ^ d * 2 ^ d * 2 ^ d) >>> (i + 1)) (reduceWiring ((2 ^ d * 2 ^ d * 2 ^ d) >>> (i + 1)))

/-- The circuit of these levels. -/
def circuit (d : ℕ) : CMTCircuit :=
  ofLevels 0 (d + 2) (level d) (addGatesFromLevel [] (d + 1) 0 (2 * (2 ^ d * 2 ^ d)))
    (addGatesFromLevel [] 0 0 (level d (d + 1)).size)

theorem sizedLevel_eq (d : ℕ) :
    sizedLevel d (2 * (2 ^ d * 2 ^ d)) (2 ^ d * 2 ^ d * 2 ^ d) = level d := by
  funext t
  match t with
  | 0 => rfl
  | 1 => rfl
  | t + 2 => rfl

theorem toInt_of_lt {n : ℕ} (hn : n < 2 ^ 31) : toInt n = n :=
  Int.bmod_eq_of_le (by omega) (by omega)

/-- Up to dimension `2 ^ 10` the sizes fit. -/
theorem constructCircuit_eq {d : ℕ} (hd : d ≤ 10) : constructCircuit d = some (circuit d) := by
  have hn : (2 : ℕ) ^ d ≤ 2 ^ 10 := Nat.pow_le_pow_right Nat.two_pos hd
  have hsquared : (2 : ℕ) ^ d * 2 ^ d ≤ 2 ^ 10 * 2 ^ 10 := Nat.mul_le_mul hn hn
  have hcubed : (2 : ℕ) ^ d * 2 ^ d * 2 ^ d ≤ 2 ^ 10 * 2 ^ 10 * 2 ^ 10 :=
    Nat.mul_le_mul hsquared hn
  have hpow : toInt (2 ^ d % 2 ^ 64) = (2 ^ d : ℕ) := by
    have hmod : (2 : ℤ) ^ d % 2 ^ 64 = (2 ^ d : ℕ) := by
      rw [Nat.cast_pow]
      refine Int.emod_eq_of_lt (by positivity) ?_
      exact_mod_cast hn.trans_lt (by norm_num)
    rw [hmod, toInt_of_lt (by omega)]
  have hsq : toInt ((2 ^ d : ℕ) * (2 ^ d : ℕ)) = (2 ^ d * 2 ^ d : ℕ) := by
    rw [← Nat.cast_mul, toInt_of_lt (by omega)]
  have hinputs : toInt (2 * toInt (toInt (2 ^ d % 2 ^ 64) * toInt (2 ^ d % 2 ^ 64))) =
      (2 * (2 ^ d * 2 ^ d) : ℕ) := by
    rw [hpow, hsq]
    exact_mod_cast toInt_of_lt (n := 2 * (2 ^ d * 2 ^ d)) (by omega)
  have hproducts : toInt (toInt (toInt (2 ^ d % 2 ^ 64) * toInt (2 ^ d % 2 ^ 64)) *
      toInt (2 ^ d % 2 ^ 64)) = (2 ^ d * 2 ^ d * 2 ^ d : ℕ) := by
    rw [hpow, hsq, ← Nat.cast_mul, toInt_of_lt (by omega)]
  rw [constructCircuit_sized hinputs hproducts, sizedCircuit, sizedLevel_eq]
  rfl

section Levels

variable {d : ℕ}

theorem cube_eq (d : ℕ) : 2 ^ d * 2 ^ d * 2 ^ d = 2 ^ (3 * d) := by
  rw [← pow_add, ← pow_add]
  congr 1
  ring

theorem size_input (d : ℕ) : (level d 0).size = 2 ^ (2 * d + 1) := by
  rw [level, CircuitLayer.size_fresh, ← pow_add, pow_succ, two_mul]
  ring

/-- Every level after the products has half of the gates of the one before. -/
theorem size_level {t : ℕ} (ht : t ≤ 3 * d) : (level d (t + 1)).size = 2 ^ (3 * d - t) := by
  cases t with
  | zero => rw [level, CircuitLayer.size_setWirings, CircuitLayer.size_fresh, cube_eq, Nat.sub_zero]
  | succ i =>
      rw [level, CircuitLayer.size_setWirings, CircuitLayer.size_fresh, cube_eq,
        Nat.shiftRight_eq_div_pow, Nat.pow_div ht Nat.two_pos]

/-- A label with the digits `j`, `i` and `k` has the factors of row `i` and column `k`, and of row
`k` and column `j`. -/
theorem productWiring_digits {j i k : ℕ} (hj : j < 2 ^ d) (hi : i < 2 ^ d) (hk : k < 2 ^ d) :
    productWiring d (j + 2 ^ d * (i + 2 ^ d * k)) =
      ⟨.mul, k + 2 ^ d * i, j + 2 ^ d * (k + 2 ^ d * 1)⟩ := by
  have hpos : 0 < 2 ^ d := Nat.two_pow_pos d
  have hlow : (j + 2 ^ d * (i + 2 ^ d * k)) &&& (2 ^ d - 1) = j := by
    rw [Nat.and_two_pow_sub_one_eq_mod, Nat.add_mul_mod_self_left, Nat.mod_eq_of_lt hj]
  have hshift : (j + 2 ^ d * (i + 2 ^ d * k)) >>> d = i + 2 ^ d * k := by
    rw [Nat.shiftRight_eq_div_pow, Nat.add_mul_div_left _ _ hpos, Nat.div_eq_of_lt hj, Nat.zero_add]
  have hmiddle : (i + 2 ^ d * k) &&& (2 ^ d - 1) = i := by
    rw [Nat.and_two_pow_sub_one_eq_mod, Nat.add_mul_mod_self_left, Nat.mod_eq_of_lt hi]
  have hhigh : (j + 2 ^ d * (i + 2 ^ d * k)) >>> (2 * d) = k := by
    rw [two_mul, Nat.shiftRight_add, hshift, Nat.shiftRight_eq_div_pow,
      Nat.add_mul_div_left _ _ hpos, Nat.div_eq_of_lt hi, Nat.zero_add]
  have htop : k &&& (2 ^ d - 1) = k := by
    rw [Nat.and_two_pow_sub_one_eq_mod, Nat.mod_eq_of_lt hk]
  simp only [productWiring, hlow, hshift, hmiddle, hhigh, htop, Nat.shiftLeft_eq,
    GateWiring.mk.injEq, true_and]
  constructor <;> ring

theorem gate_product {j i k : ℕ} (hj : j < 2 ^ d) (hi : i < 2 ^ d) (hk : k < 2 ^ d) :
    (level d 1).gate (j + 2 ^ d * (i + 2 ^ d * k)) =
      ⟨.mul, k + 2 ^ d * i, j + 2 ^ d * (k + 2 ^ d * 1)⟩ := by
  have hlt : j + 2 ^ d * (i + 2 ^ d * k) < 2 ^ d * 2 ^ d * 2 ^ d := by
    rw [mul_assoc]
    exact digits_lt hj (digits_lt hi hk)
  rw [level, CircuitLayer.gate_setWirings _ _ _ _ (by rwa [CircuitLayer.size_fresh]),
    if_pos ⟨Nat.zero_le _, hlt⟩, productWiring_digits hj hi hk]

theorem gate_sum {t : ℕ} (ht : t < d) {idx : ℕ} (hidx : idx < 2 ^ (3 * d - (t + 1))) :
    (level d (t + 2)).gate idx = ⟨.add, idx, 2 ^ (3 * d - (t + 1)) + idx⟩ := by
  have hsize : (2 ^ d * 2 ^ d * 2 ^ d) >>> (t + 1) = 2 ^ (3 * d - (t + 1)) := by
    rw [cube_eq, Nat.shiftRight_eq_div_pow, Nat.pow_div (by omega) Nat.two_pos]
  rw [level, hsize, CircuitLayer.gate_setWirings _ _ _ _ (by rwa [CircuitLayer.size_fresh]),
    if_pos ⟨Nat.zero_le _, hidx⟩, reduceWiring, Nat.and_two_pow_sub_one_eq_mod,
    Nat.mod_eq_of_lt hidx]

end Levels

/-! ## The predicates -/

section Predicates

variable {d p : ℕ}

/-- The digits of a label. -/
theorem exists_digits {m n o g : ℕ} (hg : g < m * n * o) :
    ∃ j < m, ∃ i < n, ∃ k < o, g = j + m * (i + n * k) := by
  have hm : 0 < m := Nat.pos_of_ne_zero fun h => by simp [h] at hg
  have hn : 0 < n := Nat.pos_of_ne_zero fun h => by simp [h] at hg
  have hquot : g / m < n * o := by
    rw [Nat.div_lt_iff_lt_mul hm]
    linarith
  refine ⟨g % m, Nat.mod_lt _ hm, g / m % n, Nat.mod_lt _ hn, g / m / n, ?_, ?_⟩
  · rw [Nat.div_lt_iff_lt_mul hn]
    linarith
  · rw [Nat.mod_add_div, Nat.mod_add_div]

theorem product_inRange {g : ℕ} (hg : g < 2 ^ d * 2 ^ d * 2 ^ d) :
    ((level d 1).gate g).in1 < 2 ^ (2 * d + 1) ∧ ((level d 1).gate g).in2 < 2 ^ (2 * d + 1) := by
  obtain ⟨j, hj, i, hi, k, hk, rfl⟩ := exists_digits hg
  have hsize : 2 ^ (2 * d + 1) = 2 ^ d * (2 ^ d * 2) := by
    rw [pow_succ, two_mul, pow_add, mul_assoc]
  rw [gate_product hj hi hk, hsize]
  refine ⟨digits_lt hk (hi.trans ?_), digits_lt hj (digits_lt hk one_lt_two)⟩
  exact lt_mul_of_one_lt_right (Nat.two_pow_pos d) one_lt_two

/-- The adjacent levels of which the later one is the `t`-th after the products. -/
def pair (t : ℕ) (ht : t ≤ d) : LayerPair where
  out := level d (t + 1)
  inSize := (level d t).size
  in_pos := by
    cases t with
    | zero =>
        rw [size_input]
        exact Nat.two_pow_pos _
    | succ t =>
        rw [size_level (by omega)]
        exact Nat.two_pow_pos _
  out_pos := by
    rw [size_level (by omega)]
    exact Nat.two_pow_pos _
  inRange := by
    intro g hg
    cases t with
    | zero =>
        rw [size_input]
        rw [size_level (by omega), Nat.sub_zero, ← cube_eq] at hg
        exact product_inRange hg
    | succ t =>
        rw [size_level (by omega)] at hg ⊢
        have hdouble : 2 ^ (3 * d - t) = 2 ^ (3 * d - (t + 1)) + 2 ^ (3 * d - (t + 1)) := by
          rw [← two_mul, ← pow_succ']
          congr 1
          omega
        rw [gate_sum (by omega) hg]
        simp only
        omega

theorem mi_pair (hd : 1 ≤ d) {t : ℕ} (ht : t ≤ d) : (pair t ht).mi = 3 * d - t := by
  change log2i (level d (t + 1)).size = _
  rw [size_level (by omega), log2i_two_pow (by omega)]

theorem mip1_pair_zero : (pair 0 (Nat.zero_le d)).mip1 = 2 * d + 1 := by
  change log2i (level d 0).size = _
  rw [size_input, log2i_two_pow (Nat.succ_pos _)]

theorem mip1_pair_succ (hd : 1 ≤ d) {t : ℕ} (ht : t + 1 ≤ d) :
    (pair (t + 1) ht).mip1 = 3 * d - (t + 1) + 1 := by
  change log2i (level d (t + 1)).size = _
  rw [size_level (by omega), log2i_two_pow (by omega)]
  omega

/-- The Lagrange polynomial of the wires of a product, digit by digit. -/
theorem lagrange_product (x u v : ℕ → ZMod p) {j i k : ℕ} (hj : j < 2 ^ d) (hi : i < 2 ^ d)
    (hk : k < 2 ^ d) :
    lagrange x (3 * d) (j + 2 ^ d * (i + 2 ^ d * k)) *
        lagrange u (2 * d + 1) (k + 2 ^ d * i) *
        lagrange v (2 * d + 1) (j + 2 ^ d * (k + 2 ^ d * 1)) =
      (lagrange x d j * lagrange v d j) *
        (lagrange (shiftPoint d x) d i * lagrange (shiftPoint d u) d i) *
        (lagrange (shiftPoint (2 * d) x) d k *
          (lagrange u d k * lagrange (shiftPoint d v) d k)) *
        (v (2 * d) * (1 - u (2 * d))) := by
  have hthree : 3 * d = d + (d + d) := by ring
  have htwo : 2 * d + 1 = d + (d + 1) := by ring
  have hshift : shiftPoint d (shiftPoint d x) = shiftPoint (2 * d) x := by
    rw [two_mul]
    exact funext fun i => congrArg x (Nat.add_assoc _ _ _).symm
  have hu : shiftPoint d u d = u (2 * d) := congrArg u (two_mul d).symm
  have hv : shiftPoint d v d = v (2 * d) := congrArg v (two_mul d).symm
  rw [hthree, htwo, lagrange_digits x hj, lagrange_digits _ hi, hshift, lagrange_digits u hk,
    lagrange_succ_lt _ hi, lagrange_digits v hj, mul_one, lagrange_succ_add _ hk, hu, hv]
  ring

/-- A sum over all digits of what the digits contribute. -/
theorem sum_digits (m : ℕ) (a b c : ℕ → ZMod p) (e : ZMod p) :
    ∑ k ∈ Finset.range m, ∑ i ∈ Finset.range m, ∑ j ∈ Finset.range m, a j * b i * c k * e =
      (∑ j ∈ Finset.range m, a j) * (∑ i ∈ Finset.range m, b i) * (∑ k ∈ Finset.range m, c k) *
        e := by
  simp only [← Finset.sum_mul, ← Finset.mul_sum]

/-- The extension of the wiring of the products. -/
theorem wirePredicate_product (hd : 1 ≤ d) (r : ℕ → ZMod p) :
    wirePredicate (pair 0 (Nat.zero_le d)) .mul r =
      agreement [r, shiftPoint (3 * d + (2 * d + 1)) r] d *
        agreement [shiftPoint d r, shiftPoint d (shiftPoint (3 * d) r)] d *
        agreement [shiftPoint (2 * d) r, shiftPoint (3 * d) r,
          shiftPoint d (shiftPoint (3 * d + (2 * d + 1)) r)] d *
        (shiftPoint (3 * d + (2 * d + 1)) r (2 * d) * (1 - shiftPoint (3 * d) r (2 * d))) := by
  have hmi : (pair 0 (Nat.zero_le d)).mi = 3 * d := by
    rw [mi_pair hd, Nat.sub_zero]
  have hsize : (pair 0 (Nat.zero_le d)).out.size = 2 ^ d * (2 ^ d * 2 ^ d) := by
    change (level d 1).size = _
    rw [size_level (Nat.zero_le _), Nat.sub_zero, ← cube_eq, mul_assoc]
  have hgate : (pair 0 (Nat.zero_le d)).out = level d 1 := rfl
  rw [wirePredicate, hsize, sum_range_mul, sum_range_mul]
  simp only [← sum_lagrange, List.map_cons, List.map_nil, List.prod_cons, List.prod_nil, mul_one]
  rw [← sum_digits]
  refine Finset.sum_congr rfl fun k hk => Finset.sum_congr rfl fun i hi =>
    Finset.sum_congr rfl fun j hj => ?_
  rw [Finset.mem_range] at hj hi hk
  rw [hgate, wireLagrange, hgate, gate_product hj hi hk, if_pos (mul_treatedAs_mul _ _), hmi, mip1_pair_zero]
  exact lagrange_product r _ _ hj hi hk

theorem wirePredicate_sum (hd : 1 ≤ d) {t : ℕ} (ht : t + 1 ≤ d) {m : ℕ}
    (hm : m = 3 * d - (t + 1)) (r : ℕ → ZMod p) :
    wirePredicate (pair (t + 1) ht) .add r =
      agreement [r, shiftPoint m r, shiftPoint (m + (m + 1)) r] m *
        (shiftPoint (m + (m + 1)) r m * (1 - shiftPoint m r m)) := by
  have hmi : (pair (t + 1) ht).mi = m := by
    rw [mi_pair hd, hm]
  have hmip1 : (pair (t + 1) ht).mip1 = m + 1 := by
    rw [mip1_pair_succ hd, hm]
  have hgate : (pair (t + 1) ht).out = level d (t + 2) := rfl
  have hsize : (level d (t + 2)).size = 2 ^ m := by
    rw [size_level (by omega), hm]
  rw [wirePredicate, hgate, hsize]
  simp only [← sum_lagrange, List.map_cons, List.map_nil, List.prod_cons, List.prod_nil, mul_one]
  rw [Finset.sum_mul]
  refine Finset.sum_congr rfl fun g hg => ?_
  rw [Finset.mem_range] at hg
  have hg' := hg
  rw [hm] at hg'
  rw [wireLagrange, hgate, gate_sum ht hg', if_pos (add_treatedAs_add _ _), hmi, hmip1, ← hm,
    Nat.add_comm (2 ^ m) g, lagrange_succ_lt _ hg, lagrange_succ_add _ hg]
  ring

theorem cast_matSq (d : ℕ) (rand : Vec) (ni nip1 : ℕ) :
    ((matSq rand (3 * d) (2 * d + 1) ni nip1 p : ℤ) : ZMod p) =
      agreement [castVec p rand, shiftPoint (3 * d + (2 * d + 1)) (castVec p rand)] d *
        agreement [shiftPoint d (castVec p rand),
          shiftPoint d (shiftPoint (3 * d) (castVec p rand))] d *
        agreement [shiftPoint (2 * d) (castVec p rand), shiftPoint (3 * d) (castVec p rand),
          shiftPoint d (shiftPoint (3 * d + (2 * d + 1)) (castVec p rand))] d *
        (shiftPoint (3 * d + (2 * d + 1)) (castVec p rand) (2 * d) *
          (1 - shiftPoint (3 * d) (castVec p rand) (2 * d))) := by
  have hthird : 3 * d / 3 = d := Nat.mul_div_cancel_left d (by decide)
  simp only [matSq, hthird, cast_modmult, Int.cast_mul, cast_oneSub, cast_checkEqual_zero,
    List.map_cons, List.map_nil, castVec_offset, offset_offset, shiftPoint_shiftPoint, cast_offset, Int.cast_one, one_mul,
    mul_assoc]

theorem cast_matReduce (m : ℕ) (rand : Vec) (ni nip1 : ℕ) :
    ((matReduce rand m (m + 1) ni nip1 p : ℤ) : ZMod p) =
      agreement [castVec p rand, shiftPoint m (castVec p rand),
          shiftPoint (m + (m + 1)) (castVec p rand)] m *
        (shiftPoint (m + (m + 1)) (castVec p rand) m * (1 - shiftPoint m (castVec p rand) m)) := by
  simp only [matReduce, Nat.add_sub_cancel, cast_modmult, Int.cast_mul, cast_oneSub,
    cast_checkEqual_zero, List.map_cons, List.map_nil, castVec_offset, offset_offset, cast_offset,
    Int.cast_one, one_mul, mul_assoc]

/-- The supplied predicates are the extensions. -/
theorem suppliedPredicates (hd : 1 ≤ d) {t : ℕ} (ht : t ≤ d) (rand : Vec) :
    SuppliedPredicates (pair t ht) p rand := by
  have hzero : ∀ a b e f : ℕ, ((zero rand a b e f p : ℤ) : ZMod p) = 0 :=
    fun _ _ _ _ => Int.cast_zero
  cases t with
  | zero =>
      refine ⟨fun f hf => ?_, fun f hf => ?_⟩
      · cases hf
        rw [hzero, wirePredicate_eq_zero]
        intro g hg
        have hg' : g < 2 ^ d * 2 ^ d * 2 ^ d := by
          rwa [cube_eq, ← Nat.sub_zero (3 * d), ← size_level (Nat.zero_le _)]
        obtain ⟨j, hj, i, hi, k, hk, rfl⟩ := exists_digits hg'
        exact congrArg (GateWiring.shouldBeTreatedAs · .add) (gate_product hj hi hk)
      · cases hf
        rw [mi_pair hd, mip1_pair_zero, Nat.sub_zero, cast_matSq, wirePredicate_product hd]
  | succ t =>
      refine ⟨fun f hf => ?_, fun f hf => ?_⟩
      · cases hf
        rw [mi_pair hd, mip1_pair_succ hd, cast_matReduce, wirePredicate_sum hd ht rfl]
      · cases hf
        rw [hzero, wirePredicate_eq_zero]
        intro g hg
        have hsize : (pair (t + 1) ht).out.size = 2 ^ (3 * d - (t + 1)) := size_level (by omega)
        rw [hsize] at hg
        exact congrArg (GateWiring.shouldBeTreatedAs · .mul) (gate_sum ht hg)

end Predicates

/-! ## The values -/

section Values

variable {d p : ℕ}

theorem depth_circuit (d : ℕ) : (circuit d).depth = d + 2 := by
  rw [circuit, depth_ofLevels, Nat.zero_add]

/-- Levels are counted from the outputs. -/
theorem layer_circuit {t : ℕ} (ht : t ≤ d + 1) : (circuit d).layer (d + 1 - t) = level d t := by
  rw [circuit, layer_ofLevels (by omega)]
  congr 1
  omega

theorem type_ne {t : ℕ} (ht : t ≤ d) {g : ℕ} (hg : g < (level d (t + 1)).size) :
    ((level d (t + 1)).gate g).type ≠ .divInt := by
  rw [size_level (by omega)] at hg
  cases t with
  | zero =>
      rw [Nat.sub_zero, ← cube_eq] at hg
      obtain ⟨j, hj, i, hi, k, hk, rfl⟩ := exists_digits hg
      rw [gate_product hj hi hk]
      exact GateType.noConfusion
  | succ t =>
      rw [gate_sum ht hg]
      exact GateType.noConfusion

theorem wellFormed (d : ℕ) : (circuit d).WellFormed := by
  have hlevel : ∀ lvl, lvl + 1 < (circuit d).depth → ∃ t, t ≤ d ∧
      (circuit d).layer lvl = level d (t + 1) ∧ (circuit d).layer (lvl + 1) = level d t := by
    intro lvl hlvl
    rw [depth_circuit] at hlvl
    have hlast : lvl = d + 1 - (d - lvl + 1) := by omega
    have hprev : lvl + 1 = d + 1 - (d - lvl) := by omega
    refine ⟨d - lvl, Nat.sub_le _ _, ?_, ?_⟩
    · rw [← layer_circuit (by omega), ← hlast]
    · rw [← layer_circuit (by omega), ← hprev]
  constructor
  · intro lvl hlvl j hj
    obtain ⟨t, ht, hout, -⟩ := hlevel lvl hlvl
    rw [hout] at hj ⊢
    exact type_ne ht hj
  · intro lvl hlvl j hj
    obtain ⟨t, ht, hout, hin⟩ := hlevel lvl hlvl
    rw [hout] at hj ⊢
    rw [hin]
    exact (pair t ht).inRange j hj

/-- The entries of a matrix, row by row. -/
def rowMajor {n : ℕ} (M : Matrix (Fin n) (Fin n) ℤ) : List ℤ :=
  List.ofFn fun x : Fin (n * n) => M x.divNat x.modNat

/-- The inputs: both matrices. -/
def inputs {n : ℕ} (A B : Matrix (Fin n) (Fin n) ℤ) : List ℚ :=
  (rowMajor A ++ rowMajor B).map fun v : ℤ => (v : ℚ)

theorem getElem?_rowMajor {n : ℕ} (M : Matrix (Fin n) (Fin n) ℤ) (i j : Fin n) :
    (rowMajor M)[j.val + n * i.val]? = some (M i j) := by
  have hlt : j.val + n * i.val < n * n := digits_lt j.isLt i.isLt
  have hdiv : (⟨j.val + n * i.val, hlt⟩ : Fin (n * n)).divNat = i := by
    refine Fin.ext ?_
    change (j.val + n * i.val) / n = i
    rw [Nat.add_mul_div_left _ _ (Fin.pos i), Nat.div_eq_of_lt j.isLt, Nat.zero_add]
  have hmod : (⟨j.val + n * i.val, hlt⟩ : Fin (n * n)).modNat = j := by
    refine Fin.ext ?_
    change (j.val + n * i.val) % n = j
    rw [Nat.add_mul_mod_self_left, Nat.mod_eq_of_lt j.isLt]
  rw [rowMajor, List.getElem?_ofFn, dif_pos hlt, hdiv, hmod]

end Values
section Run

variable {d p : ℕ} (A B : Matrix (Fin (2 ^ d)) (Fin (2 ^ d)) ℤ) (data : CircuitData)

theorem length_rowMajor {n : ℕ} (M : Matrix (Fin n) (Fin n) ℤ) : (rowMajor M).length = n * n :=
  List.length_ofFn

/-- The gates of the input level are set one after the other. -/
theorem setGates_inputs {x : ℕ} {v : ℤ} (hv : (rowMajor A ++ rowMajor B)[x]? = some v) :
    setGates p (circuit d).inGates (inputs A B) data (d + 1) x = (data (d + 1) x).setValue p v := by
  have hx : x < 2 * (2 ^ d * 2 ^ d) := by
    have hlt := (List.getElem?_eq_some_iff.1 hv).1
    rwa [List.length_append, length_rowMajor, length_rowMajor, ← two_mul] at hlt
  have hgate := getElem?_addGatesFromLevel (d + 1) 0 ((Nat.zero_add x).trans_lt hx)
  rw [Nat.zero_add] at hgate
  refine setGates_of_nodup p (nodup_addGatesFromLevel _ _ _) (inputs A B) data hgate ?_
  rw [inputs, List.getElem?_map, hv]
  rfl

/-- The run on both matrices. -/
def run (p : ℕ) (A B : Matrix (Fin (2 ^ d)) (Fin (2 ^ d)) ℤ) (data : CircuitData) : CircuitData :=
  (circuit d).evaluate p (setGates p (circuit d).inGates (inputs A B) data)

/-- The input level stays. -/
theorem residue_run_inputs (x : ℕ) : residue p (run p A B data) (d + 1) x =
    residue p (setGates p (circuit d).inGates (inputs A B) data) (d + 1) x := by
  rw [residue, run, (evaluate_spec _).2 (d + 1) (by rw [depth_circuit]), residue]

variable [Fact p.Prime]

theorem isInteger_inputs {x : ℕ} (hx : x < 2 ^ (2 * d + 1)) :
    (setGates p (circuit d).inGates (inputs A B) data (d + 1) x).IsInteger p := by
  have hlt : x < (rowMajor A ++ rowMajor B).length := by
    rw [List.length_append, length_rowMajor, length_rowMajor]
    refine hx.trans_eq ?_
    rw [pow_succ, two_mul, pow_add]
    ring
  rw [setGates_inputs A B data (List.getElem?_eq_getElem hlt)]
  exact setValue_integer _ _

theorem residue_left (i k : Fin (2 ^ d)) :
    residue p (setGates p (circuit d).inGates (inputs A B) data) (d + 1) (k.val + 2 ^ d * i.val) =
      A i k := by
  have hlt : k.val + 2 ^ d * i.val < (rowMajor A).length := by
    rw [length_rowMajor]
    exact digits_lt k.isLt i.isLt
  rw [residue, setGates_inputs A B data ((List.getElem?_append_left hlt).trans
    (getElem?_rowMajor A i k)), cast_setValue]

theorem residue_right (k j : Fin (2 ^ d)) :
    residue p (setGates p (circuit d).inGates (inputs A B) data) (d + 1)
      (j.val + 2 ^ d * (k.val + 2 ^ d * 1)) = B k j := by
  have hindex : j.val + 2 ^ d * (k.val + 2 ^ d * 1) =
      (rowMajor A).length + (j.val + 2 ^ d * k.val) := by
    rw [length_rowMajor]
    ring
  have hentry : (rowMajor A ++ rowMajor B)[j.val + 2 ^ d * (k.val + 2 ^ d * 1)]? = some (B k j) := by
    rw [hindex, List.getElem?_append_right (Nat.le_add_right _ _), Nat.add_sub_cancel_left,
      getElem?_rowMajor]
  rw [residue, setGates_inputs A B data hentry, cast_setValue]

theorem run_spec {t : ℕ} (ht : t ≤ d + 1) {g : ℕ} (hg : g < (level d t).size) :
    (run p A B data (d + 1 - t) g).IsInteger p ∧
      ∀ s, t = s + 1 → residue p (run p A B data) (d + 1 - t) g =
        ((level d t).gate g).eval (residue p (run p A B data) (d + 1 - s) ((level d t).gate g).in1)
          (residue p (run p A B data) (d + 1 - s) ((level d t).gate g).in2) := by
  have hinput : ∀ x < ((circuit d).layer ((circuit d).depth - 1)).size,
      (setGates p (circuit d).inGates (inputs A B) data ((circuit d).depth - 1) x).IsInteger p := by
    intro x hx
    have hlast : (circuit d).depth - 1 = d + 1 - 0 := by
      rw [depth_circuit]
      rfl
    rw [hlast, layer_circuit (Nat.zero_le _), size_input] at hx
    rw [hlast]
    exact isInteger_inputs A B data hx
  rw [← layer_circuit ht] at hg
  obtain ⟨hinteger, hvalue⟩ := (wellFormed d).residues hinput (by rw [depth_circuit]; omega) hg
  refine ⟨hinteger, fun s hs => ?_⟩
  have hprev : d + 1 - t + 1 = d + 1 - s := by omega
  have hres := hvalue (by rw [depth_circuit]; omega)
  rw [layer_circuit ht, hprev] at hres
  exact hres

theorem residue_product (i j k : Fin (2 ^ d)) :
    residue p (run p A B data) d (j.val + 2 ^ d * (i.val + 2 ^ d * k.val)) = A i k * B k j := by
  have hlt : j.val + 2 ^ d * (i.val + 2 ^ d * k.val) < (level d 1).size := by
    rw [size_level (Nat.zero_le _), Nat.sub_zero, ← cube_eq, mul_assoc]
    exact digits_lt j.isLt (digits_lt i.isLt k.isLt)
  have hvalue := (run_spec (p := p) A B data (Nat.le_add_left 1 d) hlt).2 0 rfl
  rw [gate_product j.isLt i.isLt k.isLt, Nat.sub_zero, residue_run_inputs, residue_run_inputs,
    residue_left, residue_right] at hvalue
  exact hvalue

/-- After `t` levels of sums a gate holds the sum of the products with its lower digits. By
induction on the levels. -/
theorem residue_sum {t : ℕ} (ht : t ≤ d) {g : ℕ} (hg : g < 2 ^ (3 * d - t)) :
    residue p (run p A B data) (d - t) g =
      ∑ s ∈ Finset.range (2 ^ t), residue p (run p A B data) d (g + s * 2 ^ (3 * d - t)) := by
  induction t generalizing g with
  | zero => rw [pow_zero, Finset.sum_range_one, Nat.zero_mul, Nat.sub_zero, Nat.add_zero]
  | succ t ih =>
      have hdouble : 2 ^ (3 * d - t) = 2 * 2 ^ (3 * d - (t + 1)) := by
        rw [← pow_succ']
        congr 1
        omega
      have hsize : g < (level d (t + 2)).size := by rwa [size_level (by omega)]
      have hvalue := (run_spec (p := p) A B data (t := t + 2) (by omega) hsize).2 (t + 1) rfl
      have hout : d + 1 - (t + 2) = d - (t + 1) := by omega
      have hin : d + 1 - (t + 1) = d - t := by omega
      rw [gate_sum ht hg, hout, hin] at hvalue
      refine hvalue.trans ?_
      change _ + _ = _
      dsimp only
      rw [ih (by omega) (by omega), ih (by omega) (by omega), sum_range_two_pow_succ,
        Finset.sum_add_distrib, hdouble]
      refine congrArg₂ (· + ·) (Finset.sum_congr rfl fun s _ => ?_)
        (Finset.sum_congr rfl fun s _ => ?_)
      · congr 1
        ring
      · congr 1
        ring

end Run
/-! ## The circuit -/

section Main

variable {d p : ℕ}

theorem emod_zero (rand : Vec) (a b e f : ℕ) :
    zero rand a b e f p % (p : ℤ) = zero rand a b e f p :=
  Int.zero_emod _

/-- The specialised predicates are reduced. -/
theorem reduced_predicates {t : ℕ} (ht : t ≤ d) {f : MleFn}
    (hf : (pair t ht).out.addFn = some f ∨ (pair t ht).out.mulFn = some f) (rand : Vec)
    (mi mip1 ni nip1 : ℕ) :
    f rand mi mip1 ni nip1 p % p = f rand mi mip1 ni nip1 p := by
  have hmodmult : ∀ a b : ℤ, modmult a b p % p = modmult a b p := fun a b =>
    Int.emod_emod_of_dvd _ (dvd_refl _)
  cases t with
  | zero =>
      rcases hf with hf | hf <;> cases hf
      · exact emod_zero rand _ _ _ _
      · exact hmodmult _ _
  | succ t =>
      rcases hf with hf | hf <;> cases hf
      · exact hmodmult _ _
      · exact emod_zero rand _ _ _ _

end Main

section Main

variable {d p : ℕ} [Fact p.Prime] (A B : Matrix (Fin (2 ^ d)) (Fin (2 ^ d)) ℤ) (data : CircuitData)

/-- An output is the entry of its row and column. -/
theorem residue_output (i j : Fin (2 ^ d)) :
    (run p A B data 0 (j.val + 2 ^ d * i.val)).IsInteger p ∧
      residue p (run p A B data) 0 (j.val + 2 ^ d * i.val) = ((A * B) i j : ZMod p) := by
  have hthree : 3 * d - d = d + d := by omega
  have hlt : j.val + 2 ^ d * i.val < 2 ^ (3 * d - d) := by
    rw [hthree, pow_add]
    exact digits_lt j.isLt i.isLt
  have hsum := residue_sum (p := p) A B data le_rfl hlt
  rw [Nat.sub_self] at hsum
  constructor
  · have hsize : j.val + 2 ^ d * i.val < (level d (d + 1)).size := by
      rwa [size_level (by omega)]
    have hinteger := (run_spec (p := p) A B data le_rfl hsize).1
    rwa [Nat.sub_self] at hinteger
  · rw [hsum, Matrix.mul_apply, Finset.sum_range, Int.cast_sum]
    refine Finset.sum_congr rfl fun k _ => ?_
    have hdigits : j.val + 2 ^ d * i.val + k.val * 2 ^ (3 * d - d) =
        j.val + 2 ^ d * (i.val + 2 ^ d * k.val) := by
      rw [hthree, pow_add]
      ring
    rw [hdigits, residue_product, Int.cast_mul]

/-- For every dimension up to `2 ^ 10`, matrices and initial data: the circuit is built, its outputs
are the entries of the product, row by row, and the predicates of its levels are the extensions of
the wiring, as the pass over the gates computes them. -/
theorem matmul_cmtpp (hd : 1 ≤ d) (hint : d ≤ 10) :
    ∃ c, constructCircuit d = some c ∧ c.depth = d + 2 ∧
      c.outGates.length = 2 ^ d * 2 ^ d ∧
      (∀ i j : Fin (2 ^ d), ∃ lvl g, c.outGates[2 ^ d * i.val + j.val]? = some (lvl, g) ∧
        (c.evaluate p (setGates p c.inGates (inputs A B) data) lvl g).IsInteger p ∧
        residue p (c.evaluate p (setGates p c.inGates (inputs A B) data)) lvl g =
          ((A * B) i j : ZMod p)) ∧
      ∀ lvl, lvl + 1 < c.depth → c.PredicatesMatch p lvl ∧ ∀ rand,
        (c.layer lvl).computeWirePredicates rand (c.layer (lvl + 1)).size p =
          (c.layer lvl).bruteForce.computeWirePredicates rand (c.layer (lvl + 1)).size p := by
  have houtputs : (level d (d + 1)).size = 2 ^ d * 2 ^ d := by
    rw [size_level (by omega), ← pow_add]
    congr 1
    omega
  refine ⟨circuit d, constructCircuit_eq hint, depth_circuit d, ?_, fun i j => ?_, fun lvl hlvl => ?_⟩
  · have hgates : (circuit d).outGates = addGatesFromLevel [] 0 0 (level d (d + 1)).size := rfl
    -- the gates of the output level, row after row
    rw [hgates, length_addGatesFromLevel, houtputs, Nat.sub_zero]
  · refine ⟨0, 2 ^ d * i.val + j.val, ?_, ?_⟩
    · have hlt : 0 + (2 ^ d * i.val + j.val) < (level d (d + 1)).size := by
        rw [houtputs, Nat.zero_add, Nat.add_comm]
        exact digits_lt j.isLt i.isLt
      have hgate := getElem?_addGatesFromLevel 0 0 hlt
      rwa [Nat.zero_add] at hgate
    · rw [Nat.add_comm]
      -- the output gate of row `i` and column `j`
      exact residue_output A B data i j
  · rw [depth_circuit] at hlvl
    -- the levels are numbered from the output, the predicates from the input
    have hlast : d + 1 - (d - lvl + 1) = lvl := by omega
    have hprev : d + 1 - (d - lvl) = lvl + 1 := by omega
    have hout := layer_circuit (d := d) (t := d - lvl + 1) (by omega)
    have hin := layer_circuit (d := d) (t := d - lvl) (by omega)
    rw [hlast] at hout
    rw [hprev] at hin
    have ht : d - lvl ≤ d := Nat.sub_le _ _
    have hsupplied := suppliedPredicates (p := p) hd ht
    refine ⟨(predicatesMatch_iff (pair (d - lvl) ht) hout.symm (by rw [hin]; rfl)).2 hsupplied,
      fun rand => ?_⟩
    rw [hout, hin]
    exact computeWirePredicates_eq_bruteForce (pair (d - lvl) ht) (hsupplied rand)
      (fun f hf => reduced_predicates ht (Or.inl hf) rand _ _ _ _)
      (fun f hf => reduced_predicates ht (Or.inr hf) rand _ _ _ _)

end Main

/-- The product of two matrices of dimension two, modulo five: its four entries, and the extension of
the sums at a point. -/
theorem matmul_cmtpp_two :
    let rand : Vec := fun i => [2, 3, 4, 0, 2, 2, 3, 4].getD i 0
    ∃ c, constructCircuit 1 = some c ∧ c.depth = 3 ∧ c.outGates.length = 4 ∧
      (∀ i j : Fin 2, ∃ lvl g, c.outGates[2 * i.val + j.val]? = some (lvl, g) ∧
        residue 5 (c.evaluate 5 (setGates 5 c.inGates
            (inputs !![1, 2; 3, 4] !![5, 6; 7, 8]) fun _ _ => ⟨0, 0⟩)) lvl g =
          (!![4, 2; 3, 0] : Matrix (Fin 2) (Fin 2) (ZMod 5)) i j) ∧
      (c.layer 0).computeWirePredicates rand (c.layer 1).size 5 = (2, 0) ∧
      (c.layer 0).bruteForce.computeWirePredicates rand (c.layer 1).size 5 = (2, 0) := by
  intro rand
  have hproduct : ∀ i j : Fin 2,
      (((!![1, 2; 3, 4] * !![5, 6; 7, 8] : Matrix (Fin 2) (Fin 2) ℤ) i j : ℤ) : ZMod 5) =
        (!![4, 2; 3, 0] : Matrix (Fin 2) (Fin 2) (ZMod 5)) i j := by
    intro i j
    fin_cases i <;> fin_cases j <;> decide +kernel
  have : Fact (Nat.Prime 5) := ⟨by norm_num⟩
  obtain ⟨c, hc, hdepth, hlength, hentries, hpredicates⟩ :=
    matmul_cmtpp (p := 5) !![1, 2; 3, 4] !![5, 6; 7, 8] (fun _ _ => ⟨0, 0⟩) (le_refl 1)
      (by decide)
  have hvalue : (c.layer 0).computeWirePredicates rand (c.layer 1).size 5 = (2, 0) := by
    have hmap : (constructCircuit 1).map (fun c =>
        (c.layer 0).computeWirePredicates rand (c.layer 1).size 5) = some (2, 0) := by
      decide +kernel
    rwa [hc, Option.map_some, Option.some_inj] at hmap
  refine ⟨c, hc, hdepth, hlength, fun i j => ?_, hvalue, ?_⟩
  · obtain ⟨lvl, g, hgate, -, hresidue⟩ := hentries i j
    exact ⟨lvl, g, hgate, hresidue.trans (hproduct i j)⟩
  · rw [← hvalue]
    exact ((hpredicates 0 (by omega)).2 rand).symm

/-- What an `int` keeps has the low bits of the value. -/
theorem dvd_toInt {k : ℕ} (hk : k ≤ 32) {x : ℤ} (h : (2 : ℤ) ^ k ∣ x) : (2 : ℤ) ^ k ∣ toInt x := by
  rw [toInt, Int.bmod_eq_self_sub_mul_bdiv]
  exact dvd_sub h ((pow_dvd_pow 2 hk).mul_right _)

/-- From dimension `2 ^ 11` on the cube has no bits below `2 ^ 32`, so that every level of products
and of sums is empty. -/
theorem outGates_of_large {d : ℕ} (hd : 11 ≤ d) {c : CMTCircuit} (hc : constructCircuit d = some c) :
    c.outGates = [] := by
  have hcubed : toInt (toInt (toInt (2 ^ d % 2 ^ 64) * toInt (2 ^ d % 2 ^ 64)) *
      toInt (2 ^ d % 2 ^ 64)) = (0 : ℕ) := by
    have hn : (2 : ℤ) ^ 11 ∣ toInt (2 ^ d % 2 ^ 64) := by
      refine dvd_toInt (by decide) ?_
      rw [Int.emod_def]
      exact dvd_sub (pow_dvd_pow 2 hd) ((pow_dvd_pow 2 (by decide : 11 ≤ 64)).mul_right _)
    have hsquared := mul_dvd_mul hn hn
    rw [← pow_add] at hsquared
    have hsquared := dvd_toInt (by decide) hsquared
    have hcubed := mul_dvd_mul hsquared hn
    rw [← pow_add] at hcubed
    exact Int.bmod_eq_zero_of_dvd ((pow_dvd_pow 2 (by decide)).trans hcubed)
  obtain ⟨inputs, hinputs⟩ | hneg :
      (∃ n : ℕ, toInt (2 * toInt (toInt (2 ^ d % 2 ^ 64) * toInt (2 ^ d % 2 ^ 64))) = n) ∨
        toInt (2 * toInt (toInt (2 ^ d % 2 ^ 64) * toInt (2 ^ d % 2 ^ 64))) < 0 := by
    rcases lt_or_ge (toInt (2 * toInt (toInt (2 ^ d % 2 ^ 64) * toInt (2 ^ d % 2 ^ 64)))) 0
      with h | h
    · exact Or.inr h
    · exact Or.inl ⟨_, (Int.toNat_of_nonneg h).symm⟩
  · rw [constructCircuit_sized hinputs hcubed, Option.some_inj] at hc
    have hlevel : (sizedLevel d inputs 0 (d + 1)).size = 0 := by
      obtain ⟨t, rfl⟩ : ∃ t, d = t + 1 := ⟨d - 1, by omega⟩
      rw [sizedLevel, CircuitLayer.size_setWirings, CircuitLayer.size_fresh, Nat.zero_shiftRight]
    have hgates : (sizedCircuit d inputs 0).outGates =
        addGatesFromLevel [] 0 0 (sizedLevel d inputs 0 (d + 1)).size := rfl
    rw [← hc, hgates, hlevel]
    rfl
  · -- no vector has this size
    simp only [constructCircuit, makeIntLevel, if_neg (not_le.2 hneg), Option.bind_eq_bind,
      Option.bind_none] at hc
    cases hc

/-- The circuit for dimension `2 ^ 11` has no output gate for the entries of the product. -/
theorem constructCircuit_eleven :
    ∃ c, constructCircuit 11 = some c ∧ c.outGates = [] ∧
      c.outGates.length ≠ 2 ^ 11 * 2 ^ 11 := by
  have hinputs : toInt (2 * toInt (toInt (2 ^ 11 % 2 ^ 64) * toInt (2 ^ 11 % 2 ^ 64))) =
      (2 ^ 23 : ℕ) := by
    decide
  have hproducts : toInt (toInt (toInt (2 ^ 11 % 2 ^ 64) * toInt (2 ^ 11 % 2 ^ 64)) *
      toInt (2 ^ 11 % 2 ^ 64)) = (0 : ℕ) := by
    decide
  have hcircuit := constructCircuit_sized hinputs hproducts
  have hnone := outGates_of_large (le_refl 11) hcircuit
  refine ⟨_, hcircuit, hnone, ?_⟩
  rw [hnone, List.length_nil]
  norm_num

end Pepper.Cmtgkr.MatmulCmtPP
