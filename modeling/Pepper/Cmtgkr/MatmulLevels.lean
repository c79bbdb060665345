import Pepper.Cmtgkr.HamdistLevels
import Pepper.Cmtgkr.MatmulCircuit

/-!
# The predicates of the original matrix multiplication circuit

Which levels of `MatmulCircuit` have the extensions of their wiring as predicates. The levels up to
the comparison with the claimed products have them (`productLevel_matches`, `sumLevel_matches`,
`claimLevel_matches`). The others do not: levels with additions come with the function that is zero
(`not_matches_zero`), and the closed forms of the tower use a coordinate twice
(`towerLevel_not_matches`) or another one in its place.
-/

set_option autoImplicit false

open Pepper.Common.Gmp Pepper.Foundations.Loop Pepper.Foundations.Multilinear
open Pepper.Cmtgkr.Env Pepper.Cmtgkr.Layer Pepper.Cmtgkr.Layer.CMTCircuit
open Pepper.Cmtgkr.MatmulPredicates
open Pepper.Cmtgkr.MatmulCmtPP (exists_digits sum_digits)
open Pepper.Cmtgkr.HamdistCircuit (lastWiring pairWiring pairWiring_wired secondWiring towerWiring)

namespace Pepper.Cmtgkr.MatmulCircuit

/-! ## Predicates at the label of a gate -/

section Labels

variable {p : ℕ}

/-- The point of a label. -/
def labelVec (g : ℕ) : Vec := fun i => if g.testBit i then 1 else 0

/-- The point with the label `g`, and with the points `u` and `v` for the inputs of the gate. -/
def joinPoint (mi mip1 g : ℕ) (u v : Vec) : Vec := fun i =>
  if i < mi then labelVec g i
  else if i < mi + mip1 then u (i - mi)
  else v (i - (mi + mip1))

theorem castVec_labelVec (g i : ℕ) : castVec p (labelVec g) i = if g.testBit i then 1 else 0 := by
  rw [castVec_apply, labelVec]
  split_ifs
  · exact Int.cast_one
  · exact Int.cast_zero

theorem lagrange_labelVec {n g k : ℕ} (hg : g < 2 ^ n) (hk : k < 2 ^ n) :
    lagrange (castVec p (labelVec g)) n k = if k = g then 1 else 0 :=
  lagrange_label hg hk fun i _ => castVec_labelVec g i

section Join

variable (mi mip1 g : ℕ) (u v : Vec)

theorem joinPoint_label {i : ℕ} (hi : i < mi) : joinPoint mi mip1 g u v i = labelVec g i :=
  if_pos hi

theorem joinPoint_in1 {i : ℕ} (hi : i < mip1) : joinPoint mi mip1 g u v (mi + i) = u i := by
  rw [joinPoint, if_neg (by omega), if_pos (by omega), Nat.add_sub_cancel_left]

theorem joinPoint_in2 (i : ℕ) : joinPoint mi mip1 g u v (mi + mip1 + i) = v i := by
  rw [joinPoint, if_neg (by omega), if_neg (by omega), Nat.add_sub_cancel_left]

end Join

/-- At the label of a gate the predicate has the wires of this gate alone. -/
theorem wirePredicate_joinPoint (L : LayerPair) (gateType : GateType) {g : ℕ} (hg : g < L.out.size)
    (u v : Vec) :
    wirePredicate L gateType (castVec p (joinPoint L.mi L.mip1 g u v)) =
      if (L.out.gate g).shouldBeTreatedAs gateType then
        lagrange (castVec p u) L.mip1 (L.out.gate g).in1 *
          lagrange (castVec p v) L.mip1 (L.out.gate g).in2
      else 0 := by
  have hlabel : ∀ k < L.out.size,
      lagrange (castVec p (joinPoint L.mi L.mip1 g u v)) L.mi k = if k = g then 1 else 0 := by
    intro k hk
    refine lagrange_label (hg.trans_le L.outSize_le) (hk.trans_le L.outSize_le) fun i hi => ?_
    rw [castVec_apply, joinPoint_label _ _ _ _ _ hi, ← castVec_apply, castVec_labelVec]
  have hin1 : ∀ a, lagrange (shiftPoint L.mi (castVec p (joinPoint L.mi L.mip1 g u v))) L.mip1 a =
      lagrange (castVec p u) L.mip1 a := fun a =>
    lagrange_congr (fun i hi => by
      rw [shiftPoint, castVec_apply, joinPoint_in1 _ _ _ _ _ hi, castVec_apply]) fun _ _ => rfl
  have hin2 : ∀ a, lagrange (shiftPoint (L.mi + L.mip1)
      (castVec p (joinPoint L.mi L.mip1 g u v))) L.mip1 a = lagrange (castVec p v) L.mip1 a :=
    fun a => lagrange_congr (fun i _ => by
      rw [shiftPoint, castVec_apply, joinPoint_in2, castVec_apply]) fun _ _ => rfl
  rw [wirePredicate, Finset.sum_eq_single g]
  · rw [wireLagrange, hlabel g hg, if_pos rfl, one_mul, hin1, hin2]
  · intro k hk hne
    rw [wireLagrange, hlabel k (Finset.mem_range.1 hk), if_neg hne, zero_mul, zero_mul, ite_self]
  · exact fun h => absurd (Finset.mem_range.2 hg) h

variable {l : CircuitLayer} {s g mi mip1 : ℕ} {f : MleFn}

/-- What a matching function for additions has at the label of a gate. -/
theorem add_of_matches (h : Matches p l s) (hf : l.addFn = some f) (hg : g < l.size)
    (hmi : log2i l.size = mi) (hmip1 : log2i s = mip1) (u v : Vec) :
    ((f (joinPoint mi mip1 g u v) mi mip1 l.size s p : ℤ) : ZMod p) =
      if (l.gate g).shouldBeTreatedAs .add then
        lagrange (castVec p u) mip1 (l.gate g).in1 * lagrange (castVec p v) mip1 (l.gate g).in2
      else 0 := by
  obtain ⟨L, rfl, rfl, hsupplied⟩ := h
  subst hmi hmip1
  exact ((hsupplied _).1 f hf).trans (wirePredicate_joinPoint L .add hg u v)

/-- What a matching function for multiplications has at the label of a gate. -/
theorem mul_of_matches (h : Matches p l s) (hf : l.mulFn = some f) (hg : g < l.size)
    (hmi : log2i l.size = mi) (hmip1 : log2i s = mip1) (u v : Vec) :
    ((f (joinPoint mi mip1 g u v) mi mip1 l.size s p : ℤ) : ZMod p) =
      if (l.gate g).shouldBeTreatedAs .mul then
        lagrange (castVec p u) mip1 (l.gate g).in1 * lagrange (castVec p v) mip1 (l.gate g).in2
      else 0 := by
  obtain ⟨L, rfl, rfl, hsupplied⟩ := h
  subst hmi hmip1
  exact ((hsupplied _).2 f hf).trans (wirePredicate_joinPoint L .mul hg u v)

/-- A level with an addition does not match the function that is zero. -/
theorem not_matches_zero [Fact p.Prime] (hf : l.addFn = some zero) (hg : g < l.size) {a b : ℕ}
    (hgate : l.gate g = ⟨.add, a, b⟩) : ¬ Matches p l s := by
  intro h
  have hvalue := add_of_matches h hf hg rfl rfl (labelVec a) (labelVec b)
  obtain ⟨L, rfl, rfl, -⟩ := h
  have ha : a < 2 ^ log2i L.inSize := by
    have hlt := L.in1_lt hg
    rwa [hgate] at hlt
  have hb : b < 2 ^ log2i L.inSize := by
    have hlt := L.in2_lt hg
    rwa [hgate] at hlt
  simp only [hgate, add_treatedAs_add, if_true, lagrange_labelVec ha ha, lagrange_labelVec hb hb,
    mul_one] at hvalue
  exact zero_ne_one (Int.cast_zero.symm.trans hvalue)

end Labels

/-! ## The levels of the tower -/

section Tower

variable {p d N : ℕ}

/-- The first coordinate is `y`, the others are zero. -/
def firstVec (y : ℤ) : Vec := fun i => if i = 0 then y else 0

theorem lagrange_firstVec (y : ℤ) (m : ℕ) :
    lagrange (castVec p (firstVec y)) (m + 1) 0 = 1 - y ∧
      lagrange (castVec p (firstVec y)) (m + 1) 1 = y := by
  have hrest : lagrange (shiftPoint 1 (castVec p (firstVec y))) m 0 = 1 := by
    refine Finset.prod_eq_one fun i _ => ?_
    rw [Nat.zero_testBit, bitFactor_false, shiftPoint, castVec_apply, firstVec, if_neg (by omega),
      Int.cast_zero, sub_zero]
  constructor
  · refine (lagrange_two_mul _ m 0).trans ?_
    rw [hrest, mul_one]
    rfl
  · refine (lagrange_two_mul_add_one _ m 0).trans ?_
    rw [hrest, mul_one]
    rfl

variable [Fact p.Prime]

theorem two_ne_zero_of_ne_two (hp : p ≠ 2) : (2 : ZMod p) ≠ 0 := by
  have hlt : 2 < p := lt_of_le_of_ne (Fact.out : p.Prime).two_le (Ne.symm hp)
  intro h
  have hcast : ((2 : ℕ) : ZMod p) = 0 := by exact_mod_cast h
  exact absurd (Nat.le_of_dvd Nat.two_pos ((ZMod.natCast_eq_zero_iff _ _).1 hcast)) (not_le.2 hlt)

/-- The gate that carries zero over the squares is an addition. -/
theorem squareLevel_not_matches (s : ℕ) : ¬ Matches p (squareLevel N) s := by
  have hgate : (squareLevel N).gate (N + 0) = lastWiring 0 (N + 1) (N + 0) :=
    CircuitLayer.gate_blocks_right Nat.zero_lt_one
  refine not_matches_zero rfl ?_ hgate
  rw [squareLevel, CircuitLayer.size_blocks]
  exact Nat.lt_succ_self N

/-- The sums of the powers are additions. -/
theorem powerSum_not_matches {k : ℕ} (hk : 0 < (N / 2) >>> k) (s : ℕ) :
    ¬ Matches p (powerSum N k) s := by
  have hgate : (powerSum N k).gate 0 = ⟨.add, 0, 1⟩ := CircuitLayer.gate_blocks_left hk
  refine not_matches_zero rfl ?_ hgate
  rw [powerSum, CircuitLayer.size_blocks]
  exact hk

/-- `FLT_add_lvl2` takes the first input for the second one. -/
theorem secondLevel_not_matches (hN : 0 < N) : ¬ Matches p (secondLevel N) (N + 1) := by
  intro h
  have hgate : (secondLevel N).gate 0 = ⟨.add, 0, N⟩ :=
    CircuitLayer.gate_blocks_left (by omega)
  have hsize : 0 < (secondLevel N).size := by
    rw [secondLevel, CircuitLayer.size_blocks]
    omega
  have hlt : N < 2 ^ log2i (N + 1) := le_two_pow_log2i (N + 1)
  have hvalue := add_of_matches h rfl hsize rfl rfl (labelVec 0) (labelVec N)
  have hin1 : lagrange (shiftPoint (log2i (secondLevel N).size) (castVec p (joinPoint
      (log2i (secondLevel N).size) (log2i (N + 1)) 0 (labelVec 0) (labelVec N))))
        (log2i (N + 1)) N = 0 := by
    rw [lagrange_label (Nat.two_pow_pos _) hlt fun i hi => ?_, if_neg hN.ne']
    rw [shiftPoint, castVec_apply, joinPoint_in1 _ _ _ _ _ hi, ← castVec_apply, castVec_labelVec]
  simp only [hgate, add_treatedAs_add, if_true, lagrange_labelVec (Nat.two_pow_pos _)
    (Nat.two_pow_pos _), lagrange_labelVec hlt hlt, mul_one] at hvalue
  rw [fltAddLvl2, cast_modmult, cast_chi, Nat.add_sub_cancel, castVec_offset, hin1,
    zero_mul] at hvalue
  exact zero_ne_one hvalue

theorem agreementFactor_three (x y z : ℕ → ZMod p) (i : ℕ) :
    agreementFactor [x, y, z] i = x i * y i * z i + (1 - x i) * (1 - y i) * (1 - z i) := by
  simp only [agreementFactor, List.map_cons, List.map_nil, List.prod_cons, List.prod_nil]
  ring

/-- `FLT_mul` compares the first bits twice: it has the square of the first coordinate of the last
point. -/
theorem cast_fltMul_joinPoint (bit : Bool) {m : ℕ} (hlt : 2 * N < 2 ^ (m + 2)) :
    ((fltMul bit (joinPoint (m + 2) (m + 2) 1 (labelVec 1) (firstVec 2)) (m + 2) (m + 2)
      (2 * N + 1) (2 * N + 1) p : ℤ) : ZMod p) = 2 * 2 := by
  set r := joinPoint (m + 2) (m + 2) 1 (labelVec 1) (firstVec 2) with hr
  have hzero : r 0 = 1 := joinPoint_label _ _ _ _ _ (by omega)
  have hone : r (m + 2) = 1 := joinPoint_in1 _ _ _ (labelVec 1) (firstVec 2) (i := 0) (by omega)
  have htwo : r (m + 2 + (m + 2)) = 2 := joinPoint_in2 _ _ _ (labelVec 1) (firstVec 2) 0
  have hlabel : ∀ i, labelVec 1 (i + 1) = 0 := fun i => if_neg (by
    rw [Nat.testBit_one_eq_true_iff_self_eq_zero]
    omega)
  -- the other coordinates are zero, so that only the first bits count
  have hagreement : agreement [castVec p r, shiftPoint (m + 2) (castVec p r),
      shiftPoint (m + 2 + (m + 2)) (castVec p r)] (m + 1) = 2 := by
    have hfirst : agreementFactor [castVec p r, shiftPoint (m + 2) (castVec p r),
        shiftPoint (m + 2 + (m + 2)) (castVec p r)] 0 = 2 := by
      simp only [agreementFactor_three, shiftPoint, castVec_apply, Nat.add_zero, hzero, hone, htwo]
      norm_num
    rw [agreement, Finset.prod_range_succ', hfirst, Finset.prod_eq_one, one_mul]
    intro i hi
    have hi' := Finset.mem_range.1 hi
    have hz : r (i + 1) = 0 := (joinPoint_label _ _ _ _ _ (by omega)).trans (hlabel i)
    have hu : r (m + 2 + (i + 1)) = 0 := (joinPoint_in1 _ _ _ _ _ (by omega)).trans (hlabel i)
    have hv : r (m + 2 + (m + 2) + (i + 1)) = 0 :=
      (joinPoint_in2 _ _ _ _ _ _).trans (if_neg (Nat.succ_ne_zero i))
    simp only [agreementFactor_three, shiftPoint, castVec_apply, hz, hu, hv]
    norm_num
  have hpred : m + 2 - 1 = m + 1 := rfl
  have htop : r (m + 1) = 0 := (joinPoint_label _ _ _ _ _ (by omega)).trans (hlabel m)
  -- the last gate has another label
  have hlast : lagrange (castVec p r) (m + 2) (2 * N) = 0 := by
    rw [lagrange_label (g := 1) (one_lt_two.trans_le (Nat.le_self_pow (by omega) 2)) hlt
      fun i hi => ?_, if_neg (by omega)]
    rw [castVec_apply, hr, joinPoint_label _ _ _ _ _ hi, ← castVec_apply, castVec_labelVec]
  cases bit <;>
    simp only [fltMul, Bool.false_eq_true, if_true, if_false, cast_modmult, Int.cast_add,
      Int.cast_sub, Int.cast_mul, cast_checkEqual_zero, cast_checkWiring, cast_oneSub,
      List.map_cons, List.map_nil, castVec_offset, hpred, hagreement, hzero, hone, htwo, htop,
      hlast, Nat.add_sub_cancel] <;>
    norm_num

/-- So the tower has no level that matches. -/
theorem towerLevel_not_matches (hp : p ≠ 2) (hN : 0 < N) (k : ℕ) :
    ¬ Matches p (towerLevel p d N k) (2 * N + 1) := by
  intro h
  have hsize : (towerLevel p d N k).size = 2 * N + 1 := CircuitLayer.size_blocks
  have hgate : (towerLevel p d N k).gate 1 = ⟨.mul, 1, 1⟩ :=
    CircuitLayer.gate_blocks_left (by omega)
  obtain ⟨m, hm⟩ : ∃ m, log2i (2 * N + 1) = m + 2 := by
    have hlog : 1 < log2i (2 * N + 1) := by
      rw [log2i, if_neg (by omega), Nat.lt_clog_iff_pow_lt one_lt_two]
      omega
    exact ⟨log2i (2 * N + 1) - 2, by omega⟩
  have hlt : 2 * N < 2 ^ (m + 2) := hm ▸ le_two_pow_log2i (2 * N + 1)
  have hone : 1 < 2 ^ (m + 2) := one_lt_two.trans_le (Nat.le_self_pow (by omega) 2)
  have hg : 1 < (towerLevel p d N k).size := by omega
  have hvalue := mul_of_matches h rfl hg (hsize ▸ hm) hm (labelVec 1) (firstVec 2)
  rw [hsize, cast_fltMul_joinPoint _ hlt, hgate, mul_treatedAs_mul, if_pos rfl,
    lagrange_labelVec hone hone, if_pos rfl, one_mul, (lagrange_firstVec 2 (m + 1)).2,
    Int.cast_ofNat] at hvalue
  exact two_ne_zero_of_ne_two hp (by linear_combination hvalue)

/-- `reduce` reads one coordinate of the next point: it has the square of one minus the first
coordinate of this point. -/
theorem cast_reduce_joinPoint {k : ℕ} (hk : 1 ≤ k) (nip1 : ℕ) :
    ((reduce (joinPoint k (k + 2) 0 (firstVec 2) (labelVec 1)) k (k + 2) (2 ^ k) nip1 p : ℤ) :
      ZMod p) = 1 := by
  set r := joinPoint k (k + 2) 0 (firstVec 2) (labelVec 1) with hr
  have hone : 2 ^ k ≠ 1 := (Nat.one_lt_two_pow (by omega)).ne'
  have hlabel : ∀ i, labelVec 1 (i + 1) = 0 := fun i => if_neg (by
    rw [Nat.testBit_one_eq_true_iff_self_eq_zero]
    omega)
  have hu : r k = 2 := joinPoint_in1 _ _ _ (firstVec 2) (labelVec 1) (i := 0) (by omega)
  have hv : r (k + (k + 2)) = 1 := joinPoint_in2 _ _ _ (firstVec 2) (labelVec 1) 0
  have hagreement : agreement [castVec p r, shiftPoint (k + 1) (castVec p r),
      shiftPoint (k + (k + 2) + 1) (castVec p r)] (k + 1) = -1 := by
    have hrest : ∀ i < k + 1, r (k + 1 + i) = 0 ∧ r (k + (k + 2) + 1 + i) = 0 := by
      intro i hi
      rw [Nat.add_assoc k, Nat.add_assoc (k + (k + 2)), Nat.add_comm 1 i]
      exact ⟨(joinPoint_in1 _ _ _ _ _ (by omega)).trans (if_neg (Nat.succ_ne_zero i)),
        (joinPoint_in2 _ _ _ _ _ _).trans (hlabel i)⟩
    have hfactor : ∀ i < k, agreementFactor [castVec p r, shiftPoint (k + 1) (castVec p r),
        shiftPoint (k + (k + 2) + 1) (castVec p r)] i = 1 := by
      intro i hi
      obtain ⟨hui, hvi⟩ := hrest i (by omega)
      have hz : r i = 0 := (joinPoint_label _ _ _ _ _ hi).trans (if_neg (by simp))
      simp only [agreementFactor_three, shiftPoint, castVec_apply, hz, hui, hvi]
      norm_num
    obtain ⟨huk, hvk⟩ := hrest k (Nat.lt_succ_self k)
    rw [agreement, Finset.prod_range_succ, Finset.prod_eq_one fun i hi =>
      hfactor i (Finset.mem_range.1 hi)]
    simp only [agreementFactor_three, shiftPoint, castVec_apply, hu, huk, hvk]
    norm_num
  have hpred : k + 2 - 1 = k + 1 := rfl
  simp only [reduce, if_neg hone, hpred, cast_modmult, Int.cast_mul, cast_oneSub,
    cast_checkEqual_zero, List.map_cons, List.map_nil, castVec_offset, hagreement, hu, hv]
  norm_num

/-- The last level of the tower does not match. -/
theorem lastLevel_not_matches (hp : p ≠ 2) {k : ℕ} (hk : 1 ≤ k) :
    ¬ Matches p (lastLevel (2 ^ k)) (2 * 2 ^ k + 1) := by
  intro h
  have hsize : (lastLevel (2 ^ k)).size = 2 ^ k := CircuitLayer.size_blocks
  have hg : 0 < (lastLevel (2 ^ k)).size := by
    rw [hsize]
    exact Nat.two_pow_pos k
  have hgate : (lastLevel (2 ^ k)).gate 0 = ⟨.mul, 0, 1⟩ :=
    CircuitLayer.gate_blocks_left (Nat.two_pow_pos k)
  have hmip1 : log2i (2 * 2 ^ k + 1) = k + 2 := by
    have hpos : 0 < 2 ^ k := Nat.two_pow_pos k
    refine log2i_eq ?_ ?_
    · rw [pow_succ]
      omega
    · rw [pow_succ, pow_succ]
      omega
  have hone : 1 < 2 ^ (k + 2) := one_lt_two.trans_le (Nat.le_self_pow (by omega) 2)
  have hvalue := mul_of_matches h rfl hg (hsize ▸ log2i_two_pow hk) hmip1 (firstVec 2) (labelVec 1)
  rw [hsize, f0MultD, cast_reduce_joinPoint hk, hgate, mul_treatedAs_mul, if_pos rfl,
    lagrange_labelVec hone hone, if_pos rfl, mul_one, (lagrange_firstVec 2 (k + 1)).1,
    Int.cast_ofNat] at hvalue
  exact two_ne_zero_of_ne_two hp (by linear_combination hvalue)

end Tower

/-! ## The levels of the products -/

section Products

variable {p d : ℕ}

/-- The gates behind `a` data gates, over a level with `c` data gates. -/
theorem carryWiring_eq (a c m : ℕ) {j : ℕ} (hj : j < m + 1) :
    carryWiring (a + (m + 1)) (c + (m + 1)) (a + j) = ⟨.add, c + j, c + m⟩ := by
  have hin1 : c + (m + 1) - (a + (m + 1) - (a + j)) = c + j := by omega
  rw [carryWiring, hin1]
  rfl

theorem carryWiring_wired (a c m : ℕ) : ∀ j < m + 1,
    (carryWiring (a + (m + 1)) (c + (m + 1)) (a + j)).type ≠ .divInt ∧
      (carryWiring (a + (m + 1)) (c + (m + 1)) (a + j)).in1 < c + (m + 1) ∧
        (carryWiring (a + (m + 1)) (c + (m + 1)) (a + j)).in2 < c + (m + 1) := by
  intro j hj
  rw [carryWiring_eq a c m hj]
  exact ⟨GateType.noConfusion, Nat.add_lt_add_left hj c, Nat.add_lt_add_left (Nat.lt_succ_self m) c⟩

theorem sum_carryWiring (mi mip1 a c m : ℕ) (x : ℕ → ZMod p) :
    ∑ j ∈ Finset.range (m + 1), wireTerm .add mi mip1 x (a + j)
        (carryWiring (a + (m + 1)) (c + (m + 1)) (a + j)) =
      ∑ t ∈ Finset.range m, wireTerm .add mi mip1 x (a + t) ⟨.add, c + t, c + m⟩ +
        wireTerm .add mi mip1 x (a + m) ⟨.add, c + m, c + m⟩ := by
  rw [Finset.sum_congr rfl fun j hj => by rw [carryWiring_eq a c m (Finset.mem_range.1 hj)],
    Finset.sum_range_succ]

theorem sum_carryWiring_mul (mi mip1 a c m : ℕ) (x : ℕ → ZMod p) :
    ∑ j ∈ Finset.range (m + 1), wireTerm .mul mi mip1 x (a + j)
        (carryWiring (a + (m + 1)) (c + (m + 1)) (a + j)) = 0 :=
  Finset.sum_eq_zero fun _ _ => wireTerm_mul_add ..

theorem sum_pairWiring_mul (mi mip1 a : ℕ) (x : ℕ → ZMod p) :
    ∑ g ∈ Finset.range a, wireTerm .mul mi mip1 x g (pairWiring .add g) = 0 :=
  Finset.sum_eq_zero fun _ _ => wireTerm_mul_add ..

theorem two_pow_div {a b c : ℕ} (h : a = b + c) : 2 ^ a / 2 ^ b = 2 ^ c := by
  rw [h, pow_add, Nat.mul_div_cancel_left _ (Nat.two_pow_pos b)]

/-- The first sums. -/
theorem sumLevel_matches {k n : ℕ} (hn : 1 ≤ n) (hk : k + 1 + n = d) :
    Matches p (sumLevel d (2 ^ (2 * d)) (2 ^ (3 * d)) k)
      (2 ^ (3 * d) / 2 ^ k + (2 ^ (2 * d) + 1)) := by
  have ha : 2 ^ (3 * d) / 2 ^ (k + 1) = 2 ^ (2 * d + n) := two_pow_div (by omega)
  have hc : 2 ^ (3 * d) / 2 ^ k = 2 ^ (2 * d + n + 1) := two_pow_div (by omega)
  have hdouble : 2 ^ (2 * d + n + 1) = 2 * 2 ^ (2 * d + n) := pow_succ' 2 _
  have hcarry : 2 * 2 ^ (2 * d) ≤ 2 ^ (2 * d + n) := by
    rw [← pow_succ']
    exact Nat.pow_le_pow_right Nat.two_pos (by omega)
  have hpos : 0 < 2 ^ (2 * d) := Nat.two_pow_pos _
  -- the claimed product takes one more bit, on this level and on the one before
  have hmi : log2i (2 ^ (2 * d + n) + (2 ^ (2 * d) + 1)) = 2 * d + n + 1 :=
    log2i_eq (by omega) (by rw [pow_succ]; omega)
  have hmip1 : log2i (2 ^ (2 * d + n + 1) + (2 ^ (2 * d) + 1)) = 2 * d + n + 2 :=
    log2i_eq (by omega) (by rw [pow_succ 2 (2 * d + n + 1)]; omega)
  rw [sumLevel, if_neg (by omega), ha, hc]
  refine matches_blocks (CircuitLayer.wired_blocks
    (pairWiring_wired GateType.noConfusion (by omega)) (carryWiring_wired _ _ _)) (by omega)
    (by omega) hmi hmip1 (fun rand => ?_) fun rand => ?_
  · rw [sum_carryWiring]
    exact cast_matAddBelow63P3d rand d n _
  · rw [cast_zero, sum_pairWiring_mul, sum_carryWiring_mul, add_zero]

/-- The last sums. -/
theorem sumLevel_matches_last {k : ℕ} (hk : k + 1 = d) :
    Matches p (sumLevel d (2 ^ (2 * d)) (2 ^ (3 * d)) k)
      (2 ^ (3 * d) / 2 ^ k + (2 ^ (2 * d) + 1)) := by
  have ha : 2 ^ (3 * d) / 2 ^ (k + 1) = 2 ^ (2 * d) := two_pow_div (by omega)
  have hc : 2 ^ (3 * d) / 2 ^ k = 2 ^ (2 * d + 1) := two_pow_div (by omega)
  have hdouble : 2 ^ (2 * d + 1) = 2 * 2 ^ (2 * d) := pow_succ' 2 _
  have hpos : 0 < 2 ^ (2 * d) := Nat.two_pow_pos _
  -- here it is as large as the sums, so that both levels have the same number of bits
  have hmi : log2i (2 ^ (2 * d) + (2 ^ (2 * d) + 1)) = 2 * d + 2 :=
    log2i_eq (by omega) (by rw [pow_succ 2 (2 * d + 1)]; omega)
  have hmip1 : log2i (2 ^ (2 * d + 1) + (2 ^ (2 * d) + 1)) = 2 * d + 2 :=
    log2i_eq (by omega) (by rw [pow_succ 2 (2 * d + 1)]; omega)
  rw [sumLevel, if_pos hk, ha, hc]
  refine matches_blocks (CircuitLayer.wired_blocks
    (pairWiring_wired GateType.noConfusion (by omega)) (carryWiring_wired _ _ _)) (by omega)
    (by omega) hmi hmip1 (fun rand => ?_) fun rand => ?_
  · rw [sum_carryWiring]
    exact cast_matAdd61P2dp1 rand d _
  · rw [cast_zero, sum_pairWiring_mul, sum_carryWiring_mul, add_zero]

/-- The comparison with the claimed products. -/
theorem claimLevel_matches :
    Matches p (claimLevel d (2 ^ (2 * d)) (2 ^ (3 * d)))
      (2 ^ (3 * d) / 2 ^ d + (2 ^ (2 * d) + 1)) := by
  have hs : 2 ^ (3 * d) / 2 ^ d = 2 ^ (2 * d) := two_pow_div (by omega)
  have hdouble : 2 ^ (2 * d + 1) = 2 * 2 ^ (2 * d) := pow_succ' 2 _
  have hpos : 0 < 2 ^ (2 * d) := Nat.two_pow_pos _
  have hmi : log2i (2 ^ (2 * d) + 1) = 2 * d + 1 := log2i_eq (by omega) (by omega)
  have hmip1 : log2i (2 ^ (2 * d) + (2 ^ (2 * d) + 1)) = 2 * d + 2 :=
    log2i_eq (by omega) (by rw [pow_succ 2 (2 * d + 1)]; omega)
  have hlast : lastWiring (2 ^ (2 * d) : ℕ) (2 ^ (2 * d) + (2 ^ (2 * d) + 1)) (2 ^ (2 * d) + 0) =
      ⟨.add, 2 ^ (2 * d) + 2 ^ (2 * d), 2 ^ (2 * d) + 2 ^ (2 * d)⟩ := rfl
  rw [claimLevel, hs]
  refine matches_blocks (CircuitLayer.wired_blocks (fun j hj => ⟨GateType.noConfusion, by
    dsimp only; omega, by dsimp only; omega⟩) fun j hj => ?_) (by omega) (by omega) hmi hmip1
    (fun rand => ?_) fun rand => ?_
  · obtain rfl : j = 0 := by omega
    rw [hlast]
    exact ⟨GateType.noConfusion, by dsimp only; omega, by dsimp only; omega⟩
  · rw [Finset.sum_range_one, hlast]
    exact cast_matAdd61P2d rand d _ _
  · rw [cast_zero, Finset.sum_range_one, hlast, wireTerm_mul_add, add_zero]
    exact (Finset.sum_eq_zero fun g _ => wireTerm_mul_add ..).symm

/-- A label with the digits `k`, `j` and `i` has the factors of row `i` and column `k`, and of row
`k` and column `j`. -/
theorem productWiring_digits {k j i : ℕ} (hk : k < 2 ^ d) (hj : j < 2 ^ d) (hi : i < 2 ^ d) :
    productWiring d (k + 2 ^ d * (j + 2 ^ d * i)) =
      ⟨.mul, k + 2 ^ d * i, j + 2 ^ d * (k + 2 ^ d * 1)⟩ := by
  have hpos : 0 < 2 ^ d := Nat.two_pow_pos d
  have hlow : (k + 2 ^ d * (j + 2 ^ d * i)) &&& (2 ^ d - 1) = k := by
    rw [Nat.and_two_pow_sub_one_eq_mod, Nat.add_mul_mod_self_left, Nat.mod_eq_of_lt hk]
  have hshift : (k + 2 ^ d * (j + 2 ^ d * i)) >>> d = j + 2 ^ d * i := by
    rw [Nat.shiftRight_eq_div_pow, Nat.add_mul_div_left _ _ hpos, Nat.div_eq_of_lt hk, Nat.zero_add]
  have hmiddle : (j + 2 ^ d * i) &&& (2 ^ d - 1) = j := by
    rw [Nat.and_two_pow_sub_one_eq_mod, Nat.add_mul_mod_self_left, Nat.mod_eq_of_lt hj]
  have hhigh : (k + 2 ^ d * (j + 2 ^ d * i)) >>> (2 * d) = i := by
    rw [two_mul, Nat.shiftRight_add, hshift, Nat.shiftRight_eq_div_pow,
      Nat.add_mul_div_left _ _ hpos, Nat.div_eq_of_lt hj, Nat.zero_add]
  have htop : i &&& (2 ^ d - 1) = i := by
    rw [Nat.and_two_pow_sub_one_eq_mod, Nat.mod_eq_of_lt hi]
  have hsquared : 2 ^ (2 * d) = 2 ^ d * 2 ^ d := by
    rw [two_mul, pow_add]
  simp only [productWiring, hlow, hshift, hmiddle, hhigh, htop, Nat.shiftLeft_eq, hsquared,
    GateWiring.mk.injEq, true_and]
  constructor <;> ring

/-- The factors are there. -/
theorem productWiring_wired : ∀ g < 2 ^ (3 * d), (productWiring d g).type ≠ .divInt ∧
    (productWiring d g).in1 < 2 ^ (2 * d + 1) + (2 ^ (2 * d) + 1) ∧
      (productWiring d g).in2 < 2 ^ (2 * d + 1) + (2 ^ (2 * d) + 1) := by
  intro g hg
  have hcube : 2 ^ (3 * d) = 2 ^ d * 2 ^ d * 2 ^ d := by
    rw [← pow_add, ← pow_add]
    congr 1
    ring
  have hsquared : 2 ^ (2 * d + 1) = 2 ^ d * (2 ^ d * 2) := by
    rw [pow_succ, two_mul, pow_add, mul_assoc]
  obtain ⟨k, hk, j, hj, i, hi, rfl⟩ := exists_digits (hcube ▸ hg)
  rw [productWiring_digits hk hj hi, hsquared]
  have hin1 : k + 2 ^ d * i < 2 ^ d * (2 ^ d * 2) :=
    digits_lt hk (hi.trans (lt_mul_of_one_lt_right (Nat.two_pow_pos d) one_lt_two))
  have hin2 : j + 2 ^ d * (k + 2 ^ d * 1) < 2 ^ d * (2 ^ d * 2) :=
    digits_lt hj (digits_lt hk one_lt_two)
  exact ⟨GateType.noConfusion, Nat.lt_add_right _ hin1, Nat.lt_add_right _ hin2⟩

/-- A label of two digits, with two more bits. -/
theorem lagrange_two_digits (x : ℕ → ZMod p) {j k : ℕ} (hj : j < 2 ^ d) (hk : k < 2 ^ d) :
    lagrange x (2 * d + 1 + 1) (j + 2 ^ d * k) =
      lagrange x d j * lagrange (shiftPoint d x) d k *
        ((1 - x (2 * d)) * (1 - x (2 * d + 1))) := by
  have hlt : j + 2 ^ d * k < 2 ^ (2 * d) := by
    rw [two_mul, pow_add]
    exact digits_lt hj hk
  have hdigits : lagrange x (2 * d) (j + 2 ^ d * k) =
      lagrange x d j * lagrange (shiftPoint d x) d k := by
    rw [two_mul, lagrange_digits x hj]
  rw [lagrange_succ_lt x (hlt.trans (Nat.pow_lt_pow_succ one_lt_two)), lagrange_succ_lt x hlt,
    hdigits, mul_assoc]

/-- The same with the first of these bits. -/
theorem lagrange_two_digits_one (x : ℕ → ZMod p) {j k : ℕ} (hj : j < 2 ^ d) (hk : k < 2 ^ d) :
    lagrange x (2 * d + 1 + 1) (j + 2 ^ d * (k + 2 ^ d * 1)) =
      lagrange x d j * lagrange (shiftPoint d x) d k * (x (2 * d) * (1 - x (2 * d + 1))) := by
  have hlt : j + 2 ^ d * (k + 2 ^ d * 1) < 2 ^ (2 * d + 1) := by
    rw [two_mul, pow_succ, pow_add, mul_assoc]
    exact digits_lt hj (digits_lt hk one_lt_two)
  have htop : shiftPoint d x d = x (2 * d) := congrArg x (two_mul d).symm
  have hdigits : lagrange x (2 * d + 1) (j + 2 ^ d * (k + 2 ^ d * 1)) =
      lagrange x d j * lagrange (shiftPoint d x) d k * x (2 * d) := by
    rw [two_mul, Nat.add_assoc, lagrange_digits x hj, mul_one, lagrange_succ_add _ hk, htop,
      ← two_mul, mul_assoc]
  rw [lagrange_succ_lt x hlt, hdigits, mul_assoc]

/-- A label of three digits, with one more bit. -/
theorem lagrange_three_digits (x : ℕ → ZMod p) {k j i : ℕ} (hk : k < 2 ^ d) (hj : j < 2 ^ d)
    (hi : i < 2 ^ d) :
    lagrange x (2 * d + d + 1) (k + 2 ^ d * (j + 2 ^ d * i)) =
      lagrange x d k * lagrange (shiftPoint d x) d j * lagrange (shiftPoint (2 * d) x) d i *
        (1 - x (2 * d + d)) := by
  have hthree : 2 * d + d = d + (d + d) := by ring
  have hlt : k + 2 ^ d * (j + 2 ^ d * i) < 2 ^ (2 * d + d) := by
    rw [hthree, pow_add, pow_add]
    exact digits_lt hk (digits_lt hj hi)
  have hshift : shiftPoint d (shiftPoint d x) = shiftPoint (2 * d) x := by
    rw [shiftPoint_shiftPoint, two_mul]
  rw [lagrange_succ_lt x hlt]
  conv_lhs => rw [hthree, lagrange_digits x hk, lagrange_digits _ hj, hshift, ← mul_assoc, ← hthree]

/-- The extension of the wiring of the products. -/
theorem sum_productWiring (x : ℕ → ZMod p) :
    ∑ g ∈ Finset.range (2 ^ (3 * d)),
        wireTerm .mul (2 * d + d + 1) (2 * d + 1 + 1) x g (productWiring d g) =
      agreement [shiftPoint (2 * d) x, shiftPoint d (shiftPoint (2 * d + d + 1) x)] d *
        agreement [shiftPoint (2 * d + d + 1) x,
          shiftPoint d (shiftPoint (2 * d + d + 1 + (2 * d + 1 + 1)) x), x] d *
        agreement [shiftPoint d x, shiftPoint (2 * d + d + 1 + (2 * d + 1 + 1)) x] d *
        ((1 - x (2 * d + d)) *
          ((1 - shiftPoint (2 * d + d + 1) x (2 * d)) *
            (1 - shiftPoint (2 * d + d + 1) x (2 * d + 1))) *
          (shiftPoint (2 * d + d + 1 + (2 * d + 1 + 1)) x (2 * d) *
            (1 - shiftPoint (2 * d + d + 1 + (2 * d + 1 + 1)) x (2 * d + 1)))) := by
  have hcube : 2 ^ (3 * d) = 2 ^ d * (2 ^ d * 2 ^ d) := by
    rw [← pow_add, ← pow_add]
    congr 1
    ring
  let u := shiftPoint (2 * d + d + 1) x
  let v := shiftPoint (2 * d + d + 1 + (2 * d + 1 + 1)) x
  let e := (1 - x (2 * d + d)) * ((1 - u (2 * d)) * (1 - u (2 * d + 1))) *
    (v (2 * d) * (1 - v (2 * d + 1)))
  rw [hcube, sum_range_mul, sum_range_mul]
  calc ∑ i ∈ Finset.range (2 ^ d), ∑ j ∈ Finset.range (2 ^ d), ∑ k ∈ Finset.range (2 ^ d),
        wireTerm .mul (2 * d + d + 1) (2 * d + 1 + 1) x (k + 2 ^ d * (j + 2 ^ d * i))
          (productWiring d (k + 2 ^ d * (j + 2 ^ d * i)))
      = ∑ i ∈ Finset.range (2 ^ d), ∑ j ∈ Finset.range (2 ^ d), ∑ k ∈ Finset.range (2 ^ d),
          lagrange u d k * (lagrange (shiftPoint d v) d k * lagrange x d k) *
            (lagrange (shiftPoint d x) d j * lagrange v d j) *
            (lagrange (shiftPoint (2 * d) x) d i * lagrange (shiftPoint d u) d i) * e := by
        refine Finset.sum_congr rfl fun i hi => Finset.sum_congr rfl fun j hj =>
          Finset.sum_congr rfl fun k hk => ?_
        rw [Finset.mem_range] at hk hj hi
        rw [productWiring_digits hk hj hi, wireTerm_self, lagrange_three_digits x hk hj hi,
          lagrange_two_digits _ hk hi, lagrange_two_digits_one _ hj hk]
        ring
    _ = agreement [shiftPoint (2 * d) x, shiftPoint d u] d * agreement [u, shiftPoint d v, x] d *
          agreement [shiftPoint d x, v] d * e := by
        rw [sum_digits]
        simp only [← sum_lagrange, List.map_cons, List.map_nil, List.prod_cons, List.prod_nil,
          mul_one]
        ring

/-- The products. -/
theorem productLevel_matches (hd : 1 ≤ d) :
    Matches p (productLevel d (2 ^ (2 * d)) (2 ^ (3 * d))) (3 * 2 ^ (2 * d) + 1) := by
  have hs : 3 * 2 ^ (2 * d) + 1 = 2 ^ (2 * d + 1) + (2 ^ (2 * d) + 1) := by
    rw [pow_succ]
    ring
  have hcarry : 2 * 2 ^ (2 * d) ≤ 2 ^ (3 * d) := by
    rw [← pow_succ']
    exact Nat.pow_le_pow_right Nat.two_pos (by omega)
  have hpos : 0 < 2 ^ (2 * d) := Nat.two_pow_pos _
  have hthree : 3 * d = 2 * d + d := by ring
  have hmi : log2i (2 ^ (3 * d) + (2 ^ (2 * d) + 1)) = 2 * d + d + 1 := by
    rw [← hthree]
    exact log2i_eq (by omega) (by rw [pow_succ]; omega)
  have hmip1 : log2i (2 ^ (2 * d + 1) + (2 ^ (2 * d) + 1)) = 2 * d + 1 + 1 :=
    log2i_eq (by omega) (by rw [pow_succ 2 (2 * d + 1), pow_succ]; omega)
  rw [productLevel, hs]
  refine matches_blocks (CircuitLayer.wired_blocks productWiring_wired (carryWiring_wired _ _ _))
    (by omega) (by omega) hmi hmip1 (fun rand => ?_) fun rand => ?_
  · have hdata : ∑ g ∈ Finset.range (2 ^ (3 * d)), wireTerm .add (2 * d + d + 1) (2 * d + 1 + 1)
        (castVec p rand) g (productWiring d g) = 0 :=
      Finset.sum_eq_zero fun g _ => wireTerm_add_mul ..
    rw [hdata, zero_add, sum_carryWiring, hthree]
    exact cast_matAdd63P3d rand d _ _
  · rw [sum_carryWiring_mul, add_zero, sum_productWiring]
    exact cast_matMult63P3d rand d _ _

end Products

end Pepper.Cmtgkr.MatmulCircuit
