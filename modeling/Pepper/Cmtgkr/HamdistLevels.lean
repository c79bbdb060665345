import Pepper.Cmtgkr.HamdistCircuit
import Pepper.Foundations.Fourier

/-!
# The levels of the Hamming distance circuit

Every level of `HamdistCircuit` only reads gates that are there, and the functions that it comes
with are the extensions of its wiring (`Fits`), whatever the field.
-/

set_option autoImplicit false

open Pepper.Common.Gmp Pepper.Foundations.Loop Pepper.Foundations.Multilinear
open Pepper.Foundations.Fourier
open Pepper.Cmtgkr.Env Pepper.Cmtgkr.Layer Pepper.Cmtgkr.Layer.CMTCircuit
open Pepper.Cmtgkr.HamdistPredicates

namespace Pepper.Cmtgkr.HamdistCircuit

/-- A level over a level of `s` gates. -/
structure Fits (p : ℕ) (l : CircuitLayer) (s : ℕ) : Prop where
  wired : Wired l s
  predicates : Matches p l s

/-! ## Sizes and wirings -/

section Wiring

theorem log2i_two_pow_add_two {k : ℕ} (hk : 1 ≤ k) : log2i (2 ^ k + 2) = k + 1 := by
  have htwo : 2 ≤ 2 ^ k := Nat.le_self_pow (by omega) 2
  refine log2i_eq (by omega) ?_
  rw [pow_succ]
  omega

theorem log2i_two_mul_add_two (d : ℕ) : log2i (2 * 2 ^ d + 2) = d + 2 := by
  rw [← pow_succ', log2i_two_pow_add_two (Nat.succ_pos d)]

/-- The gates that carry the last two gates of the level before. -/
theorem lastWiring_eq {shift : ℤ} {m i j : ℕ} (h : shift + i = (m + j : ℕ)) :
    lastWiring shift (m + 2) i = ⟨.add, m + j, m + 1⟩ := by
  rw [lastWiring, h, Int.toNat_natCast]
  rfl

/-- The pairs of a level with `2 * a` gates are there. -/
theorem pairWiring_wired {type : GateType} (htype : type ≠ .divInt) {a s : ℕ} (hs : 2 * a ≤ s) :
    ∀ g < a, (pairWiring type g).type ≠ .divInt ∧ (pairWiring type g).in1 < s ∧
      (pairWiring type g).in2 < s := by
  intro g hg
  refine ⟨htype, ?_, ?_⟩
  · dsimp only [pairWiring]
    omega
  · dsimp only [pairWiring]
    omega

theorem secondWiring_even (s h : ℕ) : secondWiring s (2 * h) = ⟨.add, h, s - 1⟩ := by
  have hbit : (2 * h).testBit 0 = false := by simp
  have hhalf : (2 * h) >>> 1 = h := by rw [Nat.shiftRight_one]; omega
  rw [secondWiring, hbit, hhalf]
  rfl

theorem secondWiring_odd (s h : ℕ) : secondWiring s (2 * h + 1) = ⟨.mul, h, h⟩ := by
  have hbit : (2 * h + 1).testBit 0 = true := by simp
  have hhalf : (2 * h + 1) >>> 1 = h := by rw [Nat.shiftRight_one]; omega
  rw [secondWiring, hbit, hhalf]
  rfl

theorem towerWiring_even (bit : Bool) (s h : ℕ) :
    towerWiring bit s (2 * h) =
      if bit then ⟨.mul, 2 * h, 2 * h + 1⟩ else ⟨.add, 2 * h, s - 1⟩ := by
  have hbit : (2 * h).testBit 0 = false := by simp
  rw [towerWiring, hbit]
  rfl

theorem towerWiring_odd (bit : Bool) (s h : ℕ) :
    towerWiring bit s (2 * h + 1) = ⟨.mul, 2 * h + 1, 2 * h + 1⟩ := by
  have hbit : (2 * h + 1).testBit 0 = true := by simp
  rw [towerWiring, hbit]
  rfl

end Wiring

/-! ## Levels that fit -/

section Levels

variable {p d : ℕ}

/-- The two gates behind the data gates, as the functions have them. -/
theorem sum_lastWiring {gateType : GateType} (mi mip1 : ℕ) (r : ℕ → ZMod p) {shift : ℤ} {a m : ℕ}
    (hshift : shift + a = m) :
    ∑ j ∈ Finset.range 2, wireTerm gateType mi mip1 r (a + j) (lastWiring shift (m + 2) (a + j)) =
      ∑ j ∈ Finset.range 2, wireTerm gateType mi mip1 r (a + j) ⟨.add, m + j, m + 1⟩ := by
  refine Finset.sum_congr rfl fun j _ => ?_
  rw [lastWiring_eq (j := j) (by push_cast; linarith)]

theorem sum_lastWiring_mul (mi mip1 : ℕ) (r : ℕ → ZMod p) {shift : ℤ} {a m : ℕ}
    (hshift : shift + a = m) :
    ∑ j ∈ Finset.range 2, wireTerm .mul mi mip1 r (a + j) (lastWiring shift (m + 2) (a + j)) =
      0 := by
  rw [sum_lastWiring mi mip1 r hshift]
  exact Finset.sum_eq_zero fun j _ => wireTerm_mul_add ..

/-- The gates behind the data gates are there. -/
theorem lastWiring_wired {shift : ℤ} {a m : ℕ} (hshift : shift + a = m) :
    ∀ j < 2, (lastWiring shift (m + 2) (a + j)).type ≠ .divInt ∧
      (lastWiring shift (m + 2) (a + j)).in1 < m + 2 ∧
        (lastWiring shift (m + 2) (a + j)).in2 < m + 2 := by
  intro j hj
  rw [lastWiring_eq (j := j) (by push_cast; linarith)]
  exact ⟨GateType.noConfusion, by dsimp only; omega, by dsimp only; omega⟩

theorem addLevel_fits (hd : 1 ≤ d) : Fits p (addLevel d) (2 * 2 ^ d + 2) := by
  have hshift : ((2 ^ d : ℕ) : ℤ) + (2 ^ d : ℕ) = (2 * 2 ^ d : ℕ) := by push_cast; ring
  have hwired : Wired (addLevel d) (2 * 2 ^ d + 2) :=
    CircuitLayer.wired_blocks (fun j hj => ⟨GateType.noConfusion, by dsimp only; omega,
      by dsimp only; omega⟩) (lastWiring_wired hshift)
  refine ⟨hwired, matches_blocks hwired (Nat.succ_pos _) (Nat.succ_pos _) (log2i_two_pow_add_two hd)
    (log2i_two_mul_add_two d) (fun rand => ?_) fun rand => ?_⟩
  · rw [cast_hamdistAddWrap, cast_hamdistSumVec, cast_hamdistAddLastTwo,
      sum_lastWiring _ _ _ hshift]
  · rw [cast_zero, sum_lastWiring_mul _ _ _ hshift, add_zero]
    exact (Finset.sum_eq_zero fun g _ => wireTerm_mul_add ..).symm

theorem squareLevel_fits (hd : 1 ≤ d) : Fits p (squareLevel d) (2 ^ d + 2) := by
  have hshift : (0 : ℤ) + (2 ^ d : ℕ) = (2 ^ d : ℕ) := zero_add _
  have hwired : Wired (squareLevel d) (2 ^ d + 2) :=
    CircuitLayer.wired_blocks (fun j hj => ⟨GateType.noConfusion, by dsimp only; omega,
      by dsimp only; omega⟩) (lastWiring_wired hshift)
  refine ⟨hwired, matches_blocks hwired (Nat.succ_pos _) (Nat.succ_pos _) (log2i_two_pow_add_two hd)
    (log2i_two_pow_add_two hd) (fun rand => ?_) fun rand => ?_⟩
  · rw [cast_hamdistAddLastTwo, sum_lastWiring _ _ _ hshift,
      Finset.sum_eq_zero fun g _ => wireTerm_add_mul .., zero_add]
  · rw [cast_hamdistFltMulLvl1, sum_lastWiring_mul _ _ _ hshift, add_zero]
    simp only [Nat.zero_add]

theorem secondLevel_fits (hd : 1 ≤ d) : Fits p (secondLevel d) (2 ^ d + 2) := by
  have hshift : -((2 ^ d : ℕ) : ℤ) + (2 * 2 ^ d : ℕ) = (2 ^ d : ℕ) := by push_cast; ring
  have hdata : ∀ j < 2 * 2 ^ d, (secondWiring (2 ^ d + 2) j).type ≠ .divInt ∧
      (secondWiring (2 ^ d + 2) j).in1 < 2 ^ d + 2 ∧
        (secondWiring (2 ^ d + 2) j).in2 < 2 ^ d + 2 := by
    intro j hj
    obtain ⟨h, rfl | rfl⟩ := Nat.even_or_odd' j
    · rw [secondWiring_even]
      exact ⟨GateType.noConfusion, by dsimp only; omega, by dsimp only; omega⟩
    · rw [secondWiring_odd]
      exact ⟨GateType.noConfusion, by dsimp only; omega, by dsimp only; omega⟩
  have hwired : Wired (secondLevel d) (2 ^ d + 2) :=
    CircuitLayer.wired_blocks hdata (lastWiring_wired hshift)
  refine ⟨hwired, matches_blocks hwired (Nat.succ_pos _) (Nat.succ_pos _) (log2i_two_mul_add_two d)
    (log2i_two_pow_add_two hd) (fun rand => ?_) fun rand => ?_⟩
  · rw [cast_hamdistAddWrap, cast_hamdistFltAddLvl2, cast_hamdistAddLastTwo,
      sum_lastWiring _ _ _ hshift, sum_range_two_mul]
    simp only [secondWiring_even, secondWiring_odd, wireTerm_add_mul, Finset.sum_const_zero,
      add_zero]
    rfl
  · rw [cast_hamdistFltMulLvl2, sum_lastWiring_mul _ _ _ hshift, sum_range_two_mul]
    simp only [secondWiring_even, secondWiring_odd, wireTerm_mul_add, Finset.sum_const_zero,
      add_zero, zero_add]

theorem towerLevel_fits (psub1 k : ℕ) : Fits p (towerLevel psub1 d k) (2 * 2 ^ d + 2) := by
  have hshift : (0 : ℤ) + (2 * 2 ^ d : ℕ) = (2 * 2 ^ d : ℕ) := zero_add _
  have hdata : ∀ j < 2 * 2 ^ d,
      (towerWiring (psub1.testBit (k + 2)) (2 * 2 ^ d + 2) j).type ≠ .divInt ∧
        (towerWiring (psub1.testBit (k + 2)) (2 * 2 ^ d + 2) j).in1 < 2 * 2 ^ d + 2 ∧
          (towerWiring (psub1.testBit (k + 2)) (2 * 2 ^ d + 2) j).in2 < 2 * 2 ^ d + 2 := by
    intro j hj
    obtain ⟨h, rfl | rfl⟩ := Nat.even_or_odd' j
    · rw [towerWiring_even]
      split_ifs
      · exact ⟨GateType.noConfusion, by dsimp only; omega, by dsimp only; omega⟩
      · exact ⟨GateType.noConfusion, by dsimp only; omega, by dsimp only; omega⟩
    · rw [towerWiring_odd]
      exact ⟨GateType.noConfusion, by dsimp only; omega, by dsimp only; omega⟩
  have hwired : Wired (towerLevel psub1 d k) (2 * 2 ^ d + 2) :=
    CircuitLayer.wired_blocks hdata (lastWiring_wired hshift)
  refine ⟨hwired, matches_blocks hwired (Nat.succ_pos _) (Nat.succ_pos _) (log2i_two_mul_add_two d)
    (log2i_two_mul_add_two d) (fun rand => ?_) fun rand => ?_⟩
  · rw [cast_hamdistAddWrap, cast_hamdistFltAdd, cast_hamdistAddLastTwo,
      sum_lastWiring _ _ _ hshift, sum_range_two_mul]
    cases psub1.testBit (k + 2) <;>
      simp [towerWiring_even, towerWiring_odd]
  · rw [cast_hamdistFltMul, sum_lastWiring_mul _ _ _ hshift, sum_range_two_mul, add_zero,
      ← Finset.sum_add_distrib]
    refine Finset.sum_congr rfl fun h _ => ?_
    rw [towerWiring_even, towerWiring_odd]
    cases psub1.testBit (k + 2) <;> rfl

theorem lastLevel_fits (hd : 1 ≤ d) : Fits p (lastLevel d) (2 * 2 ^ d + 2) := by
  have hshift : ((2 ^ d : ℕ) : ℤ) + (2 ^ d : ℕ) = (2 * 2 ^ d : ℕ) := by push_cast; ring
  have hwired : Wired (lastLevel d) (2 * 2 ^ d + 2) :=
    CircuitLayer.wired_blocks (pairWiring_wired GateType.noConfusion (Nat.le_add_right _ 2))
      (lastWiring_wired hshift)
  refine ⟨hwired, matches_blocks hwired (Nat.succ_pos _) (Nat.succ_pos _) (log2i_two_pow_add_two hd)
    (log2i_two_mul_add_two d) (fun rand => ?_) fun rand => ?_⟩
  · have hdata : ∀ g ∈ Finset.range (2 ^ d),
        wireTerm .add (d + 1) (d + 2) (castVec p rand) g (pairWiring .mul g) = 0 := fun g _ =>
      wireTerm_add_mul ..
    rw [cast_hamdistAddLastTwo, sum_lastWiring _ _ _ hshift, Finset.sum_eq_zero hdata, zero_add]
  · rw [cast_hamdistReduce _ _ .mul, sum_lastWiring_mul _ _ _ hshift, add_zero]
    rfl

theorem sumLevel_fits {k : ℕ} (hk : k < d - 1) : Fits p (sumLevel d k) (2 ^ (d - k) + 2) := by
  obtain ⟨i, hi⟩ : ∃ i, d - 1 - k = i + 1 := ⟨d - 1 - k - 1, by omega⟩
  have hdouble : 2 ^ (d - k) = 2 * 2 ^ (i + 1) := by
    rw [← pow_succ']
    congr 1
    omega
  have hshift : ((2 ^ (i + 1) : ℕ) : ℤ) + (2 ^ (i + 1) : ℕ) = (2 * 2 ^ (i + 1) : ℕ) := by
    push_cast; ring
  rw [sumLevel, hdouble, hi]
  have hwired : Wired (.blocks (2 ^ (i + 1)) 2 (hamdistAddWrap hamdistReduce) zero
      (pairWiring .add) (lastWiring (2 ^ (i + 1) : ℕ) (2 * 2 ^ (i + 1) + 2)))
      (2 * 2 ^ (i + 1) + 2) :=
    CircuitLayer.wired_blocks (pairWiring_wired GateType.noConfusion (Nat.le_add_right _ 2))
      (lastWiring_wired hshift)
  refine ⟨hwired, matches_blocks hwired (Nat.succ_pos _) (Nat.succ_pos _)
    (log2i_two_pow_add_two (Nat.succ_pos i)) (log2i_two_mul_add_two (i + 1)) (fun rand => ?_)
    fun rand => ?_⟩
  · rw [cast_hamdistAddWrap, cast_hamdistReduce _ _ .add, cast_hamdistAddLastTwo,
      sum_lastWiring _ _ _ hshift]
    rfl
  · rw [cast_zero, sum_lastWiring_mul _ _ _ hshift, add_zero]
    exact (Finset.sum_eq_zero fun g _ => wireTerm_mul_add ..).symm

/-- `reduce` on more than one gate. -/
theorem cast_reduce (rand : Vec) (k nip1 : ℕ) {ni : ℕ} (hni : ni ≠ 1) :
    ((reduce rand k (k + 1) ni nip1 p : ℤ) : ZMod p) =
      ∑ g ∈ Finset.range (2 ^ k),
        wireTerm .add k (k + 1) (castVec p rand) g (pairWiring .add g) := by
  rw [sum_eq_agreement_three (castVec p rand) (shiftPoint 1 (shiftPoint k (castVec p rand)))
    (shiftPoint 1 (shiftPoint (k + (k + 1)) (castVec p rand)))
    ((1 - shiftPoint k (castVec p rand) 0) * shiftPoint (k + (k + 1)) (castVec p rand) 0)]
  · simp only [reduce, if_neg hni, Nat.add_sub_cancel, cast_modmult, Int.cast_mul, cast_oneSub,
      cast_checkEqual_zero, List.map_cons, List.map_nil, castVec_offset, shiftPoint_shiftPoint,
      Int.cast_one, one_mul]
    simp only [shiftPoint, castVec_apply, Nat.add_zero]
    ring
  · intro g _
    rw [pairWiring, wireTerm_self, lagrange_two_mul, lagrange_two_mul_add_one]
    ring

/-- `reduce` on one gate. -/
theorem cast_reduce_one (rand : Vec) (nip1 : ℕ) :
    ((reduce rand 1 1 1 nip1 p : ℤ) : ZMod p) =
      wireTerm .add 1 1 (castVec p rand) 0 (pairWiring .add 0) := by
  rw [pairWiring, wireTerm_self, reduce, if_pos rfl, cast_modmult, Int.cast_mul, cast_oneSub,
    cast_oneSub]
  simp [lagrange, shiftPoint]

theorem twoLevel_fits : Fits p twoLevel 4 := by
  have hwired : Wired twoLevel 4 :=
    CircuitLayer.wired_blocks (pairWiring_wired GateType.noConfusion (by decide))
      fun j hj => absurd hj (Nat.not_lt_zero j)
  have hmi : log2i (2 + 0) = 1 := log2i_two_pow le_rfl
  have hmip1 : log2i 4 = 2 := log2i_two_pow (k := 2) (by decide)
  refine ⟨hwired, matches_blocks hwired (by decide) (by decide) hmi hmip1 (fun rand => ?_)
    fun rand => ?_⟩
  · rw [cast_reduce rand 1 4 (by decide), Finset.sum_range_zero, add_zero]
    rfl
  · rw [cast_zero, Finset.sum_range_zero, add_zero]
    exact (Finset.sum_eq_zero fun g _ => wireTerm_mul_add ..).symm

theorem oneLevel_fits : Fits p oneLevel 2 := by
  have hwired : Wired oneLevel 2 :=
    CircuitLayer.wired_blocks (pairWiring_wired GateType.noConfusion (by decide))
      fun j hj => absurd hj (Nat.not_lt_zero j)
  have hmi : log2i (1 + 0) = 1 := rfl
  have hmip1 : log2i 2 = 1 := log2i_two_pow le_rfl
  refine ⟨hwired, matches_blocks hwired (by decide) (by decide) hmi hmip1 (fun rand => ?_)
    fun rand => ?_⟩
  · rw [Finset.sum_range_one, Finset.sum_range_zero]
    exact (cast_reduce_one rand 2).trans (add_zero _).symm
  · rw [cast_zero, Finset.sum_range_zero, add_zero]
    exact (Finset.sum_eq_zero fun g _ => wireTerm_mul_add ..).symm

end Levels

/-! ## All levels -/

section Stack

variable {p d : ℕ}

theorem towerLevels_stacked (hd : 1 ≤ d) :
    Stacked (Fits p) (2 * 2 ^ d + 2) (2 ^ d + 2) (towerLevels p d) := by
  have hfirst : Stacked (Fits p) (2 * 2 ^ d + 2) (2 * 2 ^ d + 2)
      [secondLevel d, squareLevel d, addLevel d] :=
    ((Stacked.nil.push (addLevel_fits hd) CircuitLayer.size_blocks).push (squareLevel_fits hd)
      CircuitLayer.size_blocks).push (secondLevel_fits hd) CircuitLayer.size_blocks
  have htower := @Stacked.stack (Fits p) (towerLevel (p - 1) d) (fun _ => 2 * 2 ^ d + 2)
    (getFLTDepth (p - 1) - 1 - 2) fun i _ =>
      ⟨CircuitLayer.size_blocks, towerLevel_fits (p - 1) i⟩
  exact (htower.append hfirst).push (lastLevel_fits hd) CircuitLayer.size_blocks

theorem sumLevels_stacked (hd : 1 ≤ d) : Stacked (Fits p) (2 ^ d + 2) 1 (sumLevels d) := by
  have hsums := @Stacked.stack (Fits p) (sumLevel d) (fun k => 2 ^ (d - k) + 2) (d - 1)
    fun k hk => by
      have hpred : d - 1 - k = d - (k + 1) := by omega
      refine ⟨?_, sumLevel_fits hk⟩
      rw [sumLevel, CircuitLayer.size_blocks, hpred]
  have htop : d - (d - 1) = 1 := by omega
  rw [htop, Nat.sub_zero] at hsums
  exact (hsums.push twoLevel_fits CircuitLayer.size_blocks).push oneLevel_fits
    CircuitLayer.size_blocks

/-- Every level of the circuit fits over the one before it. -/
theorem levels_stacked (hd : 1 ≤ d) :
    Stacked (Fits p) (inputLevel d).size 1 (sumLevels d ++ towerLevels p d) := by
  have hinput : (inputLevel d).size = 2 * 2 ^ d + 2 := CircuitLayer.size_fresh ..
  rw [hinput]
  exact (sumLevels_stacked hd).append (towerLevels_stacked hd)

theorem depth_circuit (p d : ℕ) :
    (circuit p d).depth = (sumLevels d ++ towerLevels p d).length + 1 := by
  rw [circuit, depth_ofList, Nat.zero_add]
  exact List.length_append

/-- The functions of every level are the extensions of its wiring. -/
theorem predicatesMatch (hd : 1 ≤ d) {lvl : ℕ} (hlvl : lvl + 1 < (circuit p d).depth) :
    (circuit p d).PredicatesMatch p lvl := by
  rw [depth_circuit] at hlvl
  have hinput : ([inputLevel d].getD 0 .empty).size = (inputLevel d).size := rfl
  have hfits := (levels_stacked (p := p) hd).level hinput (Nat.lt_of_succ_lt_succ hlvl)
  refine Matches.predicatesMatch ?_
  rw [circuit, layer_ofList_zero, layer_ofList_zero]
  exact hfits.predicates

end Stack

end Pepper.Cmtgkr.HamdistCircuit
