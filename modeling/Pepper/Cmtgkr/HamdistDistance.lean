import Pepper.Cmtgkr.HamdistValues

/-!
# The claimed Hamming distance

`HamdistCircuit::evaluate` counts the positions where the vectors differ and claims that number; the
circuit counts the positions where the sum of the entries is not zero, when its tower computes the
power for `p - 1`. Main results: `residues_run`, what the tower and the output hold, and
`computesDistance_iff`, the vectors and primes for which the claimed distance makes the output zero.
-/

set_option autoImplicit false

open Pepper.Common.Gmp Pepper.Foundations.Loop
open Pepper.Cmtgkr.Env Pepper.Cmtgkr.Layer Pepper.Cmtgkr.Layer.CMTCircuit

namespace Pepper.Cmtgkr.HamdistCircuit

/-! ## The input level -/

section Setting

variable (prime : ℤ) (data : CircuitData)

theorem setInt_self (lvl j : ℕ) (v : ℤ) :
    setInt prime data lvl j v lvl j = Gate.canonicalize prime { qValue := v, zValue := v } := by
  rw [setInt, Function.update_self, Function.update_self]

theorem setInt_of_ne {lvl i j : ℕ} (h : i ≠ j) (v : ℤ) :
    setInt prime data lvl j v lvl i = data lvl i := by
  rw [setInt, Function.update_self, Function.update_of_ne h]

end Setting

section Integers

variable {p : ℕ}

theorem canonicalize_integer [Fact p.Prime] (v : ℤ) :
    (Gate.canonicalize p { qValue := v, zValue := v }).IsInteger p ∧
      ((Gate.canonicalize p { qValue := v, zValue := v }).zValue : ZMod p) = v := by
  have hz : ((Gate.canonicalize p { qValue := v, zValue := v }).zValue : ZMod p) = v :=
    cast_modIfNeeded v 2
  obtain ⟨hden, hnum⟩ := modIfNeededQ_integer (p := p) (Rat.den_intCast v)
  exact ⟨⟨hden, hz.trans hnum.symm⟩, hz⟩

/-- A number that is reduced is kept. -/
theorem setValue_zValue [Fact p.Prime] (g : Gate) {v : ℤ} (hv : 0 ≤ v ∧ v < p) :
    (g.setValue p v).zValue = v := by
  have hp : (0 : ℤ) < p := hv.1.trans_lt hv.2
  have hreduced : convertToZ g.zValue v p = v := by
    have hcast := cast_convertToZ (p := p) g.zValue (Rat.den_intCast v)
    rw [Rat.num_intCast, ZMod.intCast_eq_intCast_iff, Int.ModEq, Int.emod_eq_of_lt hv.1 hv.2,
      convertToZ, Int.emod_emod_of_dvd _ (dvd_refl _)] at hcast
    exact hcast
  have hvalue : (g.setValue p v).zValue = modIfNeeded (convertToZ g.zValue v p) p 2 := rfl
  rw [hvalue, hreduced, modIfNeeded, Int.emod_eq_of_lt hv.1 hv.2, ite_self]

/-- The number of positions with different entries. -/
theorem countDifferences_eq (n lvl : ℕ) (data : CircuitData) :
    countDifferences n lvl data =
      ∑ i ∈ Finset.range n, if (data lvl i).zValue ≠ (data lvl (n + i)).zValue then 1 else 0 := by
  rw [countDifferences]
  refine forLoop_induction (P := fun k hamdist => hamdist = ∑ i ∈ Finset.range k,
    if (data lvl i).zValue ≠ (data lvl (n + i)).zValue then 1 else 0) rfl ?_
  rintro k - hamdist rfl
  rw [Finset.sum_range_succ]
  by_cases h : (data lvl k).zValue = (data lvl (n + k)).zValue
  · rw [if_pos h, if_neg (not_not_intro h), Nat.add_zero]
  · rw [if_neg h, if_pos h]

end Integers

/-- The inputs: both vectors. -/
def inputs {n : ℕ} (x y : Fin n → ℤ) : List ℚ :=
  (List.ofFn x ++ List.ofFn y).map fun v : ℤ => (v : ℚ)

/-- The run on both vectors. -/
def run (c : CMTCircuit) (p : ℕ) {n : ℕ} (x y : Fin n → ℤ) (data : CircuitData) : CircuitData :=
  evaluate c p (initializeInputs c p (inputs x y) data)

/-- The number of positions where the vectors differ. -/
def hammingDistance {n : ℕ} (x y : Fin n → ℤ) : ℕ := (Finset.univ.filter fun i => x i ≠ y i).card

/-- The entry that the tower raises to a power. -/
def summed (p : ℕ) {n : ℕ} (x y : Fin n → ℤ) (i : Fin n) : ZMod p := ((x i + y i : ℤ) : ZMod p)

section Run

variable {p d : ℕ} {x y : Fin (2 ^ d) → ℤ} (data : CircuitData)

theorem getElem?_inputs_left {n : ℕ} (x y : Fin n → ℤ) (i : Fin n) :
    (inputs x y)[i.val]? = some (x i : ℚ) := by
  have hlt : i.val < (List.ofFn x).length := by
    rw [List.length_ofFn]
    exact i.isLt
  rw [inputs, List.getElem?_map, List.getElem?_append_left hlt, List.getElem?_ofFn, dif_pos i.isLt]
  rfl

theorem getElem?_inputs_right {n : ℕ} (x y : Fin n → ℤ) (i : Fin n) :
    (inputs x y)[n + i.val]? = some (y i : ℚ) := by
  have hle : (List.ofFn x).length ≤ n + i.val := by
    rw [List.length_ofFn]
    exact Nat.le_add_right _ _
  rw [inputs, List.getElem?_map, List.getElem?_append_right hle, List.length_ofFn,
    Nat.add_sub_cancel_left, List.getElem?_ofFn, dif_pos i.isLt]
  rfl

theorem length_levels (hd : 1 ≤ d) (hp : 5 ≤ p) :
    (sumLevels d ++ towerLevels p d).length = getFLTDepth (p - 1) + d + 2 := by
  have hdepth := three_le_getFLTDepth hp
  simp only [sumLevels, towerLevels, List.length_append, List.length_cons, length_stack,
    List.length_nil]
  omega

/-- What the input level holds when the levels are evaluated. -/
structure InputLevel (p : ℕ) {d : ℕ} (x y : Fin (2 ^ d) → ℤ) (row : ℕ → Gate) : Prop where
  integer : ∀ j < 2 * 2 ^ d + 2, (row j).IsInteger p
  left : ∀ i : Fin (2 ^ d), ((row i).zValue : ZMod p) = x i
  right : ∀ i : Fin (2 ^ d), ((row (2 ^ d + i)).zValue : ZMod p) = y i
  carries : Carries (2 * 2 ^ d) (-(hammingDistance x y : ZMod p)) fun j => ((row j).zValue : ZMod p)

variable [Fact p.Prime]

omit [Fact p.Prime] in
/-- The inputs, when they are set. -/
theorem setGates_inputs (hd : 1 ≤ d) (hp : 5 ≤ p) {j : ℕ} (hj : j < 2 * 2 ^ d) {v : ℤ}
    (hv : (inputs x y)[j]? = some (v : ℚ)) :
    setGates p (circuit p d).inGates (inputs x y) data (sumLevels d ++ towerLevels p d).length j =
      (data (sumLevels d ++ towerLevels p d).length j).setValue p v := by
  rw [length_levels hd hp]
  have hgate := @getElem?_addGatesFromLevel (getFLTDepth (p - 1) + d + 2) 0 (2 * 2 ^ d) j (by omega)
  rw [Nat.zero_add] at hgate
  exact setGates_of_nodup p (nodup_addGatesFromLevel _ _ _) _ data hgate hv

/-- The circuit is evaluated on both vectors, the claimed distance and zero. -/
theorem run_eq (hd : 1 ≤ d) (hp : 5 ≤ p) (hx : ∀ i, 0 ≤ x i ∧ x i < p)
    (hy : ∀ i, 0 ≤ y i ∧ y i < p) :
    ∃ start : CircuitData, run (circuit p d) p x y data = (circuit p d).evaluate p start ∧
      InputLevel p x y (start (sumLevels d ++ towerLevels p d).length) := by
  set lvl := (sumLevels d ++ towerLevels p d).length with hlvl
  have hdepth : (circuit p d).depth - 1 = lvl := by
    rw [depth_circuit, Nat.add_sub_cancel]
  have hlast : ((circuit p d).layer lvl).size - 1 = 2 * 2 ^ d + 1 := by
    have hlayer : (circuit p d).layer lvl = inputLevel d := by
      rw [circuit, layer_ofList_zero, hlvl]
      simp [List.getD_eq_getElem?_getD]
    rw [hlayer, inputLevel, CircuitLayer.size_fresh]
    rfl
  have hentries : (circuit p d).inGates.length / 2 = 2 ^ d := by
    rw [circuit, ofList, length_addGatesFromLevel, Nat.sub_zero,
      Nat.mul_div_cancel_left _ Nat.two_pos]
  set filled := initializeInputs (circuit p d) p (inputs x y) data with hfilled
  -- the inputs that are counted
  have hinput : ∀ j < 2 * 2 ^ d, ∀ v : ℤ, (inputs x y)[j]? = some (v : ℚ) →
      filled lvl j = (data lvl j).setValue p v := by
    intro j hj v hv
    rw [hfilled, initializeInputs, hdepth, hlast, setInt_of_ne _ _ (by omega)]
    exact setGates_inputs data hd hp hj hv
  have hleft : ∀ i : Fin (2 ^ d), filled lvl i = (data lvl i).setValue p (x i) := fun i =>
    hinput i (by omega) _ (getElem?_inputs_left x y i)
  have hright : ∀ i : Fin (2 ^ d), filled lvl (2 ^ d + i) =
      (data lvl (2 ^ d + i)).setValue p (y i) := fun i =>
    hinput _ (by omega) _ (getElem?_inputs_right x y i)
  have hcount : countDifferences (2 ^ d) lvl filled = hammingDistance x y := by
    rw [countDifferences_eq, hammingDistance, Finset.card_filter, Finset.sum_range]
    refine Finset.sum_congr rfl fun i _ => ?_
    rw [hleft, hright, setValue_zValue _ (hx i), setValue_zValue _ (hy i)]
  have hzero : filled lvl (2 * 2 ^ d + 1) =
      Gate.canonicalize p { qValue := (0 : ℤ), zValue := 0 } := by
    rw [hfilled, initializeInputs, hdepth, hlast]
    exact setInt_self _ _ _ _ _
  -- and the claimed result between them
  set start := setInt p filled lvl (2 * 2 ^ d) (-(hammingDistance x y : ℤ)) with hstart
  have hself : start lvl (2 * 2 ^ d) = Gate.canonicalize p
      { qValue := ((-(hammingDistance x y : ℤ) : ℤ) : ℚ), zValue := -(hammingDistance x y : ℤ) } :=
    setInt_self _ _ _ _ _
  have hother : ∀ j, j ≠ 2 * 2 ^ d → start lvl j = filled lvl j := fun j hj =>
    setInt_of_ne _ _ hj _
  refine ⟨start, ?_, ?_, fun i => ?_, fun i => ?_, ?_, ?_⟩
  · rw [run, evaluate, hdepth, hentries, hcount]
  · intro j hj
    obtain hj | hj | rfl | rfl : j < 2 ^ d ∨ 2 ^ d ≤ j ∧ j < 2 * 2 ^ d ∨ j = 2 * 2 ^ d ∨
        j = 2 * 2 ^ d + 1 := by omega
    · rw [hother j (by omega), hleft ⟨j, hj⟩]
      exact setValue_integer _ _
    · obtain ⟨i, rfl⟩ := Nat.exists_eq_add_of_le hj.1
      rw [hother _ (by omega), hright ⟨i, by omega⟩]
      exact setValue_integer _ _
    · rw [hself]
      exact (canonicalize_integer _).1
    · rw [hother _ (by omega), hzero]
      exact (canonicalize_integer 0).1
  · rw [hother _ (by omega), hleft, cast_setValue]
  · rw [hother _ (by omega), hright, cast_setValue]
  · rw [hself, (canonicalize_integer _).2]
    push_cast
    rfl
  · rw [hother _ (by omega), hzero]
    exact (canonicalize_integer 0).2.trans Int.cast_zero

/-- The tower raises the sums, and the output adds the powers and the claimed distance. -/
theorem residues_run (hd : 1 ≤ d) (hp : 5 ≤ p) (hodd : p % 2 = 1) (hx : ∀ i, 0 ≤ x i ∧ x i < p)
    (hy : ∀ i, 0 ≤ y i ∧ y i < p) :
    (∀ i : Fin (2 ^ d), residue p (run (circuit p d) p x y data) (d + 1) i =
        summed p x y i ^ (p - 1 + excess (p - 1))) ∧
      residue p (run (circuit p d) p x y data) 0 0 =
        ∑ i, summed p x y i ^ (p - 1 + excess (p - 1)) - hammingDistance x y := by
  obtain ⟨start, hrun, hinput⟩ := run_eq data hd hp hx hy
  set levels := sumLevels d ++ towerLevels p d with hlevels
  have hsums : (sumLevels d).length = d + 1 := by
    simp only [sumLevels, List.length_cons, length_stack]
    omega
  have hwired : Stacked Wired (inputLevel d).size 1 levels :=
    (levels_stacked (p := p) hd).mono fun _ _ h => h.wired
  have hint : ∀ j < (inputLevel d).size, (start levels.length j).IsInteger p := by
    rw [inputLevel, CircuitLayer.size_fresh]
    exact hinput.integer
  obtain ⟨hpowers, hcarries⟩ := towerLevels_values (p := p) (d := d)
    (v := residue p start levels.length) (by omega) (three_le_getFLTDepth hp) (fun _ _ => rfl)
    hinput.carries
  have hpower : ∀ i : Fin (2 ^ d),
      levelValues (towerLevels p d) (residue p start levels.length) i =
        summed p x y i ^ (p - 1 + excess (p - 1)) := by
    intro i
    rw [summed, Int.cast_add, ← hinput.left i, ← hinput.right i]
    exact hpowers i i.isLt
  rw [hrun, circuit]
  refine ⟨fun i => ?_, ?_⟩
  · rw [residue_levels hwired hint, ← hsums, List.drop_left]
    · exact hpower i
    · rw [hlevels, List.length_append]
      omega
    · have hlevel : (levels ++ [inputLevel d]).getD (d + 1) .empty = lastLevel d := by
        rw [hlevels, List.append_assoc, ← hsums, List.getD_append_right _ _ _ _ le_rfl,
          Nat.sub_self]
        rfl
      rw [hlevel, lastLevel, CircuitLayer.size_blocks]
      exact Nat.lt_add_right 2 i.isLt
  · rw [residue_levels hwired hint (Nat.zero_le _), List.drop_zero, levelValues_append,
      sumLevels_values hd hcarries, Finset.sum_range, ← sub_eq_add_neg]
    · rw [Finset.sum_congr rfl fun i _ => hpower i]
    · rw [hlevels]
      exact Nat.zero_lt_one

end Run

/-! ## What the distance needs -/

section Counts

variable {p : ℕ} [Fact p.Prime]

/-- The tower computes the power for `p - 1` when the second bit of `p - 1` is set, and of the
entries whose cube is the entry. -/
theorem pow_excess_iff (hodd : p % 2 = 1) (u : ZMod p) :
    u ^ (p - 1 + excess (p - 1)) = u ^ (p - 1) ↔ p % 4 = 3 ∨ u = 0 ∨ u = 1 ∨ u = -1 := by
  have hbit : (p - 1).testBit 1 = decide (p % 4 = 3) := by
    rw [Nat.testBit_eq_decide_div_mod_eq, decide_eq_decide]
    omega
  have hpos : p - 1 ≠ 0 := by
    have htwo := (Fact.out : p.Prime).two_le
    omega
  rw [excess, hbit]
  by_cases hfour : p % 4 = 3
  · simp [hfour]
  · rw [decide_eq_false hfour, if_neg Bool.false_ne_true]
    by_cases hu : u = 0
    · simp [hu, hpos]
    · rw [pow_add, ZMod.pow_card_sub_one_eq_one hu, one_mul, sq_eq_one_iff]
      simp [hfour, hu]

/-- Fermat's power counts the entries that are not zero. -/
theorem sum_pow_card_sub_one {n : ℕ} (u : Fin n → ZMod p) :
    ∑ i, u i ^ (p - 1) = ((Finset.univ.filter fun i => u i ≠ 0).card : ZMod p) := by
  have hpos : p - 1 ≠ 0 := by
    have htwo := (Fact.out : p.Prime).two_le
    omega
  rw [← Finset.sum_boole]
  refine Finset.sum_congr rfl fun i _ => ?_
  by_cases hu : u i = 0
  · rw [hu, zero_pow hpos, if_neg (not_not_intro rfl)]
  · rw [ZMod.pow_card_sub_one_eq_one hu, if_pos hu]

/-- Positions where the vectors differ, and positions where their sum is not zero. -/
theorem hammingDistance_add_card (hodd : p % 2 = 1) {n : ℕ} {x y : Fin n → ℤ}
    (hx : ∀ i, 0 ≤ x i ∧ x i < p) (hy : ∀ i, 0 ≤ y i ∧ y i < p) :
    hammingDistance x y + (Finset.univ.filter fun i => x i = y i ∧ x i ≠ 0).card =
      (Finset.univ.filter fun i => summed p x y i ≠ 0).card +
        (Finset.univ.filter fun i => x i ≠ y i ∧ x i + y i = p).card := by
  simp only [hammingDistance, Finset.card_filter, ← Finset.sum_add_distrib]
  refine Finset.sum_congr rfl fun i _ => ?_
  obtain ⟨hx0, hxp⟩ := hx i
  obtain ⟨hy0, hyp⟩ := hy i
  have hzero : summed p x y i = 0 ↔ x i + y i = 0 ∨ x i + y i = p := by
    rw [summed, ZMod.intCast_zmod_eq_zero_iff_dvd]
    constructor
    · rintro ⟨k, hk⟩
      obtain hk0 | rfl | hk2 : k ≤ 0 ∨ k = 1 ∨ 2 ≤ k := by omega
      · left
        nlinarith
      · right
        linarith
      · nlinarith
    · rintro (h | h) <;> simp [h]
  simp only [ne_eq, hzero]
  split_ifs <;> omega

end Counts

/-! ## The claimed distance -/

/-- The circuit is built, every level has the extensions of its wiring as predicates, the tower
leaves the powers for `p - 1` of the sums, and the claimed distance makes the output zero. -/
def ComputesDistance (p d : ℕ) (x y : Fin (2 ^ d) → ℤ) (data : CircuitData) : Prop :=
  ∃ c, constructCircuit p d = some c ∧
    (∀ lvl, lvl + 1 < c.depth → c.PredicatesMatch p lvl) ∧
    (∀ i : Fin (2 ^ d), residue p (run c p x y data) (d + 1) i = summed p x y i ^ (p - 1)) ∧
    residue p (run c p x y data) 0 0 = 0

section Distance

variable {p d : ℕ} [Fact p.Prime] {x y : Fin (2 ^ d) → ℤ}

/-- When the circuit is built, the powers and their sum are left. -/
theorem computesDistance_iff_powers (hd : 1 ≤ d) (hint : d ≤ 29) (hp : 5 ≤ p) (hodd : p % 2 = 1)
    (hx : ∀ i, 0 ≤ x i ∧ x i < p) (hy : ∀ i, 0 ≤ y i ∧ y i < p) (data : CircuitData) :
    ComputesDistance p d x y data ↔
      (∀ i, summed p x y i ^ (p - 1 + excess (p - 1)) = summed p x y i ^ (p - 1)) ∧
        ((Finset.univ.filter fun i => summed p x y i ≠ 0).card : ZMod p) = hammingDistance x y := by
  obtain ⟨hpowers, houtput⟩ := residues_run data hd hp hodd hx hy
  have hbuilt : ComputesDistance p d x y data ↔
      (∀ i : Fin (2 ^ d), residue p (run (circuit p d) p x y data) (d + 1) i =
        summed p x y i ^ (p - 1)) ∧ residue p (run (circuit p d) p x y data) 0 0 = 0 := by
    simp only [ComputesDistance, constructCircuit_eq hd hint hp, Option.some.injEq,
      exists_eq_left']
    exact and_iff_right fun lvl hlvl => predicatesMatch hd hlvl
  simp only [hbuilt, hpowers, houtput]
  refine and_congr_right fun hpower => ?_
  simp only [hpower]
  rw [sum_pow_card_sub_one, sub_eq_zero]

/-- The circuit computes the distance exactly when its sizes are numbers of 32 bits, the tower has a
level to spare and computes the powers of the sums, and as many positions have the same entry,
which is not zero, as have different entries that add up to `p`. -/
theorem computesDistance_iff (hd : 1 ≤ d) (hpn : 2 ^ d < p) (hx : ∀ i, 0 ≤ x i ∧ x i < p)
    (hy : ∀ i, 0 ≤ y i ∧ y i < p) (data : CircuitData) :
    ComputesDistance p d x y data ↔
      d ≤ 29 ∧ p ≠ 3 ∧
        (p % 4 = 3 ∨ ∀ i, ((x i + y i : ℤ) : ZMod p) = 0 ∨ ((x i + y i : ℤ) : ZMod p) = 1 ∨
          ((x i + y i : ℤ) : ZMod p) = -1) ∧
        (Finset.univ.filter fun i => x i = y i ∧ x i ≠ 0).card =
          (Finset.univ.filter fun i => x i ≠ y i ∧ x i + y i = p).card := by
  have htwo : 2 ≤ 2 ^ d := Nat.le_self_pow (by omega) 2
  have hodd : p % 2 = 1 := (Fact.out : p.Prime).mod_two_eq_one_iff_ne_two.mpr (by omega)
  by_cases hint : d ≤ 29
  · by_cases hthree : p = 3
    · subst hthree
      have hnone : ¬ ComputesDistance 3 d x y data := by
        rintro ⟨c, hc, -⟩
        rw [constructCircuit_three hd hint] at hc
        cases hc
      simp [hnone]
    · -- both numbers are at most `2 ^ d`, so they agree as numbers
      have hdist : hammingDistance x y < p :=
        (Finset.card_le_univ _).trans_lt (by rwa [Fintype.card_fin])
      have hsums : (Finset.univ.filter fun i => summed p x y i ≠ 0).card < p :=
        (Finset.card_le_univ _).trans_lt (by rwa [Fintype.card_fin])
      have hcount := hammingDistance_add_card hodd hx hy
      rw [computesDistance_iff_powers hd hint (by omega) hodd hx hy data,
        ZMod.natCast_eq_natCast_iff', Nat.mod_eq_of_lt hsums, Nat.mod_eq_of_lt hdist]
      simp only [pow_excess_iff hodd, forall_or_left, summed, hint, ne_eq, hthree, true_and,
        not_false_eq_true]
      refine and_congr_right fun _ => ?_
      simp only [summed, ne_eq] at hcount
      omega
  · have hnone : ¬ ComputesDistance p d x y data := by
      rintro ⟨c, hc, -⟩
      rw [constructCircuit_of_large (by omega)] at hc
      cases hc
    simp [hnone, hint]

end Distance

/-- Modulo eleven two positions have the same entry and two have entries that add up to eleven; with
one of these changed the output is not zero. -/
theorem computesDistance_eleven :
    ComputesDistance 11 2 ![4, 9, 5, 3] ![4, 2, 5, 8] (fun _ _ => ⟨0, 0⟩) ∧
      ¬ ComputesDistance 11 2 ![4, 9, 5, 3] ![4, 2, 5, 7] (fun _ _ => ⟨0, 0⟩) := by
  have hprime : Fact (Nat.Prime 11) := ⟨by norm_num⟩
  constructor
  · exact (computesDistance_iff (by decide) (by decide) (by decide) (by decide) _).mpr
      ⟨by decide, by decide, Or.inl rfl, by decide⟩
  · intro h
    have hcount := ((computesDistance_iff (by decide) (by decide) (by decide) (by decide) _).mp
      h).2.2.2
    revert hcount
    decide

/-- Equal vectors have distance zero, and the circuit counts their entry; modulo thirteen the tower
does not compute the power of two; modulo three there is no circuit. -/
theorem adds_vectors :
    ¬ ComputesDistance 7 1 ![1, 0] ![1, 0] (fun _ _ => ⟨0, 0⟩) ∧
      ¬ ComputesDistance 13 1 ![2, 0] ![0, 0] (fun _ _ => ⟨0, 0⟩) ∧
      ¬ ComputesDistance 3 1 ![1, 0] ![0, 0] (fun _ _ => ⟨0, 0⟩) := by
  refine ⟨fun h => ?_, fun h => ?_, ?_⟩
  · have hprime : Fact (Nat.Prime 7) := ⟨by norm_num⟩
    obtain ⟨-, hcount⟩ := (computesDistance_iff_powers (by decide) (by decide) (by decide)
      (by decide) (by decide) (by decide) _).mp h
    revert hcount
    decide +revert
  · have hprime : Fact (Nat.Prime 13) := ⟨by norm_num⟩
    obtain ⟨hpower, -⟩ := (computesDistance_iff_powers (by decide) (by decide) (by decide)
      (by decide) (by decide) (by decide) _).mp h
    have htwo := hpower 0
    revert htwo
    decide +revert
  · rintro ⟨c, hc, -⟩
    rw [constructCircuit_three le_rfl (by decide)] at hc
    cases hc

end Pepper.Cmtgkr.HamdistCircuit
