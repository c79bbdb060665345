import Pepper.Cmtgkr.SumCheckProver

/-!
# Runs of the sum-check prover

`ProverInv` says what the prover's tables hold before round `k`, in each of the three
phases; `handle_scPoly` is the step lemma: a round sends the values of the true round
polynomial and restores the invariant. `respond_scPoly` and `respond_vs` are what a
whole run has sent.
-/

set_option autoImplicit false

open Pepper.Common.Gmp Pepper.Foundations.Loop Pepper.Foundations.Multilinear
open Pepper.Cmtgkr.Env Pepper.Cmtgkr.Layer Pepper.Cmtgkr.LayerSum Pepper.Cmtgkr.SumCheckProver

namespace Pepper.Cmtgkr.SumCheckProverRun

section Rounds

variable {p : ℕ} [Fact p.Prime] {c : SumCheckInput} {rho : ℕ → ZMod p}

/-! ## The invariant -/

/-- The Lagrange polynomials of the wires of a gate at the first `k` challenges. -/
def wiresSoFar (L : LayerPair) (rho : ℕ → ZMod p) (k g : ℕ) : ZMod p :=
  lagrange rho (min k L.mi) g *
    lagrange (point1 L rho) (min (k - L.mi) L.mip1) (L.out.gate g).in1 *
    lagrange (point2 L rho) (k - (L.mi + L.mip1)) (L.out.gate g).in2

/-- The tables of the prover before round `k`, for the challenges `rho` so far. -/
structure ProverTables (p : ℕ) [Fact p.Prime] (c : SumCheckInput) (rho : ℕ → ZMod p) (k : ℕ)
    (st : ProverState) : Prop where
  wires : ∀ g < c.layers.out.size, (st.addormultr g : ZMod p) = wiresSoFar c.layers rho k g
  betar : 0 < k → k ≤ c.layers.mi → ∀ i ≤ (c.layers.out.size - 1) >>> k,
    (st.betar i : ZMod p) = equality (castVec p c.z) rho k *
      lagrange (shiftPoint k (castVec p c.z)) (c.layers.mi - k) i
  betarEnd : c.layers.mi ≤ k →
    (st.betar 0 : ZMod p) = equality (castVec p c.z) rho c.layers.mi
  vals1 : c.layers.mi < k → k ≤ c.layers.mi + c.layers.mip1 → ∀ b < c.batchSize,
    ∀ j < 2 ^ (c.layers.mip1 - (k - c.layers.mi)), (st.vals b j : ZMod p) =
      foldTables (point1 c.layers rho) (inTable p c b) (k - c.layers.mi) j
  vals2 : c.layers.mi + c.layers.mip1 < k → ∀ b < c.batchSize,
    ∀ j < 2 ^ (c.layers.mip1 - (k - (c.layers.mi + c.layers.mip1))), (st.vals b j : ZMod p) =
      foldTables (point2 c.layers rho) (inTable p c b) (k - (c.layers.mi + c.layers.mip1)) j
  v1s : c.layers.mi + c.layers.mip1 < k → ∀ b < c.batchSize, (st.v1s b : ZMod p) =
    foldTables (point1 c.layers rho) (inTable p c b) c.layers.mip1 0
  valsRange : c.layers.mi < k → ∀ b, 0 ≤ st.vals b 0 ∧ st.vals b 0 < p
  v1sRange : c.layers.mi + c.layers.mip1 < k → ∀ b < c.batchSize,
    0 ≤ st.v1s b ∧ st.v1s b < p

theorem wiresSoFar_P (L : LayerPair) (rho : ℕ → ZMod p) {k : ℕ} (hk : k ≤ L.mi) (g : ℕ) :
    wiresSoFar L rho k g = lagrange rho k g := by
  have h1 : k - L.mi = 0 := by omega
  have h2 : k - (L.mi + L.mip1) = 0 := by omega
  rw [wiresSoFar, min_eq_left hk, h1, h2, Nat.zero_min, lagrange_zero, lagrange_zero, mul_one,
    mul_one]

theorem wiresSoFar_O1 (L : LayerPair) (rho : ℕ → ZMod p) {k : ℕ} (hk : k ≤ L.mip1) (g : ℕ) :
    wiresSoFar L rho (L.mi + k) g =
      lagrange rho L.mi g * lagrange (point1 L rho) k (L.out.gate g).in1 := by
  have h2 : L.mi + k - (L.mi + L.mip1) = 0 := by omega
  rw [wiresSoFar, min_eq_right (by omega), Nat.add_sub_cancel_left, min_eq_left hk, h2,
    lagrange_zero, mul_one]

theorem wiresSoFar_O2 (L : LayerPair) (rho : ℕ → ZMod p) (k g : ℕ) :
    wiresSoFar L rho (L.mi + L.mip1 + k) g =
      lagrange rho L.mi g * lagrange (point1 L rho) L.mip1 (L.out.gate g).in1 *
        lagrange (point2 L rho) k (L.out.gate g).in2 := by
  have h1 : L.mip1 ≤ L.mi + L.mip1 + k - L.mi := by omega
  rw [wiresSoFar, min_eq_right (by omega), min_eq_right h1, Nat.add_sub_cancel_left]

/-- What a round leaves: the values that are computed and the tables of the next round. -/
structure RoundOutcome (p : ℕ) [Fact p.Prime] (c : SumCheckInput) (rho : ℕ → ZMod p) (k : ℕ)
    (expected : Vec) (run : ProverState × Vec) : Prop where
  value1 : ∀ b < c.batchSize, (run.2 (b * polySize + 1) : ZMod p) =
    roundValue c.layers (inTable p c b) (castVec p c.z) k rho 1
  value2 : ∀ b < c.batchSize, (run.2 (b * polySize + 2) : ZMod p) =
    roundValue c.layers (inTable p c b) (castVec p c.z) k rho 2
  tables : ProverTables p c rho (k + 1) run.1
  expected_eq : run.1.expected = expected

section Step

variable {r : ℤ} {st : ProverState}

theorem outcome_P (st : ProverState) (hc : c.Evaluated p) {k : ℕ} (hk : k < c.layers.mi)
    (hr : rho k = r)
    (hz : (c.z k : ZMod p) ≠ 1)
    (hwires : ∀ g < c.layers.out.size, (st.addormultr g : ZMod p) = wiresSoFar c.layers rho k g)
    (hbetar : ∀ i ≤ (c.layers.out.size - 1) >>> k, (st.betar i : ZMod p) =
      equality (castVec p c.z) rho k *
        lagrange (shiftPoint k (castVec p c.z)) (c.layers.mi - k) i) :
    RoundOutcome p c rho k st.expected (doRoundP c k (c.z k) r st zeroVec) := by
  -- before a round over the output gates only their position has been bound
  have hlow : ∀ g < c.layers.out.size, (st.addormultr g : ZMod p) = lagrange rho k g := by
    intro g hg
    rw [hwires g hg, wiresSoFar_P _ _ (Nat.le_of_lt hk)]
  obtain ⟨h1, h2, hnext, hbetar'⟩ := doRoundP_spec hc hk hr hz hlow hbetar
  refine
    { value1 := ?_
      value2 := ?_
      tables := ?_
      expected_eq := rfl }
  · intro b hb
    rw [h1 b hb, roundValue, if_pos hk]
  · intro b hb
    rw [h2 b hb, roundValue, if_pos hk]
  · -- the tables of the later rounds are not in use yet
    refine
      { wires := ?_
        betar := fun _ _ => hbetar'
        betarEnd := ?_
        vals1 := fun hlt => absurd hlt (by omega)
        vals2 := fun hlt => absurd hlt (by omega)
        v1s := fun hlt => absurd hlt (by omega)
        valsRange := fun hlt => absurd hlt (by omega)
        v1sRange := fun hlt => absurd hlt (by omega) }
    · intro g hg
      rw [hnext g hg, wiresSoFar_P _ _ hk]
    · -- the last of these rounds leaves one entry: the equality of the two points
      intro hend
      have hmi : c.layers.mi = k + 1 := by omega
      rw [hbetar' 0 (Nat.zero_le _), hmi, Nat.sub_self, lagrange_zero, mul_one]

theorem outcome_O1 (hc : c.Evaluated p) {j : ℕ} (hj : j < c.layers.mip1)
    (hr : rho (c.layers.mi + j) = r) (hst : ProverTables p c rho (c.layers.mi + j) st) :
    RoundOutcome p c rho (c.layers.mi + j) st.expected (doRoundO c j r true st zeroVec) := by
  have hmip1 : 0 < c.layers.mip1 := log2i_pos c.layers.in_pos
  have hpoint : point1 c.layers rho j = r := hr
  have hbetar := hst.betarEnd (Nat.le_add_right _ _)
  have hwires := fun g hg => (hst.wires g hg).trans
    (wiresSoFar_O1 c.layers rho (Nat.le_of_lt hj) g)
  -- nothing is folded before the first of these rounds
  have hstart : j = 0 →
      (fun b => foldTables (point1 c.layers rho) (inTable p c b) j) = inTable p c := by
    rintro rfl
    rfl
  have hvals : 0 < j → ∀ b < c.batchSize, ∀ i < 2 ^ (c.layers.mip1 - j),
      (st.vals b i : ZMod p) = foldTables (point1 c.layers rho) (inTable p c b) j i := by
    intro hpos b hb i hi
    have h1 := hst.vals1 (by omega) (by omega) b hb i
    rw [Nat.add_sub_cancel_left] at h1
    exact h1 hi
  obtain ⟨hpoly, hnext, hfold, hrange⟩ := doRoundO_spec hc.prime_eq hj true r hstart hvals
  -- both values the prover sends are the round polynomial at that point
  have hvalue : ∀ b < c.batchSize, ∀ x : ZMod p, ∀ m, (m = 1 ∧ x = 1 ∨ m = 2 ∧ x = 2) →
      ((doRoundO c j r true st zeroVec).2 (b * polySize + m) : ZMod p) =
        roundValue c.layers (inTable p c b) (castVec p c.z) (c.layers.mi + j) rho x := by
    intro b hb x m hm
    rw [hpoly b hb x m hm, hbetar, roundValue, if_neg (by omega), if_pos (by omega),
      Nat.add_sub_cancel_left, roundValueO1, Finset.mul_sum]
    apply Finset.sum_congr rfl
    intro g hg
    rw [hwires g (Finset.mem_range.1 hg), fieldOperation, movingInput]
    simp only [if_true]
    ring
  refine
    { value1 := fun b hb => hvalue b hb 1 1 (Or.inl ⟨rfl, rfl⟩)
      value2 := fun b hb => hvalue b hb 2 2 (Or.inr ⟨rfl, rfl⟩)
      tables := ?_
      expected_eq := rfl }
  refine
    { wires := ?_
      betar := fun _ hle => absurd hle (by omega)
      betarEnd := fun _ => hbetar
      vals1 := ?_
      vals2 := fun hlt => absurd hlt (by omega)
      v1s := fun hlt => absurd hlt (by omega)
      valsRange := fun _ b => hrange b 0 (by positivity)
      v1sRange := fun hlt => absurd hlt (by omega) }
  · -- the challenge of this round binds one more bit of the first input
    intro g hg
    rw [hnext g hg, hwires g hg, Nat.add_assoc, wiresSoFar_O1 _ _ hj, lagrange_succ, hpoint,
      movingInput, mul_assoc]
    rfl
  · intro _ _ b hb i hi
    have hsub : c.layers.mi + j + 1 - c.layers.mi = j + 1 := by omega
    rw [hsub] at hi ⊢
    rw [hfold b hb i hi, foldTables, hpoint]

theorem outcome_O2 (hc : c.Evaluated p) {j : ℕ} (hj : j < c.layers.mip1)
    (hr : rho (c.layers.mi + c.layers.mip1 + j) = r)
    (hst : ProverTables p c rho (c.layers.mi + c.layers.mip1 + j) st)
    (hv1s : ∀ b < c.batchSize, (st.v1s b : ZMod p) =
      foldTables (point1 c.layers rho) (inTable p c b) c.layers.mip1 0)
    (hv1sRange : ∀ b < c.batchSize, 0 ≤ st.v1s b ∧ st.v1s b < p) :
    RoundOutcome p c rho (c.layers.mi + c.layers.mip1 + j) st.expected
      (doRoundO c j r false st zeroVec) := by
  have hpoint : point2 c.layers rho j = r := hr
  have hbetar := hst.betarEnd (by omega)
  have hwires := fun g hg => (hst.wires g hg).trans (wiresSoFar_O2 c.layers rho j g)
  -- the table starts afresh for the second input
  have hstart : j = 0 →
      (fun b => foldTables (point2 c.layers rho) (inTable p c b) j) = inTable p c := by
    rintro rfl
    rfl
  have hvals : 0 < j → ∀ b < c.batchSize, ∀ i < 2 ^ (c.layers.mip1 - j),
      (st.vals b i : ZMod p) = foldTables (point2 c.layers rho) (inTable p c b) j i := by
    intro hpos b hb i hi
    have h2 := hst.vals2 (by omega) b hb i
    rw [Nat.add_sub_cancel_left] at h2
    exact h2 hi
  obtain ⟨hpoly, hnext, hfold, hrange⟩ := doRoundO_spec hc.prime_eq hj false r hstart hvals
  -- the first operand is the folded table of the rounds before, `v1s`
  have hvalue : ∀ b < c.batchSize, ∀ x : ZMod p, ∀ m, (m = 1 ∧ x = 1 ∨ m = 2 ∧ x = 2) →
      ((doRoundO c j r false st zeroVec).2 (b * polySize + m) : ZMod p) =
        roundValue c.layers (inTable p c b) (castVec p c.z)
          (c.layers.mi + c.layers.mip1 + j) rho x := by
    intro b hb x m hm
    rw [hpoly b hb x m hm, hbetar, roundValue, if_neg (by omega), if_neg (by omega),
      Nat.add_sub_cancel_left, roundValueO2, Finset.mul_sum]
    apply Finset.sum_congr rfl
    intro g hg
    rw [hwires g (Finset.mem_range.1 hg), fieldOperation, movingInput, castVec_apply, hv1s b hb]
    simp only [Bool.false_eq_true, if_false]
    ring
  refine
    { value1 := fun b hb => hvalue b hb 1 1 (Or.inl ⟨rfl, rfl⟩)
      value2 := fun b hb => hvalue b hb 2 2 (Or.inr ⟨rfl, rfl⟩)
      tables := ?_
      expected_eq := rfl }
  refine
    { wires := ?_
      betar := fun _ hle => absurd hle (by omega)
      betarEnd := fun _ => hbetar
      vals1 := fun _ hle => absurd hle (by omega)
      vals2 := ?_
      v1s := fun _ => hv1s
      valsRange := fun _ b => hrange b 0 (by positivity)
      v1sRange := fun _ => hv1sRange }
  · intro g hg
    rw [hnext g hg, hwires g hg, Nat.add_assoc _ j 1, wiresSoFar_O2, lagrange_succ, hpoint,
      movingInput, ← mul_assoc]
    rfl
  · intro _ b hb i hi
    have hsub : c.layers.mi + c.layers.mip1 + j + 1 - (c.layers.mi + c.layers.mip1) = j + 1 := by
      omega
    rw [hsub] at hi ⊢
    rw [hfold b hb i hi, foldTables, hpoint]

/-- The input layer is folded from the start: what is left after the first inputs is
kept for the operation of the second ones. -/
theorem keepV1s (hst : ProverTables p c rho (c.layers.mi + c.layers.mip1) st) :
    let v1s := forLoop c.batchSize (fun b v1s => Function.update v1s b (st.vals b 0)) st.v1s
    ProverTables p c rho (c.layers.mi + c.layers.mip1) { st with v1s := v1s } ∧
      (∀ b < c.batchSize, (v1s b : ZMod p) =
        foldTables (point1 c.layers rho) (inTable p c b) c.layers.mip1 0) ∧
      ∀ b < c.batchSize, 0 ≤ v1s b ∧ v1s b < p := by
  have hmip1 : 0 < c.layers.mip1 := log2i_pos c.layers.in_pos
  refine ⟨?_, ?_, ?_⟩
  · exact
      { wires := hst.wires
        betar := hst.betar
        betarEnd := hst.betarEnd
        vals1 := hst.vals1
        vals2 := hst.vals2
        v1s := fun hlt => absurd hlt (lt_irrefl _)
        valsRange := hst.valsRange
        v1sRange := fun hlt => absurd hlt (lt_irrefl _) }
  · intro b hb
    have h1 := hst.vals1 (by omega) le_rfl b hb 0 (by positivity)
    rw [Nat.add_sub_cancel_left] at h1
    rw [forLoop_fill_apply, if_pos hb, h1]
  · intro b hb
    rw [forLoop_fill_apply, if_pos hb]
    exact hst.valsRange (by omega) b

theorem inferZero_apply (expected poly : Vec) {b m : ℕ} (hb : b < c.batchSize)
    (hm : m < polySize) :
    inferZero c expected poly (b * polySize + m) =
      if m = 0 then modsub (expected b) (poly (b * polySize + 1)) c.prime
      else poly (b * polySize + m) := by
  have hloop := forLoop_column_apply (i := 0) (show 0 < polySize by decide) c.batchSize
    (fun b poly => modsub (expected b) (poly (b * polySize + 1)) c.prime) poly
    (fun b x hx => by rw [hx 1 (by decide)]) b hm
  simp only [hb, true_and, add_zero] at hloop
  exact hloop

/-- Before its last loop a round leaves what it should, whatever the phase. -/
theorem doRound_outcome (hc : c.Evaluated p) (hz : ∀ i < c.layers.mi, (c.z i : ZMod p) ≠ 1)
    {k : ℕ} (hk : k < rounds c.layers) (hr : rho k = r) (hst : ProverTables p c rho k st) :
    ∃ run, RoundOutcome p c rho k st.expected run ∧
      doRound c k r st = (run.1, inferZero c run.1.expected run.2) := by
  have hmi : 0 < c.layers.mi := log2i_pos c.layers.out_pos
  have hmip1 : 0 < c.layers.mip1 := log2i_pos c.layers.in_pos
  rw [rounds] at hk
  rw [doRound]
  dsimp only
  rw [if_neg (by omega)]
  rcases Nat.lt_or_ge k c.layers.mi with hP | hP
  · -- a round over the output gates; the first one fills `betar`
    rw [if_neg (show ¬k = c.layers.mi + c.layers.mip1 by omega), if_pos hP]
    refine ⟨_, ?_, rfl⟩
    rcases Nat.eq_zero_or_pos k with rfl | hpos
    · rw [if_pos rfl]
      refine outcome_P { st with
          betar := computeChiAll st.betar c.z c.layers.out.size c.prime 0
          partialBetar := 1 } hc hP hr (hz 0 hP) hst.wires ?_
      intro i hi
      have hi' : i < c.layers.out.size := by
        have := c.layers.out_pos
        rw [Nat.shiftRight_zero] at hi
        omega
      rw [hc.prime_eq, cast_computeChiAll _ _ _ _ hi', equality, Finset.prod_range_zero, one_mul]
      rfl
    · rw [if_neg (show ¬k = 0 by omega)]
      exact outcome_P st hc hP hr (hz k hP) hst.wires (hst.betar hpos (Nat.le_of_lt hP))
  · rw [if_neg (show ¬k = 0 by omega), if_neg (show ¬k < c.layers.mi by omega)]
    rcases Nat.lt_or_ge k (c.layers.mi + c.layers.mip1) with hO1 | hO1
    · obtain ⟨j, rfl⟩ := Nat.exists_eq_add_of_le hP
      rw [if_pos hO1, if_neg (show ¬c.layers.mi + j = c.layers.mi + c.layers.mip1 by omega),
        Nat.add_sub_cancel_left]
      exact ⟨_, outcome_O1 hc (by omega) hr hst, rfl⟩
    · obtain ⟨j, rfl⟩ := Nat.exists_eq_add_of_le hO1
      have hsub : c.layers.mi + c.layers.mip1 + j - c.layers.mi - c.layers.mip1 = j := by omega
      rw [if_neg (show ¬c.layers.mi + c.layers.mip1 + j < c.layers.mi + c.layers.mip1 by omega),
        hsub]
      refine ⟨_, ?_, rfl⟩
      rcases Nat.eq_zero_or_pos j with rfl | hpos
      · rw [if_pos (Nat.add_zero _)]
        obtain ⟨hst', hv1s, hv1sRange⟩ := keepV1s hst
        exact outcome_O2 (by exact hc) hmip1 hr hst' hv1s hv1sRange
      · rw [if_neg (by omega)]
        exact outcome_O2 hc (by omega) hr hst (hst.v1s (by omega)) (hst.v1sRange (by omega))

/-- The members before round `k`: the tables, and the true partial sum of each instance. -/
structure ProverInv (p : ℕ) [Fact p.Prime] (c : SumCheckInput) (rho : ℕ → ZMod p) (k : ℕ)
    (st : ProverState) : Prop extends ProverTables p c rho k st where
  expected_eq : ∀ b < c.batchSize, (st.expected b : ZMod p) =
    claim c.layers (inTable p c b) (castVec p c.z) k rho

/-- A round sends the values of the true round polynomial. -/
theorem doRound_spec (hc : c.Evaluated p) (hz : ∀ i < c.layers.mi, (c.z i : ZMod p) ≠ 1)
    {k : ℕ} (hk : k < rounds c.layers) (hr : rho k = r) (hst : ProverInv p c rho k st) :
    ProverTables p c rho (k + 1) (doRound c k r st).1 ∧
      ∀ b < c.batchSize, ∀ m < polySize,
        ((doRound c k r st).2 (b * polySize + m) : ZMod p) =
          (roundPoly c.layers (inTable p c b) (castVec p c.z) k rho).eval (m : ZMod p) := by
  obtain ⟨run, hrun, hround⟩ := doRound_outcome hc hz hk hr hst.toProverTables
  rw [hround]
  refine ⟨hrun.tables, ?_⟩
  intro b hb m hm
  dsimp only
  rw [eval_roundPoly, inferZero_apply _ _ hb hm]
  rw [polySize] at hm
  interval_cases m
  · rw [if_pos rfl, hc.prime_eq, cast_modsub, hrun.expected_eq, hst.expected_eq b hb,
      hrun.value1 b hb, claim_eq]
    push_cast
    ring
  · rw [if_neg one_ne_zero, hrun.value1 b hb, Nat.cast_one]
  · rw [if_neg two_ne_zero, hrun.value2 b hb, Nat.cast_ofNat]

end Step

/-! ## Runs -/

theorem proverInv_init (hsum : ∀ b < c.batchSize, (c.trueSum b : ZMod p) =
      claim c.layers (inTable p c b) (castVec p c.z) 0 rho) :
    ProverInv p c rho 0 (ProverState.init c) where
  wires := by
    intro g _
    rw [wiresSoFar_P _ _ (Nat.zero_le _), lagrange_zero]
    exact Int.cast_one
  betar := fun hlt => absurd hlt (lt_irrefl 0)
  betarEnd := by
    intro hle
    have hmi : 0 < c.layers.mi := log2i_pos c.layers.out_pos
    omega
  vals1 := fun hlt => absurd hlt (by omega)
  vals2 := fun hlt => absurd hlt (by omega)
  v1s := fun hlt => absurd hlt (by omega)
  valsRange := fun hlt => absurd hlt (by omega)
  v1sRange := fun hlt => absurd hlt (by omega)
  expected_eq := hsum

/-- One message of a round: the response is the true polynomial, and the invariant is
restored. -/
theorem handle_scPoly (hp : p ≠ 2) (hc : c.Evaluated p)
    (hz : ∀ i < c.layers.mi, (c.z i : ZMod p) ≠ 1) {k : ℕ} (hk : k < rounds c.layers) {r : ℤ}
    (hr : rho k = r) {s : ProverRun} (hround : s.round = k) (hst : ProverInv p c rho k s.state) :
    (handle c s (.scPoly r)).round = k + 1 ∧
      ProverInv p c rho (k + 1) (handle c s (.scPoly r)).state ∧
      ∀ b < c.batchSize, ∀ m < polySize,
        ((handle c s (.scPoly r)).response (b * polySize + m) : ZMod p) =
          (roundPoly c.layers (inTable p c b) (castVec p c.z) k rho).eval (m : ZMod p) := by
  have hp3 : polySize ≤ p := by
    have := (Fact.out : p.Prime).two_le
    rw [polySize]
    omega
  have hdeg : ∀ b, (roundPoly c.layers (inTable p c b) (castVec p c.z) k rho).natDegree <
      polySize := fun b =>
    Nat.lt_succ_of_le (natDegree_roundPoly_le c.layers (inTable p c b) (castVec p c.z) k rho)
  obtain ⟨htables, hpoly⟩ := doRound_spec hc hz hk hr hst
  subst hround
  rw [handle, if_neg (by rw [numRounds]; rw [rounds] at hk; omega)]
  refine ⟨rfl, { htables with expected_eq := ?_ }, hpoly⟩
  intro b hb
  dsimp only
  rw [forLoop_fill_apply, if_pos hb, hc.prime_eq, cast_extrap hp3, interpolate_eq hp3 (hdeg b) (hpoly b hb),
    eval_roundPoly, ← hr, claim_succ]

/-- The loop that fills the response with two values for each instance. -/
theorem vsLoop_apply (v1 v2 : ℕ → ℤ) {n b : ℕ} (hb : b < n) :
    forLoop n
        (fun b vs => Function.update (Function.update vs (2 * b) (v1 b)) (2 * b + 1) (v2 b))
        zeroVec (2 * b) = v1 b ∧
      forLoop n
        (fun b vs => Function.update (Function.update vs (2 * b) (v1 b)) (2 * b + 1) (v2 b))
        zeroVec (2 * b + 1) = v2 b := by
  induction n with
  | zero => exact absurd hb (Nat.not_lt_zero b)
  | succ n ih =>
      rw [forLoop_succ]
      rcases Nat.lt_succ_iff_lt_or_eq.1 hb with hlt | rfl
      · rw [Function.update_of_ne (by omega), Function.update_of_ne (by omega),
          Function.update_of_ne (by omega), Function.update_of_ne (by omega)]
        exact ih hlt
      · rw [Function.update_of_ne (by omega), Function.update_self, Function.update_self]
        exact ⟨rfl, rfl⟩

/-- The values for the final check: those of the input layer at the two points. -/
theorem handle_vs {s : ProverRun} (hst : ProverTables p c rho (rounds c.layers) s.state)
    {r : Vec} (hr : castVec p r = rho) {b : ℕ} (hb : b < c.batchSize) :
    (handle c s .vs).response (2 * b) =
        evaluateVi c.layers.inSize (c.inValue b) (fun i => r (c.layers.mi + i)) p ∧
      (handle c s .vs).response (2 * b + 1) =
        evaluateVi c.layers.inSize (c.inValue b)
          (fun i => r (c.layers.mi + c.layers.mip1 + i)) p := by
  have hmip1 : 0 < c.layers.mip1 := log2i_pos c.layers.in_pos
  have hlast : c.layers.mi + c.layers.mip1 < rounds c.layers := by
    rw [rounds]
    omega
  have hleft : rounds c.layers - (c.layers.mi + c.layers.mip1) = c.layers.mip1 := by
    rw [rounds]
    omega
  have hvals := hst.vals2 hlast b hb 0 (by positivity)
  rw [hleft, foldTables_eq_extension] at hvals
  have hv1s := hst.v1s hlast b hb
  rw [foldTables_eq_extension] at hv1s
  obtain ⟨h1, h2⟩ := vsLoop_apply s.state.v1s (fun b => s.state.vals b 0) hb
  rw [handle]
  dsimp only
  rw [h1, h2]
  subst hr
  refine ⟨?_, ?_⟩
  · rw [eq_iff_cast_eq (hst.v1sRange hlast b hb) (evaluateVi_range c.layers.in_pos _ _), hv1s,
      cast_evaluateVi]
    rfl
  · rw [eq_iff_cast_eq (hst.valsRange (by omega) b) (evaluateVi_range c.layers.in_pos _ _), hvals,
      cast_evaluateVi]
    rfl

/-- Messages that ask for the polynomials of the first `k` rounds. -/
def roundRequests (r : Vec) (k : ℕ) : List Request := (List.range k).map fun i => .scPoly (r i)

theorem roundRequests_succ (r : Vec) (k : ℕ) :
    roundRequests r (k + 1) = roundRequests r k ++ [.scPoly (r k)] := by
  rw [roundRequests, List.range_succ, List.map_append]
  rfl

theorem runProver_append (received : List Request) (request : Request) :
    runProver c (received ++ [request]) = handle c (runProver c received) request := by
  rw [runProver, List.foldl_append]
  rfl

/-- A run of the prover keeps its invariant and the challenges. -/
theorem runProver_inv (hp : p ≠ 2) (hc : c.Evaluated p)
    (hz : ∀ i < c.layers.mi, (c.z i : ZMod p) ≠ 1) (r : Vec)
    (hsum : ∀ b < c.batchSize, (c.trueSum b : ZMod p) =
      claim c.layers (inTable p c b) (castVec p c.z) 0 (castVec p r)) {k : ℕ}
    (hk : k ≤ rounds c.layers) :
    (runProver c (roundRequests r k)).round = k ∧
      ProverInv p c (castVec p r) k (runProver c (roundRequests r k)).state ∧
      ∀ i < k, (runProver c (roundRequests r k)).rand i = r i := by
  induction k with
  | zero => exact ⟨rfl, proverInv_init hsum, fun i hi => absurd hi (Nat.not_lt_zero i)⟩
  | succ k ih =>
      obtain ⟨hround, hst, hrand⟩ := ih (Nat.le_of_succ_le hk)
      obtain ⟨hround', hst', _⟩ := handle_scPoly hp hc hz hk (castVec_apply p r k) hround hst
      rw [roundRequests_succ, runProver_append]
      refine ⟨hround', hst', fun i hi => ?_⟩
      rw [handle, if_neg (by rw [hround]; exact not_le.2 hk)]
      dsimp only
      rw [hround]
      rcases Nat.lt_succ_iff_lt_or_eq.1 hi with hlt | rfl
      · rw [Function.update_of_ne (ne_of_lt hlt), hrand i hlt]
      · rw [Function.update_self]

/-- The responses of a run: in round `k` the true polynomial. -/
theorem respond_scPoly (hp : p ≠ 2) (hc : c.Evaluated p)
    (hz : ∀ i < c.layers.mi, (c.z i : ZMod p) ≠ 1) (r : Vec)
    (hsum : ∀ b < c.batchSize, (c.trueSum b : ZMod p) =
      claim c.layers (inTable p c b) (castVec p c.z) 0 (castVec p r)) {k : ℕ}
    (hk : k < rounds c.layers) {b : ℕ} (hb : b < c.batchSize) {m : ℕ} (hm : m < polySize) :
    (respond c (roundRequests r (k + 1)) (b * polySize + m) : ZMod p) =
      (roundPoly c.layers (inTable p c b) (castVec p c.z) k (castVec p r)).eval (m : ZMod p) := by
  obtain ⟨hround, hst, _⟩ := runProver_inv hp hc hz r hsum (Nat.le_of_lt hk)
  rw [respond, roundRequests_succ, runProver_append]
  exact (handle_scPoly hp hc hz hk (castVec_apply p r k) hround hst).2.2 b hb m hm

/-- After the last round the two values of the input layer. -/
theorem respond_vs (hp : p ≠ 2) (hc : c.Evaluated p)
    (hz : ∀ i < c.layers.mi, (c.z i : ZMod p) ≠ 1) (r : Vec)
    (hsum : ∀ b < c.batchSize, (c.trueSum b : ZMod p) =
      claim c.layers (inTable p c b) (castVec p c.z) 0 (castVec p r)) {b : ℕ}
    (hb : b < c.batchSize) :
    respond c (roundRequests r (rounds c.layers) ++ [.vs]) (2 * b) =
        evaluateVi c.layers.inSize (c.inValue b) (fun i => r (c.layers.mi + i)) p ∧
      respond c (roundRequests r (rounds c.layers) ++ [.vs]) (2 * b + 1) =
        evaluateVi c.layers.inSize (c.inValue b)
          (fun i => r (c.layers.mi + c.layers.mip1 + i)) p := by
  obtain ⟨_, hst, _⟩ := runProver_inv hp hc hz r hsum le_rfl
  rw [respond, runProver_append]
  exact handle_vs hst.toProverTables rfl hb

end Rounds

end Pepper.Cmtgkr.SumCheckProverRun
