import Pepper.Cmtgkr.SumCheckProverRun

/-!
# The verifier of a layer's sum-check

`CMTSumCheckVerifier` draws a challenge, sends it with the request for the round's
polynomials, checks their sums against what it expects and extrapolates the next
expectation; the final check compares with the wiring predicates. A prover is any
function from the messages received to a response.

`run_success_iff` reads the verdict over the field. `sumCheck_complete`: against the
prover of `SumCheckProver` every run succeeds and reports the true values.
-/

set_option autoImplicit false

open Polynomial
open Pepper.Common.Gmp Pepper.Foundations.Loop Pepper.Foundations.Multilinear
open Pepper.Foundations.Sumcheck
open Pepper.Cmtgkr.Env Pepper.Cmtgkr.Layer Pepper.Cmtgkr.LayerSum Pepper.Cmtgkr.SumCheckProver
open Pepper.Cmtgkr.SumCheckProverRun

namespace Pepper.Cmtgkr.SumCheckVerifier

/-! ## The code -/

/-- What answers the verifier: each response depends on all messages received so far. -/
abbrev Strategy := List Request → Vec

/-- The locals of `run`, and the messages sent so far. -/
structure VerifierState where
  success : Bool
  expected : Vec
  sent : List Request

/-- `CMTSumCheckResults`. -/
structure SumCheckResults where
  success : Bool
  vs : Vec
  rand : Vec

/-- The comparisons of a round, stopped at the first instance that fails. -/
def checkSums (t : SumCheckTask) (expected roundPoly : Vec) : Bool :=
  (List.range t.batchSize).all fun b =>
    decide (expected b =
      modadd (roundPoly (b * polySize)) (roundPoly (b * polySize + 1)) t.prime)

/-- `doRound`: the challenge is sent with the request (`requestPoly`). -/
def doRound (t : SumCheckTask) (prover : Strategy) (newRand : ℤ) (s : VerifierState) :
    VerifierState :=
  let sent := s.sent ++ [.scPoly newRand]
  let roundPoly := prover sent
  if checkSums t s.expected roundPoly then
    let weights := baryPrecomputeWeights3 newRand t.prime
    { success := true
      expected :=
        forLoop t.batchSize
          (fun b rop => Function.update rop b
            (baryExtrap polySize (fun i => roundPoly (b * polySize + i)) weights t.prime))
          s.expected
      sent := sent }
  else { s with success := false, sent := sent }

/-- The loop of `run`; nothing is sent after a round that has failed. -/
def runRounds (t : SumCheckTask) (prover : Strategy) (rand : Vec) (rounds : ℕ) : VerifierState :=
  forLoop rounds (fun i s => if s.success then doRound t prover (rand i) s else s)
    { success := true, expected := t.trueSum, sent := [] }

/-- What the final check compares with. -/
def finalValue (t : SumCheckTask) (rand : Vec) (v1 v2 : ℤ) : ℤ :=
  let predr := t.layers.out.computeWirePredicates rand t.layers.inSize t.prime
  let betar := evaluateBeta t.z rand t.layers.mi t.prime
  modmult ((v1 + v2) * predr.1 + v1 * v2 * predr.2) betar t.prime

/-- `doFinalCheck`. -/
def doFinalCheck (t : SumCheckTask) (prover : Strategy) (rand : Vec) (s : VerifierState) :
    SumCheckResults :=
  let vs := prover (s.sent ++ [.vs])
  { success :=
      (List.range t.batchSize).all fun b =>
        decide (s.expected b = finalValue t rand (vs (2 * b)) (vs (2 * b + 1)))
    vs := vs
    rand := rand }

/-- `run`, with the challenges `rand`. -/
def run (t : SumCheckTask) (prover : Strategy) (rand : Vec) : SumCheckResults :=
  let s := runRounds t prover rand (numRounds t)
  if s.success then doFinalCheck t prover rand s
  else { success := false, vs := zeroVec, rand := rand }

/-! ## The verdict over the field -/

section Verdict

variable {p : ℕ} [Fact p.Prime]

/-- Claims are residues. -/
def SumCheckTask.Canonical (p : ℕ) (t : SumCheckTask) : Prop :=
  t.prime = p ∧ ∀ b < t.batchSize, 0 ≤ t.trueSum b ∧ t.trueSum b < p

/-- Responses of the rounds, as polynomials over the field. -/
def AnswersWith (t : SumCheckTask) (prover : Strategy) (r : Vec) (poly : ℕ → ℕ → (ZMod p)[X]) :
    Prop :=
  ∀ k < numRounds t, ∀ b < t.batchSize, (poly b k).natDegree < polySize ∧
    ∀ m < polySize, (prover (roundRequests r (k + 1)) (b * polySize + m) : ZMod p) =
      (poly b k).eval (m : ZMod p)

/-- The sums of the first `n` rounds are what the verifier expects. -/
def SumsHold (t : SumCheckTask) (r : Vec) (poly : ℕ → ℕ → (ZMod p)[X]) (n : ℕ) : Prop :=
  ∀ k < n, ∀ b < t.batchSize,
    RoundSystem.expected (t.trueSum b : ZMod p) (poly b) (castVec p r) k =
      (poly b k).eval 0 + (poly b k).eval 1

theorem sumsHold_succ (t : SumCheckTask) (r : Vec) (poly : ℕ → ℕ → (ZMod p)[X]) (n : ℕ) :
    SumsHold t r poly (n + 1) ↔ SumsHold t r poly n ∧ ∀ b < t.batchSize,
      RoundSystem.expected (t.trueSum b : ZMod p) (poly b) (castVec p r) n =
        (poly b n).eval 0 + (poly b n).eval 1 := by
  constructor
  · intro h
    exact ⟨fun k hk => h k (Nat.lt_succ_of_lt hk), h n (Nat.lt_succ_self n)⟩
  · rintro ⟨hlow, hlast⟩ k hk
    rcases Nat.lt_succ_iff_lt_or_eq.1 hk with hlt | rfl
    · exact hlow k hlt
    · exact hlast

theorem checkSums_iff {t : SumCheckTask} (ht : t.prime = p) {expected roundPoly : Vec}
    (hexpected : ∀ b < t.batchSize, 0 ≤ expected b ∧ expected b < p) :
    checkSums t expected roundPoly = true ↔ ∀ b < t.batchSize, (expected b : ZMod p) =
      roundPoly (b * polySize) + roundPoly (b * polySize + 1) := by
  rw [checkSums, List.all_eq_true]
  constructor
  · intro h b hb
    have hb' := of_decide_eq_true (h b (List.mem_range.2 hb))
    rw [hb', ht, cast_modadd]
  · intro h b hb
    rw [List.mem_range] at hb
    have hcanon : 0 ≤ modadd (roundPoly (b * polySize)) (roundPoly (b * polySize + 1)) p ∧
        modadd (roundPoly (b * polySize)) (roundPoly (b * polySize + 1)) p < p :=
      emod_range _
    rw [decide_eq_true_eq, ht, eq_iff_cast_eq (hexpected b hb) hcanon, cast_modadd]
    exact h b hb

/-- What `runRounds` has after `n` rounds. -/
structure RoundsInv (t : SumCheckTask) (r : Vec) (poly : ℕ → ℕ → (ZMod p)[X]) (n : ℕ)
    (s : VerifierState) : Prop where
  success_iff : s.success = true ↔ SumsHold t r poly n
  sent_eq : s.success = true → s.sent = roundRequests r n
  canonical : s.success = true → ∀ b < t.batchSize, 0 ≤ s.expected b ∧ s.expected b < p
  expected_eq : s.success = true → ∀ b < t.batchSize, (s.expected b : ZMod p) =
    RoundSystem.expected (t.trueSum b : ZMod p) (poly b) (castVec p r) n

/-- One round. -/
theorem doRound_spec (hp : p ≠ 2) {t : SumCheckTask} (ht : t.prime = p) {prover : Strategy}
    {r : Vec} {poly : ℕ → ℕ → (ZMod p)[X]} (hpoly : AnswersWith t prover r poly) {n : ℕ}
    (hn : n < numRounds t) {s : VerifierState} (hs : RoundsInv t r poly n s)
    (hsuccess : s.success = true) : RoundsInv t r poly (n + 1) (doRound t prover (r n) s) := by
  have hsent : s.sent ++ [.scPoly (r n)] = roundRequests r (n + 1) := by
    rw [hs.sent_eq hsuccess, roundRequests_succ]
  have hvalue : ∀ b < t.batchSize, ∀ m < polySize,
      (prover (s.sent ++ [.scPoly (r n)]) (b * polySize + m) : ZMod p) =
        (poly b n).eval (m : ZMod p) := by
    intro b hb m hm
    rw [hsent]
    exact (hpoly n hn b hb).2 m hm
  have hcheck : checkSums t s.expected (prover (s.sent ++ [.scPoly (r n)])) = true ↔
      ∀ b < t.batchSize, RoundSystem.expected (t.trueSum b : ZMod p) (poly b) (castVec p r) n =
        (poly b n).eval 0 + (poly b n).eval 1 := by
    rw [checkSums_iff ht (hs.canonical hsuccess)]
    refine forall_congr' fun b => forall_congr' fun hb => ?_
    have h0 := hvalue b hb 0 (by decide)
    have h1 := hvalue b hb 1 (by decide)
    rw [add_zero, Nat.cast_zero] at h0
    rw [Nat.cast_one] at h1
    rw [hs.expected_eq hsuccess b hb, h0, h1]
  have hsums := hs.success_iff.1 hsuccess
  rw [doRound]
  dsimp only
  by_cases hpass : checkSums t s.expected (prover (s.sent ++ [.scPoly (r n)])) = true
  · rw [if_pos hpass]
    have hnext : ∀ b < t.batchSize, forLoop t.batchSize
        (fun b rop => Function.update rop b
          (baryExtrap polySize (fun i => prover (s.sent ++ [.scPoly (r n)]) (b * polySize + i))
            (baryPrecomputeWeights3 (r n) t.prime) t.prime)) s.expected b =
        baryExtrap polySize (fun i => prover (s.sent ++ [.scPoly (r n)]) (b * polySize + i))
          (baryPrecomputeWeights3 (r n) t.prime) t.prime := by
      intro b hb
      rw [forLoop_fill_apply, if_pos hb]
    refine
      { success_iff := ?_
        sent_eq := fun _ => hsent
        canonical := ?_
        expected_eq := ?_ }
    · rw [sumsHold_succ]
      exact iff_of_true rfl ⟨hsums, hcheck.1 hpass⟩
    · intro _ b hb
      dsimp only
      rw [hnext b hb, baryExtrap, ht]
      exact emod_range _
    · intro _ b hb
      dsimp only
      rw [hnext b hb, ht, RoundSystem.expected, castVec_apply]
      exact cast_baryExtrap3 hp (hpoly n hn b hb).1 (hvalue b hb) (r n)
  · rw [if_neg hpass]
    have hfalse : ¬(false = true) := Bool.false_ne_true
    refine
      { success_iff := ?_
        sent_eq := fun h => absurd h hfalse
        canonical := fun h => absurd h hfalse
        expected_eq := fun h => absurd h hfalse }
    rw [sumsHold_succ]
    exact iff_of_false hfalse fun h => hpass (hcheck.2 h.2)

theorem runRounds_spec (hp : p ≠ 2) {t : SumCheckTask} (ht : SumCheckTask.Canonical p t)
    {prover : Strategy} {r : Vec} {poly : ℕ → ℕ → (ZMod p)[X]}
    (hpoly : AnswersWith t prover r poly) {n : ℕ} (hn : n ≤ numRounds t) :
    RoundsInv t r poly n (runRounds t prover r n) := by
  induction n with
  | zero =>
      refine
        { success_iff := iff_of_true rfl fun k hk => absurd hk (Nat.not_lt_zero k)
          sent_eq := fun _ => rfl
          canonical := fun _ => ht.2
          expected_eq := fun _ _ _ => rfl }
  | succ n ih =>
      have hs := ih (Nat.le_of_succ_le hn)
      rw [runRounds, forLoop_succ]
      rw [runRounds] at hs
      by_cases hsuccess : (forLoop n (fun i s => if s.success then doRound t prover (r i) s else s)
          ({ success := true, expected := t.trueSum, sent := [] } : VerifierState)).success = true
      · rw [if_pos hsuccess]
        exact doRound_spec hp ht.1 hpoly hn hs hsuccess
      · rw [if_neg hsuccess]
        refine
          { success_iff := ?_
            sent_eq := fun h => absurd h hsuccess
            canonical := fun h => absurd h hsuccess
            expected_eq := fun h => absurd h hsuccess }
        rw [sumsHold_succ]
        exact iff_of_false hsuccess fun h => hsuccess (hs.success_iff.2 h.1)

/-- The value of the final check, in terms of the gates. -/
theorem cast_finalValue {t : SumCheckTask} (ht : t.prime = p) {r : Vec}
    (hfn : SuppliedPredicates t.layers p r) (v1 v2 : ℤ) :
    (finalValue t r v1 v2 : ZMod p) =
      equality (castVec p t.z) (castVec p r) t.layers.mi *
        ∑ g ∈ Finset.range t.layers.out.size, wireLagrange t.layers (castVec p r) g *
          (t.layers.out.gate g).eval (v1 : ZMod p) (v2 : ZMod p) := by
  obtain ⟨hadd, hmul⟩ := cast_computeWirePredicates t.layers hfn
  rw [finalValue, ht, cast_modmult, cast_evaluateBeta, ← wirePredicate_eval, mul_comm]
  push_cast
  rw [hadd, hmul]

/-- The verdict: all sums hold and what is expected last is the value of the final check. -/
theorem run_success_iff (hp : p ≠ 2) {t : SumCheckTask} (ht : SumCheckTask.Canonical p t)
    {prover : Strategy} {r : Vec} (hfn : SuppliedPredicates t.layers p r)
    {poly : ℕ → ℕ → (ZMod p)[X]} (hpoly : AnswersWith t prover r poly) :
    (run t prover r).success = true ↔
      SumsHold t r poly (numRounds t) ∧ ∀ b < t.batchSize,
        RoundSystem.expected (t.trueSum b : ZMod p) (poly b) (castVec p r) (numRounds t) =
          equality (castVec p t.z) (castVec p r) t.layers.mi *
            ∑ g ∈ Finset.range t.layers.out.size, wireLagrange t.layers (castVec p r) g *
              (t.layers.out.gate g).eval ((run t prover r).vs (2 * b) : ZMod p)
                ((run t prover r).vs (2 * b + 1) : ZMod p) := by
  have hs := runRounds_spec hp ht hpoly le_rfl
  rw [run]
  by_cases hsuccess : (runRounds t prover r (numRounds t)).success = true
  · rw [if_pos hsuccess, doFinalCheck]
    dsimp only
    rw [List.all_eq_true]
    constructor
    · intro h
      refine ⟨hs.success_iff.1 hsuccess, fun b hb => ?_⟩
      have hb' := of_decide_eq_true (h b (List.mem_range.2 hb))
      rw [← hs.expected_eq hsuccess b hb, hb', cast_finalValue ht.1 hfn]
    · rintro ⟨_, hfinal⟩ b hb
      rw [List.mem_range] at hb
      have hcanon : ∀ v1 v2, 0 ≤ finalValue t r v1 v2 ∧ finalValue t r v1 v2 < p := by
        intro v1 v2
        rw [finalValue, ht.1]
        exact emod_range _
      rw [decide_eq_true_eq, eq_iff_cast_eq (hs.canonical hsuccess b hb) (hcanon _ _),
        hs.expected_eq hsuccess b hb, cast_finalValue ht.1 hfn]
      exact hfinal b hb
  · rw [if_neg hsuccess]
    exact iff_of_false Bool.false_ne_true fun h => hsuccess (hs.success_iff.2 h.1)

/-- After rounds that hold the values reported are the response to the last request. -/
theorem run_vs (hp : p ≠ 2) {t : SumCheckTask} (ht : SumCheckTask.Canonical p t)
    {prover : Strategy} {r : Vec} {poly : ℕ → ℕ → (ZMod p)[X]}
    (hpoly : AnswersWith t prover r poly) (hsums : SumsHold t r poly (numRounds t)) :
    (run t prover r).vs = prover (roundRequests r (numRounds t) ++ [.vs]) := by
  have hs := runRounds_spec hp ht hpoly le_rfl
  have hsuccess := hs.success_iff.2 hsums
  rw [run, if_pos hsuccess, doFinalCheck, hs.sent_eq hsuccess]

/-- Against the true polynomials every sum holds, and the values of the input layer pass
the final check. -/
theorem run_true (hp : p ≠ 2) {c : SumCheckInput} (ht : SumCheckTask.Canonical p c.toSumCheckTask)
    {prover : Strategy} {r : Vec} (hfn : SuppliedPredicates c.layers p r)
    {poly : ℕ → ℕ → (ZMod p)[X]} (hpoly : AnswersWith c.toSumCheckTask prover r poly)
    (hsums : SumsHold c.toSumCheckTask r poly (numRounds c.toSumCheckTask))
    (hlast : ∀ b < c.batchSize,
      RoundSystem.expected (c.trueSum b : ZMod p) (poly b) (castVec p r)
          (numRounds c.toSumCheckTask) =
        claim c.layers (inTable p c b) (castVec p c.z) (rounds c.layers) (castVec p r))
    (hvs : ∀ b < c.batchSize,
      (prover (roundRequests r (numRounds c.toSumCheckTask) ++ [.vs]) (2 * b) : ZMod p) =
          extension (inTable p c b) c.layers.mip1 (point1 c.layers (castVec p r)) ∧
        (prover (roundRequests r (numRounds c.toSumCheckTask) ++ [.vs]) (2 * b + 1) : ZMod p) =
          extension (inTable p c b) c.layers.mip1 (point2 c.layers (castVec p r))) :
    (run c.toSumCheckTask prover r).success = true := by
  rw [run_success_iff hp ht hfn hpoly]
  refine ⟨hsums, fun b hb => ?_⟩
  obtain ⟨h1, h2⟩ := hvs b hb
  rw [run_vs hp ht hpoly hsums, hlast b hb, claim_rounds, claimO2_mip1, h1, h2,
    foldTables_eq_extension, foldTables_eq_extension]
  rfl

/-! ## Completeness -/

/-- A sum-check for evaluated layers: the claims are the extensions of the outputs. -/
def evaluatedInput (p : ℕ) (L : LayerPair) (batchSize : ℕ) (inGate old : ℕ → ℕ → Gate) (z : Vec) :
    SumCheckInput where
  layers := L
  batchSize := batchSize
  z := z
  trueSum := fun b =>
    evaluateVi L.out.size (fun g => (L.out.evaluate p (inGate b) (old b) g).zValue) z p
  prime := p
  inValue := fun b i => (inGate b i).zValue
  outValue := fun b g => (L.out.evaluate p (inGate b) (old b) g).zValue

section Complete

variable {L : LayerPair} {batchSize : ℕ} {inGate old : ℕ → ℕ → Gate}

theorem evaluatedInput_evaluated (hgates : ∀ g < L.out.size, (L.out.gate g).type ≠ .divInt)
    (hin : ∀ b < batchSize, ∀ i < L.inSize, (inGate b i).IsInteger p) (z : Vec) :
    (evaluatedInput p L batchSize inGate old z).Evaluated p where
  prime_eq := rfl
  outValue_eq := by
    intro b hb g hg
    have hg' : g < L.out.size := hg
    obtain ⟨h1, h2⟩ := L.inRange g hg'
    have hread : ∀ i < L.inSize, inTable p (evaluatedInput p L batchSize inGate old z) b i =
        ((inGate b i).zValue : ZMod p) := by
      intro i hi
      exact if_pos hi
    show (((L.out.evaluate p (inGate b) (old b) g).zValue : ℤ) : ZMod p) = _
    rw [L.out.evaluate_apply _ _ _ hg']
    refine (computeGateValue_integer _ (hgates g hg') _ (hin b hb _ h1) (hin b hb _ h2)).1.trans ?_
    rw [gateValue, ← hread _ h1, ← hread _ h2]
    rfl

/-- The extension of the output layer is the sum that the protocol is about. -/
theorem cast_evaluateVi_out {c : SumCheckInput} (hc : c.Evaluated p) {b : ℕ} (hb : b < c.batchSize)
    (rho : ℕ → ZMod p) :
    (evaluateVi c.layers.out.size (c.outValue b) c.z p : ZMod p) =
      claim c.layers (inTable p c b) (castVec p c.z) 0 rho := by
  have hmi : 0 < c.layers.mi := log2i_pos c.layers.out_pos
  rw [claim, if_pos hmi, claimP_zero, cast_evaluateVi, extension_padded]
  apply Finset.sum_congr rfl
  intro g hg
  rw [hc.outValue_eq b hb g (Finset.mem_range.1 hg)]
  rfl

/-- A run against the prover, from true claims: every round and the final check pass. -/
theorem run_respond (hp : p ≠ 2) {c : SumCheckInput} (hc : c.Evaluated p)
    (hz : ∀ i < c.layers.mi, (c.z i : ZMod p) ≠ 1)
    (htrue : ∀ b < c.batchSize,
      c.trueSum b = evaluateVi c.layers.out.size (c.outValue b) c.z p)
    {rand : Vec} (hfn : SuppliedPredicates c.layers p rand) :
    (∀ n ≤ numRounds c.toSumCheckTask,
      (runRounds c.toSumCheckTask (respond c) rand n).success = true) ∧
    (run c.toSumCheckTask (respond c) rand).success = true ∧
    ∀ b < c.batchSize,
      (run c.toSumCheckTask (respond c) rand).vs (2 * b) =
          evaluateVi c.layers.inSize (c.inValue b) (fun i => rand (c.layers.mi + i)) p ∧
        (run c.toSumCheckTask (respond c) rand).vs (2 * b + 1) =
          evaluateVi c.layers.inSize (c.inValue b)
            (fun i => rand (c.layers.mi + c.layers.mip1 + i)) p := by
  have hsum : ∀ b < c.batchSize, (c.trueSum b : ZMod p) =
      claim c.layers (inTable p c b) (castVec p c.z) 0 (castVec p rand) := by
    intro b hb
    rw [htrue b hb, cast_evaluateVi_out hc hb]
  have hcanon : SumCheckTask.Canonical p c.toSumCheckTask := by
    refine ⟨hc.prime_eq, fun b hb => ?_⟩
    rw [htrue b hb]
    exact evaluateVi_range c.layers.out_pos _ _
  have hanswers : AnswersWith c.toSumCheckTask (respond c) rand fun b k =>
      roundPoly c.layers (inTable p c b) (castVec p c.z) k (castVec p rand) := by
    intro k hk b hb
    refine ⟨Nat.lt_succ_of_le (natDegree_roundPoly_le _ _ _ k _), fun m hm => ?_⟩
    exact respond_scPoly hp hc hz rand hsum hk hb hm
  have hexpected : ∀ b < c.batchSize, ∀ k ≤ rounds c.layers,
      RoundSystem.expected (c.trueSum b : ZMod p)
          (fun k => roundPoly c.layers (inTable p c b) (castVec p c.z) k (castVec p rand))
          (castVec p rand) k =
        claim c.layers (inTable p c b) (castVec p c.z) k (castVec p rand) := fun b hb k hk =>
    (layerSystem c.layers (inTable p c b) (castVec p c.z)).expected_eq_claim (hsum b hb) hk
  have hsums : ∀ n ≤ numRounds c.toSumCheckTask, SumsHold c.toSumCheckTask rand (fun b k =>
      roundPoly c.layers (inTable p c b) (castVec p c.z) k (castVec p rand)) n := by
    intro n hn k hk b hb
    have hk' : k < rounds c.layers := hk.trans_le hn
    rw [hexpected b hb k (Nat.le_of_lt hk'), eval_roundPoly, eval_roundPoly, claim_eq]
  have hvs := fun b (hb : b < c.batchSize) => respond_vs hp hc hz rand hsum hb
  refine ⟨?_, ?_, ?_⟩
  · intro n hn
    exact (runRounds_spec hp hcanon hanswers hn).success_iff.2 (hsums n hn)
  · refine run_true hp hcanon hfn hanswers (hsums _ le_rfl)
      (fun b hb => hexpected b hb _ le_rfl) fun b hb => ?_
    rw [(hvs b hb).1, (hvs b hb).2, cast_evaluateVi, cast_evaluateVi]
    exact ⟨rfl, rfl⟩
  · intro b hb
    rw [run_vs hp hcanon hanswers (hsums _ le_rfl)]
    exact hvs b hb

/-- Completeness: against the prover every check of a run passes, and the values reported
are those of the input layer at the two points. -/
theorem sumCheck_complete (hp : p ≠ 2) (L : LayerPair)
    (hgates : ∀ g < L.out.size, (L.out.gate g).type ≠ .divInt) (batchSize : ℕ)
    (inGate old : ℕ → ℕ → Gate)
    (hin : ∀ b < batchSize, ∀ i < L.inSize, (inGate b i).IsInteger p) (z : Vec)
    (hz : ∀ i < L.mi, ¬ z i ≡ 1 [ZMOD p]) (rand : Vec) (hfn : SuppliedPredicates L p rand) :
    let c := evaluatedInput p L batchSize inGate old z
    let results := run c.toSumCheckTask (respond c) rand
    (∀ n ≤ numRounds c.toSumCheckTask,
      (runRounds c.toSumCheckTask (respond c) rand n).success = true) ∧
    results.success = true ∧
    ∀ b < batchSize,
      results.vs (2 * b) = evaluateVi L.inSize (c.inValue b) (fun i => rand (L.mi + i)) p ∧
        results.vs (2 * b + 1) =
          evaluateVi L.inSize (c.inValue b) (fun i => rand (L.mi + L.mip1 + i)) p := by
  intro c results
  have hz' : ∀ i < c.layers.mi, (c.z i : ZMod p) ≠ 1 := by
    intro i hi h
    refine hz i hi ((ZMod.intCast_eq_intCast_iff _ _ p).1 ?_)
    rw [Int.cast_one]
    exact h
  exact run_respond hp (evaluatedInput_evaluated hgates hin z) hz' (fun _ _ => rfl) hfn

/-- An addition over a multiplication gate, on three inputs. -/
def addMulLayers : LayerPair where
  out := { gates := [⟨.add, 0, 1⟩, ⟨.mul, 1, 2⟩], addFn := none, mulFn := none }
  inSize := 3
  in_pos := by decide
  out_pos := by decide
  inRange := by decide

/-- The inputs `0`, `1`, `2` over three elements, at challenges that all differ from bits. -/
theorem sumCheck_complete_addMul :
    (run
      (evaluatedInput 3 addMulLayers 1 (fun _ i => Gate.setValue (3 : ℕ) ⟨0, 0⟩ (i : ℤ))
        (fun _ _ => ⟨0, 0⟩) (fun _ => 2)).toSumCheckTask
      (respond
        (evaluatedInput 3 addMulLayers 1 (fun _ i => Gate.setValue (3 : ℕ) ⟨0, 0⟩ (i : ℤ))
          (fun _ _ => ⟨0, 0⟩) (fun _ => 2)))
      (fun _ => 2)).success = true :=
  (sumCheck_complete (p := 3) (by decide) addMulLayers (by decide) 1
    (fun _ i => Gate.setValue (3 : ℕ) ⟨0, 0⟩ (i : ℤ)) (fun _ _ => ⟨0, 0⟩)
    (fun _ _ i _ => setValue_integer _ (i : ℤ)) (fun _ => 2) (fun _ _ => by decide) (fun _ => 2)
    (suppliedPredicates_of_none _ rfl rfl _)).2.1

end Complete

end Verdict

end Pepper.Cmtgkr.SumCheckVerifier
