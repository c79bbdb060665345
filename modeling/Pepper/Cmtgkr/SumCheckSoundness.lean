import Pepper.Cmtgkr.SumCheckVerifier

/-!
# Soundness of a layer's sum-check

`doRound` of the verifier sends the challenge of a round together with the request for
that round's polynomials. `adaptiveProver` uses this: it hides a false claim in the
polynomial of the first round, with a root at the challenge it has just been told, and
is honest afterwards. It is accepted at every challenge vector.

`sumCheck_sound_iff` says when the bound of the sum-check protocol holds against all
provers, and that it holds against those that answer before they look at the challenge
of the round.
-/

set_option autoImplicit false

open Polynomial
open Pepper.Common.Gmp Pepper.Foundations.Loop Pepper.Foundations.Multilinear
open Pepper.Foundations.Sumcheck
open Pepper.Cmtgkr.Env Pepper.Cmtgkr.Layer Pepper.Cmtgkr.LayerSum Pepper.Cmtgkr.SumCheckProver
open Pepper.Cmtgkr.SumCheckProverRun Pepper.Cmtgkr.SumCheckVerifier

namespace Pepper.Cmtgkr.SumCheckSoundness

/-! ## Accepting challenges -/

/-- Field elements as the verifier draws them, between zero and the prime. -/
def challengeVec (p : ℕ) (r : ℕ → ZMod p) : Vec := fun i => ((r i).val : ℤ)

/-- A run succeeds, and reports for instance `b` the true values of the input layer. -/
def Accepts (p : ℕ) (c : SumCheckInput) (b : ℕ) (prover : Strategy)
    (r : Fin (numRounds c.toSumCheckTask) → ZMod p) : Prop :=
  let rand := challengeVec p (RoundSystem.extendChallenge r)
  let results := run c.toSumCheckTask prover rand
  results.success = true ∧
    results.vs (2 * b) ≡
      evaluateVi c.layers.inSize (c.inValue b) (fun i => rand (c.layers.mi + i)) p [ZMOD p] ∧
    results.vs (2 * b + 1) ≡
      evaluateVi c.layers.inSize (c.inValue b)
        (fun i => rand (c.layers.mi + c.layers.mip1 + i)) p [ZMOD p]

instance (p : ℕ) (c : SumCheckInput) (b : ℕ) (prover : Strategy) :
    DecidablePred (Accepts p c b prover) :=
  fun _ => inferInstanceAs (Decidable (_ ∧ _ ∧ _))

/-- How many challenge vectors are accepted. -/
def acceptCount (p : ℕ) [NeZero p] (c : SumCheckInput) (b : ℕ) (prover : Strategy) : ℕ :=
  (Finset.univ.filter (Accepts p c b prover)).card

/-- A prover whose response to a request does not depend on the challenge in it. -/
def AnswersBeforeChallenge (prover : Strategy) : Prop :=
  ∀ (received : List Request) (r r' : ℤ),
    prover (received ++ [.scPoly r]) = prover (received ++ [.scPoly r'])

section Bound

variable {p : ℕ} [Fact p.Prime] {c : SumCheckInput} {b : ℕ}

theorem castVec_challengeVec (r : ℕ → ZMod p) : castVec p (challengeVec p r) = r := by
  funext i
  rw [castVec_apply, challengeVec, Int.cast_natCast, ZMod.natCast_val, ZMod.cast_id]

theorem castVec_challengeVec_add (r : ℕ → ZMod p) (s : ℕ) :
    castVec p (fun i => challengeVec p r (s + i)) = shiftPoint s r := by
  funext i
  rw [castVec_apply, ← castVec_apply, castVec_challengeVec, shiftPoint]

theorem numRounds_pos (t : SumCheckTask) : 0 < numRounds t := by
  have hmi : 0 < t.layers.mi := log2i_pos t.layers.out_pos
  rw [numRounds]
  omega

/-- The polynomials that a prover sends for instance `b`. -/
noncomputable def sentPoly (prover : Strategy) (b k : ℕ) (r : ℕ → ZMod p) : (ZMod p)[X] :=
  Lagrange.interpolate (Finset.range polySize) (fun i : ℕ => (i : ZMod p))
    (castVec p fun m => prover (roundRequests (challengeVec p r) (k + 1)) (b * polySize + m))

theorem polySize_le (hp : p ≠ 2) : polySize ≤ p := by
  have := (Fact.out : p.Prime).two_le
  rw [polySize]
  omega

theorem natDegree_sentPoly_lt (hp : p ≠ 2) (prover : Strategy) (k : ℕ) (r : ℕ → ZMod p) :
    (sentPoly prover b k r).natDegree < polySize := by
  have hdeg := Lagrange.degree_interpolate_lt
    (castVec p fun m => prover (roundRequests (challengeVec p r) (k + 1)) (b * polySize + m))
    (natNode_injOn (polySize_le hp))
  rw [Finset.card_range] at hdeg
  rcases eq_or_ne (sentPoly prover b k r) 0 with hzero | hzero
  · rw [hzero, natDegree_zero]
    decide
  · exact (natDegree_lt_iff_degree_lt hzero).2 hdeg

theorem answersWith_sentPoly (hp : p ≠ 2) (t : SumCheckTask) (prover : Strategy)
    (r : ℕ → ZMod p) :
    AnswersWith t prover (challengeVec p r) fun b k => sentPoly prover b k r := by
  intro k _ b _
  refine ⟨natDegree_sentPoly_lt hp prover k r, fun m hm => ?_⟩
  dsimp only
  rw [sentPoly, Lagrange.eval_interpolate_at_node _ (natNode_injOn (polySize_le hp))
    (Finset.mem_range.2 hm), castVec_apply]

theorem sentPoly_congr {prover : Strategy} (hprover : AnswersBeforeChallenge prover) {k : ℕ}
    {r r' : ℕ → ZMod p} (h : ∀ i < k, r i = r' i) :
    sentPoly prover b k r = sentPoly prover b k r' := by
  have hlow : roundRequests (challengeVec p r) k = roundRequests (challengeVec p r') k := by
    apply List.map_congr_left
    intro i hi
    rw [challengeVec, challengeVec, h i (List.mem_range.1 hi)]
  rw [sentPoly, sentPoly, roundRequests_succ, roundRequests_succ, hlow,
    hprover _ (challengeVec p r k) (challengeVec p r' k)]

/-- With few elements the bound exceeds the number of all challenge vectors. -/
theorem acceptCount_le_of_le (hp : p ≤ 2 * numRounds c.toSumCheckTask) (prover : Strategy) :
    acceptCount p c b prover ≤
      2 * numRounds c.toSumCheckTask * p ^ (numRounds c.toSumCheckTask - 1) := by
  calc acceptCount p c b prover
      ≤ p ^ numRounds c.toSumCheckTask := by
        refine (Finset.card_le_univ _).trans (le_of_eq ?_)
        rw [Fintype.card_fun, Fintype.card_fin, ZMod.card]
    _ = p * p ^ (numRounds c.toSumCheckTask - 1) :=
        (mul_pow_sub_one (ne_of_gt (numRounds_pos _)) p).symm
    _ ≤ 2 * numRounds c.toSumCheckTask * p ^ (numRounds c.toSumCheckTask - 1) :=
        Nat.mul_le_mul_right _ hp

/-- The bound of the protocol, for a prover that answers before it looks. -/
theorem acceptCount_le_of_before (ht : SumCheckTask.Canonical p c.toSumCheckTask)
    (hfn : ∀ rand, SuppliedPredicates c.layers p rand) (hb : b < c.batchSize)
    (hfalse : ∀ rho, (c.trueSum b : ZMod p) ≠
      claim c.layers (inTable p c b) (castVec p c.z) 0 rho) {prover : Strategy}
    (hprover : AnswersBeforeChallenge prover) :
    acceptCount p c b prover ≤
      2 * numRounds c.toSumCheckTask * p ^ (numRounds c.toSumCheckTask - 1) := by
  by_cases hp : p = 2
  · refine acceptCount_le_of_le ?_ prover
    have := numRounds_pos c.toSumCheckTask
    omega
  · rw [acceptCount]
    refine (RoundSystem.card_accept_le (layerSystem c.layers (inTable p c b) (castVec p c.z))
      (c.trueSum b : ZMod p) (fun k r => sentPoly prover b k r) ?_ ?_ hfalse _ ?_).trans
      (le_of_eq (by rw [ZMod.card]))
    · exact fun k r _ => Nat.le_of_lt_succ (natDegree_sentPoly_lt hp prover k r)
    · exact fun k r r' _ h => sentPoly_congr hprover h
    · rintro r ⟨hsuccess, h1, h2⟩
      have hanswers := answersWith_sentPoly hp c.toSumCheckTask prover
        (RoundSystem.extendChallenge r)
      obtain ⟨hsums, hlast⟩ := (run_success_iff hp ht (hfn _) hanswers).1 hsuccess
      rw [SumsHold, castVec_challengeVec] at hsums
      refine ⟨fun k hk => hsums k hk b hb, ?_⟩
      have hlast' := hlast b hb
      rw [← ZMod.intCast_eq_intCast_iff, cast_evaluateVi, castVec_challengeVec_add] at h1 h2
      rw [h1, h2, castVec_challengeVec] at hlast'
      refine hlast'.trans ?_
      show _ = claim _ _ _ (rounds c.layers) _
      rw [claim_rounds, claimO2_mip1, foldTables_eq_extension, foldTables_eq_extension]
      rfl

end Bound

/-! ## The adaptive prover -/

section Adaptive

variable {p : ℕ} [Fact p.Prime]

/-- A polynomial whose values at zero and one add up to one, with the root `r`. -/
noncomputable def hidingPoly (r : ZMod p) : (ZMod p)[X] :=
  if r = 1 then 1 - X else C (1 - r)⁻¹ * (X * (X - C r))

theorem hidingPoly_sum (r : ZMod p) : (hidingPoly r).eval 0 + (hidingPoly r).eval 1 = 1 := by
  rw [hidingPoly]
  split_ifs with h
  · simp
  · have hne : 1 - r ≠ 0 := sub_ne_zero.2 fun heq => h heq.symm
    simp [hne]

theorem eval_hidingPoly (r : ZMod p) : (hidingPoly r).eval r = 0 := by
  rw [hidingPoly]
  split_ifs with h
  · simp [h]
  · simp

theorem natDegree_hidingPoly_le (r : ZMod p) : (hidingPoly r).natDegree ≤ 2 := by
  rw [hidingPoly]
  split_ifs
  · refine (natDegree_sub_le _ _).trans ?_
    rw [natDegree_one, natDegree_X]
    norm_num
  · refine (natDegree_C_mul_le _ _).trans (natDegree_mul_le.trans ?_)
    rw [natDegree_X, natDegree_X_sub_C]

/-- The polynomials of the adaptive prover: the first one makes up for the false claim. -/
noncomputable def adaptivePoly (c : SumCheckInput) (b k : ℕ) (rho : ℕ → ZMod p) : (ZMod p)[X] :=
  roundPoly c.layers (inTable p c b) (castVec p c.z) k rho +
    if k = 0 then
      C ((c.trueSum b : ZMod p) - claim c.layers (inTable p c b) (castVec p c.z) 0 rho) *
        hidingPoly (rho 0)
    else 0

/-- The challenges in the messages received. -/
def challengesOf (p : ℕ) (received : List Request) : ℕ → ZMod p := fun i =>
  match received[i]? with
  | some (.scPoly r) => r
  | _ => 0

/-- A prover that reads the challenge of a round before it answers. -/
noncomputable def adaptiveProver (p : ℕ) [Fact p.Prime] (c : SumCheckInput) : Strategy :=
  fun received =>
    let rho := challengesOf p received
    match received.getLast? with
    | some .vs => fun i =>
        ((if i % 2 = 0 then extension (inTable p c (i / 2)) c.layers.mip1 (point1 c.layers rho)
          else extension (inTable p c (i / 2)) c.layers.mip1 (point2 c.layers rho)).val : ℤ)
    | _ => fun i =>
        (((adaptivePoly c (i / polySize) (received.length - 1) rho).eval
          ((i % polySize : ℕ) : ZMod p)).val : ℤ)

variable {c : SumCheckInput}

theorem cast_val (x : ZMod p) : (((x.val : ℕ) : ℤ) : ZMod p) = x := by
  rw [Int.cast_natCast, ZMod.natCast_val, ZMod.cast_id]

omit [Fact p.Prime] in
theorem challengesOf_roundRequests (r : Vec) {k i : ℕ} (hi : i < k) (rest : List Request) :
    challengesOf p (roundRequests r k ++ rest) i = castVec p r i := by
  have hget : (roundRequests r k ++ rest)[i]? = some (.scPoly (r i)) := by
    rw [List.getElem?_append_left (by simpa [roundRequests] using hi), roundRequests,
      List.getElem?_map, List.getElem?_range hi]
    rfl
  rw [challengesOf, hget]
  rfl

theorem adaptivePoly_congr (b : ℕ) {k : ℕ} {rho rho' : ℕ → ZMod p}
    (h : ∀ i ≤ k, rho i = rho' i) : adaptivePoly c b k rho = adaptivePoly c b k rho' := by
  have hclaim : claim c.layers (inTable p c b) (castVec p c.z) 0 rho =
      claim c.layers (inTable p c b) (castVec p c.z) 0 rho' := by
    have hmi : 0 < c.layers.mi := log2i_pos c.layers.out_pos
    rw [claim, claim, if_pos hmi, if_pos hmi, claimP_zero, claimP_zero]
  rw [adaptivePoly, adaptivePoly, hclaim, h 0 (Nat.zero_le k),
    roundPoly_congr _ _ _ fun i hi => h i (Nat.le_of_lt hi)]

theorem natDegree_adaptivePoly_lt (b k : ℕ) (rho : ℕ → ZMod p) :
    (adaptivePoly c b k rho).natDegree < polySize := by
  refine Nat.lt_succ_of_le ((natDegree_add_le _ _).trans (max_le ?_ ?_))
  · exact natDegree_roundPoly_le _ _ _ k rho
  · split_ifs
    · exact (natDegree_C_mul_le _ _).trans (natDegree_hidingPoly_le _)
    · rw [natDegree_zero]
      exact Nat.zero_le 2

/-- After the first round nothing is left of the false claim. -/
theorem expected_adaptivePoly (b : ℕ) (rho : ℕ → ZMod p) {k : ℕ} (hk : 0 < k) :
    RoundSystem.expected (c.trueSum b : ZMod p) (fun k => adaptivePoly c b k rho) rho k =
      claim c.layers (inTable p c b) (castVec p c.z) k rho := by
  obtain ⟨k, rfl⟩ := Nat.exists_eq_succ_of_ne_zero (ne_of_gt hk)
  rw [Nat.succ_eq_add_one, RoundSystem.expected, claim_succ, adaptivePoly, eval_add,
    eval_roundPoly]
  split_ifs with hzero
  · rw [hzero, eval_mul, eval_hidingPoly, mul_zero, add_zero]
  · rw [eval_zero, add_zero]

theorem answersWith_adaptivePoly (r : Vec) :
    AnswersWith c.toSumCheckTask (adaptiveProver p c) r fun b k =>
      adaptivePoly c b k (castVec p r) := by
  intro k _ b _
  refine ⟨natDegree_adaptivePoly_lt b k _, fun m hm => ?_⟩
  have hlast : (roundRequests r (k + 1)).getLast? = some (.scPoly (r k)) := by
    rw [roundRequests_succ, List.getLast?_concat]
  have hlength : (roundRequests r (k + 1)).length - 1 = k := by simp [roundRequests]
  have hindex : (b * polySize + m) / polySize = b ∧ (b * polySize + m) % polySize = m := by
    rw [polySize] at *
    omega
  have hrho : ∀ i ≤ k, challengesOf p (roundRequests r (k + 1)) i = castVec p r i := by
    intro i hi
    have h := challengesOf_roundRequests (p := p) r (Nat.lt_succ_of_le hi) []
    rwa [List.append_nil] at h
  rw [adaptiveProver, hlast]
  dsimp only
  rw [hlength, hindex.1, hindex.2, cast_val, adaptivePoly_congr b hrho]

theorem sumsHold_adaptivePoly (r : Vec) (n : ℕ) :
    SumsHold c.toSumCheckTask r (fun b k => adaptivePoly c b k (castVec p r)) n := by
  intro k _ b _
  rcases Nat.eq_zero_or_pos k with rfl | hpos
  · have hsum := hidingPoly_sum (castVec p r 0)
    have hclaim := claim_eq c.layers (inTable p c b) (castVec p c.z) 0 (castVec p r)
    rw [RoundSystem.expected]
    dsimp only
    rw [adaptivePoly, if_pos rfl, eval_add, eval_add, eval_roundPoly, eval_roundPoly, eval_mul,
      eval_mul, eval_C, eval_C]
    linear_combination
      (-(c.trueSum b : ZMod p) + claim c.layers (inTable p c b) (castVec p c.z) 0 (castVec p r)) *
        hsum + hclaim
  · rw [expected_adaptivePoly b _ hpos, claim_eq]
    dsimp only
    rw [adaptivePoly, if_neg (ne_of_gt hpos), add_zero, eval_roundPoly, eval_roundPoly]

theorem adaptiveProver_vs (r : Vec) (b : ℕ) :
    (adaptiveProver p c (roundRequests r (numRounds c.toSumCheckTask) ++ [.vs]) (2 * b) : ZMod p) =
        extension (inTable p c b) c.layers.mip1 (point1 c.layers (castVec p r)) ∧
      (adaptiveProver p c (roundRequests r (numRounds c.toSumCheckTask) ++ [.vs]) (2 * b + 1) :
          ZMod p) =
        extension (inTable p c b) c.layers.mip1 (point2 c.layers (castVec p r)) := by
  have hlast : (roundRequests r (numRounds c.toSumCheckTask) ++ [Request.vs]).getLast? = some Request.vs :=
    List.getLast?_concat
  have hrho : ∀ i < numRounds c.toSumCheckTask,
      challengesOf p (roundRequests r (numRounds c.toSumCheckTask) ++ [.vs]) i = castVec p r i :=
    fun i hi => challengesOf_roundRequests r hi _
  have hindex : 2 * b / 2 = b ∧ (2 * b + 1) / 2 = b ∧ 2 * b % 2 = 0 ∧ (2 * b + 1) % 2 ≠ 0 := by
    omega
  rw [adaptiveProver, hlast]
  dsimp only
  rw [hindex.1, hindex.2.1, if_pos hindex.2.2.1, if_neg hindex.2.2.2, cast_val, cast_val]
  constructor
  · refine extension_congr (fun _ _ => rfl) fun i hi => hrho _ ?_
    rw [numRounds]
    omega
  · refine extension_congr (fun _ _ => rfl) fun i hi => hrho _ ?_
    rw [numRounds]
    omega

/-- Whatever the claims are, the adaptive prover is accepted at every challenge vector. -/
theorem adaptiveProver_accepts (hp : p ≠ 2) (ht : SumCheckTask.Canonical p c.toSumCheckTask)
    (hfn : ∀ rand, SuppliedPredicates c.layers p rand) (b : ℕ)
    (r : Fin (numRounds c.toSumCheckTask) → ZMod p) : Accepts p c b (adaptiveProver p c) r := by
  obtain ⟨rand, hrand⟩ :
      ∃ rand, rand = challengeVec p (RoundSystem.extendChallenge r) := ⟨_, rfl⟩
  have hanswers := answersWith_adaptivePoly (p := p) (c := c) rand
  have hsums := sumsHold_adaptivePoly (p := p) (c := c) rand (numRounds c.toSumCheckTask)
  obtain ⟨h1, h2⟩ := adaptiveProver_vs (p := p) (c := c) rand b
  rw [Accepts, ← hrand]
  refine ⟨?_, ?_, ?_⟩
  · exact run_true hp ht (hfn rand) hanswers hsums
      (fun b _ => expected_adaptivePoly b _ (numRounds_pos _)) fun b _ => adaptiveProver_vs rand b
  · rw [← ZMod.intCast_eq_intCast_iff, run_vs hp ht hanswers hsums, h1, cast_evaluateVi]
    rfl
  · rw [← ZMod.intCast_eq_intCast_iff, run_vs hp ht hanswers hsums, h2, cast_evaluateVi]
    rfl

theorem acceptCount_adaptiveProver (hp : p ≠ 2) (ht : SumCheckTask.Canonical p c.toSumCheckTask)
    (hfn : ∀ rand, SuppliedPredicates c.layers p rand) (b : ℕ) :
    acceptCount p c b (adaptiveProver p c) = p ^ numRounds c.toSumCheckTask := by
  rw [acceptCount, Finset.filter_true_of_mem fun r _ => adaptiveProver_accepts hp ht hfn b r,
    Finset.card_univ, Fintype.card_fun, Fintype.card_fin, ZMod.card]

end Adaptive

/-! ## When the bound holds -/

section Sound

variable {p : ℕ} [Fact p.Prime] {c : SumCheckInput} {b : ℕ}

/-- With more elements than the bound counts the adaptive prover breaks it. -/
theorem not_acceptCount_le (hp : 2 * numRounds c.toSumCheckTask < p)
    (ht : SumCheckTask.Canonical p c.toSumCheckTask)
    (hfn : ∀ rand, SuppliedPredicates c.layers p rand) (b : ℕ) :
    ¬ acceptCount p c b (adaptiveProver p c) ≤
      2 * numRounds c.toSumCheckTask * p ^ (numRounds c.toSumCheckTask - 1) := by
  have hpos := numRounds_pos c.toSumCheckTask
  have hp2 : p ≠ 2 := by omega
  rw [acceptCount_adaptiveProver hp2 ht hfn b, not_le, ← mul_pow_sub_one (ne_of_gt hpos) p]
  exact Nat.mul_lt_mul_of_pos_right hp (pow_pos (Fact.out : p.Prime).pos _)

/-- Against all provers the bound holds when it says nothing; against provers that answer
before they look at the challenge of the round it always holds. -/
theorem sumCheck_sound_iff (hc : c.Evaluated p) (ht : SumCheckTask.Canonical p c.toSumCheckTask)
    (hfn : ∀ rand, SuppliedPredicates c.layers p rand) (hb : b < c.batchSize)
    (hfalse : ¬ c.trueSum b ≡ evaluateVi c.layers.out.size (c.outValue b) c.z p [ZMOD p]) :
    ((∀ prover, acceptCount p c b prover ≤
        2 * numRounds c.toSumCheckTask * p ^ (numRounds c.toSumCheckTask - 1)) ↔
      p ≤ 2 * numRounds c.toSumCheckTask) ∧
    ∀ prover, AnswersBeforeChallenge prover → acceptCount p c b prover ≤
      2 * numRounds c.toSumCheckTask * p ^ (numRounds c.toSumCheckTask - 1) := by
  refine ⟨⟨?_, fun hp prover => acceptCount_le_of_le hp prover⟩, ?_⟩
  · intro hall
    by_contra hp
    exact not_acceptCount_le (not_le.1 hp) ht hfn b (hall _)
  · intro prover hprover
    refine acceptCount_le_of_before ht hfn hb ?_ hprover
    intro rho heq
    refine hfalse ((ZMod.intCast_eq_intCast_iff _ _ p).1 ?_)
    rw [heq, cast_evaluateVi_out hc hb rho]

/-- The input zero with the false claim one, over seven elements. -/
def falseClaim : SumCheckInput where
  layers := LayerPair.double
  batchSize := 1
  z := zeroVec
  trueSum := fun _ => 1
  prime := 7
  inValue := fun _ => zeroVec
  outValue := fun _ => zeroVec

theorem falseClaim_false :
    ¬ falseClaim.trueSum 0 ≡
      evaluateVi LayerPair.double.out.size (falseClaim.outValue 0) falseClaim.z 7 [ZMOD 7] := by
  decide

theorem falseClaim_canonical : SumCheckTask.Canonical 7 falseClaim.toSumCheckTask :=
  ⟨rfl, fun _ _ => ⟨zero_le_one, by norm_num [falseClaim]⟩⟩

theorem falseClaim_predicates [Fact (Nat.Prime 7)] (rand : Vec) :
    SuppliedPredicates falseClaim.layers 7 rand :=
  suppliedPredicates_of_none _ rfl rfl rand

/-- A false claim that a prover has accepted at all `343` challenge vectors. -/
theorem falseClaim_accepted :
    ¬ falseClaim.trueSum 0 ≡
        evaluateVi LayerPair.double.out.size (falseClaim.outValue 0) falseClaim.z 7 [ZMOD 7] ∧
      ∃ prover, acceptCount 7 falseClaim 0 prover = 343 ∧
        ¬ acceptCount 7 falseClaim 0 prover ≤
          2 * numRounds falseClaim.toSumCheckTask *
            7 ^ (numRounds falseClaim.toSumCheckTask - 1) := by
  have : Fact (Nat.Prime 7) := ⟨by norm_num⟩
  refine ⟨falseClaim_false, adaptiveProver 7 falseClaim, ?_, ?_⟩
  · exact acceptCount_adaptiveProver (by decide) falseClaim_canonical falseClaim_predicates 0
  · exact not_acceptCount_le (by decide) falseClaim_canonical falseClaim_predicates 0

theorem falseClaim_sound_iff :
    ((∀ prover, acceptCount 7 falseClaim 0 prover ≤
        2 * numRounds falseClaim.toSumCheckTask *
          7 ^ (numRounds falseClaim.toSumCheckTask - 1)) ↔
      7 ≤ 2 * numRounds falseClaim.toSumCheckTask) := by
  have : Fact (Nat.Prime 7) := ⟨by norm_num⟩
  have hc : falseClaim.Evaluated 7 :=
    { prime_eq := rfl
      outValue_eq := by
        intro b _ g _
        have hzero : ∀ i, inTable 7 falseClaim b i = 0 := by
          intro i
          rw [inTable, padded]
          split_ifs
          · exact Int.cast_zero
          · rfl
        rw [gateValue, hzero, hzero, GateWiring.eval]
        cases (falseClaim.layers.out.gate g).type <;> simp [falseClaim, zeroVec] }
  exact (sumCheck_sound_iff (b := 0) hc falseClaim_canonical falseClaim_predicates (by decide)
    falseClaim_false).1

end Sound

end Pepper.Cmtgkr.SumCheckSoundness
