import Pepper.Libv.Consistency
import Pepper.Foundations.LinearPcp

/-!
# The points of a run

Which point a repetition of `create_plain_queries` evaluates at: `pointAt` counts the draws of the
public stream before it. `createPlainQueries_linked` extends the lockstep of the two parties by
this: the recorded queries of repetition `rho` and the evaluations kept for its test belong to
`pointAt` of `rho`. `divisibilityTest_linkedAt` reads a test of the run as a polynomial identity at
that point.
-/

set_option autoImplicit false

open Polynomial
open Pepper.Common.Gmp Pepper.Foundations.Loop Pepper.Foundations.RootInterpolation
open Pepper.Libv.QuadraticProgram Pepper.Libv.Queries Pepper.Libv.DivisibilityTest
open Pepper.Libv.PlainQueries Pepper.Libv.Consistency

namespace Pepper.Libv.DrawnPoints

variable {P : Prng}

/-! ## The public stream -/

/-- The stream after `n` draws below the prime. -/
def afterDraws (prime : ℤ) (n : ℕ) (stream : P.State) : P.State :=
  forLoop n (fun _ stream => (P.getRandom stream prime).2) stream

theorem afterDraws_add (prime : ℤ) (n m : ℕ) (stream : P.State) :
    afterDraws prime (n + m) stream = afterDraws prime m (afterDraws prime n stream) :=
  forLoop_append n m _ stream

/-- The draws of one linearity iteration. -/
def linDraws (q : Qap) : ℕ := 2 * q.sizeF1Vec + 2 * q.sizeF2Vec

/-- The draws of one repetition: the linearity queries and the point. -/
def roundDraws (q : Qap) (numRepsLin : ℕ) : ℕ := numRepsLin * linDraws q + 1

/-- The point of repetition `rho`. -/
def pointAt (s : Setup) (numRepsLin rho : ℕ) (stream : P.State) : ℤ :=
  (P.getRandom
    (afterDraws s.prime (rho * roundDraws s.qap numRepsLin + numRepsLin * linDraws s.qap) stream)
    s.prime).1

theorem forLoop_linPass_pub (size : ℕ) (prime temp1 temp2 : ℤ) (st : LinState P) :
    (forLoop size (linPass prime temp1 temp2) st).crypto.pub =
      afterDraws prime (2 * size) st.crypto.pub := by
  induction size with
  | zero => rfl
  | succ size ih =>
      rw [forLoop_succ, Nat.mul_succ, afterDraws_add, ← ih]
      rfl

theorem createLinTestQueries_pub (size : ℕ) (crypto : Crypto P) (l1 l2 : Vec) (con : Option Vec)
    (filled : ℤ) (coins : Option Vec) (prime : ℤ) :
    (createLinTestQueries size crypto l1 l2 con filled coins prime).1.crypto.pub =
      afterDraws prime (2 * size) crypto.pub := by
  cases coins with
  | none => exact forLoop_linPass_pub size prime 0 0 _
  | some coins =>
      refine (forLoop_linPass_pub size prime _ _ _).trans ?_
      rw [drawCoins_pub]

theorem verifierLinIter_pub (s : Setup) (i : ℕ) (v : VerifierState P) :
    (verifierLinIter s i v).crypto.pub = afterDraws s.prime (linDraws s.qap) v.crypto.pub := by
  rw [linDraws, afterDraws_add]
  exact (createLinTestQueries_pub _ _ _ _ _ _ _ _).trans
    (congrArg _ (createLinTestQueries_pub _ _ _ _ _ _ _ _))

/-! ## Queries of a known point -/

/-- The recorded divisibility queries of repetition `rho`, its recorded self-correction queries
and the kept evaluations belong to the point `tau`. -/
def LinkedAt (s : Setup) (numRepsLin rho : ℕ) (tau : ℤ) (used : ℕ → Option (List ℤ))
    (t : TauState) : Prop :=
  ∃ ev corrQ corrQ2 old,
    evaluatePolynomialAt s tau = some ev ∧
    (0 < numRepsLin →
      used (rho * numLinPcpQueries numRepsLin) = some (dumpVector s.qap.sizeF1Vec corrQ) ∧
      used (rho * numLinPcpQueries numRepsLin + 3) = some (dumpVector s.qap.sizeF2Vec corrQ2)) ∧
    used (rho * numLinPcpQueries numRepsLin + numLinQueries * numRepsLin) =
      some (dumpVector s.qap.sizeF1Vec (divQueriesAt s tau ev corrQ corrQ2 old).f1Q1) ∧
    used (rho * numLinPcpQueries numRepsLin + (numLinQueries * numRepsLin + 1)) =
      some (dumpVector s.qap.sizeF1Vec (divQueriesAt s tau ev corrQ corrQ2 old).f1Q2) ∧
    used (rho * numLinPcpQueries numRepsLin + (numLinQueries * numRepsLin + 2)) =
      some (dumpVector s.qap.sizeF1Vec (divQueriesAt s tau ev corrQ corrQ2 old).f1Q3) ∧
    used (rho * numLinPcpQueries numRepsLin + (numLinQueries * numRepsLin + 3)) =
      some (dumpVector s.qap.sizeF2Vec (divQueriesAt s tau ev corrQ corrQ2 old).f2Q1) ∧
    KeepsEval s.qap rho ev t

variable {s : Setup} {numRepsLin rho : ℕ}

theorem LinkedAt.of_used_eq {tau : ℤ} {used used' : ℕ → Option (List ℤ)} {t : TauState}
    (h : LinkedAt s numRepsLin rho tau used t)
    (heq : ∀ j < (rho + 1) * numLinPcpQueries numRepsLin, used' j = used j) :
    LinkedAt s numRepsLin rho tau used' t := by
  obtain ⟨ev, corrQ, corrQ2, old, hev, hcorr, h1, h2, h3, h4, hkeep⟩ := h
  have hN : (rho + 1) * numLinPcpQueries numRepsLin =
      rho * numLinPcpQueries numRepsLin + (numLinQueries * numRepsLin + 4) := by
    rw [numLinPcpQueries, numLinQueries]
    ring
  refine ⟨ev, corrQ, corrQ2, old, hev, ?_, ?_, ?_, ?_, ?_, hkeep⟩
  · intro hpos
    rw [heq _ (by rw [hN]; omega), heq _ (by rw [hN]; omega)]
    exact hcorr hpos
  · rw [heq _ (by rw [hN]; omega), h1]
  · rw [heq _ (by rw [hN]; omega), h2]
  · rw [heq _ (by rw [hN]; omega), h3]
  · rw [heq _ (by rw [hN]; omega), h4]

theorem LinkedAt.store_of_ne {tau : ℤ} {used : ℕ → Option (List ℤ)} {t : TauState} {rho' : ℕ}
    {ev' : PolyEval} (h : LinkedAt s numRepsLin rho tau used t) (hne : rho ≠ rho') :
    LinkedAt s numRepsLin rho tau used (t.store s.qap rho' ev') := by
  obtain ⟨ev, corrQ, corrQ2, old, hev, hcorr, h1, h2, h3, h4, hkeep⟩ := h
  exact ⟨ev, corrQ, corrQ2, old, hev, hcorr, h1, h2, h3, h4, hkeep.store_of_ne hne⟩

/-! ## The run -/

/-- The parties before repetition `rho`, and the points of the repetitions before. -/
structure PointSim (s : Setup) (numRepsLin : ℕ) (stream : P.State) (rho : ℕ)
    (v : VerifierState P) (w : ProverState P) : Prop where
  sim : RoundSim s numRepsLin rho 0 v w.restart
  pub : v.crypto.pub = afterDraws s.prime (rho * roundDraws s.qap numRepsLin) stream
  linked : ∀ rho' < rho, LinkedAt s numRepsLin rho' (pointAt s numRepsLin rho' stream) v.used v.tests

/-- What an iteration of linearity queries leaves of earlier repetitions. -/
structure LinFrame (s : Setup) (bound i : ℕ) (v v' : VerifierState P) : Prop where
  pub : v'.crypto.pub = afterDraws s.prime (i * linDraws s.qap) v.crypto.pub
  used : ∀ t < bound, v'.used t = v.used t
  tests : v'.tests = v.tests

theorem LinFrame.linIter {bound i : ℕ} {v v' : VerifierState P} (h : LinFrame s bound i v v')
    (hfilled : (bound : ℤ) ≤ v'.fConFilled + 1) :
    LinFrame s bound (i + 1) v (verifierLinIter s i v') where
  pub := by rw [verifierLinIter_pub, h.pub, ← afterDraws_add, Nat.succ_mul]
  used := by
    intro t ht
    obtain ⟨f, hf⟩ : ∃ f : ℕ, v'.fConFilled + 1 = f :=
      ⟨(v'.fConFilled + 1).toNat, by omega⟩
    obtain ⟨hframe, -⟩ := recordLin_spec s.qap hf (verifierLinIter s i v').f1Q1
      (verifierLinIter s i v').f1Q2 (verifierLinIter s i v').f2Q1 (verifierLinIter s i v').f2Q2
      v'.used
    rw [← h.used t ht]
    exact hframe t (by omega)
  tests := h.tests

/-- The divisibility part: the point drawn next is linked to what is recorded and kept. -/
theorem linkedAt_divStep {v v' : VerifierState P} {w : ProverState P}
    (h : RoundSim s numRepsLin rho numRepsLin v w) (hv' : verifierDivStep s rho v = some v') :
    LinkedAt s numRepsLin rho (drawnTau v.crypto s.prime) v'.used v'.tests ∧
      v'.crypto.pub = (P.getRandom v.crypto.pub s.prime).2 ∧
      (∀ t < rho * numLinPcpQueries numRepsLin + numLinQueries * numRepsLin, v'.used t = v.used t) ∧
      ∃ ev, v'.tests = v.tests.store s.qap rho ev := by
  have h6 : numLinQueries = 6 := rfl
  have hfilled := h.filled
  rw [h6] at hfilled
  rw [verifierDivStep, createDivCorrTestQueries_eq, Option.map_map] at hv'
  obtain ⟨ev, hev, rfl⟩ := Option.map_eq_some_iff.1 hv'
  have hcoin : v.fConFilled + 1 =
      (rho * numLinPcpQueries numRepsLin + 6 * numRepsLin : ℕ) := by omega
  obtain ⟨hframe, hu0, hu1, hu2, hu3⟩ := recordDiv_spec s.qap hcoin
    (divQueriesAt s (drawnTau v.crypto s.prime) ev v.f1Q4 v.f2Q4
      ⟨v.f1Q1, v.f1Q2, v.f1Q3, v.f2Q1⟩) v.used
  refine ⟨⟨ev, v.f1Q4, v.f2Q4, ⟨v.f1Q1, v.f1Q2, v.f1Q3, v.f2Q1⟩, hev, ?_, hu0, hu1, hu2, hu3,
    KeepsEval.store s.qap rho ev v.tests⟩, rfl, ?_, ev, rfl⟩
  · intro hpos
    have hcorr := h.corr hpos
    rw [← hcorr.1, ← hcorr.2]
    exact ⟨hframe _ (by omega), hframe _ (by omega)⟩
  · intro t ht
    exact hframe t ht

/-- The linearity iterations of one repetition. -/
theorem PointSim.lin {stream : P.State} {v : VerifierState P} {w : ProverState P}
    (h : PointSim s numRepsLin stream rho v w) :
    RoundSim s numRepsLin rho numRepsLin (forLoop numRepsLin (verifierLinIter s) v)
        (forLoop numRepsLin (proverLinIter s rho) w.restart) ∧
      LinFrame s (rho * numLinPcpQueries numRepsLin) numRepsLin v
        (forLoop numRepsLin (verifierLinIter s) v) := by
  refine forLoop_simulation (R := fun i v' w' => RoundSim s numRepsLin rho i v' w' ∧
    LinFrame s (rho * numLinPcpQueries numRepsLin) i v v') ⟨h.sim, ?_⟩ ?_
  · exact ⟨by rw [Nat.zero_mul]; rfl, fun _ _ => rfl, rfl⟩
  · rintro i hi v' w' ⟨hsim, hframe⟩
    refine ⟨hsim.linIter hi, hframe.linIter ?_⟩
    have hle := Nat.le_add_right (rho * numLinPcpQueries numRepsLin) (numLinQueries * i)
    rw [hsim.filled]
    omega

theorem PointSim.drawnTau_eq {stream : P.State} {v : VerifierState P} {w : ProverState P}
    (h : PointSim s numRepsLin stream rho v w) :
    drawnTau (forLoop numRepsLin (verifierLinIter s) v).crypto s.prime =
      pointAt s numRepsLin rho stream := by
  rw [drawnTau, h.lin.2.pub, h.pub, ← afterDraws_add, pointAt]

/-- One repetition. -/
theorem PointSim.round {stream : P.State} {v : VerifierState P} {w : ProverState P}
    (h : PointSim s numRepsLin stream rho v w) :
    Option.Rel (PointSim s numRepsLin stream (rho + 1)) (verifierRound s numRepsLin rho v)
      (proverRound s numRepsLin rho w) := by
  have hN := numLinPcpQueries_eq numRepsLin
  obtain ⟨hsim, hframe⟩ := h.lin
  have hrel := hsim.divStep
  rw [verifierRound, proverRound]
  refine rel_imp ?_ hrel
  intro v' w' hv' hsim'
  obtain ⟨hlinked, hpub, hused, ev, htests⟩ := linkedAt_divStep hsim hv'
  refine ⟨hsim', ?_, ?_⟩
  · rw [hpub, hframe.pub, h.pub, ← afterDraws_add, Nat.succ_mul, roundDraws, ← Nat.add_assoc,
      afterDraws_add _ _ 1]
    rfl
  · intro rho' hrho'
    rcases Nat.lt_succ_iff_lt_or_eq.1 hrho' with hlt | rfl
    · have hle : (rho' + 1) * numLinPcpQueries numRepsLin ≤ rho * numLinPcpQueries numRepsLin :=
        Nat.mul_le_mul_right _ hlt
      rw [htests, hframe.tests]
      refine ((h.linked rho' hlt).of_used_eq fun j hj => ?_).store_of_ne (Nat.ne_of_lt hlt)
      rw [hused j (by omega), hframe.used j (by omega)]
    · rw [← h.drawnTau_eq]
      exact hlinked

/-- The program leaves a repetition when the evaluation at its point does. -/
theorem PointSim.round_isSome {stream : P.State} {v : VerifierState P} {w : ProverState P}
    (h : PointSim s numRepsLin stream rho v w) :
    (verifierRound s numRepsLin rho v).isSome =
      (evaluatePolynomialAt s (pointAt s numRepsLin rho stream)).isSome := by
  rw [verifierRound, verifierDivStep, createDivCorrTestQueries_eq, Option.isSome_map,
    Option.isSome_map, h.drawnTau_eq]

/-- All repetitions. -/
theorem createPlainQueries_linked (s : Setup) (numRepetitions numRepsLin : ℕ) {c c' : Crypto P}
    (hpub : c.pub = c'.pub) (r1 r2 : Vec) :
    Option.Rel (PointSim s numRepsLin c.pub numRepetitions)
      (createPlainQueries s numRepetitions numRepsLin (VerifierState.init c r1 r2))
      (deduceQueries s numRepetitions numRepsLin (ProverState.init c')) := by
  refine forLoop_simulation
    (R := fun rho ov ow => Option.Rel (PointSim s numRepsLin c.pub rho) ov ow) ?_ ?_
  · refine Option.Rel.some ⟨RoundSim.init s numRepsLin hpub r1 r2, ?_, ?_⟩
    · rw [Nat.zero_mul]
      rfl
    · exact fun rho' hrho' => absurd hrho' (Nat.not_lt_zero rho')
  · intro rho _ ov ow hrel
    cases hrel with
    | none => exact Option.Rel.none
    | some hsim => exact hsim.round

/-- The run ends normally when all evaluations do. -/
theorem createPlainQueries_isSome (s : Setup) (numRepetitions numRepsLin : ℕ) (c : Crypto P)
    (r1 r2 : Vec) (h : ∀ rho < numRepetitions,
      (evaluatePolynomialAt s (pointAt s numRepsLin rho c.pub)).isSome) :
    (createPlainQueries s numRepetitions numRepsLin (VerifierState.init c r1 r2)).isSome := by
  have hrun : Option.Rel (PointSim s numRepsLin c.pub numRepetitions)
        (createPlainQueries s numRepetitions numRepsLin (VerifierState.init c r1 r2))
        (deduceQueries s numRepetitions numRepsLin (ProverState.init c)) ∧
      (createPlainQueries s numRepetitions numRepsLin (VerifierState.init c r1 r2)).isSome := by
    refine forLoop_simulation
      (R := fun rho ov ow => Option.Rel (PointSim s numRepsLin c.pub rho) ov ow ∧ ov.isSome)
      ⟨createPlainQueries_linked s 0 numRepsLin rfl r1 r2, rfl⟩ ?_
    rintro rho hrho ov ow ⟨hrel, hsome⟩
    cases hrel with
    | none => exact absurd hsome (by simp)
    | some hsim => exact ⟨hsim.round, hsim.round_isSome.trans (h rho hrho)⟩
  exact hrun.2

/-! ## A test of the run -/

section Test

variable {p : ℕ} [Fact p.Prime] {q : Qap} {omega : ℤ}

/-- An evaluation that ends normally is at a point outside the roots of unity. -/
theorem pow_ne_one_of_evaluatePolynomialAt (hω : IsPrimitiveRoot (omega : ZMod p) q.sizeF2Vec)
    {tau : ℤ} (hrange : 0 ≤ tau ∧ tau < p) {ev : PolyEval}
    (hev : evaluatePolynomialAt (Setup.init q omega p) tau = some ev) :
    (tau : ZMod p) ^ q.sizeF2Vec ≠ 1 := by
  have : NeZero q.sizeF2Vec := ⟨Nat.succ_ne_zero q.chi⟩
  intro hone
  obtain ⟨i, hi, hpow⟩ := hω.eq_pow_of_pow_eq_one hone
  -- the point is the stored node, so the loop has left the program there
  have hnode : tau = (Setup.init q omega p).powersOfOmega i := by
    refine (eq_iff_cast_eq hrange (Roots.powersOfOmega_range q.sizeF2Vec omega hi)).2 ?_
    rw [← hpow]
    exact (Roots.cast_powersOfOmega q.sizeF2Vec omega hi).symm
  have hexit : evalLTau (Setup.init q omega p) tau = none := by
    refine forLoop_once (Q := fun acc : Option ℤ => acc = none) hi (fun acc => ?_)
      (fun j _ acc hacc => ?_) (some 1)
    · cases acc with
      | none => rfl
      | some lTau => exact if_pos (sub_eq_zero_of_eq hnode)
    · rw [hacc]
      rfl
  rw [evaluatePolynomialAt, hexit] at hev
  cases hev

/-- The test reads the kept cells of its repetition and no others. -/
theorem divisibilityTest_of_keepsEval {prime : ℤ} {rho : ℕ} {ev : PolyEval} {t : TauState}
    (h : KeepsEval q rho ev t) (io : Vec) (a : DivAnswers) :
    divisibilityTest q prime rho io t a = divisibilityTest q prime rho io (t.store q rho ev) a := by
  have hstore := KeepsEval.store q rho ev t
  have hsum : ∀ tauIo tauIo' : Vec, (∀ k ≤ q.sizeInput + q.sizeOutput,
      tauIo (tauIoBase q rho + k) = tauIo' (tauIoBase q rho + k)) →
      tauSum q rho io tauIo = tauSum q rho io tauIo' := by
    intro tauIo tauIo' hcells
    rw [tauSum, tauSum, hcells 0 (Nat.zero_le _)]
    refine forLoop_congr fun i hi acc => ?_
    rw [Nat.add_assoc, hcells (1 + i) (by omega)]
  rw [divisibilityTest, divisibilityTest, divisibilityLhs, divisibilityLhs, h.dStar, hstore.dStar,
    divisibilityRhs, divisibilityRhs,
    hsum _ _ fun k hk => (h.aTau k hk).trans (hstore.aTau k hk).symm,
    hsum _ _ fun k hk => (h.bTau k hk).trans (hstore.bTau k hk).symm,
    hsum _ _ fun k hk => (h.cTau k hk).trans (hstore.cTau k hk).symm]

/-- The identity of polynomials that a proof claims, at a point. -/
def IdentityAt (p : ℕ) [Fact p.Prime] (q : Qap) (omega : ℤ) (f1 f2 io : Vec) (x : ZMod p) : Prop :=
  (assignmentExpr p q omega f1 io).eval x =
    (proofPoly p q f2 * rowDivisor (omega : ZMod p) q.sizeF2Vec).eval x

/-- The divisibility test of a repetition that is linked to the point `tau`, on the answers of a
linear proof. -/
theorem divisibilityTest_linkedAt (hω : IsPrimitiveRoot (omega : ZMod p) q.sizeF2Vec) {tau : ℤ}
    (hrange : 0 ≤ tau ∧ tau < p) {used : ℕ → Option (List ℤ)} {t : TauState} (hlin : 0 < numRepsLin)
    (h : LinkedAt (Setup.init q omega p) numRepsLin rho tau used t) (f1 f2 io : Vec)
    {fAnswers : Vec} (hanswers : ∀ j < numLinPcpQueries numRepsLin,
      fAnswers (rho * numLinPcpQueries numRepsLin + j) =
        answerAt q numRepsLin f1 f2 used (rho * numLinPcpQueries numRepsLin + j)) :
    (tau : ZMod p) ^ q.sizeF2Vec ≠ 1 ∧
      (divisibilityTest q p rho io t (readDivAnswers numRepsLin rho fAnswers) = true ↔
        IdentityAt p q omega f1 f2 io tau) := by
  obtain ⟨ev, corrQ, corrQ2, old, hev, hcorr, h1, h2, h3, h4, hkeep⟩ := h
  have htau := pow_ne_one_of_evaluatePolynomialAt hω hrange hev
  have hN := numLinPcpQueries_eq numRepsLin
  have h6 : numLinQueries = 6 := rfl
  -- the answers to the queries of the point
  have hcell : ∀ (j : ℕ) (f : ProofVec) (v : Vec), j < numLinPcpQueries numRepsLin →
      ptrAt numRepsLin j = some f →
      used (rho * numLinPcpQueries numRepsLin + j) =
        some (dumpVector (proofVector q f1 f2 f).1 v) →
      fAnswers (rho * numLinPcpQueries numRepsLin + j) =
        dotProduct (proofVector q f1 f2 f).1 v (proofVector q f1 f2 f).2 := by
    intro j f v hj hptr hused
    have hptr' : ptrAt numRepsLin ((rho * numLinPcpQueries numRepsLin + j) %
        numLinPcpQueries numRepsLin) = some f := by
      rw [Nat.mul_add_mod_of_lt hj, hptr]
    rw [hanswers j hj, answerAt_of_some hptr', plainAnswer_eq hptr' hused]
  have hread : readDivAnswers numRepsLin rho fAnswers =
      linearAnswers q (divQueriesAt (Setup.init q omega p) tau ev corrQ corrQ2 old) corrQ corrQ2
        f1 f2 := by
    obtain ⟨hcorr1, hcorr2⟩ := hcorr hlin
    have h0 : ptrAt numRepsLin 0 = some .f1 := ptrAt_lin (i := 0) (k := 0) hlin (by norm_num)
    have h3' : ptrAt numRepsLin 3 = some .f2 := ptrAt_lin (i := 0) (k := 3) hlin (by norm_num)
    have hbound : ∀ k < 4, numLinQueries * numRepsLin + k < numLinPcpQueries numRepsLin := by
      intro k hk
      rw [hN, h6]
      omega
    rw [readDivAnswers, linearAnswers]
    congr 1
    · exact hcell 0 .f1 corrQ (by omega) h0 hcorr1
    · exact hcell 3 .f2 corrQ2 (by omega) h3' hcorr2
    · exact hcell _ .f1 _ (hbound 0 (by norm_num)) (ptrAt_div (k := 0)) h1
    · exact hcell _ .f1 _ (hbound 1 (by norm_num)) (ptrAt_div (k := 1)) h2
    · exact hcell _ .f1 _ (hbound 2 (by norm_num)) (ptrAt_div (k := 2)) h3
    · exact hcell _ .f2 _ (hbound 3 (by norm_num)) (ptrAt_div (k := 3)) h4
  refine ⟨htau, ?_⟩
  have hkept : divisibilityTest q p rho io t (readDivAnswers numRepsLin rho fAnswers) =
      divisibilityTest q p rho io (t.store q rho ev) (readDivAnswers numRepsLin rho fAnswers) :=
    divisibilityTest_of_keepsEval hkeep io _
  rw [hkept, hread]
  exact divisibilityTest_iff hω htau hev rho f1 f2 io corrQ corrQ2 old t

end Test

end Pepper.Libv.DrawnPoints
