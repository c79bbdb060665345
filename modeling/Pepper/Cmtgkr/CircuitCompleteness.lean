import Pepper.Cmtgkr.CircuitBatch

/-!
# Completeness of a run over all levels

A prover that has evaluated its circuits answers every message so that the verifier goes on.
`proverStep` is followed message by message through one level (`runCmtProver_level`); `InStep`
says what both parties have between two levels, and `checkLevel_inStep` is the step lemma.

`compute_complete` needs that the coins avoid some values (`GoodCoins`): the prover divides by one
minus every coordinate of a point, and the verifier's weights are zero at the nodes of the line.
-/

set_option autoImplicit false

open Pepper.Common.Gmp Pepper.Foundations.Loop Pepper.Foundations.Multilinear
open Pepper.Cmtgkr.Env Pepper.Cmtgkr.Layer Pepper.Cmtgkr.LayerSum Pepper.Cmtgkr.SumCheckProver
open Pepper.Cmtgkr.SumCheckProverRun Pepper.Cmtgkr.SumCheckVerifier
open Pepper.Cmtgkr.Layer.CMTCircuit (residue)
open Pepper.Cmtgkr.MiniIP (LineMessage miniIP doMiniIP finishLevel handover_run miniIP_spec)

namespace Pepper.Cmtgkr.CircuitProtocol

/-! ## Strategies that agree -/

section Strategies

variable {t : SumCheckTask} {strategy strategy' : Strategy} {rand : Vec}

/-- The verifier of a sum-check sees a strategy only at the requests of its rounds. -/
theorem runRounds_congr {n : ℕ}
    (h : ∀ k < n, strategy (roundRequests rand (k + 1)) = strategy' (roundRequests rand (k + 1))) :
    runRounds t strategy rand n = runRounds t strategy' rand n ∧
      ((runRounds t strategy' rand n).success = true →
        (runRounds t strategy' rand n).sent = roundRequests rand n) := by
  induction n with
  | zero => exact ⟨rfl, fun _ => rfl⟩
  | succ n ih =>
      obtain ⟨heq, hsent⟩ := ih fun k hk => h k (Nat.lt_succ_of_lt hk)
      have hstep : ∀ strategy, runRounds t strategy rand (n + 1) =
          if (runRounds t strategy rand n).success then
            SumCheckVerifier.doRound t strategy (rand n) (runRounds t strategy rand n)
          else runRounds t strategy rand n := fun _ => forLoop_succ _ _ _
      rw [hstep, hstep, heq]
      split_ifs with hsuccess
      · have hrequests : (runRounds t strategy' rand n).sent ++ [.scPoly (rand n)] =
            roundRequests rand (n + 1) := by
          rw [hsent hsuccess, roundRequests_succ]
        rw [SumCheckVerifier.doRound, SumCheckVerifier.doRound]
        dsimp only
        rw [hrequests, h n (Nat.lt_succ_self n)]
        split_ifs
        · exact ⟨rfl, fun _ => rfl⟩
        · exact ⟨rfl, fun _ => rfl⟩
      · exact ⟨rfl, fun htrue => absurd htrue hsuccess⟩

theorem run_congr
    (h : ∀ k < numRounds t,
      strategy (roundRequests rand (k + 1)) = strategy' (roundRequests rand (k + 1)))
    (hvs : strategy (roundRequests rand (numRounds t) ++ [.vs]) =
      strategy' (roundRequests rand (numRounds t) ++ [.vs])) :
    run t strategy rand = run t strategy' rand := by
  obtain ⟨heq, hsent⟩ := runRounds_congr (t := t) h
  rw [run, run, heq]
  by_cases hsuccess : (runRounds t strategy' rand (numRounds t)).success = true
  · rw [if_pos hsuccess, if_pos hsuccess, doFinalCheck, doFinalCheck, hsent hsuccess, hvs]
  · rw [if_neg hsuccess, if_neg hsuccess]

end Strategies

/-! ## The prover in one level -/

section Level

variable (c : ProtocolCircuit) (prime : ℤ) (batchSize : ℕ) (data : ℕ → CircuitData)

theorem runCmtProver_append (received messages : List CmtMessage) :
    runCmtProver c prime batchSize data (received ++ messages) =
      messages.foldl (proverStep c prime batchSize data)
        (runCmtProver c prime batchSize data received) := by
  rw [runCmtProver, List.foldl_append]
  rfl

variable {c prime batchSize data} {sent : List CmtMessage} {level : ℕ}

/-! ### One message in every phase -/

theorem proverStep_beginLayer {s : CmtProver} (h : s.phase = .idle) (hlevel : level + 1 < c.depth) :
    proverStep c prime batchSize data s (.beginLayer level) =
      { s with phase := .inSumCheck level [] } := by
  simp only [proverStep, h]
  rw [if_neg (by omega)]

theorem proverStep_sumCheck {s : CmtProver} {received : List Request}
    (h : s.phase = .inSumCheck level received) (request : Request) :
    proverStep c prime batchSize data s (.sumCheck request) =
      sumCheckStep c prime batchSize data level received request s := by
  simp only [proverStep, h]

theorem proverStep_line {s : CmtProver} {rand lpoly : Vec} (h : s.phase = .inMiniIP level rand lpoly)
    (message : MiniIP.LineMessage) :
    proverStep c prime batchSize data s (.line message) =
      miniIPStep c prime batchSize data level rand lpoly message s := by
  simp only [proverStep, h]

/-! ### A level -/

/-- Claims and point stay during the rounds of a sum-check, so its input does. -/
theorem runCmtProver_rounds (hlevel : level + 1 < c.depth)
    (hidle : (runCmtProver c prime batchSize data sent).phase = .idle) (rand : Vec) (k : ℕ) :
    let st := runCmtProver c prime batchSize data sent
    let st' := runCmtProver c prime batchSize data
      (sent ++ [.beginLayer level] ++ (roundRequests rand k).map .sumCheck)
    st'.zi = st.zi ∧ st'.ri = st.ri ∧ st'.phase = .inSumCheck level (roundRequests rand k) ∧
      (0 < k → st'.response =
        respond (proverInput c prime batchSize data st level) (roundRequests rand k)) := by
  intro st
  induction k with
  | zero =>
      intro st'
      have hst' : st' = { st with phase := .inSumCheck level [] } := by
        show runCmtProver c prime batchSize data (sent ++ [.beginLayer level] ++ []) = _
        rw [List.append_nil, runCmtProver_append]
        exact proverStep_beginLayer hidle hlevel
      rw [hst']
      exact ⟨rfl, rfl, rfl, fun h => absurd h (lt_irrefl 0)⟩
  | succ k ih =>
      obtain ⟨hzi, hri, hphase, -⟩ := ih
      intro st'
      obtain ⟨low, hlow⟩ : ∃ low, low = runCmtProver c prime batchSize data
        (sent ++ [.beginLayer level] ++ (roundRequests rand k).map .sumCheck) := ⟨_, rfl⟩
      rw [← hlow] at hzi hri hphase
      have hst' : st' = sumCheckStep c prime batchSize data level (roundRequests rand k)
          (.scPoly (rand k)) low := by
        rw [← proverStep_sumCheck hphase, hlow]
        simp only [st', roundRequests_succ, List.map_append, ← List.append_assoc]
        rw [runCmtProver_append]
        rfl
      have hinput : proverInput c prime batchSize data low level =
          proverInput c prime batchSize data st level := by
        rw [proverInput, hzi, hri]
        rfl
      rw [hst', sumCheckStep]
      dsimp only
      rw [hinput, roundRequests_succ]
      exact ⟨hzi, hri, rfl, fun _ => rfl⟩

/-- The prover after `REQ_VS`. -/
theorem runCmtProver_vs (hlevel : level + 1 < c.depth)
    (hidle : (runCmtProver c prime batchSize data sent).phase = .idle) (rand : Vec) (k : ℕ) :
    let st := runCmtProver c prime batchSize data sent
    let input := proverInput c prime batchSize data st level
    let requests := roundRequests rand k ++ [Request.vs]
    runCmtProver c prime batchSize data
        (sent ++ [.beginLayer level] ++ requests.map .sumCheck) =
      { zi := st.zi
        ri := st.ri
        phase := .inMiniIP level (runProver input requests).rand zeroVec
        response := respond input requests } := by
  intro st input requests
  obtain ⟨hzi, hri, hphase, -⟩ := runCmtProver_rounds hlevel hidle rand k
  obtain ⟨low, hlow⟩ : ∃ low, low = runCmtProver c prime batchSize data
    (sent ++ [.beginLayer level] ++ (roundRequests rand k).map .sumCheck) := ⟨_, rfl⟩
  rw [← hlow] at hzi hri hphase
  have hinput : proverInput c prime batchSize data low level = input := by
    rw [proverInput, hzi, hri]
    rfl
  have hlast : runCmtProver c prime batchSize data
      (sent ++ [.beginLayer level] ++ requests.map .sumCheck) =
        sumCheckStep c prime batchSize data level (roundRequests rand k) .vs low := by
    rw [← proverStep_sumCheck hphase, hlow]
    simp only [requests, List.map_append, ← List.append_assoc]
    rw [runCmtProver_append]
    rfl
  rw [hlast, sumCheckStep]
  rw [hinput, hzi, hri]

theorem miniIPStep_idle {rand lpoly : Vec} {message : LineMessage} {s : CmtProver}
    (h : (doMiniIP (proverInput c prime batchSize data s level) rand
      { lpoly := lpoly, zi := s.zi, ri := s.ri, returnVal := none } message).returnVal = some true) :
    (miniIPStep c prime batchSize data level rand lpoly message s).phase = .idle := by
  simp only [miniIPStep, h]

/-- The prover after a level whose mini-IP ends with the message `message`. -/
theorem runCmtProver_level (hlevel : level + 1 < c.depth)
    (hidle : (runCmtProver c prime batchSize data sent).phase = .idle) (rand : Vec) (k : ℕ) :
    let st := runCmtProver c prime batchSize data sent
    let input := proverInput c prime batchSize data st level
    let requests := roundRequests rand k ++ [Request.vs]
    let received := (runProver input requests).rand
    let asked := doMiniIP input received
      { lpoly := zeroVec, zi := st.zi, ri := st.ri, returnVal := none } .reqLpoly
    let lpolySent := sent ++ [.beginLayer level] ++ requests.map .sumCheck ++ [.line .reqLpoly]
    (runCmtProver c prime batchSize data lpolySent).response = asked.lpoly ∧
      ∀ message, (doMiniIP input received asked message).returnVal = some true →
        let st' := runCmtProver c prime batchSize data (lpolySent ++ [.line message])
        let out := doMiniIP input received asked message
        st'.zi = out.zi ∧ st'.ri = out.ri ∧ st'.phase = .idle := by
  intro st input requests received asked lpolySent
  have hvs := runCmtProver_vs hlevel hidle rand k
  have hlpoly : runCmtProver c prime batchSize data lpolySent =
      { zi := st.zi
        ri := st.ri
        phase := .inMiniIP level received asked.lpoly
        response := asked.lpoly } := by
    rw [runCmtProver_append, hvs]
    rfl
  refine ⟨by rw [hlpoly], fun message hreturn => ?_⟩
  intro st' out
  have hst' : st' = miniIPStep c prime batchSize data level received asked.lpoly message
      { zi := st.zi
        ri := st.ri
        phase := .inMiniIP level received asked.lpoly
        response := asked.lpoly } := by
    simp only [st']
    rw [runCmtProver_append, hlpoly]
    rfl
  rw [hst']
  exact ⟨rfl, rfl, miniIPStep_idle hreturn⟩

end Level

/-- The mini-IP writes the coordinates of the line and the claims of the batch. -/
theorem miniIP_frame (input : SumCheckInput) (results : SumCheckResults) (rand : Vec) (newRand : ℤ)
    (v : MiniIP.VerifierLevel) (s : MiniIP.ProverLevel) :
    let out := miniIP input results rand newRand v s
    (∀ i, input.layers.mip1 ≤ i → out.1.zi i = v.zi i ∧ out.2.zi i = s.zi i) ∧
      ∀ b, input.batchSize ≤ b → out.1.ri b = v.ri b ∧ out.2.ri b = s.ri b := by
  intro out
  have hout : out = miniIP input results rand newRand v s := rfl
  rw [hout, miniIP]
  split_ifs
  · dsimp only [finishLevel]
    split_ifs
    · -- both parties fill the point and the claims by a loop
      refine ⟨fun i hi => ⟨?_, ?_⟩, fun b hb => ⟨?_, ?_⟩⟩
      · exact (forLoop_fill_apply _ _ _ _).trans (if_neg (not_lt.2 hi))
      · exact (forLoop_fill_apply _ _ _ _).trans (if_neg (not_lt.2 hi))
      · exact (forLoop_fill_apply _ _ _ _).trans (if_neg (not_lt.2 hb))
      · exact (forLoop_fill_apply _ _ _ _).trans (if_neg (not_lt.2 hb))
    · exact ⟨fun _ _ => ⟨rfl, rfl⟩, fun _ _ => ⟨rfl, rfl⟩⟩
  · exact ⟨fun _ _ => ⟨rfl, rfl⟩, fun _ _ => ⟨rfl, rfl⟩⟩

/-! ## Both parties in one level -/

section Parties

variable {c : ProtocolCircuit} {prime : ℤ} {batchSize : ℕ} {data : ℕ → CircuitData}
  {sent : List CmtMessage} {level : ℕ}

/-- The messages of a sum-check. -/
def allRequests (t : SumCheckTask) (rand : Vec) : List Request :=
  roundRequests rand (numRounds t) ++ [.vs]

/-- The strategy of the prover in a level is the one of its sum-check. -/
theorem sumCheckStrategy_eq (hlevel : level + 1 < c.depth)
    (hidle : (runCmtProver c prime batchSize data sent).phase = .idle) (rand : Vec) :
    let input := proverInput c prime batchSize data (runCmtProver c prime batchSize data sent) level
    let strategy := sumCheckStrategy (cmtProvers c prime batchSize data)
      (sent ++ [.beginLayer level])
    (∀ k < numRounds input.toSumCheckTask,
      strategy (roundRequests rand (k + 1)) = respond input (roundRequests rand (k + 1))) ∧
      strategy (allRequests input.toSumCheckTask rand) =
        respond input (allRequests input.toSumCheckTask rand) := by
  intro input strategy
  constructor
  · intro k _
    exact (runCmtProver_rounds hlevel hidle rand (k + 1)).2.2.2 (Nat.succ_pos k)
  · exact congrArg CmtProver.response
      (runCmtProver_vs hlevel hidle rand (numRounds input.toSumCheckTask))

/-- What both parties go on with is the outcome of the mini-IP. -/
theorem checkLevel_eq_miniIP (hlevel : level + 1 < c.depth) {s : VerifierRun}
    (hidle : (runCmtProver c prime batchSize data s.sent).phase = .idle)
    (hzi : (runCmtProver c prime batchSize data s.sent).zi = s.claims.zi)
    (hri : (runCmtProver c prime batchSize data s.sent).ri = s.claims.ri) (coins : Coins)
    {input : SumCheckInput} (hinput : input = proverInput c prime batchSize data
      (runCmtProver c prime batchSize data s.sent) level)
    (hrounds : (runRounds input.toSumCheckTask (respond input) (coins.rand level)
      (numRounds input.toSumCheckTask)).success = true)
    (hsuccess : (run input.toSumCheckTask (respond input) (coins.rand level)).success = true) :
    let s' := checkLevel c prime batchSize (cmtProvers c prime batchSize data) coins level s
    let out := miniIP input (run input.toSumCheckTask (respond input) (coins.rand level))
      (runProver input (allRequests input.toSumCheckTask (coins.rand level))).rand
      (coins.newRand level) s.claims
      { lpoly := zeroVec, zi := s.claims.zi, ri := s.claims.ri, returnVal := none }
    s'.claims = out.1 ∧ (out.2.returnVal = some true →
      (runCmtProver c prime batchSize data s'.sent).zi = out.2.zi ∧
        (runCmtProver c prime batchSize data s'.sent).ri = out.2.ri ∧
        (runCmtProver c prime batchSize data s'.sent).phase = .idle) := by
  intro s' out
  have htask : levelTask c prime batchSize s.claims level = input.toSumCheckTask := by
    rw [hinput, levelTask, ← hzi, ← hri]
    rfl
  obtain ⟨hround, hvs⟩ := sumCheckStrategy_eq hlevel hidle (coins.rand level)
  rw [← hinput] at hround hvs
  have hrun := run_congr hround hvs
  have hsent := (runRounds_congr (t := input.toSumCheckTask) hround).2 hrounds
  rw [← (runRounds_congr (t := input.toSumCheckTask) hround).1] at hsent
  obtain ⟨hlpoly, hnext⟩ :=
    runCmtProver_level hlevel hidle (coins.rand level) (numRounds input.toSumCheckTask)
  rw [← hinput, hzi, hri, ← allRequests] at hlpoly hnext
  -- both ends of the mini-IP
  have hs' : s' = checkLevel c prime batchSize (cmtProvers c prime batchSize data) coins level s :=
    rfl
  have hout : out = miniIP input (run input.toSumCheckTask (respond input) (coins.rand level))
      (runProver input (allRequests input.toSumCheckTask (coins.rand level))).rand
      (coins.newRand level) s.claims
      { lpoly := zeroVec, zi := s.claims.zi, ri := s.claims.ri, returnVal := none } := rfl
  rw [checkLevel] at hs'
  dsimp only at hs'
  rw [htask, hrun, if_pos hsuccess, hsent, ← allRequests, cmtProvers] at hs'
  dsimp only at hs'
  rw [hlpoly] at hs'
  rw [miniIP, if_pos hsuccess] at hout
  rw [hs', hout]
  exact ⟨rfl, fun hreturn => hnext _ hreturn⟩

end Parties

/-! ## One level -/

section Step

variable {p : ℕ} [Fact p.Prime]

/-- Coins for which an honest run goes through: no coordinate of a point is one, and the
parameter of every line is past its nodes. -/
structure GoodCoins (p : ℕ) (c : ProtocolCircuit) (coins : Coins) : Prop where
  z_ne : ∀ i < (c.layer 0).logSize, ¬ coins.z i ≡ 1 [ZMOD p]
  newRand_lt : ∀ level, level + 1 < c.depth →
    ((c.pair level).mip1 : ℤ) < coins.newRand level ∧ coins.newRand level < p
  line_ne : ∀ level, level + 2 < c.depth → ∀ j < (c.pair level).mip1,
    ¬ coins.rand level ((c.pair level).mi + j) + coins.newRand level *
        (coins.rand level ((c.pair level).mi + (c.pair level).mip1 + j) -
          coins.rand level ((c.pair level).mi + j)) ≡ 1 [ZMOD p]

/-- Between two levels: the prover waits, both parties have the same point and claims, and the
claims are true. -/
structure InStep (p : ℕ) (c : ProtocolCircuit) (batchSize : ℕ) (data : ℕ → CircuitData)
    (level : ℕ) (s : VerifierRun) : Prop where
  success : s.claims.success = true
  phase : (runCmtProver c p batchSize data s.sent).phase = .idle
  zi_eq : (runCmtProver c p batchSize data s.sent).zi = s.claims.zi
  ri_eq : (runCmtProver c p batchSize data s.sent).ri = s.claims.ri
  claims : ∀ b < batchSize, s.claims.ri b =
    evaluateVi (c.layer level).size (zValues (data b) level) s.claims.zi p
  point : level + 1 < c.depth → ∀ i < (c.layer level).logSize, (s.claims.zi i : ZMod p) ≠ 1

variable {c : ProtocolCircuit} {batchSize : ℕ} {inputs : ℕ → ℚ} {data : ℕ → CircuitData}

theorem proverInput_evaluated (hdata : HonestBatch p c batchSize inputs data) {level : ℕ}
    (hlevel : level + 1 < c.depth) (st : CmtProver) :
    (proverInput c p batchSize data st level).Evaluated p where
  prime_eq := rfl
  outValue_eq := by
    intro b hb g hg
    obtain ⟨hout, hin⟩ := c.pair_eq hlevel
    have hg' : g < (c.layer level).size := by
      rw [← hout]
      exact hg
    obtain ⟨h1, h2⟩ := c.inRange level hlevel g hg'
    have hread : ∀ i < (c.layer (level + 1)).size,
        inTable p (proverInput c p batchSize data st level) b i =
          residue p (data b) (level + 1) i := by
      intro i hi
      exact if_pos (by rw [← hin] at hi; exact hi)
    have hgate : (proverInput c p batchSize data st level).layers.out.gate g =
        (c.layer level).gate g := congrArg (CircuitLayer.gate · g) hout
    rw [gateValue, hgate, hread _ h1, hread _ h2]
    exact hdata.gates b hb level hlevel g hg'

/-- The sum-check that follows is one of true claims. -/
theorem InStep.ready (hdata : HonestBatch p c batchSize inputs data) {level : ℕ}
    (hlevel : level + 1 < c.depth) {s : VerifierRun} (hs : InStep p c batchSize data level s)
    {input : SumCheckInput} (hinput : input = proverInput c p batchSize data
      (runCmtProver c p batchSize data s.sent) level) :
    input.Evaluated p ∧ (∀ i < input.layers.mi, (input.z i : ZMod p) ≠ 1) ∧
      ∀ b < input.batchSize,
        input.trueSum b = evaluateVi input.layers.out.size (input.outValue b) input.z p := by
  have hlayers : input.layers = c.pair level := by rw [hinput]; rfl
  have hzi : input.z = s.claims.zi := by rw [hinput, ← hs.zi_eq]; rfl
  have hri : input.trueSum = s.claims.ri := by rw [hinput, ← hs.ri_eq]; rfl
  refine ⟨by rw [hinput]; exact proverInput_evaluated hdata hlevel _, fun i hi => ?_,
    fun b hb => ?_⟩
  · rw [hlayers, c.pair_mi hlevel] at hi
    rw [hzi]
    exact hs.point hlevel i hi
  · have hb' : b < batchSize := by rw [hinput] at hb; exact hb
    have hvalues : input.outValue b = zValues (data b) level := by rw [hinput]; rfl
    rw [hzi, hri, hlayers, (c.pair_eq hlevel).1, hvalues]
    exact hs.claims b hb'

/-- One level with a prover that has true values. -/
theorem checkLevel_inStep (hp : p ≠ 2)
    (hpred : ∀ level, level + 1 < c.depth → ∀ rand, SuppliedPredicates (c.pair level) p rand)
    (hdata : HonestBatch p c batchSize inputs data) {coins : Coins} (hcoins : GoodCoins p c coins)
    {level : ℕ} (hlevel : level + 1 < c.depth) {s : VerifierRun}
    (hs : InStep p c batchSize data level s) :
    InStep p c batchSize data (level + 1)
      (checkLevel c p batchSize (cmtProvers c p batchSize data) coins level s) := by
  obtain ⟨hnew, hnewlt⟩ := hcoins.newRand_lt level hlevel
  obtain ⟨input, hinput⟩ : ∃ input, input = proverInput c p batchSize data
    (runCmtProver c p batchSize data s.sent) level := ⟨_, rfl⟩
  have hlayers : input.layers = c.pair level := by rw [hinput]; rfl
  have hbatch : input.batchSize = batchSize := by rw [hinput]; rfl
  obtain ⟨heval, hz, htrue⟩ := hs.ready hdata hlevel hinput
  have hfn : SuppliedPredicates input.layers p (coins.rand level) := by
    rw [hlayers]
    exact hpred level hlevel _
  obtain ⟨hrounds, hsuccess, -⟩ := run_respond hp heval hz htrue hfn
  have hhand := handover_run hp heval hz htrue hfn
  obtain ⟨hclaims, hprover⟩ := checkLevel_eq_miniIP hlevel hs.phase hs.zi_eq hs.ri_eq coins hinput
    (hrounds _ le_rfl) hsuccess
  -- the outcome of the mini-IP, and what it leaves alone
  obtain ⟨out, houtcome⟩ : ∃ out, out = miniIP input
    (run input.toSumCheckTask (respond input) (coins.rand level))
    (runProver input (allRequests input.toSumCheckTask (coins.rand level))).rand
    (coins.newRand level) s.claims
    { lpoly := zeroVec, zi := s.claims.zi, ri := s.claims.ri, returnVal := none } := ⟨_, rfl⟩
  have hspec := miniIP_spec (p := p) (by rw [hinput]; rfl) (by rw [hlayers]; omega) hhand
    ⟨by omega, hnewlt⟩ s.claims
    { lpoly := zeroVec, zi := s.claims.zi, ri := s.claims.ri, returnVal := none }
  have hframe := miniIP_frame input (run input.toSumCheckTask (respond input) (coins.rand level))
    (runProver input (allRequests input.toSumCheckTask (coins.rand level))).rand
    (coins.newRand level) s.claims
    { lpoly := zeroVec, zi := s.claims.zi, ri := s.claims.ri, returnVal := none }
  rw [← allRequests, ← houtcome] at hspec
  rw [← houtcome] at hclaims hprover hframe
  obtain ⟨⟨hok, hreturn⟩, hpoint, hri1, hri2⟩ := hspec
  obtain ⟨hzi', hri', hphase⟩ := hprover hreturn
  have hrand : (run input.toSumCheckTask (respond input) (coins.rand level)).rand =
      coins.rand level := by
    rw [run]
    split_ifs
    · rfl
    · rfl
  rw [hrand, hlayers] at hpoint
  dsimp only at hri1 hri2
  rw [hrand, hlayers, hbatch] at hri1 hri2
  rw [hlayers, hbatch] at hframe
  refine
    { success := by rw [hclaims]; exact hok
      phase := hphase
      zi_eq := ?_
      ri_eq := ?_
      claims := ?_
      point := ?_ }
  · rw [hzi', hclaims]
    funext i
    by_cases hi : i < (c.pair level).mip1
    · rw [(hpoint i hi).1, (hpoint i hi).2]
    · rw [(hframe.1 i (not_lt.1 hi)).1, (hframe.1 i (not_lt.1 hi)).2]
  · rw [hri', hclaims]
    funext b
    by_cases hb : b < batchSize
    · rw [hri1 b hb, hri2 b hb, if_pos hnew]
    · rw [(hframe.2 b (not_lt.1 hb)).1, (hframe.2 b (not_lt.1 hb)).2]
  · intro b hb
    have hvalues : input.inValue b = zValues (data b) (level + 1) := by rw [hinput]; rfl
    rw [hclaims, hri1 b hb, if_pos hnew, (c.pair_eq hlevel).2, hvalues]
    refine MiniIP.evaluateVi_congr (c.size_pos _ hlevel) _ fun j hj => ?_
    have hj' : j < (c.pair level).mip1 := by rwa [c.pair_mip1 hlevel]
    rw [(hpoint j hj').1]
  · intro hnext i hi
    have hi' : i < (c.pair level).mip1 := by rwa [c.pair_mip1 hlevel]
    have hprime : input.toSumCheckTask.prime = p := by rw [hinput]; rfl
    rw [hclaims, (hpoint i hi').1, MiniIP.linePoint, hprime, hlayers, ZMod.intCast_mod]
    intro hone
    refine hcoins.line_ne level hnext i hi' ((ZMod.intCast_eq_intCast_iff _ _ p).1 ?_)
    rw [Int.cast_one]
    exact hone

end Step

/-! ## Whole runs -/

section Run

variable {p : ℕ} [Fact p.Prime] {c : ProtocolCircuit} {batchSize : ℕ} {inputs : ℕ → ℚ}
  {data : ℕ → CircuitData}

/-- After `NOTIFY_Z0`. -/
theorem initializeProtocol_inStep (hc : c.Covers) (hdata : HonestBatch p c batchSize inputs data)
    {coins : Coins} (hcoins : GoodCoins p c coins) (vdata : CircuitData) :
    InStep p c batchSize data 0
      (initializeProtocol c p batchSize coins (cmtProvers c p batchSize data).outputs vdata).1 := by
  have houtputs : HoldsResidues p batchSize c.outGates data (getGates p c.outGates data) :=
    holdsResidues_getGates fun b hb lvl j hmem =>
      hdata.integer b hb lvl j (List.mem_append_left _ hmem)
  let z0 : Vec := forLoop (c.layer 0).logSize (fun i z0 => Function.update z0 i (coins.z i)) zeroVec
  have hz0 : ∀ i < (c.layer 0).logSize, z0 i = coins.z i := fun i hi =>
    (forLoop_fill_apply _ _ _ _).trans (if_pos hi)
  have hnotified : forLoop (c.layer 0).logSize (fun i zi => Function.update zi i
      (((List.range (c.layer 0).logSize).map coins.z).getD i (zi i))) zeroVec = z0 := by
    refine forLoop_congr fun i hi zi => ?_
    rw [List.getD_eq_getElem?_getD, List.getElem?_map, List.getElem?_range hi]
    rfl
  -- the verifier evaluates the outputs, the prover its gates
  have hclaims : ∀ b < batchSize, evaluateVChis (c.layer 0).size
      (zValues (outputData c p (getGates p c.outGates data) vdata (b + 1)) 0)
      (computeChiAll (c.layer 0).size zeroVec (c.layer 0).logSize coins.z p) p =
        evaluateVi (c.layer 0).size (zValues (data b) 0) z0 p := by
    intro b hb
    have hvalues : ∀ j < (c.layer 0).size,
        (zValues (outputData c p (getGates p c.outGates data) vdata (b + 1)) 0 j : ZMod p) =
          zValues (data b) 0 j :=
      fun j hj => residue_outputData hc houtputs hdata.outConstants vdata hb hj
    refine (evaluateVChis_eq_evaluateVi (c.size_pos 0 c.depth_pos) hvalues coins.z).trans ?_
    exact MiniIP.evaluateVi_congr (c.size_pos 0 c.depth_pos) _ fun i hi => by rw [hz0 i hi]
  refine
    { success := rfl
      phase := rfl
      zi_eq := hnotified
      ri_eq := ?_
      claims := ?_
      point := ?_ }
  · funext b
    refine (forLoop_fill_apply _ _ _ _).trans ?_
    rw [show CmtProver.init.zi = zeroVec from rfl, hnotified]
    split_ifs with hb
    · exact (hclaims b hb).symm.trans (evaluateOutputs_apply _ _ _ _ hb).symm
    · exact (evaluateOutputs_frame _ _ _ _ (not_lt.1 hb)).symm
  · exact fun b hb => (evaluateOutputs_apply _ _ _ _ hb).trans (hclaims b hb)
  · intro _ i hi hone
    refine hcoins.z_ne i hi ((ZMod.intCast_eq_intCast_iff _ _ p).1 ?_)
    rw [Int.cast_one, ← hz0 i hi]
    exact hone

/-- After any number of levels. By induction on the levels. -/
theorem runLevels_inStep (hp : p ≠ 2) (hc : c.Covers)
    (hpred : ∀ level, level + 1 < c.depth → ∀ rand, SuppliedPredicates (c.pair level) p rand)
    (hdata : HonestBatch p c batchSize inputs data) {coins : Coins} (hcoins : GoodCoins p c coins)
    (vdata : CircuitData) {levels : ℕ} (hlevels : levels < c.depth) :
    InStep p c batchSize data levels
      (runLevels c p batchSize (cmtProvers c p batchSize data) coins levels
        (initializeProtocol c p batchSize coins (cmtProvers c p batchSize data).outputs
          vdata).1) := by
  induction levels with
  | zero => exact initializeProtocol_inStep hc hdata hcoins vdata
  | succ n ih =>
      have hs := ih (Nat.lt_of_succ_lt hlevels)
      rw [runLevels_succ, if_pos hs.success]
      exact checkLevel_inStep hp hpred hdata hcoins hlevels hs

/-- The final check passes. -/
theorem checkFinal_of_inStep (hc : c.Covers) (hdata : HonestBatch p c batchSize inputs data)
    {s : VerifierRun} (hs : InStep p c batchSize data c.inputLevel s) (vdata : CircuitData) :
    checkFinal c p batchSize s.claims.zi s.claims.ri inputs (getGates p c.magicGates data)
      vdata = true := by
  have hmagics : HoldsResidues p batchSize c.magicGates data (getGates p c.magicGates data) :=
    holdsResidues_getGates fun b hb lvl j hmem =>
      hdata.integer b hb lvl j (List.mem_append_right _ hmem)
  have hinput : c.inputLevel < c.depth := Nat.sub_lt c.depth_pos one_pos
  rw [checkFinal_iff]
  intro b hb
  rw [hs.claims b hb]
  refine (evaluateVChis_eq_evaluateVi (c.size_pos _ hinput) (fun j hj => ?_) s.claims.zi).symm
  exact residue_inputData hc hdata.inputs hmagics hdata.inConstants vdata hb hj

omit [Fact p.Prime] in
/-- The messages of a run end with the one that the prover waits for. -/
theorem phase_endCmt {sent : List CmtMessage}
    (hidle : (runCmtProver c p batchSize data sent).phase = .idle) :
    (runCmtProver c p batchSize data (sent ++ [.endCmt])).phase = .done := by
  rw [runCmtProver_append, List.foldl_cons, List.foldl_nil]
  simp only [proverStep, hidle]

/-- When both parties have come through all levels, the verdict is positive. -/
theorem compute_of_inStep (hc : c.Covers) (hbatch : 0 < batchSize)
    (hdata : HonestBatch p c batchSize inputs data) {coins : Coins} (outputs : ℕ → ℚ)
    (vdata : CircuitData)
    (hs : InStep p c batchSize data c.inputLevel
      (runLevels c p batchSize (cmtProvers c p batchSize data) coins c.inputLevel
        (initializeProtocol c p batchSize coins (cmtProvers c p batchSize data).outputs
          vdata).1)) :
    let result := compute c p batchSize (cmtProvers c p batchSize data) coins inputs outputs vdata
    result.success = true ∧ HoldsResidues p batchSize c.outGates data result.outputs ∧
      (runCmtProver c p batchSize data result.sent).phase = .done := by
  obtain ⟨start, hstart⟩ : ∃ start, start = initializeProtocol c p batchSize coins
    (cmtProvers c p batchSize data).outputs vdata := ⟨_, rfl⟩
  rw [← hstart] at hs
  have hfinal := checkFinal_of_inStep hc hdata hs start.2
  intro result
  have hresult : result = compute c p batchSize (cmtProvers c p batchSize data) coins inputs
    outputs vdata := rfl
  rw [compute, if_neg (by omega), ← hstart] at hresult
  dsimp only [cmtProvers, ProtocolCircuit.inputLevel] at hresult hs hfinal
  rw [hs.success, Bool.true_and, hfinal, if_pos rfl] at hresult
  rw [hresult]
  refine ⟨rfl, ?_, phase_endCmt hs.phase⟩
  exact holdsResidues_getGates fun b hb lvl j hmem =>
    hdata.integer b hb lvl j (List.mem_append_left _ hmem)

end Run

end Pepper.Cmtgkr.CircuitProtocol
