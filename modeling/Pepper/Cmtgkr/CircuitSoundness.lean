import Pepper.Cmtgkr.CircuitBatch
import Pepper.Cmtgkr.SumCheckSoundness
import Pepper.Foundations.PublicCoins

/-!
# Soundness of a run over all levels

The provers are arbitrary. `values` are the residues of all levels of the circuit over the inputs
and the witness that the verifier has set; the outputs are wrong when level zero holds others.
From wrong outputs the claim about an instance stays false from level to level unless a coin is a
root of a polynomial that is fixed before it is drawn: `pointTest` for the coordinates of the first
point, `roundTest` for the challenges of the sum-checks, `lineTest` for the draws after them.

`compute_sound` counts the coins of a whole run. The verifier sends a challenge with the request it
is a challenge for, so the count is for provers that do not look at it before they answer.
-/

set_option autoImplicit false

open Polynomial
open Pepper.Common.Gmp Pepper.Foundations.Loop Pepper.Foundations.Multilinear
open Pepper.Foundations.Sumcheck Pepper.Foundations.PublicCoins
open Pepper.Cmtgkr.Env Pepper.Cmtgkr.Layer Pepper.Cmtgkr.LayerSum Pepper.Cmtgkr.SumCheckProver
open Pepper.Cmtgkr.SumCheckProverRun Pepper.Cmtgkr.SumCheckVerifier
open Pepper.Cmtgkr.SumCheckSoundness (challengeVec sentPoly castVec_challengeVec
  castVec_challengeVec_add answersWith_sentPoly natDegree_sentPoly_lt sentPoly_congr
  AnswersBeforeChallenge)
open Pepper.Cmtgkr.Layer.CMTCircuit (residue)
open Pepper.Cmtgkr.MiniIP (lpolySize linePoint fillPoint cast_baryExtrap_of_ne)

namespace Pepper.Cmtgkr.CircuitProtocol

/-! ## The values of a circuit -/

section Values

universe u

variable {R : Type u} [Add R] [Mul R] (c : CMTCircuit) (input : ℕ → R)

/-- The values of a level over the values of the input level. -/
def values (lvl : ℕ) : ℕ → R := levelValues (c.layers.dropLast.drop lvl) input

theorem values_input : values c input (c.depth - 1) = input := by
  have hlength : c.layers.dropLast.length = c.depth - 1 := List.length_dropLast
  rw [values, ← hlength, List.drop_length]
  rfl

/-- A level is its gates over the level before. -/
theorem values_succ {lvl : ℕ} (h : lvl + 1 < c.depth) (j : ℕ) :
    values c input lvl j = ((c.layer lvl).gate j).eval
      (values c input (lvl + 1) ((c.layer lvl).gate j).in1)
      (values c input (lvl + 1) ((c.layer lvl).gate j).in2) := by
  have hlt : lvl < c.layers.dropLast.length := by
    rw [List.length_dropLast]
    exact Nat.lt_sub_of_add_lt h
  have hlt' : lvl < c.layers.length := Nat.lt_of_succ_lt h
  have hlayer : c.layers.dropLast[lvl] = c.layer lvl := by
    rw [List.getElem_dropLast, CMTCircuit.layer, List.getD_eq_getElem?_getD,
      List.getElem?_eq_getElem hlt', Option.getD_some]
  rw [values, List.drop_eq_getElem_cons hlt, levelValues_cons, hlayer]
  rfl

end Values

/-! ## Runs -/

section Runs

variable (c : ProtocolCircuit) (prime : ℤ) (batchSize : ℕ) (provers : Provers) (coins : Coins)
  (level : ℕ) (s : VerifierRun)

/-- What the provers answer in the sum-check of a level. -/
def levelStrategy : Strategy := sumCheckStrategy provers (s.sent ++ [.beginLayer level])

/-- The results of the sum-check of a level. -/
def levelResults : SumCheckResults :=
  run (levelTask c prime batchSize s.claims level) (levelStrategy provers level s)
    (coins.rand level)

/-- The values on the line that the provers send after it. -/
def levelLpoly : Vec :=
  let t := levelTask c prime batchSize s.claims level
  let requests :=
    (runRounds t (levelStrategy provers level s) (coins.rand level) (numRounds t)).sent ++ [.vs]
  provers.answer (s.sent ++ [.beginLayer level] ++ requests.map .sumCheck ++ [.line .reqLpoly])

variable {c prime batchSize provers coins level s}

/-- What a level that succeeds has checked, and what it leaves. -/
theorem checkLevel_success
    (h : (checkLevel c prime batchSize provers coins level s).claims.success = true) :
    let t := levelTask c prime batchSize s.claims level
    let results := levelResults c prime batchSize provers coins level s
    let lpoly := levelLpoly c prime batchSize provers coins level s
    let claims := (checkLevel c prime batchSize provers coins level s).claims
    results.success = true ∧
      (∀ b < batchSize, ∀ i < 2, results.vs (2 * b + i) = lpoly (b * lpolySize t + i)) ∧
      (∀ i < (c.pair level).mip1, claims.zi i =
        fillPoint t (coins.rand level) (coins.newRand level) s.claims.zi i) ∧
      ∀ b < batchSize, claims.ri b = baryExtrap (lpolySize t)
        (fun i => lpoly (b * lpolySize t + i))
        (baryPrecomputeWeights (lpolySize t) (coins.newRand level) prime) prime := by
  intro t results lpoly claims
  have hclaims : claims = (checkLevel c prime batchSize provers coins level s).claims := rfl
  have hrand : results.rand = coins.rand level := by
    show (run _ _ _).rand = _
    rw [run]
    split_ifs <;> rfl
  rw [checkLevel] at h hclaims
  dsimp only at h hclaims
  rw [← levelStrategy, ← levelResults] at h hclaims
  by_cases hresults : (levelResults c prime batchSize provers coins level s).success = true
  · rw [if_pos hresults] at h hclaims
    dsimp only [MiniIP.finishLevel] at h hclaims
    split_ifs at h with hcheck
    · rw [if_pos hcheck] at hclaims
      refine ⟨hresults, fun b hb i hi => ?_, fun i _ => ?_, fun b hb => ?_⟩
      · have hb' := List.all_eq_true.1 (List.all_eq_true.1 hcheck b (List.mem_range.2 hb)) i
          (List.mem_range.2 hi)
        rw [mul_comm b]
        exact of_decide_eq_true hb'
      · rw [hclaims, ← hrand]
      · rw [hclaims]
        exact (forLoop_fill_apply _ _ _ _).trans (if_pos hb)
  · rw [if_neg hresults] at h
    exact absurd h Bool.false_ne_true

/-- A run that has come through `n + 1` levels has come through `n`. -/
theorem runLevels_success {n : ℕ}
    (h : (runLevels c prime batchSize provers coins (n + 1) s).claims.success = true) :
    (runLevels c prime batchSize provers coins n s).claims.success = true ∧
      runLevels c prime batchSize provers coins (n + 1) s =
        checkLevel c prime batchSize provers coins n
          (runLevels c prime batchSize provers coins n s) := by
  rw [runLevels_succ] at h ⊢
  by_cases hlow : (runLevels c prime batchSize provers coins n s).claims.success = true
  · exact ⟨hlow, if_pos hlow⟩
  · rw [if_neg hlow] at h
    exact absurd h hlow

/-- The first levels of a run see the coins of these levels. -/
theorem runLevels_congr {coins' : Coins} {n : ℕ}
    (h : ∀ l < n, coins.rand l = coins'.rand l ∧ coins.newRand l = coins'.newRand l) :
    runLevels c prime batchSize provers coins n s =
      runLevels c prime batchSize provers coins' n s := by
  refine forLoop_congr fun l hl s => ?_
  obtain ⟨hrand, hnew⟩ := h l hl
  simp only [checkLevel, hrand, hnew]

end Runs

/-! ## One level -/

section Level

variable {p : ℕ} [Fact p.Prime] {c : ProtocolCircuit} {batchSize : ℕ}

/-- The residues of the circuit of every instance, over the inputs that the verifier has set. -/
def trueValues (p : ℕ) (c : ProtocolCircuit) (inputs magics : ℕ → ℚ) (vdata : CircuitData)
    (b lvl : ℕ) : ℕ → ZMod p :=
  values c.toCMTCircuit
    (residue p (inputData c p inputs magics vdata (b + 1)) c.inputLevel) lvl

/-- The two layers of a level with given residues. -/
def levelTruth (p : ℕ) (c : ProtocolCircuit) (batchSize : ℕ) (truth : ℕ → ℕ → ℕ → ZMod p)
    (claims : MiniIP.VerifierLevel) (level : ℕ) : SumCheckInput where
  toSumCheckTask := levelTask c p batchSize claims level
  inValue := fun b j => ((truth b (level + 1) j).val : ℤ)
  outValue := fun b j => ((truth b level j).val : ℤ)

/-- Residues of all instances that follow the gates. -/
def FollowsGates (c : ProtocolCircuit) (truth : ℕ → ℕ → ℕ → ZMod p) : Prop :=
  ∀ b lvl, lvl + 1 < c.depth → ∀ j < (c.layer lvl).size, truth b lvl j =
    ((c.layer lvl).gate j).eval (truth b (lvl + 1) ((c.layer lvl).gate j).in1)
      (truth b (lvl + 1) ((c.layer lvl).gate j).in2)

/-- The values of a level, padded with zeros. -/
def truthTable (c : ProtocolCircuit) (truth : ℕ → ℕ → ℕ → ZMod p) (b lvl j : ℕ) : ZMod p :=
  if j < (c.layer lvl).size then truth b lvl j else 0

/-- The extension of the values of an instance at a point. -/
def trueClaim (c : ProtocolCircuit) (truth : ℕ → ℕ → ℕ → ZMod p) (b lvl : ℕ) (z : ℕ → ZMod p) :
    ZMod p :=
  extension (truthTable c truth b lvl) (c.layer lvl).logSize z

/-- What is claimed of an instance is true. -/
def ClaimHolds (c : ProtocolCircuit) (truth : ℕ → ℕ → ℕ → ZMod p) (b lvl : ℕ)
    (claims : MiniIP.VerifierLevel) : Prop :=
  (claims.ri b : ZMod p) = trueClaim c truth b lvl (castVec p claims.zi)

variable {truth : ℕ → ℕ → ℕ → ZMod p} {claims : MiniIP.VerifierLevel} {level : ℕ}

theorem followsGates_trueValues (inputs magics : ℕ → ℚ) (vdata : CircuitData) :
    FollowsGates c (trueValues p c inputs magics vdata) :=
  fun _ _ hlvl j _ => values_succ c.toCMTCircuit _ hlvl j

/-- Residues that follow the gates are those of the input level. By induction on the distance from
it. -/
theorem FollowsGates.agree {truth' : ℕ → ℕ → ℕ → ZMod p} (h : FollowsGates c truth)
    (h' : FollowsGates c truth') {b : ℕ}
    (hinput : ∀ j < (c.layer c.inputLevel).size, truth b c.inputLevel j = truth' b c.inputLevel j)
    {lvl : ℕ} (hlvl : lvl < c.depth) {j : ℕ} (hj : j < (c.layer lvl).size) :
    truth b lvl j = truth' b lvl j := by
  obtain ⟨k, hk⟩ : ∃ k, lvl + 1 + k = c.depth := ⟨c.depth - (lvl + 1), by omega⟩
  induction k generalizing lvl j with
  | zero =>
      have hlast : lvl = c.inputLevel := by
        rw [ProtocolCircuit.inputLevel]
        omega
      rw [hlast] at hj ⊢
      exact hinput j hj
  | succ k ih =>
      have hlt : lvl + 1 < c.depth := by omega
      obtain ⟨h1, h2⟩ := c.inRange lvl hlt j hj
      rw [h b lvl hlt j hj, h' b lvl hlt j hj, ih hlt h1 (by omega), ih hlt h2 (by omega)]

theorem cast_val (x : ZMod p) : (((x.val : ℕ) : ℤ) : ZMod p) = x := by
  rw [Int.cast_natCast, ZMod.natCast_val, ZMod.cast_id]

theorem inTable_levelTruth (hlevel : level + 1 < c.depth) (b : ℕ) :
    inTable p (levelTruth p c batchSize truth claims level) b = truthTable c truth b (level + 1) := by
  funext j
  rw [inTable, padded, truthTable]
  have hsize : (levelTruth p c batchSize truth claims level).layers.inSize =
      (c.layer (level + 1)).size := (c.pair_eq hlevel).2
  rw [hsize]
  refine if_congr Iff.rfl ?_ rfl
  exact cast_val _

theorem levelTruth_evaluated (htruth : FollowsGates c truth) (hlevel : level + 1 < c.depth) :
    (levelTruth p c batchSize truth claims level).Evaluated p where
  prime_eq := rfl
  outValue_eq := by
    intro b _ g hg
    obtain ⟨hout, -⟩ := c.pair_eq hlevel
    have hg' : g < (c.layer level).size := by
      rw [← hout]
      exact hg
    obtain ⟨h1, h2⟩ := c.inRange level hlevel g hg'
    have hgate : (levelTruth p c batchSize truth claims level).layers.out.gate g =
        (c.layer level).gate g := congrArg (CircuitLayer.gate · g) hout
    rw [gateValue, hgate, inTable_levelTruth hlevel, truthTable, truthTable, if_pos h1, if_pos h2]
    exact (cast_val _).trans (htruth b level hlevel g hg')

/-- The claim that a sum-check is about. -/
theorem claim_levelTruth (htruth : FollowsGates c truth) (hlevel : level + 1 < c.depth) (b : ℕ)
    (claims : MiniIP.VerifierLevel) (rho : ℕ → ZMod p) :
    claim (c.pair level) (truthTable c truth b (level + 1)) (castVec p claims.zi) 0 rho =
      trueClaim c truth b level (castVec p claims.zi) := by
  have hevaluated : (levelTruth p c (b + 1) truth claims level).Evaluated p :=
    levelTruth_evaluated htruth hlevel
  have hout := cast_evaluateVi_out (p := p) hevaluated (Nat.lt_succ_self b) rho
  rw [inTable_levelTruth hlevel] at hout
  refine hout.symm.trans ?_
  have hsize : (levelTruth p c (b + 1) truth claims level).layers.out.size =
      (c.layer level).size := congrArg CircuitLayer.size (c.pair_eq hlevel).1
  rw [hsize, cast_evaluateVi, trueClaim]
  refine extension_congr (fun j _ => ?_) fun _ _ => rfl
  rw [padded, truthTable]
  exact if_congr Iff.rfl (cast_val _) rfl

/-- The polynomial sent in a round against the true one. -/
noncomputable def roundError (c : ProtocolCircuit) (provers : Provers)
    (truth : ℕ → ℕ → ℕ → ZMod p) (b level : ℕ) (s : VerifierRun) (k : ℕ) (q : ℕ → ZMod p) :
    (ZMod p)[X] :=
  sentPoly (levelStrategy provers level s) b k q -
    roundPoly (c.pair level) (truthTable c truth b (level + 1)) (castVec p s.claims.zi) k q

/-- The values sent on the line against the true ones; the nodes of the line count as errors. -/
noncomputable def lineError (c : ProtocolCircuit) (truth : ℕ → ℕ → ℕ → ZMod p) (b level : ℕ)
    (lpoly : Vec) (q : ℕ → ZMod p) : (ZMod p)[X] :=
  let L := c.pair level
  let nodes := Finset.range (L.mip1 + 1)
  Lagrange.nodal nodes (fun i : ℕ => (i : ZMod p)) *
    (Lagrange.interpolate nodes (fun i : ℕ => (i : ZMod p))
        (castVec p fun i => lpoly (b * (L.mip1 + 1) + i)) -
      linePoly (truthTable c truth b (level + 1)) L.mip1 (point1 L q) (point2 L q))

theorem natDegree_roundError_le (hp : p ≠ 2) (provers : Provers) (b : ℕ) (s : VerifierRun) (k : ℕ)
    (q : ℕ → ZMod p) : (roundError c provers truth b level s k q).natDegree ≤ 2 :=
  (natDegree_sub_le _ _).trans (max_le (Nat.le_of_lt_succ (natDegree_sentPoly_lt hp _ k q))
    (natDegree_roundPoly_le _ _ _ k q))

theorem natDegree_lineError_le (b : ℕ) (lpoly : Vec) (q : ℕ → ZMod p)
    (hsize : (c.pair level).mip1 < p) :
    (lineError c truth b level lpoly q).natDegree ≤ 2 * (c.pair level).mip1 + 1 := by
  have hinterp : ∀ y : ℕ → ZMod p, (Lagrange.interpolate (Finset.range ((c.pair level).mip1 + 1))
      (fun i : ℕ => (i : ZMod p)) y).natDegree ≤ (c.pair level).mip1 := by
    intro y
    have hdeg := Lagrange.degree_interpolate_lt y (natNode_injOn (p := p) hsize)
    rw [Finset.card_range] at hdeg
    rcases eq_or_ne (Lagrange.interpolate (Finset.range ((c.pair level).mip1 + 1))
      (fun i : ℕ => (i : ZMod p)) y) 0 with hzero | hzero
    · rw [hzero, natDegree_zero]
      exact Nat.zero_le _
    · exact Nat.le_of_lt_succ ((natDegree_lt_iff_degree_lt hzero).2 hdeg)
  rw [lineError]
  refine natDegree_mul_le.trans ?_
  rw [Lagrange.natDegree_nodal, Finset.card_range]
  have hdiff := (natDegree_sub_le (Lagrange.interpolate (Finset.range ((c.pair level).mip1 + 1))
      (fun i : ℕ => (i : ZMod p)) (castVec p fun i => lpoly (b * ((c.pair level).mip1 + 1) + i)))
    (linePoly (truthTable c truth b (level + 1)) (c.pair level).mip1 (point1 (c.pair level) q)
      (point2 (c.pair level) q))).trans (max_le (hinterp _) (natDegree_linePoly_le _ _ _ _))
  omega

/-- A sum-check of a false claim that succeeds has a round with an error that is hit, or reports a
value that is wrong. -/
theorem sumCheck_false (hp : p ≠ 2)
    (hpred : ∀ rand, SuppliedPredicates (c.pair level) p rand) (htruth : FollowsGates c truth)
    (hlevel : level + 1 < c.depth) {provers : Provers} {coins : Coins} {s : VerifierRun}
    (hcanon : ∀ b < batchSize, 0 ≤ s.claims.ri b ∧ s.claims.ri b < p) {q : ℕ → ZMod p}
    (hrand : coins.rand level = challengeVec p q) {b : ℕ} (hb : b < batchSize)
    (hfalse : ¬ ClaimHolds c truth b level s.claims)
    (hsuccess : (levelResults c p batchSize provers coins level s).success = true) :
    (∃ k < rounds (c.pair level), roundError c provers truth b level s k q ≠ 0 ∧
      (roundError c provers truth b level s k q).eval (q k) = 0) ∨
    ((levelResults c p batchSize provers coins level s).vs (2 * b) : ZMod p) ≠
        extension (truthTable c truth b (level + 1)) (c.pair level).mip1 (point1 (c.pair level) q) ∨
    ((levelResults c p batchSize provers coins level s).vs (2 * b + 1) : ZMod p) ≠
        extension (truthTable c truth b (level + 1)) (c.pair level).mip1
          (point2 (c.pair level) q) := by
  let t := levelTask c p batchSize s.claims level
  have ht : SumCheckTask.Canonical p t := ⟨rfl, hcanon⟩
  rw [levelResults, hrand] at hsuccess ⊢
  obtain ⟨hsums, hfinal⟩ := (run_success_iff hp ht (hpred _)
    (answersWith_sentPoly hp t (levelStrategy provers level s) q)).1 hsuccess
  by_contra hnone
  push Not at hnone
  obtain ⟨hrounds, h1, h2⟩ := hnone
  rw [SumsHold, castVec_challengeVec] at hsums
  have hlast := hfinal b hb
  rw [h1, h2, castVec_challengeVec] at hlast
  -- with true values in the final check the run ends in the true partial sum
  let sent := fun k => sentPoly (levelStrategy provers level s) b k q
  have hsum : ∀ k < rounds (c.pair level), RoundSystem.expected (s.claims.ri b : ZMod p) sent q k =
      (sent k).eval 0 + (sent k).eval 1 := fun k hk => hsums k hk b hb
  obtain ⟨k, hk, hne, hroot⟩ := (layerSystem (c.pair level) (truthTable c truth b (level + 1))
    (castVec p s.claims.zi)).badRound_of_accept hsum
    (fun heq => hfalse (heq.trans (claim_levelTruth htruth hlevel b s.claims q))) (by
      refine hlast.trans ?_
      show _ = claim _ _ _ (rounds (c.pair level)) _
      rw [claim_rounds, claimO2_mip1, foldTables_eq_extension, foldTables_eq_extension]
      rfl)
  exact hrounds k hk (sub_ne_zero.2 hne) hroot

/-- The values on the line at its first two nodes. -/
theorem lineError_ne_zero (hsize : (c.pair level).mip1 < p) {b : ℕ} {lpoly : Vec} {q : ℕ → ZMod p}
    (hwrong : (lpoly (b * ((c.pair level).mip1 + 1)) : ZMod p) ≠
        extension (truthTable c truth b (level + 1)) (c.pair level).mip1 (point1 (c.pair level) q) ∨
      (lpoly (b * ((c.pair level).mip1 + 1) + 1) : ZMod p) ≠
        extension (truthTable c truth b (level + 1)) (c.pair level).mip1
          (point2 (c.pair level) q)) :
    lineError c truth b level lpoly q ≠ 0 := by
  have hmip1 : 0 < (c.pair level).mip1 := log2i_pos (c.pair level).in_pos
  have hnode : ∀ i < (c.pair level).mip1 + 1,
      (Lagrange.interpolate (Finset.range ((c.pair level).mip1 + 1)) (fun i : ℕ => (i : ZMod p))
        (castVec p fun i => lpoly (b * ((c.pair level).mip1 + 1) + i))).eval (i : ZMod p) =
        lpoly (b * ((c.pair level).mip1 + 1) + i) := by
    intro i hi
    rw [Lagrange.eval_interpolate_at_node _ (natNode_injOn hsize) (Finset.mem_range.2 hi),
      castVec_apply]
  have hline : ∀ x r, lineThrough (point1 (c.pair level) q) (point2 (c.pair level) q) x = r →
      (linePoly (truthTable c truth b (level + 1)) (c.pair level).mip1 (point1 (c.pair level) q)
        (point2 (c.pair level) q)).eval x =
          extension (truthTable c truth b (level + 1)) (c.pair level).mip1 r := by
    rintro x r rfl
    exact eval_linePoly _ _ _ _ x
  refine mul_ne_zero Lagrange.nodal_ne_zero (sub_ne_zero.2 fun heq => ?_)
  have h0 := hnode 0 (Nat.succ_pos _)
  have h1 := hnode 1 (Nat.succ_lt_succ hmip1)
  rw [heq, Nat.cast_zero, hline 0 (point1 (c.pair level) q) (by funext i; simp [lineThrough])] at h0
  rw [heq, Nat.cast_one, hline 1 (point2 (c.pair level) q) (by funext i; simp [lineThrough])] at h1
  rcases hwrong with hwrong | hwrong
  · exact hwrong h0.symm
  · exact hwrong h1.symm

/-- From a false claim a level that succeeds goes on with a false claim, unless an error is hit. -/
theorem checkLevel_false (hp : p ≠ 2) (hsize : (c.pair level).mip1 < p)
    (hpred : ∀ rand, SuppliedPredicates (c.pair level) p rand) (htruth : FollowsGates c truth)
    (hlevel : level + 1 < c.depth) {provers : Provers} {coins : Coins} {s : VerifierRun}
    (hcanon : ∀ b < batchSize, 0 ≤ s.claims.ri b ∧ s.claims.ri b < p) {q : ℕ → ZMod p}
    (hrand : coins.rand level = challengeVec p q) {x : ZMod p}
    (hnew : coins.newRand level = x.val) {b : ℕ} (hb : b < batchSize)
    (hfalse : ¬ ClaimHolds c truth b level s.claims)
    (hsuccess : (checkLevel c p batchSize provers coins level s).claims.success = true) :
    (∃ k < rounds (c.pair level), roundError c provers truth b level s k q ≠ 0 ∧
      (roundError c provers truth b level s k q).eval (q k) = 0) ∨
    (lineError c truth b level (levelLpoly c p batchSize provers coins level s) q ≠ 0 ∧
      (lineError c truth b level (levelLpoly c p batchSize provers coins level s) q).eval x = 0) ∨
    ¬ ClaimHolds c truth b (level + 1)
      (checkLevel c p batchSize provers coins level s).claims := by
  obtain ⟨hresults, hvs, hzi, hri⟩ := checkLevel_success hsuccess
  rcases sumCheck_false hp hpred htruth hlevel hcanon hrand hb hfalse hresults with hround | hwrong
  · exact Or.inl hround
  · right
    obtain ⟨lpoly, hlpoly⟩ : ∃ lpoly, lpoly = levelLpoly c p batchSize provers coins level s :=
      ⟨_, rfl⟩
    have hlength : lpolySize (levelTask c p batchSize s.claims level) =
        (c.pair level).mip1 + 1 := rfl
    rw [← hlpoly, hlength] at hvs hri
    have h0 := hvs b hb 0 two_pos
    have h1 := hvs b hb 1 one_lt_two
    rw [add_zero, add_zero] at h0
    rw [h0, h1] at hwrong
    have hne := lineError_ne_zero hsize hwrong
    by_cases hroot : (lineError c truth b level lpoly q).eval x = 0
    · rw [← hlpoly]
      exact Or.inl ⟨hne, hroot⟩
    · right
      rw [lineError] at hroot
      rw [eval_mul, Lagrange.eval_nodal, mul_eq_zero, not_or] at hroot
      obtain ⟨hnodes, hdiff⟩ := hroot
      have hx : ((coins.newRand level : ℤ) : ZMod p) = x := by rw [hnew, cast_val]
      -- past the nodes the next claim is the value of the polynomial sent
      have hclaim := cast_baryExtrap_of_ne (p := p) (n := (c.pair level).mip1 + 1) hsize
        (r := coins.newRand level) (fun i hi heq => hnodes (Finset.prod_eq_zero
          (Finset.mem_range.2 hi) (sub_eq_zero.2 (hx.symm.trans heq))))
        (fun i => lpoly (b * ((c.pair level).mip1 + 1) + i))
      rw [ClaimHolds, hri b hb, hclaim, hx]
      rw [eval_sub, sub_eq_zero, eval_linePoly] at hdiff
      refine fun heq => hdiff (heq.trans ?_)
      -- and the point is the one of the line
      rw [trueClaim, ← c.pair_mip1 hlevel]
      refine extension_congr (fun _ _ => rfl) fun i hi => ?_
      have hpoint := MiniIP.fillPoint_apply (p := p)
        (c := levelTruth p c batchSize truth s.claims level) rfl (coins.rand level)
        (coins.newRand level) s.claims.zi hi
      have hcast := congrFun (MiniIP.castVec_linePoint (p := p)
        (c := levelTruth p c batchSize truth s.claims level) rfl (coins.rand level)
        (coins.newRand level)) i
      rw [castVec_apply, hzi i hi]
      refine (congrArg (Int.cast : ℤ → ZMod p) hpoint).trans (hcast.trans ?_)
      rw [hrand, castVec_challengeVec, hx]
      rfl

end Level

/-! ## The coins of a run -/

section CoinsOf

variable {p : ℕ} [Fact p.Prime] (c : ProtocolCircuit)

/-- The first coin of a level. -/
def offset : ℕ → ℕ
  | 0 => (c.layer 0).logSize
  | level + 1 => offset level + rounds (c.pair level) + 1

/-- How many coins a run has. -/
def numCoins : ℕ := offset c (c.depth - 1)

/-- The challenges of the sum-check of a level. -/
def levelSeq (r : ℕ → ZMod p) (level : ℕ) : ℕ → ZMod p :=
  fun i => if i < rounds (c.pair level) then r (offset c level + i) else 0

/-- The draws of a run, in their order, as the verifier has them. -/
def coinsOf (r : ℕ → ZMod p) : Coins where
  z := fun i => if i < (c.layer 0).logSize then ((r i).val : ℤ) else 0
  rand := fun level => challengeVec p (levelSeq c r level)
  newRand := fun level => ((r (offset c level + rounds (c.pair level))).val : ℤ)

variable {c}

theorem offset_lt {level level' : ℕ} (h : level < level') :
    offset c level + rounds (c.pair level) < offset c level' := by
  induction level' with
  | zero => exact absurd h (Nat.not_lt_zero level)
  | succ n ih =>
      rw [offset]
      rcases Nat.lt_succ_iff_lt_or_eq.1 h with hlt | rfl
      · have := ih hlt
        omega
      · exact Nat.lt_succ_self _

theorem offset_zero_le (level : ℕ) : (c.layer 0).logSize ≤ offset c level := by
  induction level with
  | zero => exact le_rfl
  | succ n ih =>
      rw [offset]
      omega

theorem levelSeq_congr {r r' : ℕ → ZMod p} {level k : ℕ}
    (h : ∀ i < offset c level + k, r i = r' i) : ∀ i < k, levelSeq c r level i =
      levelSeq c r' level i := by
  intro i hi
  rw [levelSeq, levelSeq, h (offset c level + i) (by omega)]

theorem coinsOf_z_congr {r r' : ℕ → ZMod p} {level : ℕ} (h : ∀ i < offset c level, r i = r' i) :
    (coinsOf c r).z = (coinsOf c r').z := by
  funext i
  rw [coinsOf, coinsOf]
  dsimp only
  split_ifs with hi
  · rw [h i (hi.trans_le (offset_zero_le level))]
  · rfl

theorem levelSeq_eq {r r' : ℕ → ZMod p} {level : ℕ}
    (h : ∀ i < offset c level + rounds (c.pair level), r i = r' i) :
    levelSeq c r level = levelSeq c r' level := by
  funext i
  by_cases hi : i < rounds (c.pair level)
  · exact levelSeq_congr h i hi
  · rw [levelSeq, levelSeq, if_neg hi, if_neg hi]

theorem coinsOf_level_congr {r r' : ℕ → ZMod p} {level : ℕ}
    (h : ∀ i < offset c level, r i = r' i) : ∀ l < level,
      (coinsOf c r).rand l = (coinsOf c r').rand l ∧
        (coinsOf c r).newRand l = (coinsOf c r').newRand l := by
  intro l hl
  have hlt := offset_lt (c := c) hl
  constructor
  · exact congrArg (challengeVec p) (levelSeq_eq fun i hi => h i (hi.trans hlt))
  · rw [coinsOf, coinsOf]
    dsimp only
    rw [h _ hlt]

theorem castVec_coinsOf_z (r : ℕ → ZMod p) {i : ℕ} (hi : i < (c.layer 0).logSize) :
    castVec p (coinsOf c r).z i = r i := by
  rw [castVec_apply, coinsOf]
  dsimp only
  rw [if_pos hi, cast_val]

end CoinsOf

/-! ## The tests of a run -/

/-- Provers whose response to a request does not depend on the challenge in it. -/
def Provers.AnswersBeforeChallenge (provers : Provers) : Prop :=
  ∀ (received : List CmtMessage) (r r' : ℤ),
    provers.answer (received ++ [.sumCheck (.scPoly r)]) =
      provers.answer (received ++ [.sumCheck (.scPoly r')])

section Tests

variable {p : ℕ} [Fact p.Prime] (c : ProtocolCircuit) (batchSize : ℕ) (provers : Provers)
  (vdata : CircuitData) (truth : ℕ → ℕ → ℕ → ZMod p) (b : ℕ)

/-- The run up to a level, with the coins `r`. -/
def runAt (r : ℕ → ZMod p) (level : ℕ) : VerifierRun :=
  runLevels c p batchSize provers (coinsOf c r) level
    (initializeProtocol c p batchSize (coinsOf c r) provers.outputs vdata).1

/-- What the verifier has for outputs against the true values of level zero. -/
def outputError (j : ℕ) : ZMod p :=
  if j < (c.layer 0).size then
    residue p (outputData c p provers.outputs vdata (b + 1)) 0 j - truth b 0 j
  else 0

variable {c batchSize provers vdata truth b}

theorem runAt_congr {r r' : ℕ → ZMod p} {level : ℕ} (h : ∀ i < offset c level, r i = r' i) :
    runAt c batchSize provers vdata r level = runAt c batchSize provers vdata r' level := by
  rw [runAt, runAt, runLevels_congr (coinsOf_level_congr h), initializeProtocol,
    initializeProtocol, coinsOf_z_congr h]

theorem levelStrategy_before (hprovers : provers.AnswersBeforeChallenge) (level : ℕ)
    (s : VerifierRun) : AnswersBeforeChallenge (levelStrategy provers level s) := by
  intro received r r'
  rw [levelStrategy, sumCheckStrategy, sumCheckStrategy, List.map_append, List.map_append,
    ← List.append_assoc, ← List.append_assoc]
  exact hprovers _ r r'

variable (c batchSize provers vdata truth b)

/-- A coordinate of the first point. -/
noncomputable def pointTest (i : ℕ) : CoinTest (ZMod p) where
  coin := i
  bound := 1
  poly := fun r =>
    pivotPoly (foldTables r (outputError c provers vdata truth b) i) ((c.layer 0).logSize - (i + 1))
  natDegree_le := fun _ => natDegree_pivotPoly_le _ _
  poly_congr := fun _ _ h => by rw [foldTables_congr h]

/-- A challenge of the sum-check of a level. -/
noncomputable def roundTest (hp : p ≠ 2) (hprovers : provers.AnswersBeforeChallenge)
    (level k : ℕ) : CoinTest (ZMod p) where
  coin := offset c level + k
  bound := 2
  poly := fun r =>
    roundError c provers truth b level (runAt c batchSize provers vdata r level) k
      (levelSeq c r level)
  natDegree_le := fun _ => natDegree_roundError_le hp _ _ _ _ _
  poly_congr := fun r r' h => by
    have hlow := levelSeq_congr (c := c) h
    rw [runAt_congr fun i hi => h i (by omega), roundError, roundError,
      sentPoly_congr (levelStrategy_before hprovers level _) hlow, roundPoly_congr _ _ _ hlow]

/-- The draw after the sum-check of a level. -/
noncomputable def lineTest (hsize : ∀ level, (c.pair level).mip1 < p) (level : ℕ) :
    CoinTest (ZMod p) where
  coin := offset c level + rounds (c.pair level)
  bound := 2 * (c.pair level).mip1 + 1
  poly := fun r =>
    lineError c truth b level
      (levelLpoly c p batchSize provers (coinsOf c r) level
        (runAt c batchSize provers vdata r level))
      (levelSeq c r level)
  natDegree_le := fun _ => natDegree_lineError_le b _ _ (hsize level)
  poly_congr := fun r r' h => by
    have hseq := levelSeq_eq (c := c) h
    have hrand : (coinsOf c r).rand level = (coinsOf c r').rand level :=
      congrArg (challengeVec p) hseq
    rw [runAt_congr fun i hi => h i (by omega), hseq, levelLpoly, levelLpoly, hrand]

/-- All tests of a run. -/
noncomputable def runTests (hp : p ≠ 2) (hprovers : provers.AnswersBeforeChallenge)
    (hsize : ∀ level, (c.pair level).mip1 < p) : List (CoinTest (ZMod p)) :=
  (List.range (c.layer 0).logSize).map (pointTest c provers vdata truth b) ++
    (List.range (c.depth - 1)).flatMap fun level =>
      (List.range (rounds (c.pair level))).map
        (roundTest c batchSize provers vdata truth b hp hprovers level) ++
      [lineTest c batchSize provers vdata truth b hsize level]

/-- The number of bad values, coin by coin: one for a coordinate, two for a challenge, and the
nodes and the degree of the line for a draw. -/
def soundnessBound (c : ProtocolCircuit) : ℕ :=
  (c.layer 0).logSize + ∑ level ∈ Finset.range (c.depth - 1),
    (2 * rounds (c.pair level) + (2 * (c.pair level).mip1 + 1))

section Accepted

variable {c batchSize provers vdata truth b}

theorem totalBound_runTests (hp : p ≠ 2) (hprovers : provers.AnswersBeforeChallenge)
    (hsize : ∀ level, (c.pair level).mip1 < p) :
    totalBound (runTests c batchSize provers vdata truth b hp hprovers hsize) =
      soundnessBound c := by
  rw [runTests, totalBound_append, totalBound_range, totalBound_flatMap, soundnessBound]
  congr 1
  · exact (Finset.sum_const 1).trans (by simp)
  · refine Finset.sum_congr rfl fun level _ => ?_
    rw [totalBound_append, totalBound_range]
    congr 1
    refine (Finset.sum_const 2).trans ?_
    rw [Finset.card_range, smul_eq_mul, mul_comm]

theorem coin_lt_numCoins (hp : p ≠ 2) (hprovers : provers.AnswersBeforeChallenge)
    (hsize : ∀ level, (c.pair level).mip1 < p) :
    ∀ T ∈ runTests c batchSize provers vdata truth b hp hprovers hsize, T.coin < numCoins c := by
  intro T hT
  rw [runTests, List.mem_append] at hT
  rcases hT with hT | hT
  · obtain ⟨i, hi, rfl⟩ := List.mem_map.1 hT
    exact (List.mem_range.1 hi).trans_le (offset_zero_le _)
  · obtain ⟨level, hlevel, hT⟩ := List.mem_flatMap.1 hT
    have hlt := offset_lt (c := c) (List.mem_range.1 hlevel)
    rcases List.mem_append.1 hT with hT | hT
    · obtain ⟨k, hk, rfl⟩ := List.mem_map.1 hT
      have hk' := List.mem_range.1 hk
      exact (Nat.add_lt_add_left hk' _).trans hlt
    · rw [List.mem_singleton.1 hT]
      exact hlt

theorem runAt_zero_ri (r : ℕ → ZMod p) (hb : b < batchSize) :
    (runAt c batchSize provers vdata r 0).claims.ri b =
      evaluateVChis (c.layer 0).size
        (zValues (outputData c p provers.outputs vdata (b + 1)) 0)
        (computeChiAll (c.layer 0).size zeroVec (log2i (c.layer 0).size) (coinsOf c r).z p) p :=
  evaluateOutputs_apply _ _ _ _ hb

/-- All claims are residues. -/
theorem runAt_canonical (r : ℕ → ZMod p) {level : ℕ}
    (hsuccess : (runAt c batchSize provers vdata r level).claims.success = true) :
    ∀ b < batchSize, 0 ≤ (runAt c batchSize provers vdata r level).claims.ri b ∧
      (runAt c batchSize provers vdata r level).claims.ri b < p := by
  intro b hb
  cases level with
  | zero =>
      rw [runAt_zero_ri r hb]
      exact evaluateVChis_range _ _ _
  | succ n =>
      obtain ⟨hlow, heq⟩ := runLevels_success hsuccess
      have hstep : runAt c batchSize provers vdata r (n + 1) =
          checkLevel c p batchSize provers (coinsOf c r) n
            (runAt c batchSize provers vdata r n) := heq
      rw [hstep] at hsuccess ⊢
      rw [(checkLevel_success hsuccess).2.2.2 b hb]
      exact emod_range _

/-- Wrong outputs make a false claim, unless a coordinate of the point is hit. -/
theorem claim_zero_false (r : ℕ → ZMod p) (hb : b < batchSize)
    (hwrong : ∃ j < (c.layer 0).size,
      residue p (outputData c p provers.outputs vdata (b + 1)) 0 j ≠ truth b 0 j)
    (hpoint : ∀ i < (c.layer 0).logSize, ¬ (pointTest c provers vdata truth b i).Hit r) :
    ¬ ClaimHolds c truth b 0 (runAt c batchSize provers vdata r 0).claims := by
  obtain ⟨j, hj, hne⟩ := hwrong
  have hnonzero : NonzeroBelow (c.layer 0).logSize (outputError c provers vdata truth b) := by
    refine ⟨j, hj.trans_le (le_two_pow_log2i _), ?_⟩
    rw [outputError, if_pos hj]
    exact sub_ne_zero.2 hne
  have hext := extension_ne_zero hnonzero (r := r) hpoint
  intro hclaim
  refine hext ?_
  have hzi : ∀ i < (c.layer 0).logSize,
      castVec p (runAt c batchSize provers vdata r 0).claims.zi i = r i := by
    intro i hi
    rw [← castVec_coinsOf_z (p := p) r hi]
    exact congrArg Int.cast ((forLoop_fill_apply _ _ _ _).trans (if_pos hi))
  rw [ClaimHolds, runAt_zero_ri r hb, cast_evaluateVChis_self, trueClaim] at hclaim
  -- the difference of both sides is the extension of the error
  have hsub := extension_sub
    (padded p (c.layer 0).size (zValues (outputData c p provers.outputs vdata (b + 1)) 0))
    (truthTable c truth b 0) (c.layer 0).logSize r
  have hleft : extension (padded p (c.layer 0).size
      (zValues (outputData c p provers.outputs vdata (b + 1)) 0)) (c.layer 0).logSize r =
        extension (truthTable c truth b 0) (c.layer 0).logSize r := by
    refine (extension_congr (fun _ _ => rfl) fun i hi => ?_).trans
      (hclaim.trans (extension_congr (fun _ _ => rfl) hzi))
    exact (castVec_coinsOf_z r hi).symm
  rw [hleft, sub_self] at hsub
  refine (extension_congr (fun k _ => ?_) fun _ _ => rfl).trans hsub
  rw [outputError, padded, truthTable]
  split_ifs
  · rfl
  · rw [sub_zero]

/-- In a run from wrong outputs that no coin hits all claims are false. -/
theorem runAt_false (hp : p ≠ 2) (hprovers : provers.AnswersBeforeChallenge)
    (hsize : ∀ level, (c.pair level).mip1 < p)
    (hpred : ∀ level, level + 1 < c.depth → ∀ rand, SuppliedPredicates (c.pair level) p rand)
    (htruth : FollowsGates c truth) (hb : b < batchSize) {r : ℕ → ZMod p}
    (hwrong : ∃ j < (c.layer 0).size,
      residue p (outputData c p provers.outputs vdata (b + 1)) 0 j ≠ truth b 0 j)
    (hhits : ∀ T ∈ runTests c batchSize provers vdata truth b hp hprovers hsize, ¬ T.Hit r)
    {level : ℕ} (hlevel : level < c.depth)
    (hsuccess : (runAt c batchSize provers vdata r level).claims.success = true) :
    ¬ ClaimHolds c truth b level (runAt c batchSize provers vdata r level).claims := by
  induction level with
  | zero =>
      refine claim_zero_false r hb hwrong fun i hi => hhits _ (List.mem_append_left _ ?_)
      exact List.mem_map_of_mem (List.mem_range.2 hi)
  | succ n ih =>
      obtain ⟨hlow, heq⟩ := runLevels_success hsuccess
      have hstep : runAt c batchSize provers vdata r (n + 1) =
          checkLevel c p batchSize provers (coinsOf c r) n
            (runAt c batchSize provers vdata r n) := heq
      have hmem : n ∈ List.range (c.depth - 1) := List.mem_range.2 (by omega)
      rw [hstep] at hsuccess ⊢
      rcases checkLevel_false hp (hsize n) (hpred n hlevel) htruth hlevel
        (runAt_canonical r hlow) (q := levelSeq c r n) rfl
        (x := r (offset c n + rounds (c.pair n))) rfl hb (ih (Nat.lt_of_succ_lt hlevel) hlow)
        hsuccess with hround | hline | hnext
      · obtain ⟨k, hk, hne, hroot⟩ := hround
        have hseq : levelSeq c r n k = r (offset c n + k) := if_pos hk
        rw [hseq] at hroot
        refine absurd ⟨hne, hroot⟩ (hhits (roundTest c batchSize provers vdata truth b hp hprovers
          n k) (List.mem_append_right _ (List.mem_flatMap.2 ⟨n, hmem, ?_⟩)))
        exact List.mem_append_left _ (List.mem_map_of_mem (List.mem_range.2 hk))
      · refine absurd hline (hhits (lineTest c batchSize provers vdata truth b hsize n)
          (List.mem_append_right _ (List.mem_flatMap.2 ⟨n, hmem, ?_⟩)))
        exact List.mem_append_right _ (List.mem_singleton.2 rfl)
      · exact hnext

end Accepted

end Tests

/-! ## Whole runs -/

section Run

variable {p : ℕ} [Fact p.Prime]

/-- Level zero of an instance, as the verifier has set it from the outputs, is not what the circuit
computes from the inputs and the witness that the verifier has set. -/
def OutputsWrong (p : ℕ) (c : ProtocolCircuit) (batchSize : ℕ) (provers : Provers)
    (inputs : ℕ → ℚ) (vdata : CircuitData) (b : ℕ) : Prop :=
  ∃ j < (c.layer 0).size, residue p (outputData c p provers.outputs vdata (b + 1)) 0 j ≠
    trueValues p c inputs provers.magics (outputData c p provers.outputs vdata batchSize) b 0 j

/-- A run that succeeds on wrong outputs has a coin that is hit. -/
theorem hit_of_success {c : ProtocolCircuit} {batchSize : ℕ} {provers : Provers}
    {inputs outputs : ℕ → ℚ} {vdata : CircuitData} {b : ℕ} (hp : p ≠ 2)
    (hprovers : provers.AnswersBeforeChallenge) (hsize : ∀ level, (c.pair level).mip1 < p)
    (hpred : ∀ level, level + 1 < c.depth → ∀ rand, SuppliedPredicates (c.pair level) p rand)
    (hb : b < batchSize) (hwrong : OutputsWrong p c batchSize provers inputs vdata b)
    {r : ℕ → ZMod p}
    (hsuccess : (compute c p batchSize provers (coinsOf c r) inputs outputs vdata).success = true) :
    ∃ T ∈ runTests c batchSize provers vdata (trueValues p c inputs provers.magics
      (outputData c p provers.outputs vdata batchSize)) b hp hprovers hsize, T.Hit r := by
  by_contra hnone
  push Not at hnone
  rw [compute, if_neg (by omega)] at hsuccess
  dsimp only at hsuccess
  rw [← runAt, Bool.and_eq_true] at hsuccess
  obtain ⟨hlevels, hfinal⟩ := hsuccess
  have hdata : (initializeProtocol c p batchSize (coinsOf c r) provers.outputs vdata).2 =
      outputData c p provers.outputs vdata batchSize := evaluateOutputs_snd _ _ _ _
  rw [hdata, checkFinal_iff] at hfinal
  have hfalse := runAt_false hp hprovers hsize hpred (followsGates_trueValues _ _ _) hb hwrong
    hnone (Nat.sub_lt c.depth_pos one_pos) hlevels
  -- the final check compares the last claim with the inputs
  refine hfalse ?_
  rw [ClaimHolds, hfinal b hb]
  refine (cast_evaluateVChis_self _ _ _).trans ?_
  rw [trueClaim]
  refine extension_congr (fun j _ => ?_) fun _ _ => rfl
  rw [padded, truthTable, trueValues, values_input]
  rfl

/-- With wrong outputs of the instance `b`. -/
theorem card_success_le (hp : p ≠ 2) {c : ProtocolCircuit}
    (hpred : ∀ level, level + 1 < c.depth → ∀ rand, SuppliedPredicates (c.pair level) p rand)
    {batchSize : ℕ} {provers : Provers} (hprovers : provers.AnswersBeforeChallenge)
    {inputs : ℕ → ℚ} (outputs : ℕ → ℚ) {vdata : CircuitData} {b : ℕ} (hb : b < batchSize)
    (hwrong : OutputsWrong p c batchSize provers inputs vdata b) :
    (Finset.univ.filter fun r : Fin (numCoins c) → ZMod p =>
      (compute c p batchSize provers (coinsOf c (RoundSystem.extendChallenge r)) inputs outputs
        vdata).success = true).card ≤ soundnessBound c * p ^ (numCoins c - 1) := by
  have hpos : 0 < numCoins c :=
    (log2i_pos (c.size_pos 0 c.depth_pos)).trans_le (offset_zero_le _)
  by_cases hbig : p ≤ soundnessBound c
  · have hcard : Fintype.card (ZMod p) ≤ soundnessBound c := by rwa [ZMod.card]
    have hcount := card_le_of_card_le hpos hcard
      fun r : Fin (numCoins c) → ZMod p =>
        (compute c p batchSize provers (coinsOf c (RoundSystem.extendChallenge r)) inputs outputs
          vdata).success = true
    rwa [ZMod.card] at hcount
  · have hsize : ∀ level, (c.pair level).mip1 < p := by
      intro level
      by_cases hlevel : level ∈ Finset.range (c.depth - 1)
      · have hle := Finset.single_le_sum (f := fun level =>
          2 * rounds (c.pair level) + (2 * (c.pair level).mip1 + 1))
          (fun _ _ => Nat.zero_le _) hlevel
        rw [soundnessBound] at hbig
        omega
      · have hpair : c.pair level = LayerPair.double :=
          dif_neg (by rw [Finset.mem_range] at hlevel; omega)
        rw [hpair]
        exact (Fact.out : p.Prime).one_lt
    have hcoin : ∀ T ∈ runTests c batchSize provers vdata (trueValues p c inputs provers.magics
        (outputData c p provers.outputs vdata batchSize)) b hp hprovers hsize,
        T.coin < numCoins c := coin_lt_numCoins hp hprovers hsize
    have hcount := card_le_of_hits hcoin
      (fun r : Fin (numCoins c) → ZMod p =>
        (compute c p batchSize provers (coinsOf c (RoundSystem.extendChallenge r)) inputs outputs
          vdata).success = true)
      fun r hsuccess => hit_of_success hp hprovers hsize hpred hb hwrong hsuccess
    rwa [totalBound_runTests, ZMod.card] at hcount

/-- For every circuit, batch and provers that answer before they look at the challenge: with wrong
outputs of some instance the run succeeds for at most `soundnessBound` in `p` of all coins. -/
theorem compute_sound (hp : p ≠ 2) (c : ProtocolCircuit)
    (hpred : ∀ level, level + 1 < c.depth → ∀ rand, SuppliedPredicates (c.pair level) p rand)
    (batchSize : ℕ) (provers : Provers) (hprovers : provers.AnswersBeforeChallenge)
    (inputs outputs : ℕ → ℚ) (vdata : CircuitData)
    (hwrong : ∃ b < batchSize, OutputsWrong p c batchSize provers inputs vdata b) :
    (Finset.univ.filter fun r : Fin (numCoins c) → ZMod p =>
      (compute c p batchSize provers (coinsOf c (RoundSystem.extendChallenge r)) inputs outputs
        vdata).success = true).card ≤ soundnessBound c * p ^ (numCoins c - 1) := by
  obtain ⟨b, hb, hwrong⟩ := hwrong
  exact card_success_le hp hpred hprovers outputs hb hwrong

/-- Provers that send three as the output and zeros from then on. -/
def zeroProvers : Provers where
  outputs := fun _ => 3
  magics := fun _ => 0
  answer := fun _ => zeroVec

instance fact_prime_103 : Fact (Nat.Prime 103) := ⟨by norm_num⟩

/-- Three is not one doubled. -/
theorem zeroProvers_wrong :
    OutputsWrong 103 doubling 1 zeroProvers (fun _ => 1) (fun _ _ => ⟨0, 0⟩) 0 := by
  refine ⟨0, one_pos, ?_⟩
  decide +kernel

theorem soundnessBound_doubling : soundnessBound doubling = 10 := by decide

/-- At most ten values in `103`. -/
theorem compute_sound_zeroProvers :
    (Finset.univ.filter fun r : Fin (numCoins doubling) → ZMod 103 =>
      (compute doubling 103 1 zeroProvers (coinsOf doubling (RoundSystem.extendChallenge r))
        (fun _ => 1) (fun _ => 0) (fun _ _ => ⟨0, 0⟩)).success = true).card ≤
      10 * 103 ^ (numCoins doubling - 1) := by
  have hcount := compute_sound (p := 103) (by decide) doubling (doubling_predicates 103) 1
    zeroProvers (fun _ _ _ => rfl) (fun _ => 1) (fun _ => 0) (fun _ _ => ⟨0, 0⟩)
    ⟨0, one_pos, zeroProvers_wrong⟩
  rwa [soundnessBound_doubling] at hcount

end Run

end Pepper.Cmtgkr.CircuitProtocol
