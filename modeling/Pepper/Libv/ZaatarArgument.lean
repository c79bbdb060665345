import Pepper.Libv.DrawnPoints
import Pepper.Libv.RootOfUnity

/-!
# A whole run of the Zaatar argument

`beginPepper` is the run of `Verifier::begin_pepper` with a prover that holds proof vectors for a
batch of instances: commitment queries, commitments, the seed of the public stream, the queries on
both sides, answers to the consistency and the plain queries, and the tests of every instance. The
answers go through files: the prover writes one record after another and `prepare_answers` reads
them back, a repetition at a time although the first repetition already reads all.

`beginPepper_of_queries` reduces the verdict to the consistency tests and to one identity of
polynomials for each instance and repetition. `beginPepper_complete` follows for the proof vectors
of satisfying assignments.
-/

set_option autoImplicit false

open Polynomial
open Pepper.Common.Gmp Pepper.Foundations.Loop Pepper.Foundations.LinearPcp
open Pepper.Foundations.RootInterpolation
open Pepper.Libv.QuadraticProgram Pepper.Libv.Queries Pepper.Libv.DivisibilityTest
open Pepper.Libv.PlainQueries Pepper.Libv.Commitment Pepper.Libv.Consistency
open Pepper.Libv.Assignment Pepper.Libv.DrawnPoints Pepper.Libv.RootOfUnity

namespace Pepper.Libv.ZaatarArgument

variable {P : Prng}

/-! ## The prover's answers -/

/-- What the prover holds for one instance: inputs and outputs, and the two proof vectors that
`prover_do_computation` dumps. -/
structure Instance where
  io : Vec
  f1 : Vec
  f2 : Vec

/-- The loop of `prover_answer_queries` over repetitions and queries. -/
def answerLoop (q : Qap) (numRepetitions numRepsLin : ℕ) (x : Instance)
    (files : ℕ → ℕ → Option (List ℤ)) (st : AnswerState) : Option AnswerState :=
  forLoop numRepetitions
    (fun rho acc =>
      forLoop (qquerySizes q numRepsLin).length
        (fun j acc => acc.bind (answerStep q numRepetitions numRepsLin x.f1 x.f2 files rho j)) acc)
    (some st)

/-- `prover_answer_queries` for a batch: the records of the files `answers_<b + 1>`, the
consistency answer first. The last two answers stay from one instance to the next. -/
def proverAnswerBatch (q : Qap) (numRepetitions numRepsLin batchSize : ℕ)
    (instances : ℕ → Instance) (files : ℕ → ℕ → Option (List ℤ)) (con1 con2 : List ℤ) :
    Option (ℕ → List ℤ) :=
  let done : Option (AnswerState × (ℕ → List ℤ)) :=
    forLoop batchSize
      (fun b acc => acc.bind fun s =>
        let conAnswer := 0 + proverAnswerQuery q.sizeF1Vec con1 (instances b).f1 +
          proverAnswerQuery q.sizeF2Vec con2 (instances b).f2
        (answerLoop q numRepetitions numRepsLin (instances b) files { s.1 with out := [] }).map
          fun st => (st, Function.update s.2 b (conAnswer :: st.out)))
      (some (⟨0, 0, []⟩, fun _ => []))
  done.map Prod.snd

/-! ## The verifier's tests -/

/-- `Q_list`, which has the cells of all repetitions. -/
def qList (numRepetitions numRepsLin : ℕ) : List ℕ :=
  List.range (numRepetitions * numLinPcpQueries numRepsLin)

/-- One `mpz_inp_raw` into `f_answers`: at the end of the file the cell keeps its value; a record
for a cell outside of the block is nothing the program survives. -/
def readAnswer (numRepetitions numRepsLin rho i : ℕ) (s : Vec × List ℤ) : Option (Vec × List ℤ) :=
  match s.2 with
  | [] => some s
  | record :: rest =>
      let cell := rho * numLinPcpQueries numRepsLin + (qList numRepetitions numRepsLin).getD i 0
      if cell < numRepetitions * numLinPcpQueries numRepsLin then
        some (Function.update s.1 cell record, rest)
      else none

/-- `prepare_answers` on a file of records: the consistency answer, which keeps its old value `a`
when there is none, and the block of answers. -/
def prepareAnswers (numRepetitions numRepsLin : ℕ) (a : ℤ) (records : List ℤ) : Option (ℤ × Vec) :=
  let read : Option (Vec × List ℤ) :=
    forLoop numRepetitions
      (fun rho acc =>
        forLoop (qList numRepetitions numRepsLin).length
          (fun i acc => acc.bind (readAnswer numRepetitions numRepsLin rho i)) acc)
      (some (zeroVec, records.tail))
  read.map fun s => (records.headD a, s.1)

/-- `run_tests`. -/
def runTests (k : ElGamalKeys) (q : Qap) (prime : ℤ) (numRepetitions numRepsLin : ℕ)
    (v : VerifierState P) (io : Vec) (commitment : ℤ × ℤ) (a : ℤ) (fAnswers : Vec) : Bool :=
  consistencyTest k (numRepetitions * numLinPcpQueries numRepsLin) a (elgamalDec k commitment)
      fAnswers v.fConCoins &&
    runInteractiveTests q prime numRepetitions numRepsLin io v.tests fAnswers

/-- The loop over the batch at the end of `begin_pepper`; the same tests run
`num_verification_runs` times. -/
def verifyBatch (k : ElGamalKeys) (q : Qap) (prime : ℤ)
    (numRepetitions numRepsLin numVerificationRuns batchSize : ℕ) (v : VerifierState P)
    (instances : ℕ → Instance) (commitments : ℕ → ℤ × ℤ) (answers : ℕ → List ℤ) : Option Bool :=
  let runs := if numVerificationRuns = 0 then 1 else numVerificationRuns
  let done : Option (ℤ × Bool) :=
    forLoop batchSize
      (fun b acc => acc.bind fun s =>
        (prepareAnswers numRepetitions numRepsLin s.1 (answers b)).map fun r =>
          (r.1, forLoop runs
            (fun _ result => runTests k q prime numRepetitions numRepsLin v (instances b).io
              (commitments b) r.1 r.2 && result) s.2))
      (some (0, true))
  done.map Prod.snd

/-! ## The run -/

/-- The parameters of a run. -/
structure Params where
  keys : ElGamalKeys
  privBits : ℕ
  setup : Setup
  numRepetitions : ℕ
  numRepsLin : ℕ
  numVerificationRuns : ℕ
  batchSize : ℕ

/-- `begin_pepper` with the prover's phases between its steps; nothing when one of the programs
exits. The seed that the prover gets is that of the verifier's public stream; `privateAfterInput`
is the private stream after `create_input`. -/
def beginPepper (r : Params) (crypto : Crypto P) (privateAfterInput priv : P.State)
    (instances : ℕ → Instance) : Option Bool :=
  let queries := commitmentQueries r.keys r.privBits r.setup crypto
  let commitments := fun b => commitmentOf r.keys r.setup queries (instances b).f1 (instances b).f2
  let prover := deduceQueries r.setup r.numRepetitions r.numRepsLin
    (ProverState.init ⟨crypto.pub, priv⟩)
  let verifier := createPlainQueries r.setup r.numRepetitions r.numRepsLin
    (VerifierState.init ⟨queries.2.crypto.pub, privateAfterInput⟩ queries.1.conQ queries.2.conQ)
  prover.bind fun w => verifier.bind fun v =>
    (proverAnswerBatch r.setup.qap r.numRepetitions r.numRepsLin r.batchSize instances w.files
        (dumpVector r.setup.qap.sizeF1Vec v.f1Consistency)
        (dumpVector r.setup.qap.sizeF2Vec v.f2Consistency)).bind fun answers =>
      verifyBatch r.keys r.setup.qap r.setup.prime r.numRepetitions r.numRepsLin
        r.numVerificationRuns r.batchSize v instances commitments answers

/-! ## Answers through files -/

section Files

variable {numRepetitions numRepsLin : ℕ}

/-- At the end of the file nothing is read. -/
theorem forLoop_readAnswer_end (rho n : ℕ) (cells : Vec) :
    forLoop n (fun i acc => acc.bind (readAnswer numRepetitions numRepsLin rho i))
      (some (cells, [])) = some (cells, []) := by
  refine forLoop_induction (P := fun _ (acc : Option (Vec × List ℤ)) => acc = some (cells, [])) rfl
    ?_
  rintro i _ acc rfl
  rfl

/-- The first repetition reads as many records as there are. -/
theorem forLoop_readAnswer_first (records : List ℤ)
    (hlength : records.length = numRepetitions * numLinPcpQueries numRepsLin) {n : ℕ}
    (hn : n ≤ records.length) :
    forLoop n (fun i acc => acc.bind (readAnswer numRepetitions numRepsLin 0 i))
      (some (zeroVec, records)) = some (loadVector (records.take n) zeroVec, records.drop n) := by
  refine forLoop_induction (P := fun n (acc : Option (Vec × List ℤ)) =>
    acc = some (loadVector (records.take n) zeroVec, records.drop n)) ?_ ?_
  · rw [List.take_zero, List.drop_zero]
    rfl
  · rintro i hi acc rfl
    have hlt : i < records.length := Nat.lt_of_lt_of_le hi hn
    have hcell : (qList numRepetitions numRepsLin).getD i 0 = i := by
      rw [qList, List.getD_eq_getElem?_getD, List.getElem?_range (by omega), Option.getD_some]
    rw [Option.bind_some, readAnswer, List.drop_eq_getElem_cons hlt]
    simp only [hcell, Nat.zero_mul, Nat.zero_add]
    rw [if_pos (by omega)]
    refine congrArg some (Prod.ext ?_ rfl)
    funext t
    simp only [loadVector, List.getD_eq_getElem?_getD, List.getElem?_take]
    by_cases ht : t = i
    · subst ht
      rw [Function.update_self, if_pos (Nat.lt_succ_self t), List.getElem?_eq_getElem hlt,
        Option.getD_some]
    · have hiff : t < i + 1 ↔ t < i := by omega
      rw [Function.update_of_ne ht, loadVector, List.getD_eq_getElem?_getD, List.getElem?_take]
      simp only [hiff]

/-- A file with one record for every cell is read back. -/
theorem prepareAnswers_eq (hpos : 0 < numRepetitions) (a conAnswer : ℤ) {records : List ℤ}
    (hlength : records.length = numRepetitions * numLinPcpQueries numRepsLin) :
    prepareAnswers numRepetitions numRepsLin a (conAnswer :: records) =
      some (conAnswer, loadVector records zeroVec) := by
  have hsize : (qList numRepetitions numRepsLin).length = records.length := by
    rw [qList, List.length_range, hlength]
  have hread : forLoop numRepetitions
      (fun rho acc =>
        forLoop (qList numRepetitions numRepsLin).length
          (fun i acc => acc.bind (readAnswer numRepetitions numRepsLin rho i)) acc)
      (some (zeroVec, records)) = some (loadVector records zeroVec, []) := by
    -- later repetitions find the end of the file
    have hall : 0 < numRepetitions → forLoop numRepetitions
        (fun rho acc =>
          forLoop (qList numRepetitions numRepsLin).length
            (fun i acc => acc.bind (readAnswer numRepetitions numRepsLin rho i)) acc)
        (some (zeroVec, records)) = some (loadVector records zeroVec, []) := by
      refine forLoop_simulation (R := fun rho (acc : Option (Vec × List ℤ)) (_ : Unit) =>
        (rho = 0 → acc = some (zeroVec, records)) ∧
          (0 < rho → acc = some (loadVector records zeroVec, []))) (k := fun _ u => u) (t := ())
        ⟨fun _ => rfl, fun h => absurd h (lt_irrefl 0)⟩ ?_ |>.2
      rintro rho _ acc - ⟨hfirst, hlater⟩
      refine ⟨fun h => absurd h (Nat.succ_ne_zero rho), fun _ => ?_⟩
      rcases Nat.eq_zero_or_pos rho with rfl | hrho
      · rw [hfirst rfl, hsize, forLoop_readAnswer_first records hlength le_rfl, List.take_length,
          List.drop_length]
      · rw [hlater hrho]
        exact forLoop_readAnswer_end rho _ _
    exact hall hpos
  rw [prepareAnswers, List.tail_cons, hread]
  rfl

/-- The answers that the prover writes for an instance. -/
def answersTo (q : Qap) (numRepetitions numRepsLin : ℕ) (x : Instance)
    (used : ℕ → Option (List ℤ)) : List ℤ :=
  (List.range (numRepetitions * numLinPcpQueries numRepsLin)).map
    (answerAt q numRepsLin x.f1 x.f2 used)

theorem length_answersTo (q : Qap) (x : Instance) (used : ℕ → Option (List ℤ)) :
    (answersTo q numRepetitions numRepsLin x used).length =
      numRepetitions * numLinPcpQueries numRepsLin := by
  rw [answersTo, List.length_map, List.length_range]

theorem loadVector_answersTo (q : Qap) (x : Instance) (used : ℕ → Option (List ℤ)) {t : ℕ}
    (ht : t < numRepetitions * numLinPcpQueries numRepsLin) :
    loadVector (answersTo q numRepetitions numRepsLin x used) zeroVec t =
      answerAt q numRepsLin x.f1 x.f2 used t := by
  rw [loadVector, answersTo, List.getD_eq_getElem?_getD, List.getElem?_map,
    List.getElem?_range ht, Option.map_some, Option.getD_some]

/-- When the query files hold what the verifier used, every instance gets its answer file. -/
theorem proverAnswerBatch_eq (q : Qap) (batchSize : ℕ) (instances : ℕ → Instance)
    {files : ℕ → ℕ → Option (List ℤ)} {used : ℕ → Option (List ℤ)} (con1 con2 : Vec)
    (hfile : ∀ rho < numRepetitions, ∀ j < numLinPcpQueries numRepsLin, ∀ f,
      ptrAt numRepsLin j = some f → ∃ content, files (j + 1) rho = some content ∧
        used (rho * numLinPcpQueries numRepsLin + j) = some content) :
    ∃ answers, proverAnswerBatch q numRepetitions numRepsLin batchSize instances files
        (dumpVector q.sizeF1Vec con1) (dumpVector q.sizeF2Vec con2) = some answers ∧
      ∀ b < batchSize, answers b =
        (dotProduct q.sizeF1Vec con1 (instances b).f1 +
          dotProduct q.sizeF2Vec con2 (instances b).f2) ::
            answersTo q numRepetitions numRepsLin (instances b) used := by
  have hrun : ∃ s : AnswerState × (ℕ → List ℤ),
      forLoop batchSize
        (fun b acc => acc.bind fun s : AnswerState × (ℕ → List ℤ) =>
          (answerLoop q numRepetitions numRepsLin (instances b) files { s.1 with out := [] }).map
            fun st => (st, Function.update s.2 b
              ((0 + proverAnswerQuery q.sizeF1Vec (dumpVector q.sizeF1Vec con1) (instances b).f1 +
                proverAnswerQuery q.sizeF2Vec (dumpVector q.sizeF2Vec con2) (instances b).f2) ::
                  st.out)))
        (some (⟨0, 0, []⟩, fun _ => [])) = some s ∧
      ∀ b < batchSize, s.2 b =
        (dotProduct q.sizeF1Vec con1 (instances b).f1 +
          dotProduct q.sizeF2Vec con2 (instances b).f2) ::
            answersTo q numRepetitions numRepsLin (instances b) used := by
    refine forLoop_induction (P := fun n (acc : Option (AnswerState × (ℕ → List ℤ))) =>
      ∃ s, acc = some s ∧ ∀ b < n, s.2 b =
        (dotProduct q.sizeF1Vec con1 (instances b).f1 +
          dotProduct q.sizeF2Vec con2 (instances b).f2) ::
            answersTo q numRepetitions numRepsLin (instances b) used)
      ⟨_, rfl, fun b hb => absurd hb (Nat.not_lt_zero b)⟩ ?_
    rintro n - acc ⟨s, rfl, hs⟩
    obtain ⟨st, hst, hinv⟩ := AnswerInv.run q (instances n).f1 (instances n).f2 files s.1.a1 s.1.a2
      hfile
    refine ⟨_, by rw [Option.bind_some, answerLoop, hst, Option.map_some], fun b hb => ?_⟩
    dsimp only
    rcases Nat.lt_succ_iff_lt_or_eq.1 hb with hlt | rfl
    · rw [Function.update_of_ne (Nat.ne_of_lt hlt)]
      exact hs b hlt
    · rw [Function.update_self, hinv.out, Nat.add_zero]
      simp only [proverAnswerQuery, dotProduct_load_dump, zero_add]
      rfl
  obtain ⟨s, hs, hanswers⟩ := hrun
  exact ⟨s.2, by rw [proverAnswerBatch, hs, Option.map_some], hanswers⟩

end Files

/-! ## The verdict on an instance -/

section Verdict

variable {p : ℕ} [Fact p.Prime] {q : Qap} {omega : ℤ} {numRepetitions numRepsLin : ℕ}

/-- The linearity tests of the prover's answers. -/
theorem linTest_answers (x : Instance) (used : ℕ → Option (List ℤ)) (prime : ℤ) {rho i k : ℕ}
    (hrho : rho < numRepetitions) (hi : i < numRepsLin) (hk : k = 0 ∨ k = 3) :
    let cell := fun j => loadVector (answersTo q numRepetitions numRepsLin x used) zeroVec
      (rho * numLinPcpQueries numRepsLin + j)
    linTest (cell (i * numLinQueries + k)) (cell (i * numLinQueries + (k + 1)))
      (cell (i * numLinQueries + (k + 2))) prime = true := by
  intro cell
  have hN := numLinPcpQueries_eq numRepsLin
  have hcell : ∀ j < 6, cell (i * numLinQueries + j) = answerAt q numRepsLin x.f1 x.f2 used
      (rho * numLinPcpQueries numRepsLin + (6 * i + j)) := by
    intro j hj
    have hindex : i * numLinQueries + j = 6 * i + j := by rw [numLinQueries, Nat.mul_comm]
    simp only [cell]
    rw [hindex]
    exact loadVector_answersTo q x used (block_lt hrho (by omega))
  have hptr : ∀ j < 6, ptrAt numRepsLin
      ((rho * numLinPcpQueries numRepsLin + (6 * i + j)) % numLinPcpQueries numRepsLin) =
        if j % 3 = 2 then none else if j < 3 then some .f1 else some .f2 := by
    intro j hj
    rw [Nat.mul_add_mod_of_lt (by omega), ptrAt_lin hi hj]
  -- the third answer is the sum of the two before it
  have hsum : cell (i * numLinQueries + (k + 2)) =
      cell (i * numLinQueries + k) + cell (i * numLinQueries + (k + 1)) := by
    have hback1 : rho * numLinPcpQueries numRepsLin + (6 * i + (k + 2)) - 1 =
        rho * numLinPcpQueries numRepsLin + (6 * i + (k + 1)) := by omega
    have hback2 : rho * numLinPcpQueries numRepsLin + (6 * i + (k + 2)) - 2 =
        rho * numLinPcpQueries numRepsLin + (6 * i + k) := by omega
    have hnone := hptr (k + 2) (by omega)
    have h0 := hptr k (by omega)
    have h1 := hptr (k + 1) (by omega)
    rw [if_pos (by omega)] at hnone
    rw [if_neg (by omega)] at h0 h1
    rw [hcell _ (by omega), hcell _ (by omega), hcell _ (by omega), answerAt_of_none hnone, hback1,
      hback2]
    rcases hk with rfl | rfl
    · rw [answerAt_of_some h0, answerAt_of_some h1]
    · rw [answerAt_of_some h0, answerAt_of_some h1]
  rw [linTest, hsum, beq_self_eq_true]

/-- On the answers of a linear proof the interactive tests are the divisibility tests. -/
theorem runInteractiveTests_iff (prime : ℤ) (x : Instance) (used : ℕ → Option (List ℤ))
    (t : TauState) :
    runInteractiveTests q prime numRepetitions numRepsLin x.io t
        (loadVector (answersTo q numRepetitions numRepsLin x used) zeroVec) = true ↔
      ∀ rho < numRepetitions, divisibilityTest q prime rho x.io t (readDivAnswers numRepsLin rho
        (loadVector (answersTo q numRepetitions numRepsLin x used) zeroVec)) = true := by
  rw [runInteractiveTests]
  have hround : ∀ rho < numRepetitions, ∀ result : Bool,
      forLoop numRepsLin
        (fun i result =>
          let base := i * numLinQueries
          let cell := fun k => loadVector (answersTo q numRepetitions numRepsLin x used) zeroVec
            (rho * numLinPcpQueries numRepsLin + k)
          let lin1 := linTest (cell (base + 0)) (cell (base + 1)) (cell (base + 2)) prime
          let lin2 := linTest (cell (base + 3)) (cell (base + 4)) (cell (base + 5)) prime
          result && lin1 && lin2) result = result := by
    intro rho hrho result
    refine forLoop_induction (P := fun _ b => b = result) rfl ?_
    rintro i hi _ rfl
    have h1 := linTest_answers (q := q) x used prime hrho hi (Or.inl rfl)
    have h2 := linTest_answers (q := q) x used prime hrho hi (Or.inr rfl)
    dsimp only at h1 h2 ⊢
    rw [h1, h2, Bool.and_true, Bool.and_true]
  have hloop := forLoop_all numRepetitions (fun rho => divisibilityTest q prime rho x.io t
    (readDivAnswers numRepsLin rho
      (loadVector (answersTo q numRepetitions numRepsLin x used) zeroVec))) true
  rw [eq_self, true_and] at hloop
  rw [← hloop]
  refine iff_of_eq (congrArg (· = true) (forLoop_congr fun rho hrho result => ?_))
  exact congrArg (· && _) (hround rho hrho result)

/-- The loop over the batch, on files that can be read. -/
theorem verifyBatch_eq (k : ElGamalKeys) (prime : ℤ) (hpos : 0 < numRepetitions)
    (numVerificationRuns batchSize : ℕ) (v : VerifierState P) (instances : ℕ → Instance)
    (commitments : ℕ → ℤ × ℤ) {answers : ℕ → List ℤ} {conAnswers : ℕ → ℤ}
    (hanswers : ∀ b < batchSize, answers b =
      conAnswers b :: answersTo q numRepetitions numRepsLin (instances b) v.used) :
    ∃ verdict, verifyBatch k q prime numRepetitions numRepsLin numVerificationRuns batchSize v
        instances commitments answers = some verdict ∧
      (verdict = true ↔ ∀ b < batchSize, runTests k q prime numRepetitions numRepsLin v
        (instances b).io (commitments b) (conAnswers b)
        (loadVector (answersTo q numRepetitions numRepsLin (instances b) v.used) zeroVec) = true) := by
  let runs := if numVerificationRuns = 0 then 1 else numVerificationRuns
  have hruns : 0 < runs := by
    simp only [runs]
    split
    · exact one_pos
    · exact Nat.pos_of_ne_zero ‹_›
  -- the same test again does not change the verdict
  have hagain : ∀ test result : Bool,
      forLoop runs (fun _ result => test && result) result = true ↔ result = true ∧ test = true := by
    intro test result
    have hcomm : forLoop runs (fun _ result => test && result) result =
        forLoop runs (fun _ result => result && test) result :=
      forLoop_congr fun _ _ result => Bool.and_comm test result
    rw [hcomm, forLoop_all]
    exact and_congr_right fun _ => ⟨fun h => h 0 hruns, fun h _ _ => h⟩
  have hrun : ∃ s : ℤ × Bool,
      forLoop batchSize
        (fun b acc => acc.bind fun s : ℤ × Bool =>
          (prepareAnswers numRepetitions numRepsLin s.1 (answers b)).map fun r =>
            (r.1, forLoop runs
              (fun _ result => runTests k q prime numRepetitions numRepsLin v (instances b).io
                (commitments b) r.1 r.2 && result) s.2))
        (some (0, true)) = some s ∧
      (s.2 = true ↔ ∀ b < batchSize, runTests k q prime numRepetitions numRepsLin v
        (instances b).io (commitments b) (conAnswers b)
        (loadVector (answersTo q numRepetitions numRepsLin (instances b) v.used) zeroVec) = true) := by
    refine forLoop_induction (P := fun n (acc : Option (ℤ × Bool)) => ∃ s, acc = some s ∧
      (s.2 = true ↔ ∀ b < n, runTests k q prime numRepetitions numRepsLin v (instances b).io
        (commitments b) (conAnswers b)
        (loadVector (answersTo q numRepetitions numRepsLin (instances b) v.used) zeroVec) = true))
      ⟨_, rfl, iff_of_true rfl fun b hb => absurd hb (Nat.not_lt_zero b)⟩ ?_
    rintro n hn acc ⟨s, rfl, hs⟩
    have hlength : (answersTo q numRepetitions numRepsLin (instances n) v.used).length =
        numRepetitions * numLinPcpQueries numRepsLin := length_answersTo q (instances n) v.used
    have hread := prepareAnswers_eq hpos s.1 (conAnswers n) hlength
    refine ⟨_, by rw [Option.bind_some, hanswers n hn, hread, Option.map_some], ?_⟩
    rw [hagain, hs, Nat.forall_lt_succ_right]
  obtain ⟨s, hs, hverdict⟩ := hrun
  exact ⟨s.2, by rw [verifyBatch, hs, Option.map_some], hverdict⟩

/-- The consistency test on the answers to the queries of the run. -/
theorem consistencyTest_answers (k : ElGamalKeys) (privBits : ℕ) (s : Setup) (hprime : 0 < s.prime)
    (crypto : Crypto P) {c : Crypto P} {v : VerifierState P}
    (hv : createPlainQueries s numRepetitions numRepsLin (VerifierState.init c
      (commitmentQueries k privBits s crypto).1.conQ (commitmentQueries k privBits s crypto).2.conQ) =
        some v) {x : Instance} (h1 : ∀ i, 0 ≤ x.f1 i) (h2 : ∀ i, 0 ≤ x.f2 i)
    (horder : committed s (commitmentQueries k privBits s crypto) x.f1 x.f2 < k.order) :
    consistencyTest k (numRepetitions * numLinPcpQueries numRepsLin)
      (dotProduct s.qap.sizeF1Vec v.f1Consistency x.f1 +
        dotProduct s.qap.sizeF2Vec v.f2Consistency x.f2)
      (elgamalDec k (commitmentOf k s (commitmentQueries k privBits s crypto) x.f1 x.f2))
      (loadVector (answersTo s.qap numRepetitions numRepsLin x v.used) zeroVec) v.fConCoins = true := by
  obtain ⟨-, hbalance⟩ := createPlainQueries_con x.f1 x.f2 hv
  have hnonneg : 0 ≤ committed s (commitmentQueries k privBits s crypto) x.f1 x.f2 := by
    have hc1 := createCommitmentQuery_conQ_nonneg k privBits s.qap.sizeF1Vec hprime crypto
    have hc2 := createCommitmentQuery_conQ_nonneg k privBits s.qap.sizeF2Vec hprime
      (createCommitmentQuery k privBits s.qap.sizeF1Vec s.prime crypto).crypto
    rw [committed, commitmentQueries, ← dotProduct_toNat _ hc1 h1, ← dotProduct_toNat _ hc2 h2]
    positivity
  -- the coins take the answers out of the consistency answer again
  have hdifference : conDot s.qap x.f1 x.f2 v -
      forLoop (numRepetitions * numLinPcpQueries numRepsLin)
        (fun i acc => acc + v.fConCoins i *
          loadVector (answersTo s.qap numRepetitions numRepsLin x v.used) zeroVec i) 0 =
      committed s (commitmentQueries k privBits s crypto) x.f1 x.f2 := by
    have hsum : ∑ t ∈ Finset.range (numRepetitions * numLinPcpQueries numRepsLin),
          v.fConCoins t * loadVector (answersTo s.qap numRepetitions numRepsLin x v.used) zeroVec t =
        ∑ t ∈ Finset.range (numRepetitions * numLinPcpQueries numRepsLin),
          v.fConCoins t * answerAt s.qap numRepsLin x.f1 x.f2 v.used t := by
      refine Finset.sum_congr rfl fun t ht => ?_
      rw [loadVector_answersTo s.qap x v.used (Finset.mem_range.1 ht)]
    rw [forLoop_add, zero_add, hsum, hbalance, add_sub_cancel_right]
    rfl
  rw [consistencyTest, ← conDot, hdifference, if_pos ⟨hnonneg, horder⟩,
    elgamalDec_commitmentOf k privBits s hprime crypto h1 h2, beq_self_eq_true]

end Verdict

/-! ## The run -/

section Run

variable {p : ℕ} [Fact p.Prime] {q : Qap} {omega : ℤ} {r : Params}

/-- The point of repetition `rho` is a root of unity, and the programs exit there. -/
def AtRoot (p : ℕ) (q : Qap) (omega : ℤ) (numRepsLin : ℕ) (stream : P.State) (rho : ℕ) : Prop :=
  ((pointAt (Setup.init q omega p) numRepsLin rho stream : ℤ) : ZMod p) ^ q.sizeF2Vec = 1

/-- The consistency test of an instance, with the queries that `createPlainQueries` left in `v`. -/
def ConsistencyPasses (r : Params) (crypto : Crypto P) (v : VerifierState P) (x : Instance) : Prop :=
  consistencyTest r.keys (r.numRepetitions * numLinPcpQueries r.numRepsLin)
    (dotProduct r.setup.qap.sizeF1Vec v.f1Consistency x.f1 +
      dotProduct r.setup.qap.sizeF2Vec v.f2Consistency x.f2)
    (elgamalDec r.keys (commitmentOf r.keys r.setup
      (commitmentQueries r.keys r.privBits r.setup crypto) x.f1 x.f2))
    (loadVector (answersTo r.setup.qap r.numRepetitions r.numRepsLin x v.used) zeroVec)
    v.fConCoins = true

theorem commitmentQueries_pub (k : ElGamalKeys) (privBits : ℕ) (s : Setup) (crypto : Crypto P) :
    (commitmentQueries k privBits s crypto).2.crypto.pub = crypto.pub :=
  (createCommitmentQuery_pub _ _ _ _ _).trans (createCommitmentQuery_pub _ _ _ _ _)

theorem pointAt_range (numRepsLin rho : ℕ) (stream : P.State) :
    0 ≤ pointAt (Setup.init q omega p) numRepsLin rho stream ∧
      pointAt (Setup.init q omega p) numRepsLin rho stream < p :=
  P.getRandom_range _ p (by exact_mod_cast (Fact.out : p.Prime).pos)

/-- The verdict when both programs have ended query creation. -/
theorem beginPepper_of_queries (hr : r.setup = Setup.init q omega p)
    (hω : IsPrimitiveRoot (omega : ZMod p) q.sizeF2Vec) (hlin : 0 < r.numRepsLin)
    (hpos : 0 < r.numRepetitions) {crypto : Crypto P} {privateAfterInput priv : P.State}
    (instances : ℕ → Instance) {v : VerifierState P} {w : ProverState P}
    (hv : createPlainQueries r.setup r.numRepetitions r.numRepsLin (VerifierState.init
      ⟨crypto.pub, privateAfterInput⟩ (commitmentQueries r.keys r.privBits r.setup crypto).1.conQ
      (commitmentQueries r.keys r.privBits r.setup crypto).2.conQ) = some v)
    (hw : deduceQueries r.setup r.numRepetitions r.numRepsLin
      (ProverState.init ⟨crypto.pub, priv⟩) = some w)
    (hsim : PointSim r.setup r.numRepsLin crypto.pub r.numRepetitions v w) :
    ∃ verdict, beginPepper r crypto privateAfterInput priv instances = some verdict ∧
      (verdict = true ↔ ∀ b < r.batchSize, ConsistencyPasses r crypto v (instances b) ∧
        ∀ rho < r.numRepetitions, IdentityAt p q omega (instances b).f1 (instances b).f2
          (instances b).io
          ((pointAt (Setup.init q omega p) r.numRepsLin rho crypto.pub : ℤ) : ZMod p)) := by
  obtain ⟨answers, hanswers, hfiles⟩ := proverAnswerBatch_eq r.setup.qap r.batchSize instances
    v.f1Consistency v.f2Consistency fun rho hrho j hj f hptr => hsim.sim.loaded hrho hj hptr
  obtain ⟨verdict, hverdict, hiff⟩ := verifyBatch_eq r.keys r.setup.prime hpos
    r.numVerificationRuns r.batchSize v instances
    (fun b => commitmentOf r.keys r.setup (commitmentQueries r.keys r.privBits r.setup crypto)
      (instances b).f1 (instances b).f2) hfiles
  refine ⟨verdict, ?_, hiff.trans (forall₂_congr fun b _ => ?_)⟩
  · rw [beginPepper, commitmentQueries_pub, hw, hv]
    exact (congrArg (Option.bind · _) hanswers).trans hverdict
  · rw [runTests, Bool.and_eq_true, runInteractiveTests_iff]
    refine and_congr_right fun _ => forall₂_congr fun rho hrho => ?_
    have hlinked := hsim.linked rho hrho
    rw [hr] at hlinked ⊢
    exact (divisibilityTest_linkedAt hω (pointAt_range _ _ _) hlin hlinked (instances b).f1
      (instances b).f2 (instances b).io fun j hj =>
        loadVector_answersTo q (instances b) v.used (block_lt hrho hj)).2

/-- The programs exit when a point is a root of unity; otherwise both end query creation. -/
theorem queries_cases (hr : r.setup = Setup.init q omega p)
    (hω : IsPrimitiveRoot (omega : ZMod p) q.sizeF2Vec) (crypto : Crypto P)
    (privateAfterInput priv : P.State) (r1 r2 : Vec) :
    (∃ rho < r.numRepetitions, AtRoot p q omega r.numRepsLin crypto.pub rho) ∧
        deduceQueries r.setup r.numRepetitions r.numRepsLin
          (ProverState.init ⟨crypto.pub, priv⟩) = none ∨
      (∀ rho < r.numRepetitions, ¬ AtRoot p q omega r.numRepsLin crypto.pub rho) ∧
        ∃ v w, createPlainQueries r.setup r.numRepetitions r.numRepsLin
            (VerifierState.init ⟨crypto.pub, privateAfterInput⟩ r1 r2) = some v ∧
          deduceQueries r.setup r.numRepetitions r.numRepsLin
            (ProverState.init ⟨crypto.pub, priv⟩) = some w ∧
          PointSim r.setup r.numRepsLin crypto.pub r.numRepetitions v w := by
  let c : Crypto P := ⟨crypto.pub, privateAfterInput⟩
  let c' : Crypto P := ⟨crypto.pub, priv⟩
  have hpub : c.pub = c'.pub := rfl
  have hrel := createPlainQueries_linked r.setup r.numRepetitions r.numRepsLin hpub r1 r2
  by_cases hroot : ∃ rho < r.numRepetitions, AtRoot p q omega r.numRepsLin crypto.pub rho
  · left
    refine ⟨hroot, ?_⟩
    obtain ⟨rho, hrho, hone⟩ := hroot
    generalize hov : createPlainQueries r.setup _ _ _ = ov at hrel
    generalize deduceQueries r.setup _ _ _ = ow at hrel ⊢
    cases hrel with
    | none => rfl
    | some hsim =>
        obtain ⟨ev, -, -, -, hev, -⟩ := hsim.linked rho hrho
        rw [hr] at hev
        exact absurd hone (pow_ne_one_of_evaluatePolynomialAt hω (pointAt_range _ _ _) hev)
  · right
    push Not at hroot
    refine ⟨hroot, ?_⟩
    have hsome := createPlainQueries_isSome r.setup r.numRepetitions r.numRepsLin
      ⟨crypto.pub, privateAfterInput⟩ r1 r2 fun rho hrho => by
        rw [hr]
        exact Option.isSome_iff_exists.2 (evaluatePolynomialAt_isSome hω (hroot rho hrho))
    obtain ⟨v, hv⟩ := Option.isSome_iff_exists.1 hsome
    rw [hv] at hrel
    generalize hw : deduceQueries r.setup _ _ _ = ow at hrel
    cases hrel with
    | some hsim => exact ⟨v, _, hv, rfl, hsim⟩

/-- A satisfying assignment of residues with the proof that `compute_assignment_vectors` makes of
it, whatever its blocks held before. -/
structure Honest (p : ℕ) [Fact p.Prime] (q : Qap) (omega : ℤ) (x : Instance) : Prop where
  rows : ∀ j, 1 ≤ j → j ≤ q.chi → q.SatisfiesRow x.f1 x.io p j
  f1_range : ∀ i, 0 ≤ x.f1 i ∧ x.f1 i < p
  f2_eq : ∃ (oldH : List (ZMod p)) (oldF2 : Vec), (∀ i, 0 ≤ oldF2 i ∧ oldF2 i < p) ∧
    x.f2 = computeAssignmentVectors p q omega x.f1 x.io oldH oldF2

theorem Honest.f2_range {x : Instance} (h : Honest p q omega x) (i : ℕ) :
    0 ≤ x.f2 i ∧ x.f2 i < p := by
  obtain ⟨oldH, oldF2, hold, hf2⟩ := h.f2_eq
  simp only [hf2, computeAssignmentVectors, forLoop_fill_apply]
  split
  · exact ⟨Int.natCast_nonneg _, by exact_mod_cast ZMod.val_lt _⟩
  · exact hold i

/-- An honest proof satisfies the identity of polynomials everywhere. -/
theorem Honest.identityAt {m : ℕ} (hm : 1 ≤ m) (hchi : q.chi + 1 = 2 ^ m)
    (hω : IsPrimitiveRoot (omega : ZMod p) q.sizeF2Vec) {x : Instance} (h : Honest p q omega x)
    (tau : ZMod p) : IdentityAt p q omega x.f1 x.f2 x.io tau := by
  obtain ⟨oldH, oldF2, -, hf2⟩ := h.f2_eq
  obtain ⟨H, hH, hcoeff⟩ := computeAssignmentVectors_spec q hm hchi hω x.f1 x.io h.rows oldH oldF2
  have hdeg : H.natDegree < q.sizeF2Vec := natDegree_quotient_lt (Nat.succ_pos q.chi) hω hH
  have hpoly : proofPoly p q x.f2 = H := by
    conv_rhs => rw [H.as_sum_range' q.sizeF2Vec hdeg]
    refine Finset.sum_congr rfl fun i hi => ?_
    rw [hf2, hcoeff i (Finset.mem_range.1 hi), C_mul_X_pow_eq_monomial]
  rw [IdentityAt, hpoly, assignmentExpr, hH]

theorem createCommitmentQuery_conQ_lt (k : ElGamalKeys) (privBits size : ℕ) {prime : ℤ}
    (hprime : 0 < prime) (crypto : Crypto P) (i : ℕ) :
    (createCommitmentQuery k privBits size prime crypto).conQ i < prime := by
  rw [createCommitmentQuery]
  refine forLoop_induction (P := fun _ (s : Crypto P × Vec) => ∀ j, s.2 j < prime)
    (fun _ => hprime) ?_ i
  intro n _ s hs j
  show Function.update s.2 n (s.1.getRandomPriv prime).1 j < prime
  by_cases hjn : j = n
  · rw [hjn, Function.update_self]
    exact (P.getRandom_range s.1.priv prime hprime).2
  · rw [Function.update_of_ne hjn]
    exact hs j

/-- An inner product of residues. -/
theorem dotProduct_le (size : ℕ) {a d : Vec} {prime : ℤ} (ha : ∀ i, 0 ≤ a i ∧ a i < prime)
    (hd : ∀ i, 0 ≤ d i ∧ d i < prime) : dotProduct size a d ≤ size * (prime - 1) ^ 2 := by
  rw [dotProduct_eq_sum]
  have hterm : ∀ i ∈ Finset.range size, d i * a i ≤ (prime - 1) ^ 2 := by
    intro i _
    have h1 := ha i
    have h2 := hd i
    rw [pow_two]
    exact mul_le_mul (by omega) (by omega) h1.1 (by omega)
  refine (Finset.sum_le_sum hterm).trans_eq ?_
  rw [Finset.sum_const, Finset.card_range, nsmul_eq_mul]

/-- The committed inner product of an honest instance is below a group order with room for
`sizeF1Vec + sizeF2Vec` products of residues. -/
theorem committed_lt (hr : r.setup = Setup.init q omega p) {x : Instance}
    (h : Honest p q omega x) (crypto : Crypto P)
    (horder : ((q.sizeF1Vec + q.sizeF2Vec : ℕ) : ℤ) * ((p : ℤ) - 1) ^ 2 < r.keys.order) :
    committed r.setup (commitmentQueries r.keys r.privBits r.setup crypto) x.f1 x.f2 <
      r.keys.order := by
  have hprime : (0 : ℤ) < p := by exact_mod_cast (Fact.out : p.Prime).pos
  rw [hr]
  have h1 := dotProduct_le q.sizeF1Vec (fun i => ⟨createCommitmentQuery_conQ_nonneg r.keys r.privBits
    q.sizeF1Vec hprime crypto i, createCommitmentQuery_conQ_lt r.keys r.privBits q.sizeF1Vec hprime
    crypto i⟩) h.f1_range
  have h2 := dotProduct_le q.sizeF2Vec (fun i => ⟨createCommitmentQuery_conQ_nonneg r.keys r.privBits
    q.sizeF2Vec hprime (createCommitmentQuery r.keys r.privBits q.sizeF1Vec p crypto).crypto i,
    createCommitmentQuery_conQ_lt r.keys r.privBits q.sizeF2Vec hprime
    (createCommitmentQuery r.keys r.privBits q.sizeF1Vec p crypto).crypto i⟩) h.f2_range
  refine lt_of_le_of_lt (add_le_add h1 h2) ?_
  rwa [← add_mul, ← Nat.cast_add]

/-- With honest proof vectors for every instance the run ends with the verdict `true`, unless a
drawn point is a root of unity; then the programs exit. -/
theorem beginPepper_complete (hr : r.setup = Setup.init q omega p) {m : ℕ} (hm : 1 ≤ m)
    (hchi : q.chi + 1 = 2 ^ m) (hdvd : 2 ^ m ∣ p - 1) {draws : ℕ → ℤ} {fuel : ℕ} {powers : Vec}
    (homega : generateRootOfUnity draws fuel (2 ^ m) p = some (omega, powers))
    (hlin : 0 < r.numRepsLin) (hpos : 0 < r.numRepetitions)
    (horder : ((q.sizeF1Vec + q.sizeF2Vec : ℕ) : ℤ) * ((p : ℤ) - 1) ^ 2 < r.keys.order)
    (crypto : Crypto P) (privateAfterInput priv : P.State) {instances : ℕ → Instance}
    (hinstances : ∀ b < r.batchSize, Honest p q omega (instances b)) :
    (∀ rho < r.numRepetitions, ¬ AtRoot p q omega r.numRepsLin crypto.pub rho) ∧
        beginPepper r crypto privateAfterInput priv instances = some true ∨
      (∃ rho < r.numRepetitions, AtRoot p q omega r.numRepsLin crypto.pub rho) ∧
        beginPepper r crypto privateAfterInput priv instances = none := by
  have hω : IsPrimitiveRoot (omega : ZMod p) q.sizeF2Vec := by
    rw [Qap.sizeF2Vec, hchi]
    exact isPrimitiveRoot_of_generate hm hdvd homega
  have hprime : (0 : ℤ) < p := by exact_mod_cast (Fact.out : p.Prime).pos
  rcases queries_cases hr hω crypto privateAfterInput priv
    (commitmentQueries r.keys r.privBits r.setup crypto).1.conQ
    (commitmentQueries r.keys r.privBits r.setup crypto).2.conQ with
    ⟨hroot, hnone⟩ | ⟨hroot, v, w, hv, hw, hsim⟩
  · right
    refine ⟨hroot, ?_⟩
    rw [beginPepper, hnone]
    rfl
  · left
    refine ⟨hroot, ?_⟩
    obtain ⟨verdict, hverdict, hiff⟩ := beginPepper_of_queries hr hω hlin hpos instances hv hw hsim
    rw [hverdict, Option.some_inj, hiff]
    intro b hb
    have hx := hinstances b hb
    refine ⟨?_, fun rho _ => hx.identityAt hm hchi hω _⟩
    exact consistencyTest_answers r.keys r.privBits r.setup (by rw [hr]; exact hprime) crypto hv
      (fun i => (hx.f1_range i).1) (fun i => (hx.f2_range i).1) (committed_lt hr hx crypto horder)

end Run

/-! ## An instance -/

/-- Keys modulo `101`, whose order leaves room for the vectors of `copyQap` modulo five. -/
def keys101 : ElGamalKeys where
  p := 101
  g := 2
  r := 3
  p_prime := by norm_num
  g_invertible := by decide

/-- Two instances of `copyQap`, two repetitions and one linearity iteration. -/
def copyParams : Params where
  keys := keys101
  privBits := 4
  setup := Setup.init copyQap 4 (5 : ℕ)
  numRepetitions := 2
  numRepsLin := 1
  numVerificationRuns := 0
  batchSize := 2

/-- The assignment `w = b` with its proof. -/
def copyInstance (b : ℕ) : Instance where
  io := zeroVec
  f1 := fun _ => (b : ℤ) % 2
  f2 := computeAssignmentVectors 5 copyQap 4 (fun _ => (b : ℤ) % 2) zeroVec [] zeroVec

theorem copyInstance_honest (b : ℕ) : Honest 5 copyQap 4 (copyInstance b) where
  rows := by
    intro j h1 hj
    obtain rfl : j = 1 := le_antisymm hj h1
    rcases Nat.mod_two_eq_zero_or_one b with h | h
    all_goals
      have hb : (b : ℤ) % 2 = (b % 2 : ℕ) := (Int.natCast_mod b 2).symm
      rw [copyInstance, hb, h]
      decide
  f1_range := fun _ => by
    simp only [copyInstance]
    omega
  f2_eq := ⟨[], zeroVec, fun _ => ⟨le_rfl, by norm_num [zeroVec]⟩, rfl⟩

/-- With the point `2` the proofs of `w = 0` and `w = 1` are accepted. -/
theorem beginPepper_copyQap :
    beginPepper (P := seedPrng) copyParams (seedCrypto 2) (1 : ℤ) (7 : ℤ) copyInstance =
      some true := by
  have homega : generateRootOfUnity (fun _ => 2) 1 (2 ^ 1) (5 : ℕ) =
      some (4, Roots.powersOfOmega 2 4 5) := rfl
  have hsetup : copyParams.setup = Setup.init copyQap 4 (5 : ℕ) := rfl
  have hrun := beginPepper_complete hsetup le_rfl rfl (by decide) homega one_pos two_pos
    (by decide) (seedCrypto 2) (1 : ℤ) (7 : ℤ) fun b _ => copyInstance_honest b
  have hroot : ∀ rho < 2, ¬ AtRoot (P := seedPrng) 5 copyQap 4 1 (2 : ℤ) rho := by
    unfold AtRoot
    decide
  exact (hrun.resolve_right fun ⟨⟨rho, hrho, hat⟩, _⟩ => hroot rho hrho hat).2

end Pepper.Libv.ZaatarArgument
