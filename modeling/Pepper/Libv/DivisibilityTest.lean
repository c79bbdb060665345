import Pepper.Libv.Assignment

/-!
# The divisibility test

The verifier's side of one repetition: `storeTauIo` keeps the evaluations at the
constant, input and output wires, and `runInteractiveTests` checks the linearity of
the answers and the divisibility of the product polynomial. The two sides of the
latter check are values of polynomials at `tau` (`cast_divisibilityLhs`,
`cast_divisibilityRhs`).

`divisibilityTest_complete` accepts every honest proof, and
`divisibilityTest_sound` says that linear proofs accepted at more than `2 * chi`
points come from a satisfying assignment.
-/

set_option autoImplicit false

open Polynomial
open Pepper.Common.Gmp Pepper.Foundations.Loop Pepper.Foundations.RootInterpolation
open Pepper.Libv.QuadraticProgram Pepper.Libv.Queries Pepper.Libv.Evaluation
open Pepper.Libv.Assignment

namespace Pepper.Libv.DivisibilityTest

/-! ## The code -/

/-- Number of linearity queries of one iteration, `NUM_LIN_QUERIES`. -/
def numLinQueries : ℕ := 6

/-- `NUM_LIN_PCP_QUERIES`, for `numRepsLin` linearity iterations. -/
def numLinPcpQueries (numRepsLin : ℕ) : ℕ := numRepsLin * numLinQueries + 4

/-- First cell of repetition `rho` in `A_tau_io` and its siblings. -/
def tauIoBase (q : Qap) (rho : ℕ) : ℕ := rho * (1 + q.sizeInput + q.sizeOutput)

/-- The evaluations kept for repetition `rho`: the constant wire, then inputs and
outputs. -/
def storeTauIo (q : Qap) (rho : ℕ) (eval tauIo : Vec) : Vec :=
  let base := tauIoBase q rho
  forLoop (q.sizeInput + q.sizeOutput)
    (fun i v => Function.update v (base + 1 + i) (eval (1 + q.nPrime + i)))
    (Function.update tauIo (base + 0) (eval 0))

/-- `A_tau` and its siblings before the proof's answer is added. -/
def tauSum (q : Qap) (rho : ℕ) (input tauIo : Vec) : ℤ :=
  forLoop (q.sizeInput + q.sizeOutput)
    (fun i acc => acc + input i * tauIo (tauIoBase q rho + 1 + i)) (tauIo (tauIoBase q rho + 0))

/-- The answers the divisibility test reads. -/
structure DivAnswers where
  q1 : ℤ
  q4 : ℤ
  q7 : ℤ
  q8 : ℤ
  q9 : ℤ
  q10 : ℤ

/-- The cells of `f_answers` that belong to the divisibility test of repetition `rho`. -/
def readDivAnswers (numRepsLin rho : ℕ) (fAnswers : Vec) : DivAnswers where
  q1 := fAnswers (rho * numLinPcpQueries numRepsLin + 0)
  q4 := fAnswers (rho * numLinPcpQueries numRepsLin + 3)
  q7 := fAnswers (rho * numLinPcpQueries numRepsLin + (numLinQueries * numRepsLin + 0))
  q8 := fAnswers (rho * numLinPcpQueries numRepsLin + (numLinQueries * numRepsLin + 1))
  q9 := fAnswers (rho * numLinPcpQueries numRepsLin + (numLinQueries * numRepsLin + 2))
  q10 := fAnswers (rho * numLinPcpQueries numRepsLin + (numLinQueries * numRepsLin + 3))

/-- What the verifier keeps from query creation for its tests. -/
structure TauState where
  dStar : Vec
  aTauIo : Vec
  bTauIo : Vec
  cTauIo : Vec

/-- `lhs`. -/
def divisibilityLhs (prime : ℤ) (rho : ℕ) (t : TauState) (a : DivAnswers) : ℤ :=
  (a.q10 - a.q4) * t.dStar rho % prime

/-- `rhs`. -/
def divisibilityRhs (q : Qap) (prime : ℤ) (rho : ℕ) (input : Vec) (t : TauState)
    (a : DivAnswers) : ℤ :=
  let aTau := tauSum q rho input t.aTauIo + (a.q7 - a.q1)
  let bTau := tauSum q rho input t.bTauIo + (a.q8 - a.q1)
  let cTau := tauSum q rho input t.cTauIo + (a.q9 - a.q1)
  (aTau * bTau + cTau) % prime

/-- The divisibility correction test of one repetition. -/
def divisibilityTest (q : Qap) (prime : ℤ) (rho : ℕ) (input : Vec) (t : TauState)
    (a : DivAnswers) : Bool :=
  divisibilityLhs prime rho t a == divisibilityRhs q prime rho input t a

/-- `lin_test`. -/
def linTest (a1 a2 a3 prime : ℤ) : Bool := (a1 + a2) % prime == a3 % prime

/-- `run_interactive_tests`. -/
def runInteractiveTests (q : Qap) (prime : ℤ) (numRepetitions numRepsLin : ℕ) (input : Vec)
    (t : TauState) (fAnswers : Vec) : Bool :=
  forLoop numRepetitions
    (fun rho result =>
      let cell := fun k => fAnswers (rho * numLinPcpQueries numRepsLin + k)
      let lin := forLoop numRepsLin
        (fun i result =>
          let base := i * numLinQueries
          let lin1 := linTest (cell (base + 0)) (cell (base + 1)) (cell (base + 2)) prime
          let lin2 := linTest (cell (base + 3)) (cell (base + 4)) (cell (base + 5)) prime
          result && lin1 && lin2)
        result
      lin && divisibilityTest q prime rho input t (readDivAnswers numRepsLin rho fAnswers))
    true

/-- The state kept for repetition `rho` after the divisibility queries. -/
def TauState.store (t : TauState) (q : Qap) (rho : ℕ) (ev : PolyEval) : TauState where
  dStar := Function.update t.dStar rho ev.dStar
  aTauIo := storeTauIo q rho ev.evalPolyA t.aTauIo
  bTauIo := storeTauIo q rho ev.evalPolyB t.bTauIo
  cTauIo := storeTauIo q rho ev.evalPolyC t.cTauIo

/-- Integer dot products of the proof vectors with the queries and the two
self-correction vectors. -/
def linearAnswers (q : Qap) (qs : DivQueries) (corrQ corrQ2 f1 f2 : Vec) : DivAnswers where
  q1 := dotProduct q.sizeF1Vec corrQ f1
  q4 := dotProduct q.sizeF2Vec corrQ2 f2
  q7 := dotProduct q.sizeF1Vec qs.f1Q1 f1
  q8 := dotProduct q.sizeF1Vec qs.f1Q2 f1
  q9 := dotProduct q.sizeF1Vec qs.f1Q3 f1
  q10 := dotProduct q.sizeF2Vec qs.f2Q1 f2

@[simp] theorem TauState.store_dStar (t : TauState) (q : Qap) (rho : ℕ) (ev : PolyEval) :
    (t.store q rho ev).dStar rho = ev.dStar := Function.update_self _ _ _

/-! ## The two sides as polynomial values -/

theorem storeTauIo_const (q : Qap) (rho : ℕ) (eval tauIo : Vec) :
    storeTauIo q rho eval tauIo (tauIoBase q rho + 0) = eval 0 := by
  refine forLoop_induction (P := fun _ (v : Vec) => v (tauIoBase q rho + 0) = eval 0) ?_ ?_
  · exact Function.update_self _ _ _
  · intro i _ v hv
    rw [Function.update_of_ne (by omega), hv]

theorem storeTauIo_io (q : Qap) (rho : ℕ) (eval tauIo : Vec) {i : ℕ}
    (hi : i < q.sizeInput + q.sizeOutput) :
    storeTauIo q rho eval tauIo (tauIoBase q rho + 1 + i) = eval (1 + q.nPrime + i) := by
  refine forLoop_induction
    (P := fun k (v : Vec) =>
      ∀ j, j < k → v (tauIoBase q rho + 1 + j) = eval (1 + q.nPrime + j))
    (n := q.sizeInput + q.sizeOutput) ?_ ?_ i hi
  · intro j hj
    exact absurd hj (Nat.not_lt_zero j)
  · intro k _ v hv j hj
    by_cases hjk : j = k
    · rw [hjk, Function.update_self]
    · rw [Function.update_of_ne (by omega), hv j (by omega)]

section Prime

variable {p : ℕ} [Fact p.Prime] {q : Qap} {omega : ℤ}

theorem cast_tauSum (rho : ℕ) (io eval tauIo : Vec) :
    (tauSum q rho io (storeTauIo q rho eval tauIo) : ZMod p) =
      eval 0 + ∑ i ∈ Finset.range (q.sizeInput + q.sizeOutput),
        (io i : ZMod p) * eval (1 + q.nPrime + i) := by
  rw [tauSum, forLoop_add, Int.cast_add, storeTauIo_const, Int.cast_sum]
  congr 1
  apply Finset.sum_congr rfl
  intro i hi
  rw [Int.cast_mul, storeTauIo_io q rho eval tauIo (Finset.mem_range.1 hi)]

/-- Constant, proof and io wires make up all wires. -/
theorem sum_wire_split (f1 io : Vec) (g : ℕ → ZMod p) :
    ∑ i ∈ Finset.range (q.n + 1), (q.wire f1 io i : ZMod p) * g i =
      g 0 + ∑ i ∈ Finset.range (q.sizeInput + q.sizeOutput), (io i : ZMod p) * g (1 + q.nPrime + i) +
        ∑ i ∈ Finset.range q.nPrime, (f1 i : ZMod p) * g (i + 1) := by
  have hn : q.n = q.nPrime + (q.sizeInput + q.sizeOutput) := by
    rw [Qap.n, Nat.add_assoc]
  rw [Finset.sum_range_succ', hn, Finset.sum_range_add]
  have hzero : (q.wire f1 io 0 : ZMod p) = 1 := by simp [Qap.wire]
  have hproof : ∑ i ∈ Finset.range q.nPrime, (q.wire f1 io (i + 1) : ZMod p) * g (i + 1) =
      ∑ i ∈ Finset.range q.nPrime, (f1 i : ZMod p) * g (i + 1) := by
    apply Finset.sum_congr rfl
    intro i hi
    have hle : i + 1 ≤ q.nPrime := Finset.mem_range.1 hi
    rw [Qap.wire, if_neg (Nat.succ_ne_zero i), if_pos hle, Nat.add_sub_cancel]
  have hio : ∑ i ∈ Finset.range (q.sizeInput + q.sizeOutput),
      (q.wire f1 io (q.nPrime + i + 1) : ZMod p) * g (q.nPrime + i + 1) =
      ∑ i ∈ Finset.range (q.sizeInput + q.sizeOutput), (io i : ZMod p) * g (1 + q.nPrime + i) := by
    apply Finset.sum_congr rfl
    intro i _
    have hgt : ¬q.nPrime + i + 1 ≤ q.nPrime := by omega
    have hidx : q.nPrime + i + 1 - 1 - q.nPrime = i := by omega
    have hcell : q.nPrime + i + 1 = 1 + q.nPrime + i := by omega
    rw [Qap.wire, if_neg (Nat.succ_ne_zero _), if_neg hgt, hidx, hcell]
  rw [hzero, hproof, hio]
  ring

/-- A row polynomial at `tau`, from what the verifier stores and what the proof answers. -/
theorem cast_tauSum_add_answer {tau lTau : ℤ}
    (hω : IsPrimitiveRoot (omega : ZMod p) q.sizeF2Vec) (htau : (tau : ZMod p) ^ q.sizeF2Vec ≠ 1)
    (hl : evalLTau (Setup.init q omega p) tau = some lTau) (poly : List PolyCompressed)
    (hpoly : ∀ e ∈ poly, e.InRange q.n q.chi) (rho : ℕ) (f1 io corrQ old tauIo : Vec) :
    ((tauSum q rho io (storeTauIo q rho
          (evalMatrix (Setup.init q omega p) tau lTau poly zeroVec) tauIo) +
        (dotProduct q.sizeF1Vec (selfCorrect q.sizeF1Vec p
            (evalMatrix (Setup.init q omega p) tau lTau poly zeroVec) corrQ old) f1 -
          dotProduct q.sizeF1Vec corrQ f1) : ℤ) : ZMod p) =
      (rowPoly (omega : ZMod p) q.sizeF2Vec fun j =>
        (rowValue poly (q.wire f1 io) j : ZMod p)).eval (tau : ZMod p) := by
  rw [Int.cast_add, cast_tauSum, cast_selfCorrect_dot,
    ← sum_wire_mul_evalMatrix hω htau hl poly hpoly (q.wire f1 io), sum_wire_split f1 io]
  rfl

/-- The row polynomial of a program under an assignment. -/
noncomputable def assignmentExpr (p : ℕ) [Fact p.Prime] (q : Qap) (omega : ℤ) (f1 io : Vec) :
    (ZMod p)[X] :=
  rowExpr (omega : ZMod p) q.sizeF2Vec
    (fun j => (rowValue q.polyA (q.wire f1 io) j : ZMod p))
    (fun j => (rowValue q.polyB (q.wire f1 io) j : ZMod p))
    (fun j => (rowValue q.polyC (q.wire f1 io) j : ZMod p))

/-- The second proof vector read as a polynomial. -/
noncomputable def proofPoly (p : ℕ) [Fact p.Prime] (q : Qap) (f2 : Vec) : (ZMod p)[X] :=
  ∑ i ∈ Finset.range q.sizeF2Vec, C (f2 i : ZMod p) * X ^ i

theorem divisibilityLhs_range (rho : ℕ) (t : TauState) (a : DivAnswers) :
    0 ≤ divisibilityLhs p rho t a ∧ divisibilityLhs p rho t a < p := emod_range _

theorem divisibilityRhs_range (rho : ℕ) (io : Vec) (t : TauState) (a : DivAnswers) :
    0 ≤ divisibilityRhs q p rho io t a ∧ divisibilityRhs q p rho io t a < p := emod_range _

/-- The left side is the value of the proof polynomial times the divisor. -/
theorem cast_divisibilityLhs {tau : ℤ} {ev : PolyEval}
    (hω : IsPrimitiveRoot (omega : ZMod p) q.sizeF2Vec) (htau : (tau : ZMod p) ^ q.sizeF2Vec ≠ 1)
    (hev : evaluatePolynomialAt (Setup.init q omega p) tau = some ev) (rho : ℕ)
    (f1 f2 corrQ corrQ2 : Vec) (old : DivQueries) (t : TauState) :
    (divisibilityLhs p rho (t.store q rho ev)
        (linearAnswers q (divQueriesAt (Setup.init q omega p) tau ev corrQ corrQ2 old)
          corrQ corrQ2 f1 f2) : ZMod p) =
      (proofPoly p q f2 * rowDivisor (omega : ZMod p) q.sizeF2Vec).eval (tau : ZMod p) := by
  obtain ⟨lTau, hl, -⟩ := evalLTau_eq_some hω htau
  rw [evaluatePolynomialAt, hl, Option.map_some, Option.some_inj] at hev
  subst hev
  have hproof : (proofPoly p q f2).eval (tau : ZMod p) =
      ∑ i ∈ Finset.range q.sizeF2Vec, (f2 i : ZMod p) * (tau : ZMod p) ^ i := by
    simp [proofPoly, eval_finsetSum]
  have hdStar := cast_dStar hω htau hl
  rw [divisibilityLhs, ZMod.intCast_mod, Int.cast_mul, eval_mul, hproof, TauState.store_dStar]
  exact congrArg₂ (· * ·)
    (cast_f2Q1_dot (Setup.init q omega p) rfl tau _ corrQ corrQ2 old f2) hdStar

/-- The right side is the value of the row polynomial of the assignment. -/
theorem cast_divisibilityRhs {tau : ℤ} {ev : PolyEval}
    (hω : IsPrimitiveRoot (omega : ZMod p) q.sizeF2Vec) (htau : (tau : ZMod p) ^ q.sizeF2Vec ≠ 1)
    (hev : evaluatePolynomialAt (Setup.init q omega p) tau = some ev) (rho : ℕ)
    (f1 f2 io corrQ corrQ2 : Vec) (old : DivQueries) (t : TauState) :
    (divisibilityRhs q p rho io (t.store q rho ev)
        (linearAnswers q (divQueriesAt (Setup.init q omega p) tau ev corrQ corrQ2 old)
          corrQ corrQ2 f1 f2) : ZMod p) =
      (assignmentExpr p q omega f1 io).eval (tau : ZMod p) := by
  obtain ⟨lTau, hl, -⟩ := evalLTau_eq_some hω htau
  rw [evaluatePolynomialAt, hl, Option.map_some, Option.some_inj] at hev
  subst hev
  have hA := cast_tauSum_add_answer hω htau hl q.polyA q.polyA_inRange rho f1 io corrQ old.f1Q1
    t.aTauIo
  have hB := cast_tauSum_add_answer hω htau hl q.polyB q.polyB_inRange rho f1 io corrQ old.f1Q2
    t.bTauIo
  have hC := cast_tauSum_add_answer hω htau hl q.polyC q.polyC_inRange rho f1 io corrQ old.f1Q3
    t.cTauIo
  rw [divisibilityRhs, ZMod.intCast_mod, Int.cast_add, Int.cast_mul, assignmentExpr, rowExpr,
    eval_add, eval_mul]
  exact congrArg₂ (· + ·) (congrArg₂ (· * ·) hA hB) hC

/-- Acceptance of any linear proof is a polynomial identity at `tau`. -/
theorem divisibilityTest_iff {tau : ℤ} {ev : PolyEval}
    (hω : IsPrimitiveRoot (omega : ZMod p) q.sizeF2Vec) (htau : (tau : ZMod p) ^ q.sizeF2Vec ≠ 1)
    (hev : evaluatePolynomialAt (Setup.init q omega p) tau = some ev) (rho : ℕ)
    (f1 f2 io corrQ corrQ2 : Vec) (old : DivQueries) (t : TauState) :
    divisibilityTest q p rho io (t.store q rho ev)
        (linearAnswers q (divQueriesAt (Setup.init q omega p) tau ev corrQ corrQ2 old)
          corrQ corrQ2 f1 f2) = true ↔
      (assignmentExpr p q omega f1 io).eval (tau : ZMod p) =
        (proofPoly p q f2 * rowDivisor (omega : ZMod p) q.sizeF2Vec).eval (tau : ZMod p) := by
  rw [divisibilityTest, beq_iff_eq, eq_iff_cast_eq (divisibilityLhs_range _ _ _) (divisibilityRhs_range _ _ _ _),
   
    cast_divisibilityLhs hω htau hev, cast_divisibilityRhs hω htau hev]
  exact eq_comm

/-- Away from the roots of unity the evaluation ends normally. -/
theorem evaluatePolynomialAt_isSome {tau : ℤ}
    (hω : IsPrimitiveRoot (omega : ZMod p) q.sizeF2Vec) (htau : (tau : ZMod p) ^ q.sizeF2Vec ≠ 1) :
    ∃ ev, evaluatePolynomialAt (Setup.init q omega p) tau = some ev := by
  obtain ⟨lTau, hl, -⟩ := evalLTau_eq_some hω htau
  rw [evaluatePolynomialAt, hl]
  exact ⟨_, rfl⟩

theorem createDivCorrTestQueries_cases {P : Prng} {s : Setup} {crypto : Crypto P}
    {con : Option ConState} {fill1 fill2 : ℤ} {corrQ corrQ2 : Vec} {old : DivQueries}
    {st : DivState P}
    (h : createDivCorrTestQueries s crypto con fill1 fill2 corrQ corrQ2 old = some st) :
    evaluatePolynomialAt s (drawnTau crypto s.prime) = some st.eval ∧
      st.queries = divQueriesAt s (drawnTau crypto s.prime) st.eval corrQ corrQ2 old := by
  rw [createDivCorrTestQueries_eq] at h
  obtain ⟨ev, hev, rfl⟩ := Option.map_eq_some_iff.1 h
  exact ⟨hev, rfl⟩

/-! ## Completeness and soundness -/

/-- The acceptance of a proof `f1`, `f2` by the divisibility test of one repetition, with
the queries that `create_div_corr_test_queries` builds from the given streams. -/
def AcceptsRun {P : Prng} (q : Qap) (omega prime : ℤ) (f1 f2 io : Vec) (rho : ℕ)
    (crypto : Crypto P) (con : Option ConState) (fill1 fill2 : ℤ) (corrQ corrQ2 : Vec)
    (old : DivQueries) (t : TauState) : Prop :=
  ∃ st, createDivCorrTestQueries (Setup.init q omega prime) crypto con fill1 fill2 corrQ corrQ2
      old = some st ∧
    divisibilityTest q prime rho io (t.store q rho st.eval)
      (linearAnswers q st.queries corrQ corrQ2 f1 f2) = true

theorem acceptsRun_iff {P : Prng} (hω : IsPrimitiveRoot (omega : ZMod p) q.sizeF2Vec)
    (f1 f2 io : Vec) (rho : ℕ) (crypto : Crypto P) (con : Option ConState) (fill1 fill2 : ℤ)
    (corrQ corrQ2 : Vec) (old : DivQueries) (t : TauState)
    (htau : ((drawnTau crypto p : ℤ) : ZMod p) ^ q.sizeF2Vec ≠ 1) :
    AcceptsRun q omega p f1 f2 io rho crypto con fill1 fill2 corrQ corrQ2 old t ↔
      (assignmentExpr p q omega f1 io).eval ((drawnTau crypto p : ℤ) : ZMod p) =
        (proofPoly p q f2 * rowDivisor (omega : ZMod p) q.sizeF2Vec).eval
          ((drawnTau crypto p : ℤ) : ZMod p) := by
  constructor
  · rintro ⟨st, hst, htest⟩
    obtain ⟨hev, hqueries⟩ := createDivCorrTestQueries_cases hst
    rw [hqueries] at htest
    exact (divisibilityTest_iff hω htau hev rho f1 f2 io corrQ corrQ2 old t).1 htest
  · intro heval
    obtain ⟨ev, hev⟩ := evaluatePolynomialAt_isSome hω htau
    refine ⟨_, (createDivCorrTestQueries_eq _ crypto con fill1 fill2 corrQ corrQ2 old).trans
      (congrArg _ hev), ?_⟩
    exact (divisibilityTest_iff hω htau hev rho f1 f2 io corrQ corrQ2 old t).2 heval

/-! ### Small programs

One variable and one row, `w * 1 - w = 0`, over the field with five elements, where
`4` is the square root of one other than `1`; and a program with three rows, an input and an
output over the field with thirteen elements, where `5` is a fourth root of one. -/

/-- The field used by the instances below. -/
instance fact_prime_five : Fact (Nat.Prime 5) := ⟨by norm_num⟩

/-- The program with the single row `w * 1 - w = 0`. -/
def copyQap : Qap where
  nPrime := 1
  sizeInput := 0
  sizeOutput := 0
  chi := 1
  polyA := [⟨1, 1, 1⟩]
  polyB := [⟨0, 1, 1⟩]
  polyC := [⟨1, 1, -1⟩]
  sizeF2_int := by norm_num
  polyA_inRange := by decide
  polyB_inRange := by decide
  polyC_inRange := by decide

theorem isPrimitiveRoot_four : IsPrimitiveRoot ((4 : ℤ) : ZMod 5) copyQap.sizeF2Vec := by
  apply IsPrimitiveRoot.mk_of_lt
  · decide
  · decide
  · intro l hl hl2
    obtain rfl : l = 1 := by
      have hsize : copyQap.sizeF2Vec = 2 := rfl
      omega
    decide

/-- The field of the program with an input and an output. -/
instance fact_prime_thirteen : Fact (Nat.Prime 13) := ⟨by norm_num⟩

/-- The rows `x * x - v = 0`, `v * x - w = 0` and `(w + x) * 1 - y = 0` for the variables `v`
and `w`, the input `x` and the output `y`. -/
def cubeQap : Qap where
  nPrime := 2
  sizeInput := 1
  sizeOutput := 1
  chi := 3
  polyA := [⟨3, 1, 1⟩, ⟨1, 2, 1⟩, ⟨2, 3, 1⟩, ⟨3, 3, 1⟩]
  polyB := [⟨3, 1, 1⟩, ⟨3, 2, 1⟩, ⟨0, 3, 1⟩]
  polyC := [⟨1, 1, -1⟩, ⟨2, 2, -1⟩, ⟨4, 3, -1⟩]
  sizeF2_int := by norm_num
  polyA_inRange := by decide
  polyB_inRange := by decide
  polyC_inRange := by decide

theorem isPrimitiveRoot_five : IsPrimitiveRoot ((5 : ℤ) : ZMod 13) cubeQap.sizeF2Vec := by
  apply IsPrimitiveRoot.mk_of_lt
  · decide
  · decide
  · intro l hl hl4
    have hsize : cubeQap.sizeF2Vec = 4 := rfl
    rw [hsize] at hl4
    interval_cases l <;> decide

/-- A block with the given first cells. -/
def cells (l : List ℤ) : Vec := fun i => l.getD i 0

/-- A stream that repeats its seed. -/
def seedPrng : Prng where
  State := ℤ
  getRandom := fun seed n => (seed % n, seed)
  getRandomb := fun seed nbits => (seed % 2 ^ nbits, seed)
  getRandom_range := fun seed _ hn => ⟨Int.emod_nonneg seed hn.ne', Int.emod_lt_of_pos seed hn⟩
  getRandomb_range := fun seed _ =>
    ⟨Int.emod_nonneg seed (by positivity), Int.emod_lt_of_pos seed (by positivity)⟩

/-- Both streams with the same seed. -/
def seedCrypto (seed : ℤ) : Crypto seedPrng := ⟨seed, seed⟩

/-- Cleared query blocks. -/
def clearedQueries : DivQueries := ⟨zeroVec, zeroVec, zeroVec, zeroVec⟩

/-- Cleared test state. -/
def clearedTauState : TauState := ⟨zeroVec, zeroVec, zeroVec, zeroVec⟩

/-! ### The theorems -/

/-- Completeness: the proof that `compute_assignment_vectors` makes from a satisfying
assignment passes the divisibility test at every point outside the roots of unity,
whatever the self-correction queries. -/
theorem divisibilityTest_complete {P : Prng} (q : Qap) {m : ℕ} (hm : 1 ≤ m)
    (hchi : q.chi + 1 = 2 ^ m) {omega : ℤ}
    (hω : IsPrimitiveRoot (omega : ZMod p) q.sizeF2Vec) (f1 io : Vec)
    (hrows : ∀ j, 1 ≤ j → j ≤ q.chi → q.SatisfiesRow f1 io p j) (oldH : List (ZMod p))
    (oldF2 : Vec) (rho : ℕ) (crypto : Crypto P) (con : Option ConState) (fill1 fill2 : ℤ)
    (corrQ corrQ2 : Vec) (old : DivQueries) (t : TauState)
    (htau : ((drawnTau crypto p : ℤ) : ZMod p) ^ q.sizeF2Vec ≠ 1) :
    AcceptsRun q omega p f1 (computeAssignmentVectors p q omega f1 io oldH oldF2) io rho crypto
      con fill1 fill2 corrQ corrQ2 old t := by
  rw [acceptsRun_iff hω _ _ _ _ _ _ _ _ _ _ _ _ htau]
  obtain ⟨H, hH, hF2⟩ := computeAssignmentVectors_spec q hm hchi hω f1 io hrows oldH oldF2
  have hdeg : H.natDegree < q.sizeF2Vec := natDegree_quotient_lt (Nat.succ_pos q.chi) hω hH
  have hpoly : proofPoly p q (computeAssignmentVectors p q omega f1 io oldH oldF2) = H := by
    conv_rhs => rw [H.as_sum_range' q.sizeF2Vec hdeg]
    apply Finset.sum_congr rfl
    intro i hi
    rw [hF2 i (Finset.mem_range.1 hi), C_mul_X_pow_eq_monomial]
  rw [hpoly, assignmentExpr, hH]

/-- The proof of `2 ^ 3 + 2 = 10` is accepted at the point `2`, with the input `2` and the
output `10`. -/
theorem cubeQap_accepts_two :
    AcceptsRun cubeQap 5 (13 : ℕ) (cells [4, 8])
      (computeAssignmentVectors 13 cubeQap 5 (cells [4, 8]) (cells [2, 10]) [] zeroVec)
      (cells [2, 10]) 1 (seedCrypto 2) none 0 0 (cells [3, 11]) (cells [1, 7, 9, 12])
      clearedQueries clearedTauState := by
  refine divisibilityTest_complete cubeQap (m := 2) (by decide) rfl isPrimitiveRoot_five _ _ ?_
    [] zeroVec 1 (seedCrypto 2) none 0 0 (cells [3, 11]) (cells [1, 7, 9, 12]) clearedQueries
    clearedTauState (by decide)
  intro j h1 hj
  have hchi : cubeQap.chi = 3 := rfl
  rw [hchi] at hj
  interval_cases j <;> decide

/-- Soundness for linear proofs: acceptance at more than `2 * chi` points outside the
roots of unity forces every row. -/
theorem divisibilityTest_sound {P : Prng} (q : Qap) {omega : ℤ}
    (hω : IsPrimitiveRoot (omega : ZMod p) q.sizeF2Vec) (f1 f2 io : Vec) (taus : Finset ℤ)
    (hcard : 2 * q.chi < taus.card)
    (haccepts : ∀ tau ∈ taus, (tau : ZMod p) ^ q.sizeF2Vec ≠ 1 ∧
      ∃ (rho : ℕ) (crypto : Crypto P) (con : Option ConState) (fill1 fill2 : ℤ)
        (corrQ corrQ2 : Vec) (old : DivQueries) (t : TauState),
        drawnTau crypto p = tau ∧
          AcceptsRun q omega p f1 f2 io rho crypto con fill1 fill2 corrQ corrQ2 old t)
    {j : ℕ} (hj : 1 ≤ j) (hjchi : j ≤ q.chi) : q.SatisfiesRow f1 io p j := by
  have hpos : (0 : ℤ) < p := by exact_mod_cast (Fact.out : p.Prime).pos
  -- the points are drawn below the prime, so they stay apart as residues
  have hrange : ∀ tau ∈ taus, 0 ≤ tau ∧ tau < p := by
    intro tau htau
    obtain ⟨_, rho, crypto, con, fill1, fill2, corrQ, corrQ2, old, t, hdraw, _⟩ :=
      haccepts tau htau
    rw [← hdraw]
    exact P.getRandom_range crypto.pub p hpos
  have hpoints : 2 * (q.sizeF2Vec - 1) < (taus.image fun tau : ℤ => (tau : ZMod p)).card := by
    rw [Finset.card_image_of_injOn]
    · exact hcard
    · intro a ha b hb hab
      exact (eq_iff_cast_eq (hrange a ha) (hrange b hb)).2 hab
  -- the proof vector has as many coefficients as there are rows
  have hdeg : (proofPoly p q f2).natDegree < q.sizeF2Vec := by
    refine Nat.lt_succ_of_le (natDegree_sum_le_of_forall_le _ _ ?_)
    intro i hi
    exact (natDegree_C_mul_X_pow_le _ _).trans (Nat.le_of_lt_succ (Finset.mem_range.1 hi))
  -- more points than the degree of either side: the identity holds everywhere
  have hidentity := eq_mul_rowDivisor_of_points (Nat.succ_pos q.chi) hω hdeg
    (taus.image fun tau : ℤ => (tau : ZMod p)) hpoints (a := fun j =>
      (rowValue q.polyA (q.wire f1 io) j : ZMod p)) (b := fun j =>
      (rowValue q.polyB (q.wire f1 io) j : ZMod p)) (c := fun j =>
      (rowValue q.polyC (q.wire f1 io) j : ZMod p)) ?_
  · rw [satisfiesRow_iff_cast]
    exact rows_of_mul_rowDivisor hω hidentity hj (Nat.lt_succ_of_le hjchi)
  · intro x hx
    obtain ⟨tau, htau, rfl⟩ := Finset.mem_image.1 hx
    obtain ⟨hroot, rho, crypto, con, fill1, fill2, corrQ, corrQ2, old, t, rfl, haccept⟩ :=
      haccepts tau htau
    exact (acceptsRun_iff hω f1 f2 io rho crypto con fill1 fill2 corrQ corrQ2 old t hroot).1
      haccept

theorem assignmentExpr_copyQap_zero : assignmentExpr 5 copyQap 4 zeroVec zeroVec = 0 := by
  -- an entry of wire `1` contributes nothing under the zero assignment
  have hrow : ∀ c : ℤ, (fun j => (rowValue [⟨1, 1, c⟩] (copyQap.wire zeroVec zeroVec) j : ZMod 5)) =
      0 := by
    intro c
    have hwire : copyQap.wire zeroVec zeroVec 1 = 0 := by decide
    funext j
    by_cases hj : 1 = j
    · simp [rowValue, hj.symm, hwire]
    · simp [rowValue, hj]
  have hA : rowPoly ((4 : ℤ) : ZMod 5) copyQap.sizeF2Vec (fun j =>
      (rowValue copyQap.polyA (copyQap.wire zeroVec zeroVec) j : ZMod 5)) = 0 := by
    rw [rowPoly]
    exact (congrArg _ (hrow 1)).trans (map_zero _)
  have hC : rowPoly ((4 : ℤ) : ZMod 5) copyQap.sizeF2Vec (fun j =>
      (rowValue copyQap.polyC (copyQap.wire zeroVec zeroVec) j : ZMod 5)) = 0 := by
    rw [rowPoly]
    exact (congrArg _ (hrow (-1))).trans (map_zero _)
  rw [assignmentExpr, rowExpr, hA, hC, zero_mul, add_zero]

/-- The zero proof of the zero assignment, accepted at the three points that are not
square roots of one. -/
theorem copyQap_zero_row : copyQap.SatisfiesRow zeroVec zeroVec (5 : ℕ) 1 := by
  refine divisibilityTest_sound (P := seedPrng) copyQap isPrimitiveRoot_four zeroVec zeroVec
    zeroVec {0, 2, 3} (by decide) ?_ le_rfl le_rfl
  intro tau htau
  have hroot : ((tau : ℤ) : ZMod 5) ^ copyQap.sizeF2Vec ≠ 1 ∧
      drawnTau (seedCrypto tau) (5 : ℕ) = tau := by
    simp only [Finset.mem_insert, Finset.mem_singleton] at htau
    rcases htau with rfl | rfl | rfl <;> decide
  refine ⟨hroot.1, 0, seedCrypto tau, none, 0, 0, zeroVec, zeroVec, clearedQueries,
    clearedTauState, hroot.2, ?_⟩
  rw [acceptsRun_iff isPrimitiveRoot_four _ _ _ _ _ _ _ _ _ _ _ _ (hroot.2.symm ▸ hroot.1),
    assignmentExpr_copyQap_zero]
  simp [proofPoly, zeroVec]

end Prime

end Pepper.Libv.DivisibilityTest
