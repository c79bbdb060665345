import Pepper.AppsTailored.LinearityTests

/-!
# Matrix multiplication with a cubic proof vector

The proof vector of `matrix_cubicp` holds the products `A[i][k] * B[k][j]`. The verifier computes the
inner product of an outer product of its own with them from the matrices (`corrAnswer`), and compares
it with what the proof answers; the circuit test adds the products of each entry up.

`matrixCubic_complete`: what the prover computes is accepted. `matrixCubic_sound`: for matrices with
another product than `C`, any vector is accepted by at most two in `p` of the draws of a repetition.
-/

set_option autoImplicit false

open Pepper.Common.Gmp Pepper.Foundations.Loop Pepper.Foundations.LinearPcp
open Pepper.Libv.Queries Pepper.Libv.Evaluation Pepper.Libv.GingerTests Pepper.Libv.LinearProofs

namespace Pepper.AppsTailored.MatrixCubic

/-! ## The prover -/

/-- `computation_matrixmult`. -/
def computationMatrixmult (m : ℕ) (A B C : Vec) : Vec :=
  forLoop m (fun i C => forLoop m (fun j C =>
    forLoop m (fun k C =>
      Function.update C (i * m + j) (C (i * m + j) + A (i * m + k) * B (k * m + j)))
      (Function.update C (i * m + j) 0)) C) C

/-- `computation_assignment`. -/
def computationAssignment (m : ℕ) (A B : Vec) (prime : ℤ) (F1 : Vec) : Vec :=
  forLoop m (fun i F1 => forLoop m (fun j F1 => forLoop m (fun k F1 =>
    Function.update F1 ((i * m + j) * m + k) (A (i * m + k) * B (k * m + j) % prime)) F1) F1) F1

/-! ## Queries -/

/-- The random choices of one repetition. -/
structure Coins where
  lin : LinCoins
  q1 : Vec
  q2 : Vec
  gamma : Vec
deriving Inhabited

/-- `create_corr_test_queries_vproduct`, from two queries that have been drawn. -/
def createCorrTestQueriesVproduct (m : ℕ) (f1Q1 f1Q2 fQ2 : Vec) (prime : ℤ) (fQ1 : Vec) : Vec :=
  forLoop m (fun i fQ1 => forLoop m (fun j fQ1 => forLoop m (fun k fQ1 =>
    Function.update fQ1 ((i * m + j) * m + k)
      ((f1Q1 (i * m + k) * f1Q2 (k * m + j) + fQ2 ((i * m + j) * m + k)) % prime)) fQ1) fQ1) fQ1

/-- The circuit query: the weight of an entry in the cells of its products. -/
def gammaQuery (m : ℕ) (gamma : Vec) (prime : ℤ) : Vec :=
  let sums := forLoop m (fun i q => forLoop m (fun j q => forLoop m (fun k q =>
    Function.update q ((i * m + j) * m + k) (q ((i * m + j) * m + k) + gamma (i * m + j))) q) q)
    zeroVec
  forLoop (m * m * m) (fun i q => Function.update q i (q i % prime)) sums

/-- The answer to the correction query that the verifier computes from the matrices. -/
def corrAnswer (m : ℕ) (q1 q2 : Vec) (prime : ℤ) (A B : Vec) : ℤ :=
  forLoop m (fun k a3 =>
    let a1 := forLoop m (fun j a1 => a1 + A (j * m + k) * q1 (j * m + k)) 0
    let a2 := forLoop m (fun i a2 => a2 + B (k * m + i) * q2 (k * m + i)) 0
    (a3 + a1 * a2) % prime) 0

/-- The constant of the circuit test. -/
def cValue (m : ℕ) (gamma C : Vec) : ℤ := forLoop (m * m) (fun j c => c + -gamma j * C j) 0

/-! ## The tests -/

/-- The queries `Q4`, ..., `Q7`; the first two are never asked. -/
def numDivQueries : ℕ := 4

/-- The answers to `Q4`, ..., `Q7`. -/
def testAnswer (m : ℕ) (prime : ℤ) (F1 : Vec) (s : Coins) : ℕ → ℤ
  | 2 => dotProduct (m * m * m)
      (createCorrTestQueriesVproduct m s.q1 s.q2 (s.lin.l1 0 0) prime zeroVec) F1
  | 3 => dotProduct (m * m * m)
      (createCktTestQueries (m * m * m) (gammaQuery m s.gamma prime) (s.lin.l1 0 0) prime zeroVec)
      F1
  | _ => 0

/-- The proof `F1`. -/
def cubicProof (m : ℕ) (F1 : Vec) : Proof := ⟨fun _ => m * m * m, fun _ => F1⟩

/-- The answers of the prover to the queries of all repetitions. -/
def answers (m numRepsLin : ℕ) (prime : ℤ) (F1 : Vec) (coins : ℕ → Coins) : Vec :=
  batchAnswers 1 numRepsLin numDivQueries (cubicProof m F1) (fun rho => (coins rho).lin)
    fun rho => testAnswer m prime F1 (coins rho)

/-- One repetition of `run_correction_and_circuit_tests`. -/
def runRepetition (numRepsLin : ℕ) (answers : Vec) (ans cValue prime : ℤ) (result : Bool) : Bool :=
  let result := forLoop numRepsLin (fun i result => result && linTests 1 i answers prime) result
  let q4 := numRepsLin * numLinQueries 1
  let cor1 := corrTest ans 1 (answers (q4 + 2)) (answers 0) prime
  let ckt2 := cktTest 2 (cktAnswers (q4 + 3) answers) cValue prime
  result && cor1 && ckt2

/-- `run_correction_and_circuit_tests` for one instance. -/
def runCorrectionAndCircuitTests (numRepetitions numRepsLin : ℕ)
    (fAnswers corrAnswers cValues : Vec) (prime : ℤ) : Bool :=
  forLoop numRepetitions (fun rho result =>
    runRepetition numRepsLin
      (fun k => fAnswers (rho * numLinPcpQueries 1 numRepsLin numDivQueries + k))
      (corrAnswers rho) (cValues rho) prime result) true

/-- The verdict on the proof `F1` that the product of `A` and `B` is `C`. -/
def verdict (m numRepetitions numRepsLin : ℕ) (prime : ℤ) (A B C F1 : Vec) (coins : ℕ → Coins) :
    Bool :=
  runCorrectionAndCircuitTests numRepetitions numRepsLin (answers m numRepsLin prime F1 coins)
    (fun rho => corrAnswer m (coins rho).q1 (coins rho).q2 prime A B)
    (fun rho => cValue m (coins rho).gamma C) prime

/-! ## Cells of a cube -/

section Cube

variable {m : ℕ}

/-- A loop over the cells of a cube, each rewritten from its own old value. -/
theorem forLoop_cube (f : ℕ → ℕ → ℕ → ℤ → ℤ) (a : Vec) (x : ℕ) :
    forLoop m (fun i b => forLoop m (fun j b => forLoop m (fun k b =>
        Function.update b ((i * m + j) * m + k) (f i j k (b ((i * m + j) * m + k)))) b) b) a x =
      if x < m * m * m then f (x / m / m) (x / m % m) (x % m) (a x) else a x := by
  let body : ℕ → Vec → Vec := fun x b =>
    Function.update b x (f (x / m / m) (x / m % m) (x % m) (b x))
  have hcells : forLoop m (fun i b => forLoop m (fun j b => forLoop m (fun k b =>
        Function.update b ((i * m + j) * m + k) (f i j k (b ((i * m + j) * m + k)))) b) b) a =
      forLoop (m * m * m) body a := by
    rw [← forLoop_nested (m * m) m body, ← forLoop_nested m m]
    refine forLoop_congr fun i _ b => forLoop_congr fun j hj b => forLoop_congr fun k hk b => ?_
    change _ = Function.update b _ _
    rw [block_div hk, Nat.mul_add_mod_of_lt hk, block_div hj, Nat.mul_add_mod_of_lt hj]
  rw [hcells]
  exact forLoop_update_apply (m * m * m) (fun x => f (x / m / m) (x / m % m) (x % m)) a x

theorem cube_lt {i j k : ℕ} (hi : i < m) (hj : j < m) (hk : k < m) :
    (i * m + j) * m + k < m * m * m := block_lt (block_lt hi hj) hk

end Cube

/-! ## Values modulo the prime -/

section Values

variable {m p : ℕ}

/-- The entry of the product in row `i` and column `j`. -/
def productEntry (p m : ℕ) (A B : Vec) (i j : ℕ) : ZMod p :=
  ∑ k ∈ Finset.range m, (A (i * m + k) : ZMod p) * B (k * m + j)

/-- What a cell of the proof lacks of its product. -/
def cellError (p m : ℕ) (A B F1 : Vec) (i j k : ℕ) : ZMod p :=
  (A (i * m + k) : ZMod p) * B (k * m + j) - F1 ((i * m + j) * m + k)

theorem sum_cube (f : ℕ → ZMod p) :
    ∑ x ∈ Finset.range (m * m * m), f x =
      ∑ i ∈ Finset.range m, ∑ j ∈ Finset.range m, ∑ k ∈ Finset.range m,
        f ((i * m + j) * m + k) := by
  rw [sum_cells, sum_cells]

theorem cast_corrAnswer (q1 q2 A B : Vec) :
    (corrAnswer m q1 q2 p A B : ZMod p) =
      ∑ k ∈ Finset.range m, (∑ j ∈ Finset.range m, (A (j * m + k) : ZMod p) * q1 (j * m + k)) *
        ∑ i ∈ Finset.range m, (B (k * m + i) : ZMod p) * q2 (k * m + i) := by
  refine forLoop_induction (P := fun n (a3 : ℤ) => (a3 : ZMod p) = ∑ k ∈ Finset.range n,
    (∑ j ∈ Finset.range m, (A (j * m + k) : ZMod p) * q1 (j * m + k)) *
      ∑ i ∈ Finset.range m, (B (k * m + i) : ZMod p) * q2 (k * m + i)) (by simp) ?_
  intro k _ a3 ha3
  rw [Finset.sum_range_succ, ← ha3, forLoop_add, forLoop_add, ZMod.intCast_mod]
  push_cast
  rw [zero_add, zero_add]

theorem cast_cValue (gamma C : Vec) :
    (cValue m gamma C : ZMod p) = ∑ z ∈ Finset.range (m * m), (gamma z : ZMod p) * -C z := by
  rw [cValue, forLoop_add, zero_add, Int.cast_sum]
  refine Finset.sum_congr rfl fun z _ => ?_
  push_cast
  ring

variable [Fact p.Prime]

/-- The query of the correction test against any vector. -/
theorem cast_vproduct_dot (q1 q2 r F1 : Vec) :
    (dotProduct (m * m * m) (createCorrTestQueriesVproduct m q1 q2 r p zeroVec) F1 : ZMod p) =
      ∑ i ∈ Finset.range m, ∑ j ∈ Finset.range m, ∑ k ∈ Finset.range m,
          (q1 (i * m + k) : ZMod p) * q2 (k * m + j) * F1 ((i * m + j) * m + k) +
        dotProduct (m * m * m) r F1 := by
  rw [cast_dotProduct, cast_dotProduct, sum_cube, sum_cube, ← Finset.sum_add_distrib]
  refine Finset.sum_congr rfl fun i hi => ?_
  rw [← Finset.sum_add_distrib]
  refine Finset.sum_congr rfl fun j hj => ?_
  rw [← Finset.sum_add_distrib]
  refine Finset.sum_congr rfl fun k hk => ?_
  rw [Finset.mem_range] at hi hj hk
  have hcell := forLoop_cube (m := m)
    (fun i j k _ => (q1 (i * m + k) * q2 (k * m + j) + r ((i * m + j) * m + k)) % (p : ℤ)) zeroVec
    ((i * m + j) * m + k)
  rw [if_pos (cube_lt hi hj hk), block_div hk, block_div hj, Nat.mul_add_mod_of_lt hk,
    Nat.mul_add_mod_of_lt hj] at hcell
  rw [createCorrTestQueriesVproduct, hcell, ZMod.intCast_mod]
  push_cast
  ring

/-- The correction test is a form in the two queries that are drawn, whose coefficients are the
errors of the cells. -/
theorem corrTest_iff (q1 q2 r A B F1 : Vec) :
    corrTest (corrAnswer m q1 q2 p A B) 1
        (dotProduct (m * m * m) (createCorrTestQueriesVproduct m q1 q2 r p zeroVec) F1)
        (dotProduct (m * m * m) r F1) p = true ↔
      ∑ i ∈ Finset.range m, ∑ j ∈ Finset.range m, ∑ k ∈ Finset.range m,
        (q1 (i * m + k) : ZMod p) * q2 (k * m + j) * cellError p m A B F1 i j k = 0 := by
  have hanswer : (corrAnswer m q1 q2 p A B : ZMod p) =
      ∑ i ∈ Finset.range m, ∑ j ∈ Finset.range m, ∑ k ∈ Finset.range m,
        (q1 (i * m + k) : ZMod p) * q2 (k * m + j) * (A (i * m + k) * B (k * m + j)) := by
    rw [cast_corrAnswer]
    simp_rw [Finset.sum_mul_sum]
    rw [Finset.sum_comm]
    refine Finset.sum_congr rfl fun i _ => ?_
    rw [Finset.sum_comm]
    refine Finset.sum_congr rfl fun j _ => Finset.sum_congr rfl fun k _ => ?_
    ring
  rw [corrTest, decide_eq_true_eq, emod_eq_emod_iff, Int.cast_sub, cast_vproduct_dot,
    add_sub_cancel_right, mul_one, hanswer, ← sub_eq_zero]
  simp only [← Finset.sum_sub_distrib, ← mul_sub]
  rfl

/-- The circuit query against any vector. -/
theorem cast_gammaQuery_dot (gamma F1 : Vec) :
    (dotProduct (m * m * m) (gammaQuery m gamma p) F1 : ZMod p) =
      ∑ z ∈ Finset.range (m * m),
        (gamma z : ZMod p) * ∑ k ∈ Finset.range m, (F1 (z * m + k) : ZMod p) := by
  rw [cast_dotProduct, sum_cells]
  refine Finset.sum_congr rfl fun z hz => ?_
  rw [Finset.mul_sum]
  refine Finset.sum_congr rfl fun k hk => ?_
  rw [Finset.mem_range] at hz hk
  have hcell := forLoop_cube (m := m) (fun i j _ old => old + gamma (i * m + j)) zeroVec (z * m + k)
  rw [if_pos (block_lt hz hk), block_div hk, Nat.div_add_mod'] at hcell
  have hvalue : gammaQuery m gamma p (z * m + k) = (zeroVec (z * m + k) + gamma z) % (p : ℤ) := by
    refine (forLoop_update_apply (m * m * m) (fun _ v => v % (p : ℤ)) _ _).trans ?_
    rw [if_pos (block_lt hz hk), hcell]
  rw [hvalue, zeroVec, zero_add, ZMod.intCast_mod, mul_comm]

end Values

/-! ## The verdict -/

section Verdict

variable {m p : ℕ} [Fact p.Prime] {A B C F1 : Vec}

/-- The equations of one repetition. -/
structure Passes (p m : ℕ) (A B C F1 : Vec) (s : Coins) : Prop where
  corr : ∑ i ∈ Finset.range m, ∑ j ∈ Finset.range m, ∑ k ∈ Finset.range m,
    (s.q1 (i * m + k) : ZMod p) * s.q2 (k * m + j) * cellError p m A B F1 i j k = 0
  ckt : ∑ z ∈ Finset.range (m * m),
    (s.gamma z : ZMod p) * (∑ k ∈ Finset.range m, (F1 (z * m + k) : ZMod p) - C z) = 0

theorem runRepetition_iff {numRepsLin : ℕ} (hlin : 0 < numRepsLin) {s : Coins} {answers : Vec}
    (h : AnswersOf 1 numRepsLin numDivQueries (cubicProof m F1) s.lin (testAnswer m p F1 s) answers)
    (result : Bool) :
    runRepetition numRepsLin answers (corrAnswer m s.q1 s.q2 p A B) (cValue m s.gamma C) p result =
        true ↔
      result = true ∧ Passes p m A B C F1 s := by
  have hlinTests : forLoop numRepsLin
      (fun i result => result && linTests 1 i answers p) result = result := by
    refine forLoop_induction (P := fun _ b => b = result) rfl ?_
    rintro i hi b rfl
    rw [h.linTests p hi, Bool.and_true]
  have hself := h.first hlin one_pos (k := 0) (by decide)
  rw [Nat.zero_mul, Nat.zero_add] at hself
  have hcorr := corrTest_iff (p := p) (m := m) s.q1 s.q2 (s.lin.l1 0 0) A B F1
  have hckt := h.cktTest_iff hlin 3 (a := fun _ => gammaQuery m s.gamma p) le_rfl
    (fun v hv => by obtain rfl := Nat.lt_one_iff.1 hv; rfl) (cValue m s.gamma C)
  rw [Finset.sum_range_one, Int.cast_add, cast_cValue, cubicProof, cast_gammaQuery_dot,
    ← Finset.sum_add_distrib] at hckt
  simp only [← mul_add, neg_add_eq_sub] at hckt
  simp only [runRepetition, hlinTests, Bool.and_eq_true, and_assoc]
  refine and_congr_right fun _ => ?_
  rw [hself, h.other 2 (by decide)]
  constructor
  · rintro ⟨hcor1, hckt2⟩
    exact ⟨hcorr.1 hcor1, hckt.1 hckt2⟩
  · intro hpass
    exact ⟨hcorr.2 hpass.corr, hckt.2 hpass.ckt⟩

omit [Fact p.Prime] in
theorem answersOf_answers (numRepsLin : ℕ) (coins : ℕ → Coins) (rho : ℕ) :
    AnswersOf 1 numRepsLin numDivQueries (cubicProof m F1) (coins rho).lin
      (testAnswer m p F1 (coins rho)) fun k => answers m numRepsLin p F1 coins
        (rho * numLinPcpQueries 1 numRepsLin numDivQueries + k) :=
  answersOf_batchAnswers (cubicProof m F1) (fun rho => (coins rho).lin)
    (fun rho => testAnswer m p F1 (coins rho)) rho

theorem verdict_iff {numRepsLin : ℕ} (hlin : 0 < numRepsLin) (numRepetitions : ℕ)
    (coins : ℕ → Coins) :
    verdict m numRepetitions numRepsLin p A B C F1 coins = true ↔
      ∀ rho < numRepetitions, Passes p m A B C F1 (coins rho) := by
  rw [verdict, runCorrectionAndCircuitTests]
  refine forLoop_induction (P := fun k b => b = true ↔
    ∀ rho < k, Passes p m A B C F1 (coins rho))
    (iff_of_true rfl fun rho h => absurd h (Nat.not_lt_zero rho)) ?_
  intro rho _ b hb
  rw [runRepetition_iff hlin (answersOf_answers numRepsLin coins rho), hb, Nat.forall_lt_succ_right]

end Verdict

/-! ## Honest proofs -/

section Complete

variable {m p : ℕ} {A B : Vec}

theorem computationAssignment_apply (A B old : Vec) {i j k : ℕ} (hi : i < m) (hj : j < m)
    (hk : k < m) :
    computationAssignment m A B p old ((i * m + j) * m + k) =
      A (i * m + k) * B (k * m + j) % (p : ℤ) := by
  have hcell := forLoop_cube (m := m)
    (fun i j k _ => A (i * m + k) * B (k * m + j) % (p : ℤ)) old ((i * m + j) * m + k)
  rwa [if_pos (cube_lt hi hj hk), block_div hk, block_div hj, Nat.mul_add_mod_of_lt hk,
    Nat.mul_add_mod_of_lt hj] at hcell

theorem computationMatrixmult_apply (A B old : Vec) {i j : ℕ} (hi : i < m) (hj : j < m) :
    computationMatrixmult m A B old (i * m + j) =
      ∑ k ∈ Finset.range m, A (i * m + k) * B (k * m + j) := by
  have hentry : ∀ i j (C : Vec), forLoop m (fun k C =>
      Function.update C (i * m + j) (C (i * m + j) + A (i * m + k) * B (k * m + j)))
      (Function.update C (i * m + j) 0) =
        Function.update C (i * m + j) (∑ k ∈ Finset.range m, A (i * m + k) * B (k * m + j)) := by
    intro i j C
    refine forLoop_induction (P := fun n b => b = Function.update C (i * m + j)
      (∑ k ∈ Finset.range n, A (i * m + k) * B (k * m + j))) (by simp) ?_
    rintro k _ b rfl
    rw [Function.update_idem, Function.update_self, Finset.sum_range_succ]
  simp only [computationMatrixmult, hentry]
  have hcell := forLoop_cells m m (fun _ => 0) (fun _ => m) (fun i hi => by omega)
    (fun i j _ => ∑ k ∈ Finset.range m, A (i * m + k) * B (k * m + j)) old (fun _ _ _ _ => rfl)
    i j hj
  simp only [Nat.zero_add] at hcell
  rw [hcell, if_pos ⟨hi, Nat.zero_le _, hj⟩]

variable [Fact p.Prime]

/-- What the prover computes is the product of the matrices, and is accepted. -/
theorem matrixCubic_complete (A B oldC oldF1 : Vec) (numRepetitions : ℕ) {numRepsLin : ℕ}
    (hlin : 0 < numRepsLin) (coins : ℕ → Coins) :
    (∀ i < m, ∀ j < m, computationMatrixmult m A B oldC (i * m + j) =
        ∑ k ∈ Finset.range m, A (i * m + k) * B (k * m + j)) ∧
      verdict m numRepetitions numRepsLin p A B (computationMatrixmult m A B oldC)
        (computationAssignment m A B p oldF1) coins = true := by
  refine ⟨fun i hi j hj => computationMatrixmult_apply A B oldC hi hj, ?_⟩
  refine (verdict_iff hlin numRepetitions coins).2 fun rho _ => ⟨?_, ?_⟩
  · refine Finset.sum_eq_zero fun i hi => Finset.sum_eq_zero fun j hj =>
      Finset.sum_eq_zero fun k hk => ?_
    rw [Finset.mem_range] at hi hj hk
    rw [cellError, computationAssignment_apply A B oldF1 hi hj hk, ZMod.intCast_mod, Int.cast_mul,
      sub_self, mul_zero]
  · rw [sum_cells]
    refine Finset.sum_eq_zero fun i hi => Finset.sum_eq_zero fun j hj => ?_
    rw [Finset.mem_range] at hi hj
    rw [computationMatrixmult_apply A B oldC hi hj, Int.cast_sum, ← Finset.sum_sub_distrib]
    refine mul_eq_zero_of_right _ (Finset.sum_eq_zero fun k hk => ?_)
    rw [Finset.mem_range] at hk
    rw [computationAssignment_apply A B oldF1 hi hj hk, ZMod.intCast_mod, sub_self]

end Complete

/-- Draws that differ from cell to cell and from one repetition to the next. -/
def steppedCoins (rho : ℕ) : Coins :=
  ⟨⟨fun i v x => rho + i + v + x + 1, fun i v x => 2 * x + i + v + 3⟩, fun x => x + rho + 5,
    fun x => 3 * x + 1, fun z => z + rho + 2⟩

theorem matrixCubic_complete_two :
    (∀ i < 2, ∀ j < 2, computationMatrixmult 2 (fun x => x) (fun x => x) zeroVec (i * 2 + j) =
        ∑ k ∈ Finset.range 2, ((i * 2 + k : ℕ) : ℤ) * (k * 2 + j : ℕ)) ∧
      verdict 2 7 8 (103 : ℕ) (fun x => x) (fun x => x)
        (computationMatrixmult 2 (fun x => x) (fun x => x) zeroVec)
        (computationAssignment 2 (fun x => x) (fun x => x) (103 : ℕ) zeroVec) steppedCoins =
          true := by
  have : Fact (Nat.Prime 103) := ⟨by norm_num⟩
  exact matrixCubic_complete (fun x => x) (fun x => x) zeroVec zeroVec 7 (by decide) steppedCoins

/-! ## Other products -/

/-- The draws of one repetition. -/
inductive Draw (numRepsLin m : ℕ) where
  | lin (d : LinDraw numRepsLin 1 fun _ => m * m * m)
  | q1 (x : Fin (m * m))
  | q2 (x : Fin (m * m))
  | gamma (z : Fin (m * m))
deriving DecidableEq, Fintype

section Sound

variable {m p numRepsLin : ℕ}

/-- The queries and the weights that have been drawn. -/
def drawnCoins (ω : Draw numRepsLin m → ZMod p) : Coins where
  lin := drawnLin fun d => ω (.lin d)
  q1 := drawnVec fun x => ω (.q1 x)
  q2 := drawnVec fun x => ω (.q2 x)
  gamma := drawnVec fun z => ω (.gamma z)

/-- The coefficient of a cell of the first query with a cell of the second. -/
def pairError (p m : ℕ) (A B F1 : Vec) (x y : ℕ) : ZMod p :=
  if x % m = y / m then cellError p m A B F1 (x / m) (y % m) (x % m) else 0

theorem pairError_cells (A B F1 : Vec) {i j k k' : ℕ} (hj : j < m) (hk : k < m) :
    pairError p m A B F1 (i * m + k) (k' * m + j) =
      if k = k' then cellError p m A B F1 i j k else 0 := by
  rw [pairError, Nat.mul_add_mod_of_lt hk, block_div hj, block_div hk, Nat.mul_add_mod_of_lt hj]

theorem sum_pairError (f g : ℕ → ZMod p) (A B F1 : Vec) :
    ∑ x ∈ Finset.range (m * m), ∑ y ∈ Finset.range (m * m),
        f x * g y * pairError p m A B F1 x y =
      ∑ i ∈ Finset.range m, ∑ j ∈ Finset.range m, ∑ k ∈ Finset.range m,
        f (i * m + k) * g (k * m + j) * cellError p m A B F1 i j k := by
  rw [sum_cells]
  refine Finset.sum_congr rfl fun i _ => ?_
  rw [Finset.sum_comm]
  refine Eq.trans ?_ Finset.sum_comm
  rw [Finset.sum_comm]
  refine Finset.sum_congr rfl fun k hk => ?_
  rw [sum_cells]
  -- only the row of `B` that is column `k` of `A`
  refine (Finset.sum_eq_single k (fun k' _ hne => ?_) fun hnot => absurd hk hnot).trans ?_
  · refine Finset.sum_eq_zero fun j hj => ?_
    rw [pairError_cells A B F1 (Finset.mem_range.1 hj) (Finset.mem_range.1 hk), if_neg hne.symm,
      mul_zero]
  · refine Finset.sum_congr rfl fun j hj => ?_
    rw [pairError_cells A B F1 (Finset.mem_range.1 hj) (Finset.mem_range.1 hk), if_pos rfl]

variable [Fact p.Prime]

theorem rare_passes {A B C : Vec} (F1 : Vec) {i j : ℕ} (hi : i < m) (hj : j < m)
    (hwrong : (C (i * m + j) : ZMod p) ≠ productEntry p m A B i j) :
    Rare 2 p fun ω : Draw numRepsLin m → ZMod p => Passes p m A B C F1 (drawnCoins ω) := by
  by_cases hcells : ∀ i < m, ∀ j < m, ∀ k < m, cellError p m A B F1 i j k = 0
  · -- the weight of the wrong entry
    let a : Fin (m * m) → ZMod p := fun z =>
      ∑ k ∈ Finset.range m, (F1 (z * m + k) : ZMod p) - C z
    have hne : a ⟨i * m + j, block_lt hi hj⟩ ≠ 0 := by
      have hsum : ∑ k ∈ Finset.range m, (F1 ((i * m + j) * m + k) : ZMod p) =
          productEntry p m A B i j :=
        Finset.sum_congr rfl fun k hk =>
          (sub_eq_zero.1 (hcells i hi j hj k (Finset.mem_range.1 hk))).symm
      intro hzero
      exact hwrong ((sub_eq_zero.1 hzero).symm.trans hsum)
    have hrare := rare_linear (F := ZMod p) (x := (Draw.gamma : _ → Draw numRepsLin m))
      (fun _ _ h => Draw.gamma.inj h) hne 0
    rw [Nat.card_zmod] at hrare
    refine (hrare.weaken one_le_two).mono fun ω hω => ?_
    have hckt := hω.ckt
    rw [Finset.sum_range] at hckt
    rw [zero_add, ← hckt]
    exact Finset.sum_congr rfl fun z _ => by rw [drawnCoins, cast_drawnVec]
  · -- the queries of the correction test find the missing product
    push Not at hcells
    obtain ⟨i, hi, j, hj, k, hk, hne⟩ := hcells
    have hrare := rare_bilinear (F := ZMod p) (x := (Draw.q1 : _ → Draw numRepsLin m))
      (y := Draw.q2) (fun _ _ h => Draw.q1.inj h) (fun _ _ h => Draw.q2.inj h)
      (fun _ _ h => by cases h) (a := fun x y => pairError p m A B F1 x y)
      (i := ⟨i * m + k, block_lt hi hk⟩) (j := ⟨k * m + j, block_lt hk hj⟩)
      (by rwa [pairError_cells A B F1 hj hk, if_pos rfl])
    rw [Nat.card_zmod] at hrare
    refine hrare.mono fun ω hω => ?_
    have hcorr := hω.corr
    rw [← sum_pairError (fun x => ((drawnCoins ω).q1 x : ZMod p))
      (fun y => ((drawnCoins ω).q2 y : ZMod p)), Finset.sum_range] at hcorr
    rw [← hcorr]
    refine Finset.sum_congr rfl fun x _ => ?_
    rw [Finset.sum_range]
    refine Finset.sum_congr rfl fun y _ => ?_
    rw [drawnCoins, cast_drawnVec, cast_drawnVec]

/-- When an entry of `C` is not that of the product modulo `p`, at most `2 ^ numRepetitions` in
`p ^ numRepetitions` of all draws accept, whatever the proof. -/
theorem matrixCubic_sound (A B C F1 : Vec)
    (hwrong : ∃ i < m, ∃ j < m,
      C (i * m + j) % (p : ℤ) ≠ (∑ k ∈ Finset.range m, A (i * m + k) * B (k * m + j)) % (p : ℤ))
    (numRepetitions : ℕ) (hlin : 0 < numRepsLin) :
    let Draws := Fin numRepetitions → Draw numRepsLin m → ZMod p
    p ^ numRepetitions * Nat.card {ω : Draws //
        verdict m numRepetitions numRepsLin p A B C F1
          (allRepetitions fun rho => drawnCoins (ω rho)) = true} ≤
      2 ^ numRepetitions * Nat.card Draws := by
  obtain ⟨i, hi, j, hj, hne⟩ := hwrong
  rw [Ne, emod_eq_emod_iff] at hne
  push_cast at hne
  have hpasses : Rare 2 p fun ω : Draw numRepsLin m → ZMod p =>
      Passes p m A B C F1 (drawnCoins ω) := rare_passes F1 hi hj hne
  have hrare := Rare.all (n := numRepetitions) fun _ => hpasses
  refine hrare.mono fun ω hω rho => ?_
  have hpass := (verdict_iff hlin numRepetitions _).1 hω rho rho.isLt
  rwa [allRepetitions_apply] at hpass

end Sound

/-- The zero vector is no proof that the product of the matrices of `2` and of `3`, whose entries
are `12`, has entries `5`. -/
theorem matrixCubic_sound_five :
    let Draws := Fin 7 → Draw 8 2 → ZMod 103
    103 ^ 7 * Nat.card {ω : Draws //
        verdict 2 7 8 (103 : ℕ) (fun _ => 2) (fun _ => 3) (fun _ => 5) zeroVec
          (allRepetitions fun rho => drawnCoins (ω rho)) = true} ≤
      2 ^ 7 * Nat.card Draws := by
  have : Fact (Nat.Prime 103) := ⟨by norm_num⟩
  exact matrixCubic_sound (fun _ => 2) (fun _ => 3) (fun _ => 5) zeroVec
    ⟨0, two_pos, 0, two_pos, by decide⟩ 7 (by decide)

end Pepper.AppsTailored.MatrixCubic
