import Pepper.AppsTailored.LinearityTests

/-!
# Hamming distances

For an input `A` and the rows of a matrix `B`, `hdist` computes in how many places `A` differs from
each row. With `M[i][j]` an inverse of `A[j] - B[i][j]`, or zero, and `S[i][j]` one for a difference,
or zero, the five proof vectors are `A`, `M`, `S` and the products of `A` with each of these two.

`hdist_complete`: what the prover computes is accepted. `hdist_sound`: with another distance, any
vectors are accepted by at most two in `p` of all draws. The number of repetitions does not enter:
the linearity tests of a repetition start the result anew, so the verdict is that of the last
repetition (`verdict_last`).
-/

set_option autoImplicit false

open Pepper.Common.Gmp Pepper.Foundations.Loop Pepper.Foundations.LinearPcp
open Pepper.Libv.Queries Pepper.Libv.Evaluation Pepper.Libv.GingerTests Pepper.Libv.LinearProofs

namespace Pepper.AppsTailored.HDist

/-! ## The prover -/

/-- The proof vectors. -/
structure Assignment where
  F1 : Vec
  F2 : Vec
  F3 : Vec
  F4 : Vec
  F5 : Vec

/-- `computation`: the distances. -/
def computation (m : ℕ) (A B Y : Vec) : Vec :=
  let Y := forLoop m (fun i Y => Function.update Y i 0) Y
  forLoop m (fun i Y => forLoop m (fun j Y =>
    if A j = B (i * m + j) then Y else Function.update Y i (Y i + 1)) Y) Y

/-- One cell of `F2` and `F3`. -/
def assignCell (m : ℕ) (A B : Vec) (prime : ℤ) (ii jj : ℕ) (F : Vec × Vec) : Vec × Vec :=
  let x := ii * m + jj
  if A jj = B x then (Function.update F.1 x 0, Function.update F.2 x 0)
  else
    let d := (A jj - B x) % prime
    (Function.update F.1 x (mpzInvert d d prime), Function.update F.2 x 1)

/-- The assignment in `prover_computation_commitment`, from an input and what the vectors held. -/
def computeAssignment (m : ℕ) (A B : Vec) (prime : ℤ) (old : Assignment) : Assignment :=
  let F := forLoop m (fun ii F => forLoop m (fun jj F => assignCell m A B prime ii jj F) F)
    (old.F2, old.F3)
  let F2 := forLoop (m * m) (fun jj F2 => Function.update F2 jj (F2 jj % prime)) F.1
  let F3 := forLoop (m * m) (fun jj F3 => Function.update F3 jj (F3 jj % prime)) F.2
  let F1 := forLoop m (fun ii F1 => Function.update F1 ii (F1 ii % prime)) A
  { F1 := F1
    F2 := F2
    F3 := F3
    F4 := forLoop m (fun ii F4 => forLoop (m * m) (fun jj F4 =>
      Function.update F4 (ii * (m * m) + jj) (F1 ii * F2 jj % prime)) F4) old.F4
    F5 := forLoop m (fun ii F5 => forLoop (m * m) (fun jj F5 =>
      Function.update F5 (ii * (m * m) + jj) (F1 ii * F3 jj % prime)) F5) old.F5 }

/-- `size_f1_vec`, ..., `size_f5_vec`. -/
def vecSize (m : ℕ) : ℕ → ℕ
  | 0 => m
  | 1 => m * m
  | 2 => m * m
  | _ => m * m * m

/-- The proof. -/
def hdistProof (m : ℕ) (F : Assignment) : Proof where
  size := vecSize m
  vector
    | 0 => F.F1
    | 1 => F.F2
    | 2 => F.F3
    | 3 => F.F4
    | _ => F.F5

/-! ## Queries -/

/-- The random choices of one repetition. -/
structure Coins where
  lin : LinCoins
  alpha : Vec
deriving Inhabited

/-- `num_cons`. -/
def numCons (m : ℕ) : ℕ := 2 * (m * m + m)

/-- The first part of the circuit test: `A[j]` in the second group of constraints, and `-A[i]`. -/
def gamma1 (m : ℕ) (alpha : Vec) : Vec :=
  let aVar := forLoop m (fun i aVar => forLoop m (fun j aVar =>
    Function.update aVar j (aVar j + alpha (m * m + (i * m + j)))) aVar) zeroVec
  forLoop m (fun i aVar => Function.update aVar i (aVar i + -alpha (2 * m * m + m + i))) aVar

/-- `-B[i][j] * M[i][j]`. -/
def gamma2 (m : ℕ) (alpha B : Vec) : Vec :=
  forLoop (m * m) (fun i mVar => Function.update mVar i (mVar i + -alpha i * B i)) zeroVec

/-- `-S[i][j]`, `B[i][j] * S[i][j]` and the sums of the rows of `S`. -/
def gamma3 (m : ℕ) (alpha B : Vec) : Vec :=
  let sVar := forLoop (m * m) (fun i sVar => Function.update sVar i (sVar i + -alpha i)) zeroVec
  let sVar := forLoop (m * m) (fun i sVar =>
    Function.update sVar i (sVar i + alpha (m * m + i) * B i)) sVar
  forLoop m (fun i sVar => forLoop m (fun j sVar =>
    Function.update sVar (i * m + j) (sVar (i * m + j) + -alpha (2 * m * m + i))) sVar) sVar

/-- `A[j] * M[i][j]`. -/
def gamma4 (m : ℕ) (alpha : Vec) : Vec :=
  forLoop m (fun i q => forLoop m (fun j q =>
    let index := j * (m * m) + (i * m + j)
    Function.update q index (q index + alpha (i * m + j))) q) zeroVec

/-- `-A[j] * S[i][j]`. -/
def gamma5 (m : ℕ) (alpha : Vec) : Vec :=
  forLoop m (fun i q => forLoop m (fun j q =>
    let index := j * (m * m) + (i * m + j)
    Function.update q index (q index + -alpha (m * m + (i * m + j)))) q) zeroVec

/-- The queries of the circuit test before they are hidden. -/
def gammas (m : ℕ) (alpha B : Vec) : ℕ → Vec
  | 0 => gamma1 m alpha
  | 1 => gamma2 m alpha B
  | 2 => gamma3 m alpha B
  | 3 => gamma4 m alpha
  | _ => gamma5 m alpha

/-- `c_init_val`. -/
def cInitVal (m : ℕ) (alpha B : Vec) : ℤ :=
  forLoop (m * m) (fun i c => c + B i * -alpha (m * m + i)) 0

/-- The constant of the circuit test for one instance. -/
def cValue (m : ℕ) (alpha B : Vec) (prime : ℤ) (A output : Vec) : ℤ :=
  let c := forLoop m (fun i c => c + output i * alpha (2 * m * m + i)) (cInitVal m alpha B)
  forLoop m (fun i c => c + A i * alpha (2 * m * m + m + i)) c % prime

/-! ## The tests -/

/-- The queries `Q16`, ..., `Q22`. -/
def numDivQueries : ℕ := 7

/-- The answers to `Q16`, ..., `Q22`. -/
def testAnswer (m : ℕ) (B : Vec) (prime : ℤ) (F : Assignment) (s : Coins) : ℕ → ℤ
  | 0 => dotProduct (m * (m * m)) (createCorrTestQueriesReuse m (m * m) (s.lin.l1 0 0)
      (s.lin.l1 0 1) (s.lin.l1 0 3) prime zeroVec) F.F4
  | 1 => dotProduct (m * (m * m)) (createCorrTestQueriesReuse m (m * m) (s.lin.l1 0 0)
      (s.lin.l1 0 2) (s.lin.l1 0 4) prime zeroVec) F.F5
  | v + 2 => dotProduct (vecSize m v)
      (createCktTestQueries (vecSize m v) (gammas m s.alpha B v) (s.lin.l1 0 v) prime
        zeroVec) ((hdistProof m F).vector v)

/-- The answers of the prover to the queries of all repetitions. -/
def answers (m numRepsLin : ℕ) (B : Vec) (prime : ℤ) (F : Assignment) (coins : ℕ → Coins) : Vec :=
  batchAnswers 5 numRepsLin numDivQueries (hdistProof m F) (fun rho => (coins rho).lin)
    fun rho => testAnswer m B prime F (coins rho)

/-- One repetition of `run_correction_and_circuit_tests`. -/
def runRepetition (numRepsLin : ℕ) (answers : Vec) (cValue prime : ℤ) (result : Bool) : Bool :=
  let result := linResult 5 numRepsLin answers prime result
  let q16 := numRepsLin * numLinQueries 5
  let cor1 := corrTest (answers 0) (answers 3) (answers q16) (answers 9) prime
  let cor2 := corrTest (answers 0) (answers 6) (answers (q16 + 1)) (answers 12) prime
  let ckt2 := cktTest 10 (cktAnswers (q16 + 2) answers) cValue prime
  result && (cor1 && cor2) && ckt2

/-- `run_correction_and_circuit_tests` for one instance. -/
def runCorrectionAndCircuitTests (numRepetitions numRepsLin : ℕ) (fAnswers cValues : Vec)
    (prime : ℤ) : Bool :=
  forLoop numRepetitions (fun rho result =>
    runRepetition numRepsLin
      (fun k => fAnswers (rho * numLinPcpQueries 5 numRepsLin numDivQueries + k)) (cValues rho)
      prime result) false

/-- The verdict on a proof that the distances of `A` and the rows of `B` are `output`. -/
def verdict (m numRepetitions numRepsLin : ℕ) (prime : ℤ) (B A output : Vec) (F : Assignment)
    (coins : ℕ → Coins) : Bool :=
  runCorrectionAndCircuitTests numRepetitions numRepsLin (answers m numRepsLin B prime F coins)
    (fun rho => cValue m (coins rho).alpha B prime A output) prime

/-! ## The constraints -/

section Constraints

variable {m p : ℕ}

/-- The constraints of the circuit test, in the order of their weights. -/
def constraintValue (p m : ℕ) (B A output : Vec) (F : Assignment) (c : ℕ) : ZMod p :=
  if c < m * m then
    F.F4 (c % m * (m * m) + c) - B c * F.F2 c - F.F3 c
  else if c < m * m + m * m then
    let c := c - m * m
    F.F1 (c % m) - B c + B c * F.F3 c - F.F5 (c % m * (m * m) + c)
  else if c < m * m + m * m + m then
    let c := c - (m * m + m * m)
    output c - ∑ j ∈ Finset.range m, (F.F3 (c * m + j) : ZMod p)
  else
    let c := c - (m * m + m * m + m)
    A c - F.F1 c

theorem numCons_eq (m : ℕ) : numCons m = m * m + m * m + m + m := by
  rw [numCons]
  ring

/-- The four groups of constraints. -/
theorem numCons_cases {P : ℕ → Prop} (first : ∀ i < m, ∀ j < m, P (i * m + j))
    (second : ∀ i < m, ∀ j < m, P (m * m + (i * m + j))) (output : ∀ i < m, P (m * m + m * m + i))
    (input : ∀ i < m, P (m * m + m * m + m + i)) {c : ℕ} (hc : c < numCons m) : P c := by
  have hcell : ∀ x < m * m, x / m < m ∧ x % m < m ∧ x = x / m * m + x % m := by
    intro x hx
    exact ⟨Nat.div_lt_of_lt_mul hx, Nat.mod_lt _ (Nat.pos_of_lt_mul_left hx),
      (Nat.div_add_mod' x m).symm⟩
  rw [numCons_eq] at hc
  by_cases h1 : c < m * m
  · obtain ⟨hi, hj, heq⟩ := hcell c h1
    rw [heq]
    exact first _ hi _ hj
  by_cases h2 : c < m * m + m * m
  · obtain ⟨x, rfl⟩ := Nat.exists_eq_add_of_le (Nat.le_of_not_lt h1)
    obtain ⟨hi, hj, heq⟩ := hcell x (Nat.lt_of_add_lt_add_left h2)
    rw [heq]
    exact second _ hi _ hj
  by_cases h3 : c < m * m + m * m + m
  · obtain ⟨x, rfl⟩ := Nat.exists_eq_add_of_le (Nat.le_of_not_lt h2)
    exact output x (Nat.lt_of_add_lt_add_left h3)
  · obtain ⟨x, rfl⟩ := Nat.exists_eq_add_of_le (Nat.le_of_not_lt h3)
    exact input x (Nat.lt_of_add_lt_add_left hc)

theorem constraintValue_first (B A output : Vec) (F : Assignment) {i j : ℕ} (hi : i < m)
    (hj : j < m) :
    constraintValue p m B A output F (i * m + j) =
      F.F4 (j * (m * m) + (i * m + j)) - B (i * m + j) * F.F2 (i * m + j) - F.F3 (i * m + j) := by
  rw [constraintValue, if_pos (block_lt hi hj), Nat.mul_add_mod_of_lt hj]

theorem constraintValue_second (B A output : Vec) (F : Assignment) {i j : ℕ} (hi : i < m)
    (hj : j < m) :
    constraintValue p m B A output F (m * m + (i * m + j)) =
      F.F1 j - B (i * m + j) + B (i * m + j) * F.F3 (i * m + j) -
        F.F5 (j * (m * m) + (i * m + j)) := by
  have hx := block_lt hi hj
  rw [constraintValue, if_neg (by omega), if_pos (by omega)]
  simp only [Nat.add_sub_cancel_left, Nat.mul_add_mod_of_lt hj]

theorem constraintValue_output (B A output : Vec) (F : Assignment) {i : ℕ} (hi : i < m) :
    constraintValue p m B A output F (m * m + m * m + i) =
      output i - ∑ j ∈ Finset.range m, (F.F3 (i * m + j) : ZMod p) := by
  rw [constraintValue, if_neg (by omega), if_neg (by omega), if_pos (by omega)]
  simp only [Nat.add_sub_cancel_left]

theorem constraintValue_input (B A output : Vec) (F : Assignment) (i : ℕ) :
    constraintValue p m B A output F (m * m + m * m + m + i) = A i - F.F1 i := by
  rw [constraintValue, if_neg (by omega), if_neg (by omega), if_neg (by omega)]
  simp only [Nat.add_sub_cancel_left]

/-! The parts of the circuit test, as sums over rows and columns. -/

theorem gamma1_dot (alpha F1 : Vec) :
    dotProduct m (gamma1 m alpha) F1 =
      ∑ i ∈ Finset.range m, ∑ j ∈ Finset.range m, alpha (m * m + (i * m + j)) * F1 j +
        ∑ i ∈ Finset.range m, -alpha (m * m + m * m + m + i) * F1 i := by
  have htwo : 2 * m * m = m * m + m * m := by ring
  rw [gamma1, htwo, dotProduct_addCells,
    dotProduct_scatter_rows fun i _ j hj => hj, dotProduct_zeroVec, zero_add]

theorem gamma2_dot (alpha B F2 : Vec) :
    dotProduct (m * m) (gamma2 m alpha B) F2 =
      ∑ i ∈ Finset.range m, ∑ j ∈ Finset.range m,
        -alpha (i * m + j) * B (i * m + j) * F2 (i * m + j) := by
  rw [gamma2, dotProduct_addCells, dotProduct_zeroVec, zero_add,
    sum_cells]

theorem gamma3_dot (alpha B F3 : Vec) :
    dotProduct (m * m) (gamma3 m alpha B) F3 =
      ∑ i ∈ Finset.range m, ∑ j ∈ Finset.range m, -alpha (i * m + j) * F3 (i * m + j) +
        ∑ i ∈ Finset.range m, ∑ j ∈ Finset.range m,
          alpha (m * m + (i * m + j)) * B (i * m + j) * F3 (i * m + j) +
        ∑ i ∈ Finset.range m, ∑ j ∈ Finset.range m,
          -alpha (m * m + m * m + i) * F3 (i * m + j) := by
  have htwo : 2 * m * m = m * m + m * m := by ring
  rw [gamma3, htwo, dotProduct_scatter_rows fun i hi j hj => block_lt hi hj,
    dotProduct_addCells,
    dotProduct_addCells, dotProduct_zeroVec, zero_add, sum_cells,
    sum_cells]

theorem cube_lt {i j : ℕ} (hi : i < m) (hj : j < m) : j * (m * m) + (i * m + j) < m * m * m := by
  rw [mul_assoc m m m]
  exact block_lt hj (block_lt hi hj)

theorem gamma4_dot (alpha F4 : Vec) :
    dotProduct (m * m * m) (gamma4 m alpha) F4 =
      ∑ i ∈ Finset.range m, ∑ j ∈ Finset.range m,
        alpha (i * m + j) * F4 (j * (m * m) + (i * m + j)) := by
  rw [gamma4, dotProduct_scatter_rows fun i hi j hj => cube_lt hi hj, dotProduct_zeroVec, zero_add]

theorem gamma5_dot (alpha F5 : Vec) :
    dotProduct (m * m * m) (gamma5 m alpha) F5 =
      ∑ i ∈ Finset.range m, ∑ j ∈ Finset.range m,
        -alpha (m * m + (i * m + j)) * F5 (j * (m * m) + (i * m + j)) := by
  rw [gamma5, dotProduct_scatter_rows fun i hi j hj => cube_lt hi hj, dotProduct_zeroVec, zero_add]

theorem cast_cValue (alpha B A output : Vec) :
    (cValue m alpha B p A output : ZMod p) =
      ∑ i ∈ Finset.range m, ∑ j ∈ Finset.range m,
          (B (i * m + j) : ZMod p) * -alpha (m * m + (i * m + j)) +
        ∑ i ∈ Finset.range m, (output i : ZMod p) * alpha (m * m + m * m + i) +
        ∑ i ∈ Finset.range m, (A i : ZMod p) * alpha (m * m + m * m + m + i) := by
  have htwo : 2 * m * m = m * m + m * m := by ring
  rw [cValue, cInitVal, htwo, ZMod.intCast_mod, forLoop_add, forLoop_add, forLoop_add, zero_add,
    sum_cells]
  push_cast
  rfl

/-- The circuit test adds the constraints up with their weights. -/
theorem cast_circuit (alpha B A output : Vec) (F : Assignment) :
    ((cValue m alpha B p A output + ∑ v ∈ Finset.range 5, dotProduct ((hdistProof m F).size v)
        (gammas m alpha B v) ((hdistProof m F).vector v) : ℤ) : ZMod p) =
      ∑ c ∈ Finset.range (numCons m), (alpha c : ZMod p) * constraintValue p m B A output F c := by
  have hvectors : ∑ v ∈ Finset.range 5, dotProduct ((hdistProof m F).size v)
      (gammas m alpha B v) ((hdistProof m F).vector v) =
        dotProduct m (gamma1 m alpha) F.F1 + dotProduct (m * m) (gamma2 m alpha B) F.F2 +
        dotProduct (m * m) (gamma3 m alpha B) F.F3 + dotProduct (m * m * m) (gamma4 m alpha) F.F4 +
        dotProduct (m * m * m) (gamma5 m alpha) F.F5 := by
    simp only [Finset.sum_range_succ, Finset.sum_range_zero, zero_add]
    rfl
  -- the four groups of constraints
  have hfirst : ∑ c ∈ Finset.range (m * m), (alpha c : ZMod p) *
      constraintValue p m B A output F c =
        ∑ i ∈ Finset.range m, ∑ j ∈ Finset.range m, ((alpha (i * m + j) : ZMod p) *
          F.F4 (j * (m * m) + (i * m + j)) + -alpha (i * m + j) * B (i * m + j) * F.F2 (i * m + j) +
          -alpha (i * m + j) * F.F3 (i * m + j)) := by
    rw [sum_cells]
    refine Finset.sum_congr rfl fun i hi => Finset.sum_congr rfl fun j hj => ?_
    rw [constraintValue_first B A output F (Finset.mem_range.1 hi) (Finset.mem_range.1 hj)]
    ring
  have hsecond : ∑ c ∈ Finset.range (m * m), (alpha (m * m + c) : ZMod p) *
      constraintValue p m B A output F (m * m + c) =
        ∑ i ∈ Finset.range m, ∑ j ∈ Finset.range m, ((alpha (m * m + (i * m + j)) : ZMod p) *
          F.F1 j + (B (i * m + j) : ZMod p) * -alpha (m * m + (i * m + j)) +
          alpha (m * m + (i * m + j)) * B (i * m + j) * F.F3 (i * m + j) +
          -alpha (m * m + (i * m + j)) * F.F5 (j * (m * m) + (i * m + j))) := by
    rw [sum_cells]
    refine Finset.sum_congr rfl fun i hi => Finset.sum_congr rfl fun j hj => ?_
    rw [constraintValue_second B A output F (Finset.mem_range.1 hi) (Finset.mem_range.1 hj)]
    ring
  have houtput : ∑ i ∈ Finset.range m, (alpha (m * m + m * m + i) : ZMod p) *
      constraintValue p m B A output F (m * m + m * m + i) =
        ∑ i ∈ Finset.range m, ((output i : ZMod p) * alpha (m * m + m * m + i) +
          ∑ j ∈ Finset.range m, -(alpha (m * m + m * m + i) : ZMod p) * F.F3 (i * m + j)) := by
    refine Finset.sum_congr rfl fun i hi => ?_
    rw [constraintValue_output B A output F (Finset.mem_range.1 hi), ← Finset.mul_sum]
    ring
  have hinput : ∑ i ∈ Finset.range m, (alpha (m * m + m * m + m + i) : ZMod p) *
      constraintValue p m B A output F (m * m + m * m + m + i) =
        ∑ i ∈ Finset.range m, ((A i : ZMod p) * alpha (m * m + m * m + m + i) +
          -alpha (m * m + m * m + m + i) * F.F1 i) := by
    refine Finset.sum_congr rfl fun i _ => ?_
    rw [constraintValue_input]
    ring
  rw [numCons_eq, Finset.sum_range_add, Finset.sum_range_add, Finset.sum_range_add, hfirst,
    hsecond, houtput, hinput, hvectors, Int.cast_add, cast_cValue, gamma1_dot, gamma2_dot,
    gamma3_dot, gamma4_dot, gamma5_dot]
  push_cast
  simp only [Finset.sum_add_distrib]
  ring

end Constraints

/-! ## The verdict -/

section Verdict

variable {m p numRepsLin : ℕ} [Fact p.Prime] {B A output : Vec} {F : Assignment}

/-- What one repetition checks. -/
structure Passes (p m : ℕ) (B A output : Vec) (F : Assignment) (s : Coins) : Prop where
  cor1 : corrTest (dotProduct m (s.lin.l1 0 0) F.F1) (dotProduct (m * m) (s.lin.l1 0 1) F.F2)
    (dotProduct (m * (m * m)) (createCorrTestQueriesReuse m (m * m) (s.lin.l1 0 0) (s.lin.l1 0 1)
      (s.lin.l1 0 3) p zeroVec) F.F4) (dotProduct (m * (m * m)) (s.lin.l1 0 3) F.F4) p = true
  cor2 : corrTest (dotProduct m (s.lin.l1 0 0) F.F1) (dotProduct (m * m) (s.lin.l1 0 2) F.F3)
    (dotProduct (m * (m * m)) (createCorrTestQueriesReuse m (m * m) (s.lin.l1 0 0) (s.lin.l1 0 2)
      (s.lin.l1 0 4) p zeroVec) F.F5) (dotProduct (m * (m * m)) (s.lin.l1 0 4) F.F5) p = true
  ckt : ∑ c ∈ Finset.range (numCons m),
    (s.alpha c : ZMod p) * constraintValue p m B A output F c = 0

omit [Fact p.Prime] in
/-- A repetition does not use the result of those before. -/
theorem runRepetition_anew (hlin : 0 < numRepsLin) (answers : Vec) (cValue prime : ℤ)
    (result : Bool) :
    runRepetition numRepsLin answers cValue prime result =
      runRepetition numRepsLin answers cValue prime false := by
  rw [runRepetition, runRepetition, linResult_anew hlin]

omit [Fact p.Prime] in
/-- The verdict is that of the last repetition. -/
theorem verdict_last (hlin : 0 < numRepsLin) (numRepetitions : ℕ) (fAnswers cValues : Vec)
    (prime : ℤ) :
    runCorrectionAndCircuitTests (numRepetitions + 1) numRepsLin fAnswers cValues prime =
      runRepetition numRepsLin
        (fun k => fAnswers (numRepetitions * numLinPcpQueries 5 numRepsLin numDivQueries + k))
        (cValues numRepetitions) prime false := by
  rw [runCorrectionAndCircuitTests, forLoop_succ, runRepetition_anew hlin]

theorem runRepetition_iff (hlin : 0 < numRepsLin) {s : Coins} {answers : Vec}
    (h : AnswersOf 5 numRepsLin numDivQueries (hdistProof m F) s.lin (testAnswer m B p F s) answers)
    (result : Bool) :
    runRepetition numRepsLin answers (cValue m s.alpha B p A output) p result = true ↔
      Passes p m B A output F s := by
  have hself : ∀ v < 5, answers (v * 3) = linAnswer (hdistProof m F) s.lin 0 v 0 :=
    fun v hv => h.first hlin hv (k := 0) (by decide)
  have h0 := h.other 0 (by decide)
  rw [Nat.add_zero] at h0
  have hckt := h.cktTest_iff hlin 2 (a := gammas m s.alpha B) le_rfl
    (fun v _ => by rw [Nat.add_comm]; rfl) (cValue m s.alpha B p A output)
  rw [cast_circuit] at hckt
  have h3 : answers 9 = dotProduct (m * (m * m)) (s.lin.l1 0 3) F.F4 := by
    rw [← mul_assoc]
    exact hself 3 (by decide)
  have h4 : answers 12 = dotProduct (m * (m * m)) (s.lin.l1 0 4) F.F5 := by
    rw [← mul_assoc]
    exact hself 4 (by decide)
  simp only [runRepetition, h.linResult p hlin, Bool.true_and, Bool.and_eq_true, and_assoc]
  rw [hself 0 (by decide), hself 1 (by decide), hself 2 (by decide), h3, h4, h0,
    h.other 1 (by decide)]
  constructor
  · rintro ⟨hcor1, hcor2, hckt2⟩
    exact ⟨hcor1, hcor2, hckt.1 hckt2⟩
  · intro hpass
    exact ⟨hpass.cor1, hpass.cor2, hckt.2 hpass.ckt⟩

omit [Fact p.Prime] in
theorem answersOf_answers (numRepsLin : ℕ) (coins : ℕ → Coins) (rho : ℕ) :
    AnswersOf 5 numRepsLin numDivQueries (hdistProof m F) (coins rho).lin
      (testAnswer m B p F (coins rho)) fun k => answers m numRepsLin B p F coins
        (rho * numLinPcpQueries 5 numRepsLin numDivQueries + k) :=
  answersOf_batchAnswers (hdistProof m F) (fun rho => (coins rho).lin)
    (fun rho => testAnswer m B p F (coins rho)) rho

theorem verdict_iff (hlin : 0 < numRepsLin) (numRepetitions : ℕ) (coins : ℕ → Coins) :
    verdict m (numRepetitions + 1) numRepsLin p B A output F coins = true ↔
      Passes p m B A output F (coins numRepetitions) := by
  rw [verdict, verdict_last hlin,
    runRepetition_iff hlin (answersOf_answers numRepsLin coins numRepetitions)]

end Verdict

/-! ## Honest proofs -/

section Complete

variable {m p : ℕ} {A B : Vec}

/-- In how many places `A` differs from row `i`. -/
def distance (m : ℕ) (A B : Vec) (i : ℕ) : ℕ :=
  ((Finset.range m).filter fun j => A j ≠ B (i * m + j)).card

theorem computation_apply (A B old : Vec) {i : ℕ} (hi : i < m) :
    computation m A B old i = distance m A B i := by
  have hrow : ∀ i (Y : Vec), forLoop m (fun j Y =>
      if A j = B (i * m + j) then Y else Function.update Y i (Y i + 1)) Y =
        Function.update Y i (Y i + distance m A B i) := by
    intro i Y
    rw [distance]
    refine forLoop_induction (P := fun k b => b = Function.update Y i
      (Y i + ((Finset.range k).filter fun j => A j ≠ B (i * m + j)).card)) (by simp) ?_
    rintro j _ b rfl
    rw [Finset.range_add_one, Finset.filter_insert]
    by_cases heq : A j = B (i * m + j)
    · rw [if_pos heq, if_neg (not_not_intro heq)]
    · rw [if_neg heq, if_pos heq, Finset.card_insert_of_notMem (by simp), Function.update_idem,
        Function.update_self]
      push_cast
      rw [add_assoc]
  simp only [computation, hrow]
  rw [forLoop_update_apply m (fun i (y : ℤ) => y + distance m A B i), if_pos hi,
    forLoop_fill_apply m (fun _ => 0), if_pos hi, zero_add]

/-- An inverse of the difference of `A[j]` and `B[i][j]`, or zero. -/
def inverseOf (A B : Vec) (prime : ℤ) (x j : ℕ) : ℤ :=
  if A j = B x then 0 else mpzInvert ((A j - B x) % prime) ((A j - B x) % prime) prime

/-- Whether `A[j]` and `B[i][j]` differ. -/
def differs (A B : Vec) (x j : ℕ) : ℤ := if A j = B x then 0 else 1

theorem assignCell_eq (m : ℕ) (A B : Vec) (prime : ℤ) (ii jj : ℕ) (F : Vec × Vec) :
    assignCell m A B prime ii jj F =
      (Function.update F.1 (ii * m + jj) (inverseOf A B prime (ii * m + jj) jj),
        Function.update F.2 (ii * m + jj) (differs A B (ii * m + jj) jj)) := by
  rw [assignCell, inverseOf, differs]
  by_cases heq : A jj = B (ii * m + jj)
  · simp only [if_pos heq]
  · simp only [if_neg heq]

/-- The loop that fills the vectors `F2` and `F3`. -/
theorem assignCells_apply (A B : Vec) (prime : ℤ) (old : Vec × Vec) {i j : ℕ} (hi : i < m)
    (hj : j < m) :
    let F := forLoop m (fun ii F => forLoop m (fun jj F => assignCell m A B prime ii jj F) F) old
    F.1 (i * m + j) = inverseOf A B prime (i * m + j) j ∧
      F.2 (i * m + j) = differs A B (i * m + j) j := by
  let row : (ℕ → ℕ → ℤ) → ℕ → Vec → Vec := fun f ii =>
    forLoop m fun jj F => Function.update F (ii * m + jj) (f (ii * m + jj) jj)
  have hcells : ∀ f a, forLoop m (row f) a (i * m + j) = f (i * m + j) j := by
    intro f a
    have hcell := forLoop_cells m m (fun _ => 0) (fun _ => m) (fun i hi => by omega)
      (fun i j _ => f (i * m + j) j) a (fun _ _ _ _ => rfl) i j hj
    simp only [Nat.zero_add] at hcell
    exact hcell.trans (if_pos ⟨hi, Nat.zero_le _, hj⟩)
  have hrow : ∀ ii F, forLoop m (fun jj F => assignCell m A B prime ii jj F) F =
      (row (inverseOf A B prime) ii F.1, row (differs A B) ii F.2) := by
    intro ii F
    simp only [assignCell_eq]
    exact forLoop_prod m
      (fun jj F => Function.update F (ii * m + jj) (inverseOf A B prime (ii * m + jj) jj))
      (fun jj F => Function.update F (ii * m + jj) (differs A B (ii * m + jj) jj)) F
  simp only [hrow, forLoop_prod m (row (inverseOf A B prime)) (row (differs A B)) old]
  exact ⟨hcells _ _, hcells _ _⟩

theorem cast_forLoop_mod {n j : ℕ} (hj : j < n) (a : Vec) :
    (forLoop n (fun i a => Function.update a i (a i % (p : ℤ))) a j : ZMod p) = a j := by
  rw [forLoop_update_apply n (fun _ x => x % (p : ℤ)), if_pos hj, ZMod.intCast_mod]

theorem computeAssignment_F1 (A B : Vec) (old : Assignment) {j : ℕ} (hj : j < m) :
    ((computeAssignment m A B p old).F1 j : ZMod p) = A j :=
  cast_forLoop_mod hj A

theorem computeAssignment_F2 (A B : Vec) (old : Assignment) {i j : ℕ} (hi : i < m) (hj : j < m) :
    ((computeAssignment m A B p old).F2 (i * m + j) : ZMod p) = inverseOf A B p (i * m + j) j :=
  (cast_forLoop_mod (block_lt hi hj) _).trans
    (congrArg _ (assignCells_apply A B p (old.F2, old.F3) hi hj).1)

theorem computeAssignment_F3 (A B : Vec) (old : Assignment) {i j : ℕ} (hi : i < m) (hj : j < m) :
    ((computeAssignment m A B p old).F3 (i * m + j) : ZMod p) = differs A B (i * m + j) j :=
  (cast_forLoop_mod (block_lt hi hj) _).trans
    (congrArg _ (assignCells_apply A B p (old.F2, old.F3) hi hj).2)

/-- A loop over rows and columns that fills in the products of two vectors. -/
theorem isProduct_forLoop (n k : ℕ) (F G old : Vec) :
    IsProduct p n k F G (forLoop n (fun ii H => forLoop k (fun jj H =>
      Function.update H (ii * k + jj) (F ii * G jj % (p : ℤ))) H) old) := by
  intro i hi j hj
  have hcell := forLoop_cells k n (fun _ => 0) (fun _ => k) (fun i hi => by omega)
    (fun i j _ => F i * G j % (p : ℤ)) old (fun _ _ _ _ => rfl) i j hj
  simp only [Nat.zero_add] at hcell
  rw [hcell, if_pos ⟨hi, Nat.zero_le _, hj⟩, ZMod.intCast_mod, Int.cast_mul]

/-- Inputs below the prime. -/
structure InRange (p m : ℕ) (A B : Vec) : Prop where
  left : ∀ j < m, 0 ≤ A j ∧ A j < p
  right : ∀ x < m * m, 0 ≤ B x ∧ B x < p

theorem sum_differs (A B : Vec) (i : ℕ) :
    ∑ j ∈ Finset.range m, (differs A B (i * m + j) j : ZMod p) = distance m A B i := by
  rw [distance, Finset.card_filter, Nat.cast_sum]
  refine Finset.sum_congr rfl fun j _ => ?_
  rw [differs]
  by_cases heq : A j = B (i * m + j)
  · rw [if_pos heq, if_neg (not_not_intro heq), Int.cast_zero, Nat.cast_zero]
  · rw [if_neg heq, if_pos heq, Int.cast_one, Nat.cast_one]

variable [Fact p.Prime]

theorem InRange.sub_eq_zero_iff (h : InRange p m A B) {i j : ℕ} (hi : i < m) (hj : j < m) :
    (A j : ZMod p) - B (i * m + j) = 0 ↔ A j = B (i * m + j) := by
  rw [sub_eq_zero, eq_iff_cast_eq (h.left j hj) (h.right _ (block_lt hi hj))]

/-- With an inverse of each difference, the first two groups of constraints hold. -/
theorem InRange.difference (h : InRange p m A B) {i j : ℕ} (hi : i < m) (hj : j < m) :
    ((A j : ZMod p) - B (i * m + j)) * inverseOf A B p (i * m + j) j = differs A B (i * m + j) j ∧
      ((A j : ZMod p) - B (i * m + j)) * (1 - differs A B (i * m + j) j) = 0 := by
  have hzero := h.sub_eq_zero_iff hi hj
  rw [inverseOf, differs]
  by_cases heq : A j = B (i * m + j)
  · rw [if_pos heq, if_pos heq, hzero.2 heq, Int.cast_zero, zero_mul, zero_mul]
    exact ⟨rfl, rfl⟩
  · have hne : (((A j - B (i * m + j)) % (p : ℤ) : ℤ) : ZMod p) ≠ 0 := by
      rw [ZMod.intCast_mod, Int.cast_sub]
      exact fun hsub => heq (hzero.1 hsub)
    rw [if_neg heq, if_neg heq, cast_mpzInvert _ _ hne, ZMod.intCast_mod, Int.cast_sub,
      Int.cast_one, sub_self, mul_zero]
    exact ⟨mul_inv_cancel₀ fun hsub => heq (hzero.1 hsub), rfl⟩

/-- The prover's vectors satisfy every constraint. -/
theorem constraintValue_computeAssignment (h : InRange p m A B) (old : Assignment) (oldY : Vec)
    {c : ℕ} (hc : c < numCons m) :
    constraintValue p m B A (computation m A B oldY) (computeAssignment m A B p old) c = 0 := by
  have hF4 : IsProduct p m (m * m) (computeAssignment m A B p old).F1
      (computeAssignment m A B p old).F2 (computeAssignment m A B p old).F4 :=
    isProduct_forLoop m (m * m) _ _ old.F4
  have hF5 : IsProduct p m (m * m) (computeAssignment m A B p old).F1
      (computeAssignment m A B p old).F3 (computeAssignment m A B p old).F5 :=
    isProduct_forLoop m (m * m) _ _ old.F5
  refine numCons_cases (P := fun c => constraintValue p m B A _ _ c = 0) (fun i hi j hj => ?_)
    (fun i hi j hj => ?_) (fun i hi => ?_) (fun i hi => ?_) hc
  · rw [constraintValue_first _ _ _ _ hi hj, hF4 j hj _ (block_lt hi hj),
      computeAssignment_F1 A B old hj, computeAssignment_F2 A B old hi hj,
      computeAssignment_F3 A B old hi hj, ← (h.difference hi hj).1]
    ring
  · have hdiff := (h.difference hi hj).2
    rw [constraintValue_second _ _ _ _ hi hj, hF5 j hj _ (block_lt hi hj),
      computeAssignment_F1 A B old hj, computeAssignment_F3 A B old hi hj, ← hdiff]
    ring
  · rw [constraintValue_output _ _ _ _ hi, computation_apply A B oldY hi, Int.cast_natCast,
      ← sum_differs]
    refine sub_eq_zero_of_eq (Finset.sum_congr rfl fun j hj => ?_)
    rw [computeAssignment_F3 A B old hi (Finset.mem_range.1 hj)]
  · rw [constraintValue_input, computeAssignment_F1 A B old hi, sub_self]

/-- For inputs below the prime, the prover computes the distances, and what it proves is
accepted. -/
theorem hdist_complete (h : InRange p m A B) (oldY : Vec) (old : Assignment) (numRepetitions : ℕ)
    {numRepsLin : ℕ} (hlin : 0 < numRepsLin) (coins : ℕ → Coins) :
    (∀ i < m, computation m A B oldY i = distance m A B i) ∧
      verdict m (numRepetitions + 1) numRepsLin p B A (computation m A B oldY)
        (computeAssignment m A B p old) coins = true := by
  refine ⟨fun i hi => computation_apply A B oldY hi, ?_⟩
  rw [verdict_iff hlin]
  constructor
  · exact corrTest_product (isProduct_forLoop m (m * m) _ _ old.F4) _ _ _
  · exact corrTest_product (isProduct_forLoop m (m * m) _ _ old.F5) _ _ _
  · refine Finset.sum_eq_zero fun c hc => ?_
    rw [constraintValue_computeAssignment h old oldY (Finset.mem_range.1 hc), mul_zero]

end Complete

/-- No vectors. -/
def noVectors : Assignment := ⟨zeroVec, zeroVec, zeroVec, zeroVec, zeroVec⟩

theorem inRange_two : InRange 103 2 (fun j => j) fun _ => 1 :=
  ⟨fun j hj => ⟨Int.natCast_nonneg j, by exact_mod_cast hj.trans (by decide)⟩,
    fun _ _ => ⟨by decide, by decide⟩⟩

/-- Draws that differ from cell to cell and from one repetition to the next. -/
def steppedCoins (rho : ℕ) : Coins :=
  ⟨⟨fun i v x => rho + i + v + x + 1, fun i v x => 2 * x + i + v + 3⟩, fun c => 3 * c + rho + 2⟩

/-- The distances of `(0, 1)` to two rows of ones. -/
theorem hdist_complete_two :
    (∀ i < 2, computation 2 (fun j => j) (fun _ => 1) zeroVec i =
        distance 2 (fun j => j) (fun _ => 1) i) ∧
      verdict 2 8 25 (103 : ℕ) (fun _ => 1) (fun j => j)
        (computation 2 (fun j => j) (fun _ => 1) zeroVec)
        (computeAssignment 2 (fun j => j) (fun _ => 1) (103 : ℕ) noVectors)
        steppedCoins = true := by
  have : Fact (Nat.Prime 103) := ⟨by norm_num⟩
  exact hdist_complete inRange_two zeroVec noVectors 7 (by decide) steppedCoins

/-! ## Other distances -/

/-- The draws of one repetition. -/
inductive Draw (numRepsLin m : ℕ) where
  | lin (d : LinDraw numRepsLin 5 (vecSize m))
  | alpha (c : Fin (numCons m))
deriving DecidableEq, Fintype

section Sound

variable {m p numRepsLin : ℕ} {A B output : Vec} {F : Assignment}

/-- The queries and the weights that have been drawn. -/
def drawnCoins (ω : Draw numRepsLin m → ZMod p) : Coins where
  lin := drawnLin fun d => ω (.lin d)
  alpha := drawnVec fun c => ω (.alpha c)

variable [Fact p.Prime]

/-- Vectors that satisfy every constraint are the distances. -/
theorem output_eq_distance (h : InRange p m A B) (hF4 : IsProduct p m (m * m) F.F1 F.F2 F.F4)
    (hF5 : IsProduct p m (m * m) F.F1 F.F3 F.F5)
    (hconstraints : ∀ c < numCons m, constraintValue p m B A output F c = 0) {i : ℕ} (hi : i < m) :
    (output i : ZMod p) = distance m A B i := by
  have hnum := numCons_eq m
  have hF1 : ∀ j < m, (F.F1 j : ZMod p) = A j := by
    intro j hj
    have hc := hconstraints (m * m + m * m + m + j) (by omega)
    rw [constraintValue_input] at hc
    exact (sub_eq_zero.1 hc).symm
  have hF3 : ∀ j < m, (F.F3 (i * m + j) : ZMod p) = differs A B (i * m + j) j := by
    intro j hj
    have hcell := block_lt hi hj
    have hfirst := hconstraints (i * m + j) (by omega)
    have hsecond := hconstraints (m * m + (i * m + j)) (by omega)
    rw [constraintValue_first _ _ _ _ hi hj, hF4 j hj _ hcell, hF1 j hj] at hfirst
    rw [constraintValue_second _ _ _ _ hi hj, hF5 j hj _ hcell, hF1 j hj] at hsecond
    rw [differs]
    by_cases heq : A j = B (i * m + j)
    · have hzero := (h.sub_eq_zero_iff hi hj).2 heq
      rw [if_pos heq, Int.cast_zero]
      linear_combination (F.F2 (i * m + j) : ZMod p) * hzero - hfirst
    · -- the difference is not zero, so the second group leaves one
      have hprod : ((A j : ZMod p) - B (i * m + j)) * (1 - F.F3 (i * m + j)) = 0 := by
        linear_combination hsecond
      rw [if_neg heq, Int.cast_one]
      have hone := (mul_eq_zero.1 hprod).resolve_left
        fun hsub => heq ((h.sub_eq_zero_iff hi hj).1 hsub)
      exact (sub_eq_zero.1 hone).symm
  have hout := hconstraints (m * m + m * m + i) (by omega)
  rw [constraintValue_output _ _ _ _ hi] at hout
  rw [← sum_differs, sub_eq_zero.1 hout]
  exact Finset.sum_congr rfl fun j hj => hF3 j (Finset.mem_range.1 hj)

theorem rare_passes (h : InRange p m A B) (F : Assignment) (hlin : 0 < numRepsLin) {i : ℕ}
    (hi : i < m) (hwrong : (output i : ZMod p) ≠ distance m A B i) :
    Rare 2 p fun ω : Draw numRepsLin m → ZMod p => Passes p m B A output F (drawnCoins ω) := by
  -- the queries to `A`, `M` and `S` in the first linearity test
  let x : Fin m → Draw numRepsLin m := fun k => .lin (.l1 ⟨0, hlin⟩ (0 : Fin 5) k)
  let y : Fin (m * m) → Draw numRepsLin m := fun k => .lin (.l1 ⟨0, hlin⟩ (1 : Fin 5) k)
  let z : Fin (m * m) → Draw numRepsLin m := fun k => .lin (.l1 ⟨0, hlin⟩ (2 : Fin 5) k)
  have hx : Function.Injective x := fun _ _ heq => by cases heq; rfl
  have hy : Function.Injective y := fun _ _ heq => by cases heq; rfl
  have hz : Function.Injective z := fun _ _ heq => by cases heq; rfl
  by_cases hF4 : IsProduct p m (m * m) F.F1 F.F2 F.F4
  swap
  · have hrare := rare_corrTest (p := p) hx hy (fun _ _ heq => by cases heq) hF4
      fun ω => (drawnCoins ω).lin.l1 0 3
    refine hrare.mono fun ω hω => ?_
    have hcor := hω.cor1
    rw [drawnCoins, drawnLin_l1 _ hlin (by decide), drawnLin_l1 _ hlin (by decide)] at hcor
    exact hcor
  by_cases hF5 : IsProduct p m (m * m) F.F1 F.F3 F.F5
  swap
  · have hrare := rare_corrTest (p := p) hx hz (fun _ _ heq => by cases heq) hF5
      fun ω => (drawnCoins ω).lin.l1 0 4
    refine hrare.mono fun ω hω => ?_
    have hcor := hω.cor2
    rw [drawnCoins, drawnLin_l1 _ hlin (by decide), drawnLin_l1 _ hlin (by decide)] at hcor
    exact hcor
  -- the products are right, so a constraint fails
  have hfails : ∃ c < numCons m, constraintValue p m B A output F c ≠ 0 := by
    by_contra hnone
    push Not at hnone
    exact hwrong (output_eq_distance h hF4 hF5 hnone hi)
  obtain ⟨c, hc, hne⟩ := hfails
  have hrare := rare_linear (F := ZMod p) (x := (Draw.alpha : _ → Draw numRepsLin m))
    (fun _ _ heq => Draw.alpha.inj heq) (a := fun c => constraintValue p m B A output F c)
    (i := ⟨c, hc⟩) hne 0
  rw [Nat.card_zmod] at hrare
  refine (hrare.weaken one_le_two).mono fun ω hω => ?_
  have hckt := hω.ckt
  rw [Finset.sum_range] at hckt
  rw [zero_add, ← hckt]
  exact Finset.sum_congr rfl fun c _ => by rw [drawnCoins, cast_drawnVec]

/-- With an output that is not the distance modulo `p`, at most two in `p` of all draws accept,
whatever the vectors; and so many in all draws accept as with a single repetition. -/
theorem hdist_sound (h : InRange p m A B) (F : Assignment)
    (hwrong : ∃ i < m, output i % (p : ℤ) ≠ distance m A B i % (p : ℤ)) (numRepetitions : ℕ)
    (hlin : 0 < numRepsLin) :
    let Draws : ℕ → Type := fun n => Fin n → Draw numRepsLin m → ZMod p
    let accepted : ℕ → ℕ := fun n => Nat.card {ω : Draws n //
      verdict m n numRepsLin p B A output F (allRepetitions fun rho => drawnCoins (ω rho)) = true}
    p * accepted (numRepetitions + 1) ≤ 2 * Nat.card (Draws (numRepetitions + 1)) ∧
      accepted (numRepetitions + 1) * Nat.card (Draws 1) =
        accepted 1 * Nat.card (Draws (numRepetitions + 1)) := by
  intro Draws accepted
  obtain ⟨i, hi, hne⟩ := hwrong
  rw [Ne, emod_eq_emod_iff, Int.cast_natCast] at hne
  have hrare : Rare 2 p fun ω : Draw numRepsLin m → ZMod p =>
      Passes p m B A output F (drawnCoins ω) := rare_passes h F hlin hi hne
  refine hrare.last
    (fun n ω => verdict m n numRepsLin p B A output F
      (allRepetitions fun rho => drawnCoins (ω rho)) = true) (fun n ω => ?_) numRepetitions
  have hlast := allRepetitions_apply (fun rho => drawnCoins (ω rho)) (Fin.last n)
  rw [verdict_iff hlin]
  exact iff_of_eq (congrArg (Passes p m B A output F) hlast)

end Sound

/-- Zero is not the distance of `(0, 1)` to a row of ones. -/
theorem hdist_sound_zero :
    let Draws : ℕ → Type := fun n => Fin n → Draw 25 2 → ZMod 103
    let accepted : ℕ → ℕ := fun n => Nat.card {ω : Draws n //
      verdict 2 n 25 (103 : ℕ) (fun _ => 1) (fun j => j) zeroVec noVectors
        (allRepetitions fun rho => drawnCoins (ω rho)) = true}
    103 * accepted 8 ≤ 2 * Nat.card (Draws 8) ∧
      accepted 8 * Nat.card (Draws 1) = accepted 1 * Nat.card (Draws 8) := by
  have : Fact (Nat.Prime 103) := ⟨by norm_num⟩
  exact hdist_sound inRange_two noVectors ⟨0, two_pos, by decide⟩ 7 (by decide)

end Pepper.AppsTailored.HDist
