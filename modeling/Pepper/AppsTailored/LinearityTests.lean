import Pepper.Libv.LinearProofs

/-!
# Tests of the tailored applications

The applications of `apps_tailored` have one to five proof vectors. For each of them a linearity
test asks two queries; the third answer is the sum of the two. The queries of the first linearity
test also hide those of the correction and circuit tests. `batchAnswers` lays the answers of a proof
out as `f_answers` holds them: per repetition those of all linearity tests, then the others.
-/

set_option autoImplicit false

open Pepper.Common.Gmp Pepper.Foundations.Loop
open Pepper.Libv.Queries Pepper.Libv.GingerTests Pepper.Libv.LinearProofs

namespace Pepper.AppsTailored

/-! ## Answers -/

/-- The queries of the linearity tests of one repetition: `l1 i v` and `l2 i v` are those of test
`i` to vector `v`. -/
structure LinCoins where
  l1 : ℕ → ℕ → Vec
  l2 : ℕ → ℕ → Vec
deriving Inhabited

/-- The proof vectors with their sizes. -/
structure Proof where
  size : ℕ → ℕ
  vector : ℕ → Vec

/-- The answers of one linearity test to the queries to vector `v`. -/
def linAnswer (proof : Proof) (s : LinCoins) (i v : ℕ) : ℕ → ℤ
  | 0 => dotProduct (proof.size v) (s.l1 i v) (proof.vector v)
  | 1 => dotProduct (proof.size v) (s.l2 i v) (proof.vector v)
  | _ => dotProduct (proof.size v) (s.l1 i v) (proof.vector v) +
      dotProduct (proof.size v) (s.l2 i v) (proof.vector v)

/-- `NUM_LIN_QUERIES`: three for each vector. -/
def numLinQueries (numVectors : ℕ) : ℕ := numVectors * 3

/-- `NUM_LIN_PCP_QUERIES`. -/
def numLinPcpQueries (numVectors numRepsLin numDivQueries : ℕ) : ℕ :=
  numRepsLin * numLinQueries numVectors + numDivQueries

/-- `f_answers` for a proof that is vectors; `others` are the answers after the linearity tests. -/
def batchAnswers (numVectors numRepsLin numDivQueries : ℕ) (proof : Proof) (coins : ℕ → LinCoins)
    (others : ℕ → ℕ → ℤ) : Vec := fun x =>
  let rho := x / numLinPcpQueries numVectors numRepsLin numDivQueries
  let k := x % numLinPcpQueries numVectors numRepsLin numDivQueries
  if k < numRepsLin * numLinQueries numVectors then
    linAnswer proof (coins rho) (k / numLinQueries numVectors)
      (k % numLinQueries numVectors / 3) (k % numLinQueries numVectors % 3)
  else others rho (k - numRepsLin * numLinQueries numVectors)

/-! ## Tests -/

/-- The tests of all vectors in linearity test `i`. -/
def linTests (numVectors i : ℕ) (answers : Vec) (prime : ℤ) : Bool :=
  forLoop numVectors (fun v lin =>
    let base := i * numLinQueries numVectors + v * 3
    lin && linTest (answers base) (answers (base + 1)) (answers (base + 2)) prime) true

/-- The linearity tests of a repetition, by which two of the applications start `result` anew. -/
def linResult (numVectors numRepsLin : ℕ) (answers : Vec) (prime : ℤ) (result : Bool) : Bool :=
  forLoop numRepsLin (fun i result =>
    if i = 0 then linTests numVectors i answers prime
    else result && linTests numVectors i answers prime) result

theorem linResult_anew {numVectors numRepsLin : ℕ} (hlin : 0 < numRepsLin) (answers : Vec)
    (prime : ℤ) (result : Bool) :
    linResult numVectors numRepsLin answers prime result =
      linResult numVectors numRepsLin answers prime false := by
  have hagree : 0 < numRepsLin → linResult numVectors numRepsLin answers prime result =
      linResult numVectors numRepsLin answers prime false := by
    refine forLoop_simulation (R := fun k a b => 0 < k → a = b) (fun h => absurd h (lt_irrefl 0)) ?_
    intro i _ a b hab _
    by_cases hi : i = 0
    · rw [if_pos hi, if_pos hi]
    · rw [if_neg hi, if_neg hi, hab (Nat.pos_of_ne_zero hi)]
  exact hagree hlin

/-- `ckt_answers`: for each vector the answer to its circuit query, of which `first` is that of the
first vector, and the answer to its self-correction query. -/
def cktAnswers (first : ℕ) (answers : Vec) : Vec := fun x =>
  if x % 2 = 0 then answers (first + x / 2) else answers (x / 2 * 3)

/-- The answers of one repetition, for a proof that is vectors. -/
structure AnswersOf (numVectors numRepsLin numDivQueries : ℕ) (proof : Proof) (s : LinCoins)
    (others : ℕ → ℤ) (answers : Vec) : Prop where
  lin : ∀ i < numRepsLin, ∀ v < numVectors, ∀ k < 3,
    answers (i * numLinQueries numVectors + v * 3 + k) = linAnswer proof s i v k
  other : ∀ k < numDivQueries,
    answers (numRepsLin * numLinQueries numVectors + k) = others k

theorem answersOf_batchAnswers {numVectors numRepsLin numDivQueries : ℕ} (proof : Proof)
    (coins : ℕ → LinCoins) (others : ℕ → ℕ → ℤ) (rho : ℕ) :
    AnswersOf numVectors numRepsLin numDivQueries proof (coins rho) (others rho) fun k =>
      batchAnswers numVectors numRepsLin numDivQueries proof coins others
        (rho * numLinPcpQueries numVectors numRepsLin numDivQueries + k) := by
  constructor
  · intro i hi v hv k hk
    have hslot : v * 3 + k < numLinQueries numVectors := block_lt hv hk
    have hlt : i * numLinQueries numVectors + (v * 3 + k) <
        numRepsLin * numLinQueries numVectors := block_lt hi hslot
    have hall : i * numLinQueries numVectors + (v * 3 + k) <
        numLinPcpQueries numVectors numRepsLin numDivQueries := by
      rw [numLinPcpQueries]
      omega
    rw [batchAnswers, add_assoc (i * _), block_div hall, Nat.mul_add_mod_of_lt hall, if_pos hlt,
      block_div hslot, Nat.mul_add_mod_of_lt hslot, block_div hk, Nat.mul_add_mod_of_lt hk]
  · intro k hk
    have hall : numRepsLin * numLinQueries numVectors + k <
        numLinPcpQueries numVectors numRepsLin numDivQueries := Nat.add_lt_add_left hk _
    rw [batchAnswers, block_div hall, Nat.mul_add_mod_of_lt hall, if_neg (by omega),
      Nat.add_sub_cancel_left]

section Answers

variable {p numVectors numRepsLin numDivQueries : ℕ} {proof : Proof} {s : LinCoins}
  {others : ℕ → ℤ} {answers : Vec}

/-- Vectors pass the linearity tests. -/
theorem AnswersOf.linTests
    (h : AnswersOf numVectors numRepsLin numDivQueries proof s others answers) (prime : ℤ) {i : ℕ}
    (hi : i < numRepsLin) : linTests numVectors i answers prime = true := by
  refine forLoop_induction (P := fun _ lin => lin = true) rfl ?_
  rintro v hv lin rfl
  have h0 := h.lin i hi v hv 0 (by decide)
  rw [Nat.add_zero] at h0
  rw [Bool.true_and, h0, h.lin i hi v hv 1 (by decide), h.lin i hi v hv 2 (by decide), linTest,
    decide_eq_true_eq]
  rfl

theorem AnswersOf.linResult
    (h : AnswersOf numVectors numRepsLin numDivQueries proof s others answers) (prime : ℤ)
    (hlin : 0 < numRepsLin) (result : Bool) :
    linResult numVectors numRepsLin answers prime result = true := by
  have hrun : 0 < numRepsLin → AppsTailored.linResult numVectors numRepsLin answers prime result = true := by
    refine forLoop_induction (P := fun k b => 0 < k → b = true) (fun h => absurd h (lt_irrefl 0)) ?_
    intro i hi b hb _
    by_cases hzero : i = 0
    · rw [if_pos hzero, h.linTests prime hi]
    · rw [if_neg hzero, hb (Nat.pos_of_ne_zero hzero), h.linTests prime hi, Bool.and_true]
  exact hrun hlin

/-- The queries of the first linearity test, which are also used by the other tests. -/
theorem AnswersOf.first
    (h : AnswersOf numVectors numRepsLin numDivQueries proof s others answers)
    (hlin : 0 < numRepsLin) {v k : ℕ} (hv : v < numVectors) (hk : k < 3) :
    answers (v * 3 + k) = linAnswer proof s 0 v k := by
  have hfirst := h.lin 0 hlin v hv k hk
  rwa [Nat.zero_mul, Nat.zero_add] at hfirst

/-- The circuit test of vectors, for the circuit queries from `first` on. -/
theorem AnswersOf.cktTest_iff [Fact p.Prime]
    (h : AnswersOf numVectors numRepsLin numDivQueries proof s others answers)
    (hlin : 0 < numRepsLin) (first : ℕ) (hdiv : first + numVectors ≤ numDivQueries) {a : ℕ → Vec}
    (hckt : ∀ v < numVectors, others (first + v) = dotProduct (proof.size v)
      (createCktTestQueries (proof.size v) (a v) (s.l1 0 v) p zeroVec) (proof.vector v)) (c : ℤ) :
    cktTest (2 * numVectors)
        (cktAnswers (numRepsLin * numLinQueries numVectors + first) answers) c p = true ↔
      ((c + ∑ v ∈ Finset.range numVectors, dotProduct (proof.size v) (a v) (proof.vector v) : ℤ) :
        ZMod p) = 0 := by
  rw [cktTest, decide_eq_true_eq, Nat.mul_div_cancel_left _ two_pos, forLoop_add,
    ← Int.zero_emod (p : ℤ), emod_eq_emod_iff, Int.cast_zero]
  refine Eq.congr_left ?_
  rw [Int.cast_add, Int.cast_add, Int.cast_sum, Int.cast_sum]
  refine congrArg _ (Finset.sum_congr rfl fun v hv => ?_)
  rw [Finset.mem_range] at hv
  have hodd : (2 * v + 1) / 2 = v := by omega
  have hself := h.first hlin hv (k := 0) (by decide)
  rw [Nat.add_zero, linAnswer] at hself
  rw [cktAnswers, cktAnswers, if_pos (by omega), if_neg (by omega), hodd,
    Nat.mul_div_cancel_left _ two_pos, hself, add_assoc, h.other _ (by omega), hckt v hv,
    Int.cast_sub, cast_cktTestQueries_dot, add_sub_cancel_left]

end Answers

/-! ## Draws -/

/-- The draws of the linearity tests of one repetition. -/
inductive LinDraw (numRepsLin numVectors : ℕ) (size : ℕ → ℕ) where
  | l1 (i : Fin numRepsLin) (v : Fin numVectors) (k : Fin (size v))
  | l2 (i : Fin numRepsLin) (v : Fin numVectors) (k : Fin (size v))
deriving DecidableEq, Fintype

/-- The coins of all repetitions; beyond the last there are none. -/
def allRepetitions {α : Type} [Inhabited α] {numRepetitions : ℕ} (coins : Fin numRepetitions → α)
    (rho : ℕ) : α :=
  if h : rho < numRepetitions then coins ⟨rho, h⟩ else default

theorem allRepetitions_apply {α : Type} [Inhabited α] {numRepetitions : ℕ}
    (coins : Fin numRepetitions → α) (rho : Fin numRepetitions) :
    allRepetitions coins rho = coins rho := dif_pos rho.isLt

section Draws

variable {p : ℕ} {numRepsLin numVectors : ℕ} {size : ℕ → ℕ}

/-- The queries that have been drawn. -/
def drawnLin (ω : LinDraw numRepsLin numVectors size → ZMod p) : LinCoins where
  l1 := fun i v =>
    if h : i < numRepsLin ∧ v < numVectors then drawnVec fun k => ω (.l1 ⟨i, h.1⟩ ⟨v, h.2⟩ k)
    else zeroVec
  l2 := fun i v =>
    if h : i < numRepsLin ∧ v < numVectors then drawnVec fun k => ω (.l2 ⟨i, h.1⟩ ⟨v, h.2⟩ k)
    else zeroVec

theorem drawnLin_l1 (ω : LinDraw numRepsLin numVectors size → ZMod p) {i v : ℕ}
    (hi : i < numRepsLin) (hv : v < numVectors) :
    (drawnLin ω).l1 i v = drawnVec fun k => ω (.l1 ⟨i, hi⟩ ⟨v, hv⟩ k) := dif_pos ⟨hi, hv⟩

theorem drawnLin_l2 (ω : LinDraw numRepsLin numVectors size → ZMod p) {i v : ℕ}
    (hi : i < numRepsLin) (hv : v < numVectors) :
    (drawnLin ω).l2 i v = drawnVec fun k => ω (.l2 ⟨i, hi⟩ ⟨v, hv⟩ k) := dif_pos ⟨hi, hv⟩

end Draws

end Pepper.AppsTailored
