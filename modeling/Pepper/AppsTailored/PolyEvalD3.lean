import Pepper.AppsTailored.LinearityTests

/-!
# Evaluation of a polynomial of degree three

The coefficients of a polynomial in `m` variables lie in one block: those of the monomials
`x[i] * x[j] * x[k]` with `k ≤ j ≤ i`, of `x[i] * x[j]` with `j ≤ i`, of `x[i]`, and the constant.
The prover counts through them; the verifier of `polyeval_d3` computes where each part starts
(`tripleCount_eq`, `pairCount_eq`). The proof vectors are the variables, their products and the
products of three.

`polyEval_complete`: what the prover computes is the value of the polynomial and is accepted.
`polyEval_sound`: with another output, any vectors are accepted by at most two in `p` of all draws;
as in `HDist`, the verdict is that of the last repetition.
-/

set_option autoImplicit false

open Pepper.Common.Gmp Pepper.Foundations.Loop Pepper.Foundations.LinearPcp
open Pepper.Libv.Queries Pepper.Libv.Evaluation Pepper.Libv.GingerTests Pepper.Libv.LinearProofs

namespace Pepper.AppsTailored.PolyEvalD3

universe u

/-! ## Pairs and triples -/

section Loops

variable {σ : Type u} {τ : Type u}

/-- The loop over `j <= i`. -/
def forPairs (m : ℕ) (body : ℕ → ℕ → σ → σ) : σ → σ :=
  forLoop m fun i => forLoop (i + 1) fun j => body i j

/-- The loop over `k <= j <= i`. -/
def forTriples (m : ℕ) (body : ℕ → ℕ → ℕ → σ → σ) : σ → σ :=
  forLoop m fun i => forLoop (i + 1) fun j => forLoop (j + 1) fun k => body i j k

/-- How many pairs come before row `i`. -/
def pairCount (i : ℕ) : ℕ := ∑ i' ∈ Finset.range i, (i' + 1)

/-- How many triples come before `i`. -/
def tripleCount (i : ℕ) : ℕ := ∑ i' ∈ Finset.range i, pairCount (i' + 1)

theorem two_mul_pairCount (m : ℕ) : 2 * pairCount m = m * m + m := by
  rw [pairCount]
  induction m with
  | zero => rfl
  | succ m ih =>
      rw [Finset.sum_range_succ, Nat.mul_add, ih]
      ring

theorem six_mul_tripleCount (m : ℕ) : 6 * tripleCount m = m * m * m + 3 * (m * m) + 2 * m := by
  rw [tripleCount]
  induction m with
  | zero => rfl
  | succ m ih =>
      have htwo := two_mul_pairCount (m + 1)
      rw [Finset.sum_range_succ, Nat.mul_add, ih]
      linear_combination 3 * htwo

/-- The size of the block of quadratic coefficients. -/
theorem pairCount_eq (m : ℕ) : pairCount m = (m * m + m) / 2 := by
  rw [← two_mul_pairCount, Nat.mul_div_cancel_left _ two_pos]

/-- The offset of the quadratic coefficients. -/
theorem tripleCount_eq (m : ℕ) : tripleCount m = (m * m * m + 3 * (m * m) + 2 * m) / 6 := by
  rw [← six_mul_tripleCount, Nat.mul_div_cancel_left _ (by decide)]

theorem sum_ones (n : ℕ) : ∑ _j ∈ Finset.range n, 1 = n := by
  rw [Finset.sum_const, Finset.card_range, smul_eq_mul, mul_one]

/-- A loop over pairs that counts them. -/
theorem forPairs_counter (m : ℕ) (g : ℕ → ℕ → ℕ → τ → τ) (s : ℕ × τ) :
    forPairs m (fun i j s => (s.1 + 1, g i j s.1 s.2)) s =
      (s.1 + pairCount m, forPairs m (fun i j => g i j (s.1 + (pairCount i + j))) s.2) := by
  have hrow : ∀ i (s : ℕ × τ), forLoop (i + 1) (fun j s => (s.1 + 1, g i j s.1 s.2)) s =
      (s.1 + (i + 1), forLoop (i + 1) (fun j => g i j (s.1 + j)) s.2) := by
    intro i s
    rw [forLoop_counter (i + 1) (fun _ => 1) (g i)]
    simp only [sum_ones]
  refine (forLoop_congr fun i _ s => hrow i s).trans ?_
  rw [forLoop_counter m (fun i => i + 1) fun i c t => forLoop (i + 1) (fun j => g i j (c + j)) t]
  simp only [Nat.add_assoc]
  rfl

/-- A loop over triples that counts them. -/
theorem forTriples_counter (m : ℕ) (g : ℕ → ℕ → ℕ → ℕ → τ → τ) (s : ℕ × τ) :
    forTriples m (fun i j k s => (s.1 + 1, g i j k s.1 s.2)) s =
      (s.1 + tripleCount m,
        forTriples m (fun i j k => g i j k (s.1 + (tripleCount i + (pairCount j + k)))) s.2) := by
  have hpairs : ∀ i (s : ℕ × τ), forLoop (i + 1) (fun j => forLoop (j + 1) fun k s =>
      (s.1 + 1, g i j k s.1 s.2)) s = (s.1 + pairCount (i + 1),
        forLoop (i + 1) (fun j => forLoop (j + 1) fun k => g i j k (s.1 + (pairCount j + k))) s.2) :=
    fun i s => forPairs_counter (i + 1) (g i) s
  refine (forLoop_congr fun i _ s => hpairs i s).trans ?_
  rw [forLoop_counter m (fun i => pairCount (i + 1)) fun i c t => forLoop (i + 1)
    (fun j => forLoop (j + 1) fun k => g i j k (c + (pairCount j + k))) t]
  simp only [Nat.add_assoc]
  rfl

/-- What one triple establishes and no triple breaks. -/
theorem forTriples_once {m i j k : ℕ} {g : ℕ → ℕ → ℕ → σ → σ} {Q : σ → Prop} (hi : i < m)
    (hj : j ≤ i) (hk : k ≤ j) (set : ∀ s, Q (g i j k s))
    (keep : ∀ i < m, ∀ j ≤ i, ∀ k ≤ j, ∀ s, Q s → Q (g i j k s)) (s : σ) :
    Q (forTriples m g s) := by
  have hkeep : ∀ i < m, ∀ j ≤ i, ∀ s, Q s → Q (forLoop (j + 1) (fun k => g i j k) s) :=
    fun i hi j hj s hs => forLoop_induction (P := fun _ => Q) hs
      fun k hk => keep i hi j hj k (Nat.le_of_lt_succ hk)
  refine forLoop_once hi (forLoop_once (Nat.lt_succ_of_le hj) (forLoop_once (Nat.lt_succ_of_le hk)
    set ?_) ?_) ?_ s
  · exact fun k hk => keep i hi j hj k (Nat.le_of_lt_succ hk)
  · exact fun j hj => hkeep i hi j (Nat.le_of_lt_succ hj)
  · exact fun i hi s hs => forLoop_induction (P := fun _ => Q) hs
      fun j hj => hkeep i hi j (Nat.le_of_lt_succ hj)

end Loops

/-! ## The prover -/

/-- `num_coefficients`. -/
def numCoefficients (m : ℕ) : ℕ :=
  (m * m * m + 3 * (m * m) + 2 * m) / 6 + (m * m + 3 * m) / 2 + 1

/-- `computation_polyeval`; `F2` is the block for the products of the variables. -/
def computationPolyeval (m : ℕ) (coefficients input : Vec) (prime : ℤ) (F2 : Vec) : ℤ :=
  let F2 := forPairs m (fun i j F2 => Function.update F2 (m * i + j) (input i * input j)) F2
  let s := forTriples m (fun i j k s =>
    (s.1 + 1, s.2 + coefficients s.1 * (F2 (m * i + j) * input k))) (0, (0 : ℤ))
  let s := forPairs m (fun i j s => (s.1 + 1, s.2 + coefficients s.1 * F2 (m * i + j))) s
  let output := forLoop m (fun i output => output + coefficients (s.1 + i) * input i) s.2
  (output + coefficients (s.1 + m)) % prime

/-- The proof vectors. -/
structure Assignment where
  F1 : Vec
  F2 : Vec
  F3 : Vec

/-- The product of three variables is set in the cell of each of their orders. -/
def assignTriple (m i j k : ℕ) (temp : ℤ) (F3 : Vec) : Vec :=
  let F3 := Function.update F3 ((i * m + j) * m + k) temp
  let F3 := Function.update F3 ((j * m + i) * m + k) temp
  let F3 := Function.update F3 ((j * m + k) * m + i) temp
  let F3 := Function.update F3 ((k * m + j) * m + i) temp
  let F3 := Function.update F3 ((k * m + i) * m + j) temp
  Function.update F3 ((i * m + k) * m + j) temp

/-- `computation_assignment`; the loops for `F2` are those of `compute_assignment_vectors`. -/
def computationAssignment (m : ℕ) (input : Vec) (prime : ℤ) (old : Assignment) : Assignment :=
  let F2 := computeAssignmentVectors m prime input old.F2
  { F1 := forLoop m (fun i F1 => Function.update F1 i (input i % prime)) old.F1
    F2 := F2
    F3 := forTriples m (fun i j k =>
      assignTriple m i j k (F2 (m * i + j) * input k % prime)) old.F3 }

/-- `size_f1_vec`, ..., `size_f3_vec`. -/
def vecSize (m : ℕ) : ℕ → ℕ
  | 0 => m
  | 1 => m * m
  | _ => m * m * m

/-- The proof. -/
def polyProof (m : ℕ) (F : Assignment) : Proof where
  size := vecSize m
  vector
    | 0 => F.F1
    | 1 => F.F2
    | _ => F.F3

/-! ## Queries -/

/-- The random choices of one repetition. -/
structure Coins where
  lin : LinCoins
  alpha : Vec
deriving Inhabited

/-- The cubic part of the circuit query. -/
def cubicQuery (m : ℕ) (alpha coefficients : Vec) (prime : ℤ) : Vec :=
  (forTriples m (fun i j k s => (s.1 + 1, Function.update s.2 ((i * m + j) * m + k)
    (-alpha 0 * coefficients s.1 % prime))) (0, zeroVec)).2

/-- Where the quadratic coefficients start. -/
def quadOffset (m : ℕ) : ℕ := (m * m * m + 3 * (m * m) + 2 * m) / 6

/-- The quadratic part. -/
def quadQuery (m : ℕ) (alpha coefficients : Vec) (prime : ℤ) : Vec :=
  (forPairs m (fun i j s => (s.1 + 1, Function.update s.2 (m * i + j)
    (-alpha 0 * coefficients (quadOffset m + s.1) % prime))) (0, zeroVec)).2

/-- The linear part, with the weights of the variables. -/
def linearQuery (m : ℕ) (alpha coefficients : Vec) (prime : ℤ) : Vec :=
  forLoop m (fun i q => Function.update q i ((alpha (i + 1) +
    -alpha 0 * coefficients (quadOffset m + (m * m + m) / 2 + i)) % prime)) zeroVec

/-- The queries of the circuit test before they are hidden. -/
def gammas (m : ℕ) (alpha coefficients : Vec) (prime : ℤ) : ℕ → Vec
  | 0 => linearQuery m alpha coefficients prime
  | 1 => quadQuery m alpha coefficients prime
  | _ => cubicQuery m alpha coefficients prime

/-- The constant of the circuit test for one instance. -/
def cValue (m : ℕ) (alpha coefficients : Vec) (prime : ℤ) (input : Vec) (output : ℤ) : ℤ :=
  let c := forLoop m (fun j c => c + -alpha (j + 1) * input j) 0
  let c := c + -alpha 0 * coefficients (numCoefficients m - 1)
  (c + alpha 0 * output) % prime

/-! ## The tests -/

/-- The queries `Q10`, ..., `Q14`. -/
def numDivQueries : ℕ := 5

/-- The answers to `Q10`, ..., `Q14`. -/
def testAnswer (m : ℕ) (coefficients : Vec) (prime : ℤ) (F : Assignment) (s : Coins) : ℕ → ℤ
  | 0 => dotProduct (m * m) (createCorrTestQueriesReuse m m (s.lin.l1 0 0) (s.lin.l2 0 0)
      (s.lin.l1 0 1) prime zeroVec) F.F2
  | 1 => dotProduct (m * (m * m)) (createCorrTestQueriesReuse m (m * m) (s.lin.l1 0 0)
      (s.lin.l1 0 1) (s.lin.l1 0 2) prime zeroVec) F.F3
  | v + 2 => dotProduct (vecSize m v)
      (createCktTestQueries (vecSize m v) (gammas m s.alpha coefficients prime v) (s.lin.l1 0 v)
        prime zeroVec) ((polyProof m F).vector v)

/-- The answers of the prover to the queries of all repetitions. -/
def answers (m numRepsLin : ℕ) (coefficients : Vec) (prime : ℤ) (F : Assignment)
    (coins : ℕ → Coins) : Vec :=
  batchAnswers 3 numRepsLin numDivQueries (polyProof m F) (fun rho => (coins rho).lin)
    fun rho => testAnswer m coefficients prime F (coins rho)

/-- One repetition of `run_correction_and_circuit_tests`. -/
def runRepetition (numRepsLin : ℕ) (answers : Vec) (cValue prime : ℤ) (result : Bool) : Bool :=
  let result := linResult 3 numRepsLin answers prime result
  let q10 := numRepsLin * numLinQueries 3
  let cor1 := corrTest (answers 0) (answers 1) (answers q10) (answers 3) prime
  let cor2 := corrTest (answers 0) (answers 3) (answers (q10 + 1)) (answers 6) prime
  let ckt2 := cktTest 6 (cktAnswers (q10 + 2) answers) cValue prime
  result && cor1 && cor2 && ckt2

/-- `run_correction_and_circuit_tests` for one instance. -/
def runCorrectionAndCircuitTests (numRepetitions numRepsLin : ℕ) (fAnswers cValues : Vec)
    (prime : ℤ) : Bool :=
  forLoop numRepetitions (fun rho result =>
    runRepetition numRepsLin
      (fun k => fAnswers (rho * numLinPcpQueries 3 numRepsLin numDivQueries + k)) (cValues rho)
      prime result) false

/-- The verdict on a proof that the value of the polynomial at `input` is `output`. -/
def verdict (m numRepetitions numRepsLin : ℕ) (prime : ℤ) (coefficients input : Vec) (output : ℤ)
    (F : Assignment) (coins : ℕ → Coins) : Bool :=
  runCorrectionAndCircuitTests numRepetitions numRepsLin
    (answers m numRepsLin coefficients prime F coins)
    (fun rho => cValue m (coins rho).alpha coefficients prime input output) prime

/-! ## The polynomial -/

section Polynomial

variable {R : Type} [CommRing R]

/-- The coefficients against values for the triples, the pairs and the single variables. -/
def weigh (m : ℕ) (coefficients : ℕ → R) (triples : ℕ → ℕ → ℕ → R) (pairs : ℕ → ℕ → R)
    (singles : ℕ → R) : R :=
  ∑ i ∈ Finset.range m, ∑ j ∈ Finset.range (i + 1), ∑ k ∈ Finset.range (j + 1),
      coefficients (tripleCount i + (pairCount j + k)) * triples i j k +
    ∑ i ∈ Finset.range m, ∑ j ∈ Finset.range (i + 1),
      coefficients (tripleCount m + (pairCount i + j)) * pairs i j +
    ∑ i ∈ Finset.range m, coefficients (tripleCount m + pairCount m + i) * singles i +
    coefficients (tripleCount m + pairCount m + m)

/-- The value of the polynomial. -/
def polyValue (m : ℕ) (coefficients x : ℕ → R) : R :=
  weigh m coefficients (fun i j k => x i * x j * x k) (fun i j => x i * x j) x

end Polynomial

theorem numCoefficients_eq (m : ℕ) : numCoefficients m = tripleCount m + pairCount m + m + 1 := by
  have htwo : (m * m + 3 * m) / 2 = pairCount m + m := by
    have hpairs := two_mul_pairCount m
    omega
  rw [numCoefficients, ← tripleCount_eq, htwo, ← Nat.add_assoc]

theorem forTriples_add (m : ℕ) (f : ℕ → ℕ → ℕ → ℤ) (a : ℤ) :
    forTriples m (fun i j k acc => acc + f i j k) a = a + ∑ i ∈ Finset.range m,
      ∑ j ∈ Finset.range (i + 1), ∑ k ∈ Finset.range (j + 1), f i j k := by
  rw [← forLoop_add]
  refine forLoop_congr fun i _ a => ?_
  rw [← forLoop_add]
  exact forLoop_congr fun j _ a => forLoop_add (j + 1) (f i j) a

theorem forPairs_add (m : ℕ) (f : ℕ → ℕ → ℤ) (a : ℤ) :
    forPairs m (fun i j acc => acc + f i j) a =
      a + ∑ i ∈ Finset.range m, ∑ j ∈ Finset.range (i + 1), f i j := by
  rw [← forLoop_add]
  exact forLoop_congr fun i _ a => forLoop_add (i + 1) (f i) a

/-- The prover computes the value of the polynomial modulo the prime. -/
theorem computationPolyeval_eq (m : ℕ) (coefficients input : Vec) (prime : ℤ) (old : Vec) :
    computationPolyeval m coefficients input prime old =
      polyValue m coefficients input % prime := by
  have hF2 : ∀ i < m, ∀ j ≤ i, forPairs m (fun i j F2 =>
      Function.update F2 (m * i + j) (input i * input j)) old (m * i + j) = input i * input j := by
    intro i hi j hj
    have hcell := forLoop_cells m m (fun _ => 0) (fun i => i + 1) (fun i hi => by omega)
      (fun i j _ => input i * input j) old (fun _ _ _ _ => rfl) i j (by omega)
    simp only [Nat.zero_add, Nat.mul_comm _ m] at hcell
    exact hcell.trans (if_pos ⟨hi, Nat.zero_le _, Nat.lt_succ_of_le hj⟩)
  simp only [computationPolyeval]
  generalize forPairs m (fun i j F2 =>
    Function.update F2 (m * i + j) (input i * input j)) old = F2 at hF2 ⊢
  rw [forTriples_counter m fun i j k c t => t + coefficients c * (F2 (m * i + j) * input k),
    forTriples_add, forPairs_counter m fun i j c t => t + coefficients c * F2 (m * i + j),
    forPairs_add, forLoop_add, polyValue, weigh]
  simp only [zero_add]
  congr 4
  · refine Finset.sum_congr rfl fun i hi => Finset.sum_congr rfl fun j hj =>
      Finset.sum_congr rfl fun k _ => ?_
    rw [hF2 i (Finset.mem_range.1 hi) j (Nat.le_of_lt_succ (Finset.mem_range.1 hj))]
  · refine Finset.sum_congr rfl fun i hi => Finset.sum_congr rfl fun j hj => ?_
    rw [hF2 i (Finset.mem_range.1 hi) j (Nat.le_of_lt_succ (Finset.mem_range.1 hj))]

/-! ## The circuit test -/

section Circuit

variable {m : ℕ}

theorem forPairs_dot (v : ℕ → ℕ → ℤ) (F2 : Vec) :
    dotProduct (m * m) (forPairs m (fun i j q => Function.update q (m * i + j) (v i j)) zeroVec)
        F2 = ∑ i ∈ Finset.range m, ∑ j ∈ Finset.range (i + 1), v i j * F2 (m * i + j) := by
  have hrow : ∀ i < m, ∀ q : Vec, (∀ x, m * i ≤ x → q x = 0) →
      dotProduct (m * m) (forLoop (i + 1)
          (fun j q => Function.update q (m * i + j) (v i j)) q) F2 =
        dotProduct (m * m) q F2 + ∑ j ∈ Finset.range (i + 1), v i j * F2 (m * i + j) ∧
        ∀ x, m * (i + 1) ≤ x → forLoop (i + 1)
          (fun j q => Function.update q (m * i + j) (v i j)) q x = 0 := by
    intro i hi q hq
    have hcells := dotProduct_ascending (n := m * m) (F := F2) (fun j => m * i + j)
      (fun j q => Function.update q (m * i + j) (v i j))
      (fun j => v i j * F2 (m * i + j)) (fun j (hj : j < i + 1) q hq => ?_) hq
    · refine ⟨hcells.1, fun x hx => hcells.2 x ?_⟩
      rw [Nat.mul_succ] at hx
      omega
    · refine dotProduct_ascending_cell ?_ (v i j) F2 hq
      rw [Nat.mul_comm m i]
      exact block_lt hi (by omega)
  have hall := (dotProduct_ascending _ _ _ hrow (q := zeroVec) fun _ _ => rfl).1
  rwa [dotProduct_zeroVec, zero_add] at hall

theorem forTriples_dot (v : ℕ → ℕ → ℕ → ℤ) (F3 : Vec) :
    dotProduct (m * m * m) (forTriples m (fun i j k q =>
        Function.update q ((i * m + j) * m + k) (v i j k)) zeroVec) F3 =
      ∑ i ∈ Finset.range m, ∑ j ∈ Finset.range (i + 1), ∑ k ∈ Finset.range (j + 1),
        v i j k * F3 ((i * m + j) * m + k) := by
  have hcells : ∀ i < m, ∀ j < i + 1, ∀ q : Vec, (∀ x, (i * m + j) * m ≤ x → q x = 0) →
      dotProduct (m * m * m) (forLoop (j + 1)
          (fun k q => Function.update q ((i * m + j) * m + k) (v i j k)) q) F3 =
        dotProduct (m * m * m) q F3 +
          ∑ k ∈ Finset.range (j + 1), v i j k * F3 ((i * m + j) * m + k) ∧
        ∀ x, (i * m + (j + 1)) * m ≤ x → forLoop (j + 1)
          (fun k q => Function.update q ((i * m + j) * m + k) (v i j k)) q x = 0 := by
    intro i hi j hj q hq
    have hcells := dotProduct_ascending (n := m * m * m) (F := F3)
      (fun k => (i * m + j) * m + k) (fun k q => Function.update q ((i * m + j) * m + k) (v i j k))
      (fun k => v i j k * F3 ((i * m + j) * m + k)) (fun k (hk : k < j + 1) q hq => ?_) hq
    · refine ⟨hcells.1, fun x hx => hcells.2 x ?_⟩
      rw [← Nat.add_assoc, Nat.succ_mul] at hx
      omega
    · exact dotProduct_ascending_cell (block_lt (block_lt hi (by omega)) (by omega)) (v i j k) F3 hq
  have hrows : ∀ i < m, ∀ q : Vec, (∀ x, i * m * m ≤ x → q x = 0) →
      dotProduct (m * m * m) (forLoop (i + 1) (fun j => forLoop (j + 1)
          fun k q => Function.update q ((i * m + j) * m + k) (v i j k)) q) F3 =
        dotProduct (m * m * m) q F3 + ∑ j ∈ Finset.range (i + 1),
          ∑ k ∈ Finset.range (j + 1), v i j k * F3 ((i * m + j) * m + k) ∧
        ∀ x, (i + 1) * m * m ≤ x → forLoop (i + 1) (fun j => forLoop (j + 1)
          fun k q => Function.update q ((i * m + j) * m + k) (v i j k)) q x = 0 := by
    intro i hi q hq
    have hrow := dotProduct_ascending (fun j => (i * m + j) * m) _ _ (hcells i hi) hq
    refine ⟨hrow.1, fun x hx => hrow.2 x ((Nat.mul_le_mul_right m ?_).trans hx)⟩
    rw [Nat.succ_mul]
    omega
  have hall := (dotProduct_ascending (fun i => i * m * m) _ _ hrows (q := zeroVec)
    fun _ _ => rfl).1
  rwa [dotProduct_zeroVec, zero_add] at hall

variable {p : ℕ}

/-- The polynomial with the proof vectors in place of the variables and their products. -/
def proofValue (p m : ℕ) (coefficients : Vec) (F : Assignment) : ZMod p :=
  weigh m (fun c => (coefficients c : ZMod p)) (fun i j k => (F.F3 ((i * m + j) * m + k) : ZMod p))
    (fun i j => (F.F2 (m * i + j) : ZMod p)) fun i => (F.F1 i : ZMod p)

/-- The constraints of the circuit test, in the order of their weights. -/
def constraintValue (p m : ℕ) (coefficients input : Vec) (output : ℤ) (F : Assignment) :
    ℕ → ZMod p
  | 0 => output - proofValue p m coefficients F
  | c + 1 => F.F1 c - input c

theorem cubicQuery_dot (alpha coefficients F3 : Vec) :
    dotProduct (m * m * m) (cubicQuery m alpha coefficients p) F3 =
      ∑ i ∈ Finset.range m, ∑ j ∈ Finset.range (i + 1), ∑ k ∈ Finset.range (j + 1),
        -alpha 0 * coefficients (tripleCount i + (pairCount j + k)) % (p : ℤ) *
          F3 ((i * m + j) * m + k) := by
  rw [cubicQuery, forTriples_counter m fun i j k c (q : Vec) => Function.update q ((i * m + j) * m + k)
    (-alpha 0 * coefficients c % (p : ℤ)), forTriples_dot]
  simp only [Nat.zero_add]

theorem quadQuery_dot (alpha coefficients F2 : Vec) :
    dotProduct (m * m) (quadQuery m alpha coefficients p) F2 =
      ∑ i ∈ Finset.range m, ∑ j ∈ Finset.range (i + 1),
        -alpha 0 * coefficients (tripleCount m + (pairCount i + j)) % (p : ℤ) * F2 (m * i + j) := by
  rw [quadQuery, forPairs_counter m fun i j c (q : Vec) => Function.update q (m * i + j)
    (-alpha 0 * coefficients (quadOffset m + c) % (p : ℤ)), forPairs_dot, quadOffset,
    ← tripleCount_eq]
  simp only [Nat.zero_add]

theorem linearQuery_dot (alpha coefficients F1 : Vec) :
    dotProduct m (linearQuery m alpha coefficients p) F1 =
      ∑ i ∈ Finset.range m, (alpha (i + 1) + -alpha 0 *
        coefficients (tripleCount m + pairCount m + i)) % (p : ℤ) * F1 i := by
  rw [dotProduct_eq_sum]
  refine Finset.sum_congr rfl fun i hi => ?_
  rw [linearQuery, forLoop_fill_apply, if_pos (Finset.mem_range.1 hi), quadOffset,
    ← tripleCount_eq, ← pairCount_eq, mul_comm]

/-- The circuit test adds the constraints up with their weights. -/
theorem cast_circuit (alpha coefficients input : Vec) (output : ℤ) (F : Assignment) :
    ((cValue m alpha coefficients p input output + ∑ v ∈ Finset.range 3,
        dotProduct ((polyProof m F).size v) (gammas m alpha coefficients p v)
          ((polyProof m F).vector v) : ℤ) : ZMod p) =
      ∑ c ∈ Finset.range (m + 1),
        (alpha c : ZMod p) * constraintValue p m coefficients input output F c := by
  have hvectors : ∑ v ∈ Finset.range 3, dotProduct ((polyProof m F).size v)
      (gammas m alpha coefficients p v) ((polyProof m F).vector v) =
        dotProduct m (linearQuery m alpha coefficients p) F.F1 +
        dotProduct (m * m) (quadQuery m alpha coefficients p) F.F2 +
        dotProduct (m * m * m) (cubicQuery m alpha coefficients p) F.F3 := by
    simp only [Finset.sum_range_succ, Finset.sum_range_zero, zero_add]
    rfl
  have hconstant : (cValue m alpha coefficients p input output : ZMod p) =
      ∑ j ∈ Finset.range m, -(alpha (j + 1) : ZMod p) * input j +
        -alpha 0 * coefficients (tripleCount m + pairCount m + m) + alpha 0 * output := by
    rw [cValue, numCoefficients_eq, Nat.add_sub_cancel, ZMod.intCast_mod, forLoop_add, zero_add]
    push_cast
    rfl
  have hlinear : ∑ i ∈ Finset.range m, (((alpha (i + 1) + -alpha 0 *
      coefficients (tripleCount m + pairCount m + i)) % (p : ℤ) * F.F1 i : ℤ) : ZMod p) =
        ∑ i ∈ Finset.range m, (alpha (i + 1) : ZMod p) * F.F1 i + -alpha 0 *
          ∑ i ∈ Finset.range m, (coefficients (tripleCount m + pairCount m + i) : ZMod p) *
            F.F1 i := by
    rw [Finset.mul_sum, ← Finset.sum_add_distrib]
    refine Finset.sum_congr rfl fun i _ => ?_
    rw [Int.cast_mul, ZMod.intCast_mod]
    push_cast
    ring
  have hinput : ∑ j ∈ Finset.range m, (alpha (j + 1) : ZMod p) *
      constraintValue p m coefficients input output F (j + 1) =
        ∑ j ∈ Finset.range m, (alpha (j + 1) : ZMod p) * F.F1 j +
          ∑ j ∈ Finset.range m, -(alpha (j + 1) : ZMod p) * input j := by
    rw [← Finset.sum_add_distrib]
    refine Finset.sum_congr rfl fun j _ => ?_
    rw [constraintValue]
    ring
  rw [hvectors, Finset.sum_range_succ', hinput, constraintValue, proofValue, weigh, Int.cast_add,
    hconstant, linearQuery_dot, quadQuery_dot, cubicQuery_dot]
  simp only [Int.cast_add, Int.cast_sum]
  rw [hlinear]
  simp only [Int.cast_mul, ZMod.intCast_mod, Int.cast_neg, mul_assoc, ← Finset.mul_sum]
  ring

end Circuit

/-! ## The assignment -/

section Assignment

variable {m p : ℕ} {input : Vec}

/-- The cells of the six orders of a triple. -/
def InTriple (m i j k x : ℕ) : Prop :=
  x = (i * m + j) * m + k ∨ x = (j * m + i) * m + k ∨ x = (j * m + k) * m + i ∨
    x = (k * m + j) * m + i ∨ x = (k * m + i) * m + j ∨ x = (i * m + k) * m + j

instance (m i j k x : ℕ) : Decidable (InTriple m i j k x) := by
  unfold InTriple
  infer_instance

theorem assignTriple_apply (m i j k : ℕ) (temp : ℤ) (F3 : Vec) (x : ℕ) :
    assignTriple m i j k temp F3 x = if InTriple m i j k x then temp else F3 x := by
  simp only [assignTriple, InTriple, Function.update_apply]
  split_ifs <;> simp_all

/-- A cell of a triple, in any order, is that of its product. -/
theorem InTriple.mul_eq (input : Vec) {i j k a b c : ℕ} (h : InTriple m i j k ((a * m + b) * m + c)) (hi : i < m)
    (hj : j < m) (hk : k < m) (hb : b < m) (hc : c < m) :
    input i * input j * input k = input a * input b * input c := by
  have hcell : ∀ {u v w}, v < m → w < m → (a * m + b) * m + c = (u * m + v) * m + w →
      a = u ∧ b = v ∧ c = w := by
    intro u v w hv hw heq
    obtain ⟨hrow, rfl⟩ := block_inj hc hw heq
    obtain ⟨rfl, rfl⟩ := block_inj hb hv hrow
    exact ⟨rfl, rfl, rfl⟩
  rcases h with h | h | h | h | h | h
  · obtain ⟨rfl, rfl, rfl⟩ := hcell hj hk h
    rfl
  · obtain ⟨rfl, rfl, rfl⟩ := hcell hi hk h
    ring
  · obtain ⟨rfl, rfl, rfl⟩ := hcell hk hi h
    ring
  · obtain ⟨rfl, rfl, rfl⟩ := hcell hj hi h
    ring
  · obtain ⟨rfl, rfl, rfl⟩ := hcell hi hj h
    ring
  · obtain ⟨rfl, rfl, rfl⟩ := hcell hk hj h
    ring

/-- Three numbers are an order of a triple. -/
theorem exists_inTriple (m : ℕ) {a b c : ℕ} (ha : a < m) (hb : b < m) (hc : c < m) :
    ∃ i < m, ∃ j ≤ i, ∃ k ≤ j, InTriple m i j k ((a * m + b) * m + c) := by
  rcases le_total a b with hab | hab
  · rcases le_total b c with hbc | hbc
    · exact ⟨c, hc, b, hbc, a, hab, by simp [InTriple]⟩
    · rcases le_total a c with hac | hac
      · exact ⟨b, hb, c, hbc, a, hac, by simp [InTriple]⟩
      · exact ⟨b, hb, a, hab, c, hac, by simp [InTriple]⟩
  · rcases le_total a c with hac | hac
    · exact ⟨c, hc, a, hac, b, hab, by simp [InTriple]⟩
    · rcases le_total b c with hbc | hbc
      · exact ⟨a, ha, c, hac, b, hbc, by simp [InTriple]⟩
      · exact ⟨a, ha, b, hab, c, hbc, by simp [InTriple]⟩

theorem computationAssignment_F1 (old : Assignment) {i : ℕ} (hi : i < m) :
    ((computationAssignment m input p old).F1 i : ZMod p) = input i := by
  have hcell : (computationAssignment m input p old).F1 i = input i % (p : ℤ) :=
    (forLoop_fill_apply m (fun i => input i % (p : ℤ)) old.F1 i).trans (if_pos hi)
  rw [hcell, ZMod.intCast_mod]

theorem computationAssignment_F2 (old : Assignment) {i j : ℕ} (hi : i < m) (hj : j < m) :
    ((computationAssignment m input p old).F2 (i * m + j) : ZMod p) = input i * input j := by
  have hcell : (computationAssignment m input p old).F2 (i * m + j) = input i * input j % (p : ℤ) :=
    computeAssignmentVectors_apply m p input old.F2 hi hj
  rw [hcell, ZMod.intCast_mod, Int.cast_mul]

theorem computationAssignment_F3 (old : Assignment) {a b c : ℕ} (ha : a < m) (hb : b < m)
    (hc : c < m) :
    ((computationAssignment m input p old).F3 ((a * m + b) * m + c) : ZMod p) =
      input a * input b * input c := by
  obtain ⟨i, hi, j, hj, k, hk, hin⟩ := exists_inTriple m ha hb hc
  have hproduct : ∀ i < m, ∀ j ≤ i, ∀ k ≤ j, InTriple m i j k ((a * m + b) * m + c) →
      (((computationAssignment m input p old).F2 (m * i + j) * input k % (p : ℤ) : ℤ) : ZMod p) =
        input a * input b * input c := by
    intro i hi j hj k hk hin
    have hmul := hin.mul_eq input hi (by omega) (by omega) hb hc
    rw [ZMod.intCast_mod, Int.cast_mul, Nat.mul_comm m i,
      computationAssignment_F2 old hi (by omega)]
    exact_mod_cast congrArg (fun z : ℤ => (z : ZMod p)) hmul
  refine forTriples_once (Q := fun F3 : Vec => (F3 ((a * m + b) * m + c) : ZMod p) =
    input a * input b * input c) hi hj hk (fun F3 => ?_) (fun i hi j hj k hk F3 hF3 => ?_) old.F3
  · rw [assignTriple_apply, if_pos hin]
    exact hproduct i hi j hj k hk hin
  · rw [assignTriple_apply]
    by_cases hin : InTriple m i j k ((a * m + b) * m + c)
    · rw [if_pos hin]
      exact hproduct i hi j hj k hk hin
    · rw [if_neg hin]
      exact hF3

end Assignment

/-! ## The verdict -/

section Verdict

variable {m p numRepsLin : ℕ} {coefficients input : Vec} {output : ℤ} {F : Assignment}

/-- What one repetition checks. -/
structure Passes (p m : ℕ) (coefficients input : Vec) (output : ℤ) (F : Assignment) (s : Coins) :
    Prop where
  cor1 : corrTest (dotProduct m (s.lin.l1 0 0) F.F1) (dotProduct m (s.lin.l2 0 0) F.F1)
    (dotProduct (m * m) (createCorrTestQueriesReuse m m (s.lin.l1 0 0) (s.lin.l2 0 0)
      (s.lin.l1 0 1) p zeroVec) F.F2) (dotProduct (m * m) (s.lin.l1 0 1) F.F2) p = true
  cor2 : corrTest (dotProduct m (s.lin.l1 0 0) F.F1) (dotProduct (m * m) (s.lin.l1 0 1) F.F2)
    (dotProduct (m * (m * m)) (createCorrTestQueriesReuse m (m * m) (s.lin.l1 0 0) (s.lin.l1 0 1)
      (s.lin.l1 0 2) p zeroVec) F.F3) (dotProduct (m * (m * m)) (s.lin.l1 0 2) F.F3) p = true
  ckt : ∑ c ∈ Finset.range (m + 1),
    (s.alpha c : ZMod p) * constraintValue p m coefficients input output F c = 0

/-- The verdict is that of the last repetition. -/
theorem verdict_last (hlin : 0 < numRepsLin) (numRepetitions : ℕ) (fAnswers cValues : Vec)
    (prime : ℤ) :
    runCorrectionAndCircuitTests (numRepetitions + 1) numRepsLin fAnswers cValues prime =
      runRepetition numRepsLin
        (fun k => fAnswers (numRepetitions * numLinPcpQueries 3 numRepsLin numDivQueries + k))
        (cValues numRepetitions) prime false := by
  rw [runCorrectionAndCircuitTests, forLoop_succ, runRepetition, runRepetition,
    linResult_anew hlin]

theorem answersOf_answers (numRepsLin : ℕ) (coins : ℕ → Coins) (rho : ℕ) :
    AnswersOf 3 numRepsLin numDivQueries (polyProof m F) (coins rho).lin
      (testAnswer m coefficients p F (coins rho)) fun k => answers m numRepsLin coefficients p F
        coins (rho * numLinPcpQueries 3 numRepsLin numDivQueries + k) :=
  answersOf_batchAnswers (polyProof m F) (fun rho => (coins rho).lin)
    (fun rho => testAnswer m coefficients p F (coins rho)) rho

variable [Fact p.Prime]

theorem runRepetition_iff (hlin : 0 < numRepsLin) {s : Coins} {answers : Vec}
    (h : AnswersOf 3 numRepsLin numDivQueries (polyProof m F) s.lin
      (testAnswer m coefficients p F s) answers) (result : Bool) :
    runRepetition numRepsLin answers (cValue m s.alpha coefficients p input output) p result =
        true ↔ Passes p m coefficients input output F s := by
  have hself : ∀ v < 3, answers (v * 3) = linAnswer (polyProof m F) s.lin 0 v 0 :=
    fun v hv => h.first hlin hv (k := 0) (by decide)
  have hsecond : answers 1 = linAnswer (polyProof m F) s.lin 0 0 1 :=
    h.first hlin (v := 0) (k := 1) (by decide) (by decide)
  have h0 := h.other 0 (by decide)
  rw [Nat.add_zero] at h0
  have hckt := h.cktTest_iff hlin 2 (a := gammas m s.alpha coefficients p) le_rfl
    (fun v _ => by rw [Nat.add_comm]; rfl) (cValue m s.alpha coefficients p input output)
  rw [cast_circuit] at hckt
  have h2 : answers 6 = dotProduct (m * (m * m)) (s.lin.l1 0 2) F.F3 := by
    rw [← mul_assoc]
    exact hself 2 (by decide)
  simp only [runRepetition, h.linResult p hlin, Bool.true_and, Bool.and_eq_true, and_assoc]
  rw [hself 0 (by decide), hself 1 (by decide), hsecond, h2, h0, h.other 1 (by decide)]
  constructor
  · rintro ⟨hcor1, hcor2, hckt2⟩
    exact ⟨hcor1, hcor2, hckt.1 hckt2⟩
  · intro hpass
    exact ⟨hpass.cor1, hpass.cor2, hckt.2 hpass.ckt⟩

theorem verdict_iff (hlin : 0 < numRepsLin) (numRepetitions : ℕ) (coins : ℕ → Coins) :
    verdict m (numRepetitions + 1) numRepsLin p coefficients input output F coins = true ↔
      Passes p m coefficients input output F (coins numRepetitions) := by
  rw [verdict, verdict_last hlin,
    runRepetition_iff hlin (answersOf_answers numRepsLin coins numRepetitions)]

end Verdict

/-! ## The value of the polynomial -/

section Value

variable {m p numRepsLin : ℕ} {coefficients input : Vec} {F : Assignment}

/-- With the right products in the proof, the circuit test evaluates the polynomial. -/
theorem proofValue_eq (hF1 : ∀ i < m, (F.F1 i : ZMod p) = input i)
    (hF2 : IsProduct p m m F.F1 F.F1 F.F2) (hF3 : IsProduct p m (m * m) F.F1 F.F2 F.F3) :
    proofValue p m coefficients F = (polyValue m coefficients input : ℤ) := by
  have hpair : ∀ i < m, ∀ j ≤ i, (F.F2 (m * i + j) : ZMod p) = input i * input j := by
    intro i hi j hj
    rw [Nat.mul_comm m i, hF2 i hi j (by omega), hF1 i hi, hF1 j (by omega)]
  have htriple : ∀ i < m, ∀ j ≤ i, ∀ k ≤ j,
      (F.F3 ((i * m + j) * m + k) : ZMod p) = input i * input j * input k := by
    intro i hi j hj k hk
    have hindex : (i * m + j) * m + k = i * (m * m) + (j * m + k) := by ring
    rw [hindex, hF3 i hi _ (block_lt (by omega) (by omega)), hF2 j (by omega) k (by omega),
      hF1 i hi, hF1 j (by omega), hF1 k (by omega), mul_assoc]
  rw [proofValue, polyValue, weigh, weigh]
  push_cast
  refine congrArg₂ (· + ·) (congrArg₂ (· + ·) (congrArg₂ (· + ·) ?_ ?_) ?_) rfl
  · refine Finset.sum_congr rfl fun i hi => Finset.sum_congr rfl fun j hj =>
      Finset.sum_congr rfl fun k hk => ?_
    rw [Finset.mem_range] at hi hj hk
    rw [htriple i hi j (Nat.le_of_lt_succ hj) k (Nat.le_of_lt_succ hk)]
  · refine Finset.sum_congr rfl fun i hi => Finset.sum_congr rfl fun j hj => ?_
    rw [Finset.mem_range] at hi hj
    rw [hpair i hi j (Nat.le_of_lt_succ hj)]
  · refine Finset.sum_congr rfl fun i hi => ?_
    rw [hF1 i (Finset.mem_range.1 hi)]

theorem isProduct_F2 (input : Vec) (old : Assignment) :
    IsProduct p m m (computationAssignment m input p old).F1
      (computationAssignment m input p old).F1 (computationAssignment m input p old).F2 := by
  intro i hi j hj
  rw [computationAssignment_F2 old hi hj, computationAssignment_F1 old hi,
    computationAssignment_F1 old hj]

theorem isProduct_F3 (input : Vec) (old : Assignment) :
    IsProduct p m (m * m) (computationAssignment m input p old).F1
      (computationAssignment m input p old).F2 (computationAssignment m input p old).F3 := by
  intro i hi x hx
  have hj : x / m < m := Nat.div_lt_of_lt_mul hx
  have hk : x % m < m := Nat.mod_lt _ (Nat.pos_of_lt_mul_left hx)
  have hcell : ((computationAssignment m input p old).F2 (x / m * m + x % m) : ZMod p) =
      input (x / m) * input (x % m) := computationAssignment_F2 old hj hk
  have hindex : i * (m * m) + x = (i * m + x / m) * m + x % m := by
    rw [Nat.add_mul, Nat.mul_assoc, Nat.add_assoc, Nat.div_add_mod']
  rw [Nat.div_add_mod'] at hcell
  rw [hindex, computationAssignment_F3 old hi hj hk, hcell, computationAssignment_F1 old hi,
    mul_assoc]

variable [Fact p.Prime]

/-- The prover computes the value of the polynomial modulo the prime, and what it proves is
accepted. -/
theorem polyEval_complete (coefficients input oldF2 : Vec) (old : Assignment)
    (numRepetitions : ℕ) (hlin : 0 < numRepsLin) (coins : ℕ → Coins) :
    let output := computationPolyeval m coefficients input p oldF2
    output = polyValue m coefficients input % (p : ℤ) ∧
      verdict m (numRepetitions + 1) numRepsLin p coefficients input output
        (computationAssignment m input p old) coins = true := by
  have hvalue := computationPolyeval_eq m coefficients input p oldF2
  refine ⟨hvalue, ?_⟩
  rw [verdict_iff hlin]
  constructor
  · exact corrTest_product (isProduct_F2 input old) _ _ _
  · exact corrTest_product (isProduct_F3 input old) _ _ _
  · refine Finset.sum_eq_zero fun c hc => ?_
    cases c with
    | zero =>
        rw [constraintValue, proofValue_eq (fun i hi => computationAssignment_F1 old hi)
          (isProduct_F2 input old) (isProduct_F3 input old), hvalue, ZMod.intCast_mod, sub_self,
          mul_zero]
    | succ c =>
        have hc' : c < m := Nat.lt_of_succ_lt_succ (Finset.mem_range.1 hc)
        rw [constraintValue, computationAssignment_F1 old hc', sub_self, mul_zero]

end Value

/-- No vectors. -/
def noVectors : Assignment := ⟨zeroVec, zeroVec, zeroVec⟩

/-- Draws that differ from cell to cell and from one repetition to the next. -/
def steppedCoins (rho : ℕ) : Coins :=
  ⟨⟨fun i v x => rho + i + v + x + 1, fun i v x => 2 * x + i + v + 3⟩, fun c => 3 * c + rho + 2⟩

/-- A polynomial in two variables with the coefficients `1`, `2`, ..., at `(2, 3)`. -/
theorem polyEval_complete_two :
    let output := computationPolyeval 2 (fun c => c + 1) (fun i => i + 2) (103 : ℕ) zeroVec
    output = polyValue 2 (fun c => (c + 1 : ℤ)) (fun i => i + 2) % (103 : ℕ) ∧
      verdict 2 8 20 (103 : ℕ) (fun c => c + 1) (fun i => i + 2) output
        (computationAssignment 2 (fun i => i + 2) (103 : ℕ) noVectors) steppedCoins = true := by
  have : Fact (Nat.Prime 103) := ⟨by norm_num⟩
  exact polyEval_complete (fun c => c + 1) (fun i => i + 2) zeroVec noVectors 7 (by decide)
    steppedCoins

/-! ## Other values -/

/-- The draws of one repetition. -/
inductive Draw (numRepsLin m : ℕ) where
  | lin (d : LinDraw numRepsLin 3 (vecSize m))
  | alpha (c : Fin (m + 1))
deriving DecidableEq, Fintype

section Sound

variable {m p numRepsLin : ℕ} {coefficients input : Vec} {output : ℤ}

/-- The queries and the weights that have been drawn. -/
def drawnCoins (ω : Draw numRepsLin m → ZMod p) : Coins where
  lin := drawnLin fun d => ω (.lin d)
  alpha := drawnVec fun c => ω (.alpha c)

variable [Fact p.Prime]

theorem rare_passes (F : Assignment) (hlin : 0 < numRepsLin)
    (hwrong : (output : ZMod p) ≠ (polyValue m coefficients input : ℤ)) :
    Rare 2 p fun ω : Draw numRepsLin m → ZMod p =>
      Passes p m coefficients input output F (drawnCoins ω) := by
  -- the queries to the variables and to their products in the first linearity test
  let x : Fin m → Draw numRepsLin m := fun k => .lin (.l1 ⟨0, hlin⟩ (0 : Fin 3) k)
  let x' : Fin m → Draw numRepsLin m := fun k => .lin (.l2 ⟨0, hlin⟩ (0 : Fin 3) k)
  let y : Fin (m * m) → Draw numRepsLin m := fun k => .lin (.l1 ⟨0, hlin⟩ (1 : Fin 3) k)
  have hx : Function.Injective x := fun _ _ heq => by cases heq; rfl
  have hx' : Function.Injective x' := fun _ _ heq => by cases heq; rfl
  have hy : Function.Injective y := fun _ _ heq => by cases heq; rfl
  by_cases hF2 : IsProduct p m m F.F1 F.F1 F.F2
  swap
  · have hrare := rare_corrTest (p := p) hx hx' (fun _ _ heq => by cases heq) hF2
      fun ω => (drawnCoins ω).lin.l1 0 1
    refine hrare.mono fun ω hω => ?_
    have hcor := hω.cor1
    rw [drawnCoins, drawnLin_l1 _ hlin (by decide), drawnLin_l2 _ hlin (by decide)] at hcor
    exact hcor
  by_cases hF3 : IsProduct p m (m * m) F.F1 F.F2 F.F3
  swap
  · have hrare := rare_corrTest (p := p) hx hy (fun _ _ heq => by cases heq) hF3
      fun ω => (drawnCoins ω).lin.l1 0 2
    refine hrare.mono fun ω hω => ?_
    have hcor := hω.cor2
    rw [drawnCoins, drawnLin_l1 _ hlin (by decide), drawnLin_l1 _ hlin (by decide)] at hcor
    exact hcor
  -- the products are right, so a constraint fails
  have hfails : ∃ c < m + 1, constraintValue p m coefficients input output F c ≠ 0 := by
    by_contra hnone
    push Not at hnone
    have hF1 : ∀ i < m, (F.F1 i : ZMod p) = input i :=
      fun i hi => sub_eq_zero.1 (hnone (i + 1) (Nat.succ_lt_succ hi))
    have hvalue := sub_eq_zero.1 (hnone 0 (Nat.succ_pos m))
    rw [proofValue_eq hF1 hF2 hF3] at hvalue
    exact hwrong hvalue
  obtain ⟨c, hc, hne⟩ := hfails
  have hrare := rare_linear (F := ZMod p) (x := (Draw.alpha : _ → Draw numRepsLin m))
    (fun _ _ heq => Draw.alpha.inj heq)
    (a := fun c => constraintValue p m coefficients input output F c) (i := ⟨c, hc⟩) hne 0
  rw [Nat.card_zmod] at hrare
  refine (hrare.weaken one_le_two).mono fun ω hω => ?_
  have hckt := hω.ckt
  rw [Finset.sum_range] at hckt
  rw [zero_add, ← hckt]
  exact Finset.sum_congr rfl fun c _ => by rw [drawnCoins, cast_drawnVec]

/-- With an output that is not the value of the polynomial modulo `p`, at most two in `p` of all
draws accept, whatever the vectors; and so many in all draws accept as with a single repetition. -/
theorem polyEval_sound (F : Assignment)
    (hwrong : output % (p : ℤ) ≠ polyValue m coefficients input % (p : ℤ)) (numRepetitions : ℕ)
    (hlin : 0 < numRepsLin) :
    let Draws : ℕ → Type := fun n => Fin n → Draw numRepsLin m → ZMod p
    let accepted : ℕ → ℕ := fun n => Nat.card {ω : Draws n //
      verdict m n numRepsLin p coefficients input output F
        (allRepetitions fun rho => drawnCoins (ω rho)) = true}
    p * accepted (numRepetitions + 1) ≤ 2 * Nat.card (Draws (numRepetitions + 1)) ∧
      accepted (numRepetitions + 1) * Nat.card (Draws 1) =
        accepted 1 * Nat.card (Draws (numRepetitions + 1)) := by
  intro Draws accepted
  rw [Ne, emod_eq_emod_iff] at hwrong
  refine (rare_passes F hlin hwrong).last
    (fun n ω => verdict m n numRepsLin p coefficients input output F
      (allRepetitions fun rho => drawnCoins (ω rho)) = true) (fun n ω => ?_) numRepetitions
  have hlast := allRepetitions_apply (fun rho => drawnCoins (ω rho)) (Fin.last n)
  rw [verdict_iff hlin]
  exact iff_of_eq (congrArg (Passes p m coefficients input output F) hlast)

end Sound

/-- Zero is not the value of that polynomial at this point. -/
theorem polyEval_sound_zero :
    let Draws : ℕ → Type := fun n => Fin n → Draw 20 2 → ZMod 103
    let accepted : ℕ → ℕ := fun n => Nat.card {ω : Draws n //
      verdict 2 n 20 (103 : ℕ) (fun c => c + 1) (fun i => i + 2) 0 noVectors
        (allRepetitions fun rho => drawnCoins (ω rho)) = true}
    103 * accepted 8 ≤ 2 * Nat.card (Draws 8) ∧
      accepted 8 * Nat.card (Draws 1) = accepted 1 * Nat.card (Draws 8) := by
  have : Fact (Nat.Prime 103) := ⟨by norm_num⟩
  exact polyEval_sound noVectors (by decide) 7 (by decide)

end Pepper.AppsTailored.PolyEvalD3
