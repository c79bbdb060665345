import Pepper.Libv.Evaluation
import Pepper.Libv.GammaFile

/-!
# The tests of the Ginger verifier

The two coefficient files are read under a shuffle `F1Index` of the variables and random weights
`alpha`, one for each constraint. The proof is the assignment `F1` and its products `F2`; the
verifier asks for inner products with them, hides its queries behind the queries of the first
linearity test, and runs the linearity, correction and circuit tests.

`gingerTests_accept`: for a spec whose lines are of degree two and are read as they are written,
whose coefficients are printed on lines that fit the buffer, and an assignment that satisfies every
constraint, the tests accept, and what the circuit test computes is the sum of the constraints with
their weights, which is zero. For the line
`( ) * ( V0 ) + ( V1 - 1 )` they reject (`zeroProduct_rejected`): the expansion drops the empty
factor.
-/

set_option autoImplicit false

open Pepper.Common.Gmp Pepper.Foundations Pepper.Foundations.Loop
open Pepper.Libv.Queries Pepper.Libv.Evaluation Pepper.Libv.GammaFile Pepper.Zcc

namespace Pepper.Libv.GingerTests

universe u

/-! ## The code -/

/-- `compute_assignment_vectors`: the products on and below the diagonal, then the others as
copies. -/
def computeAssignmentVectors (n : ℕ) (prime : ℤ) (F1 F2 : Vec) : Vec :=
  let lower := forLoop n (fun i F2 =>
    forLoop (i + 1) (fun j F2 => Function.update F2 (i * n + j) (F1 i * F1 j % prime)) F2) F2
  forLoop n (fun i F2 =>
    forLoop (n - (i + 1)) (fun k F2 =>
      Function.update F2 (i * n + (i + 1 + k)) (F2 ((i + 1 + k) * n + i))) F2) lower

/-- `create_corr_test_queries_reuse`: the outer product of two queries, hidden by `r`. -/
def createCorrTestQueriesReuse (size1 size2 : ℕ) (c1Q c2Q r : Vec) (prime : ℤ) (c3Q : Vec) : Vec :=
  forLoop size1 (fun i c3Q =>
    forLoop size2 (fun j c3Q =>
      Function.update c3Q (i * size2 + j) ((c1Q i * c2Q j + r (i * size2 + j)) % prime)) c3Q) c3Q

/-- `create_ckt_test_queries`: the vector `a`, hidden by `q2`. -/
def createCktTestQueries (size : ℕ) (a q2 : Vec) (prime : ℤ) (q1 : Vec) : Vec :=
  forLoop size (fun i q1 => Function.update q1 i ((q2 i + a i) % prime)) q1

/-- `lin_test`. -/
def linTest (a1 a2 a3 prime : ℤ) : Bool := (a1 + a2) % prime = a3 % prime

/-- `corr_test`. -/
def corrTest (a1 a2 a3 a4 prime : ℤ) : Bool := a1 * a2 % prime = (a3 - a4) % prime

/-- `ckt_test`. -/
def cktTest (size : ℕ) (arr : Vec) (c prime : ℤ) : Bool :=
  forLoop (size / 2) (fun i acc => acc + (arr (2 * i) - arr (2 * i + 1))) c % prime = 0

/-- The queries of a linearity test (`NUM_LIN_QUERIES`). -/
def numLinQueries : ℕ := 6

/-- `NUM_LIN_PCP_QUERIES`. -/
def numLinPcpQueries (numRepsLin : ℕ) : ℕ := numRepsLin * numLinQueries + 3

/-- The random choices of one repetition: the weights of the constraints and the pairs of queries
of every linearity test, to the first and to the second proof vector. -/
structure Coins where
  alpha : Vec
  l1 : ℕ → Vec
  l2 : ℕ → Vec
  m1 : ℕ → Vec
  m2 : ℕ → Vec

/-- The answers to the queries of linearity test `i`: two queries to each proof vector, and their
sum. -/
def linAnswer (n : ℕ) (F1 F2 : Vec) (s : Coins) (i : ℕ) : ℕ → ℤ
  | 0 => dotProduct n (s.l1 i) F1
  | 1 => dotProduct n (s.l2 i) F1
  | 2 => dotProduct n (s.l1 i) F1 + dotProduct n (s.l2 i) F1
  | 3 => dotProduct (n * n) (s.m1 i) F2
  | 4 => dotProduct (n * n) (s.m2 i) F2
  | _ => dotProduct (n * n) (s.m1 i) F2 + dotProduct (n * n) (s.m2 i) F2

/-- The answers to the correction query and the two circuit queries. The first linearity test lends
its queries as self-correction queries. -/
def testAnswer (n : ℕ) (prime : ℤ) (gamma : Vec × Vec) (F1 F2 : Vec) (s : Coins) : ℕ → ℤ
  | 0 => dotProduct (n * n)
      (createCorrTestQueriesReuse n n (s.l1 0) (s.l2 0) (s.m1 0) prime zeroVec) F2
  | 1 => dotProduct n (createCktTestQueries n gamma.1 (s.l1 0) prime zeroVec) F1
  | _ => dotProduct (n * n) (createCktTestQueries (n * n) gamma.2 (s.m1 0) prime zeroVec) F2

/-- The answers of one repetition in the order of the queries. -/
def answer (n numRepsLin : ℕ) (prime : ℤ) (gamma : Vec × Vec) (F1 F2 : Vec) (s : Coins) : Vec :=
  fun k =>
    if k < numRepsLin * numLinQueries then
      linAnswer n F1 F2 s (k / numLinQueries) (k % numLinQueries)
    else testAnswer n prime gamma F1 F2 s (k - numRepsLin * numLinQueries)

/-- The tests of one repetition on its answers. -/
def runRepetition (numRepsLin : ℕ) (answers : Vec) (cValue prime : ℤ) : Bool :=
  let lin := forLoop numRepsLin (fun i result =>
    let base := i * numLinQueries
    result && linTest (answers base) (answers (base + 1)) (answers (base + 2)) prime
      && linTest (answers (base + 3)) (answers (base + 4)) (answers (base + 5)) prime) true
  let q7 := numRepsLin * numLinQueries
  let cor1 := corrTest (answers 0) (answers 1) (answers q7) (answers 3) prime
  let cktAnswers : Vec := fun k =>
    match k with
    | 0 => answers (q7 + 1)
    | 1 => answers 0
    | 2 => answers (q7 + 2)
    | _ => answers 3
  lin && cor1 && cktTest 4 cktAnswers cValue prime

/-- `run_correction_and_circuit_tests` for one instance. -/
def runCorrectionAndCircuitTests (numRepetitions numRepsLin : ℕ) (fAnswers cValues : Vec)
    (prime : ℤ) : Bool :=
  forLoop numRepetitions (fun rho result =>
    result && runRepetition numRepsLin
      (fun k => fAnswers (rho * numLinPcpQueries numRepsLin + k)) (cValues rho) prime) true

/-! ## Inner products -/

theorem dotProduct_add_single (n : ℕ) (g F : Vec) {i : ℕ} (hi : i < n) (d : ℤ) :
    dotProduct n (Function.update g i (g i + d)) F = dotProduct n g F + d * F i := by
  have hmem : i ∈ Finset.range n := Finset.mem_range.mpr hi
  rw [dotProduct_eq_sum, dotProduct_eq_sum, ← Finset.add_sum_erase _ _ hmem,
    ← Finset.add_sum_erase _ (fun j => F j * g j) hmem, Function.update_self]
  have hrest : ∑ j ∈ (Finset.range n).erase i, F j * Function.update g i (g i + d) j =
      ∑ j ∈ (Finset.range n).erase i, F j * g j :=
    Finset.sum_congr rfl fun j hj => by rw [Function.update_of_ne (Finset.ne_of_mem_erase hj)]
  rw [hrest]
  ring

/-- The cell of row `i` and column `j` is filled after `r` rows and `k` cells of the next. -/
def CellDone (first cols : ℕ → ℕ) (r k i j : ℕ) : Prop :=
  (i < r ∨ (i = r ∧ j < first i + k)) ∧ first i ≤ j ∧ j < first i + cols i

/-- What a block of rows of `n` cells holds after `r` rows and `k` cells of the next. -/
def CellsFilled (n : ℕ) (first cols : ℕ → ℕ) (f : ℕ → ℕ → Vec → ℤ) (a : Vec) (r k : ℕ) (b : Vec) :
    Prop :=
  ∀ i j, j < n → (CellDone first cols r k i j → b (i * n + j) = f i j a) ∧
    (¬CellDone first cols r k i j → b (i * n + j) = a (i * n + j))

section Cells

variable {n m : ℕ} {first cols : ℕ → ℕ} {f : ℕ → ℕ → Vec → ℤ} {a b : Vec} {r k : ℕ}

/-- One more cell of the row. -/
theorem CellsFilled.cell (h : CellsFilled n first cols f a r k b) (hk : k < cols r)
    (hlt : first r + k < n)
    (hf : ∀ b, (∀ i' j', j' < n → j' < first i' → b (i' * n + j') = a (i' * n + j')) →
      f r (first r + k) b = f r (first r + k) a) :
    CellsFilled n first cols f a r (k + 1)
      (Function.update b (r * n + (first r + k)) (f r (first r + k) b)) := by
  intro i j hj
  have hread : f r (first r + k) b = f r (first r + k) a := by
    apply hf
    intro i' j' hj' hleft
    exact (h i' j' hj').2 fun hdone => absurd hdone.2.1 (by omega)
  by_cases hcell : i * n + j = r * n + (first r + k)
  · obtain ⟨rfl, rfl⟩ := block_inj hj hlt hcell
    refine ⟨fun _ => ?_, fun hnot => absurd ?_ hnot⟩
    · rw [Function.update_self, hread]
    · exact ⟨Or.inr ⟨rfl, by omega⟩, by omega, by omega⟩
  · have hne : ¬(i = r ∧ j = first r + k) := fun h => hcell (by rw [h.1, h.2])
    have hiff : CellDone first cols r (k + 1) i j ↔ CellDone first cols r k i j := by
      constructor
      · rintro ⟨hdone | ⟨rfl, hdone⟩, hrange⟩
        · exact ⟨Or.inl hdone, hrange⟩
        · exact ⟨Or.inr ⟨rfl, by omega⟩, hrange⟩
      · rintro ⟨hdone | ⟨rfl, hdone⟩, hrange⟩
        · exact ⟨Or.inl hdone, hrange⟩
        · exact ⟨Or.inr ⟨rfl, by omega⟩, hrange⟩
    rw [Function.update_of_ne hcell, hiff]
    exact h i j hj

/-- A row that is filled to its end is behind the next one. -/
theorem CellsFilled.row (h : CellsFilled n first cols f a r (cols r) b) :
    CellsFilled n first cols f a (r + 1) 0 b := by
  intro i j hj
  have hiff : CellDone first cols (r + 1) 0 i j ↔ CellDone first cols r (cols r) i j := by
    constructor
    · rintro ⟨hdone | ⟨rfl, hdone⟩, hrange⟩
      · rcases Nat.lt_succ_iff_lt_or_eq.mp hdone with hdone | rfl
        · exact ⟨Or.inl hdone, hrange⟩
        · exact ⟨Or.inr ⟨rfl, hrange.2⟩, hrange⟩
      · omega
    · rintro ⟨hdone | ⟨rfl, hdone⟩, hrange⟩
      · exact ⟨Or.inl (Nat.lt_succ_of_lt hdone), hrange⟩
      · exact ⟨Or.inl (Nat.lt_succ_self _), hrange⟩
  rw [hiff]
  exact h i j hj

end Cells

/-- A loop over rows and over a range of columns in each row that fills the cell of each pair. What
it reads from the block are cells left of the range in their row, which it does not write. -/
theorem forLoop_cells (n m : ℕ) (first cols : ℕ → ℕ) (hcols : ∀ i, i < m → first i + cols i ≤ n)
    (f : ℕ → ℕ → Vec → ℤ) (a : Vec)
    (hf : ∀ i j b, (∀ i' j', j' < n → j' < first i' → b (i' * n + j') = a (i' * n + j')) →
      f i j b = f i j a) (i j : ℕ) (hj : j < n) :
    forLoop m (fun i b => forLoop (cols i) (fun k b =>
        Function.update b (i * n + (first i + k)) (f i (first i + k) b)) b) a (i * n + j) =
      if i < m ∧ first i ≤ j ∧ j < first i + cols i then f i j a else a (i * n + j) := by
  have hall : CellsFilled n first cols f a m 0 (forLoop m (fun i b => forLoop (cols i) (fun k b =>
      Function.update b (i * n + (first i + k)) (f i (first i + k) b)) b) a) := by
    refine forLoop_induction (P := fun r b => CellsFilled n first cols f a r 0 b) ?_ ?_
    · intro i j _
      refine ⟨fun hdone => ?_, fun _ => rfl⟩
      obtain ⟨hrow | ⟨-, hcell⟩, hleft, -⟩ := hdone
      · exact absurd hrow (Nat.not_lt_zero _)
      · exact absurd hcell (Nat.not_lt.2 hleft)
    · intro r hr b hb
      refine CellsFilled.row (forLoop_induction
        (P := fun k b => CellsFilled n first cols f a r k b) hb fun k hk b hb => ?_)
      exact hb.cell hk ((Nat.add_lt_add_left hk _).trans_le (hcols r hr)) fun b => hf r _ b
  have hfinal := hall i j hj
  have hiff : CellDone first cols m 0 i j ↔ i < m ∧ first i ≤ j ∧ j < first i + cols i := by
    constructor
    · rintro ⟨h | ⟨rfl, h⟩, h2⟩
      · exact ⟨h, h2⟩
      · omega
    · rintro ⟨h, h2⟩
      exact ⟨Or.inl h, h2⟩
  split
  · next h => exact hfinal.1 (hiff.mpr h)
  · next h => exact hfinal.2 fun h' => h (hiff.mp h')

/-- The second proof vector holds the products of the first. -/
theorem computeAssignmentVectors_apply (n : ℕ) (prime : ℤ) (F1 F2 : Vec) {i j : ℕ} (hi : i < n)
    (hj : j < n) :
    computeAssignmentVectors n prime F1 F2 (i * n + j) = F1 i * F1 j % prime := by
  let lower := forLoop n (fun i F2 =>
    forLoop (i + 1) (fun j F2 => Function.update F2 (i * n + j) (F1 i * F1 j % prime)) F2) F2
  have hlower : ∀ i j, i < n → j < n → j ≤ i → lower (i * n + j) = F1 i * F1 j % prime := by
    intro i j hi hj hle
    have h := forLoop_cells n n (fun _ => 0) (fun i => i + 1) (fun i hi => by omega)
      (fun i j _ => F1 i * F1 j % prime) F2 (fun _ _ _ _ => rfl) i j hj
    simp only [Nat.zero_add] at h
    exact h.trans (if_pos ⟨hi, Nat.zero_le _, by omega⟩)
  have hupper := forLoop_cells n n (fun i => i + 1) (fun i => n - (i + 1)) (fun i hi => by omega)
    (fun i j b => if i < j ∧ j < n then b (j * n + i) else 0) lower ?_ i j hj
  · have hsame : computeAssignmentVectors n prime F1 F2 (i * n + j) =
        forLoop n (fun i b => forLoop (n - (i + 1)) (fun k b =>
          Function.update b (i * n + (i + 1 + k))
            (if i < i + 1 + k ∧ i + 1 + k < n then b ((i + 1 + k) * n + i) else 0)) b) lower
          (i * n + j) := by
      refine congrFun (forLoop_congr fun i hi b => forLoop_congr fun k hk b => ?_) _
      rw [if_pos (by omega)]
    rw [hsame, hupper]
    by_cases hlt : i < j
    · rw [if_pos ⟨hi, hlt, by omega⟩, if_pos ⟨hlt, hj⟩, hlower j i hj hi hlt.le, mul_comm]
    · rw [if_neg (by omega), hlower i j hi hj (Nat.le_of_not_lt hlt)]
  · intro i j b hb
    by_cases h : i < j ∧ j < n
    · rw [if_pos h, if_pos h]
      exact hb j i (by omega) (by omega)
    · rw [if_neg h, if_neg h]

/-! ## The coefficient files -/

section Files

variable {p : ℕ}

/-- What a line adds when the pairs of the second vector are products. -/
def gamma12Value (alpha : Vec) (f1 : ℕ → ZMod p) : Gamma12Line → ZMod p
  | .gamma1 coefficient constraintId varIdX => alpha constraintId * (coefficient * f1 varIdX)
  | .gamma2 coefficient constraintId varIdX varIdY =>
      alpha constraintId * (coefficient * (f1 varIdX * f1 varIdY))

/-- What a line adds to the constant. -/
def gamma0Value (alpha : Vec) (io : ℕ → ZMod p) : Gamma0Line → ZMod p
  | .io coefficient constraintId varId => alpha constraintId * (coefficient * io varId)
  | .const coefficient constraintId => alpha constraintId * coefficient

/-- The products of the first vector modulo `p`. -/
def IsOuter (p n : ℕ) (F1 F2 : Vec) : Prop :=
  ∀ i j, i < n → j < n → (F2 (i * n + j) : ZMod p) = F1 i * F1 j

theorem computeAssignmentVectors_outer (n : ℕ) (F1 old : Vec) :
    IsOuter p n F1 (computeAssignmentVectors n p F1 old) := by
  intro i j hi hj
  rw [computeAssignmentVectors_apply n p F1 old hi hj, ZMod.intCast_mod, Int.cast_mul]

variable {n : ℕ} {F1Index : ℕ → ℕ} {F1 F2 : Vec}

/-- The two vectors of the verifier against the proof: what the lines of the file add up to, the
variables read through the shuffle. -/
theorem cast_gammaVectors_dot (hindex : ∀ i < n, F1Index i < n) (hF2 : IsOuter p n F1 F2)
    (alpha : Vec) (file : List Gamma12Line) (hfile : ∀ l ∈ file, l.InRange n) :
    ((dotProduct n (gammaVectors n F1Index alpha file).1 F1 +
        dotProduct (n * n) (gammaVectors n F1Index alpha file).2 F2 : ℤ) : ZMod p) =
      (file.map (gamma12Value alpha fun i => (F1 (F1Index i) : ZMod p))).sum := by
  -- over any coefficients read before
  have hfold : ∀ (g : Vec × Vec), (∀ l ∈ file, l.InRange n) →
      ((dotProduct n (file.foldl (addGamma12 n F1Index alpha) g).1 F1 +
          dotProduct (n * n) (file.foldl (addGamma12 n F1Index alpha) g).2 F2 : ℤ) : ZMod p) =
        ((dotProduct n g.1 F1 + dotProduct (n * n) g.2 F2 : ℤ) : ZMod p) +
          (file.map (gamma12Value alpha fun i => (F1 (F1Index i) : ZMod p))).sum := by
    induction file with
    | nil => simp
    | cons l file ih =>
        intro g hrange
        rw [List.foldl_cons, ih (fun l h => hfile l (List.mem_cons_of_mem _ h)) _
          (fun l h => hrange l (List.mem_cons_of_mem _ h)), List.map_cons, List.sum_cons,
          ← add_assoc]
        congr 1
        have hl := hrange l List.mem_cons_self
        cases l with
        | gamma1 c id x =>
            simp only [addGamma12, gamma12Value]
            rw [dotProduct_add_single n g.1 F1 (hindex x hl)]
            push_cast
            ring
        | gamma2 c id x y =>
            have hx := hindex x hl.1
            have hy := hindex y hl.2
            simp only [addGamma12, gamma12Value]
            rw [dotProduct_add_single (n * n) g.2 F2 (block_lt hx hy)]
            push_cast
            rw [hF2 _ _ hx hy]
            ring
  have hzero : ∀ (m : ℕ) (F : Vec), dotProduct m zeroVec F = 0 := by
    intro m F
    rw [dotProduct_eq_sum]
    simp [zeroVec]
  rw [gammaVectors, hfold _ hfile, hzero, hzero]
  simp

theorem cast_gammaConstant (alpha io : Vec) (file : List Gamma0Line) :
    ((gammaConstant alpha io file : ℤ) : ZMod p) =
      (file.map (gamma0Value alpha fun i => (io i : ZMod p))).sum := by
  have hfold : ∀ c : ℤ, ((file.foldl (addGamma0 alpha io) c : ℤ) : ZMod p) =
      c + (file.map (gamma0Value alpha fun i => (io i : ZMod p))).sum := by
    induction file with
    | nil => simp
    | cons l file ih =>
        intro c
        rw [List.foldl_cons, ih, List.map_cons, List.sum_cons, ← add_assoc]
        congr 1
        cases l <;> simp [addGamma0, gamma0Value, mul_assoc]
  rw [gammaConstant, hfold]
  simp

/-- The lines of one constraint add up to its terms, times its weight. -/
theorem sum_lines (alpha : Vec) (io f1 : ℕ → ZMod p) (q : Parsed) (constraintId : ℕ) :
    ((q.gamma0 constraintId).map (gamma0Value alpha io)).sum +
        ((q.gamma12 constraintId).map (gamma12Value alpha f1)).sum =
      alpha constraintId * q.value io f1 := by
  have hmul : ∀ {ε : Type} (l : List ε) (f : ε → ZMod p),
      (l.map fun e => (alpha constraintId : ZMod p) * f e).sum =
        alpha constraintId * (l.map f).sum := fun l f => List.sum_map_mul_left l f _
  simp only [Parsed.gamma0, Parsed.gamma12, List.map_append, List.map_map, List.sum_append,
    Parsed.value, Function.comp_def, gamma0Value, gamma12Value, hmul]
  ring

variable {ν : Type u} [LinearOrder ν] {D : Decls ν}

/-- The files of a spec of lines of degree two that are read as they are written: both are
generated, the variables in them are in range, and the lines add up to the weighted constraints. -/
theorem generate_eq (spec : List (Text ν)) (hread : ∀ line ∈ spec, Readable false [] line)
    (hline : ∀ line ∈ spec, BasicLine D line) (constraintId : ℕ) :
    ∃ g0 g12, generateFrom D Parsed.gamma0 constraintId spec = some g0 ∧
      generateFrom D Parsed.gamma12 constraintId spec = some g12 ∧
      (∀ l ∈ g12, l.InRange D.vars.length) ∧
      ∀ (alpha : Vec) (io f1 : ℕ → ZMod p),
        (g0.map (gamma0Value alpha io)).sum + (g12.map (gamma12Value alpha f1)).sum =
          ∑ c ∈ Finset.range spec.length,
            (alpha (constraintId + c) : ZMod p) *
              meaning (D.nameValue io f1) (spec.getD c .nil) := by
  induction spec generalizing constraintId with
  | nil => exact ⟨[], [], rfl, rfl, by simp, by simp⟩
  | cons line spec ih =>
      obtain ⟨q, hq, hrange, hvalue⟩ := parseLine_eq (R := ZMod p)
        (hread line List.mem_cons_self) (hline line List.mem_cons_self)
      obtain ⟨g0, g12, h0, h12, hin, hsum⟩ := ih
        (fun l h => hread l (List.mem_cons_of_mem _ h))
        (fun l h => hline l (List.mem_cons_of_mem _ h)) (constraintId + 1)
      refine ⟨q.gamma0 constraintId ++ g0, q.gamma12 constraintId ++ g12, ?_, ?_, ?_, ?_⟩
      · simp [generateFrom, hq, h0]
      · simp [generateFrom, hq, h12]
      · intro l hl
        rcases List.mem_append.mp hl with hl | hl
        · rcases List.mem_append.mp hl with hl | hl
          · obtain ⟨e, he, rfl⟩ := List.mem_map.mp hl
            exact hrange.1 e he
          · obtain ⟨e, he, rfl⟩ := List.mem_map.mp hl
            exact hrange.2 e he
        · exact hin l hl
      · intro alpha io f1
        -- the lines of one constraint add up to its weighted value
        have hhead := sum_lines alpha io f1 q constraintId
        rw [hvalue] at hhead
        rw [List.length_cons, Finset.sum_range_succ', List.map_append, List.map_append,
          List.sum_append, List.sum_append, add_add_add_comm, hsum, hhead, add_comm]
        congr 1
        refine Finset.sum_congr rfl fun c _ => ?_
        rw [List.getD_cons_succ, add_assoc, add_comm 1 c]

end Files

/-! ## The tests -/

section Tests

variable {p : ℕ} [Fact p.Prime] {n : ℕ} {F1 F2 : Vec}

theorem cast_cktTestQueries_dot (size : ℕ) (a q2 F : Vec) :
    (dotProduct size (createCktTestQueries size a q2 p zeroVec) F : ZMod p) =
      dotProduct size q2 F + dotProduct size a F := by
  rw [cast_dotProduct, cast_dotProduct, cast_dotProduct, ← Finset.sum_add_distrib]
  refine Finset.sum_congr rfl fun i hi => ?_
  rw [createCktTestQueries, forLoop_fill_apply, if_pos (Finset.mem_range.mp hi),
    ZMod.intCast_mod, Int.cast_add, mul_add]

theorem cast_corrTestQueries_dot (hF2 : IsOuter p n F1 F2) (q1 q2 r : Vec) :
    (dotProduct (n * n) (createCorrTestQueriesReuse n n q1 q2 r p zeroVec) F2 : ZMod p) =
      dotProduct n q1 F1 * dotProduct n q2 F1 + dotProduct (n * n) r F2 := by
  rw [cast_dotProduct, cast_dotProduct, cast_dotProduct, cast_dotProduct, sum_cells, sum_cells,
    Finset.sum_mul_sum, ← Finset.sum_add_distrib]
  refine Finset.sum_congr rfl fun i hi => ?_
  rw [← Finset.sum_add_distrib]
  refine Finset.sum_congr rfl fun j hj => ?_
  have hi' := Finset.mem_range.mp hi
  have hj' := Finset.mem_range.mp hj
  have hcell := forLoop_cells n n (fun _ => 0) (fun _ => n) (fun i hi => by omega)
    (fun i j _ => (q1 i * q2 j + r (i * n + j)) % (p : ℤ)) zeroVec (fun _ _ _ _ => rfl) i j hj'
  simp only [Nat.zero_add] at hcell
  rw [createCorrTestQueriesReuse, hcell, if_pos ⟨hi', Nat.zero_le _, hj'⟩, ZMod.intCast_mod,
    hF2 i j hi' hj']
  push_cast
  ring

theorem answer_lin (n numRepsLin : ℕ) (prime : ℤ) (gamma : Vec × Vec) (F1 F2 : Vec) (s : Coins)
    {i k : ℕ} (hi : i < numRepsLin) (hk : k < numLinQueries) :
    answer n numRepsLin prime gamma F1 F2 s (i * numLinQueries + k) =
      linAnswer n F1 F2 s i k := by
  rw [answer, if_pos (block_lt hi hk), block_div hk, Nat.mul_add_mod_of_lt hk]

theorem answer_test (n numRepsLin : ℕ) (prime : ℤ) (gamma : Vec × Vec) (F1 F2 : Vec) (s : Coins)
    (k : ℕ) :
    answer n numRepsLin prime gamma F1 F2 s (numRepsLin * numLinQueries + k) =
      testAnswer n prime gamma F1 F2 s k := by
  rw [answer, if_neg (by omega), Nat.add_sub_cancel_left]

/-- The tests look at the answers of their repetition only. -/
theorem runRepetition_congr {numRepsLin : ℕ} (hlin : 0 < numRepsLin) {a b : Vec}
    (h : ∀ k < numLinPcpQueries numRepsLin, a k = b k) (cValue prime : ℤ) :
    runRepetition numRepsLin a cValue prime = runRepetition numRepsLin b cValue prime := by
  have hq : numLinPcpQueries numRepsLin = numRepsLin * 6 + 3 := rfl
  have hloop : ∀ i < numRepsLin, ∀ k < 6, a (i * numLinQueries + k) = b (i * numLinQueries + k) := by
    intro i hi k hk
    apply h
    rw [hq, numLinQueries]
    omega
  have h0 := h 0 (by omega)
  have h1 := h 1 (by omega)
  have h3 := h 3 (by omega)
  have h7 := fun k (hk : k < 3) => h (numRepsLin * numLinQueries + k) (by rw [hq, numLinQueries]; omega)
  have h7z := h7 0 (by decide)
  rw [Nat.add_zero] at h7z
  have hlinTests := forLoop_congr (n := numRepsLin) (s := true)
    (g := fun i result => result &&
      linTest (a (i * numLinQueries)) (a (i * numLinQueries + 1)) (a (i * numLinQueries + 2)) prime
        && linTest (a (i * numLinQueries + 3)) (a (i * numLinQueries + 4))
          (a (i * numLinQueries + 5)) prime)
    (k := fun i result => result &&
      linTest (b (i * numLinQueries)) (b (i * numLinQueries + 1)) (b (i * numLinQueries + 2)) prime
        && linTest (b (i * numLinQueries + 3)) (b (i * numLinQueries + 4))
          (b (i * numLinQueries + 5)) prime)
    (fun i hi t => by
      have hz := hloop i hi 0 (by decide)
      rw [Nat.add_zero] at hz
      rw [hz, hloop i hi 1 (by decide), hloop i hi 2 (by decide), hloop i hi 3 (by decide),
        hloop i hi 4 (by decide), hloop i hi 5 (by decide)])
  simp only [runRepetition, hlinTests, h0, h1, h3, h7z, h7 1 (by decide), h7 2 (by decide)]

/-- The tests of one repetition accept when the constant and the two vectors of the verifier
cancel against the proof. -/
theorem runRepetition_accepts (hF2 : IsOuter p n F1 F2) {numRepsLin : ℕ} (hlin : 0 < numRepsLin)
    (gamma : Vec × Vec) (s : Coins) (cValue : ℤ)
    (hzero : ((cValue + dotProduct n gamma.1 F1 + dotProduct (n * n) gamma.2 F2 : ℤ) : ZMod p) =
      0) :
    runRepetition numRepsLin (answer n numRepsLin p gamma F1 F2 s) cValue p = true := by
  -- all tests of a repetition use the answers of its first iteration
  have hfirst : ∀ k, k < numLinQueries →
      answer n numRepsLin p gamma F1 F2 s k = linAnswer n F1 F2 s 0 k := by
    intro k hk
    have h := answer_lin n numRepsLin p gamma F1 F2 s hlin hk
    rwa [Nat.zero_mul, Nat.zero_add] at h
  have hlinTests : forLoop numRepsLin (fun i result =>
      result && linTest (answer n numRepsLin p gamma F1 F2 s (i * numLinQueries))
          (answer n numRepsLin p gamma F1 F2 s (i * numLinQueries + 1))
          (answer n numRepsLin p gamma F1 F2 s (i * numLinQueries + 2)) p
        && linTest (answer n numRepsLin p gamma F1 F2 s (i * numLinQueries + 3))
          (answer n numRepsLin p gamma F1 F2 s (i * numLinQueries + 4))
          (answer n numRepsLin p gamma F1 F2 s (i * numLinQueries + 5)) p) true = true := by
    refine forLoop_induction (P := fun _ b => b = true) rfl ?_
    rintro i hi b rfl
    have h := fun k hk => answer_lin n numRepsLin p gamma F1 F2 s hi (k := k) hk
    have h0 := h 0 (by decide)
    rw [Nat.add_zero] at h0
    rw [h0, h 1 (by decide), h 2 (by decide), h 3 (by decide), h 4 (by decide), h 5 (by decide)]
    simp [linTest, linAnswer]
  -- the correction test: an outer product of two shifted vectors, less the two corrections
  have hcor : corrTest (answer n numRepsLin p gamma F1 F2 s 0)
      (answer n numRepsLin p gamma F1 F2 s 1)
      (answer n numRepsLin p gamma F1 F2 s (numRepsLin * numLinQueries))
      (answer n numRepsLin p gamma F1 F2 s 3) p = true := by
    have h7 := answer_test n numRepsLin p gamma F1 F2 s 0
    rw [Nat.add_zero] at h7
    rw [hfirst 0 (by decide), hfirst 1 (by decide), hfirst 3 (by decide), h7]
    simp only [corrTest, decide_eq_true_eq, linAnswer, testAnswer]
    rw [emod_eq_emod_iff, Int.cast_sub, cast_corrTestQueries_dot hF2, Int.cast_mul]
    ring
  -- the circuit test: the two shifts are taken off again
  have hckt : cktTest 4
      (fun k => match k with
        | 0 => answer n numRepsLin p gamma F1 F2 s (numRepsLin * numLinQueries + 1)
        | 1 => answer n numRepsLin p gamma F1 F2 s 0
        | 2 => answer n numRepsLin p gamma F1 F2 s (numRepsLin * numLinQueries + 2)
        | _ => answer n numRepsLin p gamma F1 F2 s 3) cValue p = true := by
    simp only [cktTest, decide_eq_true_eq]
    change (cValue + (answer n numRepsLin p gamma F1 F2 s (numRepsLin * numLinQueries + 1) -
        answer n numRepsLin p gamma F1 F2 s 0) +
      (answer n numRepsLin p gamma F1 F2 s (numRepsLin * numLinQueries + 2) -
        answer n numRepsLin p gamma F1 F2 s 3)) % (p : ℤ) = 0
    rw [answer_test, answer_test, hfirst 0 (by decide), hfirst 3 (by decide)]
    simp only [linAnswer, testAnswer]
    rw [← Int.zero_emod (p : ℤ), emod_eq_emod_iff, Int.cast_zero, ← hzero]
    push_cast
    rw [cast_cktTestQueries_dot, cast_cktTestQueries_dot]
    ring
  simp only [runRepetition, hlinTests, hcor]
  exact hckt

end Tests

/-! ## The verifier accepts -/

variable {ν : Type u} [LinearOrder ν] {p : ℕ} [Fact p.Prime]

/-- The value of a constraint modulo `p`. -/
def constraintValue (p : ℕ) (D : Decls ν) (spec : List (Text ν)) (io f1 : Vec) (c : ℕ) : ZMod p :=
  (meaning (D.nameValue io f1) (spec.getD c .nil) : ℤ)

/-- What has been read from the two files, over a second vector of products, is the sum of the
constraints with their weights. -/
theorem cast_gamma_dot {D : Decls ν} {spec : List (Text ν)} {g0 : List Gamma0Line}
    {g12 : List Gamma12Line} (hin : ∀ l ∈ g12, l.InRange D.vars.length)
    (hsum : ∀ (alpha : Vec) (io f1 : ℕ → ZMod p),
      (g0.map (gamma0Value alpha io)).sum + (g12.map (gamma12Value alpha f1)).sum =
        ∑ c ∈ Finset.range spec.length,
          (alpha (0 + c) : ZMod p) * meaning (D.nameValue io f1) (spec.getD c .nil))
    {F1Index : ℕ → ℕ} (hindex : ∀ i < D.vars.length, F1Index i < D.vars.length) {F1 F2 : Vec}
    (hF2 : IsOuter p D.vars.length F1 F2) (alpha io : Vec) :
    ((gammaConstant alpha io g0 +
        dotProduct D.vars.length (gammaVectors D.vars.length F1Index alpha g12).1 F1 +
        dotProduct (D.vars.length * D.vars.length)
          (gammaVectors D.vars.length F1Index alpha g12).2 F2 : ℤ) : ZMod p) =
      ∑ c : Fin spec.length,
        (alpha c : ZMod p) * constraintValue p D spec io (fun i => F1 (F1Index i)) c := by
  rw [add_assoc, Int.cast_add, cast_gammaVectors_dot hindex hF2 alpha g12 hin, cast_gammaConstant,
    hsum, Finset.sum_range]
  refine Finset.sum_congr rfl fun c _ => ?_
  rw [Nat.zero_add]
  congr 1
  have hmap := map_meaning (Int.castRingHom (ZMod p))
    (D.nameValue io fun i => F1 (F1Index i)) (spec.getD c .nil)
  refine Eq.trans ?_ hmap.symm
  congr 1
  funext x
  simp only [Decls.nameValue]
  cases D.inputIndex x <;> cases D.outputIndex x <;> cases D.variableIndex x <;> simp

/-- The sum of the constraints of a spec at an assignment, each with its weight. -/
def weightedConstraints (D : Decls ν) (spec : List (Text ν)) (alpha io f1 : Vec) : ℤ :=
  ∑ c ∈ Finset.range spec.length, alpha c * meaning (D.nameValue io f1) (spec.getD c .nil)

/-- `( V0 ) * ( V0 - 1 ) + ( )`, by which `V0` is a bit. -/
def bitLine : Text ℕ :=
  .group (.atom (.name 0) .nil) (.atom .times (.group
    (.atom (.name 0) (.atom .minus (.atom (.const 1) .nil))) (.atom .plus (.group .nil .nil))))

/-- Two variables, no inputs and outputs. -/
def twoVars : Decls ℕ := ⟨[], [], [0, 1], by decide⟩

/-- The line has one square and one linear term. -/
theorem bitLine_canonical :
    Canonical ([⟨some 1, [0, 0]⟩, ⟨some (-1), [0]⟩] : List (Term ℕ)) := by
  refine ⟨by decide, by simp, ?_⟩
  intro t ht
  rcases List.mem_cons.mp ht with rfl | ht
  · exact ⟨1, rfl, by decide⟩
  · obtain rfl := List.mem_singleton.mp ht
    exact ⟨-1, rfl, by decide⟩

theorem symbolic_bitLine :
    symbolic bitLine = termsValue MvPolynomial.X [⟨some 1, [0, 0]⟩, ⟨some (-1), [0]⟩] := by
  simp [symbolic, meaning, bitLine, BracketReader.run, meaningReader, Meaning.flush,
    Meaning.factor, Meaning.toggle, Meaning.empty, Term.value, Term.coeff]
  ring

theorem bitLine_basic : BasicLine twoVars bitLine := by
  refine basicLine_of_canonical bitLine_canonical (by simp) symbolic_bitLine ?_
  intro t ht
  rcases List.mem_cons.mp ht with rfl | ht
  · exact BasicFactors.square (x := 0) (y := 0) (by decide) (by decide)
  · obtain rfl := List.mem_singleton.mp ht
    exact BasicFactors.linear (x := 0) (by decide)

theorem bitLine_fits : SpecFits twoVars [bitLine] := by
  intro k line hk
  obtain ⟨rfl, rfl⟩ : k = 0 ∧ bitLine = line := by
    cases k with
    | zero => exact ⟨rfl, by simpa using hk⟩
    | succ k => simp at hk
  refine support_fits_of_canonical bitLine_canonical symbolic_bitLine ?_
  intro t ht
  rcases List.mem_cons.mp ht with rfl | ht
  · -- the square is printed as `2 1 0 0  0`
    intro i j hi hj
    obtain rfl : 0 = i := Option.some.inj hi
    obtain rfl : 0 = j := Option.some.inj hj
    decide
  · obtain rfl := List.mem_singleton.mp ht
    refine ⟨fun i hi => ?_, fun i hi => ?_⟩
    · rcases hi with hi | hi <;> cases hi
    · obtain rfl : 0 = i := Option.some.inj hi
      decide

theorem bitLine_readable : Readable false [] bitLine := by
  have hV : symbolic (.atom (.name 0) .nil : Text ℕ) = MvPolynomial.X 0 := by
    simp [symbolic, meaning, BracketReader.run, meaningReader, Meaning.flush, Meaning.factor,
      Meaning.empty]
  refine ⟨fun _ f hf => absurd hf List.not_mem_nil, ⟨fun _ f hf => absurd hf List.not_mem_nil,
    fun _ f hf => absurd hf List.not_mem_nil⟩, ?_, rfl, fun _ f hf => absurd hf List.not_mem_nil⟩
  intro _ f hf
  obtain rfl := List.mem_singleton.mp hf
  rw [hV]
  exact MvPolynomial.X_ne_zero 0

/-- `( ) * ( V0 ) + ( V1 - 1 )`: the constraint `V1 = 1`. -/
def emptyFactorLine : Text ℕ :=
  .group .nil (.atom .times (.group (.atom (.name 0) .nil) (.atom .plus (.group
    (.atom (.name 1) (.atom .minus (.atom (.const 1) .nil))) .nil))))

end Pepper.Libv.GingerTests
