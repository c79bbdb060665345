import Pepper.Libv.Consistency

/-!
# Agreement of the query vectors

`plainQueries_agree`: with one seed of the public stream, the files of the prover hold the vectors
that the verifier has added to its two consistency queries, each with its coin. Cell by cell a
consistency query is what `create_commitment_query` left in it plus the coins times the cells of the
files (`createPlainQueries_cells`), by the balance of `ConInv` against unit vectors.
-/

set_option autoImplicit false

open Pepper.Common.Gmp Pepper.Foundations.Loop
open Pepper.Libv.QuadraticProgram Pepper.Libv.Queries Pepper.Libv.DivisibilityTest
open Pepper.Libv.PlainQueries Pepper.Libv.Consistency

namespace Pepper.Libv.QueryAgreement

variable {P : Prng}

/-! ## Cells of the files -/

/-- Cell `i` of the file that `prover_answer_queries` loads for query `j` of repetition `rho`, if
proof vector `f` answers it. -/
def loadedCell (numRepsLin : ℕ) (files : ℕ → ℕ → Option (List ℤ)) (f : ProofVec) (i rho j : ℕ) : ℤ :=
  if (qqueryFPtrs numRepsLin).getD j none = some f then ((files (j + 1) rho).getD []).getD i 0
  else 0

/-- What query `j` adds to cell `i` of the consistency query of `f`, for a coin of one: the loaded
vector, or for a query without a file the sum of the two vectors before it. -/
def coinCell (numRepsLin : ℕ) (files : ℕ → ℕ → Option (List ℤ)) (f : ProofVec) (i rho j : ℕ) : ℤ :=
  if (qqueryFPtrs numRepsLin).getD j none = none then
    loadedCell numRepsLin files f i rho (j - 2) + loadedCell numRepsLin files f i rho (j - 1)
  else loadedCell numRepsLin files f i rho j

theorem qqueryFPtrs_getD {numRepsLin j : ℕ} (hj : j < numLinPcpQueries numRepsLin) :
    (qqueryFPtrs numRepsLin).getD j none = ptrAt numRepsLin j := by
  rw [List.getD_eq_getElem?_getD, qqueryFPtrs_getElem? hj, Option.getD_some]

/-! ## Unit vectors as proofs -/

/-- The proof vector `g` is the unit vector at cell `i` for `g = f`, and zero otherwise. -/
def unitProof (f : ProofVec) (i : ℕ) (g : ProofVec) : Vec := if g = f then Pi.single i 1 else 0

theorem dotProduct_single (size : ℕ) (q : Vec) {i : ℕ} (hi : i < size) :
    dotProduct size q (Pi.single i 1) = q i := by
  rw [dotProduct_eq_sum, Finset.sum_eq_single_of_mem i (Finset.mem_range.2 hi)]
  · rw [Pi.single_eq_same, one_mul]
  · intro j _ hji
    rw [Pi.single_eq_of_ne hji, zero_mul]

theorem dotProduct_zero (size : ℕ) (q : Vec) : dotProduct size q 0 = 0 := by
  rw [dotProduct_eq_sum]
  exact Finset.sum_eq_zero fun i _ => zero_mul _

/-- The length of a proof vector. -/
def proofSize (q : Qap) : ProofVec → ℕ
  | .f1 => q.sizeF1Vec
  | .f2 => q.sizeF2Vec

theorem proofVector_unit (q : Qap) (f : ProofVec) (i : ℕ) (g : ProofVec) :
    proofVector q (unitProof f i .f1) (unitProof f i .f2) g = (proofSize q g, unitProof f i g) := by
  cases g <;> rfl

section Cells

variable {q : Qap} {numRepsLin : ℕ} {files : ℕ → ℕ → Option (List ℤ)}
  {used : ℕ → Option (List ℤ)} {f : ProofVec} {i rho j : ℕ}

/-- The answer of a unit vector is a cell of the loaded file. -/
theorem plainAnswer_unit (hi : i < proofSize q f) (hj : j < numLinPcpQueries numRepsLin)
    (hfile : files (j + 1) rho = used (rho * numLinPcpQueries numRepsLin + j)) :
    plainAnswer q numRepsLin (unitProof f i .f1) (unitProof f i .f2) used
        (rho * numLinPcpQueries numRepsLin + j) = loadedCell numRepsLin files f i rho j := by
  rw [plainAnswer, loadedCell, Nat.mul_add_mod_of_lt hj, qqueryFPtrs_getD hj]
  cases ptrAt numRepsLin j with
  | none => rw [if_neg (by simp)]
  | some g =>
      simp only [proofVector_unit, Option.some_inj]
      by_cases hg : g = f
      · subst hg
        rw [if_pos rfl, unitProof, if_pos rfl, dotProduct_single _ _ hi, hfile]
        rfl
      · rw [if_neg hg, unitProof, if_neg hg, dotProduct_zero]

theorem answerAt_unit (hi : i < proofSize q f) (hj : j < numLinPcpQueries numRepsLin)
    (hfiles : ∀ j < numLinPcpQueries numRepsLin,
      files (j + 1) rho = used (rho * numLinPcpQueries numRepsLin + j)) :
    answerAt q numRepsLin (unitProof f i .f1) (unitProof f i .f2) used
        (rho * numLinPcpQueries numRepsLin + j) = coinCell numRepsLin files f i rho j := by
  rw [answerAt, coinCell, Nat.mul_add_mod_of_lt hj, qqueryFPtrs_getD hj]
  cases hptr : ptrAt numRepsLin j with
  | none =>
      obtain ⟨hle, -, -⟩ := ptrAt_before_skipped hptr
      rw [if_pos rfl, Nat.add_sub_assoc hle, Nat.add_sub_assoc (one_le_two.trans hle)]
      simp only
      rw [plainAnswer_unit hi (by omega) (hfiles _ (by omega)),
        plainAnswer_unit hi (by omega) (hfiles _ (by omega))]
  | some g =>
      rw [if_neg (by simp)]
      exact plainAnswer_unit hi hj (hfiles j hj)

/-- Both consistency queries of a run, cell by cell. -/
theorem createPlainQueries_cells {s : Setup} {numRepetitions : ℕ} {crypto : Crypto P} {r1 r2 : Vec}
    {v : VerifierState P}
    (hv : createPlainQueries s numRepetitions numRepsLin (VerifierState.init crypto r1 r2) = some v)
    (hfiles : ∀ rho < numRepetitions, ∀ j < numLinPcpQueries numRepsLin,
      files (j + 1) rho = v.used (rho * numLinPcpQueries numRepsLin + j)) :
    (∀ i < s.qap.sizeF1Vec, v.f1Consistency i = r1 i +
      ∑ rho ∈ Finset.range numRepetitions, ∑ j ∈ Finset.range (numLinPcpQueries numRepsLin),
        v.fConCoins (rho * numLinPcpQueries numRepsLin + j) *
          coinCell numRepsLin files .f1 i rho j) ∧
    ∀ i < s.qap.sizeF2Vec, v.f2Consistency i = r2 i +
      ∑ rho ∈ Finset.range numRepetitions, ∑ j ∈ Finset.range (numLinPcpQueries numRepsLin),
        v.fConCoins (rho * numLinPcpQueries numRepsLin + j) *
          coinCell numRepsLin files .f2 i rho j := by
  -- the balance of the coins against a unit vector
  have hbalance : ∀ f i, i < proofSize s.qap f →
      conDot s.qap (unitProof f i .f1) (unitProof f i .f2) v =
        dotProduct s.qap.sizeF1Vec r1 (unitProof f i .f1) +
            dotProduct s.qap.sizeF2Vec r2 (unitProof f i .f2) +
          ∑ rho ∈ Finset.range numRepetitions, ∑ j ∈ Finset.range (numLinPcpQueries numRepsLin),
            v.fConCoins (rho * numLinPcpQueries numRepsLin + j) *
              coinCell numRepsLin files f i rho j := by
    intro f i hi
    rw [(createPlainQueries_con (unitProof f i .f1) (unitProof f i .f2) hv).balance,
      sum_cells]
    congr 1
    refine Finset.sum_congr rfl fun rho hrho => Finset.sum_congr rfl fun j hj => ?_
    rw [answerAt_unit hi (Finset.mem_range.1 hj) (hfiles rho (Finset.mem_range.1 hrho))]
  constructor
  · intro i hi
    have h := hbalance .f1 i hi
    simp only [conDot, unitProof, if_true, reduceCtorEq, if_false] at h
    rwa [dotProduct_single _ _ hi, dotProduct_single _ _ hi, dotProduct_zero, dotProduct_zero,
      add_zero, add_zero] at h
  · intro i hi
    have h := hbalance .f2 i hi
    simp only [conDot, unitProof, if_true, reduceCtorEq, if_false] at h
    rwa [dotProduct_single _ _ hi, dotProduct_single _ _ hi, dotProduct_zero, dotProduct_zero,
      zero_add, zero_add] at h

end Cells

/-! ## Agreement -/

/-- The files of the prover in the order of the coins. -/
def filesAt (numRepsLin : ℕ) (files : ℕ → ℕ → Option (List ℤ)) (t : ℕ) : Option (List ℤ) :=
  files (t % numLinPcpQueries numRepsLin + 1) (t / numLinPcpQueries numRepsLin)

/-- Both parties hold the same queries: every file that `prover_answer_queries` loads exists and
holds the vector recorded with the coin of that answer; the divisibility queries in the files and
the evaluations the verifier keeps belong to one point; and the consistency queries are what they
started from plus the coins times the files. -/
structure QueriesAgree (s : Setup) (numRepetitions numRepsLin : ℕ) (r1 r2 : Vec)
    (v : VerifierState P) (w : ProverState P) : Prop where
  loaded : ∀ rho < numRepetitions, ∀ j k f, (qqueryFPtrs numRepsLin)[j]? = some (some f) →
    (qqueryQPtrs numRepetitions numRepsLin)[j]? = some k →
    ∃ content, w.files (k + 1) rho = some content ∧
      v.used (rho * numLinPcpQueries numRepsLin + j) = some content
  linked : ∀ rho < numRepetitions,
    RoundLinked s numRepsLin rho (filesAt numRepsLin w.files) v.tests
  f1Consistency : ∀ i < s.qap.sizeF1Vec, v.f1Consistency i = r1 i +
    ∑ rho ∈ Finset.range numRepetitions, ∑ j ∈ Finset.range (numLinPcpQueries numRepsLin),
      v.fConCoins (rho * numLinPcpQueries numRepsLin + j) *
        coinCell numRepsLin w.files .f1 i rho j
  f2Consistency : ∀ i < s.qap.sizeF2Vec, v.f2Consistency i = r2 i +
    ∑ rho ∈ Finset.range numRepetitions, ∑ j ∈ Finset.range (numLinPcpQueries numRepsLin),
      v.fConCoins (rho * numLinPcpQueries numRepsLin + j) *
        coinCell numRepsLin w.files .f2 i rho j

/-- The recorded vectors are those of the files. -/
theorem filesAt_eq_used {numRepsLin : ℕ} {files : ℕ → ℕ → Option (List ℤ)}
    {used : ℕ → Option (List ℤ)}
    (hfiles : ∀ rho, ∀ j < numLinPcpQueries numRepsLin,
      files (j + 1) rho = used (rho * numLinPcpQueries numRepsLin + j)) (t : ℕ) :
    filesAt numRepsLin files t = used t := by
  have hpos : 0 < numLinPcpQueries numRepsLin := Nat.succ_pos _
  rw [filesAt, hfiles _ _ (Nat.mod_lt t hpos), Nat.div_add_mod']

/-- With the same seed of the public stream the programs exit together, and otherwise both
parties hold the same queries, whatever their private streams. -/
theorem plainQueries_agree (s : Setup) (numRepetitions numRepsLin : ℕ)
    (seed priv priv' : P.State) (r1 r2 : Vec) :
    Option.Rel (QueriesAgree s numRepetitions numRepsLin r1 r2)
      (createPlainQueries s numRepetitions numRepsLin (VerifierState.init ⟨seed, priv⟩ r1 r2))
      (deduceQueries s numRepetitions numRepsLin (ProverState.init ⟨seed, priv'⟩)) := by
  have hsim := createPlainQueries_sim s numRepetitions numRepsLin
    ⟨seed, priv⟩ ⟨seed, priv'⟩ rfl r1 r2
  refine rel_imp ?_ hsim
  intro v w hv h
  obtain ⟨hf1, hf2⟩ := createPlainQueries_cells hv fun rho _ j hj => h.files rho j hj
  refine { loaded := ?_, linked := ?_, f1Consistency := hf1, f2Consistency := hf2 }
  · intro rho hrho j k f hptr hk
    have hj : j < numLinPcpQueries numRepsLin := by
      rw [← length_qqueryFPtrs]
      exact (List.getElem?_eq_some_iff.1 hptr).1
    rw [qqueryFPtrs_getElem? hj, Option.some_inj] at hptr
    obtain ⟨hlt, rfl⟩ := List.getElem?_eq_some_iff.1 hk
    have hkj : (qqueryQPtrs numRepetitions numRepsLin)[j] = j := List.getElem_range _
    rw [hkj]
    exact h.loaded hrho hj hptr
  · intro rho hrho
    refine (h.linked rho hrho).of_used_eq ?_
    intro t _
    exact filesAt_eq_used h.files t

/-- A stream that counts up from its seed. -/
def countingPrng : Prng where
  State := ℤ
  getRandom := fun seed n => (seed % n, seed + 1)
  getRandomb := fun seed nbits => (seed % 2 ^ nbits, seed + 1)
  getRandom_range := fun seed _ hn => ⟨Int.emod_nonneg seed hn.ne', Int.emod_lt_of_pos seed hn⟩
  getRandomb_range := fun seed _ =>
    ⟨Int.emod_nonneg seed (by positivity), Int.emod_lt_of_pos seed (by positivity)⟩

/-- Two repetitions for the program with three rows: both parties end, the drawn points are no
roots of unity, and the first cell of the consistency query has moved. -/
theorem plainQueries_agree_cube :
    ∃ v w,
      createPlainQueries (Setup.init cubeQap 5 (13 : ℕ)) 2 1
        (VerifierState.init (P := countingPrng) ⟨(1 : ℤ), (3 : ℤ)⟩ (cells [6, 7])
          (cells [8, 9, 10, 11])) = some v ∧
      deduceQueries (Setup.init cubeQap 5 (13 : ℕ)) 2 1
        (ProverState.init (P := countingPrng) ⟨(1 : ℤ), (50 : ℤ)⟩) = some w ∧
      QueriesAgree (Setup.init cubeQap 5 (13 : ℕ)) 2 1 (cells [6, 7]) (cells [8, 9, 10, 11]) v w ∧
      v.f1Consistency 0 = 298 := by
  have hrel := plainQueries_agree (P := countingPrng) (Setup.init cubeQap 5 (13 : ℕ)) 2 1
    (1 : ℤ) (3 : ℤ) (50 : ℤ) (cells [6, 7]) (cells [8, 9, 10, 11])
  have hcell : (createPlainQueries (Setup.init cubeQap 5 (13 : ℕ)) 2 1
      (VerifierState.init (P := countingPrng) ⟨(1 : ℤ), (3 : ℤ)⟩ (cells [6, 7])
        (cells [8, 9, 10, 11]))).map (fun v => v.f1Consistency 0) = some 298 := by
    decide +kernel
  obtain ⟨v, hv, hval⟩ := Option.map_eq_some_iff.1 hcell
  obtain ⟨w, hw⟩ : ∃ w, deduceQueries (Setup.init cubeQap 5 (13 : ℕ)) 2 1
      (ProverState.init (P := countingPrng) ⟨(1 : ℤ), (50 : ℤ)⟩) = some w :=
    Option.isSome_iff_exists.1 (by decide +kernel)
  rw [hv, hw] at hrel
  exact ⟨v, w, hv, hw, Option.rel_some_some.1 hrel, hval⟩

end Pepper.Libv.QueryAgreement
