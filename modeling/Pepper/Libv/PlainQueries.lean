import Pepper.Libv.DivisibilityTest

/-!
# Query creation by the two parties

`createPlainQueries` is the verifier's loop: it draws coins from its private stream,
accumulates the consistency queries and keeps the evaluations for its tests.
`deduceQueries` is the prover's loop over the same public stream; it writes the
queries to files named `q<k>_qquery_r_<rho>`, skipping the number of every third
linearity query.

The field `used` of the verifier records the vectors it accumulates, at the position
of their coin; the code has no such variable. `createPlainQueries_sim` runs both loops
side by side: the files hold exactly these vectors, both loops end alike when the drawn
point hits a root of unity, and the evaluations kept for the tests belong to the point
of the prover's queries.
-/

set_option autoImplicit false

open Pepper.Common.Gmp Pepper.Foundations.Loop
open Pepper.Libv.QuadraticProgram Pepper.Libv.Queries Pepper.Libv.DivisibilityTest

namespace Pepper.Libv.PlainQueries

variable {P : Prng}

/-! ## Vectors in files -/

/-- `dump_vector`: the first `size` cells of a block. -/
def dumpVector (size : ℕ) (q : Vec) : List ℤ := (List.range size).map q

/-- `load_vector` into a block. -/
def loadVector (content : List ℤ) (q : Vec) : Vec := fun i => content.getD i (q i)

/-- The copy loop that keeps a self-correction query. -/
def copyVec (size : ℕ) (src dst : Vec) : Vec :=
  forLoop size (fun i v => Function.update v i (src i)) dst

/-! ## The verifier -/

/-- The verifier's variables during query creation. -/
structure VerifierState (P : Prng) where
  crypto : Crypto P
  fConFilled : ℤ
  fConCoins : Vec
  f1Consistency : Vec
  f2Consistency : Vec
  f1Q1 : Vec
  f1Q2 : Vec
  f1Q3 : Vec
  f1Q4 : Vec
  f2Q1 : Vec
  f2Q2 : Vec
  f2Q4 : Vec
  tests : TauState
  used : ℕ → Option (List ℤ)

/-- The verifier before `create_plain_queries`, with the consistency queries that
`create_commitment_query` left. -/
def VerifierState.init (crypto : Crypto P) (r1 r2 : Vec) : VerifierState P where
  crypto := crypto
  fConFilled := -1
  fConCoins := zeroVec
  f1Consistency := r1
  f2Consistency := r2
  f1Q1 := zeroVec
  f1Q2 := zeroVec
  f1Q3 := zeroVec
  f1Q4 := zeroVec
  f2Q1 := zeroVec
  f2Q2 := zeroVec
  f2Q4 := zeroVec
  tests := ⟨zeroVec, zeroVec, zeroVec, zeroVec⟩
  used := fun _ => none

/-- Record of the vector whose coin has the given index. -/
def recordUsed (coin : ℤ) (size : ℕ) (q : Vec) (used : ℕ → Option (List ℤ)) :
    ℕ → Option (List ℤ) :=
  Function.update used coin.toNat (some (dumpVector size q))

/-- Record of one linearity iteration; the coins of the skipped queries get none. -/
def recordLin (q : Qap) (filled : ℤ) (l1 l2 m1 m2 : Vec) (used : ℕ → Option (List ℤ)) :
    ℕ → Option (List ℤ) :=
  recordUsed (filled + 5) q.sizeF2Vec m2
    (recordUsed (filled + 4) q.sizeF2Vec m1
      (recordUsed (filled + 2) q.sizeF1Vec l2 (recordUsed (filled + 1) q.sizeF1Vec l1 used)))

/-- Record of the divisibility queries. -/
def recordDiv (q : Qap) (filled : ℤ) (qs : DivQueries) (used : ℕ → Option (List ℤ)) :
    ℕ → Option (List ℤ) :=
  recordUsed (filled + 4) q.sizeF2Vec qs.f2Q1
    (recordUsed (filled + 3) q.sizeF1Vec qs.f1Q3
      (recordUsed (filled + 2) q.sizeF1Vec qs.f1Q2
        (recordUsed (filled + 1) q.sizeF1Vec qs.f1Q1 used)))

/-- One linearity iteration of `create_plain_queries`. -/
def verifierLinIter (s : Setup) (i : ℕ) (v : VerifierState P) : VerifierState P :=
  let r1 := createLinTestQueries s.qap.sizeF1Vec v.crypto v.f1Q1 v.f1Q2 (some v.f1Consistency)
    v.fConFilled (some v.fConCoins) s.prime
  let r2 := createLinTestQueries s.qap.sizeF2Vec r1.1.crypto v.f2Q1 v.f2Q2
    (some v.f2Consistency) (v.fConFilled + 3) r1.2 s.prime
  { v with
    crypto := r2.1.crypto
    fConFilled := v.fConFilled + 3 + 3
    fConCoins := r2.2.getD v.fConCoins
    f1Consistency := r1.1.con.getD v.f1Consistency
    f2Consistency := r2.1.con.getD v.f2Consistency
    f1Q1 := r1.1.l1
    f1Q2 := r1.1.l2
    f2Q1 := r2.1.l1
    f2Q2 := r2.1.l2
    -- the first iteration's queries also serve as self-correction queries
    f1Q4 := if i = 0 then copyVec s.qap.sizeF1Vec r1.1.l1 v.f1Q4 else v.f1Q4
    f2Q4 := if i = 0 then copyVec s.qap.sizeF2Vec r2.1.l1 v.f2Q4 else v.f2Q4
    used := recordLin s.qap v.fConFilled r1.1.l1 r1.1.l2 r2.1.l1 r2.1.l2 v.used }

/-- The divisibility part of one repetition of `create_plain_queries`. -/
def verifierDivStep (s : Setup) (rho : ℕ) (v : VerifierState P) : Option (VerifierState P) :=
  (createDivCorrTestQueries s v.crypto (some ⟨v.fConCoins, v.f1Consistency, v.f2Consistency⟩)
      v.fConFilled (v.fConFilled + 3) v.f1Q4 v.f2Q4 ⟨v.f1Q1, v.f1Q2, v.f1Q3, v.f2Q1⟩).map
    fun st =>
      { v with
        crypto := st.crypto
        fConFilled := v.fConFilled + 4
        fConCoins := (st.con.map ConState.coins).getD v.fConCoins
        f1Consistency := (st.con.map ConState.con1).getD v.f1Consistency
        f2Consistency := (st.con.map ConState.con2).getD v.f2Consistency
        f1Q1 := st.queries.f1Q1
        f1Q2 := st.queries.f1Q2
        f1Q3 := st.queries.f1Q3
        f2Q1 := st.queries.f2Q1
        tests := v.tests.store s.qap rho st.eval
        used := recordDiv s.qap v.fConFilled st.queries v.used }

/-- One repetition of `create_plain_queries`. -/
def verifierRound (s : Setup) (numRepsLin rho : ℕ) (v : VerifierState P) :
    Option (VerifierState P) :=
  verifierDivStep s rho (forLoop numRepsLin (verifierLinIter s) v)

/-- `ZComputationVerifier::create_plain_queries`; nothing when the program exits. -/
def createPlainQueries (s : Setup) (numRepetitions numRepsLin : ℕ) (v : VerifierState P) :
    Option (VerifierState P) :=
  forLoop numRepetitions (fun rho acc => acc.bind (verifierRound s numRepsLin rho)) (some v)

/-! ## The prover -/

/-- The prover's variables during query deduction; `files k rho` is the content of
`q<k>_qquery_r_<rho>`. -/
structure ProverState (P : Prng) where
  crypto : Crypto P
  queryId : ℕ
  f1Q1 : Vec
  f1Q2 : Vec
  f1Q3 : Vec
  f1Q4 : Vec
  f2Q1 : Vec
  f2Q2 : Vec
  f2Q4 : Vec
  files : ℕ → ℕ → Option (List ℤ)

/-- The prover before `deduce_queries`. -/
def ProverState.init (crypto : Crypto P) : ProverState P where
  crypto := crypto
  queryId := 1
  f1Q1 := zeroVec
  f1Q2 := zeroVec
  f1Q3 := zeroVec
  f1Q4 := zeroVec
  f2Q1 := zeroVec
  f2Q2 := zeroVec
  f2Q4 := zeroVec
  files := fun _ _ => none

/-- Write a vector to `q<k>_qquery_r_<rho>`. -/
def writeQuery (k rho size : ℕ) (q : Vec) (files : ℕ → ℕ → Option (List ℤ)) :
    ℕ → ℕ → Option (List ℤ) :=
  Function.update files k (Function.update (files k) rho (some (dumpVector size q)))

/-- One linearity iteration of `deduce_queries`. -/
def proverLinIter (s : Setup) (rho i : ℕ) (w : ProverState P) : ProverState P :=
  let r1 := createLinTestQueries s.qap.sizeF1Vec w.crypto w.f1Q1 w.f1Q2 none 0 none s.prime
  let r2 := createLinTestQueries s.qap.sizeF2Vec r1.1.crypto w.f2Q1 w.f2Q2 none 0 none s.prime
  { w with
    crypto := r2.1.crypto
    -- the third and the sixth number are passed over without a file
    queryId := w.queryId + 6
    f1Q1 := r1.1.l1
    f1Q2 := r1.1.l2
    f2Q1 := r2.1.l1
    f2Q2 := r2.1.l2
    f1Q4 := if i = 0 then copyVec s.qap.sizeF1Vec r1.1.l1 w.f1Q4 else w.f1Q4
    f2Q4 := if i = 0 then copyVec s.qap.sizeF2Vec r2.1.l1 w.f2Q4 else w.f2Q4
    files :=
      writeQuery (w.queryId + 4) rho s.qap.sizeF2Vec r2.1.l2
        (writeQuery (w.queryId + 3) rho s.qap.sizeF2Vec r2.1.l1
          (writeQuery (w.queryId + 1) rho s.qap.sizeF1Vec r1.1.l2
            (writeQuery w.queryId rho s.qap.sizeF1Vec r1.1.l1 w.files))) }

/-- The divisibility part of one repetition of `deduce_queries`. -/
def proverDivStep (s : Setup) (rho : ℕ) (w : ProverState P) : Option (ProverState P) :=
  (createDivCorrTestQueries s w.crypto none 0 0 w.f1Q4 w.f2Q4
      ⟨w.f1Q1, w.f1Q2, w.f1Q3, w.f2Q1⟩).map
    fun st =>
      { w with
        crypto := st.crypto
        queryId := w.queryId + 4
        f1Q1 := st.queries.f1Q1
        f1Q2 := st.queries.f1Q2
        f1Q3 := st.queries.f1Q3
        f2Q1 := st.queries.f2Q1
        files :=
          writeQuery (w.queryId + 3) rho s.qap.sizeF2Vec st.queries.f2Q1
            (writeQuery (w.queryId + 2) rho s.qap.sizeF1Vec st.queries.f1Q3
              (writeQuery (w.queryId + 1) rho s.qap.sizeF1Vec st.queries.f1Q2
                (writeQuery w.queryId rho s.qap.sizeF1Vec st.queries.f1Q1 w.files))) }

/-- `query_id = 1`, at the start of a repetition. -/
def ProverState.restart (w : ProverState P) : ProverState P := { w with queryId := 1 }

/-- One repetition of `deduce_queries`. -/
def proverRound (s : Setup) (numRepsLin rho : ℕ) (w : ProverState P) : Option (ProverState P) :=
  proverDivStep s rho (forLoop numRepsLin (proverLinIter s rho) w.restart)

/-- `ZComputationProver::deduce_queries`; nothing when the program exits. -/
def deduceQueries (s : Setup) (numRepetitions numRepsLin : ℕ) (w : ProverState P) :
    Option (ProverState P) :=
  forLoop numRepetitions (fun rho acc => acc.bind (proverRound s numRepsLin rho)) (some w)

/-! ## Public draws do not depend on the private ones -/

/-- Equality of the first `n` cells. -/
def AgreeBelow (n : ℕ) (a b : Vec) : Prop := ∀ i < n, a i = b i

theorem dumpVector_congr {size : ℕ} {a b : Vec} (h : AgreeBelow size a b) :
    dumpVector size a = dumpVector size b :=
  List.map_congr_left fun i hi => h i (List.mem_range.1 hi)

theorem numLinPcpQueries_eq (numRepsLin : ℕ) :
    numLinPcpQueries numRepsLin = 6 * numRepsLin + 4 := by
  rw [numLinPcpQueries, numLinQueries, mul_comm]

theorem copyVec_apply (size : ℕ) (src dst : Vec) {i : ℕ} (hi : i < size) :
    copyVec size src dst i = src i := by
  rw [copyVec, forLoop_fill_apply, if_pos hi]

/-- The loop of the linearity queries reads the public stream and nothing else. -/
theorem forLoop_linPass_agree (size : ℕ) (prime t1 t2 t1' t2' : ℤ) {a b : LinState P}
    (hpub : a.crypto.pub = b.crypto.pub) :
    (forLoop size (linPass prime t1 t2) a).crypto.pub =
        (forLoop size (linPass prime t1' t2') b).crypto.pub ∧
      AgreeBelow size (forLoop size (linPass prime t1 t2) a).l1
        (forLoop size (linPass prime t1' t2') b).l1 ∧
      AgreeBelow size (forLoop size (linPass prime t1 t2) a).l2
        (forLoop size (linPass prime t1' t2') b).l2 := by
  refine forLoop_simulation
    (R := fun k (x y : LinState P) => x.crypto.pub = y.crypto.pub ∧
      AgreeBelow k x.l1 y.l1 ∧ AgreeBelow k x.l2 y.l2) ?_ ?_
  · exact ⟨hpub, fun i hi => absurd hi (Nat.not_lt_zero i), fun i hi => absurd hi (Nat.not_lt_zero i)⟩
  · rintro k _ x y ⟨hxy, h1, h2⟩
    refine ⟨?_, ?_, ?_⟩
    · simp only [linPass, Crypto.getRandomPub, hxy]
    · intro i hi
      simp only [linPass, Crypto.getRandomPub, hxy]
      by_cases hik : i = k
      · rw [hik, Function.update_self, Function.update_self]
      · rw [Function.update_of_ne hik, Function.update_of_ne hik, h1 i (by omega)]
    · intro i hi
      simp only [linPass, Crypto.getRandomPub, hxy]
      by_cases hik : i = k
      · rw [hik, Function.update_self, Function.update_self]
      · rw [Function.update_of_ne hik, Function.update_of_ne hik, h2 i (by omega)]

/-- The verifier's and the prover's calls of `create_lin_test_queries`. -/
theorem createLinTestQueries_agree (size : ℕ) {c c' : Crypto P} (hpub : c.pub = c'.pub)
    (l1 l2 l1' l2' : Vec) (con : Option Vec) (filled : ℤ) (coins : Option Vec) (prime : ℤ) :
    (createLinTestQueries size c l1 l2 con filled coins prime).1.crypto.pub =
        (createLinTestQueries size c' l1' l2' none 0 none prime).1.crypto.pub ∧
      AgreeBelow size (createLinTestQueries size c l1 l2 con filled coins prime).1.l1
        (createLinTestQueries size c' l1' l2' none 0 none prime).1.l1 ∧
      AgreeBelow size (createLinTestQueries size c l1 l2 con filled coins prime).1.l2
        (createLinTestQueries size c' l1' l2' none 0 none prime).1.l2 := by
  cases coins with
  | none => exact forLoop_linPass_agree size prime 0 0 0 0 hpub
  | some coins =>
      refine forLoop_linPass_agree size prime _ _ 0 0 ?_
      rw [drawCoins_pub]
      exact hpub

theorem selfCorrect_agree {size : ℕ} {prime : ℤ} {eval corr corr' old old' : Vec}
    (h : AgreeBelow size corr corr') :
    AgreeBelow size (selfCorrect size prime eval corr old)
      (selfCorrect size prime eval corr' old') := by
  intro i hi
  rw [selfCorrect, selfCorrect, forLoop_fill_apply, forLoop_fill_apply, if_pos hi, if_pos hi, h i hi]

theorem powersOfTau_agree (size : ℕ) (tau prime : ℤ) (old old' : Vec) :
    AgreeBelow size (powersOfTau size tau prime old) (powersOfTau size tau prime old') := by
  refine forLoop_simulation (R := fun k (x y : Vec) => AgreeBelow k x y) ?_ ?_
  · exact fun i hi => absurd hi (Nat.not_lt_zero i)
  · intro k _ x y hxy i hi
    by_cases hik : i = k
    · rw [hik, Function.update_self, Function.update_self]
      by_cases hk : k > 0
      · rw [if_pos hk, if_pos hk, hxy (k - 1) (by omega)]
      · rw [if_neg hk, if_neg hk]
    · rw [Function.update_of_ne hik, Function.update_of_ne hik, hxy i (by omega)]

/-- Below their sizes the divisibility queries depend on the point, the evaluations and
the self-correction queries alone. -/
theorem divQueriesAt_agree (s : Setup) (tau : ℤ) (ev : PolyEval) {c c' c2 c2' : Vec}
    (old old' : DivQueries) (h1 : AgreeBelow s.qap.sizeF1Vec c c')
    (h2 : AgreeBelow s.qap.sizeF2Vec c2 c2') :
    AgreeBelow s.qap.sizeF1Vec (divQueriesAt s tau ev c c2 old).f1Q1
        (divQueriesAt s tau ev c' c2' old').f1Q1 ∧
      AgreeBelow s.qap.sizeF1Vec (divQueriesAt s tau ev c c2 old).f1Q2
        (divQueriesAt s tau ev c' c2' old').f1Q2 ∧
      AgreeBelow s.qap.sizeF1Vec (divQueriesAt s tau ev c c2 old).f1Q3
        (divQueriesAt s tau ev c' c2' old').f1Q3 ∧
      AgreeBelow s.qap.sizeF2Vec (divQueriesAt s tau ev c c2 old).f2Q1
        (divQueriesAt s tau ev c' c2' old').f2Q1 := by
  refine ⟨selfCorrect_agree h1, selfCorrect_agree h1, selfCorrect_agree h1, ?_⟩
  intro i hi
  rw [divQueriesAt_f2Q1_apply _ _ _ _ _ _ hi, divQueriesAt_f2Q1_apply _ _ _ _ _ _ hi, h2 i hi,
    powersOfTau_agree s.qap.sizeF2Vec tau s.prime old.f2Q1 old'.f2Q1 i hi]

/-! ## Numbering -/

/-- Answers that no file is loaded for: the third of every three linearity queries. -/
def SkippedQuery (numRepsLin j : ℕ) : Prop := j < numLinQueries * numRepsLin ∧ j % 3 = 2

instance (numRepsLin j : ℕ) : Decidable (SkippedQuery numRepsLin j) :=
  inferInstanceAs (Decidable (_ ∧ _))

/-- The files hold what the verifier used, at every number of every repetition. -/
def FilesAgree (numRepsLin : ℕ) (files : ℕ → ℕ → Option (List ℤ))
    (used : ℕ → Option (List ℤ)) : Prop :=
  ∀ rho j, j < numLinPcpQueries numRepsLin →
    files (j + 1) rho = used (rho * numLinPcpQueries numRepsLin + j)

theorem FilesAgree.write {numRepsLin : ℕ} {files : ℕ → ℕ → Option (List ℤ)}
    {used : ℕ → Option (List ℤ)} (h : FilesAgree numRepsLin files used) {k rho size : ℕ} {coin : ℤ}
    {q q' : Vec} {j : ℕ} (hj : j < numLinPcpQueries numRepsLin) (hk : k = j + 1)
    (hcoin : coin = (rho * numLinPcpQueries numRepsLin + j : ℕ)) (hq : AgreeBelow size q q') :
    FilesAgree numRepsLin (writeQuery k rho size q' files) (recordUsed coin size q used) := by
  intro rho' j' hj'
  subst hk hcoin
  rw [writeQuery, recordUsed, Int.toNat_natCast, dumpVector_congr hq]
  by_cases hjj : j' = j
  · subst hjj
    rw [Function.update_self]
    by_cases hrho : rho' = rho
    · subst hrho
      rw [Function.update_self, Function.update_self]
    · have hne : rho' * numLinPcpQueries numRepsLin + j' ≠
          rho * numLinPcpQueries numRepsLin + j' := by
        intro heq
        have hmul := Nat.add_right_cancel heq
        exact hrho (Nat.eq_of_mul_eq_mul_right (by omega) hmul)
      rw [Function.update_of_ne hrho, Function.update_of_ne hne, h rho' j' hj']
  · have hne : j' + 1 ≠ j + 1 := by omega
    have hne' : rho' * numLinPcpQueries numRepsLin + j' ≠
        rho * numLinPcpQueries numRepsLin + j := fun heq => hjj (block_inj hj' hj heq).2
    rw [Function.update_of_ne hne, Function.update_of_ne hne', h rho' j' hj']

theorem recordUsed_of_ne {coin : ℤ} {size : ℕ} {q : Vec} {used : ℕ → Option (List ℤ)} {t : ℕ}
    (ht : (t : ℤ) ≠ coin) (hcoin : 0 ≤ coin) : recordUsed coin size q used t = used t := by
  rw [recordUsed, Function.update_of_ne]
  omega

theorem recordUsed_self {coin : ℤ} {size : ℕ} {q : Vec} {used : ℕ → Option (List ℤ)} {t : ℕ}
    (ht : (t : ℤ) = coin) : recordUsed coin size q used t = some (dumpVector size q) := by
  rw [recordUsed, ← ht, Int.toNat_natCast, Function.update_self]

theorem recordLin_spec (q : Qap) {filled : ℤ} {f : ℕ} (hf : filled + 1 = f) (l1 l2 m1 m2 : Vec)
    (used : ℕ → Option (List ℤ)) :
    (∀ t < f, recordLin q filled l1 l2 m1 m2 used t = used t) ∧
      recordLin q filled l1 l2 m1 m2 used f = some (dumpVector q.sizeF1Vec l1) ∧
      recordLin q filled l1 l2 m1 m2 used (f + 1) = some (dumpVector q.sizeF1Vec l2) ∧
      recordLin q filled l1 l2 m1 m2 used (f + 3) = some (dumpVector q.sizeF2Vec m1) ∧
      recordLin q filled l1 l2 m1 m2 used (f + 4) = some (dumpVector q.sizeF2Vec m2) := by
  refine ⟨?_, ?_, ?_, ?_, ?_⟩
  · intro t ht
    rw [recordLin, recordUsed_of_ne, recordUsed_of_ne, recordUsed_of_ne, recordUsed_of_ne] <;> omega
  · rw [recordLin, recordUsed_of_ne, recordUsed_of_ne, recordUsed_of_ne, recordUsed_self] <;> omega
  · rw [recordLin, recordUsed_of_ne, recordUsed_of_ne, recordUsed_self] <;> push_cast <;> omega
  · rw [recordLin, recordUsed_of_ne, recordUsed_self] <;> push_cast <;> omega
  · rw [recordLin, recordUsed_self]
    push_cast
    omega

theorem recordDiv_spec (q : Qap) {filled : ℤ} {f : ℕ} (hf : filled + 1 = f) (qs : DivQueries)
    (used : ℕ → Option (List ℤ)) :
    (∀ t < f, recordDiv q filled qs used t = used t) ∧
      recordDiv q filled qs used f = some (dumpVector q.sizeF1Vec qs.f1Q1) ∧
      recordDiv q filled qs used (f + 1) = some (dumpVector q.sizeF1Vec qs.f1Q2) ∧
      recordDiv q filled qs used (f + 2) = some (dumpVector q.sizeF1Vec qs.f1Q3) ∧
      recordDiv q filled qs used (f + 3) = some (dumpVector q.sizeF2Vec qs.f2Q1) := by
  refine ⟨?_, ?_, ?_, ?_, ?_⟩
  · intro t ht
    rw [recordDiv, recordUsed_of_ne, recordUsed_of_ne, recordUsed_of_ne, recordUsed_of_ne] <;> omega
  · rw [recordDiv, recordUsed_of_ne, recordUsed_of_ne, recordUsed_of_ne, recordUsed_self] <;> omega
  · rw [recordDiv, recordUsed_of_ne, recordUsed_of_ne, recordUsed_self] <;> push_cast <;> omega
  · rw [recordDiv, recordUsed_of_ne, recordUsed_self] <;> push_cast <;> omega
  · rw [recordDiv, recordUsed_self]
    push_cast
    omega

/-! ## Lockstep -/

/-- The cells kept for repetition `rho` are those of the evaluation `ev`. -/
structure KeepsEval (q : Qap) (rho : ℕ) (ev : PolyEval) (t : TauState) : Prop where
  dStar : t.dStar rho = ev.dStar
  aTau : ∀ k ≤ q.sizeInput + q.sizeOutput, t.aTauIo (tauIoBase q rho + k) =
    ev.evalPolyA (if k = 0 then 0 else q.nPrime + k)
  bTau : ∀ k ≤ q.sizeInput + q.sizeOutput, t.bTauIo (tauIoBase q rho + k) =
    ev.evalPolyB (if k = 0 then 0 else q.nPrime + k)
  cTau : ∀ k ≤ q.sizeInput + q.sizeOutput, t.cTauIo (tauIoBase q rho + k) =
    ev.evalPolyC (if k = 0 then 0 else q.nPrime + k)

/-- The recorded divisibility queries of repetition `rho`, its recorded self-correction
queries and the kept evaluations belong to one point. -/
def RoundLinked (s : Setup) (numRepsLin rho : ℕ) (used : ℕ → Option (List ℤ))
    (t : TauState) : Prop :=
  ∃ tau ev corrQ corrQ2 old,
    evaluatePolynomialAt s tau = some ev ∧
    (0 < numRepsLin →
      used (rho * numLinPcpQueries numRepsLin) = some (dumpVector s.qap.sizeF1Vec corrQ) ∧
      used (rho * numLinPcpQueries numRepsLin + 3) =
        some (dumpVector s.qap.sizeF2Vec corrQ2)) ∧
    used (rho * numLinPcpQueries numRepsLin + numLinQueries * numRepsLin) =
      some (dumpVector s.qap.sizeF1Vec (divQueriesAt s tau ev corrQ corrQ2 old).f1Q1) ∧
    used (rho * numLinPcpQueries numRepsLin + (numLinQueries * numRepsLin + 1)) =
      some (dumpVector s.qap.sizeF1Vec (divQueriesAt s tau ev corrQ corrQ2 old).f1Q2) ∧
    used (rho * numLinPcpQueries numRepsLin + (numLinQueries * numRepsLin + 2)) =
      some (dumpVector s.qap.sizeF1Vec (divQueriesAt s tau ev corrQ corrQ2 old).f1Q3) ∧
    used (rho * numLinPcpQueries numRepsLin + (numLinQueries * numRepsLin + 3)) =
      some (dumpVector s.qap.sizeF2Vec (divQueriesAt s tau ev corrQ corrQ2 old).f2Q1) ∧
    KeepsEval s.qap rho ev t

/-- The two parties inside repetition `rho`, after `i` linearity iterations. -/
structure RoundSim (s : Setup) (numRepsLin rho i : ℕ) (v : VerifierState P)
    (w : ProverState P) : Prop where
  pub : v.crypto.pub = w.crypto.pub
  filled : v.fConFilled =
    ((rho * numLinPcpQueries numRepsLin + numLinQueries * i : ℕ) : ℤ) - 1
  queryId : w.queryId = numLinQueries * i + 1
  f1Q4 : AgreeBelow s.qap.sizeF1Vec v.f1Q4 w.f1Q4
  f2Q4 : AgreeBelow s.qap.sizeF2Vec v.f2Q4 w.f2Q4
  files : FilesAgree numRepsLin w.files v.used
  corr : 0 < i →
    v.used (rho * numLinPcpQueries numRepsLin) = some (dumpVector s.qap.sizeF1Vec v.f1Q4) ∧
    v.used (rho * numLinPcpQueries numRepsLin + 3) = some (dumpVector s.qap.sizeF2Vec v.f2Q4)
  written : ∀ t < rho * numLinPcpQueries numRepsLin + numLinQueries * i,
    ¬SkippedQuery numRepsLin (t % numLinPcpQueries numRepsLin) → (v.used t).isSome
  linked : ∀ rho' < rho, RoundLinked s numRepsLin rho' v.used v.tests

theorem RoundLinked.of_used_eq {s : Setup} {numRepsLin rho : ℕ}
    {used used' : ℕ → Option (List ℤ)} {t : TauState} (h : RoundLinked s numRepsLin rho used t)
    (heq : ∀ j < (rho + 1) * numLinPcpQueries numRepsLin, used' j = used j) :
    RoundLinked s numRepsLin rho used' t := by
  obtain ⟨tau, ev, corrQ, corrQ2, old, hev, hcorr, h1, h2, h3, h4, hkeep⟩ := h
  have hN : (rho + 1) * numLinPcpQueries numRepsLin =
      rho * numLinPcpQueries numRepsLin + (numLinQueries * numRepsLin + 4) := by
    rw [numLinPcpQueries, numLinQueries]
    ring
  refine ⟨tau, ev, corrQ, corrQ2, old, hev, ?_, ?_, ?_, ?_, ?_, hkeep⟩
  · intro hpos
    rw [heq _ (by rw [hN]; omega), heq _ (by rw [hN]; omega)]
    exact hcorr hpos
  · rw [heq _ (by rw [hN]; omega), h1]
  · rw [heq _ (by rw [hN]; omega), h2]
  · rw [heq _ (by rw [hN]; omega), h3]
  · rw [heq _ (by rw [hN]; omega), h4]

/-- Both parties keep the query of the first iteration for the self-correction. -/
theorem agreeBelow_firstQuery {size i : ℕ} {l l' q q' : Vec} (hl : AgreeBelow size l l')
    (hq : AgreeBelow size q q') :
    AgreeBelow size (if i = 0 then copyVec size l q else q)
      (if i = 0 then copyVec size l' q' else q') := by
  by_cases hzero : i = 0
  · intro k hk
    rw [if_pos hzero, if_pos hzero, copyVec_apply _ _ _ hk, copyVec_apply _ _ _ hk, hl k hk]
  · rw [if_neg hzero, if_neg hzero]
    exact hq

/-- One linearity iteration keeps the parties in step. -/
theorem RoundSim.linIter {s : Setup} {numRepsLin rho i : ℕ} {v : VerifierState P}
    {w : ProverState P} (h : RoundSim s numRepsLin rho i v w) (hi : i < numRepsLin) :
    RoundSim s numRepsLin rho (i + 1) (verifierLinIter s i v) (proverLinIter s rho i w) := by
  have h6 : numLinQueries = 6 := rfl
  have hN := numLinPcpQueries_eq numRepsLin
  obtain ⟨hpub1, hl1, hl2⟩ := createLinTestQueries_agree s.qap.sizeF1Vec h.pub v.f1Q1 v.f1Q2
    w.f1Q1 w.f1Q2 (some v.f1Consistency) v.fConFilled (some v.fConCoins) s.prime
  obtain ⟨hpub2, hm1, hm2⟩ := createLinTestQueries_agree s.qap.sizeF2Vec hpub1 v.f2Q1 v.f2Q2
    w.f2Q1 w.f2Q2 (some v.f2Consistency) (v.fConFilled + 3)
    (createLinTestQueries s.qap.sizeF1Vec v.crypto v.f1Q1 v.f1Q2 (some v.f1Consistency)
      v.fConFilled (some v.fConCoins) s.prime).2 s.prime
  have hfilled := h.filled
  rw [h6] at hfilled
  have hcoin : v.fConFilled + 1 = (rho * numLinPcpQueries numRepsLin + 6 * i : ℕ) := by omega
  -- four of the six queries are recorded, the two sums are computed by the prover
  obtain ⟨hframe, hu0, hu1, hu3, hu4⟩ := recordLin_spec s.qap hcoin
    (verifierLinIter s i v).f1Q1 (verifierLinIter s i v).f1Q2 (verifierLinIter s i v).f2Q1
    (verifierLinIter s i v).f2Q2 v.used
  refine
    { pub := hpub2
      filled := ?_
      queryId := ?_
      f1Q4 := ?_
      f2Q4 := ?_
      files := ?_
      corr := ?_
      written := ?_
      linked := ?_ }
  · simp only [verifierLinIter, hfilled, h6]
    push_cast
    ring
  · simp only [proverLinIter, h.queryId, h6]
    ring
  · exact agreeBelow_firstQuery hl1 h.f1Q4
  · exact agreeBelow_firstQuery hm1 h.f2Q4
  · simp only [verifierLinIter, proverLinIter, h.queryId, h6]
    refine FilesAgree.write (FilesAgree.write (FilesAgree.write (FilesAgree.write h.files
      (j := 6 * i) ?_ ?_ ?_ hl1) (j := 6 * i + 1) ?_ ?_ ?_ hl2) (j := 6 * i + 3) ?_ ?_ ?_ hm1)
      (j := 6 * i + 4) ?_ ?_ ?_ hm2 <;> omega
  · intro _
    -- the first iteration keeps its queries for the divisibility queries
    by_cases hzero : i = 0
    · subst hzero
      rw [mul_zero, add_zero] at hu0 hu3
      constructor
      · refine hu0.trans (congrArg some (dumpVector_congr fun k hk => ?_))
        exact (copyVec_apply _ _ _ hk).symm
      · refine hu3.trans (congrArg some (dumpVector_congr fun k hk => ?_))
        exact (copyVec_apply _ _ _ hk).symm
    · have hcorr := h.corr (Nat.pos_of_ne_zero hzero)
      have hq4 : (verifierLinIter s i v).f1Q4 = v.f1Q4 := if_neg hzero
      have hm4 : (verifierLinIter s i v).f2Q4 = v.f2Q4 := if_neg hzero
      rw [hq4, hm4, ← hcorr.1, ← hcorr.2]
      exact ⟨hframe _ (by omega), hframe _ (by omega)⟩
  · intro t ht hskip
    show (recordLin s.qap v.fConFilled (verifierLinIter s i v).f1Q1 (verifierLinIter s i v).f1Q2
      (verifierLinIter s i v).f2Q1 (verifierLinIter s i v).f2Q2 v.used t).isSome
    rcases Nat.lt_or_ge t (rho * numLinPcpQueries numRepsLin + 6 * i) with hlt | hge
    · rw [hframe t hlt]
      exact h.written t (by rw [h6]; exact hlt) hskip
    · obtain ⟨k, rfl⟩ : ∃ k, t = rho * numLinPcpQueries numRepsLin + 6 * i + k :=
        ⟨t - (rho * numLinPcpQueries numRepsLin + 6 * i), by omega⟩
      rw [h6] at ht
      have hmod : (rho * numLinPcpQueries numRepsLin + 6 * i + k) %
          numLinPcpQueries numRepsLin = 6 * i + k := by
        rw [add_assoc, Nat.mul_add_mod_self_right, Nat.mod_eq_of_lt (by omega)]
      -- the sums are skipped
      have hk3 : k % 3 ≠ 2 := by
        intro hk3
        apply hskip
        rw [hmod]
        exact ⟨by rw [h6]; omega, by omega⟩
      have hk : k = 0 ∨ k = 1 ∨ k = 3 ∨ k = 4 := by omega
      rcases hk with rfl | rfl | rfl | rfl
      · exact Option.isSome_iff_exists.2 ⟨_, hu0⟩
      · exact Option.isSome_iff_exists.2 ⟨_, hu1⟩
      · exact Option.isSome_iff_exists.2 ⟨_, hu3⟩
      · exact Option.isSome_iff_exists.2 ⟨_, hu4⟩
  · -- what was recorded for the rounds before stays
    intro rho' hrho'
    refine (h.linked rho' hrho').of_used_eq ?_
    intro j hj
    apply hframe
    have hle : (rho' + 1) * numLinPcpQueries numRepsLin ≤ rho * numLinPcpQueries numRepsLin :=
      Nat.mul_le_mul_right _ hrho'
    omega

/-! ## Repetitions -/

theorem storeTauIo_kept (q : Qap) (rho : ℕ) (eval tauIo : Vec) {k : ℕ}
    (hk : k ≤ q.sizeInput + q.sizeOutput) :
    storeTauIo q rho eval tauIo (tauIoBase q rho + k) =
      eval (if k = 0 then 0 else q.nPrime + k) := by
  cases k with
  | zero => exact storeTauIo_const q rho eval tauIo
  | succ k =>
      have hcell : tauIoBase q rho + (k + 1) = tauIoBase q rho + 1 + k := by omega
      have hwire : q.nPrime + (k + 1) = 1 + q.nPrime + k := by omega
      rw [if_neg (Nat.succ_ne_zero k), hcell, hwire]
      exact storeTauIo_io q rho eval tauIo hk

theorem storeTauIo_of_ne (q : Qap) {rho rho' : ℕ} (hne : rho' ≠ rho) (eval tauIo : Vec) {k : ℕ}
    (hk : k ≤ q.sizeInput + q.sizeOutput) :
    storeTauIo q rho eval tauIo (tauIoBase q rho' + k) = tauIo (tauIoBase q rho' + k) := by
  -- the cells of different repetitions are disjoint
  have hdisjoint : ∀ j ≤ q.sizeInput + q.sizeOutput,
      tauIoBase q rho' + k ≠ tauIoBase q rho + j := by
    intro j hj heq
    have hlen : 0 < 1 + q.sizeInput + q.sizeOutput := by omega
    have hk' : k < 1 + q.sizeInput + q.sizeOutput := by omega
    have hj' : j < 1 + q.sizeInput + q.sizeOutput := by omega
    have hdiv := congrArg (· / (1 + q.sizeInput + q.sizeOutput)) heq
    simp only [tauIoBase, Nat.mul_add_div hlen, mul_comm _ (1 + q.sizeInput + q.sizeOutput),
      Nat.div_eq_of_lt hk', Nat.div_eq_of_lt hj', add_zero] at hdiv
    exact hne hdiv
  rw [storeTauIo]
  refine forLoop_induction
    (P := fun _ (x : Vec) => x (tauIoBase q rho' + k) = tauIo (tauIoBase q rho' + k)) ?_ ?_
  · rw [Function.update_of_ne (hdisjoint 0 (Nat.zero_le _))]
  · intro i hi x hx
    have hcell : tauIoBase q rho + 1 + i = tauIoBase q rho + (1 + i) := by omega
    rw [hcell, Function.update_of_ne (hdisjoint (1 + i) (by omega)), hx]

theorem KeepsEval.store (q : Qap) (rho : ℕ) (ev : PolyEval) (t : TauState) :
    KeepsEval q rho ev (t.store q rho ev) where
  dStar := t.store_dStar q rho ev
  aTau := fun _ hk => storeTauIo_kept q rho ev.evalPolyA t.aTauIo hk
  bTau := fun _ hk => storeTauIo_kept q rho ev.evalPolyB t.bTauIo hk
  cTau := fun _ hk => storeTauIo_kept q rho ev.evalPolyC t.cTauIo hk

theorem KeepsEval.store_of_ne {q : Qap} {rho rho' : ℕ} {ev ev' : PolyEval} {t : TauState}
    (h : KeepsEval q rho' ev' t) (hne : rho' ≠ rho) :
    KeepsEval q rho' ev' (t.store q rho ev) where
  dStar := (Function.update_of_ne hne _ _).trans h.dStar
  aTau := fun k hk => (storeTauIo_of_ne q hne _ _ hk).trans (h.aTau k hk)
  bTau := fun k hk => (storeTauIo_of_ne q hne _ _ hk).trans (h.bTau k hk)
  cTau := fun k hk => (storeTauIo_of_ne q hne _ _ hk).trans (h.cTau k hk)

/-- The divisibility part ends for both parties or for none, and leaves them in step at
the next repetition. -/
theorem RoundSim.divStep {s : Setup} {numRepsLin rho : ℕ} {v : VerifierState P}
    {w : ProverState P} (h : RoundSim s numRepsLin rho numRepsLin v w) :
    Option.Rel (fun v' (w' : ProverState P) => RoundSim s numRepsLin (rho + 1) 0 v' w'.restart)
      (verifierDivStep s rho v) (proverDivStep s rho w) := by
  have h6 : numLinQueries = 6 := rfl
  have hN := numLinPcpQueries_eq numRepsLin
  have hfilled := h.filled
  rw [h6] at hfilled
  -- both draw the same point, from the public stream
  have htau : drawnTau w.crypto s.prime = drawnTau v.crypto s.prime := by
    rw [drawnTau, drawnTau, h.pub]
  rw [verifierDivStep, proverDivStep, createDivCorrTestQueries_eq, createDivCorrTestQueries_eq,
    htau]
  cases hev : evaluatePolynomialAt s (drawnTau v.crypto s.prime) with
  | none => exact Option.Rel.none
  | some ev =>
      obtain ⟨hq1, hq2, hq3, hq4⟩ := divQueriesAt_agree s (drawnTau v.crypto s.prime) ev
        ⟨v.f1Q1, v.f1Q2, v.f1Q3, v.f2Q1⟩ ⟨w.f1Q1, w.f1Q2, w.f1Q3, w.f2Q1⟩ h.f1Q4 h.f2Q4
      simp only [Option.map_some]
      refine Option.Rel.some ?_
      -- the queries of the two parties, equal below their sizes
      generalize hqv : divQueriesAt s (drawnTau v.crypto s.prime) ev v.f1Q4 v.f2Q4
        ⟨v.f1Q1, v.f1Q2, v.f1Q3, v.f2Q1⟩ = qv at hq1 hq2 hq3 hq4 ⊢
      generalize divQueriesAt s (drawnTau v.crypto s.prime) ev w.f1Q4 w.f2Q4
        ⟨w.f1Q1, w.f1Q2, w.f1Q3, w.f2Q1⟩ = qw at hq1 hq2 hq3 hq4 ⊢
      have hround : (rho + 1) * numLinPcpQueries numRepsLin =
          rho * numLinPcpQueries numRepsLin + (6 * numRepsLin + 4) := by
        rw [Nat.succ_mul, hN]
      have hcoin : v.fConFilled + 1 =
          (rho * numLinPcpQueries numRepsLin + 6 * numRepsLin : ℕ) := by omega
      obtain ⟨hframe, hu0, hu1, hu2, hu3⟩ := recordDiv_spec s.qap hcoin qv v.used
      refine
        { pub := ?_
          filled := ?_
          queryId := ?_
          f1Q4 := h.f1Q4
          f2Q4 := h.f2Q4
          files := ?_
          corr := fun hpos => absurd hpos (Nat.lt_irrefl 0)
          written := ?_
          linked := ?_ }
      · show (P.getRandom v.crypto.pub s.prime).2 = (P.getRandom w.crypto.pub s.prime).2
        rw [h.pub]
      · show v.fConFilled + 4 = _
        rw [hround, hfilled]
        push_cast
        ring
      · rfl
      · have hid := h.queryId
        rw [h6] at hid
        show FilesAgree numRepsLin _ _
        simp only [hid]
        refine FilesAgree.write (FilesAgree.write (FilesAgree.write (FilesAgree.write h.files
          (j := 6 * numRepsLin) ?_ ?_ ?_ hq1) (j := 6 * numRepsLin + 1) ?_ ?_ ?_ hq2)
          (j := 6 * numRepsLin + 2) ?_ ?_ ?_ hq3) (j := 6 * numRepsLin + 3) ?_ ?_ ?_ hq4 <;>
          omega
      · intro t ht hskip
        rw [mul_zero, add_zero, hround] at ht
        show (recordDiv s.qap v.fConFilled qv v.used t).isSome
        rcases Nat.lt_or_ge t (rho * numLinPcpQueries numRepsLin + 6 * numRepsLin) with hlt | hge
        · rw [hframe t hlt]
          exact h.written t hlt hskip
        · obtain ⟨k, rfl⟩ : ∃ k, t = rho * numLinPcpQueries numRepsLin + 6 * numRepsLin + k :=
            ⟨t - (rho * numLinPcpQueries numRepsLin + 6 * numRepsLin), by omega⟩
          have hk : k = 0 ∨ k = 1 ∨ k = 2 ∨ k = 3 := by omega
          rcases hk with rfl | rfl | rfl | rfl
          · exact Option.isSome_iff_exists.2 ⟨_, hu0⟩
          · exact Option.isSome_iff_exists.2 ⟨_, hu1⟩
          · exact Option.isSome_iff_exists.2 ⟨_, hu2⟩
          · exact Option.isSome_iff_exists.2 ⟨_, hu3⟩
      · intro rho' hrho'
        -- the rounds before keep their point, the last one is this one
        rcases Nat.lt_succ_iff_lt_or_eq.1 hrho' with hlt | rfl
        · have hle : (rho' + 1) * numLinPcpQueries numRepsLin ≤
              rho * numLinPcpQueries numRepsLin := Nat.mul_le_mul_right _ hlt
          have hused : RoundLinked s numRepsLin rho'
              (recordDiv s.qap v.fConFilled qv v.used) v.tests := by
            refine (h.linked rho' hlt).of_used_eq ?_
            intro j hj
            exact hframe j (by omega)
          obtain ⟨tau, ev', corrQ, corrQ2, old, hev', hcorr, h1, h2, h3, h4, hkeep⟩ := hused
          exact ⟨tau, ev', corrQ, corrQ2, old, hev', hcorr, h1, h2, h3, h4,
            hkeep.store_of_ne (Nat.ne_of_lt hlt)⟩
        · refine ⟨drawnTau v.crypto s.prime, ev, v.f1Q4, v.f2Q4,
            ⟨v.f1Q1, v.f1Q2, v.f1Q3, v.f2Q1⟩, hev, ?_, ?_, ?_, ?_, ?_,
            KeepsEval.store s.qap rho' ev v.tests⟩
          · intro hpos
            have hcorr := h.corr hpos
            rw [← hcorr.1, ← hcorr.2]
            exact ⟨hframe _ (by omega), hframe _ (by omega)⟩
          all_goals rw [hqv, h6]
          · exact hu0
          · exact hu1
          · exact hu2
          · exact hu3

/-- One repetition. -/
theorem RoundSim.round {s : Setup} {numRepsLin rho : ℕ} {v : VerifierState P} {w : ProverState P}
    (h : RoundSim s numRepsLin rho 0 v w.restart) :
    Option.Rel (fun v' (w' : ProverState P) => RoundSim s numRepsLin (rho + 1) 0 v' w'.restart)
      (verifierRound s numRepsLin rho v) (proverRound s numRepsLin rho w) := by
  apply RoundSim.divStep
  refine forLoop_simulation (R := fun i v' w' => RoundSim s numRepsLin rho i v' w') h ?_
  intro i hi v' w' hsim
  exact hsim.linIter hi

/-- Before the first repetition. -/
theorem RoundSim.init (s : Setup) (numRepsLin : ℕ) {c c' : Crypto P} (hpub : c.pub = c'.pub)
    (r1 r2 : Vec) :
    RoundSim s numRepsLin 0 0 (VerifierState.init c r1 r2)
      (ProverState.init c').restart where
  pub := hpub
  filled := by simp [VerifierState.init]
  queryId := rfl
  f1Q4 := fun _ _ => rfl
  f2Q4 := fun _ _ => rfl
  files := fun _ _ _ => rfl
  corr := fun hpos => absurd hpos (Nat.lt_irrefl 0)
  written := by
    intro t ht
    rw [zero_mul, mul_zero] at ht
    exact absurd ht (Nat.not_lt_zero t)
  linked := fun rho' hrho' => absurd hrho' (Nat.not_lt_zero rho')

/-- All repetitions: both parties exit at the same point or end in step. -/
theorem createPlainQueries_sim (s : Setup) (numRepetitions numRepsLin : ℕ) (c c' : Crypto P)
    (hpub : c.pub = c'.pub) (r1 r2 : Vec) :
    Option.Rel
      (fun v (w : ProverState P) => RoundSim s numRepsLin numRepetitions 0 v w.restart)
      (createPlainQueries s numRepetitions numRepsLin (VerifierState.init c r1 r2))
      (deduceQueries s numRepetitions numRepsLin (ProverState.init c')) := by
  refine forLoop_simulation
    (R := fun rho ov ow =>
      Option.Rel (fun v (w : ProverState P) => RoundSim s numRepsLin rho 0 v w.restart) ov ow)
    (Option.Rel.some (RoundSim.init s numRepsLin hpub r1 r2)) ?_
  intro rho _ ov ow hrel
  cases hrel with
  | none => exact Option.Rel.none
  | some hsim => exact hsim.round

/-! ## Which files are loaded -/

/-- The two proof vectors. -/
inductive ProofVec where
  | f1
  | f2
deriving DecidableEq, Repr

/-- `push_back` of the same entries in every pass of a loop. -/
def pushEach {α : Type} (n : ℕ) (entries : List α) : List α :=
  forLoop n (fun _ l => l ++ entries) []

/-- `qquery_sizes`, as `find_cur_qlengths` builds it. -/
def qquerySizes (q : Qap) (numRepsLin : ℕ) : List ℕ :=
  pushEach numRepsLin
      [q.sizeF1Vec, q.sizeF1Vec, q.sizeF1Vec, q.sizeF2Vec, q.sizeF2Vec, q.sizeF2Vec] ++
    [q.sizeF1Vec, q.sizeF1Vec, q.sizeF1Vec, q.sizeF2Vec]

/-- `qquery_F_ptrs`: the proof vector that answers a query, or `NULL` where the answer is
the sum of the two before it. -/
def qqueryFPtrs (numRepsLin : ℕ) : List (Option ProofVec) :=
  pushEach numRepsLin [some .f1, some .f1, none, some .f2, some .f2, none] ++
    [some .f1, some .f1, some .f1, some .f2]

/-- `qquery_q_ptrs`. -/
def qqueryQPtrs (numRepetitions numRepsLin : ℕ) : List ℕ :=
  List.range (numRepetitions * numLinPcpQueries numRepsLin)

theorem length_pushEach {α : Type} (n : ℕ) (entries : List α) :
    (pushEach n entries).length = n * entries.length := by
  induction n with
  | zero => simp [pushEach]
  | succ n ih =>
      rw [pushEach, forLoop_succ, List.length_append, ← pushEach, ih, Nat.succ_mul]

theorem getElem?_pushEach {α : Type} (n : ℕ) (entries : List α) {j : ℕ}
    (hj : j < n * entries.length) : (pushEach n entries)[j]? = entries[j % entries.length]? := by
  induction n with
  | zero => exact absurd hj (by simp)
  | succ n ih =>
      rw [pushEach, forLoop_succ, ← pushEach]
      rcases Nat.lt_or_ge j (n * entries.length) with hlt | hge
      · rw [List.getElem?_append_left (by rw [length_pushEach]; exact hlt), ih hlt]
      · rw [List.getElem?_append_right (by rw [length_pushEach]; exact hge), length_pushEach]
        rw [Nat.succ_mul] at hj
        have hsplit : j = n * entries.length + (j - n * entries.length) := by omega
        conv_rhs => rw [hsplit, Nat.mul_add_mod_self_right, Nat.mod_eq_of_lt (by omega)]

/-- The proof vector that answers query `j`. -/
def ptrAt (numRepsLin j : ℕ) : Option ProofVec :=
  if SkippedQuery numRepsLin j then none
  else if j < numLinQueries * numRepsLin then
    if j % numLinQueries < 3 then some .f1 else some .f2
  else if j < numLinQueries * numRepsLin + 3 then some .f1 else some .f2

theorem qqueryFPtrs_getElem? {numRepsLin j : ℕ} (hj : j < numLinPcpQueries numRepsLin) :
    (qqueryFPtrs numRepsLin)[j]? = some (ptrAt numRepsLin j) := by
  have h6 : numLinQueries = 6 := rfl
  rw [numLinPcpQueries, h6] at hj
  simp only [qqueryFPtrs, ptrAt, SkippedQuery, h6]
  rcases Nat.lt_or_ge j (6 * numRepsLin) with hlt | hge
  · rw [List.getElem?_append_left (by rw [length_pushEach]; simp only [List.length]; omega),
      getElem?_pushEach _ _ (by simp only [List.length]; omega)]
    simp only [List.length, hlt, true_and, if_true]
    have hmod : j % 6 < 6 := Nat.mod_lt j (by norm_num)
    have hthree : j % 3 = j % 6 % 3 := by omega
    rw [hthree]
    interval_cases j % 6 <;> rfl
  · rw [List.getElem?_append_right (by rw [length_pushEach]; simp only [List.length]; omega),
      length_pushEach]
    simp only [List.length]
    have hnot : ¬j < 6 * numRepsLin := Nat.not_lt.2 hge
    obtain ⟨k, rfl⟩ : ∃ k, j = 6 * numRepsLin + k := ⟨j - 6 * numRepsLin, by omega⟩
    have hk : k < 4 := by omega
    have hsub : 6 * numRepsLin + k - numRepsLin * (0 + 1 + 1 + 1 + 1 + 1 + 1) = k := by omega
    rw [hsub]
    interval_cases k <;> simp

theorem length_qqueryFPtrs (numRepsLin : ℕ) :
    (qqueryFPtrs numRepsLin).length = numLinPcpQueries numRepsLin := by
  rw [qqueryFPtrs, List.length_append, length_pushEach]
  rfl

theorem not_skippedQuery_of_ptrAt {numRepsLin j : ℕ} {f : ProofVec}
    (h : ptrAt numRepsLin j = some f) : ¬SkippedQuery numRepsLin j := by
  intro hskip
  rw [ptrAt, if_pos hskip] at h
  exact absurd h (by simp)

theorem rel_imp {α β : Type} {R R' : α → β → Prop} {x : Option α} {y : Option β}
    (h : ∀ a b, x = some a → R a b → R' a b) (hxy : Option.Rel R x y) : Option.Rel R' x y := by
  cases hxy with
  | none => exact Option.Rel.none
  | some hab => exact Option.Rel.some (h _ _ rfl hab)

/-- Every file that an answer needs holds the vector recorded at the answer's position. -/
theorem RoundSim.loaded {s : Setup} {numRepetitions numRepsLin : ℕ} {v : VerifierState P}
    {w : ProverState P} (h : RoundSim s numRepsLin numRepetitions 0 v w) {rho j : ℕ}
    (hrho : rho < numRepetitions) (hj : j < numLinPcpQueries numRepsLin) {f : ProofVec}
    (hptr : ptrAt numRepsLin j = some f) :
    ∃ content, w.files (j + 1) rho = some content ∧
      v.used (rho * numLinPcpQueries numRepsLin + j) = some content := by
  have hbound : rho * numLinPcpQueries numRepsLin + j <
      numRepetitions * numLinPcpQueries numRepsLin + numLinQueries * 0 := block_lt hrho hj
  have hsome := h.written (rho * numLinPcpQueries numRepsLin + j) hbound (by
    rw [Nat.mul_add_mod_self_right, Nat.mod_eq_of_lt hj]
    exact not_skippedQuery_of_ptrAt hptr)
  obtain ⟨content, hcontent⟩ := Option.isSome_iff_exists.1 hsome
  exact ⟨content, (h.files rho j hj).trans hcontent, hcontent⟩

end Pepper.Libv.PlainQueries
