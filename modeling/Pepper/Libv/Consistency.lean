import Pepper.Libv.Commitment

/-!
# The consistency test

`proverAnswerQueries` is the prover's answer loop, which never loads a third
linearity query and adds its last two answers instead. `conDot_sub_answers` is the
equation behind the test: as integers, the answer to the consistency query minus
the coins times the answers is the inner product of the committed random vectors
with the proof. Its invariant (`ConInv`) counts coins and answers in one order.
`consistencyTest_accepts` draws the conclusion for the decrypted commitment.
-/

set_option autoImplicit false

open Pepper.Common.Gmp Pepper.Foundations.Loop
open Pepper.Libv.QuadraticProgram Pepper.Libv.Queries Pepper.Libv.DivisibilityTest
open Pepper.Libv.PlainQueries Pepper.Libv.Commitment

namespace Pepper.Libv.Consistency

variable {P : Prng}

/-! ## The code -/

/-- The prover's variables while it answers: the last two answers and the answer file. -/
structure AnswerState where
  a1 : ℤ
  a2 : ℤ
  out : List ℤ

/-- `prover_answer_query`: load a query file and multiply. -/
def proverAnswerQuery (size : ℕ) (content : List ℤ) (assignment : Vec) : ℤ :=
  dotProduct size (loadVector content zeroVec) assignment

/-- The proof vector behind a pointer, with its length. -/
def proofVector (q : Qap) (f1 f2 : Vec) : ProofVec → ℕ × Vec
  | .f1 => (q.sizeF1Vec, f1)
  | .f2 => (q.sizeF2Vec, f2)

/-- One pass of the inner loop of `prover_answer_queries`; nothing when a file is
missing. -/
def answerStep (q : Qap) (numRepetitions numRepsLin : ℕ) (f1 f2 : Vec)
    (files : ℕ → ℕ → Option (List ℤ)) (rho j : ℕ) (st : AnswerState) : Option AnswerState :=
  let k := (qqueryQPtrs numRepetitions numRepsLin).getD j 0
  let answer : Option ℤ :=
    match (qqueryFPtrs numRepsLin).getD j none with
    | none => some (st.a1 + st.a2)
    | some f =>
        (files (k + 1) rho).map fun content =>
          proverAnswerQuery ((qquerySizes q numRepsLin).getD j 0) content
            (proofVector q f1 f2 f).2
  answer.map fun answer =>
    -- the last two answers are remembered
    { a1 := if j = 0 then st.a1 else st.a2, a2 := answer, out := st.out ++ [answer] }

/-- `prover_answer_queries` for one instance: the consistency answer and the answers in
the order they are written. -/
def proverAnswerQueries (q : Qap) (numRepetitions numRepsLin : ℕ) (f1 f2 : Vec)
    (files : ℕ → ℕ → Option (List ℤ)) (con1 con2 : List ℤ) : Option (ℤ × List ℤ) :=
  let conAnswer := 0 + proverAnswerQuery q.sizeF1Vec con1 f1 + proverAnswerQuery q.sizeF2Vec con2 f2
  let answers : Option AnswerState :=
    forLoop numRepetitions
      (fun rho acc =>
        forLoop (qquerySizes q numRepsLin).length
          (fun j acc => acc.bind (answerStep q numRepetitions numRepsLin f1 f2 files rho j)) acc)
      (some ⟨0, 0, []⟩)
  answers.map fun st => (conAnswer, st.out)

/-! ## Consistency queries and coins -/

theorem drawCoins_of_lt (count f : ℕ) {filled : ℤ} (hf : filled + 1 = f) (prime : ℤ)
    (crypto : Crypto P) (coins : Vec) {t : ℕ} (ht : t < f) :
    (drawCoins count filled prime crypto coins).2 t = coins t := by
  refine forLoop_induction (P := fun _ (s : Crypto P × Vec) => s.2 t = coins t) rfl ?_
  intro k _ s hs
  show Function.update s.2 (filled + (k + 1)).toNat _ t = coins t
  rw [Function.update_of_ne (by omega), hs]

/-- The loop of the linearity queries adds the two weighted queries cell by cell. -/
theorem forLoop_linPass_con (size : ℕ) (prime temp1 temp2 : ℤ) (c : Crypto P) (l1 l2 con : Vec) :
    ∃ con', (forLoop size (linPass prime temp1 temp2) ⟨c, l1, l2, some con⟩).con = some con' ∧
      ∀ i < size, con' i = con i +
        temp1 * (forLoop size (linPass prime temp1 temp2) ⟨c, l1, l2, some con⟩).l1 i +
        temp2 * (forLoop size (linPass prime temp1 temp2) ⟨c, l1, l2, some con⟩).l2 i := by
  have hrun : ∀ n, ∃ con',
      (forLoop n (linPass prime temp1 temp2) ⟨c, l1, l2, some con⟩).con = some con' ∧
      (∀ i < n, con' i = con i +
        temp1 * (forLoop n (linPass prime temp1 temp2) ⟨c, l1, l2, some con⟩).l1 i +
        temp2 * (forLoop n (linPass prime temp1 temp2) ⟨c, l1, l2, some con⟩).l2 i) ∧
      ∀ i, n ≤ i → con' i = con i := by
    intro n
    induction n with
    | zero => exact ⟨con, rfl, fun i hi => absurd hi (Nat.not_lt_zero i), fun _ _ => rfl⟩
    | succ n ih =>
        obtain ⟨con', hcon', hbelow, habove⟩ := ih
        rw [forLoop_succ]
        generalize forLoop n (linPass prime temp1 temp2) ⟨c, l1, l2, some con⟩ = st at *
        simp only [linPass, hcon', Option.map_some, Option.some_inj, exists_eq_left']
        constructor
        · intro i hi
          by_cases hin : i = n
          · subst hin
            simp only [Function.update_self, updateConQuery, habove i le_rfl]
          · rw [Function.update_of_ne hin, Function.update_of_ne hin, Function.update_of_ne hin,
              hbelow i (by omega)]
        · intro i hi
          rw [Function.update_of_ne (by omega), habove i (by omega)]
  obtain ⟨con', hcon', hbelow, _⟩ := hrun size
  exact ⟨con', hcon', hbelow⟩

theorem dotProduct_linear (size : ℕ) (con con' q1 q2 d : Vec) (c1 c2 : ℤ)
    (h : ∀ i < size, con' i = con i + c1 * q1 i + c2 * q2 i) :
    dotProduct size con' d =
      dotProduct size con d + c1 * dotProduct size q1 d + c2 * dotProduct size q2 d := by
  simp only [dotProduct_eq_sum, Finset.mul_sum]
  rw [← Finset.sum_add_distrib, ← Finset.sum_add_distrib]
  apply Finset.sum_congr rfl
  intro i hi
  rw [h i (Finset.mem_range.1 hi)]
  ring

/-- One call of `create_lin_test_queries` by the verifier: three new coins, which weigh
the two queries and their sum. -/
theorem createLinTestQueries_con (size f : ℕ) {filled : ℤ} (hf : filled + 1 = f) (c : Crypto P)
    (l1 l2 con coins : Vec) (prime : ℤ) :
    ∃ coins' con',
      (createLinTestQueries size c l1 l2 (some con) filled (some coins) prime).2 = some coins' ∧
      (createLinTestQueries size c l1 l2 (some con) filled (some coins) prime).1.con =
        some con' ∧
      (∀ t < f, coins' t = coins t) ∧
      ∀ d, dotProduct size con' d = dotProduct size con d +
        coins' f * dotProduct size
          (createLinTestQueries size c l1 l2 (some con) filled (some coins) prime).1.l1 d +
        coins' (f + 1) * dotProduct size
          (createLinTestQueries size c l1 l2 (some con) filled (some coins) prime).1.l2 d +
        coins' (f + 2) *
          (dotProduct size
              (createLinTestQueries size c l1 l2 (some con) filled (some coins) prime).1.l1 d +
            dotProduct size
              (createLinTestQueries size c l1 l2 (some con) filled (some coins) prime).1.l2 d) := by
  have h1 : (filled + 1).toNat = f := by omega
  have h2 : (filled + 2).toNat = f + 1 := by omega
  have h3 : (filled + 3).toNat = f + 2 := by omega
  simp only [createLinTestQueries, h1, h2, h3]
  obtain ⟨con', hcon', hcells⟩ := forLoop_linPass_con size prime
    ((drawCoins 3 filled prime c coins).2 f + (drawCoins 3 filled prime c coins).2 (f + 2))
    ((drawCoins 3 filled prime c coins).2 (f + 1) + (drawCoins 3 filled prime c coins).2 (f + 2))
    (drawCoins 3 filled prime c coins).1 l1 l2 con
  refine ⟨_, con', rfl, hcon', fun t ht => drawCoins_of_lt 3 f hf prime c coins ht, ?_⟩
  intro d
  rw [dotProduct_linear size con con' _ _ d _ _ hcells]
  ring

/-- The verifier's part of `create_div_corr_test_queries`: four new coins, one a query. -/
theorem addDivQueries_dot (s : Setup) (f : ℕ) {filled : ℤ} (hf : filled + 1 = f) (qs : DivQueries)
    (c : ConState) (d1 d2 : Vec) :
    dotProduct s.qap.sizeF1Vec (addDivQueries s filled (filled + 3) qs c).con1 d1 +
        dotProduct s.qap.sizeF2Vec (addDivQueries s filled (filled + 3) qs c).con2 d2 =
      dotProduct s.qap.sizeF1Vec c.con1 d1 + dotProduct s.qap.sizeF2Vec c.con2 d2 +
        (c.coins f * dotProduct s.qap.sizeF1Vec qs.f1Q1 d1 +
          c.coins (f + 1) * dotProduct s.qap.sizeF1Vec qs.f1Q2 d1 +
          c.coins (f + 2) * dotProduct s.qap.sizeF1Vec qs.f1Q3 d1 +
          c.coins (f + 3) * dotProduct s.qap.sizeF2Vec qs.f2Q1 d2) := by
  have h1 : (filled + 1).toNat = f := by omega
  have h2 : (filled + 2).toNat = f + 1 := by omega
  have h3 : (filled + 3).toNat = f + 2 := by omega
  have h4 : (filled + 3 + 1).toNat = f + 3 := by omega
  have hcon1 : dotProduct s.qap.sizeF1Vec (addDivQueries s filled (filled + 3) qs c).con1 d1 =
      dotProduct s.qap.sizeF1Vec c.con1 d1 +
        (c.coins f * dotProduct s.qap.sizeF1Vec qs.f1Q1 d1 +
          c.coins (f + 1) * dotProduct s.qap.sizeF1Vec qs.f1Q2 d1 +
          c.coins (f + 2) * dotProduct s.qap.sizeF1Vec qs.f1Q3 d1) := by
    simp only [dotProduct_eq_sum, addDivQueries, h1, h2, h3, Finset.mul_sum]
    rw [← Finset.sum_add_distrib, ← Finset.sum_add_distrib, ← Finset.sum_add_distrib]
    apply Finset.sum_congr rfl
    intro i hi
    rw [forLoop_update_apply _ (fun i x => updateConQuery (updateConQuery (updateConQuery x
      (c.coins f) (qs.f1Q1 i)) (c.coins (f + 1)) (qs.f1Q2 i)) (c.coins (f + 2)) (qs.f1Q3 i)),
      if_pos (Finset.mem_range.1 hi)]
    simp only [updateConQuery]
    ring
  have hcon2 : dotProduct s.qap.sizeF2Vec (addDivQueries s filled (filled + 3) qs c).con2 d2 =
      dotProduct s.qap.sizeF2Vec c.con2 d2 +
        c.coins (f + 3) * dotProduct s.qap.sizeF2Vec qs.f2Q1 d2 := by
    simp only [dotProduct_eq_sum, addDivQueries, h4, Finset.mul_sum]
    rw [← Finset.sum_add_distrib]
    apply Finset.sum_congr rfl
    intro i hi
    rw [forLoop_update_apply _ (fun i x => updateConQuery x (c.coins (f + 3)) (qs.f2Q1 i)),
      if_pos (Finset.mem_range.1 hi)]
    simp only [updateConQuery]
    ring
  rw [hcon1, hcon2]
  ring

/-! ## The invariant -/

/-- The answer to the recorded vector with coin index `t`, by the pointer at `t`. -/
def plainAnswer (q : Qap) (numRepsLin : ℕ) (f1 f2 : Vec) (used : ℕ → Option (List ℤ)) (t : ℕ) :
    ℤ :=
  match ptrAt numRepsLin (t % numLinPcpQueries numRepsLin) with
  | none => 0
  | some f =>
      dotProduct (proofVector q f1 f2 f).1 (loadVector ((used t).getD []) zeroVec)
        (proofVector q f1 f2 f).2

/-- The answer at coin index `t`: skipped queries get the sum of the two before. -/
def answerAt (q : Qap) (numRepsLin : ℕ) (f1 f2 : Vec) (used : ℕ → Option (List ℤ)) (t : ℕ) : ℤ :=
  match ptrAt numRepsLin (t % numLinPcpQueries numRepsLin) with
  | none => plainAnswer q numRepsLin f1 f2 used (t - 2) + plainAnswer q numRepsLin f1 f2 used (t - 1)
  | some _ => plainAnswer q numRepsLin f1 f2 used t

/-- Inner products of the verifier's consistency queries with the proof. -/
def conDot (q : Qap) (f1 f2 : Vec) (v : VerifierState P) : ℤ :=
  dotProduct q.sizeF1Vec v.f1Consistency f1 + dotProduct q.sizeF2Vec v.f2Consistency f2

/-- All coins drawn so far times their answers account for the consistency queries. -/
structure ConInv (s : Setup) (numRepsLin : ℕ) (f1 f2 : Vec) (start : ℤ) (f : ℕ)
    (v : VerifierState P) : Prop where
  filled : v.fConFilled + 1 = f
  balance : conDot s.qap f1 f2 v =
    start + ∑ t ∈ Finset.range f, v.fConCoins t * answerAt s.qap numRepsLin f1 f2 v.used t

theorem dotProduct_load_dump (size : ℕ) (q z d : Vec) :
    dotProduct size (loadVector (dumpVector size q) z) d = dotProduct size q d := by
  rw [dotProduct_eq_sum, dotProduct_eq_sum]
  apply Finset.sum_congr rfl
  intro i hi
  rw [loadVector, dumpVector, List.getD_eq_getElem?_getD]
  simp [Finset.mem_range.1 hi]

section Answers

variable {q : Qap} {numRepsLin : ℕ} {f1 f2 : Vec} {used : ℕ → Option (List ℤ)}

theorem plainAnswer_eq {t : ℕ} {f : ProofVec} {v : Vec}
    (hptr : ptrAt numRepsLin (t % numLinPcpQueries numRepsLin) = some f)
    (hused : used t = some (dumpVector (proofVector q f1 f2 f).1 v)) :
    plainAnswer q numRepsLin f1 f2 used t =
      dotProduct (proofVector q f1 f2 f).1 v (proofVector q f1 f2 f).2 := by
  rw [plainAnswer, hptr, hused]
  exact dotProduct_load_dump _ v zeroVec _

theorem answerAt_of_some {t : ℕ} {f : ProofVec}
    (hptr : ptrAt numRepsLin (t % numLinPcpQueries numRepsLin) = some f) :
    answerAt q numRepsLin f1 f2 used t = plainAnswer q numRepsLin f1 f2 used t := by
  rw [answerAt, hptr]

theorem answerAt_of_none {t : ℕ}
    (hptr : ptrAt numRepsLin (t % numLinPcpQueries numRepsLin) = none) :
    answerAt q numRepsLin f1 f2 used t =
      plainAnswer q numRepsLin f1 f2 used (t - 2) +
        plainAnswer q numRepsLin f1 f2 used (t - 1) := by
  rw [answerAt, hptr]

theorem plainAnswer_congr {used' : ℕ → Option (List ℤ)} {t : ℕ} (h : used' t = used t) :
    plainAnswer q numRepsLin f1 f2 used' t = plainAnswer q numRepsLin f1 f2 used t := by
  rw [plainAnswer, plainAnswer, h]

theorem answerAt_congr {used' : ℕ → Option (List ℤ)} {f t : ℕ} (ht : t < f)
    (h : ∀ u < f, used' u = used u) :
    answerAt q numRepsLin f1 f2 used' t = answerAt q numRepsLin f1 f2 used t := by
  rw [answerAt, answerAt, plainAnswer_congr (h t ht), plainAnswer_congr (h (t - 1) (by omega)),
    plainAnswer_congr (h (t - 2) (by omega))]

/-- Three answers of one `create_lin_test_queries` call, weighed by their coins. -/
theorem sum_answerAt_triple (q : Qap) (f1 f2 : Vec) {f : ℕ} {p : ProofVec} {l1 l2 : Vec}
    (coins : Vec)
    (h0 : ptrAt numRepsLin (f % numLinPcpQueries numRepsLin) = some p)
    (h1 : ptrAt numRepsLin ((f + 1) % numLinPcpQueries numRepsLin) = some p)
    (h2 : ptrAt numRepsLin ((f + 2) % numLinPcpQueries numRepsLin) = none)
    (hu0 : used f = some (dumpVector (proofVector q f1 f2 p).1 l1))
    (hu1 : used (f + 1) = some (dumpVector (proofVector q f1 f2 p).1 l2)) :
    ∑ t ∈ Finset.range (f + 3), coins t * answerAt q numRepsLin f1 f2 used t =
      ∑ t ∈ Finset.range f, coins t * answerAt q numRepsLin f1 f2 used t +
        (coins f * dotProduct (proofVector q f1 f2 p).1 l1 (proofVector q f1 f2 p).2 +
          coins (f + 1) * dotProduct (proofVector q f1 f2 p).1 l2 (proofVector q f1 f2 p).2 +
          coins (f + 2) *
            (dotProduct (proofVector q f1 f2 p).1 l1 (proofVector q f1 f2 p).2 +
              dotProduct (proofVector q f1 f2 p).1 l2 (proofVector q f1 f2 p).2)) := by
  have hback1 : f + 2 - 1 = f + 1 := by omega
  rw [Finset.sum_range_succ, Finset.sum_range_succ, Finset.sum_range_succ,
    answerAt_of_none h2, answerAt_of_some h1, answerAt_of_some h0, Nat.add_sub_cancel, hback1,
    plainAnswer_eq h0 hu0, plainAnswer_eq h1 hu1]
  ring

theorem sum_answerAt_congr (q : Qap) (numRepsLin : ℕ) (f1 f2 : Vec)
    {used' : ℕ → Option (List ℤ)} {f : ℕ} {coins coins' : Vec}
    (hused : ∀ u < f, used' u = used u) (hcoins : ∀ t < f, coins' t = coins t) :
    ∑ t ∈ Finset.range f, coins' t * answerAt q numRepsLin f1 f2 used' t =
      ∑ t ∈ Finset.range f, coins t * answerAt q numRepsLin f1 f2 used t := by
  apply Finset.sum_congr rfl
  intro t ht
  have hlt := Finset.mem_range.1 ht
  rw [hcoins t hlt, answerAt_congr hlt hused]

theorem ptrAt_lin {i k : ℕ} (hi : i < numRepsLin) (hk : k < 6) :
    ptrAt numRepsLin (6 * i + k) =
      if k % 3 = 2 then none else if k < 3 then some .f1 else some .f2 := by
  have hlt : 6 * i + k < 6 * numRepsLin := by omega
  have hthree : (6 * i + k) % 3 = k % 3 := by omega
  have hsix : (6 * i + k) % 6 = k := by omega
  simp only [ptrAt, SkippedQuery, numLinQueries, hlt, hthree, hsix, true_and, if_true]

theorem ptrAt_div {k : ℕ} :
    ptrAt numRepsLin (6 * numRepsLin + k) = if k < 3 then some .f1 else some .f2 := by
  have hnot : ¬6 * numRepsLin + k < 6 * numRepsLin := by omega
  have hiff : 6 * numRepsLin + k < 6 * numRepsLin + 3 ↔ k < 3 := by omega
  simp only [ptrAt, SkippedQuery, numLinQueries, hnot, hiff, false_and, if_false]

end Answers

/-- A linearity iteration adds six coins. -/
theorem ConInv.linIter {s : Setup} {numRepsLin rho i : ℕ} {f1 f2 : Vec} {start : ℤ}
    {v : VerifierState P}
    (h : ConInv s numRepsLin f1 f2 start (rho * numLinPcpQueries numRepsLin + 6 * i) v)
    (hi : i < numRepsLin) :
    ConInv s numRepsLin f1 f2 start (rho * numLinPcpQueries numRepsLin + 6 * (i + 1))
      (verifierLinIter s i v) := by
  have hN := numLinPcpQueries_eq numRepsLin
  -- two triples of two queries and their sum, the sum is not asked
  have hptr : ∀ k < 6, ptrAt numRepsLin
      ((rho * numLinPcpQueries numRepsLin + 6 * i + k) % numLinPcpQueries numRepsLin) =
        if k % 3 = 2 then none else if k < 3 then some .f1 else some .f2 := by
    intro k hk
    rw [add_assoc, Nat.mul_add_mod_of_lt (by omega), ptrAt_lin hi hk]
  have hnext : rho * numLinPcpQueries numRepsLin + 6 * (i + 1) =
      rho * numLinPcpQueries numRepsLin + 6 * i + 6 := by ring
  rw [hnext]
  generalize rho * numLinPcpQueries numRepsLin + 6 * i = f at h hptr
  have hf := h.filled
  have hf3 : v.fConFilled + 3 + 1 = (f + 3 : ℕ) := by push_cast; omega
  obtain ⟨coins1, con1, hcoins1, hcon1, hframe1, hdot1⟩ := createLinTestQueries_con
    s.qap.sizeF1Vec f hf v.crypto v.f1Q1 v.f1Q2 v.f1Consistency v.fConCoins s.prime
  obtain ⟨coins2, con2, hcoins2, hcon2, hframe2, hdot2⟩ := createLinTestQueries_con
    s.qap.sizeF2Vec (f + 3) hf3
    (createLinTestQueries s.qap.sizeF1Vec v.crypto v.f1Q1 v.f1Q2 (some v.f1Consistency)
      v.fConFilled (some v.fConCoins) s.prime).1.crypto v.f2Q1 v.f2Q2 v.f2Consistency coins1
    s.prime
  rw [← hcoins1] at hcoins2 hcon2 hdot2
  obtain ⟨hframe, hu0, hu1, hu3, hu4⟩ := recordLin_spec s.qap hf
    (verifierLinIter s i v).f1Q1 (verifierLinIter s i v).f1Q2 (verifierLinIter s i v).f2Q1
    (verifierLinIter s i v).f2Q2 v.used
  have hused : (verifierLinIter s i v).used = recordLin s.qap v.fConFilled
    (verifierLinIter s i v).f1Q1 (verifierLinIter s i v).f1Q2 (verifierLinIter s i v).f2Q1
    (verifierLinIter s i v).f2Q2 v.used := rfl
  rw [← hused] at hframe hu0 hu1 hu3 hu4
  have hcoins : (verifierLinIter s i v).fConCoins = coins2 := by
    simp only [verifierLinIter, hcoins2, Option.getD_some]
  have hc1 : (verifierLinIter s i v).f1Consistency = con1 := by
    simp only [verifierLinIter, hcon1, Option.getD_some]
  have hc2 : (verifierLinIter s i v).f2Consistency = con2 := by
    simp only [verifierLinIter, hcon2, Option.getD_some]
  -- each triple adds its two queries and, with the third coin, their sum
  have hl1 : ∀ d, dotProduct s.qap.sizeF1Vec con1 d =
      dotProduct s.qap.sizeF1Vec v.f1Consistency d +
        coins1 f * dotProduct s.qap.sizeF1Vec (verifierLinIter s i v).f1Q1 d +
        coins1 (f + 1) * dotProduct s.qap.sizeF1Vec (verifierLinIter s i v).f1Q2 d +
        coins1 (f + 2) * (dotProduct s.qap.sizeF1Vec (verifierLinIter s i v).f1Q1 d +
          dotProduct s.qap.sizeF1Vec (verifierLinIter s i v).f1Q2 d) := hdot1
  have hl2 : ∀ d, dotProduct s.qap.sizeF2Vec con2 d =
      dotProduct s.qap.sizeF2Vec v.f2Consistency d +
        coins2 (f + 3) * dotProduct s.qap.sizeF2Vec (verifierLinIter s i v).f2Q1 d +
        coins2 (f + 3 + 1) * dotProduct s.qap.sizeF2Vec (verifierLinIter s i v).f2Q2 d +
        coins2 (f + 3 + 2) * (dotProduct s.qap.sizeF2Vec (verifierLinIter s i v).f2Q1 d +
          dotProduct s.qap.sizeF2Vec (verifierLinIter s i v).f2Q2 d) := hdot2
  refine ⟨?_, ?_⟩
  · show v.fConFilled + 3 + 3 + 1 = _
    push_cast
    omega
  · have hptr0 : ptrAt numRepsLin (f % numLinPcpQueries numRepsLin) = some .f1 :=
      hptr 0 (by norm_num)
    have hsum3 := sum_answerAt_triple s.qap f1 f2 coins2
      hptr0 (hptr 1 (by norm_num)) (hptr 2 (by norm_num)) hu0 hu1
    have hsum6 := sum_answerAt_triple s.qap f1 f2 coins2
      (hptr 3 (by norm_num)) (hptr 4 (by norm_num)) (hptr 5 (by norm_num)) hu3 hu4
    -- the coins of the rounds before stay
    have hcoinsFrame : ∀ t < f, coins2 t = v.fConCoins t := by
      intro t ht
      rw [hframe2 t (by omega), hframe1 t ht]
    have hold := sum_answerAt_congr s.qap numRepsLin f1 f2 hframe hcoinsFrame
    have hbal := h.balance
    rw [conDot] at hbal ⊢
    rw [hcoins, hc1, hc2, hsum6, hsum3, hold, hl1, hl2, hframe2 f (by omega),
      hframe2 (f + 1) (by omega), hframe2 (f + 2) (by omega)]
    simp only [proofVector]
    linear_combination hbal

/-- The divisibility queries add four coins. -/
theorem ConInv.divStep {s : Setup} {numRepsLin rho : ℕ} {f1 f2 : Vec} {start : ℤ}
    {v v' : VerifierState P}
    (h : ConInv s numRepsLin f1 f2 start (rho * numLinPcpQueries numRepsLin + 6 * numRepsLin) v)
    (hv : verifierDivStep s rho v = some v') :
    ConInv s numRepsLin f1 f2 start ((rho + 1) * numLinPcpQueries numRepsLin) v' := by
  have hN := numLinPcpQueries_eq numRepsLin
  -- four queries with an answer each: three of the first vector, one of the second
  have hptr : ∀ k < 4, ptrAt numRepsLin
      ((rho * numLinPcpQueries numRepsLin + 6 * numRepsLin + k) % numLinPcpQueries numRepsLin) =
        if k < 3 then some .f1 else some .f2 := by
    intro k hk
    rw [add_assoc, Nat.mul_add_mod_of_lt (by omega), ptrAt_div]
  have hnext : (rho + 1) * numLinPcpQueries numRepsLin =
      rho * numLinPcpQueries numRepsLin + 6 * numRepsLin + 4 := by
    rw [Nat.succ_mul, hN]
    ring
  rw [hnext]
  -- only the position of the first coin matters from here on
  generalize rho * numLinPcpQueries numRepsLin + 6 * numRepsLin = f at h hptr
  have hf := h.filled
  have hf3 : v.fConFilled + 3 + 1 = (f + 3 : ℕ) := by push_cast; omega
  rw [verifierDivStep, createDivCorrTestQueries_eq] at hv
  cases hev : evaluatePolynomialAt s (drawnTau v.crypto s.prime) with
  | none => simp [hev] at hv
  | some ev =>
      simp only [hev, Option.map_some, drawDivCoins, Option.some_inj, Option.getD_some] at hv
      generalize divQueriesAt s (drawnTau v.crypto s.prime) ev v.f1Q4 v.f2Q4
        ⟨v.f1Q1, v.f1Q2, v.f1Q3, v.f2Q1⟩ = qs at hv
      obtain ⟨coins, hcoins⟩ : ∃ coins, (drawCoins 1 (v.fConFilled + 3) s.prime
          (drawCoins 3 v.fConFilled s.prime v.crypto v.fConCoins).1
          (drawCoins 3 v.fConFilled s.prime v.crypto v.fConCoins).2).2 = coins := ⟨_, rfl⟩
      have hframe : ∀ t < f, coins t = v.fConCoins t := by
        intro t ht
        rw [← hcoins, drawCoins_of_lt 1 (f + 3) hf3 s.prime _ _ (by omega),
          drawCoins_of_lt 3 f hf s.prime _ _ ht]
      rw [hcoins] at hv
      obtain ⟨huframe, hu0, hu1, hu2, hu3⟩ := recordDiv_spec s.qap hf qs v.used
      have hdot := addDivQueries_dot s f hf qs ⟨coins, v.f1Consistency, v.f2Consistency⟩ f1 f2
      have hold := sum_answerAt_congr s.qap numRepsLin f1 f2 huframe hframe
      have hbal := h.balance
      rw [← hv]
      refine ⟨?_, ?_⟩
      · show v.fConFilled + 4 + 1 = _
        push_cast
        omega
      · have h0 : ptrAt numRepsLin (f % numLinPcpQueries numRepsLin) = some .f1 :=
          hptr 0 (by norm_num)
        have h1 := hptr 1 (by norm_num)
        have h2 := hptr 2 (by norm_num)
        have h3 := hptr 3 (by norm_num)
        show dotProduct s.qap.sizeF1Vec
              (addDivQueries s v.fConFilled (v.fConFilled + 3) qs
                ⟨coins, v.f1Consistency, v.f2Consistency⟩).con1 f1 +
            dotProduct s.qap.sizeF2Vec
              (addDivQueries s v.fConFilled (v.fConFilled + 3) qs
                ⟨coins, v.f1Consistency, v.f2Consistency⟩).con2 f2 =
          start + ∑ t ∈ Finset.range (f + 4), coins t *
            answerAt s.qap numRepsLin f1 f2 (recordDiv s.qap v.fConFilled qs v.used) t
        rw [Finset.sum_range_succ, Finset.sum_range_succ, Finset.sum_range_succ,
          Finset.sum_range_succ, hold, answerAt_of_some h3, answerAt_of_some h2,
          answerAt_of_some h1, answerAt_of_some h0, plainAnswer_eq h3 hu3,
          plainAnswer_eq h2 hu2, plainAnswer_eq h1 hu1, plainAnswer_eq h0 hu0, hdot]
        simp only [proofVector]
        rw [conDot] at hbal
        linear_combination hbal

/-- All coins of a run. -/
theorem createPlainQueries_con {s : Setup} {numRepetitions numRepsLin : ℕ} (f1 f2 : Vec)
    {crypto : Crypto P} {r1 r2 : Vec} {v : VerifierState P}
    (hv : createPlainQueries s numRepetitions numRepsLin (VerifierState.init crypto r1 r2) =
      some v) :
    ConInv s numRepsLin f1 f2
      (dotProduct s.qap.sizeF1Vec r1 f1 + dotProduct s.qap.sizeF2Vec r2 f2)
      (numRepetitions * numLinPcpQueries numRepsLin) v := by
  refine forLoop_induction
    (P := fun rho (acc : Option (VerifierState P)) => ∀ v, acc = some v →
      ConInv s numRepsLin f1 f2
        (dotProduct s.qap.sizeF1Vec r1 f1 + dotProduct s.qap.sizeF2Vec r2 f2)
        (rho * numLinPcpQueries numRepsLin) v) ?_ ?_ v hv
  · intro v hv
    rw [← Option.some_inj.1 hv]
    refine ⟨by simp [VerifierState.init], ?_⟩
    rw [zero_mul, Finset.sum_range_zero, add_zero]
    rfl
  · intro rho _ acc hacc v hv
    cases acc with
    | none => exact absurd hv (by simp)
    | some v0 =>
        refine ConInv.divStep (v := forLoop numRepsLin (verifierLinIter s) v0) ?_ hv
        refine forLoop_induction
          (P := fun i (v : VerifierState P) => ConInv s numRepsLin f1 f2
            (dotProduct s.qap.sizeF1Vec r1 f1 + dotProduct s.qap.sizeF2Vec r2 f2)
            (rho * numLinPcpQueries numRepsLin + 6 * i) v) ?_ ?_
        · exact hacc v0 rfl
        · intro i hi v hinv
          exact hinv.linIter hi

/-! ## The prover's answers -/

theorem length_qquerySizes (q : Qap) (numRepsLin : ℕ) :
    (qquerySizes q numRepsLin).length = numLinPcpQueries numRepsLin := by
  rw [qquerySizes, List.length_append, length_pushEach]
  rfl

/-- Sizes and proof vectors are listed in the same order. -/
theorem qquerySizes_getD (q : Qap) (f1 f2 : Vec) {numRepsLin j : ℕ} {f : ProofVec}
    (hj : j < numLinPcpQueries numRepsLin) (hptr : ptrAt numRepsLin j = some f) :
    (qquerySizes q numRepsLin).getD j 0 = (proofVector q f1 f2 f).1 := by
  have hN := numLinPcpQueries_eq numRepsLin
  rw [List.getD_eq_getElem?_getD, qquerySizes]
  rcases Nat.lt_or_ge j (6 * numRepsLin) with hlt | hge
  · obtain ⟨i, k, rfl, hk⟩ : ∃ i k, j = 6 * i + k ∧ k < 6 :=
      ⟨j / 6, j % 6, by omega, Nat.mod_lt j (by norm_num)⟩
    have hsix : (6 * i + k) % 6 = k := by omega
    rw [ptrAt_lin (by omega) hk] at hptr
    rw [List.getElem?_append_left (by rw [length_pushEach]; simp only [List.length]; omega),
      getElem?_pushEach _ _ (by simp only [List.length]; omega)]
    simp only [List.length, hsix]
    interval_cases k <;> simp_all <;> subst hptr <;> rfl
  · obtain ⟨k, rfl⟩ : ∃ k, j = 6 * numRepsLin + k := ⟨j - 6 * numRepsLin, by omega⟩
    have hk : k < 4 := by omega
    rw [ptrAt_div] at hptr
    rw [List.getElem?_append_right (by rw [length_pushEach]; simp only [List.length]; omega),
      length_pushEach]
    have hsub : 6 * numRepsLin + k - numRepsLin * (0 + 1 + 1 + 1 + 1 + 1 + 1) = k := by omega
    simp only [List.length, hsub]
    interval_cases k <;> simp_all <;> subst hptr <;> rfl

/-- The answer loop inside repetition `rho`, after `j` answers. -/
structure AnswerInv (q : Qap) (numRepsLin : ℕ) (f1 f2 : Vec) (used : ℕ → Option (List ℤ))
    (rho j : ℕ) (st : AnswerState) : Prop where
  out : st.out = (List.range (rho * numLinPcpQueries numRepsLin + j)).map
    (answerAt q numRepsLin f1 f2 used)
  a2 : 1 ≤ j →
    st.a2 = answerAt q numRepsLin f1 f2 used (rho * numLinPcpQueries numRepsLin + j - 1)
  a1 : 2 ≤ j →
    st.a1 = answerAt q numRepsLin f1 f2 used (rho * numLinPcpQueries numRepsLin + j - 2)

/-- The two answers before a skipped one are answers to loaded queries. -/
theorem ptrAt_before_skipped {numRepsLin j : ℕ} (h : ptrAt numRepsLin j = none) :
    2 ≤ j ∧ (∃ f, ptrAt numRepsLin (j - 1) = some f) ∧ ∃ f, ptrAt numRepsLin (j - 2) = some f := by
  have hskip : SkippedQuery numRepsLin j := by
    by_contra hnot
    rw [ptrAt, if_neg hnot] at h
    split_ifs at h
  obtain ⟨hlt, hmod⟩ := hskip
  have h6 : numLinQueries = 6 := rfl
  rw [h6] at hlt
  obtain ⟨i, k, rfl, hk⟩ : ∃ i k, j = 6 * i + k ∧ k < 6 :=
    ⟨j / 6, j % 6, by omega, Nat.mod_lt j (by norm_num)⟩
  have hk2 : k = 2 ∨ k = 5 := by omega
  have hi : i < numRepsLin := by omega
  refine ⟨by omega, ?_, ?_⟩
  · have hsub : 6 * i + k - 1 = 6 * i + (k - 1) := by omega
    rw [hsub, ptrAt_lin hi (by omega)]
    rcases hk2 with rfl | rfl <;> simp
  · have hsub : 6 * i + k - 2 = 6 * i + (k - 2) := by omega
    rw [hsub, ptrAt_lin hi (by omega)]
    rcases hk2 with rfl | rfl <;> simp

/-- One answer. -/
theorem AnswerInv.step {q : Qap} {numRepetitions numRepsLin : ℕ} {f1 f2 : Vec}
    {files : ℕ → ℕ → Option (List ℤ)} {used : ℕ → Option (List ℤ)} {rho j : ℕ} {st : AnswerState}
    (h : AnswerInv q numRepsLin f1 f2 used rho j st) (hrho : rho < numRepetitions)
    (hj : j < numLinPcpQueries numRepsLin)
    (hfile : ∀ f, ptrAt numRepsLin j = some f → ∃ content,
      files (j + 1) rho = some content ∧
        used (rho * numLinPcpQueries numRepsLin + j) = some content) :
    ∃ st', answerStep q numRepetitions numRepsLin f1 f2 files rho j st = some st' ∧
      AnswerInv q numRepsLin f1 f2 used rho (j + 1) st' := by
  have hk : (qqueryQPtrs numRepetitions numRepsLin).getD j 0 = j := by
    have hle : 1 * numLinPcpQueries numRepsLin ≤ numRepetitions * numLinPcpQueries numRepsLin :=
      Nat.mul_le_mul_right _ (by omega)
    rw [qqueryQPtrs, List.getD_eq_getElem?_getD, List.getElem?_range (by omega)]
    rfl
  have hptr : (qqueryFPtrs numRepsLin).getD j none = ptrAt numRepsLin j := by
    rw [List.getD_eq_getElem?_getD, qqueryFPtrs_getElem? hj, Option.getD_some]
  -- the value that is written
  have hanswer : ∃ a, answerStep q numRepetitions numRepsLin f1 f2 files rho j st =
        some { a1 := if j = 0 then st.a1 else st.a2, a2 := a, out := st.out ++ [a] } ∧
      a = answerAt q numRepsLin f1 f2 used (rho * numLinPcpQueries numRepsLin + j) := by
    rw [answerStep, hk, hptr]
    cases hf : ptrAt numRepsLin j with
    | none =>
        obtain ⟨hj2, ⟨f', hf'⟩, ⟨f'', hf''⟩⟩ := ptrAt_before_skipped hf
        have hback1 : rho * numLinPcpQueries numRepsLin + j - 1 =
            rho * numLinPcpQueries numRepsLin + (j - 1) := by omega
        have hback2 : rho * numLinPcpQueries numRepsLin + j - 2 =
            rho * numLinPcpQueries numRepsLin + (j - 2) := by omega
        have hj1 : j - 1 < numLinPcpQueries numRepsLin := by omega
        have hj2' : j - 2 < numLinPcpQueries numRepsLin := by omega
        have hround := Nat.mul_add_mod_of_lt (a := rho) hj
        have hround1 := Nat.mul_add_mod_of_lt (a := rho) hj1
        have hround2 := Nat.mul_add_mod_of_lt (a := rho) hj2'
        rw [← hround] at hf
        rw [← hround1] at hf'
        rw [← hround2] at hf''
        refine ⟨st.a1 + st.a2, rfl, ?_⟩
        rw [h.a1 hj2, h.a2 (by omega), answerAt_of_none hf, hback1, hback2,
          answerAt_of_some hf', answerAt_of_some hf'']
    | some f =>
        obtain ⟨content, hcontent, hused⟩ := hfile f hf
        refine ⟨_, by rw [hcontent]; rfl, ?_⟩
        have hround : ptrAt numRepsLin
            ((rho * numLinPcpQueries numRepsLin + j) % numLinPcpQueries numRepsLin) = some f := by
          rw [Nat.mul_add_mod_of_lt hj, hf]
        rw [answerAt_of_some hround, plainAnswer, hround, hused, qquerySizes_getD q f1 f2 hj hf]
        rfl
  obtain ⟨a, hstep, ha⟩ := hanswer
  refine ⟨_, hstep, ?_⟩
  refine
    { out := ?_
      a2 := ?_
      a1 := ?_ }
  · show st.out ++ [a] = _
    rw [← add_assoc, List.range_succ, List.map_append, h.out, ha]
    rfl
  · intro _
    show a = _
    rw [ha, ← add_assoc, Nat.add_sub_cancel]
  · intro hj2
    have hne : j ≠ 0 := by omega
    show (if j = 0 then st.a1 else st.a2) = _
    rw [if_neg hne, h.a2 (by omega)]
    congr 1

/-- All answers of an instance, whatever the last two answers were before. -/
theorem AnswerInv.run (q : Qap) {numRepetitions numRepsLin : ℕ} (f1 f2 : Vec)
    (files : ℕ → ℕ → Option (List ℤ)) {used : ℕ → Option (List ℤ)} (a1 a2 : ℤ)
    (hfile : ∀ rho < numRepetitions, ∀ j < numLinPcpQueries numRepsLin, ∀ f,
      ptrAt numRepsLin j = some f → ∃ content, files (j + 1) rho = some content ∧
        used (rho * numLinPcpQueries numRepsLin + j) = some content) :
    ∃ st : AnswerState,
      forLoop numRepetitions
        (fun rho acc =>
          forLoop (qquerySizes q numRepsLin).length
            (fun j acc => acc.bind (answerStep q numRepetitions numRepsLin f1 f2 files rho j)) acc)
        (some ⟨a1, a2, []⟩) = some st ∧
      AnswerInv q numRepsLin f1 f2 used numRepetitions 0 st := by
  refine forLoop_induction
    (P := fun rho (acc : Option AnswerState) =>
      ∃ st, acc = some st ∧ AnswerInv q numRepsLin f1 f2 used rho 0 st) ?_ ?_
  · refine ⟨_, rfl, ?_, fun h => absurd h (by norm_num), fun h => absurd h (by norm_num)⟩
    rw [zero_mul]
    rfl
  · intro rho hrho acc hacc
    rw [length_qquerySizes]
    -- one round answers its queries in order
    have hround : ∃ st : AnswerState,
        forLoop (numLinPcpQueries numRepsLin)
          (fun j acc => acc.bind (answerStep q numRepetitions numRepsLin f1 f2 files rho j))
          acc = some st ∧
        AnswerInv q numRepsLin f1 f2 used rho (numLinPcpQueries numRepsLin) st := by
      refine forLoop_induction
        (P := fun j (acc : Option AnswerState) =>
          ∃ st, acc = some st ∧ AnswerInv q numRepsLin f1 f2 used rho j st) hacc ?_
      rintro j hj acc ⟨st, rfl, hst⟩
      exact hst.step hrho hj (hfile rho hrho j hj)
    obtain ⟨st, hst, hinv⟩ := hround
    refine ⟨st, hst, ?_, fun h => absurd h (by norm_num), fun h => absurd h (by norm_num)⟩
    rw [hinv.out, Nat.succ_mul, add_zero]

/-- The answer file, answer by answer. -/
theorem proverAnswerQueries_eq (q : Qap) {numRepetitions numRepsLin : ℕ} (f1 f2 : Vec)
    (files : ℕ → ℕ → Option (List ℤ)) {used : ℕ → Option (List ℤ)} (con1 con2 : Vec)
    (hfile : ∀ rho < numRepetitions, ∀ j < numLinPcpQueries numRepsLin, ∀ f,
      ptrAt numRepsLin j = some f → ∃ content, files (j + 1) rho = some content ∧
        used (rho * numLinPcpQueries numRepsLin + j) = some content) :
    proverAnswerQueries q numRepetitions numRepsLin f1 f2 files (dumpVector q.sizeF1Vec con1)
        (dumpVector q.sizeF2Vec con2) =
      some (dotProduct q.sizeF1Vec con1 f1 + dotProduct q.sizeF2Vec con2 f2,
        (List.range (numRepetitions * numLinPcpQueries numRepsLin)).map
          (answerAt q numRepsLin f1 f2 used)) := by
  obtain ⟨st, hst, hinv⟩ := AnswerInv.run q f1 f2 files 0 0 hfile
  rw [proverAnswerQueries, hst, Option.map_some, hinv.out, add_zero]
  simp only [proverAnswerQuery, dotProduct_load_dump, zero_add]

/-! ## The test -/

/-- Both commitment queries, one after the other from the private stream. -/
def commitmentQueries (k : ElGamalKeys) (privBits : ℕ) (s : Setup) (crypto : Crypto P) :
    CommitmentQuery P × CommitmentQuery P :=
  let c1 := createCommitmentQuery k privBits s.qap.sizeF1Vec s.prime crypto
  (c1, createCommitmentQuery k privBits s.qap.sizeF2Vec s.prime c1.crypto)

/-- The inner product that the prover commits to. -/
def committed (s : Setup) (c : CommitmentQuery P × CommitmentQuery P) (f1 f2 : Vec) : ℤ :=
  dotProduct s.qap.sizeF1Vec c.1.conQ f1 + dotProduct s.qap.sizeF2Vec c.2.conQ f2

/-- The prover's commitment answer to the two files it downloads. -/
def commitmentOf (k : ElGamalKeys) (s : Setup) (c : CommitmentQuery P × CommitmentQuery P)
    (f1 f2 : Vec) : ℤ × ℤ :=
  commitmentAnswer k s.qap (dumpVectorInterleaved (2 * s.qap.sizeF1Vec) c.1.rQ)
    (dumpVectorInterleaved (2 * s.qap.sizeF2Vec) c.2.rQ) f1 f2

/-- Inner products of vectors without negative cells, in the exponents. -/
theorem dotProduct_toNat (size : ℕ) {r d : Vec} (hr : ∀ i, 0 ≤ r i) (hd : ∀ i, 0 ≤ d i) :
    ((∑ i ∈ Finset.range size, (r i).toNat * (d i).toNat : ℕ) : ℤ) = dotProduct size r d := by
  rw [dotProduct_eq_sum]
  push_cast
  apply Finset.sum_congr rfl
  intro i _
  rw [Int.toNat_of_nonneg (hr i), Int.toNat_of_nonneg (hd i), mul_comm]

/-- The commitment answer decrypts to a power of the generator. -/
theorem elgamalDec_commitmentOf (k : ElGamalKeys) (privBits : ℕ) (s : Setup)
    (hprime : 0 < s.prime) (crypto : Crypto P) {f1 f2 : Vec} (h1 : ∀ i, 0 ≤ f1 i)
    (h2 : ∀ i, 0 ≤ f2 i) :
    elgamalDec k (commitmentOf k s (commitmentQueries k privBits s crypto) f1 f2) =
      powm k.g (committed s (commitmentQueries k privBits s crypto) f1 f2) k.p := by
  have hc1 := createCommitmentQuery_conQ_nonneg k privBits s.qap.sizeF1Vec hprime crypto
  have hc2 := createCommitmentQuery_conQ_nonneg k privBits s.qap.sizeF2Vec hprime
    (createCommitmentQuery k privBits s.qap.sizeF1Vec s.prime crypto).crypto
  have henc := Encrypts.hadd k
    (dotProductEnc_commitment k privBits s.qap.sizeF1Vec s.prime crypto f1)
    (dotProductEnc_commitment k privBits s.qap.sizeF2Vec s.prime
      (createCommitmentQuery k privBits s.qap.sizeF1Vec s.prime crypto).crypto f2)
  have hexp := congrArg₂ (· + ·) (dotProduct_toNat s.qap.sizeF1Vec hc1 h1)
    (dotProduct_toNat s.qap.sizeF2Vec hc2 h2)
  rw [commitmentOf, commitmentQueries, commitmentAnswer, elgamalDec_eq k henc, committed]
  rw [← hexp]
  push_cast
  rfl

/-- Completeness of the linear commitment. Both programs exit together; otherwise the
answer file has one answer for every coin, the answer to the vector that coin was drawn
for, and as integers the consistency answer minus the coins times the answers is the
committed inner product. When that is below the group order and the proof has no negative
cell, the consistency test accepts the decrypted commitment. -/
theorem consistencyTest_complete (k : ElGamalKeys) (privBits : ℕ) (s : Setup)
    (hprime : 0 < s.prime) (numRepetitions numRepsLin : ℕ) (crypto : Crypto P)
    (seed priv priv' : P.State) (f1 f2 : Vec) :
    Option.Rel
      (fun v w => ∃ conAnswer answers,
        proverAnswerQueries s.qap numRepetitions numRepsLin f1 f2 w.files
            (dumpVector s.qap.sizeF1Vec v.f1Consistency)
            (dumpVector s.qap.sizeF2Vec v.f2Consistency) = some (conAnswer, answers) ∧
          answers = (List.range (numRepetitions * numLinPcpQueries numRepsLin)).map
            (answerAt s.qap numRepsLin f1 f2 v.used) ∧
          conAnswer - ∑ t ∈ Finset.range (numRepetitions * numLinPcpQueries numRepsLin),
              v.fConCoins t * answers.getD t 0 =
            committed s (commitmentQueries k privBits s crypto) f1 f2 ∧
          ((∀ i, 0 ≤ f1 i) → (∀ i, 0 ≤ f2 i) →
            committed s (commitmentQueries k privBits s crypto) f1 f2 < k.order →
            consistencyTest k (numRepetitions * numLinPcpQueries numRepsLin) conAnswer
              (elgamalDec k (commitmentOf k s (commitmentQueries k privBits s crypto) f1 f2))
              (loadVector answers zeroVec) v.fConCoins = true))
      (createPlainQueries s numRepetitions numRepsLin
        (VerifierState.init ⟨seed, priv⟩ (commitmentQueries k privBits s crypto).1.conQ
          (commitmentQueries k privBits s crypto).2.conQ))
      (deduceQueries s numRepetitions numRepsLin (ProverState.init ⟨seed, priv'⟩)) := by
  have hsim := createPlainQueries_sim s numRepetitions numRepsLin
    ⟨seed, priv⟩ ⟨seed, priv'⟩ rfl
    (commitmentQueries k privBits s crypto).1.conQ (commitmentQueries k privBits s crypto).2.conQ
  refine rel_imp ?_ hsim
  intro v w hv hround
  obtain ⟨_, hbalance⟩ := createPlainQueries_con f1 f2 hv
  -- the files hold what the balance was computed from
  have hanswers := proverAnswerQueries_eq s.qap f1 f2 w.files v.f1Consistency v.f2Consistency
    fun rho hrho j hj f hptr => hround.loaded hrho hj hptr
  have hcell : ∀ t < numRepetitions * numLinPcpQueries numRepsLin,
      ((List.range (numRepetitions * numLinPcpQueries numRepsLin)).map
        (answerAt s.qap numRepsLin f1 f2 v.used)).getD t 0 =
          answerAt s.qap numRepsLin f1 f2 v.used t := by
    intro t ht
    rw [List.getD_eq_getElem?_getD]
    simp [ht]
  have hbal : conDot s.qap f1 f2 v -
      ∑ t ∈ Finset.range (numRepetitions * numLinPcpQueries numRepsLin),
        v.fConCoins t * ((List.range (numRepetitions * numLinPcpQueries numRepsLin)).map
          (answerAt s.qap numRepsLin f1 f2 v.used)).getD t 0 =
      committed s (commitmentQueries k privBits s crypto) f1 f2 := by
    have hsum := Finset.sum_congr (rfl : Finset.range
      (numRepetitions * numLinPcpQueries numRepsLin) = _) fun t ht =>
        congrArg (v.fConCoins t * ·) (hcell t (Finset.mem_range.1 ht))
    rw [hsum, hbalance, add_sub_cancel_right]
    rfl
  refine ⟨_, _, hanswers, rfl, hbal, ?_⟩
  intro h1 h2 horder
  -- without it the test would compare residues of a negative number
  have hnonneg : 0 ≤ committed s (commitmentQueries k privBits s crypto) f1 f2 := by
    have hc1 := createCommitmentQuery_conQ_nonneg k privBits s.qap.sizeF1Vec hprime crypto
    have hc2 := createCommitmentQuery_conQ_nonneg k privBits s.qap.sizeF2Vec hprime
      (createCommitmentQuery k privBits s.qap.sizeF1Vec s.prime crypto).crypto
    rw [committed, commitmentQueries, ← dotProduct_toNat _ hc1 h1, ← dotProduct_toNat _ hc2 h2]
    positivity
  have htemp : conDot s.qap f1 f2 v -
      forLoop (numRepetitions * numLinPcpQueries numRepsLin)
        (fun i acc => acc + v.fConCoins i *
          loadVector ((List.range (numRepetitions * numLinPcpQueries numRepsLin)).map
            (answerAt s.qap numRepsLin f1 f2 v.used)) zeroVec i) 0 =
      committed s (commitmentQueries k privBits s crypto) f1 f2 := by
    rw [forLoop_add, zero_add]
    exact hbal
  rw [consistencyTest, ← conDot, htemp, if_pos ⟨hnonneg, horder⟩,
    elgamalDec_commitmentOf k privBits s hprime crypto h1 h2, beq_self_eq_true]

/-! ### An instance -/

/-- Keys modulo `23` with the generator `2`, of order eleven. -/
def keys23 : ElGamalKeys where
  p := 23
  g := 2
  r := 3
  p_prime := by norm_num
  g_invertible := by decide

/-- The prover of `w = 1` passes at the point `2`: one repetition, one linearity
iteration, streams that repeat `2` and `1`. -/
theorem copyQap_consistent :
    ∃ v w conAnswer answers,
      createPlainQueries (Setup.init copyQap 4 5) 1 1
        (VerifierState.init (P := seedPrng) ⟨(2 : ℤ), (1 : ℤ)⟩
          (commitmentQueries keys23 4 (Setup.init copyQap 4 5) (seedCrypto 1)).1.conQ
          (commitmentQueries keys23 4 (Setup.init copyQap 4 5) (seedCrypto 1)).2.conQ) = some v ∧
      deduceQueries (Setup.init copyQap 4 5) 1 1 (ProverState.init (P := seedPrng) ⟨(2 : ℤ), (7 : ℤ)⟩) =
        some w ∧
      proverAnswerQueries copyQap 1 1 (fun _ => 1) (fun _ => 1) w.files
        (dumpVector 1 v.f1Consistency) (dumpVector 2 v.f2Consistency) =
          some (conAnswer, answers) ∧
      consistencyTest keys23 10 conAnswer
        (elgamalDec keys23 (commitmentOf keys23 (Setup.init copyQap 4 5)
          (commitmentQueries keys23 4 (Setup.init copyQap 4 5) (seedCrypto 1)) (fun _ => 1)
          (fun _ => 1)))
        (loadVector answers zeroVec) v.fConCoins = true := by
  have hrel := consistencyTest_complete keys23 4 (Setup.init copyQap 4 5) (by decide) 1 1
    (seedCrypto 1) (2 : ℤ) (1 : ℤ) (7 : ℤ) (fun _ => 1) (fun _ => 1)
  obtain ⟨v, hv⟩ : ∃ v, createPlainQueries (Setup.init copyQap 4 5) 1 1
      (VerifierState.init (P := seedPrng) ⟨(2 : ℤ), (1 : ℤ)⟩
        (commitmentQueries keys23 4 (Setup.init copyQap 4 5) (seedCrypto 1)).1.conQ
        (commitmentQueries keys23 4 (Setup.init copyQap 4 5) (seedCrypto 1)).2.conQ) = some v :=
    Option.isSome_iff_exists.1 (by decide)
  obtain ⟨w, hw⟩ : ∃ w, deduceQueries (Setup.init copyQap 4 5) 1 1
      (ProverState.init (P := seedPrng) ⟨(2 : ℤ), (7 : ℤ)⟩) = some w :=
    Option.isSome_iff_exists.1 (by decide)
  rw [hv, hw] at hrel
  obtain ⟨conAnswer, answers, hanswers, _, _, haccept⟩ := Option.rel_some_some.1 hrel
  exact ⟨v, w, conAnswer, answers, hv, hw, hanswers,
    haccept (fun _ => by norm_num) (fun _ => by norm_num) (by decide)⟩

end Pepper.Libv.Consistency
