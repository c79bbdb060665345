import Pepper.Foundations.SortedSearch
import Pepper.Frontend.PolynomialForms
import Pepper.Frontend.TermOrder

/-!
# Lists of terms in order

`Exact` says what a polynomial expression should be, down to its innermost factors: terms
strictly in order, no constant zero, constants over powers of two, and every cached degree
the degree of what is there. Copies of such expressions are the expressions themselves
(`duplicate_exact`), the search of a term finds it if it is there (`floor_eq_none_iff`),
insertion does not collide with terms that are not (`insertTerm_sortedTerms`), and removal
takes away the term that was found (`removeTerm_perm`). On them the scans of the model
are the binary searches of the source (`binarySearch_spec`).
-/

set_option autoImplicit false

namespace Pepper.Frontend

open PolynomialTerm PolynomialExpression

/-- The highest degree of the terms of a list. -/
def maxDegree : List PolynomialTerm → ℕ
  | [] => 0
  | t :: ts => max t.degree (maxDegree ts)

mutual

/-- A product of exact sums with its degree. -/
inductive ExactTerm : PolynomialTerm → Prop
  | intro {t : PolynomialTerm} (constant : FloatConstant.isPOT t.constant.den = true)
      (factors : ∀ p ∈ t.polyFactors, Exact p)
      (degree : t.degree =
        t.monomerFactors.length + (t.polyFactors.map PolynomialExpression.degree).sum) :
      ExactTerm t

/-- A sum of exact products in order, with its degree. -/
inductive Exact : PolynomialExpression → Prop
  | intro {pe : PolynomialExpression} (terms : ∀ t ∈ pe.terms, ExactTerm t)
      (num_ne_zero : ∀ t ∈ pe.terms, t.constant.num ≠ 0)
      (sorted : pe.terms.Pairwise fun t u => t.compareTo u < 0)
      (degree : pe.degree = maxDegree pe.terms) : Exact pe

end

/-- The terms of a sum, whatever degree is cached for it. -/
structure SortedTerms (ts : List PolynomialTerm) : Prop where
  terms : ∀ t ∈ ts, ExactTerm t
  num_ne_zero : ∀ t ∈ ts, t.constant.num ≠ 0
  sorted : ts.Pairwise fun t u => t.compareTo u < 0

theorem exact_iff (pe : PolynomialExpression) :
    Exact pe ↔ SortedTerms pe.terms ∧ pe.degree = maxDegree pe.terms := by
  constructor
  · rintro ⟨hterms, hnum, hsorted, hdegree⟩
    exact ⟨⟨hterms, hnum, hsorted⟩, hdegree⟩
  · rintro ⟨⟨hterms, hnum, hsorted⟩, hdegree⟩
    exact ⟨hterms, hnum, hsorted, hdegree⟩

theorem ExactTerm.constant {t : PolynomialTerm} (h : ExactTerm t) :
    FloatConstant.isPOT t.constant.den = true := by
  obtain ⟨hconstant, -, -⟩ := h
  exact hconstant

theorem ExactTerm.factors {t : PolynomialTerm} (h : ExactTerm t) :
    ∀ p ∈ t.polyFactors, Exact p := by
  obtain ⟨-, hfactors, -⟩ := h
  exact hfactors

theorem Exact.dyadic (pe : PolynomialExpression) : Exact pe → Dyadic pe := by
  induction pe using PolynomialExpression.induction with
  | h ts d ih =>
      intro h
      have hterms := ((exact_iff _).1 h).1.terms
      refine ⟨fun t ht => ⟨(hterms t ht).constant, fun p hp => ?_⟩⟩
      exact ih t ht p hp ((hterms t ht).factors p hp)

theorem ExactTerm.dyadic {t : PolynomialTerm} (h : ExactTerm t) : DyadicTerm t :=
  ⟨h.constant, fun p hp => (h.factors p hp).dyadic⟩

theorem ExactTerm.setConstant {t : PolynomialTerm} (h : ExactTerm t) {c : FloatConstant}
    (hc : FloatConstant.isPOT c.den = true) : ExactTerm (t.setConstant c) := by
  obtain ⟨c', ms, ps, d⟩ := t
  obtain ⟨-, hfactors, hdegree⟩ := h
  exact ⟨hc, hfactors, hdegree⟩

namespace SortedTerms

theorem nil : SortedTerms [] :=
  ⟨fun _ h => absurd h List.not_mem_nil, fun _ h => absurd h List.not_mem_nil,
    List.Pairwise.nil⟩

theorem tail {t : PolynomialTerm} {ts : List PolynomialTerm} (h : SortedTerms (t :: ts)) :
    SortedTerms ts :=
  ⟨fun u hu => h.terms u (List.mem_cons_of_mem t hu),
    fun u hu => h.num_ne_zero u (List.mem_cons_of_mem t hu), (List.pairwise_cons.1 h.sorted).2⟩

theorem head_lt {t : PolynomialTerm} {ts : List PolynomialTerm} (h : SortedTerms (t :: ts)) :
    ∀ u ∈ ts, t.compareTo u < 0 := (List.pairwise_cons.1 h.sorted).1

theorem head {t : PolynomialTerm} {ts : List PolynomialTerm} (h : SortedTerms (t :: ts)) :
    ExactTerm t := h.terms t List.mem_cons_self

/-- Any part of a sum. -/
theorem sublist {ts us : List PolynomialTerm} (h : SortedTerms us) (hsub : ts.Sublist us) :
    SortedTerms ts :=
  ⟨fun t ht => h.terms t (hsub.subset ht), fun t ht => h.num_ne_zero t (hsub.subset ht),
    h.sorted.sublist hsub⟩

end SortedTerms

/-! ## Degrees -/

theorem maxDegree_perm {ts us : List PolynomialTerm} (h : ts.Perm us) :
    maxDegree ts = maxDegree us := by
  induction h with
  | nil => rfl
  | cons t _ ih => rw [maxDegree, maxDegree, ih]
  | swap t u ts => rw [maxDegree, maxDegree, maxDegree, maxDegree, max_left_comm]
  | trans _ _ ih₁ ih₂ => exact ih₁.trans ih₂

theorem degree_le_maxDegree {t : PolynomialTerm} {ts : List PolynomialTerm} (h : t ∈ ts) :
    t.degree ≤ maxDegree ts := by
  induction ts with
  | nil => cases h
  | cons u ts ih =>
      rcases List.mem_cons.1 h with rfl | h
      · exact le_max_left _ _
      · exact (ih h).trans (le_max_right _ _)

theorem maxDegree_eq_zero_or_mem (ts : List PolynomialTerm) :
    maxDegree ts = 0 ∨ ∃ t ∈ ts, t.degree = maxDegree ts := by
  induction ts with
  | nil => exact Or.inl rfl
  | cons t ts ih =>
      rw [maxDegree]
      rcases le_total t.degree (maxDegree ts) with hle | hle
      · rw [max_eq_right hle]
        refine ih.imp_right ?_
        rintro ⟨u, hu, hdegree⟩
        exact ⟨u, List.mem_cons_of_mem t hu, hdegree⟩
      · rw [max_eq_left hle]
        exact Or.inr ⟨t, List.mem_cons_self, rfl⟩

/-! ## Searching, inserting and removing -/

section Search

variable {ts : List PolynomialTerm} {pt : PolynomialTerm}

theorem compareTo_of_floor {old : PolynomialTerm} (h : floor pt ts = some old) :
    old.compareTo pt = 0 := by
  induction ts with
  | nil => cases h
  | cons t ts ih =>
      rw [floor] at h
      split at h
      · exact ih h
      · split at h
        · rename_i hzero
          cases h
          exact hzero
        · cases h

/-- A term that the search does not find is not there. -/
theorem floor_eq_none_iff (hts : SortedTerms ts) (hpt : ExactTerm pt) :
    floor pt ts = none ↔ ∀ t ∈ ts, t.compareTo pt ≠ 0 := by
  induction ts with
  | nil => exact iff_of_true rfl fun _ h => absurd h List.not_mem_nil
  | cons t ts ih =>
      rw [floor, List.forall_mem_cons]
      split
      · rename_i hneg
        rw [ih hts.tail]
        exact (and_iff_right hneg.ne).symm
      · rename_i hneg
        split
        · rename_i hzero
          exact iff_of_false (Option.some_ne_none t) fun h => h.1 hzero
        · rename_i hzero
          -- every later term is larger than `t`, which is larger than `pt`
          refine iff_of_true rfl ⟨hzero, fun u hu => ?_⟩
          have htu := hts.head_lt u hu
          have hpt' : pt.compareTo t < 0 :=
            (compareTo_pos_iff hts.head.dyadic hpt.dyadic).1 (by omega)
          have hu' := (hts.tail.terms u hu).dyadic
          have hlt := compareTo_trans hpt.dyadic hts.head.dyadic hu' hpt' htu
          exact ((compareTo_pos_iff hu' hpt.dyadic).2 hlt).ne'

/-- Inserting a term that is not there. -/
theorem insertTerm_sortedTerms (hts : SortedTerms ts) (hpt : ExactTerm pt)
    (hnum : pt.constant.num ≠ 0) (hnew : ∀ t ∈ ts, t.compareTo pt ≠ 0) :
    ∃ ts', insertTerm pt ts = some ts' ∧ SortedTerms ts' := by
  induction ts with
  | nil =>
      refine ⟨[pt], rfl, fun t ht => ?_, fun t ht => ?_, List.pairwise_singleton _ _⟩
      · rw [List.mem_singleton.1 ht]
        exact hpt
      · rw [List.mem_singleton.1 ht]
        exact hnum
  | cons t ts ih =>
      have hrest : ∀ u ∈ ts, u.compareTo pt ≠ 0 := fun u hu => hnew u (List.mem_cons_of_mem t hu)
      have hne := hnew t List.mem_cons_self
      rw [insertTerm]
      split
      · -- the new term is further down
        rename_i hneg
        obtain ⟨ts', hts', hsorted⟩ := ih hts.tail hrest
        have hmem : ∀ u ∈ ts', u = pt ∨ u ∈ ts := fun u hu =>
          List.mem_cons.1 ((insertTerm_perm hts').mem_iff.1 hu)
        refine ⟨t :: ts', by rw [hts']; rfl, ?_, ?_, List.pairwise_cons.2 ⟨?_, hsorted.sorted⟩⟩
        · exact List.forall_mem_cons.2 ⟨hts.head, hsorted.terms⟩
        · exact List.forall_mem_cons.2 ⟨hts.num_ne_zero t List.mem_cons_self, hsorted.num_ne_zero⟩
        · intro u hu
          rcases hmem u hu with rfl | hu
          · exact hneg
          · exact hts.head_lt u hu
      · -- the new term is in front of this one, hence of all after it
        rename_i hneg
        have hlt : pt.compareTo t < 0 :=
          (compareTo_pos_iff hts.head.dyadic hpt.dyadic).1 (by omega)
        refine ⟨pt :: t :: ts, rfl, ?_, ?_, List.pairwise_cons.2 ⟨?_, hts.sorted⟩⟩
        · exact List.forall_mem_cons.2 ⟨hpt, hts.terms⟩
        · exact List.forall_mem_cons.2 ⟨hnum, hts.num_ne_zero⟩
        · intro u hu
          rcases List.mem_cons.1 hu with rfl | hu
          · exact hlt
          · exact compareTo_trans hpt.dyadic hts.head.dyadic (hts.tail.terms u hu).dyadic hlt
              (hts.head_lt u hu)

/-- Removing a term that is there removes it and nothing else. -/
theorem removeTerm_perm (hts : SortedTerms ts) {old : PolynomialTerm} (hold : old ∈ ts) :
    ts.Perm (old :: removeTerm old ts) := by
  induction ts with
  | nil => cases hold
  | cons t ts ih =>
      rw [removeTerm]
      rcases List.mem_cons.1 hold with rfl | hold
      · have hself := compareTo_self hts.head.dyadic
        rw [if_neg (by omega), if_pos hself]
      · rw [if_pos (hts.head_lt old hold)]
        exact ((ih hts.tail hold).cons t).trans (List.Perm.swap old t _)

/-- The terms that stay are not the one that was removed. -/
theorem removeTerm_ne (hts : SortedTerms ts) {old : PolynomialTerm} (hold : old ∈ ts) :
    ∀ t ∈ removeTerm old ts, t.compareTo old ≠ 0 := by
  induction ts with
  | nil => cases hold
  | cons t ts ih =>
      rw [removeTerm]
      rcases List.mem_cons.1 hold with rfl | hold
      · have hself := compareTo_self hts.head.dyadic
        rw [if_neg (by omega), if_pos hself]
        intro u hu
        exact ((compareTo_pos_iff (hts.tail.terms u hu).dyadic hts.head.dyadic).2
          (hts.head_lt u hu)).ne'
      · have hlt := hts.head_lt old hold
        rw [if_pos hlt]
        exact List.forall_mem_cons.2 ⟨hlt.ne, ih hts.tail hold⟩

end Search

/-! ## Binary search -/

section BinarySearch

open Pepper.Foundations.SortedSearch

/-- The comparison of the term at a position. -/
def signAt (ts : List PolynomialTerm) (pt : PolynomialTerm) (i : ℕ) : ℤ :=
  (ts.getD i .new).compareTo pt

/-- `Collections.binarySearch` on a list of terms. -/
def searchTerm (ts : List PolynomialTerm) (pt : PolynomialTerm) : ℤ :=
  binarySearch (signAt ts pt) 0 ts.length

/-- `floor`, `add` and `remove` by the position `r` of the first term that is not smaller. -/
structure ByPosition (ts : List PolynomialTerm) (pt : PolynomialTerm) (r : ℕ) : Prop where
  first : FirstNotSmaller (signAt ts pt) ts.length r
  floor : floor pt ts = if r < ts.length ∧ signAt ts pt r = 0 then ts[r]? else none
  insert : insertTerm pt ts =
    if r < ts.length ∧ signAt ts pt r = 0 then none else some (ts.insertIdx r pt)
  remove : removeTerm pt ts =
    if r < ts.length ∧ signAt ts pt r = 0 then ts.eraseIdx r else ts

/-- The scan stops at that position. -/
theorem exists_byPosition {ts : List PolynomialTerm} {pt : PolynomialTerm} (hts : SortedTerms ts)
    (hpt : ExactTerm pt) : ∃ r, ByPosition ts pt r := by
  induction ts with
  | nil =>
      refine ⟨0, ⟨le_rfl, ?_, ?_, ?_⟩, rfl, rfl, rfl⟩
      · exact fun i hi => absurd hi (Nat.not_lt_zero i)
      · exact fun h => absurd h (lt_irrefl 0)
      · exact fun i _ hi => absurd hi (Nat.not_lt_zero i)
  | cons t ts ih =>
      have hhead : signAt (t :: ts) pt 0 = t.compareTo pt := rfl
      have htail : ∀ i, signAt (t :: ts) pt (i + 1) = signAt ts pt i := fun _ => rfl
      -- the head is smaller: the position is the one in the tail, shifted
      by_cases hneg : t.compareTo pt < 0
      · obtain ⟨r, ⟨hle, hbefore, hhere, hafter⟩, hfloor, hinsert, hremove⟩ := ih hts.tail
        refine ⟨r + 1, ⟨Nat.succ_le_succ hle, ?_, ?_, ?_⟩, ?_, ?_, ?_⟩
        · rintro (_ | i) hi
          · exact hneg
          · exact hbefore i (Nat.lt_of_succ_lt_succ hi)
        · exact fun h => hhere (Nat.lt_of_succ_lt_succ h)
        · rintro (_ | i) hi hlen
          · exact absurd hi (Nat.not_lt_zero _)
          · exact hafter i (Nat.lt_of_succ_lt_succ hi) (Nat.lt_of_succ_lt_succ hlen)
        · rw [Pepper.Frontend.floor, if_pos hneg, hfloor, htail, List.length_cons]
          simp only [Nat.add_lt_add_iff_right, List.getElem?_cons_succ]
        · rw [insertTerm, if_pos hneg, hinsert, htail, List.length_cons]
          simp only [Nat.add_lt_add_iff_right]
          split
          · rfl
          · rfl
        · rw [removeTerm, if_pos hneg, hremove, htail, List.length_cons]
          simp only [Nat.add_lt_add_iff_right]
          split
          · rfl
          · rfl
      · -- the head is not smaller: the position is 0 and what follows is larger
        have hlarger : ∀ i, 0 < i → i < (t :: ts).length → 0 < signAt (t :: ts) pt i := by
          rintro (_ | i) hi hlen
          · exact absurd hi (lt_irrefl 0)
          · have hmem : ts.getD i .new ∈ ts := by
              rw [← List.getElem_eq_getD (h := Nat.lt_of_succ_lt_succ hlen)]
              exact List.getElem_mem _
            have hu := (hts.tail.terms _ hmem).dyadic
            rw [htail, signAt, compareTo_pos_iff hu hpt.dyadic]
            have hlt := hts.head_lt _ hmem
            rcases (not_lt.1 hneg).eq_or_lt with hzero | hpos
            · -- the head is equal to the term, and smaller than the rest
              have hzero' := (compareTo_zero_comm hts.head.dyadic hpt.dyadic).1 hzero.symm
              rw [(reflects_term hts.head.dyadic hu).neg_iff] at hlt
              rw [(reflects_term hpt.dyadic hu).neg_iff,
                (reflects_term hpt.dyadic hts.head.dyadic).zero hzero']
              exact hlt
            · exact compareTo_trans hpt.dyadic hts.head.dyadic hu
                ((compareTo_pos_iff hts.head.dyadic hpt.dyadic).1 hpos) hlt
        refine ⟨0, ⟨Nat.zero_le _, fun i hi => absurd hi (Nat.not_lt_zero i),
          fun _ => not_lt.1 hneg, hlarger⟩, ?_, ?_, ?_⟩
        · rw [Pepper.Frontend.floor, if_neg hneg, hhead]
          simp
        · rw [insertTerm, if_neg hneg, hhead]
          simp
        · rw [removeTerm, if_neg hneg, hhead]
          simp

/-- The operations of `TermsList` on a sum, by what the binary search returns. -/
theorem binarySearch_spec {ts : List PolynomialTerm} {pt : PolynomialTerm} (hts : SortedTerms ts)
    (hpt : ExactTerm pt) :
    let bst := searchTerm ts pt
    (floor pt ts = if bst < 0 then none else ts[bst.toNat]?) ∧
      (insertTerm pt ts =
        if bst < 0 then some (ts.insertIdx (-(bst + 1)).toNat pt) else none) ∧
      removeTerm pt ts = if bst < 0 then ts else ts.eraseIdx bst.toNat := by
  obtain ⟨r, hfirst, hfloor, hinsert, hremove⟩ := exists_byPosition hts hpt
  have hsearch : searchTerm ts pt = _ := binarySearch_eq hfirst
  rw [hsearch, hfloor, hinsert, hremove]
  split
  · have hnot : ¬ (r : ℤ) < 0 := by omega
    refine ⟨?_, ?_, ?_⟩
    · rw [if_neg hnot, Int.toNat_natCast]
    · rw [if_neg hnot]
    · rw [if_neg hnot, Int.toNat_natCast]
  · have hneg : -((r : ℤ) + 1) < 0 := by omega
    have hback : (-(-((r : ℤ) + 1) + 1)).toNat = r := by omega
    refine ⟨?_, ?_, ?_⟩
    · rw [if_pos hneg]
    · rw [if_pos hneg, hback]
    · rw [if_pos hneg]

end BinarySearch

/-! ## Copies -/

/-- A term that is larger than all others goes behind them. -/
theorem add_last {ts : List PolynomialTerm} {t : PolynomialTerm}
    (h : ∀ u ∈ ts, u.compareTo t < 0) (d : ℕ) : (PolynomialExpression.mk ts d).add t =
      some (.mk (ts ++ [t]) (max d t.degree)) := by
  rw [PolynomialExpression.add, insertTerm_last h]
  rfl

/-- The loop of a copy: the terms go behind each other. -/
theorem duplicateTerms_exact (before : List PolynomialTerm) {after : List PolynomialTerm} (d : ℕ)
    (hts : SortedTerms (before ++ after)) (hcopy : ∀ t ∈ after, t.duplicate = some t) :
    duplicateTerms after (.mk before d) =
      some (.mk (before ++ after) (max d (maxDegree after))) := by
  induction after generalizing before d with
  | nil => rw [duplicateTerms, maxDegree, Nat.max_zero, List.append_nil]
  | cons t after ih =>
      have happend : before ++ t :: after = (before ++ [t]) ++ after := by simp
      have hlast : ∀ u ∈ before, u.compareTo t < 0 := fun u hu =>
        (List.pairwise_append.1 hts.sorted).2.2 u hu t List.mem_cons_self
      rw [duplicateTerms, hcopy t List.mem_cons_self, Option.bind_some, add_last hlast,
        Option.bind_some,
        ih (before ++ [t]) (max d t.degree) (by rwa [← happend])
          (fun u hu => hcopy u (List.mem_cons_of_mem t hu)), ← happend, maxDegree, max_assoc]

theorem duplicateFactors_exact {ps : List PolynomialExpression}
    (h : ∀ p ∈ ps, p.duplicate = some p) : duplicateFactors ps = some ps := by
  induction ps with
  | nil => rfl
  | cons p ps ih =>
      rw [duplicateFactors, h p List.mem_cons_self, Option.bind_some,
        ih fun q hq => h q (List.mem_cons_of_mem p hq)]
      rfl

theorem duplicate_of_factors {t : PolynomialTerm}
    (h : ∀ p ∈ t.polyFactors, p.duplicate = some p) : t.duplicate = some t := by
  obtain ⟨c, ms, ps, d⟩ := t
  have hps : duplicateFactors ps = some ps := duplicateFactors_exact h
  rw [PolynomialTerm.duplicate, hps]
  rfl

/-- A copy of an exact sum is that sum, its degree computed anew. -/
theorem duplicate_exact (pe : PolynomialExpression) : Exact pe → pe.duplicate = some pe := by
  induction pe using PolynomialExpression.induction with
  | h ts d ih =>
      intro h
      obtain ⟨hts, hdegree⟩ := (exact_iff _).1 h
      have hcopy : ∀ t ∈ ts, t.duplicate = some t := fun t ht =>
        duplicate_of_factors fun p hp => ih t ht p hp ((hts.terms t ht).factors p hp)
      have hloop := duplicateTerms_exact [] 0 hts hcopy
      rw [PolynomialExpression.duplicate, PolynomialExpression.new, hloop, Nat.zero_max]
      exact congrArg (fun d' => some (PolynomialExpression.mk ts d')) hdegree.symm

theorem ExactTerm.duplicate {t : PolynomialTerm} (h : ExactTerm t) : t.duplicate = some t :=
  duplicate_of_factors fun p hp => duplicate_exact p (h.factors p hp)

end Pepper.Frontend
