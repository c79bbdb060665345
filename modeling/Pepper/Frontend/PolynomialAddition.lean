import Pepper.Frontend.TermsList

/-!
# One elementary addition

Terms that compare as equal are multiples of one product (`product_eq_of_compareTo`), so
that merging their constants adds their values. `addMultipleOfProduct_spec` says what the
addition of a multiple of a product to a sum does: it does not fail, keeps the terms in
order, adds the value, and keeps a right cached degree right exactly if no cancellation
takes away the only term of the highest degree (`KeepsTop`).
-/

set_option autoImplicit false

namespace Pepper.Frontend

open PolynomialTerm PolynomialExpression

/-! ## Values -/

theorem termsValue_perm (ρ : ℕ → ℚ) {ts us : List PolynomialTerm} (h : ts.Perm us) :
    termsValue ρ ts = termsValue ρ us := by
  induction h with
  | nil => rfl
  | cons t _ ih => rw [termsValue, termsValue, ih]
  | swap t u ts => rw [termsValue, termsValue, termsValue, termsValue, add_left_comm]
  | trans _ _ ih₁ ih₂ => exact ih₁.trans ih₂

theorem monomers_eq_of_compareMonomers : ∀ {ms ms' : List ℕ}, ms.length = ms'.length →
    compareMonomers ms ms' = 0 → ms = ms'
  | [], [], _, _ => rfl
  | x :: ms, y :: ms', hlength, h => by
      rw [compareMonomers] at h
      split at h
      · rename_i hne
        exact absurd h hne
      · rename_i heq
        have hxy : x = y := by omega
        rw [hxy, monomers_eq_of_compareMonomers (Nat.succ.inj hlength) h]

/-- Factor by factor. -/
theorem factorsValue_eq_of_compareFactors (ρ : ℕ → ℚ) :
    ∀ {ps qs : List PolynomialExpression}, ps.length = qs.length → compareFactors ps qs = 0 →
      (∀ p ∈ ps, ∀ q ∈ qs, p.compareTo q = 0 → p.value ρ = q.value ρ) →
      factorsValue ρ ps = factorsValue ρ qs
  | [], [], _, _, _ => rfl
  | p :: ps, q :: qs, hlength, hcompare, h => by
      rw [compareFactors] at hcompare
      split_ifs at hcompare with hne
      · exact absurd hcompare hne
      · have hrest := factorsValue_eq_of_compareFactors ρ (Nat.succ.inj hlength) hcompare
          fun p' hp' q' hq' => h p' (List.mem_cons_of_mem p hp') q' (List.mem_cons_of_mem q hq')
        rw [factorsValue, factorsValue, hrest,
          h p List.mem_cons_self q List.mem_cons_self (not_not.1 hne)]

/-- What terms that compare as equal have in common, given that for their factors. -/
theorem product_eq_of_factors (ρ : ℕ → ℚ) {t u : PolynomialTerm} (h : t.compareTo u = 0)
    (hfactors : ∀ p ∈ t.polyFactors, ∀ q ∈ u.polyFactors, p.compareTo q = 0 →
      p.value ρ = q.value ρ) :
    t.degree = u.degree ∧ t.monomerFactors = u.monomerFactors ∧
      factorsValue ρ t.polyFactors = factorsValue ρ u.polyFactors := by
  obtain ⟨c, ms, ps, d⟩ := t
  obtain ⟨c', ms', ps', d'⟩ := u
  rw [compareTo_mk] at h
  split_ifs at h with h1 h2 h3 h4
  · exact absurd h h1
  · exact absurd h h2
  · exact absurd h h3
  · exact absurd h h4
  · rw [not_not] at h1 h2 h3 h4
    have hms : ms = ms' := monomers_eq_of_compareMonomers (by omega) h3
    have hlength : ps.length = ps'.length := by omega
    refine ⟨show d = d' by omega, hms, ?_⟩
    exact factorsValue_eq_of_compareFactors ρ hlength h hfactors

theorem termsValue_eq_of_compareTerms (ρ : ℕ → ℚ) :
    ∀ {ts us : List PolynomialTerm}, ts.length = us.length → (∀ t ∈ ts, DyadicTerm t) →
      (∀ u ∈ us, DyadicTerm u) → compareTerms ts us = 0 →
      (∀ t ∈ ts, ∀ u ∈ us, t.compareTo u = 0 → t.monomerFactors = u.monomerFactors ∧
        factorsValue ρ t.polyFactors = factorsValue ρ u.polyFactors) →
      termsValue ρ ts = termsValue ρ us
  | [], [], _, _, _, _, _ => rfl
  | t :: ts, u :: us, hlength, hts, hus, h, hproducts => by
      rw [compareTerms] at h
      split_ifs at h with h1 h2
      · exact absurd h h1
      · exact absurd h h2
      · rw [not_not] at h1 h2
        have hconstant := (reflectsField_constant (hts t List.mem_cons_self).constant
          (hus u List.mem_cons_self).constant).zero h2
        obtain ⟨hms, hfactors⟩ := hproducts t List.mem_cons_self u List.mem_cons_self h1
        have hrest := termsValue_eq_of_compareTerms ρ (Nat.succ.inj hlength)
          (fun t' ht' => hts t' (List.mem_cons_of_mem t ht'))
          (fun u' hu' => hus u' (List.mem_cons_of_mem u hu')) h
          fun t' ht' u' hu' =>
            hproducts t' (List.mem_cons_of_mem t ht') u' (List.mem_cons_of_mem u hu')
        rw [termsValue, termsValue, hrest, value_eq, value_eq, hconstant, hms, hfactors]

/-- Sums that compare as equal have the same value. -/
theorem value_eq_of_compareTo (ρ : ℕ → ℚ) (pe : PolynomialExpression) :
    Dyadic pe → ∀ qe, Dyadic qe → pe.compareTo qe = 0 → pe.value ρ = qe.value ρ := by
  induction pe using PolynomialExpression.induction with
  | h ts d ih =>
      rintro hpe ⟨us, d'⟩ hqe h
      rw [PolynomialExpression.compareTo] at h
      split_ifs at h with h1 h2
      · exact absurd h h1
      · exact absurd h h2
      · rw [not_not] at h1 h2
        have hlength : ts.length = us.length := by
          simp only [terms_mk] at h2
          omega
        rw [sum_value_eq, sum_value_eq]
        refine termsValue_eq_of_compareTerms ρ hlength hpe.terms hqe.terms h
          fun t ht u hu htu => (product_eq_of_factors ρ htu fun p hp q hq hpq => ?_).2
        exact ih t ht p hp ((hpe.terms t ht).factors p hp) q ((hqe.terms u hu).factors q hq) hpq

/-- Terms that compare as equal are multiples of one product. -/
theorem product_eq_of_compareTo (ρ : ℕ → ℚ) {t u : PolynomialTerm} (ht : DyadicTerm t)
    (hu : DyadicTerm u) (h : t.compareTo u = 0) :
    t.degree = u.degree ∧ t.monomerFactors = u.monomerFactors ∧
      factorsValue ρ t.polyFactors = factorsValue ρ u.polyFactors :=
  product_eq_of_factors ρ h fun p hp q hq hpq =>
    value_eq_of_compareTo ρ p (ht.factors p hp) q (hu.factors q hq) hpq

/-! ## One elementary addition -/

/-- A cancellation does not take away the only term of the highest degree: condition on a
sum and on the multiple of a product that is added to it. -/
def KeepsTop (multiple : FloatConstant) (pt : PolynomialTerm) (pe : PolynomialExpression) : Prop :=
  ∀ old, floor pt pe.terms = some old →
    ((multiple.multiply pt.constant).add old.constant).isZero = true →
      old.degree = 0 ∨ ∃ u ∈ pe.terms, u.compareTo old ≠ 0 ∧ old.degree ≤ u.degree

/-- What an addition to the sum `pe` has done. -/
structure Added (multiple : FloatConstant) (pt : PolynomialTerm) (pe pe' : PolynomialExpression) :
    Prop where
  sorted : SortedTerms pe'.terms
  value : ∀ ρ : ℕ → ℚ, pe'.value ρ = pe.value ρ + multiple.toRat * pt.value ρ

theorem SortedTerms.insert {ts : List PolynomialTerm} (hts : SortedTerms ts) {e : PolynomialTerm}
    (he : ExactTerm e) (hnum : e.constant.num ≠ 0) (hnew : ∀ t ∈ ts, t.compareTo e ≠ 0) (d : ℕ) :
    ∃ ts', (PolynomialExpression.mk ts d).add e = some (.mk ts' (max d e.degree)) ∧
      SortedTerms ts' ∧ ts'.Perm (e :: ts) := by
  obtain ⟨ts', hts', hsorted⟩ := insertTerm_sortedTerms hts he hnum hnew
  exact ⟨ts', by rw [PolynomialExpression.add, hts']; rfl, hsorted, insertTerm_perm hts'⟩

theorem setConstant_constant (c : FloatConstant) (t : PolynomialTerm) :
    (t.setConstant c).constant = c := by
  obtain ⟨c', ms, ps, d⟩ := t
  rfl

theorem setConstant_degree (c : FloatConstant) (t : PolynomialTerm) :
    (t.setConstant c).degree = t.degree := by
  obtain ⟨c', ms, ps, d⟩ := t
  rfl

theorem setConstant_value (ρ : ℕ → ℚ) (c : FloatConstant) (t : PolynomialTerm) :
    (t.setConstant c).value ρ =
      c.toRat * ((t.monomerFactors.map ρ).prod * factorsValue ρ t.polyFactors) := by
  obtain ⟨c', ms, ps, d⟩ := t
  rw [value_eq, mul_assoc]
  rfl

section Product

variable {multiple : FloatConstant} {pt : PolynomialTerm} {ts : List PolynomialTerm}

/-- A product that is not in the sum yet. -/
theorem addMultiple_new (hm : FloatConstant.isPOT multiple.den = true) (hpt : ExactTerm pt)
    (hts : SortedTerms ts) (hzero : (multiple.multiply pt.constant).isZero ≠ true)
    (hfloor : floor pt ts = none) (d : ℕ) :
    ∃ ts', addMultipleOfProduct multiple pt (.mk ts d) = some (.mk ts' (max d pt.degree)) ∧
      Added multiple pt (.mk ts d) (.mk ts' (max d pt.degree)) ∧
        maxDegree ts' = max pt.degree (maxDegree ts) := by
  set preMultiply := multiple.multiply pt.constant with hpre
  have hpot : FloatConstant.isPOT preMultiply.den = true :=
    FloatConstant.isPOT_multiply hm hpt.constant
  have hnew : ExactTerm (pt.setConstant preMultiply) := hpt.setConstant hpot
  -- no term has its product yet, so the insertion finds no equal one
  have hne : ∀ t ∈ ts, t.compareTo (pt.setConstant preMultiply) ≠ 0 := by
    intro t ht heq
    have hkey := (reflects_term (hts.terms t ht).dyadic hnew.dyadic).zero heq
    rw [compareTo_setConstant] at hkey
    exact (floor_eq_none_iff hts hpt).1 hfloor t ht
      ((reflects_term (hts.terms t ht).dyadic hpt.dyadic).zero_iff.2 hkey)
  have hnum : (pt.setConstant preMultiply).constant.num ≠ 0 := by
    rw [setConstant_constant]
    exact fun h => hzero ((FloatConstant.isZero_iff _).2 h)
  obtain ⟨ts', hadd, hsorted, hperm⟩ := hts.insert hnew hnum hne d
  rw [setConstant_degree] at hadd
  refine ⟨ts', ?_, ⟨hsorted, fun ρ => ?_⟩, ?_⟩
  · rw [addMultipleOfProduct]
    dsimp only
    rw [if_neg hzero, hfloor]
    dsimp only
    rw [hpt.duplicate, Option.bind_some]
    exact hadd
  · -- the value of the copy with the new constant
    have hvalue : (pt.setConstant preMultiply).value ρ = multiple.toRat * pt.value ρ := by
      rw [setConstant_value, value_eq, hpre, FloatConstant.toRat_multiply]
      ring
    rw [PolynomialExpression.value, PolynomialExpression.value, termsValue_perm ρ hperm,
      termsValue, hvalue, add_comm]
  · rw [maxDegree_perm hperm, maxDegree, setConstant_degree]

/-- A product that is in the sum, and the two multiples cancel. -/
theorem addMultiple_cancel (hm : FloatConstant.isPOT multiple.den = true) (hpt : ExactTerm pt)
    (hts : SortedTerms ts) (hzero : (multiple.multiply pt.constant).isZero ≠ true)
    {old : PolynomialTerm} (hfloor : floor pt ts = some old)
    (hsum : ((multiple.multiply pt.constant).add old.constant).isZero = true) (d : ℕ) :
    addMultipleOfProduct multiple pt (.mk ts d) = some (.mk (removeTerm old ts) d) ∧
      Added multiple pt (.mk ts d) (.mk (removeTerm old ts) d) := by
  have hold := mem_of_floor hfloor
  have hexact := hts.terms old hold
  refine ⟨?_, ⟨hts.sublist (removeTerm_sublist old ts), fun ρ => ?_⟩⟩
  · rw [addMultipleOfProduct]
    dsimp only
    rw [if_neg hzero, hfloor]
    dsimp only
    rw [hexact.duplicate, Option.bind_some, if_pos hsum]
  · obtain ⟨-, hms, hfactors⟩ :=
      product_eq_of_compareTo ρ hexact.dyadic hpt.dyadic (compareTo_of_floor hfloor)
    have hconstants : multiple.toRat * pt.constant.toRat + old.constant.toRat = 0 := by
      rw [← FloatConstant.toRat_multiply, ← FloatConstant.toRat_add
        (FloatConstant.isPOT_multiply hm hpt.constant) hexact.constant]
      exact FloatConstant.toRat_of_isZero hsum
    have hvalues : multiple.toRat * pt.value ρ + old.value ρ = 0 := by
      rw [value_eq, value_eq, hms, hfactors]
      linear_combination
        ((pt.monomerFactors.map ρ).prod * factorsValue ρ pt.polyFactors) * hconstants
    rw [PolynomialExpression.value, PolynomialExpression.value,
      termsValue_perm ρ (removeTerm_perm hts hold), termsValue]
    linear_combination -hvalues

/-- A product that is in the sum and stays there with another constant. -/
theorem addMultiple_merge (hm : FloatConstant.isPOT multiple.den = true) (hpt : ExactTerm pt)
    (hts : SortedTerms ts) (hzero : (multiple.multiply pt.constant).isZero ≠ true)
    {old : PolynomialTerm} (hfloor : floor pt ts = some old)
    (hsum : ((multiple.multiply pt.constant).add old.constant).isZero ≠ true) (d : ℕ) :
    ∃ ts', addMultipleOfProduct multiple pt (.mk ts d) = some (.mk ts' (max d old.degree)) ∧
      Added multiple pt (.mk ts d) (.mk ts' (max d old.degree)) ∧
        maxDegree ts' = maxDegree ts := by
  set sum := (multiple.multiply pt.constant).add old.constant with hsumdef
  have hold := mem_of_floor hfloor
  have hexact := hts.terms old hold
  have hpot : FloatConstant.isPOT sum.den = true :=
    FloatConstant.isPOT_add (FloatConstant.isPOT_multiply hm hpt.constant) hexact.constant
  have hnew : ExactTerm (old.setConstant sum) := hexact.setConstant hpot
  have hrest : SortedTerms (removeTerm old ts) := hts.sublist (removeTerm_sublist old ts)
  -- the old term is taken out first, so again no equal one is left
  have hne : ∀ t ∈ removeTerm old ts, t.compareTo (old.setConstant sum) ≠ 0 := by
    intro t ht heq
    have hdyadic := (hrest.terms t ht).dyadic
    have hkey := (reflects_term hdyadic hnew.dyadic).zero heq
    rw [compareTo_setConstant] at hkey
    exact removeTerm_ne hts hold t ht ((reflects_term hdyadic hexact.dyadic).zero_iff.2 hkey)
  have hnum : (old.setConstant sum).constant.num ≠ 0 := by
    rw [setConstant_constant]
    exact fun h => hsum ((FloatConstant.isZero_iff _).2 h)
  obtain ⟨ts', hadd, hsorted, hperm⟩ := hrest.insert hnew hnum hne d
  rw [setConstant_degree] at hadd
  refine ⟨ts', ?_, ⟨hsorted, fun ρ => ?_⟩, ?_⟩
  · rw [addMultipleOfProduct]
    dsimp only
    rw [if_neg hzero, hfloor]
    dsimp only
    rw [hexact.duplicate, Option.bind_some, if_neg hsum]
    exact hadd
  · obtain ⟨-, hms, hfactors⟩ :=
      product_eq_of_compareTo ρ hexact.dyadic hpt.dyadic (compareTo_of_floor hfloor)
    -- the two products are the same, the constants add up
    have hvalue : (old.setConstant sum).value ρ = old.value ρ + multiple.toRat * pt.value ρ := by
      rw [setConstant_value, value_eq, value_eq, hms, hfactors, hsumdef,
        FloatConstant.toRat_add (FloatConstant.isPOT_multiply hm hpt.constant) hexact.constant,
        FloatConstant.toRat_multiply]
      ring
    rw [PolynomialExpression.value, PolynomialExpression.value, termsValue_perm ρ hperm,
      termsValue_perm ρ (removeTerm_perm hts hold), termsValue, termsValue, hvalue]
    ring
  · rw [maxDegree_perm hperm, maxDegree_perm (removeTerm_perm hts hold), maxDegree, maxDegree,
      setConstant_degree]

/-- After a cancellation the highest degree is the old one exactly if another term has it. -/
theorem maxDegree_removeTerm (hts : SortedTerms ts) {old : PolynomialTerm} (hold : old ∈ ts) :
    maxDegree (removeTerm old ts) = maxDegree ts ↔
      old.degree = 0 ∨ ∃ u ∈ ts, u.compareTo old ≠ 0 ∧ old.degree ≤ u.degree := by
  have hperm := removeTerm_perm hts hold
  have hmax : maxDegree ts = max old.degree (maxDegree (removeTerm old ts)) := by
    rw [maxDegree_perm hperm, maxDegree]
  constructor
  · intro heq
    have hle : old.degree ≤ maxDegree (removeTerm old ts) := by
      rw [heq]
      exact degree_le_maxDegree hold
    rcases maxDegree_eq_zero_or_mem (removeTerm old ts) with hzero | ⟨u, hu, hdegree⟩
    · left
      omega
    · right
      exact ⟨u, (removeTerm_sublist old ts).subset hu, removeTerm_ne hts hold u hu,
        hle.trans hdegree.ge⟩
  · rintro (hzero | ⟨u, hu, hne, hdegree⟩)
    · rw [hmax, hzero, Nat.zero_max]
    · have hu' : u ∈ removeTerm old ts := by
        rcases List.mem_cons.1 (hperm.mem_iff.1 hu) with rfl | hu'
        · exact absurd (compareTo_self (hts.terms u hu).dyadic) hne
        · exact hu'
      rw [hmax]
      exact (max_eq_right (hdegree.trans (degree_le_maxDegree hu'))).symm

/-- One elementary addition does not fail, keeps the order and adds the value; if the
cached degree was right it stays so exactly under `KeepsTop`. -/
theorem addMultipleOfProduct_spec (hm : FloatConstant.isPOT multiple.den = true)
    (hpt : ExactTerm pt) (hts : SortedTerms ts) (d : ℕ) :
    ∃ pe', addMultipleOfProduct multiple pt (.mk ts d) = some pe' ∧
      Added multiple pt (.mk ts d) pe' ∧
        (d = maxDegree ts → (pe'.degree = maxDegree pe'.terms ↔
          KeepsTop multiple pt (.mk ts d))) := by
  by_cases hzero : (multiple.multiply pt.constant).isZero = true
  · refine ⟨.mk ts d, ?_, ⟨hts, fun ρ => ?_⟩, fun hd => iff_of_true hd ?_⟩
    · rw [addMultipleOfProduct]
      dsimp only
      rw [if_pos hzero]
    · have hconstant : multiple.toRat * pt.constant.toRat = 0 := by
        rw [← FloatConstant.toRat_multiply, FloatConstant.toRat_of_isZero hzero]
      rw [value_eq, ← mul_assoc, ← mul_assoc, hconstant, zero_mul, zero_mul, add_zero]
    · -- nothing was added, and the old constant is not zero
      intro old hfloor hsum
      rw [FloatConstant.add, if_pos hzero] at hsum
      exact absurd ((FloatConstant.isZero_iff _).1 hsum)
        (hts.num_ne_zero old (mem_of_floor hfloor))
  · cases hfloor : floor pt ts with
    | none =>
        obtain ⟨ts', heq, hadded, hmax⟩ := addMultiple_new hm hpt hts hzero hfloor d
        refine ⟨_, heq, hadded, fun hd => iff_of_true ?_ ?_⟩
        · rw [terms_mk, PolynomialExpression.degree_mk, hmax, hd, max_comm]
        · intro old hold
          rw [terms_mk, hfloor] at hold
          cases hold
    | some old =>
        have hold := mem_of_floor hfloor
        -- the term that was found is cancelled, or merged with the new one
        by_cases hsum : ((multiple.multiply pt.constant).add old.constant).isZero = true
        · obtain ⟨heq, hadded⟩ := addMultiple_cancel hm hpt hts hzero hfloor hsum d
          refine ⟨_, heq, hadded, fun hd => ?_⟩
          have hiff := maxDegree_removeTerm hts hold
          rw [terms_mk, PolynomialExpression.degree_mk, hd, eq_comm, hiff]
          constructor
          · intro h old' hold' _
            rw [terms_mk, hfloor] at hold'
            cases hold'
            exact h
          · intro h
            exact h old hfloor hsum
        · obtain ⟨ts', heq, hadded, hmax⟩ := addMultiple_merge hm hpt hts hzero hfloor hsum d
          refine ⟨_, heq, hadded, fun hd => iff_of_true ?_ ?_⟩
          · rw [terms_mk, PolynomialExpression.degree_mk, hmax, hd]
            exact max_eq_left (degree_le_maxDegree hold)
          · intro old' hold' hsum'
            rw [terms_mk, hfloor] at hold'
            cases hold'
            exact absurd hsum' hsum

end Product

end Pepper.Frontend
