import Pepper.Frontend.PolynomialForms

/-!
# The constraint of a polynomial

`printsValue_iff`: for every reachable expression of degree at most two over powers of two, the line
of its statement is accepted and its constraint is `A * B + C = k * y` with linear `A`, `B`, `C` and
`y` the value of the expression, the first and the second time the statement is printed, exactly
when an expression whose degree says two has one quadratic term, and no denominator is left in
front, unless the expression is zero. The degree is not lowered when terms cancel, and printing
scales the expression in place (`half_and_cancelled_fail`).
-/

set_option autoImplicit false

namespace Pepper.Frontend

open PolynomialTerm PolynomialExpression Pepper.Foundations Pepper.Zcc

/-! ## The parts of an expression of degree two -/

/-- The quadratic terms of an expression come before its linear ones. -/
structure Parts (pe : PolynomialExpression) (qs ls : List PolynomialTerm) : Prop where
  terms : pe.terms = qs ++ ls
  quadratic : ∀ q ∈ qs, QuadraticTerm q
  linear : LinearSum ls
  degree : qs ≠ [] → pe.degree = 2

/-- The same with integer constants everywhere. -/
structure IntegerParts (pe : PolynomialExpression) (qs ls : List PolynomialTerm) : Prop
    extends Parts pe qs ls where
  integer : ∀ q ∈ qs, IntegerQuadratic q
  integerSum : IntegerSum ls

/-- A list sorted by degree, up to degree two. -/
theorem sorted_split {ts : List PolynomialTerm} (hsorted : ts.Pairwise fun t u => u.degree ≤ t.degree)
    (hle : ∀ t ∈ ts, t.degree ≤ 2) :
    ts = (ts.filter fun t => t.degree = 2) ++ ts.filter fun t => t.degree ≤ 1 := by
  induction ts with
  | nil => rfl
  | cons t ts ih =>
      obtain ⟨hhead, htail⟩ := List.pairwise_cons.1 hsorted
      have hrest := ih htail fun u hu => hle u (List.mem_cons_of_mem t hu)
      by_cases ht : t.degree = 2
      · rw [List.filter_cons_of_pos (by simpa using ht),
          List.filter_cons_of_neg (by simp [ht]), List.cons_append, ← hrest]
      · have htd := hle t List.mem_cons_self
        have hone : ∀ u ∈ ts, u.degree ≤ 1 := by
          intro u hu
          have := hhead u hu
          omega
        have hnil : (ts.filter fun t => t.degree = 2) = [] := by
          rw [List.filter_eq_nil_iff]
          intro u hu
          have := hone u hu
          simp only [decide_eq_true_eq]
          omega
        have hall : (ts.filter fun t => t.degree ≤ 1) = ts := by
          rw [List.filter_eq_self]
          intro u hu
          simpa using hone u hu
        rw [List.filter_cons_of_neg (by simpa using ht), hnil,
          List.filter_cons_of_pos (by simp only [decide_eq_true_eq]; omega), hall]
        rfl

/-- Every expression of degree at most two has these parts. -/
theorem parts_of_ok {pe : PolynomialExpression} (h : ExpressionOk pe) (hd : pe.degree ≤ 2) :
    Parts pe (pe.terms.filter fun t => t.degree = 2) (pe.terms.filter fun t => t.degree ≤ 1) := by
  have haddable : ∀ t ∈ pe.terms, Addable t := fun t ht => addable_of_mem h ht
  obtain ⟨-, -, hlow, hsorted⟩ := h
  refine ⟨sorted_split (hsorted.imp fun hbefore => hbefore.1) fun t ht => (hlow t ht).trans hd,
    fun q hq => ?_, ⟨fun t ht => ?_, fun t ht => ?_, ?_⟩, fun hne => ?_⟩
  · obtain ⟨hmem, hdeg⟩ := List.mem_filter.1 hq
    exact quadraticTerm_of_addable (haddable q hmem) (of_decide_eq_true hdeg)
  · obtain ⟨hmem, hdeg⟩ := List.mem_filter.1 ht
    exact linearTerm_of_ok (haddable t hmem).ok (haddable t hmem).product (of_decide_eq_true hdeg)
  · exact (haddable t (List.mem_filter.1 ht).1).num_ne_zero
  · refine (hsorted.sublist List.filter_sublist).imp_of_mem fun {t u} ht _ hbefore => ?_
    exact hbefore.2 (of_decide_eq_true (List.mem_filter.1 ht).2)
  · obtain ⟨q, hq⟩ := List.exists_mem_of_ne_nil _ hne
    obtain ⟨hmem, hdeg⟩ := List.mem_filter.1 hq
    have hq2 : q.degree = 2 := of_decide_eq_true hdeg
    have := hlow q hmem
    omega

theorem largestDenominator_one {constants : List FloatConstant}
    (h : ∀ c ∈ constants, c.den = 1) : largestDenominator constants = 1 := by
  unfold largestDenominator
  induction constants with
  | nil => rfl
  | cons c rest ih =>
      have hc : c.denominator = 1 := PNat.eq (h c List.mem_cons_self)
      rw [List.foldl_cons, hc, max_self]
      exact ih fun e he => h e (List.mem_cons_of_mem c he)

/-- The constant of a quadratic term over powers of two, and the term after it was moved. -/
theorem moved_quadratic {t : PolynomialTerm} (h : QuadraticTerm t)
    (hpot : FloatConstant.isPOT t.constant.den = true ∧
      ∀ p ∈ t.polyFactors, ∀ u ∈ p.terms, FloatConstant.isPOT u.constant.den = true) :
    t.removeFractionalConstants = some (moved t) ∧
      FloatConstant.isPOT t.outerConstant.den = true ∧ t.outerConstant.num ≠ 0 ∧
        ∀ ρ : ℕ → ℚ, (moved t).value ρ = t.value ρ := by
  obtain ⟨c, ms, ps, d⟩ := t
  have hps : ∀ p ∈ ps, PowerSum p := fun p hp => ⟨h.factors p hp, hpot.2 p hp⟩
  obtain ⟨c', hc', hremove, hpot', hnum', hvalue⟩ :=
    removeFractionsFactors_eq hps c hpot.1 h.num_ne_zero
  have houter : (PolynomialTerm.mk c ms ps d).outerConstant = c' := hc'.symm
  rw [houter]
  refine ⟨?_, hpot', hnum', fun ρ => ?_⟩
  · rw [PolynomialTerm.removeFractionalConstants, hremove, Option.map_some, moved, houter]
    rfl
  · rw [value_eq, value_eq, moved, houter]
    simp only [constant_mk, monomerFactors_mk, polyFactors_mk]
    rw [mul_right_comm, hvalue ρ, mul_right_comm]

/-- A quadratic term after its denominators were cleared. -/
theorem clear_moved_quadratic {t : PolynomialTerm} (h : QuadraticTerm t)
    (hpot : FloatConstant.isPOT t.constant.den = true ∧
      ∀ p ∈ t.polyFactors, ∀ u ∈ p.terms, FloatConstant.isPOT u.constant.den = true)
    {k : ℕ+} (hk : t.outerConstant.den ∣ k) : IntegerQuadratic (clear k (moved t)) := by
  obtain ⟨-, -, hnum, -⟩ := moved_quadratic h hpot
  have hk' : (moved t).constant.den ∣ k := hk
  have hfactors : ∀ p ∈ t.polyFactors, LinearSum (clearSum p).terms ∧
      IntegerSum (clearSum p).terms := by
    intro p hp
    have hpower : PowerSum p := ⟨h.factors p hp, hpot.2 p hp⟩
    exact clear_linearSum hpower.1 hpower.dvd
  refine ⟨⟨h.degree, ?_, clear_num_ne_zero hk' hnum, ?_⟩, (clear_spec hk').1, ?_⟩
  · rw [← h.count]
    exact congrArg (t.monomerFactors.length + ·) (List.length_map ..)
  · intro q hq
    obtain ⟨p, hp, rfl⟩ := List.mem_map.1 hq
    exact (hfactors p hp).1
  · intro q hq
    obtain ⟨p, hp, rfl⟩ := List.mem_map.1 hq
    exact (hfactors p hp).2

theorem termsValue_append (ρ : ℕ → ℚ) (ts us : List PolynomialTerm) :
    termsValue ρ (ts ++ us) = termsValue ρ ts + termsValue ρ us := by
  induction ts with
  | nil => exact (zero_add _).symm
  | cons t ts ih => rw [List.cons_append, termsValue, termsValue, ih, add_assoc]

theorem termsValue_moved (ρ : ℕ → ℚ) {ts : List PolynomialTerm}
    (h : ∀ t ∈ ts, (moved t).value ρ = t.value ρ) :
    termsValue ρ (ts.map moved) = termsValue ρ ts := by
  induction ts with
  | nil => rfl
  | cons t ts ih =>
      rw [List.map_cons, termsValue, termsValue, h t List.mem_cons_self,
        ih fun u hu => h u (List.mem_cons_of_mem t hu)]

/-- Factors over the integers leave an integer constant an integer. -/
theorem outerConstant_den_one {ps : List PolynomialExpression}
    (h : ∀ p ∈ ps, IntegerSum p.terms) {c : FloatConstant} (hc : c.den = 1) :
    (ps.foldl (fun c p => c.multiply
      (.unitFraction (largestDenominator (p.terms.map PolynomialTerm.constant)))) c).den = 1 := by
  induction ps generalizing c with
  | nil => exact hc
  | cons p ps ih =>
      have hone : largestDenominator (p.terms.map PolynomialTerm.constant) = 1 := by
        apply largestDenominator_one
        intro e he
        obtain ⟨u, hu, rfl⟩ := List.mem_map.1 he
        exact (h p List.mem_cons_self u hu).2
      rw [List.foldl_cons, hone]
      exact ih (fun q hq => h q (List.mem_cons_of_mem p hq)) (multiply_den_one hc rfl)

/-- In an expression over the integers the common denominator is one. -/
theorem IntegerParts.commonDenominator {pe : PolynomialExpression} {qs ls : List PolynomialTerm}
    (h : IntegerParts pe qs ls) : pe.commonDenominator = 1 ∧ PowersOfTwo pe := by
  have hall : ∀ t ∈ pe.terms, t.constant.den = 1 ∧ ∀ p ∈ t.polyFactors, IntegerSum p.terms := by
    intro t ht
    rw [h.terms] at ht
    rcases List.mem_append.1 ht with ht | ht
    · exact ⟨(h.integer t ht).den, (h.integer t ht).integer⟩
    · refine ⟨(h.integerSum t ht).2, fun p hp => ?_⟩
      rw [(h.integerSum t ht).1.noFactors] at hp
      exact absurd hp List.not_mem_nil
  constructor
  · apply largestDenominator_one
    intro c hc
    obtain ⟨t, ht, rfl⟩ := List.mem_map.1 hc
    exact outerConstant_den_one (hall t ht).2 (hall t ht).1
  · intro t ht
    obtain ⟨hden, hfactors⟩ := hall t ht
    refine ⟨by rw [hden]; exact FloatConstant.isPOT_one, fun p hp u hu => ?_⟩
    rw [(hfactors p hp u hu).2]
    exact FloatConstant.isPOT_one

/-- Removing the denominators of an expression of degree two. -/
theorem Parts.remove {pe : PolynomialExpression} {qs ls : List PolynomialTerm} (h : Parts pe qs ls)
    (hpot : PowersOfTwo pe) :
    ∃ pe' qs' ls', pe.removeFractionalConstants = some (pe', pe.commonDenominator) ∧
      IntegerParts pe' qs' ls' ∧ qs'.length = qs.length ∧ pe'.degree = pe.degree ∧
        ∀ ρ : ℕ → ℚ, pe'.value ρ = (pe.commonDenominator : ℕ) * pe.value ρ := by
  have hmem : ∀ t ∈ pe.terms, QuadraticTerm t ∨ LinearTerm t ∧ t ∈ ls := by
    intro t ht
    rw [h.terms] at ht
    exact (List.mem_append.1 ht).imp (h.quadratic t) fun ht => ⟨h.linear.linear t ht, ht⟩
  -- a term whose factors hold the fractions is rewritten to hold them outside
  have hmoved : ∀ t ∈ pe.terms, t.removeFractionalConstants = some (moved t) ∧
      FloatConstant.isPOT t.outerConstant.den = true ∧
        ∀ ρ : ℕ → ℚ, (moved t).value ρ = t.value ρ := by
    intro t ht
    rcases hmem t ht with hq | ⟨hl, -⟩
    · obtain ⟨hremove, hpot', -, hvalue⟩ := moved_quadratic hq (hpot t ht)
      exact ⟨hremove, hpot', hvalue⟩
    · rw [outerConstant_linear hl, moved_linear hl]
      exact ⟨by rw [removeFractions_linear hl, moved_linear hl], (hpot t ht).1, fun ρ => rfl⟩
  have hconstants : ∀ c ∈ pe.terms.map outerConstant, FloatConstant.isPOT c.den = true := by
    intro c hc
    obtain ⟨t, ht, rfl⟩ := List.mem_map.1 hc
    exact (hmoved t ht).2.1
  -- the common denominator is divisible by the one of every term
  have hdvd : ∀ t ∈ pe.terms, t.outerConstant.den ∣ pe.commonDenominator := by
    intro t ht
    exact (largestDenominator_spec hconstants).2 _ (List.mem_map_of_mem ht)
  have hqmem : ∀ q ∈ qs, q ∈ pe.terms := by
    intro q hq
    rw [h.terms]
    exact List.mem_append_left _ hq
  have hlmem : ∀ l ∈ ls, l ∈ pe.terms := by
    intro l hl
    rw [h.terms]
    exact List.mem_append_right _ hl
  have hremove := removeFractionalConstants_eq fun t ht => ⟨(hmoved t ht).1, (hmoved t ht).2.1⟩
  set k := pe.commonDenominator with hk
  -- linear terms have nothing to move
  have hlmoved : ls.map moved = ls := by
    rw [List.map_congr_left fun t ht => moved_linear (h.linear.linear t ht), List.map_id']
  have hldvd : ∀ l ∈ ls, l.constant.den ∣ k := by
    intro l hl
    rw [← outerConstant_linear (h.linear.linear l hl)]
    exact hdvd l (hlmem l hl)
  obtain ⟨hlinear, hinteger⟩ := clear_linearSum h.linear hldvd
  have hquadratic : ∀ q ∈ (qs.map moved).map (clear k), IntegerQuadratic q := by
    intro q' hq'
    obtain ⟨q₁, hq₁, rfl⟩ := List.mem_map.1 hq'
    obtain ⟨q, hq, rfl⟩ := List.mem_map.1 hq₁
    exact clear_moved_quadratic (h.quadratic q hq) (hpot q (hqmem q hq)) (hdvd q (hqmem q hq))
  refine ⟨_, (qs.map moved).map (clear k), ls.map (clear k), hremove, ⟨⟨?_, ?_, hlinear, ?_⟩,
    hquadratic, hinteger⟩, by simp, rfl, fun ρ => ?_⟩
  · rw [terms_mk, h.terms, List.map_append, List.map_append, hlmoved]
  · exact fun q hq => (hquadratic q hq).toQuadraticTerm
  · -- a quadratic term was there before as well
    intro hne
    apply h.degree
    rintro rfl
    exact hne rfl
  · rw [sum_value_eq, sum_value_eq, terms_mk, clear_terms_value ρ, termsValue_moved ρ]
    · exact fun t ht => (hmoved t ht).2.2 ρ
    · intro t ht
      obtain ⟨u, hu, rfl⟩ := List.mem_map.1 ht
      exact hdvd u hu

/-! ## The printed line -/

theorem copied_atoms (as : List CircuitAtom) : Copied (as.map Bracketed.atom) := by
  induction as with
  | nil => exact copied_nil
  | cons a as ih => exact (copied_atom a).append ih

theorem copied_constant (alone : Bool) (c : FloatConstant) : Copied (constantToCircuit alone c) := by
  unfold constantToCircuit
  split
  · exact copied_atom _
  · split
    · exact copied_nil
    · split
      · exact copied_atom _
      · exact copied_atoms [.const c, .times]

theorem copied_monomers (more : Bool) (ms : List ℕ) : Copied (monomersToCircuit more ms) := by
  induction ms with
  | nil => exact copied_nil
  | cons x ms ih =>
      rw [monomersToCircuit]
      refine (copied_atom (.line x)).append (Copied.append ?_ ih)
      split
      · exact copied_atom _
      · exact copied_nil

theorem copied_factors {ps : List PolynomialExpression} (h : ∀ p ∈ ps, IntegerSum p.terms) :
    Copied (factorsToCircuit ps) := by
  induction ps with
  | nil => exact copied_nil
  | cons p ps ih =>
      have hp := copied_linear (linearTokens_terms (h p List.mem_cons_self))
      have hrest := ih fun q hq => h q (List.mem_cons_of_mem p hq)
      have htimes : Copied (if ps.isEmpty then [] else [.atom .times]) := by
        split
        · exact copied_nil
        · exact copied_atom _
      have heq : factorsToCircuit (p :: ps) = (.opening :: (termsToCircuit p.terms ++ [.closing])) ++
          ((if ps.isEmpty then [] else [.atom .times]) ++ factorsToCircuit ps) := by
        rw [factorsToCircuit, sumToCircuit_eq]
        simp
      rw [heq]
      exact hp.group.append (htimes.append hrest)

/-- The reader copies terms over the integers, quadratic ones included. -/
theorem copied_terms {ts : List PolynomialTerm}
    (h : ∀ t ∈ ts, ∀ p ∈ t.polyFactors, IntegerSum p.terms) : Copied (termsToCircuit ts) := by
  induction ts with
  | nil => exact copied_nil
  | cons t ts ih =>
      have hterm : Copied t.toCircuit := by
        have ht := h t List.mem_cons_self
        cases t
        exact (copied_constant _ _).append ((copied_monomers _ _).append (copied_factors ht))
      rw [termsToCircuit]
      refine hterm.append (Copied.append ?_ (ih fun u hu => h u (List.mem_cons_of_mem t hu)))
      split
      · exact copied_nil
      · exact copied_atom _

theorem not_opening_of_linear {n : ℕ} {X : List CircuitToken} (h : LinearTokens n X) :
    Bracketed.opening ∉ X := by
  induction X generalizing n with
  | nil => exact List.not_mem_nil
  | cons tok X ih =>
      cases tok with
      | opening => exact h.elim
      | closing => exact h.elim
      | stop => exact h.elim
      | atom a =>
          have hrest : ∃ m, LinearTokens m X := by
            cases a with
            | plus => exact ⟨0, h⟩
            | minus => exact ⟨0, h⟩
            | times => exact ⟨n, h⟩
            | const c => exact ⟨n, h.2⟩
            | line x => exact ⟨1, h.2⟩
            | word => exact h.elim
          obtain ⟨m, hm⟩ := hrest
          intro hmem
          rcases List.mem_cons.1 hmem with heq | hX
          · cases heq
          · exact ih hm hX

/-- The tokens of a quadratic term are not linear. -/
theorem not_linear_quadratic {t : PolynomialTerm} (h : QuadraticTerm t)
    (toks : List CircuitToken) : ¬ LinearTokens 0 (t.toCircuit ++ toks) := by
  intro hlinear
  have hopening := not_opening_of_linear hlinear
  obtain ⟨-, hcount, -, -⟩ := h
  obtain ⟨c, ms, ps, d⟩ := t
  rcases two_factors hcount with ⟨x, y, rfl, rfl⟩ | ⟨x, p, rfl, rfl⟩ | ⟨p, q, rfl, rfl⟩
  · -- two variables in one product
    rw [PolynomialTerm.toCircuit] at hlinear
    simp only [List.isEmpty_cons, Bool.false_and, constantToCircuit,
      if_neg Bool.false_ne_true] at hlinear
    split at hlinear
    · exact absurd hlinear.2.1 one_ne_zero
    · split at hlinear
      · exact absurd hlinear.2.1 one_ne_zero
      · exact absurd hlinear.2.2.1 one_ne_zero
  · apply hopening
    simp [PolynomialTerm.toCircuit, factorsToCircuit]
  · apply hopening
    simp [PolynomialTerm.toCircuit, factorsToCircuit]

section Line

variable (isBoolean : ℕ → Bool) {pe : PolynomialExpression} {qs ls : List PolynomialTerm}

/-- The product of an expression with a quadratic term. -/
theorem productToCircuit_quadratic {q : PolynomialTerm} (h : IntegerQuadratic q)
    (ts : List PolynomialTerm) :
    ∃ us vs, productToCircuit isBoolean 2 (q :: ts) = some (productLine us vs, ts) ∧
      IntegerSum us ∧ IntegerSum vs ∧
        ∀ ρ : ℕ → ℚ, termsValue ρ us * termsValue ρ vs = q.value ρ := by
  obtain ⟨q', hq', hquad, hconstant, hsums⟩ := duplicate_quadratic h
  obtain ⟨d2t, hd2t, hunit⟩ := toUnitConstantForm_quadratic isBoolean hquad
  obtain ⟨us, vs, hprint, hus, hvs, hvalue⟩ := hunit.printed
  refine ⟨us, vs, ?_, hus, hvs, fun ρ => ?_⟩
  · rw [productToCircuit, if_pos rfl, hq', Option.bind_some, hd2t, Option.map_some, ← hprint]
    rfl
  · rw [hvalue, value_factorSums, value_factorSums, hconstant, hsums]

/-- The product of an expression with another degree is empty. -/
theorem productToCircuit_linear {d : ℕ} (hd : d ≠ 2) (ts : List PolynomialTerm) :
    productToCircuit isBoolean d ts =
      some ([.opening, .closing, .atom .times, .opening, .closing], ts) := by
  unfold productToCircuit
  rw [if_neg hd]

/-- The tokens before the sum of an expression without a quadratic term whose degree is two: the
first term alone, or nothing. -/
theorem productToCircuit_stale {l : PolynomialTerm} (hl : LinearTerm l)
    (hnum : l.constant.num ≠ 0) (hden : l.constant.den = 1) (ts : List PolynomialTerm)
    {r : List CircuitToken × List PolynomialTerm}
    (h : productToCircuit isBoolean 2 (l :: ts) = some r) :
    r.2 = ts ∧ (r.1 = [] ∨ ∃ us, IntegerSum us ∧
      r.1 = .opening :: (termsToCircuit us ++ [.closing])) := by
  rw [productToCircuit, if_pos rfl, duplicate_linear hl, Option.bind_some] at h
  obtain ⟨d2t, hd2t, rfl⟩ := Option.map_eq_some_iff.1 h
  refine ⟨rfl, ?_⟩
  rcases linear_cases hl with ⟨c, rfl⟩ | ⟨c, x, rfl⟩
  · cases hone : c.isOne with
    | true =>
        simp only [toUnitConstantForm, hone, if_true, Option.some.injEq] at hd2t
        subst hd2t
        exact Or.inl rfl
    | false =>
        simp only [toUnitConstantForm, hone, Bool.false_eq_true, if_false, ite_self,
          reduceCtorEq] at hd2t
  · refine Or.inr ?_
    cases hone : c.isOne with
    | true =>
        simp only [toUnitConstantForm, hone, if_true, Option.some.injEq] at hd2t
        subst hd2t
        exact ⟨_, integerSum_monomer x, rfl⟩
    | false =>
        have hc : c.num ≠ 0 := hnum
        rw [toUnitConstantForm_monomer isBoolean hc hone x [] []] at hd2t
        cases hd2t
        exact ⟨_, integerSum_rep hden x, rfl⟩

/-- What `toCircuit` prints, and the expression it leaves. -/
theorem toCircuit_eq (h : Parts pe qs ls) (hpot : PowersOfTwo pe) :
    ∃ pe' qs' ls', IntegerParts pe' qs' ls' ∧ qs'.length = qs.length ∧ pe'.degree = pe.degree ∧
      (∀ ρ : ℕ → ℚ, pe'.value ρ = (pe.commonDenominator : ℕ) * pe.value ρ) ∧
        pe.toCircuit isBoolean = (productToCircuit isBoolean pe'.degree (qs' ++ ls')).map fun r =>
          (lineTokens pe.commonDenominator r.1 (termsToCircuit r.2), pe') := by
  obtain ⟨pe', qs', ls', hremove, hparts, hlength, hdegree, hvalue⟩ := h.remove hpot
  refine ⟨pe', qs', ls', hparts, hlength, hdegree, hvalue, ?_⟩
  rw [PolynomialExpression.toCircuit, hremove, Option.bind_some, hparts.terms]
  rfl

/-- An expression of degree two without a quadratic term has no line that is accepted. -/
theorem stale_degree_rejected (h : Parts pe [] ls) (hpot : PowersOfTwo pe) (hd : pe.degree = 2)
    {toks : List CircuitToken} {pe' : PolynomialExpression}
    (heq : pe.toCircuit isBoolean = some (toks, pe')) (words : ℕ) :
    compilePolyConstraint (circuitLine toks words) = none := by
  obtain ⟨pe₁, qs', ls', hparts, hlength, hdegree, -, hprint⟩ := toCircuit_eq isBoolean h hpot
  have hnil : qs' = [] := List.length_eq_zero_iff.1 hlength
  subst hnil
  rw [hprint, hdegree, hd, List.nil_append] at heq
  obtain ⟨r, hr, hpair⟩ := Option.map_eq_some_iff.1 heq
  obtain ⟨rfl, -⟩ := Prod.mk.inj hpair
  cases ls' with
  | nil =>
      rw [productToCircuit, if_pos rfl] at hr
      cases hr
  | cons l ls' =>
      have hl := hparts.integerSum l List.mem_cons_self
      have hsum : Copied (termsToCircuit ls') := copied_linear (linearTokens_terms fun u hu =>
        hparts.integerSum u (List.mem_cons_of_mem l hu))
      obtain ⟨hrest, hproduct⟩ := productToCircuit_stale isBoolean hl.1
        (hparts.linear.num_ne_zero l List.mem_cons_self) hl.2 ls' hr
      rw [hrest]
      rcases hproduct with hproduct | ⟨us, hus, hproduct⟩
      · rw [hproduct]
        exact compilePolyConstraint_none _ hsum words
      · rw [hproduct]
        exact compilePolyConstraint_single _ (copied_linear (linearTokens_terms hus)) hsum words

/-- The line of an expression with a quadratic term is read as printed. -/
theorem quadratic_line {q : PolynomialTerm} (h : Parts pe (q :: qs) ls) (hpot : PowersOfTwo pe)
    (words : ℕ) :
    ∃ toks pe' q' qs' ls' A B, pe.toCircuit isBoolean = some (toks, pe') ∧
      IntegerParts pe' (q' :: qs') ls' ∧ qs'.length = qs.length ∧ pe'.degree = pe.degree ∧
        (∀ ρ : ℕ → ℚ, pe'.value ρ = (pe.commonDenominator : ℕ) * pe.value ρ) ∧
          IntegerSum A ∧ IntegerSum B ∧
            (∀ ρ : ℕ → ℚ, termsValue ρ A * termsValue ρ B = q'.value ρ) ∧
              compilePolyConstraint (circuitLine toks words) = some
                ⟨termsToCircuit A, termsToCircuit B, termsToCircuit (qs' ++ ls'),
                  pe.commonDenominator⟩ := by
  obtain ⟨pe', qs', ls', hparts, hlength, hdegree, hvalue, hprint⟩ := toCircuit_eq isBoolean h hpot
  cases qs' with
  | nil => exact absurd hlength (by simp)
  | cons q' qs' =>
      have hd : pe'.degree = 2 := hparts.degree (List.cons_ne_nil q' qs')
      obtain ⟨A, B, hproduct, hA, hB, hAB⟩ := productToCircuit_quadratic isBoolean
        (hparts.integer q' List.mem_cons_self) (qs' ++ ls')
      rw [hd, List.cons_append, hproduct, Option.map_some] at hprint
      have hsum : Copied (termsToCircuit (qs' ++ ls')) := by
        refine copied_terms fun t ht p hp => ?_
        rcases List.mem_append.1 ht with ht | ht
        · exact (hparts.integer t (List.mem_cons_of_mem q' ht)).integer p hp
        · rw [(hparts.integerSum t ht).1.noFactors] at hp
          exact absurd hp List.not_mem_nil
      refine ⟨_, pe', q', qs', ls', A, B, hprint, hparts, Nat.succ.inj hlength, hdegree, hvalue, hA,
        hB, hAB, ?_⟩
      exact compilePolyConstraint_line _ (copied_linear (linearTokens_terms hA))
        (copied_linear (linearTokens_terms hB)) hsum words

end Line

/-- One printing of an expression whose degree tells the truth. -/
theorem toCircuit_line (isBoolean : ℕ → Bool) {pe : PolynomialExpression}
    {qs ls : List PolynomialTerm} (h : Parts pe qs ls) (hpot : PowersOfTwo pe)
    (hone : pe.degree = 2 → qs.length = 1) (words : ℕ) :
    ∃ toks pe' qs' ls' con, pe.toCircuit isBoolean = some (toks, pe') ∧
      IntegerParts pe' qs' ls' ∧ qs'.length = qs.length ∧ pe'.degree = pe.degree ∧
        (∀ ρ : ℕ → ℚ, pe'.value ρ = (pe.commonDenominator : ℕ) * pe.value ρ) ∧
          compilePolyConstraint (circuitLine toks words) = some con ∧
            (LinearTokens 0 con.A ∧ LinearTokens 0 con.B ∧ LinearTokens 0 con.C) ∧
              con.k = pe.commonDenominator ∧ ∀ ρ : ℕ → ℚ,
                meaning ρ (toText con.A) * meaning ρ (toText con.B) + meaning ρ (toText con.C) =
                  (pe.commonDenominator : ℕ) * pe.value ρ := by
  cases qs with
  -- no product: the line is `( ) * ( ) + ( C )`
  | nil =>
      obtain ⟨pe', qs', ls', hparts, hlength, hdegree, hvalue, hprint⟩ :=
        toCircuit_eq isBoolean h hpot
      have hnil : qs' = [] := List.length_eq_zero_iff.1 hlength
      subst hnil
      have hd : ¬ pe'.degree = 2 := by
        rw [hdegree]
        exact fun hd => absurd (hone hd) (by simp)
      rw [productToCircuit_linear isBoolean hd, Option.map_some, List.nil_append] at hprint
      refine ⟨_, pe', [], ls', _, hprint, hparts, rfl, hdegree, hvalue,
        compilePolyConstraint_line _ copied_nil copied_nil
          (copied_linear (linearTokens_terms hparts.integerSum)) words,
        ⟨trivial, trivial, linearTokens_terms hparts.integerSum⟩, rfl, fun ρ => ?_⟩
      rw [← hvalue ρ, sum_value_eq, hparts.terms]
      exact (congrArg₂ (· + ·) (zero_mul _) (meaning_terms ρ hparts.integerSum)).trans (zero_add _)
  -- one product: its two factors are the first two polynomials
  | cons q qs =>
      have hqs : qs = [] := by
        have := hone (h.degree (List.cons_ne_nil q qs))
        exact List.length_eq_zero_iff.1 (Nat.succ.inj this)
      subst hqs
      obtain ⟨toks, pe', q', qs', ls', A, B, hprint, hparts, hlength, hdegree, hvalue, hA, hB, hAB,
        hcompile⟩ := quadratic_line isBoolean h hpot words
      have hnil : qs' = [] := List.length_eq_zero_iff.1 hlength
      subst hnil
      refine ⟨toks, pe', [q'], ls', _, hprint, hparts, rfl, hdegree, hvalue, hcompile,
        ⟨linearTokens_terms hA, linearTokens_terms hB, linearTokens_terms hparts.integerSum⟩, rfl,
        fun ρ => ?_⟩
      rw [← hvalue ρ, sum_value_eq, hparts.terms, meaning_terms ρ hA, meaning_terms ρ hB, hAB,
        List.nil_append, meaning_terms ρ hparts.integerSum]
      rfl

/-- A line that means something gives the degree of an expression its truth: one product. -/
theorem oneProduct_of_lineMeans (isBoolean : ℕ → Bool) {pe : PolynomialExpression}
    {qs ls : List PolynomialTerm} (h : Parts pe qs ls) (hpot : PowersOfTwo pe) {words : ℕ}
    {toks : List CircuitToken} {pe' : PolynomialExpression}
    (hprint : pe.toCircuit isBoolean = some (toks, pe')) {v : (ℕ → ℚ) → ℚ}
    (hmeans : LineMeans (circuitLine toks words) v) (hd : pe.degree = 2) : qs.length = 1 := by
  obtain ⟨con, hcon, ⟨-, -, hC⟩, -, -⟩ := hmeans
  match qs with
  | [] =>
      rw [stale_degree_rejected isBoolean h hpot hd hprint words] at hcon
      cases hcon
  | [q] => rfl
  | q :: q₂ :: qs =>
      -- the second quadratic term is in the sum
      obtain ⟨toks', pe₁, q', qs', ls', A, B, hprint', hparts, hlength, -, -, -, -, -, hcompile⟩ :=
        quadratic_line isBoolean h hpot words
      rw [hprint] at hprint'
      obtain ⟨rfl, -⟩ := Prod.mk.inj (Option.some.inj hprint')
      rw [hcon] at hcompile
      cases hcompile
      cases qs' with
      | nil => exact absurd hlength (by simp)
      | cons q₃ qs' =>
          have hquad := (hparts.integer q₃ (List.mem_cons_of_mem q' List.mem_cons_self))
          rw [List.cons_append, termsToCircuit] at hC
          exact absurd hC (not_linear_quadratic hquad.toQuadraticTerm _)

/-- Two lines that define the value need one product, and no denominator in front unless the
expression is zero. -/
theorem settled_of_printsValue {isBoolean : ℕ → Bool} {pe : PolynomialExpression}
    (hpe : Reachable isBoolean pe) (hd : pe.degree ≤ 2) (hpot : PowersOfTwo pe) {words : ℕ}
    (h : PrintsValue isBoolean words pe) :
    OneProduct pe ∧ (pe.commonDenominator = 1 ∨ ∀ ρ : ℕ → ℚ, pe.value ρ = 0) := by
  have hparts := parts_of_ok hpe.ok hd
  revert h
  rintro ⟨toks, pe', hprint, hmeans, toks', pe'', hprint', con, hcon, -, -, hvalue⟩
  have hone : OneProduct pe := fun hd2 =>
    oneProduct_of_lineMeans isBoolean hparts hpot hprint hmeans hd2
  refine ⟨hone, ?_⟩
  obtain ⟨toks₁, pe₁, qs₁, ls₁, con₁, hprint₁, hparts₁, hlength₁, hdegree₁, hvalue₁, -⟩ :=
    toCircuit_line isBoolean hparts hpot hone words
  rw [hprint] at hprint₁
  obtain ⟨rfl, rfl⟩ := Prod.mk.inj (Option.some.inj hprint₁)
  -- the second line says `y` is the value of what the first printing left
  obtain ⟨hcommon, hpot₁⟩ := hparts₁.commonDenominator
  obtain ⟨toks₂, pe₂, qs₂, ls₂, con₂, hprint₂, -, -, -, -, hcon₂, -, hk₂, hmeaning₂⟩ :=
    toCircuit_line isBoolean hparts₁.toParts hpot₁
      (fun hd2 => hlength₁.trans (hone (hdegree₁ ▸ hd2))) words
  rw [hprint'] at hprint₂
  obtain ⟨rfl, rfl⟩ := Prod.mk.inj (Option.some.inj hprint₂)
  rw [hcon] at hcon₂
  cases hcon₂
  rcases eq_or_ne pe.commonDenominator 1 with hk | hk
  · exact Or.inl hk
  · refine Or.inr fun ρ => ?_
    have htwo : ((pe.commonDenominator : ℕ) : ℚ) - 1 ≠ 0 := by
      rw [sub_ne_zero]
      intro heq
      exact hk (PNat.eq (by exact_mod_cast heq))
    have heq : ((pe.commonDenominator : ℕ) : ℚ) * pe.value ρ = pe.value ρ := by
      have h₁ := hvalue ρ
      rw [hmeaning₂ ρ, hk₂, hcommon, hvalue₁ ρ] at h₁
      simpa using h₁
    have hzero : (((pe.commonDenominator : ℕ) : ℚ) - 1) * pe.value ρ = 0 := by
      rw [sub_mul, heq, one_mul, sub_self]
    exact (mul_eq_zero.1 hzero).resolve_left htwo

/-- Printing a reachable expression of degree at most two over powers of two gives, the first and
the second time, a line whose constraint defines the value of the expression, exactly when an
expression with the degree two has one product, and no denominator is left in front, unless the
expression is zero. -/
theorem printsValue_iff (isBoolean : ℕ → Bool) {pe : PolynomialExpression}
    (hpe : Reachable isBoolean pe) (hd : pe.degree ≤ 2) (hpot : PowersOfTwo pe) (words : ℕ) :
    PrintsValue isBoolean words pe ↔
      OneProduct pe ∧ (pe.commonDenominator = 1 ∨ ∀ ρ : ℕ → ℚ, pe.value ρ = 0) := by
  have hparts := parts_of_ok hpe.ok hd
  refine ⟨settled_of_printsValue hpe hd hpot, ?_⟩
  rintro ⟨hone, hk⟩
  obtain ⟨toks, pe', qs', ls', con, hprint, hparts', hlength, hdegree, hvalue, hcon, hlinear,
    hcommon, hmeaning⟩ := toCircuit_line isBoolean hparts hpot hone words
  obtain ⟨hcommon', hpot'⟩ := hparts'.commonDenominator
  obtain ⟨toks', pe'', -, -, con', hprint', -, -, -, -, hcon', hlinear', hk', hmeaning'⟩ :=
    toCircuit_line isBoolean hparts'.toParts hpot'
      (fun hd2 => hlength.trans (hone (hdegree ▸ hd2))) words
  refine ⟨toks, pe', hprint, ⟨con, hcon, hlinear, ?_, fun ρ => ?_⟩, toks', pe'', hprint', con',
    hcon', hlinear', ?_, fun ρ => ?_⟩
  · rw [hcommon]
    exact pe.commonDenominator.pos
  · rw [hmeaning, hcommon]
  · rw [hk']
    exact pe'.commonDenominator.pos
  · -- the first printing has not changed the value
    rw [hmeaning', hk', hvalue]
    rcases hk with hk | hk
    · rw [hk, PNat.one_coe, Nat.cast_one, one_mul]
    · change _ = _ * pe.value ρ
      rw [hk, mul_zero]

/-! ## Two statements -/

/-- `x * y + 3`. -/
def productExpression : PolynomialExpression :=
  .mk [.mk .ONE [1, 2] [] 2, .mk ⟨3, 1, Nat.one_pos⟩ [] [] 0] 2

theorem reachable_productExpression : Reachable (fun _ => false) productExpression := by
  have hx : Reachable (fun _ => false) (.mk [.mk .ONE [1] [] 1] 1) := reachable_ofMonomer rfl
  have hy : Reachable (fun _ => false) (.mk [.mk .ONE [2] [] 1] 1) := reachable_ofMonomer rfl
  have hxy : Reachable (fun _ => false) (.mk [.mk .ONE [1, 2] [] 2] 2) :=
    reachable_inlineTimes hx hy rfl
  have hthree : Reachable (fun _ => false) (.mk [.mk ⟨3, 1, Nat.one_pos⟩ [] [] 0] 0) :=
    reachable_ofConstant (c := ⟨3, 1, Nat.one_pos⟩) rfl
  exact reachable_inlinePlus hxy hthree rfl

theorem printsValue_productExpression : PrintsValue (fun _ => false) 1 productExpression := by
  have hpot : PowersOfTwo productExpression := by
    intro t ht
    rcases List.mem_cons.1 ht with rfl | ht
    · exact ⟨by decide, fun p hp => absurd hp List.not_mem_nil⟩
    · rw [List.mem_singleton.1 ht]
      exact ⟨by decide, fun p hp => absurd hp List.not_mem_nil⟩
  exact (printsValue_iff _ reachable_productExpression (le_refl 2) hpot 1).2
    ⟨fun _ => rfl, Or.inl rfl⟩

/-- Half of a variable. -/
def halfExpression : PolynomialExpression :=
  .mk [.mk ⟨1, 2, Nat.two_pos⟩ [1] [] 1] 1

/-- `z`, left of `x * y + z - x * y`. -/
def cancelledExpression : PolynomialExpression :=
  .mk [.mk .ONE [3] [] 1] 2

/-- Both statements are built by the code, and neither is printed well: the first loses its
denominator when it is printed a second time, and the second still has the degree two and is printed
without a second factor. -/
theorem half_and_cancelled_fail :
    (Reachable (fun _ => false) halfExpression ∧
        ∀ words, ¬ PrintsValue (fun _ => false) words halfExpression) ∧
      Reachable (fun _ => false) cancelledExpression ∧
        ∀ words, ¬ PrintsValue (fun _ => false) words cancelledExpression := by
  have hx : Reachable (fun _ => false) (.mk [.mk .ONE [1] [] 1] 1) := reachable_ofMonomer rfl
  have hy : Reachable (fun _ => false) (.mk [.mk .ONE [2] [] 1] 1) := reachable_ofMonomer rfl
  have hz : Reachable (fun _ => false) (.mk [.mk .ONE [3] [] 1] 1) := reachable_ofMonomer rfl
  have hhalf : Reachable (fun _ => false) halfExpression := by
    have hconst : Reachable (fun _ => false) (.mk [.mk ⟨1, 2, Nat.two_pos⟩ [] [] 0] 0) :=
      reachable_ofConstant (c := ⟨1, 2, Nat.two_pos⟩) rfl
    exact reachable_inlineTimes hconst hx rfl
  have hcancelled : Reachable (fun _ => false) cancelledExpression := by
    have hxy : Reachable (fun _ => false) (.mk [.mk .ONE [1, 2] [] 2] 2) :=
      reachable_inlineTimes hx hy rfl
    have hsum : Reachable (fun _ => false)
        (.mk [.mk .ONE [1, 2] [] 2, .mk .ONE [3] [] 1] 2) := reachable_inlinePlus hxy hz rfl
    exact .add (.term hxy List.mem_cons_self) hsum (rfl : addMultiplesOfTerm .NEG_ONE _ _ = _)
  have hpot : ∀ t : PolynomialTerm, FloatConstant.isPOT t.constant.den = true →
      t.polyFactors = [] → ∀ d, PowersOfTwo (.mk [t] d) := by
    intro t ht hps d u hu
    rw [List.mem_singleton.1 hu, hps]
    exact ⟨ht, fun p hp => absurd hp List.not_mem_nil⟩
  refine ⟨⟨hhalf, fun words h => ?_⟩, hcancelled, fun words h => ?_⟩
  · -- half: the denominator is not one and the value not zero
    obtain ⟨-, hk | hzero⟩ := settled_of_printsValue hhalf (by decide)
      (hpot _ (by decide) rfl 1) h
    · exact absurd hk (by decide)
    · have hvalue : halfExpression.value (fun _ => 1) = 1 / 2 := by
        norm_num [halfExpression, PolynomialExpression.value, termsValue, PolynomialTerm.value,
          factorsValue, FloatConstant.toRat]
      rw [hzero] at hvalue
      norm_num at hvalue
  · -- cancelled: the degree says two and no quadratic term is left
    obtain ⟨hone, -⟩ := settled_of_printsValue hcancelled (by decide)
      (hpot _ (by decide) rfl 2) h
    exact absurd (hone rfl) (by decide)

end Pepper.Frontend
