import Pepper.Frontend.PolynomialLine

/-!
# The forms of a polynomial before it is printed

Printing first multiplies all constants by a common denominator (`removeFractionalConstants_eq`,
where `clear` is what happens to a term) and then gives the first term, a quadratic one, the
constant one (`toUnitConstantForm_quadratic`). What is left are two linear factors over the integers
with the value of the term.
-/

set_option autoImplicit false

namespace Pepper.Frontend

open PolynomialTerm PolynomialExpression Pepper.Foundations Pepper.Zcc

/-! ## Removing denominators -/

/-- A multiple of the denominator clears it. -/
def clear (k : ℕ+) (t : PolynomialTerm) : PolynomialTerm :=
  t.setConstant (.valueOf ((t.constant.num * (k : ℕ)).tdiv t.constant.den) 1 Nat.one_pos)

/-- A linear factor with its denominators cleared. -/
def clearSum (p : PolynomialExpression) : PolynomialExpression :=
  .mk (p.terms.map (clear (largestDenominator (p.terms.map PolynomialTerm.constant)))) p.degree

/-- A term whose denominators of factors have moved into the constant. -/
def moved (t : PolynomialTerm) : PolynomialTerm :=
  .mk t.outerConstant t.monomerFactors (t.polyFactors.map clearSum) t.degree

theorem value_eq (ρ : ℕ → ℚ) (t : PolynomialTerm) :
    t.value ρ = t.constant.toRat * (t.monomerFactors.map ρ).prod * factorsValue ρ t.polyFactors := by
  cases t
  rfl

theorem sum_value_eq (ρ : ℕ → ℚ) (p : PolynomialExpression) : p.value ρ = termsValue ρ p.terms := by
  cases p
  rfl

/-- The largest denominator of powers of two is a multiple of all of them. -/
theorem largestDenominator_spec {constants : List FloatConstant}
    (hpot : ∀ c ∈ constants, FloatConstant.isPOT c.den = true) :
    FloatConstant.isPOT (largestDenominator constants) = true ∧
      ∀ c ∈ constants, c.den ∣ largestDenominator constants := by
  have key : ∀ d : ℕ+, FloatConstant.isPOT d = true →
      FloatConstant.isPOT (constants.foldl (fun d c => max d c.denominator) d : ℕ+) = true ∧
        d ≤ constants.foldl (fun d c => max d c.denominator) d ∧
          ∀ c ∈ constants, c.denominator ≤ constants.foldl (fun d c => max d c.denominator) d := by
    induction constants with
    | nil => exact fun d hd => ⟨hd, le_refl _, fun c hc => absurd hc List.not_mem_nil⟩
    | cons c rest ih =>
        intro d hd
        have hc := hpot c List.mem_cons_self
        have hmax : FloatConstant.isPOT (max d c.denominator : ℕ+) = true := by
          rcases max_choice d c.denominator with h | h
          · rwa [h]
          · rwa [h]
        obtain ⟨hres, hle, hall⟩ := ih (fun e he => hpot e (List.mem_cons_of_mem c he)) _ hmax
        refine ⟨hres, (le_max_left _ _).trans hle, fun e he => ?_⟩
        rcases List.mem_cons.1 he with rfl | he
        · exact (le_max_right _ _).trans hle
        · exact hall e he
  obtain ⟨hres, -, hall⟩ := key 1 FloatConstant.isPOT_one
  exact ⟨hres, fun c hc => FloatConstant.isPOT_dvd (hpot c hc) hres (hall c hc)⟩

theorem toRat_unitFraction (k : ℕ+) : (FloatConstant.unitFraction k).toRat = 1 / (k : ℕ) := by
  rw [FloatConstant.unitFraction, FloatConstant.toRat_valueOf, Int.cast_one]

theorem isPOT_unitFraction {k : ℕ+} (h : FloatConstant.isPOT k = true) :
    FloatConstant.isPOT (FloatConstant.unitFraction k).den = true := FloatConstant.isPOT_valueOf h

theorem clear_constant (k : ℕ+) (t : PolynomialTerm) :
    (clear k t).constant =
      .valueOf ((t.constant.num * (k : ℕ)).tdiv t.constant.den) 1 Nat.one_pos := by
  cases t
  rfl

/-- Clearing multiplies the constant, which becomes an integer. -/
theorem clear_spec {k : ℕ+} {t : PolynomialTerm} (h : t.constant.den ∣ k) :
    (clear k t).constant.den = 1 ∧ (clear k t).constant.toRat = (k : ℕ) * t.constant.toRat := by
  obtain ⟨m, hm⟩ := h
  have hden : (t.constant.den : ℤ) ≠ 0 := by exact_mod_cast t.constant.den_pos.ne'
  have hdiv : (t.constant.num * (k : ℕ)).tdiv t.constant.den = t.constant.num * m := by
    rw [hm, Nat.cast_mul, mul_left_comm, Int.mul_tdiv_cancel_left _ hden]
  rw [clear_constant, hdiv]
  refine ⟨(FloatConstant.valueOf_one _).2, ?_⟩
  have hdenQ := t.constant.den_ne_zero
  rw [FloatConstant.toRat_valueOf, FloatConstant.toRat, hm]
  push_cast
  field_simp

theorem clear_value (ρ : ℕ → ℚ) {k : ℕ+} {t : PolynomialTerm} (h : t.constant.den ∣ k) :
    (clear k t).value ρ = (k : ℕ) * t.value ρ := by
  have hms : (clear k t).monomerFactors = t.monomerFactors := by cases t; rfl
  have hps : (clear k t).polyFactors = t.polyFactors := by cases t; rfl
  rw [value_eq, value_eq, (clear_spec h).2, hms, hps]
  ring

theorem clear_terms_value (ρ : ℕ → ℚ) {k : ℕ+} {ts : List PolynomialTerm}
    (h : ∀ t ∈ ts, t.constant.den ∣ k) :
    termsValue ρ (ts.map (clear k)) = (k : ℕ) * termsValue ρ ts := by
  induction ts with
  | nil => exact (mul_zero _).symm
  | cons t ts ih =>
      rw [List.map_cons, termsValue, termsValue, clear_value ρ (h t List.mem_cons_self),
        ih fun u hu => h u (List.mem_cons_of_mem t hu), mul_add]

theorem clear_linear {k : ℕ+} {t : PolynomialTerm} (h : LinearTerm t) : LinearTerm (clear k t) := by
  cases t
  exact ⟨h.noFactors, h.degree, h.le_one⟩

theorem clear_num_ne_zero {k : ℕ+} {t : PolynomialTerm} (h : t.constant.den ∣ k)
    (hnum : t.constant.num ≠ 0) : (clear k t).constant.num ≠ 0 := by
  rw [Ne, ← FloatConstant.toRat_eq_zero_iff, (clear_spec h).2, mul_eq_zero,
    FloatConstant.toRat_eq_zero_iff]
  have hk : ((k : ℕ) : ℚ) ≠ 0 := by exact_mod_cast k.pos.ne'
  exact fun hor => hor.elim hk hnum

/-- The order of linear terms does not look at constants. -/
theorem compareTo_clear {k : ℕ+} {t u : PolynomialTerm} (ht : LinearTerm t) (hu : LinearTerm u) :
    (clear k t).compareTo (clear k u) = t.compareTo u := by
  rw [compareTo_linear (clear_linear ht) (clear_linear hu), compareTo_linear ht hu]
  cases t
  cases u
  rfl

/-- Clearing the denominators of a linear sum. -/
theorem clear_linearSum {k : ℕ+} {ts : List PolynomialTerm} (h : LinearSum ts)
    (hk : ∀ t ∈ ts, t.constant.den ∣ k) :
    LinearSum (ts.map (clear k)) ∧ IntegerSum (ts.map (clear k)) := by
  refine ⟨⟨?_, ?_, ?_⟩, ?_⟩
  · intro t ht
    obtain ⟨u, hu, rfl⟩ := List.mem_map.1 ht
    exact clear_linear (h.linear u hu)
  · intro t ht
    obtain ⟨u, hu, rfl⟩ := List.mem_map.1 ht
    exact clear_num_ne_zero (hk u hu) (h.num_ne_zero u hu)
  · rw [List.pairwise_map]
    refine h.sorted.imp_of_mem fun {t u} ht hu htu => ?_
    rwa [compareTo_clear (h.linear t ht) (h.linear u hu)]
  · intro t ht
    obtain ⟨u, hu, rfl⟩ := List.mem_map.1 ht
    exact ⟨clear_linear (h.linear u hu), (clear_spec (hk u hu)).1⟩

/-- The first loop, where each term is moved and has a power of two for its denominator. -/
theorem removeFractionsTerms_eq {ts : List PolynomialTerm}
    (h : ∀ t ∈ ts, t.removeFractionalConstants = some (moved t) ∧
      FloatConstant.isPOT t.outerConstant.den = true) (d : ℕ+) :
    removeFractionsTerms ts d =
      some (ts.map moved, (ts.map outerConstant).foldl (fun d c => max d c.denominator) d) := by
  induction ts generalizing d with
  | nil => rfl
  | cons t ts ih =>
      obtain ⟨hmoved, hpot⟩ := h t List.mem_cons_self
      have hpot' : FloatConstant.isPOT (moved t).constant.den = true := hpot
      rw [removeFractionsTerms, hmoved, Option.bind_some, if_pos hpot',
        ih fun u hu => h u (List.mem_cons_of_mem t hu)]
      rfl

theorem moved_linear {t : PolynomialTerm} (h : LinearTerm t) : moved t = t := by
  rcases linear_cases h with ⟨c, rfl⟩ | ⟨c, x, rfl⟩
  · rfl
  · rfl

theorem outerConstant_linear {t : PolynomialTerm} (h : LinearTerm t) :
    t.outerConstant = t.constant := by
  rcases linear_cases h with ⟨c, rfl⟩ | ⟨c, x, rfl⟩
  · rfl
  · rfl

theorem removeFractions_linear {t : PolynomialTerm} (h : LinearTerm t) :
    t.removeFractionalConstants = some (moved t) := by
  rcases linear_cases h with ⟨c, rfl⟩ | ⟨c, x, rfl⟩
  · rfl
  · rfl

/-- The loop over a sum of terms that are moved. -/
theorem removeFractionalConstants_eq {pe : PolynomialExpression}
    (h : ∀ t ∈ pe.terms, t.removeFractionalConstants = some (moved t) ∧
      FloatConstant.isPOT t.outerConstant.den = true) :
    pe.removeFractionalConstants =
      some (.mk ((pe.terms.map moved).map (clear pe.commonDenominator)) pe.degree,
        pe.commonDenominator) := by
  obtain ⟨ts, d⟩ := pe
  have hts : removeFractionsTerms ts 1 = _ := removeFractionsTerms_eq h 1
  rw [PolynomialExpression.removeFractionalConstants, hts]
  rfl

/-- The constants of a linear factor are over powers of two. -/
def PowerSum (p : PolynomialExpression) : Prop :=
  LinearSum p.terms ∧ ∀ u ∈ p.terms, FloatConstant.isPOT u.constant.den = true

theorem PowerSum.constants {p : PolynomialExpression} (h : PowerSum p) :
    ∀ c ∈ p.terms.map PolynomialTerm.constant, FloatConstant.isPOT c.den = true := by
  intro c hc
  obtain ⟨u, hu, rfl⟩ := List.mem_map.1 hc
  exact h.2 u hu

theorem PowerSum.dvd {p : PolynomialExpression} (h : PowerSum p) :
    ∀ t ∈ p.terms, t.constant.den ∣
      largestDenominator (p.terms.map PolynomialTerm.constant) := by
  intro t ht
  exact (largestDenominator_spec h.constants).2 _ (List.mem_map_of_mem ht)

theorem removeFractions_powerSum {p : PolynomialExpression} (h : PowerSum p) :
    p.removeFractionalConstants =
      some (clearSum p, largestDenominator (p.terms.map PolynomialTerm.constant)) := by
  have hterms : p.terms.map moved = p.terms := by
    rw [List.map_congr_left fun t ht => moved_linear (h.1.linear t ht), List.map_id']
  have hcommon : p.commonDenominator =
      largestDenominator (p.terms.map PolynomialTerm.constant) := by
    rw [PolynomialExpression.commonDenominator,
      List.map_congr_left fun t ht => outerConstant_linear (h.1.linear t ht)]
  rw [removeFractionalConstants_eq, hterms, hcommon]
  · rfl
  · intro t ht
    have hlinear := h.1.linear t ht
    rw [outerConstant_linear hlinear]
    exact ⟨removeFractions_linear hlinear, h.2 t ht⟩

theorem clearSum_value (ρ : ℕ → ℚ) {p : PolynomialExpression} (h : PowerSum p) :
    (clearSum p).value ρ =
      (largestDenominator (p.terms.map PolynomialTerm.constant) : ℕ) * p.value ρ := by
  rw [sum_value_eq, sum_value_eq]
  exact clear_terms_value ρ h.dvd

/-- The loop over the factors of a term: the value of the product stays, and so do powers of two
and constants that are not zero. -/
theorem removeFractionsFactors_eq {ps : List PolynomialExpression} (h : ∀ p ∈ ps, PowerSum p)
    (c : FloatConstant) (hpot : FloatConstant.isPOT c.den = true) (hnum : c.num ≠ 0) :
    ∃ c' : FloatConstant, c' = ps.foldl (fun c p => c.multiply
        (.unitFraction (largestDenominator (p.terms.map PolynomialTerm.constant)))) c ∧
      removeFractionsFactors ps c = some (ps.map clearSum, c') ∧
        FloatConstant.isPOT c'.den = true ∧ c'.num ≠ 0 ∧
          ∀ ρ : ℕ → ℚ, c'.toRat * factorsValue ρ (ps.map clearSum) =
            c.toRat * factorsValue ρ ps := by
  induction ps generalizing c with
  | nil => exact ⟨c, rfl, rfl, hpot, hnum, fun ρ => rfl⟩
  | cons p ps ih =>
      have hp := h p List.mem_cons_self
      set k := largestDenominator (p.terms.map PolynomialTerm.constant) with hk
      have hkpot := (largestDenominator_spec hp.constants).1
      have hk0 : ((k : ℕ) : ℚ) ≠ 0 := by exact_mod_cast k.pos.ne'
      have hunit : (FloatConstant.unitFraction k).num ≠ 0 := by
        rw [Ne, ← FloatConstant.toRat_eq_zero_iff, toRat_unitFraction]
        exact one_div_ne_zero hk0
      obtain ⟨c', hc', hremove, hpot', hnum', hvalue⟩ := ih
        (fun q hq => h q (List.mem_cons_of_mem p hq)) (c.multiply (.unitFraction k))
        (FloatConstant.isPOT_multiply hpot (isPOT_unitFraction hkpot))
        (FloatConstant.multiply_num_ne_zero hnum hunit)
      refine ⟨c', hc', ?_, hpot', hnum', fun ρ => ?_⟩
      · rw [removeFractionsFactors, removeFractions_powerSum hp, Option.bind_some, ← hk, hremove]
        rfl
      · rw [List.map_cons, factorsValue, factorsValue, clearSum_value ρ hp, ← hk]
        calc c'.toRat * ((k : ℕ) * p.value ρ * factorsValue ρ (ps.map clearSum))
            = (k : ℕ) * p.value ρ * (c'.toRat * factorsValue ρ (ps.map clearSum)) := by ring
          _ = c.toRat * (p.value ρ * factorsValue ρ ps) := by
              rw [hvalue ρ, FloatConstant.toRat_multiply, toRat_unitFraction]
              field_simp

/-! ## Quadratic terms -/

/-- A product of two linear factors, variables or sums. -/
structure QuadraticTerm (t : PolynomialTerm) : Prop where
  degree : t.degree = 2
  count : t.monomerFactors.length + t.polyFactors.length = 2
  num_ne_zero : t.constant.num ≠ 0
  factors : ∀ p ∈ t.polyFactors, LinearSum p.terms

/-- A quadratic term with integer constants. -/
structure IntegerQuadratic (t : PolynomialTerm) : Prop extends QuadraticTerm t where
  den : t.constant.den = 1
  integer : ∀ p ∈ t.polyFactors, IntegerSum p.terms

theorem linearSum_of_ok {pe : PolynomialExpression} (h : ExpressionOk pe) (hd : pe.degree ≤ 1) :
    LinearSum pe.terms := by
  have haddable : ∀ t ∈ pe.terms, Addable t := fun t ht => addable_of_mem h ht
  obtain ⟨-, -, hlow, hsorted⟩ := h
  have hle : ∀ t ∈ pe.terms, t.degree ≤ 1 := fun t ht => (hlow t ht).trans hd
  refine ⟨fun t ht => ?_, fun t ht => (haddable t ht).num_ne_zero, ?_⟩
  · exact linearTerm_of_ok (haddable t ht).ok (haddable t ht).product (hle t ht)
  · exact hsorted.imp_of_mem fun {t u} ht _ hbefore => hbefore.2 (hle t ht)

/-- A term of degree two is the product of two linear factors. -/
theorem quadraticTerm_of_addable {t : PolynomialTerm} (h : Addable t) (hd : t.degree = 2) :
    QuadraticTerm t := by
  have hle := factor_degree_le_one h.ok h.product hd.le
  have hpos := fun p (hp : p ∈ t.polyFactors) => one_le_degree_of_factor h.ok hp
  obtain ⟨hfactors, -, -, hexact⟩ := h.ok
  have hsum : (t.polyFactors.map PolynomialExpression.degree).sum = t.polyFactors.length := by
    have hone : ∀ n ∈ t.polyFactors.map PolynomialExpression.degree, n = 1 := by
      intro n hn
      obtain ⟨p, hp, rfl⟩ := List.mem_map.1 hn
      exact le_antisymm (hle p hp) (hpos p hp)
    rw [List.eq_replicate_of_mem hone, List.sum_replicate, List.length_map, smul_eq_mul, mul_one]
  refine ⟨hd, ?_, h.num_ne_zero, fun p hp => linearSum_of_ok (hfactors p hp) (hle p hp)⟩
  have := hexact hd.le
  omega

/-! ### Copies -/

theorem insertTerm_last {e : PolynomialTerm} {ts : List PolynomialTerm}
    (h : ∀ t ∈ ts, t.compareTo e < 0) : insertTerm e ts = some (ts ++ [e]) := by
  induction ts with
  | nil => rfl
  | cons t ts ih =>
      rw [insertTerm, if_pos (h t List.mem_cons_self),
        ih fun u hu => h u (List.mem_cons_of_mem t hu)]
      rfl

theorem duplicate_linear {t : PolynomialTerm} (h : LinearTerm t) : t.duplicate = some t := by
  rcases linear_cases h with ⟨c, rfl⟩ | ⟨c, x, rfl⟩
  · rfl
  · rfl

/-- A copy of a linear sum has the same terms. -/
theorem duplicateTerms_linear (before : List PolynomialTerm) {after : List PolynomialTerm} (d : ℕ)
    (h : LinearSum (before ++ after)) :
    ∃ d', duplicateTerms after (.mk before d) = some (.mk (before ++ after) d') := by
  induction after generalizing before d with
  | nil => exact ⟨d, by rw [List.append_nil]; rfl⟩
  | cons t after ih =>
      have hlinear := h.linear t (List.mem_append_right _ List.mem_cons_self)
      have hlast : ∀ u ∈ before, u.compareTo t < 0 := by
        intro u hu
        exact (List.pairwise_append.1 h.sorted).2.2 u hu t List.mem_cons_self
      have happend : before ++ t :: after = (before ++ [t]) ++ after :=
        (List.append_cons before t after)
      have h' : LinearSum ((before ++ [t]) ++ after) := by rwa [← happend]
      obtain ⟨d', hd'⟩ := ih (before ++ [t]) (max d t.degree) h'
      refine ⟨d', ?_⟩
      rw [duplicateTerms, duplicate_linear hlinear, Option.bind_some, PolynomialExpression.add,
        insertTerm_last hlast, happend]
      exact hd'

theorem duplicate_linearSum {p : PolynomialExpression} (h : LinearSum p.terms) :
    ∃ p', p.duplicate = some p' ∧ p'.terms = p.terms := by
  obtain ⟨ts, d⟩ := p
  obtain ⟨d', hd'⟩ := duplicateTerms_linear [] 0 h
  exact ⟨_, hd', rfl⟩

theorem duplicateFactors_linear {ps : List PolynomialExpression}
    (h : ∀ p ∈ ps, LinearSum p.terms) :
    ∃ ps', duplicateFactors ps = some ps' ∧
      List.Forall₂ (fun p p' => p'.terms = p.terms) ps ps' := by
  induction ps with
  | nil => exact ⟨[], rfl, List.Forall₂.nil⟩
  | cons p ps ih =>
      obtain ⟨p', hp', hterms⟩ := duplicate_linearSum (h p List.mem_cons_self)
      obtain ⟨ps', hps', hall⟩ := ih fun q hq => h q (List.mem_cons_of_mem p hq)
      exact ⟨p' :: ps', by rw [duplicateFactors, hp', Option.bind_some, hps']; rfl,
        List.Forall₂.cons hterms hall⟩

/-- The factors of a product, as lists of terms. -/
def factorSums (t : PolynomialTerm) : List (List PolynomialTerm) :=
  t.monomerFactors.map (fun x => [.mk .ONE [x] [] 1]) ++ t.polyFactors.map PolynomialExpression.terms

theorem value_factorSums (ρ : ℕ → ℚ) (t : PolynomialTerm) :
    t.value ρ = t.constant.toRat * ((factorSums t).map (termsValue ρ)).prod := by
  obtain ⟨c, ms, ps, d⟩ := t
  have hms : (ms.map fun x => termsValue ρ [.mk .ONE [x] [] 1]) = ms.map ρ := by
    apply List.map_congr_left
    intro x hx
    simp [termsValue, PolynomialTerm.value, factorsValue, FloatConstant.toRat_ONE]
  have hps : (ps.map fun p => termsValue ρ p.terms).prod = factorsValue ρ ps := by
    induction ps with
    | nil => rfl
    | cons p ps ih => rw [List.map_cons, List.prod_cons, ih, factorsValue, sum_value_eq]
  rw [value_eq, factorSums, List.map_append, List.prod_append, List.map_map, List.map_map]
  change _ = c.toRat * ((ms.map fun x => termsValue ρ [.mk .ONE [x] [] 1]).prod *
    (ps.map fun p => termsValue ρ p.terms).prod)
  rw [hms, hps]
  exact mul_assoc _ _ _

theorem integerSum_monomer (x : ℕ) : IntegerSum [.mk .ONE [x] [] 1] := by
  intro t ht
  rw [List.mem_singleton.1 ht]
  exact ⟨⟨rfl, rfl, le_refl _⟩, rfl⟩

/-- A copy of a quadratic term has the same factors. -/
theorem duplicate_quadratic {t : PolynomialTerm} (h : IntegerQuadratic t) :
    ∃ t', t.duplicate = some t' ∧ IntegerQuadratic t' ∧ t'.constant = t.constant ∧
      factorSums t' = factorSums t := by
  obtain ⟨c, ms, ps, d⟩ := t
  obtain ⟨⟨hdegree, hcount, hnum, hfactors⟩, hden, hinteger⟩ := h
  have hlinear : ∀ p ∈ ps, LinearSum p.terms := hfactors
  obtain ⟨ps', hps', hall⟩ := duplicateFactors_linear hlinear
  have hterms : ps'.map PolynomialExpression.terms = ps.map PolynomialExpression.terms := by
    clear hps' hfactors hcount hinteger hlinear hden hdegree hnum
    induction hall with
    | nil => rfl
    | cons hp _ ih => rw [List.map_cons, List.map_cons, hp, ih]
  have hmem : ∀ p' ∈ ps', ∃ p ∈ ps, p'.terms = p.terms := by
    intro p' hp'
    have hin : p'.terms ∈ ps.map PolynomialExpression.terms := by
      rw [← hterms]
      exact List.mem_map_of_mem hp'
    obtain ⟨p, hp, heq⟩ := List.mem_map.1 hin
    exact ⟨p, hp, heq.symm⟩
  refine ⟨.mk c ms ps' d, by rw [PolynomialTerm.duplicate, hps']; rfl,
    ⟨⟨hdegree, ?_, hnum, ?_⟩, hden, ?_⟩, rfl, ?_⟩
  · rw [← hcount]
    exact congrArg (ms.length + ·) hall.length_eq.symm
  · intro p' hp'
    obtain ⟨p, hp, heq⟩ := hmem p' hp'
    rw [heq]
    exact hfactors p hp
  · intro p' hp'
    obtain ⟨p, hp, heq⟩ := hmem p' hp'
    rw [heq]
    exact hinteger p hp
  · exact congrArg (ms.map (fun x => [PolynomialTerm.mk .ONE [x] [] 1]) ++ ·) hterms

/-! ### Unit form -/

theorem multiply_den_one {c other : FloatConstant} (hc : c.den = 1) (hother : other.den = 1) :
    (c.multiply other).den = 1 := by
  unfold FloatConstant.multiply
  split
  · rfl
  · split
    · rfl
    · split
      · exact hc
      · split
        · exact hother
        · rcases FloatConstant.valueOf_cases (c.num * other.num) (c.den * other.den)
            (Nat.mul_pos c.den_pos other.den_pos) with ⟨h, -⟩ | ⟨h, -⟩ | ⟨h, -⟩ | h
          · rw [h]
            rfl
          · rw [h]
            rfl
          · rw [h]
            rfl
          · rw [h]
            exact (congrArg₂ (· * ·) hc hother).trans (mul_one 1)

/-- A multiple of a linear sum by an integer. -/
theorem scaled_sum (ρ : ℕ → ℚ) (c : FloatConstant) (ts : List PolynomialTerm) :
    termsValue ρ (ts.map fun t => t.setConstant (t.constant.multiply c)) =
      c.toRat * termsValue ρ ts := by
  induction ts with
  | nil => exact (mul_zero _).symm
  | cons t ts ih =>
      obtain ⟨c', ms, ps, d⟩ := t
      rw [List.map_cons, termsValue, termsValue, ih, mul_add]
      congr 1
      change (c'.multiply c).toRat * _ * _ = c.toRat * (c'.toRat * _ * _)
      rw [FloatConstant.toRat_multiply]
      ring

theorem integerSum_scaled {c : FloatConstant} (hc : c.den = 1) {ts : List PolynomialTerm}
    (h : IntegerSum ts) : IntegerSum (ts.map fun t => t.setConstant (t.constant.multiply c)) := by
  intro t ht
  obtain ⟨u, hu, rfl⟩ := List.mem_map.1 ht
  obtain ⟨hlinear, hden⟩ := h u hu
  cases u
  exact ⟨⟨hlinear.noFactors, hlinear.degree, hlinear.le_one⟩, multiply_den_one hden hc⟩

/-- The variable that takes the constant. -/
theorem unit_monomer (isBoolean : ℕ → Bool) {c : FloatConstant} (hc : c.num ≠ 0)
    (hone : c.isOne = false) (x : ℕ) :
    addMultiplesOfTerm .ONE (addMonomer isBoolean x (addConstant c .new)) .new =
      some (.mk [.mk c [x] [] 1] 1) := by
  have hzero : c.isZero = false := by
    rw [← Bool.not_eq_true, FloatConstant.isZero_iff]
    exact hc
  have hmul : FloatConstant.ONE.multiply c = c := by
    unfold FloatConstant.multiply
    rw [if_neg (by decide), if_neg (by rw [hzero]; decide), if_neg (by rw [hone]; decide),
      if_pos (by decide)]
  have hterm : addMonomer isBoolean x (addConstant c .new) = .mk c [x] [] 1 := by
    rw [PolynomialTerm.new, addConstant, hmul]
    rfl
  rw [hterm, addMultiplesOfTerm, PolynomialExpression.new, addMultipleOfProduct]
  simp only [PolynomialTerm.constant, hmul, hzero, if_neg Bool.false_ne_true, floor,
    PolynomialTerm.duplicate, duplicateFactors, Option.map_some, Option.bind_some,
    PolynomialTerm.setConstant, PolynomialExpression.add, insertTerm, PolynomialTerm.degree,
    Nat.zero_max]

/-- Two factors in either order. -/
theorem insertionSort_two (p q : PolynomialExpression) :
    [p, q].insertionSort (fun p q => p.compareTo q ≤ 0) = [p, q] ∨
      [p, q].insertionSort (fun p q => p.compareTo q ≤ 0) = [q, p] := by
  by_cases h : p.compareTo q ≤ 0
  · exact Or.inl (by simp [List.insertionSort, h])
  · exact Or.inr (by simp [List.insertionSort, h])

/-- A product of two sums as the line has it. -/
def productLine (ts us : List PolynomialTerm) : List CircuitToken :=
  bracketedProduct (termsToCircuit ts) (termsToCircuit us)

/-- The printed form of the factors of a product. -/
def printedProduct (t : PolynomialTerm) : List CircuitToken :=
  monomersInBrackets (!t.polyFactors.isEmpty) t.monomerFactors ++ factorsToCircuit t.polyFactors

theorem sumToCircuit_eq (p : PolynomialExpression) : p.sumToCircuit = termsToCircuit p.terms := by
  cases p
  rfl

/-- The forms of a product of two factors. -/
theorem two_factors {ms : List ℕ} {ps : List PolynomialExpression}
    (h : ms.length + ps.length = 2) :
    (∃ x y, ms = [x, y] ∧ ps = []) ∨ (∃ x p, ms = [x] ∧ ps = [p]) ∨
      ∃ p q, ms = [] ∧ ps = [p, q] := by
  have hms : ms.length = 2 ∨ ms.length = 1 ∨ ms.length = 0 := by omega
  rcases hms with hms | hms | hms
  · obtain ⟨x, y, rfl⟩ := List.length_eq_two.1 hms
    exact Or.inl ⟨x, y, rfl, List.length_eq_zero_iff.1 (by omega)⟩
  · obtain ⟨x, rfl⟩ := List.length_eq_one_iff.1 hms
    obtain ⟨p, rfl⟩ := List.length_eq_one_iff.1 (by omega : ps.length = 1)
    exact Or.inr (Or.inl ⟨x, p, rfl, rfl⟩)
  · obtain ⟨p, q, rfl⟩ := List.length_eq_two.1 (by omega : ps.length = 2)
    exact Or.inr (Or.inr ⟨p, q, List.length_eq_zero_iff.1 hms, rfl⟩)

/-- Two factors are printed as a product of their sums. -/
theorem printedProduct_eq {t : PolynomialTerm}
    (h : t.monomerFactors.length + t.polyFactors.length = 2) :
    ∃ ts us, factorSums t = [ts, us] ∧ printedProduct t = productLine ts us := by
  obtain ⟨c, ms, ps, d⟩ := t
  rcases two_factors h with ⟨x, y, hms, hps⟩ | ⟨x, p, hms, hps⟩ | ⟨p, q, hms, hps⟩
  · simp only [monomerFactors_mk, polyFactors_mk] at hms hps
    subst hms hps
    exact ⟨_, _, rfl, rfl⟩
  · simp only [monomerFactors_mk, polyFactors_mk] at hms hps
    subst hms hps
    refine ⟨_, _, rfl, ?_⟩
    change _ = .opening :: .atom (.line x) :: .closing :: .atom .times :: .opening ::
      (termsToCircuit p.terms ++ [.closing])
    rw [← sumToCircuit_eq]
    rfl
  · simp only [monomerFactors_mk, polyFactors_mk] at hms hps
    subst hms hps
    refine ⟨_, _, rfl, ?_⟩
    rw [productLine, bracketedProduct, ← sumToCircuit_eq, ← sumToCircuit_eq]
    rfl

/-- A product of two factors over the integers with the value of a term and the constant one. -/
structure UnitForm (t d2t : PolynomialTerm) : Prop where
  one : d2t.constant.toRat = 1
  count : d2t.monomerFactors.length + d2t.polyFactors.length = 2
  integer : ∀ p ∈ d2t.polyFactors, IntegerSum p.terms
  value : ∀ ρ : ℕ → ℚ, d2t.value ρ = t.value ρ

/-- A unit form is printed as a product of two linear polynomials over the integers. -/
theorem UnitForm.printed {t d2t : PolynomialTerm} (h : UnitForm t d2t) :
    ∃ ts us, printedProduct d2t = productLine ts us ∧ IntegerSum ts ∧ IntegerSum us ∧
      ∀ ρ : ℕ → ℚ, termsValue ρ ts * termsValue ρ us = t.value ρ := by
  obtain ⟨ts, us, hsums, hprint⟩ := printedProduct_eq h.count
  have hsum : ∀ vs ∈ factorSums d2t, IntegerSum vs := by
    intro vs hvs
    rcases List.mem_append.1 hvs with hvs | hvs
    · obtain ⟨x, -, rfl⟩ := List.mem_map.1 hvs
      exact integerSum_monomer x
    · obtain ⟨p, hp, rfl⟩ := List.mem_map.1 hvs
      exact h.integer p hp
  rw [hsums] at hsum
  refine ⟨ts, us, hprint, hsum ts (by simp), hsum us (by simp), fun ρ => ?_⟩
  rw [← h.value, value_factorSums, h.one, hsums]
  simp

section Unit

variable (isBoolean : ℕ → Bool) {c : FloatConstant} {d : ℕ}

/-- The constant goes to the first variable. -/
theorem toUnitConstantForm_monomer (hnum : c.num ≠ 0) (hone : c.isOne = false) (x : ℕ)
    (ms : List ℕ) (ps : List PolynomialExpression) :
    toUnitConstantForm isBoolean (.mk c (x :: ms) ps d) =
      some (simplifyProduct isBoolean (sortPolys (sortMonomers
        (.mk .ONE ms (ps ++ [.mk [.mk c [x] [] 1] 1]) d)))) := by
  have hzero : c.isZero = false := by
    rw [← Bool.not_eq_true, FloatConstant.isZero_iff]
    exact hnum
  simp only [toUnitConstantForm, hone, hzero, unit_monomer isBoolean hnum hone x, Option.map_some,
    Bool.false_eq_true, if_false]

/-- The constant goes to the smallest factor. -/
theorem toUnitConstantForm_factor (hnum : c.num ≠ 0) (hone : c.isOne = false)
    (p : PolynomialExpression) (ps : List PolynomialExpression) :
    toUnitConstantForm isBoolean (.mk c [] (p :: ps) d) =
      some (simplifyProduct isBoolean (sortPolys (sortMonomers
        (.mk .ONE [] (scaleSmallest c (p :: ps)) d)))) := by
  have hzero : c.isZero = false := by
    rw [← Bool.not_eq_true, FloatConstant.isZero_iff]
    exact hnum
  simp only [toUnitConstantForm, hone, hzero, Bool.false_eq_true, if_false]

theorem integerSum_rep (hden : c.den = 1) (x : ℕ) :
    IntegerSum (PolynomialExpression.mk [.mk c [x] [] 1] 1).terms := by
  intro t ht
  rw [List.mem_singleton.1 ht]
  exact ⟨⟨rfl, rfl, le_refl _⟩, hden⟩

theorem unitForm_monomers (hnum : c.num ≠ 0) (hden : c.den = 1) (hone : c.isOne = false)
    (x y : ℕ) :
    ∃ d2t, toUnitConstantForm isBoolean (.mk c [x, y] [] d) = some d2t ∧
      UnitForm (.mk c [x, y] [] d) d2t := by
  refine ⟨_, toUnitConstantForm_monomer isBoolean hnum hone x [y] [], FloatConstant.toRat_ONE, rfl,
    fun p hp => ?_, fun ρ => ?_⟩
  · rw [List.mem_singleton.1 hp]
    exact integerSum_rep hden x
  · change FloatConstant.ONE.toRat * (ρ y * 1) * ((c.toRat * (ρ x * 1) * 1 + 0) * 1) =
      c.toRat * (ρ x * (ρ y * 1)) * 1
    rw [FloatConstant.toRat_ONE]
    ring

/-- Two polynomial factors with the constant one, in either order. -/
theorem unitForm_sorted {t : PolynomialTerm} {p q : PolynomialExpression}
    (hp : IntegerSum p.terms) (hq : IntegerSum q.terms)
    (hvalue : ∀ ρ : ℕ → ℚ, p.value ρ * q.value ρ = t.value ρ) :
    UnitForm t (simplifyProduct isBoolean (sortPolys (sortMonomers (.mk .ONE [] [p, q] d)))) := by
  have hform : simplifyProduct isBoolean (sortPolys (sortMonomers (.mk .ONE [] [p, q] d))) =
      .mk .ONE [] ([p, q].insertionSort fun p q => p.compareTo q ≤ 0)
        (0 + (([p, q].insertionSort fun p q => p.compareTo q ≤ 0).map
          PolynomialExpression.degree).sum) := rfl
  rw [hform]
  rcases insertionSort_two p q with hsort | hsort
  · rw [hsort]
    refine ⟨FloatConstant.toRat_ONE, rfl, fun r hr => ?_, fun ρ => ?_⟩
    · rcases List.mem_cons.1 hr with rfl | hr
      · exact hp
      · rw [List.mem_singleton.1 hr]
        exact hq
    · rw [← hvalue]
      change FloatConstant.ONE.toRat * 1 * (p.value ρ * (q.value ρ * 1)) = _
      rw [FloatConstant.toRat_ONE]
      ring
  · rw [hsort]
    refine ⟨FloatConstant.toRat_ONE, rfl, fun r hr => ?_, fun ρ => ?_⟩
    · rcases List.mem_cons.1 hr with rfl | hr
      · exact hq
      · rw [List.mem_singleton.1 hr]
        exact hp
    · rw [← hvalue]
      change FloatConstant.ONE.toRat * 1 * (q.value ρ * (p.value ρ * 1)) = _
      rw [FloatConstant.toRat_ONE]
      ring

theorem unitForm_mixed (hnum : c.num ≠ 0) (hden : c.den = 1) (hone : c.isOne = false) (x : ℕ)
    {p : PolynomialExpression} (hp : IntegerSum p.terms) :
    ∃ d2t, toUnitConstantForm isBoolean (.mk c [x] [p] d) = some d2t ∧
      UnitForm (.mk c [x] [p] d) d2t := by
  refine ⟨_, toUnitConstantForm_monomer isBoolean hnum hone x [] [p], ?_⟩
  refine unitForm_sorted isBoolean hp (integerSum_rep hden x) fun ρ => ?_
  change p.value ρ * (c.toRat * (ρ x * 1) * 1 + 0) = c.toRat * (ρ x * 1) * (p.value ρ * 1)
  ring

/-- The smaller of two factors takes the constant. -/
theorem scaleSmallest_two (hden : c.den = 1) {p q : PolynomialExpression}
    (hp : IntegerSum p.terms) (hq : IntegerSum q.terms) :
    ∃ p' q', scaleSmallest c [p, q] = [p', q'] ∧ IntegerSum p'.terms ∧ IntegerSum q'.terms ∧
      ∀ ρ : ℕ → ℚ, p'.value ρ * q'.value ρ = c.toRat * (p.value ρ * q.value ρ) := by
  by_cases hle : p.terms.length ≤ q.terms.length
  · refine ⟨scaleSum c p, q, by simp [scaleSmallest, hle, List.findIdx_cons],
      integerSum_scaled hden hp, hq, fun ρ => ?_⟩
    rw [sum_value_eq, scaleSum, terms_mk, scaled_sum, ← sum_value_eq]
    ring
  · refine ⟨p, scaleSum c q, by simp [scaleSmallest, hle, List.findIdx_cons, (not_le.1 hle).le], hp,
      integerSum_scaled hden hq, fun ρ => ?_⟩
    rw [sum_value_eq ρ (scaleSum c q), scaleSum, terms_mk, scaled_sum, ← sum_value_eq]
    ring

theorem unitForm_factors (hnum : c.num ≠ 0) (hden : c.den = 1) (hone : c.isOne = false)
    {p q : PolynomialExpression} (hp : IntegerSum p.terms) (hq : IntegerSum q.terms) :
    ∃ d2t, toUnitConstantForm isBoolean (.mk c [] [p, q] d) = some d2t ∧
      UnitForm (.mk c [] [p, q] d) d2t := by
  obtain ⟨p', q', hscale, hp', hq', hvalue⟩ := scaleSmallest_two hden hp hq
  refine ⟨_, toUnitConstantForm_factor isBoolean hnum hone p [q], ?_⟩
  rw [hscale]
  refine unitForm_sorted isBoolean hp' hq' fun ρ => ?_
  rw [hvalue]
  change _ = c.toRat * 1 * (p.value ρ * (q.value ρ * 1))
  ring

/-- The unit form of a quadratic term over the integers. -/
theorem toUnitConstantForm_quadratic {t : PolynomialTerm} (h : IntegerQuadratic t) :
    ∃ d2t, toUnitConstantForm isBoolean t = some d2t ∧ UnitForm t d2t := by
  obtain ⟨⟨-, hcount, hnum, -⟩, hden, hinteger⟩ := h
  obtain ⟨c, ms, ps, d⟩ := t
  simp only [constant_mk, monomerFactors_mk, polyFactors_mk] at hcount hnum hden hinteger
  cases hone : c.isOne with
  | true =>
      refine ⟨.mk c ms ps d, by simp only [toUnitConstantForm, hone, if_true],
        FloatConstant.toRat_of_isOne hone, hcount, hinteger, fun ρ => rfl⟩
  | false =>
      rcases two_factors hcount with ⟨x, y, rfl, rfl⟩ | ⟨x, p, rfl, rfl⟩ | ⟨p, q, rfl, rfl⟩
      · exact unitForm_monomers isBoolean hnum hden hone x y
      · exact unitForm_mixed isBoolean hnum hden hone x (hinteger p List.mem_cons_self)
      · exact unitForm_factors isBoolean hnum hden hone (hinteger p List.mem_cons_self)
          (hinteger q (List.mem_cons_of_mem p List.mem_cons_self))

end Unit

end Pepper.Frontend
