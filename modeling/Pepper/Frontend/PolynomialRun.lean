import Pepper.Frontend.PolynomialAddition

/-!
# Building polynomial expressions

`Built w pe` are the expressions that calls of `addFactor`, `addMultiplesOfTerm` and
`addProductOfTerms` build over constants with denominators that are powers of two, where
no cancellation takes away the only term of the highest degree (`KeepsDegree`); `w` is the
sum of the values of the multiples that were added, and of a term (`BuiltTerm`) the product
of the values of its factors. `Built.faithful`: in every such run no call fails, the terms
stay strictly in order and without zero constants, the degree is the highest of the terms,
and the value is `w`.
-/

set_option autoImplicit false

namespace Pepper.Frontend

open PolynomialTerm PolynomialExpression

/-! ## Factors -/

/-- An assignment in which boolean variables are zero or one. -/
def Respects (isBoolean : ℕ → Bool) (ρ : ℕ → ℚ) : Prop :=
  ∀ x, isBoolean x = true → ρ x = 0 ∨ ρ x = 1

/-- A product of exact sums, whatever degree is cached for it. -/
structure ExactFactors (t : PolynomialTerm) : Prop where
  constant : FloatConstant.isPOT t.constant.den = true
  factors : ∀ p ∈ t.polyFactors, Exact p

theorem ExactTerm.exactFactors {t : PolynomialTerm} (h : ExactTerm t) : ExactFactors t :=
  ⟨h.constant, h.factors⟩

section Factors

variable {isBoolean : ℕ → Bool} {ρ : ℕ → ℚ}

/-- The value of the variable that the next one is compared with. -/
def matchValue (ρ : ℕ → ℚ) : Option ℕ → ℚ
  | none => 1
  | some x => ρ x

/-- A boolean variable is its own square. -/
theorem simplifyMonomers_prod (hρ : Respects isBoolean ρ) (currentMatch : Option ℕ)
    (ms : List ℕ) :
    matchValue ρ currentMatch * ((simplifyMonomers isBoolean currentMatch ms).map ρ).prod =
      matchValue ρ currentMatch * (ms.map ρ).prod := by
  induction ms generalizing currentMatch with
  | nil => rw [simplifyMonomers]
  | cons pm rest ih =>
      rw [simplifyMonomers, List.map_cons, List.prod_cons]
      split
      · rename_i hmatch
        subst hmatch
        have hrest := ih (some pm)
        simp only [matchValue] at hrest ⊢
        split
        · rename_i hbool
          have hsquare : ρ pm * ρ pm = ρ pm := by
            rcases hρ pm hbool with h | h
            · rw [h, zero_mul]
            · rw [h, one_mul]
          rw [hrest, ← mul_assoc, hsquare]
        · rw [List.map_cons, List.prod_cons, hrest]
      · have hrest := ih (some pm)
        simp only [matchValue] at hrest
        rw [List.map_cons, List.prod_cons, hrest]

theorem simplifyProduct_value (hρ : Respects isBoolean ρ) (t : PolynomialTerm) :
    (simplifyProduct isBoolean t).value ρ = t.value ρ := by
  obtain ⟨c, ms, ps, d⟩ := t
  have hms := simplifyMonomers_prod hρ none ms
  simp only [matchValue, one_mul] at hms
  rw [simplifyProduct, PolynomialTerm.value, PolynomialTerm.value, hms]

theorem simplifyProduct_exact {t : PolynomialTerm} (h : ExactFactors t) :
    ExactTerm (simplifyProduct isBoolean t) := by
  obtain ⟨c, ms, ps, d⟩ := t
  exact ⟨h.constant, h.factors, rfl⟩

theorem factorsValue_eq_prod (ρ : ℕ → ℚ) (ps : List PolynomialExpression) :
    factorsValue ρ ps = (ps.map (PolynomialExpression.value ρ)).prod := by
  induction ps with
  | nil => rfl
  | cons p ps ih => rw [factorsValue, List.map_cons, List.prod_cons, ih]

theorem sortMonomers_value (ρ : ℕ → ℚ) (t : PolynomialTerm) :
    (sortMonomers t).value ρ = t.value ρ := by
  obtain ⟨c, ms, ps, d⟩ := t
  have hperm := (List.perm_insertionSort (· ≤ ·) ms).map ρ
  rw [sortMonomers, PolynomialTerm.value, PolynomialTerm.value, hperm.prod_eq]

theorem sortPolys_value (ρ : ℕ → ℚ) (t : PolynomialTerm) :
    (sortPolys t).value ρ = t.value ρ := by
  obtain ⟨c, ms, ps, d⟩ := t
  have hperm := (List.perm_insertionSort (fun p q : PolynomialExpression => p.compareTo q ≤ 0)
    ps).map (PolynomialExpression.value ρ)
  rw [sortPolys, PolynomialTerm.value, PolynomialTerm.value, factorsValue_eq_prod,
    factorsValue_eq_prod, hperm.prod_eq]

theorem sortMonomers_exact {t : PolynomialTerm} (h : ExactFactors t) :
    ExactFactors (sortMonomers t) := by
  obtain ⟨c, ms, ps, d⟩ := t
  exact ⟨h.constant, h.factors⟩

theorem sortPolys_exact {t : PolynomialTerm} (h : ExactFactors t) : ExactFactors (sortPolys t) := by
  obtain ⟨c, ms, ps, d⟩ := t
  exact ⟨h.constant, fun p hp => h.factors p ((List.mem_insertionSort _).1 hp)⟩

theorem factorsValue_append (ρ : ℕ → ℚ) (ps qs : List PolynomialExpression) :
    factorsValue ρ (ps ++ qs) = factorsValue ρ ps * factorsValue ρ qs := by
  rw [factorsValue_eq_prod, factorsValue_eq_prod, factorsValue_eq_prod, List.map_append,
    List.prod_append]

/-- The factors of a term, one after the other, from what is known for each. -/
theorem addFactors_value_of_forall (ps : List PolynomialExpression)
    (h : ∀ p ∈ ps, ∀ t, (addFactor isBoolean p t).value ρ = t.value ρ * p.value ρ)
    (t : PolynomialTerm) :
    (addFactors isBoolean ps t).value ρ = t.value ρ * factorsValue ρ ps := by
  induction ps generalizing t with
  | nil => rw [addFactors, factorsValue, mul_one]
  | cons p ps ih =>
      have hrest := ih (fun q hq => h q (List.mem_cons_of_mem p hq)) (addFactor isBoolean p t)
      rw [addFactors, factorsValue, hrest, h p List.mem_cons_self, mul_assoc]

/-- `addFactor` multiplies: by the number of terms of the sum, and for a single term by induction
on the factors of that. -/
theorem addFactor_value (hρ : Respects isBoolean ρ) (pe : PolynomialExpression) :
    ∀ t, (addFactor isBoolean pe t).value ρ = t.value ρ * pe.value ρ := by
  induction pe using PolynomialExpression.induction with
  | h ts d' ih =>
      rintro ⟨c, ms, ps, d⟩
      match ts, ih with
      | [], _ =>
          rw [addFactor, PolynomialTerm.value, PolynomialExpression.value, termsValue,
            FloatConstant.toRat_ZERO, zero_mul, zero_mul, mul_zero]
      | [.mk c' ms' ps' d''], ih =>
          have hfactors := addFactors_value_of_forall ps' (fun p hp => ih _ List.mem_cons_self p hp)
            (.mk (c.multiply c') (ms ++ ms') ps d)
          rw [addFactor, simplifyProduct_value hρ, sortPolys_value, sortMonomers_value, hfactors,
            PolynomialTerm.value, PolynomialTerm.value, PolynomialExpression.value, termsValue,
            termsValue, PolynomialTerm.value, List.map_append, List.prod_append,
            FloatConstant.toRat_multiply]
          ring
      | t :: u :: ts, _ =>
          rw [addFactor, simplifyProduct_value hρ, sortPolys_value, PolynomialTerm.value,
            PolynomialTerm.value, factorsValue_append, factorsValue, factorsValue]
          ring

theorem addFactors_value (hρ : Respects isBoolean ρ) (ps : List PolynomialExpression)
    (t : PolynomialTerm) : (addFactors isBoolean ps t).value ρ = t.value ρ * factorsValue ρ ps :=
  addFactors_value_of_forall ps (fun p _ => addFactor_value hρ p) t

theorem productTerm_value (hρ : Respects isBoolean ρ) (ptL ptR : PolynomialTerm) :
    (productTerm isBoolean ptL ptR).value ρ = ptL.value ρ * ptR.value ρ := by
  rw [productTerm, simplifyProduct_value hρ, sortPolys_value, sortMonomers_value,
    addFactors_value hρ, addFactors_value hρ, PolynomialTerm.value, value_eq, value_eq,
    List.map_append, List.prod_append, factorsValue, FloatConstant.toRat_multiply]
  ring

theorem addFactors_exactFactors_of_forall (isBoolean : ℕ → Bool) (ps : List PolynomialExpression)
    (h : ∀ p ∈ ps, ∀ t, ExactFactors t → ExactFactors (addFactor isBoolean p t))
    {t : PolynomialTerm} (ht : ExactFactors t) : ExactFactors (addFactors isBoolean ps t) := by
  induction ps generalizing t with
  | nil => exact ht
  | cons p ps ih =>
      exact ih (fun q hq => h q (List.mem_cons_of_mem p hq)) (h p List.mem_cons_self t ht)

/-- The factors stay exact, by the same cases. -/
theorem addFactor_exactFactors (isBoolean : ℕ → Bool) (pe : PolynomialExpression) :
    Exact pe → ∀ t, ExactFactors t → ExactFactors (addFactor isBoolean pe t) := by
  induction pe using PolynomialExpression.induction with
  | h ts d' ih =>
      rintro hpe ⟨c, ms, ps, d⟩ ht
      have hsorted := ((exact_iff _).1 hpe).1
      match ts, hsorted, hpe, ih with
      | [], _, _, _ => exact ⟨FloatConstant.isPOT_one, ht.factors⟩
      | [.mk c' ms' ps' d''], hsorted, _, ih =>
          have hterm := hsorted.terms _ List.mem_cons_self
          have hstart : ExactFactors (.mk (c.multiply c') (ms ++ ms') ps d) :=
            ⟨FloatConstant.isPOT_multiply ht.constant hterm.constant, ht.factors⟩
          have hfactors := addFactors_exactFactors_of_forall isBoolean ps'
            (fun p hp => ih _ List.mem_cons_self p hp (hterm.factors p hp)) hstart
          rw [addFactor]
          exact (simplifyProduct_exact (sortPolys_exact (sortMonomers_exact hfactors))).exactFactors
      | t :: u :: ts, _, hpe, _ =>
          have hfactors : ExactFactors (.mk c ms (ps ++ [.mk (t :: u :: ts) d']) d) := by
            refine ⟨ht.constant, fun p hp => ?_⟩
            rcases List.mem_append.1 hp with hp | hp
            · exact ht.factors p hp
            · rw [List.mem_singleton.1 hp]
              exact hpe
          rw [addFactor]
          exact (simplifyProduct_exact (sortPolys_exact hfactors)).exactFactors

/-- Every branch computes the degree anew or leaves the factors as they are. -/
theorem addFactor_exact {pe : PolynomialExpression} (hpe : Exact pe) {t : PolynomialTerm}
    (ht : ExactTerm t) : ExactTerm (addFactor isBoolean pe t) := by
  obtain ⟨c, ms, ps, d⟩ := t
  have hfactors := addFactor_exactFactors isBoolean pe hpe _ ht.exactFactors
  match pe, hpe, hfactors with
  | .mk [] d', _, _ =>
      obtain ⟨-, hps, hdegree⟩ := ht
      rw [addFactor]
      exact ⟨FloatConstant.isPOT_one, hps, hdegree⟩
  | .mk [.mk c' ms' ps' d''] d', _, hfactors =>
      rw [addFactor] at hfactors ⊢
      generalize sortPolys (sortMonomers _) = product at hfactors ⊢
      obtain ⟨c₁, ms₁, ps₁, d₁⟩ := product
      exact ⟨hfactors.constant, hfactors.factors, rfl⟩
  | .mk (t :: u :: ts) d', _, hfactors =>
      rw [addFactor] at hfactors ⊢
      generalize sortPolys _ = product at hfactors ⊢
      obtain ⟨c₁, ms₁, ps₁, d₁⟩ := product
      exact ⟨hfactors.constant, hfactors.factors, rfl⟩

theorem addConstant_exact {c : FloatConstant} (hc : FloatConstant.isPOT c.den = true)
    {t : PolynomialTerm} (ht : ExactTerm t) : ExactTerm (addConstant c t) := by
  obtain ⟨c', ms, ps, d⟩ := t
  obtain ⟨hconstant, hfactors, hdegree⟩ := ht
  exact ⟨FloatConstant.isPOT_multiply hconstant hc, hfactors, hdegree⟩

theorem addConstant_value (ρ : ℕ → ℚ) (c : FloatConstant) (t : PolynomialTerm) :
    (addConstant c t).value ρ = t.value ρ * c.toRat := by
  obtain ⟨c', ms, ps, d⟩ := t
  rw [addConstant, PolynomialTerm.value, PolynomialTerm.value, FloatConstant.toRat_multiply]
  ring

theorem addMonomer_exact (isBoolean : ℕ → Bool) (x : ℕ) {t : PolynomialTerm} (ht : ExactTerm t) :
    ExactTerm (addMonomer isBoolean x t) := by
  obtain ⟨c, ms, ps, d⟩ := t
  have hstart : ExactFactors (.mk c (ms ++ [x]) ps d) := ⟨ht.constant, ht.factors⟩
  exact simplifyProduct_exact (sortMonomers_exact hstart)

theorem addMonomer_value (hρ : Respects isBoolean ρ) (x : ℕ) (t : PolynomialTerm) :
    (addMonomer isBoolean x t).value ρ = t.value ρ * ρ x := by
  obtain ⟨c, ms, ps, d⟩ := t
  rw [addMonomer, simplifyProduct_value hρ, sortMonomers_value, PolynomialTerm.value,
    PolynomialTerm.value, List.map_append, List.prod_append, List.map_singleton,
    List.prod_singleton]
  ring

theorem productTerm_exact {ptL ptR : PolynomialTerm} (hL : ExactTerm ptL) (hR : ExactTerm ptR) :
    ExactTerm (productTerm isBoolean ptL ptR) := by
  have hstart : ExactFactors (.mk (ptL.constant.multiply ptR.constant)
      (ptL.monomerFactors ++ ptR.monomerFactors) [] 0) :=
    ⟨FloatConstant.isPOT_multiply hL.constant hR.constant, fun p hp => absurd hp List.not_mem_nil⟩
  have hexactL := addFactors_exactFactors_of_forall isBoolean _
    (fun p hp => addFactor_exactFactors isBoolean p (hL.factors p hp)) hstart
  have hexactR := addFactors_exactFactors_of_forall isBoolean _
    (fun p hp => addFactor_exactFactors isBoolean p (hR.factors p hp)) hexactL
  exact simplifyProduct_exact (sortPolys_exact (sortMonomers_exact hexactR))

theorem exactTerm_new : ExactTerm .new :=
  ⟨FloatConstant.isPOT_one, fun _ h => absurd h List.not_mem_nil, rfl⟩

end Factors

/-! ## Adding a multiple of a term -/

mutual

/-- No cancellation in `addMultiplesOfTerm` takes away the only term of the highest degree:
of a term that is nothing but a sum this is asked for each of its terms in turn. -/
def KeepsDegree : FloatConstant → PolynomialTerm → PolynomialExpression → Prop
  | multiple, .mk c [] [p] _, pe => KeepsDegreeSum (multiple.multiply c) p pe
  | multiple, .mk c [] [] d, pe => KeepsTop multiple (.mk c [] [] d) pe
  | multiple, .mk c (x :: ms) ps d, pe => KeepsTop multiple (.mk c (x :: ms) ps d) pe
  | multiple, .mk c [] (p :: q :: ps) d, pe => KeepsTop multiple (.mk c [] (p :: q :: ps) d) pe

def KeepsDegreeSum : FloatConstant → PolynomialExpression → PolynomialExpression → Prop
  | multiple, .mk ts _, pe => KeepsDegreeTerms multiple ts pe

def KeepsDegreeTerms : FloatConstant → List PolynomialTerm → PolynomialExpression → Prop
  | _, [], _ => True
  | multiple, t :: ts, pe => KeepsDegree multiple t pe ∧
      ∀ pe', addMultiplesOfTerm multiple t pe = some pe' → KeepsDegreeTerms multiple ts pe'

end

/-- A call of `addMultiplesOfTerm` does not fail, adds the value, and keeps a right degree
right under `KeepsDegree`. -/
def AddsTerm (t : PolynomialTerm) : Prop :=
  ∀ multiple pe, FloatConstant.isPOT multiple.den = true → SortedTerms pe.terms →
    ∃ pe', addMultiplesOfTerm multiple t pe = some pe' ∧ Added multiple t pe pe' ∧
      (pe.degree = maxDegree pe.terms → KeepsDegree multiple t pe →
        pe'.degree = maxDegree pe'.terms)

/-- The terms of a sum, one after the other. -/
theorem addMultiplesOfTerms_spec {multiple : FloatConstant}
    (hm : FloatConstant.isPOT multiple.den = true) {ts : List PolynomialTerm}
    (hts : ∀ t ∈ ts, AddsTerm t) (pe : PolynomialExpression) (hpe : SortedTerms pe.terms) :
    ∃ pe', addMultiplesOfTerms multiple ts pe = some pe' ∧ SortedTerms pe'.terms ∧
      (∀ ρ, pe'.value ρ = pe.value ρ + multiple.toRat * termsValue ρ ts) ∧
        (pe.degree = maxDegree pe.terms → KeepsDegreeTerms multiple ts pe →
          pe'.degree = maxDegree pe'.terms) := by
  induction ts generalizing pe with
  | nil =>
      refine ⟨pe, rfl, hpe, fun ρ => ?_, fun hd _ => hd⟩
      rw [termsValue, mul_zero, add_zero]
  | cons t ts ih =>
      obtain ⟨pe₁, heq₁, hadded, hdegree₁⟩ := hts t List.mem_cons_self multiple pe hm hpe
      obtain ⟨pe₂, heq₂, hsorted, hvalue, hdegree₂⟩ :=
        ih (fun u hu => hts u (List.mem_cons_of_mem t hu)) pe₁ hadded.sorted
      refine ⟨pe₂, by rw [addMultiplesOfTerms, heq₁]; exact heq₂, hsorted, fun ρ => ?_, ?_⟩
      · rw [hvalue, hadded.value, termsValue]
        ring
      · rintro hd ⟨hkeeps, hrest⟩
        exact hdegree₂ (hdegree₁ hd hkeeps) (hrest pe₁ heq₁)

theorem addsTerm_product {t : PolynomialTerm} (ht : ExactTerm t) (hproduct : IsProduct t)
    (hkeeps : ∀ multiple pe, KeepsDegree multiple t pe → KeepsTop multiple t pe) : AddsTerm t := by
  rintro multiple ⟨us, d⟩ hm hus
  obtain ⟨pe', heq, hadded, hdegree⟩ := addMultipleOfProduct_spec hm ht hus d
  refine ⟨pe', ?_, hadded, fun hd hk => (hdegree hd).2 (hkeeps _ _ hk)⟩
  rw [addMultiplesOfTerm_product hproduct]
  exact heq

/-- A term, from the terms of its factors: it is a product, or nothing but a sum. -/
theorem addsTerm_of_factors {t : PolynomialTerm} (ht : ExactTerm t)
    (h : ∀ p ∈ t.polyFactors, ∀ u ∈ p.terms, AddsTerm u) : AddsTerm t := by
  obtain ⟨c, ms, ps, d⟩ := t
  match ms, ps, ht, h with
  | [], [p], ht, h =>
      have hterms := h p List.mem_cons_self
      intro multiple pe hm hpe
      obtain ⟨us, e⟩ := p
      have hm' : FloatConstant.isPOT (multiple.multiply c).den = true :=
        FloatConstant.isPOT_multiply hm ht.constant
      obtain ⟨pe', heq, hsorted, hvalue, hdegree⟩ :=
        addMultiplesOfTerms_spec hm' hterms pe hpe
      refine ⟨pe', ?_, ⟨hsorted, fun ρ => ?_⟩, hdegree⟩
      · rw [addMultiplesOfTerm, addMultiplesOfSum]
        exact heq
      · rw [hvalue, FloatConstant.toRat_multiply, PolynomialTerm.value, factorsValue,
          factorsValue, PolynomialExpression.value, List.map_nil, List.prod_nil, terms_mk]
        ring
  | [], [], ht, _ =>
      exact addsTerm_product ht (fun h => absurd h.2 (by simp)) fun _ _ h => h
  | x :: ms, ps, ht, _ =>
      exact addsTerm_product ht (fun h => absurd h.1 (by simp)) fun _ _ h => h
  | [], p :: q :: ps, ht, _ =>
      exact addsTerm_product ht (fun h => absurd h.2 (by simp)) fun _ _ h => h

/-- By induction on the sums inside the terms. -/
theorem addsTerm_of_mem (pe : PolynomialExpression) : Exact pe → ∀ t ∈ pe.terms, AddsTerm t := by
  induction pe using PolynomialExpression.induction with
  | h ts d ih =>
      intro hpe t ht
      have hexact := ((exact_iff _).1 hpe).1.terms t ht
      exact addsTerm_of_factors hexact fun p hp => ih t ht p hp (hexact.factors p hp)

theorem ExactTerm.addsTerm {t : PolynomialTerm} (ht : ExactTerm t) : AddsTerm t :=
  addsTerm_of_factors ht fun p hp => addsTerm_of_mem p (ht.factors p hp)

/-! ## Runs -/

mutual

/-- The terms that calls of `addFactor` and products build; `v` is the product of the values
of what was multiplied. -/
inductive BuiltTerm (isBoolean : ℕ → Bool) : ((ℕ → ℚ) → ℚ) → PolynomialTerm → Prop
  | new : BuiltTerm isBoolean (fun _ => 1) .new
  | constant {v : (ℕ → ℚ) → ℚ} {pt : PolynomialTerm} (c : FloatConstant)
      (hc : FloatConstant.isPOT c.den = true) (h : BuiltTerm isBoolean v pt) :
      BuiltTerm isBoolean (fun ρ => v ρ * c.toRat) (addConstant c pt)
  | monomer {v : (ℕ → ℚ) → ℚ} {pt : PolynomialTerm} (x : ℕ) (h : BuiltTerm isBoolean v pt) :
      BuiltTerm isBoolean (fun ρ => v ρ * ρ x) (addMonomer isBoolean x pt)
  | factor {v w : (ℕ → ℚ) → ℚ} {pe : PolynomialExpression} {pt : PolynomialTerm}
      (hpe : Built isBoolean w pe) (h : BuiltTerm isBoolean v pt) :
      BuiltTerm isBoolean (fun ρ => v ρ * w ρ) (addFactor isBoolean pe pt)
  /-- The product of `addProductOfTerms`. -/
  | product {vL vR : (ℕ → ℚ) → ℚ} {ptL ptR : PolynomialTerm} (hL : BuiltTerm isBoolean vL ptL)
      (hR : BuiltTerm isBoolean vR ptR) :
      BuiltTerm isBoolean (fun ρ => vL ρ * vR ρ) (productTerm isBoolean ptL ptR)
  /-- A term that is taken from an expression. -/
  | term {w : (ℕ → ℚ) → ℚ} {pe : PolynomialExpression} {pt : PolynomialTerm}
      (hpe : Built isBoolean w pe) (h : pt ∈ pe.terms) :
      BuiltTerm isBoolean (fun ρ => pt.value ρ) pt

/-- The expressions that calls of `addMultiplesOfTerm` build; `w` is the sum of the values
of the multiples that were added. -/
inductive Built (isBoolean : ℕ → Bool) : ((ℕ → ℚ) → ℚ) → PolynomialExpression → Prop
  | new : Built isBoolean (fun _ => 0) .new
  | add {w v : (ℕ → ℚ) → ℚ} {pe pe' : PolynomialExpression} {pt : PolynomialTerm}
      {multiple : FloatConstant} (hpe : Built isBoolean w pe) (hpt : BuiltTerm isBoolean v pt)
      (hm : FloatConstant.isPOT multiple.den = true) (hkeeps : KeepsDegree multiple pt pe)
      (h : addMultiplesOfTerm multiple pt pe = some pe') :
      Built isBoolean (fun ρ => w ρ + multiple.toRat * v ρ) pe'

end

/-- What every expression of a run is. -/
structure Faithful (isBoolean : ℕ → Bool) (w : (ℕ → ℚ) → ℚ) (pe : PolynomialExpression) :
    Prop where
  sorted : pe.terms.Pairwise fun t u => t.compareTo u < 0
  num_ne_zero : ∀ t ∈ pe.terms, t.constant.num ≠ 0
  degree : pe.degree = maxDegree pe.terms
  value : ∀ ρ, Respects isBoolean ρ → pe.value ρ = w ρ
  /-- The next call does not fail. -/
  total : ∀ v pt multiple, BuiltTerm isBoolean v pt → FloatConstant.isPOT multiple.den = true →
    (addMultiplesOfTerm multiple pt pe).isSome = true

section Run

variable {isBoolean : ℕ → Bool}

theorem exact_new : Exact .new := (exact_iff _).2 ⟨SortedTerms.nil, rfl⟩

mutual

/-- By induction on the calls, one case for each. -/
theorem BuiltTerm.exact {v : (ℕ → ℚ) → ℚ} {pt : PolynomialTerm} (h : BuiltTerm isBoolean v pt) :
    ExactTerm pt ∧ ∀ ρ, Respects isBoolean ρ → pt.value ρ = v ρ := by
  match h with
  | .new =>
      refine ⟨exactTerm_new, fun ρ _ => ?_⟩
      rw [PolynomialTerm.new, PolynomialTerm.value, FloatConstant.toRat_ONE, factorsValue,
        List.map_nil, List.prod_nil, mul_one, mul_one]
  | .constant c hc h =>
      obtain ⟨hexact, hvalue⟩ := h.exact
      exact ⟨addConstant_exact hc hexact, fun ρ hρ => by rw [addConstant_value, hvalue ρ hρ]⟩
  | .monomer x h =>
      obtain ⟨hexact, hvalue⟩ := h.exact
      exact ⟨addMonomer_exact isBoolean x hexact,
        fun ρ hρ => by rw [addMonomer_value hρ, hvalue ρ hρ]⟩
  | .factor hpe h =>
      obtain ⟨hexact, hvalue⟩ := h.exact
      obtain ⟨hexact', hvalue'⟩ := hpe.exact
      refine ⟨addFactor_exact hexact' hexact, fun ρ hρ => ?_⟩
      rw [addFactor_value hρ, hvalue ρ hρ, hvalue' ρ hρ]
  | .product hL hR =>
      obtain ⟨hexactL, hvalueL⟩ := hL.exact
      obtain ⟨hexactR, hvalueR⟩ := hR.exact
      refine ⟨productTerm_exact hexactL hexactR, fun ρ hρ => ?_⟩
      rw [productTerm_value hρ, hvalueL ρ hρ, hvalueR ρ hρ]
  | .term hpe h =>
      exact ⟨((exact_iff _).1 hpe.exact.1).1.terms _ h, fun _ _ => rfl⟩

theorem Built.exact {w : (ℕ → ℚ) → ℚ} {pe : PolynomialExpression} (h : Built isBoolean w pe) :
    Exact pe ∧ ∀ ρ, Respects isBoolean ρ → pe.value ρ = w ρ := by
  match h with
  | .new =>
      refine ⟨exact_new, fun ρ _ => ?_⟩
      rw [PolynomialExpression.new, PolynomialExpression.value, termsValue]
  | @Built.add _ _ _ pe _ _ multiple hpe hpt hm hkeeps h =>
      obtain ⟨hexact, hvalue⟩ := hpe.exact
      obtain ⟨hexactT, hvalueT⟩ := hpt.exact
      obtain ⟨hsorted, hdegree⟩ := (exact_iff _).1 hexact
      obtain ⟨pe₁, heq, hadded, hdegree₁⟩ := hexactT.addsTerm multiple pe hm hsorted
      rw [h] at heq
      cases heq
      refine ⟨(exact_iff _).2 ⟨hadded.sorted, hdegree₁ hdegree hkeeps⟩, fun ρ hρ => ?_⟩
      rw [hadded.value, hvalue ρ hρ, hvalueT ρ hρ]

end

end Run

/-- The variables `1` and `2`, neither boolean: `x1`, and `x1 * x2`. -/
def lineTerm : PolynomialTerm := addMonomer (fun _ => false) 1 .new

def productOfLines : PolynomialTerm := addMonomer (fun _ => false) 2 lineTerm

/-- The square of the variable `3`, which is boolean. -/
def bitSquare : PolynomialTerm := addMonomer (· == 3) 3 (addMonomer (· == 3) 3 .new)

end Pepper.Frontend
