import Pepper.Frontend.PolynomialRun
import Pepper.Frontend.TypedExpression

/-!
# The values of typed expressions

Main results: every operation that returns keeps `Sound` and adds what it should add
(`addMultiplesOfTerm_sound`, `duplicate_sound`), substitution leaves the value
(`evaluate_sound`), and a type that `getType` returns contains the value (`getType_contains`).
A sum is `Sound` if its `componentType` contains the value of each of its terms, its
`booleanInputs` are boolean variables among which are those of its terms, and its factors are
sound sums whose `targetType` contains their value (`InTarget`).
-/

set_option autoImplicit false

namespace Pepper.Frontend

open Pepper.Foundations.SortedSearch

/-! ## Erasure -/

section Erasure

variable (typeOf : ℕ → FiniteType)

namespace TypedTerm

theorem erase_simplifyProduct (t : TypedTerm) : (t.simplifyProduct typeOf).erase =
    Frontend.simplifyProduct (isBooleanLine typeOf) t.erase := by
  obtain ⟨c, ms, ps, d⟩ := t
  have hdegree : ps.map TypedExpression.degree =
      (ps.map TypedExpression.erase).map PolynomialExpression.degree := by
    rw [List.map_map]
    exact List.map_congr_left fun p _ => p.degree_erase.symm
  rw [TypedTerm.simplifyProduct, erase, erase, Frontend.simplifyProduct, eraseFactors_eq_map,
    hdegree]

theorem erase_sortMonomers (t : TypedTerm) :
    t.sortMonomers.erase = Frontend.sortMonomers t.erase := by
  cases t
  rfl

theorem erase_sortPolys (t : TypedTerm) : t.sortPolys.erase = Frontend.sortPolys t.erase := by
  obtain ⟨c, ms, ps, d⟩ := t
  have hsort := List.map_insertionSort
    (fun p q : TypedExpression => p.erase.compareTo q.erase ≤ 0)
    (fun p q : PolynomialExpression => p.compareTo q ≤ 0) TypedExpression.erase ps
    fun p _ q _ => Iff.rfl
  rw [TypedTerm.sortPolys, erase, erase, Frontend.sortPolys, eraseFactors_eq_map,
    eraseFactors_eq_map, hsort]

theorem erase_addConstant (fc : FloatConstant) (t : TypedTerm) :
    (t.addConstant fc).erase = Frontend.addConstant fc t.erase := by
  cases t
  rfl

theorem erase_addMonomer (x : ℕ) (t : TypedTerm) : (t.addMonomer typeOf x).erase =
    Frontend.addMonomer (isBooleanLine typeOf) x t.erase := by
  obtain ⟨c, ms, ps, d⟩ := t
  rw [TypedTerm.addMonomer, erase_simplifyProduct, erase_sortMonomers, erase, erase,
    Frontend.addMonomer]

theorem erase_addFactors_of_forall (ps : List TypedExpression)
    (h : ∀ p ∈ ps, ∀ t, (addFactor typeOf p t).erase =
      Frontend.addFactor (isBooleanLine typeOf) p.erase t.erase) (t : TypedTerm) :
    (addFactors typeOf ps t).erase =
      Frontend.addFactors (isBooleanLine typeOf) (ps.map TypedExpression.erase) t.erase := by
  induction ps generalizing t with
  | nil => rfl
  | cons p ps ih =>
      rw [addFactors, List.map_cons, Frontend.addFactors,
        ih (fun q hq => h q (List.mem_cons_of_mem p hq)), h p List.mem_cons_self]

theorem erase_addFactor (pe : TypedExpression) : ∀ t : TypedTerm, (addFactor typeOf pe t).erase =
    Frontend.addFactor (isBooleanLine typeOf) pe.erase t.erase := by
  induction pe using TypedExpression.induction with
  | h pe ih =>
      obtain ⟨ts, d', κ, B, T⟩ := pe
      rintro ⟨c, ms, ps, d⟩
      match ts, ih with
      | [], _ => rfl
      | [.mk c' ms' ps' d''], ih =>
          have hfactors := erase_addFactors_of_forall typeOf ps'
            (fun p hp => ih _ List.mem_cons_self p hp) (.mk (c.multiply c') (ms ++ ms') ps d)
          rw [addFactor, erase_simplifyProduct, erase_sortPolys, erase_sortMonomers, hfactors,
            TypedExpression.erase, eraseTerms, eraseTerms, erase, erase, erase,
            Frontend.addFactor, eraseFactors_eq_map ps']
      | t :: u :: ts, _ =>
          rw [addFactor, erase_simplifyProduct, erase_sortPolys, erase, erase,
            TypedExpression.erase, eraseTerms, eraseTerms, Frontend.addFactor,
            eraseFactors_eq_map, eraseFactors_eq_map, List.map_append]
          rfl

theorem erase_addFactors (ps : List TypedExpression) (t : TypedTerm) :
    (addFactors typeOf ps t).erase =
      Frontend.addFactors (isBooleanLine typeOf) (ps.map TypedExpression.erase) t.erase :=
  erase_addFactors_of_forall typeOf ps (fun p _ => erase_addFactor typeOf p) t

theorem erase_productTerm (ptL ptR : TypedTerm) : (productTerm typeOf ptL ptR).erase =
    Frontend.productTerm (isBooleanLine typeOf) ptL.erase ptR.erase := by
  rw [TypedTerm.productTerm, erase_simplifyProduct, erase_sortPolys, erase_sortMonomers,
    erase_addFactors, erase_addFactors, erase, eraseFactors, Frontend.productTerm,
    constant_erase, constant_erase, monomerFactors_erase, monomerFactors_erase, polyFactors_erase,
    polyFactors_erase]

theorem erase_addBit (e : BitExpression) (t : TypedTerm) : (t.addBit typeOf e).erase =
    Frontend.addBit (isBooleanLine typeOf) e t.erase := by
  cases e with
  | constant b => exact erase_addConstant _ t
  | lval x => exact erase_addMonomer typeOf x t

end TypedTerm

end Erasure

/-! ## Sound expressions -/

/-- Every variable has a value of its type. -/
def Assigns (typeOf : ℕ → FiniteType) (ρ : ℕ → ℚ) : Prop := ∀ x, (typeOf x).Contains (ρ x)

theorem Assigns.respects {typeOf : ℕ → FiniteType} {ρ : ℕ → ℚ} (h : Assigns typeOf ρ) :
    Respects (isBooleanLine typeOf) ρ := fun x hx =>
  FiniteType.contains_boolean.1 (TypeHeirarchy.contains_of_isSubType hx (h x))

def TypedTerm.value (ρ : ℕ → ℚ) (t : TypedTerm) : ℚ := t.erase.value ρ

def TypedExpression.value (ρ : ℕ → ℚ) (pe : TypedExpression) : ℚ := pe.erase.value ρ

theorem termsValue_eq_sum (ρ : ℕ → ℚ) (ts : List PolynomialTerm) :
    termsValue ρ ts = (ts.map (PolynomialTerm.value ρ)).sum := by
  induction ts with
  | nil => rfl
  | cons t ts ih => rw [termsValue, List.map_cons, List.sum_cons, ih]

theorem TypedTerm.value_eq (ρ : ℕ → ℚ) (t : TypedTerm) :
    t.value ρ = t.constant.toRat * (t.monomerFactors.map ρ).prod *
      (t.polyFactors.map (TypedExpression.value ρ)).prod := by
  rw [TypedTerm.value, Frontend.value_eq, constant_erase, monomerFactors_erase, polyFactors_erase,
    factorsValue_eq_prod, List.map_map]
  rfl

theorem TypedExpression.value_eq (ρ : ℕ → ℚ) (pe : TypedExpression) :
    pe.value ρ = (pe.terms.map (TypedTerm.value ρ)).sum := by
  rw [TypedExpression.value, sum_value_eq, terms_erase, termsValue_eq_sum, List.map_map]
  rfl

/-- The type of a bit string contains the value. -/
def InTarget (typeOf : ℕ → FiniteType) (pe : TypedExpression) : Prop :=
  ∀ T, pe.targetType = some T → ∀ ρ, Assigns typeOf ρ → T.Contains (pe.value ρ)

mutual

/-- A product of sound sums. -/
inductive SoundTerm (typeOf : ℕ → FiniteType) : TypedTerm → Prop
  | intro {t : TypedTerm} (constant : FloatConstant.isPOT t.constant.den = true)
      (factors : ∀ p ∈ t.polyFactors, Sound typeOf p)
      (targets : ∀ p ∈ t.polyFactors, InTarget typeOf p) : SoundTerm typeOf t

/-- A sum whose caches are right, whether or not it is that of a bit string. -/
inductive Sound (typeOf : ℕ → FiniteType) : TypedExpression → Prop
  | intro {pe : TypedExpression} (terms : ∀ t ∈ pe.terms, SoundTerm typeOf t)
      (component : ∀ t ∈ pe.terms, ∀ ρ, Assigns typeOf ρ → pe.componentType.Contains (t.value ρ))
      (booleans : ∀ x ∈ pe.booleanInputs, isBooleanLine typeOf x = true)
      (inputs : ∀ t ∈ pe.terms, ∀ x ∈ t.booleanInputs typeOf, x ∈ pe.booleanInputs) :
      Sound typeOf pe

end

section Soundness

variable {typeOf : ℕ → FiniteType}

namespace SoundTerm

variable {t : TypedTerm}

theorem constant (h : SoundTerm typeOf t) : FloatConstant.isPOT t.constant.den = true := by
  obtain ⟨hconstant, -, -⟩ := h
  exact hconstant

theorem factors (h : SoundTerm typeOf t) : ∀ p ∈ t.polyFactors, Sound typeOf p := by
  obtain ⟨-, hfactors, -⟩ := h
  exact hfactors

theorem targets (h : SoundTerm typeOf t) : ∀ p ∈ t.polyFactors, InTarget typeOf p := by
  obtain ⟨-, -, htargets⟩ := h
  exact htargets

theorem new : SoundTerm typeOf .new :=
  ⟨FloatConstant.isPOT_one, fun _ h => absurd h List.not_mem_nil,
    fun _ h => absurd h List.not_mem_nil⟩

theorem setConstant (h : SoundTerm typeOf t) {c : FloatConstant}
    (hc : FloatConstant.isPOT c.den = true) : SoundTerm typeOf (t.setConstant c) := by
  cases t
  exact ⟨hc, h.factors, h.targets⟩

end SoundTerm

namespace Sound

variable {pe : TypedExpression}

theorem terms (h : Sound typeOf pe) : ∀ t ∈ pe.terms, SoundTerm typeOf t := by
  obtain ⟨hterms, -, -, -⟩ := h
  exact hterms

theorem component (h : Sound typeOf pe) :
    ∀ t ∈ pe.terms, ∀ ρ, Assigns typeOf ρ → pe.componentType.Contains (t.value ρ) := by
  obtain ⟨-, hcomponent, -, -⟩ := h
  exact hcomponent

theorem booleans (h : Sound typeOf pe) : ∀ x ∈ pe.booleanInputs, isBooleanLine typeOf x = true := by
  obtain ⟨-, -, hbooleans, -⟩ := h
  exact hbooleans

theorem inputs (h : Sound typeOf pe) :
    ∀ t ∈ pe.terms, ∀ x ∈ t.booleanInputs typeOf, x ∈ pe.booleanInputs := by
  obtain ⟨-, -, -, hinputs⟩ := h
  exact hinputs

/-- A sum without terms. -/
theorem nil (T : Option FiniteType) : Sound typeOf (.mk [] 0 .boolean [] T) :=
  ⟨fun _ h => absurd h List.not_mem_nil, fun _ h => absurd h List.not_mem_nil,
    fun _ h => absurd h List.not_mem_nil, fun _ h => absurd h List.not_mem_nil⟩

/-- By induction on the sums inside the terms. -/
theorem dyadic (pe : TypedExpression) : Sound typeOf pe → Dyadic pe.erase := by
  induction pe using TypedExpression.induction with
  | h pe ih =>
      intro hpe
      constructor
      rw [TypedExpression.terms_erase]
      intro t' ht'
      obtain ⟨t, ht, rfl⟩ := List.mem_map.1 ht'
      have hterm := hpe.terms t ht
      constructor
      · rw [TypedTerm.constant_erase]
        exact hterm.constant
      · rw [TypedTerm.polyFactors_erase]
        intro p' hp'
        obtain ⟨p, hp, rfl⟩ := List.mem_map.1 hp'
        exact ih t ht p hp (hterm.factors p hp)

end Sound

theorem SoundTerm.dyadic {t : TypedTerm} (h : SoundTerm typeOf t) : DyadicTerm t.erase := by
  constructor
  · rw [TypedTerm.constant_erase]
    exact h.constant
  · rw [TypedTerm.polyFactors_erase]
    intro p' hp'
    obtain ⟨p, hp, rfl⟩ := List.mem_map.1 hp'
    exact Sound.dyadic p (h.factors p hp)

/-! ### Products -/

theorem mem_of_mem_simplifyMonomers {isBoolean : ℕ → Bool} {x : ℕ} {currentMatch : Option ℕ}
    {ms : List ℕ} (h : x ∈ simplifyMonomers isBoolean currentMatch ms) : x ∈ ms := by
  induction ms generalizing currentMatch with
  | nil => exact h
  | cons pm rest ih =>
      rw [simplifyMonomers] at h
      split at h
      · split at h
        · exact List.mem_cons_of_mem pm (ih h)
        · rcases List.mem_cons.1 h with rfl | h
          · exact List.mem_cons_self
          · exact List.mem_cons_of_mem pm (ih h)
      · rcases List.mem_cons.1 h with rfl | h
        · exact List.mem_cons_self
        · exact List.mem_cons_of_mem pm (ih h)

/-- A property of products that is one of their constants, variables and factors. -/
structure PartsProperty where
  constant : FloatConstant → Prop
  line : ℕ → Prop
  factor : TypedExpression → Prop
  zero : constant .ZERO
  multiply : ∀ c c', constant c → constant c' → constant (c.multiply c')
  /-- What a factor consists of has the property. -/
  constants : ∀ p, factor p → ∀ t ∈ p.terms, constant t.constant
  lines : ∀ p, factor p → ∀ t ∈ p.terms, ∀ x ∈ t.monomerFactors, line x
  factors : ∀ p, factor p → ∀ t ∈ p.terms, ∀ q ∈ t.polyFactors, factor q

namespace PartsProperty

variable (P : PartsProperty)

structure Holds (t : TypedTerm) : Prop where
  constant : P.constant t.constant
  lines : ∀ x ∈ t.monomerFactors, P.line x
  factors : ∀ p ∈ t.polyFactors, P.factor p

variable {P} {t : TypedTerm}

theorem holds_simplifyProduct (h : P.Holds t) : P.Holds (t.simplifyProduct typeOf) := by
  cases t
  exact ⟨h.constant, fun x hx => h.lines x (mem_of_mem_simplifyMonomers hx), h.factors⟩

theorem holds_sortMonomers (h : P.Holds t) : P.Holds t.sortMonomers := by
  cases t
  exact ⟨h.constant, fun x hx => h.lines x ((List.mem_insertionSort _).1 hx), h.factors⟩

theorem holds_sortPolys (h : P.Holds t) : P.Holds t.sortPolys := by
  cases t
  exact ⟨h.constant, h.lines, fun p hp => h.factors p ((List.mem_insertionSort _).1 hp)⟩

theorem holds_addConstant {c : FloatConstant} (hc : P.constant c) (h : P.Holds t) :
    P.Holds (t.addConstant c) := by
  cases t
  exact ⟨P.multiply _ _ h.constant hc, h.lines, h.factors⟩

theorem holds_addMonomer {x : ℕ} (hx : P.line x) (h : P.Holds t) :
    P.Holds (t.addMonomer typeOf x) := by
  obtain ⟨c, ms, ps, d⟩ := t
  have hstart : P.Holds (.mk c (ms ++ [x]) ps d) := by
    refine ⟨h.constant, fun y hy => ?_, h.factors⟩
    rcases List.mem_append.1 hy with hy | hy
    · exact h.lines y hy
    · rw [List.mem_singleton.1 hy]
      exact hx
  exact holds_simplifyProduct (holds_sortMonomers hstart)

theorem holds_addFactors_of_forall (ps : List TypedExpression)
    (h : ∀ p ∈ ps, ∀ t, P.Holds t → P.Holds (TypedTerm.addFactor typeOf p t)) (ht : P.Holds t) :
    P.Holds (TypedTerm.addFactors typeOf ps t) := by
  induction ps generalizing t with
  | nil => exact ht
  | cons p ps ih =>
      rw [TypedTerm.addFactors]
      exact ih (fun q hq => h q (List.mem_cons_of_mem p hq)) (h p List.mem_cons_self t ht)

/-- By the number of terms of the sum, and for a single term by induction on its factors. -/
theorem holds_addFactor (pe : TypedExpression) : P.factor pe →
    ∀ t, P.Holds t → P.Holds (TypedTerm.addFactor typeOf pe t) := by
  induction pe using TypedExpression.induction with
  | h pe ih =>
      rintro hpe ⟨c, ms, ps, d⟩ ht
      obtain ⟨ts, d', κ, B, T⟩ := pe
      match ts, hpe, ih with
      | [], _, _ => exact ⟨P.zero, ht.lines, ht.factors⟩
      | [.mk c' ms' ps' d''], hpe, ih =>
          have hlines := P.lines _ hpe _ List.mem_cons_self
          have hstart : P.Holds (.mk (c.multiply c') (ms ++ ms') ps d) := by
            refine ⟨P.multiply c c' ht.constant (P.constants _ hpe _ List.mem_cons_self),
              fun x hx => ?_, ht.factors⟩
            rcases List.mem_append.1 hx with hx | hx
            · exact ht.lines x hx
            · exact hlines x hx
          have hfactors := holds_addFactors_of_forall ps' (fun p hp =>
            ih _ List.mem_cons_self p hp (P.factors _ hpe _ List.mem_cons_self p hp)) hstart
          rw [TypedTerm.addFactor]
          exact holds_simplifyProduct (holds_sortPolys (holds_sortMonomers hfactors))
      | t :: u :: ts, hpe, _ =>
          have hstart : P.Holds (.mk c ms (ps ++ [.mk (t :: u :: ts) d' κ B T]) d) := by
            refine ⟨ht.constant, ht.lines, fun p hp => ?_⟩
            rcases List.mem_append.1 hp with hp | hp
            · exact ht.factors p hp
            · rw [List.mem_singleton.1 hp]
              exact hpe
          rw [TypedTerm.addFactor]
          exact holds_simplifyProduct (holds_sortPolys hstart)

theorem holds_addFactors {ps : List TypedExpression} (hps : ∀ p ∈ ps, P.factor p)
    (ht : P.Holds t) : P.Holds (TypedTerm.addFactors typeOf ps t) :=
  holds_addFactors_of_forall ps (fun p hp => holds_addFactor p (hps p hp)) ht

theorem holds_productTerm {ptL ptR : TypedTerm} (hL : P.Holds ptL) (hR : P.Holds ptR) :
    P.Holds (TypedTerm.productTerm typeOf ptL ptR) := by
  have hstart : P.Holds (.mk (ptL.constant.multiply ptR.constant)
      (ptL.monomerFactors ++ ptR.monomerFactors) [] 0) := by
    refine ⟨P.multiply _ _ hL.constant hR.constant, fun x hx => ?_,
      fun p hp => absurd hp List.not_mem_nil⟩
    rcases List.mem_append.1 hx with hx | hx
    · exact hL.lines x hx
    · exact hR.lines x hx
  exact holds_simplifyProduct (holds_sortPolys (holds_sortMonomers
    (holds_addFactors hR.factors (holds_addFactors hL.factors hstart))))

/-- Soundness is such a property. -/
def sound (typeOf : ℕ → FiniteType) : PartsProperty where
  constant c := FloatConstant.isPOT c.den = true
  line _ := True
  factor p := Sound typeOf p ∧ InTarget typeOf p
  zero := FloatConstant.isPOT_one
  multiply _ _ := FloatConstant.isPOT_multiply
  constants _ hp t ht := (hp.1.terms t ht).constant
  lines _ _ _ _ _ _ := trivial
  factors _ hp t ht q hq := ⟨(hp.1.terms t ht).factors q hq, (hp.1.terms t ht).targets q hq⟩

theorem holds_sound_iff {t : TypedTerm} : (sound typeOf).Holds t ↔ SoundTerm typeOf t := by
  constructor
  · intro h
    exact ⟨h.constant, fun p hp => (h.factors p hp).1, fun p hp => (h.factors p hp).2⟩
  · intro h
    exact ⟨h.constant, fun _ _ => trivial, fun p hp => ⟨h.factors p hp, h.targets p hp⟩⟩

end PartsProperty

namespace TypedTerm

open PartsProperty

theorem addConstant_sound {c : FloatConstant} (hc : FloatConstant.isPOT c.den = true)
    {t : TypedTerm} (h : SoundTerm typeOf t) : SoundTerm typeOf (t.addConstant c) :=
  holds_sound_iff.1 (holds_addConstant hc (holds_sound_iff.2 h))

theorem addMonomer_sound (x : ℕ) {t : TypedTerm} (h : SoundTerm typeOf t) :
    SoundTerm typeOf (t.addMonomer typeOf x) :=
  holds_sound_iff.1 (holds_addMonomer trivial (holds_sound_iff.2 h))

theorem addFactor_sound {pe : TypedExpression} (hpe : Sound typeOf pe)
    (htarget : InTarget typeOf pe) {t : TypedTerm} (h : SoundTerm typeOf t) :
    SoundTerm typeOf (addFactor typeOf pe t) := by
  have hfactor : (sound typeOf).factor pe := ⟨hpe, htarget⟩
  exact holds_sound_iff.1 (holds_addFactor pe hfactor t (holds_sound_iff.2 h))

theorem productTerm_sound {ptL ptR : TypedTerm} (hL : SoundTerm typeOf ptL)
    (hR : SoundTerm typeOf ptR) : SoundTerm typeOf (productTerm typeOf ptL ptR) :=
  holds_sound_iff.1 (holds_productTerm (holds_sound_iff.2 hL) (holds_sound_iff.2 hR))

theorem addBit_sound (e : BitExpression) {t : TypedTerm} (h : SoundTerm typeOf t) :
    SoundTerm typeOf (t.addBit typeOf e) := by
  cases e with
  | constant b =>
      refine addConstant_sound ?_ h
      cases b <;> exact FloatConstant.isPOT_one
  | lval x => exact addMonomer_sound x h

section Values

variable {ρ : ℕ → ℚ}

theorem addConstant_value (c : FloatConstant) (t : TypedTerm) :
    (t.addConstant c).value ρ = t.value ρ * c.toRat := by
  rw [value, erase_addConstant, Frontend.addConstant_value, value]

theorem addMonomer_value (hρ : Assigns typeOf ρ) (x : ℕ) (t : TypedTerm) :
    (t.addMonomer typeOf x).value ρ = t.value ρ * ρ x := by
  rw [value, erase_addMonomer, Frontend.addMonomer_value hρ.respects, value]

theorem addFactor_value (hρ : Assigns typeOf ρ) (pe : TypedExpression) (t : TypedTerm) :
    (addFactor typeOf pe t).value ρ = t.value ρ * pe.value ρ := by
  rw [value, erase_addFactor, Frontend.addFactor_value hρ.respects, value, TypedExpression.value]

theorem setConstant_value (c : FloatConstant) (t : TypedTerm) :
    (t.setConstant c).value ρ = c.toRat * ((t.monomerFactors.map ρ).prod *
      (t.polyFactors.map (TypedExpression.value ρ)).prod) := by
  cases t
  rw [value_eq, mul_assoc]
  rfl

end Values

end TypedTerm

/-! ### Sums -/

/-- The types that are asked of factors contain their values. -/
def TypesSound (typeOf : ℕ → FiniteType) (typeOfFactor : TypedExpression → Option FiniteType) :
    Prop :=
  ∀ pe τ, Sound typeOf pe → InTarget typeOf pe → typeOfFactor pe = some τ →
    ∀ ρ, Assigns typeOf ρ → τ.Contains (pe.value ρ)

variable {typeOfFactor : TypedExpression → Option FiniteType}

theorem contains_monomers {ρ : ℕ → ℚ} (hρ : Assigns typeOf ρ) (ms : List ℕ) {τ : FiniteType}
    {q : ℚ} (h : τ.Contains q) :
    (ms.foldl (fun toRet pm => TimesOperator.multiplyTypes toRet (typeOf pm)) τ).Contains
      (q * (ms.map ρ).prod) := by
  induction ms generalizing τ q with
  | nil =>
      rw [List.map_nil, List.prod_nil, mul_one]
      exact h
  | cons x ms ih =>
      rw [List.foldl_cons, List.map_cons, List.prod_cons, ← mul_assoc]
      exact ih (TimesOperator.contains_multiplyTypes h (hρ x))

theorem contains_factors (htypes : TypesSound typeOf typeOfFactor) {ρ : ℕ → ℚ}
    (hρ : Assigns typeOf ρ) {ps : List TypedExpression} (hps : ∀ p ∈ ps, Sound typeOf p)
    (htargets : ∀ p ∈ ps, InTarget typeOf p) {τ τ' : FiniteType} {q : ℚ} (h : τ.Contains q)
    (heq : ps.foldlM (fun toRet pe =>
      (typeOfFactor pe).map (TimesOperator.multiplyTypes toRet)) τ = some τ') :
    τ'.Contains (q * (ps.map (TypedExpression.value ρ)).prod) := by
  induction ps generalizing τ q with
  | nil =>
      cases heq
      rw [List.map_nil, List.prod_nil, mul_one]
      exact h
  | cons p ps ih =>
      rw [List.foldlM_cons] at heq
      obtain ⟨τ₁, hτ₁, hrest⟩ := Option.bind_eq_some_iff.1 heq
      obtain ⟨τp, hp, rfl⟩ := Option.map_eq_some_iff.1 hτ₁
      have hvalue := htypes p τp (hps p List.mem_cons_self) (htargets p List.mem_cons_self) hp ρ hρ
      rw [List.map_cons, List.prod_cons, ← mul_assoc]
      exact ih (fun p' hp' => hps p' (List.mem_cons_of_mem p hp'))
        (fun p' hp' => htargets p' (List.mem_cons_of_mem p hp'))
        (TimesOperator.contains_multiplyTypes h hvalue) hrest

/-- The type of a term contains its value. -/
theorem TypedTerm.getType_contains (htypes : TypesSound typeOf typeOfFactor) {t : TypedTerm}
    (ht : SoundTerm typeOf t) {τ : FiniteType} (h : t.getType typeOf typeOfFactor = some τ)
    {ρ : ℕ → ℚ} (hρ : Assigns typeOf ρ) : τ.Contains (t.value ρ) := by
  rw [TypedTerm.value_eq]
  exact contains_factors htypes hρ ht.factors ht.targets
    (contains_monomers hρ _ (FloatConstant.contains_getType ht.constant)) h

theorem TypedTerm.booleanInputs_sound {t : TypedTerm} (ht : SoundTerm typeOf t) :
    ∀ x ∈ t.booleanInputs typeOf, isBooleanLine typeOf x = true := by
  intro x hx
  rcases List.mem_append.1 hx with hx | hx
  · exact (List.mem_filter.1 hx).2
  · obtain ⟨p, hp, hxp⟩ := List.mem_flatMap.1 hx
    exact (ht.factors p hp).booleans x hxp

/-- What an operation that adds `v` makes of the sum `pe`. -/
structure Adds (typeOf : ℕ → FiniteType) (v : (ℕ → ℚ) → ℚ) (pe pe' : TypedExpression) : Prop where
  sound : Sound typeOf pe'
  target : pe'.targetType = pe.targetType
  value : ∀ ρ, pe'.value ρ = pe.value ρ + v ρ

theorem length_eraseTerms (ts : List TypedTerm) : (eraseTerms ts).length = ts.length := by
  rw [eraseTerms_eq_map, List.length_map]

namespace TypedExpression

theorem value_of_perm {ts us : List TypedTerm} (h : ts.Perm us) (ρ : ℕ → ℚ) (d : ℕ)
    (κ : FiniteType) (B : List ℕ) (T : Option FiniteType) :
    (mk ts d κ B T).value ρ = (us.map (TypedTerm.value ρ)).sum := by
  rw [value_eq, ← (h.map (TypedTerm.value ρ)).sum_eq]
  rfl

theorem searchTyped_insert_le {ts : List TypedTerm} {e : TypedTerm} (h : searchTyped ts e < 0) :
    (-(searchTyped ts e + 1)).toNat ≤ ts.length := by
  rw [← length_eraseTerms]
  exact binarySearch_insert_le (Nat.zero_le _) h

/-- `TermsList.add`. -/
theorem add_sound (htypes : TypesSound typeOf typeOfFactor) {pe pe' : TypedExpression}
    (hpe : Sound typeOf pe) {e : TypedTerm} (he : SoundTerm typeOf e)
    (h : pe.add typeOf typeOfFactor e = some pe') :
    Adds typeOf (fun ρ => e.value ρ) pe pe' := by
  obtain ⟨ts, d, κ, B, T⟩ := pe
  obtain ⟨type, htype, h⟩ := Option.bind_eq_some_iff.1 h
  simp only at h
  split at h
  · rename_i hbst
    cases h
    have hperm := List.perm_insertIdx e ts (searchTyped_insert_le hbst)
    have hmem : ∀ t ∈ ts.insertIdx (-(searchTyped ts e + 1)).toNat e, t = e ∨ t ∈ ts :=
      fun t ht => List.mem_cons.1 (hperm.mem_iff.1 ht)
    refine ⟨⟨fun t ht => ?_, fun t ht ρ hρ => ?_, fun x hx => ?_, fun t ht x hx => ?_⟩, rfl,
      fun ρ => ?_⟩
    · rcases hmem t ht with rfl | ht
      · exact he
      · exact hpe.terms t ht
    · rcases hmem t ht with rfl | ht
      · exact TypeHeirarchy.contains_looseUnion_right κ (TypedTerm.getType_contains htypes he htype hρ)
      · exact TypeHeirarchy.contains_looseUnion_left type (hpe.component t ht ρ hρ)
    · rcases List.mem_union_iff.1 hx with hx | hx
      · exact hpe.booleans x hx
      · exact TypedTerm.booleanInputs_sound he x hx
    · rcases hmem t ht with rfl | ht
      · exact List.mem_union_iff.2 (Or.inr hx)
      · exact List.mem_union_iff.2 (Or.inl (hpe.inputs t ht x hx))
    · rw [value_of_perm hperm, value_eq, List.map_cons, List.sum_cons, add_comm]
      rfl
  · cases h

/-- `TermsList.remove` leaves the caches. -/
theorem removeAt_sound {pe : TypedExpression} (hpe : Sound typeOf pe) {bst : ℤ}
    (hlt : bst.toNat < pe.terms.length) :
    Adds typeOf (fun ρ => -(pe.terms.getD bst.toNat .new).value ρ) pe (pe.removeAt bst) := by
  obtain ⟨ts, d, κ, B, T⟩ := pe
  change bst.toNat < ts.length at hlt
  have hperm := List.getElem_cons_eraseIdx_perm hlt
  have hsub : ∀ t ∈ ts.eraseIdx bst.toNat, t ∈ ts := fun t ht => List.mem_of_mem_eraseIdx ht
  refine ⟨⟨fun t ht => hpe.terms t (hsub t ht), fun t ht => hpe.component t (hsub t ht),
    hpe.booleans, fun t ht => hpe.inputs t (hsub t ht)⟩, rfl, fun ρ => ?_⟩
  have hvalue := value_of_perm hperm.symm ρ d κ B T
  rw [List.map_cons, List.sum_cons] at hvalue
  rw [hvalue, value_eq]
  change _ = _ + -TypedTerm.value ρ (ts.getD bst.toNat .new)
  rw [List.getD_eq_getElem _ _ hlt]
  exact (fun a b => by ring : ∀ a b : ℚ, b = a + b + -a) _ _

end TypedExpression

/-! ### Copies -/

/-- A copy has the value and no type of its own. -/
structure Copies (typeOf : ℕ → FiniteType) (pe pe' : TypedExpression) : Prop where
  sound : Sound typeOf pe'
  target : pe'.targetType = none
  value : ∀ ρ, pe'.value ρ = pe.value ρ

theorem Copies.inTarget {pe pe' : TypedExpression} (h : Copies typeOf pe pe') :
    InTarget typeOf pe' := by
  intro T hT
  rw [h.target] at hT
  cases hT

theorem duplicateTypedFactors_sound {ps ps' : List TypedExpression}
    (hps : ∀ p ∈ ps, ∀ p', p.duplicate typeOf typeOfFactor = some p' → Copies typeOf p p')
    (h : duplicateTypedFactors typeOf typeOfFactor ps = some ps') :
    List.Forall₂ (Copies typeOf) ps ps' := by
  induction ps generalizing ps' with
  | nil =>
      cases h
      exact .nil
  | cons p ps ih =>
      rw [duplicateTypedFactors] at h
      obtain ⟨p', hp', h⟩ := Option.bind_eq_some_iff.1 h
      obtain ⟨rest, hrest, rfl⟩ := Option.map_eq_some_iff.1 h
      exact .cons (hps p List.mem_cons_self p' hp')
        (ih (fun q hq => hps q (List.mem_cons_of_mem p hq)) hrest)

theorem prod_copies {ps ps' : List TypedExpression} (h : List.Forall₂ (Copies typeOf) ps ps')
    (ρ : ℕ → ℚ) : (ps'.map (TypedExpression.value ρ)).prod =
      (ps.map (TypedExpression.value ρ)).prod := by
  induction h with
  | nil => rfl
  | cons hp _ ih => rw [List.map_cons, List.prod_cons, List.map_cons, List.prod_cons, hp.value, ih]

theorem copies_sound {ps ps' : List TypedExpression} (h : List.Forall₂ (Copies typeOf) ps ps') :
    ∀ p ∈ ps', Sound typeOf p ∧ InTarget typeOf p := by
  induction h with
  | nil => exact fun p hp => absurd hp List.not_mem_nil
  | cons hp _ ih =>
      intro q hq
      rcases List.mem_cons.1 hq with rfl | hq
      · exact ⟨hp.sound, hp.inTarget⟩
      · exact ih q hq

/-- A copy of a term, given that for its factors. -/
theorem TypedTerm.duplicate_sound_of_factors {t t' : TypedTerm} (ht : SoundTerm typeOf t)
    (hps : ∀ p ∈ t.polyFactors, ∀ p', p.duplicate typeOf typeOfFactor = some p' →
      Copies typeOf p p')
    (h : t.duplicate typeOf typeOfFactor = some t') :
    SoundTerm typeOf t' ∧ t'.constant = t.constant ∧ t'.monomerFactors = t.monomerFactors ∧
      ∀ ρ, (t'.polyFactors.map (TypedExpression.value ρ)).prod =
        (t.polyFactors.map (TypedExpression.value ρ)).prod := by
  obtain ⟨c, ms, ps, d⟩ := t
  rw [TypedTerm.duplicate] at h
  obtain ⟨ps', hps', rfl⟩ := Option.map_eq_some_iff.1 h
  have hcopies := duplicateTypedFactors_sound hps hps'
  exact ⟨⟨ht.constant, fun p hp => (copies_sound hcopies p hp).1,
    fun p hp => (copies_sound hcopies p hp).2⟩, rfl, rfl, prod_copies hcopies⟩

theorem TypedTerm.value_of_copy {t t' : TypedTerm} (hconstant : t'.constant = t.constant)
    (hms : t'.monomerFactors = t.monomerFactors) {ρ : ℕ → ℚ}
    (hps : (t'.polyFactors.map (TypedExpression.value ρ)).prod =
      (t.polyFactors.map (TypedExpression.value ρ)).prod) : t'.value ρ = t.value ρ := by
  rw [value_eq, value_eq, hconstant, hms, hps]

/-- The loop of a copy, given that for the factors of the terms. -/
theorem duplicateTypedTerms_sound (htypes : TypesSound typeOf typeOfFactor) {ts : List TypedTerm}
    (hts : ∀ t ∈ ts, SoundTerm typeOf t)
    (hps : ∀ t ∈ ts, ∀ p ∈ t.polyFactors, ∀ p', p.duplicate typeOf typeOfFactor = some p' →
      Copies typeOf p p')
    {pe pe' : TypedExpression} (hpe : Sound typeOf pe)
    (h : duplicateTypedTerms typeOf typeOfFactor ts pe = some pe') :
    Adds typeOf (fun ρ => (ts.map (TypedTerm.value ρ)).sum) pe pe' := by
  induction ts generalizing pe with
  | nil =>
      cases h
      exact ⟨hpe, rfl, fun ρ => by rw [List.map_nil, List.sum_nil, add_zero]⟩
  | cons t ts ih =>
      rw [duplicateTypedTerms] at h
      obtain ⟨t', ht', h⟩ := Option.bind_eq_some_iff.1 h
      obtain ⟨pe₁, hpe₁, h⟩ := Option.bind_eq_some_iff.1 h
      obtain ⟨hsound, hconstant, hms, hfactors⟩ := TypedTerm.duplicate_sound_of_factors
        (hts t List.mem_cons_self) (hps t List.mem_cons_self) ht'
      have hadd := TypedExpression.add_sound htypes hpe hsound hpe₁
      have hrest := ih (fun u hu => hts u (List.mem_cons_of_mem t hu))
        (fun u hu => hps u (List.mem_cons_of_mem t hu)) hadd.sound h
      refine ⟨hrest.sound, hrest.target.trans hadd.target, fun ρ => ?_⟩
      rw [hrest.value, hadd.value, TypedTerm.value_of_copy hconstant hms (hfactors ρ),
        List.map_cons, List.sum_cons, add_assoc]

/-- By induction on the sums inside the terms. -/
theorem TypedExpression.duplicate_sound (htypes : TypesSound typeOf typeOfFactor)
    (pe : TypedExpression) : Sound typeOf pe →
      ∀ pe', pe.duplicate typeOf typeOfFactor = some pe' → Copies typeOf pe pe' := by
  induction pe using TypedExpression.induction with
  | h pe ih =>
      intro hpe pe' h
      obtain ⟨ts, d, κ, B, T⟩ := pe
      rw [TypedExpression.duplicate] at h
      have hadds := duplicateTypedTerms_sound htypes hpe.terms
        (fun t ht p hp => ih t ht p hp ((hpe.terms t ht).factors p hp)) (.nil none) h
      refine ⟨hadds.sound, hadds.target, fun ρ => ?_⟩
      rw [hadds.value, value_eq, value_eq]
      exact zero_add _

theorem TypedTerm.duplicate_sound (htypes : TypesSound typeOf typeOfFactor) {t t' : TypedTerm}
    (ht : SoundTerm typeOf t) (h : t.duplicate typeOf typeOfFactor = some t') :
    SoundTerm typeOf t' ∧ t'.constant = t.constant ∧ t'.monomerFactors = t.monomerFactors ∧
      ∀ ρ, (t'.polyFactors.map (TypedExpression.value ρ)).prod =
        (t.polyFactors.map (TypedExpression.value ρ)).prod :=
  duplicate_sound_of_factors ht
    (fun p hp => TypedExpression.duplicate_sound htypes p (ht.factors p hp)) h

/-! ### Multiples of terms -/

theorem getD_eraseTerms (ts : List TypedTerm) (i : ℕ) :
    (eraseTerms ts).getD i .new = (ts.getD i .new).erase := by
  rw [eraseTerms_eq_map]
  exact List.getD_map ts TypedTerm.new TypedTerm.erase

/-- A term that is found is a multiple of the same product. -/
theorem searchTyped_found {ts : List TypedTerm} {pt : TypedTerm} (h : 0 ≤ searchTyped ts pt) :
    (searchTyped ts pt).toNat < ts.length ∧
      (ts.getD (searchTyped ts pt).toNat .new).erase.compareTo pt.erase = 0 := by
  obtain ⟨hlt, hsign⟩ := binarySearch_found h
  change (searchTyped ts pt).toNat < (eraseTerms ts).length at hlt
  rw [length_eraseTerms] at hlt
  rw [← getD_eraseTerms]
  exact ⟨hlt, hsign⟩

/-- The search sees the product only. -/
theorem searchTerm_congr {ts : List PolynomialTerm} (hts : ∀ t ∈ ts, DyadicTerm t)
    {t u : PolynomialTerm} (ht : DyadicTerm t) (hu : DyadicTerm u) (h : t.compareTo u = 0) :
    searchTerm ts t = searchTerm ts u := by
  have hkey := (reflects_term ht hu).zero h
  refine binarySearch_congr fun i hi => ?_
  have hterm : DyadicTerm (ts.getD i .new) := by
    rw [List.getD_eq_getElem _ _ hi]
    exact hts _ (List.getElem_mem hi)
  have htsign := reflects_term hterm ht
  have husign := reflects_term hterm hu
  rw [hkey] at htsign
  exact ⟨htsign.neg_iff.trans husign.neg_iff.symm, htsign.pos_iff.trans husign.pos_iff.symm⟩

theorem searchTyped_congr {ts : List TypedTerm} (hts : ∀ t ∈ ts, SoundTerm typeOf t)
    {t u : TypedTerm} (ht : SoundTerm typeOf t) (hu : SoundTerm typeOf u)
    (h : t.erase.compareTo u.erase = 0) : searchTyped ts t = searchTyped ts u := by
  refine searchTerm_congr (fun t' ht' => ?_) ht.dyadic hu.dyadic h
  rw [eraseTerms_eq_map] at ht'
  obtain ⟨t, ht, rfl⟩ := List.mem_map.1 ht'
  exact (hts t ht).dyadic

namespace TypedExpression

/-- A product that is not there yet. -/
theorem addMultiple_new (htypes : TypesSound typeOf typeOfFactor) {multiple : FloatConstant}
    (hm : FloatConstant.isPOT multiple.den = true) {pt : TypedTerm} (hpt : SoundTerm typeOf pt)
    {pe pe' : TypedExpression} (hpe : Sound typeOf pe) {newTerm : TypedTerm}
    (hnew : pt.duplicate typeOf typeOfFactor = some newTerm)
    (h : pe.add typeOf typeOfFactor (newTerm.setConstant (multiple.multiply pt.constant)) =
      some pe') :
    Adds typeOf (fun ρ => multiple.toRat * pt.value ρ) pe pe' := by
  obtain ⟨hsound, -, hms, hfactors⟩ := TypedTerm.duplicate_sound htypes hpt hnew
  have hadd := add_sound htypes hpe
    (hsound.setConstant (FloatConstant.isPOT_multiply hm hpt.constant)) h
  refine ⟨hadd.sound, hadd.target, fun ρ => ?_⟩
  rw [hadd.value, TypedTerm.setConstant_value, hms, hfactors, TypedTerm.value_eq,
    FloatConstant.toRat_multiply]
  ring

/-- A product that is there: its term goes, and comes back with the sum of the two constants
unless that is zero. -/
theorem addMultiple_found (htypes : TypesSound typeOf typeOfFactor) {multiple : FloatConstant}
    (hm : FloatConstant.isPOT multiple.den = true) {pt : TypedTerm} (hpt : SoundTerm typeOf pt)
    {pe pe' : TypedExpression} (hpe : Sound typeOf pe) (hfound : 0 ≤ searchTyped pe.terms pt)
    {old newTerm : TypedTerm} (hold : pe.terms.getD (searchTyped pe.terms pt).toNat .new = old)
    (hnew : old.duplicate typeOf typeOfFactor = some newTerm) {again : ℤ}
    (hagain : searchTyped pe.terms old = again) {sum : FloatConstant}
    (hsum : (multiple.multiply pt.constant).add old.constant = sum)
    (h : (if sum.isZero then some (pe.removeAt again)
      else (pe.removeAt again).add typeOf typeOfFactor (newTerm.setConstant sum)) = some pe') :
    Adds typeOf (fun ρ => multiple.toRat * pt.value ρ) pe pe' := by
  obtain ⟨hlt, hsame⟩ := searchTyped_found hfound
  have holdSound : SoundTerm typeOf old := by
    rw [← hold, List.getD_eq_getElem _ _ hlt]
    exact hpe.terms _ (List.getElem_mem hlt)
  rw [hold] at hsame
  have hpot := FloatConstant.isPOT_multiply hm hpt.constant
  have hagainEq : searchTyped pe.terms pt = again := by
    rw [← hagain]
    exact (searchTyped_congr hpe.terms holdSound hpt hsame).symm
  rw [hagainEq] at hlt hold
  have hremove := removeAt_sound hpe hlt
  rw [hold] at hremove
  -- the two terms are multiples of one product
  have hproduct : ∀ ρ : ℕ → ℚ, pt.value ρ = pt.constant.toRat *
      ((old.monomerFactors.map ρ).prod * (old.polyFactors.map (value ρ)).prod) := by
    intro ρ
    obtain ⟨-, hms, hfactors⟩ := product_eq_of_compareTo ρ holdSound.dyadic hpt.dyadic hsame
    rw [TypedTerm.polyFactors_erase, TypedTerm.polyFactors_erase, factorsValue_eq_prod,
      factorsValue_eq_prod, List.map_map, List.map_map] at hfactors
    rw [TypedTerm.monomerFactors_erase, TypedTerm.monomerFactors_erase] at hms
    rw [TypedTerm.value_eq, hms, mul_assoc]
    exact congrArg _ (congrArg _ hfactors.symm)
  have hsumValue : sum.toRat = multiple.toRat * pt.constant.toRat + old.constant.toRat := by
    rw [← hsum, FloatConstant.toRat_add hpot holdSound.constant, FloatConstant.toRat_multiply]
  split at h
  · rename_i hzero
    cases h
    refine ⟨hremove.sound, hremove.target, fun ρ => ?_⟩
    rw [FloatConstant.toRat_of_isZero hzero] at hsumValue
    rw [hremove.value, hproduct, TypedTerm.value_eq]
    linear_combination ((old.monomerFactors.map ρ).prod *
      (old.polyFactors.map (value ρ)).prod) * hsumValue
  · obtain ⟨hsound, -, hms, hfactors⟩ := TypedTerm.duplicate_sound htypes holdSound hnew
    have hsumPot : FloatConstant.isPOT sum.den = true := by
      rw [← hsum]
      exact FloatConstant.isPOT_add hpot holdSound.constant
    have hadd := add_sound htypes hremove.sound (hsound.setConstant hsumPot) h
    refine ⟨hadd.sound, hadd.target.trans hremove.target, fun ρ => ?_⟩
    rw [hadd.value, hremove.value, TypedTerm.setConstant_value, hms, hfactors, hproduct,
      TypedTerm.value_eq, hsumValue]
    ring

theorem addMultipleOfProduct_sound (htypes : TypesSound typeOf typeOfFactor)
    {multiple : FloatConstant} (hm : FloatConstant.isPOT multiple.den = true) {pt : TypedTerm}
    (hpt : SoundTerm typeOf pt) {pe pe' : TypedExpression} (hpe : Sound typeOf pe)
    (h : pe.addMultipleOfProduct typeOf typeOfFactor multiple pt = some pe') :
    Adds typeOf (fun ρ => multiple.toRat * pt.value ρ) pe pe' := by
  rw [addMultipleOfProduct] at h
  simp only at h
  split at h
  · rename_i hzero
    cases h
    have hvalue := FloatConstant.toRat_of_isZero hzero
    rw [FloatConstant.toRat_multiply] at hvalue
    refine ⟨hpe, rfl, fun ρ => ?_⟩
    rw [TypedTerm.value_eq, mul_assoc, ← mul_assoc, hvalue, zero_mul, add_zero]
  · split at h
    · rename_i hfound
      split at h
      · obtain ⟨newTerm, hnew, h⟩ := Option.bind_eq_some_iff.1 h
        exact addMultiple_found htypes hm hpt hpe hfound rfl hnew rfl rfl h
      · cases h
    · obtain ⟨newTerm, hnew, h⟩ := Option.bind_eq_some_iff.1 h
      exact addMultiple_new htypes hm hpt hpe hnew h

theorem addMultiplesOfTerms_sound_of_forall {ts : List TypedTerm} {multiple : FloatConstant}
    (h : ∀ t ∈ ts, ∀ pe pe', Sound typeOf pe →
      addMultiplesOfTerm typeOf typeOfFactor multiple t pe = some pe' →
        Adds typeOf (fun ρ => multiple.toRat * t.value ρ) pe pe')
    {pe pe' : TypedExpression} (hpe : Sound typeOf pe)
    (heq : addMultiplesOfTerms typeOf typeOfFactor multiple ts pe = some pe') :
    Adds typeOf (fun ρ => multiple.toRat * (ts.map (TypedTerm.value ρ)).sum) pe pe' := by
  induction ts generalizing pe with
  | nil =>
      cases heq
      exact ⟨hpe, rfl, fun ρ => by rw [List.map_nil, List.sum_nil, mul_zero, add_zero]⟩
  | cons t ts ih =>
      rw [addMultiplesOfTerms] at heq
      obtain ⟨pe₁, hpe₁, heq⟩ := Option.bind_eq_some_iff.1 heq
      have hadd := h t List.mem_cons_self pe pe₁ hpe hpe₁
      have hrest := ih (fun u hu => h u (List.mem_cons_of_mem t hu)) hadd.sound heq
      refine ⟨hrest.sound, hrest.target.trans hadd.target, fun ρ => ?_⟩
      rw [hrest.value, hadd.value, List.map_cons, List.sum_cons]
      ring

/-- A term, given that for the terms of its factors: it is a product, or nothing but a sum. -/
theorem addMultiplesOfTerm_sound_of_factors (htypes : TypesSound typeOf typeOfFactor)
    {t : TypedTerm} (ht : SoundTerm typeOf t)
    (h : ∀ p ∈ t.polyFactors, ∀ u ∈ p.terms, ∀ multiple pe pe',
      FloatConstant.isPOT multiple.den = true → Sound typeOf pe →
        addMultiplesOfTerm typeOf typeOfFactor multiple u pe = some pe' →
          Adds typeOf (fun ρ => multiple.toRat * u.value ρ) pe pe')
    {multiple : FloatConstant} (hm : FloatConstant.isPOT multiple.den = true)
    {pe pe' : TypedExpression} (hpe : Sound typeOf pe)
    (heq : addMultiplesOfTerm typeOf typeOfFactor multiple t pe = some pe') :
    Adds typeOf (fun ρ => multiple.toRat * t.value ρ) pe pe' := by
  obtain ⟨c, ms, ps, d⟩ := t
  match ms, ps, ht, h with
  -- a bare factor: its terms are added one by one, with the product of the constants
  | [], [.mk us d' κ B T], ht, h =>
      have hm' := FloatConstant.isPOT_multiply hm ht.constant
      rw [addMultiplesOfTerm, addMultiplesOfSum] at heq
      have hadds := addMultiplesOfTerms_sound_of_forall
        (fun u hu pe₁ pe₂ => h _ List.mem_cons_self u hu _ pe₁ pe₂ hm') hpe heq
      refine ⟨hadds.sound, hadds.target, fun ρ => ?_⟩
      have hvalue : TypedTerm.value ρ (.mk c [] [.mk us d' κ B T] d) =
          c.toRat * (us.map (TypedTerm.value ρ)).sum := by
        rw [TypedTerm.value_eq]
        change c.toRat * 1 * ((mk us d' κ B T).value ρ * 1) = _
        rw [value_eq, mul_one, mul_one]
        rfl
      rw [hadds.value, hvalue]
      change _ + (multiple.multiply c).toRat * _ = _
      rw [FloatConstant.toRat_multiply, mul_assoc]
      rfl
  -- every other term goes in as it is
  | [], [], ht, _ =>
      rw [addMultiplesOfTerm] at heq
      exact addMultipleOfProduct_sound htypes hm ht hpe heq
  | x :: ms, ps, ht, _ =>
      rw [addMultiplesOfTerm] at heq
      exact addMultipleOfProduct_sound htypes hm ht hpe heq
  | [], p :: q :: ps, ht, _ =>
      rw [addMultiplesOfTerm] at heq
      exact addMultipleOfProduct_sound htypes hm ht hpe heq

/-- By induction on the sums inside the terms. -/
theorem addMultiplesOfTerm_sound_of_mem (htypes : TypesSound typeOf typeOfFactor)
    (p : TypedExpression) : Sound typeOf p → ∀ t ∈ p.terms, ∀ multiple pe pe',
      FloatConstant.isPOT multiple.den = true → Sound typeOf pe →
        addMultiplesOfTerm typeOf typeOfFactor multiple t pe = some pe' →
          Adds typeOf (fun ρ => multiple.toRat * t.value ρ) pe pe' := by
  induction p using TypedExpression.induction with
  | h p ih =>
      intro hp t ht multiple pe pe' hm hpe h
      have hterm := hp.terms t ht
      exact addMultiplesOfTerm_sound_of_factors htypes hterm
        (fun q hq => ih t ht q hq (hterm.factors q hq)) hm hpe h

theorem addMultiplesOfTerm_sound (htypes : TypesSound typeOf typeOfFactor) {t : TypedTerm}
    (ht : SoundTerm typeOf t) {multiple : FloatConstant}
    (hm : FloatConstant.isPOT multiple.den = true) {pe pe' : TypedExpression}
    (hpe : Sound typeOf pe)
    (h : addMultiplesOfTerm typeOf typeOfFactor multiple t pe = some pe') :
    Adds typeOf (fun ρ => multiple.toRat * t.value ρ) pe pe' :=
  addMultiplesOfTerm_sound_of_factors htypes ht
    (fun p hp => addMultiplesOfTerm_sound_of_mem htypes p (ht.factors p hp)) hm hpe h

end TypedExpression

/-! ### Substitution -/

/-- Variables that have a value in `vals` have it in `ρ`. -/
def Agrees (vals : Values) (ρ : ℕ → ℚ) : Prop := ∀ x b, vals x = some b → ρ x = if b then 1 else 0

theorem evaluateMonomers_sound (vals : Values) (ms : List ℕ) {toRet : TypedTerm}
    (h : SoundTerm typeOf toRet) : SoundTerm typeOf (evaluateMonomers typeOf vals ms toRet) := by
  induction ms generalizing toRet with
  | nil => exact h
  | cons x ms ih =>
      rw [evaluateMonomers]
      split
      · rename_i b _
        refine ih (TypedTerm.addConstant_sound ?_ h)
        cases b <;> exact FloatConstant.isPOT_one
      · exact ih (TypedTerm.addMonomer_sound x h)

theorem evaluateMonomers_value {vals : Values} {ρ : ℕ → ℚ} (hρ : Assigns typeOf ρ)
    (hvals : Agrees vals ρ) (ms : List ℕ) (toRet : TypedTerm) :
    (evaluateMonomers typeOf vals ms toRet).value ρ = toRet.value ρ * (ms.map ρ).prod := by
  induction ms generalizing toRet with
  | nil => rw [evaluateMonomers, List.map_nil, List.prod_nil, mul_one]
  | cons x ms ih =>
      rw [evaluateMonomers, List.map_cons, List.prod_cons, ← mul_assoc]
      split
      · rename_i b hb
        have hbit : (if b then FloatConstant.ONE else .ZERO).toRat = ρ x := by
          rw [hvals x b hb]
          cases b
          · exact FloatConstant.toRat_ZERO
          · exact FloatConstant.toRat_ONE
        rw [ih, TypedTerm.addConstant_value, hbit]
      · rw [ih, TypedTerm.addMonomer_value hρ]

/-- What substitution leaves of a sum. -/
structure Evaluates (typeOf : ℕ → FiniteType) (vals : Values) (pe pe' : TypedExpression) :
    Prop where
  sound : Sound typeOf pe'
  target : pe'.targetType = none
  value : ∀ ρ, Assigns typeOf ρ → Agrees vals ρ → pe'.value ρ = pe.value ρ

theorem Evaluates.inTarget {vals : Values} {pe pe' : TypedExpression}
    (h : Evaluates typeOf vals pe pe') : InTarget typeOf pe' := by
  intro T hT
  rw [h.target] at hT
  cases hT

theorem evaluateTypedFactors_sound {vals : Values} {ps : List TypedExpression}
    (hps : ∀ p ∈ ps, ∀ p', p.evaluate typeOf typeOfFactor vals = some p' →
      Evaluates typeOf vals p p')
    {toRet toRet' : TypedTerm} (htoRet : SoundTerm typeOf toRet)
    (h : evaluateTypedFactors typeOf typeOfFactor vals ps toRet = some toRet') :
    SoundTerm typeOf toRet' ∧ ∀ ρ, Assigns typeOf ρ → Agrees vals ρ →
      toRet'.value ρ = toRet.value ρ * (ps.map (TypedExpression.value ρ)).prod := by
  induction ps generalizing toRet with
  | nil =>
      cases h
      exact ⟨htoRet, fun ρ _ _ => by rw [List.map_nil, List.prod_nil, mul_one]⟩
  | cons p ps ih =>
      rw [evaluateTypedFactors] at h
      obtain ⟨p', hp', h⟩ := Option.bind_eq_some_iff.1 h
      have hp := hps p List.mem_cons_self p' hp'
      obtain ⟨hsound, hvalue⟩ := ih (fun q hq => hps q (List.mem_cons_of_mem p hq))
        (TypedTerm.addFactor_sound hp.sound hp.inTarget htoRet) h
      refine ⟨hsound, fun ρ hρ hvals => ?_⟩
      rw [hvalue ρ hρ hvals, TypedTerm.addFactor_value hρ, hp.value ρ hρ hvals, List.map_cons,
        List.prod_cons, mul_assoc]

/-- A term, given that for its factors. -/
theorem TypedTerm.evaluate_sound {vals : Values} {t t' : TypedTerm} (ht : SoundTerm typeOf t)
    (hps : ∀ p ∈ t.polyFactors, ∀ p', p.evaluate typeOf typeOfFactor vals = some p' →
      Evaluates typeOf vals p p')
    (h : t.evaluate typeOf typeOfFactor vals = some t') :
    SoundTerm typeOf t' ∧ ∀ ρ, Assigns typeOf ρ → Agrees vals ρ → t'.value ρ = t.value ρ := by
  obtain ⟨c, ms, ps, d⟩ := t
  rw [TypedTerm.evaluate] at h
  obtain ⟨toRet, htoRet, rfl⟩ := Option.map_eq_some_iff.1 h
  obtain ⟨hsound, hvalue⟩ := evaluateTypedFactors_sound hps
    (evaluateMonomers_sound vals ms .new) htoRet
  refine ⟨addConstant_sound ht.constant hsound, fun ρ hρ hvals => ?_⟩
  have hnew : TypedTerm.new.value ρ = 1 := by
    rw [value_eq]
    exact (mul_one _).trans ((mul_one _).trans FloatConstant.toRat_ONE)
  rw [addConstant_value, hvalue ρ hρ hvals, evaluateMonomers_value hρ hvals, hnew, value_eq,
    one_mul]
  exact (mul_comm _ _).trans (mul_assoc _ _ _).symm

theorem evaluateTypedTerms_sound (htypes : TypesSound typeOf typeOfFactor) {vals : Values}
    {ts : List TypedTerm} (hts : ∀ t ∈ ts, SoundTerm typeOf t)
    (hps : ∀ t ∈ ts, ∀ p ∈ t.polyFactors, ∀ p', p.evaluate typeOf typeOfFactor vals = some p' →
      Evaluates typeOf vals p p')
    {toRet toRet' : TypedExpression} (htoRet : Sound typeOf toRet)
    (h : evaluateTypedTerms typeOf typeOfFactor vals ts toRet = some toRet') :
    Sound typeOf toRet' ∧ ∀ ρ, Assigns typeOf ρ → Agrees vals ρ →
      toRet'.value ρ = toRet.value ρ + (ts.map (TypedTerm.value ρ)).sum := by
  induction ts generalizing toRet with
  | nil =>
      cases h
      exact ⟨htoRet, fun ρ _ _ => by rw [List.map_nil, List.sum_nil, add_zero]⟩
  | cons t ts ih =>
      rw [evaluateTypedTerms] at h
      obtain ⟨t', ht', h⟩ := Option.bind_eq_some_iff.1 h
      obtain ⟨next, hnext, h⟩ := Option.bind_eq_some_iff.1 h
      obtain ⟨hterm, hvalue⟩ := TypedTerm.evaluate_sound (hts t List.mem_cons_self)
        (hps t List.mem_cons_self) ht'
      have hone : FloatConstant.isPOT FloatConstant.ONE.den = true := FloatConstant.isPOT_one
      have hadd := TypedExpression.addMultiplesOfTerm_sound htypes hterm hone htoRet hnext
      obtain ⟨hsound, hrest⟩ := ih (fun u hu => hts u (List.mem_cons_of_mem t hu))
        (fun u hu => hps u (List.mem_cons_of_mem t hu)) hadd.sound h
      refine ⟨hsound, fun ρ hρ hvals => ?_⟩
      rw [hrest ρ hρ hvals, hadd.value, hvalue ρ hρ hvals, FloatConstant.toRat_ONE, one_mul,
        List.map_cons, List.sum_cons, add_assoc]

/-- By induction on the sums inside the terms. -/
theorem TypedExpression.evaluate_sound (htypes : TypesSound typeOf typeOfFactor) (vals : Values)
    (pe : TypedExpression) : Sound typeOf pe →
      ∀ pe', pe.evaluate typeOf typeOfFactor vals = some pe' → Evaluates typeOf vals pe pe' := by
  induction pe using TypedExpression.induction with
  | h pe ih =>
      intro hpe pe' h
      obtain ⟨ts, d, κ, B, T⟩ := pe
      rw [TypedExpression.evaluate] at h
      obtain ⟨toRet, htoRet, h⟩ := Option.bind_eq_some_iff.1 h
      obtain ⟨hsound, hvalue⟩ := evaluateTypedTerms_sound htypes hpe.terms
        (fun t ht p hp => ih t ht p hp ((hpe.terms t ht).factors p hp)) (.nil none) htoRet
      have hcopy := duplicate_sound htypes toRet hsound pe' h
      refine ⟨hcopy.sound, hcopy.target, fun ρ hρ hvals => ?_⟩
      rw [hcopy.value, hvalue ρ hρ hvals, value_eq, value_eq]
      exact zero_add _

/-! ### Types -/

/-- Among all assignments is that of any bits. -/
theorem exists_assignment {ρ : ℕ → ℚ} : ∀ {xs : List ℕ}, (∀ x ∈ xs, ρ x = 0 ∨ ρ x = 1) →
    ∃ vals ∈ assignments xs, Agrees vals ρ
  | [], _ => ⟨fun _ => none, List.mem_singleton_self _, fun _ _ h => nomatch h⟩
  | x :: xs, h => by
      obtain ⟨vals, hmem, hvals⟩ := exists_assignment fun y hy => h y (List.mem_cons_of_mem x hy)
      obtain ⟨b, hb⟩ : ∃ b : Bool, ρ x = if b then 1 else 0 := by
        rcases h x List.mem_cons_self with hx | hx
        · exact ⟨false, hx⟩
        · exact ⟨true, hx⟩
      refine ⟨fun y => if y = x then some b else vals y, ?_, fun y b' hy => ?_⟩
      · refine List.mem_flatMap.2 ⟨b, ?_, List.mem_map.2 ⟨vals, hmem, rfl⟩⟩
        cases b
        · exact List.mem_cons_self
        · exact List.mem_cons_of_mem _ List.mem_cons_self
      · simp only at hy
        split at hy
        · rename_i hyx
          cases hy
          rw [hyx, hb]
        · exact hvals y b' hy

/-- The union contains what was found before, and the type of every sum that is left. -/
theorem exhaust_contains {pe : TypedExpression} {vs : List Values} {found out : Option FiniteType}
    (h : exhaust typeOf typeOfFactor pe vs found = some out) :
    (∀ τ₀, found = some τ₀ → ∃ τ, out = some τ ∧ ∀ q, τ₀.Contains q → τ.Contains q) ∧
      ∀ vals ∈ vs, ∃ localEval result τ, pe.evaluate typeOf typeOfFactor vals = some localEval ∧
        typeOfFactor localEval = some result ∧ out = some τ ∧
          ∀ q, result.Contains q → τ.Contains q := by
  induction vs generalizing found with
  | nil =>
      cases h
      exact ⟨fun τ₀ hτ₀ => ⟨τ₀, hτ₀, fun _ hq => hq⟩, fun _ hv => absurd hv List.not_mem_nil⟩
  | cons vals rest ih =>
      rw [exhaust] at h
      obtain ⟨localEval, heval, h⟩ := Option.bind_eq_some_iff.1 h
      obtain ⟨result, hresult, h⟩ := Option.bind_eq_some_iff.1 h
      obtain ⟨hfound, hrest⟩ := ih h
      cases found with
      | none =>
          obtain ⟨τ, hτ, hcontains⟩ := hfound result rfl
          refine ⟨fun _ h => (nomatch h), fun v hv => ?_⟩
          rcases List.mem_cons.1 hv with rfl | hv
          · exact ⟨localEval, result, τ, heval, hresult, hτ, hcontains⟩
          · exact hrest v hv
      | some found =>
          obtain ⟨τ, hτ, hcontains⟩ := hfound _ rfl
          refine ⟨fun τ₀ h => ⟨τ, hτ, fun q hq => hcontains q ?_⟩, fun v hv => ?_⟩
          · cases h
            exact TypeHeirarchy.contains_looseUnion_left result hq
          · rcases List.mem_cons.1 hv with rfl | hv
            · exact ⟨localEval, result, τ, heval, hresult, hτ, fun q hq =>
                hcontains q (TypeHeirarchy.contains_looseUnion_right found hq)⟩
            · exact hrest v hv

theorem contains_componentType {pe : TypedExpression} (hpe : Sound typeOf pe) {ρ : ℕ → ℚ}
    (hρ : Assigns typeOf ρ) :
    (PlusOperator.sumTypes pe.terms.length pe.componentType).Contains (pe.value ρ) := by
  have hsum := PlusOperator.contains_sumTypes (A := pe.componentType)
    (pe.terms.map (TypedTerm.value ρ)) fun q hq => by
      obtain ⟨t, ht, rfl⟩ := List.mem_map.1 hq
      exact hpe.component t ht ρ hρ
  rw [List.length_map] at hsum
  rw [TypedExpression.value_eq]
  exact hsum

/-- A type that `getType` returns contains the value. -/
theorem getType_contains (fuel : ℕ) : TypesSound typeOf (TypedExpression.getType typeOf fuel) := by
  induction fuel with
  | zero =>
      intro pe τ _ _ h
      cases h
  | succ fuel ih =>
      intro pe τ hpe htarget h ρ hρ
      rw [TypedExpression.getType] at h
      split at h
      · rename_i T hT
        cases h
        exact htarget _ hT ρ hρ
      · split at h
        · obtain ⟨out, hout, h⟩ := Option.bind_eq_some_iff.1 h
          -- the values of the boolean variables are one of the assignments
          obtain ⟨vals, hmem, hvals⟩ := exists_assignment fun x hx =>
            hρ.respects x (hpe.booleans x hx)
          obtain ⟨localEval, result, τ', heval, hresult, hτ', hcontains⟩ :=
            (exhaust_contains hout).2 vals hmem
          have hlocal := TypedExpression.evaluate_sound ih vals pe hpe localEval heval
          have hvalue := ih localEval result hlocal.sound hlocal.inTarget hresult ρ hρ
          rw [hlocal.value ρ hρ hvals] at hvalue
          rw [hτ'] at h
          cases h
          exact hcontains _ hvalue
        · cases h
          exact contains_componentType hpe hρ

end Soundness

end Pepper.Frontend
