import Pepper.Frontend.TypeInference

/-!
# Substitution does not fail

Main result: a sum that is sound has a type (`getType_returns`). Substitution of all boolean
variables builds exact sums (`evaluate_returns`), on which no operation meets a collision, and
which are `Closed`: nothing boolean is left in them, so that their own types are found without
another substitution.
-/

set_option autoImplicit false

namespace Pepper.Frontend

open Pepper.Foundations.SortedSearch

/-! ## Closed sums -/

mutual

/-- A product without boolean variables. -/
inductive ClosedTerm (typeOf : ℕ → FiniteType) : TypedTerm → Prop
  | intro {t : TypedTerm} (lines : ∀ x ∈ t.monomerFactors, isBooleanLine typeOf x = false)
      (factors : ∀ p ∈ t.polyFactors, Closed typeOf p) : ClosedTerm typeOf t

/-- A sum without boolean variables that is not that of a bit string. -/
inductive Closed (typeOf : ℕ → FiniteType) : TypedExpression → Prop
  | intro {pe : TypedExpression} (terms : ∀ t ∈ pe.terms, ClosedTerm typeOf t)
      (noInputs : pe.booleanInputs = []) (target : pe.targetType = none) : Closed typeOf pe

end

section Closed

variable {typeOf : ℕ → FiniteType} {typeOfFactor : TypedExpression → Option FiniteType}

theorem ClosedTerm.lines {t : TypedTerm} (h : ClosedTerm typeOf t) :
    ∀ x ∈ t.monomerFactors, isBooleanLine typeOf x = false := by
  obtain ⟨hlines, -⟩ := h
  exact hlines

theorem ClosedTerm.factors {t : TypedTerm} (h : ClosedTerm typeOf t) :
    ∀ p ∈ t.polyFactors, Closed typeOf p := by
  obtain ⟨-, hfactors⟩ := h
  exact hfactors

theorem Closed.terms {pe : TypedExpression} (h : Closed typeOf pe) :
    ∀ t ∈ pe.terms, ClosedTerm typeOf t := by
  obtain ⟨hterms, -, -⟩ := h
  exact hterms

theorem Closed.noInputs {pe : TypedExpression} (h : Closed typeOf pe) : pe.booleanInputs = [] := by
  obtain ⟨-, hnoInputs, -⟩ := h
  exact hnoInputs

theorem Closed.target {pe : TypedExpression} (h : Closed typeOf pe) : pe.targetType = none := by
  obtain ⟨-, -, htarget⟩ := h
  exact htarget

theorem Closed.nil : Closed typeOf .new := ⟨fun _ h => absurd h List.not_mem_nil, rfl, rfl⟩

theorem ClosedTerm.setConstant {t : TypedTerm} (h : ClosedTerm typeOf t) (c : FloatConstant) :
    ClosedTerm typeOf (t.setConstant c) := by
  cases t
  exact ⟨h.lines, h.factors⟩

theorem ClosedTerm.booleanInputs {t : TypedTerm} (h : ClosedTerm typeOf t) :
    t.booleanInputs typeOf = [] := by
  refine List.append_eq_nil_iff.2 ⟨List.filter_eq_nil_iff.2 fun x hx => ?_,
    List.flatMap_eq_nil_iff.2 fun p hp => (h.factors p hp).noInputs⟩
  rw [h.lines x hx]
  exact Bool.false_ne_true

namespace PartsProperty

/-- To be closed is a property of the parts, too. -/
def closed (typeOf : ℕ → FiniteType) : PartsProperty where
  constant _ := True
  line x := isBooleanLine typeOf x = false
  factor p := Closed typeOf p
  zero := trivial
  multiply _ _ _ _ := trivial
  constants _ _ _ _ := trivial
  lines _ hp t ht := (hp.terms t ht).lines
  factors _ hp t ht := (hp.terms t ht).factors

theorem holds_closed_iff {t : TypedTerm} : (closed typeOf).Holds t ↔ ClosedTerm typeOf t :=
  ⟨fun h => ⟨h.lines, h.factors⟩, fun h => ⟨trivial, h.lines, h.factors⟩⟩

end PartsProperty

/-- Closed sums have a type. -/
def AnswersClosed (typeOf : ℕ → FiniteType) (typeOfFactor : TypedExpression → Option FiniteType) :
    Prop :=
  ∀ p, Closed typeOf p → ∃ τ, typeOfFactor p = some τ

/-- An operation returns a closed sum that is `q` without its types. -/
def Returns (typeOf : ℕ → FiniteType) (op : Option TypedExpression) (q : PolynomialExpression) :
    Prop :=
  ∃ pe, op = some pe ∧ pe.erase = q ∧ Closed typeOf pe

theorem ClosedTerm.getType (hanswers : AnswersClosed typeOf typeOfFactor) {t : TypedTerm}
    (h : ClosedTerm typeOf t) : ∃ τ, t.getType typeOf typeOfFactor = some τ := by
  have hfactors : ∀ (ps : List TypedExpression) (τ : FiniteType), (∀ p ∈ ps, Closed typeOf p) →
      ∃ τ', ps.foldlM (fun toRet pe =>
        (typeOfFactor pe).map (TimesOperator.multiplyTypes toRet)) τ = some τ' := by
    intro ps
    induction ps with
    | nil => exact fun τ _ => ⟨τ, rfl⟩
    | cons p ps ih =>
        intro τ hps
        obtain ⟨τp, hτp⟩ := hanswers p (hps p List.mem_cons_self)
        rw [List.foldlM_cons, hτp]
        exact ih _ fun q hq => hps q (List.mem_cons_of_mem p hq)
  exact hfactors t.polyFactors _ h.factors

namespace TypedExpression

theorem exact_of_mem {pe : TypedExpression} (h : SortedTerms pe.erase.terms) {t : TypedTerm}
    (ht : t ∈ pe.terms) : ExactTerm t.erase := by
  refine h.terms t.erase ?_
  rw [terms_erase]
  exact List.mem_map_of_mem ht

theorem exact_factor {t : TypedTerm} (h : ExactTerm t.erase) {p : TypedExpression}
    (hp : p ∈ t.polyFactors) : Exact p.erase := by
  refine h.factors p.erase ?_
  rw [TypedTerm.polyFactors_erase]
  exact List.mem_map_of_mem hp

/-- `add` is the `add` without types. -/
theorem add_returns (hanswers : AnswersClosed typeOf typeOfFactor) {pe : TypedExpression}
    (hpe : Closed typeOf pe) (hsorted : SortedTerms pe.erase.terms) {e : TypedTerm}
    (he : ClosedTerm typeOf e) (hexact : ExactTerm e.erase) {q : PolynomialExpression}
    (h : pe.erase.add e.erase = some q) : Returns typeOf (pe.add typeOf typeOfFactor e) q := by
  obtain ⟨ts, d, κ, B, T⟩ := pe
  obtain ⟨τ, hτ⟩ := he.getType hanswers
  obtain ⟨-, hinsert, -⟩ := binarySearch_spec hsorted hexact
  obtain ⟨ts', hts', rfl⟩ := Option.map_eq_some_iff.1 h
  change insertTerm e.erase (mk ts d κ B T).erase.terms = some ts' at hts'
  rw [hinsert] at hts'
  rw [Returns, add, hτ, Option.bind_some]
  simp only
  split at hts'
  · rename_i hbst
    have hbst' : searchTyped ts e < 0 := hbst
    cases hts'
    rw [if_pos hbst']
    refine ⟨_, rfl, ?_, fun t ht => ?_, ?_, hpe.target⟩
    · rw [erase, eraseTerms_eq_map, List.map_insertIdx, ← eraseTerms_eq_map,
        TypedTerm.degree_erase]
      rfl
    · rcases List.mem_cons.1 ((List.perm_insertIdx e ts (searchTyped_insert_le hbst')).mem_iff.1 ht)
        with rfl | ht
      · exact he
      · exact hpe.terms t ht
    · have hnoInputs : B = [] := hpe.noInputs
      rw [booleanInputs, he.booleanInputs, hnoInputs]
      rfl
  · cases hts'

theorem removeAt_closed {pe : TypedExpression} (h : Closed typeOf pe) (bst : ℤ) :
    Closed typeOf (pe.removeAt bst) := by
  cases pe
  exact ⟨fun t ht => h.terms t (List.mem_of_mem_eraseIdx ht), h.noInputs, h.target⟩

end TypedExpression

/-! ## Copies -/

/-- The copy of an exact closed sum is the sum. -/
def CopiesExactly (typeOf : ℕ → FiniteType) (typeOfFactor : TypedExpression → Option FiniteType)
    (p : TypedExpression) : Prop :=
  Returns typeOf (p.duplicate typeOf typeOfFactor) p.erase

theorem duplicateTypedFactors_returns {ps : List TypedExpression}
    (h : ∀ p ∈ ps, CopiesExactly typeOf typeOfFactor p) :
    ∃ ps', duplicateTypedFactors typeOf typeOfFactor ps = some ps' ∧
      ps'.map TypedExpression.erase = ps.map TypedExpression.erase ∧
        ∀ p ∈ ps', Closed typeOf p := by
  induction ps with
  | nil => exact ⟨[], rfl, rfl, fun _ h => absurd h List.not_mem_nil⟩
  | cons p ps ih =>
      obtain ⟨p', hp', herase, hclosed⟩ := h p List.mem_cons_self
      obtain ⟨ps', hps', heraseRest, hclosedRest⟩ :=
        ih fun q hq => h q (List.mem_cons_of_mem p hq)
      refine ⟨p' :: ps', ?_, ?_, fun q hq => ?_⟩
      · rw [duplicateTypedFactors, hp', Option.bind_some, hps', Option.map_some]
      · rw [List.map_cons, List.map_cons, herase, heraseRest]
      · rcases List.mem_cons.1 hq with rfl | hq
        · exact hclosed
        · exact hclosedRest q hq

theorem TypedTerm.duplicate_returns_of_factors {t : TypedTerm} (ht : ClosedTerm typeOf t)
    (h : ∀ p ∈ t.polyFactors, CopiesExactly typeOf typeOfFactor p) :
    ∃ t', t.duplicate typeOf typeOfFactor = some t' ∧ t'.erase = t.erase ∧
      ClosedTerm typeOf t' := by
  obtain ⟨c, ms, ps, d⟩ := t
  obtain ⟨ps', hps', herase, hclosed⟩ := duplicateTypedFactors_returns h
  refine ⟨mk c ms ps' d, ?_, ?_, ht.lines, hclosed⟩
  · have hps : duplicateTypedFactors typeOf typeOfFactor ps = some ps' := hps'
    rw [TypedTerm.duplicate, hps, Option.map_some]
  · rw [erase, erase, eraseFactors_eq_map, eraseFactors_eq_map, herase]
    rfl

/-- The loop of a copy: the terms go behind each other. -/
theorem duplicateTypedTerms_returns (hanswers : AnswersClosed typeOf typeOfFactor)
    {after : List TypedTerm} (hafter : ∀ t ∈ after, ClosedTerm typeOf t)
    (hcopy : ∀ t ∈ after, ∀ p ∈ t.polyFactors, CopiesExactly typeOf typeOfFactor p)
    {pe : TypedExpression} (hpe : Closed typeOf pe)
    (hsorted : SortedTerms (pe.erase.terms ++ after.map TypedTerm.erase)) :
    ∃ pe', duplicateTypedTerms typeOf typeOfFactor after pe = some pe' ∧ Closed typeOf pe' ∧
      pe'.erase.terms = pe.erase.terms ++ after.map TypedTerm.erase ∧
        pe'.degree = max pe.degree (maxDegree (after.map TypedTerm.erase)) := by
  induction after generalizing pe with
  | nil =>
      refine ⟨pe, rfl, hpe, ?_, ?_⟩
      · rw [List.map_nil, List.append_nil]
      · rw [List.map_nil, maxDegree, Nat.max_zero]
  | cons t after ih =>
      rw [List.map_cons] at hsorted
      obtain ⟨t', ht', herase, hclosed⟩ := TypedTerm.duplicate_returns_of_factors
        (hafter t List.mem_cons_self) (hcopy t List.mem_cons_self)
      -- the term goes to the end, since all before it are smaller
      have hlast : ∀ u ∈ pe.erase.terms, u.compareTo t.erase < 0 := fun u hu =>
        (List.pairwise_append.1 hsorted.sorted).2.2 u hu t.erase List.mem_cons_self
      have hexact : ExactTerm t'.erase := by
        rw [herase]
        exact hsorted.terms t.erase (List.mem_append_right _ List.mem_cons_self)
      have hadd : pe.erase.add t'.erase =
          some (.mk (pe.erase.terms ++ [t.erase]) (max pe.erase.degree t.erase.degree)) := by
        rw [herase, ← add_last hlast]
        cases pe.erase
        rfl
      obtain ⟨pe₁, hpe₁, heq, hclosed₁⟩ := TypedExpression.add_returns hanswers hpe
        (hsorted.sublist (List.sublist_append_left _ _)) hclosed hexact hadd
      have hterms : pe₁.erase.terms = pe.erase.terms ++ [t.erase] := by rw [heq]; rfl
      have hdegree : pe₁.degree = max pe.degree t.degree := by
        rw [← TypedExpression.degree_erase, heq, ← TypedExpression.degree_erase pe,
          ← TypedTerm.degree_erase]
        rfl
      -- the invariant for the rest: what is done and what is left make the sorted list
      have happend : pe.erase.terms ++ t.erase :: after.map TypedTerm.erase =
          pe₁.erase.terms ++ after.map TypedTerm.erase := by
        rw [hterms, List.append_assoc, List.singleton_append]
      obtain ⟨pe', hpe', hclosed', hterms', hdegree'⟩ :=
        ih (fun u hu => hafter u (List.mem_cons_of_mem t hu))
          (fun u hu => hcopy u (List.mem_cons_of_mem t hu)) hclosed₁ (happend ▸ hsorted)
      refine ⟨pe', ?_, hclosed', ?_, ?_⟩
      · rw [duplicateTypedTerms, ht', Option.bind_some, hpe₁, Option.bind_some, hpe']
      · rw [hterms', List.map_cons, happend]
      · rw [hdegree', hdegree, List.map_cons, maxDegree, TypedTerm.degree_erase, max_assoc]

/-- By induction on the sums inside the terms. -/
theorem TypedExpression.duplicate_returns (hanswers : AnswersClosed typeOf typeOfFactor)
    (pe : TypedExpression) : Exact pe.erase → Closed typeOf pe →
      CopiesExactly typeOf typeOfFactor pe := by
  induction pe using TypedExpression.induction with
  | h pe ih =>
      intro hexact hclosed
      obtain ⟨hsorted, hdegree⟩ := (exact_iff _).1 hexact
      obtain ⟨ts, d, κ, B, T⟩ := pe
      have hfactors : ∀ t ∈ ts, ∀ p ∈ t.polyFactors, Exact p.erase := fun t ht p hp =>
        exact_factor (exact_of_mem hsorted ht) hp
      rw [terms_erase] at hsorted
      obtain ⟨pe', hpe', hclosed', hterms, hdegree'⟩ := duplicateTypedTerms_returns hanswers
        hclosed.terms
        (fun t ht p hp => ih t ht p hp (hfactors t ht p hp) ((hclosed.terms t ht).factors p hp))
        .nil hsorted
      refine ⟨pe', hpe', ?_, hclosed'⟩
      have herase : pe'.erase = .mk pe'.erase.terms pe'.degree := by
        rw [← degree_erase]
        cases pe'.erase
        rfl
      rw [degree_erase, terms_erase] at hdegree
      change d = _ at hdegree
      rw [herase, hterms, hdegree', erase, eraseTerms_eq_map, hdegree]
      change PolynomialExpression.mk _ (max 0 _) = _
      rw [Nat.zero_max]
      rfl

theorem TypedTerm.duplicate_returns (hanswers : AnswersClosed typeOf typeOfFactor) {t : TypedTerm}
    (hexact : ExactTerm t.erase) (ht : ClosedTerm typeOf t) :
    ∃ t', t.duplicate typeOf typeOfFactor = some t' ∧ t'.erase = t.erase ∧
      ClosedTerm typeOf t' :=
  duplicate_returns_of_factors ht fun p hp => TypedExpression.duplicate_returns hanswers p
    (TypedExpression.exact_factor hexact hp) (ht.factors p hp)

/-! ## Multiples of terms -/

namespace TypedExpression

theorem erase_removeAt (pe : TypedExpression) (bst : ℤ) :
    (pe.removeAt bst).erase = .mk (pe.erase.terms.eraseIdx bst.toNat) pe.erase.degree := by
  obtain ⟨ts, d, κ, B, T⟩ := pe
  rw [removeAt, erase, eraseTerms_eq_map, ← List.eraseIdx_map, ← eraseTerms_eq_map]
  rfl

/-- A term that is found, in the list without types. -/
theorem floor_of_found {ts : List TypedTerm} (hsorted : SortedTerms (eraseTerms ts))
    {pt : TypedTerm} (hexact : ExactTerm pt.erase) (hfound : 0 ≤ searchTyped ts pt)
    {old : TypedTerm} (hold : ts.getD (searchTyped ts pt).toNat .new = old) :
    old ∈ ts ∧ floor pt.erase (eraseTerms ts) = some old.erase ∧
      searchTyped ts old = searchTyped ts pt ∧
        removeTerm old.erase (eraseTerms ts) = (eraseTerms ts).eraseIdx (searchTyped ts pt).toNat := by
  obtain ⟨hlt, hsame⟩ := searchTyped_found hfound
  have hmem : old ∈ ts := by
    rw [← hold, List.getD_eq_getElem _ _ hlt]
    exact List.getElem_mem hlt
  have hmem' : old.erase ∈ eraseTerms ts := by
    rw [eraseTerms_eq_map]
    exact List.mem_map_of_mem hmem
  have hexactOld := hsorted.terms old.erase hmem'
  rw [hold] at hsame
  have hagain : searchTyped ts old = searchTyped ts pt :=
    searchTerm_congr (fun t ht => (hsorted.terms t ht).dyadic) hexactOld.dyadic hexact.dyadic hsame
  have hnot : ¬ searchTyped ts pt < 0 := not_lt.2 hfound
  obtain ⟨hfloor, -, -⟩ := binarySearch_spec hsorted hexact
  obtain ⟨-, -, hremove⟩ := binarySearch_spec hsorted hexactOld
  refine ⟨hmem, ?_, hagain, ?_⟩
  · rw [hfloor]
    refine (if_neg hnot).trans ?_
    change (eraseTerms ts)[(searchTyped ts pt).toNat]? = _
    rw [eraseTerms_eq_map, List.getElem?_map, List.getElem?_eq_getElem hlt, ← hold,
      List.getD_eq_getElem _ _ hlt]
    rfl
  · change removeTerm old.erase (eraseTerms ts) = if searchTyped ts old < 0 then eraseTerms ts
      else (eraseTerms ts).eraseIdx (searchTyped ts old).toNat at hremove
    rw [hremove, hagain, if_neg hnot]

/-- `addMultipleOfProduct` is that without types. -/
theorem addMultipleOfProduct_returns (hanswers : AnswersClosed typeOf typeOfFactor)
    {multiple : FloatConstant} (hm : FloatConstant.isPOT multiple.den = true) {pt : TypedTerm}
    (hexact : ExactTerm pt.erase) (hpt : ClosedTerm typeOf pt) {pe : TypedExpression}
    (hsorted : SortedTerms pe.erase.terms) (hpe : Closed typeOf pe) {q : PolynomialExpression}
    (h : Frontend.addMultipleOfProduct multiple pt.erase pe.erase = some q) :
    Returns typeOf (pe.addMultipleOfProduct typeOf typeOfFactor multiple pt) q := by
  obtain ⟨ts, d, κ, B, T⟩ := pe
  change SortedTerms (eraseTerms ts) at hsorted
  rw [erase, Frontend.addMultipleOfProduct, TypedTerm.constant_erase] at h
  simp only at h
  rw [addMultipleOfProduct]
  simp only
  have hpot := FloatConstant.isPOT_multiply hm (hexact.constant)
  rw [TypedTerm.constant_erase] at hpot
  split at h
  · rename_i hzero
    cases h
    rw [if_pos hzero]
    exact ⟨_, rfl, rfl, hpe⟩
  · rename_i hzero
    rw [if_neg hzero]
    by_cases hfound : 0 ≤ searchTyped ts pt
    · -- the term that is found is taken out and comes back with the sum
      obtain ⟨hmem, hfloor, hagain, hremove⟩ := floor_of_found hsorted hexact hfound rfl
      rw [hfloor] at h
      rw [terms, if_pos hfound]
      generalize ts.getD (searchTyped ts pt).toNat .new = old at *
      rw [if_pos (hagain ▸ hfound)]
      have hexactOld : ExactTerm old.erase := by
        refine hsorted.terms old.erase ?_
        rw [eraseTerms_eq_map]
        exact List.mem_map_of_mem hmem
      obtain ⟨newTerm, hnew, hnewErase, hnewClosed⟩ :=
        TypedTerm.duplicate_returns hanswers hexactOld (hpe.terms old hmem)
      rw [hnew, Option.bind_some]
      simp only [hexactOld.duplicate, Option.bind_some, TypedTerm.constant_erase] at h ⊢
      have hrest : ((mk ts d κ B T).removeAt (searchTyped ts old)).erase =
          .mk (removeTerm old.erase (eraseTerms ts)) d := by
        rw [erase_removeAt, hagain, hremove]
        rfl
      have hclosedRest := removeAt_closed hpe (searchTyped ts old)
      split at h
      · rename_i hsum
        cases h
        rw [if_pos hsum]
        exact ⟨_, rfl, hrest, hclosedRest⟩
      · rename_i hsum
        rw [if_neg hsum]
        have hsumPot : FloatConstant.isPOT
            ((multiple.multiply pt.constant).add old.constant).den = true := by
          refine FloatConstant.isPOT_add hpot ?_
          rw [← TypedTerm.constant_erase]
          exact hexactOld.constant
        refine add_returns hanswers hclosedRest ?_ (hnewClosed.setConstant _) ?_ ?_
        · rw [hrest]
          exact hsorted.sublist (removeTerm_sublist _ _)
        · rw [TypedTerm.erase_setConstant, hnewErase]
          exact hexactOld.setConstant hsumPot
        · rw [hrest, TypedTerm.erase_setConstant, hnewErase]
          exact h
    · -- nothing was found: a copy of the term is inserted
      have hfloor : floor pt.erase (eraseTerms ts) = none := by
        obtain ⟨hfloor, -, -⟩ := binarySearch_spec hsorted hexact
        rw [hfloor]
        exact if_pos (not_le.1 hfound)
      rw [hfloor] at h
      rw [terms, if_neg hfound]
      obtain ⟨newTerm, hnew, hnewErase, hnewClosed⟩ :=
        TypedTerm.duplicate_returns hanswers hexact hpt
      rw [hnew, Option.bind_some]
      simp only [hexact.duplicate, Option.bind_some] at h
      refine add_returns hanswers hpe hsorted (hnewClosed.setConstant _) ?_ ?_
      · rw [TypedTerm.erase_setConstant, hnewErase]
        exact hexact.setConstant hpot
      · rw [TypedTerm.erase_setConstant, hnewErase]
        exact h

/-- An addition does not fail and leaves a closed sum in order. -/
def Accepts (typeOf : ℕ → FiniteType) (typeOfFactor : TypedExpression → Option FiniteType)
    (t : TypedTerm) : Prop :=
  ∀ multiple pe, FloatConstant.isPOT multiple.den = true → SortedTerms pe.erase.terms →
    Closed typeOf pe → ∃ pe', addMultiplesOfTerm typeOf typeOfFactor multiple t pe = some pe' ∧
      SortedTerms pe'.erase.terms ∧ Closed typeOf pe'

theorem accepts_product (hanswers : AnswersClosed typeOf typeOfFactor) {t : TypedTerm}
    (hexact : ExactTerm t.erase) (ht : ClosedTerm typeOf t)
    (hproduct : ∀ multiple pe, addMultiplesOfTerm typeOf typeOfFactor multiple t pe =
      addMultipleOfProduct typeOf typeOfFactor multiple t pe) : Accepts typeOf typeOfFactor t := by
  intro multiple pe hm hsorted hpe
  have hmk : pe.erase = .mk pe.erase.terms pe.erase.degree := by
    cases pe.erase
    rfl
  obtain ⟨q, heq, hadded, -⟩ := addMultipleOfProduct_spec hm hexact hsorted pe.erase.degree
  rw [← hmk] at heq
  obtain ⟨pe', hpe', rfl, hclosed⟩ :=
    addMultipleOfProduct_returns hanswers hm hexact ht hsorted hpe heq
  rw [hproduct]
  exact ⟨pe', hpe', hadded.sorted, hclosed⟩

theorem addMultiplesOfTerms_accepts {ts : List TypedTerm}
    (hts : ∀ t ∈ ts, Accepts typeOf typeOfFactor t) {multiple : FloatConstant}
    (hm : FloatConstant.isPOT multiple.den = true) {pe : TypedExpression}
    (hsorted : SortedTerms pe.erase.terms) (hpe : Closed typeOf pe) :
    ∃ pe', addMultiplesOfTerms typeOf typeOfFactor multiple ts pe = some pe' ∧
      SortedTerms pe'.erase.terms ∧ Closed typeOf pe' := by
  induction ts generalizing pe with
  | nil => exact ⟨pe, rfl, hsorted, hpe⟩
  | cons t ts ih =>
      obtain ⟨pe₁, hpe₁, hsorted₁, hclosed₁⟩ :=
        hts t List.mem_cons_self multiple pe hm hsorted hpe
      obtain ⟨pe', hpe', hrest⟩ := ih (fun u hu => hts u (List.mem_cons_of_mem t hu)) hsorted₁ hclosed₁
      refine ⟨pe', ?_, hrest⟩
      rw [addMultiplesOfTerms, hpe₁, Option.bind_some, hpe']

/-- A term, given that for the terms of its factors: it is a product, or nothing but a sum. -/
theorem accepts_of_factors (hanswers : AnswersClosed typeOf typeOfFactor) {t : TypedTerm}
    (hexact : ExactTerm t.erase) (ht : ClosedTerm typeOf t)
    (h : ∀ p ∈ t.polyFactors, ∀ u ∈ p.terms, Accepts typeOf typeOfFactor u) :
    Accepts typeOf typeOfFactor t := by
  obtain ⟨c, ms, ps, d⟩ := t
  match ms, ps, hexact, ht, h with
  | [], [.mk us d' κ B T], hexact, _, h =>
      intro multiple pe hm hsorted hpe
      have hm' : FloatConstant.isPOT (multiple.multiply c).den = true :=
        FloatConstant.isPOT_multiply hm hexact.constant
      obtain ⟨pe', hpe', hrest⟩ := addMultiplesOfTerms_accepts (h _ List.mem_cons_self) hm' hsorted hpe
      refine ⟨pe', ?_, hrest⟩
      rw [addMultiplesOfTerm, addMultiplesOfSum]
      exact hpe'
  | [], [], hexact, ht, _ =>
      exact accepts_product hanswers hexact ht fun _ _ => by rw [addMultiplesOfTerm]
  | x :: ms, ps, hexact, ht, _ =>
      exact accepts_product hanswers hexact ht fun _ _ => by rw [addMultiplesOfTerm]
  | [], p :: q :: ps, hexact, ht, _ =>
      exact accepts_product hanswers hexact ht fun _ _ => by rw [addMultiplesOfTerm]

/-- By induction on the sums inside the terms. -/
theorem accepts_of_mem (hanswers : AnswersClosed typeOf typeOfFactor) (p : TypedExpression) :
    Exact p.erase → Closed typeOf p → ∀ t ∈ p.terms, Accepts typeOf typeOfFactor t := by
  induction p using TypedExpression.induction with
  | h p ih =>
      intro hexact hp t ht
      have hterm := exact_of_mem ((exact_iff _).1 hexact).1 ht
      exact accepts_of_factors hanswers hterm (hp.terms t ht) fun q hq =>
        ih t ht q hq (exact_factor hterm hq) ((hp.terms t ht).factors q hq)

theorem accepts (hanswers : AnswersClosed typeOf typeOfFactor) {t : TypedTerm}
    (hexact : ExactTerm t.erase) (ht : ClosedTerm typeOf t) : Accepts typeOf typeOfFactor t :=
  accepts_of_factors hanswers hexact ht fun p hp =>
    accepts_of_mem hanswers p (exact_factor hexact hp) (ht.factors p hp)

end TypedExpression

/-! ## Substitution -/

/-- An exact product without boolean variables. -/
structure ClosedExact (typeOf : ℕ → FiniteType) (t : TypedTerm) : Prop where
  exact : ExactTerm t.erase
  closed : ClosedTerm typeOf t

section ClosedExact

open PartsProperty

variable {t : TypedTerm}

theorem closedExact_new : ClosedExact typeOf .new :=
  ⟨exactTerm_new, fun _ h => absurd h List.not_mem_nil, fun _ h => absurd h List.not_mem_nil⟩

theorem ClosedExact.addConstant (h : ClosedExact typeOf t) {c : FloatConstant}
    (hc : FloatConstant.isPOT c.den = true) : ClosedExact typeOf (t.addConstant c) := by
  refine ⟨?_, holds_closed_iff.1 (holds_addConstant trivial (holds_closed_iff.2 h.closed))⟩
  rw [TypedTerm.erase_addConstant]
  exact addConstant_exact hc h.exact

theorem ClosedExact.addMonomer (h : ClosedExact typeOf t) {x : ℕ}
    (hx : isBooleanLine typeOf x = false) : ClosedExact typeOf (t.addMonomer typeOf x) := by
  have hline : (PartsProperty.closed typeOf).line x := hx
  refine ⟨?_, holds_closed_iff.1 (holds_addMonomer hline (holds_closed_iff.2 h.closed))⟩
  rw [TypedTerm.erase_addMonomer]
  exact addMonomer_exact _ x h.exact

theorem ClosedExact.addFactor (h : ClosedExact typeOf t) {pe : TypedExpression}
    (hexact : Exact pe.erase) (hclosed : Closed typeOf pe) :
    ClosedExact typeOf (TypedTerm.addFactor typeOf pe t) := by
  have hfactor : (PartsProperty.closed typeOf).factor pe := hclosed
  refine ⟨?_, holds_closed_iff.1 (holds_addFactor pe hfactor t (holds_closed_iff.2 h.closed))⟩
  rw [TypedTerm.erase_addFactor]
  exact addFactor_exact hexact h.exact

end ClosedExact

/-- Every boolean variable has a value. -/
theorem evaluateMonomers_closedExact {vals : Values} {ms : List ℕ}
    (hcovers : ∀ x ∈ ms, isBooleanLine typeOf x = true → (vals x).isSome = true)
    {toRet : TypedTerm} (h : ClosedExact typeOf toRet) :
    ClosedExact typeOf (evaluateMonomers typeOf vals ms toRet) := by
  induction ms generalizing toRet with
  | nil => exact h
  | cons x ms ih =>
      have hrest := fun y hy => hcovers y (List.mem_cons_of_mem x hy)
      rw [evaluateMonomers]
      split
      · rename_i b _
        refine ih hrest (h.addConstant ?_)
        cases b <;> exact FloatConstant.isPOT_one
      · rename_i hnone
        refine ih hrest (h.addMonomer (Bool.eq_false_iff.2 fun hx => ?_))
        have hsome := hcovers x List.mem_cons_self hx
        rw [hnone] at hsome
        cases hsome

/-- What is left of a sum. -/
def EvaluatesClosed (typeOf : ℕ → FiniteType) (typeOfFactor : TypedExpression → Option FiniteType)
    (vals : Values) (pe : TypedExpression) : Prop :=
  ∃ pe', pe.evaluate typeOf typeOfFactor vals = some pe' ∧ Exact pe'.erase ∧ Closed typeOf pe'

theorem evaluateTypedFactors_returns {vals : Values} {ps : List TypedExpression}
    (hps : ∀ p ∈ ps, EvaluatesClosed typeOf typeOfFactor vals p) {toRet : TypedTerm}
    (h : ClosedExact typeOf toRet) :
    ∃ toRet', evaluateTypedFactors typeOf typeOfFactor vals ps toRet = some toRet' ∧
      ClosedExact typeOf toRet' := by
  induction ps generalizing toRet with
  | nil => exact ⟨toRet, rfl, h⟩
  | cons p ps ih =>
      obtain ⟨p', hp', hexact, hclosed⟩ := hps p List.mem_cons_self
      obtain ⟨toRet', htoRet', hrest⟩ :=
        ih (fun q hq => hps q (List.mem_cons_of_mem p hq)) (h.addFactor hexact hclosed)
      refine ⟨toRet', ?_, hrest⟩
      rw [evaluateTypedFactors, hp', Option.bind_some, htoRet']

theorem TypedTerm.evaluate_returns {vals : Values} {t : TypedTerm} (ht : SoundTerm typeOf t)
    (hcovers : ∀ x ∈ t.booleanInputs typeOf, (vals x).isSome = true)
    (hps : ∀ p ∈ t.polyFactors, EvaluatesClosed typeOf typeOfFactor vals p) :
    ∃ t', t.evaluate typeOf typeOfFactor vals = some t' ∧ ClosedExact typeOf t' := by
  obtain ⟨c, ms, ps, d⟩ := t
  have hmonomers : ∀ x ∈ ms, isBooleanLine typeOf x = true → (vals x).isSome = true :=
    fun x hx hbool => hcovers x (List.mem_append_left _ (List.mem_filter.2 ⟨hx, hbool⟩))
  have hstart := evaluateMonomers_closedExact hmonomers closedExact_new
  obtain ⟨toRet, htoRet, hclosed⟩ := evaluateTypedFactors_returns hps hstart
  refine ⟨toRet.addConstant c, ?_, hclosed.addConstant ht.constant⟩
  have hfactors : evaluateTypedFactors typeOf typeOfFactor vals ps
      (evaluateMonomers typeOf vals ms .new) = some toRet := htoRet
  rw [evaluate, hfactors, Option.map_some]

theorem evaluateTypedTerms_returns (hanswers : AnswersClosed typeOf typeOfFactor) {vals : Values}
    {ts : List TypedTerm} (hts : ∀ t ∈ ts, ∃ t', t.evaluate typeOf typeOfFactor vals = some t' ∧
      ClosedExact typeOf t')
    {toRet : TypedExpression} (hsorted : SortedTerms toRet.erase.terms)
    (hclosed : Closed typeOf toRet) :
    ∃ toRet', evaluateTypedTerms typeOf typeOfFactor vals ts toRet = some toRet' ∧
      SortedTerms toRet'.erase.terms ∧ Closed typeOf toRet' := by
  induction ts generalizing toRet with
  | nil => exact ⟨toRet, rfl, hsorted, hclosed⟩
  | cons t ts ih =>
      obtain ⟨t', ht', hterm⟩ := hts t List.mem_cons_self
      obtain ⟨next, hnext, hsorted', hclosed'⟩ := TypedExpression.accepts hanswers hterm.exact
        hterm.closed .ONE toRet FloatConstant.isPOT_one hsorted hclosed
      obtain ⟨toRet', htoRet', hrest⟩ :=
        ih (fun u hu => hts u (List.mem_cons_of_mem t hu)) hsorted' hclosed'
      refine ⟨toRet', ?_, hrest⟩
      rw [evaluateTypedTerms, ht', Option.bind_some, hnext, Option.bind_some, htoRet']

/-- A sum in order is copied, and the copy has its degree. -/
theorem TypedExpression.duplicate_sorted (hanswers : AnswersClosed typeOf typeOfFactor)
    {pe : TypedExpression} (hsorted : SortedTerms pe.erase.terms) (hclosed : Closed typeOf pe) :
    ∃ pe', pe.duplicate typeOf typeOfFactor = some pe' ∧ Exact pe'.erase ∧ Closed typeOf pe' := by
  obtain ⟨ts, d, κ, B, T⟩ := pe
  -- the copy does not look at the degree, so that the sum may have the right one
  let exactPe := mk ts (maxDegree (eraseTerms ts)) κ B T
  have hexact : Exact exactPe.erase := (exact_iff _).2 ⟨hsorted, rfl⟩
  have hclosed' : Closed typeOf exactPe := ⟨hclosed.terms, hclosed.noInputs, hclosed.target⟩
  obtain ⟨pe', hpe', herase, hcopy⟩ := duplicate_returns hanswers exactPe hexact hclosed'
  refine ⟨pe', ?_, ?_, hcopy⟩
  · rw [← hpe', duplicate, duplicate]
  · rw [herase]
    exact hexact

/-- By induction on the sums inside the terms: the boolean variables of a factor are among those
of the sum. -/
theorem TypedExpression.evaluate_returns (hanswers : AnswersClosed typeOf typeOfFactor)
    {vals : Values} (pe : TypedExpression) : Sound typeOf pe →
      (∀ x ∈ pe.booleanInputs, (vals x).isSome = true) →
        EvaluatesClosed typeOf typeOfFactor vals pe := by
  induction pe using TypedExpression.induction with
  | h pe ih =>
      intro hpe hcovers
      have hterms : ∀ t ∈ pe.terms, ∃ t', t.evaluate typeOf typeOfFactor vals = some t' ∧
          ClosedExact typeOf t' := by
        intro t ht
        have hterm := hpe.terms t ht
        have hinputs := fun x hx => hcovers x (hpe.inputs t ht x hx)
        refine TypedTerm.evaluate_returns hterm hinputs fun p hp =>
          ih t ht p hp (hterm.factors p hp) fun x hx => hinputs x ?_
        exact List.mem_append_right _ (List.mem_flatMap.2 ⟨p, hp, hx⟩)
      obtain ⟨ts, d, κ, B, T⟩ := pe
      have hnew : SortedTerms new.erase.terms := SortedTerms.nil
      obtain ⟨toRet, htoRet, hsorted, hclosed⟩ :=
        evaluateTypedTerms_returns hanswers hterms hnew .nil
      obtain ⟨pe', hpe', hrest⟩ := duplicate_sorted hanswers hsorted hclosed
      refine ⟨pe', ?_, hrest⟩
      have htoRet' : evaluateTypedTerms typeOf typeOfFactor vals ts .new = some toRet := htoRet
      rw [evaluate, htoRet', Option.bind_some, hpe']

/-! ## The search ends -/

theorem assignments_cover {xs : List ℕ} {vals : Values} (h : vals ∈ assignments xs) :
    ∀ x ∈ xs, (vals x).isSome = true := by
  induction xs generalizing vals with
  | nil => exact fun x hx => absurd hx List.not_mem_nil
  | cons y ys ih =>
      obtain ⟨b, -, hb⟩ := List.mem_flatMap.1 h
      obtain ⟨rest, hrest, rfl⟩ := List.mem_map.1 hb
      intro x hx
      by_cases hxy : x = y
      · simp only [if_pos hxy, Option.isSome_some]
      · simp only [if_neg hxy]
        exact ih hrest x ((List.mem_cons.1 hx).resolve_left hxy)

theorem assignments_ne_nil (xs : List ℕ) : assignments xs ≠ [] := by
  induction xs with
  | nil => exact List.cons_ne_nil _ _
  | cons x xs ih =>
      rw [assignments, List.flatMap_cons]
      exact fun h => ih (List.map_eq_nil_iff.1 (List.append_eq_nil_iff.1 h).1)

theorem exhaust_returns {pe : TypedExpression} {vs : List Values}
    (h : ∀ vals ∈ vs, ∃ localEval result, pe.evaluate typeOf typeOfFactor vals = some localEval ∧
      typeOfFactor localEval = some result)
    {found : Option FiniteType} (hfound : vs ≠ [] ∨ found ≠ none) :
    ∃ τ, exhaust typeOf typeOfFactor pe vs found = some (some τ) := by
  induction vs generalizing found with
  | nil =>
      obtain ⟨τ, hτ⟩ := Option.ne_none_iff_exists'.1 (hfound.resolve_left fun h => h rfl)
      exact ⟨τ, by rw [exhaust, hτ]⟩
  | cons vals rest ih =>
      obtain ⟨localEval, result, heval, hresult⟩ := h vals List.mem_cons_self
      rw [exhaust, heval, Option.bind_some, hresult, Option.bind_some]
      exact ih (fun v hv => h v (List.mem_cons_of_mem vals hv)) (Or.inr (Option.some_ne_none _))

/-- A closed sum has no boolean variables to try. -/
theorem getType_closed (fuel : ℕ) :
    AnswersClosed typeOf (TypedExpression.getType typeOf (fuel + 1)) := by
  intro p hp
  refine ⟨PlusOperator.sumTypes p.terms.length p.componentType, ?_⟩
  rw [TypedExpression.getType, hp.target, hp.noInputs]
  exact if_neg fun h => absurd h.1 (lt_irrefl 0)

/-- Every sound sum has a type: the search calls `getType` once more, and not from there. -/
theorem getType_returns {pe : TypedExpression} (hpe : Sound typeOf pe) (fuel : ℕ) :
    ∃ τ, pe.getType typeOf (fuel + 2) = some τ := by
  rw [TypedExpression.getType]
  split
  · exact ⟨_, rfl⟩
  · split
    · have hreturns : ∀ vals ∈ assignments pe.booleanInputs, ∃ localEval result,
          pe.evaluate typeOf (TypedExpression.getType typeOf (fuel + 1)) vals = some localEval ∧
            localEval.getType typeOf (fuel + 1) = some result := by
        intro vals hvals
        obtain ⟨pe', hpe', -, hclosed⟩ := TypedExpression.evaluate_returns
          (getType_closed fuel) pe hpe (assignments_cover hvals)
        obtain ⟨τ, hτ⟩ := getType_closed fuel pe' hclosed
        exact ⟨pe', τ, hpe', hτ⟩
      obtain ⟨τ, hτ⟩ := exhaust_returns hreturns (Or.inl (assignments_ne_nil _))
      exact ⟨τ, by rw [hτ]; rfl⟩
    · exact ⟨_, rfl⟩

end Closed

end Pepper.Frontend
