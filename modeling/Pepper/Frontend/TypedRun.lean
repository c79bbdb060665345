import Pepper.Frontend.TypedEvaluation

/-!
# Type inference over runs

`TypedBuilt step pe` are the expressions that the front end builds with constants over powers
of two, where `step` is asked of every sum to which a term is added. Main result
(`typeInference_sound`): the rules for subtypes, unions, intersections, products and sums are
sound, and every expression of a run that adds no term to the sum of a bit string has a type
that contains its value. `bitsPlusBit` is what `PlusOperator.inlineOp` makes of a bit string of
two bits and a bit: it is still said to have two bits.
-/

set_option autoImplicit false

namespace Pepper.Frontend

open Pepper.Foundations.TwosComplement

/-! ## Bit strings -/

/-- The variables of the string are boolean. -/
def BitString.IsBoolean (typeOf : ℕ → FiniteType) (bs : BitString) : Prop :=
  ∀ i x, bs.bits i = .lval x → isBooleanLine typeOf x = true

section Bits

variable {typeOf : ℕ → FiniteType} {typeOfFactor : TypedExpression → Option FiniteType}

theorem BitString.IsBoolean.isBits {bs : BitString} (h : bs.IsBoolean typeOf) {ρ : ℕ → ℚ}
    (hρ : Assigns typeOf ρ) : bs.IsBits ρ := by
  intro i
  cases hbit : bs.bits i with
  | constant b => exact BitExpression.isBit_constant b
  | lval x => exact hρ.respects x (h i x hbit)

theorem TypedTerm.addBit_value {ρ : ℕ → ℚ} (hρ : Assigns typeOf ρ) (e : BitExpression) :
    (TypedTerm.new.addBit typeOf e).value ρ = e.value ρ := by
  rw [value, erase_addBit]
  exact (addBit_spec hρ.respects e).2

/-- The first `k` bits of a string. -/
theorem foldlM_bits (htypes : TypesSound typeOf typeOfFactor) (bs : BitString) (k : ℕ)
    {start pe : TypedExpression} (hstart : Sound typeOf start)
    (h : (List.range k).foldlM (fun pe i =>
      TypedExpression.addMultiplesOfTerm typeOf typeOfFactor
        (.valueOf (signedPot bs i) 1 Nat.one_pos) (TypedTerm.new.addBit typeOf (bs.bitAt i)) pe)
      start = some pe) :
    Sound typeOf pe ∧ pe.targetType = start.targetType ∧ ∀ ρ, Assigns typeOf ρ →
      pe.value ρ = start.value ρ +
        ∑ i ∈ Finset.range k, (signedPot bs i : ℚ) * (bs.bitAt i).value ρ := by
  induction k generalizing pe with
  | zero =>
      cases h
      exact ⟨hstart, rfl, fun ρ _ => by rw [Finset.sum_range_zero, add_zero]⟩
  | succ k ih =>
      rw [List.range_succ, List.foldlM_append] at h
      obtain ⟨pe₁, hpe₁, h⟩ := Option.bind_eq_some_iff.1 h
      rw [List.foldlM_cons] at h
      obtain ⟨pe₂, hpe₂, hlast⟩ := Option.bind_eq_some_iff.1 h
      cases hlast
      obtain ⟨hsound, htarget, hvalue⟩ := ih hpe₁
      have hpot : FloatConstant.isPOT
          (FloatConstant.valueOf (signedPot bs k) 1 Nat.one_pos).den = true := by
        rw [(FloatConstant.valueOf_one _).2]
        exact FloatConstant.isPOT_one
      have hadd := TypedExpression.addMultiplesOfTerm_sound htypes
        (TypedTerm.addBit_sound (bs.bitAt k) .new) hpot hsound hpe₂
      refine ⟨hadd.sound, hadd.target.trans htarget, fun ρ hρ => ?_⟩
      rw [hadd.value, hvalue ρ hρ, TypedTerm.addBit_value hρ, FloatConstant.toRat_valueOf,
        Finset.sum_range_succ]
      push_cast
      ring

theorem sum_bits {bs : BitString} {ρ : ℕ → ℚ} (hbits : bs.IsBits ρ) :
    ∑ i ∈ Finset.range bs.bitwiseEncoding.getBits, (signedPot bs i : ℚ) * (bs.bitAt i).value ρ =
      bs.valueIn ρ := by
  rw [BitString.valueIn, valueOf, Int.cast_sum]
  refine Finset.sum_congr rfl fun i _ => ?_
  rw [(hbits.bitAt i).value_eq, signedPot_eq]
  split
  · rw [mul_one]
  · rw [mul_zero, Int.cast_zero]

/-- The sum of a bit string is sound, and the type of the string contains it. -/
theorem TypedExpression.ofBitString_sound (htypes : TypesSound typeOf typeOfFactor)
    {bs : BitString} (hbits : bs.IsBoolean typeOf) {pe : TypedExpression}
    (h : ofBitString typeOf typeOfFactor bs = some pe) :
    Sound typeOf pe ∧ InTarget typeOf pe := by
  obtain ⟨hsound, htarget, hvalue⟩ := foldlM_bits htypes bs _ (.nil _) h
  refine ⟨hsound, fun T hT ρ hρ => ?_⟩
  have hzero : (mk [] 0 .boolean [] (some (.int bs.bitwiseEncoding))).value ρ = 0 := rfl
  rw [htarget] at hT
  cases hT
  rw [hvalue ρ hρ, hzero, zero_add, sum_bits (hbits.isBits hρ)]
  exact ⟨_, rfl, bs.contains_valueIn⟩

end Bits

/-! ## Runs -/

mutual

/-- The products that the front end builds. -/
inductive TypedBuiltTerm (typeOf : ℕ → FiniteType) (step : TypedExpression → Prop) :
    TypedTerm → Prop
  | new : TypedBuiltTerm typeOf step .new
  | constant {pt : TypedTerm} (c : FloatConstant) (hc : FloatConstant.isPOT c.den = true)
      (h : TypedBuiltTerm typeOf step pt) : TypedBuiltTerm typeOf step (pt.addConstant c)
  | monomer {pt : TypedTerm} (x : ℕ) (h : TypedBuiltTerm typeOf step pt) :
      TypedBuiltTerm typeOf step (pt.addMonomer typeOf x)
  | factor {pe : TypedExpression} {pt : TypedTerm} (hpe : TypedBuilt typeOf step pe)
      (h : TypedBuiltTerm typeOf step pt) :
      TypedBuiltTerm typeOf step (TypedTerm.addFactor typeOf pe pt)
  | product {ptL ptR : TypedTerm} (hL : TypedBuiltTerm typeOf step ptL)
      (hR : TypedBuiltTerm typeOf step ptR) :
      TypedBuiltTerm typeOf step (TypedTerm.productTerm typeOf ptL ptR)
  /-- A term that is taken from a sum. -/
  | term {pe : TypedExpression} {pt : TypedTerm} (hpe : TypedBuilt typeOf step pe)
      (h : pt ∈ pe.terms) : TypedBuiltTerm typeOf step pt

/-- The sums that the front end builds; the types of terms are found with any fuel. -/
inductive TypedBuilt (typeOf : ℕ → FiniteType) (step : TypedExpression → Prop) :
    TypedExpression → Prop
  | new : TypedBuilt typeOf step .new
  /-- `toPolynomialExpression` of a bit string. -/
  | bits {bs : BitString} {pe : TypedExpression} (fuel : ℕ) (hbits : bs.IsBoolean typeOf)
      (h : TypedExpression.ofBitString typeOf (TypedExpression.getType typeOf fuel) bs = some pe) :
      TypedBuilt typeOf step pe
  | add {multiple : FloatConstant} {pt : TypedTerm} {pe pe' : TypedExpression} (fuel : ℕ)
      (hm : FloatConstant.isPOT multiple.den = true) (hpt : TypedBuiltTerm typeOf step pt)
      (hpe : TypedBuilt typeOf step pe) (hstep : step pe)
      (h : TypedExpression.addMultiplesOfTerm typeOf (TypedExpression.getType typeOf fuel)
        multiple pt pe = some pe') : TypedBuilt typeOf step pe'
  | duplicate {pe pe' : TypedExpression} (fuel : ℕ) (hpe : TypedBuilt typeOf step pe)
      (h : pe.duplicate typeOf (TypedExpression.getType typeOf fuel) = some pe') :
      TypedBuilt typeOf step pe'

end

/-- Not the sum of a bit string. -/
def HasOwnType (pe : TypedExpression) : Prop := pe.targetType = none

section Run

variable {typeOf : ℕ → FiniteType} {step : TypedExpression → Prop}

/-- `PlusOperator.inlineOp` adds term by term. -/
theorem built_addMultiplesOfTerms {fuel : ℕ} {multiple : FloatConstant}
    (hm : FloatConstant.isPOT multiple.den = true) (hstep : ∀ pe, step pe) {ts : List TypedTerm}
    (hts : ∀ t ∈ ts, TypedBuiltTerm typeOf step t) {pe pe' : TypedExpression}
    (hpe : TypedBuilt typeOf step pe)
    (h : TypedExpression.addMultiplesOfTerms typeOf (TypedExpression.getType typeOf fuel)
      multiple ts pe = some pe') : TypedBuilt typeOf step pe' := by
  induction ts generalizing pe with
  | nil =>
      cases h
      exact hpe
  | cons t ts ih =>
      rw [TypedExpression.addMultiplesOfTerms] at h
      obtain ⟨pe₁, hpe₁, h⟩ := Option.bind_eq_some_iff.1 h
      exact ih (fun u hu => hts u (List.mem_cons_of_mem t hu))
        (.add fuel hm (hts t List.mem_cons_self) hpe (hstep pe) hpe₁) h

theorem built_inlinePlus {fuel : ℕ} (hstep : ∀ pe, step pe) {pleft pright pe : TypedExpression}
    (hleft : TypedBuilt typeOf step pleft) (hright : TypedBuilt typeOf step pright)
    (h : TypedExpression.inlinePlus typeOf (TypedExpression.getType typeOf fuel) pleft pright =
      some pe) : TypedBuilt typeOf step pe := by
  rw [TypedExpression.inlinePlus] at h
  have hone : FloatConstant.isPOT FloatConstant.ONE.den = true := FloatConstant.isPOT_one
  split at h
  · split at h
    · exact built_addMultiplesOfTerms hone hstep (fun t ht => .term hright ht) hleft h
    · exact built_addMultiplesOfTerms hone hstep (fun t ht => .term hleft ht) hright h
  · cases h

mutual

theorem TypedBuiltTerm.sound {pt : TypedTerm} (h : TypedBuiltTerm typeOf HasOwnType pt) :
    SoundTerm typeOf pt := by
  match h with
  | .new => exact SoundTerm.new
  | .constant c hc h => exact TypedTerm.addConstant_sound hc h.sound
  | .monomer x h => exact TypedTerm.addMonomer_sound x h.sound
  | .factor hpe h => exact TypedTerm.addFactor_sound hpe.sound.1 hpe.sound.2 h.sound
  | .product hL hR => exact TypedTerm.productTerm_sound hL.sound hR.sound
  | .term hpe h => exact hpe.sound.1.terms _ h

/-- A sum to which terms are added has no type of its own before, and so none afterwards. -/
theorem TypedBuilt.sound {pe : TypedExpression} (h : TypedBuilt typeOf HasOwnType pe) :
    Sound typeOf pe ∧ InTarget typeOf pe := by
  match h with
  | .new => exact ⟨Sound.nil none, fun _ h => nomatch h⟩
  | .bits fuel hbits h =>
      exact TypedExpression.ofBitString_sound (getType_contains fuel) hbits h
  | .add fuel hm hpt hpe hstep h =>
      have hadd := TypedExpression.addMultiplesOfTerm_sound (getType_contains fuel) hpt.sound hm
        hpe.sound.1 h
      refine ⟨hadd.sound, fun T hT => ?_⟩
      rw [hadd.target, hstep] at hT
      cases hT
  | .duplicate fuel hpe h =>
      have hcopy := TypedExpression.duplicate_sound (getType_contains fuel) _ hpe.sound.1 _ h
      exact ⟨hcopy.sound, hcopy.inTarget⟩

end

end Run

/-- The value of a sum is of the type that `getType` finds for it, which it does with fuel for two
calls. -/
def TypeFits (typeOf : ℕ → FiniteType) (pe : TypedExpression) : Prop :=
  ∀ fuel, ∃ τ, pe.getType typeOf (fuel + 2) = some τ ∧
    ∀ ρ, Assigns typeOf ρ → τ.Contains (pe.value ρ)

/-- The rules are sound. -/
structure SoundRules : Prop where
  subType : ∀ a b, TypeHeirarchy.isSubType a b = true → ∀ q, a.Contains q → b.Contains q
  union : ∀ a b q, a.Contains q ∨ b.Contains q → (TypeHeirarchy.looseUnion a b).Contains q
  intersect : ∀ a b q, a.Contains q → b.Contains q → (TypeHeirarchy.looseIntersect a b).Contains q
  product : ∀ a b p q, a.Contains p → b.Contains q →
    (TimesOperator.multiplyTypes a b).Contains (p * q)
  sum : ∀ a (l : List ℚ), (∀ q ∈ l, a.Contains q) →
    (PlusOperator.sumTypes l.length a).Contains l.sum

theorem soundRules : SoundRules where
  subType _ _ h _ hq := TypeHeirarchy.contains_of_isSubType h hq
  union a b _ h := h.elim (TypeHeirarchy.contains_looseUnion_left b)
    (TypeHeirarchy.contains_looseUnion_right a)
  intersect _ _ _ ha hb := TypeHeirarchy.contains_looseIntersect ha hb
  product _ _ _ _ ha hb := TimesOperator.contains_multiplyTypes ha hb
  sum _ l h := PlusOperator.contains_sumTypes l h

/-- Type inference is sound over every run that adds no term to the sum of a bit string. -/
theorem typeInference_sound (typeOf : ℕ → FiniteType) (pe : TypedExpression)
    (h : TypedBuilt typeOf HasOwnType pe) : SoundRules ∧ TypeFits typeOf pe := by
  refine ⟨soundRules, fun fuel => ?_⟩
  obtain ⟨hsound, htarget⟩ := h.sound
  obtain ⟨τ, hτ⟩ := getType_returns hsound fuel
  exact ⟨τ, hτ, fun ρ hρ => getType_contains (fuel + 2) pe τ hsound htarget hτ ρ hρ⟩

/-! ## A bit string that was added to -/

/-- All variables are bits. -/
def allBits : ℕ → FiniteType := fun _ => .boolean

/-- `x1 + 2 * x2`. -/
def twoBits : BitString := .ofLines (.uint 2) 1

/-- The variable `x3` as a sum. -/
def thirdBit : Option TypedExpression :=
  TypedExpression.addMultiplesOfTerm allBits (TypedExpression.getType allBits 2) .ONE
    (TypedTerm.new.addMonomer allBits 3) .new

/-- `(x1 + 2 * x2) + x3`. -/
def bitsPlusBit : Option TypedExpression :=
  (TypedExpression.ofBitString allBits (TypedExpression.getType allBits 2) twoBits).bind fun left =>
    thirdBit.bind (TypedExpression.inlinePlus allBits (TypedExpression.getType allBits 2) left)

theorem twoBits_isBoolean : twoBits.IsBoolean allBits := fun _ _ _ => rfl

theorem assigns_ones : Assigns allBits fun _ => 1 := fun _ =>
  FiniteType.contains_boolean.2 (Or.inr rfl)

theorem bitsPlusBit_built {pe : TypedExpression} (h : bitsPlusBit = some pe) :
    TypedBuilt allBits (fun _ => True) pe := by
  obtain ⟨left, hleft, h⟩ := Option.bind_eq_some_iff.1 h
  obtain ⟨right, hright, h⟩ := Option.bind_eq_some_iff.1 h
  have hone : FloatConstant.isPOT FloatConstant.ONE.den = true := FloatConstant.isPOT_one
  exact built_inlinePlus (fun _ => trivial) (.bits 2 twoBits_isBoolean hleft)
    (.add 2 hone (.monomer 3 .new) .new trivial hright) h

/-- Three bits that are one have the sum four, and the sum of the string still has the type of
two bits. -/
theorem bitsPlusBit_not_fits :
    ∃ pe, TypedBuilt allBits (fun _ => True) pe ∧ ¬ TypeFits allBits pe := by
  have hrun : bitsPlusBit.map (fun pe => (pe.getType allBits 2, pe.value fun _ => 1)) =
      some (some (.int (.uint 2)), 4) := by decide +kernel
  obtain ⟨pe, hpe, hrun⟩ := Option.map_eq_some_iff.1 hrun
  obtain ⟨htype, hvalue⟩ := Prod.mk.inj hrun
  refine ⟨pe, bitsPlusBit_built hpe, fun hfits => ?_⟩
  obtain ⟨τ, hτ, hcontains⟩ := hfits 0
  have hfour := hcontains _ assigns_ones
  rw [htype] at hτ
  cases hτ
  rw [hvalue] at hfour
  obtain ⟨v, hv, hrange⟩ := hfour
  have hv4 : v = 4 := by exact_mod_cast hv.symm
  subst hv4
  exact absurd hrange (by decide)

/-- `x3 + x4 - x3 * x4`, whether one of two bits is set. -/
def eitherBit : Option TypedExpression :=
  (thirdBit.bind (TypedExpression.addMultiplesOfTerm allBits (TypedExpression.getType allBits 2) .ONE
    (TypedTerm.new.addMonomer allBits 4))).bind
    (TypedExpression.addMultiplesOfTerm allBits (TypedExpression.getType allBits 2) .NEG_ONE
      ((TypedTerm.new.addMonomer allBits 3).addMonomer allBits 4))

theorem eitherBit_built {pe : TypedExpression} (h : eitherBit = some pe) :
    TypedBuilt allBits HasOwnType pe := by
  obtain ⟨both, hboth, hlast⟩ := Option.bind_eq_some_iff.1 h
  obtain ⟨first, hfirst, hsecond⟩ := Option.bind_eq_some_iff.1 hboth
  have hone : FloatConstant.isPOT FloatConstant.ONE.den = true := FloatConstant.isPOT_one
  -- no sum of the run is the sum of a bit string
  have htargets : thirdBit.map TypedExpression.targetType = some none ∧
      (thirdBit.bind (TypedExpression.addMultiplesOfTerm allBits (TypedExpression.getType allBits 2)
        .ONE (TypedTerm.new.addMonomer allBits 4))).map TypedExpression.targetType = some none := by
    decide +kernel
  rw [hboth, hfirst] at htargets
  have hbuilt : TypedBuilt allBits HasOwnType first := .add 2 hone (.monomer 3 .new) .new rfl hfirst
  have hbuilt' : TypedBuilt allBits HasOwnType both :=
    .add 2 hone (.monomer 4 .new) hbuilt (Option.some.inj htargets.1) hsecond
  exact .add 2 (by decide) (.monomer 4 (.monomer 3 .new)) hbuilt' (Option.some.inj htargets.2) hlast

/-- The string itself has its type, and the type of the disjunction is found among the values at
all four assignments. -/
theorem twoBits_fits :
    (∃ pe, TypedExpression.ofBitString allBits (TypedExpression.getType allBits 2) twoBits =
      some pe ∧ TypeFits allBits pe) ∧
    ∃ pe, eitherBit = some pe ∧ pe.getType allBits 2 = some .boolean ∧ TypeFits allBits pe := by
  have hbits : (TypedExpression.ofBitString allBits (TypedExpression.getType allBits 2)
      twoBits).isSome = true := by decide +kernel
  obtain ⟨bits, hbits⟩ := Option.isSome_iff_exists.1 hbits
  have heither : eitherBit.map (TypedExpression.getType allBits 2) = some (some .boolean) := by
    decide +kernel
  obtain ⟨either, heither, htype⟩ := Option.map_eq_some_iff.1 heither
  exact ⟨⟨bits, hbits, (typeInference_sound allBits bits (.bits 2 twoBits_isBoolean hbits)).2⟩,
    either, heither, htype, (typeInference_sound allBits either (eitherBit_built heither)).2⟩

end Pepper.Frontend
