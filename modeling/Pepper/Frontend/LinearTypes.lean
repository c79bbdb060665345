import Pepper.Frontend.TypedEvaluation

/-!
# The types of linear sums

What `toPolynomialExpression` and the inlining of products and sums build from integers and
variables, term by term: a multiple of a variable (`inlineTimes_eq`) and a sum of two of them
(`inlinePlus_eq`), whose type is found by trying both values of the second variable if that is the
only boolean one. Main result: a multiple of a signed variable plus a power of two times a boolean
one has the type that `PlusOperator` gives to it (`getType_sum`).
-/

set_option autoImplicit false

namespace Pepper.Frontend

open Pepper.Foundations.SortedSearch

namespace FloatConstant

/-- `FloatConstant.valueOf` of an `IntConstant`. -/
def ofInt (k : ℤ) : FloatConstant := .valueOf k 1 Nat.one_pos

theorem ofInt_one : ofInt 1 = ONE := rfl

theorem num_ofInt (k : ℤ) : (ofInt k).num = k := (valueOf_one k).1

theorem den_ofInt (k : ℤ) : (ofInt k).den = 1 := (valueOf_one k).2

theorem isZero_ofInt {k : ℤ} (hk : k ≠ 0) : (ofInt k).isZero = false := by
  refine Bool.eq_false_iff.2 fun h => hk ?_
  rw [isZero_iff, num_ofInt] at h
  exact h

theorem isOne_ofInt (k : ℤ) : (ofInt k).isOne = true ↔ k = 1 := by
  rw [isOne_iff, num_ofInt, den_ofInt, Nat.cast_one]

theorem multiply_one {k : ℤ} (hk : k ≠ 0) : (ofInt k).multiply ONE = ofInt k := by
  rw [multiply, isZero_ofInt hk]
  rfl

theorem one_multiply {k : ℤ} (hk : k ≠ 0) : ONE.multiply (ofInt k) = ofInt k := by
  rw [multiply, isZero_ofInt hk]
  by_cases h : k = 1
  · subst h
    rfl
  · have hone : ¬ (ofInt k).isOne = true := fun hone => h ((isOne_ofInt k).1 hone)
    rw [if_neg (by decide), if_neg Bool.false_ne_true, if_neg hone]
    rfl

theorem ofInt_one_multiply {k : ℤ} (hk : k ≠ 0) : (ofInt 1).multiply (ofInt k) = ofInt k :=
  one_multiply hk

theorem getType_ofInt (k : ℤ) : (ofInt k).getType = IntConstant.getType k := by
  rw [getType]
  split
  · rename_i h
    rw [Bool.or_eq_true, isOne_ofInt, isZero_iff, num_ofInt] at h
    rw [IntConstant.getType, if_pos h]
  · rw [dif_pos (by rw [den_ofInt, Nat.cast_one, Int.emod_one]), num_ofInt, den_ofInt,
      Nat.cast_one, Int.ediv_one]

end FloatConstant

section Search

theorem searchTyped_nil (pt : TypedTerm) : searchTyped [] pt = -1 := by
  rw [searchTyped, searchTerm, binarySearch.eq_def]
  rfl

/-- In front of a larger term. -/
theorem searchTyped_before {t pt : TypedTerm} (h : 0 < t.erase.compareTo pt.erase) :
    searchTyped [t] pt = -1 := by
  have hsign : signAt (eraseTerms [t]) pt.erase 0 = t.erase.compareTo pt.erase := rfl
  have hfirst : FirstNotSmaller (signAt (eraseTerms [t]) pt.erase) 1 0 :=
    ⟨zero_le_one, fun i hi => absurd hi (Nat.not_lt_zero i), fun _ => by rw [hsign]; exact h.le,
      fun i hi hi' => absurd hi (not_lt.2 (Nat.lt_one_iff.1 hi').le)⟩
  refine (binarySearch_eq hfirst).trans (if_neg fun hzero => ?_)
  rw [hsign] at hzero
  exact h.ne' hzero.2

/-- Behind a smaller term. -/
theorem searchTyped_behind {t pt : TypedTerm} (h : t.erase.compareTo pt.erase < 0) :
    searchTyped [t] pt = -2 := by
  have hsign : signAt (eraseTerms [t]) pt.erase 0 = t.erase.compareTo pt.erase := rfl
  have hfirst : FirstNotSmaller (signAt (eraseTerms [t]) pt.erase) 1 1 :=
    ⟨le_rfl, fun i hi => by rw [Nat.lt_one_iff.1 hi, hsign]; exact h,
      fun hlt => absurd hlt (lt_irrefl 1), fun i hi hi' => absurd hi' (not_lt.2 hi.le)⟩
  exact (binarySearch_eq hfirst).trans (if_neg fun hlt => absurd hlt.1 (lt_irrefl 1))

/-- A product of variables. -/
def monomial (k : ℤ) (ms : List ℕ) : TypedTerm := .mk (.ofInt k) ms [] ms.length

/-- The constant does not count. -/
theorem searchTyped_setConstant (ts : List TypedTerm) (pt : TypedTerm) (c : FloatConstant) :
    searchTyped ts (pt.setConstant c) = searchTyped ts pt := by
  have hcompare : ∀ t : PolynomialTerm, t.compareTo (pt.setConstant c).erase =
      t.compareTo pt.erase := by
    intro t
    rw [TypedTerm.erase_setConstant]
    obtain ⟨ct, mst, pst, dt⟩ := t
    obtain ⟨cp, msp, psp, dp⟩ := pt.erase
    rw [PolynomialTerm.setConstant, compareTo_mk, compareTo_mk]
  have hsign : signAt (eraseTerms ts) (pt.setConstant c).erase = signAt (eraseTerms ts) pt.erase :=
    funext fun i => hcompare _
  rw [searchTyped, searchTyped, searchTerm, searchTerm, hsign]

end Search

section Lengths

variable {a k : ℕ} {ha : 0 < a} {hk : 0 < k}

namespace TypeHeirarchy

/-- A sign has room beside the bits of an unsigned type. -/
theorem looseUnion_signed_unsigned (ha : 0 < a) {B : FiniteType}
    (hB : B.kind = .int ⟨false, k, hk⟩) :
    looseUnion (.int ⟨true, a, ha⟩) B = .int ⟨true, max a (k + 1), lt_max_of_lt_left ha⟩ := by
  have hkind : FiniteType.kind (.int ⟨true, a, ha⟩) = .int ⟨true, a, ha⟩ := rfl
  have hleft : isSubType (.int ⟨true, a, ha⟩) B = false := by
    rw [isSubType, hkind, hB]
  have hright : isSubType B (.int ⟨true, a, ha⟩) = decide (k ≤ a - 1) := by
    rw [isSubType, hkind, hB]
  rw [looseUnion, hleft, hright, if_neg Bool.false_ne_true]
  split
  · rename_i h
    have hle : k + 1 ≤ a := Nat.add_le_of_le_sub ha (of_decide_eq_true h)
    simp only [max_eq_left hle]
  · rw [hkind, hB]

theorem looseUnion_unsigned_signed (ha : 0 < a) {B : FiniteType}
    (hB : B.kind = .int ⟨false, k, hk⟩) :
    looseUnion B (.int ⟨true, a, ha⟩) = .int ⟨true, max (k + 1) a, lt_max_of_lt_right ha⟩ := by
  have hkind : FiniteType.kind (.int ⟨true, a, ha⟩) = .int ⟨true, a, ha⟩ := rfl
  have hleft : isSubType (.int ⟨true, a, ha⟩) B = false := by
    rw [isSubType, hkind, hB]
  have hright : isSubType B (.int ⟨true, a, ha⟩) = decide (k ≤ a - 1) := by
    rw [isSubType, hkind, hB]
  rw [looseUnion, hleft, hright]
  split
  · rename_i h
    have hle : k + 1 ≤ a := Nat.add_le_of_le_sub ha (of_decide_eq_true h)
    simp only [max_eq_right hle]
  · rw [if_neg Bool.false_ne_true, hkind, hB]

theorem looseUnion_signed_signed {b : ℕ} (ha : 0 < a) (hb : 0 < b) :
    looseUnion (.int ⟨true, a, ha⟩) (.int ⟨true, b, hb⟩) =
      .int ⟨true, max a b, lt_max_of_lt_left ha⟩ := by
  have hleft : isSubType (.int ⟨true, a, ha⟩) (.int ⟨true, b, hb⟩) = decide (a ≤ b) := rfl
  have hright : isSubType (.int ⟨true, b, hb⟩) (.int ⟨true, a, ha⟩) = decide (b ≤ a) := rfl
  rw [looseUnion, hleft, hright]
  split
  · rename_i h
    simp only [max_eq_right (of_decide_eq_true h)]
  · split
    · rename_i h
      simp only [max_eq_left (of_decide_eq_true h)]
    · rfl

end TypeHeirarchy

theorem PlusOperator.sumTypes_two_signed (ha : 0 < a) :
    sumTypes 2 (.int ⟨true, a, ha⟩) = .int ⟨true, a + 1, Nat.succ_pos a⟩ := by
  have hlog : Nat.clog 2 2 = 1 := by decide
  simp only [sumTypes, OfNat.ofNat_ne_zero, OfNat.ofNat_ne_one, if_false, FiniteType.kind, hlog,
    Nat.add_comm 1 a]

end Lengths

section Linear

variable {typeOf : ℕ → FiniteType} {typeOfFactor : TypedExpression → Option FiniteType}

/-- The type of a product of variables. -/
def monomialType (typeOf : ℕ → FiniteType) (k : ℤ) (ms : List ℕ) : FiniteType :=
  ms.foldl (fun toRet pm => TimesOperator.multiplyTypes toRet (typeOf pm)) (IntConstant.getType k)

namespace TypedExpression

theorem add_monomial {k : ℤ} {ms : List ℕ} {ts : List TypedTerm} {d : ℕ} {κ : FiniteType}
    {B : List ℕ} {T : Option FiniteType} (hnew : searchTyped ts (monomial k ms) < 0) :
    (mk ts d κ B T).add typeOf typeOfFactor (monomial k ms) =
      some (mk (ts.insertIdx (-(searchTyped ts (monomial k ms) + 1)).toNat (monomial k ms))
        (max d ms.length) (TypeHeirarchy.looseUnion κ (monomialType typeOf k ms))
        (B ∪ ms.filter (isBooleanLine typeOf)) T) := by
  have htype : (monomial k ms).getType typeOf typeOfFactor = some (monomialType typeOf k ms) := by
    rw [monomialType, ← FloatConstant.getType_ofInt]
    rfl
  have hinputs : (monomial k ms).booleanInputs typeOf = ms.filter (isBooleanLine typeOf) :=
    List.append_nil _
  rw [add, htype, Option.bind_some]
  simp only
  rw [if_pos hnew, hinputs]
  rfl

/-- A product of variables that is not in the sum. -/
theorem addMultiples_monomial {m k n : ℤ} {ms : List ℕ} {ts : List TypedTerm} {d : ℕ}
    {κ : FiniteType} {B : List ℕ} {T : Option FiniteType}
    (hmultiply : (FloatConstant.ofInt m).multiply (.ofInt k) = .ofInt n) (hn : n ≠ 0)
    (hnew : searchTyped ts (monomial n ms) < 0) :
    addMultiplesOfTerm typeOf typeOfFactor (.ofInt m) (monomial k ms) (mk ts d κ B T) =
      some (mk (ts.insertIdx (-(searchTyped ts (monomial n ms) + 1)).toNat (monomial n ms))
        (max d ms.length) (TypeHeirarchy.looseUnion κ (monomialType typeOf n ms))
        (B ∪ ms.filter (isBooleanLine typeOf)) T) := by
  have hsearch : searchTyped ts (monomial k ms) = searchTyped ts (monomial n ms) :=
    searchTyped_setConstant ts (monomial n ms) (.ofInt k)
  have hproduct : addMultiplesOfTerm typeOf typeOfFactor (.ofInt m) (monomial k ms)
      (mk ts d κ B T) = addMultipleOfProduct typeOf typeOfFactor (.ofInt m) (monomial k ms)
        (mk ts d κ B T) := by
    cases ms <;> rfl
  have hcopy : (monomial k ms).duplicate typeOf typeOfFactor = some (monomial k ms) := rfl
  rw [hproduct, addMultipleOfProduct]
  simp only
  rw [show (monomial k ms).constant = .ofInt k from rfl, hmultiply, FloatConstant.isZero_ofInt hn,
    if_neg Bool.false_ne_true, terms, hsearch, if_neg (not_le.2 hnew), hcopy, Option.bind_some]
  exact add_monomial hnew

/-- A multiple of a product of variables, as a sum. -/
def ofMonomial (typeOf : ℕ → FiniteType) (k : ℤ) (ms : List ℕ) : TypedExpression :=
  mk [monomial k ms] ms.length (TypeHeirarchy.looseUnion .boolean (monomialType typeOf k ms))
    (ms.filter (isBooleanLine typeOf)) none

theorem addMultiples_new {m k n : ℤ} {ms : List ℕ}
    (hmultiply : (FloatConstant.ofInt m).multiply (.ofInt k) = .ofInt n) (hn : n ≠ 0) :
    addMultiplesOfTerm typeOf typeOfFactor (.ofInt m) (monomial k ms) new =
      some (ofMonomial typeOf n ms) := by
  rw [new, addMultiples_monomial hmultiply hn (by rw [searchTyped_nil]; exact neg_one_lt_zero),
    searchTyped_nil, ofMonomial, Nat.zero_max, List.nil_union]
  rfl

theorem ofConstant_eq {k : ℤ} (hk : k ≠ 0) :
    ofConstant typeOf typeOfFactor (.ofInt k) = some (ofMonomial typeOf k []) :=
  addMultiples_new (k := 1) (FloatConstant.multiply_one hk) hk

theorem ofMonomer_eq (x : ℕ) :
    ofMonomer typeOf typeOfFactor x = some (ofMonomial typeOf 1 [x]) :=
  addMultiples_new (m := 1) (k := 1) (FloatConstant.one_multiply one_ne_zero) one_ne_zero

/-- A multiple of a variable. -/
theorem inlineTimes_eq {k : ℤ} (hk : k ≠ 0) (x : ℕ) :
    inlineTimes typeOf typeOfFactor (ofMonomial typeOf 1 [x]) (ofMonomial typeOf k []) =
      some (ofMonomial typeOf k [x]) := by
  have hterm : TypedTerm.addFactor typeOf (ofMonomial typeOf 1 [x])
      (TypedTerm.addFactor typeOf (ofMonomial typeOf k []) .new) = monomial k [x] := by
    have hfirst : TypedTerm.addFactor typeOf (ofMonomial typeOf k []) .new =
        .mk (FloatConstant.ONE.multiply (.ofInt k)) [] [] 0 := rfl
    have hsecond : TypedTerm.addFactor typeOf (ofMonomial typeOf 1 [x])
        (.mk (.ofInt k) [] [] 0) = .mk ((FloatConstant.ofInt k).multiply .ONE) [x] [] 1 := rfl
    rw [hfirst, FloatConstant.one_multiply hk, hsecond, FloatConstant.multiply_one hk]
    rfl
  have hdegree : (ofMonomial typeOf k []).degree + (ofMonomial typeOf 1 [x]).degree ≤ 2 :=
    one_le_two
  rw [inlineTimes, if_pos hdegree, hterm]
  exact addMultiples_new (m := 1) (FloatConstant.one_multiply hk) hk

/-- The sum of multiples of two variables. -/
def ofTwo (typeOf : ℕ → FiniteType) (k₁ : ℤ) (x : ℕ) (k₂ : ℤ) (y : ℕ) : TypedExpression :=
  mk [monomial k₁ [x], monomial k₂ [y]] 1
    (TypeHeirarchy.looseUnion (TypeHeirarchy.looseUnion .boolean (monomialType typeOf k₂ [y]))
      (monomialType typeOf k₁ [x]))
    ([y].filter (isBooleanLine typeOf) ∪ [x].filter (isBooleanLine typeOf)) none

theorem compareTo_lines (k₁ k₂ : ℤ) (x y : ℕ) :
    (monomial k₂ [y]).erase.compareTo (monomial k₁ [x]).erase = (y : ℤ) - x := by
  rw [monomial, monomial, TypedTerm.erase, TypedTerm.erase, compareTo_mk]
  simp only [List.length_singleton, sub_self, ne_eq, not_true_eq_false, if_false, compareMonomers,
    eraseFactors, compareFactors]
  by_cases h : (y : ℤ) - x = 0
  · simp only [h, not_true_eq_false, if_false]
  · simp only [h, not_false_eq_true, if_true]

/-- The sum of the right operand takes the left one in front. -/
theorem inlinePlus_eq {k₁ k₂ : ℤ} (hk₁ : k₁ ≠ 0) {x y : ℕ} (hxy : x < y) :
    inlinePlus typeOf typeOfFactor (ofMonomial typeOf k₁ [x]) (ofMonomial typeOf k₂ [y]) =
      some (ofTwo typeOf k₁ x k₂ y) := by
  have hpos : 0 < (monomial k₂ [y]).erase.compareTo (monomial k₁ [x]).erase := by
    rw [compareTo_lines]
    exact sub_pos.2 (Nat.cast_lt.2 hxy)
  have hsearch := searchTyped_before hpos
  have hnew : searchTyped [monomial k₂ [y]] (monomial k₁ [x]) < 0 := by
    rw [hsearch]
    exact neg_one_lt_zero
  have hadd : addMultiplesOfTerm typeOf typeOfFactor (.ofInt 1) (monomial k₁ [x])
      (ofMonomial typeOf k₂ [y]) = _ :=
    addMultiples_monomial (FloatConstant.one_multiply hk₁) hk₁ hnew
  have hdegree : ((ofMonomial typeOf k₁ [x]).degree ≤ 2 ∧ (ofMonomial typeOf k₂ [y]).degree ≤ 1) ∨
      ((ofMonomial typeOf k₁ [x]).degree ≤ 1 ∧ (ofMonomial typeOf k₂ [y]).degree ≤ 2) :=
    Or.inl ⟨one_le_two, le_refl 1⟩
  have hlength : ¬ (ofMonomial typeOf k₂ [y]).terms.length <
      (ofMonomial typeOf k₁ [x]).terms.length := lt_irrefl 1
  rw [hsearch] at hadd
  rw [inlinePlus, if_pos hdegree, if_neg hlength]
  exact (congrArg (fun r => Option.bind r _) hadd).trans rfl

/-! ## The type of a sum -/

/-- Without boolean variables it is that of a sum of so many terms. -/
theorem getType_ofTwo_of_not_boolean (k₁ k₂ : ℤ) {x y : ℕ} (hx : isBooleanLine typeOf x = false)
    (hy : isBooleanLine typeOf y = false) (fuel : ℕ) :
    (ofTwo typeOf k₁ x k₂ y).getType typeOf (fuel + 1) =
      some (PlusOperator.sumTypes 2 (TypeHeirarchy.looseUnion
        (TypeHeirarchy.looseUnion .boolean (monomialType typeOf k₂ [y]))
          (monomialType typeOf k₁ [x]))) := by
  have hinputs : [y].filter (isBooleanLine typeOf) ∪ [x].filter (isBooleanLine typeOf) = [] := by
    rw [List.filter_singleton, List.filter_singleton, hx, hy]
    rfl
  rw [ofTwo, hinputs]
  rfl

theorem getType_ofMonomial_of_not_boolean (k : ℤ) {x : ℕ} (hx : isBooleanLine typeOf x = false)
    (fuel : ℕ) :
    (ofMonomial typeOf k [x]).getType typeOf (fuel + 1) =
      some (TypeHeirarchy.looseUnion .boolean (monomialType typeOf k [x])) := by
  have hinputs : [x].filter (isBooleanLine typeOf) = [] := by
    rw [List.filter_singleton, hx]
    rfl
  rw [ofMonomial, hinputs]
  rfl

/-- Substitution leaves a variable that has no value. -/
theorem evaluate_monomial_none {vals : Values} {k : ℤ} (hk : k ≠ 0) {x : ℕ} (hx : vals x = none) :
    (monomial k [x]).evaluate typeOf typeOfFactor vals = some (monomial k [x]) := by
  have hmonomers : evaluateMonomers typeOf vals [x] .new = monomial 1 [x] := by
    rw [evaluateMonomers, hx]
    rfl
  have hmultiply := FloatConstant.one_multiply hk
  rw [monomial, TypedTerm.evaluate, hmonomers, evaluateTypedFactors, Option.map_some]
  exact congrArg (fun c => some (TypedTerm.mk c [x] [] 1)) hmultiply

/-- One makes a variable a constant. -/
theorem evaluate_monomial_true {vals : Values} {k : ℤ} (hk : k ≠ 0) {x : ℕ}
    (hx : vals x = some true) :
    (monomial k [x]).evaluate typeOf typeOfFactor vals = some (monomial k []) := by
  have hmonomers : evaluateMonomers typeOf vals [x] .new = monomial 1 [] := by
    rw [evaluateMonomers, hx]
    rfl
  have hmultiply := FloatConstant.one_multiply hk
  rw [monomial, TypedTerm.evaluate, hmonomers, evaluateTypedFactors, Option.map_some]
  exact congrArg (fun c => some (TypedTerm.mk c [] [] 0)) hmultiply

/-- And zero makes it nothing. -/
theorem evaluate_monomial_false {vals : Values} {k : ℤ} {x : ℕ} (hx : vals x = some false) :
    (monomial k [x]).evaluate typeOf typeOfFactor vals = some (.mk .ZERO [] [] 0) := by
  rw [monomial, TypedTerm.evaluate, evaluateMonomers, hx]
  rfl

theorem duplicate_ofMonomial (k : ℤ) (ms : List ℕ) :
    (ofMonomial typeOf k ms).duplicate typeOf typeOfFactor = some (ofMonomial typeOf k ms) := by
  have hcopy : (monomial k ms).duplicate typeOf typeOfFactor = some (monomial k ms) := rfl
  rw [ofMonomial, duplicate, duplicateTypedTerms, hcopy, Option.bind_some, new,
    add_monomial (by rw [searchTyped_nil]; exact neg_one_lt_zero), searchTyped_nil, Nat.zero_max,
    List.nil_union, Option.bind_some]
  rfl

/-- A multiple of a boolean variable has the type of the constant. -/
theorem getType_ofMonomial_of_boolean {k : ℤ} (hk : k ≠ 0) {y : ℕ}
    (hy : isBooleanLine typeOf y = true) (fuel : ℕ) :
    (ofMonomial typeOf k [y]).getType typeOf (fuel + 2) =
      some (TypeHeirarchy.looseUnion .boolean
        (TypeHeirarchy.looseUnion .boolean (IntConstant.getType k))) := by
  have hinputs : (ofMonomial typeOf k [y]).booleanInputs = [y] := by
    rw [ofMonomial, booleanInputs, List.filter_singleton, hy]
    rfl
  have hassign : assignments [y] = [fun z => if z = y then some false else none,
      fun z => if z = y then some true else none] := rfl
  have hfalse : (ofMonomial typeOf k [y]).evaluate typeOf (getType typeOf (fuel + 1))
      (fun z => if z = y then some false else none) = some new := by
    rw [ofMonomial, evaluate, evaluateTypedTerms, evaluate_monomial_false (if_pos rfl),
      Option.bind_some]
    rfl
  have htrue : (ofMonomial typeOf k [y]).evaluate typeOf (getType typeOf (fuel + 1))
      (fun z => if z = y then some true else none) = some (ofMonomial typeOf k []) := by
    rw [ofMonomial, evaluate, evaluateTypedTerms, evaluate_monomial_true hk (if_pos rfl),
      Option.bind_some, ← FloatConstant.ofInt_one,
      addMultiples_new (FloatConstant.ofInt_one_multiply hk) hk, Option.bind_some]
    exact duplicate_ofMonomial k []
  have hempty : (new : TypedExpression).getType typeOf (fuel + 1) = some .boolean := rfl
  have htarget : (ofMonomial typeOf k [y]).targetType = none := rfl
  rw [getType, htarget]
  simp only
  rw [hinputs, if_pos ⟨Nat.one_pos, Nat.one_le_ofNat⟩, hassign, exhaust, hfalse, Option.bind_some,
    hempty, Option.bind_some, exhaust, htrue]
  rfl

/-- A multiple of a variable and a constant. -/
def ofLinear (typeOf : ℕ → FiniteType) (k₁ : ℤ) (x : ℕ) (k₂ : ℤ) : TypedExpression :=
  mk [monomial k₁ [x], monomial k₂ []] 1
    (TypeHeirarchy.looseUnion (TypeHeirarchy.looseUnion .boolean (monomialType typeOf k₁ [x]))
      (IntConstant.getType k₂))
    ([x].filter (isBooleanLine typeOf) ∪ []) none

theorem compareTo_constant (k₁ k₂ : ℤ) (x : ℕ) :
    (monomial k₁ [x]).erase.compareTo (monomial k₂ []).erase = -1 := by
  rw [monomial, monomial, TypedTerm.erase, TypedTerm.erase, compareTo_mk]
  rfl

theorem searchTyped_constant (k₁ k₂ : ℤ) (x : ℕ) :
    searchTyped [monomial k₁ [x]] (monomial k₂ []) = -2 :=
  searchTyped_behind (by rw [compareTo_constant]; exact neg_one_lt_zero)

theorem add_constant (k₁ : ℤ) (x : ℕ) (k₂ : ℤ) :
    (ofMonomial typeOf k₁ [x]).add typeOf typeOfFactor (monomial k₂ []) =
      some (ofLinear typeOf k₁ x k₂) := by
  rw [ofMonomial, add_monomial (by rw [searchTyped_constant]; decide), searchTyped_constant]
  rfl

theorem duplicate_ofLinear (k₁ : ℤ) (x : ℕ) (k₂ : ℤ) :
    (ofLinear typeOf k₁ x k₂).duplicate typeOf typeOfFactor = some (ofLinear typeOf k₁ x k₂) := by
  have hfirst : (monomial k₁ [x]).duplicate typeOf typeOfFactor = some (monomial k₁ [x]) := rfl
  have hsecond : (monomial k₂ []).duplicate typeOf typeOfFactor = some (monomial k₂ []) := rfl
  have hadd : new.add typeOf typeOfFactor (monomial k₁ [x]) = some (ofMonomial typeOf k₁ [x]) := by
    rw [new, add_monomial (by rw [searchTyped_nil]; exact neg_one_lt_zero), searchTyped_nil,
      Nat.zero_max, List.nil_union]
    rfl
  rw [ofLinear, duplicate, duplicateTypedTerms, hfirst, Option.bind_some, hadd, Option.bind_some,
    duplicateTypedTerms, hsecond, Option.bind_some, add_constant, Option.bind_some]
  rfl

/-- What is left of a sum for a value of the second variable. -/
theorem evaluate_ofTwo_false {vals : Values} {k₁ k₂ : ℤ} (hk₁ : k₁ ≠ 0) {x y : ℕ}
    (hx : vals x = none) (hy : vals y = some false) :
    (ofTwo typeOf k₁ x k₂ y).evaluate typeOf typeOfFactor vals =
      some (ofMonomial typeOf k₁ [x]) := by
  rw [ofTwo, evaluate, evaluateTypedTerms, evaluate_monomial_none hk₁ hx, Option.bind_some,
    ← FloatConstant.ofInt_one, addMultiples_new (FloatConstant.ofInt_one_multiply hk₁) hk₁,
    Option.bind_some, evaluateTypedTerms, evaluate_monomial_false hy, Option.bind_some]
  exact duplicate_ofMonomial k₁ [x]

theorem evaluate_ofTwo_true {vals : Values} {k₁ k₂ : ℤ} (hk₁ : k₁ ≠ 0) (hk₂ : k₂ ≠ 0) {x y : ℕ}
    (hx : vals x = none) (hy : vals y = some true) :
    (ofTwo typeOf k₁ x k₂ y).evaluate typeOf typeOfFactor vals =
      some (ofLinear typeOf k₁ x k₂) := by
  have hadd : addMultiplesOfTerm typeOf typeOfFactor (.ofInt 1) (monomial k₂ [])
      (ofMonomial typeOf k₁ [x]) = some (ofLinear typeOf k₁ x k₂) := by
    rw [ofMonomial, addMultiples_monomial (FloatConstant.ofInt_one_multiply hk₂) hk₂
      (by rw [searchTyped_constant]; decide), searchTyped_constant]
    rfl
  rw [ofTwo, evaluate, evaluateTypedTerms, evaluate_monomial_none hk₁ hx, Option.bind_some,
    ← FloatConstant.ofInt_one, addMultiples_new (FloatConstant.ofInt_one_multiply hk₁) hk₁,
    Option.bind_some, evaluateTypedTerms, evaluate_monomial_true hk₂ hy, Option.bind_some,
    ← FloatConstant.ofInt_one, hadd, Option.bind_some]
  exact duplicate_ofLinear k₁ x k₂

/-- The types without and with the constant. -/
theorem getType_ofTwo_of_boolean {k₁ k₂ : ℤ} (hk₁ : k₁ ≠ 0) (hk₂ : k₂ ≠ 0) {x y : ℕ}
    (hxy : x ≠ y) (hx : isBooleanLine typeOf x = false) (hy : isBooleanLine typeOf y = true)
    (fuel : ℕ) :
    (ofTwo typeOf k₁ x k₂ y).getType typeOf (fuel + 2) =
      some (TypeHeirarchy.looseUnion
        (TypeHeirarchy.looseUnion .boolean (monomialType typeOf k₁ [x]))
        (PlusOperator.sumTypes 2 (TypeHeirarchy.looseUnion
          (TypeHeirarchy.looseUnion .boolean (monomialType typeOf k₁ [x]))
          (IntConstant.getType k₂)))) := by
  have hinputs : (ofTwo typeOf k₁ x k₂ y).booleanInputs = [y] := by
    rw [ofTwo, booleanInputs, List.filter_singleton, List.filter_singleton, hx, hy]
    rfl
  have hnone : [x].filter (isBooleanLine typeOf) = [] := by
    rw [List.filter_singleton, hx]
    rfl
  have hlast := getType_ofMonomial_of_not_boolean k₁ hx fuel
  have hlinear : (ofLinear typeOf k₁ x k₂).getType typeOf (fuel + 1) =
      some (PlusOperator.sumTypes 2 (TypeHeirarchy.looseUnion
        (TypeHeirarchy.looseUnion .boolean (monomialType typeOf k₁ [x]))
          (IntConstant.getType k₂))) := by
    rw [ofLinear, hnone]
    rfl
  have hassign : assignments [y] = [fun z => if z = y then some false else none,
      fun z => if z = y then some true else none] := rfl
  have htarget : (ofTwo typeOf k₁ x k₂ y).targetType = none := rfl
  rw [getType, htarget]
  simp only
  rw [hinputs, if_pos ⟨Nat.one_pos, Nat.one_le_ofNat⟩, hassign, exhaust,
    evaluate_ofTwo_false hk₁ (if_neg hxy) (if_pos rfl), Option.bind_some, hlast, Option.bind_some,
    exhaust, evaluate_ofTwo_true hk₁ hk₂ (if_neg hxy) (if_pos rfl), Option.bind_some, hlinear,
    Option.bind_some]
  rfl

end TypedExpression

end Linear

section Summands

open TypedExpression

theorem IntConstant.getType_two_pow_succ (p : ℕ) :
    getType (2 ^ (p + 1)) = .int ⟨false, p + 2, Nat.succ_pos _⟩ := by
  have hone : (1 : ℤ) < 2 ^ (p + 1) := one_lt_pow₀ one_lt_two p.succ_ne_zero
  have hsmall : ¬ ((2 : ℤ) ^ (p + 1) = 1 ∨ (2 : ℤ) ^ (p + 1) = 0) := by
    rintro (h | h) <;> linarith
  have hsize : ((2 : ℤ) ^ (p + 1)).natAbs.size = p + 2 := by
    rw [Int.natAbs_pow]
    exact Nat.size_pow
  rw [getType, if_neg hsmall, if_pos (zero_lt_one.trans hone), hsize]
  rfl

/-- The type of a power of two has one bit more than the power. -/
theorem IntConstant.kind_two_pow (p : ℕ) :
    (getType (2 ^ p)).kind = .int ⟨false, p + 1, Nat.succ_pos p⟩ := by
  cases p with
  | zero => rfl
  | succ p =>
      rw [getType_two_pow_succ]
      rfl

theorem IntType.getMaxInt_lt (c : IntType) : c.getMaxInt < 2 ^ c.getBits := by
  rw [getMaxInt]
  split
  · exact lt_of_lt_of_le (sub_one_lt _) (two_pow_le (Nat.sub_le _ _))
  · exact sub_one_lt _

theorem FiniteType.eq_signed {A : FiniteType} {a : ℕ} {ha : 0 < a}
    (h : A.kind = .int ⟨true, a, ha⟩) : A = .int ⟨true, a, ha⟩ := by
  cases A with
  | boolean => cases h
  | int t =>
      cases h
      rfl
  | float f => cases h

/-- `instanceof IntType`. -/
def FiniteType.IsInt (t : FiniteType) : Prop := ∃ c, t.kind = .int c

theorem TimesOperator.isInt_multiplyTypes {A B : FiniteType} (hA : A.IsInt) (hB : B.IsInt) :
    (multiplyTypes A B).IsInt := by
  obtain ⟨a, ha⟩ := hA
  obtain ⟨b, hb⟩ := hB
  match A, B with
  | .boolean, B => exact ⟨b, hb⟩
  | .int t, .boolean => exact ⟨t, rfl⟩
  | .int ⟨false, _, _⟩, .int ⟨false, _, _⟩ => exact ⟨_, rfl⟩
  | .int ⟨false, _, _⟩, .int ⟨true, _, _⟩ => exact ⟨_, rfl⟩
  | .int ⟨true, _, _⟩, .int ⟨false, _, _⟩ => exact ⟨_, rfl⟩
  | .int ⟨true, _, _⟩, .int ⟨true, _, _⟩ => exact ⟨_, rfl⟩

theorem TypeHeirarchy.isInt_looseUnion {A B : FiniteType} (hA : A.IsInt) (hB : B.IsInt) :
    (looseUnion A B).IsInt := by
  obtain ⟨⟨signedA, la, hla⟩, ha⟩ := id hA
  obtain ⟨⟨signedB, lb, hlb⟩, hb⟩ := id hB
  rw [looseUnion]
  split_ifs
  · exact hB
  · exact hA
  · rw [ha, hb]
    cases signedA <;> cases signedB <;> exact ⟨_, rfl⟩

theorem PlusOperator.sumTypes_two {A : FiniteType} (hA : A.IsInt) : ∃ T, sumTypes 2 A = .int T := by
  obtain ⟨⟨signed, l, hl⟩, ha⟩ := hA
  rw [sumTypes, if_neg two_ne_zero, if_neg (Nat.succ_ne_self 1), ha]
  cases signed <;> exact ⟨_, rfl⟩

theorem IntConstant.isInt_getType (v : ℤ) : (getType v).IsInt := by
  rw [getType]
  split_ifs <;> exact ⟨_, rfl⟩

theorem FiniteType.int_congr {a b : ℕ} {ha : 0 < a} {hb : 0 < b} (h : a = b) :
    FiniteType.int ⟨true, a, ha⟩ = .int ⟨true, b, hb⟩ := by
  subst h
  rfl

/-- Multiples of a signed variable are signed. -/
theorem TimesOperator.multiplyTypes_signed {k : ℤ} (hk : 0 < k) {w : ℕ} (hw : 0 < w) :
    ∃ (a : ℕ) (ha : 0 < a),
      multiplyTypes (.int ⟨true, w, hw⟩) (IntConstant.getType k) = .int ⟨true, a, ha⟩ ∧
        multiplyTypes (IntConstant.getType k) (.int ⟨true, w, hw⟩) = .int ⟨true, a, ha⟩ := by
  rw [IntConstant.getType]
  by_cases hsmall : k = 1 ∨ k = 0
  · rw [if_pos hsmall]
    exact ⟨w, hw, rfl, rfl⟩
  · rw [if_neg hsmall, if_pos hk]
    exact ⟨_, _, rfl, rfl⟩

/-- The booleans are a class below every unsigned type. -/
theorem TypeHeirarchy.looseUnion_boolean {B : FiniteType} {k : ℕ} {hk : 0 < k}
    (hB : B.kind = .int ⟨false, k, hk⟩) : looseUnion .boolean B = B := by
  have hsub : isSubType .boolean B = true := by
    rw [isSubType, hB]
    exact decide_eq_true hk
  rw [looseUnion, if_pos hsub]

/-- What stands for a multiple of a variable in a sum: the multiple itself, or the line that it is
assigned to. -/
inductive Summand (typeOf : ℕ → FiniteType) (k : ℤ) (x : ℕ) : ℤ → ℕ → Prop
  | inlined : Summand typeOf k x k x
  | assigned {t fuel : ℕ}
      (htype : (ofMonomial typeOf k [x]).getType typeOf (fuel + 2) = some (typeOf t)) :
      Summand typeOf k x 1 t

namespace Summand

variable {typeOf : ℕ → FiniteType} {k k' : ℤ} {x t : ℕ}

theorem ne_zero (h : Summand typeOf k x k' t) (hk : k ≠ 0) : k' ≠ 0 := by
  cases h with
  | inlined => exact hk
  | assigned _ => exact one_ne_zero

/-- A multiple of a signed variable is a multiple of a signed variable whose type has the bits of
the product, or two if these are fewer. -/
theorem signed (h : Summand typeOf k x k' t) (hk : 0 < k) {w a : ℕ} {hw : 0 < w} {ha : 0 < a}
    (hx : typeOf x = .int ⟨true, w, hw⟩)
    (hproduct : TimesOperator.multiplyTypes (IntConstant.getType k) (typeOf x) =
      .int ⟨true, a, ha⟩) :
    0 < k' ∧ isBooleanLine typeOf t = false ∧ ∃ (b : ℕ) (hb : 0 < b),
      monomialType typeOf k' [t] = .int ⟨true, b, hb⟩ ∧ max 2 b = max 2 a := by
  have hnot : isBooleanLine typeOf x = false := by
    rw [isBooleanLine, hx]
    rfl
  cases h with
  | inlined => exact ⟨hk, hnot, a, ha, hproduct, rfl⟩
  | assigned htype =>
      have hunion := getType_ofMonomial_of_not_boolean k hnot
      have hmonomial : monomialType typeOf k [x] = .int ⟨true, a, ha⟩ := hproduct
      rw [hunion, hmonomial, TypeHeirarchy.looseUnion_unsigned_signed ha rfl,
        Option.some.injEq] at htype
      refine ⟨zero_lt_one, ?_, max 2 a, lt_max_of_lt_right ha, htype.symm, max_eq_right le_sup_left⟩
      rw [isBooleanLine, ← htype]
      rfl

/-- A power of two times a boolean variable is that or a variable of the type of the power. -/
theorem boolean {p : ℕ} (h : Summand typeOf (2 ^ p) x k' t) (hx : typeOf x = .boolean) :
    (isBooleanLine typeOf t = true ∧ k' = 2 ^ p) ∨
      (isBooleanLine typeOf t = false ∧
        (monomialType typeOf k' [t]).kind = .int ⟨false, p + 1, Nat.succ_pos p⟩) := by
  have hline : isBooleanLine typeOf x = true := by
    rw [isBooleanLine, hx]
    rfl
  cases h with
  | inlined => exact Or.inl ⟨hline, rfl⟩
  | assigned htype =>
      rw [getType_ofMonomial_of_boolean (by positivity) hline, Option.some.injEq] at htype
      cases p with
      | zero =>
          refine Or.inl ⟨?_, rfl⟩
          rw [isBooleanLine, ← htype]
          rfl
      | succ p =>
          rw [IntConstant.getType_two_pow_succ] at htype
          have hunion : TypeHeirarchy.looseUnion .boolean (.int ⟨false, p + 2, Nat.succ_pos _⟩) =
              .int ⟨false, p + 2, Nat.succ_pos _⟩ := rfl
          rw [hunion, hunion] at htype
          have hmonomial : monomialType typeOf 1 [t] = typeOf t := rfl
          refine Or.inr ⟨?_, ?_⟩
          · rw [isBooleanLine, ← htype]
            rfl
          · rw [hmonomial, ← htype]
            rfl

end Summand

/-- The type of a multiple of a signed variable plus a power of two times a boolean one is the type
that `PlusOperator` gives to the expression, whichever of the two have lines of their own. -/
theorem getType_sum {typeOf : ℕ → FiniteType} {M : ℤ} (hM : 0 < M) {p w x y : ℕ} {hw : 0 < w}
    (hx : typeOf x = .int ⟨true, w, hw⟩) (hy : typeOf y = .boolean) {k₁ k₂ : ℤ} {t₁ t₂ : ℕ}
    (h₁ : Summand typeOf M x k₁ t₁) (h₂ : Summand typeOf (2 ^ p) y k₂ t₂) (hlt : t₁ < t₂)
    (fuel : ℕ) :
    (ofTwo typeOf k₁ t₁ k₂ t₂).getType typeOf (fuel + 2) =
      some (PlusOperator.sumTypes 2 (TypeHeirarchy.looseUnion
        (TimesOperator.multiplyTypes (.int ⟨true, w, hw⟩) (IntConstant.getType M))
        (TimesOperator.multiplyTypes .boolean (IntConstant.getType (2 ^ p))))) := by
  obtain ⟨a, ha, hleft, hright⟩ := TimesOperator.multiplyTypes_signed hM hw
  rw [← hx] at hright
  obtain ⟨hk₁, hnot, b, hb, hmonomial, hmax⟩ := h₁.signed hM hx hright
  have hpower : (TimesOperator.multiplyTypes .boolean (IntConstant.getType (2 ^ p))).kind =
    .int ⟨false, p + 1, Nat.succ_pos p⟩ := IntConstant.kind_two_pow p
  have htwo : 2 ≤ p + 2 := Nat.le_add_left 2 p
  -- the width of the sum is the same in either order of the summands
  have hlength : max (max 2 b) (p + 2) = max a (p + 2) := by
    rw [hmax, max_comm 2 a, max_assoc, max_eq_right htwo]
  rw [hleft, TypeHeirarchy.looseUnion_signed_unsigned ha hpower, PlusOperator.sumTypes_two_signed]
  -- a boolean monomial joins the type of the other one directly
  rcases h₂.boolean hy with ⟨hboolean, rfl⟩ | ⟨hother, hkind⟩
  · rw [getType_ofTwo_of_boolean hk₁.ne' (by positivity) hlt.ne hnot hboolean, hmonomial,
      TypeHeirarchy.looseUnion_unsigned_signed hb rfl,
      TypeHeirarchy.looseUnion_signed_unsigned _ (IntConstant.kind_two_pow p),
      PlusOperator.sumTypes_two_signed, TypeHeirarchy.looseUnion_signed_signed]
    -- joining it a second time adds nothing
    have hle : max 2 b ≤ max a (p + 2) + 1 := by
      rw [← hlength]
      exact Nat.le_succ_of_le le_sup_left
    have hunion : max (max 2 b) (max (max 2 b) (p + 2) + 1) = max a (p + 2) + 1 := by
      rw [hlength, max_eq_right hle]
    exact congrArg some (FiniteType.int_congr hunion)
  · rw [getType_ofTwo_of_not_boolean k₁ k₂ hnot hother, hmonomial]
    have hsecond : (TypeHeirarchy.looseUnion .boolean (monomialType typeOf k₂ [t₂])).kind =
        .int ⟨false, p + 1, Nat.succ_pos p⟩ := by
      rw [TypeHeirarchy.looseUnion_boolean hkind, hkind]
    rw [TypeHeirarchy.looseUnion_unsigned_signed hb hsecond, PlusOperator.sumTypes_two_signed]
    have hunion : max (p + 2) b + 1 = max a (p + 2) + 1 := by
      rw [← hlength, max_comm 2 b, max_assoc, max_eq_right htwo, max_comm]
    exact congrArg some (FiniteType.int_congr hunion)

end Summands

end Pepper.Frontend
