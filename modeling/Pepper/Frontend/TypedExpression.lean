import Pepper.Frontend.BitString
import Pepper.Frontend.TermsList

/-!
# Polynomial expressions with their types

A `TermsList` keeps, besides its degree, the union of the types of all terms that were ever added
(`componentType`) and the boolean variables of these (`booleanInputs`); the expression of a bit
string answers with the type of the string, whatever happens to it (`targetType`). The operations
are those of `PolynomialExpression` (`erase` forgets the types), with the binary searches of the
source. `getType` is the type of an expression: that of the bit string, the union over all values
of at most ten boolean variables, or the type of a sum of that many terms. It calls itself through
`add`, so that it takes fuel.
-/

set_option autoImplicit false

namespace Pepper.Frontend

mutual

/-- A product. -/
inductive TypedTerm where
  | mk (constant : FloatConstant) (monomerFactors : List ℕ) (polyFactors : List TypedExpression)
      (degree : ℕ)

/-- A sum. -/
inductive TypedExpression where
  | mk (terms : List TypedTerm) (degree : ℕ) (componentType : FiniteType)
      (booleanInputs : List ℕ) (targetType : Option FiniteType)

end

mutual

/-- The product without the types. -/
def TypedTerm.erase : TypedTerm → PolynomialTerm
  | .mk c ms ps d => .mk c ms (eraseFactors ps) d

def eraseFactors : List TypedExpression → List PolynomialExpression
  | [] => []
  | p :: ps => p.erase :: eraseFactors ps

/-- The sum without the types. -/
def TypedExpression.erase : TypedExpression → PolynomialExpression
  | .mk ts d _ _ _ => .mk (eraseTerms ts) d

def eraseTerms : List TypedTerm → List PolynomialTerm
  | [] => []
  | t :: ts => t.erase :: eraseTerms ts

end

namespace TypedTerm

def constant : TypedTerm → FloatConstant
  | mk c _ _ _ => c

def monomerFactors : TypedTerm → List ℕ
  | mk _ ms _ _ => ms

def polyFactors : TypedTerm → List TypedExpression
  | mk _ _ ps _ => ps

def degree : TypedTerm → ℕ
  | mk _ _ _ d => d

def new : TypedTerm := mk .ONE [] [] 0

def setConstant (c : FloatConstant) : TypedTerm → TypedTerm
  | mk _ ms ps d => mk c ms ps d

end TypedTerm

namespace TypedExpression

def terms : TypedExpression → List TypedTerm
  | mk ts _ _ _ _ => ts

def degree : TypedExpression → ℕ
  | mk _ d _ _ _ => d

def componentType : TypedExpression → FiniteType
  | mk _ _ κ _ _ => κ

def booleanInputs : TypedExpression → List ℕ
  | mk _ _ _ B _ => B

def targetType : TypedExpression → Option FiniteType
  | mk _ _ _ _ T => T

/-- The constructor. -/
def new : TypedExpression := mk [] 0 .boolean [] none

end TypedExpression

/-- `Collections.binarySearch` in the terms of a sum. -/
def searchTyped (ts : List TypedTerm) (pt : TypedTerm) : ℤ := searchTerm (eraseTerms ts) pt.erase

theorem eraseFactors_eq_map (ps : List TypedExpression) :
    eraseFactors ps = ps.map TypedExpression.erase := by
  induction ps with
  | nil => rfl
  | cons p ps ih => rw [eraseFactors, ih, List.map_cons]

theorem eraseTerms_eq_map (ts : List TypedTerm) : eraseTerms ts = ts.map TypedTerm.erase := by
  induction ts with
  | nil => rfl
  | cons t ts ih => rw [eraseTerms, ih, List.map_cons]

namespace TypedTerm

@[simp] theorem constant_erase (t : TypedTerm) : t.erase.constant = t.constant := by
  cases t
  rfl

@[simp] theorem monomerFactors_erase (t : TypedTerm) :
    t.erase.monomerFactors = t.monomerFactors := by
  cases t
  rfl

@[simp] theorem polyFactors_erase (t : TypedTerm) :
    t.erase.polyFactors = t.polyFactors.map TypedExpression.erase := by
  cases t
  exact eraseFactors_eq_map _

@[simp] theorem degree_erase (t : TypedTerm) : t.erase.degree = t.degree := by
  cases t
  rfl

@[simp] theorem erase_setConstant (c : FloatConstant) (t : TypedTerm) :
    (t.setConstant c).erase = t.erase.setConstant c := by
  cases t
  rfl

end TypedTerm

namespace TypedExpression

@[simp] theorem terms_erase (pe : TypedExpression) :
    pe.erase.terms = pe.terms.map TypedTerm.erase := by
  cases pe
  exact eraseTerms_eq_map _

@[simp] theorem degree_erase (pe : TypedExpression) : pe.erase.degree = pe.degree := by
  cases pe
  rfl

@[simp] theorem erase_new : new.erase = .new := rfl

/-- Induction over expressions: the hypothesis is about the factors of the terms. -/
theorem induction {motive : TypedExpression → Prop}
    (h : ∀ pe, (∀ t ∈ pe.terms, ∀ p ∈ t.polyFactors, motive p) → motive pe) : ∀ pe, motive pe
  | .mk ts d κ B T => h _ fun t ht p hp =>
      have hlt : sizeOf p < sizeOf (TypedExpression.mk ts d κ B T) := by
        have ht' : sizeOf t < sizeOf ts := List.sizeOf_lt_of_mem ht
        obtain ⟨c, ms, ps, d'⟩ := t
        have hp' : sizeOf p < sizeOf ps := List.sizeOf_lt_of_mem hp
        simp only [TypedExpression.mk.sizeOf_spec, TypedTerm.mk.sizeOf_spec] at ht' ⊢
        omega
      induction h p
termination_by pe => sizeOf pe
decreasing_by exact hlt

end TypedExpression

section Operations

variable (typeOf : ℕ → FiniteType) (typeOfFactor : TypedExpression → Option FiniteType)

/-- Boolean variables. -/
def isBooleanLine (x : ℕ) : Bool := TypeHeirarchy.isSubType (typeOf x) .boolean

namespace TypedTerm

/-- `PolynomialTerm.getType`: the product of the types. -/
def getType (t : TypedTerm) : Option FiniteType :=
  t.polyFactors.foldlM
    (fun toRet pe => (typeOfFactor pe).map (TimesOperator.multiplyTypes toRet))
    (t.monomerFactors.foldl (fun toRet pm => TimesOperator.multiplyTypes toRet (typeOf pm))
      t.constant.getType)

/-- `getBooleanLvalExpressionInputs`. -/
def booleanInputs (t : TypedTerm) : List ℕ :=
  t.monomerFactors.filter (isBooleanLine typeOf) ++
    t.polyFactors.flatMap TypedExpression.booleanInputs

def simplifyProduct : TypedTerm → TypedTerm
  | mk c ms ps _ =>
      let ms' := simplifyMonomers (isBooleanLine typeOf) none ms
      mk c ms' ps (ms'.length + (ps.map TypedExpression.degree).sum)

def sortMonomers : TypedTerm → TypedTerm
  | mk c ms ps d => mk c (ms.insertionSort (· ≤ ·)) ps d

def sortPolys : TypedTerm → TypedTerm
  | mk c ms ps d => mk c ms (ps.insertionSort fun p q => p.erase.compareTo q.erase ≤ 0) d

/-- `addFactor` of a constant. -/
def addConstant (fc : FloatConstant) : TypedTerm → TypedTerm
  | mk c ms ps d => mk (c.multiply fc) ms ps d

/-- `addFactor` of a variable. -/
def addMonomer (x : ℕ) : TypedTerm → TypedTerm
  | mk c ms ps d => simplifyProduct typeOf (sortMonomers (mk c (ms ++ [x]) ps d))

end TypedTerm

mutual

/-- `addFactor` of a polynomial. -/
def TypedTerm.addFactor : TypedExpression → TypedTerm → TypedTerm
  | .mk [] _ _ _ _, .mk _ ms ps d => .mk .ZERO ms ps d
  | .mk [.mk c' ms' ps' _] _ _ _ _, .mk c ms ps d =>
      (TypedTerm.addFactors ps' (.mk (c.multiply c') (ms ++ ms') ps d)).sortMonomers.sortPolys
        |>.simplifyProduct typeOf
  | .mk (t :: u :: ts) d' κ B T, .mk c ms ps d =>
      (TypedTerm.mk c ms (ps ++ [.mk (t :: u :: ts) d' κ B T]) d).sortPolys.simplifyProduct typeOf

def TypedTerm.addFactors : List TypedExpression → TypedTerm → TypedTerm
  | [], pt => pt
  | p :: ps, pt => TypedTerm.addFactors ps (TypedTerm.addFactor p pt)

end

namespace TypedTerm

def productTerm (ptL ptR : TypedTerm) : TypedTerm :=
  let product := mk (ptL.constant.multiply ptR.constant) (ptL.monomerFactors ++ ptR.monomerFactors)
    [] 0
  (addFactors typeOf ptR.polyFactors
    (addFactors typeOf ptL.polyFactors product)).sortMonomers.sortPolys.simplifyProduct typeOf

end TypedTerm

/-- `TermsList.add`. The caches never forget a term. -/
def TypedExpression.add (e : TypedTerm) : TypedExpression → Option TypedExpression
  | .mk ts d κ B T =>
      (e.getType typeOf typeOfFactor).bind fun type =>
        let bst := searchTyped ts e
        if bst < 0 then
          some (.mk (ts.insertIdx (-(bst + 1)).toNat e) (max d e.degree)
            (TypeHeirarchy.looseUnion κ type) (B ∪ e.booleanInputs typeOf) T)
        else none

mutual

def TypedTerm.duplicate : TypedTerm → Option TypedTerm
  | .mk c ms ps d => (duplicateTypedFactors ps).map fun ps' => .mk c ms ps' d

def duplicateTypedFactors : List TypedExpression → Option (List TypedExpression)
  | [] => some []
  | p :: ps => p.duplicate.bind fun p' => (duplicateTypedFactors ps).map (p' :: ·)

/-- All that is cached is computed anew, and a bit string is forgotten. -/
def TypedExpression.duplicate : TypedExpression → Option TypedExpression
  | .mk ts _ _ _ _ => duplicateTypedTerms ts TypedExpression.new

def duplicateTypedTerms : List TypedTerm → TypedExpression → Option TypedExpression
  | [], pe => some pe
  | t :: ts, pe =>
      t.duplicate.bind fun t' => (pe.add typeOf typeOfFactor t').bind (duplicateTypedTerms ts)

end

namespace TypedExpression

/-- `terms.remove` of a term that is there. -/
def removeAt (bst : ℤ) : TypedExpression → TypedExpression
  | mk ts d κ B T => mk (ts.eraseIdx bst.toNat) d κ B T

/-- The last part of `addMultiplesOfTerm`, for a term that is not a sum. -/
def addMultipleOfProduct (multiple : FloatConstant) (pt : TypedTerm) (pe : TypedExpression) :
    Option TypedExpression :=
  let preMultiply := multiple.multiply pt.constant
  if preMultiply.isZero then some pe
  else
    let bst := searchTyped pe.terms pt
    if 0 ≤ bst then
      let old := pe.terms.getD bst.toNat .new
      -- `remove` searches for the term that was found
      let again := searchTyped pe.terms old
      if 0 ≤ again then
        (old.duplicate typeOf typeOfFactor).bind fun newTerm =>
          let sum := preMultiply.add old.constant
          if sum.isZero then some (pe.removeAt again)
          else (pe.removeAt again).add typeOf typeOfFactor (newTerm.setConstant sum)
      else none
    else
      (pt.duplicate typeOf typeOfFactor).bind fun newTerm =>
        pe.add typeOf typeOfFactor (newTerm.setConstant preMultiply)

end TypedExpression

mutual

/-- `addMultiplesOfTerm`: a term that is nothing but a sum is added term by term. -/
def TypedExpression.addMultiplesOfTerm : FloatConstant → TypedTerm → TypedExpression →
    Option TypedExpression
  | multiple, .mk c [] [p] _, pe =>
      TypedExpression.addMultiplesOfSum (multiple.multiply c) p pe
  | multiple, .mk c [] [] d, pe =>
      TypedExpression.addMultipleOfProduct typeOf typeOfFactor multiple (.mk c [] [] d) pe
  | multiple, .mk c (x :: ms) ps d, pe =>
      TypedExpression.addMultipleOfProduct typeOf typeOfFactor multiple (.mk c (x :: ms) ps d) pe
  | multiple, .mk c [] (p :: q :: ps) d, pe =>
      TypedExpression.addMultipleOfProduct typeOf typeOfFactor multiple (.mk c [] (p :: q :: ps) d) pe

def TypedExpression.addMultiplesOfSum : FloatConstant → TypedExpression → TypedExpression →
    Option TypedExpression
  | multiple, .mk ts _ _ _ _, pe => TypedExpression.addMultiplesOfTerms multiple ts pe

def TypedExpression.addMultiplesOfTerms : FloatConstant → List TypedTerm → TypedExpression →
    Option TypedExpression
  | _, [], pe => some pe
  | multiple, t :: ts, pe => (TypedExpression.addMultiplesOfTerm multiple t pe).bind
      (TypedExpression.addMultiplesOfTerms multiple ts)

end

/-- `addFactor` of a bit. -/
def TypedTerm.addBit (e : BitExpression) (pt : TypedTerm) : TypedTerm :=
  match e with
  | .constant b => addConstant (if b then .ONE else .ZERO) pt
  | .lval x => addMonomer typeOf x pt

/-- `toPolynomialExpression` of a bit string: a class of its own, with the type of the string. -/
def TypedExpression.ofBitString (bs : BitString) : Option TypedExpression :=
  (List.range bs.bitwiseEncoding.getBits).foldlM (fun pe i =>
    TypedExpression.addMultiplesOfTerm typeOf typeOfFactor (.valueOf (signedPot bs i) 1 Nat.one_pos)
      (TypedTerm.addBit typeOf (bs.bitAt i) .new) pe)
    (.mk [] 0 .boolean [] (some (.int bs.bitwiseEncoding)))

/-- `toPolynomialExpression` of a constant. -/
def TypedExpression.ofConstant (c : FloatConstant) : Option TypedExpression :=
  TypedExpression.addMultiplesOfTerm typeOf typeOfFactor c .new .new

/-- `toPolynomialExpression` of a variable. -/
def TypedExpression.ofMonomer (x : ℕ) : Option TypedExpression :=
  TypedExpression.addMultiplesOfTerm typeOf typeOfFactor .ONE (TypedTerm.new.addMonomer typeOf x)
    .new

/-- `TimesOperator.inlineOp`, which calls its first argument the right one. -/
def TypedExpression.inlineTimes (pright pleft : TypedExpression) : Option TypedExpression :=
  if pleft.degree + pright.degree ≤ 2 then
    TypedExpression.addMultiplesOfTerm typeOf typeOfFactor .ONE
      (TypedTerm.addFactor typeOf pright (TypedTerm.addFactor typeOf pleft .new)) .new
  else none

/-- `PlusOperator.inlineOp`: the longer sum itself becomes the result. -/
def TypedExpression.inlinePlus (pleft pright : TypedExpression) : Option TypedExpression :=
  if (pleft.degree ≤ 2 ∧ pright.degree ≤ 1) ∨ (pleft.degree ≤ 1 ∧ pright.degree ≤ 2) then
    if pright.terms.length < pleft.terms.length then
      TypedExpression.addMultiplesOfTerms typeOf typeOfFactor .ONE pright.terms pleft
    else TypedExpression.addMultiplesOfTerms typeOf typeOfFactor .ONE pleft.terms pright
  else none

/-! ## Substitution -/

/-- Values of some variables. -/
abbrev Values := ℕ → Option Bool

/-- The variables of a product that have a value become constants. -/
def evaluateMonomers (vals : Values) : List ℕ → TypedTerm → TypedTerm
  | [], toRet => toRet
  | f :: ms, toRet =>
      match vals f with
      | some x => evaluateMonomers vals ms (toRet.addConstant (if x then .ONE else .ZERO))
      | none => evaluateMonomers vals ms (toRet.addMonomer typeOf f)

mutual

def TypedTerm.evaluate (vals : Values) : TypedTerm → Option TypedTerm
  | .mk c ms ps _ =>
      (evaluateTypedFactors vals ps (evaluateMonomers typeOf vals ms .new)).map fun toRet =>
        toRet.addConstant c

def evaluateTypedFactors (vals : Values) : List TypedExpression → TypedTerm → Option TypedTerm
  | [], toRet => some toRet
  | pe :: ps, toRet => (pe.evaluate vals).bind fun pe' =>
      evaluateTypedFactors vals ps (toRet.addFactor typeOf pe')

/-- The sum is formed anew, to account for cancellation. -/
def TypedExpression.evaluate (vals : Values) : TypedExpression → Option TypedExpression
  | .mk ts _ _ _ _ => (evaluateTypedTerms vals ts TypedExpression.new).bind
      (TypedExpression.duplicate typeOf typeOfFactor)

def evaluateTypedTerms (vals : Values) : List TypedTerm → TypedExpression → Option TypedExpression
  | [], toRet => some toRet
  | pt :: ts, toRet => (pt.evaluate vals).bind fun pt' =>
      (TypedExpression.addMultiplesOfTerm typeOf typeOfFactor .ONE pt' toRet).bind
        (evaluateTypedTerms vals ts)

end

/-- All assignments of the variables, the last one changing fastest. -/
def assignments : List ℕ → List Values
  | [] => [fun _ => none]
  | x :: xs => [false, true].flatMap fun b =>
      (assignments xs).map fun vals y => if y = x then some b else vals y

/-- The union of the types of the sums that substitution leaves, or nothing before the first. -/
def exhaust (pe : TypedExpression) : List Values → Option FiniteType → Option (Option FiniteType)
  | [], foundType => some foundType
  | vals :: rest, foundType =>
      (pe.evaluate typeOf typeOfFactor vals).bind fun localEval => (typeOfFactor localEval).bind fun result =>
        exhaust pe rest (some (match foundType with
          | none => result
          | some found => TypeHeirarchy.looseUnion found result))

end Operations

section GetType

variable (typeOf : ℕ → FiniteType)

/-- `getType`, with as much fuel as calls are nested. -/
def TypedExpression.getType : ℕ → TypedExpression → Option FiniteType
  | 0, _ => none
  | fuel + 1, pe =>
      match pe.targetType with
      | some targetType => some targetType
      | none =>
          if 0 < pe.booleanInputs.length ∧ pe.booleanInputs.length ≤ 10 then
            (exhaust typeOf (TypedExpression.getType fuel) pe (assignments pe.booleanInputs)
              none).bind id
          else some (PlusOperator.sumTypes pe.terms.length pe.componentType)

end GetType

end Pepper.Frontend
