import Mathlib.Data.List.Sort
import Pepper.Frontend.FloatConstant

/-!
# Polynomial expressions of the front end

A `PolynomialExpression` is a sorted list of terms and a degree that only grows, also when terms
cancel. A `PolynomialTerm` is a constant, a sorted list of variables, a list of polynomial factors
and its degree. The operations that build expressions are `addFactor`, `productTerm` and
`addMultiplesOfTerm`, and the inlining rules are made of them: what a rule gives for reachable
expressions is `Reachable`.
-/

set_option autoImplicit false

namespace Pepper.Frontend

mutual

/-- A product. -/
inductive PolynomialTerm where
  | mk (constant : FloatConstant) (monomerFactors : List ℕ)
      (polyFactors : List PolynomialExpression) (degree : ℕ)

/-- A sum. -/
inductive PolynomialExpression where
  | mk (terms : List PolynomialTerm) (degree : ℕ)

end

namespace PolynomialTerm

def constant : PolynomialTerm → FloatConstant
  | mk c _ _ _ => c

/-- The variables, by the numbers of the lines that assign them. -/
def monomerFactors : PolynomialTerm → List ℕ
  | mk _ ms _ _ => ms

def polyFactors : PolynomialTerm → List PolynomialExpression
  | mk _ _ ps _ => ps

def degree : PolynomialTerm → ℕ
  | mk _ _ _ d => d

section Fields

variable (c : FloatConstant) (ms : List ℕ) (ps : List PolynomialExpression) (d : ℕ)

@[simp] theorem constant_mk : (mk c ms ps d).constant = c := rfl

@[simp] theorem monomerFactors_mk : (mk c ms ps d).monomerFactors = ms := rfl

@[simp] theorem polyFactors_mk : (mk c ms ps d).polyFactors = ps := rfl

@[simp] theorem degree_mk : (mk c ms ps d).degree = d := rfl

end Fields

/-- The constructor. -/
def new : PolynomialTerm := mk .ONE [] [] 0

def setConstant (c : FloatConstant) : PolynomialTerm → PolynomialTerm
  | mk _ ms ps d => mk c ms ps d

end PolynomialTerm

namespace PolynomialExpression

/-- `getTerms`. -/
def terms : PolynomialExpression → List PolynomialTerm
  | mk ts _ => ts

/-- `getDegree`, the degree that `TermsList` keeps. -/
def degree : PolynomialExpression → ℕ
  | mk _ d => d

@[simp] theorem terms_mk (ts : List PolynomialTerm) (d : ℕ) : (mk ts d).terms = ts := rfl

@[simp] theorem degree_mk (ts : List PolynomialTerm) (d : ℕ) : (mk ts d).degree = d := rfl

/-- The constructor. -/
def new : PolynomialExpression := mk [] 0

end PolynomialExpression

open PolynomialTerm PolynomialExpression

/-! ## The order of terms -/

/-- The first difference of two lists of variables. -/
def compareMonomers : List ℕ → List ℕ → ℤ
  | x :: xs, y :: ys => if (x : ℤ) - y ≠ 0 then (x : ℤ) - y else compareMonomers xs ys
  | _, _ => 0

mutual

/-- High degree first, then many variables, then the variables, then many factors, then the
factors. -/
def PolynomialTerm.compareTo : PolynomialTerm → PolynomialTerm → ℤ
  | .mk _ ms ps d, o =>
      if (o.degree : ℤ) - d ≠ 0 then (o.degree : ℤ) - d
      else if (o.monomerFactors.length : ℤ) - ms.length ≠ 0 then
        (o.monomerFactors.length : ℤ) - ms.length
      else if compareMonomers ms o.monomerFactors ≠ 0 then compareMonomers ms o.monomerFactors
      else if (o.polyFactors.length : ℤ) - ps.length ≠ 0 then
        (o.polyFactors.length : ℤ) - ps.length
      else compareFactors ps o.polyFactors
termination_by structural t => t

def compareFactors : List PolynomialExpression → List PolynomialExpression → ℤ
  | [], _ => 0
  | _ :: _, [] => 0
  | p :: ps, q :: qs => if p.compareTo q ≠ 0 then p.compareTo q else compareFactors ps qs
termination_by structural ps => ps

/-- High degree first, then many terms, then the terms and their constants. -/
def PolynomialExpression.compareTo : PolynomialExpression → PolynomialExpression → ℤ
  | .mk ts d, o =>
      if (o.degree : ℤ) - d ≠ 0 then (o.degree : ℤ) - d
      else if (o.terms.length : ℤ) - ts.length ≠ 0 then (o.terms.length : ℤ) - ts.length
      else compareTerms ts o.terms
termination_by structural pe => pe

def compareTerms : List PolynomialTerm → List PolynomialTerm → ℤ
  | [], _ => 0
  | _ :: _, [] => 0
  | t :: ts, u :: us =>
      if t.compareTo u ≠ 0 then t.compareTo u
      else if t.constant.compareTo u.constant ≠ 0 then t.constant.compareTo u.constant
      else compareTerms ts us
termination_by structural ts => ts

end

/-! ## Lists of terms -/

/-- `TermsList.add`: in front of the first term that is larger; a term that is there already is a
collision. -/
def insertTerm (e : PolynomialTerm) : List PolynomialTerm → Option (List PolynomialTerm)
  | [] => some [e]
  | t :: ts =>
      if t.compareTo e < 0 then (insertTerm e ts).map (t :: ·)
      else if t.compareTo e = 0 then none
      else some (e :: t :: ts)

def PolynomialExpression.add (e : PolynomialTerm) :
    PolynomialExpression → Option PolynomialExpression
  | .mk ts d => (insertTerm e ts).map fun ts' => .mk ts' (max d e.degree)

/-- `TermsList.floor`, and `none` where `contains` is false. -/
def floor (pt : PolynomialTerm) : List PolynomialTerm → Option PolynomialTerm
  | [] => none
  | t :: ts =>
      if t.compareTo pt < 0 then floor pt ts else if t.compareTo pt = 0 then some t else none

/-- `TermsList.remove`. -/
def removeTerm (pt : PolynomialTerm) : List PolynomialTerm → List PolynomialTerm
  | [] => []
  | t :: ts =>
      if t.compareTo pt < 0 then t :: removeTerm pt ts
      else if t.compareTo pt = 0 then ts else t :: ts

mutual

def PolynomialTerm.duplicate : PolynomialTerm → Option PolynomialTerm
  | .mk c ms ps d => (duplicateFactors ps).map fun ps' => .mk c ms ps' d

def duplicateFactors : List PolynomialExpression → Option (List PolynomialExpression)
  | [] => some []
  | p :: ps => p.duplicate.bind fun p' => (duplicateFactors ps).map (p' :: ·)

/-- The degree is computed anew. -/
def PolynomialExpression.duplicate : PolynomialExpression → Option PolynomialExpression
  | .mk ts _ => duplicateTerms ts PolynomialExpression.new

def duplicateTerms : List PolynomialTerm → PolynomialExpression → Option PolynomialExpression
  | [], pe => some pe
  | t :: ts, pe => t.duplicate.bind fun t' => (pe.add t').bind (duplicateTerms ts)

end

/-! ## Building terms and expressions -/

section Operations

variable (isBoolean : ℕ → Bool)

/-- The loop over the variables: `a * a` is `a` for a boolean. -/
def simplifyMonomers : Option ℕ → List ℕ → List ℕ
  | _, [] => []
  | currentMatch, pm :: rest =>
      if currentMatch = some pm then
        if isBoolean pm then simplifyMonomers currentMatch rest
        else pm :: simplifyMonomers currentMatch rest
      else pm :: simplifyMonomers (some pm) rest

/-- `simplifyProduct`. -/
def simplifyProduct : PolynomialTerm → PolynomialTerm
  | .mk c ms ps _ =>
      let ms' := simplifyMonomers isBoolean none ms
      .mk c ms' ps (ms'.length + (ps.map PolynomialExpression.degree).sum)

/-- `Collections.sort(monomerFactors)`. -/
def sortMonomers : PolynomialTerm → PolynomialTerm
  | .mk c ms ps d => .mk c (ms.insertionSort (· ≤ ·)) ps d

/-- `Collections.sort(polyFactors)`. -/
def sortPolys : PolynomialTerm → PolynomialTerm
  | .mk c ms ps d => .mk c ms (ps.insertionSort fun p q => p.compareTo q ≤ 0) d

/-- `addFactor` of a constant. -/
def addConstant (fc : FloatConstant) : PolynomialTerm → PolynomialTerm
  | .mk c ms ps d => .mk (c.multiply fc) ms ps d

/-- `addFactor` of a variable. -/
def addMonomer (x : ℕ) : PolynomialTerm → PolynomialTerm
  | .mk c ms ps d => simplifyProduct isBoolean (sortMonomers (.mk c (ms ++ [x]) ps d))

mutual

/-- `addFactor` of a polynomial: the factors of its only term, zero, or one more factor. -/
def addFactor : PolynomialExpression → PolynomialTerm → PolynomialTerm
  | .mk [] _, .mk _ ms ps d => .mk .ZERO ms ps d
  | .mk [.mk c' ms' ps' _] _, .mk c ms ps d =>
      simplifyProduct isBoolean
        (sortPolys (sortMonomers (addFactors ps' (.mk (c.multiply c') (ms ++ ms') ps d))))
  | .mk (t :: u :: ts) d', .mk c ms ps d =>
      simplifyProduct isBoolean (sortPolys (.mk c ms (ps ++ [.mk (t :: u :: ts) d']) d))

def addFactors : List PolynomialExpression → PolynomialTerm → PolynomialTerm
  | [], pt => pt
  | p :: ps, pt => addFactors ps (addFactor p pt)

end

/-- `productTerm`. -/
def productTerm (ptL ptR : PolynomialTerm) : PolynomialTerm :=
  let product := PolynomialTerm.mk (ptL.constant.multiply ptR.constant)
    (ptL.monomerFactors ++ ptR.monomerFactors) [] 0
  simplifyProduct isBoolean (sortPolys (sortMonomers
    (addFactors isBoolean ptR.polyFactors (addFactors isBoolean ptL.polyFactors product))))

end Operations

/-- The last part of `addMultiplesOfTerm`, for a term that is not a sum. -/
def addMultipleOfProduct (multiple : FloatConstant) (pt : PolynomialTerm) :
    PolynomialExpression → Option PolynomialExpression
  | .mk ts d =>
      let preMultiply := multiple.multiply pt.constant
      if preMultiply.isZero then some (.mk ts d)
      else
        match floor pt ts with
        | some old =>
            old.duplicate.bind fun newTerm =>
              let sum := preMultiply.add old.constant
              if sum.isZero then some (.mk (removeTerm old ts) d)
              else (PolynomialExpression.mk (removeTerm old ts) d).add (newTerm.setConstant sum)
        | none =>
            pt.duplicate.bind fun newTerm =>
              (PolynomialExpression.mk ts d).add (newTerm.setConstant preMultiply)

mutual

/-- `addMultiplesOfTerm`: a term that is nothing but a sum is added term by term. -/
def addMultiplesOfTerm : FloatConstant → PolynomialTerm → PolynomialExpression →
    Option PolynomialExpression
  | multiple, .mk c [] [p] _, pe => addMultiplesOfSum (multiple.multiply c) p pe
  | multiple, .mk c [] [] d, pe => addMultipleOfProduct multiple (.mk c [] [] d) pe
  | multiple, .mk c (x :: ms) ps d, pe => addMultipleOfProduct multiple (.mk c (x :: ms) ps d) pe
  | multiple, .mk c [] (p :: q :: ps) d, pe =>
      addMultipleOfProduct multiple (.mk c [] (p :: q :: ps) d) pe

def addMultiplesOfSum : FloatConstant → PolynomialExpression → PolynomialExpression →
    Option PolynomialExpression
  | multiple, .mk ts _, pe => addMultiplesOfTerms multiple ts pe

def addMultiplesOfTerms : FloatConstant → List PolynomialTerm → PolynomialExpression →
    Option PolynomialExpression
  | _, [], pe => some pe
  | multiple, t :: ts, pe => (addMultiplesOfTerm multiple t pe).bind (addMultiplesOfTerms multiple ts)

end

/-! ## The inlining rules -/

section Rules

variable (isBoolean : ℕ → Bool)

/-- `toPolynomialExpression` of a constant. -/
def ofConstant (c : FloatConstant) : Option PolynomialExpression :=
  addMultiplesOfTerm c .new .new

/-- `toPolynomialExpression` of a variable. -/
def ofMonomer (x : ℕ) : Option PolynomialExpression :=
  addMultiplesOfTerm .ONE (addMonomer isBoolean x .new) .new

/-- `toPolynomialExpression` of a sum, and of a difference with `NEG_ONE` for `sign`. -/
def polySum (sign : FloatConstant) (left right : PolynomialExpression) :
    Option PolynomialExpression :=
  (addMultiplesOfTerm .ONE (addFactor isBoolean left .new) .new).bind
    (addMultiplesOfTerm sign (addFactor isBoolean right .new))

/-- `toPolynomialExpression` of a product. -/
def polyProduct (left right : PolynomialExpression) : Option PolynomialExpression :=
  addMultiplesOfTerm .ONE (addFactor isBoolean right (addFactor isBoolean left .new)) .new

/-- `PlusOperator.inlineOp`: the shorter sum is added to the longer one. -/
def inlinePlus (pleft pright : PolynomialExpression) : Option PolynomialExpression :=
  if (pleft.degree ≤ 2 ∧ pright.degree ≤ 1) ∨ (pleft.degree ≤ 1 ∧ pright.degree ≤ 2) then
    if pright.terms.length < pleft.terms.length then addMultiplesOfTerms .ONE pright.terms pleft
    else addMultiplesOfTerms .ONE pleft.terms pright
  else none

/-- `TimesOperator.inlineOp`. -/
def inlineTimes (pright pleft : PolynomialExpression) : Option PolynomialExpression :=
  if pleft.degree + pright.degree ≤ 2 then polyProduct isBoolean pleft pright else none

/-- `NotOperator.inlineOp`, `1 - a`. -/
def inlineNot (pmid : PolynomialExpression) : Option PolynomialExpression :=
  if pmid.degree ≤ 2 then
    (addMultiplesOfTerm .ONE .new .new).bind
      (addMultiplesOfTerm .NEG_ONE (addFactor isBoolean pmid .new))
  else none

/-- `XOROperator.inlineOp`, `a + (b + -2 * (a * b))`. -/
def inlineXor (a b : PolynomialExpression) : Option PolynomialExpression :=
  if a.degree ≤ 1 ∧ b.degree ≤ 1 then
    (polyProduct isBoolean a b).bind fun ab =>
      (ofConstant (.valueOf (-2) 1 Nat.one_pos)).bind fun minusTwo =>
        (polyProduct isBoolean minusTwo ab).bind fun product =>
          (polySum isBoolean .ONE b product).bind (inlinePlus a)
  else none

/-- `OrOperator.inlineOp`, `1 + (a + -1) * (1 - b)`. -/
def inlineOr (a b : PolynomialExpression) : Option PolynomialExpression :=
  if a.degree + b.degree ≤ 2 then
    (ofConstant .NEG_ONE).bind fun minusOne =>
      (polySum isBoolean .ONE a minusOne).bind fun left =>
        (ofConstant .ONE).bind fun one =>
          (polySum isBoolean .NEG_ONE one b).bind fun right =>
            (polyProduct isBoolean left right).bind (inlinePlus one)
  else none

end Rules

mutual

/-- The terms that are built from constants, variables and expressions. -/
inductive ReachableTerm (isBoolean : ℕ → Bool) : PolynomialTerm → Prop
  | new : ReachableTerm isBoolean .new
  | constant {pt : PolynomialTerm} (c : FloatConstant) (h : ReachableTerm isBoolean pt) :
      ReachableTerm isBoolean (addConstant c pt)
  | monomer {pt : PolynomialTerm} (x : ℕ) (h : ReachableTerm isBoolean pt) :
      ReachableTerm isBoolean (addMonomer isBoolean x pt)
  | factor {pe : PolynomialExpression} {pt : PolynomialTerm} (hpe : Reachable isBoolean pe)
      (h : ReachableTerm isBoolean pt) : ReachableTerm isBoolean (addFactor isBoolean pe pt)
  | product {ptL ptR : PolynomialTerm} (hL : ReachableTerm isBoolean ptL)
      (hR : ReachableTerm isBoolean ptR) : ReachableTerm isBoolean (productTerm isBoolean ptL ptR)
  | term {pe : PolynomialExpression} {pt : PolynomialTerm} (hpe : Reachable isBoolean pe)
      (h : pt ∈ pe.terms) : ReachableTerm isBoolean pt

/-- The expressions that are built by adding multiples of terms. -/
inductive Reachable (isBoolean : ℕ → Bool) : PolynomialExpression → Prop
  | new : Reachable isBoolean .new
  | add {multiple : FloatConstant} {pt : PolynomialTerm} {pe pe' : PolynomialExpression}
      (hpt : ReachableTerm isBoolean pt) (hpe : Reachable isBoolean pe)
      (h : addMultiplesOfTerm multiple pt pe = some pe') : Reachable isBoolean pe'

end

section RulesReachable

variable {isBoolean : ℕ → Bool}

theorem reachable_addMultiplesOfTerms {multiple : FloatConstant} {ts : List PolynomialTerm}
    (hts : ∀ t ∈ ts, ReachableTerm isBoolean t) {pe pe' : PolynomialExpression}
    (hpe : Reachable isBoolean pe) (h : addMultiplesOfTerms multiple ts pe = some pe') :
    Reachable isBoolean pe' := by
  induction ts generalizing pe with
  | nil =>
      cases h
      exact hpe
  | cons t ts ih =>
      obtain ⟨pe₁, h₁, h₂⟩ := Option.bind_eq_some_iff.1 h
      have hrest : ∀ u ∈ ts, ReachableTerm isBoolean u := by
        intro u hu
        exact hts u (List.mem_cons_of_mem t hu)
      exact ih hrest (.add (hts t List.mem_cons_self) hpe h₁) h₂

theorem reachable_ofConstant {c : FloatConstant} {pe : PolynomialExpression}
    (h : ofConstant c = some pe) : Reachable isBoolean pe :=
  .add .new .new h

theorem reachable_ofMonomer {x : ℕ} {pe : PolynomialExpression}
    (h : ofMonomer isBoolean x = some pe) : Reachable isBoolean pe :=
  .add (.monomer x .new) .new h

theorem reachable_polySum {sign : FloatConstant} {l r pe : PolynomialExpression}
    (hl : Reachable isBoolean l) (hr : Reachable isBoolean r)
    (h : polySum isBoolean sign l r = some pe) : Reachable isBoolean pe := by
  obtain ⟨pe₁, h₁, h₂⟩ := Option.bind_eq_some_iff.1 h
  exact .add (.factor hr .new) (.add (.factor hl .new) .new h₁) h₂

theorem reachable_polyProduct {l r pe : PolynomialExpression} (hl : Reachable isBoolean l)
    (hr : Reachable isBoolean r) (h : polyProduct isBoolean l r = some pe) :
    Reachable isBoolean pe :=
  .add (.factor hr (.factor hl .new)) .new h

theorem reachable_inlinePlus {l r pe : PolynomialExpression} (hl : Reachable isBoolean l)
    (hr : Reachable isBoolean r) (h : inlinePlus l r = some pe) : Reachable isBoolean pe := by
  unfold inlinePlus at h
  split at h
  · split at h
    · exact reachable_addMultiplesOfTerms (fun t ht => .term hr ht) hl h
    · exact reachable_addMultiplesOfTerms (fun t ht => .term hl ht) hr h
  · cases h

theorem reachable_inlineTimes {l r pe : PolynomialExpression} (hl : Reachable isBoolean l)
    (hr : Reachable isBoolean r) (h : inlineTimes isBoolean r l = some pe) :
    Reachable isBoolean pe := by
  unfold inlineTimes at h
  split at h
  · exact reachable_polyProduct hl hr h
  · cases h

theorem reachable_inlineNot {a pe : PolynomialExpression} (ha : Reachable isBoolean a)
    (h : inlineNot isBoolean a = some pe) : Reachable isBoolean pe := by
  unfold inlineNot at h
  split at h
  · obtain ⟨pe₁, h₁, h₂⟩ := Option.bind_eq_some_iff.1 h
    exact .add (.factor ha .new) (.add .new .new h₁) h₂
  · cases h

theorem reachable_inlineXor {a b pe : PolynomialExpression} (ha : Reachable isBoolean a)
    (hb : Reachable isBoolean b) (h : inlineXor isBoolean a b = some pe) :
    Reachable isBoolean pe := by
  unfold inlineXor at h
  split at h
  · obtain ⟨ab, hab, h⟩ := Option.bind_eq_some_iff.1 h
    obtain ⟨minusTwo, hminusTwo, h⟩ := Option.bind_eq_some_iff.1 h
    obtain ⟨product, hproduct, h⟩ := Option.bind_eq_some_iff.1 h
    obtain ⟨right, hright, h⟩ := Option.bind_eq_some_iff.1 h
    have hproduct := reachable_polyProduct (reachable_ofConstant hminusTwo)
      (reachable_polyProduct ha hb hab) hproduct
    exact reachable_inlinePlus ha (reachable_polySum hb hproduct hright) h
  · cases h

theorem reachable_inlineOr {a b pe : PolynomialExpression} (ha : Reachable isBoolean a)
    (hb : Reachable isBoolean b) (h : inlineOr isBoolean a b = some pe) :
    Reachable isBoolean pe := by
  unfold inlineOr at h
  split at h
  · obtain ⟨minusOne, hminusOne, h⟩ := Option.bind_eq_some_iff.1 h
    obtain ⟨left, hleft, h⟩ := Option.bind_eq_some_iff.1 h
    obtain ⟨one, hone, h⟩ := Option.bind_eq_some_iff.1 h
    obtain ⟨right, hright, h⟩ := Option.bind_eq_some_iff.1 h
    obtain ⟨product, hproduct, h⟩ := Option.bind_eq_some_iff.1 h
    have hone : Reachable isBoolean one := reachable_ofConstant hone
    have hleft := reachable_polySum ha (reachable_ofConstant hminusOne) hleft
    have hright := reachable_polySum hone hb hright
    exact reachable_inlinePlus hone (reachable_polyProduct hleft hright hproduct) h
  · cases h

end RulesReachable

end Pepper.Frontend
