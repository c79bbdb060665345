import Pepper.Cmtgkr.Layer

/-!
# The constraint generator

`ConstraintGenerator` writes each gadget once and runs it in three modes: counting variables and
constraints (`MODE_SIZE`), accumulating the weighted constraints as coefficients (`MODE_V`), and
filling in rational values (`MODE_P`). Every call of a gadget has one `Effect` that does not depend
on the mode: how many variables and constraints it creates, what it writes and which terms it
adds (`Op.step_eq`). A mode keeps its part of the effect.
-/

set_option autoImplicit false

open Pepper.Common.Gmp Pepper.Foundations.Loop
open Pepper.Cmtgkr.Layer (convertToZ)

namespace Pepper.Common.ConstraintGen

/-! ## State -/

inductive Mode where
  | size
  | v
  | p
deriving DecidableEq, Repr

/-- What `MODE_V` accumulates: a constant, linear and quadratic coefficients. -/
structure Accumulators where
  cValue : ℤ
  cktCoefs1 : Vec
  cktCoefs2 : Vec

structure Generator where
  mode : Mode
  prime : ℤ
  oneq : ℚ
  variablesNext : ℕ
  constraintsNext : ℕ
  qF1 : ℕ → ℚ
  acc : Accumulators
  cktCoefs1Length : ℕ
  gamma : Vec

/-- The constructor and `init_state`; the accumulators of the verifier start empty. -/
def Generator.init (mode : Mode) (prime : ℤ) (qF1 : ℕ → ℚ) (cktCoefs1Length : ℕ) (gamma : Vec) :
    Generator :=
  let g : Generator :=
    { mode := mode, prime := prime, oneq := mkRat 1 1, variablesNext := 0, constraintsNext := 0,
      qF1 := qF1, acc := ⟨0, zeroVec, zeroVec⟩, cktCoefs1Length := cktCoefs1Length, gamma := gamma }
  -- the constructor sets `oneq` a second time where it means `zeroq`
  { g with oneq := mkRat 0 1 }

/-- A term that a constraint receives; a negative index is an absent factor. -/
structure Term where
  constraint : ℕ
  coefficient : ℤ
  i : ℤ
  j : ℤ
deriving DecidableEq, Repr

/-- The four places of `add_term` in `MODE_V`. -/
def accumulate (gamma : Vec) (length : ℕ) (a : Accumulators) (t : Term) : Accumulators :=
  let c := t.coefficient * gamma t.constraint
  if t.i < 0 ∧ t.j < 0 then { a with cValue := a.cValue + c }
  else if 0 ≤ t.j ∧ t.i < 0 then
    { a with
      cktCoefs1 := Function.update a.cktCoefs1 t.j.toNat (a.cktCoefs1 t.j.toNat + c) }
  else if 0 ≤ t.i ∧ t.j < 0 then
    { a with
      cktCoefs1 := Function.update a.cktCoefs1 t.i.toNat (a.cktCoefs1 t.i.toNat + c) }
  else
    { a with
      cktCoefs2 := Function.update a.cktCoefs2 (t.i.toNat * length + t.j.toNat)
        (a.cktCoefs2 (t.i.toNat * length + t.j.toNat) + c) }

namespace Generator

/-- `create_new_variable` and `create_new_variables`; the identifier is the old counter. -/
def createNewVariables (s : Generator) (n : ℕ) : Generator :=
  { s with variablesNext := s.variablesNext + n }

/-- `create_new_constraint`. -/
def createNewConstraint (s : Generator) : Generator :=
  { s with constraintsNext := s.constraintsNext + 1 }

/-- A block of code under `mode == MODE_P`. -/
def prover (s : Generator) (f : (ℕ → ℚ) → ℕ → ℚ) : Generator :=
  { s with qF1 := if s.mode = .p then f s.qF1 else s.qF1 }

/-- `add_term` on two variables. -/
def addTerm (s : Generator) (coefficient : ℤ) (i j : ℤ) (constraintID : ℕ) : Generator :=
  { s with
    acc := if s.mode = .v then
      accumulate s.gamma s.cktCoefs1Length s.acc ⟨constraintID, coefficient, i, j⟩ else s.acc }

/-- `add_term` on a list of variables behind the first factor `i`: all but the last become
products of their own. -/
def addTermChain (coefficient : ℤ) (constraintID : ℕ) : Generator → ℕ → List ℕ → Generator
  | s, i, [] => s.addTerm coefficient i (-1) constraintID
  | s, i, [j] => s.addTerm coefficient i j constraintID
  | s, i, nextFactor :: j :: rest =>
      let product := s.variablesNext
      let verify := s.constraintsNext
      let s := (s.createNewVariables 1).createNewConstraint
      let s := s.prover fun q => Function.update q product (q i * q nextFactor)
      let s := s.addTerm 1 product (-1) verify
      let s := s.addTerm (-1) i nextFactor verify
      addTermChain coefficient constraintID s product (j :: rest)

/-- `add_term` on a list of variables. -/
def addTermList (s : Generator) (coefficient : ℤ) (constraintID : ℕ) : List ℕ → Generator
  | [] => s
  | i :: rest => addTermChain coefficient constraintID s i rest

/-- `create_constant`. -/
def createConstant (s : Generator) (qvalue : ℚ) : Generator :=
  let toRet := s.variablesNext
  let s := s.createNewVariables 1
  let s := s.prover fun q => Function.update q toRet qvalue
  let polyID := s.constraintsNext
  let s := s.createNewConstraint
  let s := s.addTerm 1 toRet (-1) polyID
  s.addTerm (-convertToZ 0 qvalue s.prime) (-1) (-1) polyID

/-- `create_distance_squared`. -/
def createDistanceSquared (s : Generator) (p1 p2 n : ℕ) : Generator :=
  let d := s.variablesNext
  let s := s.createNewVariables 1
  let s := s.prover fun q =>
    forLoop n
      (fun i q =>
        Function.update q d (q d + (q (p1 + i) - q (p2 + i)) * (q (p1 + i) - q (p2 + i))))
      (Function.update q d 0)
  let polyID := s.constraintsNext
  let s := s.createNewConstraint
  let s := forLoop n
    (fun i s =>
      (((s.addTerm 1 (p1 + i : ℕ) (p1 + i : ℕ) polyID).addTerm
        (-1) (p1 + i : ℕ) (p2 + i : ℕ) polyID).addTerm
          (-1) (p1 + i : ℕ) (p2 + i : ℕ) polyID).addTerm 1 (p2 + i : ℕ) (p2 + i : ℕ) polyID)
    s
  s.addTerm (-1) d (-1) polyID

/-- A factor of `create_product`; a negative one is left out. -/
def factor (q : ℕ → ℚ) (a : ℤ) : ℚ := if 0 ≤ a then q a.toNat else 1

/-- `create_product`. -/
def createProduct (s : Generator) (a b : ℤ) : Generator :=
  let ab := s.variablesNext
  let s := s.createNewVariables 1
  let s := s.prover fun q => Function.update q ab (1 * factor q a * factor q b)
  let polyID := s.constraintsNext
  let s := s.createNewConstraint
  let s := s.addTerm 1 a b polyID
  s.addTerm (-1) ab (-1) polyID

/-- `create_sum`. -/
def createSum (s : Generator) (terms : List ℕ) : Generator :=
  let sum := s.variablesNext
  let s := s.createNewVariables 1
  let s := s.prover fun q =>
    terms.foldl (fun q k => Function.update q sum (q sum + q k)) (Function.update q sum 0)
  let sumTest := s.constraintsNext
  let s := s.createNewConstraint
  let s := terms.foldl (fun s k => s.addTerm 1 (k : ℕ) (-1) sumTest) s
  s.addTerm (-1) sum (-1) sumTest

/-- `decompose_bits`: from the top bit down, each bit with its weight. -/
def decomposeBits (a : ℤ) (bits bitsLength : ℕ) (q : ℕ → ℚ) : ℕ → ℚ :=
  (forLoop bitsLength
    (fun b (st : ℤ × ℤ × (ℕ → ℚ)) =>
      let sub := st.1 - st.2.1
      if 0 ≤ sub then (sub, st.2.1.tdiv 2, Function.update st.2.2 (bits + b) st.2.1)
      else (st.1, st.2.1.tdiv 2, Function.update st.2.2 (bits + b) 0))
    (a, 2 ^ (bitsLength - 1), q)).2.2

/-- `create_constraint_is_some_bits_representation`. -/
def isSomeBitsRepresentation (s : Generator) (xb xbLength : ℕ) : Generator :=
  (forLoop xbLength
    (fun b (st : Generator × ℤ) =>
      let allowed := st.1.constraintsNext
      let s := st.1.createNewConstraint
      let s := s.addTerm st.2 (xb + b : ℕ) (-1) allowed
      (s.addTerm (-1) (xb + b : ℕ) (xb + b : ℕ) allowed, st.2.tdiv 2))
    (s, 2 ^ (xbLength - 1))).1

/-- The terms of `NumTimesDenCheck` that `create_constraint_XgeY` and `create_constraint_XgtY` have
in common. -/
def numTimesDenTerms (s : Generator) (x y num r den t check : ℕ) : Generator :=
  let s := forLoop t
    (fun i s => (s.addTerm 1 x (den + i : ℕ) check).addTerm (-1) y (den + i : ℕ) check) s
  forLoop r (fun i s => s.addTerm (-1) (num + i : ℕ) (-1) check) s

/-- `create_constraint_XgeY`. A prover with a negative difference returns early. -/
def createConstraintXgeY (s : Generator) (x y r t : ℕ) : Generator :=
  let num := s.variablesNext
  let s := s.createNewVariables r
  let denMin1 := s.variablesNext
  let s := s.createNewVariables t
  if s.mode = .p ∧ s.qF1 x - s.qF1 y < 0 then s
  else
    let s := s.prover fun q =>
      let c := q x - q y
      decomposeBits (c.den - 1) denMin1 t (decomposeBits c.num num r q)
    let s := s.isSomeBitsRepresentation num r
    let s := s.isSomeBitsRepresentation denMin1 t
    let check := s.constraintsNext
    let s := s.createNewConstraint
    let s := s.numTimesDenTerms x y num r denMin1 t check
    let s := s.addTerm 1 x (-1) check
    s.addTerm (-1) y (-1) check

/-- `create_constraint_XgtY`. -/
def createConstraintXgtY (s : Generator) (x y r t : ℕ) : Generator :=
  let numMin1 := s.variablesNext
  let s := s.createNewVariables r
  let den := s.variablesNext
  let s := s.createNewVariables t
  if s.mode = .p ∧ s.qF1 x - s.qF1 y < 0 then s
  else
    let s := s.prover fun q =>
      let c := q x - q y
      decomposeBits c.den den t (decomposeBits (c.num - 1) numMin1 r q)
    let s := s.isSomeBitsRepresentation numMin1 r
    let s := s.isSomeBitsRepresentation den t
    let check := s.constraintsNext
    let s := s.createNewConstraint
    let s := s.numTimesDenTerms x y numMin1 r den t check
    s.addTerm (-1) (-1) (-1) check

/-- `create_constraint_XleY`. -/
def createConstraintXleY (s : Generator) (x y r t : ℕ) : Generator :=
  s.createConstraintXgeY y x r t

/-- `create_constraint_XltY`. -/
def createConstraintXltY (s : Generator) (x y r t : ℕ) : Generator :=
  s.createConstraintXgtY y x r t

/-- `create_constraint_eq_vec`. -/
def createConstraintEqVec (s : Generator) (x y d : ℕ) : Generator :=
  forLoop d
    (fun i s =>
      let cstrnt := s.constraintsNext
      (s.createNewConstraint.addTerm 1 (x + i : ℕ) (-1) cstrnt).addTerm
        (-1) (y + i : ℕ) (-1) cstrnt)
    s

/-- `create_constraint_isBinary`. -/
def createConstraintIsBinary (s : Generator) (x : ℕ) : Generator :=
  let allowed := s.constraintsNext
  (s.createNewConstraint.addTerm 1 x (-1) allowed).addTerm (-1) x x allowed

/-- The inverse of `y - x` that `create_optional_constraint_neq` looks for; a difference without
one keeps its own value. -/
def diffInverse (prime : ℤ) (diff : ℚ) : ℤ :=
  let finv := convertToZ 0 diff prime
  mpzInvert finv finv prime

/-- `create_optional_constraint_neq`. -/
def createOptionalConstraintNeq (s : Generator) (x y : ℕ) : Generator :=
  let isNeq := s.variablesNext
  let s := s.createNewVariables 1
  let s := s.prover fun q => Function.update q isNeq (if q x = q y then 1 else 0)
  let s := s.createConstraintIsBinary isNeq
  let inv := s.variablesNext
  let s := s.createNewVariables 1
  let s := s.prover fun q => Function.update q inv (diffInverse s.prime (q y - q x))
  let neqVar := s.variablesNext
  let s := s.createNewVariables 1
  let s := s.prover fun q => Function.update q neqVar ((q y - q x) * q inv - s.oneq)
  let neqCheck := s.constraintsNext
  let s := s.createNewConstraint
  let s := s.addTerm 1 inv y neqCheck
  let s := s.addTerm (-1) inv x neqCheck
  let s := s.addTerm (-1) (-1) (-1) neqCheck
  let s := s.addTerm (-1) neqVar (-1) neqCheck
  let optNeqCheck := s.constraintsNext
  let s := s.createNewConstraint
  let s := s.addTerm 1 isNeq neqVar optNeqCheck
  s.addTerm (-1) neqVar (-1) optNeqCheck

/-- `create_optional_constraint_neq_vec`; the flag of the loop is `alreadyFoundDifferent`. -/
def createOptionalConstraintNeqVec (s : Generator) (x y d : ℕ) : Generator :=
  let isNeqVec := s.variablesNext
  let s := s.createNewVariables 1
  let s := s.prover fun q =>
    Function.update q isNeqVec
      (if forLoop d (fun i same => same && decide (q (x + i) = q (y + i))) true then 1 else 0)
  let s := s.createConstraintIsBinary isNeqVec
  let check := s.constraintsNext
  let s := s.createNewConstraint
  let s := s.addTerm (-1) isNeqVec (-1) check
  let s := s.addTerm 1 (-1) (-1) check
  (forLoop d
    (fun i (st : Generator × Bool) =>
      let isNeq := st.1.variablesNext
      let s := st.1.createOptionalConstraintNeq (x + i) (y + i)
      -- only the first difference stays; the later ones opt out
      let s := s.prover fun q => if st.2 then Function.update q isNeq 1 else q
      let already := if s.mode = .p ∧ s.qF1 isNeq = 0 then true else st.2
      ((s.addTerm 1 isNeq (-1) check).addTerm (-1) (-1) (-1) check, already))
    (s, false)).1

end Generator

/-! ## Programs of gadget calls -/

/-- A call, with the identifiers it is given. -/
inductive Op where
  | newConstraint
  | addTerm (coefficient : ℤ) (variableIDs : List ℕ) (constraintID : ℕ)
  | constant (qvalue : ℚ)
  | distanceSquared (p1 p2 n : ℕ)
  | product (a b : ℤ)
  | sum (terms : List ℕ)
  | xgeY (x y r t : ℕ)
  | xgtY (x y r t : ℕ)
  | xleY (x y r t : ℕ)
  | xltY (x y r t : ℕ)
  | eqVec (x y d : ℕ)
  | neq (x y : ℕ)
  | neqVec (x y d : ℕ)

/-- One call. -/
def Op.step (s : Generator) : Op → Generator
  | .newConstraint => s.createNewConstraint
  | .addTerm coefficient variableIDs constraintID =>
      s.addTermList coefficient constraintID variableIDs
  | .constant qvalue => s.createConstant qvalue
  | .distanceSquared p1 p2 n => s.createDistanceSquared p1 p2 n
  | .product a b => s.createProduct a b
  | .sum terms => s.createSum terms
  | .xgeY x y r t => s.createConstraintXgeY x y r t
  | .xgtY x y r t => s.createConstraintXgtY x y r t
  | .xleY x y r t => s.createConstraintXleY x y r t
  | .xltY x y r t => s.createConstraintXltY x y r t
  | .eqVec x y d => s.createConstraintEqVec x y d
  | .neq x y => s.createOptionalConstraintNeq x y
  | .neqVec x y d => s.createOptionalConstraintNeqVec x y d

/-- A program of calls. -/
def run (ops : List Op) (s : Generator) : Generator := ops.foldl Op.step s

end Pepper.Common.ConstraintGen
