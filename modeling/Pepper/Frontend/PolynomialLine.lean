import Mathlib.Data.PNat.Basic
import Pepper.Frontend.PolynomialInvariant
import Pepper.Zcc.LessThan

/-!
# The line of a polynomial and its constraint

`PolynomialExpression.toCircuit` prints an expression as `1/k * ( ( A ) * ( B ) + ( C ) )`: it
multiplies all constants by their common denominator, in place, takes the first term for the product
when the degree says two, and moves its constant into a factor. `compilePolyConstraint` reads the
line by the positions of its tokens and writes `( A ) * ( B ) + ( C - k * y )`.
-/

set_option autoImplicit false

namespace Pepper.Frontend

open PolynomialTerm PolynomialExpression Pepper.Foundations Pepper.Zcc

/-! ## Tokens -/

/-- A token of a circuit line that is not a bracket: a constant with its `C`, the number of a line,
or a word of the comment. -/
inductive CircuitAtom where
  | plus | minus | times
  | const (c : FloatConstant)
  | line (n : ℕ)
  | word
deriving DecidableEq

/-- `stop` is the `]` after the inputs. -/
abbrev CircuitToken := Bracketed CircuitAtom

def FloatConstant.denominator (c : FloatConstant) : ℕ+ := ⟨c.den, c.den_pos⟩

/-- `FloatConstant.valueOf(1, denom)`. -/
def FloatConstant.unitFraction (denom : ℕ+) : FloatConstant := .valueOf 1 denom denom.pos

/-! ## Printing -/

/-- The constant of a term: itself if it is alone, nothing for one, a sign for minus one. -/
def constantToCircuit (alone : Bool) (c : FloatConstant) : List CircuitToken :=
  if alone then [.atom (.const c)]
  else if c.isOne then []
  else if c.isNegOne then [.atom .minus]
  else [.atom (.const c), .atom .times]

/-- The variables of a term, with a `*` after the last one if there are factors. -/
def monomersToCircuit (more : Bool) : List ℕ → List CircuitToken
  | [] => []
  | x :: ms =>
      .atom (.line x) ::
        ((if !ms.isEmpty || more then [.atom .times] else []) ++ monomersToCircuit more ms)

mutual

/-- `PolynomialTerm.toCircuit`. -/
def PolynomialTerm.toCircuit : PolynomialTerm → List CircuitToken
  | .mk c ms ps _ =>
      constantToCircuit (ms.isEmpty && ps.isEmpty) c ++
        (monomersToCircuit (!ps.isEmpty) ms ++ factorsToCircuit ps)

def factorsToCircuit : List PolynomialExpression → List CircuitToken
  | [] => []
  | p :: ps =>
      .opening :: (p.sumToCircuit ++
        (.closing :: ((if ps.isEmpty then [] else [.atom .times]) ++ factorsToCircuit ps)))

/-- The terms of a factor. -/
def PolynomialExpression.sumToCircuit : PolynomialExpression → List CircuitToken
  | .mk ts _ => termsToCircuit ts

def termsToCircuit : List PolynomialTerm → List CircuitToken
  | [] => []
  | t :: ts => t.toCircuit ++ ((if ts.isEmpty then [] else [.atom .plus]) ++ termsToCircuit ts)

end

mutual

/-- `PolynomialTerm.removeFractionalConstants`: the denominators of the factors move into the
constant. -/
def PolynomialTerm.removeFractionalConstants : PolynomialTerm → Option PolynomialTerm
  | .mk c ms ps d => (removeFractionsFactors ps c).map fun r => .mk r.2 ms r.1 d

def removeFractionsFactors : List PolynomialExpression → FloatConstant →
    Option (List PolynomialExpression × FloatConstant)
  | [], c => some ([], c)
  | p :: ps, c => p.removeFractionalConstants.bind fun r =>
      (removeFractionsFactors ps (c.multiply (.unitFraction r.2))).map fun r' => (r.1 :: r'.1, r'.2)

/-- `PolynomialExpression.removeFractionalConstants`: all constants are multiplied by the largest
denominator, which must be a power of two. -/
def PolynomialExpression.removeFractionalConstants : PolynomialExpression →
    Option (PolynomialExpression × ℕ+)
  | .mk ts d => (removeFractionsTerms ts 1).map fun r =>
      (.mk (r.1.map fun t => t.setConstant
        (.valueOf ((t.constant.num * (r.2 : ℕ)).tdiv t.constant.den) 1 Nat.one_pos)) d, r.2)

/-- The first loop, with the largest denominator so far. -/
def removeFractionsTerms : List PolynomialTerm → ℕ+ → Option (List PolynomialTerm × ℕ+)
  | [], denomSum => some ([], denomSum)
  | t :: ts, denomSum => t.removeFractionalConstants.bind fun t' =>
      if FloatConstant.isPOT t'.constant.den then
        (removeFractionsTerms ts (max denomSum t'.constant.denominator)).map fun r =>
          (t' :: r.1, r.2)
      else none

end

section Product

variable (isBoolean : ℕ → Bool)

/-- All constants of a factor multiplied by a constant. -/
def scaleSum (c : FloatConstant) (p : PolynomialExpression) : PolynomialExpression :=
  .mk (p.terms.map fun t => t.setConstant (t.constant.multiply c)) p.degree

/-- The first of the factors with the fewest terms takes the constant. -/
def scaleSmallest (c : FloatConstant) (ps : List PolynomialExpression) :
    List PolynomialExpression :=
  ps.modify (ps.findIdx fun p => ps.all fun q => p.terms.length ≤ q.terms.length) (scaleSum c)

/-- `toUnitConstantForm`: the constant goes to the first variable, which becomes a factor, or to a
factor. -/
def toUnitConstantForm : PolynomialTerm → Option PolynomialTerm
  | .mk c ms ps d =>
      if c.isOne then some (.mk c ms ps d)
      else if c.isZero then none
      else
        match ms, ps with
        | rem :: ms, ps =>
            (addMultiplesOfTerm .ONE (addMonomer isBoolean rem (addConstant c .new)) .new).map
              fun rep => simplifyProduct isBoolean (sortPolys (sortMonomers
                (.mk .ONE ms (ps ++ [rep]) d)))
        | [], p :: ps =>
            some (simplifyProduct isBoolean (sortPolys (sortMonomers
              (.mk .ONE [] (scaleSmallest c (p :: ps)) d))))
        | [], [] => none

/-- The variables of the product, each in brackets. -/
def monomersInBrackets (more : Bool) : List ℕ → List CircuitToken
  | [] => []
  | x :: ms =>
      .opening :: .atom (.line x) :: .closing ::
        ((if !ms.isEmpty || more then [.atom .times] else []) ++ monomersInBrackets more ms)

/-- The part of the line before the sum: the first term in unit form if the degree is two. -/
def productToCircuit (degree : ℕ) (ts : List PolynomialTerm) :
    Option (List CircuitToken × List PolynomialTerm) :=
  if degree = 2 then
    match ts with
    | [] => none
    | t :: ts =>
        (t.duplicate.bind (toUnitConstantForm isBoolean)).map fun d2t =>
          (monomersInBrackets (!d2t.polyFactors.isEmpty) d2t.monomerFactors ++
            factorsToCircuit d2t.polyFactors, ts)
  else some ([.opening, .closing, .atom .times, .opening, .closing], ts)

/-- `PolynomialExpression.toCircuit` for Zaatar with `removeFractions` on: the tokens, and the
expression as the call leaves it. -/
def PolynomialExpression.toCircuit (pe : PolynomialExpression) :
    Option (List CircuitToken × PolynomialExpression) :=
  pe.removeFractionalConstants.bind fun r =>
    (productToCircuit isBoolean r.1.degree r.1.terms).map fun product =>
      ([.atom (.const (.unitFraction r.2)), .atom .times, .opening] ++ product.1 ++
        [.atom .plus, .opening] ++ termsToCircuit product.2 ++ [.closing, .closing], r.1)

end Product

/-! ## Reading -/

/-- `in.next()` a number of times. -/
def skip : ℕ → List CircuitToken → Option (List CircuitToken)
  | 0, toks => some toks
  | _ + 1, [] => none
  | n + 1, _ :: toks => skip n toks

/-- `compilePolyConstraint_`: the tokens up to the bracket that closes the open one. -/
def compilePolynomial : ℕ → List CircuitToken → Option (List CircuitToken × List CircuitToken)
  | _, [] => none
  | 0, .closing :: toks => some ([], toks)
  | depth + 1, .closing :: toks =>
      (compilePolynomial depth toks).map fun r => (.closing :: r.1, r.2)
  | depth, .opening :: toks =>
      (compilePolynomial (depth + 1) toks).map fun r => (.opening :: r.1, r.2)
  | depth, .stop :: toks => (compilePolynomial depth toks).map fun r => (.stop :: r.1, r.2)
  | depth, .atom a :: toks => (compilePolynomial depth toks).map fun r => (.atom a :: r.1, r.2)

/-- The constraint `( A ) * ( B ) + ( C - k * y )`, by the tokens of its parts. -/
structure PolyConstraint where
  A : List CircuitToken
  B : List CircuitToken
  C : List CircuitToken
  k : ℕ

/-- The multiplier, whose numerator must be one. -/
def readMultiplier : List CircuitToken → Option (ℕ × List CircuitToken)
  | .atom (.const c) :: toks =>
      let multiplier := FloatConstant.valueOf c.num c.den c.den_pos
      if multiplier.num = 1 then
        some (if multiplier.isOne then 1 else multiplier.den, toks)
      else none
  | _ => none

/-- `ConstraintWriter.compilePolyConstraint` for Zaatar, on the tokens after `inputs [`. -/
def compilePolyConstraint (toks : List CircuitToken) : Option PolyConstraint :=
  (readMultiplier toks).bind fun m =>
    (skip 3 m.2).bind fun toks =>
      (compilePolynomial 0 toks).bind fun A =>
        (skip 2 A.2).bind fun toks =>
          (compilePolynomial 0 toks).bind fun B =>
            (skip 2 B.2).bind fun toks =>
              (compilePolynomial 0 toks).bind fun C =>
                (skip 1 C.2).bind fun toks =>
                  match toks with
                  | .stop :: _ => some ⟨A.1, B.1, C.1, m.1⟩
                  | _ => none

/-! ## What an expression and a line stand for -/

mutual

/-- The value of a term. -/
def PolynomialTerm.value (ρ : ℕ → ℚ) : PolynomialTerm → ℚ
  | .mk c ms ps _ => c.toRat * (ms.map ρ).prod * factorsValue ρ ps

def factorsValue (ρ : ℕ → ℚ) : List PolynomialExpression → ℚ
  | [] => 1
  | p :: ps => p.value ρ * factorsValue ρ ps

/-- The value of an expression. -/
def PolynomialExpression.value (ρ : ℕ → ℚ) : PolynomialExpression → ℚ
  | .mk ts _ => termsValue ρ ts

def termsValue (ρ : ℕ → ℚ) : List PolynomialTerm → ℚ
  | [] => 0
  | t :: ts => t.value ρ + termsValue ρ ts

end

/-- `getConstraintTerm`: the `C` goes, and a number becomes a name. -/
def constraintAtom : CircuitAtom → Atom ℕ
  | .plus => .plus
  | .minus => .minus
  | .times => .times
  | .const c => .const c.num
  | .line n => .name n
  | .word => .blank

/-- The text of tokens without brackets. -/
def toText : List CircuitToken → Text ℕ
  | [] => .nil
  | .atom a :: toks => .atom (constraintAtom a) (toText toks)
  | .opening :: toks => toText toks
  | .closing :: toks => toText toks
  | .stop :: toks => toText toks

/-- Tokens of a linear polynomial over the integers: no brackets, no denominators, and at most one
name in a product. The number counts the names of the product so far. -/
def LinearTokens : ℕ → List CircuitToken → Prop
  | _, [] => True
  | _, .atom .plus :: toks => LinearTokens 0 toks
  | _, .atom .minus :: toks => LinearTokens 0 toks
  | n, .atom .times :: toks => LinearTokens n toks
  | n, .atom (.const c) :: toks => c.den = 1 ∧ LinearTokens n toks
  | n, .atom (.line _) :: toks => n = 0 ∧ LinearTokens 1 toks
  | _, .atom .word :: _ => False
  | _, .opening :: _ => False
  | _, .closing :: _ => False
  | _, .stop :: _ => False

/-- A line is accepted, and its constraint says that `y` is `v`. -/
def LineMeans (toks : List CircuitToken) (v : (ℕ → ℚ) → ℚ) : Prop :=
  ∃ con, compilePolyConstraint toks = some con ∧
    (LinearTokens 0 con.A ∧ LinearTokens 0 con.B ∧ LinearTokens 0 con.C) ∧ 1 ≤ con.k ∧
      ∀ ρ : ℕ → ℚ, meaning ρ (toText con.A) * meaning ρ (toText con.B) + meaning ρ (toText con.C) =
        con.k * v ρ

/-- The line of printed tokens with the words of a comment. -/
def circuitLine (toks : List CircuitToken) (words : ℕ) : List CircuitToken :=
  toks ++ .stop :: List.replicate words (.atom .word)

/-- Printing a statement twice gives two lines that say that `y` is the value of the polynomial. -/
def PrintsValue (isBoolean : ℕ → Bool) (words : ℕ) (pe : PolynomialExpression) : Prop :=
  ∃ toks pe', pe.toCircuit isBoolean = some (toks, pe') ∧
    LineMeans (circuitLine toks words) (fun ρ => pe.value ρ) ∧
      ∃ toks' pe'', pe'.toCircuit isBoolean = some (toks', pe'') ∧
        LineMeans (circuitLine toks' words) (fun ρ => pe.value ρ)

/-- The constants of the terms and of the terms of their factors are over powers of two. -/
def PowersOfTwo (pe : PolynomialExpression) : Prop :=
  ∀ t ∈ pe.terms, FloatConstant.isPOT t.constant.den = true ∧
    ∀ p ∈ t.polyFactors, ∀ u ∈ p.terms, FloatConstant.isPOT u.constant.den = true

/-- The largest denominator of the constants. -/
def largestDenominator (constants : List FloatConstant) : ℕ+ :=
  constants.foldl (fun d c => max d c.denominator) 1

/-- The constant of a term after the denominators of its factors have moved there. -/
def PolynomialTerm.outerConstant (t : PolynomialTerm) : FloatConstant :=
  t.polyFactors.foldl (fun c p => c.multiply
    (.unitFraction (largestDenominator (p.terms.map PolynomialTerm.constant)))) t.constant

/-- The common denominator of an expression whose factors are linear. -/
def PolynomialExpression.commonDenominator (pe : PolynomialExpression) : ℕ+ :=
  largestDenominator (pe.terms.map outerConstant)

/-- An expression with the degree two has exactly one product. -/
def OneProduct (pe : PolynomialExpression) : Prop :=
  pe.degree = 2 → (pe.terms.filter fun t => t.degree = 2).length = 1

/-! ## Linear sums -/

/-- The terms of a linear expression. -/
structure LinearSum (ts : List PolynomialTerm) : Prop where
  linear : ∀ t ∈ ts, LinearTerm t
  num_ne_zero : ∀ t ∈ ts, t.constant.num ≠ 0
  sorted : ts.Pairwise fun t u => t.compareTo u < 0

/-- A linear expression with integer constants. -/
def IntegerSum (ts : List PolynomialTerm) : Prop :=
  ∀ t ∈ ts, LinearTerm t ∧ t.constant.den = 1

theorem linear_cases {t : PolynomialTerm} (h : LinearTerm t) :
    (∃ c, t = .mk c [] [] 0) ∨ ∃ c x, t = .mk c [x] [] 1 := by
  obtain ⟨c, ms, ps, d⟩ := t
  obtain ⟨hps, hd, hle⟩ := h
  simp only [polyFactors, monomerFactors, PolynomialTerm.degree] at hps hd hle
  subst hps hd
  rcases ms with _ | ⟨x, _ | ⟨y, ms⟩⟩
  · exact Or.inl ⟨c, rfl⟩
  · exact Or.inr ⟨c, x, rfl⟩
  · exact absurd hle (by simp)

theorem toRat_of_den_one {c : FloatConstant} (h : c.den = 1) : c.toRat = c.num := by
  rw [FloatConstant.toRat, h, Nat.cast_one, div_one]

theorem toText_append (X Y : List CircuitToken) : toText (X ++ Y) = toText X ++ toText Y := by
  induction X with
  | nil => rfl
  | cons tok X ih =>
      cases tok with
      | atom a => exact congrArg (Nest.atom (constraintAtom a)) ih
      | opening => exact ih
      | closing => exact ih
      | stop => exact ih

/-- Reading a printed linear term adds its value. -/
theorem readText_term (ρ : ℕ → ℚ) {t : PolynomialTerm} (h : LinearTerm t)
    (hden : t.constant.den = 1) (s : ℚ) :
    (readText ρ ⟨s, false, none⟩ (toText t.toCircuit)).flush = ⟨s + t.value ρ, false, none⟩ := by
  rcases linear_cases h with ⟨c, rfl⟩ | ⟨c, x, rfl⟩
  · have hc : (PolynomialTerm.mk c [] [] 0).value ρ = c.num := by
      have hrat : c.toRat = c.num := toRat_of_den_one hden
      simp [PolynomialTerm.value, factorsValue, hrat]
    rw [hc]
    rfl
  · have hnum : (c.num : ℚ) = c.toRat := (toRat_of_den_one hden).symm
    have hc : (PolynomialTerm.mk c [x] [] 1).value ρ = c.num * ρ x := by
      simp [PolynomialTerm.value, factorsValue, hnum]
    rw [hc, PolynomialTerm.toCircuit]
    simp only [List.isEmpty_cons, Bool.false_and, constantToCircuit, if_neg Bool.false_ne_true]
    split
    · rename_i hone
      rw [hnum, FloatConstant.toRat_of_isOne hone, one_mul]
      rfl
    · split
      · rename_i hneg
        rw [hnum, FloatConstant.toRat_of_isNegOne hneg, neg_one_mul]
        rfl
      · rfl

theorem readText_terms (ρ : ℕ → ℚ) {ts : List PolynomialTerm} (h : IntegerSum ts) (s : ℚ) :
    (readText ρ ⟨s, false, none⟩ (toText (termsToCircuit ts))).flush =
      ⟨s + termsValue ρ ts, false, none⟩ := by
  induction ts generalizing s with
  | nil =>
      rw [termsValue, add_zero]
      rfl
  | cons t ts ih =>
      obtain ⟨hlinear, hden⟩ := h t List.mem_cons_self
      have hrest : IntegerSum ts := fun u hu => h u (List.mem_cons_of_mem t hu)
      have hterm := readText_term ρ hlinear hden s
      rw [termsToCircuit, termsValue, toText_append, readText_append]
      cases ts with
      | nil =>
          rw [termsValue, add_zero]
          exact hterm
      | cons u us =>
          rw [← add_assoc, ← ih hrest, ← hterm]
          rfl

/-- The text of a printed linear sum has its value. -/
theorem meaning_terms (ρ : ℕ → ℚ) {ts : List PolynomialTerm} (h : IntegerSum ts) :
    meaning ρ (toText (termsToCircuit ts)) = termsValue ρ ts := by
  rw [meaning_eq_readText, Meaning.empty, readText_terms ρ h, zero_add]

/-- The tokens of a printed linear term, in front of tokens that are linear after any product. -/
theorem linearTokens_term {t : PolynomialTerm} (h : LinearTerm t) (hden : t.constant.den = 1)
    {toks : List CircuitToken} (htoks : ∀ n, LinearTokens n toks) :
    LinearTokens 0 (t.toCircuit ++ toks) := by
  rcases linear_cases h with ⟨c, rfl⟩ | ⟨c, x, rfl⟩
  · exact ⟨hden, htoks 0⟩
  · rw [PolynomialTerm.toCircuit]
    simp only [List.isEmpty_cons, Bool.false_and, constantToCircuit, if_neg Bool.false_ne_true]
    split
    · exact ⟨rfl, htoks 1⟩
    · split
      · exact ⟨rfl, htoks 1⟩
      · exact ⟨hden, rfl, htoks 1⟩

theorem linearTokens_terms {ts : List PolynomialTerm} (h : IntegerSum ts) :
    LinearTokens 0 (termsToCircuit ts) := by
  induction ts with
  | nil => exact trivial
  | cons t ts ih =>
      obtain ⟨hlinear, hden⟩ := h t List.mem_cons_self
      have hrest : IntegerSum ts := fun u hu => h u (List.mem_cons_of_mem t hu)
      rw [termsToCircuit]
      apply linearTokens_term hlinear hden
      intro n
      cases ts with
      | nil => exact trivial
      | cons u us => exact ih hrest

/-! ## Reading a printed line -/

/-- Tokens that the reader of a polynomial copies. -/
def Copied (X : List CircuitToken) : Prop :=
  ∀ depth toks, compilePolynomial depth (X ++ toks) =
    (compilePolynomial depth toks).map fun r => (X ++ r.1, r.2)

theorem copied_nil : Copied [] := by
  intro depth toks
  cases h : compilePolynomial depth toks with
  | none => simp [h]
  | some r => simp [h]

theorem Copied.append {X Y : List CircuitToken} (hX : Copied X) (hY : Copied Y) :
    Copied (X ++ Y) := by
  intro depth toks
  rw [List.append_assoc, hX, hY, Option.map_map]
  congr 1
  funext r
  exact congrArg (·, r.2) (List.append_assoc X Y r.1).symm

theorem copied_atom (a : CircuitAtom) : Copied [.atom a] := by
  intro depth toks
  cases depth with
  | zero => rfl
  | succ depth => rfl

theorem compilePolynomial_opening (depth : ℕ) (toks : List CircuitToken) :
    compilePolynomial depth (.opening :: toks) =
      (compilePolynomial (depth + 1) toks).map fun r => (.opening :: r.1, r.2) := by
  cases depth with
  | zero => rfl
  | succ depth => rfl

theorem Copied.group {X : List CircuitToken} (h : Copied X) :
    Copied (.opening :: (X ++ [.closing])) := by
  intro depth toks
  have hclose : compilePolynomial (depth + 1) (.closing :: toks) =
      (compilePolynomial depth toks).map fun r => (.closing :: r.1, r.2) := rfl
  have hassoc : (X ++ [.closing]) ++ toks = X ++ .closing :: toks := by
    rw [List.append_assoc]
    rfl
  rw [List.cons_append, compilePolynomial_opening, hassoc, h, hclose, Option.map_map,
    Option.map_map]
  congr 1
  funext r
  simp

/-- Linear tokens have no brackets. -/
theorem copied_linear {n : ℕ} {X : List CircuitToken} (h : LinearTokens n X) : Copied X := by
  induction X generalizing n with
  | nil => exact copied_nil
  | cons tok X ih =>
      cases tok with
      | opening => exact h.elim
      | closing => exact h.elim
      | stop => exact h.elim
      | atom a =>
          have hrest : ∃ m, LinearTokens m X := by
            cases a with
            | plus => exact ⟨0, h⟩
            | minus => exact ⟨0, h⟩
            | times => exact ⟨n, h⟩
            | const c => exact ⟨n, h.2⟩
            | line x => exact ⟨1, h.2⟩
            | word => exact h.elim
          obtain ⟨m, hm⟩ := hrest
          exact (copied_atom a).append (ih hm)

/-- The reader takes copied tokens up to the closing bracket. -/
theorem compilePolynomial_copied {X : List CircuitToken} (h : Copied X)
    (toks : List CircuitToken) : compilePolynomial 0 (X ++ .closing :: toks) = some (X, toks) := by
  rw [h]
  exact congrArg some (Prod.ext (List.append_nil X) rfl)

/-- Without a closing bracket the reader runs to the end of the line. -/
theorem compilePolynomial_words (depth words : ℕ) :
    compilePolynomial depth (List.replicate words (.atom .word)) = none := by
  induction words with
  | zero =>
      cases depth with
      | zero => rfl
      | succ depth => rfl
  | succ words ih =>
      rw [List.replicate_succ]
      exact (copied_atom .word depth _).trans (by rw [ih]; rfl)

theorem readMultiplier_unitFraction (k : ℕ+) (toks : List CircuitToken) :
    readMultiplier (.atom (.const (.unitFraction k)) :: toks) = some ((k : ℕ), toks) := by
  have hvalue : FloatConstant.unitFraction k = ⟨1, k, k.pos⟩ := by
    rw [FloatConstant.unitFraction]
    rcases FloatConstant.valueOf_cases 1 k k.pos with ⟨h, hk⟩ | ⟨-, hk⟩ | ⟨-, hk⟩ | h
    · have hone : (k : ℕ) = 1 := by exact_mod_cast hk.symm
      rw [h, FloatConstant.ONE]
      congr 1
      exact hone.symm
    · cases hk
    · have := k.pos
      omega
    · exact h
  have hagain : FloatConstant.valueOf 1 k k.pos = ⟨1, k, k.pos⟩ := hvalue
  rw [readMultiplier, hvalue]
  dsimp only
  rw [hagain, if_pos rfl]
  split
  · rename_i hone
    have hk : (1 : ℤ) = (k : ℕ) := (FloatConstant.isOne_iff _).1 hone
    have hone : (k : ℕ) = 1 := by exact_mod_cast hk.symm
    rw [hone]
  · rfl

/-- A line as `toCircuit` prints it, around the tokens of a product and of a sum. -/
def lineTokens (k : ℕ+) (product C : List CircuitToken) : List CircuitToken :=
  [.atom (.const (.unitFraction k)), .atom .times, .opening] ++ product ++
    [.atom .plus, .opening] ++ C ++ [.closing, .closing]

/-- The tokens of a line from the left. -/
theorem circuitLine_eq (k : ℕ+) (product C : List CircuitToken) (words : ℕ) :
    circuitLine (lineTokens k product C) words =
      .atom (.const (.unitFraction k)) :: .atom .times :: .opening ::
        (product ++ .atom .plus :: .opening ::
          (C ++ .closing :: .closing :: .stop :: List.replicate words (.atom .word))) := by
  unfold circuitLine lineTokens
  simp only [List.append_assoc, List.cons_append, List.nil_append]

/-- A product of two polynomials in brackets. -/
def bracketedProduct (A B : List CircuitToken) : List CircuitToken :=
  .opening :: (A ++ .closing :: .atom .times :: .opening :: (B ++ [.closing]))

theorem bracketedProduct_append (A B toks : List CircuitToken) :
    bracketedProduct A B ++ toks =
      .opening :: (A ++ .closing :: .atom .times :: .opening :: (B ++ .closing :: toks)) := by
  unfold bracketedProduct
  simp only [List.append_assoc, List.cons_append, List.nil_append]

/-- A line whose product is two polynomials in brackets is read as printed. -/
theorem compilePolyConstraint_line (k : ℕ+) {A B C : List CircuitToken} (hA : Copied A)
    (hB : Copied B) (hC : Copied C) (words : ℕ) :
    compilePolyConstraint (circuitLine (lineTokens k (bracketedProduct A B) C) words) =
      some ⟨A, B, C, k⟩ := by
  rw [circuitLine_eq, bracketedProduct_append, compilePolyConstraint, readMultiplier_unitFraction]
  simp only [Option.bind_some, skip, compilePolynomial_copied hA, compilePolynomial_copied hB,
    compilePolynomial_copied hC]

/-- A line whose product is a single polynomial in brackets is rejected: the reader runs into the
comment. -/
theorem compilePolyConstraint_single (k : ℕ+) {A C : List CircuitToken} (hA : Copied A)
    (hC : Copied C) (words : ℕ) :
    compilePolyConstraint (circuitLine (lineTokens k (.opening :: (A ++ [.closing])) C) words) =
      none := by
  have hproduct : ∀ toks : List CircuitToken,
      .opening :: (A ++ [.closing]) ++ toks = .opening :: (A ++ .closing :: toks) := by
    intro toks
    simp only [List.append_assoc, List.cons_append, List.nil_append]
  rw [circuitLine_eq, hproduct, compilePolyConstraint, readMultiplier_unitFraction]
  simp only [Option.bind_some, skip, compilePolynomial_copied hA, compilePolynomial_copied hC,
    compilePolynomial_words, Option.bind_none]

/-- A line without a product is rejected. -/
theorem compilePolyConstraint_none (k : ℕ+) {C : List CircuitToken} (hC : Copied C) (words : ℕ) :
    compilePolyConstraint (circuitLine (lineTokens k [] C) words) = none := by
  have hsum : ∀ toks : List CircuitToken, .opening :: (C ++ .closing :: .closing :: toks) =
      (.opening :: (C ++ [.closing])) ++ .closing :: toks := by
    intro toks
    simp only [List.append_assoc, List.cons_append, List.nil_append]
  rw [circuitLine_eq, List.nil_append, hsum, compilePolyConstraint, readMultiplier_unitFraction]
  simp only [Option.bind_some, skip, compilePolynomial_copied hC.group]
  cases words with
  | zero => rfl
  | succ words =>
      simp only [List.replicate_succ, skip, Option.bind_some, compilePolynomial_words,
        Option.bind_none]

end Pepper.Frontend
