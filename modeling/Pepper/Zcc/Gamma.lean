import Mathlib.Data.List.Basic
import Pepper.Zcc.Expand

/-!
# The coefficient files of the Ginger verifier

In the Ginger framework each constraint is expanded as a whole, its terms are sorted into
constants, terms in an input or output, and terms of degree one and two in the variables
(`parseBasicConstraint`), and written with the number of the constraint and the unshuffled numbers
of the variables to two files (`generateGamma0`, `generateGamma12`).

`BasicLine` is the form of a constraint of degree two. For such a line that is read as it is
written, the terms are found and sorted without an exception and add up to what the line stands
for (`parseLine_eq`).
-/

set_option autoImplicit false

namespace Pepper.Zcc

open Pepper.Foundations

universe u v

/-! ## Declarations -/

/-- The three sections of declared names. A name's number is its position; the outputs are
numbered after the inputs. -/
structure Decls (ν : Type u) where
  inputVars : List ν
  outputVars : List ν
  vars : List ν
  nodup : (inputVars ++ outputVars ++ vars).Nodup

namespace Decls

variable {ν : Type u} [DecidableEq ν] (D : Decls ν)

/-- The number of an input. -/
def inputIndex (x : ν) : Option ℕ := D.inputVars.idxOf? x

/-- The number of an output. -/
def outputIndex (x : ν) : Option ℕ :=
  (D.outputVars.idxOf? x).map fun i => D.inputVars.length + i

/-- The number of a variable. -/
def variableIndex (x : ν) : Option ℕ := D.vars.idxOf? x

/-- The value of a name when the inputs and outputs hold `io` and the variables hold `f1`. -/
def nameValue {R : Type v} [Zero R] (io f1 : ℕ → R) (x : ν) : R :=
  match D.inputIndex x with
  | some i => io i
  | none =>
      match D.outputIndex x with
      | some i => io i
      | none =>
          match D.variableIndex x with
          | some i => f1 i
          | none => 0

end Decls

/-! ## Sorting the terms of a constraint -/

/-- A word of an expanded constraint, blanks around `*` removed. -/
inductive Word (ν : Type u) where
  | plus : Word ν
  | minus : Word ν
  | blank : Word ν
  | term (t : Term ν) : Word ν
deriving DecidableEq, Repr

/-- The words of `expand_polynomial_str`: the terms joined by ` + `. Joining no terms gives the
empty string, which is split into one empty word. -/
def expandPolynomialStr {ν : Type u} : List (Term ν) → List (Word ν)
  | [] => [.blank]
  | [t] => [.term t]
  | t :: ts => .term t :: .plus :: expandPolynomialStr ts

/-- The terms of a constraint by kind, with their coefficients. -/
structure Parsed where
  consts : List ℤ
  ipOp : List (ℕ × ℤ)
  deg1 : List (ℕ × ℤ)
  deg2 : List ((ℕ × ℕ) × ℤ)
deriving DecidableEq, Repr

section Parse

variable {ν : Type u} [DecidableEq ν] (D : Decls ν)

/-- The coefficient under a minus sign: a sign in front of a signed constant is not a number. -/
def signedCoeff (neg : Bool) (coeff : ℤ) : Option ℤ :=
  if neg then if coeff < 0 then none else some (-coeff) else some coeff

/-- One term into its kind. An expanded term starts with its constant; a name that is not declared
as its place in the term asks for, or a third factor, ends the program. -/
def parseTerm (neg : Bool) (t : Term ν) (acc : Parsed) : Option Parsed :=
  t.const.bind fun const =>
    (signedCoeff neg const).bind fun coeff =>
      match t.factors with
      | [] => some { acc with consts := acc.consts ++ [coeff] }
      | [x] =>
          match D.inputIndex x with
          | some i => some { acc with ipOp := acc.ipOp ++ [(i, coeff)] }
          | none =>
              match D.outputIndex x with
              | some i => some { acc with ipOp := acc.ipOp ++ [(i, coeff)] }
              | none =>
                  (D.variableIndex x).map fun i => { acc with deg1 := acc.deg1 ++ [(i, coeff)] }
      | [x, y] =>
          (D.variableIndex x).bind fun i => (D.variableIndex y).map fun j =>
            { acc with deg2 := acc.deg2 ++ [((i, j), coeff)] }
      | _ => none

/-- The loop over the words. `begun` says that a sign or an empty word has been taken off since
the last term, after which a term has to follow. -/
def parseWords : Bool → Bool → Parsed → List (Word ν) → Option Parsed
  | begun, _, acc, [] => if begun then none else some acc
  | _, neg, acc, .plus :: ws => parseWords true neg acc ws
  | _, neg, acc, .minus :: ws => parseWords true (!neg) acc ws
  | _, neg, acc, .blank :: ws => parseWords true neg acc ws
  | _, neg, acc, .term t :: ws => (parseTerm D neg t acc).bind fun acc => parseWords false false acc ws

/-- The terms of an expanded constraint by kind. -/
def parseBasicConstraint (line : List (Word ν)) : Option Parsed :=
  parseWords D false false ⟨[], [], [], []⟩ line

end Parse

section Generate

variable {ν : Type u} [LinearOrder ν] (D : Decls ν)

/-- The words of a basic constraint: in the Ginger framework the line is put in brackets and
expanded as one polynomial. -/
def expandBasicConstraint (line : Text ν) : Option (List (Word ν)) :=
  (expandPolynomial (.opening :: (line.flatten ++ [.closing]))).map fun p =>
    expandPolynomialStr p.1

/-- The terms of a line of the constraint section by kind. -/
def parseLine (line : Text ν) : Option Parsed :=
  (expandBasicConstraint line).bind (parseBasicConstraint D)

/-- A line of the file for the inputs, outputs and constants: `G coefficient constraint variable`
or `C coefficient constraint 0`. -/
inductive Gamma0Line where
  | io (coefficient : ℤ) (constraintId varId : ℕ) : Gamma0Line
  | const (coefficient : ℤ) (constraintId : ℕ) : Gamma0Line
deriving DecidableEq, Repr

/-- A line of the file for the variables: `1 coefficient constraint variable 0` or
`2 coefficient constraint variable variable`. -/
inductive Gamma12Line where
  | gamma1 (coefficient : ℤ) (constraintId varIdX : ℕ) : Gamma12Line
  | gamma2 (coefficient : ℤ) (constraintId varIdX varIdY : ℕ) : Gamma12Line
deriving DecidableEq, Repr

/-- The variables of a line are numbered below `n`. -/
def Gamma12Line.InRange (n : ℕ) : Gamma12Line → Prop
  | .gamma1 _ _ varIdX => varIdX < n
  | .gamma2 _ _ varIdX varIdY => varIdX < n ∧ varIdY < n

/-- The lines of one constraint for the first file. -/
def Parsed.gamma0 (p : Parsed) (constraintId : ℕ) : List Gamma0Line :=
  (p.ipOp.map fun e => .io e.2 constraintId e.1) ++ p.consts.map fun c => .const c constraintId

/-- The lines of one constraint for the second file. -/
def Parsed.gamma12 (p : Parsed) (constraintId : ℕ) : List Gamma12Line :=
  (p.deg1.map fun e => .gamma1 e.2 constraintId e.1) ++
    p.deg2.map fun e => .gamma2 e.2 constraintId e.1.1 e.1.2

/-- The loop of `generate_gamma0` and `generate_gamma12` over the constraints, numbered from
`constraintId` on; `lines` is what is written for one constraint. -/
def generateFrom {γ : Type} (lines : Parsed → ℕ → List γ) : ℕ → List (Text ν) → Option (List γ)
  | _, [] => some []
  | constraintId, line :: rest =>
      (parseLine D line).bind fun p =>
        (generateFrom lines (constraintId + 1) rest).map fun code => lines p constraintId ++ code

/-- The first file. -/
def generateGamma0 (spec : List (Text ν)) : Option (List Gamma0Line) :=
  generateFrom D Parsed.gamma0 0 spec

/-- The second file. -/
def generateGamma12 (spec : List (Text ν)) : Option (List Gamma12Line) :=
  generateFrom D Parsed.gamma12 0 spec

end Generate

/-! ## What the terms add up to -/

/-- The sum of the terms when the inputs and outputs hold `io` and the variables hold `f1`. -/
def Parsed.value {R : Type v} [CommRing R] (io f1 : ℕ → R) (p : Parsed) : R :=
  (p.consts.map (Int.cast : ℤ → R)).sum + (p.ipOp.map fun e => (e.2 : R) * io e.1).sum +
    (p.deg1.map fun e => (e.2 : R) * f1 e.1).sum +
    (p.deg2.map fun e => (e.2 : R) * (f1 e.1.1 * f1 e.1.2)).sum

/-- The variables of the terms are numbered below `n`. -/
def Parsed.InRange (n : ℕ) (p : Parsed) : Prop :=
  (∀ e ∈ p.deg1, e.1 < n) ∧ ∀ e ∈ p.deg2, e.1.1 < n ∧ e.1.2 < n

section Values

variable {ν : Type u}

/-- The factors of a term of a constraint of degree two: none, one declared name, or two
variables. -/
inductive BasicFactors (D : Decls ν) : Multiset ν → Prop where
  | const : BasicFactors D 0
  | linear {x : ν} (hx : x ∈ D.inputVars ++ D.outputVars ++ D.vars) : BasicFactors D {x}
  | square {x y : ν} (hx : x ∈ D.vars) (hy : y ∈ D.vars) : BasicFactors D {x, y}

/-- A constraint of degree two that says something: what it stands for is not the zero
polynomial, and its terms have the factors of such a constraint. -/
structure BasicLine (D : Decls ν) (line : Text ν) : Prop where
  nonzero : symbolic line ≠ 0
  factors : ∀ m ∈ (symbolic line).support, BasicFactors D (Finsupp.toMultiset m)

variable [DecidableEq ν] {D : Decls ν} {R : Type v} [CommRing R]

theorem idxOf?_lt {l : List ν} {x : ν} {i : ℕ} (h : l.idxOf? x = some i) : i < l.length := by
  rw [List.idxOf?_eq_some_iff] at h
  exact h.1

theorem idxOf?_isSome {l : List ν} {x : ν} (h : x ∈ l) : ∃ i, l.idxOf? x = some i := by
  rw [← Option.isSome_iff_exists, List.isSome_idxOf?]
  exact h

/-- A variable is not an input and not an output. -/
theorem Decls.variable_fresh {x : ν} (hx : x ∈ D.vars) :
    D.inputIndex x = none ∧ D.outputIndex x = none := by
  obtain ⟨-, -, hdisjoint⟩ := List.nodup_append.mp D.nodup
  have hin : x ∉ D.inputVars := fun h => hdisjoint x (List.mem_append_left _ h) x hx rfl
  have hout : x ∉ D.outputVars := fun h => hdisjoint x (List.mem_append_right _ h) x hx rfl
  constructor
  · exact List.idxOf?_eq_none_iff.mpr hin
  · simp [Decls.outputIndex, List.idxOf?_eq_none_iff.mpr hout]

theorem Decls.nameValue_variable (io f1 : ℕ → R) {x : ν} (hx : x ∈ D.vars) {i : ℕ}
    (hi : D.variableIndex x = some i) : D.nameValue io f1 x = f1 i := by
  obtain ⟨hin, hout⟩ := D.variable_fresh hx
  rw [Decls.nameValue, hin, hout, hi]

/-- A term of a constraint of degree two goes to its kind and adds its value. -/
theorem parseTerm_eq {t : Term ν} (ht : t.Proper)
    (hfactors : BasicFactors D (t.factors : Multiset ν)) (acc : Parsed) :
    ∃ p, parseTerm D false t acc = some p ∧
      (acc.InRange D.vars.length → p.InRange D.vars.length) ∧
      ∀ io f1 : ℕ → R, p.value io f1 = acc.value io f1 + t.value (D.nameValue io f1) := by
  obtain ⟨const, factors⟩ := t
  obtain ⟨c, rfl, -⟩ := ht
  generalize hm : ((factors : List ν) : Multiset ν) = m at hfactors
  cases hfactors with
  | const =>
      obtain rfl : factors = [] := by simpa using hm
      refine ⟨_, rfl, id, fun io f1 => ?_⟩
      simp [Parsed.value, Term.value, Term.coeff]
      ring
  | @linear x hx =>
      obtain rfl : factors = [x] := Multiset.coe_eq_singleton.mp hm
      simp only [parseTerm, signedCoeff, Option.bind_some, Bool.false_eq_true, ↓reduceIte]
      -- the three lists are searched in the order of the code
      cases hin : D.inputIndex x with
      | some i =>
          refine ⟨_, rfl, id, fun io f1 => ?_⟩
          simp [Parsed.value, Term.value, Term.coeff, Decls.nameValue, hin]
          ring
      | none =>
          cases hout : D.outputIndex x with
          | some i =>
              refine ⟨_, rfl, id, fun io f1 => ?_⟩
              simp [Parsed.value, Term.value, Term.coeff, Decls.nameValue, hin, hout]
              ring
          | none =>
              have hvar : x ∈ D.vars := by
                rw [Decls.inputIndex, List.idxOf?_eq_none_iff] at hin
                simp only [Decls.outputIndex, Option.map_eq_none_iff,
                  List.idxOf?_eq_none_iff] at hout
                rcases List.mem_append.mp hx with hx | hx
                · exact absurd hx (by simp [hin, hout])
                · exact hx
              obtain ⟨i, hi⟩ : ∃ i, D.variableIndex x = some i := idxOf?_isSome hvar
              have hlt : i < D.vars.length := idxOf?_lt hi
              rw [hi]
              refine ⟨_, rfl, ?_, fun io f1 => ?_⟩
              · rintro ⟨h1, h2⟩
                refine ⟨fun e he => ?_, h2⟩
                rcases List.mem_append.mp he with he | he
                · exact h1 e he
                · obtain rfl := List.mem_singleton.mp he
                  exact hlt
              · simp [Parsed.value, Term.value, Term.coeff, D.nameValue_variable io f1 hvar hi]
                ring
  | @square x y hx hy =>
      -- two factors, in whichever order the text has them
      obtain ⟨a, b, rfl⟩ : ∃ a b, factors = [a, b] := by
        have hcard := congrArg Multiset.card hm
        exact List.length_eq_two.mp (by simpa using hcard)
      have hvars : ∀ z ∈ ([a, b] : List ν), z ∈ D.vars := by
        intro z hz
        have hz' : z ∈ ({x, y} : Multiset ν) := hm ▸ Multiset.mem_coe.mpr hz
        rcases Multiset.mem_cons.mp hz' with rfl | hz'
        · exact hx
        · exact Multiset.mem_singleton.mp hz' ▸ hy
      have ha := hvars a (by simp)
      have hb := hvars b (by simp)
      obtain ⟨i, hi⟩ : ∃ i, D.variableIndex a = some i := idxOf?_isSome ha
      obtain ⟨j, hj⟩ : ∃ j, D.variableIndex b = some j := idxOf?_isSome hb
      simp only [parseTerm, signedCoeff, Option.bind_some, Bool.false_eq_true, ↓reduceIte, hi, hj,
        Option.map_some]
      refine ⟨_, rfl, ?_, fun io f1 => ?_⟩
      · rintro ⟨h1, h2⟩
        refine ⟨h1, fun e he => ?_⟩
        rcases List.mem_append.mp he with he | he
        · exact h2 e he
        · obtain rfl := List.mem_singleton.mp he
          exact ⟨idxOf?_lt hi, idxOf?_lt hj⟩
      · simp [Parsed.value, Term.value, Term.coeff, D.nameValue_variable io f1 ha hi,
          D.nameValue_variable io f1 hb hj]
        ring

/-- The loop over the words of an expanded line. -/
theorem parseWords_eq (terms : List (Term ν)) (hne : terms ≠ [])
    (hterms : ∀ t ∈ terms, t.Proper ∧ BasicFactors D (t.factors : Multiset ν)) (acc : Parsed)
    (begun : Bool) :
    ∃ p, parseWords D begun false acc (expandPolynomialStr terms) = some p ∧
      (acc.InRange D.vars.length → p.InRange D.vars.length) ∧
      ∀ io f1 : ℕ → R, p.value io f1 = acc.value io f1 + termsValue (D.nameValue io f1) terms := by
  induction terms generalizing acc begun with
  | nil => exact absurd rfl hne
  | cons t ts ih =>
      obtain ⟨hproper, hfactors⟩ := hterms t List.mem_cons_self
      obtain ⟨p, hp, hrange, hvalue⟩ := parseTerm_eq (R := R) hproper hfactors acc
      cases ts with
      | nil =>
          refine ⟨p, ?_, hrange, fun io f1 => ?_⟩
          · simp [expandPolynomialStr, parseWords, hp]
          · rw [hvalue]
            simp
      | cons t' ts =>
          obtain ⟨q, hq, hrange', hvalue'⟩ := ih (by simp)
            (fun t'' h => hterms t'' (List.mem_cons_of_mem _ h)) p true
          refine ⟨q, ?_, fun h => hrange' (hrange h), fun io f1 => ?_⟩
          · simp only [expandPolynomialStr, parseWords, hp, Option.bind_some]
            exact hq
          · rw [hvalue', hvalue, termsValue_cons _ t, add_assoc]

end Values

section Line

variable {ν : Type u} [LinearOrder ν] {D : Decls ν} {R : Type v} [CommRing R]

/-- The coefficient of a term of a canonical expansion in the polynomial it stands for. -/
theorem Canonical.coeff_mem {e : List (Term ν)} (he : Canonical e) {t : Term ν} (ht : t ∈ e) :
    MvPolynomial.coeff (Multiset.toFinsupp (t.factors : Multiset ν))
      (termsValue (MvPolynomial.X (R := ℤ)) e) = t.coeff := by
  obtain ⟨l₁, l₂, rfl⟩ := List.append_of_mem ht
  have hperm : (l₁ ++ t :: l₂).Perm (t :: (l₁ ++ l₂)) := List.perm_middle
  have hcan : Canonical (t :: (l₁ ++ l₂)) :=
    ⟨(hperm.map _).nodup_iff.mp he.keys, fun t' h => he.sorted t' (hperm.mem_iff.mpr h),
      fun t' h => he.proper t' (hperm.mem_iff.mpr h)⟩
  rw [termsValue_perm _ hperm]
  exact hcan.coeff_head_eq

/-- Every term of a canonical expansion is a monomial of the polynomial it stands for. -/
theorem Canonical.mem_support {e : List (Term ν)} (he : Canonical e) {t : Term ν} (ht : t ∈ e) :
    Multiset.toFinsupp (t.factors : Multiset ν) ∈
      (termsValue (MvPolynomial.X (R := ℤ)) e).support := by
  rw [MvPolynomial.mem_support_iff, he.coeff_mem ht]
  exact (he.proper t ht).coeff_ne

/-- Every monomial of a sum of terms is that of a term. -/
theorem exists_mem_of_support {e : List (Term ν)} {m : ν →₀ ℕ}
    (hm : m ∈ (termsValue (MvPolynomial.X (R := ℤ)) e).support) :
    ∃ t ∈ e, Multiset.toFinsupp (t.factors : Multiset ν) = m := by
  induction e with
  | nil => simp at hm
  | cons t e ih =>
      rw [termsValue_cons, value_eq_monomial] at hm
      rcases Finset.mem_union.mp (MvPolynomial.support_add hm) with hm | hm
      · obtain rfl := Finset.mem_singleton.mp (MvPolynomial.support_monomial_subset hm)
        exact ⟨t, List.mem_cons_self, rfl⟩
      · obtain ⟨t', ht', h⟩ := ih hm
        exact ⟨t', List.mem_cons_of_mem _ ht', h⟩

/-- A line whose expansion is known is of degree two if its terms are. -/
theorem basicLine_of_canonical {line : Text ν} {e : List (Term ν)} (he : Canonical e)
    (hne : e ≠ []) (hvalue : symbolic line = termsValue MvPolynomial.X e)
    (hfactors : ∀ t ∈ e, BasicFactors D (t.factors : Multiset ν)) : BasicLine D line where
  nonzero h0 := hne (he.eq_nil (hvalue ▸ h0))
  factors m hm := by
    rw [hvalue] at hm
    obtain ⟨t, ht, rfl⟩ := exists_mem_of_support hm
    simpa using hfactors t ht

/-- A line of degree two that is read as it is written: its terms are found and sorted, and add up
to what the line stands for. -/
theorem parseLine_eq {line : Text ν} (hread : Readable false [] line) (hline : BasicLine D line) :
    ∃ p, parseLine D line = some p ∧ p.InRange D.vars.length ∧
      ∀ io f1 : ℕ → R, p.value io f1 = meaning (D.nameValue io f1) line := by
  obtain ⟨terms, hexpand, hcan, hvalue⟩ := expandPolynomial_eq line hread []
  have hne : terms ≠ [] := by
    rintro rfl
    exact hline.nonzero (by rw [← hvalue]; rfl)
  have hterms : ∀ t ∈ terms, t.Proper ∧ BasicFactors D (t.factors : Multiset ν) := by
    intro t ht
    refine ⟨hcan.proper t ht, ?_⟩
    have hmem := hcan.mem_support ht
    rw [hvalue] at hmem
    simpa using hline.factors _ hmem
  obtain ⟨p, hp, hrange, hsum⟩ := parseWords_eq (R := R) terms hne hterms ⟨[], [], [], []⟩ false
  refine ⟨p, ?_, hrange ⟨by simp, by simp⟩, fun io f1 => ?_⟩
  · simp only [parseLine, expandBasicConstraint, hexpand, Option.map_some, Option.bind_some]
    exact hp
  · rw [hsum, termsValue_eq_meaning _ hvalue]
    simp [Parsed.value]

end Line

end Pepper.Zcc
