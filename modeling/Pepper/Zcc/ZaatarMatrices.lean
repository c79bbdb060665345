import Pepper.Foundations.TextLines
import Pepper.Libv.QuadraticProgram
import Pepper.Zcc.Gamma

/-!
# The matrix file of the Zaatar back end

In the Zaatar framework a constraint is `( A ) * ( B ) + ( C )`. `expandBasicConstraint` multiplies
out the three parts; `generateZaatarMatrices` reads the result once more, writes one line
`column row coefficient` for each term of a part to the file of its matrix, counts the terms of each
matrix, and joins the three files into one.

The second reading gives back the terms of the first (`expandPolynomial_termsText`), so the lines of
a part are its terms and add up to its linear form (`compressed_spec`), the counts are the numbers of
lines, and no line is written for a row without a constraint (`generateZaatarMatrices_eq`).
-/

set_option autoImplicit false

namespace Pepper.Zcc.Zaatar

open Pepper.Foundations Pepper.Foundations.TextLines Pepper.Libv.QuadraticProgram
open Pepper.Common.Gmp

universe u v

/-! ## Basic constraints -/

section Code

variable {ν : Type u}

/-- `" * ".join`. -/
def joinTimes : List (Atom ν) → Text ν → Text ν
  | [], rest => rest
  | [a], rest => .atom a rest
  | a :: as, rest => .atom a (.atom .times (joinTimes as rest))

/-- The factors of a term as they are written. -/
def termAtoms (t : Term ν) : List (Atom ν) :=
  (t.const.map Atom.const).toList ++ t.factors.map Atom.name

/-- `expand_polynomial_str`, as the text of a polynomial. -/
def termsText : List (Term ν) → Text ν
  | [] => .nil
  | [t] => joinTimes (termAtoms t) .nil
  | t :: ts => joinTimes (termAtoms t) (.atom .plus (termsText ts))

/-- A constraint `( a ) * ( b ) + ( c )`. -/
structure BasicConstraint (ν : Type u) where
  a : Text ν
  b : Text ν
  c : Text ν
deriving DecidableEq, Repr

/-- The tokens of a constraint. -/
def BasicConstraint.tokens (bc : BasicConstraint ν) : List (Token ν) :=
  .opening :: (bc.a.flatten ++ .closing :: .atom .times ::
    .opening :: (bc.b.flatten ++ .closing :: .atom .plus ::
      .opening :: (bc.c.flatten ++ [.closing])))

/-- `tokens.pop(0)`. -/
def popToken : List (Token ν) → Option (Token ν × List (Token ν))
  | [] => none
  | tok :: tokens => some (tok, tokens)

variable [LinearOrder ν]

/-- The Zaatar branch of `expand_basic_constraint`. The operators between the parts are copied. -/
def expandBasicConstraint (bc : BasicConstraint ν) : Option (BasicConstraint ν) :=
  (expandPolynomial bc.tokens).bind fun (a, tokens) =>
    (popToken tokens).bind fun (_, tokens) =>
      (expandPolynomial tokens).bind fun (b, tokens) =>
        (popToken tokens).bind fun (_, tokens) =>
          (expandPolynomial tokens).map fun (c, _) => ⟨termsText a, termsText b, termsText c⟩

/-- The basic constraints of the lines: the loop at the end of `to_basic_constraints`, over all
lines. -/
def toBasicConstraints : List (BasicConstraint ν) → Option (List (BasicConstraint ν))
  | [] => some []
  | bc :: lines =>
      (expandBasicConstraint bc).bind fun bc' =>
        (toBasicConstraints lines).map fun bcs => bc' :: bcs

/-! ## The matrices -/

/-- A name after `to_var`: `I`, `O` or `V` and its index. -/
inductive Renumbered where
  | input (index : ℕ) : Renumbered
  | output (index : ℕ) : Renumbered
  | variable (index : ℕ) : Renumbered
deriving DecidableEq, Repr

/-- `to_var` of a name. A name that is not declared has no number. -/
def toVar (D : Decls ν) (varname : ν) : Option Renumbered :=
  match D.inputIndex varname with
  | some index => some (.input index)
  | none =>
      match D.outputIndex varname with
      | some index => some (.output index)
      | none => (D.variableIndex varname).map .variable

/-- The column of a renumbered name: behind the constant the shuffled variables, then the inputs and
the outputs. -/
def Renumbered.column (numVars : ℕ) (shuffled : ℕ → ℕ) : Renumbered → ℕ
  | .variable index => 1 + shuffled index
  | .input index => 1 + numVars + index
  | .output index => 1 + numVars + index

/-- `expand_polynomial_matrixrow`: the number of terms, and the terms; a polynomial without terms is
written `0`, which does not count. -/
def expandPolynomialMatrixrow (tokens : List (Token ν)) :
    Option ((ℕ × List (Term ν)) × List (Token ν)) :=
  (expandPolynomial tokens).map fun (expanded, tokens) =>
    (if expanded = [] then (0, [⟨some 0, []⟩]) else (expanded.length, expanded), tokens)

/-- `convert_to_compressed_polynomial`: a constant in column `0`, unless it is zero, and a name with
its coefficient in the column of the name. A term with more factors is an exception. -/
def convertToCompressedPolynomial (D : Decls ν) (shuffled : ℕ → ℕ) (j : ℕ) :
    List (Term ν) → Option (List PolyCompressed)
  | [] => some []
  | t :: terms =>
      (convertToCompressedPolynomial D shuffled j terms).bind fun entries =>
        t.const.bind fun coefficient =>
          match t.factors with
          | [] => some (if coefficient = 0 then entries else ⟨0, j, coefficient⟩ :: entries)
          | [x] => (toVar D x).map fun var =>
              ⟨var.column D.vars.length shuffled, j, coefficient⟩ :: entries
          | _ => none

/-- The variables of the loop of `generate_zaatar_matrices`; a matrix file is kept as its lines. -/
structure Matrices where
  matrixA : List PolyCompressed
  matrixB : List PolyCompressed
  matrixC : List PolyCompressed
  nzA : ℕ
  nzB : ℕ
  nzC : ℕ
  j : ℕ
  numConstraints : ℕ
deriving DecidableEq, Repr

namespace Matrices

/-- Before the first constraint. -/
def init : Matrices := ⟨[], [], [], 0, 0, 0, 1, 0⟩

/-- The body of the loop. -/
def addConstraint (D : Decls ν) (shuffled : ℕ → ℕ) (s : Matrices) (bc : BasicConstraint ν) :
    Option Matrices :=
  (expandPolynomialMatrixrow bc.tokens).bind fun ((nasub, a2), tokens) =>
    (convertToCompressedPolynomial D shuffled s.j a2).bind fun a3 =>
      (popToken tokens).bind fun (tok, tokens) =>
        if tok ≠ .atom .times then none else
        (expandPolynomialMatrixrow tokens).bind fun ((bsub, b2), tokens) =>
          (convertToCompressedPolynomial D shuffled s.j b2).bind fun b3 =>
            (popToken tokens).bind fun (tok, tokens) =>
              if tok ≠ .atom .plus then none else
              (expandPolynomialMatrixrow tokens).bind fun ((csub, c2), _) =>
                (convertToCompressedPolynomial D shuffled s.j c2).map fun c3 =>
                  { matrixA := s.matrixA ++ a3
                    matrixB := s.matrixB ++ b3
                    matrixC := s.matrixC ++ c3
                    nzA := s.nzA + nasub
                    nzB := s.nzB + bsub
                    nzC := s.nzC + csub
                    j := s.j + 1
                    numConstraints := s.numConstraints + 1 }

/-- The loop. -/
def addConstraints (D : Decls ν) (shuffled : ℕ → ℕ) : Matrices → List (BasicConstraint ν) →
    Option Matrices
  | s, [] => some s
  | s, bc :: bcs => (s.addConstraint D shuffled bc).bind fun s => addConstraints D shuffled s bcs

end Matrices

/-- What `generate_zaatar_matrices` returns, and the file it writes. -/
structure QapFile where
  nzA : ℕ
  nzB : ℕ
  nzC : ℕ
  chi : ℕ
  text : List Char
deriving DecidableEq, Repr

/-- `"%d %d %s\n"`, without the newline. -/
def entryLine (e : PolyCompressed) : List Char :=
  decimal e.i ++ ' ' :: (decimal e.j ++ ' ' :: decimal e.coefficient)

/-- The text of a matrix file. -/
def matrixText (lines : List PolyCompressed) : List Char :=
  lines.flatMap fun e => entryLine e ++ ['\n']

/-- A matrix without terms gets the line `0 0 0` and is counted as one. -/
def padMatrix (nz : ℕ) (lines : List PolyCompressed) : ℕ × List PolyCompressed :=
  if nz = 0 then (1, lines ++ [⟨0, 0, 0⟩]) else (nz, lines)

/-- The end of `generate_zaatar_matrices`. `ceilLog2` stands for `math.ceil(math.log(num, 2))`. -/
def Matrices.toFile (ceilLog2 : ℕ → ℕ) (s : Matrices) : QapFile :=
  let (nzA, matrixA) := padMatrix s.nzA s.matrixA
  let (nzB, matrixB) := padMatrix s.nzB s.matrixB
  let (nzC, matrixC) := padMatrix s.nzC s.matrixC
  { nzA := nzA
    nzB := nzB
    nzC := nzC
    chi := 2 ^ ceilLog2 (s.numConstraints + 1) - 1
    text := matrixText matrixA ++ '\n' :: (matrixText matrixB ++ '\n' ::
      (matrixText matrixC ++ ['\n'])) }

/-- `generate_zaatar_matrices` on the constraints of a spec. -/
def generateZaatarMatrices (D : Decls ν) (shuffled : ℕ → ℕ) (ceilLog2 : ℕ → ℕ)
    (lines : List (BasicConstraint ν)) : Option QapFile :=
  (toBasicConstraints lines).bind fun bcs =>
    (Matrices.init.addConstraints D shuffled bcs).map (Matrices.toFile ceilLog2)

end Code

/-! ## The expansion of any text -/

section Expansion

variable {ν : Type u} [LinearOrder ν]

/-- Whatever is read, the dictionary has its form and the product being read has no zero
constants. -/
structure WellFormed (s : ExpandState ν) : Prop where
  canonical : Canonical s.expansion
  proper : ∀ t ∈ s.multiply, t.Proper

namespace WellFormed

variable {s : ExpandState ν}

theorem init : WellFormed (⟨[], []⟩ : ExpandState ν) := ⟨canonical_nil, by simp⟩

theorem flush (h : WellFormed s) : WellFormed s.flush where
  canonical := (foldl_expandAddTerm (R := ℤ) (fun _ => 0) s.multiply h.proper h.canonical).1
  proper _ ht := absurd ht List.not_mem_nil

theorem token (h : WellFormed s) (tok : Term ν) : WellFormed (s.token tok) where
  canonical := h.canonical
  proper := by
    by_cases hnil : s.multiply = []
    · simpa [ExpandState.token, hnil] using productTerm_one_proper tok
    · simpa [ExpandState.token, hnil] using (isProduct_token h.proper tok).proper

theorem recurse (h : WellFormed s) {G : List (Term ν)} (hG : Canonical G) :
    WellFormed (s.recurse G) where
  canonical := h.canonical
  proper := by
    by_cases hnil : s.multiply = []
    · simpa [ExpandState.recurse, hnil] using hG.proper
    · simpa [ExpandState.recurse, hnil] using (isProduct_recurse h.proper hG.proper).proper

theorem run (n : Text ν) (h : WellFormed s) : WellFormed (expandReader.run ⟨[], []⟩ s n) := by
  induction n generalizing s with
  | nil => exact h
  | atom a rest ih =>
      cases a with
      | plus => exact ih h.flush
      | minus =>
          refine ih ⟨h.flush.canonical, ?_⟩
          intro t ht
          obtain rfl : t = ⟨some (-1), []⟩ := List.mem_singleton.mp ht
          exact ⟨-1, rfl, by decide⟩
      | times => exact ih h
      | blank => exact ih h
      | const c => exact ih (h.token ⟨some c, []⟩)
      | name x => exact ih (h.token ⟨none, [x]⟩)
  | group inner rest ihInner ihRest => exact ihRest (h.recurse (ihInner init).flush.canonical)

end WellFormed

/-- The expansion of a bracketed text consumes the text and its closing bracket. -/
theorem expandPolynomial_run (n : Text ν) (toks : List (Token ν)) :
    expandPolynomial (.opening :: (n.flatten ++ .closing :: toks)) =
      some ((expandReader.run ⟨[], []⟩ ⟨[], []⟩ n).flush.expansion, toks) := by
  have hfuel : n.flatten.length < (n.flatten ++ .closing :: toks).length := by simp
  change expandReader.read _ 0 ⟨[], []⟩ _ = _
  rw [expandReader.read_closed n _ 0 _ toks hfuel,
    expandReader.fold_eq_run ⟨[], []⟩ n 0 _ fun _ _ => rfl]
  rfl

/-- Of any text, readable or not, the expansion is a list of terms without zero constants, one for
each set of names. -/
theorem expandPolynomial_canonical (n : Text ν) :
    ∃ terms, Canonical terms ∧ ∀ toks : List (Token ν),
      expandPolynomial (.opening :: (n.flatten ++ .closing :: toks)) = some (terms, toks) :=
  ⟨_, (WellFormed.init.run n).flush.canonical, expandPolynomial_run n⟩

/-! ## Reading an expansion once more -/

/-- The factors of a term of degree at most one in the declared names. -/
inductive LinearFactors (D : Decls ν) : Multiset ν → Prop where
  | const : LinearFactors D 0
  | name {x : ν} (hx : x ∈ D.inputVars ++ D.outputVars ++ D.vars) : LinearFactors D {x}

/-- A text that stands for a polynomial of degree at most one in the declared names. -/
def LinearText (D : Decls ν) (n : Text ν) : Prop :=
  ∀ m ∈ (symbolic n).support, LinearFactors D (Finsupp.toMultiset m)

/-- The terms of a linear polynomial, as the expansion gives them. -/
structure LinearTerms (D : Decls ν) (e : List (Term ν)) : Prop where
  canonical : Canonical e
  factors : ∀ t ∈ e, LinearFactors D (t.factors : Multiset ν)

variable {D : Decls ν}

omit [LinearOrder ν] in
/-- A term of degree at most one is a constant or a constant and a name. -/
theorem LinearFactors.cases {fs : List ν} (h : LinearFactors D (fs : Multiset ν)) :
    fs = [] ∨ ∃ x, fs = [x] ∧ x ∈ D.inputVars ++ D.outputVars ++ D.vars := by
  generalize hm : (fs : Multiset ν) = m at h
  cases h with
  | const => exact Or.inl (by simpa using hm)
  | @name x hx => exact Or.inr ⟨x, Multiset.coe_eq_singleton.mp hm, hx⟩

theorem LinearTerms.nil : LinearTerms D [] := ⟨canonical_nil, by simp⟩

theorem LinearTerms.tail {t : Term ν} {e : List (Term ν)} (h : LinearTerms D (t :: e)) :
    LinearTerms D e where
  canonical :=
    { keys := (List.nodup_cons.mp h.canonical.keys).2
      sorted := fun t' ht' => h.canonical.sorted t' (List.mem_cons_of_mem _ ht')
      proper := fun t' ht' => h.canonical.proper t' (List.mem_cons_of_mem _ ht') }
  factors t' ht' := h.factors t' (List.mem_cons_of_mem _ ht')

/-- Reading a written term starts and finishes the product of its factors. -/
theorem run_joinTimes {t : Term ν} (ht : t.Proper) (hfactors : LinearFactors D (t.factors : Multiset ν))
    (expansion : List (Term ν)) (rest : Text ν) :
    expandReader.run ⟨[], []⟩ ⟨[], expansion⟩ (joinTimes (termAtoms t) rest) =
      expandReader.run ⟨[], []⟩ ⟨[t], expansion⟩ rest := by
  obtain ⟨const, fs⟩ := t
  obtain ⟨c, rfl, hc⟩ := ht
  have hconst : productTerm ⟨some 1, []⟩ (⟨some c, []⟩ : Term ν) = [⟨some c, []⟩] := by
    simp [productTerm, hc]
  rcases hfactors.cases with rfl | ⟨x, rfl, -⟩
  · change expandReader.run ⟨[], []⟩ ⟨productTerm ⟨some 1, []⟩ ⟨some c, []⟩, expansion⟩ rest = _
    rw [hconst]
  · change expandReader.run ⟨[], []⟩
      ((⟨productTerm ⟨some 1, []⟩ ⟨some c, []⟩, expansion⟩ : ExpandState ν).token ⟨none, [x]⟩)
      rest = _
    rw [hconst]
    rfl

/-- A finished product of one term with a new key goes to the end of the dictionary. -/
theorem expandAddTerm_fresh {t : Term ν} (ht : t.Proper)
    (hfactors : LinearFactors D (t.factors : Multiset ν)) {expansion : List (Term ν)}
    (hfresh : t.factors ∉ expansion.map Term.factors) :
    expandAddTerm expansion t = expansion ++ [t] := by
  obtain ⟨const, fs⟩ := t
  obtain ⟨c, rfl, -⟩ := ht
  have hkey : fs.insertionSort (· ≤ ·) = fs := by
    rcases hfactors.cases with rfl | ⟨x, rfl, -⟩ <;> rfl
  have hfind : expansion.find? (fun e => e.factors = fs) = none := by
    rw [List.find?_eq_none]
    intro e he heq
    have hkeys : e.factors = fs := of_decide_eq_true heq
    exact hfresh (List.mem_map.mpr ⟨e, he, hkeys⟩)
  simp only [expandAddTerm, hkey, hfind]
  rfl

/-- The loop over the text of a linear expansion adds its terms to the dictionary. -/
theorem run_termsText {e : List (Term ν)} (he : LinearTerms D e) (expansion : List (Term ν))
    (hkeys : ((expansion ++ e).map Term.factors).Nodup) :
    (expandReader.run ⟨[], []⟩ ⟨[], expansion⟩ (termsText e)).flush.expansion = expansion ++ e := by
  induction e generalizing expansion with
  | nil => exact (List.append_nil expansion).symm
  | cons t e ih =>
      have hproper := he.canonical.proper t List.mem_cons_self
      have hfactors := he.factors t List.mem_cons_self
      have hfresh : t.factors ∉ expansion.map Term.factors := by
        rw [List.map_append, List.map_cons] at hkeys
        exact fun hmem => (List.nodup_append.mp hkeys).2.2 _ hmem _ List.mem_cons_self rfl
      have hadd := expandAddTerm_fresh hproper hfactors hfresh
      cases e with
      | nil =>
          rw [termsText, run_joinTimes hproper hfactors]
          exact hadd
      | cons t' e =>
          rw [termsText, run_joinTimes hproper hfactors]
          · change (expandReader.run ⟨[], []⟩ ⟨[], expandAddTerm expansion t⟩
              (termsText (t' :: e))).flush.expansion = _
            rw [hadd, ih he.tail (expansion ++ [t]) (by simpa using hkeys)]
            simp
          · exact List.cons_ne_nil _ _

/-- The second expansion gives back the terms of the first. -/
theorem expandPolynomial_termsText {e : List (Term ν)} (he : LinearTerms D e)
    (toks : List (Token ν)) :
    expandPolynomial (.opening :: ((termsText e).flatten ++ .closing :: toks)) = some (e, toks) := by
  rw [expandPolynomial_run, run_termsText he [] he.canonical.keys, List.nil_append]

end Expansion

/-! ## What a written expansion stands for -/

section Meaning

variable {ν : Type u} {R : Type v} [CommRing R]

theorem run_joinTimes_meaning (ρ : ν → R) {t : Term ν} (ht : t.Proper) (sum : R) (rest : Text ν) :
    (meaningReader ρ).run Meaning.empty ⟨sum, false, none⟩ (joinTimes (termAtoms t) rest) =
      (meaningReader ρ).run Meaning.empty ⟨sum, false, some (t.value ρ)⟩ rest := by
  obtain ⟨const, fs⟩ := t
  obtain ⟨c, rfl, -⟩ := ht
  -- behind the first factor the product only grows
  have hnames : ∀ (fs : List ν) (product : R),
      (meaningReader ρ).run Meaning.empty ⟨sum, false, some product⟩
          (joinTimes (fs.map Atom.name) rest) =
        (meaningReader ρ).run Meaning.empty ⟨sum, false, some (product * (fs.map ρ).prod)⟩ rest := by
    intro fs
    induction fs with
    | nil =>
        intro product
        simp [joinTimes]
    | cons x fs ih =>
        intro product
        cases fs with
        | nil =>
            simp only [List.map_cons, List.map_nil, List.prod_cons, List.prod_nil, mul_one]
            rfl
        | cons y fs =>
            rw [List.map_cons (f := ρ), List.prod_cons, ← mul_assoc, ← ih]
            rfl
  cases fs with
  | nil =>
      have hvalue : (⟨some c, []⟩ : Term ν).value ρ = (c : R) := by simp [Term.value, Term.coeff]
      rw [hvalue]
      rfl
  | cons x fs => exact hnames (x :: fs) (c : R)

/-- The text of an expansion stands for the sum of its terms. -/
theorem meaning_termsText (ρ : ν → R) {e : List (Term ν)} (he : ∀ t ∈ e, t.Proper) :
    meaning ρ (termsText e) = termsValue ρ e := by
  have hrun : ∀ (e : List (Term ν)) (sum : R), (∀ t ∈ e, t.Proper) →
      ((meaningReader ρ).run Meaning.empty ⟨sum, false, none⟩ (termsText e)).flush.sum =
        sum + termsValue ρ e := by
    intro e
    induction e with
    | nil =>
        intro sum _
        exact (add_zero sum).symm
    | cons t e ih =>
        intro sum he
        have hproper := he t List.mem_cons_self
        cases e with
        | nil =>
            rw [termsText, run_joinTimes_meaning ρ hproper, termsValue_cons, termsValue_nil,
              add_zero]
            rfl
        | cons t' e =>
            rw [termsText, run_joinTimes_meaning ρ hproper]
            · change ((meaningReader ρ).run Meaning.empty ⟨sum + t.value ρ, false, none⟩
                (termsText (t' :: e))).flush.sum = _
              rw [ih _ fun t'' h => he t'' (List.mem_cons_of_mem _ h), termsValue_cons ρ t,
                add_assoc]
            · exact List.cons_ne_nil _ _
  exact (hrun e 0 he).trans (zero_add _)

theorem symbolic_termsText {e : List (Term ν)} (he : ∀ t ∈ e, t.Proper) :
    symbolic (termsText e) = termsValue MvPolynomial.X e :=
  meaning_termsText MvPolynomial.X he

end Meaning

section Basic

variable {ν : Type u} [LinearOrder ν] {D : Decls ν}

/-- A canonical expansion whose text is linear has linear terms. -/
theorem linearTerms_of_text {e : List (Term ν)} (he : Canonical e)
    (hlinear : LinearText D (termsText e)) : LinearTerms D e where
  canonical := he
  factors t ht := by
    have hmem := he.mem_support ht
    rw [← symbolic_termsText he.proper] at hmem
    simpa using hlinear _ hmem

/-- The three parts of a basic constraint as terms. -/
structure Expanded (ν : Type u) where
  a : List (Term ν)
  b : List (Term ν)
  c : List (Term ν)

/-- The text of a basic constraint. -/
def Expanded.text (e : Expanded ν) : BasicConstraint ν :=
  ⟨termsText e.a, termsText e.b, termsText e.c⟩

/-- The three parts are canonical. -/
structure Expanded.Canonical (e : Expanded ν) : Prop where
  a : Zcc.Canonical e.a
  b : Zcc.Canonical e.b
  c : Zcc.Canonical e.c

/-- The three parts of a basic constraint are linear. -/
structure BasicConstraint.Linear (D : Decls ν) (bc : BasicConstraint ν) : Prop where
  a : LinearText D bc.a
  b : LinearText D bc.b
  c : LinearText D bc.c

/-- Every line has a basic constraint, with canonical parts. -/
theorem expandBasicConstraint_eq (line : BasicConstraint ν) :
    ∃ e : Expanded ν, e.Canonical ∧ expandBasicConstraint line = some e.text := by
  obtain ⟨a, ha, hexpandA⟩ := expandPolynomial_canonical line.a
  obtain ⟨b, hb, hexpandB⟩ := expandPolynomial_canonical line.b
  obtain ⟨c, hc, hexpandC⟩ := expandPolynomial_canonical line.c
  refine ⟨⟨a, b, c⟩, ⟨ha, hb, hc⟩, ?_⟩
  simp only [expandBasicConstraint, BasicConstraint.tokens, hexpandA, Option.bind_some, popToken,
    hexpandB, hexpandC, Option.map_some]
  rfl

/-- The basic constraint of a line whose parts are read as they are written stands for the same
three polynomials. -/
theorem meaning_expandBasicConstraint {line bc : BasicConstraint ν}
    (ha : Readable false [] line.a) (hb : Readable false [] line.b) (hc : Readable false [] line.c)
    (hbc : expandBasicConstraint line = some bc) {R : Type v} [CommRing R] (ρ : ν → R) :
    meaning ρ bc.a = meaning ρ line.a ∧ meaning ρ bc.b = meaning ρ line.b ∧
      meaning ρ bc.c = meaning ρ line.c := by
  -- each part is expanded into terms that add up to what it stands for
  have hpart : ∀ n : Text ν, Readable false [] n → ∃ terms, (∀ t ∈ terms, t.Proper) ∧
      termsValue ρ terms = meaning ρ n ∧ ∀ toks : List (Token ν),
        expandPolynomial (.opening :: (n.flatten ++ .closing :: toks)) = some (terms, toks) := by
    intro n hread
    obtain ⟨terms, hterms, hcan, hvalue⟩ := expandPolynomial_eq n hread []
    refine ⟨terms, hcan.proper, termsValue_eq_meaning ρ hvalue, fun toks => ?_⟩
    rw [expandPolynomial_run] at hterms ⊢
    rw [(Prod.mk.inj (Option.some.inj hterms)).1]
  obtain ⟨a, hproperA, hvalueA, hexpandA⟩ := hpart line.a ha
  obtain ⟨b, hproperB, hvalueB, hexpandB⟩ := hpart line.b hb
  obtain ⟨c, hproperC, hvalueC, hexpandC⟩ := hpart line.c hc
  simp only [expandBasicConstraint, BasicConstraint.tokens, hexpandA, Option.bind_some, popToken,
    hexpandB, hexpandC, Option.map_some] at hbc
  obtain rfl := Option.some.inj hbc
  exact ⟨(meaning_termsText ρ hproperA).trans hvalueA, (meaning_termsText ρ hproperB).trans hvalueB,
    (meaning_termsText ρ hproperC).trans hvalueC⟩

/-- The basic constraints of a list of lines are texts of canonical parts. -/
theorem toBasicConstraints_eq (lines : List (BasicConstraint ν)) :
    ∃ es : List (Expanded ν), (∀ e ∈ es, e.Canonical) ∧
      toBasicConstraints lines = some (es.map Expanded.text) := by
  induction lines with
  | nil => exact ⟨[], by simp, rfl⟩
  | cons line lines ih =>
      obtain ⟨e, he, hline⟩ := expandBasicConstraint_eq line
      obtain ⟨es, hes, hlines⟩ := ih
      refine ⟨e :: es, ?_, ?_⟩
      · intro e' h
        rcases List.mem_cons.mp h with rfl | h
        · exact he
        · exact hes e' h
      · simp [toBasicConstraints, hline, hlines]

/-! ## The lines of a part -/

/-- The column of a name; a name that is not declared has none. -/
def Decls.column (D : Decls ν) (shuffled : ℕ → ℕ) (x : ν) : ℕ :=
  ((toVar D x).map (Renumbered.column D.vars.length shuffled)).getD 0

/-- The column of a term of degree at most one. -/
def termColumn (D : Decls ν) (shuffled : ℕ → ℕ) (t : Term ν) : ℕ :=
  match t.factors with
  | [] => 0
  | x :: _ => Decls.column D shuffled x

/-- The line of a term in row `j`. -/
def termEntry (D : Decls ν) (shuffled : ℕ → ℕ) (j : ℕ) (t : Term ν) : PolyCompressed :=
  ⟨termColumn D shuffled t, j, t.coeff⟩

theorem toVar_isSome {x : ν} (hx : x ∈ D.inputVars ++ D.outputVars ++ D.vars) :
    ∃ var, toVar D x = some var := by
  rw [List.append_assoc] at hx
  rw [toVar]
  rcases List.mem_append.mp hx with hx | hx
  · obtain ⟨i, hi⟩ := idxOf?_isSome hx
    exact ⟨.input i, by rw [Decls.inputIndex, hi]⟩
  · cases hin : D.inputIndex x with
    | some i => exact ⟨.input i, rfl⟩
    | none =>
        cases hout : D.outputIndex x with
        | some i => exact ⟨.output i, rfl⟩
        | none =>
            have hvar : x ∈ D.vars := by
              rcases List.mem_append.mp hx with hx | hx
              · obtain ⟨i, hi⟩ := idxOf?_isSome hx
                simp [Decls.outputIndex, hi] at hout
              · exact hx
            obtain ⟨i, hi⟩ := idxOf?_isSome hvar
            exact ⟨.variable i, by simp [Decls.variableIndex, hi]⟩

/-- A linear expansion is written term by term. -/
theorem convert_eq (shuffled : ℕ → ℕ) (j : ℕ) {e : List (Term ν)} (he : LinearTerms D e) :
    convertToCompressedPolynomial D shuffled j e = some (e.map (termEntry D shuffled j)) := by
  induction e with
  | nil => rfl
  | cons t e ih =>
      have hfactors := he.factors t List.mem_cons_self
      obtain ⟨c, hconst, hc⟩ := he.canonical.proper t List.mem_cons_self
      obtain ⟨const, fs⟩ := t
      obtain rfl : const = some c := hconst
      rw [convertToCompressedPolynomial, ih he.tail]
      rcases hfactors.cases with rfl | ⟨x, rfl, hx⟩
      · simp [hc, termEntry, termColumn, Term.coeff]
      · obtain ⟨var, hvar⟩ := toVar_isSome hx
        simp [hvar, termEntry, termColumn, Decls.column, Term.coeff]

/-- A part is read as its terms, and its lines are those of the terms: as many as are counted. -/
theorem matrixrow_eq (shuffled : ℕ → ℕ) (j : ℕ) {e : List (Term ν)} (he : LinearTerms D e)
    (toks : List (Token ν)) :
    ∃ p, expandPolynomialMatrixrow (.opening :: ((termsText e).flatten ++ .closing :: toks)) =
        some ((e.length, p), toks) ∧
      convertToCompressedPolynomial D shuffled j p = some (e.map (termEntry D shuffled j)) := by
  rw [expandPolynomialMatrixrow, expandPolynomial_termsText he]
  cases e with
  | nil => exact ⟨[⟨some 0, []⟩], rfl, rfl⟩
  | cons t e => exact ⟨t :: e, rfl, convert_eq shuffled j he⟩

/-! ## The loop over the constraints -/

/-- The three parts of a basic constraint have linear terms. -/
structure Expanded.Linear (D : Decls ν) (e : Expanded ν) : Prop where
  a : LinearTerms D e.a
  b : LinearTerms D e.b
  c : LinearTerms D e.c

theorem Expanded.Canonical.linear {e : Expanded ν} (he : e.Canonical) (h : e.text.Linear D) :
    e.Linear D where
  a := linearTerms_of_text he.a h.a
  b := linearTerms_of_text he.b h.b
  c := linearTerms_of_text he.c h.c

/-- The variables of the loop after one more constraint with these terms. -/
def Matrices.addRow (D : Decls ν) (shuffled : ℕ → ℕ) (s : Matrices) (e : Expanded ν) : Matrices where
  matrixA := s.matrixA ++ e.a.map (termEntry D shuffled s.j)
  matrixB := s.matrixB ++ e.b.map (termEntry D shuffled s.j)
  matrixC := s.matrixC ++ e.c.map (termEntry D shuffled s.j)
  nzA := s.nzA + e.a.length
  nzB := s.nzB + e.b.length
  nzC := s.nzC + e.c.length
  j := s.j + 1
  numConstraints := s.numConstraints + 1

/-- The text of linear terms is linear. -/
theorem LinearTerms.text {e : List (Term ν)} (he : LinearTerms D e) :
    LinearText D (termsText e) := by
  intro m hm
  rw [symbolic_termsText he.canonical.proper] at hm
  obtain ⟨t, ht, rfl⟩ := exists_mem_of_support hm
  simpa using he.factors t ht

theorem Expanded.Linear.text {e : Expanded ν} (he : e.Linear D) : e.text.Linear D :=
  ⟨he.a.text, he.b.text, he.c.text⟩

/-- A linear basic constraint is its own basic constraint. -/
theorem expandBasicConstraint_text {e : Expanded ν} (he : e.Linear D) :
    expandBasicConstraint e.text = some e.text := by
  simp only [expandBasicConstraint, BasicConstraint.tokens, Expanded.text,
    expandPolynomial_termsText he.a, expandPolynomial_termsText he.b,
    expandPolynomial_termsText he.c, popToken, Option.bind_some, Option.map_some]

/-- One constraint adds the lines of its parts, and counts them. -/
theorem addConstraint_eq (shuffled : ℕ → ℕ) (s : Matrices) {e : Expanded ν} (he : e.Linear D) :
    s.addConstraint D shuffled e.text = some (s.addRow D shuffled e) := by
  obtain ⟨a, hrowA, hconvertA⟩ := matrixrow_eq shuffled s.j he.a (.atom .times :: .opening ::
    ((termsText e.b).flatten ++ .closing :: .atom .plus ::
      .opening :: ((termsText e.c).flatten ++ [.closing])))
  obtain ⟨b, hrowB, hconvertB⟩ := matrixrow_eq shuffled s.j he.b (.atom .plus ::
    .opening :: ((termsText e.c).flatten ++ [.closing]))
  obtain ⟨c, hrowC, hconvertC⟩ := matrixrow_eq shuffled s.j he.c []
  simp only [Matrices.addConstraint, BasicConstraint.tokens, Expanded.text, hrowA, hconvertA,
    popToken, hrowB, hconvertB, hrowC, hconvertC, Option.bind_some, Option.map_some, ne_eq,
    not_true_eq_false, ↓reduceIte, Matrices.addRow]

/-- The lines of one matrix: those of its parts, from row `j` on. -/
def rowsFrom (D : Decls ν) (shuffled : ℕ → ℕ) : ℕ → List (List (Term ν)) → List PolyCompressed
  | _, [] => []
  | j, e :: es => e.map (termEntry D shuffled j) ++ rowsFrom D shuffled (j + 1) es

/-- The loop writes the lines of the parts, row after row, and the counts are their numbers. -/
theorem addConstraints_eq (shuffled : ℕ → ℕ) (es : List (Expanded ν)) (hes : ∀ e ∈ es, e.Linear D)
    (s : Matrices) (ha : s.nzA = s.matrixA.length) (hb : s.nzB = s.matrixB.length)
    (hc : s.nzC = s.matrixC.length) :
    ∃ s', s.addConstraints D shuffled (es.map Expanded.text) = some s' ∧
      s'.matrixA = s.matrixA ++ rowsFrom D shuffled s.j (es.map Expanded.a) ∧
      s'.matrixB = s.matrixB ++ rowsFrom D shuffled s.j (es.map Expanded.b) ∧
      s'.matrixC = s.matrixC ++ rowsFrom D shuffled s.j (es.map Expanded.c) ∧
      s'.nzA = s'.matrixA.length ∧ s'.nzB = s'.matrixB.length ∧ s'.nzC = s'.matrixC.length ∧
      s'.numConstraints = s.numConstraints + es.length := by
  induction es generalizing s with
  | nil => exact ⟨s, rfl, by simp [rowsFrom], by simp [rowsFrom], by simp [rowsFrom], ha, hb, hc, rfl⟩
  | cons e es ih =>
      obtain ⟨s', hs', hA, hB, hC, hnzA, hnzB, hnzC, hnum⟩ :=
        ih (fun e' h => hes e' (List.mem_cons_of_mem _ h)) (s.addRow D shuffled e)
          (by simp [Matrices.addRow, ha]) (by simp [Matrices.addRow, hb])
          (by simp [Matrices.addRow, hc])
      refine ⟨s', ?_, ?_, ?_, ?_, hnzA, hnzB, hnzC, ?_⟩
      · rw [List.map_cons, Matrices.addConstraints,
          addConstraint_eq shuffled s (hes e List.mem_cons_self), Option.bind_some]
        exact hs'
      · rw [hA]
        simp [rowsFrom, Matrices.addRow]
      · rw [hB]
        simp [rowsFrom, Matrices.addRow]
      · rw [hC]
        simp [rowsFrom, Matrices.addRow]
      · rw [hnum, List.length_cons, Matrices.addRow, Nat.add_assoc, Nat.add_comm 1]

end Basic

/-! ## The rows of a matrix -/

section Rows

variable {ν : Type u} [LinearOrder ν] {D : Decls ν}

theorem rowValue_append (p q : List PolyCompressed) (w : Vec) (j : ℕ) :
    rowValue (p ++ q) w j = rowValue p w j + rowValue q w j := by
  simp [rowValue, List.filter_append]

/-- The lines of a part stand in the row of their constraint. -/
theorem rowValue_part (shuffled : ℕ → ℕ) {e : List (Term ν)} (he : LinearTerms D e) {w : Vec}
    (hone : w 0 = 1) (j : ℕ) :
    rowValue (e.map (termEntry D shuffled j)) w j =
      termsValue (fun x => w (Decls.column D shuffled x)) e := by
  induction e with
  | nil => rfl
  | cons t e ih =>
      have hrest := ih he.tail
      have hterm : t.coeff * w (termColumn D shuffled t) =
          t.value fun x => w (Decls.column D shuffled x) := by
        rw [Term.value, termColumn]
        rcases (he.factors t List.mem_cons_self).cases with hnil | ⟨x, hx, -⟩
        · simp [hnil, hone]
        · simp [hx]
      rw [List.map_cons, termsValue_cons, ← hrest, ← hterm]
      simp [rowValue, termEntry]

/-- The lines of a part do not stand in another row. -/
theorem rowValue_other (shuffled : ℕ → ℕ) (e : List (Term ν)) (w : Vec) {i j : ℕ} (hij : i ≠ j) :
    rowValue (e.map (termEntry D shuffled i)) w j = 0 := by
  have hnone : (e.map (termEntry D shuffled i)).filter (fun entry => entry.j = j) = [] := by
    rw [List.filter_eq_nil_iff]
    intro entry hentry
    obtain ⟨t, -, rfl⟩ := List.mem_map.mp hentry
    simp [termEntry, hij]
  simp [rowValue, hnone]

/-- Rows before the first and behind the last part are zero. -/
theorem rowValue_rowsFrom_out (shuffled : ℕ → ℕ) (es : List (List (Term ν))) (w : Vec)
    {start j : ℕ} (hj : j < start ∨ start + es.length ≤ j) :
    rowValue (rowsFrom D shuffled start es) w j = 0 := by
  induction es generalizing start with
  | nil => rfl
  | cons e es ih =>
      rw [List.length_cons] at hj
      have hne : start ≠ j := by omega
      have hrest : j < start + 1 ∨ start + 1 + es.length ≤ j := by omega
      rw [rowsFrom, rowValue_append, rowValue_other shuffled e w hne, ih hrest, add_zero]

/-- The row of a part is its linear form in the columns. -/
theorem rowValue_rowsFrom (shuffled : ℕ → ℕ) {es : List (List (Term ν))}
    (hes : ∀ e ∈ es, LinearTerms D e) {w : Vec} (hone : w 0 = 1) (start : ℕ) {k : ℕ}
    {e : List (Term ν)} (hk : es[k]? = some e) :
    rowValue (rowsFrom D shuffled start es) w (start + k) =
      termsValue (fun x => w (Decls.column D shuffled x)) e := by
  induction es generalizing start k with
  | nil => simp at hk
  | cons e' es ih =>
      rw [rowsFrom, rowValue_append]
      cases k with
      | zero =>
          obtain rfl : e' = e := by simpa using hk
          rw [Nat.add_zero, rowValue_part shuffled (hes e' List.mem_cons_self) hone,
            rowValue_rowsFrom_out shuffled es w (Or.inl (Nat.lt_succ_self start)), add_zero]
      | succ k =>
          have hrest := ih (fun e'' h => hes e'' (List.mem_cons_of_mem _ h)) (start + 1) (k := k)
            (by simpa using hk)
          rw [rowValue_other shuffled e' w (by omega), zero_add, ← hrest]
          congr 1
          omega

/-- The lines of a matrix in the file: a matrix without lines has the placeholder. -/
def padded (rows : List PolyCompressed) : List PolyCompressed :=
  if rows = [] then [⟨0, 0, 0⟩] else rows

theorem rowValue_padded (rows : List PolyCompressed) (w : Vec) (j : ℕ) :
    rowValue (padded rows) w j = rowValue rows w j := by
  by_cases hnil : rows = []
  · subst hnil
    by_cases hj : 0 = j <;> simp [padded, rowValue, hj]
  · rw [padded, if_neg hnil]

/-- With a count that is the number of lines, padding keeps it so. -/
theorem padMatrix_eq (rows : List PolyCompressed) :
    padMatrix rows.length rows = ((padded rows).length, padded rows) := by
  cases rows with
  | nil => rfl
  | cons e rows => rfl

/-- The lines of the three matrices of a list of basic constraints, in the order of the file. -/
def partLines (D : Decls ν) (shuffled : ℕ → ℕ) (es : List (Expanded ν))
    (part : Expanded ν → List (Term ν)) : List PolyCompressed :=
  padded (rowsFrom D shuffled 1 (es.map part))

/-- The text of the file with these lines. -/
def fileText (linesA linesB linesC : List PolyCompressed) : List Char :=
  matrixText linesA ++ '\n' :: (matrixText linesB ++ '\n' :: (matrixText linesC ++ ['\n']))

/-- The file has the lines of the parts and the counts are their numbers. -/
theorem generateZaatarMatrices_eq (shuffled ceilLog2 : ℕ → ℕ) {lines : List (BasicConstraint ν)}
    {es : List (Expanded ν)} (hlines : toBasicConstraints lines = some (es.map Expanded.text))
    (hes : ∀ e ∈ es, e.Linear D) :
    generateZaatarMatrices D shuffled ceilLog2 lines = some
      { nzA := (partLines D shuffled es Expanded.a).length
        nzB := (partLines D shuffled es Expanded.b).length
        nzC := (partLines D shuffled es Expanded.c).length
        chi := 2 ^ ceilLog2 (es.length + 1) - 1
        text := fileText (partLines D shuffled es Expanded.a) (partLines D shuffled es Expanded.b)
          (partLines D shuffled es Expanded.c) } := by
  obtain ⟨s, hs, hA, hB, hC, hnzA, hnzB, hnzC, hnum⟩ :=
    addConstraints_eq shuffled es hes Matrices.init rfl rfl rfl
  have hnum' : s.numConstraints = es.length := hnum.trans (Nat.zero_add _)
  have hpadA : padMatrix s.nzA s.matrixA = ((padded s.matrixA).length, padded s.matrixA) := by
    rw [hnzA, padMatrix_eq]
  have hpadB : padMatrix s.nzB s.matrixB = ((padded s.matrixB).length, padded s.matrixB) := by
    rw [hnzB, padMatrix_eq]
  have hpadC : padMatrix s.nzC s.matrixC = ((padded s.matrixC).length, padded s.matrixC) := by
    rw [hnzC, padMatrix_eq]
  rw [generateZaatarMatrices, hlines, Option.bind_some, hs, Option.map_some, Matrices.toFile,
    hpadA, hpadB, hpadC, hnum', hA, hB, hC]
  rfl

end Rows

end Pepper.Zcc.Zaatar
