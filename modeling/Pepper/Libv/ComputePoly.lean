import Mathlib.Data.Rat.Cast.Defs
import Mathlib.Tactic.NormNum
import Pepper.Zcc.Expand

/-!
# The prover's interpreter of polynomials

`computePoly` is the recursive loop by which the prover evaluates a polynomial of its worksheet on
rationals. Each call keeps its sum and its current product in two cells of a stack of sixteen, so a
polynomial that is nested too deep has no value.

`computePoly_eq` says that it computes the meaning of the text. Together with the expansion of the
back end this gives `expandPolynomial_computePoly`: where the text is read as it is written, the
terms of `expandPolynomial` add up to what the prover computes for the same tokens. On
`( 0 * V )` they do not (`zeroTimesName_disagree`).
-/

set_option autoImplicit false

namespace Pepper.Libv.ComputePoly

open Pepper.Foundations Pepper.Zcc

universe u

/-- The number of cells for intermediate results. -/
def tempStackSize : ℕ := 16

/-- The variables of one call of `compute_poly`. -/
structure PolyState where
  polyTarget : ℚ
  termTarget : ℚ
  hasTerms : Bool
  hasFactors : Bool
  isEmpty : Bool
  negate : Bool
deriving DecidableEq, Repr

namespace PolyState

/-- The start of a call. The product has no value before its first factor. -/
def init : PolyState := ⟨0, 0, false, false, true, false⟩

/-- Emit the last term, if necessary. -/
def emit (s : PolyState) : PolyState :=
  if s.hasFactors then
    let term := if s.negate then -s.termTarget else s.termTarget
    { polyTarget := if s.hasTerms then s.polyTarget + term else term
      termTarget := term
      hasTerms := true
      hasFactors := false
      isEmpty := false
      negate := false }
  else s

/-- A factor of the current term. -/
def factor (s : PolyState) (r : ℚ) : PolyState :=
  { s with termTarget := if s.hasFactors then s.termTarget * r else r, hasFactors := true }

/-- The end of a call: the last term is emitted, and an empty polynomial is zero. -/
def result (s : PolyState) : ℚ := if s.emit.isEmpty then 0 else s.emit.polyTarget

end PolyState

variable {ν : Type u}

/-- The loop of `compute_poly` in a call whose cells start at `tempNum`; a call further down the
recursion uses the next two. Beyond the stack there is no cell to write to. -/
def polyReader (voc : ν → ℚ) (tempNum : ℕ) : BracketReader (Atom ν) PolyState ℚ where
  start depth := if tempNum + 2 * depth ≥ tempStackSize - 1 then none else some PolyState.init
  atom s
    | .plus => s.emit
    | .minus => { s.emit with negate := !s.emit.negate }
    | .times => s
    | .blank => s
    | .const n => s.factor n
    | .name x => s.factor (voc x)
  group s subresult := s.factor subresult
  finish s := s.result
  stop s := some s.result
  exhausted s := some s.result

/-- The value of a polynomial and the tokens after it. -/
def computePoly (voc : ν → ℚ) (tempNum : ℕ) (cmds : List (Token ν)) :
    Option (ℚ × List (Token ν)) :=
  ((polyReader voc tempNum).start 0).bind fun s =>
    (polyReader voc tempNum).read (cmds.length + 1) 0 s cmds

/-- The flags of the loop and the reference reader's state agree. -/
structure Agrees (s : PolyState) (m : Meaning ℚ) : Prop where
  empty : s.isEmpty = !s.hasTerms
  sum : m.sum = if s.hasTerms then s.polyTarget else 0
  negate : m.negate = s.negate
  product : m.product = if s.hasFactors then some s.termTarget else none

namespace Agrees

variable {s : PolyState} {m : Meaning ℚ}

theorem init : Agrees PolyState.init Meaning.empty := ⟨rfl, rfl, rfl, rfl⟩

theorem emit (h : Agrees s m) : Agrees s.emit m.flush := by
  obtain ⟨poly, term, hasTerms, hasFactors, isEmpty, negate⟩ := s
  obtain ⟨sum, negate', product⟩ := m
  obtain ⟨hempty, hsum, hnegate, hproduct⟩ := h
  simp only at hempty hsum hnegate hproduct
  subst hempty hsum hnegate hproduct
  cases hasFactors with
  | false => exact ⟨rfl, rfl, rfl, rfl⟩
  | true => cases hasTerms <;> exact ⟨rfl, by simp [PolyState.emit, Meaning.flush], rfl, rfl⟩

theorem factor (h : Agrees s m) (r : ℚ) : Agrees (s.factor r) (m.factor r) := by
  refine ⟨h.empty, h.sum, h.negate, ?_⟩
  change some _ = some _
  rw [h.product]
  cases hf : s.hasFactors <;> simp [PolyState.factor, hf]

theorem result (h : Agrees s m) : s.result = m.flush.sum := by
  have hemit := h.emit
  rw [PolyState.result, hemit.sum, hemit.empty]
  cases s.emit.hasTerms <;> rfl

end Agrees

/-- The loop of the prover computes the meaning of a text. -/
theorem polyReader_run (voc : ν → ℚ) (tempNum : ℕ) (n : Text ν) :
    Agrees ((polyReader voc tempNum).run PolyState.init PolyState.init n)
      ((meaningReader voc).run Meaning.empty Meaning.empty n) := by
  refine BracketReader.run_rel (polyReader voc tempNum) (meaningReader voc) Agrees Eq _ _
    Agrees.init ?_ ?_ ?_ n _ _ Agrees.init
  · intro s m a h
    cases a with
    | plus => exact h.emit
    | minus =>
        have hemit := h.emit
        refine ⟨hemit.empty, hemit.sum, ?_, hemit.product⟩
        change (!m.flush.negate) = !s.emit.negate
        rw [hemit.negate]
    | times => exact h
    | blank => exact h
    | const c => exact h.factor c
    | name x => exact h.factor (voc x)
  · rintro s m r r' h rfl
    exact h.factor r
  · intro s m h
    exact h.result

/-- No call for a text that is nested within the stack runs out of cells. -/
theorem polyReader_fold (voc : ν → ℚ) (tempNum : ℕ) (n : Text ν)
    (hdepth : tempNum + 2 * n.depth < tempStackSize - 1) :
    (polyReader voc tempNum).fold 0 PolyState.init n =
      some ((polyReader voc tempNum).run PolyState.init PolyState.init n) := by
  refine (polyReader voc tempNum).fold_eq_run PolyState.init n 0 _ fun e he => ?_
  have hlt : ¬ tempNum + 2 * e ≥ tempStackSize - 1 := by omega
  exact if_neg hlt

theorem polyReader_start (voc : ν → ℚ) {tempNum : ℕ} (h : tempNum < tempStackSize - 1) :
    (polyReader voc tempNum).start 0 = some PolyState.init :=
  if_neg (by omega)

theorem polyReader_result (voc : ν → ℚ) (tempNum : ℕ) (n : Text ν) :
    ((polyReader voc tempNum).run PolyState.init PolyState.init n).result = meaning voc n :=
  (polyReader_run voc tempNum n).result

/-- The value of a text that ends with the stream. -/
theorem computePoly_eq (voc : ν → ℚ) (tempNum : ℕ) (n : Text ν)
    (hdepth : tempNum + 2 * n.depth < tempStackSize - 1) :
    computePoly voc tempNum n.flatten = some (meaning voc n, []) := by
  rw [computePoly, polyReader_start voc (by omega), Option.bind_some,
    BracketReader.read_exhausted _ n _ 0 _ (Nat.lt_succ_self _),
    polyReader_fold voc tempNum n hdepth, ← polyReader_result voc tempNum n]
  rfl

/-- The value of a text up to the `E` that ends it on a worksheet line. -/
theorem computePoly_stop (voc : ν → ℚ) (tempNum : ℕ) (n : Text ν) (rest : List (Token ν))
    (hdepth : tempNum + 2 * n.depth < tempStackSize - 1) :
    computePoly voc tempNum (n.flatten ++ .stop :: rest) = some (meaning voc n, rest) := by
  have hlen : n.flatten.length < (n.flatten ++ .stop :: rest).length + 1 := by
    rw [List.length_append]
    omega
  rw [computePoly, polyReader_start voc (by omega), Option.bind_some,
    BracketReader.read_stopped _ n _ 0 _ rest hlen,
    polyReader_fold voc tempNum n hdepth, ← polyReader_result voc tempNum n]
  rfl

/-! ## The back end and the prover read a polynomial alike -/

/-- A text in brackets, as one group. -/
theorem meaning_group {R : Type*} [CommRing R] (ρ : ν → R) (n : Text ν) :
    meaning ρ (.group n .nil) = meaning ρ n := by
  change (0 : R) + (if false = true then -meaning ρ n else meaning ρ n) = _
  simp

/-- The back end and the prover read the text `n`, in brackets, alike: the expansion consumes the
text up to its closing bracket, and under all values of the names its terms add up to what the
prover, with cells from `tempNum` on, computes for the same tokens. -/
def ReadAlike [LinearOrder ν] (tempNum : ℕ) (n : Text ν) : Prop :=
  ∀ rest : List (Token ν), ∃ terms,
    expandPolynomial (.opening :: (n.flatten ++ .closing :: rest)) = some (terms, rest) ∧
    ∀ voc : ν → ℚ,
      computePoly voc tempNum (.opening :: (n.flatten ++ [.closing])) =
        some (termsValue voc terms, [])

/-- A text is read alike if every product in it that has a zero factor ends in a zero factor and
every `-` is followed by a factor, and it is nested within the prover's stack. -/
theorem expandPolynomial_computePoly [LinearOrder ν] (n : Text ν) (hread : Readable false [] n)
    (tempNum : ℕ) (hdepth : tempNum + 2 * (n.depth + 1) < tempStackSize - 1) :
    ReadAlike tempNum n := by
  intro rest
  obtain ⟨terms, hexpand, -, hvalue⟩ := expandPolynomial_eq n hread rest
  refine ⟨terms, hexpand, fun voc => ?_⟩
  rw [termsValue_eq_meaning voc hvalue, ← meaning_group voc n]
  refine computePoly_eq voc tempNum (.group n .nil) ?_
  simpa [Nest.depth] using hdepth

/-- `( ) * ( ) + ( V0 - 1 )`, the form in which the front end writes a linear constraint. -/
def linearLine : Text ℕ :=
  .group .nil (.atom .times (.group .nil (.atom .plus
    (.group (.atom (.name 0) (.atom .minus (.atom (.const 1) .nil))) .nil))))

theorem linearLine_readAlike : ReadAlike 0 linearLine := by
  refine expandPolynomial_computePoly linearLine ?_ 0 (by decide)
  have hnil : symbolic (.nil : Text ℕ) = 0 := rfl
  refine ⟨rfl, rfl, ⟨?_, ⟨?_, ?_⟩, ?_⟩⟩
  · exact fun h => absurd hnil h
  · exact fun _ f hf => absurd hf List.not_mem_nil
  · exact fun _ f hf => absurd hf List.not_mem_nil
  · exact fun _ f hf => absurd hf List.not_mem_nil

/-- `0 * V0` is read as `V0` by the expansion, and `- - V0` as `-1 - V0`. -/
theorem zeroTimesName_disagree :
    ¬ ReadAlike 0 (.atom (.const 0) (.atom .times (.atom (.name 0) .nil)) : Text ℕ) ∧
      ¬ ReadAlike 0 (.atom .minus (.atom .minus (.atom (.name 0) .nil)) : Text ℕ) := by
  constructor
  · intro h
    obtain ⟨terms, hexpand, hvalue⟩ := h []
    have hterms : terms = [⟨some 1, [0]⟩] := by
      have hrun : expandPolynomial [.opening, .atom (.const 0), .atom .times, .atom (.name 0),
          .closing] = some ([⟨some 1, [0]⟩], ([] : List (Token ℕ))) := by decide
      exact (congrArg Prod.fst (Option.some.inj (hexpand.symm.trans hrun)))
    have hprover := hvalue fun _ => 1
    rw [hterms] at hprover
    have hrun : computePoly (fun _ : ℕ => 1) 0 [.opening, .atom (.const 0), .atom .times,
        .atom (.name 0), .closing] = some (0, []) := by
      simp [computePoly, polyReader, BracketReader.read, PolyState.init, PolyState.factor,
        PolyState.result, PolyState.emit, tempStackSize]
    have heq := congrArg Prod.fst (Option.some.inj (hrun.symm.trans hprover))
    simp [termsValue, Term.value, Term.coeff] at heq
  · intro h
    obtain ⟨terms, hexpand, hvalue⟩ := h []
    have hterms : terms = [⟨some (-1), []⟩, ⟨some (-1), [0]⟩] := by
      have hrun : expandPolynomial [.opening, .atom .minus, .atom .minus, .atom (.name 0),
          .closing] = some ([⟨some (-1), []⟩, ⟨some (-1), [0]⟩], ([] : List (Token ℕ))) := by
        decide
      exact (congrArg Prod.fst (Option.some.inj (hexpand.symm.trans hrun)))
    have hprover := hvalue fun _ => 1
    rw [hterms] at hprover
    have hrun : computePoly (fun _ : ℕ => 1) 0 [.opening, .atom .minus, .atom .minus,
        .atom (.name 0), .closing] = some (1, []) := by
      simp [computePoly, polyReader, BracketReader.read, PolyState.init, PolyState.factor,
        PolyState.result, PolyState.emit, tempStackSize]
    have heq := congrArg Prod.fst (Option.some.inj (hrun.symm.trans hprover))
    norm_num [termsValue, Term.value, Term.coeff] at heq

end Pepper.Libv.ComputePoly
