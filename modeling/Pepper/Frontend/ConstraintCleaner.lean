import Mathlib.Data.ZMod.Basic
import Pepper.Zcc.LessThan

/-!
# Cleaning up a constraint file

`cleanupConstraints` collects the lines `( ) * ( ) + ( V - O )`, drops them, and puts the output for
the variable in all other lines. A later line overwrites the output of an earlier one, and the
declaration of a replaced variable goes.

`cleanup_iff`: the relation of inputs and outputs and the declarations are kept when no copied
variable is a bit of a split line, the copies that were overwritten follow from the rest of the
file, and comparisons keep their reading and their auxiliary variables apart. For two outputs that
copy one variable the first becomes free (`twoCopies_differ`); two comparisons that one output
stands for share their auxiliary variables (`twoTargets_differ`).
-/

set_option autoImplicit false

open Pepper.Foundations Pepper.Zcc

namespace Pepper.Frontend.ConstraintCleaner

universe u

/-! ## Constraint files -/

inductive Kind where
  | input
  | output
  | var
deriving DecidableEq, Repr

/-- A name as `getConstraintVarName` makes it, a letter and the number of a circuit line. -/
structure VarName where
  kind : Kind
  number : ℕ
deriving DecidableEq, Repr

/-- The type in the comment of a declaration. -/
inductive DeclType where
  | int (na : ℕ)
  | uint (na : ℕ)
  | float (na nb : ℕ)
deriving DecidableEq, Repr

structure Decl where
  number : ℕ
  type : DeclType
deriving DecidableEq, Repr

inductive Operand where
  | const (c : ℤ)
  | name (x : VarName)
deriving DecidableEq, Repr

/-- A constraint: `( A ) * ( B ) + ( C )`, `X1 != X2 - Y`, `X1 < X2 - Y`, and `SIL uint bits n X x
Y0 y0`, where the bits are the variables from the number of `y0` on. -/
inductive Line where
  | poly (A B C : Text VarName)
  | notEqual (x1 x2 : Operand) (y : VarName)
  | lessThan (x1 x2 : Operand) (y : VarName)
  | split (signed : Bool) (numBits : ℕ) (x y0 : VarName)
deriving DecidableEq, Repr

structure Spec where
  inputs : List Decl
  outputs : List Decl
  vars : List Decl
  constraints : List Line

/-! ## The code -/

/-- `renameZaatar`. -/
def renameZaatar : Line → Option (ℕ × ℕ)
  | .poly .nil .nil (.atom (.name v) (.atom .minus (.atom (.name o) .nil))) =>
      if v.kind = .var ∧ o.kind = .output then some (v.number, o.number) else none
  | _ => none

/-- The map of the first pass. -/
def replacements (constraints : List Line) : ℕ → Option ℕ :=
  (constraints.filterMap renameZaatar).foldl
    (fun m copy => Function.update m copy.1 (some copy.2)) fun _ => none

/-- What a matched word is replaced by. -/
def replaceName (m : ℕ → Option ℕ) (x : VarName) : VarName :=
  match x.kind, m x.number with
  | .var, some o => ⟨.output, o⟩
  | _, _ => x

def replaceOperand (m : ℕ → Option ℕ) : Operand → Operand
  | .const c => .const c
  | .name x => .name (replaceName m x)

/-- All replacements in a line. The bits of a split line after the first have no word in it. -/
def replaceLine (m : ℕ → Option ℕ) : Line → Line
  | .poly A B C =>
      .poly (A.map (Atom.rename (replaceName m))) (B.map (Atom.rename (replaceName m)))
        (C.map (Atom.rename (replaceName m)))
  | .notEqual x1 x2 y => .notEqual (replaceOperand m x1) (replaceOperand m x2) (replaceName m y)
  | .lessThan x1 x2 y => .lessThan (replaceOperand m x1) (replaceOperand m x2) (replaceName m y)
  | .split signed numBits x y0 => .split signed numBits (replaceName m x) (replaceName m y0)

/-- `cleanupConstraints`. -/
def cleanupConstraints (f : Spec) : Spec :=
  let m := replacements f.constraints
  { f with
    vars := f.vars.filter fun d => (m d.number).isNone
    constraints :=
      (f.constraints.filter fun line => (renameZaatar line).isNone).map (replaceLine m) }

/-! ## What a file says -/

section Meaning

variable {K : Type u} [CommRing K]

/-- The declared type of a name. -/
def Spec.typeOf (f : Spec) (x : VarName) : Option DeclType :=
  let decls := match x.kind with
    | .input => f.inputs
    | .output => f.outputs
    | .var => f.vars
  (decls.find? fun d => d.number = x.number).map Decl.type

/-- What the reading of a `<` depends on besides the values: constants, and declared types. -/
def Spec.operandType (f : Spec) : Operand → ℤ ⊕ Option DeclType
  | .const c => .inl c
  | .name x => .inr (f.typeOf x)

def Operand.value (ρ : VarName → K) : Operand → K
  | .const c => c
  | .name x => ρ x

/-- A reading of `<` lines: a relation of the values of operands, target and auxiliary variables
for each pair of operand types. -/
abbrev LessReading (K : Type u) :=
  ℤ ⊕ Option DeclType → ℤ ⊕ Option DeclType → K → K → K → (String → K) → Prop

/-- The basic constraints of a line hold. The auxiliary variables of a comparison are named after
its target, `M` with the target `V4` is `V4$M`: lines with one target share them. -/
def Line.Holds (lt : LessReading K) (f : Spec) (ρ : VarName → K) (aux : VarName → String → K) :
    Line → Prop
  | .poly A B C => meaning ρ A * meaning ρ B + meaning ρ C = 0
  | .notEqual x1 x2 y =>
      aux y "M" * (x1.value ρ - x2.value ρ) - ρ y = 0 ∧
        ρ y * (x1.value ρ - x2.value ρ) + (-x1.value ρ + x2.value ρ) = 0
  | .lessThan x1 x2 y =>
      lt (f.operandType x1) (f.operandType x2) (x1.value ρ) (x2.value ρ) (ρ y) (aux y)
  | .split signed numBits x y0 =>
      (∀ i < numBits, ρ ⟨.var, y0.number + i⟩ * (ρ ⟨.var, y0.number + i⟩ - 1) = 0) ∧
        ∑ i ∈ Finset.range numBits,
            (if signed ∧ i + 1 = numBits then -((2 ^ i : ℕ) : K) else (2 ^ i : ℕ)) *
              ρ ⟨.var, y0.number + i⟩ - ρ x = 0

/-- An assignment satisfies a file. -/
def Spec.Sat (lt : LessReading K) (f : Spec) (ρ : VarName → K) (aux : VarName → String → K) :
    Prop :=
  ∀ line ∈ f.constraints, line.Holds lt f ρ aux

/-- An assignment of inputs and outputs extends to the variables, auxiliary ones among them. -/
def Spec.Extends (lt : LessReading K) (f : Spec) (io : VarName → K) : Prop :=
  ∃ (ρ : VarName → K) (aux : VarName → String → K),
    (∀ x, x.kind ≠ .var → ρ x = io x) ∧ f.Sat lt ρ aux

/-- Two files have the same relation of inputs and outputs. -/
def SameRelation (lt : LessReading K) (f f' : Spec) : Prop :=
  ∀ io : VarName → K, f.Extends lt io ↔ f'.Extends lt io

end Meaning

def atomName : Atom VarName → Option VarName
  | .name x => some x
  | _ => none

def textNames (n : Text VarName) : List VarName := n.atoms.filterMap atomName

def Operand.names : Operand → List VarName
  | .const _ => []
  | .name x => [x]

/-- The names a line uses, the bits of a split among them. -/
def Line.names : Line → List VarName
  | .poly A B C => textNames A ++ textNames B ++ textNames C
  | .notEqual x1 x2 y => x1.names ++ x2.names ++ [y]
  | .lessThan x1 x2 y => x1.names ++ x2.names ++ [y]
  | .split _ numBits x y0 => x :: (List.range numBits).map fun i => ⟨.var, y0.number + i⟩

def Spec.Declares (f : Spec) (x : VarName) : Prop :=
  match x.kind with
  | .input => x.number ∈ f.inputs.map Decl.number
  | .output => x.number ∈ f.outputs.map Decl.number
  | .var => x.number ∈ f.vars.map Decl.number

/-- Every name that a constraint uses is declared. -/
def Spec.AllDeclared (f : Spec) : Prop :=
  ∀ line ∈ f.constraints, ∀ x ∈ line.names, f.Declares x

instance (f : Spec) : (x : VarName) → Decidable (f.Declares x)
  | ⟨.input, n⟩ => inferInstanceAs (Decidable (n ∈ f.inputs.map Decl.number))
  | ⟨.output, n⟩ => inferInstanceAs (Decidable (n ∈ f.outputs.map Decl.number))
  | ⟨.var, n⟩ => inferInstanceAs (Decidable (n ∈ f.vars.map Decl.number))

instance (f : Spec) : Decidable f.AllDeclared :=
  inferInstanceAs (Decidable (∀ line ∈ f.constraints, ∀ x ∈ line.names, f.Declares x))

/-- A file whose constraints use declared names only. -/
structure SpecFile extends Spec where
  declared : toSpec.AllDeclared

/-- A circuit line has one name, as in the files of `ConstraintWriter`: it is an input, an output or
another variable. -/
def Spec.OneName (f : Spec) : Prop :=
  ((f.inputs ++ f.outputs ++ f.vars).map Decl.number).Nodup

instance (f : Spec) : Decidable f.OneName :=
  inferInstanceAs (Decidable ((f.inputs ++ f.outputs ++ f.vars).map Decl.number).Nodup)

/-! ## Copies -/

/-- The line `( ) * ( ) + ( V - O )`. -/
def copyLine (v o : ℕ) : Line :=
  .poly .nil .nil
    (.atom (.name ⟨.var, v⟩) (.atom .minus (.atom (.name ⟨.output, o⟩) .nil)))

/-- The variables and the outputs that copy them, in the order of the file. -/
def Spec.copies (f : Spec) : List (ℕ × ℕ) := f.constraints.filterMap renameZaatar

/-- The last copy of a variable. -/
def Spec.LastCopy (f : Spec) (v o : ℕ) : Prop :=
  ∃ before after, f.copies = before ++ (v, o) :: after ∧ ∀ o', (v, o') ∉ after

/-- No bit of a split line is copied, whether the line names the bit or not. -/
def Spec.SplitSafe (f : Spec) : Prop :=
  ∀ signed numBits x y0, Line.split signed numBits x y0 ∈ f.constraints →
    ∀ i < numBits, ∀ o, (y0.number + i, o) ∉ f.copies

/-- An operand and the operand that stands in its place: the last copy if there is one. -/
def Spec.Copied (f : Spec) (x x' : Operand) : Prop :=
  (∃ v o, f.LastCopy v o ∧ x = .name ⟨.var, v⟩ ∧ x' = .name ⟨.output, o⟩) ∨
    ((∀ v o, x = .name ⟨.var, v⟩ → (v, o) ∉ f.copies) ∧ x' = x)

/-- The target of a comparison. -/
def Line.target : Line → Option VarName
  | .notEqual _ _ y | .lessThan _ _ y => some y
  | _ => none

/-- The targets of the comparisons. -/
def Spec.targets (f : Spec) : List VarName := f.constraints.filterMap Line.target

/-- No output takes the place of one target where it is the place of another. -/
def Spec.TargetsApart (f : Spec) : Prop :=
  ∀ y ∈ f.targets, ∀ y' ∈ f.targets, ∀ z, f.Copied (.name y) (.name z) →
    f.Copied (.name y') (.name z) → y = y'

section Meaning

variable {K : Type u} [CommRing K]

/-- A `<` line reads its operands in the same way when outputs stand for the variables they copy,
although the declared types of the two may differ. -/
def Spec.SameReading (lt : LessReading K) (f : Spec) : Prop :=
  ∀ x1 x2 y, Line.lessThan x1 x2 y ∈ f.constraints → ∀ x1' x2', f.Copied x1 x1' →
    f.Copied x2 x2' →
      lt (f.operandType x1) (f.operandType x2) = lt (f.operandType x1') (f.operandType x2')

/-- The lines that are not copies and the last copy of each variable imply the other copies. -/
def Spec.Implied (lt : LessReading K) (f : Spec) : Prop :=
  ∀ (ρ : VarName → K) (aux : VarName → String → K),
    (∀ line ∈ f.constraints, renameZaatar line = none → line.Holds lt f ρ aux) →
      (∀ v o, f.LastCopy v o → ρ ⟨.var, v⟩ = ρ ⟨.output, o⟩) →
        ∀ v o, (v, o) ∈ f.copies → ρ ⟨.var, v⟩ = ρ ⟨.output, o⟩

/-- Cleaning keeps the relation of inputs and outputs, and all variables stay declared. -/
def Keeps (lt : LessReading K) (f : Spec) : Prop :=
  SameRelation lt f (cleanupConstraints f) ∧ (cleanupConstraints f).AllDeclared

end Meaning

theorem renameZaatar_eq_some_iff {line : Line} {v o : ℕ} :
    renameZaatar line = some (v, o) ↔ line = copyLine v o := by
  constructor
  · intro h
    unfold renameZaatar at h
    split at h
    · rename_i x y
      split at h
      · rename_i hkind
        obtain ⟨⟨kx, nx⟩, ⟨ky, ny⟩⟩ := x, y
        obtain ⟨hx, hy⟩ := hkind
        cases h
        cases hx
        cases hy
        rfl
      · cases h
    · cases h
  · rintro rfl
    rfl

theorem mem_copies {f : Spec} {v o : ℕ} : (v, o) ∈ f.copies ↔ copyLine v o ∈ f.constraints := by
  constructor
  · intro h
    obtain ⟨line, hline, heq⟩ := List.mem_filterMap.1 h
    rwa [← renameZaatar_eq_some_iff.1 heq]
  · intro h
    exact List.mem_filterMap.2 ⟨_, h, rfl⟩

/-- The map of the first pass gives the last copy. -/
theorem replacements_cases (f : Spec) (v : ℕ) :
    (∃ o, replacements f.constraints v = some o ∧ f.LastCopy v o) ∨
      (replacements f.constraints v = none ∧ ∀ o, (v, o) ∉ f.copies) := by
  unfold replacements Spec.LastCopy Spec.copies
  induction List.filterMap renameZaatar f.constraints using List.reverseRecOn with
  | nil => exact Or.inr ⟨rfl, fun o => List.not_mem_nil⟩
  | append_singleton l copy ih =>
      obtain ⟨a, b⟩ := copy
      rw [List.foldl_concat]
      by_cases hv : v = a
      · subst hv
        exact Or.inl ⟨b, Function.update_self .., l, [], rfl, fun o' => List.not_mem_nil⟩
      · rw [Function.update_of_ne hv]
        have hne : ∀ o, (v, o) ∉ [(a, b)] := by
          intro o ho
          exact hv (Prod.mk.inj (List.mem_singleton.1 ho)).1
        rcases ih with ⟨o, hm, before, after, hl, hafter⟩ | ⟨hm, hl⟩
        · refine Or.inl ⟨o, hm, before, after ++ [(a, b)], by rw [hl]; simp, ?_⟩
          intro o' ho'
          exact (List.mem_append.1 ho').elim (hafter o') (hne o')
        · refine Or.inr ⟨hm, fun o ho => ?_⟩
          exact (List.mem_append.1 ho).elim (hl o) (hne o)

theorem Spec.LastCopy.mem {f : Spec} {v o : ℕ} (h : f.LastCopy v o) : (v, o) ∈ f.copies := by
  obtain ⟨before, after, heq, -⟩ := h
  rw [heq]
  exact List.mem_append_right _ List.mem_cons_self

/-! ## The cleaned lines -/

section Cleaned

variable {K : Type u} [CommRing K] {lt : LessReading K} {f : Spec}

/-- What `cleanupConstraints` puts for a name in the file. -/
def Spec.rep (f : Spec) : VarName → VarName := replaceName (replacements f.constraints)

theorem rep_of_ne_var {x : VarName} (hx : x.kind ≠ .var) : f.rep x = x := by
  obtain ⟨kind, number⟩ := x
  cases kind with
  | input => rfl
  | output => rfl
  | var => exact absurd rfl hx

/-- A name keeps its place or gives it to its last copy. -/
theorem rep_cases (f : Spec) (x : VarName) :
    (∃ o, f.LastCopy x.number o ∧ x.kind = .var ∧ f.rep x = ⟨.output, o⟩) ∨
      ((∀ o, x.kind = .var → (x.number, o) ∉ f.copies) ∧ f.rep x = x) := by
  obtain ⟨kind, number⟩ := x
  cases kind with
  | input => exact Or.inr ⟨fun o h => Kind.noConfusion h, rfl⟩
  | output => exact Or.inr ⟨fun o h => Kind.noConfusion h, rfl⟩
  | var =>
      rcases replacements_cases f number with ⟨o, hm, hlast⟩ | ⟨hm, hnone⟩
      · exact Or.inl ⟨o, hlast, rfl, by simp [Spec.rep, replaceName, hm]⟩
      · exact Or.inr ⟨fun o _ => hnone o, by simp [Spec.rep, replaceName, hm]⟩

theorem rep_of_not_copied {v : ℕ} (h : ∀ o, (v, o) ∉ f.copies) : f.rep ⟨.var, v⟩ = ⟨.var, v⟩ := by
  rcases rep_cases f ⟨.var, v⟩ with ⟨o, hlast, -, -⟩ | ⟨-, hrep⟩
  · exact absurd hlast.mem (h o)
  · exact hrep

theorem copied_replaceOperand (f : Spec) (x : Operand) :
    f.Copied x (replaceOperand (replacements f.constraints) x) := by
  cases x with
  | const c => exact Or.inr ⟨fun v o h => Operand.noConfusion h, rfl⟩
  | name x =>
      rcases rep_cases f x with ⟨o, hlast, hkind, hrep⟩ | ⟨hnone, hrep⟩
      · obtain ⟨kind, number⟩ := x
        cases hkind
        exact Or.inl ⟨number, o, hlast, rfl, congrArg Operand.name hrep⟩
      · refine Or.inr ⟨fun v o h => ?_, congrArg Operand.name hrep⟩
        cases h
        exact hnone o rfl

/-- The declarations of the variables that are left. -/
theorem find_vars_filter {decls : List Decl} {m : ℕ → Option ℕ} {n : ℕ} (hn : m n = none) :
    ((decls.filter fun d => (m d.number).isNone).find? fun d => d.number = n) =
      decls.find? fun d => d.number = n := by
  induction decls with
  | nil => rfl
  | cons d rest ih =>
      by_cases hd : d.number = n
      · simp [hd, hn]
      · cases hm : m d.number with
        | none => simp [hm, hd, ih]
        | some o => simp [hm, hd, ih]

/-- What stands in the cleaned file keeps its declared type. -/
theorem typeOf_rep (f : Spec) (x : VarName) :
    (cleanupConstraints f).typeOf (f.rep x) = f.typeOf (f.rep x) := by
  rcases rep_cases f x with ⟨o, -, -, hrep⟩ | ⟨hnone, hrep⟩
  · rw [hrep]
    rfl
  · rw [hrep]
    obtain ⟨kind, number⟩ := x
    cases kind with
    | input => rfl
    | output => rfl
    | var =>
        have hm : replacements f.constraints number = none := by
          rcases replacements_cases f number with ⟨o, -, hlast⟩ | ⟨hm, -⟩
          · exact absurd hlast.mem (hnone o rfl)
          · exact hm
        exact congrArg (Option.map Decl.type) (find_vars_filter hm)

theorem operandType_replace (f : Spec) (x : Operand) :
    (cleanupConstraints f).operandType (replaceOperand (replacements f.constraints) x) =
      f.operandType (replaceOperand (replacements f.constraints) x) := by
  cases x with
  | const c => rfl
  | name x => exact congrArg Sum.inr (typeOf_rep f x)

theorem value_replace (f : Spec) (ρ : VarName → K) (x : Operand) :
    (replaceOperand (replacements f.constraints) x).value ρ = x.value fun y => ρ (f.rep y) := by
  cases x with
  | const c => rfl
  | name x => rfl

/-- A line holds after the replacement when it holds with every variable standing for its last
copy. -/
theorem holds_replaceLine (hsplit : f.SplitSafe) (hread : f.SameReading lt) {line : Line}
    (hline : line ∈ f.constraints) (ρ : VarName → K) (aux : VarName → String → K) :
    (replaceLine (replacements f.constraints) line).Holds lt (cleanupConstraints f) ρ aux ↔
      line.Holds lt f (fun x => ρ (f.rep x)) fun y => aux (f.rep y) := by
  cases line with
  | poly A B C =>
      simp only [replaceLine, Line.Holds, meaning_map_rename]
      exact Iff.rfl
  | notEqual x1 x2 y =>
      simp only [replaceLine, Line.Holds, value_replace]
      exact Iff.rfl
  | lessThan x1 x2 y =>
      have htypes := hread x1 x2 y hline _ _ (copied_replaceOperand f x1)
        (copied_replaceOperand f x2)
      simp only [replaceLine, Line.Holds, value_replace, operandType_replace, htypes]
      exact Iff.rfl
  | split signed numBits x y0 =>
      -- no bit is copied, so the bits after `y0` are where they were
      have hbit : ∀ i < numBits, f.rep ⟨.var, y0.number + i⟩ = ⟨.var, y0.number + i⟩ := by
        intro i hi
        exact rep_of_not_copied (hsplit signed numBits x y0 hline i hi)
      have hfirst : ∀ i < numBits, (f.rep y0).number = y0.number := by
        intro i hi
        rcases rep_cases f y0 with ⟨o, hlast, -, -⟩ | ⟨-, hrep⟩
        · have hzero := hsplit signed numBits x y0 hline 0 (Nat.zero_lt_of_lt hi) o
          exact absurd hlast.mem hzero
        · rw [hrep]
      have hval : ∀ i < numBits,
          ρ ⟨.var, (f.rep y0).number + i⟩ = ρ (f.rep ⟨.var, y0.number + i⟩) := by
        intro i hi
        rw [hfirst i hi, hbit i hi]
      refine and_congr (forall₂_congr fun i hi => ?_) ?_
      · exact Eq.congr_left (congrArg (fun b : K => b * (b - 1)) (hval i hi))
      · refine Eq.congr_left (congrArg (· - ρ (f.rep x)) (Finset.sum_congr rfl fun i hi => ?_))
        exact congrArg _ (hval i (Finset.mem_range.1 hi))

theorem holds_copyLine (ρ : VarName → K) (aux : VarName → String → K) (v o : ℕ) :
    (copyLine v o).Holds lt f ρ aux ↔ ρ ⟨.var, v⟩ = ρ ⟨.output, o⟩ := by
  have hmeaning : meaning ρ (.atom (.name ⟨.var, v⟩) (.atom .minus (.atom (.name ⟨.output, o⟩)
      .nil))) = ρ ⟨.var, v⟩ - ρ ⟨.output, o⟩ := by
    change (0 + ρ ⟨.var, v⟩) + -ρ ⟨.output, o⟩ = _
    ring
  change meaning ρ .nil * meaning ρ .nil + meaning ρ _ = 0 ↔ _
  rw [hmeaning, meaning_nil, mul_zero, zero_add, sub_eq_zero]

/-- The lines of the file are the copies and the others. -/
theorem sat_iff (ρ : VarName → K) (aux : VarName → String → K) :
    f.Sat lt ρ aux ↔
      (∀ line ∈ f.constraints, renameZaatar line = none → line.Holds lt f ρ aux) ∧
        ∀ v o, (v, o) ∈ f.copies → ρ ⟨.var, v⟩ = ρ ⟨.output, o⟩ := by
  constructor
  · intro h
    refine ⟨fun line hline _ => h line hline, fun v o hcopy => ?_⟩
    exact (holds_copyLine ρ aux v o).1 (h _ (mem_copies.1 hcopy))
  · rintro ⟨hothers, hcopies⟩ line hline
    cases hren : renameZaatar line with
    | none => exact hothers line hline hren
    | some copy =>
        obtain ⟨v, o⟩ := copy
        rw [renameZaatar_eq_some_iff.1 hren] at hline ⊢
        exact (holds_copyLine ρ aux v o).2 (hcopies v o (mem_copies.2 hline))

theorem cleanup_sat_iff (hsplit : f.SplitSafe) (hread : f.SameReading lt) (ρ : VarName → K)
    (aux : VarName → String → K) :
    (cleanupConstraints f).Sat lt ρ aux ↔
      ∀ line ∈ f.constraints, renameZaatar line = none →
        line.Holds lt f (fun x => ρ (f.rep x)) fun y => aux (f.rep y) := by
  constructor
  · intro h line hline hren
    rw [← holds_replaceLine hsplit hread hline ρ aux]
    exact h _ (List.mem_map_of_mem (List.mem_filter.2 ⟨hline, by rw [hren]; rfl⟩))
  · intro h line' hline'
    obtain ⟨line, hmem, rfl⟩ := List.mem_map.1 hline'
    obtain ⟨hline, hren⟩ := List.mem_filter.1 hmem
    rw [holds_replaceLine hsplit hread hline ρ aux]
    exact h line hline (Option.isNone_iff_eq_none.1 hren)

end Cleaned

/-- Where the last copies hold, a replaced name has the value of what replaces it. -/
theorem comp_rep_eq {K : Type u} {f : Spec} {ρ : VarName → K}
    (h : ∀ v o, f.LastCopy v o → ρ ⟨.var, v⟩ = ρ ⟨.output, o⟩) : (fun x => ρ (f.rep x)) = ρ := by
  funext x
  rcases rep_cases f x with ⟨o, hlast, hkind, hrep⟩ | ⟨-, hrep⟩
  · obtain ⟨kind, number⟩ := x
    cases hkind
    rw [hrep]
    exact (h number o hlast).symm
  · rw [hrep]

/-- A last copy is what the map holds. -/
theorem rep_of_lastCopy {f : Spec} {v o : ℕ} (h : f.LastCopy v o) :
    f.rep ⟨.var, v⟩ = ⟨.output, o⟩ := by
  obtain ⟨before, after, heq, hafter⟩ := h
  have hkeep : ∀ (l : List (ℕ × ℕ)) (m : ℕ → Option ℕ), (∀ o', (v, o') ∉ l) →
      l.foldl (fun (m : ℕ → Option ℕ) copy => Function.update m copy.1 (some copy.2)) m v =
        m v := by
    intro l
    induction l with
    | nil => exact fun m _ => rfl
    | cons copy rest ih =>
        intro m hl
        have hne : v ≠ copy.1 := by
          rintro rfl
          exact hl copy.2 List.mem_cons_self
        rw [List.foldl_cons, ih _ fun o' ho' => hl o' (List.mem_cons_of_mem copy ho'),
          Function.update_of_ne hne]
  have hm : replacements f.constraints v = some o := by
    unfold replacements
    rw [show List.filterMap renameZaatar f.constraints = _ from heq, List.foldl_append,
      List.foldl_cons, hkeep after _ hafter, Function.update_self]
  simp [Spec.rep, replaceName, hm]


/-! ## Declarations -/

theorem mem_textNames_map {g : VarName → VarName} {n : Text VarName} {x : VarName}
    (hx : x ∈ textNames (n.map (Atom.rename g))) : ∃ y ∈ textNames n, g y = x := by
  obtain ⟨b, hb, hname⟩ := List.mem_filterMap.1 hx
  obtain ⟨a, ha, rfl⟩ := Nest.mem_atoms_map hb
  cases a with
  | name y => exact ⟨y, List.mem_filterMap.2 ⟨_, ha, rfl⟩, Option.some.inj hname⟩
  | plus => cases hname
  | minus => cases hname
  | times => cases hname
  | blank => cases hname
  | const n => cases hname

theorem mem_names_replaceOperand {m : ℕ → Option ℕ} {operand : Operand} {x : VarName}
    (hx : x ∈ (replaceOperand m operand).names) : ∃ y ∈ operand.names, replaceName m y = x := by
  cases operand with
  | const c => exact absurd hx List.not_mem_nil
  | name y => exact ⟨y, List.mem_singleton_self y, (List.mem_singleton.1 hx).symm⟩

/-- The names of a cleaned line are replaced names of the line, where no bit is copied. -/
theorem mem_names_replaceLine {f : Spec} (hsplit : f.SplitSafe) {line : Line}
    (hline : line ∈ f.constraints) {x : VarName}
    (hx : x ∈ (replaceLine (replacements f.constraints) line).names) :
    ∃ y ∈ line.names, f.rep y = x := by
  cases line with
  -- the three polynomials of the line, each name by name
  | poly A B C =>
      rcases List.mem_append.1 hx with hx | hx
      · rcases List.mem_append.1 hx with hx | hx
        · obtain ⟨y, hy, hrep⟩ := mem_textNames_map hx
          exact ⟨y, List.mem_append_left _ (List.mem_append_left _ hy), hrep⟩
        · obtain ⟨y, hy, hrep⟩ := mem_textNames_map hx
          exact ⟨y, List.mem_append_left _ (List.mem_append_right _ hy), hrep⟩
      · obtain ⟨y, hy, hrep⟩ := mem_textNames_map hx
        exact ⟨y, List.mem_append_right _ hy, hrep⟩
  | notEqual x1 x2 y0 | lessThan x1 x2 y0 =>
      rcases List.mem_append.1 hx with hx | hx
      · rcases List.mem_append.1 hx with hx | hx
        · obtain ⟨y, hy, hrep⟩ := mem_names_replaceOperand hx
          exact ⟨y, List.mem_append_left _ (List.mem_append_left _ hy), hrep⟩
        · obtain ⟨y, hy, hrep⟩ := mem_names_replaceOperand hx
          exact ⟨y, List.mem_append_left _ (List.mem_append_right _ hy), hrep⟩
      · -- the output of the comparison is replaced like any other name
        exact ⟨y0, List.mem_append_right _ List.mem_cons_self, (List.mem_singleton.1 hx).symm⟩
  | split signed numBits x0 y0 =>
      rcases List.mem_cons.1 hx with rfl | hx
      · exact ⟨x0, List.mem_cons_self, rfl⟩
      · obtain ⟨i, hi, rfl⟩ := List.mem_map.1 hx
        have hsafe := hsplit signed numBits x0 y0 hline
        have hlt := List.mem_range.1 hi
        have hbit : (⟨.var, y0.number + i⟩ : VarName) ∈ (Line.split signed numBits x0 y0).names :=
          List.mem_cons_of_mem _ (List.mem_map.2 ⟨i, hi, rfl⟩)
        -- the first bit is not copied, so its replacement is the name itself
        have hfirst : (f.rep y0).number = y0.number := by
          rcases rep_cases f y0 with ⟨o, hlast, -, -⟩ | ⟨-, hrep⟩
          · exact absurd hlast.mem (hsafe 0 (Nat.zero_lt_of_lt hlt) o)
          · rw [hrep]
        refine ⟨_, hbit, ?_⟩
        -- nor are the bits after it
        rw [rep_of_not_copied (hsafe i hlt)]
        exact congrArg (fun n => (⟨.var, n + i⟩ : VarName)) hfirst.symm

/-- A variable that is left is one that the file declares and that is not copied. -/
theorem declares_var_cleanup {f : Spec} {n : ℕ} :
    (cleanupConstraints f).Declares ⟨.var, n⟩ ↔
      f.Declares ⟨.var, n⟩ ∧ ∀ o, (n, o) ∉ f.copies := by
  change n ∈ List.map Decl.number (f.vars.filter _) ↔ n ∈ f.vars.map Decl.number ∧ _
  constructor
  · intro h
    obtain ⟨d, hd, rfl⟩ := List.mem_map.1 h
    obtain ⟨hmem, hm⟩ := List.mem_filter.1 hd
    refine ⟨List.mem_map_of_mem hmem, ?_⟩
    rcases replacements_cases f d.number with ⟨o, hsome, -⟩ | ⟨-, hnone⟩
    · rw [hsome] at hm
      cases hm
    · exact hnone
  · rintro ⟨h, hnone⟩
    obtain ⟨d, hd, rfl⟩ := List.mem_map.1 h
    refine List.mem_map_of_mem (List.mem_filter.2 ⟨hd, ?_⟩)
    rcases replacements_cases f d.number with ⟨o, -, hlast⟩ | ⟨hm, -⟩
    · exact absurd hlast.mem (hnone o)
    · rw [hm]
      rfl

theorem declares_copy {f : Spec} (hdecl : f.AllDeclared) {v o : ℕ} (h : (v, o) ∈ f.copies) :
    f.Declares ⟨.output, o⟩ := by
  apply hdecl _ (mem_copies.1 h)
  simp [copyLine, Line.names, textNames, Nest.atoms, atomName]

theorem cleanup_allDeclared {f : Spec} (hdecl : f.AllDeclared) (hsplit : f.SplitSafe) :
    (cleanupConstraints f).AllDeclared := by
  intro line' hline' x hx
  obtain ⟨line, hmem, rfl⟩ := List.mem_map.1 hline'
  have hline := (List.mem_filter.1 hmem).1
  obtain ⟨y, hy, rfl⟩ := mem_names_replaceLine hsplit hline hx
  have hdecly := hdecl line hline y hy
  rcases rep_cases f y with ⟨o, hlast, -, hrep⟩ | ⟨hnone, hrep⟩
  · rw [hrep]
    exact declares_copy hdecl hlast.mem
  · rw [hrep]
    obtain ⟨kind, n⟩ := y
    cases kind with
    | input => exact hdecly
    | output => exact hdecly
    | var => exact declares_var_cleanup.2 ⟨hdecly, fun o => hnone o rfl⟩

/-- An output and a variable of a file where each line has one name have different numbers. -/
theorem not_declares_var_of_output {f : Spec} (hname : f.OneName) {n : ℕ}
    (h : f.Declares ⟨.output, n⟩) : ¬ f.Declares ⟨.var, n⟩ := by
  intro hvar
  unfold Spec.OneName at hname
  rw [List.map_append, List.map_append] at hname
  have hdisjoint := (List.nodup_append.1 hname).2.2
  exact hdisjoint n (List.mem_append_right _ h) n hvar rfl

/-- Where all bits stay declared none is copied. -/
theorem splitSafe_of_allDeclared {f : Spec} (hdecl : f.AllDeclared) (hname : f.OneName)
    (hclean : (cleanupConstraints f).AllDeclared) : f.SplitSafe := by
  intro signed numBits x y0 hline i hi o hcopy
  have hline' : Line.split signed numBits (f.rep x) (f.rep y0) ∈
      (cleanupConstraints f).constraints :=
    List.mem_map.2 ⟨_, List.mem_filter.2 ⟨hline, rfl⟩, rfl⟩
  have hbit : ∀ j < numBits, (cleanupConstraints f).Declares ⟨.var, (f.rep y0).number + j⟩ := by
    intro j hj
    exact hclean _ hline' _
      (List.mem_cons_of_mem _ (List.mem_map.2 ⟨j, List.mem_range.2 hj, rfl⟩))
  rcases rep_cases f y0 with ⟨o', hlast, -, hrep⟩ | ⟨-, hrep⟩
  · -- the bits are read from the number of an output on
    have hzero := (declares_var_cleanup.1 (hbit 0 (Nat.zero_lt_of_lt hi))).1
    rw [hrep] at hzero
    exact not_declares_var_of_output hname (declares_copy hdecl hlast.mem) hzero
  · -- the declaration of the copied bit is gone
    have hcopied := (declares_var_cleanup.1 (hbit i hi)).2 o
    rw [hrep] at hcopied
    exact hcopied hcopy

/-! ## The relation of inputs and outputs -/

section Relation

variable {K : Type u} [CommRing K] {lt : LessReading K} {f : Spec}

/-- A line says the same of two assignments that agree on the auxiliary variables of its target. -/
theorem Line.Holds.congr_aux {line : Line} {ρ : VarName → K} {aux aux' : VarName → String → K}
    (h : ∀ y, line.target = some y → aux y = aux' y) :
    line.Holds lt f ρ aux ↔ line.Holds lt f ρ aux' := by
  cases line with
  | poly A B C => exact Iff.rfl
  | notEqual x1 x2 y => rw [Line.Holds, Line.Holds, h y rfl]
  | lessThan x1 x2 y => rw [Line.Holds, Line.Holds, h y rfl]
  | split signed numBits x y0 => exact Iff.rfl

/-- What stands in the place of a name is what the map puts there. -/
theorem rep_eq_of_copied {y z : VarName} (h : f.Copied (.name y) (.name z)) : f.rep y = z := by
  rcases h with ⟨v, o, hlast, hy, hz⟩ | ⟨hnone, hz⟩
  · cases hy
    cases hz
    exact rep_of_lastCopy hlast
  · cases hz
    rcases rep_cases f y with ⟨o, hlast, hkind, -⟩ | ⟨-, hrep⟩
    · obtain ⟨kind, number⟩ := y
      cases hkind
      exact absurd hlast.mem (hnone number o rfl)
    · exact hrep

/-- Targets are apart when the replacement is injective on them. -/
theorem targetsApart_iff :
    f.TargetsApart ↔ ∀ y ∈ f.targets, ∀ y' ∈ f.targets, f.rep y = f.rep y' → y = y' := by
  constructor
  · intro h y hy y' hy' hrep
    apply h y hy y' hy' (f.rep y)
    · exact copied_replaceOperand f (.name y)
    · rw [hrep]
      exact copied_replaceOperand f (.name y')
  · intro h y hy y' hy' z hcopied hcopied'
    exact h y hy y' hy' ((rep_eq_of_copied hcopied).trans (rep_eq_of_copied hcopied').symm)

/-- The auxiliary variables of the targets, each under the name that replaces its target. -/
theorem exists_aux {T : Type u} (htargets : f.TargetsApart) (aux : VarName → T) :
    ∃ aux' : VarName → T, ∀ y ∈ f.targets, aux' (f.rep y) = aux y := by
  have : Nonempty VarName := ⟨⟨.var, 0⟩⟩
  have hinj : Set.InjOn f.rep {y | y ∈ f.targets} := fun y hy y' hy' hrep =>
    targetsApart_iff.1 htargets y hy y' hy' hrep
  refine ⟨fun z => aux (Function.invFunOn f.rep {y | y ∈ f.targets} z), fun y hy => ?_⟩
  exact congrArg aux (hinj.leftInvOn_invFunOn hy)

/-- What satisfies the file satisfies the cleaned file. -/
theorem cleanup_extends (hsplit : f.SplitSafe) (hread : f.SameReading lt)
    (htargets : f.TargetsApart) {io : VarName → K} (h : f.Extends lt io) :
    (cleanupConstraints f).Extends lt io := by
  obtain ⟨ρ, aux, hio, hsat⟩ := h
  obtain ⟨hothers, hcopies⟩ := (sat_iff ρ aux).1 hsat
  obtain ⟨aux', haux⟩ := exists_aux htargets aux
  refine ⟨ρ, aux', hio, (cleanup_sat_iff hsplit hread ρ aux').2 ?_⟩
  rw [comp_rep_eq fun v o hlast => hcopies v o hlast.mem]
  intro line hline hren
  refine (Line.Holds.congr_aux fun y hy => ?_).2 (hothers line hline hren)
  exact haux y (List.mem_filterMap.2 ⟨line, hline, hy⟩)

/-- What satisfies the cleaned file satisfies the file, when every variable takes the value of its
last copy and the overwritten copies are implied. -/
theorem extends_of_cleanup (hsplit : f.SplitSafe) (hread : f.SameReading lt)
    (himplied : f.Implied lt) {io : VarName → K} (h : (cleanupConstraints f).Extends lt io) :
    f.Extends lt io := by
  obtain ⟨ρ, aux, hio, hsat⟩ := h
  have hothers := (cleanup_sat_iff hsplit hread ρ aux).1 hsat
  have hlast : ∀ v o, f.LastCopy v o → ρ (f.rep ⟨.var, v⟩) = ρ (f.rep ⟨.output, o⟩) := by
    intro v o h
    rw [rep_of_lastCopy h]
    rfl
  refine ⟨fun x => ρ (f.rep x), fun y => aux (f.rep y), fun x hx => ?_, ?_⟩
  · exact (congrArg ρ (rep_of_ne_var hx)).trans (hio x hx)
  · exact (sat_iff _ _).2 ⟨hothers, himplied _ _ hothers hlast⟩

/-- Where the relation is kept the overwritten copies are implied: an assignment that breaks one
satisfies the cleaned file, and no variable can take two values. -/
theorem implied_of_sameRelation (hsplit : f.SplitSafe) (hread : f.SameReading lt)
    (htargets : f.TargetsApart) (hsame : SameRelation lt f (cleanupConstraints f)) :
    f.Implied lt := by
  intro ρ aux hothers hlast v o hcopy
  obtain ⟨aux', haux⟩ := exists_aux htargets aux
  have hclean : (cleanupConstraints f).Extends lt ρ := by
    refine ⟨ρ, aux', fun x _ => rfl, (cleanup_sat_iff hsplit hread ρ aux').2 ?_⟩
    rw [comp_rep_eq hlast]
    intro line hline hren
    refine (Line.Holds.congr_aux fun y hy => ?_).2 (hothers line hline hren)
    exact haux y (List.mem_filterMap.2 ⟨line, hline, hy⟩)
  obtain ⟨ρ', aux'', hio, hsat⟩ := (hsame ρ).2 hclean
  have hcopies := ((sat_iff ρ' aux'').1 hsat).2
  rcases replacements_cases f v with ⟨o', -, hlast'⟩ | ⟨-, hnone⟩
  · calc ρ ⟨.var, v⟩ = ρ ⟨.output, o'⟩ := hlast v o' hlast'
      _ = ρ' ⟨.output, o'⟩ := (hio _ fun h => Kind.noConfusion h).symm
      _ = ρ' ⟨.var, v⟩ := (hcopies v o' hlast'.mem).symm
      _ = ρ' ⟨.output, o⟩ := hcopies v o hcopy
      _ = ρ ⟨.output, o⟩ := hio _ fun h => Kind.noConfusion h
  · exact absurd hcopy (hnone o)

/-- Cleaning keeps the relation and the declarations when no bit of a split line is copied, the
overwritten copies are implied, and comparisons keep their reading and their targets apart; in a
file where each circuit line has one name and the comparisons do so, only then. -/
theorem cleanup_iff (lt : LessReading K) (F : SpecFile) :
    (F.SplitSafe ∧ F.Implied lt ∧ F.SameReading lt ∧ F.TargetsApart → Keeps lt F.toSpec) ∧
      (F.OneName → F.SameReading lt → F.TargetsApart →
        (Keeps lt F.toSpec ↔ F.SplitSafe ∧ F.Implied lt)) := by
  have henough :
      F.SplitSafe ∧ F.Implied lt ∧ F.SameReading lt ∧ F.TargetsApart → Keeps lt F.toSpec := by
    rintro ⟨hsplit, himplied, hread, htargets⟩
    refine ⟨fun io => ⟨?_, ?_⟩, cleanup_allDeclared F.declared hsplit⟩
    · exact cleanup_extends hsplit hread htargets
    · exact extends_of_cleanup hsplit hread himplied
  refine ⟨henough, fun hname hread htargets => ⟨?_, ?_⟩⟩
  · rintro ⟨hsame, hclean⟩
    have hsplit := splitSafe_of_allDeclared F.declared hname hclean
    exact ⟨hsplit, implied_of_sameRelation hsplit hread htargets hsame⟩
  · rintro ⟨hsplit, himplied⟩
    exact henough ⟨hsplit, himplied, hread, htargets⟩

/-- Where no variable is copied twice nothing is overwritten. -/
theorem implied_of_nodup (h : (f.copies.map Prod.fst).Nodup) : f.Implied lt := by
  intro ρ aux _ hlast v o hcopy
  obtain ⟨before, after, heq⟩ := List.append_of_mem hcopy
  refine hlast v o ⟨before, after, heq, fun o' ho' => ?_⟩
  rw [heq, List.map_append, List.map_cons] at h
  exact (List.nodup_cons.1 (List.nodup_append.1 h).2.1).1
    (List.mem_map.2 ⟨_, ho', rfl⟩)

end Relation

/-! ## Files -/

/-- `I1 - V2`, the variable of the input. -/
def inputLine : Line :=
  .poly .nil .nil (.atom (.name ⟨.input, 1⟩) (.atom .minus (.atom (.name ⟨.var, 2⟩) .nil)))

/-- `O3` copies the input, `V4` and `V5` are its bits, and `O8` and `O9` copy two comparisons. -/
def oneCopy : SpecFile where
  inputs := [⟨1, .uint 2⟩]
  outputs := [⟨3, .uint 2⟩, ⟨8, .uint 1⟩, ⟨9, .uint 1⟩]
  vars := [⟨2, .uint 2⟩, ⟨4, .uint 1⟩, ⟨5, .uint 1⟩, ⟨6, .uint 1⟩, ⟨7, .uint 1⟩]
  constraints :=
    [inputLine, .split false 2 ⟨.var, 2⟩ ⟨.var, 4⟩, copyLine 2 3,
      .notEqual (.name ⟨.var, 2⟩) (.const 0) ⟨.var, 6⟩,
      .lessThan (.name ⟨.var, 2⟩) (.const 3) ⟨.var, 7⟩, copyLine 6 8, copyLine 7 9]
  declared := by decide

theorem cleanup_oneCopy :
    Keeps (fun _ _ x1 x2 y aux => aux "Mlt" * (x1 - x2) = (0 : ZMod 7) ∧ aux "Mlt" - y = 0)
      oneCopy.toSpec := by
  have hread : Spec.SameReading
      (fun _ _ x1 x2 y aux => aux "Mlt" * (x1 - x2) = (0 : ZMod 7) ∧ aux "Mlt" - y = 0)
      oneCopy.toSpec := fun _ _ _ _ _ _ _ _ => rfl
  have hsplit : oneCopy.SplitSafe := by
    intro signed numBits x y0 hline i hi o hcopy
    simp only [oneCopy, inputLine, copyLine, List.mem_cons, List.not_mem_nil, or_false, reduceCtorEq,
      Line.split.injEq, false_or] at hline
    obtain ⟨-, rfl, -, rfl⟩ := hline
    -- the copied variables are `V2`, `V6` and `V7`
    have hcopies : (4 + i, o) ∈ [(2, 3), (6, 8), (7, 9)] := hcopy
    simp only [List.mem_cons, Prod.mk.injEq, List.not_mem_nil, or_false] at hcopies
    omega
  have htargets : oneCopy.TargetsApart := targetsApart_iff.2 (by decide)
  exact (cleanup_iff _ oneCopy).1 ⟨hsplit, implied_of_nodup (by decide), hread, htargets⟩

/-- `O3` and `O4` both copy the input. -/
def twoCopies : SpecFile where
  inputs := [⟨1, .uint 2⟩]
  outputs := [⟨3, .uint 2⟩, ⟨4, .uint 2⟩]
  vars := [⟨2, .uint 2⟩]
  constraints := [inputLine, copyLine 2 3, copyLine 2 4]
  declared := by decide

/-- The second copy overwrites the first, whose line is dropped all the same: the cleaned file has
the one constraint `I1 - O4`, and `O3` is free. -/
theorem twoCopies_differ :
    twoCopies.OneName ∧ (cleanupConstraints twoCopies.toSpec).constraints =
        [.poly .nil .nil
          (.atom (.name ⟨.input, 1⟩) (.atom .minus (.atom (.name ⟨.output, 4⟩) .nil)))] ∧
      ∀ lt : LessReading (ZMod 7),
        ¬ SameRelation lt twoCopies.toSpec (cleanupConstraints twoCopies.toSpec) := by
  have hlines : (cleanupConstraints twoCopies.toSpec).constraints =
      [.poly .nil .nil
        (.atom (.name ⟨.input, 1⟩) (.atom .minus (.atom (.name ⟨.output, 4⟩) .nil)))] := by
    decide
  refine ⟨by decide, hlines, fun lt hsame => ?_⟩
  -- `O3` is one, the input and `O4` are zero
  let io : VarName → ZMod 7 := fun x => if x = ⟨.output, 3⟩ then 1 else 0
  have hclean : (cleanupConstraints twoCopies.toSpec).Extends lt io := by
    refine ⟨io, fun _ _ => 0, fun x _ => rfl, ?_⟩
    intro line hline
    rw [hlines] at hline
    cases List.mem_singleton.1 hline
    change (0 : ZMod 7) * 0 + ((0 + 0) + -0) = 0
    decide
  obtain ⟨ρ, aux, hio, hsat⟩ := (hsame io).2 hclean
  have h3 := (holds_copyLine ρ aux 2 3).1 (hsat (copyLine 2 3) (by decide))
  have h4 := (holds_copyLine ρ aux 2 4).1 (hsat (copyLine 2 4) (by decide))
  have hone : ρ ⟨.output, 3⟩ = 1 := hio _ (by decide)
  have hzero : ρ ⟨.output, 4⟩ = 0 := hio _ (by decide)
  rw [h4, hone, hzero] at h3
  exact absurd h3 (by decide)

/-- `O3` copies two comparisons, `I1 != 0 - V4` and `I2 != 0 - V5`. -/
def twoTargets : SpecFile where
  inputs := [⟨1, .uint 2⟩, ⟨2, .uint 2⟩]
  outputs := [⟨3, .uint 1⟩]
  vars := [⟨4, .uint 1⟩, ⟨5, .uint 1⟩]
  constraints :=
    [.notEqual (.name ⟨.input, 1⟩) (.const 0) ⟨.var, 4⟩,
      .notEqual (.name ⟨.input, 2⟩) (.const 0) ⟨.var, 5⟩, copyLine 4 3, copyLine 5 3]
  declared := by decide

/-- No variable is copied twice and there is no split line, but both comparisons get the target
`O3`, and `O3$M` cannot be the inverse of `1` and of `2`. -/
theorem twoTargets_differ :
    twoTargets.OneName ∧ (twoTargets.copies.map Prod.fst).Nodup ∧
      ∀ lt : LessReading (ZMod 7),
        ¬ SameRelation lt twoTargets.toSpec (cleanupConstraints twoTargets.toSpec) := by
  refine ⟨by decide, by decide, fun lt hsame => ?_⟩
  -- the inputs are one and two, all other names are one
  let io : VarName → ZMod 7 := fun x => if x = ⟨.input, 2⟩ then 2 else 1
  -- the auxiliary variable of `V4` is one, that of `V5` is four
  let aux : VarName → String → ZMod 7 := fun y _ => if y = ⟨.var, 5⟩ then 4 else 1
  have hfile : twoTargets.Extends lt io := by
    refine ⟨io, aux, fun x _ => rfl, (sat_iff io aux).2 ⟨?_, ?_⟩⟩
    · intro line hline hren
      simp only [twoTargets, List.mem_cons, List.not_mem_nil, or_false] at hline
      rcases hline with rfl | rfl | rfl | rfl
      · simp only [Line.Holds, Operand.value]
        decide
      · simp only [Line.Holds, Operand.value]
        decide
      · cases hren
      · cases hren
    · intro v o hcopy
      have hcopies : (v, o) ∈ [(4, 3), (5, 3)] := hcopy
      simp only [List.mem_cons, Prod.mk.injEq, List.not_mem_nil, or_false] at hcopies
      rcases hcopies with ⟨rfl, rfl⟩ | ⟨rfl, rfl⟩ <;> rfl
  obtain ⟨ρ, aux', hio, hsat⟩ := (hsame io).1 hfile
  have hfirst := hsat (.notEqual (.name ⟨.input, 1⟩) (.const 0) ⟨.output, 3⟩) (by decide)
  have hsecond := hsat (.notEqual (.name ⟨.input, 2⟩) (.const 0) ⟨.output, 3⟩) (by decide)
  simp only [Line.Holds, Operand.value, hio ⟨.input, 1⟩ (by decide), hio ⟨.input, 2⟩ (by decide),
    hio ⟨.output, 3⟩ (by decide)] at hfirst hsecond
  have hboth : ∀ M : ZMod 7, M * (1 - ((0 : ℤ) : ZMod 7)) - 1 = 0 →
      M * (2 - ((0 : ℤ) : ZMod 7)) - 1 ≠ 0 := by
    decide
  exact hboth _ hfirst.1 hsecond.1

end Pepper.Frontend.ConstraintCleaner
