import Mathlib.Algebra.BigOperators.Intervals
import Mathlib.Tactic.Ring
import Pepper.Zcc.Tokens

/-!
# The constraints of an integer comparison

`lessThanAsBasicConstraints` is the list of basic constraints by which the back end expresses
`y = (a < b)` with auxiliary variables: one of `Mlt`, `Meq`, `Mgt` says which case holds, and the
variables `N0`, `N1`, ... hold the powers of two of the difference. `getBitsDifference` is the
number of bits for operands of given widths.

`lessThan_satisfied_iff` reads the list as equations between the values of the names.
-/

set_option autoImplicit false

namespace Pepper.Zcc

open Pepper.Foundations

universe u v

/-! ## Lines -/

/-- The auxiliary variables of a comparison. -/
inductive Suffix where
  | mlt : Suffix
  | meq : Suffix
  | mgt : Suffix
  | bit (i : ℕ) : Suffix
deriving DecidableEq, Repr

/-- A name of the spec, or `target$suffix`. -/
inductive Name (ν : Type u) where
  | base (x : ν) : Name ν
  | aux (target : ν) (suffix : Suffix) : Name ν
deriving DecidableEq, Repr

section Lines

variable {ν : Type u}

/-- `( A ) * ( B ) + ( C )`. -/
def basicConstraint (A B C : Text ν) : Text ν :=
  .group A (.atom .times (.group B (.atom .plus (.group C .nil))))

/-- A name on its own. -/
def nameText (x : ν) : Text ν := .atom (.name x) .nil

/-- `A - B`. -/
def minusText (A B : Text ν) : Text ν := A ++ .atom .minus B

/-- `A + B`. -/
def plusText (A B : Text ν) : Text ν := A ++ .atom .plus B

/-- An integer constant. -/
def constText (c : ℤ) : Text ν := .atom (.const c) .nil

end Lines

/-! ## The constraints -/

section Constraints

variable {ν : Type u}

/-- The number of bits of a comparison of integers of widths `na0` and `na1`: one more than the
wider one, but none more when one of the operands is written `0`. -/
def getBitsDifference (isZero : Bool) (na0 na1 : ℕ) : ℕ :=
  if isZero then max na0 na1 else max na0 na1 + 1

/-- `- N0 - N1 ... `, the first `k` of them. -/
def bitsText (target : ν) : ℕ → Text (Name ν)
  | 0 => .nil
  | k + 1 => bitsText target k ++ .atom .minus (nameText (.aux target (.bit k)))

/-- `diffFromPot`: the bits and the power of two. -/
def diffFromPot (target : ν) (k : ℕ) : Text (Name ν) :=
  bitsText target k ++ .atom .plus (constText (2 ^ k))

/-- `( N_i ) * ( 2^i - N_i ) + ( )`. -/
def bitConstraint (target : ν) (i : ℕ) : Text (Name ν) :=
  let Ni := nameText (.aux target (.bit i))
  basicConstraint Ni (minusText (constText (2 ^ i)) Ni) .nil

/-- `( M ) * ( M - 1 ) + ( )`. -/
def caseConstraint (M : Text (Name ν)) : Text (Name ν) :=
  basicConstraint M (minusText M (constText 1)) .nil

/-- The constraints of an integer comparison of `na2` bits. -/
def lessThanAsBasicConstraints (na2 : ℕ) (arg0 arg1 : Text (Name ν)) (target : ν) :
    List (Text (Name ν)) :=
  let Mlt := nameText (.aux target .mlt)
  let Meq := nameText (.aux target .meq)
  let Mgt := nameText (.aux target .mgt)
  let diff := diffFromPot target (na2 - 1)
  (List.range (na2 - 1)).map (bitConstraint target) ++
    [caseConstraint Mlt, caseConstraint Meq, caseConstraint Mgt,
      basicConstraint .nil .nil
        (minusText (plusText (plusText Mlt Meq) Mgt) (constText 1)),
      -- if Mlt, check arg0 < arg1
      basicConstraint Mlt (plusText (minusText arg0 arg1) diff) .nil,
      -- if Meq, check arg0 = arg1
      basicConstraint Meq (minusText arg0 arg1) .nil,
      -- if Mgt, check arg1 < arg0
      basicConstraint Mgt (plusText (minusText arg1 arg0) diff) .nil,
      -- output matching
      basicConstraint .nil .nil (minusText Mlt (nameText (.base target)))]

end Constraints

/-! ## What the lines stand for -/

section Meaning

variable {ν : Type u} {R : Type v} [CommRing R] (ρ : ν → R)

/-- The reader on a text, from a given state. -/
def readText (m : Meaning R) (n : Text ν) : Meaning R :=
  (meaningReader ρ).run Meaning.empty m n

theorem meaning_eq_readText (n : Text ν) :
    meaning ρ n = (readText ρ Meaning.empty n).flush.sum := rfl

@[simp] theorem readText_append (m : Meaning R) (n n' : Text ν) :
    readText ρ m (n ++ n') = readText ρ (readText ρ m n) n' := by
  induction n generalizing m with
  | nil => rfl
  | atom a rest ih => exact ih _
  | group inner rest _ ih => exact ih _

@[simp] theorem readText_nil (m : Meaning R) : readText ρ m .nil = m := rfl

@[simp] theorem readText_plus (m : Meaning R) (n : Text ν) :
    readText ρ m (.atom .plus n) = readText ρ m.flush n := rfl

@[simp] theorem readText_minus (m : Meaning R) (n : Text ν) :
    readText ρ m (.atom .minus n) = readText ρ m.flush.toggle n := rfl

@[simp] theorem readText_times (m : Meaning R) (n : Text ν) :
    readText ρ m (.atom .times n) = readText ρ m n := rfl

@[simp] theorem readText_group (m : Meaning R) (inner n : Text ν) :
    readText ρ m (.group inner n) = readText ρ (m.factor (meaning ρ inner)) n := rfl

@[simp] theorem readText_name (m : Meaning R) (x : ν) :
    readText ρ m (nameText x) = m.factor (ρ x) := rfl

@[simp] theorem readText_const (m : Meaning R) (c : ℤ) :
    readText ρ m (constText c) = m.factor (c : R) := rfl

/-- The value of a line in the form of the front end. -/
theorem meaning_basicConstraint (A B C : Text ν) :
    meaning ρ (basicConstraint A B C) = meaning ρ A * meaning ρ B + meaning ρ C := by
  change (0 + (if false = true then -(meaning ρ A * meaning ρ B) else meaning ρ A * meaning ρ B)) +
    (if false = true then -meaning ρ C else meaning ρ C) = _
  simp

@[simp] theorem meaning_nil : meaning ρ (.nil : Text ν) = 0 := rfl

/-- Between two products: no sign is pending. -/
def Meaning.Clean (m : Meaning R) : Prop := m.flush = ⟨m.flush.sum, false, none⟩

namespace Meaning

omit ρ

theorem clean_empty : (empty : Meaning R).Clean := rfl

theorem clean_factor (m : Meaning R) (r : R) : (m.factor r).Clean := rfl

theorem Clean.flush {m : Meaning R} (h : m.Clean) : m.flush.Clean ∧ m.flush.flush.sum = m.flush.sum := by
  rw [Clean] at h
  rw [h]
  exact ⟨rfl, rfl⟩

/-- A factor after a plus sign. -/
theorem Clean.plus {m : Meaning R} (h : m.Clean) (r : R) :
    (m.flush.factor r).flush.sum = m.flush.sum + r := by
  rw [Clean] at h
  rw [h]
  rfl

/-- A factor after a minus sign. -/
theorem Clean.minus {m : Meaning R} (h : m.Clean) (r : R) :
    (m.flush.toggle.factor r).flush.sum = m.flush.sum - r := by
  rw [Clean] at h
  rw [h, sub_eq_add_neg]
  rfl

theorem sum_factor_empty (r : R) : ((empty : Meaning R).factor r).flush.sum = r := zero_add r

end Meaning

/-- A text that is a single factor: a name or a constant. -/
inductive IsFactor : Text ν → Prop where
  | name (x : ν) : IsFactor (nameText x)
  | const (c : ℤ) : IsFactor (constText c)

theorem meaning_nameText (x : ν) : meaning ρ (nameText x) = ρ x := Meaning.sum_factor_empty _

theorem meaning_constText (c : ℤ) : meaning ρ (constText c : Text ν) = c :=
  Meaning.sum_factor_empty _

theorem readText_factor {n : Text ν} (h : IsFactor n) (m : Meaning R) :
    readText ρ m n = m.factor (meaning ρ n) := by
  cases h with
  | name x => rw [meaning_nameText, readText_name]
  | const c => rw [meaning_constText, readText_const]

/-- `A - B` for a factor `B`. -/
theorem meaning_minusText {A B : Text ν} (hA : (readText ρ Meaning.empty A).Clean)
    (hB : IsFactor B) :
    meaning ρ (minusText A B) = meaning ρ A - meaning ρ B ∧
      (readText ρ Meaning.empty (minusText A B)).Clean := by
  rw [meaning_eq_readText, minusText, readText_append, readText_minus, readText_factor ρ hB]
  exact ⟨hA.minus _, Meaning.clean_factor _ _⟩

/-- `A + B` for a factor `B`. -/
theorem meaning_plusText {A B : Text ν} (hA : (readText ρ Meaning.empty A).Clean)
    (hB : IsFactor B) :
    meaning ρ (plusText A B) = meaning ρ A + meaning ρ B ∧
      (readText ρ Meaning.empty (plusText A B)).Clean := by
  rw [meaning_eq_readText, plusText, readText_append, readText_plus, readText_factor ρ hB]
  exact ⟨hA.plus _, Meaning.clean_factor _ _⟩

theorem clean_readText_factor {n : Text ν} (h : IsFactor n) :
    (readText ρ Meaning.empty n).Clean := by
  rw [readText_factor ρ h]
  exact Meaning.clean_factor _ _

/-- A name that is zero or `c`. -/
theorem meaning_bitLine (c : ℤ) (x : ν) :
    meaning ρ (basicConstraint (nameText x) (minusText (constText c) (nameText x)) .nil) =
      ρ x * (c - ρ x) := by
  rw [meaning_basicConstraint,
    (meaning_minusText ρ (clean_readText_factor ρ (.const c)) (.name x)).1, meaning_nameText,
    meaning_constText, meaning_nil, add_zero]

/-- A name that is zero or one. -/
theorem meaning_flagLine (x : ν) :
    meaning ρ (basicConstraint (nameText x) (minusText (nameText x) (constText 1)) .nil) =
      ρ x * (ρ x - 1) := by
  rw [meaning_basicConstraint,
    (meaning_minusText ρ (clean_readText_factor ρ (.name x)) (.const 1)).1, meaning_nameText,
    meaning_constText, meaning_nil, Int.cast_one, add_zero]

/-- Exactly one of three flags. -/
theorem meaning_flagSum (x y z : ν) :
    meaning ρ (minusText (plusText (plusText (nameText x) (nameText y)) (nameText z))
      (constText 1)) = ρ x + ρ y + ρ z - 1 := by
  obtain ⟨hv1, hc1⟩ := meaning_plusText ρ (clean_readText_factor ρ (.name x)) (.name y)
  obtain ⟨hv2, hc2⟩ := meaning_plusText ρ hc1 (.name z)
  rw [(meaning_minusText ρ hc2 (.const 1)).1, hv2, hv1, meaning_constText]
  simp only [meaning_nameText, Int.cast_one]

end Meaning

section LessThan

variable {ν : Type u} {R : Type v} [CommRing R] (ρ : Name ν → R)

/-- The bits after a text. -/
theorem readText_bitsText (target : ν) (k : ℕ) {m : Meaning R} (hm : m.Clean) :
    (readText ρ m (bitsText target k)).Clean ∧
      (readText ρ m (bitsText target k)).flush.sum =
        m.flush.sum - ∑ i ∈ Finset.range k, ρ (.aux target (.bit i)) := by
  induction k with
  | zero => simpa [bitsText] using hm
  | succ k ih =>
      obtain ⟨hclean, hsum⟩ := ih
      simp only [bitsText, readText_append, readText_minus, readText_name]
      refine ⟨Meaning.clean_factor _ _, ?_⟩
      rw [hclean.minus, hsum, Finset.sum_range_succ]
      ring

/-- `A` and the difference from a power of two. -/
theorem meaning_plus_diffFromPot {A : Text (Name ν)} (hA : (readText ρ Meaning.empty A).Clean)
    (target : ν) (k : ℕ) :
    meaning ρ (plusText A (diffFromPot target k)) =
      meaning ρ A - ∑ i ∈ Finset.range k, ρ (.aux target (.bit i)) + 2 ^ k := by
  obtain ⟨hflush, hsame⟩ := hA.flush
  obtain ⟨hclean, hsum⟩ := readText_bitsText ρ target k hflush
  rw [meaning_eq_readText, plusText, readText_append, readText_plus, diffFromPot,
    readText_append, readText_plus, readText_const, hclean.plus, hsum, hsame,
    meaning_eq_readText ρ A]
  push_cast
  ring

/-- The constraints of a comparison as equations between the values of the names. -/
theorem lessThan_satisfied_iff (na2 : ℕ) {arg0 arg1 : Text (Name ν)} (h0 : IsFactor arg0)
    (h1 : IsFactor arg1) (target : ν) :
    (∀ line ∈ lessThanAsBasicConstraints na2 arg0 arg1 target, meaning ρ line = 0) ↔
      (∀ i < na2 - 1,
        ρ (.aux target (.bit i)) * (2 ^ i - ρ (.aux target (.bit i))) = 0) ∧
      (∀ M ∈ [Suffix.mlt, .meq, .mgt], ρ (.aux target M) * (ρ (.aux target M) - 1) = 0) ∧
      ρ (.aux target .mlt) + ρ (.aux target .meq) + ρ (.aux target .mgt) - 1 = 0 ∧
      ρ (.aux target .mlt) * (meaning ρ arg0 - meaning ρ arg1 -
        ∑ i ∈ Finset.range (na2 - 1), ρ (.aux target (.bit i)) + 2 ^ (na2 - 1)) = 0 ∧
      ρ (.aux target .meq) * (meaning ρ arg0 - meaning ρ arg1) = 0 ∧
      ρ (.aux target .mgt) * (meaning ρ arg1 - meaning ρ arg0 -
        ∑ i ∈ Finset.range (na2 - 1), ρ (.aux target (.bit i)) + 2 ^ (na2 - 1)) = 0 ∧
      ρ (.aux target .mlt) - ρ (.base target) = 0 := by
  -- the constraint of one bit: zero or its power of two
  have hbit : ∀ i, meaning ρ (bitConstraint target i) =
      ρ (.aux target (.bit i)) * (2 ^ i - ρ (.aux target (.bit i))) := by
    intro i
    rw [bitConstraint, meaning_bitLine]
    push_cast
    rfl
  have hcase : ∀ M : Suffix, meaning ρ (caseConstraint (nameText (.aux target M))) =
      ρ (.aux target M) * (ρ (.aux target M) - 1) := fun M => meaning_flagLine ρ _
  -- both differences of the operands, the text and its value
  obtain ⟨hv01, hc01⟩ := meaning_minusText ρ (clean_readText_factor ρ h0) h1
  obtain ⟨hv10, hc10⟩ := meaning_minusText ρ (clean_readText_factor ρ h1) h0
  have hout := (meaning_minusText ρ (clean_readText_factor ρ (.name (.aux target .mlt)))
    (.name (.base target))).1
  simp only [lessThanAsBasicConstraints, List.forall_mem_append, List.forall_mem_map,
    List.mem_range, List.forall_mem_cons, List.not_mem_nil, false_implies, implies_true, and_true,
    hbit, hcase, meaning_basicConstraint, meaning_nil, mul_zero, zero_add, add_zero,
    meaning_flagSum,
    meaning_plus_diffFromPot ρ hc01, meaning_plus_diffFromPot ρ hc10, hv01, hv10, hout,
    meaning_nameText, and_assoc]

end LessThan

end Pepper.Zcc
