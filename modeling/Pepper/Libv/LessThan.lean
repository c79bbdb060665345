import Mathlib.Data.Nat.Size
import Mathlib.Tactic
import Pepper.Foundations.Loop
import Pepper.Zcc.LessThan

/-!
# The honest prover of an integer comparison

`computeLessThanInt` is what the prover writes for a `<I` line of the worksheet: which of the three
cases holds, the result, and the bits of the difference plus a power of two. Two constant operands
share one scratch cell, so both are read as the second.

`lessThan_complete_iff` says for which declared types the values satisfy the constraints of the
back end for every value of the operands: the largest difference that the types allow must be at
most the power of two that the chosen width leaves room for. `fits_types_iff` lists the pairs of
types. An `int` against a `uint` of the same width does not fit (`intUint_unsatisfied`).
-/

set_option autoImplicit false

open Pepper.Foundations Pepper.Foundations.Loop Pepper.Zcc

namespace Pepper.Libv.LessThan

universe u v

/-! ## The prover -/

/-- A token of a worksheet line: a cell of the prover's memory or a constant. -/
inductive Ref (κ : Type u) where
  | cell (c : κ) : Ref κ
  | const (q : ℚ) : Ref κ
deriving DecidableEq, Repr

section Prover

variable {κ : Type u} [DecidableEq κ]

/-- What the scratch cell holds after two tokens have been looked up. -/
def scratch (x1 x2 : Ref κ) : ℚ :=
  match x2 with
  | .const q => q
  | .cell _ =>
      match x1 with
      | .const q => q
      | .cell _ => 0

/-- The value behind a reference. -/
def deref (tempQ : ℚ) (s : κ → ℚ) : Ref κ → ℚ
  | .cell c => s c
  | .const _ => tempQ

/-- One pass of the loop that fills in the bits: the lowest bit of `temp`, as a power of two, and
`temp` without it. -/
def bitPass (nCell : ℕ → κ) (i : ℕ) (s : ℤ × (κ → ℚ)) : ℤ × (κ → ℚ) :=
  (s.1.tdiv 2, Function.update s.2 (nCell i) ((s.1.tmod 2 : ℤ) * 2 ^ i))

/-- `compute_less_than_int`: `nCell i` is the variable `i` places after `N_0`. -/
def computeLessThanInt (N : ℕ) (nCell : ℕ → κ) (mlt meq mgt : κ) (x1 x2 : Ref κ) (y : κ)
    (s : κ → ℚ) : κ → ℚ :=
  let tempQ := scratch x1 x2
  let write (lt eq gt : ℚ) : κ → ℚ :=
    Function.update (Function.update (Function.update s mlt lt) meq eq) mgt gt
  let s' :=
    if deref tempQ s x1 < deref tempQ s x2 then write 1 0 0
    else if deref tempQ s x1 = deref tempQ s x2 then write 0 1 0
    else write 0 0 1
  let diff :=
    if deref tempQ s x1 ≤ deref tempQ s x2 then deref tempQ s' x1 - deref tempQ s' x2
    else deref tempQ s' x2 - deref tempQ s' x1
  let s'' := Function.update s' y (s' mlt)
  (forLoop (N - 1) (bitPass nCell) (2 ^ (N - 1) + diff.num, s'')).2

/-- The writes to the case variables of a comparison. -/
def writeCases (mlt meq mgt : κ) (lt eq gt : ℚ) (s : κ → ℚ) : κ → ℚ :=
  Function.update (Function.update (Function.update s mlt lt) meq eq) mgt gt

theorem writeCases_of_ne {mlt meq mgt c : κ} (hlt : c ≠ mlt) (heq : c ≠ meq) (hgt : c ≠ mgt)
    (lt eq gt : ℚ) (s : κ → ℚ) : writeCases mlt meq mgt lt eq gt s c = s c := by
  rw [writeCases, Function.update_of_ne hgt, Function.update_of_ne heq, Function.update_of_ne hlt]

theorem tdiv_two_pow_succ (t : ℤ) (k : ℕ) : (t.tdiv (2 ^ k)).tdiv 2 = t.tdiv (2 ^ (k + 1)) := by
  have hnat : ∀ n : ℕ, ((n : ℤ).tdiv (2 ^ k)).tdiv 2 = (n : ℤ).tdiv (2 ^ (k + 1)) := by
    intro n
    have hpow : ∀ j : ℕ, ((2 : ℤ) ^ j) = ((2 ^ j : ℕ) : ℤ) := fun j => by push_cast; rfl
    have hdiv : ∀ a b : ℕ, (a : ℤ).tdiv b = ((a / b : ℕ) : ℤ) := fun _ _ => rfl
    rw [hpow, hpow, hdiv, hdiv, pow_succ, ← Nat.div_div_eq_div_mul]
    rfl
  obtain ⟨n, rfl | rfl⟩ := t.eq_nat_or_neg
  · exact hnat n
  · rw [Int.neg_tdiv, Int.neg_tdiv, Int.neg_tdiv, hnat]

/-- The bits that the loop writes, for a number of either sign. -/
theorem forLoop_bitPass (nCell : ℕ → κ) (hinj : Function.Injective nCell) (k : ℕ) (t : ℤ)
    (s : κ → ℚ) :
    (forLoop k (bitPass nCell) (t, s)).1 = t.tdiv (2 ^ k) ∧
      (∀ c, (∀ i < k, c ≠ nCell i) → (forLoop k (bitPass nCell) (t, s)).2 c = s c) ∧
      (∀ i < k, (forLoop k (bitPass nCell) (t, s)).2 (nCell i) =
        ((t.tdiv (2 ^ i)).tmod 2 : ℤ) * 2 ^ i) := by
  induction k with
  | zero => simp
  | succ k ih =>
      obtain ⟨htemp, hother, hbits⟩ := ih
      rw [forLoop_succ]
      refine ⟨?_, ?_, ?_⟩
      · change (forLoop k (bitPass nCell) (t, s)).1.tdiv 2 = _
        rw [htemp, tdiv_two_pow_succ]
      · intro c hc
        refine (Function.update_of_ne (hc k (Nat.lt_succ_self k)) _ _).trans ?_
        exact hother c fun i hi => hc i (Nat.lt_succ_of_lt hi)
      · intro i hi
        rcases Nat.lt_succ_iff_lt_or_eq.mp hi with hi | rfl
        · exact (Function.update_of_ne (fun h => hi.ne (hinj h)) _ _).trans (hbits i hi)
        · refine (Function.update_self _ _ _).trans ?_
          rw [htemp]

/-- What the bits add up to. -/
theorem sum_bits (k : ℕ) (t : ℤ) :
    ∑ i ∈ Finset.range k, (t.tdiv (2 ^ i)).tmod 2 * 2 ^ i = t - 2 ^ k * t.tdiv (2 ^ k) := by
  induction k with
  | zero => simp
  | succ k ih =>
      have hstep : t.tdiv (2 ^ k) = 2 * t.tdiv (2 ^ (k + 1)) + (t.tdiv (2 ^ k)).tmod 2 := by
        rw [← tdiv_two_pow_succ]
        exact (Int.mul_tdiv_add_tmod _ _).symm
      rw [Finset.sum_range_succ, ih]
      nth_rewrite 1 [hstep]
      ring

end Prover

/-! ## Operands and their types -/

/-- A declared integer type. -/
inductive VarType where
  | int (na : ℕ) (pos : 0 < na) : VarType
  | uint (na : ℕ) : VarType
deriving Repr

instance : DecidableEq VarType
  | .int na _, .int na' _ => decidable_of_iff (na = na') (by simp)
  | .uint na, .uint na' => decidable_of_iff (na = na') (by simp)
  | .int _ _, .uint _ => isFalse nofun
  | .uint _, .int _ _ => isFalse nofun

namespace VarType

/-- The declared width. -/
def na : VarType → ℕ
  | int na _ => na
  | uint na => na

/-- The least value of the type. -/
def lo : VarType → ℤ
  | int na _ => -2 ^ (na - 1)
  | uint _ => 0

/-- The greatest value of the type. -/
def hi : VarType → ℤ
  | int na _ => 2 ^ (na - 1) - 1
  | uint na => 2 ^ na - 1

theorem lo_le_hi (t : VarType) : t.lo ≤ t.hi := by
  cases t with
  | int na _ =>
      have hpos : (0 : ℤ) < 2 ^ (na - 1) := by positivity
      simp only [lo, hi]
      omega
  | uint na =>
      have hpos : (0 : ℤ) < 2 ^ na := by positivity
      simp only [lo, hi]
      omega

end VarType

/-- An operand of `<`: a declared variable or an integer constant. -/
inductive Operand (ν : Type u) where
  | var (x : ν) : Operand ν
  | const (c : ℤ) : Operand ν
deriving DecidableEq, Repr

namespace Operand

variable {ν : Type u}

/-- The width that `to_var` gives an operand. For a constant other than zero it is
`int(math.log(val, 2) + 1)`, computed in doubles: `constWidth` is that function. -/
def na (decl : ν → VarType) (constWidth : ℕ → ℕ) : Operand ν → ℕ
  | var x => (decl x).na
  | const c => if c.natAbs = 0 then 1 else constWidth c.natAbs

/-- The least value of an operand. -/
def lo (decl : ν → VarType) : Operand ν → ℤ
  | var x => (decl x).lo
  | const c => c

/-- The greatest value of an operand. -/
def hi (decl : ν → VarType) : Operand ν → ℤ
  | var x => (decl x).hi
  | const c => c

/-- The operand is written `0`. -/
def isZero : Operand ν → Bool
  | var _ => false
  | const c => c = 0

/-- The operand in a constraint. -/
def text : Operand ν → Text (Name ν)
  | var x => nameText (.base x)
  | const c => constText c

/-- The operand on a worksheet line. -/
def ref : Operand ν → Ref (Name ν)
  | var x => .cell (.base x)
  | const c => .const c

/-- The value of an operand. -/
def value (s : Name ν → ℚ) : Operand ν → ℚ
  | var x => s (.base x)
  | const c => c

/-- The operand has a value of its type. -/
def InRange (decl : ν → VarType) (s : Name ν → ℚ) (a : Operand ν) : Prop :=
  ∃ z : ℤ, a.value s = z ∧ a.lo decl ≤ z ∧ z ≤ a.hi decl

theorem isFactor_text (a : Operand ν) : IsFactor a.text := by
  cases a with
  | var x => exact .name _
  | const c => exact .const c

theorem meaning_text (s : Name ν → ℚ) (a : Operand ν) : meaning s a.text = a.value s := by
  cases a with
  | var x => exact meaning_nameText s _
  | const c => exact meaning_constText s c

end Operand

/-! ## Completeness -/

section Complete

variable {ν : Type u} [DecidableEq ν] (decl : ν → VarType) (constWidth : ℕ → ℕ)

/-- The number of bits that both the constraints and the worksheet line get. -/
def width (a b : Operand ν) : ℕ :=
  getBitsDifference (a.isZero || b.isZero) (a.na decl constWidth) (b.na decl constWidth)

/-- The values of all names after the prover has run the line for `target = (a < b)`. -/
def compare (a b : Operand ν) (target : ν) (s : Name ν → ℚ) : Name ν → ℚ :=
  computeLessThanInt (width decl constWidth a b) (fun i => .aux target (.bit i))
    (.aux target .mlt) (.aux target .meq) (.aux target .mgt) a.ref b.ref (.base target) s

/-- The values that the prover writes satisfy every constraint of the comparison. -/
def Satisfied (a b : Operand ν) (target : ν) (s : Name ν → ℚ) : Prop :=
  ∀ line ∈ lessThanAsBasicConstraints (width decl constWidth a b) a.text b.text target,
    meaning (compare decl constWidth a b target s) line = 0

/-- The types of the operands leave room for every difference: two constants are equal; otherwise
the largest difference is at most the power of two of the wider width, or half of it when one
operand is written `0`. -/
def Fits : Operand ν → Operand ν → Prop
  | .const c, .const d => c = d
  | a, b => max (a.hi decl - b.lo decl) (b.hi decl - a.lo decl) ≤
      2 ^ (max (a.na decl constWidth) (b.na decl constWidth) -
        if a.isZero || b.isZero then 1 else 0)

/-- The case variables and the target, and the loop that is left. -/
theorem computeLessThanInt_cases (N : ℕ) (target : ν) {x1 x2 : Ref (Name ν)} (s : Name ν → ℚ)
    (h1 : ∀ c, x1 = .cell c → ∃ x, c = .base x ∧ x ≠ target)
    (h2 : ∀ c, x2 = .cell c → ∃ x, c = .base x ∧ x ≠ target) {v0 v1 : ℤ}
    (hv0 : deref (scratch x1 x2) s x1 = v0) (hv1 : deref (scratch x1 x2) s x2 = v1) :
    ∃ t : Name ν → ℚ, (∀ y, y ≠ target → t (.base y) = s (.base y)) ∧
      t (.aux target .mlt) = (if v0 < v1 then 1 else 0) ∧
      t (.aux target .meq) = (if v0 = v1 then 1 else 0) ∧
      t (.aux target .mgt) = (if v1 < v0 then 1 else 0) ∧
      t (.base target) = t (.aux target .mlt) ∧
      computeLessThanInt N (fun i => .aux target (.bit i)) (.aux target .mlt)
          (.aux target .meq) (.aux target .mgt) x1 x2 (.base target) s =
        (forLoop (N - 1) (bitPass fun i => .aux target (.bit i))
          (2 ^ (N - 1) - |v0 - v1|, t)).2 := by
  -- the writes to the case variables do not touch the operands
  have hkeep : ∀ (x : Ref (Name ν)), (∀ c, x = .cell c → ∃ y, c = .base y ∧ y ≠ target) →
      ∀ (t : Name ν → ℚ), (∀ y, y ≠ target → t (.base y) = s (.base y)) →
        deref (scratch x1 x2) t x = deref (scratch x1 x2) s x := by
    intro x hx t ht
    cases x with
    | const q => rfl
    | cell c =>
        obtain ⟨y, rfl, hy⟩ := hx c rfl
        exact ht y hy
  let W := writeCases (Name.aux target .mlt) (.aux target .meq) (.aux target .mgt)
  have hWbase : ∀ lt eq gt y, W lt eq gt s (.base y) = s (.base y) := fun lt eq gt y =>
    writeCases_of_ne (by simp) (by simp) (by simp) lt eq gt s
  have hW0 : ∀ lt eq gt, deref (scratch x1 x2) (W lt eq gt s) x1 = v0 := fun lt eq gt =>
    (hkeep x1 h1 _ fun y _ => hWbase lt eq gt y).trans hv0
  have hW1 : ∀ lt eq gt, deref (scratch x1 x2) (W lt eq gt s) x2 = v1 := fun lt eq gt =>
    (hkeep x2 h2 _ fun y _ => hWbase lt eq gt y).trans hv1
  refine ⟨Function.update (W (if v0 < v1 then 1 else 0) (if v0 = v1 then 1 else 0)
    (if v1 < v0 then 1 else 0) s) (.base target) (if v0 < v1 then 1 else 0), ?_, ?_, ?_, ?_, ?_, ?_⟩
  · intro y hy
    rw [Function.update_of_ne (by simpa using hy), hWbase]
  · simp [W, writeCases]
  · simp [W, writeCases]
  · simp [W, writeCases]
  · simp [W, writeCases]
  · -- the three cases of the comparison
    have hnum : ∀ z : ℤ, ((z : ℚ)).num = z := fun z => Rat.num_intCast z
    rcases lt_trichotomy v0 v1 with hlt | rfl | hgt
    · have hcast : (v0 : ℚ) < v1 := by exact_mod_cast hlt
      have habs : -|v0 - v1| = v0 - v1 := by
        rw [abs_of_neg (by omega), neg_neg]
      simp only [computeLessThanInt, hv0, hv1, if_pos hcast, if_pos hcast.le, if_pos hlt,
        if_neg hlt.ne, if_neg hlt.asymm]
      change (forLoop (N - 1) _ (2 ^ (N - 1) +
        (deref (scratch x1 x2) (W 1 0 0 s) x1 - deref (scratch x1 x2) (W 1 0 0 s) x2).num, _)).2 =
          _
      rw [hW0, hW1, ← Int.cast_sub, hnum, sub_eq_add_neg (2 ^ (N - 1)), habs]
      simp [W, writeCases]
    · simp only [computeLessThanInt, hv0, hv1, lt_irrefl, le_refl, ↓reduceIte]
      change (forLoop (N - 1) _ (2 ^ (N - 1) +
        (deref (scratch x1 x2) (W 0 1 0 s) x1 - deref (scratch x1 x2) (W 0 1 0 s) x2).num, _)).2 =
          _
      rw [hW0, hW1, sub_self, sub_self, abs_zero]
      simp [W, writeCases]
    · have hcast : (v1 : ℚ) < v0 := by exact_mod_cast hgt
      have habs : -|v0 - v1| = v1 - v0 := by
        rw [abs_of_pos (by omega), neg_sub]
      simp only [computeLessThanInt, hv0, hv1, if_neg hcast.asymm, if_neg hcast.ne',
        if_neg hcast.not_ge, if_pos hgt, if_neg hgt.ne', if_neg hgt.asymm]
      change (forLoop (N - 1) _ (2 ^ (N - 1) +
        (deref (scratch x1 x2) (W 0 0 1 s) x2 - deref (scratch x1 x2) (W 0 0 1 s) x1).num, _)).2 =
          _
      rw [hW0, hW1, ← Int.cast_sub, hnum, sub_eq_add_neg (2 ^ (N - 1)), habs]
      simp [W, writeCases]

/-- The values after the line, for operands that the prover reads as the integers `v0` and `v1`. -/
theorem computeLessThanInt_values (N : ℕ) (target : ν) {x1 x2 : Ref (Name ν)} (s : Name ν → ℚ)
    (h1 : ∀ c, x1 = .cell c → ∃ x, c = .base x ∧ x ≠ target)
    (h2 : ∀ c, x2 = .cell c → ∃ x, c = .base x ∧ x ≠ target) {v0 v1 : ℤ}
    (hv0 : deref (scratch x1 x2) s x1 = v0) (hv1 : deref (scratch x1 x2) s x2 = v1) :
    let s' := computeLessThanInt N (fun i => .aux target (.bit i)) (.aux target .mlt)
      (.aux target .meq) (.aux target .mgt) x1 x2 (.base target) s
    (∀ x, x ≠ target → s' (.base x) = s (.base x)) ∧
      s' (.aux target .mlt) = (if v0 < v1 then 1 else 0) ∧
      s' (.aux target .meq) = (if v0 = v1 then 1 else 0) ∧
      s' (.aux target .mgt) = (if v1 < v0 then 1 else 0) ∧
      s' (.base target) = s' (.aux target .mlt) ∧
      ∀ i < N - 1, s' (.aux target (.bit i)) =
        (((2 ^ (N - 1) - |v0 - v1|).tdiv (2 ^ i)).tmod 2 * 2 ^ i : ℤ) := by
  intro s'
  have hinj : Function.Injective fun i => (Name.aux target (.bit i) : Name ν) := by
    intro i j h
    simpa using h
  obtain ⟨t, hbase, hlt, heq, hgt, hy, hs'⟩ :=
    computeLessThanInt_cases N target s h1 h2 hv0 hv1
  obtain ⟨-, hother, hbits⟩ := forLoop_bitPass (fun i => (Name.aux target (.bit i) : Name ν)) hinj
    (N - 1) (2 ^ (N - 1) - |v0 - v1|) t
  simp only [s', hs']
  refine ⟨fun x hx => ?_, ?_, ?_, ?_, ?_, fun i hi => ?_⟩
  · rw [hother _ (by simp), hbase x hx]
  · rw [hother _ (by simp), hlt]
  · rw [hother _ (by simp), heq]
  · rw [hother _ (by simp), hgt]
  · rw [hother _ (by simp), hother _ (by simp), hy]
  · rw [hbits i hi]
    push_cast
    rfl

variable {decl constWidth}

omit [DecidableEq ν] in
theorem Operand.ref_cell {a : Operand ν} {target : ν} (ha : a ≠ .var target) (c : Name ν)
    (hc : a.ref = .cell c) : ∃ x, c = .base x ∧ x ≠ target := by
  cases a with
  | var x =>
      obtain rfl : .base x = c := by simpa [Operand.ref] using hc
      exact ⟨x, rfl, fun h => ha (by rw [h])⟩
  | const q => simp [Operand.ref] at hc

/-- The bits of a number that is not negative satisfy their constraints, and bits that satisfy
them do not add up to a negative number. -/
theorem bits_satisfied_iff (k : ℕ) {t : ℤ} (ht : t < 2 ^ k) :
    ((∀ i < k, (t.tdiv (2 ^ i)).tmod 2 * 2 ^ i *
        (2 ^ i - (t.tdiv (2 ^ i)).tmod 2 * 2 ^ i) = 0) ∧ t.tdiv (2 ^ k) = 0) ↔ 0 ≤ t := by
  constructor
  · rintro ⟨hbits, hzero⟩
    have hsum := sum_bits k t
    rw [hzero, mul_zero, sub_zero] at hsum
    rw [← hsum]
    refine Finset.sum_nonneg fun i hi => ?_
    have hpos : (0 : ℤ) < 2 ^ i := by positivity
    rcases mul_eq_zero.mp (hbits i (Finset.mem_range.mp hi)) with h | h
    · exact h.ge
    · rw [← sub_eq_zero.mp h]
      exact hpos.le
  · intro h0
    refine ⟨fun i _ => ?_, Int.tdiv_eq_zero_of_lt h0 ht⟩
    have hdiv : 0 ≤ t.tdiv (2 ^ i) := Int.tdiv_nonneg h0 (by positivity)
    rcases Int.tmod_two_eq (t.tdiv (2 ^ i)) with h | h | h
    · have hnonneg := Int.tmod_nonneg 2 hdiv
      omega
    · rw [h]
      ring
    · rw [h]
      ring

/-- The bits of a power of two beyond the last bit. -/
theorem bits_pow_satisfied (k : ℕ) :
    ∀ i < k, ((2 ^ k : ℤ).tdiv (2 ^ i)).tmod 2 * 2 ^ i *
      (2 ^ i - ((2 ^ k : ℤ).tdiv (2 ^ i)).tmod 2 * 2 ^ i) = 0 := by
  intro i hi
  have hdiv : ((2 : ℤ) ^ k).tdiv (2 ^ i) = 2 * 2 ^ (k - i - 1) := by
    have hsplit : (2 : ℤ) ^ k = 2 ^ i * (2 * 2 ^ (k - i - 1)) := by
      rw [← pow_succ', ← pow_add]
      congr 1
      omega
    rw [hsplit, Int.mul_tdiv_cancel_left _ (by positivity)]
  rw [hdiv, Int.mul_tmod_right]
  ring

/-- The constraints, for operands that the prover reads as `v0`, `v1` and whose values are `x0`,
`x1`. -/
theorem satisfied_iff {a b : Operand ν} {target : ν} (ha : a ≠ .var target) (hb : b ≠ .var target)
    {s : Name ν → ℚ} {v0 v1 x0 x1 : ℤ} (hv0 : deref (scratch a.ref b.ref) s a.ref = v0)
    (hv1 : deref (scratch a.ref b.ref) s b.ref = v1) (hx0 : a.value s = x0)
    (hx1 : b.value s = x1) :
    let k := width decl constWidth a b - 1
    let t : ℤ := 2 ^ k - |v0 - v1|
    Satisfied decl constWidth a b target s ↔
      (∀ i < k, (t.tdiv (2 ^ i)).tmod 2 * 2 ^ i *
        (2 ^ i - (t.tdiv (2 ^ i)).tmod 2 * 2 ^ i) = 0) ∧
      (v0 < v1 → x0 - x1 - (t - 2 ^ k * t.tdiv (2 ^ k)) + 2 ^ k = 0) ∧
      (v0 = v1 → x0 - x1 = 0) ∧
      (v1 < v0 → x1 - x0 - (t - 2 ^ k * t.tdiv (2 ^ k)) + 2 ^ k = 0) := by
  intro k t
  obtain ⟨hbase, hlt, heq, hgt, hy, hbits⟩ := computeLessThanInt_values
    (width decl constWidth a b) target s (Operand.ref_cell ha) (Operand.ref_cell hb) hv0 hv1
  have hvalue : ∀ {c : Operand ν}, c ≠ .var target →
      meaning (compare decl constWidth a b target s) c.text = c.value s := by
    intro c hc
    rw [Operand.meaning_text]
    cases c with
    | var x => exact hbase x fun h => hc (by rw [h])
    | const q => rfl
  have hsum : ∑ i ∈ Finset.range k, compare decl constWidth a b target s (.aux target (.bit i)) =
      ((t - 2 ^ k * t.tdiv (2 ^ k) : ℤ) : ℚ) := by
    rw [← sum_bits k t, Int.cast_sum]
    exact Finset.sum_congr rfl fun i hi => hbits i (Finset.mem_range.mp hi)
  rw [Satisfied, lessThan_satisfied_iff _ _ a.isFactor_text b.isFactor_text, hvalue ha, hvalue hb,
    hx0, hx1]
  change (∀ i < k, _) ∧ _ ∧ _ ∧ _ * (_ - ∑ i ∈ Finset.range k, _ + 2 ^ k) = 0 ∧ _ ∧
    _ * (_ - ∑ i ∈ Finset.range k, _ + 2 ^ k) = 0 ∧ _ ↔ _
  rw [hsum]
  have hbitsIff : (∀ i < k, compare decl constWidth a b target s (.aux target (.bit i)) *
        (2 ^ i - compare decl constWidth a b target s (.aux target (.bit i))) = 0) ↔
      ∀ i < k, (t.tdiv (2 ^ i)).tmod 2 * 2 ^ i *
        (2 ^ i - (t.tdiv (2 ^ i)).tmod 2 * 2 ^ i) = 0 := by
    refine forall₂_congr fun i hi => ?_
    rw [show compare decl constWidth a b target s (.aux target (.bit i)) = _ from hbits i hi]
    exact_mod_cast Iff.rfl
  rw [hbitsIff]
  refine and_congr_right fun _ => ?_
  simp only [List.forall_mem_cons, List.not_mem_nil, false_implies, implies_true, and_true]
  have htarget := hy.trans hlt
  change compare decl constWidth a b target s _ = _ at hlt heq hgt htarget
  rw [htarget, hlt, heq, hgt]
  -- exactly one of the three cases holds
  rcases lt_trichotomy v0 v1 with h | h | h
  · simp only [h, h.ne, h.asymm]
    norm_num
    exact_mod_cast Iff.rfl
  · subst h
    simp only [lt_irrefl, ↓reduceIte]
    norm_num
    exact_mod_cast Iff.rfl
  · simp only [h, h.ne', h.asymm]
    norm_num
    exact_mod_cast Iff.rfl

/-- Read right, the operands satisfy the constraints exactly when their difference fits. -/
theorem satisfied_iff_abs {a b : Operand ν} {target : ν} (ha : a ≠ .var target)
    (hb : b ≠ .var target) {s : Name ν → ℚ} {x0 x1 : ℤ}
    (hv0 : deref (scratch a.ref b.ref) s a.ref = a.value s)
    (hv1 : deref (scratch a.ref b.ref) s b.ref = b.value s) (hx0 : a.value s = x0)
    (hx1 : b.value s = x1) :
    Satisfied decl constWidth a b target s ↔ |x0 - x1| ≤ 2 ^ (width decl constWidth a b - 1) := by
  refine Iff.trans (satisfied_iff ha hb (hv0.trans hx0) (hv1.trans hx1) hx0 hx1) ?_
  generalize width decl constWidth a b - 1 = k
  have hpow : (0 : ℤ) < 2 ^ k := by positivity
  by_cases heq : x0 = x1
  · -- no bit is set
    subst heq
    simp only [sub_self, abs_zero, sub_zero, lt_irrefl, false_implies, and_true, implies_true,
      hpow.le, iff_true]
    exact bits_pow_satisfied k
  · -- the difference is not zero: one case constraint is active, with the sign of the difference
    have habs : 0 < |x0 - x1| := abs_pos.mpr (sub_ne_zero.mpr heq)
    have hlt : (2 : ℤ) ^ k - |x0 - x1| < 2 ^ k := by omega
    -- the active one says that nothing was cut off the top of the bits
    have hcase : ((x0 < x1 → x0 - x1 - (2 ^ k - |x0 - x1| -
          2 ^ k * (2 ^ k - |x0 - x1|).tdiv (2 ^ k)) + 2 ^ k = 0) ∧
        (x0 = x1 → x0 - x1 = 0) ∧
        (x1 < x0 → x1 - x0 - (2 ^ k - |x0 - x1| -
          2 ^ k * (2 ^ k - |x0 - x1|).tdiv (2 ^ k)) + 2 ^ k = 0)) ↔
        (2 ^ k - |x0 - x1|).tdiv (2 ^ k) = 0 := by
      have hmul : ∀ q : ℤ, 2 ^ k * q = 0 ↔ q = 0 := fun q => by
        rw [mul_eq_zero, or_iff_right hpow.ne']
      rcases lt_or_gt_of_ne heq with h | h
      · have hneg : |x0 - x1| = x1 - x0 := by rw [abs_of_neg (by omega), neg_sub]
        constructor
        · intro hall
          have hlt := hall.1 h
          exact (hmul _).mp (by linarith)
        · intro hzero
          have hprod := (hmul _).mpr hzero
          exact ⟨fun _ => by linarith, fun h' => absurd h' heq, fun h' => absurd h' h.asymm⟩
      · have hpos : |x0 - x1| = x0 - x1 := abs_of_pos (by omega)
        constructor
        · intro hall
          have hgt := hall.2.2 h
          exact (hmul _).mp (by linarith)
        · intro hzero
          have hprod := (hmul _).mpr hzero
          exact ⟨fun h' => absurd h' h.asymm, fun h' => absurd h' heq, fun _ => by linarith⟩
    rw [hcase, bits_satisfied_iff k hlt]
    omega

omit [DecidableEq ν] in
/-- Two operands that are not both constants are read as they are. -/
theorem deref_eq_value {a b : Operand ν} (h : ¬∃ c d, a = .const c ∧ b = .const d)
    (s : Name ν → ℚ) :
    deref (scratch a.ref b.ref) s a.ref = a.value s ∧
      deref (scratch a.ref b.ref) s b.ref = b.value s := by
  cases a with
  | var x => cases b <;> exact ⟨rfl, rfl⟩
  | const c =>
      cases b with
      | var y => exact ⟨rfl, rfl⟩
      | const d => exact absurd ⟨c, d, rfl, rfl⟩ h

/-- Different operands take any two values of their types at once. -/
theorem exists_values (decl : ν → VarType) {a b : Operand ν} (hab : a ≠ b) {za zb : ℤ}
    (ha : a.lo decl ≤ za ∧ za ≤ a.hi decl) (hb : b.lo decl ≤ zb ∧ zb ≤ b.hi decl) :
    ∃ s : Name ν → ℚ, a.value s = za ∧ b.value s = zb := by
  have hconst : ∀ {c z : ℤ}, c ≤ z → z ≤ c → (c : ℚ) = z := fun h h' => by
    exact_mod_cast le_antisymm h h'
  cases a with
  | var x =>
      cases b with
      | var y =>
          have hxy : x ≠ y := fun h => hab (by rw [h])
          refine ⟨Function.update (fun _ => (zb : ℚ)) (.base x) za, ?_, ?_⟩
          · simp [Operand.value]
          · simp [Operand.value, hxy.symm]
      | const d => exact ⟨fun _ => za, rfl, hconst hb.1 hb.2⟩
  | const c =>
      cases b with
      | var y => exact ⟨fun _ => zb, hconst ha.1 ha.2, rfl⟩
      | const d => exact ⟨fun _ => 0, hconst ha.1 ha.2, hconst hb.1 hb.2⟩

omit [DecidableEq ν] in
theorem Operand.lo_le_hi (decl : ν → VarType) (a : Operand ν) : a.lo decl ≤ a.hi decl := by
  cases a with
  | var x => exact (decl x).lo_le_hi
  | const c => exact le_refl c

theorem two_pow_eq_add {k : ℕ} (hk : 0 < k) : (2 : ℤ) ^ k = 2 ^ (k - 1) + 2 ^ (k - 1) := by
  exact_mod_cast (Nat.two_pow_pred_add_two_pow_pred hk).symm

/-- A type leaves room for the differences of its own values. -/
theorem VarType.spread_le (t : VarType) : t.hi - t.lo ≤ 2 ^ t.na := by
  cases t with
  | int na pos =>
      have hpow : (2 : ℤ) ^ na = 2 ^ (na - 1) + 2 ^ (na - 1) := two_pow_eq_add (by omega)
      simp only [VarType.hi, VarType.lo, VarType.na]
      omega
  | uint na =>
      simp only [VarType.hi, VarType.lo, VarType.na]
      omega

/-- The prover satisfies the constraints for all values of the operands exactly when the types
leave room for every difference. -/
theorem lessThan_complete_iff (decl : ν → VarType) (constWidth : ℕ → ℕ) (a b : Operand ν)
    (target : ν) (ha : a ≠ .var target) (hb : b ≠ .var target) :
    (∀ s : Name ν → ℚ, a.InRange decl s → b.InRange decl s →
        Satisfied decl constWidth a b target s) ↔
      Fits decl constWidth a b := by
  by_cases hconst : ∃ c d, a = .const c ∧ b = .const d
  · obtain ⟨c, d, rfl, rfl⟩ := hconst
    -- two literals share the scratch cell, which holds the second
    have hread (s : Name ν → ℚ) : deref (scratch (Operand.const (ν := ν) c).ref
        (Operand.const d).ref) s (Operand.const c).ref = (d : ℤ) := by
      simp [Operand.ref, deref, scratch]
    have hs (s : Name ν → ℚ) : Satisfied decl constWidth (.const c) (.const d) target s ↔ _ :=
      satisfied_iff ha hb (hread s) (hread s) (rfl : (Operand.const c).value s = (c : ℤ))
        (rfl : (Operand.const d).value s = (d : ℤ))
    simp only [sub_self, abs_zero, sub_zero, lt_irrefl, false_implies, and_true, true_implies,
      true_and] at hs
    constructor
    · intro hall
      have hzero := (hs fun _ => 0).mp
        (hall _ ⟨c, rfl, le_refl c, le_refl c⟩ ⟨d, rfl, le_refl d, le_refl d⟩)
      exact sub_eq_zero.mp hzero.2
    · intro hcd s _ _
      exact (hs s).mpr ⟨bits_pow_satisfied _, sub_eq_zero.mpr hcd⟩
  · have hwidth : width decl constWidth a b - 1 =
        max (a.na decl constWidth) (b.na decl constWidth) -
          if a.isZero || b.isZero then 1 else 0 := by
      rw [width, getBitsDifference]
      split <;> rfl
    have hfits : Fits decl constWidth a b ↔ max (a.hi decl - b.lo decl) (b.hi decl - a.lo decl) ≤
        2 ^ (width decl constWidth a b - 1) := by
      rw [hwidth]
      cases a with
      | var x => exact Iff.rfl
      | const c =>
          cases b with
          | var y => exact Iff.rfl
          | const d => exact absurd ⟨c, d, rfl, rfl⟩ hconst
    have hs {s : Name ν → ℚ} {x y : ℤ} (hx : a.value s = x) (hy : b.value s = y) :
        Satisfied decl constWidth a b target s ↔ |x - y| ≤ 2 ^ (width decl constWidth a b - 1) :=
      satisfied_iff_abs ha hb (deref_eq_value hconst s).1 (deref_eq_value hconst s).2 hx hy
    rw [hfits, max_le_iff]
    constructor
    · intro hall
      by_cases hab : a = b
      · -- one variable twice
        subst hab
        cases a with
        | const c => exact absurd ⟨c, c, rfl, rfl⟩ hconst
        | var x =>
            have hspread := (decl x).spread_le
            rw [hwidth]
            simpa [Operand.hi, Operand.lo, Operand.na, Operand.isZero] using hspread
      · have hloA := a.lo_le_hi decl
        have hloB := b.lo_le_hi decl
        obtain ⟨s, hsa, hsb⟩ := exists_values decl hab ⟨hloA, le_refl _⟩ ⟨le_refl _, hloB⟩
        obtain ⟨s', hsa', hsb'⟩ := exists_values decl hab ⟨le_refl _, hloA⟩ ⟨hloB, le_refl _⟩
        have h := (hs hsa hsb).mp (hall s ⟨_, hsa, hloA, le_refl _⟩ ⟨_, hsb, le_refl _, hloB⟩)
        have h' := (hs hsa' hsb').mp
          (hall s' ⟨_, hsa', le_refl _, hloA⟩ ⟨_, hsb', hloB, le_refl _⟩)
        exact ⟨(le_abs_self _).trans h, by
          rw [abs_sub_comm] at h'
          exact (le_abs_self _).trans h'⟩
    · rintro ⟨hmax, hmin⟩ s ⟨x0, hx0, hlo0, hhi0⟩ ⟨x1, hx1, hlo1, hhi1⟩
      rw [hs hx0 hx1, abs_le]
      constructor <;> omega

end Complete

/-! ## Which types fit -/

/-- An `int` of width `a` next to a `uint` of width `b`. -/
def IntUintFits (a b : ℕ) : Prop := b < a ∨ a = 1

theorem int_uint_spread {a : ℕ} (ha : 0 < a) (b : ℕ) :
    (2 : ℤ) ^ b - 1 + 2 ^ (a - 1) ≤ 2 ^ max a b ↔ IntUintFits a b := by
  have hsucc : (2 : ℤ) ^ a = 2 ^ (a - 1) + 2 ^ (a - 1) := two_pow_eq_add (by omega)
  -- the bound of the wider type decides
  have hmono : ∀ {m n : ℕ}, m ≤ n → (2 : ℤ) ^ m ≤ 2 ^ n := fun h =>
    pow_le_pow_right₀ (by norm_num) h
  constructor
  · intro h
    by_contra hfit
    simp only [IntUintFits, not_or, not_lt] at hfit
    have htwo : (2 : ℤ) ^ 1 ≤ 2 ^ (a - 1) := hmono (by omega)
    rw [max_eq_right hfit.1] at h
    omega
  · rintro (hlt | rfl)
    · have hb : (2 : ℤ) ^ b ≤ 2 ^ (a - 1) := hmono (by omega)
      rw [max_eq_left hlt.le]
      omega
    · have hb : (2 : ℤ) ^ b ≤ 2 ^ max 1 b := hmono (le_max_right _ _)
      simpa using hb

/-- Two variables fit when both are `int` or both are `uint`; an `int` and a `uint` fit when the
`int` is the wider one or a single bit. -/
theorem fits_var_iff {ν : Type u} (decl : ν → VarType) (constWidth : ℕ → ℕ) (x y : ν) :
    Fits decl constWidth (.var x) (.var y) ↔
      match decl x, decl y with
      | .int _ _, .int _ _ => True
      | .uint _, .uint _ => True
      | .int a _, .uint b => IntUintFits a b
      | .uint b, .int a _ => IntUintFits a b := by
  have hmono : ∀ {m n : ℕ}, m ≤ n → (2 : ℤ) ^ m ≤ 2 ^ n := fun h =>
    pow_le_pow_right₀ (by norm_num) h
  have hfits : Fits decl constWidth (.var x) (.var y) ↔
      (decl x).hi - (decl y).lo ≤ 2 ^ max (decl x).na (decl y).na ∧
        (decl y).hi - (decl x).lo ≤ 2 ^ max (decl x).na (decl y).na := by
    rw [← max_le_iff]
    exact Iff.rfl
  rw [hfits]
  generalize decl x = t
  generalize decl y = t'
  cases t with
  | int a ha =>
      have hsucc : (2 : ℤ) ^ a = 2 ^ (a - 1) + 2 ^ (a - 1) := two_pow_eq_add (by omega)
      have hA := fun b => hmono (le_max_left a b)
      cases t' with
      | int b hb =>
          have hsucc' : (2 : ℤ) ^ b = 2 ^ (b - 1) + 2 ^ (b - 1) := two_pow_eq_add (by omega)
          have hB := hmono (le_max_right a b)
          have hA' := hA b
          have hmax : ∀ c : ℕ, c = a ∨ c = b → (2 : ℤ) ^ (c - 1) ≤ 2 ^ (max a b - 1) := by
            intro c hc
            apply hmono
            omega
          have hM : (2 : ℤ) ^ max a b = 2 ^ (max a b - 1) + 2 ^ (max a b - 1) :=
            two_pow_eq_add (by omega)
          have h1 := hmax a (Or.inl rfl)
          have h2 := hmax b (Or.inr rfl)
          simp only [VarType.hi, VarType.lo, VarType.na, iff_true]
          constructor <;> omega
      | uint b =>
          have hA' := hA b
          simp only [VarType.hi, VarType.lo, VarType.na, sub_neg_eq_add, sub_zero]
          rw [int_uint_spread ha]
          refine and_iff_right ?_
          have hpos : (0 : ℤ) < 2 ^ (a - 1) := by positivity
          omega
  | uint b =>
      cases t' with
      | int a ha =>
          have hsucc : (2 : ℤ) ^ a = 2 ^ (a - 1) + 2 ^ (a - 1) := two_pow_eq_add (by omega)
          have hA := hmono (le_max_right b a)
          simp only [VarType.hi, VarType.lo, VarType.na, sub_neg_eq_add, sub_zero]
          rw [max_comm b a, int_uint_spread ha]
          refine and_iff_left ?_
          have hpos : (0 : ℤ) < 2 ^ (a - 1) := by positivity
          rw [max_comm] at hA
          omega
      | uint a =>
          have hA := hmono (le_max_right b a)
          have hB := hmono (le_max_left b a)
          simp only [VarType.hi, VarType.lo, VarType.na, sub_zero, iff_true]
          constructor <;> omega

/-- Against the literal `0` every `int` fits, and a `uint` only if it is a single bit. -/
theorem fits_zero_iff {ν : Type u} (decl : ν → VarType) (constWidth : ℕ → ℕ) (x : ν) :
    Fits decl constWidth (.var x) (.const 0) ↔
      match decl x with
      | .int _ _ => True
      | .uint a => a ≤ 1 := by
  have hfits : Fits decl constWidth (.var x) (.const 0) ↔
      (decl x).hi - 0 ≤ 2 ^ (max (decl x).na 1 - 1) ∧ 0 - (decl x).lo ≤ 2 ^ (max (decl x).na 1 - 1) := by
    rw [← max_le_iff]
    exact Iff.rfl
  rw [hfits]
  cases decl x with
  | int a ha =>
      have hmax : max a 1 - 1 = a - 1 := by omega
      have hpos : (0 : ℤ) < 2 ^ (a - 1) := by positivity
      simp only [VarType.hi, VarType.lo, VarType.na, hmax, iff_true]
      constructor <;> omega
  | uint a =>
      simp only [VarType.hi, VarType.lo, VarType.na, sub_zero]
      rcases a with - | - | a
      · simp
      · simp
      · have hpow : (2 : ℤ) ^ (a + 1 + 1) = 2 ^ (a + 1) + 2 ^ (a + 1) := by rw [pow_succ]; ring
        have htwo : (2 : ℤ) ≤ 2 ^ (a + 1) := by
          have := pow_le_pow_right₀ (by norm_num : (1 : ℤ) ≤ 2) (Nat.succ_le_succ (Nat.zero_le a))
          simpa using this
        have hmax : max (a + 1 + 1) 1 - 1 = a + 1 := by omega
        rw [hmax, hpow]
        constructor
        · rintro ⟨h, -⟩
          omega
        · intro h
          omega

/-- A byte with sign, a byte without, and a result. -/
def byteTypes : ℕ → VarType
  | 0 => .int 8 (by decide)
  | _ => .uint 8

/-- Two bytes without sign, `200` and `7`. -/
theorem bytes_satisfied :
    Satisfied byteTypes Nat.size (.var 1) (.var 3) 2
      (fun x => if x = .base 1 then 200 else 7) := by
  refine (lessThan_complete_iff byteTypes Nat.size (.var 1) (.var 3) 2 (by decide) (by decide)).mpr
    ((fits_var_iff _ _ _ _).mpr trivial) _ ⟨200, ?_, by decide, by decide⟩
    ⟨7, ?_, by decide, by decide⟩
  · simp [Operand.value]
  · simp [Operand.value]

/-- A byte with sign against a byte without: for `-128` and `255` the difference does not fit. -/
theorem intUint_unsatisfied :
    ¬ ∀ s : Name ℕ → ℚ, (Operand.var 0).InRange byteTypes s → (Operand.var 1).InRange byteTypes s →
      Satisfied byteTypes Nat.size (.var 0) (.var 1) 2 s := by
  intro hall
  have hsat := hall (fun x => if x = .base 0 then -128 else 255)
    ⟨-128, by simp [Operand.value], by decide, by decide⟩
    ⟨255, by simp [Operand.value], by decide, by decide⟩
  have hx : (Operand.var 0).value (fun x : Name ℕ => if x = .base 0 then -128 else 255) =
      (-128 : ℤ) := by simp [Operand.value]
  have hy : (Operand.var 1).value (fun x : Name ℕ => if x = .base 0 then -128 else 255) =
      (255 : ℤ) := by simp [Operand.value]
  rw [satisfied_iff_abs (by decide) (by decide) rfl rfl hx hy] at hsat
  exact absurd hsat (by decide)

end Pepper.Libv.LessThan
