import Mathlib.Data.Nat.Log
import Mathlib.Data.Nat.Size
import Pepper.Foundations.FieldBits
import Pepper.Frontend.FloatConstant

/-!
# The finite types of the front end

`int` and `uint` of a length, floats of a numerator and a denominator length, and the booleans,
which the rules treat as `uint 1` except in products. `Contains` says which numbers a type has.
The rules for subtypes, intersections, unions, products and sums only ever lose precision:
`contains_of_isSubType`, `contains_looseIntersect`, `contains_looseUnion_left`,
`contains_looseUnion_right`, `contains_multiplyTypes`, `contains_sumTypes`, and the types of
constants have their constants (`contains_getType`).
-/

set_option autoImplicit false

open Pepper.Foundations.FieldBits

namespace Pepper.Frontend

/-- `RestrictedSignedIntType` and `RestrictedUnsignedIntType`. -/
structure IntType where
  signed : Bool
  length : ℕ
  length_pos : 0 < length

instance : DecidableEq IntType := fun a b =>
  decidable_of_iff (a.signed = b.signed ∧ a.length = b.length) (by cases a; cases b; simp)

namespace IntType

/-- `new RestrictedUnsignedIntType(length)`: no length is the length one. -/
def uint (length : ℕ) : IntType :=
  ⟨false, if length = 0 then 1 else length, by split <;> omega⟩

def getBits (c : IntType) : ℕ := c.length

def getMaxInt (c : IntType) : ℤ :=
  if c.signed then 2 ^ (c.getBits - 1) - 1 else 2 ^ c.getBits - 1

def getMinInt (c : IntType) : ℤ := if c.signed then -2 ^ (c.getBits - 1) else 0

/-- The integers of the type. -/
def Contains (c : IntType) (v : ℤ) : Prop := InRange c.signed c.length v

instance (c : IntType) (v : ℤ) : Decidable (c.Contains v) :=
  inferInstanceAs (Decidable (InRange c.signed c.length v))

theorem contains_iff (c : IntType) (v : ℤ) : c.Contains v ↔ c.getMinInt ≤ v ∧ v ≤ c.getMaxInt := by
  obtain ⟨signed, length, hpos⟩ := c
  cases signed with
  | false =>
      show 0 ≤ v ∧ v < 2 ^ length ↔ 0 ≤ v ∧ v ≤ 2 ^ length - 1
      rw [Int.le_sub_one_iff]
  | true =>
      show -2 ^ (length - 1) ≤ v ∧ v < 2 ^ (length - 1) ↔ _ ≤ v ∧ v ≤ 2 ^ (length - 1) - 1
      rw [Int.le_sub_one_iff]
      rfl

end IntType

/-- `RestrictedFloatType`. -/
structure FloatType where
  na : ℕ
  nb : ℕ
  na_pos : 0 < na
  nb_pos : 0 < nb

instance : DecidableEq FloatType := fun a b =>
  decidable_of_iff (a.na = b.na ∧ a.nb = b.nb) (by cases a; cases b; simp)

/-- Numerators below `2 ^ na` over powers of two up to `2 ^ nb`, in lowest terms. -/
def FloatType.Contains (f : FloatType) (q : ℚ) : Prop :=
  q.num.natAbs < 2 ^ f.na ∧ ∃ e ≤ f.nb, q.den = 2 ^ e

/-- `BooleanType` is the class below `uint 1`. -/
inductive FiniteType where
  | boolean
  | int (type : IntType)
  | float (type : FloatType)
deriving DecidableEq

/-- What a type is to `instanceof`. -/
inductive Kind where
  | int (type : IntType)
  | float (type : FloatType)

def Kind.Contains : Kind → ℚ → Prop
  | int t, q => ∃ v : ℤ, q = v ∧ t.Contains v
  | float f, q => f.Contains q

namespace FiniteType

def kind : FiniteType → Kind
  | boolean => .int ⟨false, 1, Nat.one_pos⟩
  | int t => .int t
  | float f => .float f

/-- The numbers of the type. -/
def Contains (t : FiniteType) (q : ℚ) : Prop := t.kind.Contains q

end FiniteType

/-! ## The rules -/

namespace TypeHeirarchy

def isSubType (a b : FiniteType) : Bool :=
  match a.kind, b.kind with
  | .int ⟨false, la, _⟩, .int ⟨false, lb, _⟩ => la ≤ lb
  | .int ⟨false, la, _⟩, .int ⟨true, lb, _⟩ => la ≤ lb - 1
  | .int ⟨false, la, _⟩, .float rb => la ≤ rb.na
  | .int ⟨true, _, _⟩, .int ⟨false, _, _⟩ => false
  | .int ⟨true, la, _⟩, .int ⟨true, lb, _⟩ => la ≤ lb
  | .int ⟨true, la, _⟩, .float rb => la ≤ rb.na
  | .float _, .int _ => false
  | .float ra, .float rb => ra.na ≤ rb.na && ra.nb ≤ rb.nb

def looseIntersect (a b : FiniteType) : FiniteType :=
  if isSubType a b then a
  else if isSubType b a then b
  else
    match a.kind, b.kind with
    | .int ⟨false, la, _⟩, .int ⟨false, lb, _⟩ => .int (.uint (min la lb))
    | .int ⟨false, la, _⟩, .int ⟨true, lb, _⟩ => .int (.uint (min la (lb - 1)))
    | .int ⟨false, la, _⟩, .float rb => .int (.uint (min la rb.na))
    | .int ⟨true, la, _⟩, .int ⟨false, lb, _⟩ => .int (.uint (min (la - 1) lb))
    | .int ⟨true, la, ha⟩, .int ⟨true, lb, hb⟩ => .int ⟨true, min la lb, lt_min ha hb⟩
    | .int ⟨true, la, ha⟩, .float rb =>
        .int ⟨true, min la (rb.na + 1), lt_min ha (Nat.succ_pos _)⟩
    | .float ra, .int ⟨false, lb, _⟩ => .int (.uint (min ra.na lb))
    | .float ra, .int ⟨true, lb, hb⟩ =>
        .int ⟨true, min (ra.na + 1) lb, lt_min (Nat.succ_pos _) hb⟩
    | .float ra, .float rb =>
        .float ⟨min ra.na rb.na, min ra.nb rb.nb, lt_min ra.na_pos rb.na_pos,
          lt_min ra.nb_pos rb.nb_pos⟩

def looseUnion (a b : FiniteType) : FiniteType :=
  if isSubType a b then b
  else if isSubType b a then a
  else
    match a.kind, b.kind with
    | .int ⟨false, la, _⟩, .int ⟨false, lb, _⟩ => .int (.uint (max la lb))
    | .int ⟨false, la, _⟩, .int ⟨true, lb, _⟩ =>
        .int ⟨true, max (la + 1) lb, lt_max_of_lt_left (Nat.succ_pos la)⟩
    | .int ⟨false, la, ha⟩, .float rb =>
        .float ⟨max la rb.na, rb.nb, lt_max_of_lt_left ha, rb.nb_pos⟩
    | .int ⟨true, la, _⟩, .int ⟨false, lb, _⟩ =>
        .int ⟨true, max la (lb + 1), lt_max_of_lt_right (Nat.succ_pos lb)⟩
    | .int ⟨true, la, ha⟩, .int ⟨true, lb, _⟩ => .int ⟨true, max la lb, lt_max_of_lt_left ha⟩
    | .int ⟨true, la, ha⟩, .float rb =>
        .float ⟨max la rb.na, rb.nb, lt_max_of_lt_left ha, rb.nb_pos⟩
    | .float ra, .int ⟨_, lb, _⟩ =>
        .float ⟨max ra.na lb, ra.nb, lt_max_of_lt_left ra.na_pos, ra.nb_pos⟩
    | .float ra, .float rb =>
        .float ⟨max ra.na rb.na, max ra.nb rb.nb, lt_max_of_lt_left ra.na_pos,
          lt_max_of_lt_left ra.nb_pos⟩

end TypeHeirarchy

namespace TimesOperator

def multiplyTypes_uu (a b : ℕ) : FiniteType := .int (.uint (a + b))

def multiplyTypes_us (a b : ℕ) (ha : 0 < a) : FiniteType := .int ⟨true, a + b, Nat.add_pos_left ha b⟩

def multiplyTypes_ss (a b : ℕ) (ha : 0 < a) : FiniteType := .int ⟨true, a + b, Nat.add_pos_left ha b⟩

def multiplyTypes_uf (a : ℕ) (b : FloatType) : FiniteType :=
  .float ⟨a + b.na, b.nb, Nat.add_pos_right a b.na_pos, b.nb_pos⟩

def multiplyTypes_sf (a : ℕ) (b : FloatType) : FiniteType :=
  .float ⟨a - 1 + b.na, b.nb, Nat.add_pos_right _ b.na_pos, b.nb_pos⟩

/-- A numerator of one bit does not lengthen the product. -/
def multiplyTypes_ff (a b : FloatType) : FiniteType :=
  .float ⟨if b.na = 1 then a.na else if a.na = 1 then b.na else a.na + b.na, a.nb + b.nb,
    by split_ifs <;> [exact a.na_pos; exact b.na_pos; exact Nat.add_pos_left a.na_pos _],
    Nat.add_pos_left a.nb_pos _⟩

/-- The class of the booleans comes first. -/
def multiplyTypes : FiniteType → FiniteType → FiniteType
  | .boolean, b => b
  | a, .boolean => a
  | .int ⟨false, la, _⟩, .int ⟨false, lb, _⟩ => multiplyTypes_uu la lb
  | .int ⟨false, la, ha⟩, .int ⟨true, lb, _⟩ => multiplyTypes_us la lb ha
  | .int ⟨false, la, _⟩, .float b => multiplyTypes_uf la b
  | .int ⟨true, la, _⟩, .int ⟨false, lb, hb⟩ => multiplyTypes_us lb la hb
  | .int ⟨true, la, ha⟩, .int ⟨true, lb, _⟩ => multiplyTypes_ss la lb ha
  | .int ⟨true, la, _⟩, .float b => multiplyTypes_sf la b
  | .float a, .int ⟨false, lb, _⟩ => multiplyTypes_uf lb a
  | .float a, .int ⟨true, lb, _⟩ => multiplyTypes_sf lb a
  | .float a, .float b => multiplyTypes_ff a b

end TimesOperator

namespace PlusOperator

/-- The type of sums of `m` numbers of a type. -/
def sumTypes (m : ℕ) (A : FiniteType) : FiniteType :=
  if m = 0 then .boolean
  else if m = 1 then A
  else
    match A.kind with
    | .int ⟨false, n, _⟩ => .int (.uint (Nat.clog 2 m + n))
    | .int ⟨true, n, hn⟩ => .int ⟨true, Nat.clog 2 m + n, Nat.add_pos_right _ hn⟩
    | .float f => .float ⟨Nat.clog 2 m + f.na + f.nb, f.nb, Nat.add_pos_right _ f.nb_pos, f.nb_pos⟩

end PlusOperator

namespace IntConstant

def getType (v : ℤ) : FiniteType :=
  if v = 1 ∨ v = 0 then .boolean
  else if 0 < v then .int (.uint v.natAbs.size)
  else if v = -1 then .int ⟨true, 1, Nat.one_pos⟩
  else .int ⟨true, (-v - 1).natAbs.size + 1, Nat.succ_pos _⟩

end IntConstant

namespace FloatConstant

/-- The type of a constant that is no integer has the bits of its numerator and of its
denominator. -/
def getType (c : FloatConstant) : FiniteType :=
  if c.isOne || c.isZero then .boolean
  else if h : c.num % c.den = 0 then IntConstant.getType (c.num / c.den)
  else
    .float ⟨c.num.natAbs.size, (c.den - 1).size, by
      refine Nat.size_pos.2 (Int.natAbs_pos.2 fun hzero => h ?_)
      rw [hzero, Int.zero_emod], by
      refine Nat.size_pos.2 (Nat.sub_pos_of_lt ?_)
      have hpos := c.den_pos
      refine lt_of_le_of_ne hpos fun hone => h ?_
      rw [← hone, Nat.cast_one, Int.emod_one]⟩

end FloatConstant

/-! ## Numbers of the types -/

theorem two_pow_le {m n : ℕ} (h : m ≤ n) : (2 : ℤ) ^ m ≤ 2 ^ n :=
  pow_le_pow_right₀ one_le_two h

theorem two_pow_pos (n : ℕ) : (0 : ℤ) < 2 ^ n := by positivity

section Numbers

variable {v : ℤ} {la lb : ℕ} {ha : 0 < la} {hb : 0 < lb}

theorem IntType.contains_signed :
    IntType.Contains ⟨true, la, ha⟩ v ↔ -2 ^ (la - 1) ≤ v ∧ v < 2 ^ (la - 1) := Iff.rfl

theorem IntType.contains_uint {n : ℕ} (h0 : 0 ≤ v) (h : v < 2 ^ n) : (IntType.uint n).Contains v := by
  refine ⟨h0, ?_⟩
  show v < 2 ^ (if n = 0 then 1 else n)
  split_ifs with hn
  · rw [hn] at h
    exact h.trans (by norm_num)
  · exact h

theorem natAbs_lt_two_pow {n : ℕ} : v.natAbs < 2 ^ n ↔ -2 ^ n < v ∧ v < 2 ^ n := by
  have hpow : ((2 ^ n : ℕ) : ℤ) = 2 ^ n := by push_cast; rfl
  rw [← abs_lt, ← hpow, Int.abs_eq_natAbs, Nat.cast_lt]

/-- Any numerator and denominator will do: lowest terms only make them smaller. -/
theorem FloatType.contains_iff (f : FloatType) (q : ℚ) :
    f.Contains q ↔ ∃ (m : ℤ) (e : ℕ), e ≤ f.nb ∧ m.natAbs < 2 ^ f.na ∧ q = m / 2 ^ e := by
  constructor
  · rintro ⟨hnum, e, he, hden⟩
    refine ⟨q.num, e, he, hnum, ?_⟩
    have hcast : (q.den : ℚ) = 2 ^ e := by rw [hden]; push_cast; rfl
    rw [← hcast, Rat.num_div_den]
  · rintro ⟨m, e, he, hm, rfl⟩
    have hpow : ((2 : ℚ) ^ e) = ((2 ^ e : ℤ) : ℚ) := by push_cast; rfl
    have hne : (2 : ℤ) ^ e ≠ 0 := (two_pow_pos e).ne'
    rw [hpow]
    obtain ⟨c, hnum, hden⟩ := Rat.num_den_mk hne (Rat.divInt_eq_div m (2 ^ e)).symm
    have hc : c ≠ 0 := by
      rintro rfl
      exact hne (by rw [hden, zero_mul])
    refine ⟨?_, ?_⟩
    · refine lt_of_le_of_lt ?_ hm
      conv_rhs => rw [hnum, Int.natAbs_mul]
      exact Nat.le_mul_of_pos_left _ (Int.natAbs_pos.2 hc)
    · have hdvd : ((m : ℚ) / ((2 ^ e : ℤ) : ℚ)).den ∣ 2 ^ e := by
        have : ((((m : ℚ) / ((2 ^ e : ℤ) : ℚ)).den : ℕ) : ℤ) ∣ ((2 ^ e : ℕ) : ℤ) :=
          ⟨c, by rw [Nat.cast_pow, Nat.cast_ofNat, mul_comm]; exact hden⟩
        exact Int.natCast_dvd_natCast.1 this
      obtain ⟨k, hk, hkden⟩ := (Nat.dvd_prime_pow Nat.prime_two).1 hdvd
      exact ⟨k, hk.trans he, hkden⟩

theorem FloatType.contains_intCast (f : FloatType) (v : ℤ) :
    f.Contains (v : ℚ) ↔ -2 ^ f.na < v ∧ v < 2 ^ f.na := by
  rw [FloatType.Contains, Rat.num_intCast, Rat.den_intCast, natAbs_lt_two_pow]
  exact ⟨fun h => h.1, fun h => ⟨h, 0, Nat.zero_le _, rfl⟩⟩

end Numbers

/-! ## Subtypes -/

namespace TypeHeirarchy

theorem contains_of_isSubType {a b : FiniteType} (h : isSubType a b = true) {q : ℚ}
    (ha : a.Contains q) : b.Contains q := by
  rw [isSubType] at h
  rw [FiniteType.Contains] at ha ⊢
  generalize a.kind = ka at h ha
  generalize b.kind = kb at h
  match ka, kb, h, ha with
  | .int ⟨false, la, _⟩, .int ⟨false, lb, _⟩, h, ⟨v, hv, h0, hlt⟩ =>
      exact ⟨v, hv, h0, hlt.trans_le (two_pow_le (of_decide_eq_true h))⟩
  | .int ⟨false, la, _⟩, .int ⟨true, lb, _⟩, h, ⟨v, hv, h0, hlt⟩ =>
      exact ⟨v, hv, (neg_nonpos.2 (two_pow_pos _).le).trans h0,
        hlt.trans_le (two_pow_le (of_decide_eq_true h))⟩
  | .int ⟨false, la, _⟩, .float rb, h, ⟨v, hv, h0, hlt⟩ =>
      rw [hv]
      exact (rb.contains_intCast v).2 ⟨(neg_neg_of_pos (two_pow_pos _)).trans_le h0,
        hlt.trans_le (two_pow_le (of_decide_eq_true h))⟩
  | .int ⟨true, la, _⟩, .int ⟨true, lb, _⟩, h, ⟨v, hv, hge, hlt⟩ =>
      have hpow := two_pow_le (Nat.sub_le_sub_right (of_decide_eq_true h : la ≤ lb) 1)
      exact ⟨v, hv, (neg_le_neg hpow).trans hge, hlt.trans_le hpow⟩
  | .int ⟨true, la, hla⟩, .float rb, h, ⟨v, hv, hge, hlt⟩ =>
      have hpow : (2 : ℤ) ^ (la - 1) < 2 ^ rb.na :=
        pow_lt_pow_right₀ one_lt_two ((Nat.sub_lt hla Nat.one_pos).trans_le (of_decide_eq_true h))
      rw [hv]
      exact (rb.contains_intCast v).2 ⟨(neg_lt_neg hpow).trans_le hge, hlt.trans hpow⟩
  | .float ra, .float rb, h, ⟨hnum, e, he, hden⟩ =>
      simp only [Bool.and_eq_true, decide_eq_true_eq] at h
      exact ⟨hnum.trans_le (Nat.pow_le_pow_right Nat.two_pos h.1), e, he.trans h.2, hden⟩

theorem isSubType_refl (a : FiniteType) : isSubType a a = true := by
  rw [isSubType]
  match a.kind with
  | .int ⟨false, la, _⟩ => exact decide_eq_true le_rfl
  | .int ⟨true, la, _⟩ => exact decide_eq_true le_rfl
  | .float ra =>
      simp only [Bool.and_eq_true, decide_eq_true_eq]
      exact ⟨le_rfl, le_rfl⟩

/-- A union has both types. -/
theorem isSubType_looseUnion (a b : FiniteType) :
    isSubType a (looseUnion a b) = true ∧ isSubType b (looseUnion a b) = true := by
  by_cases hab : isSubType a b = true
  · rw [looseUnion, if_pos hab]
    exact ⟨hab, isSubType_refl b⟩
  by_cases hba : isSubType b a = true
  · rw [looseUnion, if_neg hab, if_pos hba]
    exact ⟨isSubType_refl a, hba⟩
  rw [looseUnion, if_neg hab, if_neg hba, isSubType, isSubType]
  rw [isSubType] at hab hba
  generalize a.kind = ka at hab hba
  generalize b.kind = kb at hab hba
  -- what remains compares lengths
  rcases ka with ⟨_ | _, la, hla⟩ | ra <;> rcases kb with ⟨_ | _, lb, hlb⟩ | rb <;>
    simp only [FiniteType.kind, IntType.uint, decide_eq_true_eq, Bool.and_eq_true] at hab hba ⊢ <;>
    omega

theorem contains_looseUnion_left {a : FiniteType} (b : FiniteType) {q : ℚ} (h : a.Contains q) :
    (looseUnion a b).Contains q :=
  contains_of_isSubType (isSubType_looseUnion a b).1 h

theorem contains_looseUnion_right (a : FiniteType) {b : FiniteType} {q : ℚ} (h : b.Contains q) :
    (looseUnion a b).Contains q :=
  contains_of_isSubType (isSubType_looseUnion a b).2 h

/-! ## Intersections -/

theorem lt_two_pow_min {v : ℤ} {m n : ℕ} (hm : v < 2 ^ m) (hn : v < 2 ^ n) : v < 2 ^ min m n := by
  rcases min_choice m n with h | h <;> rw [h] <;> assumption

theorem neg_two_pow_min_le {v : ℤ} {m n : ℕ} (hm : -2 ^ m ≤ v) (hn : -2 ^ n ≤ v) :
    -2 ^ min m n ≤ v := by
  rcases min_choice m n with h | h <;> rw [h] <;> assumption

theorem contains_uint_min {v : ℤ} {m n : ℕ} (h0 : 0 ≤ v) (hm : v < 2 ^ m) (hn : v < 2 ^ n) :
    (FiniteType.int (.uint (min m n))).Contains v :=
  ⟨v, rfl, IntType.contains_uint h0 (lt_two_pow_min hm hn)⟩

theorem contains_int_min {v : ℤ} {m n : ℕ} {hpos : 0 < min m n} (hm : -2 ^ (m - 1) ≤ v)
    (hm' : v < 2 ^ (m - 1)) (hn : -2 ^ (n - 1) ≤ v) (hn' : v < 2 ^ (n - 1)) :
    (FiniteType.int ⟨true, min m n, hpos⟩).Contains v := by
  have hmin : min m n - 1 = min (m - 1) (n - 1) := (Nat.sub_min_sub_right m n 1).symm
  refine ⟨v, rfl, ?_⟩
  rw [IntType.contains_signed, hmin]
  exact ⟨neg_two_pow_min_le hm hn, lt_two_pow_min hm' hn'⟩

/-- An integer among the floats, as an integer. -/
theorem exists_intCast {f : FloatType} {q : ℚ} {v : ℤ} (hv : q = v) (h : f.Contains q) :
    -2 ^ f.na < v ∧ v < 2 ^ f.na := by
  rw [hv] at h
  exact (f.contains_intCast v).1 h

theorem contains_looseIntersect {a b : FiniteType} {q : ℚ} (ha : a.Contains q)
    (hb : b.Contains q) : (looseIntersect a b).Contains q := by
  by_cases hab : isSubType a b = true
  · rwa [looseIntersect, if_pos hab]
  by_cases hba : isSubType b a = true
  · rwa [looseIntersect, if_neg hab, if_pos hba]
  rw [looseIntersect, if_neg hab, if_neg hba]
  rw [FiniteType.Contains] at ha hb
  generalize a.kind = ka at ha
  generalize b.kind = kb at hb
  match ka, kb, ha, hb with
  -- every case compares the two bounds of one integer, or of one numerator
  | .int ⟨false, la, _⟩, .int ⟨false, lb, _⟩, ⟨v, hv, h0, hlt⟩, ⟨w, hw, _, hlt'⟩ =>
      obtain rfl : v = w := by exact_mod_cast hv.symm.trans hw
      rw [hv]
      exact contains_uint_min h0 hlt hlt'
  | .int ⟨false, la, _⟩, .int ⟨true, lb, _⟩, ⟨v, hv, h0, hlt⟩, ⟨w, hw, _, hlt'⟩ =>
      obtain rfl : v = w := by exact_mod_cast hv.symm.trans hw
      rw [hv]
      exact contains_uint_min h0 hlt hlt'
  | .int ⟨false, la, _⟩, .float rb, ⟨v, hv, h0, hlt⟩, hb =>
      obtain ⟨-, hlt'⟩ := exists_intCast hv hb
      rw [hv]
      exact contains_uint_min h0 hlt hlt'
  | .int ⟨true, la, _⟩, .int ⟨false, lb, _⟩, ⟨v, hv, _, hlt⟩, ⟨w, hw, h0, hlt'⟩ =>
      obtain rfl : v = w := by exact_mod_cast hv.symm.trans hw
      rw [hv]
      exact contains_uint_min h0 hlt hlt'
  | .int ⟨true, la, _⟩, .int ⟨true, lb, _⟩, ⟨v, hv, hge, hlt⟩, ⟨w, hw, hge', hlt'⟩ =>
      obtain rfl : v = w := by exact_mod_cast hv.symm.trans hw
      rw [hv]
      exact contains_int_min hge hlt hge' hlt'
  | .int ⟨true, la, _⟩, .float rb, ⟨v, hv, hge, hlt⟩, hb =>
      obtain ⟨hge', hlt'⟩ := exists_intCast hv hb
      rw [hv]
      exact contains_int_min hge hlt hge'.le hlt'
  | .float ra, .int ⟨false, lb, _⟩, ha, ⟨v, hv, h0, hlt'⟩ =>
      obtain ⟨-, hlt⟩ := exists_intCast hv ha
      rw [hv]
      exact contains_uint_min h0 hlt hlt'
  | .float ra, .int ⟨true, lb, _⟩, ha, ⟨v, hv, hge', hlt'⟩ =>
      obtain ⟨hge, hlt⟩ := exists_intCast hv ha
      rw [hv]
      exact contains_int_min hge.le hlt hge' hlt'
  | .float ra, .float rb, ⟨hnum, e, he, hden⟩, ⟨hnum', e', he', hden'⟩ =>
      -- the value is in lowest terms: both types see the same exponent
      have hsame : e' = e := Nat.pow_right_injective le_rfl (hden'.symm.trans hden)
      refine ⟨?_, e, le_min he (hsame ▸ he'), hden⟩
      rcases min_choice ra.na rb.na with h | h
      · show _ < 2 ^ min ra.na rb.na
        rwa [h]
      · show _ < 2 ^ min ra.na rb.na
        rwa [h]

end TypeHeirarchy

/-! ## Products and sums -/

section Bounds

variable {v : ℤ} {n : ℕ} {hn : 0 < n}

theorem natAbs_of_unsigned (h : IntType.Contains ⟨false, n, hn⟩ v) : v.natAbs < 2 ^ n :=
  natAbs_lt_two_pow.2 ⟨(neg_neg_of_pos (two_pow_pos n)).trans_le h.1, h.2⟩

theorem natAbs_of_signed (h : IntType.Contains ⟨true, n, hn⟩ v) : v.natAbs ≤ 2 ^ (n - 1) := by
  have hpow : ((2 ^ (n - 1) : ℕ) : ℤ) = 2 ^ (n - 1) := by push_cast; rfl
  have habs : |v| ≤ 2 ^ (n - 1) := abs_le.2 ⟨h.1, (show v < 2 ^ (n - 1) from h.2).le⟩
  rw [← hpow, Int.abs_eq_natAbs] at habs
  exact_mod_cast habs

theorem contains_of_natAbs_lt {k : ℕ} {hk : 0 < k} (h : v.natAbs < 2 ^ (k - 1)) :
    IntType.Contains ⟨true, k, hk⟩ v := by
  obtain ⟨hge, hlt⟩ := natAbs_lt_two_pow.1 h
  exact ⟨hge.le, hlt⟩

end Bounds

theorem FiniteType.contains_zero (t : FiniteType) : t.Contains 0 := by
  rw [FiniteType.Contains]
  match t.kind with
  | .int ⟨false, n, _⟩ => exact ⟨0, Int.cast_zero.symm, le_rfl, two_pow_pos n⟩
  | .int ⟨true, n, _⟩ => exact ⟨0, Int.cast_zero.symm, neg_nonpos.2 (two_pow_pos _).le, two_pow_pos _⟩
  | .float f =>
      rw [← Int.cast_zero]
      exact (f.contains_intCast 0).2 ⟨neg_neg_of_pos (two_pow_pos _), two_pow_pos _⟩

theorem FiniteType.contains_boolean {q : ℚ} :
    FiniteType.boolean.Contains q ↔ q = 0 ∨ q = 1 := by
  constructor
  · rintro ⟨v, rfl, h0, hlt⟩
    have hv : v = 0 ∨ v = 1 := by
      have hlt' : v < 2 := hlt
      omega
    exact hv.imp (by rintro rfl; exact Int.cast_zero) (by rintro rfl; exact Int.cast_one)
  · rintro (rfl | rfl)
    · exact FiniteType.contains_zero _
    · exact ⟨1, Int.cast_one.symm, by decide⟩

namespace TimesOperator

theorem contains_uu {la lb : ℕ} {ha : 0 < la} {hb : 0 < lb} {v w : ℤ}
    (hv : IntType.Contains ⟨false, la, ha⟩ v) (hw : IntType.Contains ⟨false, lb, hb⟩ w) :
    (multiplyTypes_uu la lb).Contains (v * w) := by
  refine ⟨v * w, (Int.cast_mul v w).symm, IntType.contains_uint (mul_nonneg hv.1 hw.1) ?_⟩
  rw [pow_add]
  exact mul_lt_mul'' hv.2 hw.2 hv.1 hw.1

theorem contains_us {la lb : ℕ} {ha : 0 < la} {hb : 0 < lb} {v w : ℤ}
    (hv : IntType.Contains ⟨false, la, ha⟩ v) (hw : IntType.Contains ⟨true, lb, hb⟩ w) :
    (multiplyTypes_us la lb ha).Contains (v * w) := by
  refine ⟨v * w, (Int.cast_mul v w).symm, contains_of_natAbs_lt ?_⟩
  rw [Int.natAbs_mul, Nat.add_sub_assoc hb, pow_add]
  exact Nat.mul_lt_mul_of_lt_of_le (natAbs_of_unsigned hv) (natAbs_of_signed hw)
    (Nat.pow_pos Nat.two_pos)

theorem contains_ss {la lb : ℕ} {ha : 0 < la} {hb : 0 < lb} {v w : ℤ}
    (hv : IntType.Contains ⟨true, la, ha⟩ v) (hw : IntType.Contains ⟨true, lb, hb⟩ w) :
    (multiplyTypes_ss la lb ha).Contains (v * w) := by
  refine ⟨v * w, (Int.cast_mul v w).symm, contains_of_natAbs_lt ?_⟩
  rw [Int.natAbs_mul]
  calc v.natAbs * w.natAbs ≤ 2 ^ (la - 1) * 2 ^ (lb - 1) :=
        Nat.mul_le_mul (natAbs_of_signed hv) (natAbs_of_signed hw)
    _ = 2 ^ (la - 1 + (lb - 1)) := (pow_add 2 _ _).symm
    _ < 2 ^ (la + lb - 1) := Nat.pow_lt_pow_right Nat.one_lt_two (by omega)

/-- An integer times a float. -/
theorem contains_intCast_mul {f : FloatType} {na : ℕ} {hna : 0 < na} {v : ℤ} {q : ℚ}
    (hq : f.Contains q) (h : ∀ m : ℕ, m < 2 ^ f.na → v.natAbs * m < 2 ^ na) :
    (FiniteType.float ⟨na, f.nb, hna, f.nb_pos⟩).Contains (v * q) := by
  obtain ⟨m, e, he, hm, rfl⟩ := (f.contains_iff q).1 hq
  refine (FloatType.contains_iff _ _).2 ⟨v * m, e, he, ?_, ?_⟩
  · rw [Int.natAbs_mul]
    exact h _ hm
  · rw [Int.cast_mul, mul_div_assoc]

theorem contains_uf {la : ℕ} {ha : 0 < la} {f : FloatType} {v : ℤ} {q : ℚ}
    (hv : IntType.Contains ⟨false, la, ha⟩ v) (hq : f.Contains q) :
    (multiplyTypes_uf la f).Contains (v * q) := by
  refine contains_intCast_mul hq fun m hm => ?_
  rw [pow_add]
  exact Nat.mul_lt_mul_of_lt_of_le (natAbs_of_unsigned hv) hm.le (Nat.pow_pos Nat.two_pos)

theorem contains_sf {la : ℕ} {ha : 0 < la} {f : FloatType} {v : ℤ} {q : ℚ}
    (hv : IntType.Contains ⟨true, la, ha⟩ v) (hq : f.Contains q) :
    (multiplyTypes_sf la f).Contains (v * q) := by
  refine contains_intCast_mul hq fun m hm => ?_
  rw [pow_add]
  exact Nat.mul_lt_mul_of_le_of_lt (natAbs_of_signed hv) hm (Nat.pow_pos Nat.two_pos)

theorem contains_ff {f g : FloatType} {p q : ℚ} (hp : f.Contains p) (hq : g.Contains q) :
    (multiplyTypes_ff f g).Contains (p * q) := by
  obtain ⟨m, e, he, hm, rfl⟩ := (f.contains_iff p).1 hp
  obtain ⟨k, d, hd, hk, rfl⟩ := (g.contains_iff q).1 hq
  refine (FloatType.contains_iff _ _).2 ⟨m * k, e + d, Nat.add_le_add he hd, ?_, ?_⟩
  · rw [Int.natAbs_mul]
    show _ < 2 ^ (if g.na = 1 then f.na else if f.na = 1 then g.na else f.na + g.na)
    split_ifs with hg hf
    · rw [hg] at hk
      exact (Nat.mul_le_mul_left _ (Nat.lt_succ_iff.1 hk)).trans_lt (by rwa [mul_one])
    · rw [hf] at hm
      exact (Nat.mul_le_mul_right _ (Nat.lt_succ_iff.1 hm)).trans_lt (by rwa [one_mul])
    · rw [pow_add]
      exact Nat.mul_lt_mul_of_lt_of_le hm hk.le (Nat.pow_pos Nat.two_pos)
  · rw [Int.cast_mul, pow_add, div_mul_div_comm]

theorem contains_multiplyTypes {a b : FiniteType} {p q : ℚ} (ha : a.Contains p)
    (hb : b.Contains q) : (multiplyTypes a b).Contains (p * q) := by
  -- a boolean factor is 0 or 1
  match a, b, ha, hb with
  | .boolean, b, ha, hb =>
      rw [multiplyTypes]
      rcases FiniteType.contains_boolean.1 ha with rfl | rfl
      · rw [zero_mul]
        exact b.contains_zero
      · rwa [one_mul]
  | .int t, .boolean, ha, hb =>
      rcases FiniteType.contains_boolean.1 hb with rfl | rfl
      · rw [mul_zero]
        exact FiniteType.contains_zero _
      · rw [mul_one]
        exact ha
  | .float f, .boolean, ha, hb =>
      rcases FiniteType.contains_boolean.1 hb with rfl | rfl
      · rw [mul_zero]
        exact FiniteType.contains_zero _
      · rw [mul_one]
        exact ha
  | .int ⟨false, la, _⟩, .int ⟨false, lb, _⟩, ⟨v, hv, hcv⟩, ⟨w, hw, hcw⟩ =>
      rw [hv, hw]
      exact contains_uu hcv hcw
  | .int ⟨false, la, _⟩, .int ⟨true, lb, _⟩, ⟨v, hv, hcv⟩, ⟨w, hw, hcw⟩ =>
      rw [hv, hw]
      exact contains_us hcv hcw
  | .int ⟨false, la, _⟩, .float g, ⟨v, hv, hcv⟩, hb =>
      rw [hv]
      exact contains_uf hcv hb
  -- the products of mixed kinds are symmetric, one lemma for both orders
  | .int ⟨true, la, _⟩, .int ⟨false, lb, _⟩, ⟨v, hv, hcv⟩, ⟨w, hw, hcw⟩ =>
      rw [hv, hw, mul_comm]
      exact contains_us hcw hcv
  | .int ⟨true, la, _⟩, .int ⟨true, lb, _⟩, ⟨v, hv, hcv⟩, ⟨w, hw, hcw⟩ =>
      rw [hv, hw]
      exact contains_ss hcv hcw
  | .int ⟨true, la, _⟩, .float g, ⟨v, hv, hcv⟩, hb =>
      rw [hv]
      exact contains_sf hcv hb
  | .float f, .int ⟨false, lb, _⟩, ha, ⟨w, hw, hcw⟩ =>
      rw [hw, mul_comm]
      exact contains_uf hcw ha
  | .float f, .int ⟨true, lb, _⟩, ha, ⟨w, hw, hcw⟩ =>
      rw [hw, mul_comm]
      exact contains_sf hcw ha
  | .float f, .float g, ha, hb => exact contains_ff ha hb

end TimesOperator

namespace PlusOperator

/-- A sum of numbers that are integers over `s`, between bounds. -/
theorem sum_bounds (s : ℚ) (lo hi : ℤ) (l : List ℚ)
    (h : ∀ q ∈ l, ∃ k : ℤ, q = k / s ∧ lo ≤ k ∧ k ≤ hi) :
    ∃ K : ℤ, l.sum = K / s ∧ l.length * lo ≤ K ∧ K ≤ l.length * hi := by
  induction l with
  | nil => exact ⟨0, by simp⟩
  | cons q l ih =>
      obtain ⟨k, hq, hlo, hhi⟩ := h q List.mem_cons_self
      obtain ⟨K, hsum, hLo, hHi⟩ := ih fun r hr => h r (List.mem_cons_of_mem q hr)
      refine ⟨k + K, ?_, ?_, ?_⟩
      · rw [List.sum_cons, hq, hsum, Int.cast_add, add_div]
      · rw [List.length_cons]
        push_cast
        linarith
      · rw [List.length_cons]
        push_cast
        linarith

/-- So many numbers below a power of two. -/
theorem length_mul_lt {m n : ℕ} (hm : 0 < m) : (m : ℤ) * (2 ^ n - 1) < 2 ^ (Nat.clog 2 m + n) := by
  have hclog : (m : ℤ) ≤ 2 ^ Nat.clog 2 m := by
    exact_mod_cast Nat.le_pow_clog Nat.one_lt_two m
  have hmpos : (0 : ℤ) < m := by exact_mod_cast hm
  calc (m : ℤ) * (2 ^ n - 1) < m * 2 ^ n := mul_lt_mul_of_pos_left (sub_one_lt _) hmpos
    _ ≤ 2 ^ Nat.clog 2 m * 2 ^ n := mul_le_mul_of_nonneg_right hclog (two_pow_pos n).le
    _ = 2 ^ (Nat.clog 2 m + n) := (pow_add 2 _ _).symm

theorem le_length_mul (m n : ℕ) : -2 ^ (Nat.clog 2 m + n) ≤ (m : ℤ) * -2 ^ n := by
  have hclog : (m : ℤ) ≤ 2 ^ Nat.clog 2 m := by
    exact_mod_cast Nat.le_pow_clog Nat.one_lt_two m
  rw [pow_add, mul_neg, neg_le_neg_iff]
  exact mul_le_mul_of_nonneg_right hclog (two_pow_pos n).le

theorem contains_sumTypes {A : FiniteType} (l : List ℚ) (h : ∀ q ∈ l, A.Contains q) :
    (sumTypes l.length A).Contains l.sum := by
  rw [sumTypes]
  split_ifs with h0 h1
  · rw [List.length_eq_zero_iff.1 h0, List.sum_nil]
    exact FiniteType.contains_zero _
  · obtain ⟨q, rfl⟩ := List.length_eq_one_iff.1 h1
    rw [List.sum_singleton]
    exact h q List.mem_cons_self
  · have hpos : 0 < l.length := Nat.pos_of_ne_zero h0
    simp only [FiniteType.Contains] at h
    -- all values over one denominator: the sum stays between `length` times the bounds
    match A.kind, h with
    | .int ⟨false, n, _⟩, h =>
        obtain ⟨K, hsum, hlo, hhi⟩ := sum_bounds 1 0 (2 ^ n - 1) l
          fun q hq => by
            obtain ⟨v, rfl, hv0, hv⟩ := h q hq
            exact ⟨v, (div_one _).symm, hv0, Int.le_sub_one_of_lt hv⟩
        rw [mul_zero] at hlo
        exact ⟨K, by rw [hsum, div_one],
          IntType.contains_uint hlo (hhi.trans_lt (length_mul_lt hpos))⟩
    | .int ⟨true, n, hn⟩, h =>
        obtain ⟨K, hsum, hlo, hhi⟩ :=
          sum_bounds 1 (-2 ^ (n - 1)) (2 ^ (n - 1) - 1) l fun q hq => by
            obtain ⟨v, rfl, hge, hv⟩ := h q hq
            exact ⟨v, (div_one _).symm, hge, Int.le_sub_one_of_lt hv⟩
        refine ⟨K, by rw [hsum, div_one], ?_⟩
        rw [IntType.contains_signed, Nat.add_sub_assoc hn]
        exact ⟨(le_length_mul _ _).trans hlo, hhi.trans_lt (length_mul_lt hpos)⟩
    | .float f, h =>
        have hne : (2 : ℚ) ^ f.nb ≠ 0 := by positivity
        obtain ⟨K, hsum, hlo, hhi⟩ :=
          sum_bounds (2 ^ f.nb) (-(2 ^ (f.na + f.nb) - 1)) (2 ^ (f.na + f.nb) - 1) l
          fun q hq => by
            obtain ⟨m, e, he, hm, rfl⟩ := (f.contains_iff q).1 (h q hq)
            obtain ⟨d, hd⟩ := Nat.exists_eq_add_of_le he
            have hprod : (m * 2 ^ d).natAbs < 2 ^ (f.na + f.nb) := by
              rw [Int.natAbs_mul, Int.natAbs_pow, pow_add]
              exact Nat.mul_lt_mul_of_lt_of_le hm
                (Nat.pow_le_pow_right Nat.two_pos (by omega)) (Nat.pow_pos Nat.two_pos)
            -- a smaller exponent is brought to the one of the type
            obtain ⟨hge, hlt⟩ := natAbs_lt_two_pow.1 hprod
            refine ⟨m * 2 ^ d, ?_, by linarith, by linarith⟩
            rw [hd, pow_add]
            push_cast
            field_simp
        refine (FloatType.contains_iff _ _).2 ⟨K, f.nb, le_rfl, ?_, hsum⟩
        have hbound := @length_mul_lt _ (f.na + f.nb) hpos
        rw [mul_neg] at hlo
        show K.natAbs < 2 ^ (Nat.clog 2 l.length + f.na + f.nb)
        rw [add_assoc]
        exact natAbs_lt_two_pow.2 ⟨by linarith, by linarith⟩

end PlusOperator

/-! ## Constants -/

/-- A constant is a number of its type. -/
theorem IntConstant.contains_getType (v : ℤ) : (IntConstant.getType v).Contains v := by
  rw [IntConstant.getType]
  split_ifs with hbool hpos hneg
  · exact FiniteType.contains_boolean.2
      (hbool.symm.imp (fun h => by rw [h, Int.cast_zero]) fun h => by rw [h, Int.cast_one])
  · refine ⟨v, rfl, IntType.contains_uint hpos.le ?_⟩
    exact (natAbs_lt_two_pow.1 (Nat.lt_size_self v.natAbs)).2
  · subst hneg
    exact ⟨-1, rfl, by decide⟩
  · have hlt : v < 0 := by
      have h0 : v ≠ 0 := fun h => hbool (Or.inr h)
      exact lt_of_le_of_ne (not_lt.1 hpos) h0
    have hsize := (natAbs_lt_two_pow.1 (Nat.lt_size_self (-v - 1).natAbs)).2
    refine ⟨v, rfl, ?_⟩
    rw [IntType.contains_signed, Nat.add_sub_cancel]
    exact ⟨by linarith, hlt.trans (two_pow_pos _)⟩

theorem FloatConstant.contains_getType {c : FloatConstant}
    (hc : FloatConstant.isPOT c.den = true) : c.getType.Contains c.toRat := by
  rw [FloatConstant.getType]
  split_ifs with hbool hdvd
  · rw [Bool.or_eq_true] at hbool
    exact FiniteType.contains_boolean.2
      (hbool.symm.imp FloatConstant.toRat_of_isZero FloatConstant.toRat_of_isOne)
  · have hnum : c.num = c.num / c.den * c.den := (Int.ediv_mul_cancel_of_emod_eq_zero hdvd).symm
    have hrat : c.toRat = ((c.num / c.den : ℤ) : ℚ) := by
      rw [FloatConstant.toRat, div_eq_iff c.den_ne_zero]
      exact_mod_cast hnum
    rw [hrat]
    exact IntConstant.contains_getType _
  · obtain ⟨e, he⟩ := (FloatConstant.isPOT_iff _).1 hc
    refine (FloatType.contains_iff _ _).2 ⟨c.num, e, ?_, Nat.lt_size_self _, ?_⟩
    · -- the denominator itself has one bit more
      cases e with
      | zero => exact Nat.zero_le _
      | succ e =>
          show e + 1 ≤ (c.den - 1).size
          refine Nat.lt_size.2 ?_
          have hpos := Nat.pow_pos Nat.two_pos (n := e)
          rw [he, pow_succ]
          omega
    · rw [FloatConstant.toRat, he]
      push_cast
      rfl

end Pepper.Frontend
