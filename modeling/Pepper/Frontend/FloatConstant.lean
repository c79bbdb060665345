import Mathlib.Data.Rat.Cast.Order
import Mathlib.Data.Nat.Log
import Mathlib.Tactic

/-!
# The rational constants of the front end

`FloatConstant` is a numerator over a positive denominator that is not reduced: only zero, one and
minus one are brought to a normal form. `toRat` is the number it stands for. Multiplication computes
the product of these numbers (`toRat_multiply`), and powers of two stay the denominators
(`isPOT_multiply`). A sum is taken over the larger of the two denominators and is exact if this
suits both constants, and only then (`toRat_add_iff`).
-/

set_option autoImplicit false

namespace Pepper.Frontend

structure FloatConstant where
  num : ℤ
  den : ℕ
  den_pos : 0 < den
deriving DecidableEq

namespace FloatConstant

def ONE : FloatConstant := ⟨1, 1, Nat.one_pos⟩

def NEG_ONE : FloatConstant := ⟨-1, 1, Nat.one_pos⟩

def ZERO : FloatConstant := ⟨0, 1, Nat.one_pos⟩

def isZero (c : FloatConstant) : Bool := c.num == 0

def isOne (c : FloatConstant) : Bool := c.num == c.den

def isNegOne (c : FloatConstant) : Bool := -c.num == c.den

/-- `valueOf` of a numerator and a denominator; the constructor refuses denominators that are not
positive. -/
def valueOf (num : ℤ) (den : ℕ) (h : 0 < den) : FloatConstant :=
  let copy : FloatConstant := ⟨num, den, h⟩
  if copy.isOne then ONE else if copy.isZero then ZERO else if copy.isNegOne then NEG_ONE else copy

def multiply (c other : FloatConstant) : FloatConstant :=
  if c.isZero then ZERO
  else if other.isZero then ZERO
  else if other.isOne then c
  else if c.isOne then other
  else valueOf (c.num * other.num) (c.den * other.den) (Nat.mul_pos c.den_pos other.den_pos)

/-- The sum over the larger denominator; `BigInteger.divide` drops the rest. -/
def add (c other : FloatConstant) : FloatConstant :=
  if c.isZero then other
  else if other.isZero then c
  else
    let n : ℤ := min c.den other.den
    valueOf ((c.num * other.den).tdiv n + (c.den * other.num).tdiv n) (max c.den other.den)
      (lt_max_of_lt_left c.den_pos)

def neg (c : FloatConstant) : FloatConstant :=
  if c.isZero then c else valueOf (-c.num) c.den c.den_pos

/-- The sign of the difference. -/
def compareTo (c other : FloatConstant) : ℤ := (other.neg.add c).num.sign

/-- `IntConstant.isPOT` of the denominator. -/
def isPOT (n : ℕ) : Bool := 0 < n && 2 ^ n.log2 == n

/-- The number. -/
def toRat (c : FloatConstant) : ℚ := c.num / c.den

theorem den_ne_zero (c : FloatConstant) : (c.den : ℚ) ≠ 0 := by
  exact_mod_cast c.den_pos.ne'

theorem toRat_ONE : ONE.toRat = 1 := by norm_num [toRat, ONE]

theorem toRat_NEG_ONE : NEG_ONE.toRat = -1 := by norm_num [toRat, NEG_ONE]

theorem toRat_ZERO : ZERO.toRat = 0 := by norm_num [toRat, ZERO]

theorem isOne_iff (c : FloatConstant) : c.isOne = true ↔ c.num = c.den := by
  rw [isOne, beq_iff_eq]

theorem isZero_iff (c : FloatConstant) : c.isZero = true ↔ c.num = 0 := by
  rw [isZero, beq_iff_eq]

theorem isNegOne_iff (c : FloatConstant) : c.isNegOne = true ↔ -c.num = c.den := by
  rw [isNegOne, beq_iff_eq]

theorem toRat_of_isOne {c : FloatConstant} (h : c.isOne = true) : c.toRat = 1 := by
  rw [toRat, (isOne_iff c).1 h, Int.cast_natCast, div_self c.den_ne_zero]

theorem toRat_of_isZero {c : FloatConstant} (h : c.isZero = true) : c.toRat = 0 := by
  rw [toRat, (isZero_iff c).1 h, Int.cast_zero, zero_div]

theorem toRat_of_isNegOne {c : FloatConstant} (h : c.isNegOne = true) : c.toRat = -1 := by
  have hnum : c.num = -c.den := by
    rw [← (isNegOne_iff c).1 h, neg_neg]
  rw [toRat, hnum, Int.cast_neg, Int.cast_natCast, neg_div, div_self c.den_ne_zero]

/-- The cases of `valueOf`. -/
theorem valueOf_cases (num : ℤ) (den : ℕ) (h : 0 < den) :
    (valueOf num den h = ONE ∧ num = den) ∨ (valueOf num den h = ZERO ∧ num = 0) ∨
      (valueOf num den h = NEG_ONE ∧ -num = den) ∨ valueOf num den h = ⟨num, den, h⟩ := by
  unfold valueOf
  dsimp only
  split
  · rename_i hone
    exact Or.inl ⟨rfl, (isOne_iff _).1 hone⟩
  · split
    · rename_i hzero
      exact Or.inr (Or.inl ⟨rfl, (isZero_iff _).1 hzero⟩)
    · split
      · rename_i hneg
        exact Or.inr (Or.inr (Or.inl ⟨rfl, (isNegOne_iff _).1 hneg⟩))
      · exact Or.inr (Or.inr (Or.inr rfl))

theorem toRat_valueOf (num : ℤ) (den : ℕ) (h : 0 < den) :
    (valueOf num den h).toRat = num / den := by
  have hden : (den : ℚ) ≠ 0 := by exact_mod_cast h.ne'
  rcases valueOf_cases num den h with ⟨heq, hnum⟩ | ⟨heq, hnum⟩ | ⟨heq, hnum⟩ | heq
  · rw [heq, toRat_ONE, hnum, Int.cast_natCast, div_self hden]
  · rw [heq, toRat_ZERO, hnum, Int.cast_zero, zero_div]
  · have hneg : num = -den := by rw [← hnum, neg_neg]
    rw [heq, toRat_NEG_ONE, hneg, Int.cast_neg, Int.cast_natCast, neg_div, div_self hden]
  · rw [heq]
    rfl

/-- An integer is written without a denominator. -/
theorem valueOf_one (num : ℤ) :
    (valueOf num 1 Nat.one_pos).num = num ∧ (valueOf num 1 Nat.one_pos).den = 1 := by
  rcases valueOf_cases num 1 Nat.one_pos with ⟨heq, hnum⟩ | ⟨heq, hnum⟩ | ⟨heq, hnum⟩ | heq
  · rw [heq]
    exact ⟨hnum.symm, rfl⟩
  · rw [heq]
    exact ⟨hnum.symm, rfl⟩
  · rw [heq]
    exact ⟨by rw [← neg_neg num, hnum]; rfl, rfl⟩
  · rw [heq]
    exact ⟨rfl, rfl⟩

theorem toRat_multiply (c other : FloatConstant) :
    (c.multiply other).toRat = c.toRat * other.toRat := by
  unfold multiply
  split
  · rename_i h
    rw [toRat_ZERO, toRat_of_isZero h, zero_mul]
  · split
    · rename_i h
      rw [toRat_ZERO, toRat_of_isZero h, mul_zero]
    · split
      · rename_i h
        rw [toRat_of_isOne h, mul_one]
      · split
        · rename_i h
          rw [toRat_of_isOne h, one_mul]
        · rw [toRat_valueOf, toRat, toRat, Int.cast_mul, Nat.cast_mul, div_mul_div_comm]

theorem toRat_eq_zero_iff (c : FloatConstant) : c.toRat = 0 ↔ c.num = 0 := by
  rw [toRat, div_eq_zero_iff, Int.cast_eq_zero]
  exact or_iff_left c.den_ne_zero

theorem multiply_num_ne_zero {c other : FloatConstant} (hc : c.num ≠ 0) (hother : other.num ≠ 0) :
    (c.multiply other).num ≠ 0 := by
  rw [Ne, ← toRat_eq_zero_iff, toRat_multiply, mul_eq_zero, toRat_eq_zero_iff, toRat_eq_zero_iff]
  exact fun h => h.elim hc hother

/-! ## Powers of two -/

theorem isPOT_iff (n : ℕ) : isPOT n = true ↔ ∃ i, n = 2 ^ i := by
  rw [isPOT, Bool.and_eq_true, decide_eq_true_eq, beq_iff_eq]
  constructor
  · rintro ⟨-, h⟩
    exact ⟨_, h.symm⟩
  · rintro ⟨i, rfl⟩
    exact ⟨Nat.two_pow_pos i, by rw [Nat.log2_two_pow]⟩

theorem isPOT_one : isPOT 1 = true := (isPOT_iff 1).2 ⟨0, rfl⟩

theorem isPOT_mul {m n : ℕ} (hm : isPOT m = true) (hn : isPOT n = true) :
    isPOT (m * n) = true := by
  obtain ⟨i, rfl⟩ := (isPOT_iff m).1 hm
  obtain ⟨j, rfl⟩ := (isPOT_iff n).1 hn
  exact (isPOT_iff _).2 ⟨i + j, (pow_add 2 i j).symm⟩

/-- Of two powers of two the smaller divides the larger. -/
theorem isPOT_dvd {m n : ℕ} (hm : isPOT m = true) (hn : isPOT n = true) (h : m ≤ n) : m ∣ n := by
  obtain ⟨i, rfl⟩ := (isPOT_iff m).1 hm
  obtain ⟨j, rfl⟩ := (isPOT_iff n).1 hn
  exact pow_dvd_pow 2 ((Nat.pow_le_pow_iff_right Nat.one_lt_two).1 h)

theorem isPOT_valueOf {num : ℤ} {den : ℕ} {h : 0 < den} (hden : isPOT den = true) :
    isPOT (valueOf num den h).den = true := by
  rcases valueOf_cases num den h with ⟨heq, -⟩ | ⟨heq, -⟩ | ⟨heq, -⟩ | heq
  · rw [heq]
    exact isPOT_one
  · rw [heq]
    exact isPOT_one
  · rw [heq]
    exact isPOT_one
  · rw [heq]
    exact hden

theorem isPOT_multiply {c other : FloatConstant} (hc : isPOT c.den = true)
    (hother : isPOT other.den = true) : isPOT (c.multiply other).den = true := by
  unfold multiply
  split
  · exact isPOT_one
  · split
    · exact isPOT_one
    · split
      · exact hc
      · split
        · exact hother
        · exact isPOT_valueOf (isPOT_mul hc hother)

theorem neg_eq (c : FloatConstant) : c.neg.toRat = -c.toRat := by
  unfold neg
  split
  · rename_i h
    rw [toRat_of_isZero h, neg_zero]
  · rw [toRat_valueOf, toRat, Int.cast_neg, neg_div]

theorem isPOT_neg {c : FloatConstant} (hc : isPOT c.den = true) : isPOT c.neg.den = true := by
  unfold neg
  split
  · exact hc
  · exact isPOT_valueOf hc

/-! ## Sums -/

/-- The sum of two constants that are not zero is taken over the larger denominator, to which the
other constant is cut off. -/
theorem add_eq {c other : FloatConstant} (hc : c.isZero ≠ true) (hother : other.isZero ≠ true) :
    c.add other =
      if c.den ≤ other.den then
        valueOf ((c.num * other.den).tdiv c.den + other.num) other.den other.den_pos
      else valueOf ((other.num * c.den).tdiv other.den + c.num) c.den c.den_pos := by
  have hc0 : (c.den : ℤ) ≠ 0 := by exact_mod_cast c.den_pos.ne'
  have hother0 : (other.den : ℤ) ≠ 0 := by exact_mod_cast other.den_pos.ne'
  rw [add, if_neg hc, if_neg hother]
  dsimp only
  by_cases hle : c.den ≤ other.den
  · have hmin : min (c.den : ℤ) other.den = c.den := min_eq_left (by exact_mod_cast hle)
    simp only [if_pos hle, max_eq_right hle, hmin, Int.mul_tdiv_cancel_left _ hc0]
  · have hle' := (not_le.1 hle).le
    have hmin : min (c.den : ℤ) other.den = other.den := min_eq_right (by exact_mod_cast hle')
    simp only [if_neg hle, max_eq_left hle', hmin, Int.mul_tdiv_cancel _ hother0,
      mul_comm (c.den : ℤ), add_comm c.num]

/-- Cutting `a / b` off to the denominator `d` loses nothing exactly if `a / b` has it. -/
theorem cut_exact_iff {a a' : ℤ} {b d : ℕ} (hb : 0 < b) (hd : 0 < d) :
    (((a * d).tdiv b + a' : ℤ) : ℚ) / d = a / b + a' / d ↔ (b : ℤ) ∣ a * d := by
  have hb0 : (b : ℚ) ≠ 0 := by exact_mod_cast hb.ne'
  have hd0 : (d : ℚ) ≠ 0 := by exact_mod_cast hd.ne'
  have hsplit : (((a * d).tdiv b + a' : ℤ) : ℚ) / d = a / b + a' / d ↔
      (b : ℤ) * (a * d).tdiv b = a * d := by
    rw [Int.cast_add, add_div, add_left_inj, div_eq_div_iff hd0 hb0, mul_comm _ (b : ℚ)]
    exact_mod_cast Iff.rfl
  rw [hsplit]
  exact ⟨fun h => h ▸ Int.dvd_mul_right _ _, Int.mul_tdiv_cancel'⟩

/-- `a / b` cut off to the denominator `d` is on the same side of `-c / d` as `a / b` is, unless
it meets it without being equal. -/
theorem cut_sign_iff {a c : ℤ} {b d : ℕ} (hb : 0 < b) :
    ((a * d).tdiv b + c).sign = (a * d + c * b).sign ↔
      ((a * d).tdiv b + c = 0 → (b : ℤ) ∣ a * d) := by
  have hb' : (0 : ℤ) < b := by exact_mod_cast hb
  set s := (a * d).tdiv b + c with hs
  set r := (a * d).tmod b with hr
  have hexact : a * d + c * b = b * s + r := by
    rw [hs, mul_add, add_right_comm, Int.mul_tdiv_add_tmod, mul_comm c (b : ℤ)]
  have hlow : -(b : ℤ) < r := Int.lt_tmod_of_pos _ hb'
  have hhigh : r < b := Int.tmod_lt_of_pos _ hb'
  rw [hexact, Int.dvd_iff_tmod_eq_zero, ← hr]
  rcases lt_trichotomy s 0 with hneg | hzero | hpos
  · have hle : (b : ℤ) * s ≤ b * (-1) := Int.mul_le_mul_of_nonneg_left (by omega) hb'.le
    rw [Int.sign_eq_neg_one_of_neg hneg, Int.sign_eq_neg_one_of_neg (by omega)]
    exact iff_of_true rfl fun h => absurd h hneg.ne
  · rw [hzero, mul_zero, zero_add, Int.sign_zero, eq_comm, Int.sign_eq_zero_iff_zero]
    exact ⟨fun h _ => h, fun h => h rfl⟩
  · have hle : (b : ℤ) * 1 ≤ b * s := Int.mul_le_mul_of_nonneg_left (by omega) hb'.le
    rw [Int.sign_eq_one_of_pos hpos, Int.sign_eq_one_of_pos (by omega)]
    exact iff_of_true rfl fun h => absurd h hpos.ne'

/-- One constant is zero, or the one with the smaller denominator is a multiple of one over the
larger denominator. -/
def FitsSum (c other : FloatConstant) : Prop :=
  c.isZero = true ∨ other.isZero = true ∨
    if c.den ≤ other.den then (c.den : ℤ) ∣ c.num * other.den
    else (other.den : ℤ) ∣ other.num * c.den

instance (c other : FloatConstant) : Decidable (FitsSum c other) :=
  inferInstanceAs (Decidable (_ ∨ _ ∨ ite _ _ _))

/-- The sum loses nothing exactly if the larger denominator suits both constants. -/
theorem toRat_add_iff (c other : FloatConstant) :
    (c.add other).toRat = c.toRat + other.toRat ↔ FitsSum c other := by
  by_cases hc : c.isZero = true
  · rw [add, if_pos hc, toRat_of_isZero hc, zero_add]
    exact iff_of_true rfl (Or.inl hc)
  by_cases hother : other.isZero = true
  · rw [add, if_neg hc, if_pos hother, toRat_of_isZero hother, add_zero]
    exact iff_of_true rfl (Or.inr (Or.inl hother))
  rw [add_eq hc hother, FitsSum, or_iff_right hc, or_iff_right hother]
  split_ifs with hle
  · rw [toRat_valueOf, toRat, toRat]
    exact cut_exact_iff c.den_pos other.den_pos
  · rw [toRat_valueOf, toRat, toRat, add_comm ((c.num : ℚ) / c.den)]
    exact cut_exact_iff other.den_pos c.den_pos

/-- Of two denominators that are powers of two the smaller divides the larger, so that the
sum loses nothing. -/
theorem toRat_add {c other : FloatConstant} (hc : isPOT c.den = true)
    (hother : isPOT other.den = true) : (c.add other).toRat = c.toRat + other.toRat := by
  refine (toRat_add_iff c other).2 (Or.inr (Or.inr ?_))
  split_ifs with hle
  · exact Dvd.dvd.mul_left (by exact_mod_cast isPOT_dvd hc hother hle) _
  · exact Dvd.dvd.mul_left (by exact_mod_cast isPOT_dvd hother hc (not_le.1 hle).le) _

theorem isPOT_add {c other : FloatConstant} (hc : isPOT c.den = true)
    (hother : isPOT other.den = true) : isPOT (c.add other).den = true := by
  unfold add
  split
  · exact hother
  · split
    · exact hc
    · apply isPOT_valueOf
      rcases le_total c.den other.den with hle | hle
      · rwa [max_eq_right hle]
      · rwa [max_eq_left hle]

theorem toRat_neg_iff (c : FloatConstant) : c.toRat < 0 ↔ c.num < 0 := by
  have hden : (0 : ℚ) < c.den := by exact_mod_cast c.den_pos
  rw [toRat, div_lt_iff₀ hden, zero_mul, Int.cast_lt_zero]

theorem toRat_pos_iff (c : FloatConstant) : 0 < c.toRat ↔ 0 < c.num := by
  have hden : (0 : ℚ) < c.den := by exact_mod_cast c.den_pos
  rw [toRat, lt_div_iff₀ hden, zero_mul, Int.cast_pos]

end FloatConstant

end Pepper.Frontend
