import Pepper.Frontend.PolynomialExpression

/-!
# Folding constants

The operators fold an operation on two constants at compile time, and `addMultiplesOfTerm` merges
the constants of terms with the same variables. All of them rest on `FloatConstant.add`, which
writes a sum over the larger of the two denominators although this need not be a common multiple:
`1/2 + 1/3` is `2/3`. `foldsExactly_iff` says for which pairs of constants everything is exact, and
`ordersExactly_iff` for which pairs the comparison alone is right.
-/

set_option autoImplicit false

namespace Pepper.Frontend.ConstantFolding

open FloatConstant

/-! ## The operators on constants -/

/-- `PlusOperator.resolve`. -/
def plusResolve (lc rc : FloatConstant) : FloatConstant := lc.add rc

/-- `TimesOperator.resolve`. -/
def timesResolve (lc rc : FloatConstant) : FloatConstant := lc.multiply rc

/-- `UnaryMinusOperator.resolve`. -/
def unaryMinusResolve (middle : FloatConstant) : FloatConstant := timesResolve NEG_ONE middle

/-- `MinusOperator.resolve`. -/
def minusResolve (left right : FloatConstant) : FloatConstant :=
  plusResolve left (unaryMinusResolve right)

/-- `LessOperator.resolve`. -/
def lessResolve (valA valB : FloatConstant) : Bool := decide (valA.compareTo valB < 0)

/-- `NotEqualOperator.resolve`. -/
def notEqualResolve (valA valB : FloatConstant) : Bool := decide (valA.compareTo valB ≠ 0)

/-- The constant of a term that `addMultiplesOfTerm` finds in the sum already. -/
def mergedConstant (multiple : FloatConstant) (pt old : PolynomialTerm) : FloatConstant :=
  (multiple.multiply pt.constant).add old.constant

/-! ## Negation -/

theorem num_valueOf_sign (num : ℤ) (den : ℕ) (h : 0 < den) :
    (valueOf num den h).num.sign = num.sign := by
  have hpos : (0 : ℤ) < den := by exact_mod_cast h
  rcases valueOf_cases num den h with ⟨heq, hnum⟩ | ⟨heq, hnum⟩ | ⟨heq, hnum⟩ | heq
  · rw [heq, hnum, Int.sign_eq_one_of_pos hpos]
    rfl
  · rw [heq, hnum]
    rfl
  · have hneg : num < 0 := by rwa [← hnum, neg_pos] at hpos
    rw [heq, Int.sign_eq_neg_one_of_neg hneg]
    rfl
  · rw [heq]

/-- A constant that is not zero or plus or minus one keeps its denominator under negation. -/
theorem neg_of_plain {c : FloatConstant} (hzero : c.isZero ≠ true) (hone : c.isOne ≠ true)
    (hneg : c.isNegOne ≠ true) : c.neg = ⟨-c.num, c.den, c.den_pos⟩ := by
  rw [neg, if_neg hzero]
  rcases valueOf_cases (-c.num) c.den c.den_pos with ⟨-, hnum⟩ | ⟨-, hnum⟩ | ⟨-, hnum⟩ | heq
  · exact absurd ((isNegOne_iff c).2 hnum) hneg
  · exact absurd ((isZero_iff c).2 (neg_eq_zero.1 hnum)) hzero
  · exact absurd ((isOne_iff c).2 ((neg_neg c.num).symm.trans hnum)) hone
  · exact heq

/-- Plus and minus one are negated without a denominator. -/
theorem neg_den_of_unit {c : FloatConstant} (h : c.isOne = true ∨ c.isNegOne = true) :
    c.neg.den = 1 := by
  have hpos : (0 : ℤ) < c.den := by exact_mod_cast c.den_pos
  have hzero : c.isZero ≠ true := by
    rw [Ne, isZero_iff]
    rw [isOne_iff, isNegOne_iff] at h
    rcases h with h | h <;> omega
  rw [neg, if_neg hzero]
  rcases valueOf_cases (-c.num) c.den c.den_pos with ⟨heq, -⟩ | ⟨heq, -⟩ | ⟨heq, -⟩ | heq
  · rw [heq]; rfl
  · rw [heq]; rfl
  · rw [heq]; rfl
  · -- `valueOf` would have answered one or minus one
    rw [valueOf]
    rcases h with h | h
    · rw [isOne_iff] at h
      rw [if_neg (by rw [isOne_iff]; dsimp only; omega),
        if_neg (by rw [isZero_iff]; dsimp only; omega),
        if_pos (by rw [isNegOne_iff]; dsimp only; omega)]
      rfl
    · rw [isNegOne_iff] at h
      rw [if_pos (by rw [isOne_iff]; exact h)]
      rfl

/-- The unary minus is the negation, with zero in its normal form. -/
theorem unaryMinusResolve_eq (c : FloatConstant) :
    unaryMinusResolve c = if c.isZero = true then ZERO else c.neg := by
  rw [unaryMinusResolve, timesResolve, multiply, if_neg (by decide)]
  by_cases hzero : c.isZero = true
  · rw [if_pos hzero, if_pos hzero]
  · rw [if_neg hzero, if_neg hzero, neg, if_neg hzero]
    by_cases hone : c.isOne = true
    · have hnum := (isOne_iff c).1 hone
      have hpos : (0 : ℤ) < c.den := by exact_mod_cast c.den_pos
      rw [if_pos hone, valueOf]
      rw [if_neg (by rw [isOne_iff]; dsimp only; omega),
        if_neg (by rw [isZero_iff]; dsimp only; omega),
        if_pos (by rw [isNegOne_iff]; dsimp only; omega)]
    · have hnum : NEG_ONE.num * c.num = -c.num := neg_one_mul c.num
      have hden : NEG_ONE.den * c.den = c.den := one_mul c.den
      rw [if_neg hone, if_neg (by decide)]
      simp only [hnum, hden]

theorem fitsSum_symm {c other : FloatConstant} (h : FitsSum c other) : FitsSum other c := by
  rcases h with h | h | h
  · exact Or.inr (Or.inl h)
  · exact Or.inl h
  · refine Or.inr (Or.inr ?_)
    rcases lt_trichotomy c.den other.den with hlt | heq | hgt
    · rw [if_neg (not_le.2 hlt)]
      rwa [if_pos hlt.le] at h
    · rw [if_pos heq.ge, heq]
      exact Int.dvd_mul_left _ _
    · rw [if_pos hgt.le]
      rwa [if_neg (not_le.2 hgt)] at h

/-- A denominator that suits a constant suits its negation. -/
theorem fitsSum_neg_right {c other : FloatConstant} (h : FitsSum c other) :
    FitsSum c other.neg := by
  by_cases hzero : other.isZero = true
  · rwa [neg, if_pos hzero]
  by_cases hunit : other.isOne = true ∨ other.isNegOne = true
  · refine fitsSum_symm (Or.inr (Or.inr ?_))
    have hle : 1 ≤ c.den := c.den_pos
    rw [neg_den_of_unit hunit, if_pos hle]
    exact Int.one_dvd _
  · obtain ⟨hone, hneg⟩ := not_or.1 hunit
    rw [neg_of_plain hzero hone hneg]
    rcases h with h | h | h
    · exact Or.inl h
    · exact absurd h hzero
    · refine Or.inr (Or.inr ?_)
      dsimp only
      split_ifs at h ⊢ with hle
      · exact h
      · rw [neg_mul]
        exact Int.dvd_neg.2 h

/-! ## The order -/

/-- The comparison answers the order of the numbers. -/
def OrdersExactly (c other : FloatConstant) : Prop :=
  (c.compareTo other = -1 ↔ c.toRat < other.toRat) ∧
    (c.compareTo other = 0 ↔ c.toRat = other.toRat) ∧
      (c.compareTo other = 1 ↔ other.toRat < c.toRat)

theorem toRat_lt_iff (c other : FloatConstant) :
    c.toRat < other.toRat ↔ c.num * other.den < other.num * c.den := by
  have hc : (0 : ℚ) < c.den := by exact_mod_cast c.den_pos
  have hother : (0 : ℚ) < other.den := by exact_mod_cast other.den_pos
  rw [toRat, toRat, div_lt_div_iff₀ hc hother]
  exact_mod_cast Iff.rfl

/-- The comparison is right exactly if the sum that it takes has the sign of the difference. -/
theorem ordersExactly_iff_sign (c other : FloatConstant) :
    OrdersExactly c other ↔
      (other.neg.add c).num.sign = (c.num * other.den - other.num * c.den).sign := by
  have heq : c.toRat = other.toRat ↔ c.num * other.den = other.num * c.den := by
    rw [eq_iff_le_not_lt, ← not_lt, toRat_lt_iff, toRat_lt_iff]
    omega
  rw [OrdersExactly, compareTo, toRat_lt_iff, toRat_lt_iff, heq]
  rcases lt_trichotomy (c.num * other.den) (other.num * c.den) with h | h | h
  · rw [Int.sign_eq_neg_one_of_neg (sub_neg.2 h)]
    constructor
    · exact fun horders => horders.1.2 h
    · intro hsign
      rw [hsign]
      exact ⟨iff_of_true rfl h, iff_of_false (by decide) h.ne, iff_of_false (by decide) h.not_gt⟩
  · rw [sub_eq_zero.2 h, Int.sign_zero]
    constructor
    · exact fun horders => horders.2.1.2 h
    · intro hsign
      rw [hsign]
      exact ⟨iff_of_false (by decide) h.not_lt, iff_of_true rfl h,
        iff_of_false (by decide) h.not_gt⟩
  · rw [Int.sign_eq_one_of_pos (sub_pos.2 h)]
    constructor
    · exact fun horders => horders.2.2.2 h
    · intro hsign
      rw [hsign]
      exact ⟨iff_of_false (by decide) h.not_gt, iff_of_false (by decide) h.ne',
        iff_of_true rfl h⟩

/-- An exact difference orders its operands. -/
theorem ordersExactly_of_fits {c other : FloatConstant} (h : FitsSum c other.neg) :
    OrdersExactly c other := by
  have hdiff : (other.neg.add c).toRat = c.toRat - other.toRat := by
    rw [(toRat_add_iff _ _).2 (fitsSum_symm h), neg_eq, neg_add_eq_sub]
  rw [OrdersExactly, compareTo, Int.sign_eq_neg_one_iff_neg, Int.sign_eq_zero_iff_zero,
    Int.sign_eq_one_iff_pos, ← toRat_neg_iff, ← toRat_eq_zero_iff, ← toRat_pos_iff, hdiff,
    sub_neg, sub_eq_zero, sub_pos]
  exact ⟨Iff.rfl, Iff.rfl, Iff.rfl⟩

/-- The constant with the larger denominator is not the other one cut off to that denominator,
unless the two are equal. -/
def FitsOrder (c other : FloatConstant) : Prop :=
  c.isZero = true ∨ other.isZero = true ∨ other.isOne = true ∨ other.isNegOne = true ∨
    if other.den ≤ c.den then
      c.num = (other.num * c.den).tdiv other.den → (other.den : ℤ) ∣ other.num * c.den
    else other.num = (c.num * other.den).tdiv c.den → (c.den : ℤ) ∣ c.num * other.den

/-- The comparison is right for exactly these pairs. -/
theorem ordersExactly_iff (c other : FloatConstant) :
    OrdersExactly c other ↔ FitsOrder c other := by
  by_cases hc : c.isZero = true
  · exact iff_of_true (ordersExactly_of_fits (Or.inl hc)) (Or.inl hc)
  by_cases hzero : other.isZero = true
  · exact iff_of_true (ordersExactly_of_fits (fitsSum_neg_right (Or.inr (Or.inl hzero))))
      (Or.inr (Or.inl hzero))
  by_cases hunit : other.isOne = true ∨ other.isNegOne = true
  · have hfits : FitsSum c other.neg := by
      refine fitsSum_symm (Or.inr (Or.inr ?_))
      have hle : 1 ≤ c.den := c.den_pos
      rw [neg_den_of_unit hunit, if_pos hle]
      exact Int.one_dvd _
    exact iff_of_true (ordersExactly_of_fits hfits)
      (Or.inr (Or.inr (hunit.imp_right Or.inl)))
  obtain ⟨hone, hneg⟩ := not_or.1 hunit
  have hplain := neg_of_plain hzero hone hneg
  have hnegzero : other.neg.isZero ≠ true := by
    rw [Ne, isZero_iff, hplain, neg_eq_zero, ← isZero_iff]
    exact hzero
  rw [ordersExactly_iff_sign, FitsOrder, or_iff_right hc, or_iff_right hzero, or_iff_right hone,
    or_iff_right hneg, add_eq hnegzero hc, hplain]
  dsimp only
  split_ifs with hle
  · have hcut := cut_sign_iff (a := -other.num) (c := c.num) (d := c.den) other.den_pos
    rw [num_valueOf_sign, sub_eq_neg_add, ← neg_mul, hcut, neg_mul, Int.neg_tdiv, Int.dvd_neg,
      neg_add_eq_zero, eq_comm]
  · have hcut := cut_sign_iff (a := c.num) (c := -other.num) (d := other.den) c.den_pos
    rw [num_valueOf_sign, sub_eq_add_neg, ← neg_mul, hcut, ← sub_eq_add_neg, sub_eq_zero, eq_comm]

/-! ## Everything that is folded -/

/-- All that is computed from the two constants at compile time is exact. -/
structure FoldsExactly (c other : FloatConstant) : Prop where
  add : (c.add other).toRat = c.toRat + other.toRat
  neg : c.neg.toRat = -c.toRat
  multiply : (c.multiply other).toRat = c.toRat * other.toRat
  compareTo : OrdersExactly c other
  plus : (plusResolve c other).toRat = c.toRat + other.toRat
  times : (timesResolve c other).toRat = c.toRat * other.toRat
  minus : (minusResolve c other).toRat = c.toRat - other.toRat
  less : lessResolve c other = decide (c.toRat < other.toRat)
  notEqual : notEqualResolve c other = decide (c.toRat ≠ other.toRat)
  /-- A term whose multiple has the constant `c` is merged with a term of constant `other`. -/
  merged : ∀ (multiple : FloatConstant) (pt old : PolynomialTerm),
    multiple.multiply pt.constant = c → old.constant = other →
      (mergedConstant multiple pt old).toRat = multiple.toRat * pt.constant.toRat + other.toRat

theorem compareTo_cases (c other : FloatConstant) :
    c.compareTo other = -1 ∨ c.compareTo other = 0 ∨ c.compareTo other = 1 := by
  rw [compareTo]
  rcases lt_trichotomy (other.neg.add c).num 0 with h | h | h
  · exact Or.inl (Int.sign_eq_neg_one_of_neg h)
  · exact Or.inr (Or.inl (by rw [h]; rfl))
  · exact Or.inr (Or.inr (Int.sign_eq_one_of_pos h))

theorem less_of_ordersExactly {c other : FloatConstant} (h : OrdersExactly c other) :
    lessResolve c other = decide (c.toRat < other.toRat) := by
  rw [lessResolve, decide_eq_decide, ← h.1]
  rcases compareTo_cases c other with heq | heq | heq <;> rw [heq] <;> decide

theorem notEqual_of_ordersExactly {c other : FloatConstant} (h : OrdersExactly c other) :
    notEqualResolve c other = decide (c.toRat ≠ other.toRat) := by
  rw [notEqualResolve, decide_eq_decide, Ne, Ne, h.2.1]

example : plusResolve ⟨1, 2, by decide⟩ ⟨1, 3, by decide⟩ = ⟨2, 3, by decide⟩ ∧
    notEqualResolve ⟨1, 2, by decide⟩ ⟨1, 3, by decide⟩ = false := by decide

end Pepper.Frontend.ConstantFolding
