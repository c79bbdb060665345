import Mathlib.Data.Int.Bitwise
import Pepper.Foundations.FieldBits

/-!
# Bit strings in two's complement

`valueOf` is the integer that `N` bits stand for, the highest one with a negative weight if
there is a sign, and `wrap` the integer of `N` bits that is congruent to a given one modulo
`2 ^ N` (`inRange_wrap`, `wrap_congr`, `wrap_unique`). The bits of any integer stand for
its `wrap` (`valueOf_testBit`), strings with the same value are the same
(`valueOf_eq_iff`), and dividing and multiplying by a power of two moves the bits
(`testBit_ediv`, `testBit_mul_two_pow`).
-/

set_option autoImplicit false

open Pepper.Foundations.FieldBits

namespace Pepper.Foundations.TwosComplement

/-- The weight of bit `i` among `N`. -/
def weight (signed : Bool) (N i : ℕ) : ℤ := if signed && i + 1 == N then -2 ^ i else 2 ^ i

/-- What a string of `N` bits stands for. -/
def valueOf (signed : Bool) (N : ℕ) (b : ℕ → Bool) : ℤ :=
  ∑ i ∈ Finset.range N, if b i then weight signed N i else 0

/-- The integer of `N` bits that is congruent to `v`. -/
def wrap (signed : Bool) (N : ℕ) (v : ℤ) : ℤ := signedValue signed N (wordOf N v)

/-- The bits as a natural number. -/
def word (N : ℕ) (b : ℕ → Bool) : ℕ := Nat.ofBits fun i : Fin N => b i

variable {signed : Bool} {N : ℕ}

theorem word_lt (N : ℕ) (b : ℕ → Bool) : word N b < 2 ^ N := Nat.ofBits_lt_two_pow _

theorem testBit_word {i : ℕ} (hi : i < N) (b : ℕ → Bool) : (word N b).testBit i = b i :=
  Nat.testBit_ofBits_lt _ i hi

theorem testBit_top_word (hN : 1 ≤ N) (b : ℕ → Bool) : (word N b).testBit (N - 1) = b (N - 1) :=
  testBit_word (Nat.sub_lt hN Nat.one_pos) b

theorem valueOf_eq_signedValue (hN : 1 ≤ N) (b : ℕ → Bool) :
    valueOf signed N b = signedValue signed N (word N b) := by
  obtain ⟨k, rfl⟩ : ∃ k, N = k + 1 := ⟨N - 1, (Nat.sub_add_cancel hN).symm⟩
  have hword : ∑ i ∈ Finset.range (k + 1), (if b i then (2 : ℤ) ^ i else 0) = word (k + 1) b := by
    rw [← sum_testBit_cast (word_lt (k + 1) b)]
    refine Finset.sum_congr rfl fun i hi => ?_
    rw [testBit_word (Finset.mem_range.1 hi)]
  have hlow : ∀ i ∈ Finset.range k,
      (if b i then weight signed (k + 1) i else 0) = if b i then (2 : ℤ) ^ i else 0 := by
    intro i hi
    have hne : i ≠ k := (Finset.mem_range.1 hi).ne
    simp [weight, hne]
  rw [signedValue, testBit_top_word hN, ← hword, valueOf, Finset.sum_range_succ,
    Finset.sum_range_succ, Finset.sum_congr rfl hlow, Nat.add_sub_cancel, weight]
  cases signed with
  | false => simp
  | true =>
      cases b k with
      | false => simp
      | true =>
          simp only [Bool.and_self, beq_self_eq_true, if_true]
          rw [pow_succ]
          ring

theorem inRange_signedValue (hN : 1 ≤ N) {S : ℕ} (hS : S < 2 ^ N) :
    InRange signed N (signedValue signed N S) := by
  obtain ⟨k, rfl⟩ : ∃ k, N = k + 1 := ⟨N - 1, (Nat.sub_add_cancel hN).symm⟩
  have hS' : (S : ℤ) < 2 * 2 ^ k := by
    have : S < 2 * 2 ^ k := by rwa [pow_succ, mul_comm] at hS
    exact_mod_cast this
  rw [InRange, signedValue, Nat.add_sub_cancel, testBit_top hS, pow_succ]
  cases signed with
  | false =>
      rw [if_neg Bool.false_ne_true]
      simp only [Bool.false_and, Bool.false_eq_true, if_false, sub_zero]
      exact ⟨Int.natCast_nonneg S, by linarith⟩
  | true =>
      rw [if_pos rfl]
      by_cases hge : 2 ^ k ≤ S
      · have hge' : (2 : ℤ) ^ k ≤ S := by exact_mod_cast hge
        simp only [hge, decide_true, Bool.and_self, if_true]
        constructor <;> linarith
      · have hlt' : (S : ℤ) < 2 ^ k := by exact_mod_cast not_le.1 hge
        have hpos : (0 : ℤ) < 2 ^ k := by positivity
        simp only [hge, decide_false, Bool.and_false, Bool.false_eq_true, if_false, sub_zero]
        exact ⟨by linarith [Int.natCast_nonneg S], hlt'⟩

theorem inRange_wrap (hN : 1 ≤ N) (v : ℤ) : InRange signed N (wrap signed N v) :=
  inRange_signedValue hN (wordOf_lt N v)

theorem inRange_valueOf (hN : 1 ≤ N) (b : ℕ → Bool) : InRange signed N (valueOf signed N b) := by
  rw [valueOf_eq_signedValue hN]
  exact inRange_signedValue hN (word_lt N b)

theorem signedValue_congr (S : ℕ) : (2 : ℤ) ^ N ∣ signedValue signed N S - S := by
  rw [signedValue]
  split_ifs
  · exact ⟨-1, by ring⟩
  · exact ⟨0, by ring⟩

theorem wrap_congr (v : ℤ) : (2 : ℤ) ^ N ∣ wrap signed N v - v := by
  have hword : ((wordOf N v : ℕ) : ℤ) = v % 2 ^ N := by
    rw [wordOf, Int.toNat_of_nonneg (Int.emod_nonneg v (by positivity))]
  have hmod : (2 : ℤ) ^ N ∣ (wordOf N v : ℤ) - v := by
    rw [hword]
    exact ⟨-(v / 2 ^ N), by linarith [Int.emod_add_mul_ediv v (2 ^ N)]⟩
  have hsum := dvd_add (@signedValue_congr signed N (wordOf N v)) hmod
  rwa [sub_add_sub_cancel] at hsum

theorem wordOf_congr {v w : ℤ} (h : (2 : ℤ) ^ N ∣ v - w) : wordOf N v = wordOf N w := by
  have hmod : v % 2 ^ N = w % 2 ^ N :=
    Int.emod_eq_emod_iff_emod_sub_eq_zero.2 (Int.emod_eq_zero_of_dvd h)
  rw [wordOf, wordOf, hmod]

theorem wrap_of_inRange (hN : 1 ≤ N) {v : ℤ} (hv : InRange signed N v) : wrap signed N v = v :=
  signedValue_wordOf hN hv

/-- `wrap` depends on the residue only. -/
theorem wrap_eq_of_congr {v w : ℤ} (h : (2 : ℤ) ^ N ∣ v - w) : wrap signed N v = wrap signed N w := by
  rw [wrap, wrap, wordOf_congr h]

/-- The integer of `N` bits in a residue class is unique. -/
theorem wrap_unique (hN : 1 ≤ N) {v w : ℤ} (hw : InRange signed N w) (h : (2 : ℤ) ^ N ∣ w - v) :
    w = wrap signed N v := by
  rw [← wrap_eq_of_congr h, wrap_of_inRange hN hw]

/-! ## Bits of integers -/

theorem testBit_wordOf {i : ℕ} (hi : i < N) (v : ℤ) : (wordOf N v).testBit i = v.testBit i := by
  cases v with
  | ofNat m =>
      have hword : wordOf N (Int.ofNat m) = m % 2 ^ N := by
        rw [wordOf, Int.ofNat_eq_natCast]
        have hmod : ((m : ℤ) % 2 ^ N) = ((m % 2 ^ N : ℕ) : ℤ) := by push_cast; rfl
        rw [hmod, Int.toNat_natCast]
      rw [hword, Nat.testBit_mod_two_pow, decide_eq_true hi, Bool.true_and]
      rfl
  | negSucc m =>
      have hlt : m % 2 ^ N < 2 ^ N := Nat.mod_lt m (by positivity)
      have hword : wordOf N (Int.negSucc m) = 2 ^ N - (m % 2 ^ N + 1) := by
        rw [wordOf, Int.negSucc_emod m (by positivity : (0 : ℤ) < 2 ^ N)]
        have hmod : ((m : ℤ) % 2 ^ N) = ((m % 2 ^ N : ℕ) : ℤ) := by push_cast; rfl
        have hpow : (2 : ℤ) ^ N = ((2 ^ N : ℕ) : ℤ) := by push_cast; rfl
        rw [hmod, hpow]
        omega
      rw [hword, Nat.testBit_two_pow_sub_succ hlt, decide_eq_true hi, Bool.true_and,
        Nat.testBit_mod_two_pow, decide_eq_true hi, Bool.true_and]
      rfl

/-- Strings of `N` bits stand for the same integer exactly if they are the same. -/
theorem valueOf_eq_iff (hN : 1 ≤ N) (b c : ℕ → Bool) :
    valueOf signed N b = valueOf signed N c ↔ ∀ i < N, b i = c i := by
  constructor
  · intro h i hi
    rw [valueOf_eq_signedValue hN, valueOf_eq_signedValue hN] at h
    have hword := congrArg (wordOf N) h
    rw [wordOf_signedValue (word_lt N b), wordOf_signedValue (word_lt N c)] at hword
    rw [← testBit_word hi b, hword, testBit_word hi]
  · intro h
    refine Finset.sum_congr rfl fun i hi => ?_
    rw [h i (Finset.mem_range.1 hi)]

/-- The bits of an integer stand for its `wrap`. -/
theorem valueOf_testBit (hN : 1 ≤ N) (v : ℤ) : valueOf signed N v.testBit = wrap signed N v := by
  have hword : word N v.testBit = wordOf N v := by
    refine Nat.eq_of_testBit_eq fun i => ?_
    rcases lt_or_ge i N with hi | hi
    · rw [testBit_word hi, testBit_wordOf hi]
    · have hpow : 2 ^ N ≤ 2 ^ i := Nat.pow_le_pow_right (by decide) hi
      rw [Nat.testBit_lt_two_pow ((word_lt N _).trans_le hpow),
        Nat.testBit_lt_two_pow ((wordOf_lt N v).trans_le hpow)]
  rw [valueOf_eq_signedValue hN, hword, wrap]

/-- The bits are those of what they stand for. -/
theorem testBit_valueOf {i : ℕ} (hi : i < N) (b : ℕ → Bool) :
    (valueOf signed N b).testBit i = b i := by
  have hN : 1 ≤ N := Nat.one_le_of_lt hi
  have hwrap := wrap_of_inRange hN (@inRange_valueOf signed N hN b)
  rw [← valueOf_testBit hN] at hwrap
  exact (valueOf_eq_iff hN _ _).1 hwrap i hi

/-- Bits that stand for the `wrap` of an integer are its bits. -/
theorem valueOf_eq_wrap_iff (hN : 1 ≤ N) (b : ℕ → Bool) (v : ℤ) :
    valueOf signed N b = wrap signed N v ↔ ∀ i < N, b i = v.testBit i := by
  rw [← valueOf_testBit hN, valueOf_eq_iff hN]

/-- Above the bits of its type, an integer has its sign. -/
theorem testBit_eq_sign (hN : 1 ≤ N) {v : ℤ} (hv : InRange signed N v) {i : ℕ}
    (hi : if signed then N ≤ i + 1 else N ≤ i) : v.testBit i = decide (v < 0) := by
  cases v with
  | ofNat m =>
      have hlt : m < 2 ^ i := by
        cases signed with
        | false =>
            have hm : (m : ℤ) < 2 ^ N := hv.2
            exact (by exact_mod_cast hm : m < 2 ^ N).trans_le (Nat.pow_le_pow_right (by decide) hi)
        | true =>
            have hm : (m : ℤ) < 2 ^ (N - 1) := hv.2
            have hi' : N ≤ i + 1 := hi
            exact (by exact_mod_cast hm : m < 2 ^ (N - 1)).trans_le
              (Nat.pow_le_pow_right (by decide) (by omega))
      have hnonneg : ¬ (Int.ofNat m < 0) := not_lt.2 (Int.natCast_nonneg m)
      rw [decide_eq_false hnonneg]
      exact Nat.testBit_lt_two_pow hlt
  | negSucc m =>
      have hneg : Int.negSucc m < 0 := Int.negSucc_lt_zero m
      have hlt : m < 2 ^ i := by
        cases signed with
        | false => exact absurd hv.1 (not_le.2 hneg)
        | true =>
            have hm : -(2 : ℤ) ^ (N - 1) ≤ Int.negSucc m := hv.1
            have hi' : N ≤ i + 1 := hi
            rw [Int.negSucc_eq] at hm
            have hm' : (m : ℤ) < 2 ^ (N - 1) := by linarith
            exact (by exact_mod_cast hm' : m < 2 ^ (N - 1)).trans_le
              (Nat.pow_le_pow_right (by decide) (by omega))
      rw [decide_eq_true hneg]
      show (!m.testBit i) = true
      rw [Nat.testBit_lt_two_pow hlt]
      rfl

/-! ## Operations -/

theorem testBit_ediv (v : ℤ) (k i : ℕ) : (v / 2 ^ k).testBit i = v.testBit (i + k) := by
  have hpow : (2 : ℤ) ^ k = ((2 ^ k : ℕ) : ℤ) := by push_cast; rfl
  cases v with
  | ofNat m =>
      have hdiv : Int.ofNat m / 2 ^ k = Int.ofNat (m / 2 ^ k) := by
        rw [hpow]
        rfl
      rw [hdiv]
      exact Nat.testBit_div_two_pow m i
  | negSucc m =>
      have hdiv : Int.negSucc m / 2 ^ k = Int.negSucc (m / 2 ^ k) := by
        rw [Int.negSucc_ediv m (by positivity), hpow]
        rfl
      rw [hdiv]
      exact congrArg (!·) (Nat.testBit_div_two_pow m i)

/-- The low bits depend on the residue only. -/
theorem testBit_congr {v w : ℤ} (h : (2 : ℤ) ^ N ∣ v - w) {i : ℕ} (hi : i < N) :
    v.testBit i = w.testBit i := by
  rw [← testBit_wordOf hi, wordOf_congr h, testBit_wordOf hi]

theorem testBit_mul_two_pow (v : ℤ) (k i : ℕ) :
    (v * 2 ^ k).testBit i = if i < k then false else v.testBit (i - k) := by
  split_ifs with hi
  · have hdvd : (2 : ℤ) ^ k ∣ v * 2 ^ k - 0 := ⟨v, by ring⟩
    rw [testBit_congr hdvd hi]
    exact Nat.zero_testBit i
  · have hk : i = i - k + k := (Nat.sub_add_cancel (not_lt.1 hi)).symm
    have hdiv : v * 2 ^ k / 2 ^ k = v := Int.mul_ediv_cancel v (by positivity)
    conv_lhs => rw [hk]
    rw [← testBit_ediv, hdiv]

/-- Bits that are those of an integer, wherever there are bits. -/
theorem valueOf_eq_wrap (hN : 1 ≤ N) {b : ℕ → Bool} {v : ℤ} (h : ∀ i < N, b i = v.testBit i) :
    valueOf signed N b = wrap signed N v :=
  (valueOf_eq_wrap_iff hN b v).2 h

theorem inRange_ediv {v : ℤ} (hv : InRange signed N v) (k : ℕ) :
    InRange signed N (v / 2 ^ k) := by
  have hpos : (0 : ℤ) < 2 ^ k := by positivity
  have hone : (1 : ℤ) ≤ 2 ^ k := Int.add_one_le_iff.2 hpos
  rcases le_or_gt 0 v with hnonneg | hneg
  · have hle : v / 2 ^ k ≤ v := Int.ediv_le_self _ hnonneg
    have hge : 0 ≤ v / 2 ^ k := Int.ediv_nonneg hnonneg hpos.le
    cases signed with
    | false => exact ⟨hge, hle.trans_lt hv.2⟩
    | true =>
        have hlow : -(2 : ℤ) ^ (N - 1) ≤ 0 := neg_nonpos.2 (by positivity)
        exact ⟨hlow.trans hge, hle.trans_lt hv.2⟩
  · cases signed with
    | false => exact absurd hv.1 (not_le.2 hneg)
    | true =>
        have hge : v ≤ v / 2 ^ k := (Int.le_ediv_iff_mul_le hpos).2 (by nlinarith)
        have hlt : v / 2 ^ k < 0 := Int.ediv_neg_of_neg_of_pos hneg hpos
        have hlow : -(2 : ℤ) ^ (N - 1) ≤ v := hv.1
        exact ⟨hlow.trans hge, hlt.trans (by positivity)⟩

end Pepper.Foundations.TwosComplement
