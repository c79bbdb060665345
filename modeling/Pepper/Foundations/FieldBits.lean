import Mathlib.Algebra.BigOperators.Intervals
import Mathlib.Algebra.BigOperators.Ring.Finset
import Mathlib.Algebra.Field.ZMod
import Mathlib.Data.Nat.Cast.Order.Ring
import Mathlib.Data.Nat.Bitwise
import Mathlib.Tactic.Linarith
import Mathlib.Tactic.LinearCombination
import Mathlib.Tactic.Ring

/-!
# Bits in a ring without zero divisors

Elements that satisfy `b * (b - 1) = 0`, or `x * (2 ^ i - x) = 0` for a bit with its weight, are
the bits of one natural number (`exists_bits`, `exists_weightedBits`), which stands for an integer
in two's complement (`signedValue`, with inverse `wordOf`). Among flags that add up to one exactly
one is set (`exists_flag`), and an integer below the modulus is determined by its residue
(`eq_zero_of_abs_lt`).
-/

set_option autoImplicit false

namespace Pepper.Foundations.FieldBits

universe u

/-! ## Numbers from their bits -/

/-- A choice of a bit at each of `k` places is the choice of a number. -/
theorem exists_testBit {P : ℕ → Bool → Prop} {k : ℕ} (h : ∀ i < k, ∃ b, P i b) :
    ∃ S < 2 ^ k, ∀ i < k, P i (S.testBit i) := by
  induction k with
  | zero => exact ⟨0, Nat.one_pos, fun i hi => absurd hi (Nat.not_lt_zero i)⟩
  | succ k ih =>
      obtain ⟨S, hS, hlow⟩ := ih fun i hi => h i (Nat.lt_succ_of_lt hi)
      obtain ⟨b, hb⟩ := h k (Nat.lt_succ_self k)
      cases b with
      | false =>
          refine ⟨S, hS.trans (Nat.pow_lt_pow_right (by norm_num) (Nat.lt_succ_self k)), ?_⟩
          intro i hi
          rcases Nat.lt_succ_iff_lt_or_eq.1 hi with hi | rfl
          · exact hlow i hi
          · rwa [Nat.testBit_lt_two_pow hS]
      | true =>
          refine ⟨2 ^ k + S, by rw [pow_succ]; omega, ?_⟩
          intro i hi
          rcases Nat.lt_succ_iff_lt_or_eq.1 hi with hi | rfl
          · rw [Nat.testBit_two_pow_add_gt hi]
            exact hlow i hi
          · rwa [Nat.testBit_two_pow_add_eq, Nat.testBit_lt_two_pow hS]

/-- The first `k` bits of a number, with their weights. -/
theorem sum_testBit (S k : ℕ) :
    ∑ i ∈ Finset.range k, (if S.testBit i then 2 ^ i else 0) = S % 2 ^ k := by
  induction k with
  | zero => rw [Finset.sum_range_zero, pow_zero, Nat.mod_one]
  | succ k ih =>
      have hbit : (if S.testBit k then 2 ^ k else 0) = 2 ^ k * (S / 2 ^ k % 2) := by
        rw [Nat.testBit_eq_decide_div_mod_eq]
        rcases Nat.mod_two_eq_zero_or_one (S / 2 ^ k) with h | h <;> simp [h]
      rw [Finset.sum_range_succ, ih, hbit, ← Nat.mod_mul, pow_succ]

section Ring

variable {R : Type u} [CommRing R]

theorem sum_testBit_cast {S k : ℕ} (hS : S < 2 ^ k) :
    ∑ i ∈ Finset.range k, (if S.testBit i then (2 : R) ^ i else 0) = S := by
  have hsum := sum_testBit S k
  rw [Nat.mod_eq_of_lt hS] at hsum
  conv_rhs => rw [← hsum]
  rw [Nat.cast_sum]
  apply Finset.sum_congr rfl
  intro i _
  split_ifs <;> simp

variable [NoZeroDivisors R]

/-- Bits that carry their weights. -/
theorem exists_weightedBits {x : ℕ → R} {k : ℕ} (h : ∀ i < k, x i * (2 ^ i - x i) = 0) :
    ∃ S : ℕ, S < 2 ^ k ∧ (∀ i < k, x i = if S.testBit i then 2 ^ i else 0) ∧
      ∑ i ∈ Finset.range k, x i = S := by
  obtain ⟨S, hS, hbits⟩ := exists_testBit (P := fun i b => x i = if b then 2 ^ i else 0)
    (k := k) fun i hi => by
      rcases mul_eq_zero.1 (h i hi) with hzero | hone
      · exact ⟨false, hzero⟩
      · exact ⟨true, (sub_eq_zero.1 hone).symm⟩
  refine ⟨S, hS, hbits, ?_⟩
  rw [← sum_testBit_cast hS]
  exact Finset.sum_congr rfl fun i hi => hbits i (Finset.mem_range.1 hi)

theorem bit_cases {b : R} (h : b * (b - 1) = 0) : b = 0 ∨ b = 1 := by
  rcases mul_eq_zero.1 h with hzero | hone
  · exact Or.inl hzero
  · exact Or.inr (sub_eq_zero.1 hone)

/-- Bits without weights. -/
theorem exists_bits {b : ℕ → R} {k : ℕ} (h : ∀ i < k, b i * (b i - 1) = 0) :
    ∃ S : ℕ, S < 2 ^ k ∧ (∀ i < k, b i = if S.testBit i then 1 else 0) ∧
      ∑ i ∈ Finset.range k, 2 ^ i * b i = S := by
  obtain ⟨S, hS, hbits⟩ := exists_testBit (P := fun i c => b i = if c then 1 else 0)
    (k := k) fun i hi => by
      rcases bit_cases (h i hi) with hzero | hone
      · exact ⟨false, hzero⟩
      · exact ⟨true, hone⟩
  refine ⟨S, hS, hbits, ?_⟩
  rw [← sum_testBit_cast hS]
  apply Finset.sum_congr rfl
  intro i hi
  rw [hbits i (Finset.mem_range.1 hi)]
  split_ifs <;> simp

end Ring

/-! ## Two's complement -/

section TwosComplement

/-- The integers of `N` bits. -/
def InRange (signed : Bool) (N : ℕ) (x : ℤ) : Prop :=
  if signed then -2 ^ (N - 1) ≤ x ∧ x < 2 ^ (N - 1) else 0 ≤ x ∧ x < 2 ^ N

instance (signed : Bool) (N : ℕ) (x : ℤ) : Decidable (InRange signed N x) := by
  unfold InRange
  infer_instance

/-- What the bits of `S` stand for: the highest one counts negatively if there is a sign. -/
def signedValue (signed : Bool) (N S : ℕ) : ℤ :=
  S - if signed && S.testBit (N - 1) then 2 ^ N else 0

/-- The bits of an integer. -/
def wordOf (N : ℕ) (x : ℤ) : ℕ := (x % 2 ^ N).toNat

variable {signed : Bool} {N : ℕ}

theorem testBit_top {S : ℕ} (hS : S < 2 ^ (N + 1)) : S.testBit N = decide (2 ^ N ≤ S) := by
  rcases lt_or_ge S (2 ^ N) with hlt | hge
  · rw [Nat.testBit_lt_two_pow hlt, decide_eq_false (not_le.2 hlt)]
  · obtain ⟨T, rfl⟩ := Nat.exists_eq_add_of_le hge
    have hT : T < 2 ^ N := by
      rw [pow_succ, mul_two] at hS
      exact Nat.lt_of_add_lt_add_left hS
    rw [Nat.testBit_two_pow_add_eq, Nat.testBit_lt_two_pow hT, decide_eq_true hge, Bool.not_false]

theorem wordOf_lt (N : ℕ) (x : ℤ) : wordOf N x < 2 ^ N := by
  have hpos : (0 : ℤ) < 2 ^ N := by positivity
  rw [wordOf, Int.toNat_lt (Int.emod_nonneg x hpos.ne')]
  exact_mod_cast Int.emod_lt_of_pos x hpos

/-- In range, a negative number has `2 ^ N` added. -/
theorem cast_wordOf (hN : 1 ≤ N) {x : ℤ} (hx : InRange signed N x) :
    (wordOf N x : ℤ) = if x < 0 then x + 2 ^ N else x := by
  have hpow : (2 : ℤ) ^ N = 2 * 2 ^ (N - 1) := by
    rw [← pow_succ', Nat.sub_add_cancel hN]
  have hpos : (0 : ℤ) < 2 ^ (N - 1) := by positivity
  rw [wordOf, Int.toNat_of_nonneg (Int.emod_nonneg x (by positivity))]
  unfold InRange at hx
  split_ifs with hneg
  · have hlow : -2 ^ (N - 1) ≤ x := by
      cases signed with
      | false => exact absurd hx.1 (not_le.2 hneg)
      | true => exact hx.1
    rw [← Int.add_emod_right, Int.emod_eq_of_lt (by linarith) (by linarith)]
  · refine Int.emod_eq_of_lt (not_lt.1 hneg) ?_
    cases signed with
    | false => exact hx.2
    | true => linarith [hx.2]

/-- The highest bit is the sign. -/
theorem testBit_wordOf_top (hN : 1 ≤ N) {x : ℤ} (hx : InRange true N x) :
    (wordOf N x).testBit (N - 1) = decide (x < 0) := by
  obtain ⟨k, rfl⟩ : ∃ k, N = k + 1 := ⟨N - 1, (Nat.sub_add_cancel hN).symm⟩
  have hword := cast_wordOf hN hx
  obtain ⟨hlow, hhigh⟩ : -2 ^ k ≤ x ∧ x < 2 ^ k := hx
  rw [Nat.add_sub_cancel, testBit_top (wordOf_lt _ x)]
  congr 1
  rw [eq_iff_iff, ← Int.ofNat_le, Nat.cast_pow, Nat.cast_ofNat, hword]
  have hpow : (2 : ℤ) ^ (k + 1) = 2 * 2 ^ k := pow_succ' 2 k
  split_ifs with hneg
  · exact iff_of_true (by linarith) hneg
  · exact iff_of_false (by linarith) hneg

theorem signedValue_wordOf (hN : 1 ≤ N) {x : ℤ} (hx : InRange signed N x) :
    signedValue signed N (wordOf N x) = x := by
  rw [signedValue, cast_wordOf hN hx]
  cases signed with
  | false =>
      have hnonneg : ¬x < 0 := not_lt.2 (show 0 ≤ x ∧ x < 2 ^ N from hx).1
      simp [hnonneg]
  | true =>
      rw [testBit_wordOf_top hN hx]
      by_cases hneg : x < 0 <;> simp [hneg]

/-- The bits are determined by what they stand for. -/
theorem wordOf_signedValue {S : ℕ} (hS : S < 2 ^ N) : wordOf N (signedValue signed N S) = S := by
  have hS' : (S : ℤ) < 2 ^ N := by exact_mod_cast hS
  have hmod : signedValue signed N S % 2 ^ N = S := by
    rw [signedValue]
    split_ifs
    · rw [Int.sub_emod_right, Int.emod_eq_of_lt (Int.natCast_nonneg S) hS']
    · rw [sub_zero, Int.emod_eq_of_lt (Int.natCast_nonneg S) hS']
  rw [wordOf, hmod, Int.toNat_natCast]

/-- Numbers of `N` bits stand for integers between `-2 ^ N` and `2 ^ N`. -/
theorem abs_signedValue_lt {S : ℕ} (hS : S < 2 ^ N) : |signedValue signed N S| < 2 ^ N := by
  have hS' : (S : ℤ) < 2 ^ N := by exact_mod_cast hS
  rw [signedValue, abs_lt]
  split_ifs with htop
  · have hpos : 0 < S := by
      rcases Nat.eq_zero_or_pos S with rfl | hpos
      · simp at htop
      · exact hpos
    constructor <;> omega
  · constructor <;> omega

end TwosComplement

/-! ## Residues -/

section Residues

variable {p : ℕ}

theorem eq_zero_of_abs_lt {z : ℤ} (hlt : |z| < p) (hz : (z : ZMod p) = 0) : z = 0 :=
  Int.eq_zero_of_abs_lt_dvd ((ZMod.intCast_zmod_eq_zero_iff_dvd z p).1 hz) hlt

/-- Flags that add up to one, fewer of them than the modulus: exactly one is set. -/
theorem exists_flag [Fact p.Prime] {d : ℕ → ZMod p} {k : ℕ} (hk : k < p)
    (hflag : ∀ i < k, d i * (d i - 1) = 0) (hone : ∑ i ∈ Finset.range k, d i = 1) :
    ∃ j < k, ∀ i < k, d i = if i = j then 1 else 0 := by
  let set := (Finset.range k).filter fun i => d i = 1
  have hvalue : ∀ i ∈ Finset.range k, d i = if d i = 1 then 1 else 0 := by
    intro i hi
    rcases bit_cases (hflag i (Finset.mem_range.1 hi)) with hzero | hset
    · rw [hzero, if_neg zero_ne_one]
    · rw [hset, if_pos rfl]
  have hcount : ((set.card : ℕ) : ZMod p) = 1 := by
    rw [← hone, Finset.sum_congr rfl hvalue, Finset.sum_boole]
  have hcard : set.card = 1 := by
    have hle : set.card ≤ k := (Finset.card_filter_le _ _).trans (Finset.card_range k).le
    have hdiff : ((set.card : ℤ) - 1) = 0 := by
      refine eq_zero_of_abs_lt (p := p) ?_ (by push_cast; rw [hcount, sub_self])
      rw [abs_lt]
      have htwo := (Fact.out : p.Prime).two_le
      omega
    omega
  obtain ⟨j, hj⟩ := Finset.card_eq_one.1 hcard
  have hmem : ∀ i, i < k ∧ d i = 1 ↔ i = j := by
    intro i
    rw [← @Finset.mem_singleton ℕ j i, ← hj, Finset.mem_filter, Finset.mem_range]
  obtain ⟨hjk, hjset⟩ := (hmem j).2 rfl
  refine ⟨j, hjk, fun i hi => ?_⟩
  by_cases hij : i = j
  · rw [if_pos hij, hij, hjset]
  · rw [if_neg hij]
    exact (bit_cases (hflag i hi)).resolve_right fun hset => hij ((hmem i).1 ⟨hi, hset⟩)

/-- Three flags. -/
theorem three_flags [Fact p.Prime] (hp : p ≠ 2) {a b c : ZMod p} (ha : a * (a - 1) = 0)
    (hb : b * (b - 1) = 0) (hc : c * (c - 1) = 0) (hone : a + b + c - 1 = 0) :
    (a = 1 ∧ b = 0 ∧ c = 0) ∨ (a = 0 ∧ b = 1 ∧ c = 0) ∨ (a = 0 ∧ b = 0 ∧ c = 1) := by
  have htwo : (2 : ZMod p) ≠ 0 := Ring.two_ne_zero (by rwa [ZMod.ringChar_zmod_n])
  rcases bit_cases ha with rfl | rfl <;> rcases bit_cases hb with rfl | rfl <;>
    rcases bit_cases hc with rfl | rfl
  · simp at hone
  · exact Or.inr (Or.inr ⟨rfl, rfl, rfl⟩)
  · exact Or.inr (Or.inl ⟨rfl, rfl, rfl⟩)
  · simp at hone
  · exact Or.inl ⟨rfl, rfl, rfl⟩
  · simp at hone
  · simp at hone
  · exact absurd (by linear_combination hone) htwo

end Residues

end Pepper.Foundations.FieldBits
