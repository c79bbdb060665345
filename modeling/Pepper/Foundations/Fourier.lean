import Pepper.Foundations.Loop
import Mathlib.Tactic
import Mathlib.Algebra.BigOperators.Ring.Finset

/-!
# Radix-two Fourier sums

The decimation-in-time transform of a vector of length `2 ^ m`: reorder by bit
reversal (`bitRev`), then `m` rounds of butterflies. `partialDft` is what a cell
holds after a round; `butterfly_partialDft` is one round and `partialDft_one` and
`partialDft_zero` are the two ends.

Two in-place loops are read cell by cell: the exchange along an involution
(`forLoop_swap_apply`) and the update of disjoint pairs (`forLoop_pairs_apply`).
-/

set_option autoImplicit false

open Pepper.Foundations.Loop

namespace Pepper.Foundations.Fourier

universe u

/-! ## Bit reversal -/

/-- Reversal of the `m` lowest bits. -/
def bitRev : ℕ → ℕ → ℕ
  | 0, _ => 0
  | m + 1, i => 2 ^ m * (i % 2) + bitRev m (i / 2)

@[simp] theorem bitRev_zero (i : ℕ) : bitRev 0 i = 0 := rfl

theorem bitRev_lt (m i : ℕ) : bitRev m i < 2 ^ m := by
  induction m generalizing i with
  | zero => simp
  | succ m ih =>
      have htail := ih (i / 2)
      have hbit : i % 2 < 2 := Nat.mod_lt i (by norm_num)
      rw [bitRev, pow_succ]
      interval_cases i % 2 <;> omega

theorem bitRev_two_mul (m j : ℕ) : bitRev (m + 1) (2 * j) = bitRev m j := by
  have hmod : 2 * j % 2 = 0 := by omega
  have hdiv : 2 * j / 2 = j := by omega
  rw [bitRev, hmod, hdiv, mul_zero, zero_add]

theorem bitRev_two_mul_add_one (m j : ℕ) :
    bitRev (m + 1) (2 * j + 1) = 2 ^ m + bitRev m j := by
  have hmod : (2 * j + 1) % 2 = 1 := by omega
  have hdiv : (2 * j + 1) / 2 = j := by omega
  rw [bitRev, hmod, hdiv, mul_one]

theorem testBit_bitRev (m i t : ℕ) :
    (bitRev m i).testBit t = (decide (t < m) && i.testBit (m - 1 - t)) := by
  induction m generalizing i with
  | zero => simp
  | succ m ih =>
      rw [bitRev, Nat.testBit_two_pow_mul_add _ (bitRev_lt m (i / 2))]
      by_cases ht : t < m
      · have hpos : m + 1 - 1 - t = m - 1 - t + 1 := by omega
        rw [if_pos ht, ih, hpos, Nat.testBit_succ]
        simp [ht, Nat.lt_succ_of_lt ht]
      · rw [if_neg ht]
        by_cases htm : t = m
        · subst htm
          simp [Nat.testBit_zero]
        · have hsub : ∃ k, t - m = k + 1 := ⟨t - m - 1, by omega⟩
          obtain ⟨k, hk⟩ := hsub
          have hge : ¬t < m + 1 := by omega
          rw [hk, Nat.testBit_succ]
          have hzero : i % 2 / 2 = 0 := by omega
          simp [hzero, hge]

theorem bitRev_bitRev {m i : ℕ} (hi : i < 2 ^ m) : bitRev m (bitRev m i) = i := by
  apply Nat.eq_of_testBit_eq
  intro t
  rw [testBit_bitRev, testBit_bitRev]
  by_cases ht : t < m
  · have hback : m - 1 - (m - 1 - t) = t := by omega
    have hlt : m - 1 - t < m := by omega
    rw [hback]
    simp [ht, hlt]
  · have hbit : i.testBit t = false := by
      apply Nat.testBit_lt_two_pow
      exact hi.trans_le (Nat.pow_le_pow_right (by norm_num) (Nat.le_of_not_lt ht))
    simp [ht, hbit]

/-! ## In-place loops -/

section InPlace

variable {α : Type u}

/-- Exchange of two cells. -/
def swapCells (A : ℕ → α) (i j : ℕ) : ℕ → α :=
  Function.update (Function.update A i (A j)) j (A i)

/-- Exchanging `i` with `rev i` whenever `rev i` lies above `i` permutes the block
along the involution `rev`. -/
theorem forLoop_swap_apply {n : ℕ} {rev : ℕ → ℕ} (hrange : ∀ i < n, rev i < n)
    (hinv : ∀ i < n, rev (rev i) = i) (A : ℕ → α) {x : ℕ} (hx : x < n) :
    forLoop n (fun i B => if rev i > i then swapCells B i (rev i) else B) A x = A (rev x) := by
  -- after `i` passes exactly the pairs with a member below `i` are exchanged
  have hrun : ∀ y < n,
      forLoop n (fun i B => if rev i > i then swapCells B i (rev i) else B) A y =
        if min y (rev y) < n then A (rev y) else A y := by
    refine forLoop_induction
      (P := fun i (B : ℕ → α) => ∀ y < n, B y = if min y (rev y) < i then A (rev y) else A y) ?_ ?_
    · intro y _
      simp
    · intro i hi B hB y hy
      by_cases hgt : rev i > i
      · rw [if_pos hgt, swapCells]
        by_cases hyr : y = rev i
        · subst hyr
          rw [Function.update_self, hB i hi, hinv i hi]
          have h1 : ¬min i (rev i) < i := by omega
          have h2 : min (rev i) i < i + 1 := by omega
          rw [if_neg h1, if_pos h2]
        · rw [Function.update_of_ne hyr]
          by_cases hyi : y = i
          · subst hyi
            rw [Function.update_self, hB _ (hrange y hi), hinv y hi]
            have h1 : ¬min (rev y) y < y := by omega
            have h2 : min y (rev y) < y + 1 := by omega
            rw [if_neg h1, if_pos h2]
          · rw [Function.update_of_ne hyi, hB y hy]
            have hne : rev y ≠ i := fun h => hyr (by rw [← h, hinv y hy])
            have hiff : min y (rev y) < i + 1 ↔ min y (rev y) < i := by omega
            simp only [hiff]
      · rw [if_neg hgt, hB y hy]
        by_cases hlt : min y (rev y) < i
        · have hlt' : min y (rev y) < i + 1 := by omega
          rw [if_pos hlt, if_pos hlt']
        · rw [if_neg hlt]
          by_cases hlt' : min y (rev y) < i + 1
          · have hfix : rev y = y := by
              rcases Nat.lt_or_ge (rev y) y with hlow | hhigh
              · have hrev : rev y = i := by omega
                have hback := hinv y hy
                rw [hrev] at hback
                omega
              · have hyi : y = i := by omega
                subst hyi
                omega
            rw [if_pos hlt', hfix]
          · rw [if_neg hlt']
  have hmin : min x (rev x) < n := lt_of_le_of_lt (min_le_left _ _) hx
  rw [hrun x hx, if_pos hmin]

/-- Cell `x` of the block in which every pair at distance `h` inside an aligned
stretch of length `2 * h` is replaced by `f` of its offset and its two values. -/
def pairUpdate (f : ℕ → α → α → α × α) (h : ℕ) (A : ℕ → α) (x : ℕ) : α :=
  if x % (2 * h) < h then (f (x % (2 * h)) (A x) (A (x + h))).1
  else (f (x % (2 * h) - h) (A (x - h)) (A x)).2

/-- One in-place pair update. -/
def updatePair (f : ℕ → α → α → α × α) (h base i : ℕ) (A : ℕ → α) : ℕ → α :=
  Function.update
    (Function.update A (base + i) (f i (A (base + i)) (A (base + h + i))).1)
    (base + h + i) (f i (A (base + i)) (A (base + h + i))).2

theorem forLoop_pairs_block (f : ℕ → α → α → α × α) (h j : ℕ) (A : ℕ → α) (x : ℕ) :
    forLoop h (fun i B => updatePair f h (2 * h * j) i B) A x =
      if 2 * h * j ≤ x ∧ x < 2 * h * (j + 1) then pairUpdate f h A x else A x := by
  have hnext : 2 * h * (j + 1) = 2 * h * j + 2 * h := by ring
  -- after `i` passes the first `i` offsets of both halves carry their new value
  have hrun : ∀ y, forLoop h (fun i B => updatePair f h (2 * h * j) i B) A y =
      if 2 * h * j ≤ y ∧ y < 2 * h * j + 2 * h ∧ (y - 2 * h * j) % h < h
      then pairUpdate f h A y else A y := by
    refine forLoop_induction
      (P := fun i (B : ℕ → α) => ∀ y, B y =
        if 2 * h * j ≤ y ∧ y < 2 * h * j + 2 * h ∧ (y - 2 * h * j) % h < i
        then pairUpdate f h A y else A y) ?_ ?_
    · intro y
      simp
    · intro i hi B hB y
      have hlowCell : B (2 * h * j + i) = A (2 * h * j + i) := by
        have hoff : (2 * h * j + i - 2 * h * j) % h = i := by
          rw [Nat.add_sub_cancel_left, Nat.mod_eq_of_lt hi]
        rw [hB, if_neg]
        rintro ⟨_, _, hlt⟩
        omega
      have hhighCell : B (2 * h * j + h + i) = A (2 * h * j + h + i) := by
        have hoff : (2 * h * j + h + i - 2 * h * j) % h = i := by
          have hsub : 2 * h * j + h + i - 2 * h * j = h + i := by omega
          rw [hsub, Nat.add_mod_left, Nat.mod_eq_of_lt hi]
        rw [hB, if_neg]
        rintro ⟨_, _, hlt⟩
        omega
      simp only [updatePair, hlowCell, hhighCell]
      by_cases hhigh : y = 2 * h * j + h + i
      · subst hhigh
        have hmod : (2 * h * j + h + i) % (2 * h) = h + i := by
          rw [add_assoc, Nat.mul_add_mod, Nat.mod_eq_of_lt (by omega)]
        have hoff : (2 * h * j + h + i - 2 * h * j) % h = i := by
          have hsub : 2 * h * j + h + i - 2 * h * j = h + i := by omega
          rw [hsub, Nat.add_mod_left, Nat.mod_eq_of_lt hi]
        rw [Function.update_self, if_pos ⟨by omega, by omega, by omega⟩, pairUpdate, hmod,
          if_neg (by omega)]
        have hsub : 2 * h * j + h + i - h = 2 * h * j + i := by omega
        have hidx : h + i - h = i := by omega
        rw [hsub, hidx]
      · rw [Function.update_of_ne hhigh]
        by_cases hlow : y = 2 * h * j + i
        · subst hlow
          have hmod : (2 * h * j + i) % (2 * h) = i := by
            rw [Nat.mul_add_mod, Nat.mod_eq_of_lt (by omega)]
          have hoff : (2 * h * j + i - 2 * h * j) % h = i := by
            rw [Nat.add_sub_cancel_left, Nat.mod_eq_of_lt hi]
          rw [Function.update_self, if_pos ⟨by omega, by omega, by omega⟩, pairUpdate, hmod,
            if_pos hi]
          have hadd : 2 * h * j + i + h = 2 * h * j + h + i := by omega
          rw [hadd]
        · rw [Function.update_of_ne hlow, hB y]
          have hiff : (2 * h * j ≤ y ∧ y < 2 * h * j + 2 * h ∧ (y - 2 * h * j) % h < i + 1) ↔
              (2 * h * j ≤ y ∧ y < 2 * h * j + 2 * h ∧ (y - 2 * h * j) % h < i) := by
            constructor
            · rintro ⟨hge, hlt, hoff⟩
              refine ⟨hge, hlt, ?_⟩
              rcases Nat.lt_or_ge (y - 2 * h * j) h with hin | hin
              · rw [Nat.mod_eq_of_lt hin] at hoff ⊢
                omega
              · have hsplit : y - 2 * h * j = h + (y - 2 * h * j - h) := by omega
                rw [hsplit, Nat.add_mod_left, Nat.mod_eq_of_lt (by omega)] at hoff ⊢
                omega
            · rintro ⟨hge, hlt, hoff⟩
              exact ⟨hge, hlt, by omega⟩
          simp only [hiff]
  rw [hrun x, hnext]
  rcases Nat.eq_zero_or_pos h with hzero | hpos
  · subst hzero
    have hempty : ¬(2 * 0 * j ≤ x ∧ x < 2 * 0 * j + 2 * 0) := by omega
    have hempty' : ¬(2 * 0 * j ≤ x ∧ x < 2 * 0 * j + 2 * 0 ∧ (x - 2 * 0 * j) % 0 < 0) := by omega
    rw [if_neg hempty, if_neg hempty']
  · have hmod : (x - 2 * h * j) % h < h := Nat.mod_lt _ hpos
    simp only [hmod, and_true]

/-- All aligned stretches of a block of `2 * h * blocks` cells, pair by pair. -/
theorem forLoop_pairs_apply (f : ℕ → α → α → α × α) (h blocks : ℕ) (A : ℕ → α) (x : ℕ) :
    forLoop blocks (fun j B => forLoop h (fun i B' => updatePair f h (2 * h * j) i B') B) A x =
      if x < 2 * h * blocks then pairUpdate f h A x else A x := by
  refine forLoop_induction
    (P := fun j (B : ℕ → α) => ∀ y, B y = if y < 2 * h * j then pairUpdate f h A y else A y)
    (s := A) ?_ ?_ x
  · intro y
    simp
  · intro j _ B hB y
    rw [forLoop_pairs_block]
    have hnext : 2 * h * (j + 1) = 2 * h * j + 2 * h := by ring
    by_cases hin : 2 * h * j ≤ y ∧ y < 2 * h * (j + 1)
    · rw [if_pos hin, if_pos hin.2, pairUpdate, pairUpdate]
      have hmod : y % (2 * h) = y - 2 * h * j := by
        have hy : y = 2 * h * j + (y - 2 * h * j) := by omega
        conv_lhs => rw [hy]
        rw [Nat.mul_add_mod, Nat.mod_eq_of_lt (by omega)]
      by_cases hlow : y % (2 * h) < h
      · have hself : B y = A y := by rw [hB, if_neg (by omega)]
        have hpartner : B (y + h) = A (y + h) := by rw [hB, if_neg (by omega)]
        rw [if_pos hlow, if_pos hlow, hself, hpartner]
      · have hself : B y = A y := by rw [hB, if_neg (by omega)]
        have hpartner : B (y - h) = A (y - h) := by rw [hB, if_neg (by omega)]
        rw [if_neg hlow, if_neg hlow, hself, hpartner]
    · rw [if_neg hin, hB y]
      have hiff : y < 2 * h * (j + 1) ↔ y < 2 * h * j := by omega
      simp only [hiff]

end InPlace

/-! ## Butterfly rounds -/

section Transform

variable {R : Type u} [CommRing R]

/-- One round of butterflies with twiddle factor `W` on stretches of length `2 * h`. -/
def butterfly (W : R) (h : ℕ) (A : ℕ → R) : ℕ → R :=
  pairUpdate (fun i lo hi => (lo + W ^ i * hi, lo - W ^ i * hi)) h A

/-- The sum that offset `t` of stretch `j` holds while `k` rounds remain, for stretches of
length `L` and the factor `W`. -/
def partialDft (a : ℕ → R) (k L : ℕ) (W : R) (j t : ℕ) : R :=
  ∑ u ∈ Finset.range L, a (bitRev k j + 2 ^ k * u) * W ^ (t * u)

/-- With all rounds still to run every stretch is a single reordered input. -/
theorem partialDft_one (a : ℕ → R) (k : ℕ) (W : R) (j : ℕ) :
    partialDft a k 1 W j 0 = a (bitRev k j) := by
  simp [partialDft]

/-- With no round left the single stretch is the transform. -/
theorem partialDft_zero (a : ℕ → R) (L : ℕ) (W : R) (t : ℕ) :
    partialDft a 0 L W 0 t = ∑ u ∈ Finset.range L, a u * W ^ (t * u) := by
  simp [partialDft]

theorem sum_range_two_mul (L : ℕ) (g : ℕ → R) :
    ∑ u ∈ Finset.range (2 * L), g u =
      ∑ u ∈ Finset.range L, g (2 * u) + ∑ u ∈ Finset.range L, g (2 * u + 1) := by
  induction L with
  | zero => simp
  | succ L ih =>
      have hlen : 2 * (L + 1) = 2 * L + 1 + 1 := by ring
      rw [hlen, Finset.sum_range_succ, Finset.sum_range_succ, ih, Finset.sum_range_succ,
        Finset.sum_range_succ]
      ring

/-- A stretch is the butterfly of its two halves. -/
theorem partialDft_succ (a : ℕ → R) (k L : ℕ) (W : R) (j t : ℕ) :
    partialDft a k (2 * L) W j t =
      partialDft a (k + 1) L (W ^ 2) (2 * j) t +
        W ^ t * partialDft a (k + 1) L (W ^ 2) (2 * j + 1) t := by
  rw [partialDft, sum_range_two_mul, partialDft, partialDft, Finset.mul_sum, bitRev_two_mul,
    bitRev_two_mul_add_one]
  congr 1
  · apply Finset.sum_congr rfl
    intro u _
    have hidx : bitRev k j + 2 ^ k * (2 * u) = bitRev k j + 2 ^ (k + 1) * u := by ring
    rw [hidx]
    ring
  · apply Finset.sum_congr rfl
    intro u _
    have hidx : bitRev k j + 2 ^ k * (2 * u + 1) = 2 ^ k + bitRev k j + 2 ^ (k + 1) * u := by ring
    rw [hidx]
    ring

/-- Shifting the offset by half a stretch leaves the inner sums alone. -/
theorem partialDft_add_half (a : ℕ → R) (k L : ℕ) {W : R} (hW : W ^ L = -1) (j t : ℕ) :
    partialDft a k L (W ^ 2) j (t + L) = partialDft a k L (W ^ 2) j t := by
  rw [partialDft, partialDft]
  apply Finset.sum_congr rfl
  intro u _
  have hperiod : (W ^ 2) ^ L = 1 := by
    rw [← pow_mul, mul_comm, pow_mul, hW]
    norm_num
  have hsplit : (W ^ 2) ^ ((t + L) * u) = (W ^ 2) ^ (t * u) * ((W ^ 2) ^ L) ^ u := by
    rw [add_mul, pow_add, pow_mul (W ^ 2) L u]
  rw [hsplit, hperiod, one_pow, mul_one]

/-- One round turns stretches of length `L` into stretches of length `2 * L`. -/
theorem butterfly_partialDft (a A : ℕ → R) (k L : ℕ) {W : R} (hW : W ^ L = -1)
    (hA : ∀ j < 2 ^ (k + 1), ∀ t < L, A (L * j + t) = partialDft a (k + 1) L (W ^ 2) j t)
    {j t : ℕ} (hj : j < 2 ^ k) (ht : t < 2 * L) :
    butterfly W L A (2 * L * j + t) = partialDft a k (2 * L) W j t := by
  have hmod : (2 * L * j + t) % (2 * L) = t := by
    rw [Nat.mul_add_mod, Nat.mod_eq_of_lt ht]
  have hpow : 2 ^ (k + 1) = 2 * 2 ^ k := by ring
  rw [butterfly, pairUpdate, hmod, partialDft_succ]
  by_cases hlow : t < L
  · have hself : 2 * L * j + t = L * (2 * j) + t := by ring
    have hpartner : 2 * L * j + t + L = L * (2 * j + 1) + t := by ring
    rw [if_pos hlow, hpartner, hself, hA _ (by omega) t hlow, hA _ (by omega) t hlow]
  · obtain ⟨s, rfl⟩ : ∃ s, t = s + L := ⟨t - L, by omega⟩
    have hs : s < L := by omega
    have hself : 2 * L * j + (s + L) = L * (2 * j + 1) + s := by ring
    have hpartner : 2 * L * j + (s + L) - L = L * (2 * j) + s := by
      have hmul : 2 * L * j = L * (2 * j) := by ring
      omega
    have hidx : s + L - L = s := by omega
    rw [if_neg hlow, hpartner, hself, hidx, hA _ (by omega) s hs, hA _ (by omega) s hs,
      partialDft_add_half a _ L hW, partialDft_add_half a _ L hW, pow_add, hW]
    ring

end Transform

end Pepper.Foundations.Fourier
