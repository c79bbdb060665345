import Mathlib.Data.Int.Order.Basic
import Mathlib.Tactic

/-!
# Binary search by a comparator

A binary search over the positions below a bound, given by the sign of the comparison of
each element with what is searched: `binarySearch` returns the position of an equal
element, or `-(r + 1)` for the position `r` where it would have to be inserted. Where the
signs are those of a strictly sorted list, that is the first position whose element is not
smaller (`binarySearch_eq`).
-/

set_option autoImplicit false

namespace Pepper.Foundations.SortedSearch

/-- The search between `low` and `high`, the latter not included. -/
def binarySearch (sign : ℕ → ℤ) (low high : ℕ) : ℤ :=
  if low < high then
    if sign ((low + high - 1) / 2) < 0 then binarySearch sign ((low + high - 1) / 2 + 1) high
    else if 0 < sign ((low + high - 1) / 2) then binarySearch sign low ((low + high - 1) / 2)
    else ((low + high - 1) / 2 : ℕ)
  else -((low : ℤ) + 1)
termination_by high - low

/-- The elements before `r` are smaller, that at `r` is not, and the later ones are larger. -/
structure FirstNotSmaller (sign : ℕ → ℤ) (n r : ℕ) : Prop where
  le : r ≤ n
  before : ∀ i < r, sign i < 0
  here : r < n → 0 ≤ sign r
  after : ∀ i, r < i → i < n → 0 < sign i

/-- By induction on the interval: it always contains `r`, and an upper end that is not the
bound is larger. -/
theorem binarySearch_between {sign : ℕ → ℤ} {n r : ℕ} (h : FirstNotSmaller sign n r)
    (low high : ℕ) (hlow : low ≤ r) (hr : r ≤ high) (hhigh : high ≤ n)
    (hend : high < n → 0 < sign high) :
    binarySearch sign low high = if r < n ∧ sign r = 0 then (r : ℤ) else -((r : ℤ) + 1) := by
  induction low, high using binarySearch.induct sign with
  | case1 low high hlt hneg ih =>
      rw [binarySearch, if_pos hlt, if_pos hneg]
      -- the probe was smaller, so the position is to the right of it
      have hmid : (low + high - 1) / 2 < r := by
        by_contra hge
        rcases Nat.lt_or_ge r ((low + high - 1) / 2) with hlt' | hle
        · have := h.after _ hlt' (by omega)
          omega
        · have heq : (low + high - 1) / 2 = r := by omega
          rw [heq] at hneg
          have := h.here (by omega)
          omega
      exact ih hmid hr hhigh hend
  | case2 low high hlt hneg hpos ih =>
      rw [binarySearch, if_pos hlt, if_neg hneg, if_pos hpos]
      -- the probe was larger: the position is the probe or to the left of it
      have hmid : r ≤ (low + high - 1) / 2 := by
        by_contra hgt
        have := h.before ((low + high - 1) / 2) (by omega)
        omega
      exact ih hlow hmid (by omega) fun _ => hpos
  | case3 low high hlt hneg hpos =>
      rw [binarySearch, if_pos hlt, if_neg hneg, if_neg hpos]
      have hzero : sign ((low + high - 1) / 2) = 0 := by omega
      -- the probe is the only position with an equal element
      have hmid : (low + high - 1) / 2 = r := by
        rcases lt_trichotomy ((low + high - 1) / 2) r with hlt' | heq | hgt
        · have := h.before _ hlt'
          omega
        · exact heq
        · have := h.after _ hgt (by omega)
          omega
      rw [hmid] at hzero ⊢
      rw [if_pos ⟨by omega, hzero⟩]
  | case4 low high hge =>
      rw [binarySearch, if_neg hge]
      -- the range is empty and its end is the position
      have hlr : low = r := by omega
      rw [if_neg, hlr]
      rintro ⟨hrn, hzero⟩
      have hrh : r = high := by omega
      have := hend (by omega)
      rw [← hrh] at this
      omega

/-- The search of the whole range. -/
theorem binarySearch_eq {sign : ℕ → ℤ} {n r : ℕ} (h : FirstNotSmaller sign n r) :
    binarySearch sign 0 n = if r < n ∧ sign r = 0 then (r : ℤ) else -((r : ℤ) + 1) :=
  binarySearch_between h 0 n (Nat.zero_le r) h.le le_rfl fun hlt => absurd hlt (lt_irrefl n)

/-! ## On any list -/

/-- A position that is returned is between the bounds, and its element is equal. -/
theorem binarySearch_found {sign : ℕ → ℤ} {low high : ℕ} (h : 0 ≤ binarySearch sign low high) :
    (binarySearch sign low high).toNat < high ∧
      sign (binarySearch sign low high).toNat = 0 := by
  induction low, high using binarySearch.induct sign with
  | case1 low high hlt hneg ih =>
      rw [binarySearch, if_pos hlt, if_pos hneg] at h ⊢
      exact ih h
  | case2 low high hlt hneg hpos ih =>
      rw [binarySearch, if_pos hlt, if_neg hneg, if_pos hpos] at h ⊢
      obtain ⟨hbound, hzero⟩ := ih h
      exact ⟨by omega, hzero⟩
  | case3 low high hlt hneg hpos =>
      rw [binarySearch, if_pos hlt, if_neg hneg, if_neg hpos]
      rw [Int.toNat_natCast]
      exact ⟨by omega, le_antisymm (not_lt.1 hpos) (not_lt.1 hneg)⟩
  | case4 low high hge =>
      rw [binarySearch, if_neg hge] at h
      omega

/-- A position for insertion is at most the upper bound. -/
theorem binarySearch_insert_le {sign : ℕ → ℤ} {low high : ℕ} (hle : low ≤ high)
    (h : binarySearch sign low high < 0) :
    (-(binarySearch sign low high + 1)).toNat ≤ high := by
  induction low, high using binarySearch.induct sign with
  | case1 low high hlt hneg ih =>
      rw [binarySearch, if_pos hlt, if_pos hneg] at h ⊢
      exact ih (by omega) h
  | case2 low high hlt hneg hpos ih =>
      rw [binarySearch, if_pos hlt, if_neg hneg, if_pos hpos] at h ⊢
      have hbound := ih (by omega) h
      omega
  | case3 low high hlt hneg hpos =>
      rw [binarySearch, if_pos hlt, if_neg hneg, if_neg hpos] at h
      omega
  | case4 low high hge =>
      rw [binarySearch, if_neg hge]
      omega

/-- Only the signs count. -/
theorem binarySearch_congr {sign sign' : ℕ → ℤ} {low high : ℕ}
    (h : ∀ i < high, (sign i < 0 ↔ sign' i < 0) ∧ (0 < sign i ↔ 0 < sign' i)) :
    binarySearch sign low high = binarySearch sign' low high := by
  induction low, high using binarySearch.induct sign with
  | case1 low high hlt hneg ih =>
      have hmid := h ((low + high - 1) / 2) (by omega)
      rw [binarySearch.eq_def sign low high, binarySearch.eq_def sign' low high,
        if_pos hlt, if_pos hlt, if_pos hneg, if_pos (hmid.1.1 hneg)]
      exact ih h
  | case2 low high hlt hneg hpos ih =>
      have hmid := h ((low + high - 1) / 2) (by omega)
      rw [binarySearch.eq_def sign low high, binarySearch.eq_def sign' low high,
        if_pos hlt, if_pos hlt, if_neg hneg, if_pos hpos,
        if_neg (mt hmid.1.2 hneg), if_pos (hmid.2.1 hpos)]
      exact ih fun i hi => h i (by omega)
  | case3 low high hlt hneg hpos =>
      have hmid := h ((low + high - 1) / 2) (by omega)
      rw [binarySearch.eq_def sign low high, binarySearch.eq_def sign' low high,
        if_pos hlt, if_pos hlt, if_neg hneg, if_neg hpos,
        if_neg (mt hmid.1.2 hneg), if_neg (mt hmid.2.2 hpos)]
  | case4 low high hge =>
      rw [binarySearch.eq_def sign low high, binarySearch.eq_def sign' low high,
        if_neg hge, if_neg hge]

end Pepper.Foundations.SortedSearch
