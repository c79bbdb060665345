import Pepper.Foundations.Loop
import Mathlib.Algebra.BigOperators.Group.Finset.Basic
import Mathlib.Algebra.BigOperators.Intervals
import Mathlib.Algebra.BigOperators.Ring.Finset
import Mathlib.Algebra.Order.BigOperators.Group.Finset
import Mathlib.Logic.Function.Basic
import Mathlib.Tactic.Linarith
import Mathlib.Tactic.Ring

/-!
# Digits with deferred carries

A number in base `B` is kept as digits and, next to them, carries: `carries k` is still to be added
to digit `k`. `deposit` adds to a digit and defers the overflow, `settle` adds the carry that waits
at a digit. A sweep settles the digits from the top down, so a carry moves up by one digit in a
sweep.

`total` counts both digits and carries, with the carry out of the top digit. It grows by what is
deposited (`total_deposit`) and no sweep changes it (`total_sweepDown`). After `r` sweeps no carry
waits at the first `r` digits (`sweepDown_settled`), so repeated sweeps come to an end and leave the
digits of the number (`total_of_settled`).
-/

set_option autoImplicit false

namespace Pepper.Foundations.CarrySave

open Finset
open Pepper.Foundations.Loop

universe u

/-! ## Loops that count down, and loops without a bound -/

section Loops

variable {σ : Type u}

/-- The loop `for (k = n; k >= 1; k--) body k`. -/
def forDown : ℕ → (ℕ → σ → σ) → σ → σ
  | 0, _, s => s
  | k + 1, body, s => forDown k body (body (k + 1) s)

/-- The loop `while (1) { if (done) break; body; }`, with at most `fuel` tests. -/
def loopUntil (done : σ → Bool) (body : σ → σ) : ℕ → σ → Option σ
  | 0, _ => none
  | fuel + 1, s => if done s then some s else loopUntil done body fuel (body s)

/-- A loop whose test holds after `n` passes at the latest ends, in a state with the invariant. -/
theorem loopUntil_spec {done : σ → Bool} {body : σ → σ} {P : ℕ → σ → Prop} {n : ℕ}
    (step : ∀ r s, P r s → P (r + 1) (body s)) (stop : ∀ s, P n s → done s = true)
    {fuel r : ℕ} {s : σ} (start : P r s) (hr : r ≤ n) (hfuel : n < fuel + r) :
    ∃ k t, loopUntil done body fuel s = some t ∧ P k t ∧ done t = true := by
  induction fuel generalizing r s with
  | zero => exact absurd hfuel (by omega)
  | succ fuel ih =>
      rw [loopUntil]
      by_cases hdone : done s = true
      · exact ⟨r, s, if_pos hdone, start, hdone⟩
      · rw [if_neg hdone]
        have hlt : r < n := by
          refine lt_of_le_of_ne hr fun heq => hdone (stop s ?_)
          rwa [← heq]
        exact ih (step r s start) hlt (by omega)

/-- Invariant rule for a loop over the indices below `n` whose passes may fail. -/
theorem foldlM_range_spec {f : σ → ℕ → Option σ} {P : ℕ → σ → Prop} {n : ℕ} {s : σ}
    (start : P 0 s) (step : ∀ i, i < n → ∀ t, P i t → ∃ t', f t i = some t' ∧ P (i + 1) t') :
    ∃ t, (List.range n).foldlM f s = some t ∧ P n t := by
  induction n with
  | zero => exact ⟨s, rfl, start⟩
  | succ n ih =>
      obtain ⟨t, ht, hP⟩ := ih fun i hi => step i (Nat.lt_succ_of_lt hi)
      obtain ⟨t', ht', hP'⟩ := step n (Nat.lt_succ_self n) t hP
      refine ⟨t', ?_, hP'⟩
      rw [List.range_succ, List.foldlM_append, ht]
      simpa using ht'

end Loops

/-! ## Digits and carries -/

/-- `carries k` waits to be added to digit `k`. -/
structure Deferred where
  digits : ℕ → ℕ
  carries : ℕ → ℕ

/-- The number that the first `n` digits spell. -/
def value (B n : ℕ) (d : ℕ → ℕ) : ℕ := ∑ k ∈ range n, d k * B ^ k

/-- The number that `n` digits and the carries at the digits 1 to `n` stand for. -/
def total (B n : ℕ) (s : Deferred) : ℕ :=
  value B n s.digits + ∑ k ∈ range n, s.carries (k + 1) * B ^ (k + 1)

/-- Adding `y` to digit `k`; the overflow waits at digit `k + 1`. -/
def deposit (B k y : ℕ) (s : Deferred) : Deferred where
  digits := Function.update s.digits k ((s.digits k + y) % B)
  carries := Function.update s.carries (k + 1) (s.carries (k + 1) + (s.digits k + y) / B)

/-- Adding to digit `k` the carry that waits there. -/
def settle (B k : ℕ) (s : Deferred) : Deferred where
  digits := Function.update s.digits k ((s.digits k + s.carries k) % B)
  carries := Function.update (Function.update s.carries k 0) (k + 1)
    (s.carries (k + 1) + (s.digits k + s.carries k) / B)

/-- A sweep over the digits `n` down to 1. -/
def sweepDown (B n : ℕ) (s : Deferred) : Deferred := forDown n (settle B) s

variable {B : ℕ}

@[simp] theorem value_zero (d : ℕ → ℕ) : value B 0 d = 0 := rfl

theorem value_succ (n : ℕ) (d : ℕ → ℕ) : value B (n + 1) d = value B n d + d n * B ^ n :=
  sum_range_succ _ n

theorem value_congr {n : ℕ} {d e : ℕ → ℕ} (h : ∀ k < n, d k = e k) : value B n d = value B n e :=
  sum_congr rfl fun k hk => by rw [h k (mem_range.1 hk)]

theorem value_lt {n : ℕ} {d : ℕ → ℕ} (h : ∀ k < n, d k < B) : value B n d < B ^ n := by
  induction n with
  | zero => exact Nat.one_pos
  | succ n ih =>
      rw [value_succ]
      have hlow := ih fun k hk => h k (Nat.lt_succ_of_lt hk)
      calc value B n d + d n * B ^ n < B ^ n + d n * B ^ n := Nat.add_lt_add_right hlow _
        _ = (d n + 1) * B ^ n := by ring
        _ ≤ B * B ^ n := Nat.mul_le_mul_right _ (h n (Nat.lt_succ_self n))
        _ = B ^ (n + 1) := (pow_succ' B n).symm

/-- The digits from `m` on. -/
theorem value_split (m n : ℕ) (d : ℕ → ℕ) :
    value B (m + n) d = value B m d + B ^ m * value B n fun k => d (m + k) := by
  rw [value, sum_range_add, value, value, mul_sum]
  congr 1
  refine sum_congr rfl fun k _ => ?_
  rw [pow_add]
  ring

theorem value_add (n : ℕ) (d e : ℕ → ℕ) :
    value B n (fun k => d k + e k) = value B n d + value B n e := by
  rw [value, value, value, ← sum_add_distrib]
  exact sum_congr rfl fun k _ => add_mul _ _ _

/-- The digits up to `B - 1`. -/
theorem value_compl {n : ℕ} {d : ℕ → ℕ} (h : ∀ k < n, d k < B) :
    value B n (fun k => B - 1 - d k) + value B n d + 1 = B ^ n := by
  induction n with
  | zero => rfl
  | succ n ih =>
      have hlow := ih fun k hk => h k (Nat.lt_succ_of_lt hk)
      have hd := h n (Nat.lt_succ_self n)
      have htop : (B - 1 - d n) * B ^ n + d n * B ^ n + B ^ n = B ^ (n + 1) := by
        rw [pow_succ', ← add_mul, ← Nat.succ_mul]
        congr 1
        omega
      rw [value_succ, value_succ]
      omega

/-- Digit `k` of a number. -/
theorem value_div_mod {n k : ℕ} {d : ℕ → ℕ} (h : ∀ j < n, d j < B) (hk : k < n) :
    value B n d / B ^ k % B = d k := by
  obtain ⟨m, rfl⟩ := Nat.exists_eq_add_of_lt hk
  have hB : 0 < B := (Nat.zero_le _).trans_lt (h k hk)
  have hlow : value B k d < B ^ k := value_lt fun j hj => h j (hj.trans hk)
  rw [Nat.add_assoc, value_split, Nat.add_mul_div_left _ _ (pow_pos hB k),
    Nat.div_eq_of_lt hlow, Nat.zero_add, Nat.add_comm m 1, value_split 1 m]
  have hfirst : value B 1 (fun j => d (k + j)) = d k := by simp [value]
  rw [hfirst, pow_one, Nat.add_mul_mod_self_left, Nat.mod_eq_of_lt (h k hk)]

/-- The first `n` digits of a number spell its residue. -/
theorem value_digits (n u : ℕ) : value B n (fun k => u / B ^ k % B) = u % B ^ n := by
  induction n with
  | zero => rw [value_zero, pow_zero, Nat.mod_one]
  | succ n ih => rw [value_succ, ih, Nat.mod_pow_succ, Nat.mul_comm (u / B ^ n % B)]

/-- Bits `j` to `j + w` of digit `i`, for digits of `W` bits. -/
theorem digit_window {W w i j u : ℕ} (h : j + w ≤ W) :
    u / (2 ^ W) ^ i % 2 ^ W / 2 ^ j % 2 ^ w = u / 2 ^ (W * i + j) % 2 ^ w := by
  obtain ⟨r, rfl⟩ := Nat.exists_eq_add_of_le h
  have hsplit : 2 ^ (j + w + r) = 2 ^ j * (2 ^ w * 2 ^ r) := by
    rw [pow_add, pow_add, Nat.mul_assoc]
  rw [← pow_mul, pow_add 2 (_ * i), ← Nat.div_div_eq_div_mul, hsplit,
    Nat.mod_mul_right_div_self, Nat.mod_mul_right_mod]

/-- The sum over the digits after digit `k` is written. -/
theorem value_update {n k : ℕ} (hk : k < n) (d : ℕ → ℕ) (v : ℕ) :
    value B n (Function.update d k v) + d k * B ^ k = value B n d + v * B ^ k := by
  induction n with
  | zero => exact absurd hk (Nat.not_lt_zero k)
  | succ n ih =>
      rw [value_succ, value_succ]
      rcases Nat.lt_succ_iff_lt_or_eq.1 hk with hlt | rfl
      · rw [Function.update_of_ne hlt.ne']
        have := ih hlt
        omega
      · rw [Function.update_self]
        have hlow : value B k (Function.update d k v) = value B k d :=
          value_congr fun j hj => Function.update_of_ne hj.ne _ _
        rw [hlow]
        omega

/-! ## What the operations do to the total -/

/-- The carries, each at its digit. -/
def waiting (B n : ℕ) (c : ℕ → ℕ) : ℕ := ∑ k ∈ range n, c (k + 1) * B ^ (k + 1)

theorem waiting_eq_value (n : ℕ) (c : ℕ → ℕ) :
    waiting B n c + c 0 = value B (n + 1) c := by
  rw [value, sum_range_succ', pow_zero, mul_one]
  rfl

theorem waiting_update {n k : ℕ} (h1 : 1 ≤ k) (hk : k ≤ n) (c : ℕ → ℕ) (v : ℕ) :
    waiting B n (Function.update c k v) + c k * B ^ k = waiting B n c + v * B ^ k := by
  have h := value_update (B := B) (Nat.lt_succ_of_le hk) c v
  rw [← waiting_eq_value, ← waiting_eq_value, Function.update_of_ne (by omega)] at h
  omega

theorem total_eq (n : ℕ) (s : Deferred) :
    total B n s = value B n s.digits + waiting B n s.carries := rfl

theorem total_deposit {n k : ℕ} (hk : k < n) (y : ℕ) (s : Deferred) :
    total B n (deposit B k y s) = total B n s + y * B ^ k := by
  have hdigit := value_update (B := B) hk s.digits ((s.digits k + y) % B)
  have hcarry := waiting_update (B := B) (k := k + 1) (Nat.le_add_left 1 k) hk s.carries
    (s.carries (k + 1) + (s.digits k + y) / B)
  have hsplit : (s.digits k + y) % B * B ^ k + (s.digits k + y) / B * B ^ (k + 1) =
      s.digits k * B ^ k + y * B ^ k := by
    rw [pow_succ', ← mul_assoc, ← add_mul, ← add_mul, mul_comm _ B, Nat.mod_add_div]
  rw [add_mul] at hcarry
  rw [total_eq, total_eq, deposit]
  dsimp only
  linarith

theorem total_settle {n k : ℕ} (h1 : 1 ≤ k) (hk : k < n) (s : Deferred) :
    total B n (settle B k s) = total B n s := by
  have hdigit := value_update (B := B) hk s.digits ((s.digits k + s.carries k) % B)
  have hclear := waiting_update (B := B) h1 hk.le s.carries 0
  have hcarry := waiting_update (B := B) (k := k + 1) (Nat.le_add_left 1 k) hk
    (Function.update s.carries k 0) (s.carries (k + 1) + (s.digits k + s.carries k) / B)
  have hsplit : (s.digits k + s.carries k) % B * B ^ k +
      (s.digits k + s.carries k) / B * B ^ (k + 1) =
        s.digits k * B ^ k + s.carries k * B ^ k := by
    rw [pow_succ', ← mul_assoc, ← add_mul, ← add_mul, mul_comm _ B, Nat.mod_add_div]
  rw [Function.update_of_ne (Nat.succ_ne_self k), add_mul] at hcarry
  rw [total_eq, total_eq, settle]
  dsimp only
  linarith

theorem total_sweepDown {n m : ℕ} (hm : m < n) (s : Deferred) :
    total B n (sweepDown B m s) = total B n s := by
  rw [sweepDown]
  induction m generalizing s with
  | zero => rfl
  | succ m ih =>
      rw [forDown, ih (Nat.lt_of_succ_lt hm)]
      exact total_settle (Nat.succ_le_succ (Nat.zero_le m)) hm s

/-! ## Sweeps -/

theorem sweepDown_succ (n : ℕ) (s : Deferred) :
    sweepDown B (n + 1) s = sweepDown B n (settle B (n + 1) s) := rfl

theorem settle_digits_lt {k : ℕ} {s : Deferred} (h : ∀ j, s.digits j < B) (j : ℕ) :
    (settle B k s).digits j < B := by
  by_cases hj : j = k
  · subst hj
    simp only [settle, Function.update_self]
    exact Nat.mod_lt _ ((Nat.zero_le _).trans_lt (h 0))
  · simp only [settle, Function.update_of_ne hj]
    exact h j

theorem settle_digits_of_ne {j k : ℕ} (h : j ≠ k) (s : Deferred) :
    (settle B k s).digits j = s.digits j := Function.update_of_ne h _ _

@[simp] theorem settle_carries_self (k : ℕ) (s : Deferred) : (settle B k s).carries k = 0 := by
  simp only [settle]
  rw [Function.update_of_ne (Nat.succ_ne_self k).symm, Function.update_self]

theorem settle_carries_of_ne {j k : ℕ} (h : j ≠ k) (h' : j ≠ k + 1) (s : Deferred) :
    (settle B k s).carries j = s.carries j := by
  simp only [settle]
  rw [Function.update_of_ne h', Function.update_of_ne h]

theorem sweepDown_digits_lt {n : ℕ} {s : Deferred} (h : ∀ k, s.digits k < B) (k : ℕ) :
    (sweepDown B n s).digits k < B := by
  induction n generalizing s with
  | zero => exact h k
  | succ n ih => exact ih fun j => settle_digits_lt h j

/-- A sweep leaves the carries behind the next digit alone. -/
theorem sweepDown_carries_above {n k : ℕ} (hk : n + 1 < k) (s : Deferred) :
    (sweepDown B n s).carries k = s.carries k := by
  induction n generalizing s with
  | zero => rfl
  | succ n ih =>
      rw [sweepDown_succ, ih (by omega), settle_carries_of_ne (by omega) (by omega)]

theorem sweepDown_carries_zero (n : ℕ) (s : Deferred) :
    (sweepDown B n s).carries 0 = s.carries 0 := by
  induction n generalizing s with
  | zero => rfl
  | succ n ih => rw [sweepDown_succ, ih, settle_carries_of_ne (by omega) (by omega)]

/-- The carry behind the first settled digit. -/
theorem sweepDown_carries_next (n : ℕ) (s : Deferred) :
    (sweepDown B (n + 1) s).carries (n + 2) =
      s.carries (n + 2) + (s.digits (n + 1) + s.carries (n + 1)) / B := by
  rw [sweepDown_succ, sweepDown_carries_above (Nat.lt_succ_self _)]
  exact Function.update_self _ _ _

/-- No carry waits at the first `r` of the digits 1 to `n`. -/
def Settled (n r : ℕ) (s : Deferred) : Prop := ∀ k, 1 ≤ k → k ≤ r → k ≤ n → s.carries k = 0

/-- A sweep settles one digit more. -/
theorem sweepDown_settled {n r : ℕ} {s : Deferred} (hdigits : ∀ k, s.digits k < B)
    (h : Settled n r s) : Settled n (r + 1) (sweepDown B n s) := by
  induction n generalizing s with
  | zero => exact fun k h1 _ hk => absurd hk (by omega)
  | succ n ih =>
      intro k h1 hr hk
      rcases Nat.lt_succ_iff_lt_or_eq.1 (Nat.lt_succ_of_le hk) with hlt | rfl
      · refine ih (fun j => settle_digits_lt hdigits j) ?_ k h1 hr (Nat.lt_succ_iff.1 hlt)
        intro j hj1 hjr hjn
        rw [settle_carries_of_ne (by omega) (by omega)]
        exact h j hj1 hjr (Nat.le_succ_of_le hjn)
      · -- digit `n + 1` is settled first and receives what digit `n` has too much: nothing
        rw [sweepDown_succ]
        cases n with
        | zero => exact settle_carries_self 1 s
        | succ m =>
            have hwaits : s.carries (m + 1) = 0 := h (m + 1) (by omega) (by omega) (by omega)
            rw [sweepDown_carries_next, settle_carries_self, settle_digits_of_ne (by omega),
              settle_carries_of_ne (by omega) (by omega), hwaits, Nat.add_zero,
              Nat.div_eq_of_lt (hdigits _)]

/-- With nothing waiting inside, the digits and the carry out of the top are the number. -/
theorem total_of_settled {n : ℕ} {s : Deferred} (hn : 1 ≤ n) (h : Settled (n - 1) (n - 1) s) :
    total B n s = value B n s.digits + s.carries n * B ^ n := by
  obtain ⟨m, rfl⟩ := Nat.exists_eq_add_of_le' hn
  rw [total_eq, waiting, sum_range_succ]
  have hinner : ∑ k ∈ range m, s.carries (k + 1) * B ^ (k + 1) = 0 := by
    refine sum_eq_zero fun k hk => ?_
    have hkm := mem_range.1 hk
    rw [h (k + 1) (by omega) (by omega) (by omega), zero_mul]
  rw [hinner, zero_add]

/-- The carry out of the top is bounded by the number. -/
theorem carry_le_total {n : ℕ} (hn : 1 ≤ n) (s : Deferred) :
    s.carries n * B ^ n ≤ total B n s := by
  obtain ⟨m, rfl⟩ := Nat.exists_eq_add_of_le' hn
  rw [total_eq, waiting, sum_range_succ]
  omega

/-- A total below `B ^ (n + 1)` bounds the carry out of the top by a digit. -/
theorem carry_lt_of_total_lt {n : ℕ} {s : Deferred} (hn : 1 ≤ n)
    (h : total B n s < B ^ (n + 1)) : s.carries n < B := by
  have hle := carry_le_total (B := B) hn s
  rw [pow_succ'] at h
  exact lt_of_mul_lt_mul_right (hle.trans_lt h) (Nat.zero_le _)

theorem value_mono {m n : ℕ} (h : m ≤ n) (d : ℕ → ℕ) : value B m d ≤ value B n d := by
  obtain ⟨k, rfl⟩ := Nat.exists_eq_add_of_le h
  rw [value_split]
  exact Nat.le_add_right _ _

/-- Into an empty counter goes a carry of at most 1. -/
theorem settle_carry_lt {k : ℕ} {s : Deferred} (hB : 1 < B) (hempty : s.carries (k + 1) = 0)
    (hdigit : s.digits k < B) (hcarry : s.carries k < B) :
    (settle B k s).carries (k + 1) < B := by
  have hone : (s.digits k + s.carries k) / B < 2 := Nat.div_lt_of_lt_mul (by omega)
  simp only [settle, Function.update_self, hempty]
  omega

/-- After a sweep every inner counter is below `B` again. -/
theorem sweepDown_carries_lt {n : ℕ} {s : Deferred} (hB : 1 < B) (hdigits : ∀ k, s.digits k < B)
    (hcarries : ∀ k ≤ n, s.carries k < B) : ∀ k ≤ n, (sweepDown B n s).carries k < B := by
  induction n generalizing s with
  | zero => exact hcarries
  | succ n ih =>
      intro k hk
      rcases Nat.lt_succ_iff_lt_or_eq.1 (Nat.lt_succ_of_le hk) with hlt | rfl
      · refine ih (fun j => settle_digits_lt hdigits j) ?_ k (Nat.lt_succ_iff.1 hlt)
        intro j hj
        rw [settle_carries_of_ne (by omega) (by omega)]
        exact hcarries j (Nat.le_succ_of_le hj)
      · rw [sweepDown_succ]
        cases n with
        | zero =>
            refine lt_of_eq_of_lt (settle_carries_self 1 s) (Nat.zero_lt_of_lt hB)
        | succ m =>
            have hone : (s.digits (m + 1) + s.carries (m + 1)) / B < 2 :=
              Nat.div_lt_of_lt_mul (by
                have := hdigits (m + 1)
                have := hcarries (m + 1) (by omega)
                omega)
            rw [sweepDown_carries_next, settle_carries_self, settle_digits_of_ne (by omega),
              settle_carries_of_ne (by omega) (by omega)]
            omega

/-- Sums taken digit by digit, with the overflow of each digit as the carry at the next one. -/
theorem total_digitwise (n : ℕ) (d : ℕ → ℕ) {s : Deferred}
    (hdigits : ∀ k < n, s.digits k = d k % B) (hcarries : ∀ k < n, s.carries (k + 1) = d k / B) :
    total B n s = value B n d := by
  rw [total, value, value, ← sum_add_distrib]
  refine sum_congr rfl fun k hk => ?_
  rw [hdigits k (mem_range.1 hk), hcarries k (mem_range.1 hk), pow_succ', ← mul_assoc, ← add_mul,
    mul_comm _ B, Nat.mod_add_div]

/-! ## Implementations of the sweep -/

section Implementation

variable {σ : Type u} {I : σ → Prop} {abs : σ → Deferred} {body : ℕ → σ → σ} {n : ℕ}

/-- The pass `body k` of a loop over states with the invariant `I` settles digit `k`, as long as
the counter at the next digit stays below `B`. -/
def Settles (B n : ℕ) (I : σ → Prop) (abs : σ → Deferred) (body : ℕ → σ → σ) : Prop :=
  ∀ k w, 1 ≤ k → k < n → I w → (∀ j, (abs w).digits j < B) → (abs w).carries k < B →
    (settle B k (abs w)).carries (k + 1) < B →
      abs (body k w) = settle B k (abs w) ∧ I (body k w)

/-- A loop of such passes is a sweep. -/
theorem abs_forDown (hbody : Settles B n I abs body) (hB : 1 < B) {m : ℕ} (hm : m < n) {w : σ}
    (hI : I w) (hdigits : ∀ k, (abs w).digits k < B) (hcarries : ∀ k ≤ m, (abs w).carries k < B)
    (htop : m = 0 ∨ (settle B m (abs w)).carries (m + 1) < B) :
    abs (forDown m body w) = sweepDown B m (abs w) ∧ I (forDown m body w) := by
  induction m generalizing w with
  | zero => exact ⟨rfl, hI⟩
  | succ m ih =>
      obtain ⟨hstep, hI'⟩ := hbody (m + 1) w (by omega) hm hI hdigits (hcarries (m + 1) le_rfl)
        (htop.resolve_left (Nat.succ_ne_zero m))
      have hdigits' : ∀ k, (settle B (m + 1) (abs w)).digits k < B :=
        fun k => settle_digits_lt hdigits k
      have hcarries' : ∀ k ≤ m, (settle B (m + 1) (abs w)).carries k < B := by
        intro k hk
        rw [settle_carries_of_ne (by omega) (by omega)]
        exact hcarries k (Nat.le_succ_of_le hk)
      rw [forDown, sweepDown_succ, ← hstep]
      rw [← hstep] at hdigits' hcarries'
      refine ih (Nat.lt_of_succ_lt hm) hI' hdigits' hcarries' (Or.inr ?_)
      -- the counter at digit `m + 1` was just cleared, so it becomes 0 or 1
      refine settle_carry_lt hB ?_ (hdigits' m) (hcarries' m le_rfl)
      rw [hstep]
      exact settle_carries_self (m + 1) _

/-- What the sweeps of an implementation keep. -/
structure Sweeping (B n T r : ℕ) (s : Deferred) : Prop where
  digits : ∀ k, s.digits k < B
  carries : ∀ k < n, s.carries k < B
  zero : s.carries 0 = 0
  total : total B n s = T
  settled : Settled (n - 1) r s

/-- Repeated sweeps end, and leave the number in the digits and the carry out of the top. -/
theorem loopUntil_sweeps (hbody : Settles B n I abs body) (hB : 1 < B) (hn : 1 ≤ n) {T fuel : ℕ}
    (hT : T < B ^ (n + 1)) (hfuel : n ≤ fuel) {done : σ → Bool}
    (hdone : ∀ w, (abs w).carries 0 = 0 →
      (done w = true ↔ Settled (n - 1) (n - 1) (abs w)))
    {w : σ} (hI : I w) (hw : Sweeping B n T 0 (abs w)) :
    ∃ v, loopUntil done (forDown (n - 1) body) fuel w = some v ∧ I v ∧
      Sweeping B n T (n - 1) (abs v) := by
  obtain ⟨m, rfl⟩ := Nat.exists_eq_add_of_le' hn
  have hstep : ∀ r v, I v ∧ Sweeping B (m + 1) T r (abs v) →
      I (forDown m body v) ∧ Sweeping B (m + 1) T (r + 1) (abs (forDown m body v)) := by
    rintro r v ⟨hIv, hv⟩
    -- the carry out of the top column is small, since the whole number is
    have htop : m = 0 ∨ (settle B m (abs v)).carries (m + 1) < B := by
      by_cases hm : m = 0
      · exact Or.inl hm
      · right
        refine carry_lt_of_total_lt hn ?_
        rw [total_settle (by omega) (Nat.lt_succ_self m), hv.total]
        exact hT
    have hcarries : ∀ k ≤ m, (abs v).carries k < B :=
      fun k hk => hv.carries k (Nat.lt_succ_of_le hk)
    obtain ⟨hsweep, hI'⟩ :=
      abs_forDown hbody hB (Nat.lt_succ_self m) hIv hv.digits hcarries htop
    rw [hsweep]
    exact ⟨hI',
      { digits := fun k => sweepDown_digits_lt hv.digits k
        carries := fun k hk =>
          sweepDown_carries_lt hB hv.digits hcarries k (Nat.lt_succ_iff.1 hk)
        zero := (sweepDown_carries_zero m _).trans hv.zero
        total := (total_sweepDown (Nat.lt_succ_self m) _).trans hv.total
        settled := sweepDown_settled hv.digits hv.settled }⟩
  -- one sweep settles one more column from the bottom, so `n` sweeps are enough
  obtain ⟨r, v, hv, ⟨hIv, hsweeping⟩, hstop⟩ := loopUntil_spec
    (P := fun r v => I v ∧ Sweeping B (m + 1) T r (abs v)) (n := m) (r := 0) hstep
    (fun v hv => (hdone v hv.2.zero).2 hv.2.settled) ⟨hI, hw⟩ (Nat.zero_le m) hfuel
  exact ⟨v, hv, hIv, hsweeping.digits, hsweeping.carries, hsweeping.zero, hsweeping.total,
    (hdone v hsweeping.zero).1 hstop⟩

end Implementation

/-! ## Adding a multiple -/

/-- The product of a digit with `y`, its high part one digit further up. -/
def depositProduct (B k x y : ℕ) (s : Deferred) : Deferred :=
  deposit B k (x * y % B) (deposit B (k + 1) (x * y / B) s)

/-- `y` times the number with the `m` digits `x`, shifted up by `j` digits. -/
def addRow (B m : ℕ) (x : ℕ → ℕ) (y j : ℕ) (s : Deferred) : Deferred :=
  forLoop m (fun i s => depositProduct B (i + j) (x i) y s) s

theorem deposit_digits_lt {k y : ℕ} {s : Deferred} (h : ∀ i, s.digits i < B) (i : ℕ) :
    (deposit B k y s).digits i < B := by
  by_cases hi : i = k
  · subst hi
    simp only [deposit, Function.update_self]
    exact Nat.mod_lt _ ((Nat.zero_le _).trans_lt (h 0))
  · simp only [deposit, Function.update_of_ne hi]
    exact h i

/-- A deposit of a digit adds at most 1 to the carry at the next digit, and nothing elsewhere. -/
theorem deposit_carries_le {k y : ℕ} {s : Deferred} (h : ∀ i, s.digits i < B) (hy : y < B)
    (i : ℕ) : (deposit B k y s).carries i ≤ s.carries i + if i = k + 1 then 1 else 0 := by
  by_cases hi : i = k + 1
  · subst hi
    have hdigit := h k
    have hone : (s.digits k + y) / B ≤ 1 := by
      refine Nat.lt_succ_iff.1 (Nat.div_lt_of_lt_mul ?_)
      omega
    simp only [deposit, Function.update_self, if_true]
    omega
  · simp only [deposit, Function.update_of_ne hi, if_neg hi, Nat.add_zero, le_refl]

theorem product_high_lt {x y : ℕ} (hx : x < B) (hy : y < B) : x * y / B < B :=
  Nat.div_lt_of_lt_mul (Nat.mul_lt_mul'' hx hy)

theorem total_depositProduct {n k : ℕ} (hk : k + 1 < n) (x y : ℕ) (s : Deferred) :
    total B n (depositProduct B k x y s) = total B n s + x * y * B ^ k := by
  rw [depositProduct, total_deposit (Nat.lt_of_succ_lt hk), total_deposit hk, Nat.add_assoc]
  congr 1
  calc x * y / B * B ^ (k + 1) + x * y % B * B ^ k
      = (B * (x * y / B) + x * y % B) * B ^ k := by ring
    _ = x * y * B ^ k := by rw [Nat.div_add_mod]

/-- What a row has done after `i` of its digits. -/
structure RowProgress (B n : ℕ) (x : ℕ → ℕ) (y j : ℕ) (s : Deferred) (i : ℕ) (d : Deferred) :
    Prop where
  digits : ∀ k, d.digits k < B
  carries : ∀ k, d.carries k ≤
    s.carries k + (if k < i + j + 2 then 1 else 0) + if k < i + j + 1 then 1 else 0
  zero : d.carries 0 = s.carries 0
  total : total B n d = total B n s + value B i x * y * B ^ j

section Rows

variable {n m : ℕ} {x : ℕ → ℕ} {y j : ℕ} {s : Deferred}

theorem rowProgress_zero (h : ∀ k, s.digits k < B) : RowProgress B n x y j s 0 s where
  digits := h
  carries k := by omega
  zero := rfl
  total := by simp

/-- One digit of a row. The carry counters grow by at most 2 over the whole row, since a digit
receives one low and one high part. -/
theorem RowProgress.step {i : ℕ} {d : Deferred} (h : RowProgress B n x y j s i d)
    (hn : i + j + 1 < n) (hx : x i < B) (hy : y < B) :
    RowProgress B n x y j s (i + 1) (depositProduct B (i + j) (x i) y d) where
  digits k := deposit_digits_lt (fun k => deposit_digits_lt h.digits k) k
  carries k := by
    have hB : 0 < B := (Nat.zero_le _).trans_lt hy
    have hhigh := deposit_carries_le (k := i + j + 1) h.digits (product_high_lt hx hy) k
    have hlow := deposit_carries_le (k := i + j)
      (fun k => deposit_digits_lt (k := i + j + 1) (y := x i * y / B) h.digits k)
      (Nat.mod_lt (x i * y) hB) k
    have hold := h.carries k
    rw [depositProduct]
    split_ifs at * <;> omega
  zero := by
    rw [depositProduct, deposit, deposit]
    dsimp only
    rw [Function.update_of_ne (by omega), Function.update_of_ne (by omega), h.zero]
  total := by
    rw [total_depositProduct hn, h.total, value_succ, pow_add]
    ring

/-- A row adds the multiple. -/
theorem rowProgress_addRow (hs : ∀ k, s.digits k < B) (hn : m + j < n) (hx : ∀ i < m, x i < B)
    (hy : y < B) : RowProgress B n x y j s m (addRow B m x y j s) := by
  refine forLoop_induction (rowProgress_zero hs) ?_
  intro i hi d hd
  exact hd.step (by omega) (hx i hi) hy

end Rows

end Pepper.Foundations.CarrySave
