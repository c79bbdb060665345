import Pepper.Foundations.CarrySave
import Mathlib.Data.Nat.ModEq
import Mathlib.Data.Nat.Prime.Basic
import Mathlib.Algebra.Order.Ring.Nat

/-!
# Montgomery multiplication on words

`mp_mul_cpu`, `mp_sub_cpu` and `mp_montmul_cpu` work on arrays of words. An addition or
subtraction that overflows counts its carry or borrow in a second array, and the counters are
pushed up by repeated sweeps until all of them are zero. The three routines number the counters
differently: in `mp_mul_cpu` `c[k]` waits at word `k`, in the other two it comes out of word `k`.

Every routine is given with the counters as words of `wrap`: modulo `2 ^ W` in the code, and
without a bound. `montgomery_words` states that both agree, so no counter wraps, that all loops
end, and that the results are the product, the difference and the Montgomery product, wherever in
memory the result is written.
-/

set_option autoImplicit false

namespace Pepper.LibGpu.MontWords

open Pepper.Foundations.Loop
open Pepper.Foundations.CarrySave

/-! ## The macros -/

/-- An array of words and the array of its carry or borrow counters. -/
structure Words where
  t : ℕ → ℕ
  c : ℕ → ℕ

section Macros

variable (W : ℕ) (wrap : ℕ → ℕ)

/-- `ADD_CARRY(c[ci], t[k], t[k], y)`. -/
def ADD_CARRY (ci k y : ℕ) (s : Words) : Words :=
  let sum := (s.t k + y) % 2 ^ W
  ⟨Function.update s.t k sum,
    Function.update s.c ci (wrap (s.c ci + if sum < s.t k then 1 else 0))⟩

/-- `ADD_CARRY_CLEAR(c[ci], t[k], t[k], c[yi])`. -/
def ADD_CARRY_CLEAR (ci k yi : ℕ) (s : Words) : Words :=
  let sum := (s.t k + s.c yi) % 2 ^ W
  let c := Function.update s.c yi 0
  ⟨Function.update s.t k sum,
    Function.update c ci (wrap (c ci + if sum < s.t k then 1 else 0))⟩

/-- `SUB_BORROW(b[i], ret[i], x, y)`. -/
def SUB_BORROW (i x y : ℕ) (s : Words) : Words :=
  let diff := (x + 2 ^ W - y) % 2 ^ W
  ⟨Function.update s.t i diff,
    Function.update s.c i (wrap (s.c i + if x < diff then 1 else 0))⟩

/-- `SUB_BORROW_CLEAR(b[bi], ret[k], ret[k], b[yi])`. -/
def SUB_BORROW_CLEAR (bi k yi : ℕ) (s : Words) : Words :=
  let diff := (s.t k + 2 ^ W - s.c yi) % 2 ^ W
  let b := Function.update s.c yi 0
  ⟨Function.update s.t k diff,
    Function.update b bi (wrap (b bi + if s.t k < diff then 1 else 0))⟩

def umulhi (a b : ℕ) : ℕ := a * b / 2 ^ W

def umullo (a b : ℕ) : ℕ := a * b % 2 ^ W

/-! ## The routines -/

/-- The products of `mp_mul_cpu`, and its sweeps. -/
def mulRow (S : ℕ) (a b : ℕ → ℕ) (j : ℕ) (s : Words) : Words :=
  forLoop S (fun i s =>
    let hi := umulhi W (a i) (b j)
    let lo := umullo W (a i) (b j)
    ADD_CARRY W wrap (i + j + 1) (i + j) lo (ADD_CARRY W wrap (i + j + 2) (i + j + 1) hi s)) s

def mulAllZero (S : ℕ) (s : Words) : Bool := decide (∀ j < S, s.c j = 0 ∧ s.c (j + S) = 0)

def mulSweep (S : ℕ) (s : Words) : Words :=
  forDown (2 * S - 1) (fun j s => ADD_CARRY_CLEAR W wrap (j + 1) j j s) s

/-- `mp_mul_cpu`; the code does not initialise `c[2 * S]`, which holds some word `junk`. -/
def mp_mul_cpu (fuel S junk : ℕ) (a b : ℕ → ℕ) : Option (ℕ → ℕ) :=
  let start : Words := ⟨fun _ => 0, fun k => if k = 2 * S then junk else 0⟩
  (loopUntil (mulAllZero S) (mulSweep W wrap S) fuel
    (forLoop S (mulRow W wrap S a b) start)).map Words.t

def subAllZero (S : ℕ) (s : Words) : Bool := decide (∀ j < S - 1, s.c j = 0)

def subSweep (S : ℕ) (s : Words) : Words :=
  forDown (S - 1) (fun k s => SUB_BORROW_CLEAR W wrap k k (k - 1) s) s

/-- `mp_sub_cpu`: the difference and the borrow out of the top word. -/
def mp_sub_cpu (fuel S : ℕ) (x y : ℕ → ℕ) : Option ((ℕ → ℕ) × ℕ) :=
  let start : Words := forLoop S
    (fun i s => SUB_BORROW W wrap i (x i) (y i) ⟨s.t, Function.update s.c i 0⟩)
    ⟨fun _ => 0, fun _ => 0⟩
  (loopUntil (subAllZero S) (subSweep W wrap S) fuel start).map fun s => (s.t, s.c (S - 1))

/-- The products of `mp_montmul_cpu` for word `j`. -/
def montRow (S : ℕ) (n : ℕ → ℕ) (m j : ℕ) (s : Words) : Words :=
  forLoop S (fun i s =>
    let hi := umulhi W m (n i)
    let lo := umullo W m (n i)
    ADD_CARRY W wrap (i + j) (i + j) lo (ADD_CARRY W wrap (i + j + 1) (i + j + 1) hi s)) s

def montAllZero (S : ℕ) (s : Words) : Bool :=
  decide (∀ j < S, s.c j = 0 ∧ (j < S - 1 → s.c (j + S) = 0))

def montSweep (S : ℕ) (s : Words) : Words :=
  forDown (2 * S - 1) (fun j s => ADD_CARRY_CLEAR W wrap j j (j - 1) s) s

/-- The loop over `j` of `mp_montmul_cpu`. -/
def montLoop (fuel S : ℕ) (n : ℕ → ℕ) (np0 : ℕ) : ℕ → Words → Option Words
  | 0, s => some s
  | j + 1, s =>
      (montLoop fuel S n np0 j s).bind fun s =>
        let m := s.t j * np0 % 2 ^ W
        loopUntil (montAllZero S) (montSweep W wrap S) fuel (montRow W wrap S n m j s)

/-- The comparison of `u` with `n`, from the top word down; equal numbers count as bigger. -/
def uIsBigger (u n : ℕ → ℕ) : ℕ → Bool
  | 0 => true
  | i + 1 => if n i < u i then true else if u i < n i then false else uIsBigger u n i

/-- `ret[i] = u[i]` for the `S` words. -/
def writeWords (S ret : ℕ) (u : ℕ → ℕ) (mem : ℕ → ℕ) : ℕ → ℕ :=
  forLoop S (fun i mem => Function.update mem (ret + i) (u i)) mem

/-- `mp_montmul_cpu`: the operands and the result are pointers into one memory; the modulus and
`np` are arrays of their own. -/
def mp_montmul_cpu (fuel S junk : ℕ) (mem : ℕ → ℕ) (ret a b : ℕ) (n np : ℕ → ℕ) :
    Option (ℕ → ℕ) :=
  (mp_mul_cpu W wrap fuel S junk (fun i => mem (a + i)) fun i => mem (b + i)).bind fun t =>
  (montLoop W wrap fuel S n (np 0) S ⟨t, fun _ => 0⟩).bind fun s =>
    let u := fun i => s.t (i + S)
    let carry := s.c (2 * S - 1)
    if carry ≠ 0 ∨ uIsBigger u n S = true then
      (mp_sub_cpu W wrap fuel S u n).map fun r => writeWords S ret r.1 mem
    else some (writeWords S ret u mem)

end Macros

/-! ## The macros as operations on deferred carries -/

/-- A counter type that holds every number below `2 ^ W`: the words themselves, or counters
without a bound. -/
def Holds (W : ℕ) (wrap : ℕ → ℕ) : Prop := ∀ x < 2 ^ W, wrap x = x

theorem holds_mod (W : ℕ) : Holds W (· % 2 ^ W) := fun _ hx => Nat.mod_eq_of_lt hx

/-- The digits and carries of an array whose counter `k` waits at word `k + off`. -/
def view (off : ℕ) (s : Words) : Deferred :=
  ⟨s.t, fun k => if k < off then 0 else s.c (k - off)⟩

section Abstraction

variable {W : ℕ} {wrap : ℕ → ℕ}

/-- The comparison with an operand finds the carry. -/
theorem carry_eq {B x y : ℕ} (hx : x < B) (hy : y < B) :
    (if (x + y) % B < x then 1 else 0) = (x + y) / B := by
  by_cases h : x + y < B
  · rw [Nat.mod_eq_of_lt h, Nat.div_eq_of_lt h, if_neg (by omega)]
  · have hmod : (x + y) % B = x + y - B := by
      rw [Nat.mod_eq_sub_mod (not_lt.1 h), Nat.mod_eq_of_lt (by omega)]
    have hdiv : (x + y) / B = 1 := by
      rw [Nat.div_eq_of_lt_le] <;> omega
    rw [hmod, hdiv, if_pos (by omega)]

theorem view_carries {off k : ℕ} (h : off ≤ k) (s : Words) :
    (view off s).carries k = s.c (k - off) := if_neg (not_lt.2 h)

theorem view_update {off k : ℕ} (h : off ≤ k) (t c : ℕ → ℕ) (v : ℕ) :
    (view off ⟨t, Function.update c (k - off) v⟩).carries =
      Function.update (view off ⟨t, c⟩).carries k v := by
  funext j
  by_cases hj : j = k
  · subst hj
    rw [view_carries h, Function.update_self]
    exact Function.update_self _ _ _
  · rw [Function.update_of_ne hj]
    by_cases hoff : j < off
    · simp only [view, if_pos hoff]
    · rw [view_carries (not_lt.1 hoff), view_carries (not_lt.1 hoff)]
      exact Function.update_of_ne (by omega) _ _

theorem view_ADD_CARRY (hwrap : Holds W wrap) {off k y ci : ℕ} (hci : ci + off = k + 1)
    {s : Words} (ht : s.t k < 2 ^ W) (hy : y < 2 ^ W)
    (hcount : (deposit (2 ^ W) k y (view off s)).carries (k + 1) < 2 ^ W) :
    view off (ADD_CARRY W wrap ci k y s) = deposit (2 ^ W) k y (view off s) := by
  obtain rfl : ci = k + 1 - off := by omega
  have hoff : off ≤ k + 1 := by omega
  have hnew : s.c (k + 1 - off) + (s.t k + y) / 2 ^ W < 2 ^ W := by
    simp only [deposit, Function.update_self, view_carries hoff] at hcount
    exact hcount
  rw [ADD_CARRY, carry_eq ht hy, hwrap _ hnew]
  refine congrArg₂ Deferred.mk rfl ?_
  have hupdate := view_update hoff (Function.update s.t k ((s.t k + y) % 2 ^ W)) s.c
    (s.c (k + 1 - off) + (s.t k + y) / 2 ^ W)
  refine hupdate.trans ?_
  rw [view_carries hoff]
  rfl

theorem view_ADD_CARRY_CLEAR (hwrap : Holds W wrap) {off k ci yi : ℕ} (hci : ci + off = k + 1)
    (hyi : yi + off = k) {s : Words} (ht : s.t k < 2 ^ W) (hc : s.c yi < 2 ^ W)
    (hcount : (settle (2 ^ W) k (view off s)).carries (k + 1) < 2 ^ W) :
    view off (ADD_CARRY_CLEAR W wrap ci k yi s) = settle (2 ^ W) k (view off s) := by
  obtain rfl : ci = k + 1 - off := by omega
  obtain rfl : yi = k - off := by omega
  have hoff : off ≤ k := by omega
  have hoff' : off ≤ k + 1 := by omega
  have hother : Function.update s.c (k - off) 0 (k + 1 - off) = s.c (k + 1 - off) :=
    Function.update_of_ne (by omega) _ _
  have hnew : s.c (k + 1 - off) + (s.t k + s.c (k - off)) / 2 ^ W < 2 ^ W := by
    simp only [settle, Function.update_self, view_carries hoff', view_carries hoff] at hcount
    exact hcount
  rw [ADD_CARRY_CLEAR, hother, carry_eq ht hc, hwrap _ hnew]
  refine congrArg₂ Deferred.mk ?_ ?_
  · rw [view_carries hoff]
    rfl
  · have houter := view_update hoff' (Function.update s.t k ((s.t k + s.c (k - off)) % 2 ^ W))
      (Function.update s.c (k - off) 0) (s.c (k + 1 - off) + (s.t k + s.c (k - off)) / 2 ^ W)
    have hinner := view_update hoff (Function.update s.t k ((s.t k + s.c (k - off)) % 2 ^ W))
      s.c 0
    refine houter.trans ?_
    rw [hinner, view_carries hoff, view_carries hoff']
    rfl

end Abstraction

/-! ## Rows and sweeps -/

section RowsAndSweeps

variable {W : ℕ} {wrap : ℕ → ℕ} {off N : ℕ}

/-- Room for a row: no inner counter can reach `2 ^ W`, and the carry out of the top, which the
total bounds, cannot either. -/
structure RowFits (W N m : ℕ) (x : ℕ → ℕ) (y j : ℕ) (s : Deferred) : Prop where
  digits : ∀ k, s.digits k < 2 ^ W
  inner : ∀ k < N, s.carries k + 2 < 2 ^ W
  top : total (2 ^ W) N s + value (2 ^ W) m x * y * (2 ^ W) ^ j < (2 ^ W) ^ (N + 1)
  words : ∀ i < m, x i < 2 ^ W
  multiplier : y < 2 ^ W
  room : m + j < N

/-- One pass of a row in the code is one product of the row. -/
theorem view_row_step (hwrap : Holds W wrap) {m i j y ciHigh ciLow : ℕ} {x : ℕ → ℕ}
    {s : Deferred} (hfits : RowFits W N m x y j s) (hi : i < m)
    (hhighIndex : ciHigh + off = i + j + 2) (hlowIndex : ciLow + off = i + j + 1) {w : Words}
    (hprogress : RowProgress (2 ^ W) N x y j s i (view off w)) :
    view off (ADD_CARRY W wrap ciLow (i + j) (x i * y % 2 ^ W)
      (ADD_CARRY W wrap ciHigh (i + j + 1) (x i * y / 2 ^ W) w)) =
        depositProduct (2 ^ W) (i + j) (x i) y (view off w) := by
  have hroom := hfits.room
  have hB : 0 < 2 ^ W := Nat.two_pow_pos W
  have hxi := hfits.words i hi
  have hhigh : x i * y / 2 ^ W < 2 ^ W := product_high_lt hxi hfits.multiplier
  have hlow : x i * y % 2 ^ W < 2 ^ W := Nat.mod_lt _ hB
  set d := view off w with hd
  set d₁ := deposit (2 ^ W) (i + j + 1) (x i * y / 2 ^ W) d with hd₁
  have hdigits₁ : ∀ k, d₁.digits k < 2 ^ W := fun k => deposit_digits_lt hprogress.digits k
  have hcount₁ : d₁.carries (i + j + 2) < 2 ^ W := by
    by_cases htop : i + j + 2 = N
    · -- the carry out of the top is bounded by the total
      rw [htop]
      refine carry_lt_of_total_lt (by omega) (lt_of_le_of_lt ?_ hfits.top)
      have hnext := (hprogress.step (by omega) hxi hfits.multiplier).total
      have hlast := total_deposit (B := 2 ^ W) (n := N) (k := i + j) (by omega)
        (x i * y % 2 ^ W) d₁
      rw [depositProduct, hlast] at hnext
      have hmono : value (2 ^ W) (i + 1) x * y * (2 ^ W) ^ j ≤
          value (2 ^ W) m x * y * (2 ^ W) ^ j :=
        Nat.mul_le_mul_right _ (Nat.mul_le_mul_right _ (value_mono hi x))
      omega
    · have hle := deposit_carries_le (k := i + j + 1) hprogress.digits hhigh (i + j + 2)
      have hold := hprogress.carries (i + j + 2)
      have hinner := hfits.inner (i + j + 2) (by omega)
      rw [← hd₁, if_pos rfl] at hle
      rw [if_neg (by omega), if_neg (by omega)] at hold
      omega
  -- the lower column gets at most one carry from each deposit
  have hcount₂ : (deposit (2 ^ W) (i + j) (x i * y % 2 ^ W) d₁).carries (i + j + 1) < 2 ^ W := by
    have hle₁ := deposit_carries_le (k := i + j + 1) hprogress.digits hhigh (i + j + 1)
    have hle₂ := deposit_carries_le (k := i + j) hdigits₁ hlow (i + j + 1)
    have hold := hprogress.carries (i + j + 1)
    have hinner := hfits.inner (i + j + 1) (by omega)
    rw [← hd₁, if_neg (by omega)] at hle₁
    rw [if_pos rfl] at hle₂
    rw [if_pos (by omega), if_neg (by omega)] at hold
    omega
  have hfirst : view off (ADD_CARRY W wrap ciHigh (i + j + 1) (x i * y / 2 ^ W) w) = d₁ :=
    view_ADD_CARRY hwrap hhighIndex (hprogress.digits (i + j + 1)) hhigh hcount₁
  have ht : (ADD_CARRY W wrap ciHigh (i + j + 1) (x i * y / 2 ^ W) w).t = d₁.digits :=
    congrArg Deferred.digits hfirst
  rw [depositProduct, ← hd₁, ← hfirst]
  refine view_ADD_CARRY hwrap hlowIndex ?_ hlow ?_
  · rw [ht]
    exact hdigits₁ _
  · rw [hfirst]
    exact hcount₂

/-- A row of the code is a row. -/
theorem view_row (hwrap : Holds W wrap) {m j y : ℕ} {x hi lo p q : ℕ → ℕ}
    (hhi : ∀ i, hi i = x i * y / 2 ^ W) (hlo : ∀ i, lo i = x i * y % 2 ^ W)
    (hp : ∀ i, p i + off = i + j + 2) (hq : ∀ i, q i + off = i + j + 1)
    {w : Words} (hfits : RowFits W N m x y j (view off w)) :
    view off (forLoop m (fun i w => ADD_CARRY W wrap (q i) (i + j) (lo i)
        (ADD_CARRY W wrap (p i) (i + j + 1) (hi i) w)) w) =
      addRow (2 ^ W) m x y j (view off w) := by
  have hsim := forLoop_simulation
    (R := fun i w' d => view off w' = d ∧ RowProgress (2 ^ W) N x y j (view off w) i d)
    (n := m) (s := w) (t := view off w)
    (g := fun i w => ADD_CARRY W wrap (q i) (i + j) (lo i)
      (ADD_CARRY W wrap (p i) (i + j + 1) (hi i) w))
    (k := fun i d => depositProduct (2 ^ W) (i + j) (x i) y d)
    ⟨rfl, rowProgress_zero hfits.digits⟩ ?_
  · exact hsim.1
  · rintro i hlt w' d ⟨rfl, hprogress⟩
    have hroom := hfits.room
    refine ⟨?_, hprogress.step (by omega) (hfits.words i hlt) hfits.multiplier⟩
    rw [hhi, hlo]
    exact view_row_step hwrap hfits hlt (hp i) (hq i) hprogress

/-- The sweeps of `mp_mul_cpu` (`off = 0`) and of `mp_montmul_cpu` (`off = 1`). -/
theorem settles_add (hwrap : Holds W wrap) (hoff : off ≤ 1) :
    Settles (2 ^ W) N (fun _ => True) (view off)
      fun k w => ADD_CARRY_CLEAR W wrap (k + 1 - off) k (k - off) w := by
  intro k w h1 _ _ hdigits hcarry hcount
  rw [view_carries (by omega)] at hcarry
  exact ⟨view_ADD_CARRY_CLEAR hwrap (by omega) (by omega) (hdigits k) hcarry hcount, trivial⟩

end RowsAndSweeps

/-! ## `mp_mul_cpu` -/

section Mul

variable {W : ℕ} {wrap : ℕ → ℕ} {S junk : ℕ} {a b : ℕ → ℕ}

/-- The state after `j` rows of the product. -/
structure MulProgress (W S junk : ℕ) (a b : ℕ → ℕ) (j : ℕ) (d : Deferred) : Prop where
  digits : ∀ k, d.digits k < 2 ^ W
  carries : ∀ k < 2 * S, d.carries k ≤ 2 * j
  zero : d.carries 0 = 0
  total : total (2 ^ W) (2 * S) d =
    junk * (2 ^ W) ^ (2 * S) + value (2 ^ W) S a * value (2 ^ W) j b

theorem value_const_zero (B n : ℕ) : value B n (fun _ => 0) = 0 := by
  simp [value]

theorem mulProgress_zero (hS : 1 ≤ S) :
    MulProgress W S junk a b 0
      (view 0 ⟨fun _ => 0, fun k => if k = 2 * S then junk else 0⟩) where
  digits _ := Nat.two_pow_pos W
  carries k hk := by
    rw [view_carries (Nat.zero_le k), Nat.sub_zero]
    exact (if_neg hk.ne).le
  zero := by
    rw [view_carries (Nat.zero_le 0)]
    exact if_neg (by omega)
  total := by
    have hsettled : Settled (2 * S - 1) (2 * S - 1)
        (view 0 ⟨fun _ => 0, fun k => if k = 2 * S then junk else 0⟩) := by
      intro k h1 hk _
      rw [view_carries (Nat.zero_le k), Nat.sub_zero]
      exact if_neg (by omega)
    have htop : (view 0 ⟨fun _ => 0, fun k => if k = 2 * S then junk else 0⟩).carries (2 * S) =
        junk := (view_carries (Nat.zero_le _) _).trans (if_pos rfl)
    rw [total_of_settled (by omega) hsettled, htop, value_zero, Nat.mul_zero, Nat.add_zero]
    exact (congrArg (· + _) (value_const_zero _ _)).trans (Nat.zero_add _)

/-- Both factors are below `2 ^ (W * S)`, so the product leaves the top carry alone. -/
theorem product_lt (ha : ∀ i < S, a i < 2 ^ W) (hb : ∀ i < S, b i < 2 ^ W) :
    value (2 ^ W) S a * value (2 ^ W) S b < (2 ^ W) ^ (2 * S) := by
  rw [Nat.two_mul, pow_add]
  exact Nat.mul_lt_mul'' (value_lt ha) (value_lt hb)

theorem mul_top_lt (hjunk : junk < 2 ^ W) (ha : ∀ i < S, a i < 2 ^ W)
    (hb : ∀ i < S, b i < 2 ^ W) {j : ℕ} (hj : j ≤ S) :
    junk * (2 ^ W) ^ (2 * S) + value (2 ^ W) S a * value (2 ^ W) j b <
      (2 ^ W) ^ (2 * S + 1) := by
  have hle : value (2 ^ W) S a * value (2 ^ W) j b ≤ value (2 ^ W) S a * value (2 ^ W) S b :=
    Nat.mul_le_mul_left _ (value_mono hj b)
  have hlt := product_lt ha hb
  calc junk * (2 ^ W) ^ (2 * S) + value (2 ^ W) S a * value (2 ^ W) j b
      < junk * (2 ^ W) ^ (2 * S) + (2 ^ W) ^ (2 * S) := by omega
    _ = (junk + 1) * (2 ^ W) ^ (2 * S) := by ring
    _ ≤ 2 ^ W * (2 ^ W) ^ (2 * S) := Nat.mul_le_mul_right _ hjunk
    _ = (2 ^ W) ^ (2 * S + 1) := (pow_succ' _ _).symm

/-- The products of `mp_mul_cpu`, before its sweeps. -/
theorem mulRows_spec (hwrap : Holds W wrap) (hS : 1 ≤ S) (hcount : 2 * S < 2 ^ W)
    (hjunk : junk < 2 ^ W) (ha : ∀ i < S, a i < 2 ^ W) (hb : ∀ i < S, b i < 2 ^ W) :
    MulProgress W S junk a b S (view 0 (forLoop S (mulRow W wrap S a b)
      ⟨fun _ => 0, fun k => if k = 2 * S then junk else 0⟩)) := by
  refine forLoop_induction (P := fun j w => MulProgress W S junk a b j (view 0 w))
    (mulProgress_zero hS) ?_
  intro j hj w hw
  -- after this row the product has one more word of the second factor
  have hnext : total (2 ^ W) (2 * S) (view 0 w) +
      value (2 ^ W) S a * b j * (2 ^ W) ^ j =
        junk * (2 ^ W) ^ (2 * S) + value (2 ^ W) S a * value (2 ^ W) (j + 1) b := by
    rw [hw.total, value_succ]
    ring
  have hfits : RowFits W (2 * S) S a (b j) j (view 0 w) :=
    { digits := hw.digits
      inner := fun k hk => by
        have := hw.carries k hk
        omega
      top := hnext ▸ mul_top_lt hjunk ha hb hj
      words := ha
      multiplier := hb j hj
      room := by omega }
  have hrow : view 0 (mulRow W wrap S a b j w) =
      addRow (2 ^ W) S a (b j) j (view 0 w) :=
    view_row hwrap (p := fun i => i + j + 2) (q := fun i => i + j + 1) (fun _ => rfl)
      (fun _ => rfl) (fun _ => rfl) (fun _ => rfl) hfits
  have hprogress := rowProgress_addRow hw.digits hfits.room ha (hb j hj)
  rw [hrow]
  exact
    { digits := hprogress.digits
      carries := fun k hk => by
        have hrowle := hprogress.carries k
        have hold := hw.carries k hk
        split_ifs at hrowle <;> omega
      zero := hprogress.zero.trans hw.zero
      total := hprogress.total.trans hnext }

/-- The test of the multiplication loop holds exactly when every carry below the top is zero. -/
theorem mulAllZero_iff (hS : 1 ≤ S) {w : Words} (hzero : (view 0 w).carries 0 = 0) :
    mulAllZero S w = true ↔ Settled (2 * S - 1) (2 * S - 1) (view 0 w) := by
  have hview : ∀ k, (view 0 w).carries k = w.c k := fun k => view_carries (Nat.zero_le k) w
  rw [mulAllZero, decide_eq_true_iff]
  constructor
  · intro h k _ hk _
    rw [hview]
    -- the test looks at the two halves side by side
    by_cases hlt : k < S
    · exact (h k hlt).1
    · have := (h (k - S) (by omega)).2
      rwa [Nat.sub_add_cancel (not_lt.1 hlt)] at this
  · intro h j hj
    rw [hview] at hzero
    refine ⟨?_, ?_⟩
    · by_cases hj0 : j = 0
      · rw [hj0, hzero]
      · rw [← hview]
        exact h j (by omega) (by omega) (by omega)
    · rw [← hview]
      exact h (j + S) (by omega) (by omega) (by omega)

/-- `mp_mul_cpu` ends with the words of the product. -/
theorem mp_mul_spec (hwrap : Holds W wrap) (hS : 1 ≤ S) (hcount : 2 * S < 2 ^ W)
    (hjunk : junk < 2 ^ W) (ha : ∀ i < S, a i < 2 ^ W) (hb : ∀ i < S, b i < 2 ^ W) {fuel : ℕ}
    (hfuel : 2 * S ≤ fuel) :
    ∃ t, mp_mul_cpu W wrap fuel S junk a b = some t ∧ (∀ k, t k < 2 ^ W) ∧
      value (2 ^ W) (2 * S) t = value (2 ^ W) S a * value (2 ^ W) S b := by
  have hrows := mulRows_spec hwrap hS hcount hjunk ha hb
  have hstart : Sweeping (2 ^ W) (2 * S)
      (junk * (2 ^ W) ^ (2 * S) + value (2 ^ W) S a * value (2 ^ W) S b) 0
      (view 0 (forLoop S (mulRow W wrap S a b)
        ⟨fun _ => 0, fun k => if k = 2 * S then junk else 0⟩)) :=
    { digits := hrows.digits
      carries := fun k hk => (hrows.carries k hk).trans_lt hcount
      zero := hrows.zero
      total := hrows.total
      settled := fun k h1 hk => absurd hk (by omega) }
  obtain ⟨v, hv, -, hsweeping⟩ := loopUntil_sweeps (settles_add hwrap (Nat.zero_le 1))
    (by omega) (by omega) (mul_top_lt hjunk ha hb le_rfl) hfuel (fun _ => mulAllZero_iff hS)
    trivial hstart
  refine ⟨v.t, ?_, hsweeping.digits, ?_⟩
  · rw [mp_mul_cpu]
    exact congrArg (Option.map Words.t) hv
  · -- below `2 ^ (2 * W * S)` the total is the product
    have htotal := hsweeping.total
    rw [total_of_settled (by omega) hsweeping.settled] at htotal
    have hmod := congrArg (· % (2 ^ W) ^ (2 * S)) htotal
    simp only [Nat.add_mul_mod_self_right] at hmod
    rw [Nat.add_comm (junk * _), Nat.add_mul_mod_self_right,
      Nat.mod_eq_of_lt (product_lt ha hb)] at hmod
    rw [← hmod]
    exact (Nat.mod_eq_of_lt (value_lt fun k _ => hsweeping.digits k)).symm

end Mul

/-! ## `mp_sub_cpu` -/

section Sub

variable {W : ℕ} {wrap : ℕ → ℕ} {S : ℕ} {x y : ℕ → ℕ}

/-- The comparison with the first operand finds the borrow, and borrowing is carrying on the
complements. -/
theorem borrow_eq {B x y : ℕ} (hx : x < B) (hy : y < B) :
    (x + B - y) % B < B ∧ B - 1 - (x + B - y) % B = (B - 1 - x + y) % B ∧
      (if x < (x + B - y) % B then 1 else 0) = (B - 1 - x + y) / B := by
  have hB : 0 < B := (Nat.zero_le x).trans_lt hx
  refine ⟨Nat.mod_lt _ hB, ?_⟩
  by_cases h : y ≤ x
  · have hdiff : (x + B - y) % B = x - y := by
      rw [Nat.sub_add_comm h, Nat.add_mod_right, Nat.mod_eq_of_lt (by omega)]
    rw [hdiff, Nat.mod_eq_of_lt (by omega), Nat.div_eq_of_lt (by omega), if_neg (by omega)]
    omega
  · have hdiff : (x + B - y) % B = x + B - y := Nat.mod_eq_of_lt (by omega)
    have hmod : (B - 1 - x + y) % B = B - 1 - x + y - B := by
      rw [Nat.mod_eq_sub_mod (by omega), Nat.mod_eq_of_lt (by omega)]
    have hdiv : (B - 1 - x + y) / B = 1 := by
      rw [Nat.div_eq_of_lt_le] <;> omega
    rw [hdiff, hmod, hdiv, if_pos (by omega)]
    omega

/-- The complements of the words, with the borrows as carries. -/
def borrowView (W : ℕ) (s : Words) : Deferred :=
  ⟨fun k => 2 ^ W - 1 - s.t k, (view 1 s).carries⟩

theorem settles_sub (hwrap : Holds W wrap) {N : ℕ} :
    Settles (2 ^ W) N (fun s => ∀ k, s.t k < 2 ^ W) (borrowView W)
      fun k w => SUB_BORROW_CLEAR W wrap k k (k - 1) w := by
  intro k w h1 _ hwords _ hcarry hcount
  have hborrow : (view 1 w).carries k = w.c (k - 1) := view_carries h1 w
  have hnext : (view 1 w).carries (k + 1) = w.c k := view_carries (Nat.le_add_left 1 k) w
  have hc : w.c (k - 1) < 2 ^ W := hborrow ▸ hcarry
  obtain ⟨hlt, hcompl, hout⟩ := borrow_eq (hwords k) hc
  -- the carry that is cleared is not the one that is added to
  have hother : Function.update w.c (k - 1) 0 k = w.c k := Function.update_of_ne (by omega) _ _
  have hnew : w.c k + (2 ^ W - 1 - w.t k + w.c (k - 1)) / 2 ^ W < 2 ^ W := by
    simp only [settle, Function.update_self, borrowView, hborrow, hnext] at hcount
    exact hcount
  have hbody : SUB_BORROW_CLEAR W wrap k k (k - 1) w =
      ⟨Function.update w.t k ((w.t k + 2 ^ W - w.c (k - 1)) % 2 ^ W),
        Function.update (Function.update w.c (k - 1) 0) k
          (w.c k + (2 ^ W - 1 - w.t k + w.c (k - 1)) / 2 ^ W)⟩ := by
    rw [SUB_BORROW_CLEAR, hother, hout, hwrap _ hnew]
  refine ⟨(congrArg (borrowView W) hbody).trans ?_, ?_⟩
  · refine congrArg₂ Deferred.mk ?_ ?_
    · funext j
      by_cases hj : j = k
      · subst hj
        simp only [Function.update_self, hborrow, borrowView]
        exact hcompl
      · simp only [Function.update_of_ne hj, borrowView]
    · have houter := view_update (Nat.le_add_left 1 k)
        (Function.update w.t k ((w.t k + 2 ^ W - w.c (k - 1)) % 2 ^ W))
        (Function.update w.c (k - 1) 0)
        (w.c k + (2 ^ W - 1 - w.t k + w.c (k - 1)) / 2 ^ W)
      have hinner := view_update h1
        (Function.update w.t k ((w.t k + 2 ^ W - w.c (k - 1)) % 2 ^ W)) w.c 0
      refine houter.trans ?_
      rw [hinner]
      simp only [borrowView, hborrow, hnext]
      rfl
  · intro j
    have hword := congrFun (congrArg Words.t hbody) j
    refine lt_of_eq_of_lt hword ?_
    by_cases hj : j = k
    · subst hj
      simp only [Function.update_self]
      exact hlt
    · simp only [Function.update_of_ne hj]
      exact hwords j

/-- One column borrows at most once. -/
theorem borrow_lt_two {x y : ℕ} (hy : y < 2 ^ W) : (2 ^ W - 1 - x + y) / 2 ^ W < 2 :=
  Nat.div_lt_of_lt_mul (by omega)

/-- The differences word by word, before the sweeps of `mp_sub_cpu`. -/
theorem subWords_spec (hwrap : Holds W wrap) (hW : 1 < 2 ^ W) (hx : ∀ i < S, x i < 2 ^ W)
    (hy : ∀ i < S, y i < 2 ^ W) {w : Words}
    (hw : w = forLoop S
      (fun i s => SUB_BORROW W wrap i (x i) (y i) ⟨s.t, Function.update s.c i 0⟩)
      ⟨fun _ => 0, fun _ => 0⟩) :
    (∀ k, w.t k < 2 ^ W) ∧ ∀ k < S, w.t k = (x k + 2 ^ W - y k) % 2 ^ W ∧
      w.c k = (2 ^ W - 1 - x k + y k) / 2 ^ W := by
  subst hw
  refine forLoop_induction (P := fun i (w : Words) => (∀ k, w.t k < 2 ^ W) ∧ ∀ k < i,
    w.t k = (x k + 2 ^ W - y k) % 2 ^ W ∧ w.c k = (2 ^ W - 1 - x k + y k) / 2 ^ W) ?_ ?_
  · exact ⟨fun _ => Nat.two_pow_pos W, fun k hk => absurd hk (Nat.not_lt_zero k)⟩
  · rintro i hi w ⟨hwords, hdone⟩
    obtain ⟨hlt, -, hout⟩ := borrow_eq (hx i hi) (hy i hi)
    have hone : (2 ^ W - 1 - x i + y i) / 2 ^ W < 2 := borrow_lt_two (hy i hi)
    have hcount : wrap (Function.update w.c i 0 i +
        if x i < (x i + 2 ^ W - y i) % 2 ^ W then 1 else 0) =
          (2 ^ W - 1 - x i + y i) / 2 ^ W := by
      rw [Function.update_self, Nat.zero_add, hout, hwrap _ (by omega)]
    refine ⟨fun k => ?_, fun k hk => ?_⟩
    · by_cases hk : k = i
      · subst hk
        simp only [SUB_BORROW, Function.update_self]
        exact hlt
      · simp only [SUB_BORROW, Function.update_of_ne hk]
        exact hwords k
    · by_cases hki : k = i
      · subst hki
        simp only [SUB_BORROW, Function.update_self]
        refine ⟨trivial, ?_⟩
        rw [← hcount, Function.update_self]
      · simp only [SUB_BORROW, Function.update_of_ne hki]
        exact hdone k (by omega)

/-- The test of the subtraction loop, in the same way for borrows. -/
theorem subAllZero_iff (v : Words) :
    subAllZero S v = true ↔ Settled (S - 1) (S - 1) (borrowView W v) := by
  rw [subAllZero, decide_eq_true_iff]
  constructor
  · intro h k h1 hk _
    exact (view_carries h1 v).trans (h (k - 1) (by omega))
  · intro h j hj
    have := h (j + 1) (by omega) (by omega) (by omega)
    rwa [borrowView, view_carries (Nat.le_add_left 1 j), Nat.add_sub_cancel] at this

/-- `mp_sub_cpu` ends with the words of the difference and the borrow. -/
theorem mp_sub_spec (hwrap : Holds W wrap) (hS : 1 ≤ S) (hW : 1 < 2 ^ W)
    (hx : ∀ i < S, x i < 2 ^ W) (hy : ∀ i < S, y i < 2 ^ W) {f : ℕ} (hfuel : S ≤ f) :
    ∃ r borrow, mp_sub_cpu W wrap f S x y = some (r, borrow) ∧ (∀ k, r k < 2 ^ W) ∧
      value (2 ^ W) S r + value (2 ^ W) S y = value (2 ^ W) S x + borrow * (2 ^ W) ^ S := by
  obtain ⟨hwords, hcells⟩ := subWords_spec hwrap hW hx hy rfl
  set w := forLoop S (fun i s => SUB_BORROW W wrap i (x i) (y i) ⟨s.t, Function.update s.c i 0⟩)
    ⟨fun _ => 0, fun _ => 0⟩ with hw
  have htotal : total (2 ^ W) S (borrowView W w) =
      value (2 ^ W) S fun k => 2 ^ W - 1 - x k + y k := by
    refine total_digitwise S _ (fun k hk => ?_) fun k hk => ?_
    · rw [← (borrow_eq (hx k hk) (hy k hk)).2.1, ← (hcells k hk).1]
      rfl
    · exact (view_carries (Nat.le_add_left 1 k) w).trans (hcells k hk).2
  rw [value_add] at htotal
  -- a borrow is a carry of the complement, so the sum is the one of the complemented words
  have hxcompl := value_compl hx
  have hylt := value_lt hy
  have hT : value (2 ^ W) S (fun k => 2 ^ W - 1 - x k) + value (2 ^ W) S y <
      (2 ^ W) ^ (S + 1) := by
    have htwo : 2 * (2 ^ W) ^ S ≤ 2 ^ W * (2 ^ W) ^ S := Nat.mul_le_mul_right _ hW
    rw [pow_succ']
    omega
  have hstart : Sweeping (2 ^ W) S
      (value (2 ^ W) S (fun k => 2 ^ W - 1 - x k) + value (2 ^ W) S y) 0 (borrowView W w) :=
    { digits := fun k => by
        have hpos := Nat.two_pow_pos W
        simp only [borrowView]
        omega
      carries := fun k hk => by
        by_cases hk0 : k = 0
        · subst hk0
          exact Nat.two_pow_pos W
        · -- the first pass borrowed at most once from every column
          have hcell := (hcells (k - 1) (by omega)).2
          have hone : (2 ^ W - 1 - x (k - 1) + y (k - 1)) / 2 ^ W < 2 :=
            borrow_lt_two (hy (k - 1) (by omega))
          rw [borrowView, view_carries (by omega), hcell]
          omega
      zero := rfl
      total := htotal
      settled := fun k h1 hk => absurd hk (by omega) }
  obtain ⟨v, hv, hvwords, hsweeping⟩ := loopUntil_sweeps (settles_sub hwrap) hW hS hT hfuel
    (fun v _ => subAllZero_iff v) hwords hstart
  refine ⟨v.t, v.c (S - 1), ?_, hvwords, ?_⟩
  · rw [mp_sub_cpu, ← hw]
    exact congrArg (Option.map fun s : Words => (s.t, s.c (S - 1))) hv
  · -- nothing is left to borrow below the top, read the complement back
    have hfinal := hsweeping.total
    have htop : (borrowView W v).carries S = v.c (S - 1) := view_carries hS v
    rw [total_of_settled hS hsweeping.settled, htop] at hfinal
    have hvcompl := value_compl (n := S) fun k _ => hvwords k
    have hdigits : value (2 ^ W) S (borrowView W v).digits =
        value (2 ^ W) S fun k => 2 ^ W - 1 - v.t k := rfl
    omega

end Sub

/-! ## `mp_montmul_cpu` -/

section Mont

variable {W : ℕ} {wrap : ℕ → ℕ} {S : ℕ} {n : ℕ → ℕ} {np0 P : ℕ}

/-- What the reduction needs: an odd modulus that fits, `np0 = - 1 / n` on words, and a product
below `n * 2 ^ (W * S)`. -/
structure MontInput (W S : ℕ) (n : ℕ → ℕ) (np0 P : ℕ) : Prop where
  size : 1 ≤ S
  counters : 2 * S < 2 ^ W
  word : 2 < 2 ^ W
  words : ∀ i < S, n i < 2 ^ W
  odd : value (2 ^ W) S n % 2 = 1
  inverse : 2 ^ W ∣ np0 * value (2 ^ W) S n + 1
  product : P < value (2 ^ W) S n * (2 ^ W) ^ S

/-- The state after `j` words have been reduced: a multiple of the modulus has been added, and the
low `j` words are zero. -/
def MontProgress (W S : ℕ) (n : ℕ → ℕ) (P j : ℕ) (w : Words) : Prop :=
  ∃ M, M < (2 ^ W) ^ j ∧ (2 ^ W) ^ j ∣ P + M * value (2 ^ W) S n ∧
    Sweeping (2 ^ W) (2 * S) (P + M * value (2 ^ W) S n) (2 * S - 1) (view 1 w)

/-- The total stays below twice the modulus, so the carry out of the top is at most 1. -/
theorem mont_total_lt (h : MontInput W S n np0 P) {j M : ℕ} (hj : j ≤ S)
    (hM : M < (2 ^ W) ^ j) :
    P + M * value (2 ^ W) S n < 2 * value (2 ^ W) S n * (2 ^ W) ^ S := by
  have hle : M ≤ (2 ^ W) ^ S := hM.le.trans (Nat.pow_le_pow_right (Nat.two_pow_pos W) hj)
  have hmul : M * value (2 ^ W) S n ≤ (2 ^ W) ^ S * value (2 ^ W) S n :=
    Nat.mul_le_mul_right _ hle
  have hproduct := h.product
  calc P + M * value (2 ^ W) S n
      < value (2 ^ W) S n * (2 ^ W) ^ S + (2 ^ W) ^ S * value (2 ^ W) S n := by omega
    _ = 2 * value (2 ^ W) S n * (2 ^ W) ^ S := by ring

theorem mont_top_lt (h : MontInput W S n np0 P) {j M : ℕ} (hj : j ≤ S)
    (hM : M < (2 ^ W) ^ j) :
    P + M * value (2 ^ W) S n < (2 ^ W) ^ (2 * S + 1) := by
  refine (mont_total_lt h hj hM).trans_le ?_
  have hvalue : value (2 ^ W) S n ≤ (2 ^ W) ^ S := (value_lt h.words).le
  calc 2 * value (2 ^ W) S n * (2 ^ W) ^ S
      ≤ 2 ^ W * (2 ^ W) ^ S * (2 ^ W) ^ S :=
        Nat.mul_le_mul_right _ (Nat.mul_le_mul h.word.le hvalue)
    _ = (2 ^ W) ^ (2 * S + 1) := by ring

/-- Word `j` of the state, read off the total. -/
theorem mont_word_eq {T j : ℕ} {w : Words} (hS : 1 ≤ S) (hj : j < S)
    (h : Sweeping (2 ^ W) (2 * S) T (2 * S - 1) (view 1 w)) :
    T / (2 ^ W) ^ j % 2 ^ W = w.t j := by
  have htotal := h.total
  rw [total_of_settled (by omega) h.settled] at htotal
  have hdigit := value_div_mod (n := 2 * S) (k := j) (fun i _ => h.digits i) (by omega)
  have hpow : (2 ^ W) ^ (2 * S) = (2 ^ W) ^ j * (2 ^ W * (2 ^ W) ^ (2 * S - (j + 1))) := by
    rw [← mul_assoc, ← pow_succ, ← pow_add]
    congr 1
    omega
  rw [← htotal, hpow, mul_left_comm, Nat.add_mul_div_left _ _ (pow_pos (Nat.two_pow_pos W) j),
    mul_left_comm, Nat.add_mul_mod_self_left]
  exact hdigit

/-- The multiple chosen for word `j` clears it. -/
theorem mont_clears {N np0 q m B : ℕ} (hinverse : B ∣ np0 * N + 1) (hm : m = q % B * np0 % B) :
    B ∣ q + m * N := by
  have hmod : q + m * N ≡ q * (np0 * N + 1) [MOD B] := by
    have hmq : m ≡ q * np0 [MOD B] := by
      rw [hm]
      exact (Nat.mod_modEq _ _).trans ((Nat.mod_modEq q B).mul_right np0)
    calc q + m * N ≡ q + q * np0 * N [MOD B] := (hmq.mul_right N).add_left q
      _ = q * (np0 * N + 1) := by ring
  exact (Nat.modEq_zero_iff_dvd.1 (hmod.trans
    (Nat.modEq_zero_iff_dvd.2 (hinverse.mul_left q))))

/-- Repeated sweeps of `mp_montmul_cpu` test all counters but the carry out of the top. -/
theorem montAllZero_iff (hS : 1 ≤ S) (w : Words) :
    montAllZero S w = true ↔ Settled (2 * S - 1) (2 * S - 1) (view 1 w) := by
  rw [montAllZero, decide_eq_true_iff]
  constructor
  · intro h k h1 hk _
    rw [view_carries h1]
    by_cases hlt : k - 1 < S
    · exact (h (k - 1) hlt).1
    · have := (h (k - 1 - S) (by omega)).2 (by omega)
      rwa [Nat.sub_add_cancel (not_lt.1 hlt)] at this
  · intro h j hj
    have hcell : ∀ i, i < 2 * S - 1 → w.c i = 0 := by
      intro i hi
      have := h (i + 1) (by omega) (by omega) (by omega)
      rwa [view_carries (Nat.le_add_left 1 i), Nat.add_sub_cancel] at this
    exact ⟨hcell j (by omega), fun hj' => hcell (j + S) (by omega)⟩

/-- One word of the reduction. -/
theorem montStep_spec (hwrap : Holds W wrap) (h : MontInput W S n np0 P) {j : ℕ} (hj : j < S)
    {w : Words} (hw : MontProgress W S n P j w) {fuel : ℕ} (hfuel : 2 * S ≤ fuel) :
    ∃ v, loopUntil (montAllZero S) (montSweep W wrap S) fuel
        (montRow W wrap S n (w.t j * np0 % 2 ^ W) j w) = some v ∧
      MontProgress W S n P (j + 1) v := by
  obtain ⟨M, hM, hdvd, hsweeping⟩ := hw
  have hB : 0 < 2 ^ W := Nat.two_pow_pos W
  have hS := h.size
  set N := value (2 ^ W) S n with hN
  set m := w.t j * np0 % 2 ^ W with hm
  have hmlt : m < 2 ^ W := Nat.mod_lt _ hB
  have hM' : M + m * (2 ^ W) ^ j < (2 ^ W) ^ (j + 1) := by
    have hle := block_le hmlt ((2 ^ W) ^ j)
    rw [pow_succ']
    omega
  have hnext : P + M * N + N * m * (2 ^ W) ^ j = P + (M + m * (2 ^ W) ^ j) * N := by ring
  have hcarries : ∀ k < 2 * S, (view 1 w).carries k = 0 := by
    intro k hk
    by_cases hk0 : k = 0
    · rw [hk0]
      exact hsweeping.zero
    · exact hsweeping.settled k (by omega) (by omega) (by omega)
  have hfits : RowFits W (2 * S) S n m j (view 1 w) :=
    { digits := hsweeping.digits
      inner := fun k hk => by
        rw [hcarries k hk]
        exact h.word
      top := by
        rw [hsweeping.total, ← hN, hnext]
        exact mont_top_lt h hj hM'
      words := h.words
      multiplier := hmlt
      room := by omega }
  have hrow : view 1 (montRow W wrap S n m j w) = addRow (2 ^ W) S n m j (view 1 w) :=
    view_row hwrap (p := fun i => i + j + 1) (q := fun i => i + j)
      (fun i => by rw [umulhi, mul_comm]) (fun i => by rw [umullo, mul_comm]) (fun _ => rfl)
      (fun _ => rfl) hfits
  have hprogress := rowProgress_addRow hsweeping.digits hfits.room h.words hmlt
  have hstart : Sweeping (2 ^ W) (2 * S) (P + (M + m * (2 ^ W) ^ j) * N) 0
      (view 1 (montRow W wrap S n m j w)) := by
    rw [hrow]
    exact
      { digits := hprogress.digits
        carries := fun k hk => by
          have hle := hprogress.carries k
          have hword := h.word
          rw [hcarries k hk] at hle
          split_ifs at hle <;> omega
        zero := hprogress.zero.trans hsweeping.zero
        total := by rw [hprogress.total, hsweeping.total, hnext]
        settled := fun k h1 hk => absurd hk (by omega) }
  obtain ⟨v, hv, -, hsettled⟩ := loopUntil_sweeps (settles_add hwrap le_rfl)
    (Nat.lt_of_succ_lt h.word) (by omega) (mont_top_lt h hj hM') hfuel
    (fun w _ => montAllZero_iff hS w) trivial hstart
  refine ⟨v, hv, M + m * (2 ^ W) ^ j, hM', ?_, hsettled⟩
  -- the quotient by `2 ^ (W * j)` is divisible by one more word
  obtain ⟨q, hq⟩ := hdvd
  have hqmod : q % 2 ^ W = w.t j := by
    have hword := mont_word_eq hS hj hsweeping
    rwa [hq, Nat.mul_div_cancel_left q (pow_pos hB j)] at hword
  have hclears : 2 ^ W ∣ q + m * N := mont_clears h.inverse (by rw [hqmod])
  have hfactor : P + (M + m * (2 ^ W) ^ j) * N = (2 ^ W) ^ j * (q + m * N) := by
    rw [← hnext, hq]
    ring
  rw [hfactor, pow_succ]
  exact Nat.mul_dvd_mul_left _ hclears

/-- All words of the reduction. -/
theorem montLoop_spec (hwrap : Holds W wrap) (h : MontInput W S n np0 P) {w : Words}
    (hw : MontProgress W S n P 0 w) {fuel : ℕ} (hfuel : 2 * S ≤ fuel) {j : ℕ} (hj : j ≤ S) :
    ∃ v, montLoop W wrap fuel S n np0 j w = some v ∧ MontProgress W S n P j v := by
  induction j with
  | zero => exact ⟨w, rfl, hw⟩
  | succ j ih =>
      obtain ⟨v, hv, hprogress⟩ := ih (Nat.le_of_succ_le hj)
      obtain ⟨v', hv', hprogress'⟩ := montStep_spec hwrap h hj hprogress hfuel
      refine ⟨v', ?_, hprogress'⟩
      rw [montLoop, hv]
      exact hv'

/-- The comparison is that of the numbers. -/
theorem uIsBigger_iff {B : ℕ} {u n : ℕ → ℕ} {S : ℕ} (hu : ∀ i < S, u i < B)
    (hn : ∀ i < S, n i < B) : uIsBigger u n S = true ↔ value B S n ≤ value B S u := by
  induction S with
  | zero => simp [uIsBigger]
  | succ S ih =>
      have hulow : value B S u < B ^ S := value_lt fun i hi => hu i (Nat.lt_succ_of_lt hi)
      have hnlow : value B S n < B ^ S := value_lt fun i hi => hn i (Nat.lt_succ_of_lt hi)
      rw [uIsBigger, value_succ, value_succ]
      rcases lt_trichotomy (n S) (u S) with hlt | heq | hgt
      · have hstep := block_le hlt (B ^ S)
        rw [if_pos hlt]
        exact iff_of_true rfl (by omega)
      · rw [if_neg (by omega), if_neg (by omega), heq,
          ih (fun i hi => hu i (Nat.lt_succ_of_lt hi)) fun i hi => hn i (Nat.lt_succ_of_lt hi)]
        omega
      · have hstep := block_le hgt (B ^ S)
        rw [if_neg (by omega), if_pos hgt]
        exact iff_of_false Bool.false_ne_true (by omega)

/-- The upper half of the reduced state, with the carry out of the top, times `2 ^ (W * S)` is the
product up to a multiple of the modulus, and is below twice the modulus. -/
theorem mont_quotient (h : MontInput W S n np0 P) {w : Words}
    (hw : MontProgress W S n P S w) :
    (value (2 ^ W) S (fun i => w.t (i + S)) + w.c (2 * S - 1) * (2 ^ W) ^ S) * (2 ^ W) ^ S ≡ P
        [MOD value (2 ^ W) S n] ∧
      value (2 ^ W) S (fun i => w.t (i + S)) + w.c (2 * S - 1) * (2 ^ W) ^ S <
        2 * value (2 ^ W) S n ∧ ∀ k, w.t k < 2 ^ W := by
  obtain ⟨M, hM, hdvd, hsweeping⟩ := hw
  have hB : 0 < 2 ^ W := Nat.two_pow_pos W
  have hS := h.size
  have hR : 0 < (2 ^ W) ^ S := pow_pos hB S
  have htop : (view 1 w).carries (2 * S) = w.c (2 * S - 1) := view_carries (by omega) w
  have htotal := hsweeping.total
  rw [total_of_settled (by omega) hsweeping.settled, htop, Nat.two_mul, value_split] at htotal
  have hcomm : (fun k => (view 1 w).digits (S + k)) = fun i => w.t (i + S) :=
    funext fun k => congrArg w.t (Nat.add_comm S k)
  rw [hcomm, pow_add] at htotal
  -- the low half is a multiple of `2 ^ (W * S)` below it
  have hlow : value (2 ^ W) S (view 1 w).digits = 0 := by
    have hlt : value (2 ^ W) S (view 1 w).digits < (2 ^ W) ^ S :=
      value_lt fun k _ => hsweeping.digits k
    refine Nat.eq_zero_of_dvd_of_lt ?_ hlt
    rw [← htotal, Nat.add_assoc] at hdvd
    refine (Nat.dvd_add_left ?_).1 hdvd
    exact Nat.dvd_add (Nat.dvd_mul_right _ _) (Dvd.dvd.mul_left (Nat.dvd_mul_right _ _) _)
  rw [← Nat.two_mul S] at htotal
  have hQ : (value (2 ^ W) S (fun i => w.t (i + S)) + w.c (2 * S - 1) * (2 ^ W) ^ S) *
      (2 ^ W) ^ S = P + M * value (2 ^ W) S n := by
    rw [← htotal, hlow]
    ring
  refine ⟨?_, ?_, hsweeping.digits⟩
  · rw [hQ]
    exact (Nat.modEq_iff_dvd' (Nat.le_add_right _ _)).2 (by
      rw [Nat.add_sub_cancel_left]; exact Nat.dvd_mul_left _ _) |>.symm
  · refine lt_of_mul_lt_mul_right ?_ hR.le
    rw [hQ]
    exact mont_total_lt h le_rfl hM

/-- Numbers with the same words up to the top are written alike. -/
theorem writeWords_congr {S ret : ℕ} {u v mem : ℕ → ℕ} (h : ∀ k < S, u k = v k) :
    writeWords S ret u mem = writeWords S ret v mem :=
  forLoop_congr fun i hi m => by rw [h i hi]

/-- What `writeWords` leaves in memory. -/
theorem writeWords_apply (S ret : ℕ) (u mem : ℕ → ℕ) (k : ℕ) :
    writeWords S ret u mem k =
      if ret ≤ k ∧ k < ret + S then u (k - ret) else mem k :=
  forLoop_block_apply S ret u mem k

/-- The words of a number. -/
def wordsOf (W u : ℕ) : ℕ → ℕ := fun k => u / (2 ^ W) ^ k % 2 ^ W

theorem wordsOf_value {S : ℕ} {d : ℕ → ℕ} (h : ∀ k < S, d k < 2 ^ W) {k : ℕ} (hk : k < S) :
    d k = wordsOf W (value (2 ^ W) S d) k := (value_div_mod h hk).symm

/-- A difference below `2 ^ (W * S)` does not depend on what was lost above. -/
theorem sub_top {r N U b c R Q : ℕ} (hr : r < R) (hQ : Q < R) (hrU : r + N = U + b * R)
    (hQU : Q + N = U + c * R) : r = Q := by
  rcases lt_trichotomy b c with hlt | rfl | hgt
  · have hle := block_le hlt R
    omega
  · omega
  · have hle := block_le hgt R
    omega

/-- A difference below `R` and its borrow are those of the subtraction modulo `R`. -/
theorem difference_unique {r X Y b R : ℕ} (hr : r < R) (hY : Y < R)
    (h : r + Y = X + b * R) :
    r = (X + R - Y) % R ∧ b = if X < Y then 1 else 0 := by
  have hb : b < 2 := by
    refine lt_of_mul_lt_mul_right (a := R) ?_ (Nat.zero_le _)
    omega
  obtain rfl | rfl : b = 0 ∨ b = 1 := by omega
  · have hle : Y ≤ X := by omega
    have hsum : X + R - Y = r + R := by omega
    exact ⟨by rw [hsum, Nat.add_mod_right, Nat.mod_eq_of_lt hr], (if_neg (not_lt.2 hle)).symm⟩
  · have hlt : X < Y := by omega
    have hsum : X + R - Y = r := by omega
    exact ⟨by rw [hsum, Nat.mod_eq_of_lt hr], (if_pos hlt).symm⟩

end Mont

section Result

variable {W : ℕ} {wrap : ℕ → ℕ} {S junk : ℕ} {mem : ℕ → ℕ} {a b : ℕ} {n np : ℕ → ℕ}

/-- Before the first row the product is there and nothing has been cancelled. -/
theorem montProgress_zero (hS : 1 ≤ S) {t : ℕ → ℕ} {P : ℕ} (htwords : ∀ k, t k < 2 ^ W)
    (htvalue : value (2 ^ W) (2 * S) t = P) : MontProgress W S n P 0 ⟨t, fun _ => 0⟩ := by
  have hzero : ∀ k, (view 1 ⟨t, fun _ => 0⟩).carries k = 0 := by
    intro k
    simp [view]
  refine ⟨0, Nat.one_pos, by simp, ?_⟩
  rw [Nat.zero_mul, Nat.add_zero, ← htvalue]
  refine ⟨htwords, fun k _ => ?_, hzero 0, ?_, fun k _ _ _ => hzero k⟩
  · rw [hzero]
    exact Nat.two_pow_pos W
  · rw [total_of_settled (by omega) fun k _ _ _ => hzero k, hzero, Nat.zero_mul, Nat.add_zero]
    rfl

/-- `mp_montmul_cpu` writes the words of a number `u` below the modulus that does not depend on
the counters, on `junk` or on where the result goes. -/
theorem mp_montmul_spec (hmem : ∀ k, mem k < 2 ^ W)
    (h : MontInput W S n (np 0) (value (2 ^ W) S (fun i => mem (a + i)) *
      value (2 ^ W) S fun i => mem (b + i))) {u : ℕ} (hu : u < value (2 ^ W) S n)
    (hueq : u * (2 ^ W) ^ S ≡ value (2 ^ W) S (fun i => mem (a + i)) *
      value (2 ^ W) S (fun i => mem (b + i)) [MOD value (2 ^ W) S n])
    (hwrap : Holds W wrap) (hjunk : junk < 2 ^ W) {fuel : ℕ} (hfuel : 2 * S ≤ fuel) (ret : ℕ) :
    mp_montmul_cpu W wrap fuel S junk mem ret a b n np =
      some (writeWords S ret (wordsOf W u) mem) := by
  have hS := h.size
  have hW : 1 < 2 ^ W := Nat.lt_of_succ_lt h.word
  set P := value (2 ^ W) S (fun i => mem (a + i)) * value (2 ^ W) S (fun i => mem (b + i)) with hP
  set N := value (2 ^ W) S n with hN
  obtain ⟨t, ht, htwords, htvalue⟩ := mp_mul_spec hwrap hS h.counters hjunk
    (fun i _ => hmem (a + i)) (fun i _ => hmem (b + i)) hfuel
  have hstart : MontProgress W S n P 0 ⟨t, fun _ => 0⟩ := montProgress_zero hS htwords htvalue
  obtain ⟨w, hw, hprogress⟩ := montLoop_spec hwrap h hstart hfuel le_rfl
  obtain ⟨hQmod, hQlt, hwords⟩ := mont_quotient h hprogress
  set U := value (2 ^ W) S (fun i => w.t (i + S)) with hU
  -- the modulus is odd, so the power of the base can be cancelled
  have hcop : Nat.gcd N ((2 ^ W) ^ S) = 1 := by
    have hodd : Nat.Coprime N 2 := Nat.coprime_two_right.2 (Nat.odd_iff.2 h.odd)
    rw [← pow_mul]
    exact Nat.Coprime.pow_right _ hodd
  have hQu : U + w.c (2 * S - 1) * (2 ^ W) ^ S ≡ u [MOD N] :=
    Nat.ModEq.cancel_right_of_coprime hcop (hQmod.trans hueq.symm)
  have hUwords : ∀ i < S, w.t (i + S) < 2 ^ W := fun i _ => hwords _
  have hUlt : U < (2 ^ W) ^ S := value_lt hUwords
  have hNlt : N < (2 ^ W) ^ S := value_lt h.words
  have hbigger := uIsBigger_iff (u := fun i => w.t (i + S)) hUwords h.words
  rw [mp_montmul_cpu, ht]
  refine (Option.bind_some _ _).trans ?_
  rw [hw]
  refine (Option.bind_some _ _).trans ?_
  dsimp only
  -- the last comparison decides whether the modulus is taken off once
  by_cases hcase : N ≤ U + w.c (2 * S - 1) * (2 ^ W) ^ S
  · have hcond : w.c (2 * S - 1) ≠ 0 ∨ uIsBigger (fun i => w.t (i + S)) n S = true := by
      by_cases hc : w.c (2 * S - 1) = 0
      · rw [hc, Nat.zero_mul, Nat.add_zero] at hcase
        exact Or.inr (hbigger.2 hcase)
      · exact Or.inl hc
    obtain ⟨r, borrow, hr, hrwords, hrvalue⟩ := mp_sub_spec (f := fuel) hwrap hS hW hUwords
      h.words (by omega)
    -- one subtraction gives the residue: both are below the modulus
    have hu' : u + N = U + w.c (2 * S - 1) * (2 ^ W) ^ S := by
      have hsub : U + w.c (2 * S - 1) * (2 ^ W) ^ S - N ≡ u [MOD N] := by
        refine Nat.ModEq.trans ?_ hQu
        exact (Nat.mod_eq_sub_mod hcase).symm
      have heq := Nat.ModEq.eq_of_lt_of_lt hsub (by omega) hu
      omega
    have hru : value (2 ^ W) S r = u :=
      sub_top (value_lt fun k _ => hrwords k) (hu.trans hNlt) hrvalue hu'
    rw [if_pos hcond, hr]
    refine congrArg some (writeWords_congr fun k hk => ?_)
    rw [← hru]
    exact wordsOf_value (fun k _ => hrwords k) hk
  · have hc : w.c (2 * S - 1) = 0 := by
      by_contra hc
      have hle : 1 * (2 ^ W) ^ S ≤ w.c (2 * S - 1) * (2 ^ W) ^ S :=
        Nat.mul_le_mul_right _ (Nat.one_le_iff_ne_zero.2 hc)
      omega
    rw [hc, Nat.zero_mul, Nat.add_zero] at hcase hQu
    -- neither the top carry nor the comparison asks for it
    have hcond : ¬ (w.c (2 * S - 1) ≠ 0 ∨ uIsBigger (fun i => w.t (i + S)) n S = true) := by
      rintro (hne | hbig)
      · exact hne hc
      · exact hcase (hbigger.1 hbig)
    have hUu : U = u := Nat.ModEq.eq_of_lt_of_lt hQu (not_le.1 hcase) hu
    rw [if_neg hcond]
    refine congrArg some (writeWords_congr fun k hk => ?_)
    rw [← hUu]
    exact wordsOf_value hUwords hk

/-- An odd modulus has exactly one residue whose product with `2 ^ (W * S)` is that of `P`. -/
theorem exists_mont_residue {N P : ℕ} (hodd : N % 2 = 1) :
    ∃ u < N, u * (2 ^ W) ^ S ≡ P [MOD N] ∧
      ∀ v < N, v * (2 ^ W) ^ S ≡ P [MOD N] → v = u := by
  have hN : N ≠ 0 := by
    rintro rfl
    exact absurd hodd (by decide)
  have hcop : Nat.Coprime ((2 ^ W) ^ S) N := by
    rw [← pow_mul]
    exact Nat.Coprime.pow_left _ (Nat.coprime_two_left.2 (Nat.odd_iff.2 hodd))
  obtain ⟨u, hu, hueq⟩ := Nat.exists_mul_mod_eq_of_coprime P hcop hN
  rw [Nat.mul_comm] at hueq
  refine ⟨u, hu, hueq, fun v hv hveq => ?_⟩
  have hvu : v ≡ u [MOD N] :=
    Nat.ModEq.cancel_right_of_coprime hcop.symm (hveq.trans (Nat.ModEq.symm hueq))
  exact Nat.ModEq.eq_of_lt_of_lt hvu hv hu

/-- The `S` words from `p` on are those of `u`. -/
def HoldsNumber (W S : ℕ) (mem : ℕ → ℕ) (p u : ℕ) : Prop :=
  (∀ i < S, mem (p + i) < 2 ^ W) ∧ value (2 ^ W) S (fun i => mem (p + i)) = u

theorem holdsNumber_writeWords {u : ℕ} (hu : u < (2 ^ W) ^ S) (ret : ℕ) :
    HoldsNumber W S (writeWords S ret (wordsOf W u) mem) ret u := by
  have hword : ∀ i < S, writeWords S ret (wordsOf W u) mem (ret + i) = wordsOf W u i := by
    intro i hi
    rw [writeWords_apply, if_pos ⟨Nat.le_add_right _ _, Nat.add_lt_add_left hi _⟩,
      Nat.add_sub_cancel_left]
  refine ⟨fun i hi => ?_, ?_⟩
  · rw [hword i hi]
    exact Nat.mod_lt _ (Nat.two_pow_pos W)
  · rw [value_congr hword]
    exact (value_digits S u).trans (Nat.mod_eq_of_lt hu)

/-- The word routines are exact: whatever a counter does at `2 ^ W` or above, and whatever the
uninitialised counter holds, their sweeps end, `mp_mul_cpu` returns the product, `mp_sub_cpu` the
difference and its borrow, and `mp_montmul_cpu` writes the one residue `u` with
`u * 2 ^ (W * S) = a * b` modulo the modulus to `ret`, which may be `a` or `b`, and nothing
else. -/
theorem montgomery_words {W S : ℕ} (hW : W = 32 ∨ W = 64) (hS : 1 ≤ S) (hint : S < 2 ^ 31) :
    (∀ a b : ℕ → ℕ, (∀ i < S, a i < 2 ^ W) → (∀ i < S, b i < 2 ^ W) →
      ∀ wrap, Holds W wrap → ∀ junk < 2 ^ W, ∀ fuel ≥ 2 * S,
        ∃ t, mp_mul_cpu W wrap fuel S junk a b = some t ∧
          HoldsNumber W (2 * S) t 0 (value (2 ^ W) S a * value (2 ^ W) S b)) ∧
    (∀ x y : ℕ → ℕ, (∀ i < S, x i < 2 ^ W) → (∀ i < S, y i < 2 ^ W) →
      ∀ wrap, Holds W wrap → ∀ fuel ≥ 2 * S,
        ∃ r borrow, mp_sub_cpu W wrap fuel S x y = some (r, borrow) ∧
          HoldsNumber W S r 0
            ((value (2 ^ W) S x + 2 ^ (W * S) - value (2 ^ W) S y) % 2 ^ (W * S)) ∧
          borrow = if value (2 ^ W) S x < value (2 ^ W) S y then 1 else 0) ∧
    ∀ mem : ℕ → ℕ, (∀ k, mem k < 2 ^ W) → ∀ a b A B : ℕ, HoldsNumber W S mem a A →
      HoldsNumber W S mem b B → ∀ n np : ℕ → ℕ, ∀ N, HoldsNumber W S n 0 N → N % 2 = 1 →
      2 ^ W ∣ np 0 * N + 1 → A * B < N * 2 ^ (W * S) →
      ∃ u < N, u * 2 ^ (W * S) ≡ A * B [MOD N] ∧
        (∀ v < N, v * 2 ^ (W * S) ≡ A * B [MOD N] → v = u) ∧
        ∀ wrap, Holds W wrap → ∀ junk < 2 ^ W, ∀ fuel ≥ 2 * S, ∀ ret,
          ∃ mem', mp_montmul_cpu W wrap fuel S junk mem ret a b n np = some mem' ∧
            HoldsNumber W S mem' ret u ∧
            ∀ k, ¬ (ret ≤ k ∧ k < ret + S) → mem' k = mem k := by
  have hword : 2 * S < 2 ^ W ∧ 2 < 2 ^ W := by
    rcases hW with rfl | rfl <;> constructor <;> omega
  obtain ⟨hcounters, hword⟩ := hword
  refine ⟨?mul, ?sub, ?mont⟩
  case mul =>
    intro a b ha hb wrap hwrap junk hjunk fuel hfuel
    obtain ⟨t, ht, hwords, hvalue⟩ := mp_mul_spec hwrap hS hcounters hjunk ha hb hfuel
    exact ⟨t, ht, fun i _ => hwords _, by simpa only [Nat.zero_add] using hvalue⟩
  case sub =>
    intro x y hx hy wrap hwrap fuel hfuel
    obtain ⟨r, borrow, hr, hwords, hvalue⟩ := mp_sub_spec hwrap hS (by omega) hx hy
      (f := fuel) (by omega)
    rw [pow_mul]
    obtain ⟨hdiff, hborrow⟩ :=
      difference_unique (value_lt fun i _ => hwords i) (value_lt hy) hvalue
    refine ⟨r, borrow, hr, ⟨fun i _ => hwords _, ?_⟩, hborrow⟩
    simpa only [Nat.zero_add] using hdiff
  case mont =>
    intro mem hmem a b A B hA hB n np N hN hodd hinverse hproduct
    obtain ⟨hNwords, hNvalue⟩ := hN
    simp only [Nat.zero_add] at hNwords hNvalue
    rw [pow_mul] at hproduct ⊢
    obtain ⟨u, hu, hueq, hunique⟩ := exists_mont_residue (W := W) (S := S) (P := A * B) hodd
    refine ⟨u, hu, hueq, hunique, fun wrap hwrap junk hjunk fuel hfuel ret => ?_⟩
    have hinput : MontInput W S n (np 0) (A * B) := by
      refine ⟨hS, hcounters, hword, hNwords, ?_, ?_, ?_⟩
      all_goals rwa [hNvalue]
    have hsmall : u < (2 ^ W) ^ S := hu.trans (hNvalue ▸ value_lt hNwords)
    rw [← hNvalue] at hu hueq
    rw [← hA.2, ← hB.2] at hinput hueq
    refine ⟨_, mp_montmul_spec hmem hinput hu hueq hwrap hjunk hfuel ret,
      holdsNumber_writeWords hsmall ret, fun k hk => ?_⟩
    rw [writeWords_apply, if_neg hk]

/-- Two words of 32 bits, the modulus `2 ^ 64 - 1` and both operands `2 ^ 64 - 2`: the product is
`1`, written over the operands. -/
theorem montgomery_words_all_ones :
    ∃ mem', mp_montmul_cpu 32 (· % 2 ^ 32) 4 2 7
        (fun k => if k = 0 then 2 ^ 32 - 2 else 2 ^ 32 - 1) 0 0 0
        (fun _ => 2 ^ 32 - 1) (fun _ => 1) = some mem' ∧
      HoldsNumber 32 2 mem' 0 1 ∧ mem' 2 = 2 ^ 32 - 1 := by
  have hnumbers : ∀ p : ℕ → ℕ, (∀ i < 2, p i < 2 ^ 32) →
      HoldsNumber 32 2 p 0 (p 0 + p 1 * 2 ^ 32) := fun p hp =>
    ⟨fun i hi => by rw [Nat.zero_add]; exact hp i hi, by simp [value, Finset.sum_range_succ]⟩
  obtain ⟨-, -, hmont⟩ := montgomery_words (W := 32) (S := 2) (Or.inl rfl) (by decide) (by decide)
  have hoperand := hnumbers (fun k => if k = 0 then 2 ^ 32 - 2 else 2 ^ 32 - 1) (by decide)
  have hmodulus := hnumbers (fun _ => 2 ^ 32 - 1) (by decide)
  obtain ⟨u, -, -, hunique, hrun⟩ := hmont _
    (fun k => by split_ifs <;> decide) 0 0 _ _ hoperand hoperand _ (fun _ => 1) _
    hmodulus (by decide) (by decide) (by decide)
  obtain ⟨mem', hmem', hnumber, hframe⟩ := hrun _ (holds_mod 32) 7 (by decide) 4 le_rfl 0
  rw [← hunique 1 (by decide) (by decide)] at hnumber
  exact ⟨mem', hmem', hnumber, hframe 2 (by decide)⟩

end Result

end Pepper.LibGpu.MontWords
