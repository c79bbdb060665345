import Mathlib.Algebra.Polynomial.Div
import Mathlib.Algebra.Polynomial.Monic
import Mathlib.Algebra.Polynomial.FieldDivision
import Mathlib.Tactic

/-!
# Dense polynomials as coefficient lists

Executable polynomials over a field, lowest coefficient first, with the arithmetic
a polynomial library offers: `add`, `mul`, `buildFromRoots` and the exact division
`divide`. `toPoly` reads a list as a polynomial. The operations agree with
those of `Polynomial` (`toPoly_add`, `toPoly_mul`, `toPoly_buildFromRoots`), and
`divide` answers exactly when the divisor divides (`divide_eq_some`,
`divide_isSome`).
-/

set_option autoImplicit false

open Polynomial

namespace Pepper.Foundations.DensePoly

universe u

variable {F : Type u} [Field F]

/-- The polynomial with the given coefficients. -/
noncomputable def toPoly : List F → F[X]
  | [] => 0
  | a :: as => C a + X * toPoly as

@[simp] theorem toPoly_nil : toPoly ([] : List F) = 0 := rfl

@[simp] theorem toPoly_cons (a : F) (as : List F) :
    toPoly (a :: as) = C a + X * toPoly as := rfl

/-- Coefficient of degree `k`, zero past the end. -/
def coeffAt (as : List F) (k : ℕ) : F := as.getD k 0

theorem coeff_toPoly (as : List F) (k : ℕ) : (toPoly as).coeff k = coeffAt as k := by
  induction as generalizing k with
  | nil => simp [coeffAt]
  | cons a as ih =>
      cases k with
      | zero => simp [coeffAt]
      | succ k =>
          have htail := ih k
          simp only [coeffAt] at htail
          simp [coeffAt, htail]

theorem toPoly_map_range (n : ℕ) (f : ℕ → F) :
    toPoly ((List.range n).map f) = ∑ i ∈ Finset.range n, C (f i) * X ^ i := by
  ext k
  rw [coeff_toPoly, coeffAt, finsetSum_coeff]
  simp only [coeff_C_mul_X_pow, Finset.sum_ite_eq, Finset.mem_range]
  by_cases hk : k < n
  · simp [List.getD_eq_getElem?_getD, hk]
  · simp [List.getD_eq_getElem?_getD, hk]

/-- Coefficientwise sum of lists of any lengths. -/
def add : List F → List F → List F
  | [], bs => bs
  | a :: as, [] => a :: as
  | a :: as, b :: bs => (a + b) :: add as bs

/-- Scalar multiple. -/
def scale (c : F) (as : List F) : List F := as.map fun a => c * a

/-- Schoolbook product. -/
def mul : List F → List F → List F
  | [], _ => []
  | a :: as, bs => add (scale a bs) (0 :: mul as bs)

@[simp] theorem toPoly_add (as bs : List F) : toPoly (add as bs) = toPoly as + toPoly bs := by
  induction as generalizing bs with
  | nil => simp [add]
  | cons a as ih =>
      cases bs with
      | nil => simp [add]
      | cons b bs =>
          simp only [add, toPoly_cons, ih, C_add]
          ring

@[simp] theorem toPoly_scale (c : F) (as : List F) : toPoly (scale c as) = C c * toPoly as := by
  induction as with
  | nil => simp [scale]
  | cons a as ih =>
      have htail : toPoly (as.map fun b => c * b) = C c * toPoly as := ih
      simp only [scale, List.map_cons, toPoly_cons, htail, C_mul]
      ring

@[simp] theorem toPoly_mul (as bs : List F) : toPoly (mul as bs) = toPoly as * toPoly bs := by
  induction as with
  | nil => simp [mul]
  | cons a as ih =>
      simp only [mul, toPoly_add, toPoly_scale, toPoly_cons, ih, C_0]
      ring

/-- The monic polynomial with the given roots. -/
def buildFromRoots : List F → List F
  | [] => [1]
  | r :: rs => mul [-r, 1] (buildFromRoots rs)

theorem toPoly_buildFromRoots (rs : List F) :
    toPoly (buildFromRoots rs) = (rs.map fun r => X - C r).prod := by
  induction rs with
  | nil => simp [buildFromRoots]
  | cons r rs ih =>
      have hlinear : toPoly [-r, 1] = X - C r := by simp; ring
      rw [buildFromRoots, toPoly_mul, ih, hlinear, List.map_cons, List.prod_cons]

/-- The list without its trailing zero coefficients. -/
def trim [DecidableEq F] : List F → List F
  | [] => []
  | a :: as =>
      match trim as with
      | [] => if a = 0 then [] else [a]
      | b :: bs => a :: b :: bs

@[simp] theorem toPoly_trim [DecidableEq F] (as : List F) : toPoly (trim as) = toPoly as := by
  induction as with
  | nil => rfl
  | cons a as ih =>
      rw [trim]
      cases htail : trim as with
      | nil =>
          have hzero : toPoly as = 0 := by rw [← ih, htail, toPoly_nil]
          by_cases ha : a = 0
          · simp [ha, hzero]
          · simp [ha, hzero]
      | cons b bs =>
          have hstep : toPoly (a :: as) = C a + X * toPoly (b :: bs) := by
            rw [toPoly_cons, ← ih, htail]
          exact hstep.symm

theorem trim_getLast_ne_zero [DecidableEq F] (as : List F) (h : trim as ≠ []) :
    (trim as).getLast h ≠ 0 := by
  induction as with
  | nil => exact absurd rfl h
  | cons a as ih =>
      cases htail : trim as with
      | nil =>
          by_cases ha : a = 0
          · exact absurd (by simp [trim, htail, ha]) h
          · simp [trim, htail, ha]
      | cons b bs =>
          have htrim : trim (a :: as) = a :: b :: bs := by simp [trim, htail]
          have hlast := ih (by simp [htail])
          simp only [htail] at hlast
          simpa [htrim] using hlast

/-- Quotient and remainder by the divisor `low + lead * X ^ low.length`, one dividend
coefficient at a time from the top. -/
def divModLead (low : List F) (lead : F) : List F → List F × List F
  | [] => ([], [])
  | a :: as =>
      let q := (divModLead low lead as).1
      let r := a :: (divModLead low lead as).2
      let c := coeffAt r low.length / lead
      (c :: q, (add r (scale (-c) (low ++ [lead]))).take low.length)

theorem coeff_toPoly_of_length_le (as : List F) (k : ℕ) (hk : as.length ≤ k) :
    (toPoly as).coeff k = 0 := by
  rw [coeff_toPoly, coeffAt, List.getD_eq_getElem?_getD, List.getElem?_eq_none hk,
    Option.getD_none]

theorem toPoly_take_of_coeff (as : List F) (n : ℕ) (h : ∀ k, n ≤ k → (toPoly as).coeff k = 0) :
    toPoly (as.take n) = toPoly as := by
  ext k
  by_cases hk : k < n
  · rw [coeff_toPoly, coeff_toPoly, coeffAt, coeffAt]
    simp [List.getD_eq_getElem?_getD, hk]
  · have hk' : n ≤ k := Nat.le_of_not_lt hk
    rw [h k hk', coeff_toPoly_of_length_le]
    exact (List.length_take_le n as).trans hk'

theorem length_divModLead_snd_le (low : List F) (lead : F) (as : List F) :
    (divModLead low lead as).2.length ≤ low.length := by
  cases as with
  | nil => simp [divModLead]
  | cons a as => exact List.length_take_le _ _

/-- Division with remainder: the quotient and remainder recompose the dividend. -/
theorem toPoly_divModLead (low : List F) (lead : F) (hlead : lead ≠ 0) (as : List F) :
    toPoly as = toPoly (divModLead low lead as).1 * toPoly (low ++ [lead]) +
      toPoly (divModLead low lead as).2 := by
  induction as with
  | nil => simp [divModLead]
  | cons a as ih =>
      have hlen := length_divModLead_snd_le low lead as
      simp only [divModLead]
      rw [toPoly_take_of_coeff]
      · simp only [toPoly_add, toPoly_scale, toPoly_cons, C_neg]
        rw [ih]
        ring
      · intro k hk
        rw [toPoly_add, toPoly_scale, coeff_add, coeff_C_mul]
        rcases Nat.eq_or_lt_of_le hk with rfl | hk
        · have htop : (toPoly (low ++ [lead])).coeff low.length = lead := by
            rw [coeff_toPoly, coeffAt]
            simp
          rw [htop, coeff_toPoly, neg_mul, div_mul_cancel₀ _ hlead, add_neg_cancel]
        · rw [coeff_toPoly_of_length_le _ k, coeff_toPoly_of_length_le _ k, mul_zero, add_zero]
          · simp only [List.length_append, List.length_singleton]; omega
          · simp only [List.length_cons]; omega

/-- Exact division: the quotient when `b` divides `a`, nothing otherwise. -/
def divide [DecidableEq F] (a b : List F) : Option (List F) :=
  match (trim b).reverse with
  | [] => if trim a = [] then some [] else none
  | lead :: low =>
      let (q, r) := divModLead low.reverse lead a
      if trim r = [] then some q else none

theorem trim_eq_nil_iff [DecidableEq F] (as : List F) : trim as = [] ↔ toPoly as = 0 := by
  constructor
  · intro h
    rw [← toPoly_trim, h, toPoly_nil]
  · intro h
    by_contra hne
    have hlast := trim_getLast_ne_zero as hne
    have hcoeff : (toPoly (trim as)).coeff ((trim as).length - 1) = (trim as).getLast hne := by
      rw [coeff_toPoly, coeffAt, List.getLast_eq_getElem, List.getD_eq_getElem?_getD,
        List.getElem?_eq_getElem (by have := List.length_pos_iff.2 hne; omega), Option.getD_some]
    rw [toPoly_trim, h, coeff_zero] at hcoeff
    exact hlast hcoeff.symm

theorem natDegree_lead (low : List F) {lead : F} (hlead : lead ≠ 0) :
    (toPoly (low ++ [lead])).natDegree = low.length := by
  apply natDegree_eq_of_le_of_coeff_ne_zero
  · rw [natDegree_le_iff_coeff_eq_zero]
    intro k hk
    apply coeff_toPoly_of_length_le
    simp only [List.length_append, List.length_singleton]
    omega
  · rw [coeff_toPoly, coeffAt]
    simpa using hlead

theorem degree_remainder_lt (low : List F) {lead : F} (hlead : lead ≠ 0) (as : List F) :
    (toPoly (divModLead low lead as).2).degree < (toPoly (low ++ [lead])).degree := by
  have hne : toPoly (low ++ [lead]) ≠ 0 := by
    intro hzero
    have hcoeff : (toPoly (low ++ [lead])).coeff low.length = lead := by
      rw [coeff_toPoly, coeffAt]; simp
    rw [hzero, coeff_zero] at hcoeff
    exact hlead hcoeff.symm
  rw [degree_eq_natDegree hne, natDegree_lead low hlead, degree_lt_iff_coeff_zero]
  intro k hk
  exact coeff_toPoly_of_length_le _ k ((length_divModLead_snd_le low lead as).trans hk)

/-- A non-zero divisor splits into its lower coefficients and a non-zero leading one. -/
theorem trim_reverse_cases [DecidableEq F] (b : List F) (hb : toPoly b ≠ 0) :
    ∃ low lead, lead ≠ 0 ∧ (trim b).reverse = lead :: low ∧
      toPoly b = toPoly (low.reverse ++ [lead]) := by
  have hne : trim b ≠ [] := fun h => hb ((trim_eq_nil_iff b).1 h)
  refine ⟨(trim b).dropLast.reverse, (trim b).getLast hne, trim_getLast_ne_zero b hne, ?_, ?_⟩
  · conv_lhs => rw [← List.dropLast_append_getLast hne]
    simp
  · rw [List.reverse_reverse, List.dropLast_append_getLast hne, toPoly_trim]

/-- What `divide` returns is a quotient. -/
theorem divide_eq_some [DecidableEq F] {a b q : List F} (hb : toPoly b ≠ 0)
    (h : divide a b = some q) : toPoly a = toPoly q * toPoly b := by
  obtain ⟨low, lead, hlead, hrev, hpoly⟩ := trim_reverse_cases b hb
  simp only [divide, hrev] at h
  by_cases hr : trim (divModLead low.reverse lead a).2 = []
  · rw [if_pos hr, Option.some_inj] at h
    have hdiv := toPoly_divModLead low.reverse lead hlead a
    rw [(trim_eq_nil_iff _).1 hr, add_zero, h, ← hpoly] at hdiv
    exact hdiv
  · rw [if_neg hr] at h
    exact absurd h (by simp)

/-- `divide` answers whenever the divisor divides. -/
theorem divide_isSome [DecidableEq F] {a b : List F} (hb : toPoly b ≠ 0)
    (h : toPoly b ∣ toPoly a) : ∃ q, divide a b = some q := by
  obtain ⟨low, lead, hlead, hrev, hpoly⟩ := trim_reverse_cases b hb
  have hdiv := toPoly_divModLead low.reverse lead hlead a
  have hrem : toPoly (divModLead low.reverse lead a).2 = 0 := by
    have hdvd : toPoly b ∣ toPoly (divModLead low.reverse lead a).2 := by
      rw [← hpoly] at hdiv
      have hrest := (dvd_add_right (Dvd.intro_left _ rfl)).1 (hdiv ▸ h)
      exact hrest
    refine eq_zero_of_dvd_of_degree_lt hdvd ?_
    rw [hpoly]
    exact degree_remainder_lt low.reverse hlead a
  refine ⟨(divModLead low.reverse lead a).1, ?_⟩
  simp only [divide, hrev]
  rw [if_pos ((trim_eq_nil_iff _).2 hrem)]

end Pepper.Foundations.DensePoly
