import Pepper.Cmtgkr.SumCheckProver

/-!
# The extension in one variable at integer points

`mle_si` and `mulmle_si` evaluate the line through two values at a `long`, `mle` and `mulmle` at a
residue. `addmodmult_si`, which adds a product with a `long`, multiplies with its absolute value and
then changes the sign of the whole accumulator, so that a negative factor turns the sign of what
was there before. In `mulmle_si` that is the product with `val0`.

`integerPoints_iff` says at which points and values both versions agree: at all points from zero
on, and below zero only where the product with `val0` vanishes. The rounds of the sum-check are
evaluated at points from two on (`roundPoint_agrees`).
-/

set_option autoImplicit false

open Pepper.Common.Gmp Pepper.Foundations.Multilinear
open Pepper.Cmtgkr.Env Pepper.Cmtgkr.SumCheckProver

namespace Pepper.Cmtgkr.IntegerPoints

/-! ## The code on machine integers -/

/-- `abs` of a `long`, passed on as an `unsigned long`. -/
def absUi (op : Int64) : ℕ := (if op < 0 then -op else op).toUInt64.toNat

/-- `addmodmult_si`. -/
def addmodmultSi (rop op1 : ℤ) (op2 : Int64) (prime : ℤ) : ℤ :=
  let rop := rop + op1 * absUi op2
  -- the sign goes to the sum, not to the product alone
  let rop := if op2 < 0 then -rop else rop
  rop % prime

/-- `mulmle_si`. -/
def mulmleSi (rop : ℤ) (pt : Int64) (val0 val1 prime : ℤ) : ℤ :=
  if pt = 0 then modmult rop val0 prime
  else if pt = 1 then modmult rop val1 prime
  else
    let tmp := val0 * (1 - pt).toInt
    let tmp := addmodmultSi tmp val1 pt prime
    modmult rop tmp prime

/-- `mle_si`. -/
def mleSi (pt : Int64) (val0 val1 prime : ℤ) : ℤ := mulmleSi 1 pt val0 val1 prime

/-- `mulmle2_si`. -/
def mulmle2Si (op1 : ℤ) (op2 : Int64) (bit : Bool) (prime : ℤ) : ℤ :=
  modmult op1 (if bit then op2 else 1 - op2).toInt prime

/-- A point at which `1 - pt` and `abs(pt)` do not overflow. -/
def AwayFromLimits (pt : Int64) : Prop := -2 ^ 63 + 1 < pt.toInt

instance (pt : Int64) : Decidable (AwayFromLimits pt) :=
  inferInstanceAs (Decidable (-2 ^ 63 + 1 < pt.toInt))

/-! ## Machine integers as integers -/

section Machine

variable {pt : Int64}

theorem lt_zero_iff (op : Int64) : op < 0 ↔ op.toInt < 0 := by
  rw [Int64.lt_iff_toInt_lt, Int64.toInt_zero]

theorem toInt_one_sub (hpt : AwayFromLimits pt) : (1 - pt).toInt = 1 - pt.toInt := by
  have hlow : -2 ^ 63 + 1 < pt.toInt := hpt
  have hhigh := pt.toInt_lt
  rw [Int64.toInt_sub, Int64.toInt_one]
  exact Int.bmod_eq_of_le (by omega) (by omega)

theorem absUi_eq (hpt : AwayFromLimits pt) : (absUi pt : ℤ) = |pt.toInt| := by
  have hlow : -2 ^ 63 + 1 < pt.toInt := hpt
  have hhigh := pt.toInt_lt
  -- a `long` from zero on is the same number as an `unsigned long`
  have hcast : ∀ op : Int64, 0 ≤ op.toInt → (op.toUInt64.toNat : ℤ) = op.toInt := by
    intro op hop
    have hle : 0 ≤ op := by rwa [Int64.le_iff_toInt_le, Int64.toInt_zero]
    rw [Int64.toNat_toUInt64_of_le hle]
    exact Int.toNat_of_nonneg hop
  rw [absUi]
  split_ifs with hneg
  · rw [lt_zero_iff] at hneg
    have htoInt : (-pt).toInt = -pt.toInt := by
      rw [Int64.toInt_neg]
      exact Int.bmod_eq_of_le (by omega) (by omega)
    rw [hcast _ (by omega), htoInt, abs_of_neg hneg]
  · rw [lt_zero_iff, not_lt] at hneg
    rw [hcast _ hneg, abs_of_nonneg hneg]

/-- Away from the limits the code computes on the integers. -/
theorem mulmleSi_eq (hpt : AwayFromLimits pt) (rop val0 val1 prime : ℤ) :
    mulmleSi rop pt val0 val1 prime = Env.mulmleSi rop pt.toInt val0 val1 prime := by
  have hzero : pt = 0 ↔ pt.toInt = 0 := by rw [← Int64.toInt_inj, Int64.toInt_zero]
  have hone : pt = 1 ↔ pt.toInt = 1 := by rw [← Int64.toInt_inj, Int64.toInt_one]
  simp only [mulmleSi, Env.mulmleSi, addmodmultSi, Env.addmodmultSi, hzero, hone,
    toInt_one_sub hpt, absUi_eq hpt, lt_zero_iff]

theorem mulmle2Si_eq (hpt : AwayFromLimits pt) (op1 : ℤ) (bit : Bool) (prime : ℤ) :
    mulmle2Si op1 pt bit prime = SumCheckProver.mulmle2Si op1 pt.toInt bit prime := by
  cases bit with
  | true => rfl
  | false =>
      change modmult op1 (1 - pt).toInt prime = modmult op1 (1 - pt.toInt) prime
      rw [toInt_one_sub hpt]

end Machine

/-! ## Both versions -/

/-- The integer versions at the point `pt` and the field versions at its residue agree. -/
structure PointAgrees (p : ℕ) (pt : Int64) (acc val0 val1 : ℤ) : Prop where
  mulmle : mulmleSi acc pt val0 val1 p ≡ Env.mulmle acc (pt.toInt % p) val0 val1 p [ZMOD p]
  mulmle_value : Env.mulmle acc (pt.toInt % p) val0 val1 p ≡
    acc * ((1 - pt.toInt) * val0 + pt.toInt * val1) [ZMOD p]
  mle : mleSi pt val0 val1 p ≡ Env.mle (pt.toInt % p) val0 val1 p [ZMOD p]

/-- At the point `m` of a round the sum-check's prover evaluates with integers what `evaluate_beta`
and `mul_chi` evaluate at a residue: the factor of `betar`, the factor of a wire, and the line
through two gate values. -/
structure RoundPointAgrees (p : ℕ) (m : Int64) : Prop where
  beta : ∀ betar z : ℤ, modmult betar (mleSi m (oneSub z) z p) p ≡
    Env.mulmle betar z (oneSub (m.toInt % p)) (m.toInt % p) p [ZMOD p]
  wire : ∀ (addormultr : ℤ) (bit : Bool), mulmle2Si addormultr m bit p ≡
    mulmle2 addormultr (m.toInt % p) bit p [ZMOD p]
  value : ∀ val0 val1 : ℤ, mleSi m val0 val1 p ≡ Env.mle (m.toInt % p) val0 val1 p [ZMOD p]

/-- Both versions agree for these values, and at every point at which a round is evaluated. -/
structure IntegerPointsAgree (p : ℕ) (pt : Int64) (acc val0 val1 : ℤ) : Prop where
  point : PointAgrees p pt acc val0 val1
  rounds : ∀ m : Int64, 2 ≤ m.toInt → m.toInt < polySize → RoundPointAgrees p m

section Agreement

variable {p : ℕ} {pt : Int64}

/-- The code below zero negates the product with `val0`. -/
theorem cast_mulmleSi (hpt : AwayFromLimits pt) (acc val0 val1 : ℤ) :
    (mulmleSi acc pt val0 val1 p : ZMod p) =
      acc * ((if pt.toInt < 0 then -1 else 1) * ((1 - pt.toInt) * val0) + pt.toInt * val1) := by
  rw [mulmleSi_eq hpt, Env.cast_mulmleSi]

theorem cast_mleSi_of_nonneg (hpt : 0 ≤ pt.toInt) (val0 val1 : ℤ) :
    (mleSi pt val0 val1 p : ZMod p) = (1 - pt.toInt) * val0 + pt.toInt * val1 := by
  have haway : AwayFromLimits pt := lt_of_lt_of_le (by norm_num) hpt
  rw [mleSi, cast_mulmleSi haway, if_neg (not_lt.2 hpt), Int.cast_one, one_mul, one_mul]

theorem mulmle_residue (acc val0 val1 : ℤ) :
    Env.mulmle acc (pt.toInt % p) val0 val1 p ≡
      acc * ((1 - pt.toInt) * val0 + pt.toInt * val1) [ZMOD p] := by
  rw [← ZMod.intCast_eq_intCast_iff, Env.cast_mulmle, ZMod.intCast_mod]
  push_cast
  rfl

/-- From zero on the prover's round values are the verifier's. -/
theorem roundPoint_agrees {m : Int64} (hm : 0 ≤ m.toInt) : RoundPointAgrees p m where
  beta betar z := by
    rw [← ZMod.intCast_eq_intCast_iff, cast_modmult, cast_mleSi_of_nonneg hm, Env.cast_mulmle,
      cast_oneSub, cast_oneSub, ZMod.intCast_mod]
    ring
  wire addormultr bit := by
    have haway : AwayFromLimits m := lt_of_lt_of_le (by norm_num) hm
    rw [← ZMod.intCast_eq_intCast_iff, mulmle2Si_eq haway, SumCheckProver.mulmle2Si, mulmle2,
      cast_modmult, cast_modmult]
    cases bit with
    | true => simp
    | false => simp
  value val0 val1 := by
    rw [← ZMod.intCast_eq_intCast_iff, cast_mleSi_of_nonneg hm, Env.cast_mle, ZMod.intCast_mod]

variable [Fact p.Prime]

/-- Below zero both versions differ by twice the product with `val0`. -/
theorem mulmleSi_agrees_iff (hodd : p ≠ 2) (hpt : AwayFromLimits pt) (acc val0 val1 : ℤ) :
    mulmleSi acc pt val0 val1 p ≡ Env.mulmle acc (pt.toInt % p) val0 val1 p [ZMOD p] ↔
      0 ≤ pt.toInt ∨ pt.toInt ≡ 1 [ZMOD p] ∨ (p : ℤ) ∣ val0 ∨ (p : ℤ) ∣ acc := by
  rw [← ZMod.intCast_eq_intCast_iff, cast_mulmleSi hpt, Env.cast_mulmle, ZMod.intCast_mod,
    ← ZMod.intCast_eq_intCast_iff, ← ZMod.intCast_zmod_eq_zero_iff_dvd,
    ← ZMod.intCast_zmod_eq_zero_iff_dvd, Int.cast_one]
  by_cases hneg : pt.toInt < 0
  · have htwo : (2 : ZMod p) ≠ 0 := Ring.two_ne_zero (by rwa [ZMod.ringChar_zmod_n])
    rw [if_pos hneg, ← sub_eq_zero]
    have hdiff : ∀ x a v w : ZMod p,
        a * (-1 * ((1 - x) * v) + x * w) - a * ((1 - x) * v + x * w) =
          -2 * (a * ((1 - x) * v)) := by
      intro x a v w
      ring
    rw [hdiff, mul_eq_zero, mul_eq_zero, mul_eq_zero, neg_eq_zero, sub_eq_zero,
      eq_comm (a := (1 : ZMod p))]
    constructor
    · rintro (h | h | h | h)
      · exact absurd h htwo
      · exact Or.inr (Or.inr (Or.inr h))
      · exact Or.inr (Or.inl h)
      · exact Or.inr (Or.inr (Or.inl h))
    · rintro (h | h | h | h)
      · exact absurd hneg (not_lt.2 h)
      · exact Or.inr (Or.inr (Or.inl h))
      · exact Or.inr (Or.inr (Or.inr h))
      · exact Or.inr (Or.inl h)
  · rw [if_neg hneg, one_mul]
    exact iff_of_true rfl (Or.inl (not_lt.1 hneg))

/-- For every odd prime, every point away from the limits and all values. -/
theorem integerPoints_iff (hodd : p ≠ 2) (hpt : AwayFromLimits pt) (acc val0 val1 : ℤ) :
    IntegerPointsAgree p pt acc val0 val1 ↔
      0 ≤ pt.toInt ∨ pt.toInt ≡ 1 [ZMOD p] ∨ (p : ℤ) ∣ val0 := by
  have hone : ¬ (p : ℤ) ∣ 1 := by
    intro h
    exact (Fact.out : p.Prime).one_lt.ne' (by exact_mod_cast Int.eq_one_of_dvd_one (by omega) h)
  have hmle := mulmleSi_agrees_iff hodd hpt 1 val0 val1
  constructor
  · intro h
    rcases hmle.1 h.point.mle with h | h | h | h
    · exact Or.inl h
    · exact Or.inr (Or.inl h)
    · exact Or.inr (Or.inr h)
    · exact absurd h hone
  · intro h
    have hany : ∀ a : ℤ, 0 ≤ pt.toInt ∨ pt.toInt ≡ 1 [ZMOD p] ∨ (p : ℤ) ∣ val0 ∨ (p : ℤ) ∣ a :=
      fun a => h.imp_right fun h => h.imp_right Or.inl
    refine ⟨⟨?_, mulmle_residue acc val0 val1, ?_⟩, fun m hm _ => roundPoint_agrees (by omega)⟩
    · exact (mulmleSi_agrees_iff hodd hpt acc val0 val1).2 (hany acc)
    · exact hmle.2 (hany 1)

/-- The point two, and the point minus four, which is congruent to one. -/
theorem integerPoints_agree_two :
    IntegerPointsAgree 5 2 3 1 4 ∧ IntegerPointsAgree 5 (-4) 3 1 4 := by
  have : Fact (Nat.Prime 5) := ⟨by norm_num⟩
  exact ⟨(integerPoints_iff (by decide) (by decide) 3 1 4).2 (Or.inl (by decide)),
    (integerPoints_iff (by decide) (by decide) 3 1 4).2 (Or.inr (Or.inl (by decide)))⟩

/-- The line through `1` at zero and `0` at one, at the point `-1`: its value is `2`, and the code
returns `-2`. -/
theorem negativePoint_fails :
    mulmleSi 1 (-1) 1 0 5 = 3 ∧ Env.mulmle 1 ((-1 : Int64).toInt % 5) 1 0 5 = 2 ∧
      ¬ IntegerPointsAgree 5 (-1) 1 1 0 := by
  have hsi : mulmleSi 1 (-1) 1 0 5 = 3 := by decide
  have hfield : Env.mulmle 1 ((-1 : Int64).toInt % 5) 1 0 5 = 2 := by decide
  refine ⟨hsi, hfield, fun h => ?_⟩
  have := h.point.mulmle
  rw [show ((5 : ℕ) : ℤ) = 5 from rfl, hsi, hfield] at this
  exact absurd this (by decide)

end Agreement

end Pepper.Cmtgkr.IntegerPoints
