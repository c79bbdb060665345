import Pepper.Common.ConstraintGadgets

/-!
# What the constraints of a gadget force

A prover need not follow the generator: it may put any residues into the variables a call creates.
`Satisfies` is what the verifier checks of such an assignment, constraint by constraint.
Bits satisfy their constraints only with their weights (`bits_sum`), so numerator and denominator
of a comparison are confined to ranges in which the cross-multiplied equation cannot wrap around the
prime; and one flag of a vector comparison has to be zero if the flag of the whole is, which leaves
its difference an inverse. `gadgets_sound` gathers the three results.
-/

set_option autoImplicit false

open Pepper.Common.Gmp

namespace Pepper.Common.ConstraintGen

section Satisfaction

variable {p : ℕ}

/-- The generator as a verifier that has accumulated nothing and weighs constraint `k` alone. -/
def Generator.observing (s : Generator) (k : ℕ) : Generator :=
  { s with mode := .v, gamma := single k, acc := ⟨0, zeroVec, zeroVec⟩ }

/-- An assignment satisfies every constraint that a call emits. -/
def Satisfies (s : Generator) (op : Op) (a : ℕ → ZMod p) : Prop :=
  ∀ k, (op.step (s.observing k)).acc.eval a s.cktCoefs1Length = 0

theorem eval_zero (a : ℕ → ZMod p) (length : ℕ) :
    Accumulators.eval a length ⟨0, zeroVec, zeroVec⟩ = 0 := by
  simp [Accumulators.eval, zeroVec]

/-- The verifier sees the terms of the call. -/
theorem satisfies_iff {s : Generator} {o : Op} {a : ℕ → ZMod p}
    (hbelow : ∀ t ∈ (o.effect s.prime s.oneq s.variablesNext s.constraintsNext).terms,
      t.Below s.cktCoefs1Length) :
    Satisfies s o a ↔ ∀ k, residual (single k) a
      (o.effect s.prime s.oneq s.variablesNext s.constraintsNext).terms = 0 := by
  refine forall_congr' fun k => ?_
  rw [o.step_eq (s.observing k) fun h => nomatch h]
  have hfold := eval_foldl (single k) a _ hbelow ⟨0, zeroVec, zeroVec⟩
  rw [eval_zero, zero_add] at hfold
  rw [← hfold]
  exact Iff.rfl

end Satisfaction

/-! ## One constraint at a time -/

section Constraints

variable {p : ℕ} [Fact p.Prime] {a : ℕ → ZMod p} {c k : ℕ}

theorem residual_single_of_ne {terms : List Term} (h : ∀ t ∈ terms, t.constraint ≠ k) :
    residual (single k) a terms = 0 :=
  residual_eq_zero _ _ fun t ht => cast_single_of_ne (h t ht)

@[simp] theorem cast_single_self : ((single k k : ℤ) : ZMod p) = 1 := by
  rw [single, if_pos rfl, Int.cast_one]

theorem bitsTerms_outside {xb n : ℕ} (h : k < c ∨ c + n ≤ k) :
    residual (single k) a (bitsTerms c xb n) = 0 := by
  refine residual_single_of_ne fun t ht => ?_
  obtain ⟨b, hb, ht⟩ := List.mem_flatMap.1 ht
  have hb' := List.mem_range.1 hb
  simp only [List.mem_cons, List.not_mem_nil, or_false] at ht
  rcases ht with rfl | rfl
  · dsimp only
    omega
  · dsimp only
    omega

theorem fractionTerms_outside {check x y num r den t : ℕ} (h : check ≠ k) :
    residual (single k) a (fractionTerms check x y num r den t) = 0 := by
  rw [fractionTerms_residual, cast_single_of_ne h, zero_mul]

/-- The constraint of one bit. -/
theorem residual_bit (xb n : ℕ) {b : ℕ} (hb : b < n) :
    residual (single (c + b)) a (bitsTerms c xb n) =
      2 ^ (n - 1 - b) * a (xb + b) - a (xb + b) * a (xb + b) := by
  rw [bitsTerms, residual_range, Finset.sum_eq_single b]
  · simp only [residual_cons, residual_nil, termValue, cast_single_self, factorValue_natCast,
      factorValue_neg_one]
    push_cast
    ring
  · intro i _ hi
    refine residual_single_of_ne fun t ht => ?_
    simp only [List.mem_cons, List.not_mem_nil, or_false] at ht
    rcases ht with rfl | rfl <;> exact fun h => hi (Nat.add_left_cancel h)
  · exact fun h => absurd (Finset.mem_range.2 hb) h

end Constraints

/-! ## Ranges -/

section Ranges

variable {p : ℕ} [Fact p.Prime] {a : ℕ → ZMod p}

/-- A bit that satisfies its constraint is zero or its weight. -/
theorem bit_cases {w x : ZMod p} (h : w * x - x * x = 0) : x = 0 ∨ x = w := by
  have hfactor : x * (w - x) = 0 := by rw [← h]; ring
  rcases mul_eq_zero.1 hfactor with hzero | hw
  · exact Or.inl hzero
  · exact Or.inr (sub_eq_zero.1 hw).symm

/-- Bits with their weights sum up to a number of that many bits. -/
theorem bits_sum {n : ℕ} : ∀ {xb : ℕ},
    (∀ b < n, a (xb + b) = 0 ∨ a (xb + b) = 2 ^ (n - 1 - b)) →
      ∃ N < 2 ^ n, ∑ b ∈ Finset.range n, a (xb + b) = (N : ℕ) := by
  induction n with
  | zero => exact fun _ => ⟨0, Nat.one_pos, by simp⟩
  | succ n ih =>
      intro xb h
      obtain ⟨N, hN, hsum⟩ := @ih (xb + 1) fun b hb => by
        have hbit := h (b + 1) (Nat.succ_lt_succ hb)
        have hindex : xb + (b + 1) = xb + 1 + b := by omega
        have hexp : n + 1 - 1 - (b + 1) = n - 1 - b := by omega
        rwa [hindex, hexp] at hbit
      have hrest : ∑ b ∈ Finset.range n, a (xb + (b + 1)) = (N : ℕ) := by
        rw [← hsum]
        exact Finset.sum_congr rfl fun b _ => congrArg a (by omega)
      rw [Finset.sum_range_succ', hrest]
      rcases h 0 (Nat.succ_pos n) with hzero | hone
      · exact ⟨N, hN.trans (Nat.pow_lt_pow_right (by decide) (Nat.lt_succ_self n)),
          by rw [hzero, add_zero]⟩
      · refine ⟨N + 2 ^ n, ?_, ?_⟩
        · rw [pow_succ, Nat.mul_two]
          exact Nat.add_lt_add_right hN _
        · rw [hone]
          push_cast
          rfl

/-- The assignment gives a variable the value `q`. -/
def Represents (x : ZMod p) (q : ℚ) : Prop := x * q.den = q.num

/-- Only a rational with an inverse of its denominator is represented, and by its image. -/
theorem Represents.convertible {x : ZMod p} {q : ℚ} (h : Represents x q) :
    Convertible p q ∧ x = (q : ZMod p) := by
  have hconv : Convertible p q := by
    intro hden
    rw [Represents, hden, mul_zero] at h
    have hnum : (p : ℤ) ∣ q.num := (ZMod.intCast_zmod_eq_zero_iff_dvd _ _).1 h.symm
    have hp : p ∣ Nat.gcd q.num.natAbs q.den :=
      Nat.dvd_gcd (Int.natCast_dvd.1 hnum) ((ZMod.natCast_eq_zero_iff _ _).1 hden)
    rw [q.reduced] at hp
    exact (Fact.out : p.Prime).one_lt.ne' (Nat.dvd_one.1 hp)
  refine ⟨hconv, ?_⟩
  rw [Rat.cast_def, ← h, mul_div_cancel_right₀ _ hconv]

/-- The difference of two represented values, over its own denominator. -/
theorem Represents.sub {x y : ZMod p} {q r : ℚ} (hx : Represents x q) (hy : Represents y r) :
    (x - y) * (q - r).den = (q - r).num := by
  obtain ⟨hq, hxq⟩ := hx.convertible
  obtain ⟨hr, hyr⟩ := hy.convertible
  have hconv := Convertible.sub hq hr
  rw [hxq, hyr, ← Rat.cast_sub_of_ne_zero hq hr]
  exact cast_mul_den hconv

/-- Inside the ranges the cross-multiplied equation holds of integers. -/
theorem cross_multiplied {R T D M : ℕ} {q : ℚ} {x : ZMod p} (hD : D ≤ 2 ^ T) (hM : M ≤ 2 ^ R)
    (hfit : q.num.natAbs * 2 ^ T + q.den * 2 ^ R < p) (hx : x * q.den = q.num)
    (heq : x * D = M) : (D : ℤ) * q.num = M * q.den := by
  have hcong : (((D : ℤ) * q.num - M * q.den : ℤ) : ZMod p) = 0 := by
    push_cast
    rw [← hx, ← heq]
    ring
  have hdvd := (ZMod.intCast_zmod_eq_zero_iff_dvd _ p).1 hcong
  have hbound : |(D : ℤ) * q.num - M * q.den| < p := by
    have hleft : |(D : ℤ) * q.num| ≤ q.num.natAbs * 2 ^ T := by
      rw [abs_mul, Nat.abs_cast, Int.abs_eq_natAbs, mul_comm]
      exact_mod_cast Nat.mul_le_mul_left _ hD
    have hright : |(M : ℤ) * q.den| ≤ q.den * 2 ^ R := by
      rw [abs_mul, Nat.abs_cast, Nat.abs_cast, mul_comm]
      exact_mod_cast Nat.mul_le_mul_left _ hM
    have hfit' : (q.num.natAbs : ℤ) * 2 ^ T + q.den * 2 ^ R < p := by exact_mod_cast hfit
    exact (abs_sub _ _).trans_lt ((add_le_add hleft hright).trans_lt hfit')
  exact sub_eq_zero.1 (Int.eq_zero_of_abs_lt_dvd hdvd hbound)

end Ranges

/-! ## The gadgets -/

section Gadgets

variable {p : ℕ} [Fact p.Prime] {a : ℕ → ZMod p}

theorem Term.Below.mono {t : Term} {m n : ℕ} (h : t.Below m) (hmn : m ≤ n) : t.Below n :=
  ⟨h.1.trans_le (by exact_mod_cast hmn), h.2.trans_le (by exact_mod_cast hmn)⟩

/-- What a comparison with `rest` in its last constraint forces. -/
theorem comparison_check {v c r t x y : ℕ} {rest : List Term}
    (hrest : ∀ u ∈ rest, u.constraint = c + r + t)
    (h : ∀ k, residual (single k) a (bitsTerms c v r ++ bitsTerms (c + r) (v + r) t ++
      fractionTerms (c + r + t) x y v r (v + r) t ++ rest) = 0) :
    ∃ N < 2 ^ r, ∃ D < 2 ^ t,
      (a x - a y) * (D : ℕ) - (N : ℕ) + residual (single (c + r + t)) a rest = 0 := by
  have hrest' : ∀ k, c + r + t ≠ k → residual (single k) a rest = 0 := fun k hk =>
    residual_single_of_ne fun u hu => by rwa [hrest u hu]
  have hnum : ∀ b < r, a (v + b) = 0 ∨ a (v + b) = 2 ^ (r - 1 - b) := by
    intro b hb
    have hk := h (c + b)
    rw [residual_append, residual_append, residual_append, residual_bit v r hb,
      bitsTerms_outside (Or.inl (by omega)), fractionTerms_outside (by omega),
      hrest' _ (by omega), add_zero, add_zero, add_zero] at hk
    exact bit_cases hk
  have hden : ∀ b < t, a (v + r + b) = 0 ∨ a (v + r + b) = 2 ^ (t - 1 - b) := by
    intro b hb
    have hk := h (c + r + b)
    rw [residual_append, residual_append, residual_append, residual_bit (v + r) t hb,
      bitsTerms_outside (Or.inr (by omega)), fractionTerms_outside (by omega),
      hrest' _ (by omega), zero_add, add_zero, add_zero] at hk
    exact bit_cases hk
  obtain ⟨N, hN, hNsum⟩ := bits_sum hnum
  obtain ⟨D, hD, hDsum⟩ := bits_sum hden
  have hk := h (c + r + t)
  rw [residual_append, residual_append, residual_append, fractionTerms_residual, hNsum, hDsum,
    bitsTerms_outside (Or.inr (by omega)), bitsTerms_outside (Or.inr le_rfl), zero_add, zero_add,
    cast_single_self, one_mul] at hk
  exact ⟨N, hN, D, hD, hk⟩

/-- A satisfied `>=` holds. -/
theorem xgeY_sound {s : Generator} {x y R T : ℕ} (hx : x < s.variablesNext)
    (hy : y < s.variablesNext) (hroom : s.variablesNext + (R + T) ≤ s.cktCoefs1Length) {q r : ℚ}
    (hfit : (q - r).num.natAbs * 2 ^ T + (q - r).den * 2 ^ R < p) (hq : Represents (a x) q)
    (hr : Represents (a y) r) (h : Satisfies s (.xgeY x y R T) a) : r ≤ q := by
  have hsat := (satisfies_iff (o := .xgeY x y R T) fun t ht =>
    (xgeYEffect_below hx hy t ht).mono hroom).1 h
  obtain ⟨N, hN, D, hD, heq⟩ := comparison_check (fun u hu => by
    simp only [List.mem_cons, List.not_mem_nil, or_false] at hu
    rcases hu with rfl | rfl <;> rfl) hsat
  simp only [residual_cons, residual_nil, termValue, cast_single_self, factorValue_natCast,
    factorValue_neg_one] at heq
  push_cast at heq
  have hcross := cross_multiplied (D := D + 1) (M := N) hD hN.le hfit (hq.sub hr)
    (by push_cast; linear_combination heq)
  -- a nonnegative multiple of the denominator is a positive multiple of the numerator
  have hnum : 0 ≤ (q - r).num := by
    have hpos : (0 : ℤ) < (D + 1 : ℕ) := by exact_mod_cast Nat.succ_pos D
    refine nonneg_of_mul_nonneg_right ?_ hpos
    rw [hcross]
    exact_mod_cast Nat.zero_le _
  exact sub_nonneg.1 (Rat.num_nonneg.1 hnum)

/-- A satisfied `>` holds. -/
theorem xgtY_sound {s : Generator} {x y R T : ℕ} (hx : x < s.variablesNext)
    (hy : y < s.variablesNext) (hroom : s.variablesNext + (R + T) ≤ s.cktCoefs1Length) {q r : ℚ}
    (hfit : (q - r).num.natAbs * 2 ^ T + (q - r).den * 2 ^ R < p) (hq : Represents (a x) q)
    (hr : Represents (a y) r) (h : Satisfies s (.xgtY x y R T) a) : r < q := by
  have hsat := (satisfies_iff (o := .xgtY x y R T) fun t ht =>
    (xgtYEffect_below hx hy t ht).mono hroom).1 h
  obtain ⟨N, hN, D, hD, heq⟩ := comparison_check (fun u hu => by
    obtain rfl := List.mem_singleton.1 hu
    rfl) hsat
  simp only [residual_cons, residual_nil, termValue, cast_single_self,
    factorValue_neg_one] at heq
  push_cast at heq
  have hcross := cross_multiplied (D := D) (M := N + 1) hD.le hN hfit (hq.sub hr)
    (by push_cast; linear_combination heq)
  -- a positive multiple of the denominator is a multiple of the numerator
  have hnum : 0 < (q - r).num := by
    have hpos : (0 : ℤ) < (N + 1 : ℕ) * (q - r).den := by
      exact_mod_cast Nat.mul_pos (Nat.succ_pos N) (q - r).den_pos
    rw [← hcross] at hpos
    exact pos_of_mul_pos_right hpos (by exact_mod_cast Nat.zero_le D)
  exact sub_pos.1 (Rat.num_pos.1 hnum)

/-- The three constraints of one inequality that is not opted out of give its difference an
inverse. -/
theorem neq_sound {prime : ℤ} {oneq : ℚ} {v c x y : ℕ}
    (h : ∀ k, c ≤ k → k < c + 3 →
      residual (single k) a (neqEffect prime oneq v c x y).terms = 0)
    (hflag : a v = 0) : a x ≠ a y := by
  have hcheck := h (c + 1) (by omega) (by omega)
  have hopt := h (c + 2) (by omega) (by omega)
  have hzero : ∀ m n : ℕ, m ≠ n → ((single (c + n) (c + m) : ℤ) : ZMod p) = 0 :=
    fun m n hmn => cast_single_of_ne fun h => hmn (Nat.add_left_cancel h)
  have hfirst : ∀ n : ℕ, n ≠ 0 → ((single (c + n) c : ℤ) : ZMod p) = 0 :=
    fun n hn => hzero 0 n hn.symm
  simp only [neqEffect, binaryTerms, residual_append, residual_cons, residual_nil, termValue,
    factorValue_natCast, factorValue_neg_one, cast_single_self, hzero 1 2 (by decide),
    hzero 2 1 (by decide), hfirst 1 one_ne_zero, hfirst 2 two_ne_zero, hflag] at hcheck hopt
  push_cast at hcheck hopt
  intro hxy
  rw [hxy] at hcheck
  have hone : (1 : ZMod p) = 0 := by linear_combination -hcheck + hopt
  exact one_ne_zero hone

/-- The constraints of component `i` of a vector comparison are those of its inequality. -/
theorem neqVec_component {prime : ℤ} {oneq : ℚ} {v c x y d i k : ℕ} (hi : i < d)
    (hlow : c + 2 + 3 * i ≤ k) (hhigh : k < c + 2 + 3 * i + 3) :
    residual (single k) a (neqVecEffect prime oneq v c x y d).terms =
      residual (single k) a
        (neqEffect prime oneq (v + 1 + 3 * i) (c + 2 + 3 * i) (x + i) (y + i)).terms := by
  have hhead : ∀ m < c + 2, ((single k m : ℤ) : ZMod p) = 0 := fun m hm =>
    cast_single_of_ne (by omega)
  have hterms : ∀ j, residual (single k) a (neqVecTerms prime oneq v c x y j) =
      residual (single k) a
        (neqEffect prime oneq (v + 1 + 3 * j) (c + 2 + 3 * j) (x + j) (y + j)).terms := by
    intro j
    simp only [neqVecTerms, residual_append, residual_cons, residual_nil, termValue,
      hhead (c + 1) (by omega), zero_mul, add_zero]
  simp only [neqVecEffect, binaryTerms, residual_append, residual_cons, residual_nil, termValue,
    hhead c (by omega), hhead (c + 1) (by omega), zero_mul, add_zero, zero_add]
  rw [residual_range, Finset.sum_eq_single i, hterms]
  · intro j _ hj
    rw [hterms]
    exact neqEffect_residual_outside _ fun k' hk hk' => cast_single_of_ne (by omega)
  · exact fun h => absurd (Finset.mem_range.2 hi) h

/-- The constraint on the flags of a vector comparison: the number of components that are not opted
out of is one less the flag of the whole. -/
theorem neqVec_flags {prime : ℤ} {oneq : ℚ} {v c x y d : ℕ} :
    residual (single (c + 1)) a (neqVecEffect prime oneq v c x y d).terms =
      1 - a v + ∑ i ∈ Finset.range d, (a (v + 1 + 3 * i) - 1) := by
  have hbinary : ((single (c + 1) c : ℤ) : ZMod p) = 0 := cast_single_of_ne (by omega)
  simp only [neqVecEffect, binaryTerms, residual_append, residual_cons, residual_nil, termValue,
    hbinary, cast_single_self, factorValue_natCast, factorValue_neg_one, residual_range]
  have hterms : ∀ j, residual (single (c + 1)) a (neqVecTerms prime oneq v c x y j) =
      a (v + 1 + 3 * j) - 1 := by
    intro j
    rw [neqVecTerms, residual_append,
      neqEffect_residual_outside _ fun k' hk hk' => cast_single_of_ne (by omega)]
    simp only [residual_cons, residual_nil, termValue, cast_single_self, factorValue_natCast,
      factorValue_neg_one]
    push_cast
    ring
  rw [Finset.sum_congr rfl fun j _ => hterms j]
  push_cast
  ring

/-- A satisfied vector comparison whose flag is zero has a component that differs. -/
theorem neqVec_sound {s : Generator} {x y d : ℕ} (hx : x + d ≤ s.variablesNext)
    (hy : y + d ≤ s.variablesNext)
    (hroom : s.variablesNext + (1 + 3 * d) ≤ s.cktCoefs1Length)
    (h : Satisfies s (.neqVec x y d) a) (hflag : a s.variablesNext = 0) :
    ∃ i < d, a (x + i) ≠ a (y + i) := by
  have hvalid : (Op.neqVec x y d).Valid s := ⟨hx, hy⟩
  have hsat := (satisfies_iff fun t ht => (Op.terms_below hvalid t ht).mono hroom).1 h
  have hflags := hsat (s.constraintsNext + 1)
  rw [Op.effect, neqVec_flags, hflag, sub_zero] at hflags
  -- if every component were opted out of, the flags would sum up to one
  obtain ⟨i, hi, hne⟩ : ∃ i < d, a (s.variablesNext + 1 + 3 * i) ≠ 1 := by
    by_contra hall
    push Not at hall
    have hzero : ∑ i ∈ Finset.range d, (a (s.variablesNext + 1 + 3 * i) - 1) = 0 :=
      Finset.sum_eq_zero fun i hi => by rw [hall i (Finset.mem_range.1 hi), sub_self]
    rw [hzero, add_zero] at hflags
    exact one_ne_zero hflags
  have hneq : ∀ k, s.constraintsNext + 2 + 3 * i ≤ k → k < s.constraintsNext + 2 + 3 * i + 3 →
      residual (single k) a (neqEffect s.prime s.oneq (s.variablesNext + 1 + 3 * i)
        (s.constraintsNext + 2 + 3 * i) (x + i) (y + i)).terms = 0 := fun k hlow hhigh =>
    (neqVec_component hi hlow hhigh).symm.trans (hsat k)
  have hbinary := hneq _ le_rfl (by omega)
  have hzero : ∀ n, n ≠ 0 → ((single (s.constraintsNext + 2 + 3 * i)
      (s.constraintsNext + 2 + 3 * i + n) : ℤ) : ZMod p) = 0 := fun n hn =>
    cast_single_of_ne (by omega)
  simp only [neqEffect, binaryTerms, residual_append, residual_cons, residual_nil, termValue,
    factorValue_natCast, factorValue_neg_one, cast_single_self, hzero 1 one_ne_zero,
    hzero 2 two_ne_zero] at hbinary
  push_cast at hbinary
  have hbit := bit_cases (w := 1) (x := a (s.variablesNext + 1 + 3 * i))
    (by linear_combination hbinary)
  exact ⟨i, hi, neq_sound hneq (hbit.resolve_right hne)⟩

/-- Whatever the prover puts into the variables of a gadget, if it satisfies the constraints of a
`>=` or `>` then the comparison holds, and if it satisfies those of a vector comparison with the
returned variable zero then the vectors differ. -/
theorem gadgets_sound (s : Generator) (a : ℕ → ZMod p) :
    (∀ (x y R T : ℕ) (q r : ℚ), x < s.variablesNext → y < s.variablesNext →
      s.variablesNext + (R + T) ≤ s.cktCoefs1Length → Represents (a x) q → Represents (a y) r →
      (q - r).num.natAbs * 2 ^ T + (q - r).den * 2 ^ R < p →
        (Satisfies s (.xgeY x y R T) a → r ≤ q) ∧ (Satisfies s (.xgtY x y R T) a → r < q)) ∧
    ∀ x y d : ℕ, x + d ≤ s.variablesNext → y + d ≤ s.variablesNext →
      s.variablesNext + (1 + 3 * d) ≤ s.cktCoefs1Length →
        Satisfies s (.neqVec x y d) a → a s.variablesNext = 0 →
          ∃ i < d, a (x + i) ≠ a (y + i) :=
  ⟨fun _ _ _ _ _ _ hx hy hroom hq hr hfit =>
    ⟨xgeY_sound hx hy hroom hfit hq hr, xgtY_sound hx hy hroom hfit hq hr⟩,
    fun _ _ _ hx hy hroom => neqVec_sound hx hy hroom⟩

/-- Only the constraints that occur in the terms are to be checked. -/
theorem residual_of_occurring {terms : List Term}
    (h : ∀ k ∈ terms.map Term.constraint, residual (single k) a terms = 0) (k : ℕ) :
    residual (single k) a terms = 0 := by
  by_cases hk : k ∈ terms.map Term.constraint
  · exact h k hk
  · exact residual_single_of_ne fun t ht heq => hk (List.mem_map.2 ⟨t, ht, heq⟩)

end Gadgets

instance prime_101 : Fact (Nat.Prime 101) := ⟨by norm_num⟩

/-- Two variables and room for eight. -/
def twoVariables : Generator :=
  (Generator.init .v 101 (fun _ => 0) 8 zeroVec).createNewVariables 2

/-- The values three and one, with the bits of `2 - 1` and of the denominator `1`. -/
def greaterAssignment (i : ℕ) : ZMod 101 := [3, 1, 0, 1, 1].getD i 0

/-- The values three and one, with zero flags and the inverse of `1 - 3`. -/
def unequalAssignment (i : ℕ) : ZMod 101 := [3, 1, 0, 0, 50, 0].getD i 0

theorem gadgets_sound_three_one :
    (Satisfies twoVariables (.xgtY 0 1 2 1) greaterAssignment ∧ (1 : ℚ) < 3) ∧
      Satisfies twoVariables (.neqVec 0 1 1) unequalAssignment ∧
        ∃ i < 1, unequalAssignment (0 + i) ≠ unequalAssignment (1 + i) := by
  have hgreater : Satisfies twoVariables (.xgtY 0 1 2 1) greaterAssignment := by
    refine (satisfies_iff (o := .xgtY 0 1 2 1) fun t ht =>
      (xgtYEffect_below (by decide) (by decide) t ht).mono (by decide)).2 ?_
    exact residual_of_occurring (by decide +kernel)
  have hunequal : Satisfies twoVariables (.neqVec 0 1 1) unequalAssignment := by
    have hvalid : (Op.neqVec 0 1 1).Valid twoVariables := ⟨by decide, by decide⟩
    refine (satisfies_iff fun t ht => (Op.terms_below hvalid t ht).mono (by decide)).2 ?_
    exact residual_of_occurring (by decide +kernel)
  obtain ⟨-, hneq⟩ := gadgets_sound twoVariables unequalAssignment
  obtain ⟨hcomparison, -⟩ := gadgets_sound twoVariables greaterAssignment
  refine ⟨⟨hgreater, ?_⟩, hunequal, ?_⟩
  · refine (hcomparison 0 1 2 1 3 1 (by decide) (by decide) (by decide) ?_ ?_ ?_).2 hgreater
    · show (3 : ZMod 101) * ((3 : ℚ).den : ℕ) = ((3 : ℚ).num : ℤ)
      decide +kernel
    · show (1 : ZMod 101) * ((1 : ℚ).den : ℕ) = ((1 : ℚ).num : ℤ)
      decide +kernel
    · decide +kernel
  · exact hneq 0 1 1 (by decide) (by decide) (by decide) hunequal rfl

end Pepper.Common.ConstraintGen
