import Mathlib.Data.Rat.Cast.Lemmas
import Mathlib.Tactic.Linarith
import Mathlib.Tactic.Positivity
import Pepper.Foundations.FieldBits
import Pepper.Zcc.LessThan

/-!
# The constraints of a comparison of rationals

`lessThanAsBasicConstraintsF` expresses `y = (a < b)` for rationals. `N` is a negative number of
`na2` bits, offset by a power of two; the flags `D0`, `D1`, ... choose the denominator of `D`; the
case that is set says that the difference of the operands is `ND`, the product of the two.

`lessThanFloat_satisfied_iff` reads the list as equations, and `lessThanFloat_sound` is about every
assignment modulo a prime: the result is that of the comparison.
-/

set_option autoImplicit false

open Pepper.Foundations Pepper.Foundations.FieldBits

namespace Pepper.Zcc

universe u v

/-! ## Sums of signed terms -/

section Sums

variable {ν : Type u} {R : Type v} [CommRing R] (ρ : ν → R)

/-- `piece 0`, `piece 1`, ..., one after the other. -/
def repeatText (piece : ℕ → Text ν) : ℕ → Text ν
  | 0 => .nil
  | k + 1 => repeatText piece k ++ piece k

/-- `+ A`. -/
def plusTerm (A : Text ν) : Text ν := .atom .plus A

/-- `- A`. -/
def minusTerm (A : Text ν) : Text ν := .atom .minus A

/-- `c * A`. -/
def timesText (c : ℤ) (A : Text ν) : Text ν := constText c ++ .atom .times A

/-- The text adds `r` to what was read before it. -/
def Adds (n : Text ν) (r : R) : Prop :=
  ∀ m : Meaning R, m.Clean →
    (readText ρ m n).Clean ∧ (readText ρ m n).flush.sum = m.flush.sum + r

variable {ρ}

theorem Adds.meaning {n : Text ν} {r : R} (h : Adds ρ n r) : meaning ρ n = r := by
  rw [meaning_eq_readText, (h _ Meaning.clean_empty).2]
  exact zero_add r

theorem Adds.append {n n' : Text ν} {r r' : R} (h : Adds ρ n r) (h' : Adds ρ n' r') :
    Adds ρ (n ++ n') (r + r') := by
  intro m hm
  obtain ⟨hclean, hsum⟩ := h m hm
  obtain ⟨hclean', hsum'⟩ := h' _ hclean
  rw [readText_append]
  exact ⟨hclean', by rw [hsum', hsum, add_assoc]⟩

theorem Adds.repeatText {piece : ℕ → Text ν} {r : ℕ → R} (h : ∀ i, Adds ρ (piece i) (r i))
    (k : ℕ) : Adds ρ (repeatText piece k) (∑ i ∈ Finset.range k, r i) := by
  induction k with
  | zero => exact fun m hm => ⟨hm, (add_zero _).symm⟩
  | succ k ih =>
      rw [Finset.sum_range_succ]
      exact ih.append (h k)

theorem adds_plusTerm {A : Text ν} (hA : IsFactor A) : Adds ρ (plusTerm A) (meaning ρ A) := by
  intro m hm
  rw [plusTerm, readText_plus, readText_factor ρ hA]
  exact ⟨Meaning.clean_factor _ _, hm.plus _⟩

theorem adds_minusTerm {A : Text ν} (hA : IsFactor A) : Adds ρ (minusTerm A) (-meaning ρ A) := by
  intro m hm
  rw [minusTerm, readText_minus, readText_factor ρ hA, ← sub_eq_add_neg]
  exact ⟨Meaning.clean_factor _ _, hm.minus _⟩

theorem adds_plusTerm_times (c : ℤ) {A : Text ν} (hA : IsFactor A) :
    Adds ρ (plusTerm (timesText c A)) (c * meaning ρ A) := by
  intro m hm
  rw [plusTerm, timesText, readText_plus, readText_append, readText_const, readText_times,
    readText_factor ρ hA]
  rw [Meaning.Clean] at hm
  rw [hm]
  exact ⟨rfl, rfl⟩

theorem adds_minusTerm_times (c : ℤ) {A : Text ν} (hA : IsFactor A) :
    Adds ρ (minusTerm (timesText c A)) (-(c * meaning ρ A)) := by
  intro m hm
  rw [minusTerm, timesText, readText_minus, readText_append, readText_const, readText_times,
    readText_factor ρ hA]
  rw [Meaning.Clean] at hm
  rw [hm]
  exact ⟨rfl, rfl⟩

end Sums

/-! ## The constraints -/

/-- The auxiliary variables of a comparison of rationals. -/
inductive FloatSuffix where
  | n : FloatSuffix
  | nBit (i : ℕ) : FloatSuffix
  | d : FloatSuffix
  | dBit (i : ℕ) : FloatSuffix
  | nd : FloatSuffix
  | mlt : FloatSuffix
  | meq : FloatSuffix
  | mgt : FloatSuffix
deriving DecidableEq, Repr

/-- A name of the spec, or `target$suffix`. -/
inductive FloatName (ν : Type u) where
  | base (x : ν) : FloatName ν
  | aux (target : ν) (suffix : FloatSuffix) : FloatName ν
deriving DecidableEq, Repr

section Constraints

variable {ν : Type u}

/-- `( b ) * ( b - 1 ) + ( )`. -/
def flagConstraint (b : Text (FloatName ν)) : Text (FloatName ν) :=
  basicConstraint b (minusText b (constText 1)) .nil

/-- `( N_i ) * ( 2^i - N_i ) + ( )`. -/
def numeratorBitConstraint (target : ν) (i : ℕ) : Text (FloatName ν) :=
  let Ni := nameText (.aux target (.nBit i))
  basicConstraint Ni (minusText (constText (2 ^ i)) Ni) .nil

/-- `Nsum`. -/
def numeratorSum (target : ν) (na2 : ℕ) : Text (FloatName ν) :=
  basicConstraint .nil .nil
    (repeatText (fun i => minusTerm (nameText (.aux target (.nBit i)))) na2 ++
      (plusTerm (nameText (.aux target .n)) ++ plusTerm (constText (2 ^ na2))))

/-- `Dsum`. -/
def denominatorSum (target : ν) (nb2 : ℕ) : Text (FloatName ν) :=
  basicConstraint .nil .nil
    (repeatText
        (fun i => minusTerm (timesText (2 ^ (nb2 - i)) (nameText (.aux target (.dBit i)))))
        (nb2 + 1) ++
      plusTerm (timesText (2 ^ nb2) (nameText (.aux target .d))))

/-- `Dcount`. -/
def denominatorCount (target : ν) (nb2 : ℕ) : Text (FloatName ν) :=
  basicConstraint .nil .nil
    (repeatText (fun i => plusTerm (nameText (.aux target (.dBit i)))) (nb2 + 1) ++
      minusTerm (constText 1))

/-- `less_than_as_basic_constraints_f`. -/
def lessThanAsBasicConstraintsF (na2 nb2 : ℕ) (arg0 arg1 : Text (FloatName ν)) (target : ν) :
    List (Text (FloatName ν)) :=
  let N := nameText (.aux target .n)
  let D := nameText (.aux target .d)
  let ND := nameText (.aux target .nd)
  let Mlt := nameText (.aux target .mlt)
  let Meq := nameText (.aux target .meq)
  let Mgt := nameText (.aux target .mgt)
  (List.range na2).map (numeratorBitConstraint target) ++ [numeratorSum target na2] ++
    (List.range (nb2 + 1)).map (fun i => flagConstraint (nameText (.aux target (.dBit i)))) ++
    [denominatorSum target nb2, denominatorCount target nb2,
      flagConstraint Mlt, flagConstraint Meq, flagConstraint Mgt,
      basicConstraint .nil .nil (minusText (plusText (plusText Mlt Meq) Mgt) (constText 1)),
      basicConstraint N D (minusTerm ND),
      -- if Mlt, check arg0 < arg1
      basicConstraint Mlt (minusText (minusText arg0 arg1) ND) .nil,
      -- if Meq, check arg0 = arg1
      basicConstraint Meq (minusText arg0 arg1) .nil,
      -- if Mgt, check arg1 < arg0
      basicConstraint Mgt (minusText (minusText arg1 arg0) ND) .nil,
      -- output matching
      basicConstraint .nil .nil (minusText Mlt (nameText (.base target)))]

end Constraints

section Reading

variable {ν : Type u} {R : Type v} [CommRing R] (ρ : FloatName ν → R)

/-- The constraints of a comparison of rationals as equations between the values of the names. -/
theorem lessThanFloat_satisfied_iff (na2 nb2 : ℕ) {arg0 arg1 : Text (FloatName ν)}
    (h0 : IsFactor arg0) (h1 : IsFactor arg1) (target : ν) :
    (∀ line ∈ lessThanAsBasicConstraintsF na2 nb2 arg0 arg1 target, meaning ρ line = 0) ↔
      (∀ i < na2, ρ (.aux target (.nBit i)) * (2 ^ i - ρ (.aux target (.nBit i))) = 0) ∧
      ρ (.aux target .n) = ∑ i ∈ Finset.range na2, ρ (.aux target (.nBit i)) - 2 ^ na2 ∧
      (∀ i < nb2 + 1, ρ (.aux target (.dBit i)) * (ρ (.aux target (.dBit i)) - 1) = 0) ∧
      2 ^ nb2 * ρ (.aux target .d) =
        ∑ i ∈ Finset.range (nb2 + 1), 2 ^ (nb2 - i) * ρ (.aux target (.dBit i)) ∧
      ∑ i ∈ Finset.range (nb2 + 1), ρ (.aux target (.dBit i)) = 1 ∧
      (∀ M ∈ [FloatSuffix.mlt, .meq, .mgt], ρ (.aux target M) * (ρ (.aux target M) - 1) = 0) ∧
      ρ (.aux target .mlt) + ρ (.aux target .meq) + ρ (.aux target .mgt) - 1 = 0 ∧
      ρ (.aux target .n) * ρ (.aux target .d) = ρ (.aux target .nd) ∧
      ρ (.aux target .mlt) * (meaning ρ arg0 - meaning ρ arg1 - ρ (.aux target .nd)) = 0 ∧
      ρ (.aux target .meq) * (meaning ρ arg0 - meaning ρ arg1) = 0 ∧
      ρ (.aux target .mgt) * (meaning ρ arg1 - meaning ρ arg0 - ρ (.aux target .nd)) = 0 ∧
      ρ (.aux target .mlt) = ρ (.base target) := by
  have hflag : ∀ x, meaning ρ (flagConstraint (nameText x)) = ρ x * (ρ x - 1) :=
    fun x => meaning_flagLine ρ x
  have hbit : ∀ i, meaning ρ (numeratorBitConstraint target i) =
      ρ (.aux target (.nBit i)) * (2 ^ i - ρ (.aux target (.nBit i))) := by
    intro i
    rw [numeratorBitConstraint, meaning_bitLine]
    push_cast
    rfl
  -- the numerator: the sum of its bits less the power
  have hNsum : meaning ρ (numeratorSum target na2) = ρ (.aux target .n) -
      (∑ i ∈ Finset.range na2, ρ (.aux target (.nBit i)) - 2 ^ na2) := by
    have hadds := (Adds.repeatText (fun i => adds_minusTerm (ρ := ρ)
      (IsFactor.name (.aux target (.nBit i)))) na2).append
      ((adds_plusTerm (.name (.aux target .n))).append (adds_plusTerm (.const (2 ^ na2))))
    rw [numeratorSum, meaning_basicConstraint, meaning_nil, hadds.meaning]
    simp only [meaning_nameText, meaning_constText, Finset.sum_neg_distrib]
    push_cast
    ring
  -- the denominator: both sides multiplied by the largest power, to stay integral
  have hDsum : meaning ρ (denominatorSum target nb2) = 2 ^ nb2 * ρ (.aux target .d) -
      ∑ i ∈ Finset.range (nb2 + 1), 2 ^ (nb2 - i) * ρ (.aux target (.dBit i)) := by
    have hadds := (Adds.repeatText (fun i => adds_minusTerm_times (ρ := ρ) (2 ^ (nb2 - i))
      (IsFactor.name (.aux target (.dBit i)))) (nb2 + 1)).append
      (adds_plusTerm_times (2 ^ nb2) (.name (.aux target .d)))
    rw [denominatorSum, meaning_basicConstraint, meaning_nil, hadds.meaning]
    simp only [meaning_nameText, Finset.sum_neg_distrib]
    push_cast
    ring
  -- exactly one of its bits is set
  have hDcount : meaning ρ (denominatorCount target nb2) =
      ∑ i ∈ Finset.range (nb2 + 1), ρ (.aux target (.dBit i)) - 1 := by
    have hadds := (Adds.repeatText (fun i => adds_plusTerm (ρ := ρ)
      (IsFactor.name (.aux target (.dBit i)))) (nb2 + 1)).append (adds_minusTerm (.const 1))
    rw [denominatorCount, meaning_basicConstraint, meaning_nil, hadds.meaning]
    simp only [meaning_nameText, meaning_constText, Int.cast_one]
    ring
  have hND : meaning ρ (minusTerm (nameText (.aux target .nd))) = -ρ (.aux target .nd) := by
    rw [(adds_minusTerm (.name _)).meaning, meaning_nameText]
  -- both differences of the operands, each less the product
  obtain ⟨hv01, hc01⟩ := meaning_minusText ρ (clean_readText_factor ρ h0) h1
  obtain ⟨hv10, hc10⟩ := meaning_minusText ρ (clean_readText_factor ρ h1) h0
  have hlt := (meaning_minusText ρ hc01 (IsFactor.name (.aux target .nd))).1
  have hgt := (meaning_minusText ρ hc10 (IsFactor.name (.aux target .nd))).1
  have hout := (meaning_minusText ρ (clean_readText_factor ρ (.name (.aux target .mlt)))
    (.name (.base target))).1
  simp only [lessThanAsBasicConstraintsF, List.forall_mem_append, List.forall_mem_map,
    List.mem_range, List.forall_mem_cons, List.not_mem_nil, false_implies, implies_true, and_true,
    hbit, hNsum, hflag, hDsum, hDcount, meaning_flagSum, meaning_basicConstraint, meaning_nil,
    mul_zero, zero_add, add_zero, hND, hlt, hgt, hv01, hv10, hout, meaning_nameText, and_assoc,
    sub_eq_zero (b := ρ (.base target)), sub_eq_zero (a := ρ (.aux target .n)),
    sub_eq_zero (a := 2 ^ nb2 * ρ (.aux target .d)),
    sub_eq_zero (a := ∑ i ∈ Finset.range (nb2 + 1), ρ (.aux target (.dBit i))),
    ← sub_eq_add_neg, sub_eq_zero (b := ρ (.aux target .nd))]

end Reading

/-! ## Every assignment -/

section Sound

variable {ν : Type u} {p : ℕ} [Fact p.Prime]

/-- A prime above a power of two is odd, so two has an inverse. -/
theorem two_ne_zero_of_lt {k : ℕ} (hp : 2 ^ (k + 1) < p) : (2 : ZMod p) ≠ 0 := by
  intro h
  rw [← Nat.cast_ofNat, ZMod.natCast_eq_zero_iff] at h
  have hle := Nat.le_of_dvd Nat.two_pos h
  have hpow : 2 ≤ 2 ^ (k + 1) := Nat.le_self_pow (Nat.succ_ne_zero k) 2
  omega

/-- The difference of two rationals whose denominators divide a power of two. -/
theorem sub_den_eq {Nb : ℕ} {x y : ℚ} (hx : x.den ∣ 2 ^ Nb) (hy : y.den ∣ 2 ^ Nb) :
    ∃ l ≤ Nb, (x - y).den = 2 ^ l := by
  rw [← Nat.dvd_prime_pow Nat.prime_two]
  exact (Rat.sub_den_dvd_lcm x y).trans (Nat.lcm_dvd hx hy)

/-- The residue of a difference, cleared of its denominator. -/
theorem cast_sub_mul_den {Nb : ℕ} (htwo : (2 : ZMod p) ≠ 0) {x y : ℚ} (hx : x.den ∣ 2 ^ Nb)
    (hy : y.den ∣ 2 ^ Nb) {l : ℕ} (hl : (x - y).den = 2 ^ l) :
    ((x : ZMod p) - y) * 2 ^ l = ((x - y).num : ZMod p) := by
  have hden : ∀ {q : ℚ} {k : ℕ}, q.den ∣ 2 ^ k → (q.den : ZMod p) ≠ 0 := by
    intro q k hq hzero
    have hpow : ((2 ^ k : ℕ) : ZMod p) ≠ 0 := by
      push_cast
      exact pow_ne_zero k htwo
    obtain ⟨c, hc⟩ := hq
    rw [hc, Nat.cast_mul, hzero, zero_mul] at hpow
    exact hpow rfl
  rw [← Rat.cast_sub_of_ne_zero (hden hx) (hden hy), Rat.cast_def, hl, Nat.cast_pow,
    Nat.cast_ofNat, div_mul_cancel₀ _ (pow_ne_zero l htwo)]

/-- A fraction equal to `(S - 2 ^ Na) / 2 ^ j` modulo the prime is negative: cross multiplied,
both sides are below the modulus. -/
theorem neg_of_numeratorBits {Na Nb S j l : ℕ} (hp : 2 ^ (Na + Nb + 2) < p) {a : ℤ}
    (ha : |a| ≤ 2 ^ Na) (hS : S < 2 ^ Na) (hj : j ≤ Nb) (hl : l ≤ Nb)
    (heq : (a : ZMod p) * 2 ^ j = ((S : ZMod p) - 2 ^ Na) * 2 ^ l) : a < 0 := by
  have hS' : (S : ℤ) < 2 ^ Na := by exact_mod_cast hS
  have hpow : ∀ {i : ℕ}, i ≤ Nb → (2 : ℤ) ^ i ≤ 2 ^ Nb := fun hi =>
    pow_le_pow_right₀ (by norm_num) hi
  have hbound : ∀ {b : ℤ} {i : ℕ}, |b| ≤ 2 ^ Na → i ≤ Nb → |b * 2 ^ i| ≤ 2 ^ Na * 2 ^ Nb := by
    intro b i hb hi
    rw [abs_mul, abs_pow, abs_two]
    exact mul_le_mul hb (hpow hi) (by positivity) (by positivity)
  have hnum : |(S : ℤ) - 2 ^ Na| ≤ 2 ^ Na := by
    rw [abs_le]
    constructor <;> linarith [Int.natCast_nonneg S]
  have hexact : a * 2 ^ j - ((S : ℤ) - 2 ^ Na) * 2 ^ l = 0 := by
    refine eq_zero_of_abs_lt (p := p) ?_ (by push_cast; rw [heq, sub_self])
    have hp' : (2 : ℤ) ^ Na * 2 ^ Nb + 2 ^ Na * 2 ^ Nb < p := by
      have hlt : (2 : ℤ) ^ (Na + Nb + 2) < p := by exact_mod_cast hp
      rw [pow_add, pow_add] at hlt
      have hpos : (0 : ℤ) < 2 ^ Na * 2 ^ Nb := by positivity
      linarith
    exact (abs_sub _ _).trans_lt ((add_le_add (hbound ha hj) (hbound hnum hl)).trans_lt hp')
  have hneg : a * 2 ^ j < 0 := by
    rw [sub_eq_zero.1 hexact]
    exact mul_neg_of_neg_of_pos (by linarith) (by positivity)
  exact neg_of_mul_neg_left hneg (by positivity)

/-- Every assignment that satisfies the constraints of a comparison of rationals has the result of
the comparison at the target. -/
theorem lessThanFloat_sound {Na Nb : ℕ} (hp : 2 ^ (Na + Nb + 2) < p) {x y : ℚ}
    (hx : x.den ∣ 2 ^ Nb) (hy : y.den ∣ 2 ^ Nb) (hxy : |(x - y).num| ≤ 2 ^ Na)
    {arg0 arg1 : Text (FloatName ν)} (h0 : IsFactor arg0) (h1 : IsFactor arg1) (target : ν)
    {ρ : FloatName ν → ZMod p} (hvx : meaning ρ arg0 = x) (hvy : meaning ρ arg1 = y)
    (hsat : ∀ line ∈ lessThanAsBasicConstraintsF Na Nb arg0 arg1 target, meaning ρ line = 0) :
    ρ (.base target) = if x < y then 1 else 0 := by
  obtain ⟨hNbits, hN, hDbits, hD, hDone, hcases, hone, hND, hlt, heq, hgt, hout⟩ :=
    (lessThanFloat_satisfied_iff ρ Na Nb h0 h1 target).1 hsat
  have htwo : (2 : ZMod p) ≠ 0 := two_ne_zero_of_lt hp
  have hodd : p ≠ 2 := by
    rintro rfl
    exact htwo (by exact_mod_cast ZMod.natCast_self 2)
  obtain ⟨S, hS, -, hsum⟩ := exists_weightedBits hNbits
  rw [hsum] at hN
  -- the denominator is a power of two
  have hflags : Nb + 1 < p := by
    have hpow : Nb + 1 < 2 ^ (Nb + 1) := Nat.lt_two_pow_self
    exact hpow.trans ((Nat.pow_lt_pow_right (by norm_num) (by omega)).trans hp)
  obtain ⟨j, hj, hset⟩ := exists_flag hflags hDbits hDone
  have hj : j ≤ Nb := Nat.le_of_lt_succ hj
  have hDj : ρ (.aux target .d) * 2 ^ j = 1 := by
    have hweights : ∑ i ∈ Finset.range (Nb + 1), 2 ^ (Nb - i) * ρ (.aux target (.dBit i)) =
        2 ^ (Nb - j) := by
      rw [Finset.sum_eq_single_of_mem j (Finset.mem_range.2 (Nat.lt_succ_of_le hj)),
        hset j (Nat.lt_succ_of_le hj), if_pos rfl, mul_one]
      intro i hi hne
      rw [hset i (Finset.mem_range.1 hi), if_neg hne, mul_zero]
    rw [hweights] at hD
    have hpow : (2 : ZMod p) ^ Nb ≠ 0 := pow_ne_zero Nb htwo
    refine mul_left_cancel₀ hpow ?_
    rw [← mul_assoc, hD, ← pow_add, Nat.sub_add_cancel hj, mul_one]
  obtain ⟨l, hl, hden⟩ := sub_den_eq hx hy
  have hdiff := cast_sub_mul_den htwo hx hy hden
  -- a difference of the operands that is `ND` is negative
  have hcross : ∀ {a : ℤ}, ((a : ℤ) : ZMod p) = ρ (.aux target .nd) * 2 ^ l →
      (a : ZMod p) * 2 ^ j = ((S : ZMod p) - 2 ^ Na) * 2 ^ l := by
    intro a ha
    calc (a : ZMod p) * 2 ^ j
        = ρ (.aux target .n) * (ρ (.aux target .d) * 2 ^ j) * 2 ^ l := by rw [ha, ← hND]; ring
      _ = ((S : ZMod p) - 2 ^ Na) * 2 ^ l := by rw [hDj, mul_one, hN]
  rw [hvx, hvy] at hlt heq hgt
  rw [← hout]
  rcases three_flags hodd (hcases _ (by simp)) (hcases _ (by simp)) (hcases _ (by simp)) hone with
    ⟨hmlt, -, -⟩ | ⟨hmlt, hmeq, -⟩ | ⟨hmlt, -, hmgt⟩
  · -- Mlt
    rw [hmlt, one_mul, sub_eq_zero] at hlt
    rw [hlt] at hdiff
    have hneg : (x - y).num < 0 := neg_of_numeratorBits hp hxy hS hj hl (hcross hdiff.symm)
    rw [hmlt, if_pos (sub_neg.1 (Rat.num_neg.1 hneg))]
  · -- Meq
    rw [hmeq, one_mul] at heq
    rw [heq, zero_mul] at hdiff
    have hsmall : |(x - y).num| < p := by
      refine hxy.trans_lt ?_
      have hpow : 2 ^ Na < p := (Nat.pow_lt_pow_right (by norm_num) (by omega)).trans hp
      exact_mod_cast hpow
    have hzero := Rat.num_eq_zero.1 (eq_zero_of_abs_lt hsmall hdiff.symm)
    rw [hmlt, if_neg (by rw [sub_eq_zero.1 hzero]; exact lt_irrefl y)]
  · -- Mgt
    rw [hmgt, one_mul, sub_eq_zero] at hgt
    have hopposite : ((-(x - y).num : ℤ) : ZMod p) = ρ (.aux target .nd) * 2 ^ l := by
      rw [← hgt, Int.cast_neg, ← hdiff]
      ring
    have hneg : -(x - y).num < 0 :=
      neg_of_numeratorBits hp (by rwa [abs_neg]) hS hj hl (hcross hopposite)
    have hpos : 0 < x - y := Rat.num_pos.1 (neg_neg_iff_pos.1 hneg)
    rw [hmlt, if_neg (sub_pos.1 hpos).asymm]

end Sound

end Pepper.Zcc
