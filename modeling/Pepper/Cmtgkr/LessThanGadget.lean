import Pepper.Cmtgkr.PwsEvaluation
import Pepper.Foundations.FieldBits

/-!
# The gadget of a comparison of integers

What `LessThanIntOperation::computeMagicGates` leaves in its gates (`lessThanInt_sets`), and when
the gates that the line `<I` binds to constants hold these constants (`lessThanInt_honest_iff`).
The operation recovers the operands from the numbers that their gates happen to hold. The gadget is
right exactly if these compare as the operands do and have their difference up to a multiple of the
power of two (`Recovers`).
-/

set_option autoImplicit false

open Pepper.Common.Gmp Pepper.Cmtgkr.Env Pepper.Cmtgkr.Layer Pepper.Foundations

namespace Pepper.Cmtgkr.Pws

/-! ## Bits -/

/-- The value that `computeBits` gives to the gate of bit `i`. -/
def bitValue (t : ℤ) (i : ℕ) : ℤ := if tstbit t i then 2 ^ i else 0

theorem emod_two_pow_succ (t : ℤ) (n : ℕ) : t % 2 ^ (n + 1) = t % 2 ^ n + bitValue t n := by
  have hpos : (0 : ℤ) < 2 ^ n := by positivity
  have hlow := Int.emod_nonneg t hpos.ne'
  have hlt := Int.emod_lt_of_pos t hpos
  have hsplit := Int.emod_add_mul_ediv t (2 ^ n)
  have hbit : bitValue t n = 2 ^ n * (t / 2 ^ n % 2) := by
    rw [bitValue, tstbit]
    rcases Int.emod_two_eq_zero_or_one (t / 2 ^ n) with h | h
    · simp [h]
    · simp [h]
  have hhalf := Int.emod_add_mul_ediv (t / 2 ^ n) 2
  have hrange : 0 ≤ t / 2 ^ n % 2 ∧ t / 2 ^ n % 2 ≤ 1 := by omega
  have ht : t = (t % 2 ^ n + bitValue t n) + 2 ^ (n + 1) * (t / 2 ^ n / 2) := by
    rw [hbit]
    calc t = t % 2 ^ n + 2 ^ n * (t / 2 ^ n) := hsplit.symm
      _ = t % 2 ^ n + 2 ^ n * (t / 2 ^ n % 2 + 2 * (t / 2 ^ n / 2)) := by rw [hhalf]
      _ = _ := by ring
  have hsmall : t % 2 ^ n + bitValue t n < 2 ^ (n + 1) := by
    rw [hbit, pow_succ]
    nlinarith
  have hnonneg : 0 ≤ t % 2 ^ n + bitValue t n := by
    rw [hbit]
    nlinarith
  calc t % 2 ^ (n + 1)
      = ((t % 2 ^ n + bitValue t n) + 2 ^ (n + 1) * (t / 2 ^ n / 2)) % 2 ^ (n + 1) := by rw [← ht]
    _ = (t % 2 ^ n + bitValue t n) % 2 ^ (n + 1) := Int.add_mul_emod_self_left _ _ _
    _ = t % 2 ^ n + bitValue t n := Int.emod_eq_of_lt hnonneg hsmall

/-- The bits add up to the number modulo the power of two. -/
theorem sum_bitValue (t : ℤ) (n : ℕ) : ((List.range n).map (bitValue t)).sum = t % 2 ^ n := by
  induction n with
  | zero => simp
  | succ n ih =>
      rw [List.range_succ, List.map_append, List.sum_append, ih, emod_two_pow_succ]
      simp

/-! ## Setting gates -/

section Setting

variable {ns : List GatePosition}

theorem computeBits_bit (hns : ns.Nodup) {i : ℕ} {g : GatePosition} (hg : ns[i]? = some g)
    (sum : ℤ) (v : Values) :
    ((computeBits ns sum false v).at g).zValue = bitValue (sum + 2 ^ ns.length) i := by
  have hmem : (g, bitValue (sum + 2 ^ ns.length) i) ∈
      ns.zipIdx.map fun e => (e.1, bitValue (sum + 2 ^ ns.length) e.2) :=
    List.mem_map.mpr ⟨(g, i), List.mem_zipIdx_iff_getElem?.mpr hg, rfl⟩
  have hgates : (ns.zipIdx.map fun e => (e.1, bitValue (sum + 2 ^ ns.length) e.2)).map Prod.fst =
      ns := by
    rw [List.map_map]
    exact List.zipIdx_map_fst 0 ns
  rw [computeBits_eq]
  exact congrArg Gate.zValue (setVals_at_of_mem _ (hgates.symm ▸ hns) v hmem)

end Setting

/-! ## The operation -/

section Operation

/-- The number that the operation recovers from a gate. -/
def recovered (p : ℕ) (z : ℤ) : ℤ := toTrueNumber z ((p : ℤ).tdiv 2) p

theorem toTrueResidue_self (p : ℕ) (pos : GatePosition) (v : Values) :
    ((toTrueResidue p pos v).at pos).zValue = recovered p (v.at pos).zValue := by
  rw [toTrueResidue, Values.at_set, if_pos rfl]
  rfl

/-- The values of the operands after both have been recovered: those of one gate that is both
operands are the same. -/
theorem toTrueResidue_sub (p : ℕ) (g1 g2 : GatePosition) (v : Values) :
    ((toTrueResidue p g2 (toTrueResidue p g1 v)).at g1).zValue -
        ((toTrueResidue p g2 (toTrueResidue p g1 v)).at g2).zValue =
      recovered p (v.at g1).zValue - recovered p (v.at g2).zValue := by
  by_cases h : g1 = g2
  · rw [h, sub_self, sub_self]
  · rw [toTrueResidue_of_ne h, toTrueResidue_self, toTrueResidue_self,
      toTrueResidue_of_ne (Ne.symm h)]

/-- The number whose bits the operation sets. -/
def gadgetSum (n : ℕ) (D : ℤ) : ℤ := (if D < 0 then D else -D) + 2 ^ n

/-- What the operation leaves for a difference `D` of the recovered numbers. -/
structure LessThanSet (p : ℕ) (D : ℤ) (lt eq gt g1 g2 : GatePosition) (ns : List GatePosition)
    (v w : Values) : Prop where
  below : (w.at lt).zValue = if D < 0 then 1 else 0
  equal : (w.at eq).zValue = if D = 0 then 1 else 0
  above : (w.at gt).zValue = if 0 < D then 1 else 0
  bits : ∀ i g, ns[i]? = some g → (w.at g).zValue = bitValue (gadgetSum ns.length D) i
  operand1 : ((w.at g1).zValue : ZMod p) = (v.at g1).zValue
  operand2 : ((w.at g2).zValue : ZMod p) = (v.at g2).zValue

/-- The flags of integers. -/
theorem computeMs_eq (lt eq gt : GatePosition) (x1 x2 : ℤ) (v : Values) :
    computeMs [lt, eq, gt] x1 x2 v =
      [(lt, if x1 < x2 then 1 else 0), (eq, if x1 = x2 then 1 else 0),
        (gt, if x2 < x1 then (1 : ℤ) else 0)].foldl (fun v e => setVal v e.1 e.2) v := by
  have hflags : (if (x1 : ℚ) < (x2 : ℚ) then [1, 0, 0]
      else if (x1 : ℚ) = (x2 : ℚ) then [0, 1, 0] else [0, 0, 1] : List ℤ) =
        [if x1 < x2 then 1 else 0, if x1 = x2 then 1 else 0, if x2 < x1 then 1 else 0] := by
    simp only [Int.cast_lt, Int.cast_inj]
    rcases lt_trichotomy x1 x2 with h | h | h
    · rw [if_pos h, if_pos h, if_neg h.ne, if_neg h.not_gt]
    · rw [if_neg h.not_lt, if_pos h, if_neg h.not_lt, if_pos h, if_neg h.not_gt]
    · rw [if_neg h.not_gt, if_neg h.ne', if_neg h.not_gt, if_neg h.ne', if_pos h]
  rw [computeMs, hflags]
  rfl

theorem lessThanInt_sets {p : ℕ} {lt eq gt g1 g2 : GatePosition} {ns : List GatePosition}
    (hnodup : ([lt, eq, gt] ++ ns).Nodup) (h1 : g1 ∉ [lt, eq, gt] ++ ns)
    (h2 : g2 ∉ [lt, eq, gt] ++ ns) (v : Values) :
    LessThanSet p (recovered p (v.at g1).zValue - recovered p (v.at g2).zValue) lt eq gt g1 g2 ns v
      (computeMagicGates p (.lessThanInt [lt, eq, gt] ns g1 g2) v) := by
  obtain ⟨hms, hns, hapart⟩ := List.nodup_append'.mp hnodup
  obtain ⟨h1ms, h1ns⟩ := not_or.mp (mt List.mem_append.mpr h1)
  obtain ⟨h2ms, h2ns⟩ := not_or.mp (mt List.mem_append.mpr h2)
  set u := toTrueResidue p g2 (toTrueResidue p g1 v) with hu
  set D := recovered p (v.at g1).zValue - recovered p (v.at g2).zValue with hD
  have hsub : (u.at g1).zValue - (u.at g2).zValue = D := toTrueResidue_sub p g1 g2 v
  -- the flags
  set m := computeMs [lt, eq, gt] (u.at g1).zValue (u.at g2).zValue u with hm
  have hkept : ∀ g, g ∉ [lt, eq, gt] → m.at g = u.at g := fun g hg => by
    rw [hm, computeMs_eq]
    exact setVals_at_of_notMem _ u hg
  have hflag : ∀ e ∈ [(lt, if (u.at g1).zValue < (u.at g2).zValue then 1 else 0),
      (eq, if (u.at g1).zValue = (u.at g2).zValue then 1 else 0),
      (gt, if (u.at g2).zValue < (u.at g1).zValue then (1 : ℤ) else 0)],
      e.1 ∉ ns ∧ (m.at e.1).zValue = e.2 := fun e he => by
    have hmem : e.1 ∈ [lt, eq, gt] := List.mem_map_of_mem (f := Prod.fst) he
    refine ⟨fun hg => hapart hmem hg, ?_⟩
    rw [hm, computeMs_eq, setVals_at_of_mem _ (by exact hms) u he]
  -- the bits
  have hdiff : (if (u.at g1).zValue < (u.at g2).zValue then (m.at g1).zValue - (m.at g2).zValue
      else (m.at g2).zValue - (m.at g1).zValue) = if D < 0 then D else -D := by
    rw [hkept g1 h1ms, hkept g2 h2ms]
    by_cases h : D < 0
    · rw [if_pos (by omega), if_pos h, hsub]
    · rw [if_neg (by omega), if_neg h]
      omega
  have hw : computeMagicGates p (.lessThanInt [lt, eq, gt] ns g1 g2) v =
      computeBits ns (if D < 0 then D else -D) false m := by
    rw [← hdiff]
    rfl
  have hresidue : ∀ g, g ∉ [lt, eq, gt] → g ∉ ns →
      ((((computeBits ns (if D < 0 then D else -D) false m).at g).zValue : ℤ) : ZMod p) =
        (v.at g).zValue := fun g hg hg' => by
    rw [computeBits_of_notMem hg', hkept g hg, hu, toTrueResidue_cast, toTrueResidue_cast]
  rw [hw]
  refine ⟨?_, ?_, ?_, fun i g hg => computeBits_bit hns hg _ _, hresidue g1 h1ms h1ns,
    hresidue g2 h2ms h2ns⟩
  · obtain ⟨hnotBit, hvalue⟩ := hflag _ (.head _)
    rw [computeBits_of_notMem hnotBit, hvalue]
    exact if_congr (by omega) rfl rfl
  · obtain ⟨hnotBit, hvalue⟩ := hflag _ (.tail _ (.head _))
    rw [computeBits_of_notMem hnotBit, hvalue]
    exact if_congr (by omega) rfl rfl
  · obtain ⟨hnotBit, hvalue⟩ := hflag _ (.tail _ (.tail _ (.head _)))
    rw [computeBits_of_notMem hnotBit, hvalue]
    exact if_congr (by omega) rfl rfl

end Operation

/-! ## The constraints -/

section Constraints

variable {p n : ℕ} {D d : ℤ}

/-- A product constraint for a difference below zero: the bits stand for the difference itself. -/
theorem belowConstraint_iff (hp : 2 ^ (n + 2) < p) (hd : |d| ≤ 2 ^ n) (hD : D < 0) :
    ((gadgetSum n D % 2 ^ n - 2 ^ n - d : ℤ) : ZMod p) = 0 ↔ d < 0 ∧ (2 : ℤ) ^ n ∣ D - d := by
  have hpos : (0 : ℤ) < 2 ^ n := by positivity
  have hp' : (2 : ℤ) ^ n * 4 < p := by
    have : ((2 ^ (n + 2) : ℕ) : ℤ) < p := by exact_mod_cast hp
    rw [pow_add] at this
    push_cast at this
    linarith
  have hS : gadgetSum n D % 2 ^ n = D % 2 ^ n := by
    rw [gadgetSum, if_pos hD, Int.add_emod_right]
  have hlow := Int.emod_nonneg D hpos.ne'
  have hlt := Int.emod_lt_of_pos D hpos
  obtain ⟨hd1, hd2⟩ := abs_le.mp hd
  rw [hS]
  constructor
  · intro hzero
    have hrange : |D % 2 ^ n - 2 ^ n - d| < p := abs_lt.mpr ⟨by linarith, by linarith⟩
    have heq := FieldBits.eq_zero_of_abs_lt hrange hzero
    refine ⟨by linarith, ?_⟩
    have hdvd : (2 : ℤ) ^ n ∣ D - D % 2 ^ n := Int.dvd_self_sub_emod
    have hd' : D - d = D - D % 2 ^ n + 2 ^ n := by linarith
    rw [hd']
    exact dvd_add hdvd (dvd_refl _)
  · rintro ⟨hneg, hdvd⟩
    have hmod : D % 2 ^ n = d + 2 ^ n := by
      have hsame : D % 2 ^ n = (d + 2 ^ n) % 2 ^ n := by
        rw [Int.add_emod_right]
        exact (Int.modEq_iff_dvd.mpr hdvd).symm
      rw [hsame, Int.emod_eq_of_lt (by linarith) (by linarith)]
    rw [hmod]
    simp

/-- The three product constraints hold exactly if the recovered difference `D` has the sign of `d`
and differs from it by a multiple of the power of two. -/
theorem constraints_iff (hp : 2 ^ (n + 2) < p) (hd : |d| ≤ 2 ^ n) :
    ((D < 0 → ((gadgetSum n D % 2 ^ n - 2 ^ n - d : ℤ) : ZMod p) = 0) ∧
      (0 < D → ((gadgetSum n D % 2 ^ n - 2 ^ n + d : ℤ) : ZMod p) = 0) ∧
      (D = 0 → ((d : ℤ) : ZMod p) = 0)) ↔
    (D < 0 ↔ d < 0) ∧ (D = 0 ↔ d = 0) ∧ (2 : ℤ) ^ n ∣ D - d := by
  rcases lt_trichotomy D 0 with hD | hD | hD
  · have hbelow := belowConstraint_iff hp hd hD
    constructor
    · rintro ⟨h, -, -⟩
      obtain ⟨hneg, hdvd⟩ := hbelow.mp (h hD)
      exact ⟨iff_of_true hD hneg, iff_of_false hD.ne hneg.ne, hdvd⟩
    · rintro ⟨hsign, -, hdvd⟩
      exact ⟨fun _ => hbelow.mpr ⟨hsign.mp hD, hdvd⟩, fun h => absurd h hD.not_gt,
        fun h => absurd h hD.ne⟩
  · subst hD
    constructor
    · rintro ⟨-, -, h⟩
      have hrange : |d| < p := by
        have hp' : ((2 ^ (n + 2) : ℕ) : ℤ) < p := by exact_mod_cast hp
        have hpos : (0 : ℤ) < 2 ^ n := by positivity
        rw [pow_add] at hp'
        push_cast at hp'
        linarith
      obtain rfl := FieldBits.eq_zero_of_abs_lt hrange (h rfl)
      exact ⟨Iff.rfl, Iff.rfl, dvd_zero _⟩
    · rintro ⟨-, hzero, -⟩
      exact ⟨fun h => absurd h (lt_irrefl 0), fun h => absurd h (lt_irrefl 0), fun _ => by
        rw [hzero.mp rfl, Int.cast_zero]⟩
  · have hD' : -D < 0 := by linarith
    have hsum : gadgetSum n (-D) = gadgetSum n D := by
      rw [gadgetSum, gadgetSum, if_pos hD', if_neg hD.not_gt]
    have habove := belowConstraint_iff hp ((abs_neg d).trans_le hd) hD'
    rw [hsum, sub_neg_eq_add, sub_neg_eq_add, neg_add_eq_sub, ← dvd_neg, neg_sub] at habove
    constructor
    · rintro ⟨-, h, -⟩
      obtain ⟨hneg, hdvd⟩ := habove.mp (h hD)
      exact ⟨iff_of_false hD.not_gt (by linarith), iff_of_false hD.ne' (by linarith), hdvd⟩
    · rintro ⟨hsign, hzero, hdvd⟩
      have hdpos : -d < 0 := by
        have h1 : ¬ d < 0 := fun h => hD.not_gt (hsign.mpr h)
        have h2 : d ≠ 0 := fun h => hD.ne' (hzero.mpr h)
        have := lt_of_le_of_ne (not_lt.mp h1) h2.symm
        linarith
      exact ⟨fun h => absurd h hD.not_gt, fun _ => habove.mpr ⟨hdpos, hdvd⟩,
        fun h => absurd h hD.ne'⟩

end Constraints

/-- A product with a flag vanishes exactly if the other factor does where the flag is set. -/
theorem flag_mul_eq_zero_iff {R : Type} [CommRing R] {P : Prop} [Decidable P] {a b : R}
    (h : a = b) : (if P then 1 else 0) * a = 0 ↔ (P → b = 0) := by
  by_cases hP : P
  · rw [if_pos hP, one_mul, h]
    exact ⟨fun h _ => h, fun h => h hP⟩
  · rw [if_neg hP, zero_mul]
    exact iff_of_true rfl fun h => absurd h hP

/-! ## The line -/

section Line

variable {s s' : PWSCircuitParser}

/-- Fresh magic variables get different gates, and none of an operand. -/
theorem magicGates_apart {T : Primitive → Prop} (h : Run (lineCalls T) s s') (hs : WellFormed s)
    {magics : List Primitive} {gates : List GatePosition} (hnodup : magics.Nodup)
    (hunbound : ∀ m ∈ magics, lowest s m = none) (hT : ∀ m ∈ magics, ¬ T m)
    (hgates : magics.map (lowest s') = gates.map some) :
    gates.Nodup ∧ ∀ p g, p ∉ magics → ¬ T p → lowest s' p = some g → g ∉ gates := by
  have hquiet : ∀ {p}, ¬ T p → ∀ t gate, ¬ (lineCalls T).allows t (.bind p gate) :=
    fun hp _ _ hallowed => hp hallowed.1
  have hgate : ∀ m ∈ magics, ∃ g, lowest s' m = some g := fun m hm => by
    have hmem := hgates ▸ List.mem_map_of_mem (f := lowest s') hm
    obtain ⟨g, -, hg⟩ := List.mem_map.mp hmem
    exact ⟨g, hg.symm⟩
  constructor
  · refine List.Nodup.of_map some ?_
    rw [← hgates]
    refine List.Nodup.map_on (fun m hm m' hm' heq => ?_) hnodup
    obtain ⟨g, hg⟩ := hgate m hm
    by_contra hne
    exact h.lowest_distinct hs hne (hquiet (hT m hm)) (hquiet (hT m' hm')) (hunbound m' hm') hg
      (heq ▸ hg) rfl
  · intro p g hp hTp hg hmem
    have hmem' : some g ∈ magics.map (lowest s') := hgates ▸ List.mem_map_of_mem hmem
    obtain ⟨m, hm, hmg⟩ := List.mem_map.mp hmem'
    have hne : p ≠ m := fun heq => hp (heq ▸ hm)
    exact h.lowest_distinct hs hne (hquiet hTp) (hquiet (hT m hm)) (hunbound m hm) hg hmg rfl

/-- The gates that a line from `s` to `s'` binds to constants hold these, and the gate of the target
holds the comparison of `x` and `y`. -/
def GadgetHolds (p : ℕ) (s s' : PWSCircuitParser) (target : Primitive) (x y : ℤ) (w : Values) :
    Prop :=
  (∀ d ∈ s'.outConstantDesc.drop s.outConstantDesc.length, ∃ num, mpzSetStr d.2 = some num ∧
    ((w.at d.1).zValue : ZMod p) = (num : ℤ)) ∧
  ∃ g, lowest s' target = some g ∧ ((w.at g).zValue : ZMod p) = if x < y then 1 else 0

/-- The numbers that the operation recovers from its operands compare as `x` and `y` do, and have
their difference up to a multiple of `2 ^ n`. -/
def Recovers (p n : ℕ) (z1 z2 x y : ℤ) : Prop :=
  (recovered p z1 < recovered p z2 ↔ x < y) ∧ (recovered p z1 = recovered p z2 ↔ x = y) ∧
    (2 : ℤ) ^ n ∣ recovered p z1 - recovered p z2 - (x - y)

/-- The residues that a later evaluation has in the gates of the operation. -/
structure LessThanValues (p : ℕ) (val : GatePosition → ZMod p) (D x y : ℤ)
    (lt eq gt g1 g2 : GatePosition) (ns : List GatePosition) : Prop where
  below : val lt = if D < 0 then 1 else 0
  equal : val eq = if D = 0 then 1 else 0
  above : val gt = if 0 < D then 1 else 0
  bits : ∀ i g, ns[i]? = some g → val g = (bitValue (gadgetSum ns.length D) i : ℤ)
  operand1 : val g1 = x
  operand2 : val g2 = y

section Values

variable {p : ℕ} {val : GatePosition → ZMod p} {D x y : ℤ} {lt eq gt g1 g2 : GatePosition}
  {ns : List GatePosition}

theorem LessThanSet.values {v u : Values} (h : LessThanSet p D lt eq gt g1 g2 ns v u)
    (hkept : ∀ g ∈ [g1, g2] ++ ([lt, eq, gt] ++ ns), val g = (u.at g).zValue)
    (hx : ((v.at g1).zValue : ZMod p) = x) (hy : ((v.at g2).zValue : ZMod p) = y) :
    LessThanValues p val D x y lt eq gt g1 g2 ns where
  below := by
    rw [hkept lt (by simp), h.below]
    split_ifs <;> simp
  equal := by
    rw [hkept eq (by simp), h.equal]
    split_ifs <;> simp
  above := by
    rw [hkept gt (by simp), h.above]
    split_ifs <;> simp
  bits i g hg := by
    have hmem : g ∈ ns := List.mem_of_getElem? hg
    rw [hkept g (by simp [hmem]), h.bits i g hg]
  operand1 := by rw [hkept g1 (by simp), h.operand1, hx]
  operand2 := by rw [hkept g2 (by simp), h.operand2, hy]

/-- A bit is zero or its power of two. -/
theorem LessThanValues.bit_mul (h : LessThanValues p val D x y lt eq gt g1 g2 ns) {i : ℕ}
    {g : GatePosition} (hg : ns[i]? = some g) : val g * (val g - 2 ^ i) = 0 := by
  rw [h.bits i g hg, bitValue]
  split_ifs <;> simp

/-- A flag is zero or one. -/
theorem LessThanValues.flag_mul (h : LessThanValues p val D x y lt eq gt g1 g2 ns) :
    ∀ g ∈ [lt, eq, gt], val g * (val g - 1) = 0 := fun g hg => by
  simp only [List.mem_cons, List.not_mem_nil, or_false] at hg
  rcases hg with rfl | rfl | rfl
  · rw [h.below]; split_ifs <;> simp
  · rw [h.equal]; split_ifs <;> simp
  · rw [h.above]; split_ifs <;> simp

/-- Exactly one flag is set. -/
theorem LessThanValues.flag_sum (h : LessThanValues p val D x y lt eq gt g1 g2 ns) :
    val lt + val eq + val gt = 1 := by
  rw [h.below, h.equal, h.above]
  rcases lt_trichotomy D 0 with hD | hD | hD
  · simp [hD, hD.ne, hD.not_gt]
  · simp [hD]
  · simp [hD, hD.ne', hD.not_gt]

theorem LessThanValues.bit_sum (h : LessThanValues p val D x y lt eq gt g1 g2 ns) :
    (ns.map val).sum = ((gadgetSum ns.length D % 2 ^ ns.length : ℤ) : ZMod p) := by
  have hmap : ns.map val =
      (List.range ns.length).map fun i => ((bitValue (gadgetSum ns.length D) i : ℤ) : ZMod p) := by
    refine List.ext_getElem? fun i => ?_
    by_cases hi : i < ns.length
    · have hg := List.getElem?_eq_getElem hi
      rw [List.getElem?_map, List.getElem?_map, hg, List.getElem?_range hi]
      exact congrArg some (h.bits i _ hg)
    · rw [List.getElem?_eq_none (by simp; omega), List.getElem?_eq_none (by simp; omega)]
  rw [hmap, ← sum_bitValue]
  push_cast
  rw [List.map_map]
  rfl

end Values

/-- The gates that the line binds to constants, over what the operation has left. -/
theorem LessThanOutputs.holds_iff {p n : ℕ} {lt eq gt g1 g2 : GatePosition}
    {nis : List GatePosition} {w : Values} {x y D : ℤ}
    (h : LessThanOutputs True (ZMod p) s s' n lt eq gt g1 g2 nis) (hlength : nis.length = n)
    (hw : Evaluates s' fun pos => ((w.at pos).zValue : ZMod p))
    (hvalues : LessThanValues p (fun pos => ((w.at pos).zValue : ZMod p)) D x y lt eq gt g1 g2
      nis) :
    (∀ d ∈ s'.outConstantDesc.drop s.outConstantDesc.length, ∃ num, mpzSetStr d.2 = some num ∧
      ((w.at d.1).zValue : ZMod p) = (num : ℤ)) ↔
    (D < 0 → ((gadgetSum n D % 2 ^ n - 2 ^ n - (x - y) : ℤ) : ZMod p) = 0) ∧
      (0 < D → ((gadgetSum n D % 2 ^ n - 2 ^ n + (x - y) : ℤ) : ZMod p) = 0) ∧
      (D = 0 → ((x - y : ℤ) : ZMod p) = 0) := by
  obtain ⟨bits, flags, posLt, posGt, posEq, hout, hbits, hflags, hmLt, hmGt, hmEq⟩ := h
  set val : GatePosition → ZMod p := fun pos => ((w.at pos).zValue : ZMod p) with hval
  have hsum := hvalues.bit_sum
  rw [hlength] at hsum
  -- the three products
  have hLt : val posLt = 0 ↔
      (D < 0 → ((gadgetSum n D % 2 ^ n - 2 ^ n - (x - y) : ℤ) : ZMod p) = 0) := by
    rw [hmLt.value trivial val hw, hvalues.below, hvalues.operand1, hvalues.operand2, hsum]
    exact flag_mul_eq_zero_iff (by push_cast; ring)
  have hGt : val posGt = 0 ↔
      (0 < D → ((gadgetSum n D % 2 ^ n - 2 ^ n + (x - y) : ℤ) : ZMod p) = 0) := by
    rw [hmGt.value trivial val hw, hvalues.above, hvalues.operand1, hvalues.operand2, hsum]
    exact flag_mul_eq_zero_iff (by push_cast; ring)
  have hEq : val posEq = 0 ↔ (D = 0 → ((x - y : ℤ) : ZMod p) = 0) := by
    rw [hmEq.value trivial val hw, hvalues.equal, hvalues.operand1, hvalues.operand2]
    exact flag_mul_eq_zero_iff (by push_cast; ring)
  have hzero : mpzSetStr (Text.ofInt 0) = some 0 := mpzSetStr_ofInt 0
  have hone : mpzSetStr (Text.ofInt 1) = some 1 := mpzSetStr_ofInt 1
  rw [hout, List.drop_left, ← hLt, ← hGt, ← hEq]
  constructor
  · intro h
    have hproduct : ∀ pos, (pos, Text.ofInt 0) ∈ bits ++ (flags ++
        [(posLt, Text.ofInt 0), (posGt, Text.ofInt 0), (posEq, Text.ofInt 0)]) → val pos = 0 :=
      fun pos hmem => by
        obtain ⟨num, hnum, hvalue⟩ := h _ hmem
        obtain rfl := Option.some.inj (hzero.symm.trans hnum)
        exact hvalue.trans Int.cast_zero
    exact ⟨hproduct posLt (by simp), hproduct posGt (by simp), hproduct posEq (by simp)⟩
  · rintro ⟨hl, hg, he⟩ d hd
    -- the gates of bits and flags always hold their constants
    rcases List.mem_append.mp hd with hd | hd
    · obtain ⟨htext, i, g, hg, hm⟩ := hbits d hd
      have hbit := (hm.value trivial val hw).trans (hvalues.bit_mul hg)
      exact ⟨0, htext ▸ hzero, hbit.trans Int.cast_zero.symm⟩
    rcases List.mem_append.mp hd with hd | hd
    · rcases hflags d hd with ⟨htext, g, hg, hm⟩ | ⟨htext, hm⟩
      · have hflag := (hm.value trivial val hw).trans (hvalues.flag_mul g hg)
        exact ⟨0, htext ▸ hzero, hflag.trans Int.cast_zero.symm⟩
      · have hflagSum := (hm.value trivial val hw).trans hvalues.flag_sum
        exact ⟨1, htext ▸ hone, hflagSum.trans Int.cast_one.symm⟩
    · simp only [List.mem_cons, List.not_mem_nil, or_false] at hd
      rcases hd with rfl | rfl | rfl
      · exact ⟨0, hzero, hl.trans Int.cast_zero.symm⟩
      · exact ⟨0, hzero, hg.trans Int.cast_zero.symm⟩
      · exact ⟨0, hzero, he.trans Int.cast_zero.symm⟩

/-- The magic variables of the line have the gates of its operation. -/
theorem LessThanGates.lowest_magics {R : Type} [CommRing R] {base n : ℕ}
    {plt peq pgt p1 p2 py : Primitive} {lt eq gt g1 g2 : GatePosition} {ns : List GatePosition}
    (h : LessThanGates True R s s' base n plt peq pgt p1 p2 py lt eq gt g1 g2 ns)
    (hne : ∀ m ∈ [plt, peq, pgt] ++ magicRange base n, m ≠ py) :
    ([plt, peq, pgt] ++ magicRange base n).map (lowest s') = ([lt, eq, gt] ++ ns).map some := by
  rw [List.map_append, List.map_append]
  refine congrArg₂ (· ++ ·) ?_ (List.ext_getElem? fun i => ?_)
  · simp only [List.map_cons, List.map_nil]
    rw [h.below (hne plt (by simp)), h.equal (hne peq (by simp)), h.above (hne pgt (by simp))]
  · by_cases hi : i < n
    · have hg := List.getElem?_eq_getElem (h.length.symm ▸ hi : i < ns.length)
      have hm : (⟨.intermediate, base + i⟩ : Primitive) ∈ [plt, peq, pgt] ++ magicRange base n :=
        List.mem_append_right _ (mem_magicRange base hi)
      rw [magicRange, List.map_map, List.getElem?_map, List.getElem?_map, hg,
        List.getElem?_range hi]
      exact congrArg some (h.bits i _ hg (hne _ hm))
    · rw [List.getElem?_eq_none (by simp [magicRange]; omega),
        List.getElem?_eq_none (by simp [h.length]; omega)]

/-- An operand is neither a magic variable of the line nor its target. -/
theorem OpLine.Fresh.operand_apart {line : OpLine} (h : line.Fresh s) {token y : Token}
    {q py : Primitive} (hoperand : ∀ r, token.asVariable = some r → r ∈ line.operands)
    (hq : token.asVariable = some q ∨ token.asVariable = none ∧ q.isConstant = true)
    (hy : y.asVariable = some py) (htarget : py ∈ line.targets) : q ∉ line.magics ∧ q ≠ py := by
  rcases hq with hq | ⟨-, hq⟩
  · obtain ⟨hmagics, htargets⟩ := h.operands q (hoperand q hq)
    exact ⟨hmagics, fun heq => htargets (heq ▸ htarget)⟩
  · refine ⟨fun hm => ?_, fun heq => ?_⟩
    · rw [Primitive.isConstant, h.intermediate q hm] at hq
      exact Bool.false_ne_true hq
    · rw [isConstant_eq_not, heq, asVariable_isVariable hy] at hq
      exact Bool.false_ne_true hq

/-- The gates of a line `<I`: those that its operation sets are apart, and apart from the ones that
it reads. -/
structure LessThanApart (p n : ℕ) (s s' : PWSCircuitParser) (target : Primitive)
    (lt eq gt g1 g2 : GatePosition) (ns : List GatePosition) : Prop where
  length : ns.length = n
  outputs : LessThanOutputs True (ZMod p) s s' n lt eq gt g1 g2 ns
  target : lowest s' target = some lt
  nodup : ([lt, eq, gt] ++ ns).Nodup
  operand1 : g1 ∉ [lt, eq, gt] ++ ns
  operand2 : g2 ∉ [lt, eq, gt] ++ ns

/-- The line `<I` of a worksheet, of which the operands and the power of two are settled. -/
theorem OpWorksheet.lessThanApart {p N : ℕ} [Fact p.Prime] {rightFirst : Bool}
    {n0 n mlt meq mgt x1 x2 y : Token} {before rest rest' : List Token} {line : OpLine}
    {t : PWSCircuitParser} {c : PWSCircuit} {target : Primitive} {guard : List ℕ}
    {ms ns : List GatePosition} {g1 g2 : GatePosition}
    (h : OpWorksheet rightFirst p before (.word .lessThanInt)
      (lessThanIntTokens n0 n mlt meq mgt x1 x2 y rest) rest' line s s' t c)
    (hnodup : line.magics.Nodup) (htarget : y.asVariable = some target)
    (hop : s'.magicOps = s.magicOps ++ [(guard, .lessThanInt ms ns g1 g2)])
    (hoperands : ∀ q, x1.Names s q ∨ x2.Names s q → SettledAt (ZMod p) s q)
    (hpower : ∀ q, IsConst s (Text.ofInt (-(2 ^ (N - 1)))) q → SettledAt (ZMod p) s q)
    (hN : n.number = N) (hN2 : 2 ≤ N) :
    ∃ lt eq gt, ms = [lt, eq, gt] ∧ LessThanApart p (N - 1) s s' target lt eq gt g1 g2 ns := by
  have hrun := h.reached.1
  have hs := (hrun.wellFormed wellFormed_new).1
  have hfresh := h.fresh
  have hnames := h.names
  simp only [lessThanIntTokens, opLine?, Option.bind_eq_bind, Option.bind_eq_some_iff,
    Option.some.injEq] at hnames
  obtain ⟨b0, hb0, plt, hlt, peq, heq, pgt, hgt, py, hy, rfl⟩ := hnames
  obtain rfl := Option.some.inj (hy.symm.trans htarget)
  have hrange : (n.number - 1).toNat = N - 1 := by omega
  -- the bits and the flags have no gate yet
  have hready : LessThanReady (ZMod p) s b0.idx (n.number - 1).toNat [plt, peq, pgt]
      fun q => x1.Names s q ∨ x2.Names s q :=
    { aligned := aligned_of_new hrun
      positive := by omega
      bits := fun i hi => grounded_of_unbound
        (hfresh.unbound _ (List.mem_append_right _ (mem_magicRange b0.idx hi)))
      flags := fun m hm => grounded_of_unbound (hfresh.unbound m (List.mem_append_left _ hm))
      operands := hoperands
      power := hrange.symm ▸ hpower }
  obtain ⟨-, text, M, p1, p2, lt, eq, gt, k1, k2, nis, hn, hM, hp1, hp2, hgates⟩ :=
    parseLessThanInt_inv (S := True) (R := ZMod p) hs (fun _ => hready) hb0 hlt heq hgt
      (hfresh.intermediate plt (by simp)) (hfresh.intermediate peq (by simp))
      (hfresh.intermediate pgt (by simp)) hy h.parse
  have hcount : (M - 1).toNat = N - 1 := by
    have hnumber : n.number = M := by rw [hn, Token.number, hM]; rfl
    omega
  rw [hcount] at hgates
  -- the operation is the one that was recorded
  obtain ⟨-, hsame⟩ := Prod.mk.inj (List.singleton_inj.mp
    (List.append_cancel_left (hop.symm.trans hgates.ops)))
  obtain ⟨rfl, rfl, rfl, rfl⟩ := MagicVarOperation.lessThanInt.inj hsame
  have hne : ∀ m ∈ [plt, peq, pgt] ++ magicRange b0.idx (n.number - 1).toNat, ¬ m = py :=
    fun m hm heq => hfresh.targets py (List.mem_singleton.mpr rfl) (heq ▸ hm)
  have hlowest := hgates.lowest_magics (hrange ▸ hne)
  rw [← hrange] at hlowest
  obtain ⟨hdistinct, hapart⟩ := magicGates_apart hgates.run hs hnodup hfresh.unbound hne hlowest
  obtain ⟨hp1m, hp1y⟩ := hfresh.operand_apart (fun r hr =>
    List.mem_append_left _ (Option.mem_toList.mpr hr)) hp1 hy (List.mem_singleton.mpr rfl)
  obtain ⟨hp2m, hp2y⟩ := hfresh.operand_apart (fun r hr =>
    List.mem_append_right _ (Option.mem_toList.mpr hr)) hp2 hy (List.mem_singleton.mpr rfl)
  exact ⟨lt, eq, gt, rfl, hgates.length, hgates.outputs hp1y hp2y, hgates.target, hdistinct,
    hapart p1 g1 hp1m hp1y hgates.operand1, hapart p2 g2 hp2m hp2y hgates.operand2⟩

/-- What such a line checks after the operation. -/
theorem LessThanApart.holds_iff {p N : ℕ} {target : Primitive} {lt eq gt g1 g2 : GatePosition}
    {ns : List GatePosition} {a b : ℤ} {v w : Values}
    (h : LessThanApart p (N - 1) s s' target lt eq gt g1 g2 ns)
    (hw : EvaluatedAfter p s' (.lessThanInt [lt, eq, gt] ns g1 g2) v w) (hN2 : 2 ≤ N)
    (hp : 2 ^ (N + 1) < p) (ha : ((v.at g1).zValue : ZMod p) = a)
    (hb : ((v.at g2).zValue : ZMod p) = b) (hab : |a - b| ≤ 2 ^ (N - 1)) :
    GadgetHolds p s s' target a b w ↔
      Recovers p (N - 1) (v.at g1).zValue (v.at g2).zValue a b := by
  have hset := lessThanInt_sets (p := p) h.nodup h.operand1 h.operand2 v
  set D := recovered p (v.at g1).zValue - recovered p (v.at g2).zValue with hD
  have houtputs := h.outputs.holds_iff h.length hw.evaluates (hset.values hw.kept ha hb)
  have hpow : 2 ^ (N - 1 + 2) < p := by
    rw [show N - 1 + 2 = N + 1 by omega]
    exact hp
  have hrecovers : Recovers p (N - 1) (v.at g1).zValue (v.at g2).zValue a b ↔
      (D < 0 ↔ a - b < 0) ∧ (D = 0 ↔ a - b = 0) ∧ (2 : ℤ) ^ (N - 1) ∣ D - (a - b) := by
    rw [Recovers, hD, sub_neg, sub_neg, sub_eq_zero, sub_eq_zero]
  rw [hrecovers, ← constraints_iff hpow hab, ← houtputs]
  refine ⟨fun h => h.1, fun hout => ⟨hout, lt, h.target, ?_⟩⟩
  -- the target has the gate of the first flag
  have hsign := ((constraints_iff hpow hab).mp (houtputs.mp hout)).1
  rw [hw.kept lt (by simp [MagicVarOperation.sets]), hset.below]
  by_cases hbelow : D < 0
  · rw [if_pos hbelow, if_pos (sub_neg.mp (hsign.mp hbelow)), Int.cast_one]
  · rw [if_neg hbelow, if_neg fun h => hbelow (hsign.mpr (sub_neg.mpr h)), Int.cast_zero]

/-- The line `<I` of a worksheet with fresh magic variables, of which the operands and the power of
two are settled: in the values that the prover has after `evaluate`, the gadget is right for `a` and
`b` exactly if the operation recovers their order from the values that the gates of the operands
happen to have when `evaluate` comes to it. -/
theorem lessThanInt_honest_iff {p N : ℕ} [Fact p.Prime] {rightFirst : Bool}
    {n0 n mlt meq mgt x1 x2 y : Token} {before rest rest' : List Token} {line : OpLine}
    {t : PWSCircuitParser} {c : PWSCircuit} {target : Primitive} {guard : List ℕ}
    {ms ns : List GatePosition} {g1 g2 : GatePosition} {inputs : List ℚ} {a b : ℤ} {v : Values}
    (hsheet : OpWorksheet rightFirst p before (.word .lessThanInt)
      (lessThanIntTokens n0 n mlt meq mgt x1 x2 y rest) rest' line s s' t c)
    (hnodup : line.magics.Nodup) (htarget : y.asVariable = some target)
    (hop : s'.magicOps = s.magicOps ++ [(guard, .lessThanInt ms ns g1 g2)])
    (hoperands : ∀ q, x1.Names s q ∨ x2.Names s q → SettledAt (ZMod p) s q)
    (hpower : ∀ q, IsConst s (Text.ofInt (-(2 ^ (N - 1)))) q → SettledAt (ZMod p) s q)
    (hdivides : DivisorsInvertible p t) (hinputs : ∀ q ∈ inputs, (q.den : ZMod p) ≠ 0)
    (hN : n.number = N) (hN2 : 2 ≤ N) (hp : 2 ^ (N + 1) < p)
    (hv : v = c.evaluateUntil p s.magicOps [] guard (c.initializeInputs p inputs [] zeroValues))
    (ha : ((v.at g1).zValue : ZMod p) = a) (hb : ((v.at g2).zValue : ZMod p) = b)
    (hab : |a - b| ≤ 2 ^ (N - 1)) :
    GadgetHolds p s s' target a b (c.prove p inputs).values ↔
      Recovers p (N - 1) (v.at g1).zValue (v.at g2).zValue a b := by
  obtain ⟨lt, eq, gt, rfl, hlineApart⟩ :=
    hsheet.lessThanApart hnodup htarget hop hoperands hpower hN hN2
  have hw := hsheet.evaluated hop hdivides hinputs
  rw [← hv] at hw
  exact hlineApart.holds_iff hw hN2 hp ha hb hab

end Line

/-! ## Two worksheets -/

section Examples

variable {s : PWSCircuitParser}

/-- The words of `<I` with two bits behind its first word: `V6` is whether the operand is below
`I1`. -/
def comparedLine (x1 : Token) : List Token :=
  lessThanIntTokens (.var .temp 2) (.const ['2']) (.var .temp 3) (.var .temp 4) (.var .temp 5) x1
    (.var .input 1) (.var .temp 6) []

/-- What this line names. -/
def comparedNames (x1 : Primitive) : OpLine where
  magics := [⟨.intermediate, 3⟩, ⟨.intermediate, 4⟩, ⟨.intermediate, 5⟩, ⟨.intermediate, 2⟩]
  operands := [x1, ⟨.inputOutput, 1⟩]
  targets := [⟨.intermediate, 6⟩]

/-- A worksheet that ends with this line. -/
theorem opWorksheet_compared {prime : ℤ} {k : ℕ} {before : List Token}
    {s s' t : PWSCircuitParser} {c : PWSCircuit} (fuel : ℕ) (hk : 7 ≤ k)
    (hbefore : parseLines false prime fuel before .new = some ((), s))
    (hlines : OpLines false prime (fun line s => line.Fresh s) fuel before .new)
    (hunbound : ∀ m ∈ (comparedNames ⟨.intermediate, k⟩).magics, lowest s m = none)
    (hparse : parseLessThanInt false (comparedLine (.var .temp k)) s = some ([], s'))
    (houtput : makeOutputLayer s' = some ((), t))
    (hcircuit : constructCircuit (constructInvertedIndexes t) = some c) :
    OpWorksheet false prime before (.word .lessThanInt) (comparedLine (.var .temp k)) []
      (comparedNames ⟨.intermediate, k⟩) s s' t c where
  before := ⟨fuel, hbefore, hlines⟩
  names := rfl
  fresh := by
    refine ⟨by simp [comparedNames], hunbound, ?_, by simp [comparedNames]⟩
    simp [comparedNames]
    omega
  parse := hparse
  after := ⟨1, houtput, trivial⟩
  circuit := hcircuit

/-- Variables whose lowest gates stand in for themselves. -/
theorem compared_settled {R : Type} [CommRing R] {k : ℕ}
    (h : ∀ q ∈ (comparedNames ⟨.intermediate, k⟩).operands, ∀ g ∈ lowest s q, standIn s g = g)
    (q : Primitive) (hq : (Token.var .temp k).Names s q ∨ (Token.var .input 1).Names s q) :
    SettledAt R s q := by
  rcases hq with (hq | ⟨text, htext, -⟩) | (hq | ⟨text, htext, -⟩)
  · obtain rfl := Option.some.inj hq
    exact fun g hg => settled_of_standIn (h _ (.head _) g hg)
  · exact Token.noConfusion htext
  · obtain rfl := Option.some.inj hq
    exact fun g hg => settled_of_standIn (h _ (.tail _ (.head _)) g hg)
  · exact Token.noConfusion htext

/-- A constant that is not entered. -/
theorem settledAt_of_notEntered {R : Type} [CommRing R] {text : Text}
    (h : s.constants.findIdx? (fun c => c.value == text) = none) (q : Primitive)
    (hq : IsConst s text q) : SettledAt R s q := by
  have hfound := (isConst_iff q.idx).mp (hq.eq_mk ▸ hq)
  rw [h] at hfound
  cases hfound

/-- `P V7 = I0 * I0 E` behind its first word. -/
def squareLine : List Token :=
  [.var .temp 7, .word .assign, .var .input 0, .word .times, .var .input 0, .word .polyEnd]

/-- `/ V7 = V7 / 6` behind its first word. -/
def sixthLine : List Token :=
  [.var .temp 7, .word .assign, .var .temp 7, .word .slash, .const ['6']]

/-- What is asked of the state before the line `<I`. -/
def ComparedReady (s : PWSCircuitParser) : Prop :=
  (∀ q ∈ (comparedNames ⟨.intermediate, 7⟩).operands, ∀ g ∈ lowest s q, standIn s g = g) ∧
    (∀ m ∈ (comparedNames ⟨.intermediate, 7⟩).magics, lowest s m = none) ∧
      s.constants.findIdx? (fun c => c.value == Text.ofInt (-(2 ^ (2 - 1)))) = none

instance (s : PWSCircuitParser) : Decidable (ComparedReady s) :=
  inferInstanceAs (Decidable (_ ∧ _ ∧ _))

/-- The operation of `V7 < I1` behind the square and its sixth. -/
def sixthCompared : MagicVarOperation :=
  .lessThanInt [⟨0, 6⟩, ⟨0, 7⟩, ⟨0, 8⟩] [⟨0, 4⟩] ⟨2, 0⟩ ⟨0, 9⟩

/-- The inputs 2 and -2: the gate of the sixth of four has 8, which stands for -3. -/
theorem lessThanInt_honest_inputs : ∃ s s' t c,
    OpWorksheet false 11 (.word .poly :: squareLine ++ .word .slash :: sixthLine)
      (.word .lessThanInt) (comparedLine (.var .temp 7)) [] (comparedNames ⟨.intermediate, 7⟩)
      s s' t c ∧
    s'.magicOps = [([3, 2, 1], sixthCompared)] ∧
    GadgetHolds 11 s s' ⟨.intermediate, 6⟩ (-3) (-2) (c.prove 11 [2, -2]).values := by
  have h : (do
      let (rest₁, s₁) ← parseLine false 11 (.word .poly) (squareLine ++ .word .slash :: sixthLine)
        .new
      let (rest₂, s) ← parseLine false 11 (.word .slash) sixthLine s₁
      let (rest, s') ← parseLessThanInt false (comparedLine (.var .temp 7)) s
      let (_, t) ← makeOutputLayer s'
      let c ← constructCircuit (constructInvertedIndexes t)
      let v := c.evaluateUntil 11 [] [] [3, 2, 1] (c.initializeInputs 11 [2, -2] [] zeroValues)
      pure (decide ((rest₁ = .word .slash :: sixthLine ∧ rest₂ = [] ∧ rest = []) ∧
        (s.magicOps = [] ∧ s'.magicOps = [([3, 2, 1], sixthCompared)]) ∧ ComparedReady s ∧
        DividesByConstants 11 t ∧ (v.at ⟨2, 0⟩).zValue = 8 ∧ (v.at ⟨0, 9⟩).zValue = 9))) =
        some true := by
    decide +kernel
  simp only [Option.bind_eq_bind, Option.bind_eq_some_iff] at h
  obtain ⟨⟨rest₁, s₁⟩, hsquare, ⟨rest₂, s⟩, hsixth, ⟨rest, s'⟩, hparse, ⟨_, t⟩, houtput, c, hc,
    hchecked⟩ := h
  obtain ⟨⟨rfl, rfl, rfl⟩, ⟨hops, hops'⟩, ⟨hstands, hunbound, hentered⟩, hdivides, hfirst,
    hsecond⟩ := of_decide_eq_true (Option.some.inj hchecked)
  have hsheet := opWorksheet_compared 3 (le_refl 7)
    (parseLines_cons hsquare (parseLines_cons hsixth rfl))
    (opLines_cons nofun hsquare (opLines_cons nofun hsixth trivial)) hunbound hparse houtput hc
  obtain ⟨v, hv⟩ : ∃ v, c.evaluateUntil 11 [] [] [3, 2, 1]
      (c.initializeInputs 11 [2, -2] [] zeroValues) = v := ⟨_, rfl⟩
  have hop : s'.magicOps = s.magicOps ++ [([3, 2, 1], sixthCompared)] := by
    rw [hops, hops', List.nil_append]
  have hinputs : ∀ q ∈ ([2, -2] : List ℚ), (q.den : ZMod 11) ≠ 0 := by decide +kernel
  have hresidues : ((8 : ℤ) : ZMod 11) = (-3 : ℤ) ∧ ((9 : ℤ) : ZMod 11) = (-2 : ℤ) := by decide
  have hprime : Fact (Nat.Prime 11) := ⟨by norm_num⟩
  have hrecovers : Recovers 11 1 8 9 (-3) (-2) := ⟨by decide, by decide, by decide⟩
  rw [hv] at hfirst hsecond
  have hv' : v = c.evaluateUntil (11 : ℕ) s.magicOps [] [3, 2, 1]
      (c.initializeInputs (11 : ℕ) [2, -2] [] zeroValues) := by
    rw [hops]
    exact hv.symm
  refine ⟨s, s', t, c, hsheet, hops', ?_⟩
  exact (lessThanInt_honest_iff (N := 2) hsheet (by decide) rfl hop (compared_settled hstands)
    (settledAt_of_notEntered hentered) (hsheet.invertible hop hdivides) hinputs rfl (le_refl 2)
    (by decide) hv'
    (by rw [hfirst]; exact hresidues.1) (by rw [hsecond]; exact hresidues.2)
    (by decide)).mpr (by rw [hfirst, hsecond]; exact hrecovers)

/-- The operation of `V7 < I1` behind the square. -/
def squareCompared : MagicVarOperation :=
  .lessThanInt [⟨0, 5⟩, ⟨0, 6⟩, ⟨0, 7⟩] [⟨0, 2⟩] ⟨1, 0⟩ ⟨0, 8⟩

/-- The inputs 5 and 3: the gate of the square has 25, which stands for 3, and the operation takes
14 for it. -/
theorem square_compared_wrongly : ∃ s s' t c v,
    OpWorksheet false 11 (.word .poly :: squareLine) (.word .lessThanInt)
      (comparedLine (.var .temp 7)) [] (comparedNames ⟨.intermediate, 7⟩) s s' t c ∧
    s'.magicOps = [([1, 1], squareCompared)] ∧
    c.evaluateUntil 11 [] [] [1, 1] (c.initializeInputs 11 [5, 3] [] zeroValues) = v ∧
    (v.at ⟨1, 0⟩).zValue ≡ 3 [ZMOD 11] ∧ (v.at ⟨0, 8⟩).zValue ≡ 3 [ZMOD 11] ∧
    ¬ GadgetHolds 11 s s' ⟨.intermediate, 6⟩ 3 3 (c.prove 11 [5, 3]).values := by
  have h : (do
      let (rest₁, s) ← parseLine false 11 (.word .poly) squareLine .new
      let (rest, s') ← parseLessThanInt false (comparedLine (.var .temp 7)) s
      let (_, t) ← makeOutputLayer s'
      let c ← constructCircuit (constructInvertedIndexes t)
      let v := c.evaluateUntil 11 [] [] [1, 1] (c.initializeInputs 11 [5, 3] [] zeroValues)
      pure (decide ((rest₁ = [] ∧ rest = []) ∧
        (s.magicOps = [] ∧ s'.magicOps = [([1, 1], squareCompared)]) ∧ ComparedReady s ∧
        DividesByConstants 11 t ∧ (v.at ⟨1, 0⟩).zValue = 25 ∧ (v.at ⟨0, 8⟩).zValue = 3))) =
        some true := by
    decide +kernel
  simp only [Option.bind_eq_bind, Option.bind_eq_some_iff] at h
  obtain ⟨⟨rest₁, s⟩, hsquare, ⟨rest, s'⟩, hparse, ⟨_, t⟩, houtput, c, hc,
    hchecked⟩ := h
  obtain ⟨⟨rfl, rfl⟩, ⟨hops, hops'⟩, ⟨hstands, hunbound, hentered⟩, hdivides, hfirst, hsecond⟩ :=
    of_decide_eq_true (Option.some.inj hchecked)
  have hsheet := opWorksheet_compared 2 (le_refl 7) (parseLines_cons hsquare rfl)
    (opLines_cons nofun hsquare trivial) hunbound hparse houtput hc
  have hop : s'.magicOps = s.magicOps ++ [([1, 1], squareCompared)] := by
    rw [hops, hops', List.nil_append]
  have hinputs : ∀ q ∈ ([5, 3] : List ℚ), (q.den : ZMod 11) ≠ 0 := by decide +kernel
  have hresidue : ((25 : ℤ) : ZMod 11) = (3 : ℤ) := by decide
  have hprime : Fact (Nat.Prime 11) := ⟨by norm_num⟩
  obtain ⟨v, hv⟩ : ∃ v, c.evaluateUntil (11 : ℕ) [] [] [1, 1]
      (c.initializeInputs (11 : ℕ) [5, 3] [] zeroValues) = v := ⟨_, rfl⟩
  obtain ⟨lt, eq, gt, hms, hlineApart⟩ := hsheet.lessThanApart (N := 2) (by decide) rfl hop
    (compared_settled hstands) (settledAt_of_notEntered hentered) rfl (le_refl 2)
  have hw := hsheet.evaluated hop (hsheet.invertible hop hdivides) hinputs
  rw [squareCompared, hms, hops, hv] at hw
  replace hfirst : (v.at ⟨1, 0⟩).zValue = 25 := hv ▸ hfirst
  replace hsecond : (v.at ⟨0, 8⟩).zValue = 3 := hv ▸ hsecond
  refine ⟨s, s', t, c, v, hsheet, hops', hv, by rw [hfirst]; decide, by rw [hsecond],
    fun hholds => ?_⟩
  -- 14 is above 3
  have hrecovers := (hlineApart.holds_iff hw (le_refl 2) (by decide)
    (by rw [hfirst]; exact hresidue) (by rw [hsecond]) (by decide)).mp hholds
  rw [hfirst, hsecond] at hrecovers
  exact absurd (hrecovers.2.1.mpr rfl) (by decide)

end Examples

end Pepper.Cmtgkr.Pws
