import Pepper.Cmtgkr.HamdistLevels

/-!
# The values of the Hamming distance circuit

What the levels of `HamdistCircuit` compute of the entries of the input level, in any commutative
ring. The tower multiplies up the powers for the bits of `p - 1` from the third one on and starts
from the square, as if the second bit were set (`towerExponent_add_top`). The levels behind it add
up, and carry what is behind the data gates to the last level (`sumLevels_values`).
-/

set_option autoImplicit false

open Pepper.Common.Gmp Pepper.Foundations.Fourier
open Pepper.Cmtgkr.Env Pepper.Cmtgkr.Layer Pepper.Cmtgkr.Layer.CMTCircuit

namespace Pepper.Cmtgkr.HamdistCircuit

/-! ## Gates of a level -/

section Blocks

variable {R : Type} [CommRing R] {a b : ℕ} {addFn mulFn : MleFn} {w w' : ℕ → GateWiring}
  {v : ℕ → R}

theorem apply_blocks_left {j : ℕ} (hj : j < a) {g : GateWiring} (hg : w j = g) :
    (CircuitLayer.blocks a b addFn mulFn w w').apply v j = g.eval (v g.in1) (v g.in2) := by
  rw [CircuitLayer.apply, CircuitLayer.gate_blocks_left hj, hg]

/-- The two gates behind `n` data gates hold the claimed result and zero. -/
structure Carries (n : ℕ) (c : R) (v : ℕ → R) : Prop where
  result : v n = c
  zero : v (n + 1) = 0

theorem Carries.apply {shift : ℤ} {m : ℕ} {c : R} (h : Carries m c v) (hshift : shift + a = m) :
    Carries a c ((CircuitLayer.blocks a 2 addFn mulFn w (lastWiring shift (m + 2))).apply v) := by
  have hgate : ∀ j < 2, (CircuitLayer.blocks a 2 addFn mulFn w (lastWiring shift (m + 2))).apply v
      (a + j) = v (m + j) + v (m + 1) := by
    intro j hj
    rw [CircuitLayer.apply, CircuitLayer.gate_blocks_right hj,
      lastWiring_eq (j := j) (by push_cast; linarith)]
    rfl
  constructor
  · refine (hgate 0 (by decide)).trans ?_
    rw [Nat.add_zero, h.result, h.zero, add_zero]
  · rw [hgate 1 (by decide), h.zero, add_zero]

end Blocks

/-! ## The exponent of the tower -/

section Exponent

/-- The exponent that the even labels have after `t` levels of the tower. -/
def towerExponent (psub1 : ℕ) : ℕ → ℕ
  | 0 => 2
  | t + 1 => towerExponent psub1 t + if psub1.testBit (t + 2) then 2 ^ (t + 2) else 0

/-- What the square stands for when the second bit is clear. -/
def excess (psub1 : ℕ) : ℕ := if psub1.testBit 1 then 0 else 2

theorem mod_two_pow_succ (n k : ℕ) :
    n % 2 ^ (k + 1) = n % 2 ^ k + if n.testBit k then 2 ^ k else 0 := by
  rw [Nat.mod_pow_succ, Nat.testBit_eq_decide_div_mod_eq]
  rcases Nat.mod_two_eq_zero_or_one (n / 2 ^ k) with h | h <;> simp [h]

theorem towerExponent_eq {psub1 : ℕ} (heven : psub1 % 2 = 0) (t : ℕ) :
    towerExponent psub1 t = psub1 % 2 ^ (t + 2) + excess psub1 := by
  induction t with
  | zero =>
      have hlow := mod_two_pow_succ psub1 1
      rw [pow_one, heven] at hlow
      rw [towerExponent, Nat.zero_add, hlow, excess]
      cases psub1.testBit 1 <;> rfl
  | succ t ih =>
      have hpow : t + 1 + 2 = t + 2 + 1 := rfl
      rw [towerExponent, ih, hpow, mod_two_pow_succ psub1 (t + 2)]
      exact Nat.add_right_comm _ _ _

/-- With the top bit the exponent is `p - 1`, or two more. -/
theorem towerExponent_add_top {psub1 : ℕ} (heven : psub1 % 2 = 0) (hdepth : 3 ≤ getFLTDepth psub1) :
    towerExponent psub1 (getFLTDepth psub1 - 1 - 2) + 2 ^ (getFLTDepth psub1 - 1 - 2 + 2) =
      psub1 + excess psub1 := by
  have hlog : getFLTDepth psub1 = Nat.log2 psub1 + 1 := by
    rw [getFLTDepth, sizeInBase2, Int.natAbs_natCast]
  have htop : getFLTDepth psub1 - 1 - 2 + 2 = Nat.log2 psub1 := by omega
  have hpos : psub1 ≠ 0 := by
    rintro rfl
    exact absurd hdepth (by decide)
  have hle := Nat.log2_self_le hpos
  have hlt := @Nat.lt_log2_self psub1
  have hmod : psub1 % 2 ^ Nat.log2 psub1 = psub1 - 2 ^ Nat.log2 psub1 := by
    rw [Nat.mod_eq_sub_mod hle, Nat.mod_eq_of_lt]
    rw [pow_succ] at hlt
    omega
  rw [towerExponent_eq heven, htop, hmod]
  omega

end Exponent

/-! ## The tower -/

section Tower

variable {R : Type} [CommRing R] {p d : ℕ} {u v : ℕ → R} {c : R}

/-- What the levels of the tower hold after `t` passes. -/
structure TowerHolds (psub1 d : ℕ) (u : ℕ → R) (c : R) (t : ℕ) (w : ℕ → R) : Prop where
  products : ∀ j < 2 ^ d, w (2 * j) = u j ^ towerExponent psub1 t
  squares : ∀ j < 2 ^ d, w (2 * j + 1) = u j ^ 2 ^ (t + 2)
  carries : Carries (2 * 2 ^ d) c w

theorem TowerHolds.step {psub1 t : ℕ} {w : ℕ → R} (h : TowerHolds psub1 d u c t w) :
    TowerHolds psub1 d u c (t + 1) ((towerLevel psub1 d t).apply w) where
  products j hj := by
    have hj' : 2 * j < 2 * 2 ^ d := by omega
    rw [towerLevel, apply_blocks_left hj' (towerWiring_even _ _ j), towerExponent]
    cases psub1.testBit (t + 2)
    · change w (2 * j) + w (2 * 2 ^ d + 2 - 1) = _
      rw [Nat.add_sub_assoc (by decide), h.products j hj, h.carries.zero]
      simp
    · change w (2 * j) * w (2 * j + 1) = _
      rw [h.products j hj, h.squares j hj, ← pow_add]
      rfl
  squares j hj := by
    have hj' : 2 * j + 1 < 2 * 2 ^ d := by omega
    rw [towerLevel, apply_blocks_left hj' (towerWiring_odd _ _ j)]
    change w (2 * j + 1) * w (2 * j + 1) = _
    rw [h.squares j hj, ← pow_add, ← two_mul, ← pow_succ']
  carries := h.carries.apply (zero_add _)

/-- The second level of the circuit is the start of the tower. -/
theorem secondLevel_values {w : ℕ → R} (hw : ∀ j < 2 ^ d, w j = u j ^ 2) (hc : Carries (2 ^ d) c w)
    (psub1 : ℕ) : TowerHolds psub1 d u c 0 ((secondLevel d).apply w) where
  products j hj := by
    have hj' : 2 * j < 2 * 2 ^ d := by omega
    rw [secondLevel, apply_blocks_left hj' (secondWiring_even _ j)]
    change w j + w (2 ^ d + 2 - 1) = _
    rw [Nat.add_sub_assoc (by decide), hw j hj, hc.zero, add_zero]
    rfl
  squares j hj := by
    have hj' : 2 * j + 1 < 2 * 2 ^ d := by omega
    rw [secondLevel, apply_blocks_left hj' (secondWiring_odd _ j)]
    change w j * w j = _
    rw [hw j hj, ← pow_add]
    rfl
  carries := hc.apply (by push_cast; ring)

/-- The powers of the sums, up to the last level of the tower. -/
theorem towerLevels_values (heven : (p - 1) % 2 = 0) (hdepth : 3 ≤ getFLTDepth (p - 1))
    (hu : ∀ j < 2 ^ d, v j + v (2 ^ d + j) = u j) (hc : Carries (2 * 2 ^ d) c v) :
    (∀ j < 2 ^ d, levelValues (towerLevels p d) v j = u j ^ (p - 1 + excess (p - 1))) ∧
      Carries (2 ^ d) c (levelValues (towerLevels p d) v) := by
  have hadd : (∀ j < 2 ^ d, (addLevel d).apply v j = u j) ∧
      Carries (2 ^ d) c ((addLevel d).apply v) := by
    refine ⟨fun j hj => ?_, hc.apply (by push_cast; ring)⟩
    rw [addLevel, apply_blocks_left hj rfl]
    exact hu j hj
  have hsquare : (∀ j < 2 ^ d, (squareLevel d).apply ((addLevel d).apply v) j = u j ^ 2) ∧
      Carries (2 ^ d) c ((squareLevel d).apply ((addLevel d).apply v)) := by
    refine ⟨fun j hj => ?_, hadd.2.apply (zero_add _)⟩
    rw [squareLevel, apply_blocks_left hj rfl]
    change (addLevel d).apply v j * (addLevel d).apply v (0 + j) = _
    rw [Nat.zero_add, hadd.1 j hj, sq]
  -- the passes of the loop, from the second level on
  have htower := levelValues_stack (I := TowerHolds (p - 1) d u c)
    (f := towerLevel (p - 1) d) (n := getFLTDepth (p - 1) - 1 - 2)
    (secondLevel_values hsquare.1 hsquare.2 (p - 1)) fun t _ w hw => hw.step
  rw [towerLevels, levelValues_cons, levelValues_append]
  refine ⟨fun j hj => ?_, htower.carries.apply (by push_cast; ring)⟩
  rw [lastLevel, apply_blocks_left hj rfl]
  refine Eq.trans (congrArg₂ (· * ·) (htower.products j hj) (htower.squares j hj)) ?_
  rw [← pow_add, towerExponent_add_top heven hdepth]

end Tower

/-! ## The sums -/

section Sums

variable {R : Type} [CommRing R] {d : ℕ} {v : ℕ → R} {c : R}

/-- The last level has the sum of the powers and the claimed result. -/
theorem sumLevels_values (hd : 1 ≤ d) (hc : Carries (2 ^ d) c v) :
    levelValues (sumLevels d) v 0 = ∑ j ∈ Finset.range (2 ^ d), v j + c := by
  -- every pass keeps the sum of the data gates
  obtain ⟨hsum, hcarries⟩ := levelValues_stack
    (I := fun k w => ∑ j ∈ Finset.range (2 ^ (d - k)), w j = ∑ j ∈ Finset.range (2 ^ d), v j ∧
      Carries (2 ^ (d - k)) c w)
    (f := sumLevel d) (n := d - 1) (v := v) ⟨rfl, hc⟩ fun k hk w ⟨hw, hcw⟩ => by
      have hpred : d - 1 - k = d - (k + 1) := by omega
      have hdouble : 2 ^ (d - k) = 2 * 2 ^ (d - (k + 1)) := by
        rw [← pow_succ']
        congr 1
        omega
      rw [hdouble, sum_range_two_mul, ← Finset.sum_add_distrib] at hw
      rw [sumLevel, hpred]
      refine ⟨(Finset.sum_congr rfl fun j hj => ?_).trans hw, hcw.apply ?_⟩
      · rw [apply_blocks_left (Finset.mem_range.mp hj) rfl]
        rfl
      · rw [hdouble]
        push_cast
        ring
  have htop : 2 ^ (d - (d - 1)) = 2 := by
    have hone : d - (d - 1) = 1 := by omega
    rw [hone, pow_one]
  rw [htop] at hsum hcarries
  rw [Finset.sum_range_succ, Finset.sum_range_one] at hsum
  have htwo : ∀ w : ℕ → R, twoLevel.apply w 0 = w 0 + w 1 ∧ twoLevel.apply w 1 = w 2 + w 3 :=
    fun w => ⟨apply_blocks_left (by decide) rfl, apply_blocks_left (by decide) rfl⟩
  have hone : ∀ w : ℕ → R, oneLevel.apply w 0 = w 0 + w 1 := fun w =>
    apply_blocks_left (by decide) rfl
  rw [sumLevels, levelValues_cons, levelValues_cons, hone, (htwo _).1, (htwo _).2, hsum,
    hcarries.result, hcarries.zero, add_zero]

end Sums

end Pepper.Cmtgkr.HamdistCircuit
