import Pepper.Libv.Commitment
import Mathlib.NumberTheory.LegendreSymbol.Basic

/-!
# Generation of the root of unity

`generate_root_of_unity` draws from a stream with a fixed seed until a draw is neither zero nor a
square modulo the prime, and takes the root as a power of that draw. `generateRootOfUnity_correct`
states that for a power of two that divides `p - 1` the loop ends at the first such draw, that the
result is a primitive root, and that the table holds every root once. A draw fixed by the seed
gives both parties the same root.
-/

set_option autoImplicit false

open Pepper.Common.Gmp Pepper.Foundations.Loop
open Pepper.Libv.Commitment Pepper.Libv.Roots

namespace Pepper.Libv.RootOfUnity

/-! ## The code -/

/-- The loop of `generate_root_of_unity` from draw `k` on, with at most `fuel` passes; `draws` are
the numbers of `mpz_urandomb`. -/
def findNonresidue (prime : ℤ) (draws : ℕ → ℤ) : ℕ → ℕ → Option ℤ
  | 0, _ => none
  | fuel + 1, k =>
      let x := draws k % prime
      if x = 0 then findNonresidue prime draws fuel (k + 1)
      else if powm x ((prime - 1) / 2) prime ≠ 1 then some x
      else findNonresidue prime draws fuel (k + 1)

/-- `generate_root_of_unity`: the root and the table of its powers; nothing when the program
exits or the passes are used up. -/
def generateRootOfUnity (draws : ℕ → ℤ) (fuel n : ℕ) (prime : ℤ) : Option (ℤ × Vec) :=
  (findNonresidue prime draws fuel 0).bind fun x =>
    let omega := powm x ((prime - 1) / n) prime
    if powm omega n prime ≠ 1 then none
    else some (omega, powersOfOmega n omega prime)

/-! ## The loop -/

section Loop

variable {prime : ℤ} {draws : ℕ → ℤ}

/-- The loop goes on after draw `k`. -/
def Skipped (prime : ℤ) (draws : ℕ → ℤ) (k : ℕ) : Prop :=
  draws k % prime = 0 ∨ powm (draws k % prime) ((prime - 1) / 2) prime = 1

theorem findNonresidue_skip {k : ℕ} (h : Skipped prime draws k) (fuel : ℕ) :
    findNonresidue prime draws (fuel + 1) k = findNonresidue prime draws fuel (k + 1) := by
  rw [findNonresidue]
  by_cases hzero : draws k % prime = 0
  · exact if_pos hzero
  · have hone : powm (draws k % prime) ((prime - 1) / 2) prime = 1 := h.resolve_left hzero
    rw [if_neg hzero, if_neg (not_not.2 hone)]

theorem findNonresidue_stop {k : ℕ} (h : ¬ Skipped prime draws k) (fuel : ℕ) :
    findNonresidue prime draws (fuel + 1) k = some (draws k % prime) := by
  rw [Skipped, not_or] at h
  rw [findNonresidue, if_neg h.1, if_pos h.2]

/-- The loop ends at the first draw it does not skip, if the passes reach it. -/
theorem findNonresidue_eq {count : ℕ} {k : ℕ} (hskip : ∀ j < count, Skipped prime draws (k + j))
    (hstop : ¬ Skipped prime draws (k + count)) (fuel : ℕ) :
    findNonresidue prime draws fuel k =
      if count < fuel then some (draws (k + count) % prime) else none := by
  induction fuel generalizing k count with
  | zero => rw [if_neg (Nat.not_lt_zero count), findNonresidue]
  | succ fuel ih =>
      cases count with
      | zero =>
          rw [Nat.add_zero] at hstop
          rw [findNonresidue_stop hstop, if_pos (Nat.succ_pos fuel), Nat.add_zero]
      | succ count =>
          have hnext : ∀ j, k + 1 + j = k + (j + 1) := fun j => by omega
          have hrest := ih (k := k + 1)
            (fun j hj => hnext j ▸ hskip (j + 1) (Nat.succ_lt_succ hj)) (hnext count ▸ hstop)
          rw [findNonresidue_skip (k := k) (hskip 0 (Nat.succ_pos count)), hrest, hnext]
          simp only [Nat.succ_lt_succ_iff]

end Loop

/-! ## The root -/

section Root

variable {p : ℕ} [Fact p.Prime] {draws : ℕ → ℤ}

theorem powm_range (base exp : ℤ) : 0 ≤ powm base exp p ∧ powm base exp p < p := emod_range _

theorem powm_eq_one_iff (base exp : ℤ) :
    powm base exp p = 1 ↔ (base : ZMod p) ^ exp.toNat = 1 := by
  have hone : (0 : ℤ) ≤ 1 ∧ (1 : ℤ) < p :=
    ⟨zero_le_one, by exact_mod_cast (Fact.out : p.Prime).one_lt⟩
  rw [eq_iff_cast_eq (powm_range base exp) hone, cast_powm, Int.cast_one]

theorem toNat_pred_div (n : ℕ) : (((p : ℤ) - 1) / n).toNat = (p - 1) / n := by
  have hp := (Fact.out : p.Prime).one_le
  have hcast : ((p : ℤ) - 1) / n = ((p - 1) / n : ℕ) := by
    rw [Int.natCast_div, Int.natCast_sub hp, Int.natCast_one]
  rw [hcast, Int.toNat_natCast]

/-- The draws that are skipped are zero and the squares. -/
theorem skipped_iff (hp : p ≠ 2) (k : ℕ) :
    Skipped p draws k ↔ IsSquare (draws k : ZMod p) := by
  have hzero : draws k % (p : ℤ) = 0 ↔ (draws k : ZMod p) = 0 := by
    rw [ZMod.intCast_zmod_eq_zero_iff_dvd, Int.dvd_iff_emod_eq_zero]
  have hhalf : (((p : ℤ) - 1) / 2).toNat = p / 2 := by
    have hodd := (Fact.out : p.Prime).odd_of_ne_two hp
    have htwo := toNat_pred_div (p := p) 2
    rw [Nat.cast_ofNat] at htwo
    obtain ⟨r, rfl⟩ := hodd
    omega
  rw [Skipped, powm_eq_one_iff, ZMod.intCast_mod, hhalf, hzero]
  by_cases hx : (draws k : ZMod p) = 0
  · rw [hx]
    simp
  · rw [or_iff_right hx, ZMod.euler_criterion p hx]

/-- The half power of a nonsquare is not one, so its root has full order. -/
theorem isPrimitiveRoot_powm {m : ℕ} (hm : 1 ≤ m) (hdvd : 2 ^ m ∣ p - 1) {x : ℤ}
    (hx : ¬ IsSquare (x : ZMod p)) :
    IsPrimitiveRoot ((powm x (((p : ℤ) - 1) / (2 ^ m : ℕ)) p : ℤ) : ZMod p) (2 ^ m) := by
  obtain ⟨m, rfl⟩ := Nat.exists_eq_add_of_le' hm
  have hx0 : (x : ZMod p) ≠ 0 := fun h => hx (h ▸ IsSquare.zero)
  have hwhole : (p - 1) / 2 ^ (m + 1) * 2 ^ (m + 1) = p - 1 := Nat.div_mul_cancel hdvd
  have hhalf : (p - 1) / 2 ^ (m + 1) * 2 ^ m = p / 2 := by
    have hp := (Fact.out : p.Prime).one_le
    have htwice : (p - 1) / 2 ^ (m + 1) * 2 ^ m * 2 = p - 1 := by
      rw [mul_assoc, ← pow_succ, hwhole]
    omega
  rw [cast_powm, toNat_pred_div]
  have horder : orderOf ((x : ZMod p) ^ ((p - 1) / 2 ^ (m + 1))) = 2 ^ (m + 1) := by
    refine orderOf_eq_prime_pow ?_ ?_
    · rw [← pow_mul, hhalf, ← ZMod.euler_criterion p hx0]
      exact hx
    · rw [← pow_mul, hwhole, ZMod.pow_card_sub_one_eq_one hx0]
  conv_rhs => rw [← horder]
  exact IsPrimitiveRoot.orderOf _

/-- What ends the loop is not a square. -/
theorem not_isSquare_of_findNonresidue (hp : p ≠ 2) {fuel k : ℕ} {x : ℤ}
    (h : findNonresidue p draws fuel k = some x) : ¬ IsSquare (x : ZMod p) := by
  induction fuel generalizing k with
  | zero => cases h
  | succ fuel ih =>
      by_cases hskip : Skipped p draws k
      · rw [findNonresidue_skip hskip] at h
        exact ih h
      · rw [findNonresidue_stop hskip, Option.some_inj] at h
        rw [← h, ZMod.intCast_mod, ← skipped_iff hp]
        exact hskip

theorem ne_two_of_dvd {m : ℕ} (hm : 1 ≤ m) (hdvd : 2 ^ m ∣ p - 1) : p ≠ 2 := by
  rintro rfl
  have hle := Nat.le_of_dvd one_pos hdvd
  have hpow := Nat.pow_le_pow_right (n := 2) two_pos hm
  omega

theorem isPrimitiveRoot_of_generate {m : ℕ} (hm : 1 ≤ m) (hdvd : 2 ^ m ∣ p - 1) {fuel : ℕ}
    {omega : ℤ} {powers : Vec}
    (h : generateRootOfUnity draws fuel (2 ^ m) p = some (omega, powers)) :
    IsPrimitiveRoot (omega : ZMod p) (2 ^ m) := by
  rw [generateRootOfUnity] at h
  obtain ⟨x, hx, hroot⟩ := Option.bind_eq_some_iff.1 h
  dsimp only at hroot
  split at hroot
  · cases hroot
  · rw [Option.some_inj, Prod.mk.injEq] at hroot
    rw [← hroot.1]
    exact isPrimitiveRoot_powm hm hdvd
      (not_isSquare_of_findNonresidue (ne_two_of_dvd hm hdvd) hx)

/-- The table of a primitive root lists every root of unity once. -/
theorem pow_eq_one_iff_in_table {n : ℕ} (hn : 0 < n) {omega : ℤ}
    (hω : IsPrimitiveRoot (omega : ZMod p) n) (z : ZMod p) :
    z ^ n = 1 ↔ ∃! i, i < n ∧ (powersOfOmega n omega p i : ZMod p) = z := by
  have : NeZero n := ⟨hn.ne'⟩
  constructor
  · intro hz
    obtain ⟨i, hi, rfl⟩ := hω.eq_pow_of_pow_eq_one hz
    refine ⟨i, ⟨hi, cast_powersOfOmega n omega hi⟩, ?_⟩
    rintro j ⟨hj, heq⟩
    rw [cast_powersOfOmega n omega hj] at heq
    exact hω.pow_inj hj hi heq
  · rintro ⟨i, ⟨hi, rfl⟩, -⟩
    rw [cast_powersOfOmega n omega hi, ← pow_mul, mul_comm, pow_mul, hω.pow_eq_one, one_pow]

/-- For a power of two that divides `p - 1` and a stream in which a nonsquare comes up, the loop
ends at the first nonsquare whatever came before; the result is a primitive root of unity and its
table lists every root of unity once. -/
theorem generateRootOfUnity_correct {m : ℕ} (hm : 1 ≤ m) (hdvd : 2 ^ m ∣ p - 1)
    (hdraw : ∃ k, ¬ IsSquare (draws k : ZMod p)) :
    ∃ k omega, (∀ j < k, IsSquare (draws j : ZMod p)) ∧ ¬ IsSquare (draws k : ZMod p) ∧
      (∀ fuel, generateRootOfUnity draws fuel (2 ^ m) p =
        if k < fuel then some (omega, powersOfOmega (2 ^ m) omega p) else none) ∧
      IsPrimitiveRoot (omega : ZMod p) (2 ^ m) ∧
      ∀ z : ZMod p, z ^ 2 ^ m = 1 ↔
        ∃! i, i < 2 ^ m ∧ (powersOfOmega (2 ^ m) omega p i : ZMod p) = z := by
  classical
  have hp := ne_two_of_dvd hm hdvd
  have hfirst : ∀ j < Nat.find hdraw, IsSquare (draws j : ZMod p) :=
    fun j hj => not_not.1 (Nat.find_min hdraw hj)
  have hnonsquare : ¬ IsSquare ((draws (Nat.find hdraw) % (p : ℤ) : ℤ) : ZMod p) := by
    rw [ZMod.intCast_mod]
    exact Nat.find_spec hdraw
  have hroot := isPrimitiveRoot_powm hm hdvd hnonsquare
  have hloop : ∀ fuel, findNonresidue p draws fuel 0 =
      if Nat.find hdraw < fuel then some (draws (Nat.find hdraw) % (p : ℤ)) else none := by
    intro fuel
    have hskip : ∀ j < Nat.find hdraw, Skipped p draws (0 + j) := by
      intro j hj
      rw [Nat.zero_add, skipped_iff hp]
      exact hfirst j hj
    have hstop : ¬ Skipped p draws (0 + Nat.find hdraw) := by
      rw [Nat.zero_add, skipped_iff hp]
      exact Nat.find_spec hdraw
    have heq := findNonresidue_eq hskip hstop fuel
    rwa [Nat.zero_add] at heq
  refine ⟨Nat.find hdraw, powm (draws (Nat.find hdraw) % (p : ℤ)) (((p : ℤ) - 1) / (2 ^ m : ℕ)) p,
    hfirst, Nat.find_spec hdraw, fun fuel => ?_, hroot, fun z => ?_⟩
  · rw [generateRootOfUnity, hloop]
    by_cases hfuel : Nat.find hdraw < fuel
    · have hone : powm (powm (draws (Nat.find hdraw) % (p : ℤ)) (((p : ℤ) - 1) / (2 ^ m : ℕ)) p)
          (2 ^ m : ℕ) p = 1 := by
        rw [powm_eq_one_iff, Int.toNat_natCast]
        exact hroot.pow_eq_one
      rw [if_pos hfuel, if_pos hfuel, Option.bind_some]
      dsimp only
      rw [if_neg (not_not.2 hone)]
    · rw [if_neg hfuel, if_neg hfuel, Option.bind_none]
  · exact pow_eq_one_iff_in_table (Nat.two_pow_pos m) hroot z

end Root

/-- The fourth roots of unity modulo thirteen: the draws `0` and `1` are skipped, `2` is taken. -/
theorem generateRootOfUnity_thirteen :
    ∃ (k : ℕ) (omega : ℤ), (∀ j < k, IsSquare (((j : ℕ) : ℤ) : ZMod 13)) ∧
      ¬ IsSquare (((k : ℕ) : ℤ) : ZMod 13) ∧
      (∀ fuel, generateRootOfUnity (fun j => j) fuel (2 ^ 2) (13 : ℕ) =
        if k < fuel then some (omega, powersOfOmega (2 ^ 2) omega (13 : ℕ)) else none) ∧
      IsPrimitiveRoot (omega : ZMod 13) (2 ^ 2) ∧
      ∀ z : ZMod 13, z ^ 2 ^ 2 = 1 ↔
        ∃! i, i < 2 ^ 2 ∧ (powersOfOmega (2 ^ 2) omega (13 : ℕ) i : ZMod 13) = z := by
  have hdraw : ∃ k : ℕ, ¬ IsSquare (((k : ℕ) : ℤ) : ZMod 13) := ⟨2, by decide⟩
  have : Fact (Nat.Prime 13) := ⟨by norm_num⟩
  exact generateRootOfUnity_correct (m := 2) (by decide) (by decide) hdraw

end Pepper.Libv.RootOfUnity
