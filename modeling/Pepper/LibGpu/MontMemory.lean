import Pepper.LibGpu.MontWords
import Mathlib.Data.ZMod.Basic

/-!
# Montgomery form in memory

The exponentiations keep their operands in Montgomery form in a memory of words. `MontContext`
gathers what they pass to every multiplication. A number enters the form by a product with the
square of `2 ^ (W * S)` (`montmul_enter`), stays in it (`montmul_form`) and leaves it by a product
with one (`montmul_leave`). Each call writes the words of its result and no others.
-/

set_option autoImplicit false

namespace Pepper.LibGpu.MontMemory

open Pepper.Foundations.Loop
open Pepper.Foundations.CarrySave
open Pepper.LibGpu.MontWords

/-! ## Words that are moved -/

/-- `copy`. -/
def copy (S ret a : ℕ) (mem : ℕ → ℕ) : ℕ → ℕ :=
  forLoop S (fun i mem => Function.update mem (ret + i) (mem (a + i))) mem

/-- `make_one`. -/
def make_one (S w : ℕ) (mem : ℕ → ℕ) : ℕ → ℕ :=
  Function.update (forLoop S (fun i mem => Function.update mem (w + i) 0) mem) w 1

/-- The blocks of `S` words at `p` and of `T` words at `q` do not overlap. -/
def Apart (p S q T : ℕ) : Prop := p + S ≤ q ∨ q + T ≤ p

theorem Apart.symm {p S q T : ℕ} (h : Apart p S q T) : Apart q T p S := Or.symm h

theorem Apart.sub {p S q T off U : ℕ} (h : Apart p S q T) (hoff : off + U ≤ T) :
    Apart p S (q + off) U := by
  rcases h with h | h
  · exact Or.inl (by omega)
  · exact Or.inr (by omega)

theorem Apart.mono {p S q T U : ℕ} (h : Apart p S q T) (hle : U ≤ T) : Apart p S q U :=
  h.imp_right fun hq => (Nat.add_le_add_left hle q).trans hq

/-- The words outside the block of `S` words at `p` are the same. -/
def SameOutside (p S : ℕ) (mem mem' : ℕ → ℕ) : Prop :=
  ∀ k, ¬ (p ≤ k ∧ k < p + S) → mem' k = mem k

section Blocks

variable {W S T p q u : ℕ} {mem mem' mem'' : ℕ → ℕ}

theorem SameOutside.at_block (h : SameOutside p S mem mem') (hapart : Apart p S q T) {i : ℕ}
    (hi : i < T) : mem' (q + i) = mem (q + i) := by
  refine h _ fun hk => ?_
  rcases hapart with hle | hle <;> omega

/-- A number in a block with the same words. -/
theorem holdsNumber_of_words (h : HoldsNumber W S mem q u)
    (hsame : ∀ i < S, mem' (p + i) = mem (q + i)) : HoldsNumber W S mem' p u := by
  refine ⟨fun i hi => ?_, ?_⟩
  · rw [hsame i hi]
    exact h.1 i hi
  · rw [value_congr hsame]
    exact h.2

/-- A number in a block that is left alone. -/
theorem holdsNumber_frame (hq : HoldsNumber W T mem q u) (h : SameOutside p S mem mem')
    (hapart : Apart p S q T) : HoldsNumber W T mem' q u :=
  holdsNumber_of_words hq fun _ hi => h.at_block hapart hi

theorem holdsNumber_lt (h : HoldsNumber W S mem p u) : u < 2 ^ (W * S) := by
  rw [pow_mul, ← h.2]
  exact value_lt h.1

theorem copy_apply (hapart : Apart p S q S) (k : ℕ) :
    copy S p q mem k = if p ≤ k ∧ k < p + S then mem (q + (k - p)) else mem k := by
  have hloop := forLoop_induction
    (P := fun n (m : ℕ → ℕ) =>
      ∀ k, m k = if p ≤ k ∧ k < p + n then mem (q + (k - p)) else mem k)
    (n := S) (g := fun i m => Function.update m (p + i) (m (q + i))) (s := mem) ?_ ?_
  · exact hloop k
  · intro k
    rw [if_neg (by omega)]
  · intro i hi m hm k
    have hsource : m (q + i) = mem (q + i) := by
      rw [hm, if_neg]
      rcases hapart with hle | hle <;> omega
    by_cases hk : k = p + i
    · rw [hk, Function.update_self, hsource, if_pos (by omega), Nat.add_sub_cancel_left]
    · rw [Function.update_of_ne hk, hm]
      exact if_congr (by omega) rfl rfl

/-- A copied number. -/
theorem holdsNumber_copy (h : HoldsNumber W S mem q u) (hapart : Apart p S q S) :
    HoldsNumber W S (copy S p q mem) p u ∧ SameOutside p S mem (copy S p q mem) := by
  have hword : ∀ i < S, copy S p q mem (p + i) = mem (q + i) := by
    intro i hi
    rw [copy_apply hapart, if_pos (by omega), Nat.add_sub_cancel_left]
  refine ⟨holdsNumber_of_words h hword, fun k hk => ?_⟩
  rw [copy_apply hapart, if_neg hk]

/-- A copy leaves words. -/
theorem copy_lt (hmem : ∀ k, mem k < 2 ^ W) (hapart : Apart p S q S) (k : ℕ) :
    copy S p q mem k < 2 ^ W := by
  rw [copy_apply hapart]
  split <;> exact hmem _

theorem value_one (B n : ℕ) : value B (n + 1) (fun i => if i = 0 then 1 else 0) = 1 := by
  rw [value, Finset.sum_eq_single 0]
  · rw [if_pos rfl, pow_zero, one_mul]
  · intro i _ hi
    rw [if_neg hi, zero_mul]
  · exact fun h => absurd (Finset.mem_range.2 (Nat.succ_pos n)) h

/-- The number one. -/
theorem holdsNumber_make_one (hS : 1 ≤ S) (hW : 1 < 2 ^ W) :
    HoldsNumber W S (make_one S p mem) p 1 ∧ SameOutside p S mem (make_one S p mem) := by
  have happly : ∀ k, make_one S p mem k =
      if k = p then 1 else if p ≤ k ∧ k < p + S then 0 else mem k := by
    intro k
    rw [make_one, Function.update_apply, forLoop_block_apply S p (fun _ => 0) mem k]
  have hword : ∀ i < S, make_one S p mem (p + i) = if i = 0 then 1 else 0 := by
    intro i hi
    rw [happly]
    by_cases hzero : i = 0
    · rw [hzero, if_pos rfl, if_pos (Nat.add_zero p)]
    · rw [if_neg hzero, if_neg (by omega), if_pos (by omega)]
  refine ⟨⟨fun i hi => ?_, ?_⟩, fun k hk => ?_⟩
  · rw [hword i hi]
    split <;> omega
  · rw [value_congr hword]
    obtain ⟨n, rfl⟩ := Nat.exists_eq_succ_of_ne_zero (Nat.one_le_iff_ne_zero.1 hS)
    exact value_one _ n
  · rw [happly, if_neg (by omega), if_neg hk]

theorem make_one_lt (hS : 1 ≤ S) (hW : 1 < 2 ^ W) (hmem : ∀ k, mem k < 2 ^ W) (k : ℕ) :
    make_one S p mem k < 2 ^ W := by
  obtain ⟨hone, hsame⟩ := holdsNumber_make_one (p := p) hS hW
  by_cases hk : p ≤ k ∧ k < p + S
  · have hword := hone.1 (k - p) (Nat.sub_lt_left_of_lt_add hk.1 hk.2)
    rwa [Nat.add_sub_cancel' hk.1] at hword
  · rw [hsame k hk]
    exact hmem k

end Blocks

/-! ## The multiplications -/

/-- What every multiplication is passed, and what this has to satisfy: an odd modulus `N` in the
words of `n`, and the inverse in `np`. -/
structure MontContext (W : ℕ) (wrap : ℕ → ℕ) (fuel S junk : ℕ) (n np : ℕ → ℕ) (N : ℕ) : Prop where
  holds : Holds W wrap
  size : 1 ≤ S
  counters : 2 * S < 2 ^ W
  word : 2 < 2 ^ W
  junk : junk < 2 ^ W
  fuel : 2 * S ≤ fuel
  modulus : HoldsNumber W S n 0 N
  odd : N % 2 = 1
  inverse : 2 ^ W ∣ np 0 * N + 1

/-- The residue `y` in Montgomery form. -/
def HoldsForm (W S N : ℕ) (mem : ℕ → ℕ) (p : ℕ) (y : ZMod N) : Prop :=
  ∃ u < N, (u : ZMod N) = y * (2 ^ (W * S) : ℕ) ∧ HoldsNumber W S mem p u

section Multiplications

variable {W : ℕ} {wrap : ℕ → ℕ} {fuel S junk : ℕ} {n np : ℕ → ℕ} {N : ℕ} {mem mem' : ℕ → ℕ}
  {a b p q : ℕ}

theorem HoldsForm.frame {y : ZMod N} (h : HoldsForm W S N mem q y)
    (hsame : SameOutside p S mem mem') (hapart : Apart p S q S) : HoldsForm W S N mem' q y := by
  obtain ⟨u, hu, hform, hnumber⟩ := h
  exact ⟨u, hu, hform, holdsNumber_frame hnumber hsame hapart⟩

theorem HoldsForm.copy {y : ZMod N} (h : HoldsForm W S N mem q y) (hapart : Apart p S q S) :
    HoldsForm W S N (copy S p q mem) p y ∧ SameOutside p S mem (copy S p q mem) := by
  obtain ⟨u, hu, hform, hnumber⟩ := h
  obtain ⟨hcopied, hsame⟩ := holdsNumber_copy hnumber hapart
  exact ⟨⟨u, hu, hform, hcopied⟩, hsame⟩

theorem MontContext.lt (h : MontContext W wrap fuel S junk n np N) : N < 2 ^ (W * S) :=
  holdsNumber_lt h.modulus

theorem MontContext.isUnit (h : MontContext W wrap fuel S junk n np N) :
    IsUnit ((2 : ZMod N) ^ (W * S)) := by
  have htwo : IsUnit ((2 : ℕ) : ZMod N) :=
    (ZMod.isUnit_iff_coprime 2 N).2 (Nat.coprime_two_left.2 (Nat.odd_iff.2 h.odd))
  exact IsUnit.pow _ (by exact_mod_cast htwo)

/-- A multiplication on numbers. -/
theorem montmul_number (h : MontContext W wrap fuel S junk n np N) (hmem : ∀ k, mem k < 2 ^ W)
    {A B : ℕ} (ha : HoldsNumber W S mem a A) (hb : HoldsNumber W S mem b B)
    (hproduct : A * B < N * 2 ^ (W * S)) (ret : ℕ) :
    ∃ mem', mp_montmul_cpu W wrap fuel S junk mem ret a b n np = some mem' ∧
      (∀ k, mem' k < 2 ^ W) ∧ SameOutside ret S mem mem' ∧
      ∃ u < N, (u : ZMod N) * 2 ^ (W * S) = A * B ∧ HoldsNumber W S mem' ret u := by
  obtain ⟨hNwords, hNvalue⟩ := h.modulus
  simp only [Nat.zero_add] at hNwords hNvalue
  have hlt := h.lt
  rw [pow_mul] at hproduct hlt
  obtain ⟨u, hu, hueq, -⟩ := exists_mont_residue (W := W) (S := S) (P := A * B) h.odd
  have hinput : MontInput W S n (np 0) (A * B) :=
    ⟨h.size, h.counters, h.word, hNwords, by rw [hNvalue]; exact h.odd,
      by rw [hNvalue]; exact h.inverse, by rwa [hNvalue]⟩
  have hrun : mp_montmul_cpu W wrap fuel S junk mem ret a b n np =
      some (writeWords S ret (wordsOf W u) mem) := by
    rw [← ha.2, ← hb.2] at hinput hueq
    rw [← hNvalue] at hu hueq
    exact mp_montmul_spec hmem hinput hu hueq h.holds h.junk h.fuel ret
  refine ⟨_, hrun, fun k => ?_, fun k hk => ?_, u, hu, ?_,
    holdsNumber_writeWords (hu.trans hlt) ret⟩
  · rw [writeWords_apply]
    split
    · exact Nat.mod_lt _ (Nat.two_pow_pos W)
    · exact hmem k
  · rw [writeWords_apply, if_neg hk]
  · have hcast := (ZMod.natCast_eq_natCast_iff _ _ _).2 hueq
    push_cast at hcast
    rwa [← pow_mul] at hcast

/-- A number enters the form. -/
theorem montmul_enter (h : MontContext W wrap fuel S junk n np N) (hmem : ∀ k, mem k < 2 ^ W)
    {A B : ℕ} (ha : HoldsNumber W S mem a A) (hb : HoldsNumber W S mem b B) (hB : B < N)
    (hsquare : (B : ZMod N) = 2 ^ (W * S) * 2 ^ (W * S)) (ret : ℕ) :
    ∃ mem', mp_montmul_cpu W wrap fuel S junk mem ret a b n np = some mem' ∧
      (∀ k, mem' k < 2 ^ W) ∧ SameOutside ret S mem mem' ∧
      HoldsForm W S N mem' ret (A : ZMod N) := by
  have hproduct : A * B < N * 2 ^ (W * S) := by
    rw [Nat.mul_comm N]
    exact Nat.mul_lt_mul'' (holdsNumber_lt ha) hB
  obtain ⟨mem', hrun, hwords, hsame, u, hu, hueq, hnumber⟩ :=
    montmul_number h hmem ha hb hproduct ret
  refine ⟨mem', hrun, hwords, hsame, u, hu, ?_, hnumber⟩
  refine h.isUnit.mul_right_cancel ?_
  rw [hueq, hsquare, Nat.cast_pow, Nat.cast_ofNat, mul_assoc]

/-- Products stay in the form. -/
theorem montmul_form (h : MontContext W wrap fuel S junk n np N) (hmem : ∀ k, mem k < 2 ^ W)
    {x y : ZMod N} (ha : HoldsForm W S N mem a x) (hb : HoldsForm W S N mem b y) (ret : ℕ) :
    ∃ mem', mp_montmul_cpu W wrap fuel S junk mem ret a b n np = some mem' ∧
      (∀ k, mem' k < 2 ^ W) ∧ SameOutside ret S mem mem' ∧
      HoldsForm W S N mem' ret (x * y) := by
  obtain ⟨A, hA, hAform, haA⟩ := ha
  obtain ⟨B, hB, hBform, hbB⟩ := hb
  have hproduct : A * B < N * 2 ^ (W * S) := Nat.mul_lt_mul'' hA (hB.trans h.lt)
  obtain ⟨mem', hrun, hwords, hsame, u, hu, hueq, hnumber⟩ :=
    montmul_number h hmem haA hbB hproduct ret
  refine ⟨mem', hrun, hwords, hsame, u, hu, ?_, hnumber⟩
  refine h.isUnit.mul_right_cancel ?_
  rw [hueq, hAform, hBform, Nat.cast_pow, Nat.cast_ofNat]
  ring

/-- A number leaves the form. -/
theorem montmul_leave (h : MontContext W wrap fuel S junk n np N) (hmem : ∀ k, mem k < 2 ^ W)
    {x : ZMod N} (ha : HoldsForm W S N mem a x) (hb : HoldsNumber W S mem b 1) (ret : ℕ) :
    ∃ mem', mp_montmul_cpu W wrap fuel S junk mem ret a b n np = some mem' ∧
      (∀ k, mem' k < 2 ^ W) ∧ SameOutside ret S mem mem' ∧
      ∃ u < N, (u : ZMod N) = x ∧ HoldsNumber W S mem' ret u := by
  obtain ⟨A, hA, hAform, haA⟩ := ha
  have hproduct : A * 1 < N * 2 ^ (W * S) :=
    Nat.mul_lt_mul_of_lt_of_le hA Nat.one_le_two_pow (Nat.two_pow_pos _)
  obtain ⟨mem', hrun, hwords, hsame, u, hu, hueq, hnumber⟩ :=
    montmul_number h hmem haA hb hproduct ret
  refine ⟨mem', hrun, hwords, hsame, u, hu, ?_, hnumber⟩
  refine h.isUnit.mul_right_cancel ?_
  rw [hueq, hAform, Nat.cast_pow, Nat.cast_ofNat, Nat.cast_one, mul_one]

end Multiplications

end Pepper.LibGpu.MontMemory
