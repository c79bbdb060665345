import Pepper.Common.Gmp
import Mathlib.Data.List.DropRight
import Mathlib.Data.Nat.Digits.Defs

/-!
# Sliding-window exponentiation

`mpGetSw` cuts the low bits of an exponent into fragments, odd ones and runs of zeros,
and `mpModexpMont` raises a base to the fragments, top one first, from a table of its odd
powers. `cast_mpModexpMont`: the result is the power to the exponent as far as the bits
that were cut reach.

The multiplication underneath is Montgomery's. A base enters the form once and the result
leaves it once, so a product is written here as a reduced product of residues.
-/

set_option autoImplicit false

open Pepper.Foundations.Loop

namespace Pepper.LibGpu.Modexp

/-! ## The code -/

/-- One entry of an `mp_sw`: a fragment of the exponent and the bits it spans. -/
structure Frag where
  fragment : ℕ
  length : ℕ
deriving DecidableEq, Repr

/-- The width `d` that `mp_get_clnw` takes for an exponent of the given length. -/
def fragmentWidth (numBits : ℕ) : ℕ :=
  if numBits < 256 then 4 else if numBits < 768 then 5 else if numBits < 1792 then 6 else 7

/-- `get_bit` over the low `numBits` bits, low end first. -/
def getBits (numBits e : ℕ) : List ℕ := (List.range numBits).map fun i => e / 2 ^ i % 2

/-- The fragment that the inner loop of `mp_get_clnw` reads at the next bit. -/
def nextFragment (d : ℕ) (bits : List ℕ) : Frag :=
  ⟨Nat.ofDigits 2 (bits.take d), (bits.take d).length⟩

/-- The loop of `mp_get_clnw`. Each pass reads a bit at least, so the number of bits is
fuel enough. -/
def clnwLoop (d : ℕ) : ℕ → List ℕ → List Frag
  | 0, _ => []
  | _ + 1, [] => []
  | fuel + 1, b :: bits =>
      if b = 0 then
        -- a run of zeros; the fragment after it is empty where the bits end with the run
        let zeros := (b :: bits).takeWhile (· = 0)
        let rest := (b :: bits).dropWhile (· = 0)
        ⟨0, zeros.length⟩ :: nextFragment d rest :: clnwLoop d fuel (rest.drop d)
      else nextFragment d (b :: bits) :: clnwLoop d fuel ((b :: bits).drop d)

/-- `mp_get_sw`: the fragments, without the zeros at the top. -/
def mpGetSw (numBits e : ℕ) : List Frag :=
  (clnwLoop (fragmentWidth numBits) numBits (getBits numBits e)).rdropWhile (·.fragment = 0)

/-- `ar_pow`: the odd powers of a base. -/
def arPow (p ar : ℤ) : ℕ → ℤ
  | 0 => ar
  | k + 1 => arPow p ar k * (ar * ar % p) % p

/-- One pass of `mp_modexp_cpu`: squarings over the bits of a fragment, then its power. -/
def fragmentStep (p ar : ℤ) (f : Frag) (ret : ℤ) : ℤ :=
  let squared := forLoop f.length (fun _ r => r * r % p) ret
  if f.fragment = 0 then squared else squared * arPow p ar (f.fragment / 2) % p

/-- `mp_modexp_cpu`: from the top fragment down. -/
def mpModexp (p ar : ℤ) : List Frag → ℤ
  | [] => 1
  | [top] => arPow p ar (top.fragment / 2)
  | f :: g :: fs => fragmentStep p ar f (mpModexp p ar (g :: fs))

/-- `mp_modexp_mont_cpu`. -/
def mpModexpMont (p a : ℤ) (sw : List Frag) : ℤ :=
  if sw = [] then 1 else mpModexp p (a % p) sw % p

/-! ## The fragments of an exponent -/

/-- The number that a list of fragments spells. -/
def swValue : List Frag → ℕ
  | [] => 0
  | f :: fs => f.fragment + 2 ^ f.length * swValue fs

@[simp] theorem swValue_nil : swValue [] = 0 := rfl

@[simp] theorem swValue_cons (f : Frag) (fs : List Frag) :
    swValue (f :: fs) = f.fragment + 2 ^ f.length * swValue fs := rfl

theorem ofDigits_getBits (numBits e : ℕ) :
    Nat.ofDigits 2 (getBits numBits e) = e % 2 ^ numBits := by
  induction numBits with
  | zero => simp [getBits, Nat.mod_one]
  | succ n ih =>
      rw [getBits] at ih
      rw [getBits, List.range_succ, List.map_append, List.map_singleton, Nat.ofDigits_append, ih,
        Nat.ofDigits_singleton, List.length_map, List.length_range, Nat.mod_pow_succ]

/-- A fragment and the bits above it. -/
theorem nextFragment_value (d : ℕ) (bits : List ℕ) :
    (nextFragment d bits).fragment + 2 ^ (nextFragment d bits).length *
      Nat.ofDigits 2 (bits.drop d) = Nat.ofDigits 2 bits := by
  have happ : Nat.ofDigits 2 (bits.take d ++ bits.drop d) = _ := Nat.ofDigits_append
  rw [List.take_append_drop] at happ
  exact happ.symm

theorem ofDigits_zeros {zeros : List ℕ} (h : ∀ b ∈ zeros, b = 0) :
    Nat.ofDigits 2 zeros = 0 := by
  induction zeros with
  | nil => rfl
  | cons b zeros ih =>
      rw [Nat.ofDigits_cons, h b List.mem_cons_self,
        ih fun c hc => h c (List.mem_cons_of_mem b hc)]

/-- A run of zeros and the bits above it. -/
theorem ofDigits_run (bits : List ℕ) :
    2 ^ (bits.takeWhile (· = 0)).length * Nat.ofDigits 2 (bits.dropWhile (· = 0)) =
      Nat.ofDigits 2 bits := by
  have happ : Nat.ofDigits 2 (bits.takeWhile (· = 0) ++ bits.dropWhile (· = 0)) = _ :=
    Nat.ofDigits_append
  rw [List.takeWhile_append_dropWhile] at happ
  have hzeros : Nat.ofDigits 2 (bits.takeWhile (· = 0)) = 0 := by
    apply ofDigits_zeros
    intro b hb
    simpa using List.mem_takeWhile_imp hb
  rw [happ, hzeros, zero_add]

theorem length_drop_le {d fuel : ℕ} (hd : 0 < d) {bits : List ℕ} (h : bits.length ≤ fuel + 1) :
    (bits.drop d).length ≤ fuel := by
  rw [List.length_drop]
  omega

/-- No bit is lost between the fragments. -/
theorem swValue_clnwLoop {d : ℕ} (hd : 0 < d) (fuel : ℕ) (bits : List ℕ)
    (h : bits.length ≤ fuel) : swValue (clnwLoop d fuel bits) = Nat.ofDigits 2 bits := by
  induction fuel generalizing bits with
  | zero =>
      cases bits with
      | nil => rfl
      | cons b bits => exact absurd h (Nat.not_succ_le_zero _)
  | succ fuel ih =>
      cases bits with
      | nil => rfl
      | cons b bits =>
          rw [clnwLoop]
          split
          · have hrest : ((b :: bits).dropWhile (· = 0)).length ≤ fuel + 1 :=
              (List.length_dropWhile_le _ _).trans h
            rw [swValue_cons, swValue_cons, ih _ (length_drop_le hd hrest), nextFragment_value,
              zero_add, ofDigits_run]
          · rw [swValue_cons, ih _ (length_drop_le hd h), nextFragment_value]

theorem swValue_concat {f : Frag} (hf : f.fragment = 0) (fs : List Frag) :
    swValue (fs ++ [f]) = swValue fs := by
  induction fs with
  | nil => simp [hf]
  | cons g fs ih => rw [List.cons_append, swValue_cons, swValue_cons, ih]

theorem swValue_rdropWhile (fs : List Frag) :
    swValue (fs.rdropWhile (·.fragment = 0)) = swValue fs := by
  induction fs using List.reverseRecOn with
  | nil => rfl
  | append_singleton fs f ih =>
      rw [List.rdropWhile_concat]
      split
      · rename_i hf
        rw [ih, swValue_concat (by simpa using hf)]
      · rfl

theorem fragmentWidth_pos (numBits : ℕ) : 0 < fragmentWidth numBits := by
  rw [fragmentWidth]
  split_ifs <;> decide

theorem swValue_mpGetSw (numBits e : ℕ) : swValue (mpGetSw numBits e) = e % 2 ^ numBits := by
  rw [mpGetSw, swValue_rdropWhile, swValue_clnwLoop (fragmentWidth_pos numBits),
    ofDigits_getBits]
  simp [getBits]

/-! ## Odd fragments -/

/-- A fragment stands at a bit that is set, or is empty. -/
theorem nextFragment_odd {d : ℕ} (hd : 0 < d) {bits : List ℕ} (hbits : ∀ b ∈ bits, b < 2)
    (hhead : ∀ b ∈ bits.head?, b ≠ 0) :
    (nextFragment d bits).fragment = 0 ∨ (nextFragment d bits).fragment % 2 = 1 := by
  cases bits with
  | nil =>
      left
      simp [nextFragment]
  | cons b bits =>
      right
      have hb : b < 2 := hbits b List.mem_cons_self
      have hne : b ≠ 0 := hhead b rfl
      obtain ⟨d, rfl⟩ := Nat.exists_eq_succ_of_ne_zero hd.ne'
      have hfrag : (nextFragment (d + 1) (b :: bits)).fragment =
          b + 2 * Nat.ofDigits 2 (bits.take d) := by
        rw [nextFragment, List.take_succ_cons, Nat.ofDigits_cons]
      rw [hfrag]
      omega

theorem clnwLoop_odd {d : ℕ} (hd : 0 < d) (fuel : ℕ) (bits : List ℕ)
    (hbits : ∀ b ∈ bits, b < 2) :
    ∀ f ∈ clnwLoop d fuel bits, f.fragment = 0 ∨ f.fragment % 2 = 1 := by
  induction fuel generalizing bits with
  | zero =>
      intro f hf
      simp [clnwLoop] at hf
  | succ fuel ih =>
      cases bits with
      | nil =>
          intro f hf
          simp [clnwLoop] at hf
      | cons b bits =>
          rw [clnwLoop]
          split
          · -- after the run the head is a bit that is set
            have hrest : ∀ c ∈ (b :: bits).dropWhile (· = 0), c < 2 := fun c hc =>
              hbits c (List.dropWhile_subset _ hc)
            have hhead : ∀ c ∈ ((b :: bits).dropWhile (· = 0)).head?, c ≠ 0 := by
              intro c hc
              have hnot := List.head?_dropWhile_not (fun n => decide (n = 0)) (b :: bits)
              rw [Option.mem_def.1 hc] at hnot
              simpa using hnot
            intro f hf
            rcases List.mem_cons.1 hf with rfl | hf
            · exact .inl rfl
            rcases List.mem_cons.1 hf with rfl | hf
            · exact nextFragment_odd hd hrest hhead
            · exact ih _ (fun c hc => hrest c (List.mem_of_mem_drop hc)) f hf
          · rename_i hb
            have hhead : ∀ c ∈ (b :: bits).head?, c ≠ 0 := by
              rintro c ⟨⟩
              exact hb
            intro f hf
            rcases List.mem_cons.1 hf with rfl | hf
            · exact nextFragment_odd hd hbits hhead
            · exact ih _ (fun c hc => hbits c (List.mem_of_mem_drop hc)) f hf

/-- What the exponentiation needs of its fragments: odd or zero, with an odd one at the
top. -/
def WellCut (sw : List Frag) : Prop :=
  (∀ f ∈ sw, f.fragment = 0 ∨ f.fragment % 2 = 1) ∧ ∀ f ∈ sw.getLast?, f.fragment ≠ 0

theorem mpGetSw_wellCut (numBits e : ℕ) : WellCut (mpGetSw numBits e) := by
  constructor
  · intro f hf
    refine clnwLoop_odd (fragmentWidth_pos numBits) numBits (getBits numBits e) ?_ f
      ((List.rdropWhile_prefix _ _).subset hf)
    intro b hb
    obtain ⟨i, _, rfl⟩ := List.mem_map.1 hb
    exact Nat.mod_lt _ two_pos
  · intro f hf
    have hne : mpGetSw numBits e ≠ [] := by
      intro h
      rw [h] at hf
      exact Option.not_mem_none f hf
    have hlast := List.rdropWhile_last_not _ _ hne
    rw [Option.mem_def, List.getLast?_eq_getLast_of_ne_nil hne, Option.some.injEq] at hf
    rw [← hf]
    intro hzero
    exact hlast (decide_eq_true hzero)

theorem WellCut.tail {f g : Frag} {fs : List Frag} (h : WellCut (f :: g :: fs)) :
    WellCut (g :: fs) := by
  constructor
  · exact fun x hx => h.1 x (List.mem_cons_of_mem f hx)
  · intro x hx
    exact h.2 x (by rwa [List.getLast?_cons_cons])

/-! ## The power -/

section Power

variable {p : ℕ}

theorem cast_arPow (ar : ℤ) (k : ℕ) :
    ((arPow p ar k : ℤ) : ZMod p) = (ar : ZMod p) ^ (2 * k + 1) := by
  induction k with
  | zero => simp [arPow]
  | succ k ih =>
      rw [arPow, ZMod.intCast_mod, Int.cast_mul, ih, ZMod.intCast_mod, Int.cast_mul]
      ring

theorem cast_squarings (n : ℕ) (r : ℤ) :
    ((forLoop n (fun _ r => r * r % (p : ℤ)) r : ℤ) : ZMod p) = (r : ZMod p) ^ 2 ^ n := by
  induction n with
  | zero => simp
  | succ n ih =>
      rw [forLoop_succ, ZMod.intCast_mod, Int.cast_mul, ih]
      ring

theorem cast_fragmentStep (ar ret : ℤ) {f : Frag} (hf : f.fragment = 0 ∨ f.fragment % 2 = 1)
    {m : ℕ} (hret : (ret : ZMod p) = (ar : ZMod p) ^ m) :
    ((fragmentStep p ar f ret : ℤ) : ZMod p) =
      (ar : ZMod p) ^ (f.fragment + 2 ^ f.length * m) := by
  have hpow : ((ar : ZMod p) ^ m) ^ 2 ^ f.length = (ar : ZMod p) ^ (2 ^ f.length * m) := by
    rw [← pow_mul, mul_comm]
  rw [fragmentStep]
  split
  · rename_i hzero
    rw [cast_squarings, hret, hpow, hzero, zero_add]
  · rename_i hne
    have hodd : 2 * (f.fragment / 2) + 1 = f.fragment := by
      have := hf.resolve_left hne
      omega
    rw [ZMod.intCast_mod, Int.cast_mul, cast_squarings, hret, hpow, cast_arPow, hodd,
      pow_add, mul_comm]

theorem cast_mpModexp (ar : ℤ) (sw : List Frag) (h : WellCut sw) :
    ((mpModexp p ar sw : ℤ) : ZMod p) = (ar : ZMod p) ^ swValue sw := by
  induction sw with
  | nil => simp [mpModexp]
  | cons f fs ih =>
      cases fs with
      | nil =>
          have hodd : 2 * (f.fragment / 2) + 1 = f.fragment := by
            have := (h.1 f List.mem_cons_self).resolve_left (h.2 f rfl)
            omega
          rw [mpModexp, cast_arPow, hodd]
          simp
      | cons g fs =>
          rw [mpModexp, swValue_cons]
          exact cast_fragmentStep ar _ (h.1 f List.mem_cons_self) (ih h.tail)

/-- The power to the low bits of the exponent. -/
theorem cast_mpModexpMont (a : ℤ) (numBits e : ℕ) :
    ((mpModexpMont p a (mpGetSw numBits e) : ℤ) : ZMod p) =
      (a : ZMod p) ^ (e % 2 ^ numBits) := by
  rw [mpModexpMont, ← swValue_mpGetSw]
  split
  · rename_i hnil
    rw [hnil]
    simp
  · rw [ZMod.intCast_mod, cast_mpModexp _ _ (mpGetSw_wellCut numBits e), ZMod.intCast_mod]

end Power

end Pepper.LibGpu.Modexp
