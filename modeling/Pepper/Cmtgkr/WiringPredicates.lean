import Pepper.Foundations.BitSums
import Pepper.Cmtgkr.Layer

/-!
# Closed forms of wiring predicates

The building blocks of `cmtgkr_env.cpp` for functions that evaluate the extension of a wiring
predicate: `check_equal` and `check_zero` on parts of a point, `check_wiring` for one gate,
`reduce` for layers of pairs. Each has one lemma that reads it modulo `p`.
-/

set_option autoImplicit false

open Pepper.Common.Gmp Pepper.Foundations.Loop Pepper.Foundations.Multilinear
open Pepper.Cmtgkr.Env

namespace Pepper.Cmtgkr.Layer

/-! ## The code -/

/-- `&r[k]`. -/
def offset (r : Vec) (k : ℕ) : Vec := fun i => r (k + i)

/-- `zero`. -/
def zero : MleFn := fun _ _ _ _ _ _ => 0

/-- `check_wiring`. -/
def checkWiring (rop : ℤ) (r : Vec) (out in1 in2 mi mip1 : ℕ) (prime : ℤ) : ℤ :=
  let ans := chi out r mi prime
  let ans := mulChi ans in1 (offset r mi) mip1 prime
  let ans := mulChi ans in2 (offset r (mi + mip1)) mip1 prime
  modadd rop ans prime

/-- `check_equal`. -/
def checkEqual (rop : ℤ) (r : List Vec) (start stop : ℕ) (prime : ℤ) : ℤ :=
  let ans := forLoop (stop - start)
    (fun i ans =>
      let part1 := r.foldl (fun part1 it => part1 * it (start + i)) 1
      let part2 := r.foldl (fun part2 it => part2 * oneSub (it (start + i))) 1
      modmult ans (part1 + part2) prime)
    1
  modmult rop ans prime

/-- `check_zero`. -/
def checkZero (rop : ℤ) (r : List Vec) (start stop : ℕ) (prime : ℤ) : ℤ :=
  let ans := forLoop (stop - start)
    (fun i ans => r.foldl (fun ans it => ans * oneSub (it (start + i))) ans % prime) 1
  modmult rop ans prime

/-- `reduce`. -/
def reduce : MleFn := fun r mi mip1 ni _ prime =>
  let ans :=
    if ni = 1 then oneSub (r 0)
    else checkEqual 1 [r, offset r (mi + 1), offset r (mi + mip1 + 1)] 0 (mip1 - 1) prime
  modmult (ans * oneSub (r mi)) (r (mi + mip1)) prime

/-- `F2_mult_d`. -/
def f2MultD : MleFn := fun r mi mip1 _ _ prime =>
  forLoop mi
    (fun i ans =>
      modmult ans (r (mi + i) * r (mi + mip1 + i) * r i +
        oneSub (r (mi + i)) * oneSub (r (mi + mip1 + i)) * oneSub (r i)) prime)
    1

/-! ## Modulo a prime -/

variable {p : ℕ}

@[simp] theorem castVec_offset (r : Vec) (k : ℕ) :
    castVec p (offset r k) = shiftPoint k (castVec p r) := rfl

@[simp] theorem offset_offset (r : Vec) (k m : ℕ) : offset (offset r k) m = offset r (k + m) :=
  funext fun i => congrArg r (Nat.add_assoc k m i).symm

theorem cast_offset (r : Vec) (k i : ℕ) :
    ((offset r k i : ℤ) : ZMod p) = shiftPoint k (castVec p r) i := rfl

theorem cast_checkWiring (rop : ℤ) (r : Vec) (out in1 in2 mi mip1 : ℕ) :
    ((checkWiring rop r out in1 in2 mi mip1 p : ℤ) : ZMod p) =
      rop + lagrange (castVec p r) mi out * lagrange (shiftPoint mi (castVec p r)) mip1 in1 *
        lagrange (shiftPoint (mi + mip1) (castVec p r)) mip1 in2 := by
  rw [checkWiring, cast_modadd, cast_mulChi, cast_mulChi, cast_chi, castVec_offset, castVec_offset]

theorem cast_foldl_mul (f : Vec → ℤ) (g : (ℕ → ZMod p) → ZMod p)
    (hfg : ∀ v, ((f v : ℤ) : ZMod p) = g (castVec p v)) (r : List Vec) (a : ℤ) :
    ((r.foldl (fun part it => part * f it) a : ℤ) : ZMod p) =
      a * ((r.map (castVec p)).map g).prod := by
  induction r generalizing a with
  | nil => exact (mul_one _).symm
  | cons v r ih =>
      rw [List.foldl_cons, ih, Int.cast_mul, hfg, List.map_cons, List.map_cons, List.prod_cons,
        mul_assoc]

theorem cast_checkEqual (rop : ℤ) (r : List Vec) (start stop : ℕ) :
    ((checkEqual rop r start stop p : ℤ) : ZMod p) =
      rop * ∏ i ∈ Finset.range (stop - start), agreementFactor (r.map (castVec p)) (start + i) := by
  rw [checkEqual, cast_modmult]
  refine congrArg _ ?_
  refine forLoop_induction
    (P := fun k (x : ℤ) => (x : ZMod p) =
      ∏ i ∈ Finset.range k, agreementFactor (r.map (castVec p)) (start + i)) (by simp) ?_
  intro k _ x hx
  have hpart1 := cast_foldl_mul (p := p) (fun v => v (start + k)) (fun q => q (start + k))
    (fun _ => rfl) r 1
  have hpart2 := cast_foldl_mul (p := p) (fun v => oneSub (v (start + k)))
    (fun q => 1 - q (start + k)) (fun v => cast_oneSub _) r 1
  rw [Int.cast_one, one_mul] at hpart1 hpart2
  rw [cast_modmult, Int.cast_add, hpart1, hpart2, hx, Finset.prod_range_succ]
  rfl

theorem cast_checkEqual_zero (rop : ℤ) (r : List Vec) (stop : ℕ) :
    ((checkEqual rop r 0 stop p : ℤ) : ZMod p) = rop * agreement (r.map (castVec p)) stop := by
  rw [cast_checkEqual, agreement]
  simp only [Nat.sub_zero, Nat.zero_add]

theorem cast_checkZero (rop : ℤ) (r : List Vec) (start stop : ℕ) :
    ((checkZero rop r start stop p : ℤ) : ZMod p) =
      rop * ∏ i ∈ Finset.range (stop - start),
        ((r.map (castVec p)).map fun q => 1 - q (start + i)).prod := by
  rw [checkZero, cast_modmult]
  refine congrArg _ ?_
  refine forLoop_induction
    (P := fun k (x : ℤ) => (x : ZMod p) = ∏ i ∈ Finset.range k,
      ((r.map (castVec p)).map fun q => 1 - q (start + i)).prod) (by simp) ?_
  intro k _ x hx
  rw [ZMod.intCast_mod, cast_foldl_mul (fun v => oneSub (v (start + k)))
    (fun q => 1 - q (start + k)) (fun v => cast_oneSub _), hx, Finset.prod_range_succ]

/-- At one coordinate. -/
theorem cast_checkZero_succ (rop : ℤ) (r : List Vec) (start : ℕ) :
    ((checkZero rop r start (start + 1) p : ℤ) : ZMod p) =
      rop * ((r.map (castVec p)).map fun q => 1 - q start).prod := by
  rw [cast_checkZero, Nat.add_sub_cancel_left, Finset.prod_range_one, Nat.add_zero]

@[simp] theorem cast_zero (r : Vec) (mi mip1 ni nip1 : ℕ) :
    ((zero r mi mip1 ni nip1 p : ℤ) : ZMod p) = 0 :=
  Int.cast_zero

theorem cast_f2MultD (r : Vec) (mi mip1 ni nip1 : ℕ) :
    ((f2MultD r mi mip1 ni nip1 p : ℤ) : ZMod p) =
      agreement [castVec p r, shiftPoint mi (castVec p r), shiftPoint (mi + mip1) (castVec p r)]
        mi := by
  rw [f2MultD]
  refine forLoop_induction
    (P := fun k (x : ℤ) => (x : ZMod p) = agreement [castVec p r, shiftPoint mi (castVec p r),
      shiftPoint (mi + mip1) (castVec p r)] k) (by simp [agreement]) ?_
  intro k _ x hx
  rw [cast_modmult, hx, agreement, agreement, Finset.prod_range_succ]
  refine congrArg _ ?_
  simp only [agreementFactor, List.map_cons, List.map_nil, List.prod_cons, List.prod_nil,
    shiftPoint, castVec_apply]
  push_cast [cast_oneSub]
  ring

/-! ## Levels of one gate type -/

@[simp] theorem add_treatedAs_add (a b : ℕ) :
    (⟨.add, a, b⟩ : GateWiring).shouldBeTreatedAs .add = true := rfl

@[simp] theorem add_treatedAs_mul (a b : ℕ) :
    (⟨.add, a, b⟩ : GateWiring).shouldBeTreatedAs .mul = false := rfl

@[simp] theorem mul_treatedAs_add (a b : ℕ) :
    (⟨.mul, a, b⟩ : GateWiring).shouldBeTreatedAs .add = false := rfl

@[simp] theorem mul_treatedAs_mul (a b : ℕ) :
    (⟨.mul, a, b⟩ : GateWiring).shouldBeTreatedAs .mul = true := rfl

/-- No gate of the type. -/
theorem wirePredicate_eq_zero {L : LayerPair} {gateType : GateType}
    (h : ∀ g < L.out.size, (L.out.gate g).shouldBeTreatedAs gateType = false)
    (r : ℕ → ZMod p) : wirePredicate L gateType r = 0 := by
  rw [wirePredicate]
  refine Finset.sum_eq_zero fun g hg => ?_
  rw [h g (Finset.mem_range.1 hg), if_neg Bool.false_ne_true]

/-- Logarithms of the sizes that are powers of two. -/
theorem log2i_two_pow {k : ℕ} (hk : 1 ≤ k) : log2i (2 ^ k) = k := by
  rw [log2i, if_neg (Nat.one_lt_two_pow (Nat.one_le_iff_ne_zero.1 hk)).ne',
    Nat.clog_pow _ _ one_lt_two]

theorem log2i_eq {k n : ℕ} (hlt : 2 ^ k < n) (hle : n ≤ 2 ^ (k + 1)) : log2i n = k + 1 := by
  have hpos : 0 < 2 ^ k := Nat.two_pow_pos k
  rw [log2i, if_neg (by omega)]
  exact le_antisymm (Nat.clog_le_of_le_pow hle) ((Nat.lt_clog_iff_pow_lt one_lt_two).mpr hlt)

end Pepper.Cmtgkr.Layer
