import Pepper.Cmtgkr.Layer
import Pepper.Foundations.Sumcheck

/-!
# What the sum-check of a layer sums

The true partial sums of the protocol for two adjacent layers: first over the output
gates, then over the two input gates of each. A round's sum as a function of its
challenge (`roundValueP`, `roundValueO1`, `roundValueO2`) is a quadratic polynomial;
`layerSystem` collects the rounds of all three phases. Nothing here is translated from
the source, it is what both parties' arithmetic is compared with.
-/

set_option autoImplicit false

open Polynomial
open Pepper.Foundations.Multilinear Pepper.Foundations.Sumcheck
open Pepper.Cmtgkr.Env Pepper.Cmtgkr.Layer

namespace Pepper.Cmtgkr.LayerSum

universe u

variable {F : Type u} [Field F]

/-! ## Gates as affine functions -/

/-- The value of a gate is affine in each input: the part that does not move. -/
def gateOffset (w : GateWiring) (y : F) : F :=
  match w.type with
  | .add => y
  | _ => 0

/-- The factor of the input that moves. -/
def gateSlope (w : GateWiring) (y : F) : F :=
  match w.type with
  | .add => 1
  | _ => y

theorem gateEval_eq (w : GateWiring) (x y : F) : w.eval x y = gateOffset w y + gateSlope w y * x := by
  rw [GateWiring.eval, gateOffset, gateSlope]
  cases w.type <;> ring

theorem gateEval_comm (w : GateWiring) (x y : F) : w.eval x y = w.eval y x := by
  rw [GateWiring.eval, GateWiring.eval]
  cases w.type <;> ring

/-! ## Quadratic polynomials from affine factors -/

/-- A product of two affine functions, with a constant. -/
noncomputable def quadratic (c a0 a1 b0 b1 : F) : F[X] := C c * (C a0 + C a1 * X) * (C b0 + C b1 * X)

theorem eval_quadratic (c a0 a1 b0 b1 x : F) :
    (quadratic c a0 a1 b0 b1).eval x = c * (a0 + a1 * x) * (b0 + b1 * x) := by
  simp [quadratic]

theorem natDegree_quadratic_le (c a0 a1 b0 b1 : F) : (quadratic c a0 a1 b0 b1).natDegree ≤ 2 := by
  have haff : ∀ a b : F, (C a + C b * X : F[X]).natDegree ≤ 1 := by
    intro a b
    refine (natDegree_add_le _ _).trans (max_le ?_ ((natDegree_C_mul_le b X).trans natDegree_X_le))
    rw [natDegree_C]
    exact Nat.zero_le 1
  refine natDegree_mul_le.trans ?_
  have hleft : (C c * (C a0 + C a1 * X : F[X])).natDegree ≤ 1 :=
    (natDegree_C_mul_le _ _).trans (haff a0 a1)
  have hright := haff b0 b1
  omega

/-- The constant and the slope of the factor of one bit. -/
theorem bitFactor_affine (b : Bool) (x : F) :
    bitFactor b x = (if b then 0 else 1) + (if b then 1 else -1) * x := by
  cases b <;> simp [sub_eq_add_neg]

/-! ## The three phases -/

section Phases

variable (L : LayerPair) (V z : ℕ → F)

/-- The value of an output gate. -/
def gateValue (g : ℕ) : F := (L.out.gate g).eval (V (L.out.gate g).in1) (V (L.out.gate g).in2)

/-- The first half of the input coordinates. -/
def point1 (r : ℕ → F) : ℕ → F := shiftPoint L.mi r

/-- The second half of the input coordinates. -/
def point2 (r : ℕ → F) : ℕ → F := shiftPoint (L.mi + L.mip1) r

/-- Partial sum after `k` rounds over the output gates. -/
def claimP (k : ℕ) (r : ℕ → F) : F :=
  ∑ g ∈ Finset.range L.out.size,
    equality z r k * (lagrange r k g * lagrange (shiftPoint k z) (L.mi - k) (g >>> k)) *
      gateValue L V g

/-- The sum of round `k` over the output gates at the challenge `x`. -/
def roundValueP (k : ℕ) (r : ℕ → F) (x : F) : F :=
  ∑ g ∈ Finset.range L.out.size,
    equality z r k * equalityFactor (z k) x *
      (lagrange r k g * bitFactor (g.testBit k) x *
        lagrange (shiftPoint (k + 1) z) (L.mi - (k + 1)) (g >>> (k + 1))) * gateValue L V g

/-- Partial sum after `k` rounds over the first inputs. -/
def claimO1 (k : ℕ) (r : ℕ → F) : F :=
  ∑ g ∈ Finset.range L.out.size,
    equality z r L.mi * (lagrange r L.mi g * lagrange (point1 L r) k (L.out.gate g).in1) *
      (L.out.gate g).eval (foldTables (point1 L r) V k ((L.out.gate g).in1 >>> k))
        (V (L.out.gate g).in2)

/-- The sum of round `k` over the first inputs at the challenge `x`. -/
def roundValueO1 (k : ℕ) (r : ℕ → F) (x : F) : F :=
  ∑ g ∈ Finset.range L.out.size,
    equality z r L.mi *
      (lagrange r L.mi g * lagrange (point1 L r) k (L.out.gate g).in1 *
        bitFactor ((L.out.gate g).in1.testBit k) x) *
      (L.out.gate g).eval
        (foldTable x (foldTables (point1 L r) V k) ((L.out.gate g).in1 >>> (k + 1)))
        (V (L.out.gate g).in2)

/-- Partial sum after `k` rounds over the second inputs. -/
def claimO2 (k : ℕ) (r : ℕ → F) : F :=
  ∑ g ∈ Finset.range L.out.size,
    equality z r L.mi *
      (lagrange r L.mi g * lagrange (point1 L r) L.mip1 (L.out.gate g).in1 *
        lagrange (point2 L r) k (L.out.gate g).in2) *
      (L.out.gate g).eval (foldTables (point1 L r) V L.mip1 0)
        (foldTables (point2 L r) V k ((L.out.gate g).in2 >>> k))

/-- The sum of round `k` over the second inputs at the challenge `x`. -/
def roundValueO2 (k : ℕ) (r : ℕ → F) (x : F) : F :=
  ∑ g ∈ Finset.range L.out.size,
    equality z r L.mi *
      (lagrange r L.mi g * lagrange (point1 L r) L.mip1 (L.out.gate g).in1 *
        lagrange (point2 L r) k (L.out.gate g).in2 *
        bitFactor ((L.out.gate g).in2.testBit k) x) *
      (L.out.gate g).eval (foldTables (point1 L r) V L.mip1 0)
        (foldTable x (foldTables (point2 L r) V k) ((L.out.gate g).in2 >>> (k + 1)))

/-- Taking off the bit `k`. -/
theorem shiftRight_split (j k : ℕ) : j >>> k = 2 * (j >>> (k + 1)) + (j.testBit k).toNat := by
  rw [Nat.testBit_eq_decide_div_mod_eq, Nat.shiftRight_succ, ← Nat.shiftRight_eq_div_pow]
  rcases Nat.mod_two_eq_zero_or_one (j >>> k) with h | h
  · rw [h]
    simp only [zero_ne_one, decide_false, Bool.toNat_false]
    omega
  · rw [h]
    simp only [decide_true, Bool.toNat_true]
    omega

/-- At the value of its next bit a folded table holds the entry of the index. -/
theorem foldTable_bit (f : ℕ → F) (j k : ℕ) :
    foldTable (if j.testBit k then 1 else 0) f (j >>> (k + 1)) = f (j >>> k) := by
  have hsplit := shiftRight_split j k
  cases hbit : j.testBit k with
  | true =>
      rw [hbit] at hsplit
      rw [foldTable, hsplit]
      simp
  | false =>
      rw [hbit] at hsplit
      rw [foldTable, hsplit]
      simp

/-- A term with the factor of one bit contributes at one of the two points only. -/
theorem bitFactor_zero_add_one (b : Bool) (f : F → F) :
    bitFactor b 0 * f 0 + bitFactor b 1 * f 1 = f (if b then 1 else 0) := by
  cases b <;> simp

theorem claimP_eq {k : ℕ} (hk : k < L.mi) (r : ℕ → F) :
    claimP L V z k r = roundValueP L V z k r 0 + roundValueP L V z k r 1 := by
  rw [claimP, roundValueP, roundValueP, ← Finset.sum_add_distrib]
  apply Finset.sum_congr rfl
  intro g _
  have hbit := bitFactor_zero_add_one (g.testBit k) (fun x => equalityFactor (z k) x)
  rw [equalityFactor_bit] at hbit
  rw [lagrange_shiftPoint z hk, Nat.testBit_shiftRight, add_zero, ← Nat.shiftRight_add, ← hbit]
  ring

theorem claimP_succ (k : ℕ) (r : ℕ → F) :
    claimP L V z (k + 1) r = roundValueP L V z k r (r k) := by
  apply Finset.sum_congr rfl
  intro g _
  rw [equality_succ, lagrange_succ]

theorem claimO1_eq (k : ℕ) (r : ℕ → F) :
    claimO1 L V z k r = roundValueO1 L V z k r 0 + roundValueO1 L V z k r 1 := by
  rw [claimO1, roundValueO1, roundValueO1, ← Finset.sum_add_distrib]
  apply Finset.sum_congr rfl
  intro g _
  have hbit := bitFactor_zero_add_one ((L.out.gate g).in1.testBit k) (fun x =>
    (L.out.gate g).eval
      (foldTable x (foldTables (point1 L r) V k) ((L.out.gate g).in1 >>> (k + 1)))
      (V (L.out.gate g).in2))
  rw [foldTable_bit] at hbit
  rw [← hbit]
  ring

theorem claimO1_succ (k : ℕ) (r : ℕ → F) :
    claimO1 L V z (k + 1) r = roundValueO1 L V z k r (r (L.mi + k)) := by
  apply Finset.sum_congr rfl
  intro g _
  rw [lagrange_succ, foldTables, mul_assoc (lagrange r L.mi g)]
  rfl

theorem claimO2_eq (k : ℕ) (r : ℕ → F) :
    claimO2 L V z k r = roundValueO2 L V z k r 0 + roundValueO2 L V z k r 1 := by
  rw [claimO2, roundValueO2, roundValueO2, ← Finset.sum_add_distrib]
  apply Finset.sum_congr rfl
  intro g _
  have hbit := bitFactor_zero_add_one ((L.out.gate g).in2.testBit k) (fun x =>
    (L.out.gate g).eval (foldTables (point1 L r) V L.mip1 0)
      (foldTable x (foldTables (point2 L r) V k) ((L.out.gate g).in2 >>> (k + 1))))
  rw [foldTable_bit] at hbit
  rw [← hbit]
  ring

theorem claimO2_succ (k : ℕ) (r : ℕ → F) :
    claimO2 L V z (k + 1) r = roundValueO2 L V z k r (r (L.mi + L.mip1 + k)) := by
  apply Finset.sum_congr rfl
  intro g _
  rw [lagrange_succ, foldTables, mul_assoc (lagrange r L.mi g * _)]
  rfl

/-! ### Between the phases -/

theorem claimP_zero (r : ℕ → F) :
    claimP L V z 0 r = ∑ g ∈ Finset.range L.out.size, gateValue L V g * lagrange z L.mi g := by
  apply Finset.sum_congr rfl
  intro g _
  have hshift : shiftPoint 0 z = z := by
    funext i
    rw [shiftPoint, zero_add]
  rw [hshift, lagrange_zero, Nat.sub_zero, Nat.shiftRight_zero, equality, Finset.prod_range_zero]
  ring

theorem claimP_mi (r : ℕ → F) : claimP L V z L.mi r = claimO1 L V z 0 r := by
  apply Finset.sum_congr rfl
  intro g _
  rw [Nat.sub_self, lagrange_zero, lagrange_zero, foldTables, Nat.shiftRight_zero]
  rfl

theorem claimO1_mip1 (r : ℕ → F) : claimO1 L V z L.mip1 r = claimO2 L V z 0 r := by
  apply Finset.sum_congr rfl
  intro g hg
  have hzero : (L.out.gate g).in1 >>> L.mip1 = 0 :=
    Nat.shiftRight_eq_zero _ _ (L.in1_lt (Finset.mem_range.1 hg))
  rw [hzero, lagrange_zero, foldTables, Nat.shiftRight_zero, mul_one]

/-- The last partial sum is what the final check computes. -/
theorem claimO2_mip1 (r : ℕ → F) :
    claimO2 L V z L.mip1 r = equality z r L.mi * ∑ g ∈ Finset.range L.out.size,
      lagrange r L.mi g * lagrange (point1 L r) L.mip1 (L.out.gate g).in1 *
        lagrange (point2 L r) L.mip1 (L.out.gate g).in2 *
        (L.out.gate g).eval (foldTables (point1 L r) V L.mip1 0)
          (foldTables (point2 L r) V L.mip1 0) := by
  rw [Finset.mul_sum]
  apply Finset.sum_congr rfl
  intro g hg
  have hzero : (L.out.gate g).in2 >>> L.mip1 = 0 :=
    Nat.shiftRight_eq_zero _ _ (L.in2_lt (Finset.mem_range.1 hg))
  rw [hzero]
  ring

/-! ### Round polynomials -/

/-- The polynomial of `roundValueP`. -/
noncomputable def polyP (k : ℕ) (r : ℕ → F) : F[X] :=
  ∑ g ∈ Finset.range L.out.size,
    quadratic
      (equality z r k * (lagrange r k g *
        lagrange (shiftPoint (k + 1) z) (L.mi - (k + 1)) (g >>> (k + 1))) * gateValue L V g)
      (1 - z k) (z k - (1 - z k)) (if g.testBit k then 0 else 1) (if g.testBit k then 1 else -1)

/-- The polynomial of `roundValueO1`. -/
noncomputable def polyO1 (k : ℕ) (r : ℕ → F) : F[X] :=
  ∑ g ∈ Finset.range L.out.size,
    let w := L.out.gate g
    let row := foldTables (point1 L r) V k
    let i := w.in1 >>> (k + 1)
    quadratic (equality z r L.mi * (lagrange r L.mi g * lagrange (point1 L r) k w.in1))
      (if w.in1.testBit k then 0 else 1) (if w.in1.testBit k then 1 else -1)
      (gateOffset w (V w.in2) + gateSlope w (V w.in2) * row (2 * i))
      (gateSlope w (V w.in2) * (row (2 * i + 1) - row (2 * i)))

/-- The polynomial of `roundValueO2`. -/
noncomputable def polyO2 (k : ℕ) (r : ℕ → F) : F[X] :=
  ∑ g ∈ Finset.range L.out.size,
    let w := L.out.gate g
    let v1 := foldTables (point1 L r) V L.mip1 0
    let row := foldTables (point2 L r) V k
    let i := w.in2 >>> (k + 1)
    quadratic
      (equality z r L.mi * (lagrange r L.mi g * lagrange (point1 L r) L.mip1 w.in1 *
        lagrange (point2 L r) k w.in2))
      (if w.in2.testBit k then 0 else 1) (if w.in2.testBit k then 1 else -1)
      (gateOffset w v1 + gateSlope w v1 * row (2 * i))
      (gateSlope w v1 * (row (2 * i + 1) - row (2 * i)))

theorem eval_polyP (k : ℕ) (r : ℕ → F) (x : F) :
    (polyP L V z k r).eval x = roundValueP L V z k r x := by
  rw [polyP, eval_finsetSum]
  apply Finset.sum_congr rfl
  intro g _
  rw [eval_quadratic, ← bitFactor_affine, equalityFactor]
  ring

theorem eval_polyO1 (k : ℕ) (r : ℕ → F) (x : F) :
    (polyO1 L V z k r).eval x = roundValueO1 L V z k r x := by
  rw [polyO1, eval_finsetSum]
  apply Finset.sum_congr rfl
  intro g _
  rw [eval_quadratic, ← bitFactor_affine, gateEval_eq, foldTable]
  ring

theorem eval_polyO2 (k : ℕ) (r : ℕ → F) (x : F) :
    (polyO2 L V z k r).eval x = roundValueO2 L V z k r x := by
  rw [polyO2, eval_finsetSum]
  apply Finset.sum_congr rfl
  intro g _
  rw [eval_quadratic, ← bitFactor_affine, gateEval_comm, gateEval_eq, foldTable]
  ring

/-- Rounds of the sum-check, `numRounds`. -/
abbrev rounds : ℕ := L.mi + 2 * L.mip1

/-- Partial sum after `k` rounds. -/
def claim (k : ℕ) (r : ℕ → F) : F :=
  if k < L.mi then claimP L V z k r
  else if k < L.mi + L.mip1 then claimO1 L V z (k - L.mi) r
  else claimO2 L V z (k - (L.mi + L.mip1)) r

/-- The sum of round `k` at the challenge `x`. -/
def roundValue (k : ℕ) (r : ℕ → F) (x : F) : F :=
  if k < L.mi then roundValueP L V z k r x
  else if k < L.mi + L.mip1 then roundValueO1 L V z (k - L.mi) r x
  else roundValueO2 L V z (k - (L.mi + L.mip1)) r x

/-- The polynomial of round `k`. -/
noncomputable def roundPoly (k : ℕ) (r : ℕ → F) : F[X] :=
  if k < L.mi then polyP L V z k r
  else if k < L.mi + L.mip1 then polyO1 L V z (k - L.mi) r
  else polyO2 L V z (k - (L.mi + L.mip1)) r

theorem eval_roundPoly (k : ℕ) (r : ℕ → F) (x : F) :
    (roundPoly L V z k r).eval x = roundValue L V z k r x := by
  rw [roundPoly, roundValue]
  split_ifs
  · exact eval_polyP L V z k r x
  · exact eval_polyO1 L V z _ r x
  · exact eval_polyO2 L V z _ r x

theorem natDegree_roundPoly_le (k : ℕ) (r : ℕ → F) : (roundPoly L V z k r).natDegree ≤ 2 := by
  rw [roundPoly]
  split_ifs
  all_goals exact natDegree_sum_le_of_forall_le _ _ fun g _ => natDegree_quadratic_le _ _ _ _ _

/-- At both ends of every phase the two formulas for the partial sum agree. -/
theorem claim_mi (r : ℕ → F) : claim L V z L.mi r = claimP L V z L.mi r := by
  have hpos : 0 < L.mip1 := log2i_pos L.in_pos
  rw [claim, if_neg (lt_irrefl _), if_pos (by omega), Nat.sub_self, claimP_mi]

theorem claim_mi_add_mip1 (r : ℕ → F) :
    claim L V z (L.mi + L.mip1) r = claimO1 L V z L.mip1 r := by
  rw [claim, if_neg (by omega), if_neg (lt_irrefl _), Nat.sub_self, claimO1_mip1]

theorem claim_eq (k : ℕ) (r : ℕ → F) :
    claim L V z k r = roundValue L V z k r 0 + roundValue L V z k r 1 := by
  rw [claim, roundValue, roundValue]
  split_ifs with hP
  · exact claimP_eq L V z hP r
  · exact claimO1_eq L V z _ r
  · exact claimO2_eq L V z _ r

theorem claim_succ (k : ℕ) (r : ℕ → F) :
    claim L V z (k + 1) r = roundValue L V z k r (r k) := by
  rw [roundValue]
  rcases Nat.lt_trichotomy (k + 1) L.mi with hlt | heq | hgt
  · rw [claim, if_pos hlt, if_pos (by omega), claimP_succ]
  · rw [if_pos (by omega), heq, claim_mi, ← heq, claimP_succ]
  · rw [if_neg (by omega)]
    rcases Nat.lt_trichotomy (k + 1) (L.mi + L.mip1) with hlt' | heq' | hgt'
    · have hsub : k + 1 - L.mi = k - L.mi + 1 := by omega
      have hadd : L.mi + (k - L.mi) = k := by omega
      rw [claim, if_neg (by omega), if_pos hlt', if_pos (by omega), hsub, claimO1_succ, hadd]
    · have hsub : L.mip1 = k - L.mi + 1 := by omega
      have hadd : L.mi + (k - L.mi) = k := by omega
      rw [if_pos (by omega), heq', claim_mi_add_mip1]
      conv_lhs => rw [hsub]
      rw [claimO1_succ, hadd]
    · have hsub : k + 1 - (L.mi + L.mip1) = k - (L.mi + L.mip1) + 1 := by omega
      have hadd : L.mi + L.mip1 + (k - (L.mi + L.mip1)) = k := by omega
      rw [claim, if_neg (by omega), if_neg (by omega), if_neg (by omega), hsub, claimO2_succ,
        hadd]

/-- The polynomial of a round depends on the challenges before it. -/
theorem roundPoly_congr {k : ℕ} {r r' : ℕ → F} (h : ∀ i < k, r i = r' i) :
    roundPoly L V z k r = roundPoly L V z k r' := by
  have hlow : ∀ m ≤ k, ∀ g, lagrange r m g = lagrange r' m g := fun m hm g =>
    lagrange_congr (fun i hi => h i (by omega)) fun _ _ => rfl
  have heq : ∀ m ≤ k, equality z r m = equality z r' m := fun m hm =>
    equality_congr fun i hi => h i (by omega)
  have hshift : ∀ s m, s + m ≤ k → ∀ i < m, shiftPoint s r i = shiftPoint s r' i :=
    fun s m hm i hi => h (s + i) (by omega)
  rw [roundPoly, roundPoly]
  split_ifs with hP hO1
  · rw [polyP, polyP, heq k le_rfl]
    apply Finset.sum_congr rfl
    intro g _
    rw [hlow k le_rfl]
  · have h1 := hshift L.mi (k - L.mi) (by omega)
    rw [polyO1, polyO1, heq L.mi (by omega), point1, point1, foldTables_congr h1]
    apply Finset.sum_congr rfl
    intro g _
    dsimp only
    rw [hlow L.mi (by omega), lagrange_congr h1 fun _ _ => rfl]
  · have h1 := hshift L.mi L.mip1 (by omega)
    have h2 := hshift (L.mi + L.mip1) (k - (L.mi + L.mip1)) (by omega)
    rw [polyO2, polyO2, heq L.mi (by omega), point1, point1, point2, point2,
      foldTables_congr h1, foldTables_congr h2]
    apply Finset.sum_congr rfl
    intro g _
    dsimp only
    rw [hlow L.mi (by omega), lagrange_congr h1 fun _ _ => rfl, lagrange_congr h2 fun _ _ => rfl]

/-- The rounds of the layer. -/
noncomputable def layerSystem : RoundSystem F (rounds L) 2 where
  claim := claim L V z
  poly := roundPoly L V z
  natDegree_le := fun k r _ => natDegree_roundPoly_le L V z k r
  claim_eq := fun k r _ => by rw [eval_roundPoly, eval_roundPoly, claim_eq]
  claim_succ := fun k r _ => by rw [eval_roundPoly, claim_succ]
  poly_congr := fun _ _ _ _ h => roundPoly_congr L V z h

theorem claim_rounds (r : ℕ → F) : claim L V z (rounds L) r = claimO2 L V z L.mip1 r := by
  have hsub : L.mi + 2 * L.mip1 - (L.mi + L.mip1) = L.mip1 := by omega
  rw [rounds, claim, if_neg (by omega), if_neg (by omega), hsub]

end Phases

end Pepper.Cmtgkr.LayerSum
