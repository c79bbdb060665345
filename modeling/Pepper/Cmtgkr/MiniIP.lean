import Pepper.Cmtgkr.SumCheckVerifier

/-!
# From one layer to the next

After the sum-check of a layer two values of the layer below are claimed. The prover
sends the values of that layer on the integer points of the line through both points;
the verifier compares two of them, draws a point of the line and extrapolates, and the
prover follows (`CMTCircuitVerifier::checkLevel`, `CMTCircuitProver::doMiniIP`).

The prover extrapolates with `extrap`, the verifier with barycentric weights. These
contain the inverses of `rand - i` and are all zero when the draw is one of the points.
`miniIP_inStep_iff` says when both parties go on with the same true claims.
-/

set_option autoImplicit false

open Polynomial
open Pepper.Common.Gmp Pepper.Foundations.Loop Pepper.Foundations.Multilinear
open Pepper.Cmtgkr.Env Pepper.Cmtgkr.Layer Pepper.Cmtgkr.LayerSum Pepper.Cmtgkr.SumCheckProver
open Pepper.Cmtgkr.SumCheckProverRun Pepper.Cmtgkr.SumCheckVerifier

namespace Pepper.Cmtgkr.MiniIP

/-! ## The code -/

/-- `lpolySize`. -/
def lpolySize (t : SumCheckTask) : ℕ := t.layers.mip1 + 1

/-- The verifier's messages after a sum-check. -/
inductive LineMessage where
  | reqLpoly
  | notifyLpolyExtrapPt (r : ℤ)
  | endLayer
deriving DecidableEq, Repr

/-- The members and locals of `CMTCircuitProver::doMiniIP`. -/
structure ProverLevel where
  lpoly : Vec
  zi : Vec
  ri : Vec
  returnVal : Option Bool

/-- The members and locals of `CMTCircuitVerifier::checkLevel`. -/
structure VerifierLevel where
  success : Bool
  zi : Vec
  ri : Vec

/-- The `vec` of two coordinates. -/
def coordinateVec (mi mip1 : ℕ) (rand : Vec) (j : ℕ) : Vec :=
  fun i => if i = 0 then rand (mi + j) else rand (mi + mip1 + j)

/-- The loop that fills a point of the line. -/
def fillPoint (t : SumCheckTask) (rand : Vec) (x : ℤ) (point : Vec) : Vec :=
  forLoop t.layers.mip1
    (fun j point => Function.update point j
      (extrap (coordinateVec t.layers.mi t.layers.mip1 rand j) 2 x t.prime))
    point

/-- The response to `REQ_LPOLY`. -/
def computeLpoly (c : SumCheckInput) (rand lpoly : Vec) : Vec :=
  let size := lpolySize c.toSumCheckTask
  (forLoop size
    (fun i s =>
      let point := fillPoint c.toSumCheckTask rand i s.1
      (point,
        forLoop c.batchSize
          (fun b lpoly => Function.update lpoly (b * size + i)
            (evaluateVi c.layers.inSize (c.inValue b) point c.prime))
          s.2))
    (zeroVec, lpoly)).2

/-- One message of `doMiniIP`. -/
def doMiniIP (c : SumCheckInput) (rand : Vec) (s : ProverLevel) : LineMessage → ProverLevel
  | .endLayer => { s with returnVal := some false }
  | .reqLpoly => { s with lpoly := computeLpoly c rand s.lpoly }
  | .notifyLpolyExtrapPt r =>
      let size := lpolySize c.toSumCheckTask
      { s with
        zi := fillPoint c.toSumCheckTask rand r s.zi
        ri :=
          forLoop c.batchSize
            (fun b ri => Function.update ri b
              (extrap (fun i => s.lpoly (b * size + i)) size r c.prime))
            s.ri
        returnVal := some true }

/-- `checkLevel` from the response to `REQ_LPOLY` on, with the draw `newRand`; it ends
with a message to the prover. -/
def finishLevel (t : SumCheckTask) (results : SumCheckResults) (lpoly : Vec) (newRand : ℤ)
    (v : VerifierLevel) : VerifierLevel × LineMessage :=
  let size := lpolySize t
  -- the values at both points are on the line, at `0` and `1`
  if (List.range t.batchSize).all fun b =>
      (List.range 2).all fun i => decide (results.vs (2 * b + i) = lpoly (size * b + i)) then
    let weights := baryPrecomputeWeights size newRand t.prime
    ({ success := true
       zi := fillPoint t results.rand newRand v.zi
       ri :=
        forLoop t.batchSize
          (fun b ri => Function.update ri b
            (baryExtrap size (fun i => lpoly (b * size + i)) weights t.prime))
          v.ri },
      .notifyLpolyExtrapPt newRand)
  else ({ v with success := false }, .endLayer)

/-- Both parties after a sum-check with the given results; `rand` are the challenges that
the prover has received in it. -/
def miniIP (c : SumCheckInput) (results : SumCheckResults) (rand : Vec) (newRand : ℤ)
    (v : VerifierLevel) (s : ProverLevel) : VerifierLevel × ProverLevel :=
  if results.success then
    let s := doMiniIP c rand s .reqLpoly
    let finish := finishLevel c.toSumCheckTask results s.lpoly newRand v
    (finish.1, doMiniIP c rand s finish.2)
  else ({ v with success := false }, doMiniIP c rand s .endLayer)

/-! ## Barycentric extrapolation -/

section Barycentric

variable {p : ℕ} [Fact p.Prime]

theorem extrap_range {n : ℕ} (hn : 0 < n) (vec : Vec) (r : ℤ) :
    0 ≤ extrap vec n r p ∧ extrap vec n r p < p := by
  obtain ⟨n, rfl⟩ := Nat.exists_eq_succ_of_ne_zero (ne_of_gt hn)
  rw [extrap, forLoop_succ]
  exact emod_range _

/-- The weights before and after they are scaled. -/
theorem baryPrecomputeWeights_apply (n : ℕ) (r : ℤ) :
    ∃ w lx : ℕ → ℤ,
      (∀ i < n, (w i : ZMod p) =
        (∏ j ∈ (Finset.range n).erase i, ((i : ZMod p) - j)) * (r - i)) ∧
      (lx n : ZMod p) = ∏ j ∈ Finset.range n, ((r : ZMod p) - j) ∧
      ∀ i < n, baryPrecomputeWeights n r p i =
        modmult (mpzInvert (w i) (w i) p) (lx n) p := by
  obtain ⟨w, hw⟩ : ∃ w : ℕ → ℤ, w = fun i : ℕ =>
    forLoop n (fun j w => if i ≠ j then w * ((i : ℤ) - j) else w) 1 * (r - i) := ⟨_, rfl⟩
  obtain ⟨lx, hlx⟩ : ∃ lx : ℕ → ℤ, lx = fun k =>
    forLoop k (fun i lx => modmult lx (r - i) p) 1 := ⟨_, rfl⟩
  refine ⟨w, lx, ?_, ?_, ?_⟩
  · -- the weights, a factor for each other node
    intro i hi
    rw [hw, Int.cast_mul, ← prod_range_ne hi]
    push_cast
    congr 1
    refine forLoop_induction
      (P := fun k (x : ℤ) => (x : ZMod p) = ∏ j ∈ Finset.range k,
        if i ≠ j then (i : ZMod p) - j else 1) (by simp) ?_
    intro j _ x hx
    rw [Finset.prod_range_succ, ← hx]
    split_ifs
    · push_cast
      rfl
    · rw [mul_one]
  · -- the product of all distances from `r`
    rw [hlx]
    refine forLoop_induction
      (P := fun k (x : ℤ) => (x : ZMod p) = ∏ j ∈ Finset.range k, ((r : ZMod p) - j))
      (by simp) ?_
    intro j _ x hx
    rw [Finset.prod_range_succ, ← hx, cast_modmult]
    push_cast
    rfl
  · -- both loops run in one: the second component does not read the first
    intro i hi
    have hrun : ∀ k, forLoop k
        (fun i s => (Function.update s.1 i (mpzInvert (w i) (w i) p), modmult s.2 (r - i) p))
        ((zeroVec, 1) : Vec × ℤ) =
        (forLoop k (fun i v => Function.update v i (mpzInvert (w i) (w i) p)) zeroVec, lx k) := by
      intro k
      induction k with
      | zero => rw [hlx]; rfl
      | succ k ih =>
          rw [forLoop_succ, ih, hlx, forLoop_succ]
          rfl
    have hpre := hrun n
    rw [hw] at hpre
    rw [baryPrecomputeWeights]
    dsimp only at hpre ⊢
    rw [hpre, forLoop_update_apply n (fun _ x => modmult x (lx n) p), if_pos hi]
    dsimp only
    rw [forLoop_fill_apply, if_pos hi, hw]

/-- At a point that is not a node the weights interpolate. -/
theorem cast_baryExtrap_of_ne {n : ℕ} (hn : n ≤ p) {r : ℤ} (hr : ∀ i < n, (r : ZMod p) ≠ (i : ℕ))
    (y : Vec) :
    (baryExtrap n y (baryPrecomputeWeights n r p) p : ZMod p) =
      (Lagrange.interpolate (Finset.range n) (fun i : ℕ => (i : ZMod p)) (castVec p y)).eval
        (r : ZMod p) := by
  obtain ⟨w, lx, hw, hlx, hweights⟩ := baryPrecomputeWeights_apply (p := p) n r
  have hnode : ∀ i ∈ Finset.range n, (r : ZMod p) ≠ (fun i : ℕ => (i : ZMod p)) i :=
    fun i hi => hr i (Finset.mem_range.1 hi)
  rw [Lagrange.eval_interpolate_not_at_node _ hnode, Lagrange.eval_nodal, baryExtrap,
    ZMod.intCast_mod, forLoop_add, zero_add, Finset.mul_sum]
  push_cast
  apply Finset.sum_congr rfl
  intro i hi
  have hi' := Finset.mem_range.1 hi
  have hdiff : (r : ZMod p) - i ≠ 0 := sub_ne_zero.2 (hr i hi')
  have hprod : ∏ j ∈ (Finset.range n).erase i, ((i : ZMod p) - j) ≠ 0 := by
    refine Finset.prod_ne_zero_iff.2 fun j hj => ?_
    obtain ⟨hji, hj'⟩ := Finset.mem_erase.1 hj
    have hne := natNode_sub_ne_zero hn hi' (Finset.mem_range.1 hj') hji.symm
    push_cast at hne
    exact hne
  have hwne : (w i : ZMod p) ≠ 0 := by
    rw [hw i hi']
    exact mul_ne_zero hprod hdiff
  rw [hweights i hi', cast_modmult, cast_mpzInvert _ _ hwne, hw i hi', hlx, Lagrange.nodalWeight,
    Finset.prod_inv_distrib, castVec_apply, mul_inv]
  ring

/-- At a node every weight is zero. -/
theorem baryExtrap_node {n : ℕ} {r : ℤ} {i : ℕ} (hi : i < n) (hr : (r : ZMod p) = (i : ℕ))
    (y : Vec) : baryExtrap n y (baryPrecomputeWeights n r p) p = 0 := by
  obtain ⟨w, lx, hw, hlx, hweights⟩ := baryPrecomputeWeights_apply (p := p) n r
  have hzero : (lx n : ZMod p) = 0 := by
    rw [hlx]
    exact Finset.prod_eq_zero (Finset.mem_range.2 hi) (sub_eq_zero.2 hr)
  have hsum : (baryExtrap n y (baryPrecomputeWeights n r p) p : ZMod p) = ((0 : ℤ) : ZMod p) := by
    rw [baryExtrap, ZMod.intCast_mod, forLoop_add, zero_add]
    push_cast
    refine Finset.sum_eq_zero fun j hj => ?_
    rw [hweights j (Finset.mem_range.1 hj), cast_modmult, hzero, mul_zero, zero_mul]
  refine (eq_iff_cast_eq (emod_range _) ⟨le_rfl, ?_⟩).2 hsum
  exact_mod_cast (Fact.out : p.Prime).pos

end Barycentric

/-! ## Points of the line -/

/-- The point of the line with parameter `x`, as residues. -/
def linePoint (t : SumCheckTask) (rand : Vec) (x : ℤ) : Vec := fun j =>
  (rand (t.layers.mi + j) +
    x * (rand (t.layers.mi + t.layers.mip1 + j) - rand (t.layers.mi + j))) % t.prime

section Line

variable {p : ℕ} [Fact p.Prime] {c : SumCheckInput}

/-- Residues with the same class at every coordinate give the same value. -/
theorem evaluateVi_congr {size : ℕ} (hsize : 0 < size) (values : Vec) {r r' : Vec}
    (h : ∀ j < log2i size, (r j : ZMod p) = r' j) :
    evaluateVi size values r p = evaluateVi size values r' p := by
  rw [eq_iff_cast_eq (evaluateVi_range hsize _ _) (evaluateVi_range hsize _ _), cast_evaluateVi,
    cast_evaluateVi]
  exact extension_congr (fun _ _ => rfl) h

theorem castVec_linePoint (ht : c.prime = p) (rand : Vec) (x : ℤ) :
    castVec p (linePoint c.toSumCheckTask rand x) =
      lineThrough (point1 c.layers (castVec p rand)) (point2 c.layers (castVec p rand)) x := by
  funext j
  rw [castVec_apply, linePoint, ht, ZMod.intCast_mod]
  push_cast
  rfl

/-- Two values determine the line. -/
theorem extrap_coordinateVec (ht : c.prime = p) (rand : Vec) (j : ℕ) (x : ℤ) :
    extrap (coordinateVec c.layers.mi c.layers.mip1 rand j) 2 x c.prime =
      linePoint c.toSumCheckTask rand x j := by
  have hp := (Fact.out : p.Prime).two_le
  obtain ⟨a, ha⟩ : ∃ a : ℤ, a = rand (c.layers.mi + j) := ⟨_, rfl⟩
  obtain ⟨b, hb⟩ : ∃ b : ℤ, b = rand (c.layers.mi + c.layers.mip1 + j) := ⟨_, rfl⟩
  have hdeg : (C (a : ZMod p) + X * C ((b : ZMod p) - a)).natDegree < 2 := by
    refine Nat.lt_succ_of_le ((natDegree_add_le _ _).trans (max_le ?_ ?_))
    · rw [natDegree_C]
      exact Nat.zero_le 1
    · exact (natDegree_mul_C_le _ _).trans natDegree_X_le
  have hvalues : ∀ i < 2, (coordinateVec c.layers.mi c.layers.mip1 rand j i : ZMod p) =
      (C (a : ZMod p) + X * C ((b : ZMod p) - a)).eval (i : ZMod p) := by
    intro i hi
    rw [coordinateVec, ← ha, ← hb]
    interval_cases i
    · simp
    · simp
  rw [linePoint, ← ha, ← hb, ht,
    eq_iff_cast_eq (extrap_range (by norm_num) _ _) (emod_range _), cast_extrap hp,
    interpolate_eq hp hdeg hvalues, ZMod.intCast_mod]
  simp

theorem fillPoint_apply (ht : c.prime = p) (rand : Vec) (x : ℤ) (point : Vec) {j : ℕ}
    (hj : j < c.layers.mip1) :
    fillPoint c.toSumCheckTask rand x point j = linePoint c.toSumCheckTask rand x j := by
  rw [fillPoint, forLoop_fill_apply, if_pos hj]
  exact extrap_coordinateVec ht rand j x

/-- Only the coordinates of the sum-check points are read. -/
theorem linePoint_congr {t : SumCheckTask} {rand rand' : Vec}
    (h : ∀ i, t.layers.mi ≤ i → i < numRounds t → rand' i = rand i) (x : ℤ) {j : ℕ}
    (hj : j < t.layers.mip1) : linePoint t rand' x j = linePoint t rand x j := by
  rw [linePoint, linePoint, h _ (by omega) (by rw [numRounds]; omega),
    h _ (by omega) (by rw [numRounds]; omega)]

/-- The cells of the response: instance by instance, the values on the line. -/
theorem computeLpoly_apply (ht : c.prime = p) (rand lpoly : Vec) {b i : ℕ} (hb : b < c.batchSize)
    (hi : i < lpolySize c.toSumCheckTask) :
    computeLpoly c rand lpoly (b * lpolySize c.toSumCheckTask + i) =
      evaluateVi c.layers.inSize (c.inValue b) (linePoint c.toSumCheckTask rand i) p := by
  obtain ⟨size, hsize⟩ : ∃ size, size = lpolySize c.toSumCheckTask := ⟨_, rfl⟩
  rw [← hsize] at hi ⊢
  rw [computeLpoly, ← hsize]
  refine (forLoop_induction
    (P := fun k (s : Vec × Vec) => ∀ i < k, s.2 (b * size + i) =
      evaluateVi c.layers.inSize (c.inValue b) (linePoint c.toSumCheckTask rand i) p)
    (fun i hi => absurd hi (Nat.not_lt_zero i)) ?_) i hi
  intro k hk s hs i hi
  have hi' : i < size := by omega
  dsimp only
  rw [forLoop_column_apply hk _ (fun b _ => evaluateVi c.layers.inSize (c.inValue b)
    (fillPoint c.toSumCheckTask rand k s.1) c.prime) s.2 (fun _ _ _ => rfl) b hi']
  split_ifs with hcell
  · rw [ht, hcell.2]
    refine evaluateVi_congr c.layers.in_pos _ fun j hj => ?_
    rw [fillPoint_apply ht rand _ _ hj]
  · exact hs i (by omega)

/-- The values on the line extrapolate to every point of it. -/
theorem interpolate_lpoly (ht : c.prime = p) (hsize : lpolySize c.toSumCheckTask ≤ p)
    (rand : Vec) (b : ℕ) {row : Vec} (hrow : ∀ i < lpolySize c.toSumCheckTask, row i =
      evaluateVi c.layers.inSize (c.inValue b) (linePoint c.toSumCheckTask rand i) p) (x : ℤ) :
    (Lagrange.interpolate (Finset.range (lpolySize c.toSumCheckTask))
        (fun i : ℕ => (i : ZMod p)) (castVec p row)).eval (x : ZMod p) =
      (evaluateVi c.layers.inSize (c.inValue b) (linePoint c.toSumCheckTask rand x) p : ZMod p) := by
  have hvalue : ∀ x : ℤ,
      (evaluateVi c.layers.inSize (c.inValue b) (linePoint c.toSumCheckTask rand x) p : ZMod p) =
        (linePoly (inTable p c b) c.layers.mip1 (point1 c.layers (castVec p rand))
          (point2 c.layers (castVec p rand))).eval (x : ZMod p) := by
    intro x
    rw [cast_evaluateVi, castVec_linePoint ht, eval_linePoly]
    rfl
  rw [hvalue, interpolate_eq hsize (Nat.lt_succ_of_le (natDegree_linePoly_le _ _ _ _))]
  intro i hi
  rw [hrow i hi, hvalue, Int.cast_natCast]

end Line

/-! ## Both parties -/

section InStep

variable {p : ℕ} [Fact p.Prime] {c : SumCheckInput}

/-- Both parties go on from the point of the line with the true values there. -/
structure InStep (p : ℕ) (c : SumCheckInput) (rand : Vec) (newRand : ℤ)
    (out : VerifierLevel × ProverLevel) : Prop where
  success : out.1.success = true ∧ out.2.returnVal = some true
  zi_eq : ∀ i < c.layers.mip1,
    out.1.zi i = linePoint c.toSumCheckTask rand newRand i ∧
      out.2.zi i = linePoint c.toSumCheckTask rand newRand i
  verifier_ri : ∀ b < c.batchSize, out.1.ri b =
    evaluateVi c.layers.inSize (c.inValue b) (linePoint c.toSumCheckTask rand newRand) p
  prover_ri : ∀ b < c.batchSize, out.2.ri b =
    evaluateVi c.layers.inSize (c.inValue b) (linePoint c.toSumCheckTask rand newRand) p

/-- What the sum-check hands over: the challenges, received by both, and true values. -/
structure Handover (p : ℕ) (c : SumCheckInput) (results : SumCheckResults) (rand : Vec) : Prop where
  success : results.success = true
  rand_eq : ∀ i < numRounds c.toSumCheckTask, rand i = results.rand i
  vs_eq : ∀ b < c.batchSize,
    results.vs (2 * b) = evaluateVi c.layers.inSize (c.inValue b)
        (fun i => results.rand (c.layers.mi + i)) p ∧
      results.vs (2 * b + 1) = evaluateVi c.layers.inSize (c.inValue b)
        (fun i => results.rand (c.layers.mi + c.layers.mip1 + i)) p

/-- The comparison of the values at both points passes. -/
theorem checkPoints (ht : c.prime = p) {results : SumCheckResults} {rand : Vec}
    (h : Handover p c results rand) (lpoly : Vec) :
    ((List.range c.batchSize).all fun b =>
      (List.range 2).all fun i => decide (results.vs (2 * b + i) =
        computeLpoly c rand lpoly (lpolySize c.toSumCheckTask * b + i))) = true := by
  have hmip1 : 0 < c.layers.mip1 := log2i_pos c.layers.in_pos
  rw [List.all_eq_true]
  intro b hb
  rw [List.all_eq_true]
  intro i hi
  rw [List.mem_range] at hb hi
  rw [decide_eq_true_eq, mul_comm (lpolySize _), computeLpoly_apply ht rand lpoly hb (by rw [lpolySize]; omega)]
  obtain ⟨h1, h2⟩ := h.vs_eq b hb
  interval_cases i
  · rw [add_zero, h1]
    refine evaluateVi_congr c.layers.in_pos _ fun j hj => ?_
    have hj' : j < c.layers.mip1 := hj
    rw [linePoint, ht, ZMod.intCast_mod, ← h.rand_eq _ (by rw [numRounds]; omega)]
    push_cast
    ring
  · rw [h2]
    refine evaluateVi_congr c.layers.in_pos _ fun j hj => ?_
    have hj' : j < c.layers.mip1 := hj
    rw [linePoint, ht, ZMod.intCast_mod, ← h.rand_eq _ (by rw [numRounds]; omega)]
    push_cast
    ring

/-- What both parties have after the mini-IP; the verifier's claims are zero for a draw
that is one of the integer points. -/
theorem miniIP_spec (ht : c.prime = p) (hsize : c.layers.mip1 + 1 < p)
    {results : SumCheckResults} {rand : Vec} (h : Handover p c results rand) {newRand : ℤ}
    (hnew : 0 ≤ newRand ∧ newRand < p) (v : VerifierLevel) (s : ProverLevel) :
    let out := miniIP c results rand newRand v s
    let true_ri := fun b =>
      evaluateVi c.layers.inSize (c.inValue b) (linePoint c.toSumCheckTask results.rand newRand) p
    (out.1.success = true ∧ out.2.returnVal = some true) ∧
      (∀ i < c.layers.mip1,
        out.1.zi i = linePoint c.toSumCheckTask results.rand newRand i ∧
          out.2.zi i = linePoint c.toSumCheckTask results.rand newRand i) ∧
      (∀ b < c.batchSize, out.1.ri b = if (c.layers.mip1 : ℤ) < newRand then true_ri b else 0) ∧
      ∀ b < c.batchSize, out.2.ri b = true_ri b := by
  intro out true_ri
  -- the parties may hold different coins for the output, which the line does not read
  have hrand : ∀ i, c.layers.mi ≤ i → i < numRounds c.toSumCheckTask →
      rand i = results.rand i := fun i _ hi => h.rand_eq i hi
  have hline : ∀ x : ℤ, ∀ b,
      evaluateVi c.layers.inSize (c.inValue b) (linePoint c.toSumCheckTask rand x) p =
        evaluateVi c.layers.inSize (c.inValue b) (linePoint c.toSumCheckTask results.rand x) p := by
    intro x b
    refine evaluateVi_congr c.layers.in_pos _ fun j hj => ?_
    rw [linePoint_congr hrand x hj]
  have hpos : 0 < lpolySize c.toSumCheckTask := Nat.succ_pos _
  have hle : lpolySize c.toSumCheckTask ≤ p := Nat.le_of_lt hsize
  have hrow : ∀ b < c.batchSize, ∀ i < lpolySize c.toSumCheckTask,
      computeLpoly c rand s.lpoly (b * lpolySize c.toSumCheckTask + i) =
        evaluateVi c.layers.inSize (c.inValue b) (linePoint c.toSumCheckTask rand i) p :=
    fun b hb i hi => computeLpoly_apply ht rand s.lpoly hb hi
  have hout : out = miniIP c results rand newRand v s := rfl
  rw [miniIP, if_pos h.success] at hout
  dsimp only [doMiniIP, finishLevel] at hout
  rw [if_pos (checkPoints ht h s.lpoly)] at hout
  rw [hout]
  refine ⟨⟨rfl, rfl⟩, ?_, ?_, ?_⟩
  · intro i hi
    refine ⟨fillPoint_apply ht results.rand newRand v.zi hi, ?_⟩
    exact (fillPoint_apply ht rand newRand s.zi hi).trans (linePoint_congr hrand newRand hi)
  · intro b hb
    dsimp only
    -- the verifier interpolates with the weights that it has computed before
    rw [forLoop_fill_apply, if_pos hb, ht]
    split_ifs with hlarge
    · -- none of the integer points is drawn
      have hne : ∀ i < lpolySize c.toSumCheckTask, (newRand : ZMod p) ≠ (i : ℕ) := by
        intro i hi heq
        have hi' : i ≤ c.layers.mip1 := Nat.lt_succ_iff.1 hi
        rw [← Int.cast_natCast, ← eq_iff_cast_eq hnew ⟨by positivity, by omega⟩] at heq
        omega
      refine (eq_iff_cast_eq (emod_range _) (evaluateVi_range c.layers.in_pos _ _)).2 ?_
      rw [← baryExtrap, cast_baryExtrap_of_ne hle hne,
        interpolate_lpoly ht hle rand b (hrow b hb), hline]
    · -- at one of the integer points all weights are zero
      obtain ⟨i, hi⟩ := Int.eq_ofNat_of_zero_le hnew.1
      have hnode : (newRand : ZMod p) = (i : ℕ) := by rw [hi, Int.cast_natCast]
      exact baryExtrap_node (by rw [lpolySize]; omega) hnode _
  · -- the prover interpolates the same values
    intro b hb
    dsimp only
    rw [forLoop_fill_apply, if_pos hb, ht]
    refine (eq_iff_cast_eq (extrap_range hpos _ _) (evaluateVi_range c.layers.in_pos _ _)).2 ?_
    rw [cast_extrap hle, interpolate_lpoly ht hle rand b (hrow b hb), hline]

/-- The parties stay in step exactly when the draw is past the integer points, or all the
true claims are zero. -/
theorem miniIP_inStep_iff (ht : c.prime = p) (hsize : c.layers.mip1 + 1 < p)
    {results : SumCheckResults} {rand : Vec} (h : Handover p c results rand) {newRand : ℤ}
    (hnew : 0 ≤ newRand ∧ newRand < p) (v : VerifierLevel) (s : ProverLevel) :
    InStep p c results.rand newRand (miniIP c results rand newRand v s) ↔
      (c.layers.mip1 : ℤ) < newRand ∨ ∀ b < c.batchSize,
        evaluateVi c.layers.inSize (c.inValue b)
          (linePoint c.toSumCheckTask results.rand newRand) p = 0 := by
  obtain ⟨hsuccess, hzi, hverifier, hprover⟩ := miniIP_spec ht hsize h hnew v s
  constructor
  · intro hstep
    by_cases hlarge : (c.layers.mip1 : ℤ) < newRand
    · exact Or.inl hlarge
    · refine Or.inr fun b hb => ?_
      rw [← hstep.verifier_ri b hb, hverifier b hb, if_neg hlarge]
  · intro hcond
    refine
      { success := hsuccess
        zi_eq := hzi
        verifier_ri := ?_
        prover_ri := hprover }
    intro b hb
    rw [hverifier b hb]
    split_ifs with hlarge
    · rfl
    · exact ((hcond.resolve_left hlarge) b hb).symm

/-- One input with the value one under a gate that doubles it. -/
def doubledOne : SumCheckInput where
  layers := LayerPair.double
  batchSize := 1
  z := zeroVec
  trueSum := fun _ => 2
  prime := 3
  inValue := fun _ _ => 1
  outValue := fun _ _ => 2

/-- The results of a sum-check whose challenges are all zero. -/
def doubledResults : SumCheckResults where
  success := true
  vs := fun _ => 1
  rand := zeroVec

theorem doubledResults_handover : Handover 3 doubledOne doubledResults zeroVec where
  success := rfl
  rand_eq := fun _ _ => rfl
  vs_eq := fun _ _ => ⟨rfl, rfl⟩

theorem doubledOne_inStep_iff :
    InStep 3 doubledOne zeroVec 2
        (miniIP doubledOne doubledResults zeroVec 2 ⟨true, zeroVec, zeroVec⟩
          ⟨zeroVec, zeroVec, zeroVec, none⟩) ↔
      (1 : ℤ) < 2 ∨ ∀ b < 1,
        evaluateVi 1 (fun _ => 1) (linePoint doubledOne.toSumCheckTask zeroVec 2) 3 = 0 :=
  miniIP_inStep_iff (p := 3) rfl (by decide) doubledResults_handover (by decide) _ _

/-- For the draw zero the verifier goes on from zero and the prover from one. -/
theorem doubledOne_outOfStep :
    (miniIP doubledOne doubledResults zeroVec 0 ⟨true, zeroVec, zeroVec⟩
        ⟨zeroVec, zeroVec, zeroVec, none⟩).1.ri 0 = 0 ∧
      (miniIP doubledOne doubledResults zeroVec 0 ⟨true, zeroVec, zeroVec⟩
        ⟨zeroVec, zeroVec, zeroVec, none⟩).2.ri 0 = 1 ∧
      ¬ InStep 3 doubledOne zeroVec 0
        (miniIP doubledOne doubledResults zeroVec 0 ⟨true, zeroVec, zeroVec⟩
          ⟨zeroVec, zeroVec, zeroVec, none⟩) := by
  obtain ⟨_, _, hverifier, hprover⟩ := miniIP_spec (p := 3) rfl (by decide)
    doubledResults_handover (show 0 ≤ (0 : ℤ) ∧ (0 : ℤ) < (3 : ℕ) by decide) ⟨true, zeroVec, zeroVec⟩
    ⟨zeroVec, zeroVec, zeroVec, none⟩
  have hone : evaluateVi doubledOne.layers.inSize (doubledOne.inValue 0)
      (linePoint doubledOne.toSumCheckTask zeroVec 0) (3 : ℕ) = 1 := by decide
  have hzero := (hverifier 0 (by decide)).trans (if_neg (by decide))
  refine ⟨hzero, (hprover 0 (by decide)).trans hone, fun hstep => ?_⟩
  have heq := (hstep.verifier_ri 0 (by decide)).symm.trans hzero
  rw [hone] at heq
  exact one_ne_zero heq

/-- The sum-check of true claims hands over what is assumed. -/
theorem handover_run (hp : p ≠ 2) (hc : c.Evaluated p)
    (hz : ∀ i < c.layers.mi, (c.z i : ZMod p) ≠ 1)
    (htrue : ∀ b < c.batchSize,
      c.trueSum b = evaluateVi c.layers.out.size (c.outValue b) c.z p)
    {rand : Vec} (hfn : SuppliedPredicates c.layers p rand) :
    Handover p c (run c.toSumCheckTask (respond c) rand)
      (runProver c (roundRequests rand (numRounds c.toSumCheckTask) ++ [.vs])).rand := by
  obtain ⟨_, hsuccess, hvs⟩ := run_respond hp hc hz htrue hfn
  have hrand : (run c.toSumCheckTask (respond c) rand).rand = rand := by
    rw [run]
    split_ifs
    · rfl
    · rfl
  refine
    { success := hsuccess
      rand_eq := ?_
      vs_eq := ?_ }
  · intro i hi
    have hsum : ∀ b < c.batchSize, (c.trueSum b : ZMod p) =
        claim c.layers (inTable p c b) (castVec p c.z) 0 (castVec p rand) := by
      intro b hb
      rw [htrue b hb, cast_evaluateVi_out hc hb]
    rw [hrand, runProver_append]
    exact (runProver_inv hp hc hz rand hsum le_rfl).2.2 i hi
  · rw [hrand]
    exact hvs

end InStep

end Pepper.Cmtgkr.MiniIP
