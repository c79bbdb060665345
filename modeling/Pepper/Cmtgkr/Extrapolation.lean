import Pepper.Cmtgkr.MiniIP

/-!
# Extrapolation from the points `0, …, n - 1`

The three routes of `cmtgkr_env.cpp` from `n` values to the value at a point `r` of the
polynomial of degree below `n` through them: `extrap`, the weights of
`bary_precompute_weights` and, for three points, the weights of `bary_precompute_weights3`.
`extrap_eval` and `baryExtrap3_eval` hold at every point. At a node every weight of
`bary_precompute_weights` is zero, so that `baryExtrap_eval_iff` holds away from the nodes
and at the nodes whose value is zero. `extrapolates_iff` puts the routes together.
-/

set_option autoImplicit false

open Polynomial
open Pepper.Common.Gmp Pepper.Cmtgkr.Env Pepper.Cmtgkr.MiniIP

namespace Pepper.Cmtgkr.Extrapolation

variable {p : ℕ}

/-- The point `r` is not a node, or it is one whose value is zero. -/
def ClearOfNodes (p n : ℕ) (y : Vec) (r : ℤ) : Prop :=
  ∀ i < n, (r : ZMod p) = (i : ℕ) → (y i : ZMod p) = 0

/-- All routes return the value `v` from the values `y` at the point `r`. -/
structure Extrapolates (p n : ℕ) (y : Vec) (r : ℤ) (v : ZMod p) : Prop where
  extrap : Env.extrap y n r p = v.val
  bary : baryExtrap n y (baryPrecomputeWeights n r p) p = v.val
  bary3 : n = 3 → baryExtrap 3 y (baryPrecomputeWeights3 r p) p = v.val

section Field

variable [Fact p.Prime]

/-- An integer in the range of residues is the representative of its class. -/
theorem eq_val {a : ℤ} {v : ZMod p} (h0 : 0 ≤ a) (hp : a < p) (ha : (a : ZMod p) = v) :
    a = v.val := by
  rw [← ha, ZMod.val_intCast, Int.emod_eq_of_lt h0 hp]

theorem baryExtrap_range (n : ℕ) (y weights : Vec) :
    0 ≤ baryExtrap n y weights p ∧ baryExtrap n y weights p < p := by
  have hp : (0 : ℤ) < p := by exact_mod_cast (Fact.out : p.Prime).pos
  exact ⟨Int.emod_nonneg _ hp.ne', Int.emod_lt_of_pos _ hp⟩

variable {n : ℕ} {f : (ZMod p)[X]} {y : Vec}

/-- The products of `extrap` are right at the nodes too. -/
theorem extrap_eval (hn : 0 < n) (hnp : n ≤ p) (hf : f.natDegree < n)
    (hy : ∀ i < n, (y i : ZMod p) = f.eval (i : ZMod p)) (r : ℤ) :
    Env.extrap y n r p = (f.eval (r : ZMod p)).val := by
  obtain ⟨h0, h1⟩ := extrap_range (p := p) hn y r
  have hcast : (Env.extrap y n r p : ZMod p) = f.eval (r : ZMod p) := by
    rw [cast_extrap hnp, interpolate_eq hnp hf hy]
  exact eq_val h0 h1 hcast

/-- The weights for three points contain no inverse of a factor `r - i`. -/
theorem baryExtrap3_eval (hodd : p ≠ 2) (hf : f.natDegree < 3)
    (hy : ∀ i < 3, (y i : ZMod p) = f.eval (i : ZMod p)) (r : ℤ) :
    baryExtrap 3 y (baryPrecomputeWeights3 r p) p = (f.eval (r : ZMod p)).val := by
  obtain ⟨h0, h1⟩ := baryExtrap_range (p := p) 3 y (baryPrecomputeWeights3 r p)
  exact eq_val h0 h1 (cast_baryExtrap3 hodd hf hy r)

/-- At a node the barycentric sum is zero, whatever the value there is. -/
theorem baryExtrap_eval_iff (hnp : n ≤ p) (hf : f.natDegree < n)
    (hy : ∀ i < n, (y i : ZMod p) = f.eval (i : ZMod p)) (r : ℤ) :
    baryExtrap n y (baryPrecomputeWeights n r p) p = (f.eval (r : ZMod p)).val ↔
      ClearOfNodes p n y r := by
  by_cases hr : ∃ i < n, (r : ZMod p) = (i : ℕ)
  · obtain ⟨i, hi, hri⟩ := hr
    have hvalue : f.eval (r : ZMod p) = y i := by rw [hy i hi, hri]
    rw [baryExtrap_node hi hri, hvalue]
    constructor
    · intro h j hj hrj
      -- the nodes are distinct residues, so that `j` is `i`
      have hij : j = i := natNode_injOn hnp (Finset.mem_coe.2 (Finset.mem_range.2 hj))
        (Finset.mem_coe.2 (Finset.mem_range.2 hi)) (hrj.symm.trans hri)
      have hzero : ((y i : ZMod p).val : ℤ) = 0 := h.symm
      rw [hij]
      exact (ZMod.val_eq_zero _).1 (by exact_mod_cast hzero)
    · intro h
      rw [h i hi hri, ZMod.val_zero]
      rfl
  · have hne : ∀ i < n, (r : ZMod p) ≠ (i : ℕ) := fun i hi h => hr ⟨i, hi, h⟩
    obtain ⟨h0, h1⟩ := baryExtrap_range (p := p) n y (baryPrecomputeWeights n r p)
    have hcast : (baryExtrap n y (baryPrecomputeWeights n r p) p : ZMod p) =
        f.eval (r : ZMod p) := by
      rw [cast_baryExtrap_of_ne hnp hne, interpolate_eq hnp hf hy]
    exact iff_of_true (eq_val h0 h1 hcast) fun i hi h => absurd h (hne i hi)

end Field

/-- For every number of points and every point: the routes return the value of the
polynomial through the points exactly away from the nodes and at the zeros among them. -/
theorem extrapolates_iff [Fact p.Prime] (hodd : p ≠ 2) {n : ℕ} (hn : 1 ≤ n) (hnp : n < p)
    {f : (ZMod p)[X]} (hf : f.natDegree < n) {y : Vec}
    (hy : ∀ i < n, (y i : ZMod p) = f.eval (i : ZMod p)) (r : ℤ) :
    Extrapolates p n y r (f.eval (r : ZMod p)) ↔ ClearOfNodes p n y r := by
  have hbary := baryExtrap_eval_iff hnp.le hf hy r
  constructor
  · intro h
    exact hbary.1 h.bary
  · intro h
    refine ⟨extrap_eval hn hnp.le hf hy r, hbary.2 h, fun h3 => ?_⟩
    subst h3
    exact baryExtrap3_eval hodd hf hy r

/-- Two points, off the nodes. -/
theorem extrapolates_iff_two :
    Extrapolates 5 2 (fun i => i + 1) 3 ((X + 1 : (ZMod 5)[X]).eval ((3 : ℤ) : ZMod 5)) ↔
      ClearOfNodes 5 2 (fun i => i + 1) 3 := by
  have : Fact (Nat.Prime 5) := ⟨by norm_num⟩
  refine extrapolates_iff (by decide) (by decide) (by decide) ?_ ?_ 3
  · have hdegree : (X + 1 : (ZMod 5)[X]).natDegree = 1 := natDegree_X_add_C 1
    rw [hdegree]
    decide
  · intro i _
    simp

/-- The line through `1` at `0` and `2` at `1`, asked for its value at `0`. -/
theorem baryExtrap_at_node :
    let y : Vec := fun i => i + 1
    Env.extrap y 2 0 5 = 1 ∧ baryExtrap 2 y (baryPrecomputeWeights 2 0 5) 5 = 0 ∧
      ¬ Extrapolates 5 2 y 0 ((X + 1 : (ZMod 5)[X]).eval ((0 : ℤ) : ZMod 5)) := by
  have hbary : baryExtrap 2 (fun i => (i : ℤ) + 1) (baryPrecomputeWeights 2 0 5) 5 = 0 := by
    decide +kernel
  refine ⟨by decide +kernel, hbary, fun h => ?_⟩
  have hvalue : (X + 1 : (ZMod 5)[X]).eval ((0 : ℤ) : ZMod 5) = 1 := by simp
  have := h.bary
  rw [hvalue, show ((5 : ℕ) : ℤ) = 5 from rfl, hbary] at this
  exact absurd this (by decide)

end Pepper.Cmtgkr.Extrapolation
