import Pepper.Common.ConstraintGen

/-!
# What a gadget call does

`Op.effect` gives for every call, from the two counters alone, the numbers of variables and
constraints it creates, the terms it adds, and how it changes the values. `Op.step_eq`: in every
mode a call does its effect, where a prover's comparison is not refused. The counters after a
program therefore do not depend on the mode (`run_counters`).
-/

set_option autoImplicit false

open Pepper.Common.Gmp Pepper.Foundations.Loop
open Pepper.Cmtgkr.Layer (convertToZ)

namespace Pepper.Common.ConstraintGen

/-! ## Effects -/

structure Effect where
  vars : ℕ
  cons : ℕ
  values : (ℕ → ℚ) → ℕ → ℚ
  terms : List Term

namespace Generator

/-- A mode keeps its part of an effect. -/
def apply (s : Generator) (e : Effect) : Generator :=
  { s with
    variablesNext := s.variablesNext + e.vars
    constraintsNext := s.constraintsNext + e.cons
    qF1 := if s.mode = .p then e.values s.qF1 else s.qF1
    acc := if s.mode = .v then e.terms.foldl (accumulate s.gamma s.cktCoefs1Length) s.acc
      else s.acc }

@[simp] theorem apply_mode (s : Generator) (e : Effect) : (s.apply e).mode = s.mode := rfl

@[simp] theorem apply_prime (s : Generator) (e : Effect) : (s.apply e).prime = s.prime := rfl

@[simp] theorem apply_oneq (s : Generator) (e : Effect) : (s.apply e).oneq = s.oneq := rfl

@[simp] theorem apply_variablesNext (s : Generator) (e : Effect) :
    (s.apply e).variablesNext = s.variablesNext + e.vars := rfl

@[simp] theorem apply_constraintsNext (s : Generator) (e : Effect) :
    (s.apply e).constraintsNext = s.constraintsNext + e.cons := rfl

theorem apply_qF1 {s : Generator} (h : s.mode = .p) (e : Effect) :
    (s.apply e).qF1 = e.values s.qF1 := if_pos h

/-- Effects one after the other. -/
theorem apply_apply (s : Generator) (e e' : Effect) :
    (s.apply e).apply e' =
      s.apply ⟨e.vars + e'.vars, e.cons + e'.cons, e'.values ∘ e.values, e.terms ++ e'.terms⟩ := by
  rcases s with ⟨mode, prime, oneq, v, c, q, acc, len, gamma⟩
  cases mode <;> simp [apply, add_assoc, List.foldl_append]

end Generator

/-- The effect of added terms only. -/
def termsEffect (terms : List Term) : Effect := ⟨0, 0, id, terms⟩

namespace Generator

/-- Outside `MODE_P` the values of an effect do not matter. -/
theorem apply_congr {s : Generator} {e e' : Effect} (hvars : e.vars = e'.vars)
    (hcons : e.cons = e'.cons) (hterms : e.terms = e'.terms)
    (hvalues : s.mode = .p → e.values s.qF1 = e'.values s.qF1) : s.apply e = s.apply e' := by
  rw [apply, apply, hvars, hcons, hterms]
  by_cases hp : s.mode = .p
  · simp only [if_pos hp, hvalues hp]
  · simp only [if_neg hp]

theorem addTerm_eq (s : Generator) (coefficient i j : ℤ) (k : ℕ) :
    s.addTerm coefficient i j k = s.apply (termsEffect [⟨k, coefficient, i, j⟩]) := by
  rcases s with ⟨mode, prime, oneq, v, c, q, acc, len, gamma⟩
  cases mode <;> rfl

theorem createNewVariables_eq (s : Generator) (n : ℕ) :
    s.createNewVariables n = s.apply ⟨n, 0, id, []⟩ := by
  rcases s with ⟨mode, prime, oneq, v, c, q, acc, len, gamma⟩
  cases mode <;> rfl

theorem createNewConstraint_eq (s : Generator) :
    s.createNewConstraint = s.apply ⟨0, 1, id, []⟩ := by
  rcases s with ⟨mode, prime, oneq, v, c, q, acc, len, gamma⟩
  cases mode <;> rfl

theorem prover_eq (s : Generator) (f : (ℕ → ℚ) → ℕ → ℚ) :
    s.prover f = s.apply ⟨0, 0, f, []⟩ := by
  rcases s with ⟨mode, prime, oneq, v, c, q, acc, len, gamma⟩
  cases mode <;> rfl

theorem apply_nothing (s : Generator) : s.apply (termsEffect []) = s := by
  rcases s with ⟨mode, prime, oneq, v, c, q, acc, len, gamma⟩
  cases mode <;> rfl

/-- A loop that only adds terms. -/
theorem forLoop_terms (n : ℕ) (body : ℕ → Generator → Generator) (f : ℕ → List Term)
    (h : ∀ i s, body i s = s.apply (termsEffect (f i))) (s : Generator) :
    forLoop n body s = s.apply (termsEffect ((List.range n).flatMap f)) := by
  induction n with
  | zero => exact (apply_nothing s).symm
  | succ n ih =>
      rw [forLoop_succ, ih, h, apply_apply, List.range_succ, List.flatMap_append]
      simp [termsEffect]

theorem foldl_terms {ι : Type} (l : List ι) (body : Generator → ι → Generator)
    (f : ι → List Term) (h : ∀ s k, body s k = s.apply (termsEffect (f k))) (s : Generator) :
    l.foldl body s = s.apply (termsEffect (l.flatMap f)) := by
  induction l generalizing s with
  | nil => exact (apply_nothing s).symm
  | cons k l ih =>
      rw [List.foldl_cons, ih, h, apply_apply]
      simp [termsEffect]

end Generator

/-! ## The effect of each call -/

/-- A product of a list of factors, with the products it goes through. -/
def chainEffect (coefficient : ℤ) (constraintID : ℕ) : ℕ → ℕ → ℕ → List ℕ → Effect
  | _, _, i, [] => termsEffect [⟨constraintID, coefficient, i, -1⟩]
  | _, _, i, [j] => termsEffect [⟨constraintID, coefficient, i, j⟩]
  | v, c, i, nextFactor :: j :: rest =>
      let e := chainEffect coefficient constraintID (v + 1) (c + 1) v (j :: rest)
      ⟨1 + e.vars, 1 + e.cons, fun q => e.values (Function.update q v (q i * q nextFactor)),
        ⟨c, 1, v, -1⟩ :: ⟨c, -1, i, nextFactor⟩ :: e.terms⟩

/-- The terms of one bit representation, with `z` the weight of the first bit. -/
def bitsTerms (c xb xbLength : ℕ) : List Term :=
  (List.range xbLength).flatMap fun b =>
    [⟨c + b, 2 ^ (xbLength - 1 - b), (xb + b : ℕ), -1⟩,
      ⟨c + b, -1, (xb + b : ℕ), (xb + b : ℕ)⟩]

/-- The terms that compare a difference with a fraction of bits. -/
def fractionTerms (check x y num r den t : ℕ) : List Term :=
  ((List.range t).flatMap fun i =>
      [⟨check, 1, x, (den + i : ℕ)⟩, ⟨check, -1, y, (den + i : ℕ)⟩]) ++
    (List.range r).flatMap fun i => [⟨check, -1, (num + i : ℕ), -1⟩]

def xgeYEffect (v c x y r t : ℕ) : Effect where
  vars := r + t
  cons := r + t + 1
  values := fun q =>
    Generator.decomposeBits ((q x - q y).den - 1) (v + r) t
      (Generator.decomposeBits (q x - q y).num v r q)
  terms := bitsTerms c v r ++ bitsTerms (c + r) (v + r) t ++
    fractionTerms (c + r + t) x y v r (v + r) t ++
      [⟨c + r + t, 1, x, -1⟩, ⟨c + r + t, -1, y, -1⟩]

def xgtYEffect (v c x y r t : ℕ) : Effect where
  vars := r + t
  cons := r + t + 1
  values := fun q =>
    Generator.decomposeBits (q x - q y).den (v + r) t
      (Generator.decomposeBits ((q x - q y).num - 1) v r q)
  terms := bitsTerms c v r ++ bitsTerms (c + r) (v + r) t ++
    fractionTerms (c + r + t) x y v r (v + r) t ++ [⟨c + r + t, -1, -1, -1⟩]

def binaryTerms (c x : ℕ) : List Term := [⟨c, 1, x, -1⟩, ⟨c, -1, x, x⟩]

/-- The values of one comparison: the flag, the inverse and the product to check. -/
def neqValues (prime : ℤ) (oneq : ℚ) (v x y : ℕ) (q : ℕ → ℚ) : ℕ → ℚ :=
  let q := Function.update q v (if q x = q y then 1 else 0)
  let q := Function.update q (v + 1) (Generator.diffInverse prime (q y - q x))
  Function.update q (v + 2) ((q y - q x) * q (v + 1) - oneq)

def neqEffect (prime : ℤ) (oneq : ℚ) (v c x y : ℕ) : Effect where
  vars := 3
  cons := 3
  values := neqValues prime oneq v x y
  terms := binaryTerms c v ++
    [⟨c + 1, 1, (v + 1 : ℕ), y⟩, ⟨c + 1, -1, (v + 1 : ℕ), x⟩, ⟨c + 1, -1, -1, -1⟩,
      ⟨c + 1, -1, (v + 2 : ℕ), -1⟩, ⟨c + 2, 1, v, (v + 2 : ℕ)⟩, ⟨c + 2, -1, (v + 2 : ℕ), -1⟩]

/-- One component of a vector comparison, with the opt-out of all but the first difference. -/
def neqVecStep (prime : ℤ) (oneq : ℚ) (v x y i : ℕ) (st : (ℕ → ℚ) × Bool) : (ℕ → ℚ) × Bool :=
  let isNeq := v + 1 + 3 * i
  let q := neqValues prime oneq isNeq (x + i) (y + i) st.1
  let q := if st.2 then Function.update q isNeq 1 else q
  (q, if q isNeq = 0 then true else st.2)

def neqVecValues (prime : ℤ) (oneq : ℚ) (v x y d : ℕ) (q : ℕ → ℚ) : (ℕ → ℚ) × Bool :=
  forLoop d (neqVecStep prime oneq v x y)
    (Function.update q v
      (if forLoop d (fun i same => same && decide (q (x + i) = q (y + i))) true then 1 else 0),
      false)

/-- The terms of one component. -/
def neqVecTerms (prime : ℤ) (oneq : ℚ) (v c x y i : ℕ) : List Term :=
  (neqEffect prime oneq (v + 1 + 3 * i) (c + 2 + 3 * i) (x + i) (y + i)).terms ++
    [⟨c + 1, 1, (v + 1 + 3 * i : ℕ), -1⟩, ⟨c + 1, -1, -1, -1⟩]

def neqVecEffect (prime : ℤ) (oneq : ℚ) (v c x y d : ℕ) : Effect where
  vars := 1 + 3 * d
  cons := 2 + 3 * d
  values := fun q => (neqVecValues prime oneq v x y d q).1
  terms := binaryTerms c v ++ [⟨c + 1, -1, v, -1⟩, ⟨c + 1, 1, -1, -1⟩] ++
    (List.range d).flatMap (neqVecTerms prime oneq v c x y)

/-- The effect of a call at given counters. -/
def Op.effect (prime : ℤ) (oneq : ℚ) (v c : ℕ) : Op → Effect
  | .newConstraint => ⟨0, 1, id, []⟩
  | .addTerm _ [] _ => termsEffect []
  | .addTerm coefficient (i :: rest) constraintID =>
      chainEffect coefficient constraintID v c i rest
  | .constant qvalue =>
      ⟨1, 1, fun q => Function.update q v qvalue,
        [⟨c, 1, v, -1⟩, ⟨c, -convertToZ 0 qvalue prime, -1, -1⟩]⟩
  | .distanceSquared p1 p2 n =>
      ⟨1, 1,
        fun q =>
          forLoop n
            (fun i q =>
              Function.update q v (q v + (q (p1 + i) - q (p2 + i)) * (q (p1 + i) - q (p2 + i))))
            (Function.update q v 0),
        ((List.range n).flatMap fun i =>
            [⟨c, 1, (p1 + i : ℕ), (p1 + i : ℕ)⟩, ⟨c, -1, (p1 + i : ℕ), (p2 + i : ℕ)⟩,
              ⟨c, -1, (p1 + i : ℕ), (p2 + i : ℕ)⟩, ⟨c, 1, (p2 + i : ℕ), (p2 + i : ℕ)⟩]) ++
          [⟨c, -1, v, -1⟩]⟩
  | .product a b =>
      ⟨1, 1, fun q => Function.update q v (1 * Generator.factor q a * Generator.factor q b),
        [⟨c, 1, a, b⟩, ⟨c, -1, v, -1⟩]⟩
  | .sum terms =>
      ⟨1, 1,
        fun q => terms.foldl (fun q k => Function.update q v (q v + q k)) (Function.update q v 0),
        (terms.flatMap fun k => [⟨c, 1, (k : ℕ), -1⟩]) ++ [⟨c, -1, v, -1⟩]⟩
  | .xgeY x y r t => xgeYEffect v c x y r t
  | .xgtY x y r t => xgtYEffect v c x y r t
  | .xleY x y r t => xgeYEffect v c y x r t
  | .xltY x y r t => xgtYEffect v c y x r t
  | .eqVec x y d =>
      ⟨0, d, id,
        (List.range d).flatMap fun i =>
          [⟨c + i, 1, (x + i : ℕ), -1⟩, ⟨c + i, -1, (y + i : ℕ), -1⟩]⟩
  | .neq x y => neqEffect prime oneq v c x y
  | .neqVec x y d => neqVecEffect prime oneq v c x y d

/-! ## Every call does its effect -/

namespace Generator

theorem addTermChain_eq (coefficient : ℤ) (constraintID : ℕ) (rest : List ℕ) (s : Generator)
    (i : ℕ) :
    addTermChain coefficient constraintID s i rest =
      s.apply (chainEffect coefficient constraintID s.variablesNext s.constraintsNext i rest) := by
  induction rest generalizing s i with
  | nil => exact addTerm_eq s coefficient i (-1) constraintID
  | cons nextFactor rest ih =>
      cases rest with
      | nil => exact addTerm_eq s coefficient i nextFactor constraintID
      | cons j rest =>
          rw [addTermChain, ih]
          simp only [addTerm_eq, createNewVariables_eq, createNewConstraint_eq, prover_eq,
            apply_apply, apply_variablesNext, apply_constraintsNext, termsEffect]
          rfl

theorem isSomeBitsRepresentation_eq (s : Generator) (xb xbLength : ℕ) :
    s.isSomeBitsRepresentation xb xbLength =
      s.apply ⟨0, xbLength, id, bitsTerms s.constraintsNext xb xbLength⟩ := by
  have hloop := forLoop_induction
    (P := fun b (st : Generator × ℤ) =>
      st.1 = s.apply ⟨0, b, id, (List.range b).flatMap fun b =>
        [⟨s.constraintsNext + b, 2 ^ (xbLength - 1 - b), (xb + b : ℕ), -1⟩,
          ⟨s.constraintsNext + b, -1, (xb + b : ℕ), (xb + b : ℕ)⟩]⟩ ∧
        (b < xbLength → st.2 = 2 ^ (xbLength - 1 - b)))
    (n := xbLength)
    (g := fun b (st : Generator × ℤ) =>
      let allowed := st.1.constraintsNext
      let s := st.1.createNewConstraint
      let s := s.addTerm st.2 (xb + b : ℕ) (-1) allowed
      (s.addTerm (-1) (xb + b : ℕ) (xb + b : ℕ) allowed, st.2.tdiv 2))
    (s := (s, 2 ^ (xbLength - 1))) ?_ ?_
  · exact hloop.1
  · exact ⟨(apply_nothing s).symm, fun _ => rfl⟩
  · rintro b hb ⟨s', z⟩ ⟨hs, hz⟩
    obtain rfl : z = 2 ^ (xbLength - 1 - b) := hz hb
    obtain rfl : s' = _ := hs
    constructor
    · simp only [addTerm_eq, createNewConstraint_eq, apply_apply, apply_constraintsNext,
        termsEffect, List.range_succ, List.flatMap_append, List.flatMap_singleton,
        List.append_assoc, List.append_nil, List.cons_append, List.nil_append]
      rfl
    · intro hb'
      have hexp : xbLength - 1 - b = xbLength - 1 - (b + 1) + 1 := by omega
      show (2 ^ (xbLength - 1 - b) : ℤ).tdiv 2 = 2 ^ (xbLength - 1 - (b + 1))
      rw [hexp, pow_succ, Int.mul_tdiv_cancel _ two_ne_zero]

theorem numTimesDenTerms_eq (s : Generator) (x y num r den t check : ℕ) :
    s.numTimesDenTerms x y num r den t check =
      s.apply (termsEffect (fractionTerms check x y num r den t)) := by
  rw [numTimesDenTerms]
  rw [forLoop_terms t _ (fun i => [⟨check, 1, x, (den + i : ℕ)⟩, ⟨check, -1, y, (den + i : ℕ)⟩]),
    forLoop_terms r _ (fun i => [⟨check, -1, (num + i : ℕ), -1⟩]), apply_apply]
  · rfl
  · intro i s
    exact addTerm_eq s _ _ _ _
  · intro i s
    rw [addTerm_eq, addTerm_eq, apply_apply]
    rfl

/-- The comparison that is not refused. -/
theorem createConstraintXgeY_eq (s : Generator) (x y r t : ℕ)
    (h : s.mode = .p → 0 ≤ s.qF1 x - s.qF1 y) :
    s.createConstraintXgeY x y r t =
      s.apply (xgeYEffect s.variablesNext s.constraintsNext x y r t) := by
  have hcond : ¬(((s.createNewVariables r).createNewVariables t).mode = .p ∧
      ((s.createNewVariables r).createNewVariables t).qF1 x -
        ((s.createNewVariables r).createNewVariables t).qF1 y < 0) := fun hlt =>
    not_lt_of_ge (h hlt.1) hlt.2
  rw [createConstraintXgeY]
  simp only
  rw [if_neg hcond]
  simp only [addTerm_eq, createNewVariables_eq, createNewConstraint_eq, prover_eq,
    isSomeBitsRepresentation_eq, numTimesDenTerms_eq, apply_apply, apply_variablesNext,
    apply_constraintsNext, termsEffect, xgeYEffect, List.append_assoc, List.append_nil,
    List.cons_append, List.nil_append, add_zero, zero_add, add_assoc]
  rfl

/-- The strict comparison that is not refused. -/
theorem createConstraintXgtY_eq (s : Generator) (x y r t : ℕ)
    (h : s.mode = .p → 0 ≤ s.qF1 x - s.qF1 y) :
    s.createConstraintXgtY x y r t =
      s.apply (xgtYEffect s.variablesNext s.constraintsNext x y r t) := by
  have hcond : ¬(((s.createNewVariables r).createNewVariables t).mode = .p ∧
      ((s.createNewVariables r).createNewVariables t).qF1 x -
        ((s.createNewVariables r).createNewVariables t).qF1 y < 0) := fun hlt =>
    not_lt_of_ge (h hlt.1) hlt.2
  rw [createConstraintXgtY]
  simp only
  rw [if_neg hcond]
  simp only [addTerm_eq, createNewVariables_eq, createNewConstraint_eq, prover_eq,
    isSomeBitsRepresentation_eq, numTimesDenTerms_eq, apply_apply, apply_variablesNext,
    apply_constraintsNext, termsEffect, xgtYEffect, List.append_assoc, List.append_nil,
    List.nil_append, add_zero, zero_add, add_assoc]
  rfl

theorem createConstraintEqVec_eq (prime : ℤ) (oneq : ℚ) (s : Generator) (x y d : ℕ) :
    s.createConstraintEqVec x y d =
      s.apply ((Op.eqVec x y d).effect prime oneq s.variablesNext s.constraintsNext) := by
  rw [createConstraintEqVec]
  refine forLoop_induction (P := fun n s' =>
    s' = s.apply ((Op.eqVec x y n).effect prime oneq s.variablesNext s.constraintsNext))
    (apply_nothing s).symm ?_
  rintro n _ _ rfl
  simp only [addTerm_eq, createNewConstraint_eq, apply_apply, apply_constraintsNext, Op.effect,
    termsEffect, List.range_succ, List.flatMap_append, List.flatMap_singleton, List.append_assoc,
    List.append_nil, List.cons_append, List.nil_append]
  rfl

theorem createConstant_eq (oneq : ℚ) (s : Generator) (qvalue : ℚ) :
    s.createConstant qvalue =
      s.apply ((Op.constant qvalue).effect s.prime oneq s.variablesNext s.constraintsNext) := by
  simp only [createConstant, addTerm_eq, createNewVariables_eq, createNewConstraint_eq, prover_eq,
    apply_apply, apply_constraintsNext, apply_prime, Op.effect, termsEffect]
  rfl

theorem createProduct_eq (prime : ℤ) (oneq : ℚ) (s : Generator) (a b : ℤ) :
    s.createProduct a b =
      s.apply ((Op.product a b).effect prime oneq s.variablesNext s.constraintsNext) := by
  simp only [createProduct, addTerm_eq, createNewVariables_eq, createNewConstraint_eq, prover_eq,
    apply_apply, apply_constraintsNext, Op.effect, termsEffect]
  rfl

theorem createDistanceSquared_eq (prime : ℤ) (oneq : ℚ) (s : Generator) (p1 p2 n : ℕ) :
    s.createDistanceSquared p1 p2 n =
      s.apply ((Op.distanceSquared p1 p2 n).effect prime oneq s.variablesNext
        s.constraintsNext) := by
  simp only [createDistanceSquared]
  rw [forLoop_terms n _ (fun i =>
    [⟨s.constraintsNext, 1, (p1 + i : ℕ), (p1 + i : ℕ)⟩,
      ⟨s.constraintsNext, -1, (p1 + i : ℕ), (p2 + i : ℕ)⟩,
      ⟨s.constraintsNext, -1, (p1 + i : ℕ), (p2 + i : ℕ)⟩,
      ⟨s.constraintsNext, 1, (p2 + i : ℕ), (p2 + i : ℕ)⟩])]
  · simp only [addTerm_eq, createNewVariables_eq, createNewConstraint_eq, prover_eq, apply_apply,
      Op.effect, termsEffect]
    rfl
  · intro i s'
    simp only [addTerm_eq, apply_apply]
    rfl

theorem createSum_eq (prime : ℤ) (oneq : ℚ) (s : Generator) (terms : List ℕ) :
    s.createSum terms =
      s.apply ((Op.sum terms).effect prime oneq s.variablesNext s.constraintsNext) := by
  simp only [createSum]
  rw [foldl_terms terms _ (fun k => [⟨s.constraintsNext, 1, (k : ℕ), -1⟩])]
  · simp only [addTerm_eq, createNewVariables_eq, createNewConstraint_eq, prover_eq,
      apply_apply, apply_constraintsNext, Op.effect, termsEffect]
    rfl
  · intro s' k
    exact addTerm_eq s' _ _ _ _

theorem createConstraintIsBinary_eq (s : Generator) (x : ℕ) :
    s.createConstraintIsBinary x = s.apply ⟨0, 1, id, binaryTerms s.constraintsNext x⟩ := by
  simp only [createConstraintIsBinary, addTerm_eq, createNewConstraint_eq, apply_apply, termsEffect]
  rfl

theorem createOptionalConstraintNeq_eq (s : Generator) (x y : ℕ) :
    s.createOptionalConstraintNeq x y =
      s.apply (neqEffect s.prime s.oneq s.variablesNext s.constraintsNext x y) := by
  simp only [createOptionalConstraintNeq, addTerm_eq, createNewVariables_eq,
    createNewConstraint_eq, prover_eq, createConstraintIsBinary_eq, apply_apply,
    apply_variablesNext, apply_constraintsNext, apply_prime, apply_oneq, termsEffect]
  rfl

/-- The loop of a vector comparison: in a prover the flag follows the values. -/
theorem neqVecLoop_eq (s : Generator) (x y d v c : ℕ)
    (hv : s.variablesNext = v + 1) (hc : s.constraintsNext = c + 2) :
    (forLoop d
      (fun i (st : Generator × Bool) =>
        let isNeq := st.1.variablesNext
        let s := st.1.createOptionalConstraintNeq (x + i) (y + i)
        let s := s.prover fun q => if st.2 then Function.update q isNeq 1 else q
        let already := if s.mode = .p ∧ s.qF1 isNeq = 0 then true else st.2
        ((s.addTerm 1 isNeq (-1) (c + 1)).addTerm (-1) (-1) (-1) (c + 1), already))
      (s, false)).1 =
      s.apply ⟨3 * d, 3 * d, fun q => (forLoop d (neqVecStep s.prime s.oneq v x y) (q, false)).1,
        (List.range d).flatMap (neqVecTerms s.prime s.oneq v c x y)⟩ := by
  have hloop := forLoop_induction
    (P := fun n (st : Generator × Bool) =>
      st.1 = s.apply
        ⟨3 * n, 3 * n, fun q => (forLoop n (neqVecStep s.prime s.oneq v x y) (q, false)).1,
          (List.range n).flatMap (neqVecTerms s.prime s.oneq v c x y)⟩ ∧
        (s.mode = .p →
          st.2 = (forLoop n (neqVecStep s.prime s.oneq v x y) (s.qF1, false)).2))
    (n := d)
    (g := fun i (st : Generator × Bool) =>
      let isNeq := st.1.variablesNext
      let s := st.1.createOptionalConstraintNeq (x + i) (y + i)
      let s := s.prover fun q => if st.2 then Function.update q isNeq 1 else q
      let already := if s.mode = .p ∧ s.qF1 isNeq = 0 then true else st.2
      ((s.addTerm 1 isNeq (-1) (c + 1)).addTerm (-1) (-1) (-1) (c + 1), already))
    (s := (s, false)) ?_ ?_
  · exact hloop.1
  · exact ⟨(apply_nothing s).symm, fun _ => rfl⟩
  · rintro n _ ⟨s', already⟩ ⟨hs, halready⟩
    obtain rfl : s' = _ := hs
    have hflag : s.mode = .p →
        already = (forLoop n (neqVecStep s.prime s.oneq v x y) (s.qF1, false)).2 := halready
    set isNeq := v + 1 + 3 * n with hisNeq
    constructor
    · simp only [createOptionalConstraintNeq_eq, addTerm_eq, prover_eq, apply_apply,
        apply_variablesNext, apply_constraintsNext, apply_prime, apply_oneq, termsEffect, hv, hc]
      refine apply_congr ?_ ?_ ?_ ?_
      · simp only [neqEffect]
        omega
      · simp only [neqEffect]
        omega
      · simp only [List.range_succ, List.flatMap_append, List.flatMap_singleton, neqVecTerms,
          List.append_assoc, List.append_nil, List.cons_append, List.nil_append]
      · intro hp
        simp only [Function.comp_apply, hflag hp, forLoop_succ, neqVecStep, id, ← hisNeq,
          neqEffect]
    · intro hp
      simp only [createOptionalConstraintNeq_eq, prover_eq, apply_apply, apply_mode,
        apply_variablesNext, apply_constraintsNext, apply_prime, apply_oneq, hv, hc]
      rw [apply_qF1 hp]
      simp only [hp, true_and, Function.comp_apply, hflag hp, forLoop_succ, neqVecStep,
        ← hisNeq, neqEffect]

theorem createOptionalConstraintNeqVec_eq (s : Generator) (x y d : ℕ) :
    s.createOptionalConstraintNeqVec x y d =
      s.apply (neqVecEffect s.prime s.oneq s.variablesNext s.constraintsNext x y d) := by
  rw [createOptionalConstraintNeqVec]
  refine (neqVecLoop_eq _ x y d s.variablesNext s.constraintsNext rfl rfl).trans ?_
  simp only [addTerm_eq, createNewVariables_eq, createNewConstraint_eq, prover_eq,
    createConstraintIsBinary_eq, apply_apply, apply_constraintsNext, apply_prime, apply_oneq,
    termsEffect, neqVecEffect]
  refine apply_congr rfl rfl ?_ ?_
  · simp only [List.append_assoc, List.append_nil, List.cons_append, List.nil_append]
    rfl
  · intro _
    rfl

end Generator

/-- The comparison of an ordered call is not refused. -/
def Op.Ordered (q : ℕ → ℚ) : Op → Prop
  | .xgeY x y _ _ | .xgtY x y _ _ => 0 ≤ q x - q y
  | .xleY x y _ _ | .xltY x y _ _ => 0 ≤ q y - q x
  | _ => True

/-- In every mode a call does its effect. -/
theorem Op.step_eq (op : Op) (s : Generator) (h : s.mode = .p → op.Ordered s.qF1) :
    op.step s = s.apply (op.effect s.prime s.oneq s.variablesNext s.constraintsNext) := by
  cases op with
  | newConstraint => exact s.createNewConstraint_eq
  | addTerm coefficient variableIDs constraintID =>
      cases variableIDs with
      | nil => exact s.apply_nothing.symm
      | cons i rest => exact Generator.addTermChain_eq coefficient constraintID rest s i
  | constant qvalue => exact s.createConstant_eq s.oneq qvalue
  | distanceSquared p1 p2 n => exact s.createDistanceSquared_eq s.prime s.oneq p1 p2 n
  | product a b => exact s.createProduct_eq s.prime s.oneq a b
  | sum terms => exact s.createSum_eq s.prime s.oneq terms
  | xgeY x y r t => exact s.createConstraintXgeY_eq x y r t h
  | xgtY x y r t => exact s.createConstraintXgtY_eq x y r t h
  | xleY x y r t => exact s.createConstraintXgeY_eq y x r t h
  | xltY x y r t => exact s.createConstraintXgtY_eq y x r t h
  | eqVec x y d => exact s.createConstraintEqVec_eq s.prime s.oneq x y d
  | neq x y => exact s.createOptionalConstraintNeq_eq x y
  | neqVec x y d => exact s.createOptionalConstraintNeqVec_eq x y d

end Pepper.Common.ConstraintGen
