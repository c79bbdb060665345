import Pepper.Common.ConstraintGadgets

/-!
# The prover's values and the verifier's constraints

A program of calls is run in all modes. `agreement_iff`: the modes number variables and constraints
alike, the prover's values can be mapped modulo the prime and they satisfy every constraint of
the verifier exactly when inputs and constants can be mapped and no component is compared with
`!=`. One such call is enough to leave the honest prover without a proof (`neqProgram_fails`).
-/

set_option autoImplicit false

open Pepper.Common.Gmp Pepper.Foundations.Loop
open Pepper.Cmtgkr.Layer (convertToZ)

namespace Pepper.Common.ConstraintGen

/-! ## Runs -/

theorem run_nil (s : Generator) : run [] s = s := rfl

theorem run_cons (op : Op) (ops : List Op) (s : Generator) :
    run (op :: ops) s = run ops (op.step s) := rfl

/-- No comparison of a run is refused. -/
def OrderedFrom : Generator → List Op → Prop
  | _, [] => True
  | s, op :: ops => (s.mode = .p → op.Ordered s.qF1) ∧ OrderedFrom (op.step s) ops

theorem ValidFrom.ordered {s : Generator} {ops : List Op} (h : ValidFrom s ops) :
    OrderedFrom s ops := by
  induction ops generalizing s with
  | nil => trivial
  | cons op ops ih => exact ⟨fun _ => h.1.ordered, ih h.2⟩

theorem ValidFrom.take {s : Generator} {ops : List Op} (h : ValidFrom s ops) (n : ℕ) :
    ValidFrom s (ops.take n) := by
  induction ops generalizing s n with
  | nil =>
      rw [List.take_nil]
      trivial
  | cons op ops ih =>
      cases n with
      | zero => trivial
      | succ n => exact ⟨h.1, ih h.2 n⟩

theorem orderedFrom_of_ne {s : Generator} (hs : s.mode ≠ .p) (ops : List Op) :
    OrderedFrom s ops := by
  induction ops generalizing s with
  | nil => trivial
  | cons op ops ih =>
      have hstep : op.step s = s.apply _ := op.step_eq s fun hp => absurd hp hs
      refine ⟨fun hp => absurd hp hs, ih ?_⟩
      rw [hstep]
      exact hs

/-- The terms of a program, from the counters alone. -/
def progTerms (prime : ℤ) (oneq : ℚ) : ℕ → ℕ → List Op → List Term
  | _, _, [] => []
  | v, c, op :: ops =>
      (op.effect prime oneq v c).terms ++
        progTerms prime oneq (v + (op.effect prime oneq v c).vars)
          (c + (op.effect prime oneq v c).cons) ops

/-- The counters do not depend on the mode. -/
theorem run_counters {ops : List Op} {s s' : Generator} (h : OrderedFrom s ops)
    (h' : OrderedFrom s' ops) (hprime : s.prime = s'.prime) (honeq : s.oneq = s'.oneq)
    (hv : s.variablesNext = s'.variablesNext) (hc : s.constraintsNext = s'.constraintsNext) :
    (run ops s).variablesNext = (run ops s').variablesNext ∧
      (run ops s).constraintsNext = (run ops s').constraintsNext := by
  induction ops generalizing s s' with
  | nil => exact ⟨hv, hc⟩
  | cons op ops ih =>
      have hstep := op.step_eq s h.1
      have hstep' := op.step_eq s' h'.1
      rw [run_cons, run_cons]
      refine ih h.2 h'.2 ?_ ?_ ?_ ?_
      · rw [hstep, hstep', Generator.apply_prime, Generator.apply_prime, hprime]
      · rw [hstep, hstep', Generator.apply_oneq, Generator.apply_oneq, honeq]
      · rw [hstep, hstep', Generator.apply_variablesNext, Generator.apply_variablesNext, hprime,
          honeq, hv, hc]
      · rw [hstep, hstep', Generator.apply_constraintsNext, Generator.apply_constraintsNext, hprime,
          honeq, hv, hc]

/-- The verifier accumulates the terms of the program. -/
theorem run_acc {ops : List Op} {s : Generator} (hs : s.mode = .v) :
    (run ops s).acc =
      (progTerms s.prime s.oneq s.variablesNext s.constraintsNext ops).foldl
        (accumulate s.gamma s.cktCoefs1Length) s.acc := by
  induction ops generalizing s with
  | nil => rfl
  | cons op ops ih =>
      have hstep := op.step_eq s fun hp => by
        rw [hs] at hp
        exact absurd hp (by decide)
      have hrest := ih (s := op.step s) (by rw [hstep]; exact hs)
      rw [run_cons, hrest, hstep, progTerms, List.foldl_append]
      simp only [Generator.apply, hs, if_true]

/-- What the program itself puts into the constraints. -/
def ownSum {p : ℕ} (gamma : Vec) (x : ℕ → ZMod p) (ops : List Op) : ZMod p :=
  (ops.map (Op.ownValue gamma x)).sum

theorem ownSum_cons {p : ℕ} (gamma : Vec) (x : ℕ → ZMod p) (op : Op) (ops : List Op) :
    ownSum gamma x (op :: ops) = op.ownValue gamma x + ownSum gamma x ops := List.sum_cons

section Prover

variable {p : ℕ} [Fact p.Prime]

/-- One call of the prover. -/
theorem step_prover {s : Generator} {op : Op} (h : op.Valid s) :
    op.step s = s.apply (op.effect s.prime s.oneq s.variablesNext s.constraintsNext) :=
  op.step_eq s fun _ => h.ordered

theorem run_frame {ops : List Op} {s : Generator} (hs : s.mode = .p) (h : ValidFrom s ops) :
    s.variablesNext ≤ (run ops s).variablesNext ∧
      ∀ i < s.variablesNext, (run ops s).qF1 i = s.qF1 i := by
  induction ops generalizing s with
  | nil => exact ⟨le_rfl, fun _ _ => rfl⟩
  | cons op ops ih =>
      have hstep := step_prover h.1
      have hrest := ih (s := op.step s) (by rw [hstep]; exact hs) h.2
      rw [run_cons]
      have hvars : s.variablesNext ≤ (op.step s).variablesNext := by
        rw [hstep]
        exact Nat.le_add_right _ _
      refine ⟨hvars.trans hrest.1, ?_⟩
      intro i hi
      rw [hrest.2 i (hi.trans_le hvars), hstep, Generator.apply_qF1 hs]
      exact op.values_frame h.1 hi

/-- A point for the final values is one for the values after every call. -/
theorem matches_step {op : Op} {ops : List Op} {s : Generator} (hs : s.mode = .p)
    (h : ValidFrom s (op :: ops)) {x : ℕ → ZMod p}
    (hm : Matches x (run (op :: ops) s).variablesNext (run (op :: ops) s).qF1) :
    Matches x
      (s.variablesNext + (op.effect s.prime s.oneq s.variablesNext s.constraintsNext).vars)
      ((op.effect s.prime s.oneq s.variablesNext s.constraintsNext).values s.qF1) := by
  have hstep := step_prover h.1
  have hrest := run_frame (s := op.step s) (by rw [hstep]; exact hs) h.2
  have hold := hm.old hrest.1 hrest.2
  rwa [hstep, Generator.apply_qF1 hs, Generator.apply_variablesNext] at hold

/-- All values of a run of right calls can be mapped. -/
theorem run_convertible {ops : List Op} {s : Generator} (hs : s.mode = .p) (h : ValidFrom s ops)
    (hgood : ∀ op ∈ ops, op.Good p) (hq : ∀ i < s.variablesNext, Convertible p (s.qF1 i)) :
    ∀ i < (run ops s).variablesNext, Convertible p ((run ops s).qF1 i) := by
  induction ops generalizing s with
  | nil => exact hq
  | cons op ops ih =>
      have hstep := step_prover h.1
      refine ih (s := op.step s) (by rw [hstep]; exact hs) h.2
        (fun o ho => hgood o (List.mem_cons_of_mem op ho)) ?_
      rw [hstep, Generator.apply_qF1 hs]
      exact op.values_convertible h.1 (hgood op List.mem_cons_self) hq

theorem progTerms_below {ops : List Op} {s : Generator} (hs : s.mode = .p) (h : ValidFrom s ops) :
    ∀ t ∈ progTerms s.prime s.oneq s.variablesNext s.constraintsNext ops,
      t.Below (run ops s).variablesNext := by
  induction ops generalizing s with
  | nil => exact fun t ht => absurd ht List.not_mem_nil
  | cons op ops ih =>
      have hstep := step_prover h.1
      have hmode : (op.step s).mode = .p := by rw [hstep]; exact hs
      have hrest := run_frame hmode h.2
      intro t ht
      rw [run_cons]
      rw [progTerms, List.mem_append] at ht
      rcases ht with ht | ht
      · have hbelow := op.terms_below h.1 t ht
        have hle := hrest.1
        rw [hstep, Generator.apply_variablesNext] at hle
        rw [hstep]
        simp only [Term.Below] at hbelow ⊢
        omega
      · refine ih hmode h.2 t ?_
        rw [hstep]
        exact ht

/-- Right calls: only what the program adds itself is left. -/
theorem progTerms_residual {ops : List Op} {s : Generator} (hs : s.mode = .p)
    (hprime : s.prime = p) (h : ValidFrom s ops) (hgood : ∀ op ∈ ops, op.Good p) (gamma : Vec)
    {x : ℕ → ZMod p} (hm : Matches x (run ops s).variablesNext (run ops s).qF1) :
    residual gamma x (progTerms s.prime s.oneq s.variablesNext s.constraintsNext ops) =
      ownSum gamma x ops := by
  induction ops generalizing s with
  | nil => rfl
  | cons op ops ih =>
      have hstep := step_prover h.1
      have hhere := matches_step hs h hm
      have hrest := ih (s := op.step s) (by rw [hstep]; exact hs) (by rw [hstep]; exact hprime) h.2
        (fun o ho => hgood o (List.mem_cons_of_mem op ho)) hm
      rw [hstep] at hrest
      rw [progTerms, residual_append, ownSum_cons]
      congr 1
      rw [hprime] at hhere ⊢
      exact op.residual_eq gamma h.1 (hgood op List.mem_cons_self) hhere

/-- Constraints from before a program receive only what the program adds itself. -/
theorem progTerms_residual_before {ops : List Op} {s : Generator} (hs : s.mode = .p)
    (hprime : s.prime = p) (h : ValidFrom s ops) {k : ℕ} (hk : k < s.constraintsNext)
    {x : ℕ → ZMod p} (hm : Matches x (run ops s).variablesNext (run ops s).qF1) :
    residual (single k) x (progTerms s.prime s.oneq s.variablesNext s.constraintsNext ops) =
      ownSum (single k) x ops := by
  induction ops generalizing s with
  | nil => rfl
  | cons op ops ih =>
      have hstep := step_prover h.1
      have hhere := matches_step hs h hm
      have hrest := ih (s := op.step s) (by rw [hstep]; exact hs) (by rw [hstep]; exact hprime) h.2
        (by rw [hstep]; exact Nat.lt_add_right _ hk) hm
      rw [hstep] at hrest
      rw [progTerms, residual_append, ownSum_cons]
      congr 1
      rw [hprime] at hhere ⊢
      exact op.residual_outside h.1 hhere (.inl hk)

/-- A call that is not right: one constraint is off by one. -/
theorem progTerms_residual_bad {ops : List Op} {s : Generator} (hs : s.mode = .p)
    (hprime : s.prime = p) (honeq : s.oneq = 0) (h : ValidFrom s ops)
    (hbad : ∃ op ∈ ops, ¬op.Good p) {x : ℕ → ZMod p}
    (hm : Matches x (run ops s).variablesNext (run ops s).qF1) :
    ∃ k, s.constraintsNext ≤ k ∧
      residual (single k) x (progTerms s.prime s.oneq s.variablesNext s.constraintsNext ops) =
        ownSum (single k) x ops - 1 := by
  induction ops generalizing s with
  | nil =>
      obtain ⟨op, hop, -⟩ := hbad
      exact absurd hop List.not_mem_nil
  | cons op ops ih =>
      have hstep := step_prover h.1
      have hhere := matches_step hs h hm
      have hmode : (op.step s).mode = .p := by rw [hstep]; exact hs
      have hprime' : (op.step s).prime = p := by rw [hstep]; exact hprime
      have honeq' : (op.step s).oneq = 0 := by rw [hstep]; exact honeq
      by_cases hgood : op.Good p
      · -- the call itself is right, a later one is not
        have htail : ∃ o ∈ ops, ¬o.Good p := by
          obtain ⟨o, ho, hobad⟩ := hbad
          rcases List.mem_cons.1 ho with rfl | ho
          · exact absurd hgood hobad
          · exact ⟨o, ho, hobad⟩
        obtain ⟨k, hk, hres⟩ := ih hmode hprime' honeq' h.2 htail hm
        rw [hstep] at hk hres
        refine ⟨k, le_trans (Nat.le_add_right _ _) hk, ?_⟩
        rw [progTerms, residual_append, ownSum_cons, add_sub_assoc]
        congr 1
        rw [hprime] at hhere ⊢
        exact op.residual_eq (single k) h.1 hgood hhere
      · rw [hprime, honeq] at hhere
        obtain ⟨k, hk, hk', hres⟩ := Op.residual_bad h.1 hgood hhere
        have hrest := progTerms_residual_before hmode hprime' h.2 (k := k)
          (by rw [hstep, hprime, honeq]; exact hk') hm
        rw [hstep] at hrest
        refine ⟨k, hk, ?_⟩
        simp only [Generator.apply_prime, Generator.apply_oneq, Generator.apply_variablesNext,
          Generator.apply_constraintsNext, hprime, honeq] at hrest
        rw [progTerms, residual_append, ownSum_cons, hprime, honeq, hres, hrest]
        ring

end Prover

/-! ## Agreement -/

section Agreement

variable (p numInputs : ℕ) (inputs : ℕ → ℚ) (ops : List Op)

/-- A generator that has created the input variables. -/
def start (mode : Mode) (length : ℕ) (gamma : Vec) : Generator :=
  (Generator.init mode p inputs length gamma).createNewVariables numInputs

def sizeRun : Generator := run ops (start p numInputs inputs .size 0 zeroVec)

def proverRun : Generator := run ops (start p numInputs inputs .p 0 zeroVec)

/-- The verifier's run, with as many coefficients as `MODE_SIZE` counted variables. -/
def verifierRun (gamma : Vec) : Generator :=
  run ops (start p numInputs inputs .v (sizeRun p numInputs inputs ops).variablesNext gamma)

/-- The prover's values, mapped by `convert_to_z`. -/
def proverPoint (i : ℕ) : ZMod p :=
  (convertToZ 0 ((proverRun p numInputs inputs ops).qF1 i) p : ℤ)

/-- Prover and verifier agree on a program. -/
structure Agreement : Prop where
  /-- After every prefix the three modes have the same counters. -/
  numbering : ∀ (n : ℕ) (gamma : Vec),
    let prover := proverRun p numInputs inputs (ops.take n)
    let size := sizeRun p numInputs inputs (ops.take n)
    let verifier := verifierRun p numInputs inputs (ops.take n) gamma
    size.variablesNext = prover.variablesNext ∧ size.constraintsNext = prover.constraintsNext ∧
      verifier.variablesNext = prover.variablesNext ∧
        verifier.constraintsNext = prover.constraintsNext
  /-- `convert_to_z` is defined on every value. -/
  mapped : ∀ i < (proverRun p numInputs inputs ops).variablesNext,
    Convertible p ((proverRun p numInputs inputs ops).qF1 i)
  /-- The coefficient of every `gamma[k]` is zero at the prover's values. -/
  satisfied : ∀ k,
    (verifierRun p numInputs inputs ops (single k)).acc.eval (proverPoint p numInputs inputs ops)
      (sizeRun p numInputs inputs ops).variablesNext = 0

variable {p numInputs inputs ops}

/-- The modes always number alike. -/
theorem numbering (h : ValidFrom (start p numInputs inputs .p 0 zeroVec) ops) (n : ℕ)
    (gamma : Vec) :
    let prover := proverRun p numInputs inputs (ops.take n)
    let size := sizeRun p numInputs inputs (ops.take n)
    let verifier := verifierRun p numInputs inputs (ops.take n) gamma
    size.variablesNext = prover.variablesNext ∧ size.constraintsNext = prover.constraintsNext ∧
      verifier.variablesNext = prover.variablesNext ∧
        verifier.constraintsNext = prover.constraintsNext := by
  have hp := (h.take n).ordered
  obtain ⟨hsv, hsc⟩ := run_counters
    (orderedFrom_of_ne (s := start p numInputs inputs .size 0 zeroVec)
      (show Mode.size ≠ Mode.p by decide) (ops.take n))
    hp rfl rfl rfl rfl
  obtain ⟨hvv, hvc⟩ := run_counters
    (orderedFrom_of_ne (s := start p numInputs inputs .v
      (sizeRun p numInputs inputs (ops.take n)).variablesNext gamma)
      (show Mode.v ≠ Mode.p by decide) (ops.take n))
    hp rfl rfl rfl rfl
  exact ⟨hsv, hsc, hvv, hvc⟩

variable [Fact p.Prime]

theorem matches_proverPoint
    (hmapped : ∀ i < (proverRun p numInputs inputs ops).variablesNext,
      Convertible p ((proverRun p numInputs inputs ops).qF1 i)) :
    Matches (proverPoint p numInputs inputs ops) (proverRun p numInputs inputs ops).variablesNext
      (proverRun p numInputs inputs ops).qF1 :=
  fun i hi => ⟨hmapped i hi, cast_convertToZ (hmapped i hi)⟩

omit [Fact p.Prime] in
theorem start_oneq (mode : Mode) (length : ℕ) (gamma : Vec) :
    (start p numInputs inputs mode length gamma).oneq = 0 := Rat.zero_mkRat 1

omit [Fact p.Prime] in
theorem start_variablesNext (mode : Mode) (length : ℕ) (gamma : Vec) :
    (start p numInputs inputs mode length gamma).variablesNext = numInputs := zero_add _

omit [Fact p.Prime] in
theorem size_variablesNext (h : ValidFrom (start p numInputs inputs .p 0 zeroVec) ops) :
    (sizeRun p numInputs inputs ops).variablesNext =
      (proverRun p numInputs inputs ops).variablesNext := by
  have hnumber := (numbering h ops.length zeroVec).1
  rwa [List.take_length] at hnumber

/-- The verifier's polynomial at a point. -/
theorem eval_verifierRun (h : ValidFrom (start p numInputs inputs .p 0 zeroVec) ops) (gamma : Vec)
    (x : ℕ → ZMod p) :
    (verifierRun p numInputs inputs ops gamma).acc.eval x
        (sizeRun p numInputs inputs ops).variablesNext =
      residual gamma x
        (progTerms (start p numInputs inputs .p 0 zeroVec).prime
          (start p numInputs inputs .p 0 zeroVec).oneq
          (start p numInputs inputs .p 0 zeroVec).variablesNext
          (start p numInputs inputs .p 0 zeroVec).constraintsNext ops) := by
  have hbelow := progTerms_below rfl h
  have hlength : (run ops (start p numInputs inputs .p 0 zeroVec)).variablesNext =
      (sizeRun p numInputs inputs ops).variablesNext := (size_variablesNext h).symm
  rw [hlength] at hbelow
  have hempty : (⟨0, zeroVec, zeroVec⟩ : Accumulators).eval x
      (sizeRun p numInputs inputs ops).variablesNext = 0 := by
    simp [Accumulators.eval, zeroVec]
  have hfold := eval_foldl gamma x _ hbelow ⟨0, zeroVec, zeroVec⟩
  rw [hempty, zero_add] at hfold
  rw [verifierRun, run_acc rfl]
  exact hfold

/-- A program of right calls on inputs that can be mapped. -/
theorem agreement_of_good (h : ValidFrom (start p numInputs inputs .p 0 zeroVec) ops)
    (hown : ∀ k, ownSum (single k) (proverPoint p numInputs inputs ops) ops = 0)
    (hinputs : ∀ i < numInputs, Convertible p (inputs i)) (hgood : ∀ op ∈ ops, op.Good p) :
    Agreement p numInputs inputs ops := by
  have hmapped : ∀ i < (proverRun p numInputs inputs ops).variablesNext,
      Convertible p ((proverRun p numInputs inputs ops).qF1 i) := by
    refine run_convertible rfl h hgood ?_
    rw [start_variablesNext]
    exact hinputs
  refine ⟨numbering h, hmapped, ?_⟩
  intro k
  rw [eval_verifierRun h, progTerms_residual rfl rfl h hgood _ (matches_proverPoint hmapped)]
  exact hown k

/-- Agreement leaves no call that is not right. -/
theorem good_of_agreement (h : ValidFrom (start p numInputs inputs .p 0 zeroVec) ops)
    (hown : ∀ k, ownSum (single k) (proverPoint p numInputs inputs ops) ops = 0)
    (ha : Agreement p numInputs inputs ops) :
    (∀ i < numInputs, Convertible p (inputs i)) ∧ ∀ op ∈ ops, op.Good p := by
  constructor
  · intro i hi
    have hframe := run_frame rfl h
    rw [start_variablesNext] at hframe
    have hmapped := ha.mapped i (hi.trans_le hframe.1)
    rwa [proverRun, hframe.2 i hi] at hmapped
  · by_contra hnot
    push Not at hnot
    obtain ⟨k, -, hres⟩ := progTerms_residual_bad rfl rfl (start_oneq _ _ _) h hnot
      (matches_proverPoint ha.mapped)
    have hzero := ha.satisfied k
    rw [eval_verifierRun h, hres, hown k, zero_sub, neg_eq_zero] at hzero
    exact one_ne_zero hzero

/-- Prover and verifier agree exactly where inputs and constants can be mapped and nothing is
compared with `!=`. The constraints that the program builds itself are taken to hold. -/
theorem agreement_iff (h : ValidFrom (start p numInputs inputs .p 0 zeroVec) ops)
    (hown : ∀ k, ownSum (single k) (proverPoint p numInputs inputs ops) ops = 0) :
    Agreement p numInputs inputs ops ↔
      (∀ i < numInputs, Convertible p (inputs i)) ∧ ∀ op ∈ ops, op.Good p :=
  ⟨good_of_agreement h hown, fun hgood => agreement_of_good h hown hgood.1 hgood.2⟩

end Agreement

/-- The inputs three and one. -/
def threeOne (i : ℕ) : ℚ := if i = 0 then 3 else 1

theorem comparison_agrees :
    Agreement 7 2 threeOne [.product 0 1, .xgeY 0 1 2 1, .constant 5] := by
  have : Fact (Nat.Prime 7) := ⟨by norm_num⟩
  have hvalid : ValidFrom (start 7 2 threeOne .p 0 zeroVec)
      [.product 0 1, .xgeY 0 1 2 1, .constant 5] := by
    have hdiff : (Op.step (start 7 2 threeOne .p 0 zeroVec) (.product 0 1)).qF1 0 -
        (Op.step (start 7 2 threeOne .p 0 zeroVec) (.product 0 1)).qF1 1 = 2 := by
      show (3 : ℚ) - 1 = 2
      norm_num
    refine ⟨⟨by decide, by decide⟩, ⟨⟨by decide, by decide, by decide, by decide, ?_, ?_⟩, ?_⟩,
      trivial, trivial⟩
    · rw [hdiff]
      decide
    · rw [hdiff]
      decide
    · rw [hdiff]
      norm_num
  refine (agreement_iff hvalid fun k => ?_).2 ⟨?_, ?_⟩
  · simp [ownSum, Op.ownValue]
  · intro i _
    rw [threeOne]
    split
    · exact convertible_intCast 3
    · exact convertible_intCast 1
  · intro op hop
    simp only [List.mem_cons, List.not_mem_nil, or_false] at hop
    rcases hop with rfl | rfl | rfl
    · trivial
    · trivial
    · exact convertible_intCast 5

/-- A single `!=` of three and one. -/
theorem neqProgram_fails :
    ValidFrom (start 7 2 threeOne .p 0 zeroVec) [.neq 0 1] ∧
      ¬Agreement 7 2 threeOne [.neq 0 1] := by
  have : Fact (Nat.Prime 7) := ⟨by norm_num⟩
  have hvalid : ValidFrom (start 7 2 threeOne .p 0 zeroVec) [.neq 0 1] :=
    ⟨⟨by decide, by decide⟩, trivial⟩
  refine ⟨hvalid, fun ha => ?_⟩
  have hgood := good_of_agreement hvalid (fun k => by simp [ownSum, Op.ownValue]) ha
  exact hgood.2 _ List.mem_cons_self

end Pepper.Common.ConstraintGen
