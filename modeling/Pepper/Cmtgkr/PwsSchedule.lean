import Pepper.Cmtgkr.PwsEvaluation
import Pepper.Foundations.DataFlow

/-!
# The order of `evaluate`

`evaluate` as a list of steps: the gates slice by slice, and between the slices the operations that
set magic variables (`evaluate_eq_exec`). A step reads gates and writes gates. What it leaves is
seen as residues, since an operation may write another representative of an operand. Along a
worksheet whose magic variables are fresh, every operation has its operands below its guard or in
the input layer, what it sets is beyond its guard, and the next guard is beyond both (`OpsInOrder`).
So the steps are in order, and each gate behind the input layer is one of them
(`evaluate_in_order`).
-/

set_option autoImplicit false

open Pepper.Common.Gmp Pepper.Foundations.Loop Pepper.Foundations.DataFlow Pepper.Cmtgkr.Env
  Pepper.Cmtgkr.Layer

namespace Pepper.Cmtgkr.Pws

/-! ## Steps -/

/-- What `evaluate` does one after the other: it computes a gate, or runs an operation. -/
inductive EvalStep
  | gate (pos : GatePosition)
  | magic (op : MagicVarOperation)
deriving DecidableEq

namespace PWSCircuit

variable (c : PWSCircuit)

/-- The wiring of a gate. -/
def wiring (pos : GatePosition) : GateWiring := (c.layer pos.layer).getD pos.name default

/-- The gates that a step reads. -/
def reads : EvalStep → List GatePosition
  | .gate pos =>
      [⟨pos.layer - 1, (c.wiring pos).in1⟩, ⟨pos.layer - 1, (c.wiring pos).in2⟩]
  | .magic op => op.operands

/-- The gates that a step gives a new residue. -/
def writes : EvalStep → List GatePosition
  | .gate pos => [pos]
  | .magic op => op.sets

/-- A step. -/
def runStep (prime : ℤ) : EvalStep → Values → Values
  | .gate pos, v =>
      v.set pos ((v.at pos).computeGateValue prime (c.wiring pos)
        (v (pos.layer - 1) (c.wiring pos).in1) (v (pos.layer - 1) (c.wiring pos).in2))
  | .magic op, v => computeMagicGates prime op v

/-- The steps of `evalLayer`. -/
def layerSteps (lNum first last : ℕ) : List EvalStep :=
  (List.range (last - first)).map fun j => .gate ⟨lNum, first + j⟩

/-- The steps of `evalGates`. -/
def sliceSteps (start stop : List ℕ) : List EvalStep :=
  (List.range (stop.length - 1)).flatMap fun l =>
    layerSteps (l + 1) (start.getD (l + 1) 0) (stop.getD (l + 1) 0)

/-- The steps of the loop of `evaluate` over the operations. -/
def stepsOf : List (List ℕ × MagicVarOperation) → List ℕ → List EvalStep
  | [], lastGuard => sliceSteps lastGuard c.sizes
  | (guard, op) :: ops, lastGuard =>
      sliceSteps lastGuard guard ++ .magic op :: stepsOf ops guard

/-- The steps of `evaluate`. -/
def steps : List EvalStep := c.stepsOf c.parser.magicOps []

/-- The steps on values, of which the residues are seen. -/
def system (p : ℕ) : System EvalStep Values GatePosition (ZMod p) where
  reads := c.reads
  writes := writes
  run := c.runStep p
  view v g := ((v.at g).zValue : ZMod p)
  frame a v g hg := by
    cases a with
    | gate pos =>
        have hne : g ≠ pos := fun h => hg (List.mem_singleton.mpr h)
        rw [runStep, Values.at_set, if_neg hne]
    | magic op => exact computeMagicGates_cast hg v

variable (p : ℕ)

theorem evalLayer_eq_exec (lNum first last : ℕ) (v : Values) :
    c.evalLayer p lNum first last v = (c.system p).exec (layerSteps lNum first last) v := by
  rw [evalLayer, layerSteps, List.map_eq_flatMap, ← System.forLoop_exec]
  rfl

theorem evalGates_eq_exec (start stop : List ℕ) (v : Values) :
    c.evalGates p start stop v = (c.system p).exec (sliceSteps start stop) v := by
  rw [evalGates, sliceSteps, ← System.forLoop_exec]
  simp only [evalLayer_eq_exec]

theorem evaluateOps_eq_exec (ops : List (List ℕ × MagicVarOperation)) (last : List ℕ)
    (v : Values) :
    c.evaluateOps p ops last v = (c.system p).exec (c.stepsOf ops last) v := by
  induction ops generalizing last v with
  | nil => rw [evaluateOps, evalGatesFrom_eq, evalGates_eq_exec, stepsOf]
  | cons e ops ih =>
      rw [evaluateOps, ih, evalGates_eq_exec, stepsOf, System.exec_append, System.exec_cons]
      rfl

/-- `evaluate` runs the steps one after the other. -/
theorem evaluate_eq_exec (v : Values) : c.evaluate p v = (c.system p).exec c.steps v :=
  c.evaluateOps_eq_exec p _ _ v

/-! ## Which gates -/

variable {c}

theorem mem_sliceSteps {start stop : List ℕ} {a : EvalStep} :
    a ∈ sliceSteps start stop ↔ ∃ l n, start.getD (l + 1) 0 ≤ n ∧ n < stop.getD (l + 1) 0 ∧
      a = .gate ⟨l + 1, n⟩ := by
  simp only [sliceSteps, layerSteps, List.mem_flatMap, List.mem_map, List.mem_range]
  constructor
  · rintro ⟨l, -, j, hj, rfl⟩
    exact ⟨l, _, Nat.le_add_right _ j, by omega, rfl⟩
  · rintro ⟨l, n, hstart, hstop, rfl⟩
    have hl : l + 1 < stop.length := by
      by_contra hle
      rw [List.getD_eq_default _ _ (by omega)] at hstop
      exact absurd hstop (Nat.not_lt_zero n)
    refine ⟨l, by omega, n - start.getD (l + 1) 0, by omega, ?_⟩
    rw [Nat.add_sub_cancel' hstart]

theorem Closed.le_sizes {bound : List ℕ} (h : c.Closed bound) (l : ℕ) :
    bound.getD (l + 1) 0 ≤ c.sizes.getD (l + 1) 0 := by
  rw [sizes_getD]
  exact h.there l

theorem wiring_eq {l n : ℕ} {w : GateWiring} (h : (c.layer l)[n]? = some w) :
    c.wiring ⟨l, n⟩ = w := by
  rw [wiring, List.getD_eq_getElem?_getD, h, Option.getD_some]

/-- One guard is beyond another. -/
def GuardLe (a b : List ℕ) : Prop := ∀ l, a.getD l 0 ≤ b.getD l 0

theorem GuardLe.nil (b : List ℕ) : GuardLe [] b := fun l => by simp

/-- Every gate between the guard and the end of its layer is a step. -/
theorem gate_mem_stepsOf {ops : List (List ℕ × MagicVarOperation)} {last : List ℕ} {l n : ℕ}
    (hlast : last.getD (l + 1) 0 ≤ n) (hn : n < c.sizes.getD (l + 1) 0) :
    EvalStep.gate ⟨l + 1, n⟩ ∈ c.stepsOf ops last := by
  induction ops generalizing last with
  | nil => exact mem_sliceSteps.mpr ⟨l, n, hlast, hn, rfl⟩
  | cons e ops ih =>
      by_cases hlt : n < e.1.getD (l + 1) 0
      · exact List.mem_append_left _ (mem_sliceSteps.mpr ⟨l, n, hlast, hlt, rfl⟩)
      · exact List.mem_append_right _ (List.mem_cons_of_mem _ (ih (Nat.le_of_not_lt hlt)))

/-! ## In order -/

/-- The gates below the guard of the operation only read gates there. What the operation sets are
inputs beyond the guard; its operands are others, and those behind the input layer are below the
guard. -/
structure OpInOrder (c : PWSCircuit) (e : List ℕ × MagicVarOperation) : Prop where
  closed : c.Closed e.1
  sets : ∀ g ∈ e.2.sets, g.layer = 0 ∧ e.1.getD 0 0 ≤ g.name
  operands : ∀ g ∈ e.2.operands, g ∉ e.2.sets ∧ (g.layer = 0 ∨ g.name < e.1.getD g.layer 0)

/-- The guard of the second operation is beyond that of the first, and beyond the inputs that the
first one reads and sets. -/
structure Follows (e e' : List ℕ × MagicVarOperation) : Prop where
  guard : GuardLe e.1 e'.1
  inputs : ∀ g ∈ e.2.operands ++ e.2.sets, g.layer = 0 → g.name < e'.1.getD 0 0

variable (c) in
/-- The operations in the order of their guards. -/
structure OrderedOps (ops : List (List ℕ × MagicVarOperation)) : Prop where
  each : ∀ e ∈ ops, OpInOrder c e
  follows : ops.Pairwise Follows

/-- The steps are gates between guards, and the operations. -/
theorem mem_stepsOf {ops : List (List ℕ × MagicVarOperation)} {last : List ℕ} {a : EvalStep}
    (hops : OrderedOps c ops) (hlast : ∀ e ∈ ops, GuardLe last e.1) (ha : a ∈ c.stepsOf ops last) :
    (∃ l n, last.getD (l + 1) 0 ≤ n ∧ n < c.sizes.getD (l + 1) 0 ∧ a = .gate ⟨l + 1, n⟩) ∨
      ∃ e ∈ ops, a = .magic e.2 := by
  induction ops generalizing last with
  | nil => exact .inl (mem_sliceSteps.mp ha)
  | cons e ops ih =>
      obtain ⟨hfirst, hrest⟩ := List.pairwise_cons.mp hops.follows
      obtain ⟨he, heach⟩ := List.forall_mem_cons.mp hops.each
      rcases List.mem_append.mp ha with ha | ha
      · obtain ⟨l, n, hstart, hn, rfl⟩ := mem_sliceSteps.mp ha
        exact .inl ⟨l, n, hstart, hn.trans_le (he.closed.le_sizes l), rfl⟩
      · rcases List.mem_cons.mp ha with rfl | ha
        · exact .inr ⟨e, List.mem_cons_self, rfl⟩
        · rcases ih ⟨heach, hrest⟩ (fun e' he' => (hfirst e' he').guard) ha with
            ⟨l, n, hstart, hn, rfl⟩ | ⟨e', he', rfl⟩
          · exact .inl ⟨l, n, (hlast e List.mem_cons_self (l + 1)).trans hstart, hn, rfl⟩
          · exact .inr ⟨e', List.mem_cons_of_mem _ he', rfl⟩

variable (c) in
/-- The second step writes nothing that the first one reads or writes. -/
def Apart (a b : EvalStep) : Prop := ∀ i ∈ writes b, i ∉ c.reads a ∧ i ∉ writes a

/-- A gate reads the layer below it. -/
theorem layer_of_mem_reads {l n : ℕ} {i : GatePosition} (hi : i ∈ c.reads (.gate ⟨l + 1, n⟩)) :
    i.layer = l := by
  rcases List.mem_cons.mp hi with rfl | hi
  · exact Nat.add_sub_cancel l 1
  · obtain rfl := List.mem_singleton.mp hi
    exact Nat.add_sub_cancel l 1

/-- A later gate of the layer, or a gate of a later layer. -/
theorem apart_gates {l n k m : ℕ} (h : l < k ∨ l = k ∧ n < m) :
    c.Apart (.gate ⟨l + 1, n⟩) (.gate ⟨k + 1, m⟩) := by
  intro i hi
  obtain rfl := List.mem_singleton.mp hi
  refine ⟨fun hread => ?_, fun hwrite => ?_⟩
  · have hlayer : k + 1 = l := layer_of_mem_reads hread
    omega
  · obtain ⟨hlayer, hname⟩ := GatePosition.mk.inj (List.mem_singleton.mp hwrite)
    omega

theorem own_gate {l n : ℕ} : ∀ i ∈ writes (.gate ⟨l + 1, n⟩), i ∉ c.reads (.gate ⟨l + 1, n⟩) := by
  intro i hi hread
  obtain rfl := List.mem_singleton.mp hi
  exact absurd (layer_of_mem_reads hread) (Nat.succ_ne_self l)

/-- The gates of a slice. -/
theorem sliceSteps_inOrder (start stop : List ℕ) :
    (c.system p).InOrder (sliceSteps start stop) where
  own a ha := by
    obtain ⟨l, n, -, -, rfl⟩ := mem_sliceSteps.mp ha
    exact own_gate
  later := by
    refine List.pairwise_flatMap.mpr ⟨fun l _ => ?_, ?_⟩
    · -- in a layer
      refine List.pairwise_map.mpr (List.pairwise_lt_range.imp fun {j k} hjk => ?_)
      exact apart_gates (.inr ⟨rfl, Nat.add_lt_add_left hjk _⟩)
    · -- from layer to layer
      refine List.pairwise_lt_range.imp fun {l k} hlk a ha b hb => ?_
      obtain ⟨i, -, rfl⟩ := List.mem_map.mp ha
      obtain ⟨j, -, rfl⟩ := List.mem_map.mp hb
      exact apart_gates (.inl hlk)

/-- A gate below a guard, and a step that only writes beyond it. -/
theorem apart_guard {guard : List ℕ} (hclosed : c.Closed guard) {l n : ℕ}
    (hn : n < guard.getD (l + 1) 0) {b : EvalStep}
    (hb : ∀ i ∈ writes b, guard.getD i.layer 0 ≤ i.name) : c.Apart (.gate ⟨l + 1, n⟩) b := by
  intro i hi
  have hbeyond := hb i hi
  refine ⟨fun hread => ?_, fun hwrite => ?_⟩
  · have hget := List.getElem?_eq_getElem (hn.trans_le (hclosed.there l))
    obtain ⟨h1, h2⟩ := hclosed.inputs l n _ hn hget
    rw [← wiring_eq hget] at h1 h2
    rcases List.mem_cons.mp hread with rfl | hread
    · exact absurd hbeyond (Nat.not_le.mpr h1)
    · obtain rfl := List.mem_singleton.mp hread
      exact absurd hbeyond (Nat.not_le.mpr h2)
  · obtain rfl := List.mem_singleton.mp hwrite
    exact absurd hbeyond (Nat.not_le.mpr hn)

/-- What is behind a guard only writes beyond it. -/
theorem stepsOf_beyond {ops : List (List ℕ × MagicVarOperation)} {last : List ℕ} {a : EvalStep}
    (hops : OrderedOps c ops) (hlast : ∀ e ∈ ops, GuardLe last e.1) (ha : a ∈ c.stepsOf ops last) :
    ∀ i ∈ writes a, last.getD i.layer 0 ≤ i.name := by
  intro i hi
  rcases mem_stepsOf hops hlast ha with ⟨l, n, hn, -, rfl⟩ | ⟨e, he, rfl⟩
  · obtain rfl := List.mem_singleton.mp hi
    exact hn
  · obtain ⟨hlayer, hbeyond⟩ := (hops.each e he).sets i hi
    rw [hlayer]
    exact (hlast e he 0).trans hbeyond

/-- An operation, and what is behind its guard. -/
theorem apart_operation {e : List ℕ × MagicVarOperation}
    {ops : List (List ℕ × MagicVarOperation)} (he : OpInOrder c e) (hops : OrderedOps c ops)
    (hfirst : ∀ e' ∈ ops, Follows e e') {b : EvalStep} (hb : b ∈ c.stepsOf ops e.1) :
    c.Apart (.magic e.2) b := by
  intro i hi
  have hguard : ∀ e' ∈ ops, GuardLe e.1 e'.1 := fun e' he' => (hfirst e' he').guard
  have hbeyond := stepsOf_beyond hops hguard hb i hi
  have hinput : i.layer = 0 → i ∉ e.2.operands ++ e.2.sets := fun hlayer hmem => by
    rcases mem_stepsOf hops hguard hb with ⟨l, n, -, -, rfl⟩ | ⟨e', he', rfl⟩
    · obtain rfl := List.mem_singleton.mp hi
      exact Nat.succ_ne_zero l hlayer
    · exact absurd ((hfirst e' he').inputs i hmem hlayer)
        (Nat.not_lt.mpr ((hops.each e' he').sets i hi).2)
  refine ⟨fun hread => ?_, fun hwrite => ?_⟩
  · rcases (he.operands i hread).2 with hlayer | hlt
    · exact hinput hlayer (List.mem_append_left _ hread)
    · exact absurd hbeyond (Nat.not_le.mpr hlt)
  · exact hinput (he.sets i hwrite).1 (List.mem_append_right _ hwrite)

/-- The slices and the operations between them. -/
theorem stepsOf_inOrder {ops : List (List ℕ × MagicVarOperation)} {last : List ℕ}
    (hops : OrderedOps c ops) : (c.system p).InOrder (c.stepsOf ops last) := by
  induction ops generalizing last with
  | nil => exact sliceSteps_inOrder p _ _
  | cons e ops ih =>
      obtain ⟨hfirst, hfollows⟩ := List.pairwise_cons.mp hops.follows
      obtain ⟨he, heach⟩ := List.forall_mem_cons.mp hops.each
      have hrest : OrderedOps c ops := ⟨heach, hfollows⟩
      have hbehind : (c.system p).InOrder (.magic e.2 :: c.stepsOf ops e.1) := by
        refine ⟨List.forall_mem_cons.mpr ⟨fun i hi hread => ?_, ih hrest |>.own⟩,
          List.pairwise_cons.mpr ⟨fun b hb => ?_, (ih hrest).later⟩⟩
        · exact (he.operands i hread).1 hi
        · exact apart_operation he hrest hfirst hb
      refine (sliceSteps_inOrder p last e.1).append hbehind fun a ha b hb => ?_
      obtain ⟨l, n, -, hn, rfl⟩ := mem_sliceSteps.mp ha
      refine apart_guard he.closed hn fun i hi => ?_
      rcases List.mem_cons.mp hb with rfl | hb
      · obtain ⟨hlayer, hbeyond⟩ := he.sets i hi
        rwa [hlayer]
      · exact stepsOf_beyond hrest (fun e' he' => (hfirst e' he').guard) hb i hi

end PWSCircuit

/-! ## The operations of a worksheet -/

section Worksheets

open PWSCircuit

variable {c : PWSCircuit} {s s' t : PWSCircuitParser}

theorem Grows.guardLe (h : Grows s t) :
    GuardLe (s.circuitDesc.map List.length) (t.circuitDesc.map List.length) := by
  intro l
  by_contra hlt
  have hthere : HasGate t ⟨l, (t.circuitDesc.map List.length).getD l 0⟩ :=
    h.hasGate (hasGate_iff.mpr (Nat.lt_of_not_le hlt))
  exact absurd (hasGate_iff.mp hthere) (Nat.lt_irrefl _)

/-- The operations of the state are guarded. Their operands are there, inputs or below the guard,
and not among what the operation sets. Every guard is beyond the operations before it. -/
structure OpsInOrder (t : PWSCircuitParser) : Prop where
  guarded : GuardedOps t
  operands : ∀ e ∈ t.magicOps, ∀ g ∈ e.2.operands,
    HasGate t g ∧ g ∉ e.2.sets ∧ (g.layer = 0 ∨ g.name < e.1.getD g.layer 0)
  follows : t.magicOps.Pairwise Follows

theorem opsInOrder_new : OpsInOrder .new where
  guarded _ he := absurd he List.not_mem_nil
  operands _ he := absurd he List.not_mem_nil
  follows := List.Pairwise.nil

/-- A line without an operation. -/
theorem OpsInOrder.of_plain {T : Primitive → Prop} (h : OpsInOrder s) (hs : WellFormed s)
    (hplain : PlainLine T s s') : OpsInOrder s' where
  guarded e he := by
    rw [hplain.ops] at he
    exact (h.guarded e he).of_run hplain.run hs
  operands e he g hg := by
    rw [hplain.ops] at he
    obtain ⟨hthere, hrest⟩ := h.operands e he g hg
    exact ⟨(hplain.run.wellFormed hs).2.1.hasGate hthere, hrest⟩
  follows := by
    rw [hplain.ops]
    exact h.follows

/-- The operands of a line are none of its magic variables' gates. -/
theorem OpRecorded.operand_not_set {line : OpLine} {op : MagicVarOperation}
    (h : OpRecorded line s s' op) (hs : WellFormed s) (hfresh : line.Fresh s) {g : GatePosition}
    (hg : g ∈ op.operands) : g ∉ op.sets := by
  intro hset
  obtain ⟨q, hq, hlowest⟩ := h.operands g hg
  obtain ⟨m, hm, hlow⟩ := h.sets hfresh.targets g hset
  have hquiet : ∀ t gate, ¬ (lineCalls (· ∈ line.targets)).allows t (.bind m gate) :=
    fun _ _ hallowed => hfresh.targets m hallowed.1 hm
  have hne : q ≠ m := by
    rintro rfl
    rcases hq with hq | hq
    · exact (hfresh.operands q hq).1 hm
    · rw [Primitive.isConstant, hfresh.intermediate q hm] at hq
      exact Bool.noConfusion hq
  have hquiet' : ∀ t gate, ¬ (lineCalls (· ∈ line.targets)).allows t (.bind q gate) := by
    intro t gate hallowed
    rcases hq with hq | hq
    · exact (hfresh.operands q hq).2 hallowed.1
    · exact Policy.constant _ hq t gate hallowed
  exact h.run.lowest_distinct hs hne hquiet' hquiet (hfresh.unbound m hm) hlowest hlow rfl

/-- A line with an operation. -/
theorem OpsInOrder.of_recorded {line : OpLine} {op : MagicVarOperation} (h : OpsInOrder s)
    (hs : WellFormed s) (hfresh : line.Fresh s) (hrecorded : OpRecorded line s s' op) :
    OpsInOrder s' := by
  obtain ⟨hwf', hgrows, -⟩ := hrecorded.run.wellFormed hs
  have hguarded := hrecorded.guarded hs hfresh
  refine ⟨fun e he => ?_, fun e he g hg => ?_, ?_⟩
  · rw [hrecorded.ops] at he
    rcases List.mem_append.mp he with he | he
    · exact (h.guarded e he).of_run hrecorded.run hs
    · exact List.mem_singleton.mp he ▸ hguarded
  · rw [hrecorded.ops] at he
    rcases List.mem_append.mp he with he | he
    · obtain ⟨hthere, hrest⟩ := h.operands e he g hg
      exact ⟨hgrows.hasGate hthere, hrest⟩
    · obtain rfl := List.mem_singleton.mp he
      have hnot := hrecorded.operand_not_set hs hfresh hg
      rcases hrecorded.operand_there hs hfresh hg with hold | ⟨hlayer, hthere⟩
      · exact ⟨hgrows.hasGate hold, hnot, .inr (hasGate_iff.mp hold)⟩
      · exact ⟨hthere, hnot, .inl hlayer⟩
  · -- the guard of the line is the sizes of the layers before it
    rw [hrecorded.ops]
    refine List.pairwise_append.mpr ⟨h.follows, List.pairwise_singleton _ _, fun e he e' he' => ?_⟩
    obtain rfl := List.mem_singleton.mp he'
    obtain ⟨r, -, hr, hguard, hsets⟩ := h.guarded e he
    refine ⟨hguard ▸ hr.guardLe, fun g hg hlayer => ?_⟩
    have hthere : HasGate s g := by
      rcases List.mem_append.mp hg with hg | hg
      · exact (h.operands e he g hg).1
      · exact (hsets g hg).2.2.1
    exact hlayer ▸ hasGate_iff.mp hthere

/-- A worksheet that the parser accepts, and the circuit made of it. The magic variables of each
line with an operation are fresh where the parser comes to the line. -/
structure FreshWorksheet (rightFirst : Bool) (prime : ℤ) (pws : List Token)
    (t : PWSCircuitParser) (c : PWSCircuit) : Prop where
  parse : ∃ fuel, (parseLines rightFirst prime fuel pws >>= fun _ => makeOutputLayer) .new =
      some ((), t) ∧
    OpLines rightFirst prime (fun line s => line.Fresh s) fuel pws .new
  circuit : constructCircuit (constructInvertedIndexes t) = some c

theorem FreshWorksheet.inOrder {rightFirst : Bool} {prime : ℤ} {pws : List Token}
    (h : FreshWorksheet rightFirst prime pws t c) : Run anyLine .new t ∧ OpsInOrder t := by
  obtain ⟨fuel, hparse, hlines⟩ := h.parse
  obtain ⟨_, t', hparse, houtput⟩ := bind_inv hparse
  obtain ⟨hrun, hops⟩ := parseLines_keeps (I := OpsInOrder)
    (fun _ _ hfresh => OpLine.Fresh.intermediate hfresh)
    (fun _ _ hs hI hplain => hI.of_plain hs hplain)
    (fun _ _ _ _ hs hI hfresh hrecorded => hI.of_recorded hs hfresh hrecorded)
    wellFormed_new opsInOrder_new hlines hparse
  have ht' := (hrun.wellFormed wellFormed_new).1
  have hlast := makeOutputLayer_run ht' houtput
  exact ⟨hrun.trans hlast.run.of_line, hops.of_plain ht' hlast⟩

/-- The operations of the circuit of such a state. -/
theorem OpsInOrder.orderedOps (h : OpsInOrder t) (hc : CircuitOf c t) :
    OrderedOps c c.parser.magicOps := by
  have hops : c.parser.magicOps = t.magicOps := by
    rw [hc.parser]
    rfl
  rw [hops]
  refine ⟨fun e he => ?_, h.follows⟩
  have hbeyond := (h.guarded e he).beyond hc
  exact ⟨hbeyond.closed, fun g hg => ⟨(hbeyond.sets g hg).1, (hbeyond.sets g hg).2.1⟩,
    fun g hg => (h.operands e he g hg).2⟩

end Worksheets

/-! ## In the order of the dependencies -/

/-- The operation of a step. -/
def EvalStep.operation? : EvalStep → Option MagicVarOperation
  | .gate _ => none
  | .magic op => some op

/-- `evaluate` runs its steps in the order of their dependencies. -/
structure InDependencyOrder (c : PWSCircuit) (p : ℕ) : Prop where
  /-- The steps are those of `evaluate`. -/
  runs : ∀ v, c.evaluate p v = (c.system p).exec c.steps v
  /-- Every gate behind the input layer is computed exactly once, -/
  once : ∀ l n, n < (c.layer (l + 1)).length →
    ∃! k : ℕ, c.steps[k]? = some (.gate ⟨l + 1, n⟩)
  /-- and nothing else is. -/
  only : ∀ pos, .gate pos ∈ c.steps → pos.layer ≠ 0 ∧ pos.name < (c.layer pos.layer).length
  /-- Every operation is run once, in the order of the lines. -/
  operations : c.steps.filterMap EvalStep.operation? = c.parser.magicOps.map Prod.snd
  /-- A step reads the residues that are there at the end, -/
  read : ∀ pre a post, c.steps = pre ++ a :: post → ∀ g ∈ c.reads a, ∀ v,
    (((c.system p).exec pre v).at g).zValue ≡ ((c.evaluate p v).at g).zValue [ZMOD p]
  /-- and leaves those that are there at the end. -/
  written : ∀ pre a post, c.steps = pre ++ a :: post → ∀ g ∈ PWSCircuit.writes a, ∀ v,
    ((c.runStep p a ((c.system p).exec pre v)).at g).zValue ≡
      ((c.evaluate p v).at g).zValue [ZMOD p]
  /-- The operands of an operation are computed before it, -/
  operands : ∀ pre op post, c.steps = pre ++ .magic op :: post → ∀ g ∈ op.operands,
    g.layer ≠ 0 → .gate g ∈ pre
  /-- and nothing before it reads what it sets. -/
  magics : ∀ pre op post, c.steps = pre ++ .magic op :: post → ∀ g ∈ op.sets, ∀ a ∈ pre,
    g ∉ c.reads a

namespace PWSCircuit

variable {c : PWSCircuit} (p : ℕ)

theorem operations_sliceSteps (start stop : List ℕ) :
    (sliceSteps start stop).filterMap EvalStep.operation? = [] := by
  refine List.filterMap_eq_nil_iff.mpr fun a ha => ?_
  obtain ⟨l, n, -, -, rfl⟩ := mem_sliceSteps.mp ha
  rfl

theorem operations_stepsOf (ops : List (List ℕ × MagicVarOperation)) (last : List ℕ) :
    (c.stepsOf ops last).filterMap EvalStep.operation? = ops.map Prod.snd := by
  induction ops generalizing last with
  | nil => exact operations_sliceSteps _ _
  | cons e ops ih =>
      rw [stepsOf, List.filterMap_append, operations_sliceSteps, List.nil_append, List.map_cons,
        ← ih e.1]
      rfl

/-- Ordered operations are run in the order of the dependencies. -/
theorem OrderedOps.inDependencyOrder (h : OrderedOps c c.parser.magicOps) :
    InDependencyOrder c p := by
  have hinOrder : (c.system p).InOrder c.steps := stepsOf_inOrder p h
  have hnil : ∀ e ∈ c.parser.magicOps, GuardLe [] e.1 := fun e _ => GuardLe.nil e.1
  have hgate : ∀ l n, n < (c.layer (l + 1)).length → EvalStep.gate ⟨l + 1, n⟩ ∈ c.steps :=
    fun l n hn => gate_mem_stepsOf (by simp) ((c.sizes_getD (l + 1)).symm ▸ hn)
  refine ⟨c.evaluate_eq_exec p, fun l n hn => ?_, fun pos hpos => ?_, operations_stepsOf _ _,
    fun pre a post hsteps g hg v => ?_, fun pre a post hsteps g hg v => ?_,
    fun pre op post hsteps g hg hlayer => ?_, fun pre op post hsteps g hg => ?_⟩
  · exact hinOrder.unique (hgate l n hn) (List.mem_singleton_self _)
  · rcases mem_stepsOf h hnil hpos with ⟨l, n, -, hn, heq⟩ | ⟨e, -, heq⟩
    · obtain rfl := EvalStep.gate.inj heq
      exact ⟨Nat.succ_ne_zero l, c.sizes_getD (l + 1) ▸ hn⟩
    · exact EvalStep.noConfusion heq
  · rw [← ZMod.intCast_eq_intCast_iff, c.evaluate_eq_exec p]
    exact (hinOrder.read_final hsteps hg v).symm
  · rw [← ZMod.intCast_eq_intCast_iff, c.evaluate_eq_exec p]
    exact (hinOrder.written_final hsteps hg v).symm
  · -- the gate is a step, and none behind the operation
    have hmem : EvalStep.magic op ∈ c.steps := by simp [hsteps]
    rcases mem_stepsOf h hnil hmem with ⟨l, n, -, -, heq⟩ | ⟨e, he, heq⟩
    · exact EvalStep.noConfusion heq
    · obtain rfl := EvalStep.magic.inj heq
      obtain ⟨l, n⟩ := g
      obtain ⟨l, rfl⟩ := Nat.exists_eq_succ_of_ne_zero hlayer
      have hlt := ((h.each e he).operands _ hg).2.resolve_left hlayer
      have hstep := hgate l n (hlt.trans_le ((h.each e he).closed.there l))
      rw [hsteps] at hstep
      refine (List.mem_append.mp hstep).resolve_right fun hlater => ?_
      exact hinOrder.not_written hsteps hg _ hlater (List.mem_singleton_self _)
  · exact hinOrder.not_read hsteps hg

end PWSCircuit

/-- On a worksheet with fresh magic variables `evaluate` computes every gate behind the input layer
once, over operands that are final, and runs each operation behind its operands and before what
reads its magic variables. From inputs with invertible denominators and with invertible divisors the
gates then have the residues of the circuit, layer by layer, over its input layer. -/
theorem evaluate_in_order {rightFirst : Bool} {p : ℕ} [Fact p.Prime] {pws : List Token}
    {t : PWSCircuitParser} {c : PWSCircuit} (h : FreshWorksheet rightFirst p pws t c) :
    InDependencyOrder c p ∧
      (DivisorsInvertible p t → ∀ inputs : List ℚ, (∀ q ∈ inputs, (q.den : ZMod p) ≠ 0) →
        ∀ v, c.evaluate p (c.initializeInputs p inputs [] zeroValues) = v →
          ∀ l n, n < (c.layer l).length →
            ((v l n).zValue : ZMod p) =
              c.layerValues (fun i => ((v 0 i).zValue : ZMod p)) l n) := by
  obtain ⟨hrun, hops⟩ := h.inOrder
  have hc := constructCircuit_inv h.circuit
  have ht := (hrun.wellFormed wellFormed_new).1
  refine ⟨(hops.orderedOps hc).inDependencyOrder p, fun hdivides inputs hinputs v hv l n hn => ?_⟩
  subst hv
  set base : ℕ → ZMod p :=
    fun n => ((c.initializeInputs p inputs [] zeroValues 0 n).zValue : ZMod p)
  have hconstants : ConstantsHold t base := initializeInputs_constants hc hrun inputs
  have hstart : c.EvaluatedTo p (ConstantInput t) base []
      (c.initializeInputs p inputs [] zeroValues) :=
    ⟨initializeInputs_coherent c hinputs, fun l n hn => absurd hn (by simp), fun n _ => rfl⟩
  have hbeyond : ∀ e ∈ c.parser.magicOps, c.Beyond (ConstantInput t) e := fun e he => by
    rw [hc.parser] at he
    exact (hops.guarded e he).beyond hc
  have hsizes : c.Closed c.sizes := hc.sizes ▸ hc.closed ht fun _ g h => ⟨g.boundPrimitive, h⟩
  obtain ⟨hend, -⟩ := hstart.evaluateOps
    (fun base' hbase => hc.divides ht hdivides (hconstants.congr ht hbase)) hbeyond hsizes
  exact hend.computed l n ((c.sizes_getD l).symm ▸ hn)

/-! ## Worksheets -/

section Examples

/-- `!= M V9 X1 x1 X2 I1 Y V10` behind its first word. -/
def differsTokens (x1 : Token) (rest : List Token) : List Token :=
  .word .m :: .var .temp 9 :: .word .x1 :: x1 :: .word .x2 :: .var .input 1 :: .word .y ::
    .var .temp 10 :: rest

/-- `P y = x1 * x2 E` behind its first word. -/
def productTokens (y x1 x2 : Token) (rest : List Token) : List Token :=
  y :: .word .assign :: x1 :: .word .times :: x2 :: .word .polyEnd :: rest

/-- `<I` with two bits for `x1 < I1`, behind its first word. -/
def belowTokens (x1 : Token) : List Token :=
  lessThanIntTokens (.var .temp 2) (.const ['2']) (.var .temp 3) (.var .temp 4) (.var .temp 5) x1
    (.var .input 1) (.var .temp 6) []

/-- `/ y = x / 6` behind its first word. -/
def sixthTokens (y x : Token) (rest : List Token) : List Token :=
  y :: .word .assign :: x :: .word .slash :: .const ['6'] :: rest

/-- `P V7 = I0 * I0 E`, `!=` for `V7` and `I1`, `/ V11 = V7 / 6`, `P V8 = V10 * V11 E` and `<I` for
`V8 < I1`. -/
def interleavedLines : List Token :=
  .word .poly :: productTokens (.var .temp 7) (.var .input 0) (.var .input 0)
    (.word .notEqual :: differsTokens (.var .temp 7)
      (.word .slash :: sixthTokens (.var .temp 11) (.var .temp 7)
        (.word .poly :: productTokens (.var .temp 8) (.var .temp 10) (.var .temp 11)
          (.word .lessThanInt :: belowTokens (.var .temp 8)))))

/-- The steps of `evaluate` on this worksheet, and the residues from the inputs 5 and 3. -/
theorem evaluate_in_order_interleaved : ∃ t c,
    FreshWorksheet false 11 interleavedLines t c ∧
    c.parser.magicOps.map Prod.fst = [[1, 1], [6, 7, 6, 5, 3, 1]] ∧
    InDependencyOrder c 11 ∧
    ∀ v, c.evaluate 11 (c.initializeInputs 11 [5, 3] [] zeroValues) = v →
      ∀ l n, n < (c.layer l).length →
        ((v l n).zValue : ZMod 11) =
          c.layerValues (fun i => ((v 0 i).zValue : ZMod 11)) l n := by
  have h : (do
      let (_, t) ← (parseLines false 11 6 interleavedLines >>= fun _ => makeOutputLayer) .new
      let c ← constructCircuit (constructInvertedIndexes t)
      pure (decide (OpLines false 11 (fun line s => line.Fresh s) 6 interleavedLines .new ∧
        c.parser.magicOps.map Prod.fst = [[1, 1], [6, 7, 6, 5, 3, 1]] ∧ DividesByConstants 11 t))) =
        some true := by
    decide +kernel
  simp only [Option.bind_eq_bind, Option.bind_eq_some_iff] at h
  obtain ⟨⟨_, t⟩, hparse, c, hc, hchecked⟩ := h
  obtain ⟨hlines, hguards, hdivides⟩ := of_decide_eq_true (Option.some.inj hchecked)
  have hsheet : FreshWorksheet false 11 interleavedLines t c := ⟨⟨6, hparse, hlines⟩, hc⟩
  have hinputs : ∀ q ∈ ([5, 3] : List ℚ), (q.den : ZMod 11) ≠ 0 := by decide +kernel
  have hprime : Fact (Nat.Prime 11) := ⟨by norm_num⟩
  obtain ⟨horder, hvalues⟩ := evaluate_in_order (p := 11) hsheet
  have hinvertible : DivisorsInvertible 11 t := by
    obtain ⟨hrun, -⟩ := hsheet.inOrder
    exact hdivides.invertible (hrun.wellFormed wellFormed_new).1 (aligned_of_new hrun)
  exact ⟨t, c, hsheet, hguards, horder, hvalues hinvertible [5, 3] hinputs⟩

/-- `P V7 = V9 * I0 E`, and then `!=` for `I0` and `I1` with the magic variable `V9`. -/
def earlyLines : List Token :=
  .word .poly :: productTokens (.var .temp 7) (.var .temp 9) (.var .input 0)
    (.word .notEqual :: differsTokens (.var .input 0) [])

/-- `P V7 = I0 * I0 E`, `P V8 = V7 * V7 E`, and then `<I` for `V7 < I1`. -/
def reusedLines : List Token :=
  .word .poly :: productTokens (.var .temp 7) (.var .input 0) (.var .input 0)
    (.word .poly :: productTokens (.var .temp 8) (.var .temp 7) (.var .temp 7)
      (.word .lessThanInt :: belowTokens (.var .temp 7)))

/-- The circuit of a worksheet. -/
def circuitOf (prime : ℤ) (fuel : ℕ) (pws : List Token) : Option PWSCircuit := do
  let (_, t) ← (parseLines false prime fuel pws >>= fun _ => makeOutputLayer) .new
  constructCircuit (constructInvertedIndexes t)

/-- A line may read the magic variable of a later one, which has no value yet; and an operation may
leave another representative in an operand that was read before. -/
theorem read_before_final :
    (∃ c pre post, circuitOf 11 3 earlyLines = some c ∧
      c.steps = pre ++ .gate ⟨1, 0⟩ :: post ∧ ⟨0, 0⟩ ∈ c.reads (.gate ⟨1, 0⟩) ∧
      ¬ (((c.system 11).exec pre (c.initializeInputs 11 [5, 3] [] zeroValues)).at ⟨0, 0⟩).zValue ≡
        ((c.evaluate 11 (c.initializeInputs 11 [5, 3] [] zeroValues)).at ⟨0, 0⟩).zValue
          [ZMOD 11]) ∧
    ∃ c pre post, circuitOf 11 4 reusedLines = some c ∧
      c.steps = pre ++ .gate ⟨2, 0⟩ :: post ∧ ⟨1, 0⟩ ∈ c.reads (.gate ⟨2, 0⟩) ∧
      (((c.system 11).exec pre (c.initializeInputs 11 [5, 3] [] zeroValues)).at ⟨1, 0⟩).zValue =
        25 ∧
      ((c.evaluate 11 (c.initializeInputs 11 [5, 3] [] zeroValues)).at ⟨1, 0⟩).zValue = 14 := by
  constructor
  · have h : (do
        let c ← circuitOf 11 3 earlyLines
        let v := c.initializeInputs 11 [5, 3] [] zeroValues
        pure (decide (c.steps = .gate ⟨1, 0⟩ :: c.steps.tail ∧
          ⟨0, 0⟩ ∈ c.reads (.gate ⟨1, 0⟩) ∧ (v.at ⟨0, 0⟩).zValue = 0 ∧
          ((c.evaluate 11 v).at ⟨0, 0⟩).zValue = 6))) = some true := by
      decide +kernel
    simp only [Option.bind_eq_bind, Option.bind_eq_some_iff] at h
    obtain ⟨c, hc, hchecked⟩ := h
    obtain ⟨hsteps, hreads, hbefore, hafter⟩ := of_decide_eq_true (Option.some.inj hchecked)
    refine ⟨c, [], c.steps.tail, hc, hsteps, hreads, ?_⟩
    rw [hafter, System.exec, List.foldl_nil, hbefore]
    decide
  · have h : (do
        let c ← circuitOf 11 4 reusedLines
        let v := c.initializeInputs 11 [5, 3] [] zeroValues
        pure (decide (c.steps = [.gate ⟨1, 0⟩] ++ .gate ⟨2, 0⟩ :: c.steps.drop 2 ∧
          ⟨1, 0⟩ ∈ c.reads (.gate ⟨2, 0⟩) ∧
          (((c.system 11).exec [.gate ⟨1, 0⟩] v).at ⟨1, 0⟩).zValue = 25 ∧
          ((c.evaluate 11 v).at ⟨1, 0⟩).zValue = 14))) = some true := by
      decide +kernel
    simp only [Option.bind_eq_bind, Option.bind_eq_some_iff] at h
    obtain ⟨c, hc, hchecked⟩ := h
    obtain ⟨hsteps, hreads, hbefore, hafter⟩ := of_decide_eq_true (Option.some.inj hchecked)
    exact ⟨c, [.gate ⟨1, 0⟩], c.steps.drop 2, hc, hsteps, hreads, hbefore, hafter⟩

end Examples

end Pepper.Cmtgkr.Pws
