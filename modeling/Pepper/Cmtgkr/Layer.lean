import Pepper.Cmtgkr.Env

/-!
# Layers of a circuit

Gates of `circuit_layer.cpp`: their wiring, their two values (a rational and a
residue) and how a layer is evaluated from the one below. `computeGateValue_integer`
says that integer values stay integers and that the residue of a gate is its operation
on the residues below. `computeWirePredicates` is the verifier's pass over the wiring;
`cast_computeWirePredicates` reads it as two sums of Lagrange polynomials, and
`layer_extensions` gives the multilinear extensions of a layer at every size.
-/

set_option autoImplicit false

open Pepper.Common.Gmp Pepper.Foundations.Loop Pepper.Foundations.Multilinear
open Pepper.Cmtgkr.Env

namespace Pepper.Cmtgkr.Layer

/-! ## Values -/

/-- `mpz_sizeinbase(_, 2)`. -/
def sizeInBase2 (val : ℤ) : ℕ := Nat.log2 val.natAbs + 1

/-- `modIfNeeded` on an integer: reduction of values that have grown long. -/
def modIfNeeded (val prime : ℤ) (slack : ℕ) : ℤ :=
  if sizeInBase2 val ≥ slack * sizeInBase2 prime - 1 then val % prime else val

/-- `modIfNeeded` on a rational: numerator and denominator, each by itself. -/
def modIfNeededQ (val : ℚ) (prime : ℤ) (slack : ℕ) : ℚ :=
  Rat.divInt (modIfNeeded val.num prime slack) (modIfNeeded val.den prime slack)

/-- `convert_to_z`. -/
def convertToZ (z : ℤ) (q : ℚ) (prime : ℤ) : ℤ := mpzInvert z q.den prime * q.num % prime

/-- `toTrueNumber`. -/
def toTrueNumber (a halfPrime prime : ℤ) : ℤ := if halfPrime < a then a - prime else a

/-- The two values of a gate. -/
structure Gate where
  qValue : ℚ
  zValue : ℤ

/-- `Gate::canonicalize`. -/
def Gate.canonicalize (prime : ℤ) (g : Gate) : Gate where
  qValue := modIfNeededQ g.qValue prime 2
  zValue := modIfNeeded g.zValue prime 2

/-- `Gate::setValue` of a rational. -/
def Gate.setValue (prime : ℤ) (g : Gate) (value : ℚ) : Gate :=
  Gate.canonicalize prime { qValue := value, zValue := convertToZ g.zValue value prime }

/-! ## Wiring -/

/-- `GateType`. -/
inductive GateType where
  | add
  | mul
  | divInt
deriving DecidableEq, Repr

/-- `GateWiring`. -/
structure GateWiring where
  type : GateType
  in1 : ℕ
  in2 : ℕ
deriving DecidableEq, Repr

/-- The default gate. -/
instance : Inhabited GateWiring := ⟨⟨.add, 0, 0⟩⟩

/-- `shouldBeTreatedAs`. -/
def GateWiring.shouldBeTreatedAs (w : GateWiring) (gateType : GateType) : Bool :=
  gateType == w.type || (gateType == .mul && w.type == .divInt) ||
    (gateType == .divInt && w.type == .mul)

/-- `applyGateOperation`. -/
def GateWiring.applyGateOperation (w : GateWiring) (op1 op2 prime : ℤ) : ℤ :=
  let rop :=
    match w.type with
    | .add => if op1 = 0 then op2 else if op2 = 0 then op1 else op1 + op2
    | _ => if op1 = 0 ∨ op2 = 0 then 0 else op1 * op2
  modIfNeeded rop prime 2

/-- `Gate::computeGateValue`; the residue is computed last, over the one that `setValue`
leaves. -/
def Gate.computeGateValue (prime : ℤ) (w : GateWiring) (g op1 op2 : Gate) : Gate :=
  let finish (out : ℚ) : Gate :=
    { g.setValue prime out with
      zValue := w.applyGateOperation op1.zValue op2.zValue prime }
  match w.type with
  | .add =>
      finish
        (if op1.qValue = 0 then op2.qValue
        else if op2.qValue = 0 then op1.qValue
        else op1.qValue + op2.qValue)
  | .mul =>
      if op1.qValue = 0 ∨ op2.qValue = 0 then { qValue := 0, zValue := 0 }
      else finish (op1.qValue * op2.qValue)
  | .divInt =>
      let divisor := toTrueNumber (mpzInvert 0 op2.zValue prime) (prime.tdiv 2) prime
      finish (op1.qValue / divisor)

/-! ## Layers -/

/-- A function that evaluates the extension of a wiring predicate, if one is supplied. -/
abbrev MleFn := Vec → ℕ → ℕ → ℕ → ℕ → ℤ → ℤ

/-- `CircuitLayer`: its gates and the supplied predicates. -/
structure CircuitLayer where
  gates : List GateWiring
  addFn : Option MleFn
  mulFn : Option MleFn

namespace CircuitLayer

/-- `size`. -/
def size (l : CircuitLayer) : ℕ := l.gates.length

/-- `logSize`. -/
def logSize (l : CircuitLayer) : ℕ := log2i l.size

/-- `operator[]`. -/
def gate (l : CircuitLayer) (idx : ℕ) : GateWiring := l.gates.getD idx default

/-- One layer of `Circuit::evaluate`, from the values `prev` of the layer before. -/
def evaluate (l : CircuitLayer) (prime : ℤ) (prev old : ℕ → Gate) : ℕ → Gate :=
  forLoop l.size
    (fun j v => Function.update v j
      ((v j).computeGateValue prime (l.gate j) (prev (l.gate j).in1) (prev (l.gate j).in2)))
    old

/-- The sum over the gates of one type, by brute force. -/
def wireSum (l : CircuitLayer) (gateType : GateType) (pChi w1Chi w2Chi : Vec) (prime : ℤ) : ℤ :=
  forLoop l.size
    (fun i acc =>
      if (l.gate i).shouldBeTreatedAs gateType then
        acc + modmult (pChi i * w1Chi (l.gate i).in1) (w2Chi (l.gate i).in2) prime
      else acc)
    0 % prime

/-- `computeWirePredicates`: the values of the two wiring predicates at `rand`. -/
def computeWirePredicates (l : CircuitLayer) (rand : Vec) (inputLayerSize : ℕ) (prime : ℤ) :
    ℤ × ℤ :=
  let mi := l.logSize
  let mip1 := log2i inputLayerSize
  let pChi := computeChiAll l.size zeroVec mi rand prime
  let w1Chi := computeChiAll inputLayerSize zeroVec mip1 (fun i => rand (mi + i)) prime
  let w2Chi := computeChiAll inputLayerSize zeroVec mip1 (fun i => rand (mi + mip1 + i)) prime
  (match l.addFn with
    | some f => f rand mi mip1 l.size inputLayerSize prime
    | none => l.wireSum .add pChi w1Chi w2Chi prime,
    match l.mulFn with
    | some f => f rand mi mip1 l.size inputLayerSize prime
    | none => l.wireSum .mul pChi w1Chi w2Chi prime)

end CircuitLayer

/-! ## Integer values -/

section Integer

variable {p : ℕ}

theorem cast_modIfNeeded (val : ℤ) (slack : ℕ) :
    ((modIfNeeded val p slack : ℤ) : ZMod p) = val := by
  rw [modIfNeeded]
  split_ifs
  · exact ZMod.intCast_mod val p
  · rfl

/-- A gate with an integer value and its residue. -/
def Gate.IsInteger (p : ℕ) (g : Gate) : Prop :=
  g.qValue.den = 1 ∧ (g.zValue : ZMod p) = g.qValue.num

theorem modIfNeededQ_integer [Fact p.Prime] {q : ℚ} (hq : q.den = 1) :
    (modIfNeededQ q p 2).den = 1 ∧ ((modIfNeededQ q p 2).num : ZMod p) = q.num := by
  have hp := (Fact.out : p.Prime).two_le
  have hden : modIfNeeded (q.den : ℤ) p 2 = 1 := by
    have hlog : 1 ≤ Nat.log2 p := (Nat.le_log2 (by omega)).2 (by omega)
    have hone : Nat.log2 1 = 0 := by decide
    rw [hq, modIfNeeded, if_neg]
    · rfl
    · simp only [sizeInBase2, Int.natAbs_natCast, hone]
      omega
  have hint : modIfNeededQ q p 2 = ((modIfNeeded q.num p 2 : ℤ) : ℚ) := by
    rw [modIfNeededQ, hden, Rat.divInt_one]
  rw [hint, Rat.den_intCast, Rat.num_intCast]
  exact ⟨rfl, cast_modIfNeeded _ _⟩

theorem cast_convertToZ [Fact p.Prime] (z : ℤ) {q : ℚ} (hq : q.den = 1) :
    ((convertToZ z q p : ℤ) : ZMod p) = q.num := by
  have hone : (((q.den : ℕ) : ℤ) : ZMod p) ≠ 0 := by
    rw [hq]
    simp
  rw [convertToZ, ZMod.intCast_mod, Int.cast_mul, cast_mpzInvert _ _ hone, hq]
  simp

/-- Inputs are set to integers. -/
theorem setValue_integer [Fact p.Prime] (g : Gate) (n : ℤ) : (g.setValue p n).IsInteger p := by
  have hden : (n : ℚ).den = 1 := Rat.den_intCast n
  obtain ⟨h1, h2⟩ := modIfNeededQ_integer (p := p) hden
  refine ⟨h1, ?_⟩
  show ((modIfNeeded (convertToZ g.zValue n p) p 2 : ℤ) : ZMod p) = _
  rw [cast_modIfNeeded, cast_convertToZ _ hden]
  exact h2.symm

/-- The operation of a gate in a ring. -/
def GateWiring.eval {R : Type*} [Add R] [Mul R] (w : GateWiring) (a b : R) : R :=
  match w.type with
  | .add => a + b
  | _ => a * b

theorem cast_applyGateOperation (w : GateWiring) (a b : ℤ) :
    ((w.applyGateOperation a b p : ℤ) : ZMod p) = w.eval (a : ZMod p) (b : ZMod p) := by
  rw [GateWiring.applyGateOperation, cast_modIfNeeded, GateWiring.eval]
  cases w.type with
  | add =>
      dsimp only
      split_ifs with ha hb
      · simp [ha]
      · simp [hb]
      · push_cast
        rfl
  | mul =>
      dsimp only
      split_ifs with h
      · rcases h with ha | hb
        · simp [ha]
        · simp [hb]
      · push_cast
        rfl
  | divInt =>
      dsimp only
      split_ifs with h
      · rcases h with ha | hb
        · simp [ha]
        · simp [hb]
      · push_cast
        rfl

/-- Addition and multiplication gates over integers: the residue is the operation on the
residues, and the gate is again an integer with its residue. -/
theorem computeGateValue_integer [Fact p.Prime] (w : GateWiring) (hw : w.type ≠ .divInt)
    (g : Gate) {op1 op2 : Gate} (h1 : op1.IsInteger p) (h2 : op2.IsInteger p) :
    ((Gate.computeGateValue p w g op1 op2).zValue : ZMod p) =
        w.eval (op1.zValue : ZMod p) (op2.zValue : ZMod p) ∧
      (Gate.computeGateValue p w g op1 op2).IsInteger p := by
  -- a result without a denominator is kept as it is
  have hint : ∀ q : ℚ, q.den = 1 → (w.eval (op1.zValue : ZMod p) (op2.zValue : ZMod p)) = q.num →
      Gate.IsInteger p { g.setValue p q with
        zValue := w.applyGateOperation op1.zValue op2.zValue p } := by
    intro q hq hvalue
    obtain ⟨hden, hnum⟩ := modIfNeededQ_integer (p := p) hq
    exact ⟨hden, (cast_applyGateOperation w _ _).trans (hvalue.trans hnum.symm)⟩
  have hq1 : op1.qValue = (op1.qValue.num : ℚ) := (Rat.den_eq_one_iff _).1 h1.1 |>.symm
  have hq2 : op2.qValue = (op2.qValue.num : ℚ) := (Rat.den_eq_one_iff _).1 h2.1 |>.symm
  cases htype : w.type with
  | divInt => exact absurd htype hw
  | add =>
      have heval : w.eval (op1.zValue : ZMod p) (op2.zValue : ZMod p) =
          op1.zValue + op2.zValue := by rw [GateWiring.eval, htype]
      -- the shortcut for a zero operand gives the sum all the same
      have hsum : (if op1.qValue = 0 then op2.qValue
          else if op2.qValue = 0 then op1.qValue
          else op1.qValue + op2.qValue) = ((op1.qValue.num + op2.qValue.num : ℤ) : ℚ) := by
        rw [Int.cast_add, ← hq1, ← hq2]
        split_ifs with ha hb
        · rw [ha, zero_add]
        · rw [hb, add_zero]
        · rfl
      rw [Gate.computeGateValue, htype]
      dsimp only
      rw [hsum]
      refine ⟨cast_applyGateOperation w _ _, hint _ (Rat.den_intCast _) ?_⟩
      rw [heval, Rat.num_intCast, Int.cast_add, h1.2, h2.2]
  | mul =>
      have heval : w.eval (op1.zValue : ZMod p) (op2.zValue : ZMod p) =
          op1.zValue * op2.zValue := by rw [GateWiring.eval, htype]
      rw [Gate.computeGateValue, htype]
      dsimp only
      split_ifs with hzero
      · -- a zero operand: the gate is set to zero without a reduction
        refine ⟨?_, rfl, by simp⟩
        rw [heval, h1.2, h2.2]
        rcases hzero with ha | hb
        · simp [ha]
        · simp [hb]
      · have hmul : op1.qValue * op2.qValue = ((op1.qValue.num * op2.qValue.num : ℤ) : ℚ) := by
          rw [Int.cast_mul, ← hq1, ← hq2]
        rw [hmul]
        refine ⟨cast_applyGateOperation w _ _, hint _ (Rat.den_intCast _) ?_⟩
        rw [heval, Rat.num_intCast, Int.cast_mul, h1.2, h2.2]

end Integer

/-! ## Adjacent layers -/

/-- A layer of gates over a layer of `inSize` gates, every input in range. -/
structure LayerPair where
  out : CircuitLayer
  inSize : ℕ
  in_pos : 0 < inSize
  out_pos : 0 < out.size
  inRange : ∀ i < out.size, (out.gate i).in1 < inSize ∧ (out.gate i).in2 < inSize

namespace LayerPair

/-- Coordinates of an output gate. -/
def mi (L : LayerPair) : ℕ := L.out.logSize

/-- Coordinates of an input gate. -/
def mip1 (L : LayerPair) : ℕ := log2i L.inSize

theorem outSize_le (L : LayerPair) : L.out.size ≤ 2 ^ L.mi := le_two_pow_log2i L.out.size

theorem inSize_le (L : LayerPair) : L.inSize ≤ 2 ^ L.mip1 := le_two_pow_log2i L.inSize

theorem in1_lt (L : LayerPair) {i : ℕ} (hi : i < L.out.size) :
    (L.out.gate i).in1 < 2 ^ L.mip1 :=
  (L.inRange i hi).1.trans_le L.inSize_le

theorem in2_lt (L : LayerPair) {i : ℕ} (hi : i < L.out.size) :
    (L.out.gate i).in2 < 2 ^ L.mip1 :=
  (L.inRange i hi).2.trans_le L.inSize_le

/-- One gate that doubles one input. -/
def double : LayerPair where
  out := { gates := [⟨.add, 0, 0⟩], addFn := none, mulFn := none }
  inSize := 1
  in_pos := by decide
  out_pos := by decide
  inRange := by decide

end LayerPair

theorem CircuitLayer.evaluate_apply (l : CircuitLayer) (prime : ℤ) (prev old : ℕ → Gate) {j : ℕ}
    (hj : j < l.size) :
    l.evaluate prime prev old j =
      (old j).computeGateValue prime (l.gate j) (prev (l.gate j).in1) (prev (l.gate j).in2) := by
  rw [evaluate]
  exact (forLoop_update_apply l.size (fun j g => Gate.computeGateValue prime (l.gate j) g
    (prev (l.gate j).in1) (prev (l.gate j).in2)) old j).trans (if_pos hj)

/-! ## Wiring predicates -/

section Predicates

variable {p : ℕ} (L : LayerPair)

/-- The Lagrange polynomial of the wires of gate `g` at a point of all coordinates. -/
def wireLagrange (r : ℕ → ZMod p) (g : ℕ) : ZMod p :=
  lagrange r L.mi g * lagrange (shiftPoint L.mi r) L.mip1 (L.out.gate g).in1 *
    lagrange (shiftPoint (L.mi + L.mip1) r) L.mip1 (L.out.gate g).in2

/-- The extension of the wiring predicate of one gate type. -/
def wirePredicate (gateType : GateType) (r : ℕ → ZMod p) : ZMod p :=
  ∑ g ∈ Finset.range L.out.size,
    if (L.out.gate g).shouldBeTreatedAs gateType then wireLagrange L r g else 0

/-- A supplied function evaluates the extension of its predicate. -/
def SuppliedPredicates (p : ℕ) (rand : Vec) : Prop :=
  (∀ f, L.out.addFn = some f →
    (f rand L.mi L.mip1 L.out.size L.inSize p : ZMod p) =
      wirePredicate L .add (castVec p rand)) ∧
  ∀ f, L.out.mulFn = some f →
    (f rand L.mi L.mip1 L.out.size L.inSize p : ZMod p) =
      wirePredicate L .mul (castVec p rand)

theorem suppliedPredicates_of_none (hadd : L.out.addFn = none) (hmul : L.out.mulFn = none)
    (rand : Vec) : SuppliedPredicates L p rand := by
  constructor
  · intro f hf
    rw [hadd] at hf
    exact absurd hf (by simp)
  · intro f hf
    rw [hmul] at hf
    exact absurd hf (by simp)

theorem cast_wireSum (gateType : GateType) (rand : Vec) :
    (L.out.wireSum gateType (computeChiAll L.out.size zeroVec L.mi rand p)
        (computeChiAll L.inSize zeroVec L.mip1 (fun i => rand (L.mi + i)) p)
        (computeChiAll L.inSize zeroVec L.mip1 (fun i => rand (L.mi + L.mip1 + i)) p) p : ZMod p) =
      wirePredicate L gateType (castVec p rand) := by
  rw [CircuitLayer.wireSum, ZMod.intCast_mod]
  refine forLoop_induction
    (P := fun k (x : ℤ) => (x : ZMod p) = ∑ g ∈ Finset.range k,
      if (L.out.gate g).shouldBeTreatedAs gateType then wireLagrange L (castVec p rand) g else 0)
    (by simp) ?_
  intro g hg x hx
  obtain ⟨h1, h2⟩ := L.inRange g hg
  rw [Finset.sum_range_succ, ← hx]
  split_ifs
  · rw [Int.cast_add, cast_modmult, Int.cast_mul,
      cast_computeChiAll _ _ L.outSize_le hg, cast_computeChiAll _ _ L.inSize_le h1,
      cast_computeChiAll _ _ L.inSize_le h2]
    rfl
  · rw [add_zero]

theorem cast_computeWirePredicates {rand : Vec} (hfn : SuppliedPredicates L p rand) :
    ((L.out.computeWirePredicates rand L.inSize p).1 : ZMod p) =
        wirePredicate L .add (castVec p rand) ∧
      ((L.out.computeWirePredicates rand L.inSize p).2 : ZMod p) =
        wirePredicate L .mul (castVec p rand) := by
  rw [CircuitLayer.computeWirePredicates]
  constructor
  · cases hadd : L.out.addFn with
    | none => exact cast_wireSum L .add rand
    | some f => exact hfn.1 f hadd
  · cases hmul : L.out.mulFn with
    | none => exact cast_wireSum L .mul rand
    | some f => exact hfn.2 f hmul

/-- The final check of the verifier weighs every gate's operation by its wires. -/
theorem wirePredicate_eval (r : ℕ → ZMod p) (a b : ZMod p) :
    (a + b) * wirePredicate L .add r + a * b * wirePredicate L .mul r =
      ∑ g ∈ Finset.range L.out.size, wireLagrange L r g * (L.out.gate g).eval a b := by
  rw [wirePredicate, wirePredicate, Finset.mul_sum, Finset.mul_sum, ← Finset.sum_add_distrib]
  apply Finset.sum_congr rfl
  intro g _
  rw [GateWiring.eval, GateWiring.shouldBeTreatedAs, GateWiring.shouldBeTreatedAs]
  cases (L.out.gate g).type <;> simp <;> ring

end Predicates

/-! ## Extensions of a layer -/

section Extensions

variable {p : ℕ} (L : LayerPair)

/-- The wiring relation of one gate type: gate `o` is of that type and reads `i1` and `i2`. -/
def CircuitLayer.wiringRelation (p : ℕ) (l : CircuitLayer) (gateType : GateType)
    (o i1 i2 : ℕ) : ZMod p :=
  if o < l.size ∧ (l.gate o).shouldBeTreatedAs gateType ∧ (l.gate o).in1 = i1 ∧
      (l.gate o).in2 = i2 then 1
  else 0

/-- The multilinear extension of a wiring relation, over all three labels. -/
def wiringExtension (gateType : GateType) (r : ℕ → ZMod p) : ZMod p :=
  ∑ o ∈ Finset.range (2 ^ L.mi), ∑ i1 ∈ Finset.range (2 ^ L.mip1),
    ∑ i2 ∈ Finset.range (2 ^ L.mip1),
      L.out.wiringRelation p gateType o i1 i2 *
        (lagrange r L.mi o * lagrange (shiftPoint L.mi r) L.mip1 i1 *
          lagrange (shiftPoint (L.mi + L.mip1) r) L.mip1 i2)

/-- A gate contributes only at the labels of its two wires. -/
theorem sum_wiringRelation {o : ℕ} (ho : o < L.out.size) (gateType : GateType)
    (f : ℕ → ℕ → ZMod p) :
    (∑ i1 ∈ Finset.range (2 ^ L.mip1), ∑ i2 ∈ Finset.range (2 ^ L.mip1),
        L.out.wiringRelation p gateType o i1 i2 * f i1 i2) =
      if (L.out.gate o).shouldBeTreatedAs gateType then
        f (L.out.gate o).in1 (L.out.gate o).in2
      else 0 := by
  rw [Finset.sum_eq_single_of_mem _ (Finset.mem_range.2 (L.in1_lt ho)),
    Finset.sum_eq_single_of_mem _ (Finset.mem_range.2 (L.in2_lt ho))]
  · simp [CircuitLayer.wiringRelation, ho]
  · intro i2 _ hne
    simp [CircuitLayer.wiringRelation, hne.symm]
  · intro i1 _ hne
    apply Finset.sum_eq_zero
    intro i2 _
    simp [CircuitLayer.wiringRelation, hne.symm]

theorem wirePredicate_eq_wiringExtension (gateType : GateType) (r : ℕ → ZMod p) :
    wirePredicate L gateType r = wiringExtension L gateType r := by
  rw [wirePredicate, wiringExtension]
  -- labels beyond the layer carry no gate
  refine Eq.trans ?_ (Finset.sum_subset (Finset.range_mono L.outSize_le) ?_)
  · apply Finset.sum_congr rfl
    intro o ho
    rw [sum_wiringRelation L (Finset.mem_range.1 ho) gateType]
    rfl
  · intro o _ ho
    have hbeyond : ¬o < L.out.size := by simpa using ho
    simp [CircuitLayer.wiringRelation, hbeyond]

/-- Both evaluations of a layer's values are the residue of the multilinear extension of
the values padded with zeros, at every size; and the wiring predicates computed gate by
gate are the extensions of the two wiring relations. -/
theorem layer_extensions [Fact p.Prime] (values rop z rand : Vec) :
    (evaluateVChis L.out.size values (computeChiAll L.out.size rop L.out.logSize z p) p =
        evaluateVi L.out.size values z p ∧
      0 ≤ evaluateVi L.out.size values z p ∧ evaluateVi L.out.size values z p < p ∧
      (evaluateVi L.out.size values z p : ZMod p) =
        ∑ i ∈ Finset.range L.out.size,
          (values i : ZMod p) * lagrange (castVec p z) L.out.logSize i ∧
      (evaluateVi L.out.size values z p : ZMod p) =
        extension (padded p L.out.size values) L.out.logSize (castVec p z)) ∧
    (L.out.addFn = none →
      ((L.out.computeWirePredicates rand L.inSize p).1 : ZMod p) =
        wiringExtension L .add (castVec p rand)) ∧
    (L.out.mulFn = none →
      ((L.out.computeWirePredicates rand L.inSize p).2 : ZMod p) =
        wiringExtension L .mul (castVec p rand)) := by
  have hchis := cast_evaluateVChis L.out.size values
    (computeChiAll L.out.size rop L.out.logSize z p) z
    (fun k hk => cast_computeChiAll rop z L.outSize_le hk)
  have hvi := cast_evaluateVi (p := p) L.out.size values z
  obtain ⟨hlow, hhigh⟩ := evaluateVi_range (p := p) L.out_pos values z
  refine ⟨⟨?_, hlow, hhigh, ?_, hvi⟩, ?_, ?_⟩
  · rw [evaluateVChis] at hchis ⊢
    rw [← Int.emod_eq_of_lt hlow hhigh, ← Int.emod_emod_of_dvd _ (dvd_refl (p : ℤ))]
    exact (ZMod.intCast_eq_intCast_iff _ _ p).1 (hchis.trans hvi.symm)
  · rw [hvi, extension_padded, CircuitLayer.logSize]
  · intro hadd
    rw [CircuitLayer.computeWirePredicates, hadd, ← wirePredicate_eq_wiringExtension]
    exact cast_wireSum L .add rand
  · intro hmul
    rw [CircuitLayer.computeWirePredicates, hmul, ← wirePredicate_eq_wiringExtension]
    exact cast_wireSum L .mul rand

/-- Three gates over five inputs. -/
def threeGates : LayerPair where
  out := { gates := [⟨.add, 0, 1⟩, ⟨.mul, 1, 4⟩, ⟨.add, 3, 2⟩], addFn := none, mulFn := none }
  inSize := 5
  in_pos := by decide
  out_pos := by decide
  inRange := by decide

/-- The values `5`, `6`, `7` of the gates, with coordinates of the labels from `2` on. -/
theorem layer_extensions_three :
    evaluateVChis 3 (fun i => i + 5) (computeChiAll 3 zeroVec 2 (fun i => i + 2) 101) 101 =
        evaluateVi 3 (fun i => i + 5) (fun i => i + 2) 101 ∧
      ((threeGates.out.computeWirePredicates (fun i => i + 2) 5 101).1 : ZMod 101) =
        wiringExtension threeGates .add (castVec 101 fun i => i + 2) ∧
      ((threeGates.out.computeWirePredicates (fun i => i + 2) 5 101).2 : ZMod 101) =
        wiringExtension threeGates .mul (castVec 101 fun i => i + 2) := by
  have : Fact (Nat.Prime 101) := ⟨by norm_num⟩
  obtain ⟨⟨hvalues, -⟩, hadd, hmul⟩ :=
    layer_extensions (p := 101) threeGates (fun i => i + 5) zeroVec (fun i => i + 2) fun i => i + 2
  exact ⟨hvalues, hadd rfl, hmul rfl⟩

end Extensions

end Pepper.Cmtgkr.Layer
