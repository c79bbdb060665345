import Pepper.Cmtgkr.PwsCircuit

/-!
# The two values of a gate

A gate holds a rational and a residue, and different code updates them. `Coherent` says
that the denominator of the rational is invertible modulo the prime and that the residue
is the class of the rational. `GateOp` are the operations on a gate; each keeps
`Coherent` where its own denominators are invertible (`GateOp.coherent`), and
`run_coherent` follows a sequence of them from a fresh circuit. `Coherent.sent` is what
this means for the outputs: the rational that is sent and the residue that is proved are
the same field element, also after the receiver has set its own gate to it.
-/

set_option autoImplicit false

open Pepper.Common.Gmp Pepper.Cmtgkr.Layer

namespace Pepper.Cmtgkr.Pws

variable {p : ℕ}

/-- The residue of a gate is its rational. -/
structure Coherent (p : ℕ) (g : Gate) : Prop where
  den : (g.qValue.den : ZMod p) ≠ 0
  value : (g.zValue : ZMod p) = g.qValue.num * (g.qValue.den : ZMod p)⁻¹

/-! ## Operations -/

/-- The operations of the code on the gate at a position. -/
inductive GateOp where
  | setValue (pos : GatePosition) (value : ℚ)
  /-- Of an `mpz_t`, and of an `int`. -/
  | setValueZ (pos : GatePosition) (value : ℤ)
  | computeGateValue (type : GateType) (pos op1 op2 : GatePosition)
  | canonicalize (pos : GatePosition)
  | toTrueResidue (pos : GatePosition)
  | toTrueRational (pos : GatePosition)
deriving DecidableEq

namespace GateOp

/-- The values after an operation. -/
def step (prime : ℤ) (v : Values) : GateOp → Values
  | .setValue pos value => v.set pos ((v.at pos).setValue prime value)
  | .setValueZ pos value => v.set pos (Pws.setValueZ prime value)
  | .computeGateValue type pos op1 op2 =>
      v.set pos
        ((v.at pos).computeGateValue prime ⟨type, op1.name, op2.name⟩ (v.at op1) (v.at op2))
  | .canonicalize pos => v.set pos ((v.at pos).canonicalize prime)
  | .toTrueResidue pos => Pws.toTrueResidue prime pos v
  | .toTrueRational pos => Pws.toTrueRational prime pos v

/-- The denominators that an operation brings in are invertible: that of the rational a
gate is set to, and the divisor of an integer division. -/
def Invertible (p : ℕ) (v : Values) : GateOp → Prop
  | .setValue _ value => (value.den : ZMod p) ≠ 0
  | .computeGateValue .divInt _ _ op2 => ((v.at op2).zValue : ZMod p) ≠ 0
  | _ => True

end GateOp

/-- The values after a sequence of operations. -/
def runOps (prime : ℤ) : List GateOp → Values → Values
  | [], v => v
  | op :: ops, v => runOps prime ops (op.step prime v)

/-- Every denominator stays invertible along a sequence of operations. -/
def AllInvertible (p : ℕ) : List GateOp → Values → Prop
  | [], _ => True
  | op :: ops, v => op.Invertible p v ∧ AllInvertible p ops (op.step p v)

/-! ## One gate -/

section Field

variable [Fact p.Prime]

/-- The value of a coherent gate as the class of a rational. -/
theorem coherent_iff (g : Gate) :
    Coherent p g ↔ (g.qValue.den : ZMod p) ≠ 0 ∧ (g.zValue : ZMod p) = (g.qValue : ZMod p) := by
  rw [Rat.cast_def, div_eq_mul_inv]
  exact ⟨fun h => ⟨h.den, h.value⟩, fun h => ⟨h.1, h.2⟩⟩

theorem coherent_zero : Coherent p ⟨0, 0⟩ := by
  rw [coherent_iff]
  simp

/-- A divisor of an invertible number is invertible. -/
theorem invertible_of_dvd {a b : ℕ} (hab : a ∣ b) (hb : (b : ZMod p) ≠ 0) : (a : ZMod p) ≠ 0 := by
  obtain ⟨c, rfl⟩ := hab
  intro ha
  apply hb
  rw [Nat.cast_mul, ha, zero_mul]

theorem invertible_divInt (a : ℤ) {b : ℤ} (hb : (b : ZMod p) ≠ 0) :
    ((Rat.divInt a b).den : ZMod p) ≠ 0 := by
  obtain ⟨c, hc⟩ := Rat.den_dvd a b
  intro hden
  apply hb
  rw [hc, Int.cast_mul, Int.cast_natCast, hden, zero_mul]

/-- Reduction of numerator and denominator keeps the class. -/
theorem modIfNeededQ_cast (slack : ℕ) {q : ℚ} (hq : (q.den : ZMod p) ≠ 0) :
    ((modIfNeededQ q p slack).den : ZMod p) ≠ 0 ∧
      ((modIfNeededQ q p slack : ℚ) : ZMod p) = (q : ZMod p) := by
  have hden : ((modIfNeeded (q.den : ℤ) p slack : ℤ) : ZMod p) ≠ 0 := by
    rw [cast_modIfNeeded, Int.cast_natCast]
    exact hq
  refine ⟨invertible_divInt _ hden, ?_⟩
  rw [modIfNeededQ, Rat.cast_divInt_of_ne_zero _ hden, cast_modIfNeeded, cast_modIfNeeded,
    Int.cast_natCast, Rat.cast_def]

theorem cast_convertToZ_of_ne_zero (z : ℤ) {q : ℚ} (hq : (q.den : ZMod p) ≠ 0) :
    ((convertToZ z q p : ℤ) : ZMod p) = (q : ZMod p) := by
  have hden : (((q.den : ℕ) : ℤ) : ZMod p) ≠ 0 := by
    rw [Int.cast_natCast]
    exact hq
  rw [convertToZ, ZMod.intCast_mod, Int.cast_mul, cast_mpzInvert _ _ hden, Int.cast_natCast,
    Rat.cast_def, div_eq_mul_inv, mul_comm]

theorem Coherent.canonicalize {g : Gate} (hg : Coherent p g) :
    Coherent p (g.canonicalize p) := by
  rw [coherent_iff] at hg ⊢
  obtain ⟨hden, hvalue⟩ := modIfNeededQ_cast 2 hg.1
  refine ⟨hden, ?_⟩
  rw [Gate.canonicalize]
  dsimp only
  rw [cast_modIfNeeded, hvalue, hg.2]

theorem coherent_setValue (g : Gate) {value : ℚ} (hvalue : (value.den : ZMod p) ≠ 0) :
    Coherent p (g.setValue p value) := by
  apply Coherent.canonicalize
  rw [coherent_iff]
  exact ⟨hvalue, cast_convertToZ_of_ne_zero _ hvalue⟩

theorem coherent_setValueZ (value : ℤ) : Coherent p (setValueZ p value) := by
  apply Coherent.canonicalize
  rw [coherent_iff]
  simp

theorem cast_toTrueNumber (a : ℤ) (half : ℤ) :
    ((toTrueNumber a half p : ℤ) : ZMod p) = a := by
  rw [toTrueNumber]
  split_ifs
  · simp
  · rfl

/-- A gate whose rational is set first and whose residue is then computed by itself. -/
theorem coherent_finish (g : Gate) {value : ℚ} {z : ℤ} (hden : (value.den : ZMod p) ≠ 0)
    (hz : (z : ZMod p) = (value : ZMod p)) :
    Coherent p { g.setValue p value with zValue := z } := by
  have hset := (coherent_iff _).1 (coherent_setValue g hden)
  have hvalue := (modIfNeededQ_cast 2 hden).2
  rw [coherent_iff]
  refine ⟨hset.1, hz.trans hvalue.symm⟩

/-- The shortcuts of an addition for operands that are zero. -/
theorem add_shortcut (a b : ℚ) : (if a = 0 then b else if b = 0 then a else a + b) = a + b := by
  split_ifs with ha hb
  · rw [ha, zero_add]
  · rw [hb, add_zero]
  · rfl

/-- The rational of a gate and its residue are computed by different code from coherent
operands; the divisor of an integer division is the true number of an inverse. -/
theorem coherent_computeGateValue (w : GateWiring) (g : Gate) {op1 op2 : Gate}
    (h1 : Coherent p op1) (h2 : Coherent p op2)
    (hdiv : w.type = .divInt → (op2.zValue : ZMod p) ≠ 0) :
    Coherent p (g.computeGateValue p w op1 op2) := by
  obtain ⟨hden1, hvalue1⟩ := (coherent_iff op1).1 h1
  obtain ⟨hden2, hvalue2⟩ := (coherent_iff op2).1 h2
  have hz := cast_applyGateOperation (p := p) w op1.zValue op2.zValue
  rw [GateWiring.eval] at hz
  have hproduct : ((op1.qValue.den * op2.qValue.den : ℕ) : ZMod p) ≠ 0 := by
    rw [Nat.cast_mul]
    exact mul_ne_zero hden1 hden2
  rw [Gate.computeGateValue]
  cases htype : w.type with
  | add =>
      simp only [htype] at hz
      dsimp only
      -- the sum of a zero is the other operand
      rw [add_shortcut]
      apply coherent_finish g (invertible_of_dvd (Rat.add_den_dvd _ _) hproduct)
      rw [hz, hvalue1, hvalue2, Rat.cast_add_of_ne_zero hden1 hden2]
  | mul =>
      simp only [htype] at hz
      dsimp only
      split_ifs with hzero
      · -- the product with a zero keeps no fraction
        exact coherent_zero
      · apply coherent_finish g (invertible_of_dvd (Rat.mul_den_dvd _ _) hproduct)
        rw [hz, hvalue1, hvalue2, Rat.cast_mul_of_ne_zero hden1 hden2]
  | divInt =>
      simp only [htype] at hz
      dsimp only
      -- the divisor is the inverse that the residue multiplies with
      set divisor := toTrueNumber (mpzInvert 0 op2.zValue p) ((p : ℤ).tdiv 2) p with hdivisor
      have hne := hdiv htype
      have hcast : (divisor : ZMod p) = (op2.zValue : ZMod p)⁻¹ := by
        rw [hdivisor, cast_toTrueNumber, cast_mpzInvert _ _ hne]
      have hnum : (((divisor : ℚ).num : ℤ) : ZMod p) ≠ 0 := by
        rw [Rat.num_intCast, hcast]
        exact inv_ne_zero hne
      have hquot : ((op1.qValue / divisor).den : ZMod p) ≠ 0 := by
        rw [Rat.div_def']
        apply invertible_divInt
        rw [Int.cast_mul, Int.cast_natCast]
        exact mul_ne_zero hden1 hnum
      apply coherent_finish g hquot
      rw [hz, hvalue1, Rat.cast_div_of_ne_zero hden1 hnum, Rat.cast_intCast, hcast, div_inv_eq_mul]

theorem Coherent.toTrueResidue {g : Gate} (hg : Coherent p g) (half : ℤ) :
    Coherent p { g with zValue := toTrueNumber g.zValue half p } := by
  rw [coherent_iff] at hg ⊢
  exact ⟨hg.1, (cast_toTrueNumber _ _).trans hg.2⟩

theorem Coherent.toTrueRational {g : Gate} (hg : Coherent p g) (half : ℤ) :
    Coherent p { g with
      qValue := if half < g.qValue.num then Rat.divInt (g.qValue.num - p) g.qValue.den
        else g.qValue } := by
  rw [coherent_iff] at hg ⊢
  dsimp only
  split_ifs
  · have hden : (((g.qValue.den : ℕ) : ℤ) : ZMod p) ≠ 0 := by
      rw [Int.cast_natCast]
      exact hg.1
    refine ⟨invertible_divInt _ hden, hg.2.trans ?_⟩
    rw [Rat.cast_divInt_of_ne_zero _ hden, Rat.cast_def]
    simp
  · exact hg

end Field

/-! ## Sequences of operations -/

/-- Every gate is coherent. -/
def AllCoherent (p : ℕ) (v : Values) : Prop := ∀ pos, Coherent p (v.at pos)

theorem Values.at_set (v : Values) (pos pos' : GatePosition) (g : Gate) :
    (v.set pos g).at pos' = if pos' = pos then g else v.at pos' := by
  obtain ⟨layer, name⟩ := pos
  obtain ⟨layer', name'⟩ := pos'
  by_cases hlayer : layer' = layer
  · subst hlayer
    by_cases hname : name' = name
    · simp [Values.set, Values.at, hname]
    · simp [Values.set, Values.at, hname]
  · simp [Values.set, Values.at, hlayer]

/-- Writing one coherent gate. -/
theorem AllCoherent.set {v : Values} (hv : AllCoherent p v) (pos : GatePosition) {g : Gate}
    (hg : Coherent p g) : AllCoherent p (v.set pos g) := by
  intro pos'
  rw [Values.at_set]
  split_ifs
  · exact hg
  · exact hv pos'

section Run

variable [Fact p.Prime]

theorem allCoherent_zero : AllCoherent p zeroValues := fun _ => coherent_zero

/-- One operation: each writes one gate. -/
theorem AllCoherent.step {v : Values} (hv : AllCoherent p v) {op : GateOp}
    (hop : op.Invertible p v) : AllCoherent p (op.step p v) := by
  cases op with
  | setValue pos value => exact hv.set pos (coherent_setValue _ hop)
  | setValueZ pos value => exact hv.set pos (coherent_setValueZ value)
  | computeGateValue type pos op1 op2 =>
      refine hv.set pos (coherent_computeGateValue _ _ (hv op1) (hv op2) fun htype => ?_)
      have hdiv : type = .divInt := htype
      rw [hdiv] at hop
      exact hop
  | canonicalize pos => exact hv.set pos (hv pos).canonicalize
  | toTrueResidue pos => exact hv.set pos ((hv pos).toTrueResidue _)
  | toTrueRational pos => exact hv.set pos ((hv pos).toTrueRational _)

/-- Any number of operations, by induction on the sequence. -/
theorem AllCoherent.runOps {ops : List GateOp} :
    ∀ {v : Values}, AllCoherent p v → AllInvertible p ops v → AllCoherent p (runOps p ops v) := by
  induction ops with
  | nil =>
      intro v hv _
      exact hv
  | cons op ops ih =>
      intro v hv hops
      exact ih (hv.step hops.1) hops.2

/-- What a gate sends as an output, `out`: the class of its residue, which is also what
the gate `r` of the receiver holds once it is set to `out`. -/
structure SentAs (p : ℕ) (g : Gate) (out : ℚ) (r : Gate) : Prop where
  den : (out.den : ZMod p) ≠ 0
  value : (out.num : ZMod p) * (out.den : ZMod p)⁻¹ = g.zValue
  received : ((r.setValue p out).zValue : ZMod p) = g.zValue

theorem Coherent.sent {g : Gate} (hg : Coherent p g) (r : Gate) :
    SentAs p g (modIfNeededQ g.qValue p 1) r := by
  obtain ⟨hden, hvalue⟩ := (coherent_iff g).1 hg
  obtain ⟨hden', hvalue'⟩ := modIfNeededQ_cast 1 hden
  have hset := (coherent_iff _).1 (coherent_setValue r hden')
  refine ⟨hden', ?_, ?_⟩
  · rw [hvalue, ← hvalue', Rat.cast_def, div_eq_mul_inv]
  · have hq : (((r.setValue p (modIfNeededQ g.qValue p 1)).qValue : ℚ) : ZMod p) = _ :=
      (modIfNeededQ_cast 2 hden').2
    rw [hset.2, hq, hvalue', hvalue]

/-- For every sequence of operations with invertible denominators on a fresh circuit: the
residue of each gate is its rational, and an output that is sent is the one proved. -/
theorem run_coherent (ops : List GateOp) (hops : AllInvertible p ops zeroValues)
    (pos : GatePosition) (r : Gate) :
    let g := (runOps p ops zeroValues).at pos
    (g.zValue : ZMod p) = g.qValue.num * (g.qValue.den : ZMod p)⁻¹ ∧
      SentAs p g (modIfNeededQ g.qValue p 1) r := by
  have hg : Coherent p ((runOps p ops zeroValues).at pos) := allCoherent_zero.runOps hops pos
  exact ⟨hg.value, hg.sent r⟩

end Run

/-- Two inputs, one of them a fraction, their quotient and its true number. -/
theorem run_coherent_quotient :
    let ops : List GateOp :=
      [.setValue ⟨0, 0⟩ (3 / 2), .setValueZ ⟨0, 1⟩ 5,
        .computeGateValue .divInt ⟨1, 0⟩ ⟨0, 0⟩ ⟨0, 1⟩, .toTrueResidue ⟨1, 0⟩]
    AllInvertible 7 ops zeroValues ∧
      let g := (runOps 7 ops zeroValues).at ⟨1, 0⟩
      (g.zValue : ZMod 7) = g.qValue.num * (g.qValue.den : ZMod 7)⁻¹ ∧
        SentAs 7 g (modIfNeededQ g.qValue (7 : ℕ) 1) ⟨0, 0⟩ := by
  have hops : AllInvertible 7
      [.setValue ⟨0, 0⟩ (3 / 2), .setValueZ ⟨0, 1⟩ 5,
        .computeGateValue .divInt ⟨1, 0⟩ ⟨0, 0⟩ ⟨0, 1⟩, .toTrueResidue ⟨1, 0⟩] zeroValues := by
    refine ⟨?_, trivial, ?_, trivial, trivial⟩
    · show (((3 / 2 : ℚ).den : ℕ) : ZMod 7) ≠ 0
      decide +kernel
    · show ((_ : ℤ) : ZMod 7) ≠ 0
      decide +kernel
  have : Fact (Nat.Prime 7) := ⟨by norm_num⟩
  exact ⟨hops, run_coherent _ hops ⟨1, 0⟩ ⟨0, 0⟩⟩

end Pepper.Cmtgkr.Pws
