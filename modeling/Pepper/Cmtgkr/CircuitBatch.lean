import Pepper.Cmtgkr.CircuitProtocol

/-!
# The batch of a run

What the loops over the instances read of the verifier's circuit: `outputData` and `inputData` are
its gates after the outputs, or the inputs, of the first instances have been set one over the
other. `evaluateOutputs_apply` and `checkFinal_iff` say what the two loops compute.
`HonestBatch` is what a prover has that has evaluated its circuits; with it the verifier sees the
same residues at both ends of the circuit (`residue_outputData`, `residue_inputData`).
-/

set_option autoImplicit false

open Pepper.Common.Gmp Pepper.Foundations.Loop Pepper.Foundations.Multilinear
open Pepper.Cmtgkr.Env Pepper.Cmtgkr.Layer Pepper.Cmtgkr.LayerSum Pepper.Cmtgkr.SumCheckProver
open Pepper.Cmtgkr.SumCheckProverRun Pepper.Cmtgkr.SumCheckVerifier Pepper.Cmtgkr.MiniIP
open Pepper.Cmtgkr.Layer.CMTCircuit (setGates residue)

namespace Pepper.Cmtgkr.CircuitProtocol

/-! ## Layers of a round -/

namespace ProtocolCircuit

variable (c : ProtocolCircuit)

theorem pair_eq {level : ℕ} (hlevel : level + 1 < c.depth) :
    (c.pair level).out = c.layer level ∧ (c.pair level).inSize = (c.layer (level + 1)).size := by
  rw [ProtocolCircuit.pair, dif_pos hlevel]
  exact ⟨rfl, rfl⟩

theorem pair_mi {level : ℕ} (hlevel : level + 1 < c.depth) :
    (c.pair level).mi = (c.layer level).logSize := by
  rw [LayerPair.mi, (c.pair_eq hlevel).1]

theorem pair_mip1 {level : ℕ} (hlevel : level + 1 < c.depth) :
    (c.pair level).mip1 = (c.layer (level + 1)).logSize := by
  rw [LayerPair.mip1, (c.pair_eq hlevel).2, CircuitLayer.logSize]

end ProtocolCircuit

/-! ## Evaluation by the Lagrange polynomials of a point -/

section Chis

variable {p : ℕ} [Fact p.Prime]

theorem cast_evaluateVChis_self (size : ℕ) (values z : Vec) :
    (evaluateVChis size values (computeChiAll size zeroVec (log2i size) z p) p : ZMod p) =
      extension (padded p size values) (log2i size) (castVec p z) :=
  cast_evaluateVChis size values _ z fun _ hk =>
    cast_computeChiAll zeroVec z (le_two_pow_log2i size) hk

theorem evaluateVChis_range (size : ℕ) (values chis : Vec) :
    0 ≤ evaluateVChis size values chis p ∧ evaluateVChis size values chis p < p :=
  emod_range _

/-- Values with the same residues are evaluated alike by both functions. -/
theorem evaluateVChis_eq_evaluateVi {size : ℕ} (hsize : 0 < size) {values values' : Vec}
    (h : ∀ j < size, (values j : ZMod p) = values' j) (z : Vec) :
    evaluateVChis size values (computeChiAll size zeroVec (log2i size) z p) p =
      evaluateVi size values' z p := by
  rw [eq_iff_cast_eq (evaluateVChis_range _ _ _) (evaluateVi_range hsize _ _),
    cast_evaluateVChis_self, cast_evaluateVi, extension_padded, extension_padded]
  refine Finset.sum_congr rfl fun j hj => ?_
  rw [h j (Finset.mem_range.1 hj)]

end Chis

/-! ## The verifier's circuit -/

section Data

variable (c : ProtocolCircuit) (prime : ℤ)

/-- The gates after the outputs of the first `n` instances. -/
def outputData (outputs : ℕ → ℚ) (data : CircuitData) (n : ℕ) : CircuitData :=
  forLoop n
    (fun b data => c.initializeOutputs prime (instanceOf c.outGates.length outputs b) data) data

/-- The gates after the inputs of the first `n` instances. -/
def inputData (inputs magics : ℕ → ℚ) (data : CircuitData) (n : ℕ) : CircuitData :=
  forLoop n
    (fun b data => c.initializeInputs prime (instanceOf c.inGates.length inputs b)
      (instanceOf c.magicGates.length magics b) data) data

variable {c prime} {batchSize : ℕ}

theorem evaluateOutputs_snd (chis : Vec) (outputs : ℕ → ℚ) (data : CircuitData) (r0 : Vec) :
    (evaluateOutputs c prime batchSize chis outputs data r0).2 =
      outputData c prime outputs data batchSize :=
  forLoop_simulation (R := fun _ (s : Vec × CircuitData) d => s.2 = d) rfl fun b _ s d h => by
    dsimp only
    rw [h]

/-- The claim about an instance reads the outputs as they are when that instance is done. -/
theorem evaluateOutputs_apply (chis : Vec) (outputs : ℕ → ℚ) (data : CircuitData) (r0 : Vec)
    {b : ℕ} (hb : b < batchSize) :
    (evaluateOutputs c prime batchSize chis outputs data r0).1 b =
      evaluateVChis (c.layer 0).size (zValues (outputData c prime outputs data (b + 1)) 0) chis
        prime := by
  induction batchSize with
  | zero => exact absurd hb (Nat.not_lt_zero b)
  | succ n ih =>
      have hdata : (evaluateOutputs c prime n chis outputs data r0).2 =
          outputData c prime outputs data n := evaluateOutputs_snd chis outputs data r0
      rw [evaluateOutputs, forLoop_succ, ← evaluateOutputs, hdata]
      dsimp only
      rcases Nat.lt_succ_iff_lt_or_eq.1 hb with hlt | rfl
      · rw [Function.update_of_ne (ne_of_lt hlt)]
        exact ih hlt
      · rw [Function.update_self, outputData, outputData, forLoop_succ]

theorem evaluateOutputs_frame (chis : Vec) (outputs : ℕ → ℚ) (data : CircuitData) (r0 : Vec)
    {b : ℕ} (hb : batchSize ≤ b) :
    (evaluateOutputs c prime batchSize chis outputs data r0).1 b = r0 b :=
  forLoop_induction (P := fun _ (s : Vec × CircuitData) => s.1 b = r0 b) rfl fun _ hi _ hs =>
    (Function.update_of_ne (ne_of_gt (hi.trans_le hb)) _ _).trans hs

/-- The final check passes when it passes for every instance. -/
theorem checkFinal_iff (zi ri : Vec) (inputs magics : ℕ → ℚ) (data : CircuitData) :
    checkFinal c prime batchSize zi ri inputs magics data = true ↔
      ∀ b < batchSize, ri b = evaluateVChis (c.layer c.inputLevel).size
        (zValues (inputData c prime inputs magics data (b + 1)) c.inputLevel)
        (computeChiAll (c.layer c.inputLevel).size zeroVec (c.layer c.inputLevel).logSize zi prime)
        prime := by
  obtain ⟨chis, hchis⟩ : ∃ chis, chis = computeChiAll (c.layer c.inputLevel).size zeroVec
    (c.layer c.inputLevel).logSize zi prime := ⟨_, rfl⟩
  rw [checkFinal, ← hchis]
  -- while no instance has failed the gates are those of the instances so far
  have hrun := forLoop_induction
    (P := fun n (s : Bool × CircuitData) =>
      (s.1 = true ↔ ∀ b < n, ri b = evaluateVChis (c.layer c.inputLevel).size
        (zValues (inputData c prime inputs magics data (b + 1)) c.inputLevel) chis prime) ∧
      (s.1 = true → s.2 = inputData c prime inputs magics data n))
    (n := batchSize) (g := checkInstance c prime chis ri inputs magics) (s := (true, data))
    ⟨iff_of_true rfl fun b hb => absurd hb (Nat.not_lt_zero b), fun _ => rfl⟩ ?_
  · exact hrun.1
  · rintro n - ⟨success, d⟩ ⟨hiff, hd⟩
    rw [checkInstance]
    cases success with
    | false =>
        refine ⟨iff_of_false Bool.false_ne_true fun h => ?_, fun h => absurd h Bool.false_ne_true⟩
        exact Bool.false_ne_true (hiff.2 fun b hb => h b (Nat.lt_succ_of_lt hb))
    | true =>
        have hcurrent : d = inputData c prime inputs magics data n := hd rfl
        have hnext : c.initializeInputs prime (instanceOf c.inGates.length inputs n)
            (instanceOf c.magicGates.length magics n) d =
              inputData c prime inputs magics data (n + 1) := by
          rw [hcurrent, inputData, inputData, forLoop_succ]
        rw [if_pos rfl]
        dsimp only
        rw [hnext, decide_eq_true_eq]
        refine ⟨⟨fun h b hb => ?_, fun h => h n (Nat.lt_succ_self n)⟩, fun _ => rfl⟩
        rcases Nat.lt_succ_iff_lt_or_eq.1 hb with hlt | rfl
        · exact hiff.1 rfl b hlt
        · exact h

/-- One more level, unless one has failed. -/
theorem runLevels_succ (provers : Provers) (coins : Coins) (n : ℕ) (s : VerifierRun) :
    runLevels c prime batchSize provers coins (n + 1) s =
      if (runLevels c prime batchSize provers coins n s).claims.success then
        checkLevel c prime batchSize provers coins n
          (runLevels c prime batchSize provers coins n s)
      else runLevels c prime batchSize provers coins n s :=
  forLoop_succ _ _ _

end Data

/-! ## Gates that are set -/

section Gates

variable {p : ℕ} [Fact p.Prime]

theorem length_instanceOf (size : ℕ) (vec : ℕ → ℚ) (b : ℕ) : (instanceOf size vec b).length = size := by
  rw [instanceOf, List.length_map, List.length_range]

theorem getElem?_instanceOf {size i : ℕ} (hi : i < size) (vec : ℕ → ℚ) (b : ℕ) :
    (instanceOf size vec b)[i]? = some (vec (b * size + i)) := by
  rw [instanceOf, List.getElem?_map, List.getElem?_range hi]
  rfl

/-- One vector after the other. -/
theorem setGates_append (prime : ℤ) {gates gates' : List (ℕ × ℕ)} {vec vec' : List ℚ}
    (h : gates.length = vec.length) (data : CircuitData) :
    setGates prime (gates ++ gates') (vec ++ vec') data =
      setGates prime gates' vec' (setGates prime gates vec data) := by
  rw [setGates, List.zip_append h, List.foldl_append]
  rfl

/-- A gate that is set once, to an integer. -/
theorem residue_setGates {gates : List (ℕ × ℕ)} (hnodup : gates.Nodup) {vec : List ℚ}
    (data : CircuitData) {i lvl j : ℕ} (hi : gates[i]? = some (lvl, j)) {n : ℤ}
    (hn : vec[i]? = some (n : ℚ)) : residue p (setGates p gates vec data) lvl j = n := by
  rw [residue, CMTCircuit.setGates_of_nodup p hnodup vec data hi hn, CMTCircuit.cast_setValue]

/-- A gate that is set once, to a rational number that has a residue. -/
theorem residue_setGates_mul {gates : List (ℕ × ℕ)} (hnodup : gates.Nodup) {vec : List ℚ}
    (data : CircuitData) {i lvl j : ℕ} (hi : gates[i]? = some (lvl, j)) {q : ℚ}
    (hq : vec[i]? = some q) (hden : (q.den : ZMod p) ≠ 0) :
    residue p (setGates p gates vec data) lvl j * q.den = q.num := by
  have hden' : (((q.den : ℕ) : ℤ) : ZMod p) ≠ 0 := by rwa [Int.cast_natCast]
  rw [residue, CMTCircuit.setGates_of_nodup p hnodup vec data hi hq]
  show ((modIfNeeded (convertToZ (data lvl j).zValue q p) p 2 : ℤ) : ZMod p) * _ = _
  rw [cast_modIfNeeded, convertToZ, ZMod.intCast_mod, Int.cast_mul, cast_mpzInvert _ _ hden',
    Int.cast_natCast, mul_right_comm, inv_mul_cancel₀ hden, one_mul]

end Gates

namespace ProtocolCircuit

variable (c : ProtocolCircuit)

/-- All gates that `initializeInputs` sets. -/
def allInGates : List (ℕ × ℕ) := c.inGates ++ c.magicGates ++ c.inConstants.map Prod.fst

/-- All gates that `initializeOutputs` sets. -/
def allOutGates : List (ℕ × ℕ) := c.outGates ++ c.outConstants.map Prod.fst

/-- Both ends of the circuit are set, every gate once. -/
structure Covers : Prop where
  outputs_nodup : c.allOutGates.Nodup
  outputs_mem : ∀ j < (c.layer 0).size, (0, j) ∈ c.allOutGates
  inputs_nodup : c.allInGates.Nodup
  inputs_mem : ∀ j < (c.layer c.inputLevel).size, (c.inputLevel, j) ∈ c.allInGates

theorem initializeInputs_eq (prime : ℤ) {inputs magic : List ℚ}
    (hinputs : inputs.length = c.inGates.length) (hmagic : magic.length = c.magicGates.length)
    (data : CircuitData) :
    c.initializeInputs prime inputs magic data =
      setGates prime c.allInGates
        (inputs ++ magic ++ c.inConstants.map fun g => (g.2 : ℚ)) data := by
  rw [initializeInputs, allInGates, setGates_append prime (by simp [hinputs, hmagic]),
    setGates_append prime hinputs.symm]

theorem initializeOutputs_eq (prime : ℤ) {outputs : List ℚ}
    (houtputs : outputs.length = c.outGates.length) (data : CircuitData) :
    c.initializeOutputs prime outputs data =
      setGates prime c.allOutGates (outputs ++ c.outConstants.map fun g => (g.2 : ℚ)) data := by
  rw [initializeOutputs, allOutGates, setGates_append prime houtputs.symm]

end ProtocolCircuit

/-! ## Batches of evaluated circuits -/

section Honest

variable {p : ℕ}

/-- Vectors of integers with the residues of the gates, instance by instance. -/
def HoldsResidues (p : ℕ) (batchSize : ℕ) (gates : List (ℕ × ℕ)) (data : ℕ → CircuitData)
    (vec : ℕ → ℚ) : Prop :=
  ∀ b < batchSize, ∀ i lvl j, gates[i]? = some (lvl, j) → ∃ n : ℤ,
    vec (b * gates.length + i) = n ∧ (n : ZMod p) = residue p (data b) lvl j

/-- Gates that hold the constants that go with them. -/
def HoldsConstants (p : ℕ) (batchSize : ℕ) (constants : List ((ℕ × ℕ) × ℤ))
    (data : ℕ → CircuitData) : Prop :=
  ∀ b < batchSize, ∀ g ∈ constants, (g.2 : ZMod p) = residue p (data b) g.1.1 g.1.2

/-- Circuits that have been evaluated on the inputs of their instance, over integers; the
constants of the circuit are what they should be. -/
structure HonestBatch (p : ℕ) (c : ProtocolCircuit) (batchSize : ℕ) (inputs : ℕ → ℚ)
    (data : ℕ → CircuitData) : Prop where
  integer : ∀ b < batchSize, ∀ lvl j, (lvl, j) ∈ c.outGates ++ c.magicGates →
    (data b lvl j).IsInteger p
  gates : ∀ b < batchSize, ∀ lvl, lvl + 1 < c.depth → ∀ j < (c.layer lvl).size,
    residue p (data b) lvl j = ((c.layer lvl).gate j).eval
      (residue p (data b) (lvl + 1) ((c.layer lvl).gate j).in1)
      (residue p (data b) (lvl + 1) ((c.layer lvl).gate j).in2)
  inputs : HoldsResidues p batchSize c.inGates data inputs
  inConstants : HoldsConstants p batchSize c.inConstants data
  outConstants : HoldsConstants p batchSize c.outConstants data

variable [Fact p.Prime]

/-- `modIfNeeded` of an output keeps an integer, and its residue. -/
theorem modIfNeededQ_one {q : ℚ} (hq : q.den = 1) :
    ∃ n : ℤ, modIfNeededQ q p 1 = n ∧ (n : ZMod p) = q.num := by
  have hp := (Fact.out : p.Prime).two_le
  have hden : modIfNeeded (q.den : ℤ) p 1 = 1 := by
    rw [hq, modIfNeeded]
    split_ifs
    · exact Int.emod_eq_of_lt zero_le_one (by exact_mod_cast hp)
    · rfl
  refine ⟨modIfNeeded q.num p 1, ?_, cast_modIfNeeded _ _⟩
  rw [modIfNeededQ, hden, Rat.divInt_one]

theorem getGates_apply (prime : ℤ) {gates : List (ℕ × ℕ)} (data : ℕ → CircuitData) (b : ℕ)
    {i lvl j : ℕ} (hi : gates[i]? = some (lvl, j)) :
    getGates prime gates data (b * gates.length + i) =
      modIfNeededQ (data b lvl j).qValue prime 1 := by
  have hlt : i < gates.length := (List.getElem?_eq_some_iff.1 hi).1
  rw [getGates, Nat.mul_add_mod_of_lt hlt, block_div hlt, hi]

/-- The vectors that a prover sends hold what its gates hold. -/
theorem holdsResidues_getGates {batchSize : ℕ} {gates : List (ℕ × ℕ)} {data : ℕ → CircuitData}
    (h : ∀ b < batchSize, ∀ lvl j, (lvl, j) ∈ gates → (data b lvl j).IsInteger p) :
    HoldsResidues p batchSize gates data (getGates p gates data) := by
  intro b hb i lvl j hi
  obtain ⟨hden, hvalue⟩ := h b hb lvl j (List.mem_of_getElem? hi)
  obtain ⟨n, hn, hcast⟩ := modIfNeededQ_one (p := p) hden
  refine ⟨n, ?_, ?_⟩
  · rw [getGates_apply _ _ _ hi, hn]
  · rw [hcast, residue, hvalue]

/-- A list of integers, one for each gate, in front of others. -/
theorem residue_of_parts {batchSize b : ℕ} (hb : b < batchSize) {gates : List (ℕ × ℕ)}
    {data : ℕ → CircuitData} {vec : ℕ → ℚ} (h : HoldsResidues p batchSize gates data vec)
    {i lvl j : ℕ} (hi : gates[i]? = some (lvl, j)) (rest : List ℚ) :
    ∃ n : ℤ, (instanceOf gates.length vec b ++ rest)[i]? = some (n : ℚ) ∧
      (n : ZMod p) = residue p (data b) lvl j := by
  have hlt : i < gates.length := (List.getElem?_eq_some_iff.1 hi).1
  obtain ⟨n, hn, hcast⟩ := h b hb i lvl j hi
  refine ⟨n, ?_, hcast⟩
  rw [List.getElem?_append_left (by rwa [length_instanceOf]), getElem?_instanceOf hlt, hn]

theorem residue_of_constants {batchSize b : ℕ} (hb : b < batchSize)
    {constants : List ((ℕ × ℕ) × ℤ)} {data : ℕ → CircuitData}
    (h : HoldsConstants p batchSize constants data) {i lvl j : ℕ}
    (hi : (constants.map Prod.fst)[i]? = some (lvl, j)) :
    ∃ n : ℤ, (constants.map fun g => (g.2 : ℚ))[i]? = some (n : ℚ) ∧
      (n : ZMod p) = residue p (data b) lvl j := by
  rw [List.getElem?_map, Option.map_eq_some_iff] at hi
  obtain ⟨g, hg, hlabel⟩ := hi
  refine ⟨g.2, ?_, ?_⟩
  · rw [List.getElem?_map, hg]
    rfl
  · rw [h b hb g (List.mem_of_getElem? hg), hlabel]

section Covers

variable {c : ProtocolCircuit} {batchSize : ℕ} {data : ℕ → CircuitData}

/-- After the outputs of an instance its level zero holds the residues of the prover. -/
theorem residue_outputData (hc : c.Covers) {outputs : ℕ → ℚ}
    (houtputs : HoldsResidues p batchSize c.outGates data outputs)
    (hconstants : HoldsConstants p batchSize c.outConstants data) (vdata : CircuitData) {b : ℕ}
    (hb : b < batchSize) {j : ℕ} (hj : j < (c.layer 0).size) :
    residue p (outputData c p outputs vdata (b + 1)) 0 j = residue p (data b) 0 j := by
  obtain ⟨i, hi⟩ := List.mem_iff_getElem?.1 (hc.outputs_mem j hj)
  obtain ⟨n, hn, hcast⟩ : ∃ n : ℤ, (instanceOf c.outGates.length outputs b ++
      c.outConstants.map fun g => (g.2 : ℚ))[i]? = some (n : ℚ) ∧
        (n : ZMod p) = residue p (data b) 0 j := by
    rw [ProtocolCircuit.allOutGates] at hi
    rcases Nat.lt_or_ge i c.outGates.length with hlt | hge
    · rw [List.getElem?_append_left hlt] at hi
      exact residue_of_parts hb houtputs hi _
    · rw [List.getElem?_append_right hge] at hi
      rw [List.getElem?_append_right (by rwa [length_instanceOf]), length_instanceOf]
      exact residue_of_constants hb hconstants hi
  rw [outputData, forLoop_succ, c.initializeOutputs_eq p (length_instanceOf _ _ _),
    residue_setGates hc.outputs_nodup _ hi hn, hcast]

/-- After the inputs of an instance the input level holds the residues of the prover. -/
theorem residue_inputData (hc : c.Covers) {inputs magics : ℕ → ℚ}
    (hinputs : HoldsResidues p batchSize c.inGates data inputs)
    (hmagics : HoldsResidues p batchSize c.magicGates data magics)
    (hconstants : HoldsConstants p batchSize c.inConstants data) (vdata : CircuitData) {b : ℕ}
    (hb : b < batchSize) {j : ℕ} (hj : j < (c.layer c.inputLevel).size) :
    residue p (inputData c p inputs magics vdata (b + 1)) c.inputLevel j =
      residue p (data b) c.inputLevel j := by
  obtain ⟨i, hi⟩ := List.mem_iff_getElem?.1 (hc.inputs_mem j hj)
  obtain ⟨n, hn, hcast⟩ : ∃ n : ℤ, (instanceOf c.inGates.length inputs b ++
      instanceOf c.magicGates.length magics b ++
        c.inConstants.map fun g => (g.2 : ℚ))[i]? = some (n : ℚ) ∧
          (n : ZMod p) = residue p (data b) c.inputLevel j := by
    rw [ProtocolCircuit.allInGates, List.append_assoc] at hi
    rw [List.append_assoc]
    -- inputs, then the witness, then constants
    rcases Nat.lt_or_ge i c.inGates.length with hlt | hge
    · rw [List.getElem?_append_left hlt] at hi
      exact residue_of_parts hb hinputs hi _
    · rw [List.getElem?_append_right hge] at hi
      rw [List.getElem?_append_right (by rwa [length_instanceOf]), length_instanceOf]
      rcases Nat.lt_or_ge (i - c.inGates.length) c.magicGates.length with hlt' | hge'
      · rw [List.getElem?_append_left hlt'] at hi
        exact residue_of_parts hb hmagics hi _
      · rw [List.getElem?_append_right hge'] at hi
        rw [List.getElem?_append_right (by rwa [length_instanceOf]), length_instanceOf]
        exact residue_of_constants hb hconstants hi
  rw [inputData, forLoop_succ, c.initializeInputs_eq p (length_instanceOf _ _ _)
    (length_instanceOf _ _ _), residue_setGates hc.inputs_nodup _ hi hn, hcast]

end Covers

end Honest

/-! ## A circuit with one gate -/

/-- Two levels, of which the second doubles its one input. -/
def doubling : ProtocolCircuit where
  layers := [⟨[⟨.add, 0, 0⟩], none, none⟩, ⟨[⟨.add, 0, 0⟩], none, none⟩]
  currentLevel := 0
  inGates := [(1, 0)]
  outGates := [(0, 0)]
  magicGates := []
  inConstants := []
  outConstants := []
  one_lt_depth := by decide
  size_pos := by decide
  inRange := by
    intro lvl hlvl
    have hzero : lvl = 0 := Nat.lt_one_iff.1 (Nat.lt_of_succ_lt_succ hlvl)
    subst hzero
    decide

theorem doubling_covers : doubling.Covers where
  outputs_nodup := by decide
  outputs_mem := by decide
  inputs_nodup := by decide
  inputs_mem := by decide

theorem doubling_predicates (p level : ℕ) (hlevel : level + 1 < doubling.depth) (rand : Vec) :
    SuppliedPredicates (doubling.pair level) p rand := by
  have hzero : level = 0 := Nat.lt_one_iff.1 (Nat.lt_of_succ_lt_succ hlevel)
  subst hzero
  exact suppliedPredicates_of_none _ rfl rfl rand

/-- The circuit over the input one. -/
def doubledData : ℕ → CircuitData := fun _ lvl _ => if lvl = 0 then ⟨2, 2⟩ else ⟨1, 1⟩

theorem doubledData_honest (p : ℕ) : HonestBatch p doubling 1 (fun _ => 1) doubledData where
  integer := by
    intro b _ lvl j _
    rw [doubledData]
    split_ifs
    · exact ⟨rfl, rfl⟩
    · exact ⟨rfl, rfl⟩
  gates := by
    intro b _ lvl hlvl j hj
    have hlvl' : lvl = 0 := Nat.lt_one_iff.1 (Nat.lt_of_succ_lt_succ hlvl)
    subst hlvl'
    have hj' : j = 0 := Nat.lt_one_iff.1 hj
    subst hj'
    show ((2 : ℤ) : ZMod p) = ((1 : ℤ) : ZMod p) + ((1 : ℤ) : ZMod p)
    norm_num
  inputs := by
    intro b _ i lvl j hi
    have hmem : (lvl, j) = (1, 0) := List.mem_singleton.1 (List.mem_of_getElem? hi)
    cases hmem
    exact ⟨1, rfl, rfl⟩
  inConstants := fun _ _ g hg => absurd hg List.not_mem_nil
  outConstants := fun _ _ g hg => absurd hg List.not_mem_nil

end Pepper.Cmtgkr.CircuitProtocol
