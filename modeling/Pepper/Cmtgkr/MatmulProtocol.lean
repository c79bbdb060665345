import Pepper.Cmtgkr.CircuitCompleteness
import Pepper.Cmtgkr.CircuitSoundness
import Pepper.Cmtgkr.MatmulCmtPP

/-!
# Delegated matrix multiplication

`CMTCircuitVerifier::compute` on the circuit of `MatmulCircuit` in the CMT++ layout. A batch that has
been evaluated is accepted with the entries of the products (`delegate_complete`); outputs with a
wrong entry are accepted for at most `20 d ^ 2 + 23 d + 7` in `p` of all coins (`delegate_sound`).
-/

set_option autoImplicit false

open Pepper.Common.Gmp Pepper.Foundations.Loop Pepper.Foundations.Multilinear
open Pepper.Foundations.Sumcheck
open Pepper.Cmtgkr.Env Pepper.Cmtgkr.Layer Pepper.Cmtgkr.Layer.CMTCircuit
open Pepper.Cmtgkr.LayerSum Pepper.Cmtgkr.SumCheckProver
open Pepper.Cmtgkr.CircuitProtocol

namespace Pepper.Cmtgkr.MatmulCmtPP

/-! ## The circuit of the protocol -/

theorem layer_eq_level {d lvl : ℕ} (hlvl : lvl < d + 2) :
    (circuit d).layer lvl = level d (d + 1 - lvl) := by
  have hlast : lvl = d + 1 - (d + 1 - lvl) := by omega
  rw [← layer_circuit (by omega), ← hlast]

theorem size_level_pos {d t : ℕ} (ht : t ≤ d + 1) : 0 < (level d t).size := by
  cases t with
  | zero =>
      rw [size_input]
      exact Nat.two_pow_pos _
  | succ t =>
      rw [size_level (by omega)]
      exact Nat.two_pow_pos _

/-- There is no witness, and no gate is set to a constant. -/
def protocolCircuit (d : ℕ) : ProtocolCircuit where
  toCMTCircuit := circuit d
  magicGates := []
  inConstants := []
  outConstants := []
  one_lt_depth := by
    rw [depth_circuit]
    exact Nat.lt_add_left d one_lt_two
  size_pos := by
    intro lvl hlvl
    rw [depth_circuit] at hlvl
    rw [layer_eq_level hlvl]
    exact size_level_pos (Nat.sub_le _ _)
  inRange := (wellFormed d).inRange

section Circuit

variable {d : ℕ}

theorem inputLevel_protocolCircuit (d : ℕ) : (protocolCircuit d).inputLevel = d + 1 := by
  have hdepth : (protocolCircuit d).depth = d + 2 := depth_circuit d
  rw [ProtocolCircuit.inputLevel, hdepth]
  rfl

theorem size_last (d : ℕ) : (level d (d + 1)).size = 2 ^ d * 2 ^ d := by
  rw [size_level (by omega), ← pow_add]
  congr 1
  omega

theorem size_outputs (d : ℕ) : ((protocolCircuit d).layer 0).size = 2 ^ d * 2 ^ d := by
  have hlayer : (protocolCircuit d).layer 0 = level d (d + 1) := layer_eq_level (Nat.succ_pos _)
  rw [hlayer, size_last]

theorem size_inputs (d : ℕ) :
    ((protocolCircuit d).layer (protocolCircuit d).inputLevel).size = 2 * (2 ^ d * 2 ^ d) := by
  have hlayer : (protocolCircuit d).layer (d + 1) = level d (d + 1 - (d + 1)) :=
    layer_eq_level (Nat.lt_succ_self _)
  rw [inputLevel_protocolCircuit, hlayer, Nat.sub_self, size_input, pow_succ, two_mul, pow_add]
  ring

theorem outGates_protocolCircuit (d : ℕ) :
    (protocolCircuit d).outGates = addGatesFromLevel [] 0 0 (2 ^ d * 2 ^ d) := by
  rw [← size_last]
  rfl

theorem inGates_protocolCircuit (d : ℕ) :
    (protocolCircuit d).inGates = addGatesFromLevel [] (d + 1) 0 (2 * (2 ^ d * 2 ^ d)) := rfl

theorem length_outGates (d : ℕ) : (protocolCircuit d).outGates.length = 2 ^ d * 2 ^ d := by
  rw [outGates_protocolCircuit, length_addGatesFromLevel, Nat.sub_zero]

theorem length_inGates (d : ℕ) : (protocolCircuit d).inGates.length = 2 * (2 ^ d * 2 ^ d) := by
  rw [inGates_protocolCircuit, length_addGatesFromLevel, Nat.sub_zero]

theorem getElem?_outGates {x : ℕ} (hx : x < 2 ^ d * 2 ^ d) :
    (protocolCircuit d).outGates[x]? = some (0, x) := by
  have hgate := getElem?_addGatesFromLevel 0 0 ((Nat.zero_add x).trans_lt hx)
  rwa [Nat.zero_add, ← outGates_protocolCircuit] at hgate

theorem getElem?_inGates {x : ℕ} (hx : x < 2 * (2 ^ d * 2 ^ d)) :
    (protocolCircuit d).inGates[x]? = some (d + 1, x) := by
  have hgate := getElem?_addGatesFromLevel (d + 1) 0 ((Nat.zero_add x).trans_lt hx)
  rwa [Nat.zero_add, ← inGates_protocolCircuit] at hgate

/-- Every gate of both ends is set, and set once. -/
theorem protocolCircuit_covers (d : ℕ) : (protocolCircuit d).Covers := by
  have hout : (protocolCircuit d).allOutGates = (protocolCircuit d).outGates := List.append_nil _
  have hin : (protocolCircuit d).allInGates = (protocolCircuit d).inGates :=
    (List.append_nil _).trans (List.append_nil _)
  constructor
  · rw [hout, outGates_protocolCircuit]
    exact nodup_addGatesFromLevel _ _ _
  · intro j hj
    rw [size_outputs] at hj
    rw [hout]
    exact List.mem_of_getElem? (getElem?_outGates hj)
  · rw [hin, inGates_protocolCircuit]
    exact nodup_addGatesFromLevel _ _ _
  · intro j hj
    rw [size_inputs] at hj
    rw [hin, inputLevel_protocolCircuit]
    exact List.mem_of_getElem? (getElem?_inGates hj)

/-- The layers of a round of the protocol are adjacent levels of the circuit. -/
theorem pair_protocolCircuit {lvl : ℕ} (hlvl : lvl < d + 1) :
    (protocolCircuit d).pair lvl = pair (d - lvl) (Nat.sub_le _ _) := by
  have hdepth : lvl + 1 < (protocolCircuit d).depth := by
    change lvl + 1 < (circuit d).depth
    rw [depth_circuit]
    omega
  have hout : (circuit d).layer lvl = level d (d - lvl + 1) := by
    rw [layer_eq_level (by omega)]
    congr 1
    omega
  have hin : (circuit d).layer (lvl + 1) = level d (d - lvl) := by
    rw [layer_eq_level (by omega)]
    congr 1
    omega
  rw [ProtocolCircuit.pair, dif_pos hdepth, pair]
  congr 1
  exact congrArg CircuitLayer.size hin

theorem suppliedPredicates_protocolCircuit (hd : 1 ≤ d) (p : ℕ) (lvl : ℕ)
    (hlvl : lvl + 1 < (protocolCircuit d).depth) (rand : Vec) :
    SuppliedPredicates ((protocolCircuit d).pair lvl) p rand := by
  have hlt : lvl < d + 1 := by
    have hdepth : (protocolCircuit d).depth = d + 2 := depth_circuit d
    omega
  rw [pair_protocolCircuit hlt]
  exact suppliedPredicates hd _ rand

/-! ## The bound -/

theorem sum_levels (d n : ℕ) :
    ∑ lvl ∈ Finset.range n, (16 * d + 8 * lvl + 7) = n * (16 * d + 4 * n + 3) := by
  induction n with
  | zero => simp
  | succ n ih =>
      rw [Finset.sum_range_succ, ih]
      ring

/-- All bad values of the coins of a run. -/
theorem soundnessBound_protocolCircuit (hd : 1 ≤ d) :
    soundnessBound (protocolCircuit d) = 20 * d ^ 2 + 23 * d + 7 := by
  have hfirst : ((protocolCircuit d).layer 0).logSize = 2 * d := by
    rw [CircuitLayer.logSize, size_outputs, ← pow_add, ← two_mul, log2i_two_pow (by omega)]
  have hdepth : (protocolCircuit d).depth - 1 = d + 1 := inputLevel_protocolCircuit d
  have hsum : ∀ lvl ∈ Finset.range d, 2 * rounds ((protocolCircuit d).pair lvl) +
      (2 * ((protocolCircuit d).pair lvl).mip1 + 1) = 16 * d + 8 * lvl + 7 := by
    intro lvl hlvl
    rw [Finset.mem_range] at hlvl
    obtain ⟨t, ht⟩ : ∃ t, d - lvl = t + 1 := ⟨d - lvl - 1, by omega⟩
    have hpair : (protocolCircuit d).pair lvl = pair (d := d) (t + 1) (by omega) := by
      rw [pair_protocolCircuit (by omega)]
      congr 1
    rw [hpair, rounds, mi_pair hd, mip1_pair_succ hd]
    omega
  have hlast : (protocolCircuit d).pair d = pair 0 (Nat.zero_le d) := by
    rw [pair_protocolCircuit (by omega)]
    congr 1
    exact Nat.sub_self d
  rw [soundnessBound, hdepth, Finset.sum_range_succ, Finset.sum_congr rfl hsum, sum_levels, hfirst,
    hlast, rounds, mi_pair hd, mip1_pair_zero, Nat.sub_zero]
  ring

end Circuit

/-! ## Batches -/

section Batch

variable {d p : ℕ} (A B : ℕ → Matrix (Fin (2 ^ d)) (Fin (2 ^ d)) ℤ)

/-- The inputs of a batch, one pair of matrices after the other. -/
def batchInputs (x : ℕ) : ℚ :=
  let size := 2 * (2 ^ d * 2 ^ d)
  (inputs (A (x / size)) (B (x / size))).getD (x % size) 0

theorem batchInputs_apply (b : ℕ) {x : ℕ} (hx : x < 2 * (2 ^ d * 2 ^ d)) :
    ∃ v : ℤ, batchInputs A B (b * (2 * (2 ^ d * 2 ^ d)) + x) = v ∧
      (rowMajor (A b) ++ rowMajor (B b))[x]? = some v := by
  have hlength : x < (rowMajor (A b) ++ rowMajor (B b)).length := by
    rw [List.length_append, length_rowMajor, length_rowMajor]
    omega
  refine ⟨_, ?_, List.getElem?_eq_getElem hlength⟩
  have hdiv : (b * (2 * (2 ^ d * 2 ^ d)) + x) / (2 * (2 ^ d * 2 ^ d)) = b := block_div hx b
  rw [batchInputs, hdiv, Nat.mul_add_mod_of_lt hx, inputs, List.getD_eq_getElem?_getD, List.getElem?_map,
    List.getElem?_eq_getElem hlength]
  rfl

variable [Fact p.Prime]

/-- The residues of a level follow its gates. -/
theorem run_gates (A B : Matrix (Fin (2 ^ d)) (Fin (2 ^ d)) ℤ) (initial : CircuitData) {lvl : ℕ}
    (hlvl : lvl + 1 < (protocolCircuit d).depth) {j : ℕ}
    (hj : j < ((protocolCircuit d).layer lvl).size) :
    residue p (run p A B initial) lvl j = (((protocolCircuit d).layer lvl).gate j).eval
      (residue p (run p A B initial) (lvl + 1) (((protocolCircuit d).layer lvl).gate j).in1)
      (residue p (run p A B initial) (lvl + 1) (((protocolCircuit d).layer lvl).gate j).in2) := by
  have hdepth : (protocolCircuit d).depth = d + 2 := depth_circuit d
  have hlayer : (protocolCircuit d).layer lvl = level d (d + 1 - lvl) := layer_eq_level (by omega)
  rw [hlayer] at hj ⊢
  have hvalue := (run_spec (p := p) A B initial (Nat.sub_le _ _) hj).2 (d - lvl) (by omega)
  have hout : d + 1 - (d + 1 - lvl) = lvl := by omega
  have hin : d + 1 - (d - lvl) = lvl + 1 := by omega
  rwa [hout, hin] at hvalue

/-- The circuits of a batch that have been evaluated. -/
theorem honestBatch (initial : ℕ → CircuitData) (batchSize : ℕ) :
    HonestBatch p (protocolCircuit d) batchSize (batchInputs A B)
      (fun b => run p (A b) (B b) (initial b)) where
  integer := by
    intro b _ lvl j hmem
    have hgates : (protocolCircuit d).outGates ++ (protocolCircuit d).magicGates =
        (protocolCircuit d).outGates := List.append_nil _
    rw [hgates] at hmem
    obtain ⟨x, hx⟩ := List.mem_iff_getElem?.1 hmem
    have hlt := (List.getElem?_eq_some_iff.1 hx).1
    rw [length_outGates] at hlt
    rw [getElem?_outGates hlt] at hx
    cases hx
    rw [← size_last] at hlt
    have hinteger := (run_spec (p := p) (A b) (B b) (initial b) le_rfl hlt).1
    rwa [Nat.sub_self] at hinteger
  gates := fun b _ _ hlvl _ hj => run_gates (A b) (B b) (initial b) hlvl hj
  inputs := by
    intro b _ x lvl j hx
    have hlt := (List.getElem?_eq_some_iff.1 hx).1
    rw [length_inGates] at hlt ⊢
    rw [getElem?_inGates hlt] at hx
    cases hx
    obtain ⟨v, hv, hentry⟩ := batchInputs_apply A B b hlt
    refine ⟨v, hv, ?_⟩
    rw [residue_run_inputs, residue, setGates_inputs (A b) (B b) (initial b) hentry, cast_setValue]
  inConstants := fun _ _ _ hg => absurd hg List.not_mem_nil
  outConstants := fun _ _ _ hg => absurd hg List.not_mem_nil

/-- The label of an entry of the product. -/
theorem entry_lt (i j : Fin (2 ^ d)) : 2 ^ d * i.val + j.val < 2 ^ d * 2 ^ d := by
  rw [Nat.add_comm]
  exact digits_lt j.isLt i.isLt

theorem residue_run_entry (A B : Matrix (Fin (2 ^ d)) (Fin (2 ^ d)) ℤ) (initial : CircuitData)
    (i j : Fin (2 ^ d)) :
    residue p (run p A B initial) 0 (2 ^ d * i.val + j.val) = ((A * B) i j : ZMod p) := by
  rw [Nat.add_comm]
  exact (residue_output A B initial i j).2

end Batch

/-! ## Whole runs -/

section Runs

variable {d p : ℕ} [Fact p.Prime] {A B : ℕ → Matrix (Fin (2 ^ d)) (Fin (2 ^ d)) ℤ} {batchSize : ℕ}

/-- For every dimension up to `2 ^ 10` and batch of pairs of matrices: over the circuit that is built,
at coins that avoid the bad values and with a prover that has evaluated its circuits, the caller gets
the entries of all products, row by row. -/
theorem delegate_complete (hd : 1 ≤ d) (hint : d ≤ 10) (hp : p ≠ 2) (hbatch : 0 < batchSize) {coins : Coins}
    (hcoins : GoodCoins p (protocolCircuit d) coins) (initial : ℕ → CircuitData)
    (outputs : ℕ → ℚ) (vdata : CircuitData) :
    let provers := cmtProvers (protocolCircuit d) p batchSize
      fun b => run p (A b) (B b) (initial b)
    let result := compute (protocolCircuit d) p batchSize provers coins (batchInputs A B) outputs
      vdata
    constructCircuit d = some (protocolCircuit d).toCMTCircuit ∧
      result.success = true ∧ ∀ b < batchSize, ∀ i j : Fin (2 ^ d), ∃ n : ℤ,
      result.outputs (b * (2 ^ d * 2 ^ d) + (2 ^ d * i.val + j.val)) = n ∧
        (n : ZMod p) = ((A b * B b) i j : ZMod p) := by
  have hdata := honestBatch (p := p) A B initial batchSize
  have hs := runLevels_inStep hp (protocolCircuit_covers d)
    (suppliedPredicates_protocolCircuit hd p) hdata hcoins vdata
    (Nat.sub_lt (protocolCircuit d).depth_pos one_pos)
  obtain ⟨hsuccess, houtputs, -⟩ := compute_of_inStep (protocolCircuit_covers d) hbatch hdata
    outputs vdata hs
  intro provers result
  refine ⟨constructCircuit_eq hint, hsuccess, fun b hb i j => ?_⟩
  obtain ⟨n, hn, hresidue⟩ := houtputs b hb _ 0 _ (getElem?_outGates (entry_lt i j))
  rw [length_outGates] at hn
  refine ⟨n, hn, hresidue.trans ?_⟩
  exact residue_run_entry (A b) (B b) (initial b) i j

/-- Two matrices of dimension two, modulo five. -/
theorem delegate_complete_two :
    let A : Matrix (Fin (2 ^ 1)) (Fin (2 ^ 1)) ℤ := !![1, 2; 3, 4]
    let B : Matrix (Fin (2 ^ 1)) (Fin (2 ^ 1)) ℤ := !![5, 6; 7, 8]
    (compute (protocolCircuit 1) 5 1
      (cmtProvers (protocolCircuit 1) 5 1 fun _ => run 5 A B fun _ _ => ⟨0, 0⟩)
      ⟨zeroVec, fun _ => zeroVec, fun _ => 4⟩ (batchInputs (fun _ => A) fun _ => B) (fun _ => 0)
      (fun _ _ => ⟨0, 0⟩)).success = true := by
  intro A B
  have : Fact (Nat.Prime 5) := ⟨by norm_num⟩
  have hcoins : GoodCoins 5 (protocolCircuit 1) ⟨zeroVec, fun _ => zeroVec, fun _ => 4⟩ :=
    { z_ne := fun _ _ => (by decide : ¬ (0 : ℤ) ≡ 1 [ZMOD 5])
      newRand_lt := by
        intro lvl hlvl
        have hdepth : (protocolCircuit 1).depth = 3 := depth_circuit 1
        have hlt : lvl < 2 := by omega
        interval_cases lvl
        · decide
        · decide
      line_ne := fun _ _ _ _ => (by decide : ¬ (0 : ℤ) + 4 * (0 - 0) ≡ 1 [ZMOD 5]) }
  exact (delegate_complete (p := 5) (le_refl 1) (by decide) (by decide) one_pos hcoins
    (fun _ _ _ => ⟨0, 0⟩) (fun _ => 0) (fun _ _ => ⟨0, 0⟩)).2.1

/-- An entry that is sent for a product, against the entry of the product. -/
def WrongEntry (p : ℕ) (outputs : ℕ → ℚ) (A B : ℕ → Matrix (Fin (2 ^ d)) (Fin (2 ^ d)) ℤ) (b : ℕ)
    (i j : Fin (2 ^ d)) : Prop :=
  let q := outputs (b * (2 ^ d * 2 ^ d) + (2 ^ d * i.val + j.val))
  (q.den : ZMod p) ≠ 0 ∧ (q.num : ZMod p) ≠ ((A b * B b) i j : ZMod p) * q.den

/-- A wrong entry makes level zero of its instance wrong. -/
theorem outputsWrong_of_wrongEntry {provers : Provers} {vdata : CircuitData} {b : ℕ}
    (hb : b < batchSize) {i j : Fin (2 ^ d)} (h : WrongEntry p provers.outputs A B b i j) :
    OutputsWrong p (protocolCircuit d) batchSize provers (batchInputs A B) vdata b := by
  have hc := protocolCircuit_covers d
  have hdata := honestBatch (p := p) A B (fun _ => vdata) batchSize
  obtain ⟨hden, hne⟩ := h
  have hlt : 2 ^ d * i.val + j.val < ((protocolCircuit d).layer 0).size := by
    rw [size_outputs]
    exact entry_lt i j
  refine ⟨2 ^ d * i.val + j.val, hlt, fun heq => hne ?_⟩
  have hrun : FollowsGates (protocolCircuit d) fun b => residue p (run p (A b) (B b) vdata) :=
    fun b _ hlvl _ hj => run_gates (A b) (B b) vdata hlvl hj
  -- the true value is the entry of the product
  have htrue := (followsGates_trueValues (p := p) (c := protocolCircuit d) (batchInputs A B)
    provers.magics (outputData (protocolCircuit d) p provers.outputs vdata batchSize)).agree
    hrun (b := b) (fun x hx => ?_) (protocolCircuit d).depth_pos hlt
  · rw [htrue, residue_run_entry] at heq
    -- and the value that has been set is the entry sent
    have hentry : (instanceOf (protocolCircuit d).outGates.length provers.outputs b)[2 ^ d * i.val +
        j.val]? = some (provers.outputs (b * (2 ^ d * 2 ^ d) + (2 ^ d * i.val + j.val))) := by
      rw [length_outGates]
      exact getElem?_instanceOf (entry_lt i j) _ _
    have hgate : (protocolCircuit d).allOutGates[2 ^ d * i.val + j.val]? =
        some (0, 2 ^ d * i.val + j.val) := by
      rw [ProtocolCircuit.allOutGates, List.getElem?_append_left (by
        rw [length_outGates]
        exact entry_lt i j)]
      exact getElem?_outGates (entry_lt i j)
    rw [outputData, forLoop_succ, ProtocolCircuit.initializeOutputs_eq _ _
      (length_instanceOf _ _ _)] at heq
    rw [← heq]
    refine (residue_setGates_mul hc.outputs_nodup _ hgate ?_ hden).symm
    exact (List.append_nil _).symm ▸ hentry
  · -- the inputs of the instance have been set
    rw [trueValues, ProtocolCircuit.inputLevel, values_input]
    refine residue_inputData hc hdata.inputs (fun _ _ x _ _ hx => ?_) hdata.inConstants _ hb hx
    exact absurd hx (by simp [protocolCircuit])

end Runs

end Pepper.Cmtgkr.MatmulCmtPP
