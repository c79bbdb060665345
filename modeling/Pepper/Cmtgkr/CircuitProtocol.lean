import Pepper.Cmtgkr.BatchDistribution
import Pepper.Cmtgkr.LevelStack
import Pepper.Cmtgkr.MiniIP

/-!
# Runs over all levels of a circuit

`CMTCircuitVerifier::compute` asks for the outputs of a batch, draws a point of level zero, goes
from one level to the next (`checkLevel`) and compares what is claimed of the input level with the
inputs it has (`checkFinal`). `CMTCircuitProver::run` is the other side, a machine that reads one
message after the other.

The provers are any function from the messages received to a response. What several provers send
is gathered into one vector, so they appear as one. A circuit comes with its
levels in range, so that the layers of every round of `compute` fit.
-/

set_option autoImplicit false

open Pepper.Common.Gmp Pepper.Foundations.Loop Pepper.Foundations.Multilinear
open Pepper.Cmtgkr.Env Pepper.Cmtgkr.Layer Pepper.Cmtgkr.LayerSum Pepper.Cmtgkr.SumCheckProver
open Pepper.Cmtgkr.SumCheckProverRun Pepper.Cmtgkr.SumCheckVerifier Pepper.Cmtgkr.MiniIP

namespace Pepper.Cmtgkr.CircuitProtocol

/-! ## Circuits -/

/-- A circuit of the protocol, with the gates of its witness and the gates that are set to
constants together with the inputs and the outputs (`PWSCircuit`). There is a round, and every level
fits. -/
structure ProtocolCircuit extends CMTCircuit where
  magicGates : List (ℕ × ℕ)
  inConstants : List ((ℕ × ℕ) × ℤ)
  outConstants : List ((ℕ × ℕ) × ℤ)
  one_lt_depth : 1 < toCMTCircuit.depth
  size_pos : ∀ lvl < toCMTCircuit.depth, 0 < (toCMTCircuit.layer lvl).size
  inRange : ∀ lvl, lvl + 1 < toCMTCircuit.depth → ∀ j < (toCMTCircuit.layer lvl).size,
    ((toCMTCircuit.layer lvl).gate j).in1 < (toCMTCircuit.layer (lvl + 1)).size ∧
      ((toCMTCircuit.layer lvl).gate j).in2 < (toCMTCircuit.layer (lvl + 1)).size

namespace ProtocolCircuit

theorem depth_pos (c : ProtocolCircuit) : 0 < c.depth := Nat.zero_lt_of_lt c.one_lt_depth

/-- `getMaxSumCheckRounds`, the length of the vector `zi`. -/
def getMaxSumCheckRounds (c : ProtocolCircuit) : ℕ :=
  forLoop (c.depth - 1)
    (fun i maxSumCheckRounds =>
      max maxSumCheckRounds ((c.layer i).logSize + 2 * (c.layer (i + 1)).logSize)) 0

/-- The point of every level fits in `zi`. -/
theorem logSize_le_getMaxSumCheckRounds (c : ProtocolCircuit) {lvl : ℕ} (hlvl : lvl < c.depth) :
    (c.layer lvl).logSize ≤ c.getMaxSumCheckRounds := by
  have hrounds : ∀ i < c.depth - 1,
      (c.layer i).logSize + 2 * (c.layer (i + 1)).logSize ≤ c.getMaxSumCheckRounds := by
    refine forLoop_induction (P := fun n m => ∀ i < n,
      (c.layer i).logSize + 2 * (c.layer (i + 1)).logSize ≤ m) ?_ ?_
    · exact fun i hi => absurd hi (Nat.not_lt_zero i)
    · intro n _ m hm i hi
      rcases Nat.lt_succ_iff_lt_or_eq.1 hi with hlt | rfl
      · exact (hm i hlt).trans (le_max_left _ _)
      · exact le_max_right _ _
  have hdepth : 1 < c.depth := c.one_lt_depth
  by_cases hlast : lvl < c.depth - 1
  · exact (Nat.le_add_right _ _).trans (hrounds lvl hlast)
  · -- the input level is the second layer of the last round
    obtain ⟨k, rfl⟩ : ∃ k, lvl = k + 1 := ⟨lvl - 1, by omega⟩
    have hround := hrounds k (by omega)
    omega

/-- The two layers of a round of `compute`; beyond the last round there are none. -/
def pair (c : ProtocolCircuit) (lvl : ℕ) : LayerPair :=
  if h : lvl + 1 < c.depth then
    { out := c.layer lvl
      inSize := (c.layer (lvl + 1)).size
      in_pos := c.size_pos (lvl + 1) h
      out_pos := c.size_pos lvl (Nat.lt_of_succ_lt h)
      inRange := c.inRange lvl h }
  else LayerPair.double

/-- `getInputLayer`. -/
def inputLevel (c : ProtocolCircuit) : ℕ := c.depth - 1

/-- `initializeInputs`. -/
def initializeInputs (c : ProtocolCircuit) (prime : ℤ) (inputs magic : List ℚ)
    (data : CircuitData) : CircuitData :=
  let data := CMTCircuit.setGates prime c.inGates inputs data
  let data := CMTCircuit.setGates prime c.magicGates magic data
  CMTCircuit.setGates prime (c.inConstants.map Prod.fst)
    (c.inConstants.map fun g => (g.2 : ℚ)) data

/-- `initializeOutputs`. -/
def initializeOutputs (c : ProtocolCircuit) (prime : ℤ) (outputs : List ℚ) (data : CircuitData) :
    CircuitData :=
  let data := CMTCircuit.setGates prime c.outGates outputs data
  CMTCircuit.setGates prime (c.outConstants.map Prod.fst)
    (c.outConstants.map fun g => (g.2 : ℚ)) data

end ProtocolCircuit

/-- `inner.copy(vec, b * inner.size(), inner.size())`. -/
def instanceOf (size : ℕ) (vec : ℕ → ℚ) (b : ℕ) : List ℚ :=
  (List.range size).map fun i => vec (b * size + i)

/-- The residues of a level. -/
def zValues (data : CircuitData) (lvl : ℕ) : Vec := fun j => (data lvl j).zValue

/-! ## Messages -/

/-- The verifier's messages from `NOTIFY_Z0` on. -/
inductive CmtMessage where
  | notifyZ0 (z : List ℤ)
  | beginLayer (level : ℕ)
  | sumCheck (request : Request)
  | line (message : LineMessage)
  | endCmt
deriving DecidableEq, Repr

/-- What answers the verifier: the two vectors for `REQ_OUTPUTS`, and from then on a response
to every message. -/
structure Provers where
  outputs : ℕ → ℚ
  magics : ℕ → ℚ
  answer : List CmtMessage → Vec

/-- The draws of the verifier: the point of level zero, the challenges of the sum-check of every
level and the parameter of the line after it. -/
structure Coins where
  z : Vec
  rand : ℕ → Vec
  newRand : ℕ → ℤ

/-! ## The verifier -/

section Verifier

variable (c : ProtocolCircuit) (prime : ℤ) (batchSize : ℕ)

/-- The locals of `compute` and the messages sent. -/
structure VerifierRun where
  claims : VerifierLevel
  sent : List CmtMessage

/-- The loop of `initializeProtocol`: the circuit takes the outputs of one instance after the
other, and its level zero is evaluated at the point. -/
def evaluateOutputs (chis : Vec) (outputs : ℕ → ℚ) (data : CircuitData) (r0 : Vec) :
    Vec × CircuitData :=
  forLoop batchSize
    (fun b s =>
      let data := c.initializeOutputs prime (instanceOf c.outGates.length outputs b) s.2
      (Function.update s.1 b (evaluateVChis (c.layer 0).size (zValues data 0) chis prime), data))
    (r0, data)

/-- `initializeProtocol`, and the message with the point. -/
def initializeProtocol (coins : Coins) (outputs : ℕ → ℚ) (data : CircuitData) :
    VerifierRun × CircuitData :=
  let size := (c.layer 0).size
  let chis := computeChiAll size zeroVec (c.layer 0).logSize coins.z prime
  let run := evaluateOutputs c prime batchSize chis outputs data zeroVec
  ({ claims :=
      { success := true
        zi := forLoop (c.layer 0).logSize (fun i z0 => Function.update z0 i (coins.z i)) zeroVec
        ri := run.1 }
     sent := [.notifyZ0 ((List.range (c.layer 0).logSize).map coins.z)] },
    run.2)

/-- What the sum-check of a level is constructed from. -/
def levelTask (claims : VerifierLevel) (level : ℕ) : SumCheckTask where
  layers := c.pair level
  batchSize := batchSize
  z := claims.zi
  trueSum := claims.ri
  prime := prime

/-- What the provers answer in the sum-check that follows the messages `sent`. -/
def sumCheckStrategy (provers : Provers) (sent : List CmtMessage) : Strategy :=
  fun received => provers.answer (sent ++ received.map .sumCheck)

/-- `checkLevel`. -/
def checkLevel (provers : Provers) (coins : Coins) (level : ℕ) (s : VerifierRun) : VerifierRun :=
  let t := levelTask c prime batchSize s.claims level
  let sent := s.sent ++ [.beginLayer level]
  let strategy := sumCheckStrategy provers sent
  let results := run t strategy (coins.rand level)
  if results.success then
    let requests := (runRounds t strategy (coins.rand level) (numRounds t)).sent ++ [.vs]
    let sent := sent ++ requests.map .sumCheck ++ [.line .reqLpoly]
    let finish := finishLevel t results (provers.answer sent) (coins.newRand level) s.claims
    { claims := finish.1, sent := sent ++ [.line finish.2] }
  else
    { claims := { s.claims with success := false }, sent := sent ++ [.line .endLayer] }

/-- The loop over the levels, which ends with the first one that fails. -/
def runLevels (provers : Provers) (coins : Coins) (levels : ℕ) (s : VerifierRun) : VerifierRun :=
  forLoop levels
    (fun i s => if s.claims.success then checkLevel c prime batchSize provers coins i s else s) s

/-- One pass of the loop of `checkFinal`. -/
def checkInstance (chis : Vec) (ri : Vec) (inputs magics : ℕ → ℚ) (b : ℕ)
    (s : Bool × CircuitData) : Bool × CircuitData :=
  if s.1 then
    let data := c.initializeInputs prime (instanceOf c.inGates.length inputs b)
      (instanceOf c.magicGates.length magics b) s.2
    (decide (ri b = evaluateVChis (c.layer c.inputLevel).size (zValues data c.inputLevel) chis
      prime), data)
  else s

/-- `checkFinal`. -/
def checkFinal (zi ri : Vec) (inputs magics : ℕ → ℚ) (data : CircuitData) : Bool :=
  let size := (c.layer c.inputLevel).size
  let chis := computeChiAll size zeroVec (c.layer c.inputLevel).logSize zi prime
  (forLoop batchSize (checkInstance c prime chis ri inputs magics) (true, data)).1

/-- The verdict of `compute`, the outputs of its caller and all messages sent. -/
structure ComputeResult where
  success : Bool
  outputs : ℕ → ℚ
  sent : List CmtMessage

/-- `compute`: the outputs are those of the provers if the verdict is positive. -/
def compute (provers : Provers) (coins : Coins) (inputs outputs : ℕ → ℚ) (data : CircuitData) :
    ComputeResult :=
  if batchSize < 1 then { success := true, outputs := outputs, sent := [] }
  else
    let start := initializeProtocol c prime batchSize coins provers.outputs data
    let s := runLevels c prime batchSize provers coins (c.depth - 1) start.1
    let success := s.claims.success &&
      checkFinal c prime batchSize s.claims.zi s.claims.ri inputs provers.magics start.2
    { success := success
      outputs := if success then provers.outputs else outputs
      sent := s.sent ++ [.endCmt] }

end Verifier

/-! ## The prover -/

section Prover

variable (c : ProtocolCircuit) (prime : ℤ) (batchSize : ℕ)

/-- Where `CMTCircuitProver::run` waits for a message: in its own loop, in the sum-check of a
level, in `doMiniIP`, or no more. -/
inductive Phase where
  | idle
  | inSumCheck (level : ℕ) (received : List Request)
  | inMiniIP (level : ℕ) (rand lpoly : Vec)
  | done

/-- `CMTCircuitProver`, with its last response. -/
structure CmtProver where
  zi : Vec
  ri : Vec
  phase : Phase
  response : Vec

/-- After `initProtocol`. -/
def CmtProver.init : CmtProver where
  zi := zeroVec
  ri := zeroVec
  phase := .idle
  response := zeroVec

/-- What the sum-check of a level is constructed from, with the evaluated circuits of the batch. -/
def proverInput (data : ℕ → CircuitData) (s : CmtProver) (level : ℕ) : SumCheckInput where
  layers := c.pair level
  batchSize := batchSize
  z := s.zi
  trueSum := s.ri
  prime := prime
  inValue := fun b => zValues (data b) (level + 1)
  outValue := fun b => zValues (data b) level

/-- `NOTIFY_Z0`. -/
def notifyZ0 (data : ℕ → CircuitData) (z : List ℤ) (s : CmtProver) : CmtProver :=
  let zi := forLoop (c.layer 0).logSize (fun i zi => Function.update zi i (z.getD i (zi i))) s.zi
  { s with
    zi := zi
    ri := forLoop batchSize
      (fun b ri => Function.update ri b
        (evaluateVi (c.layer 0).size (zValues (data b) 0) zi prime))
      s.ri }

/-- A message in the sum-check of a level; `REQ_VS` ends it. -/
def sumCheckStep (data : ℕ → CircuitData) (level : ℕ) (received : List Request)
    (request : Request) (s : CmtProver) : CmtProver :=
  let input := proverInput c prime batchSize data s level
  let received := received ++ [request]
  { s with
    response := respond input received
    phase :=
      match request with
      | .scPoly _ => .inSumCheck level received
      | .vs => .inMiniIP level (runProver input received).rand zeroVec }

/-- A message in `doMiniIP`. -/
def miniIPStep (data : ℕ → CircuitData) (level : ℕ) (rand lpoly : Vec) (message : LineMessage)
    (s : CmtProver) : CmtProver :=
  let input := proverInput c prime batchSize data s level
  let out := doMiniIP input rand
    { lpoly := lpoly, zi := s.zi, ri := s.ri, returnVal := none } message
  { zi := out.zi
    ri := out.ri
    response := out.lpoly
    phase :=
      match out.returnVal with
      | none => .inMiniIP level rand out.lpoly
      | some true => .idle
      | some false => .done }

/-- One message of `run`; a header that nobody waits for is dropped. -/
def proverStep (data : ℕ → CircuitData) (s : CmtProver) (message : CmtMessage) : CmtProver :=
  match s.phase, message with
  | .idle, .notifyZ0 z => notifyZ0 c prime batchSize data z s
  | .idle, .beginLayer level =>
      if c.depth - 1 ≤ level then s else { s with phase := .inSumCheck level [] }
  | .idle, .endCmt => { s with phase := .done }
  | .inSumCheck level received, .sumCheck request =>
      sumCheckStep c prime batchSize data level received request s
  | .inSumCheck _ _, .line .endLayer => { s with phase := .done }
  | .inMiniIP level rand lpoly, .line message =>
      miniIPStep c prime batchSize data level rand lpoly message s
  | _, _ => s

/-- `CMTCircuitProver` after the messages it has received. -/
def runCmtProver (data : ℕ → CircuitData) (received : List CmtMessage) : CmtProver :=
  received.foldl (proverStep c prime batchSize data) .init

/-- `getOutputs` and `getMagics`: the values of the gates, shortened. -/
def getGates (gates : List (ℕ × ℕ)) (data : ℕ → CircuitData) (i : ℕ) : ℚ :=
  match gates[i % gates.length]? with
  | some g => modIfNeededQ (data (i / gates.length) g.1 g.2).qValue prime 1
  | none => 0

/-- `CMTCircuitProver` with the evaluated circuits `data`. -/
def cmtProvers (data : ℕ → CircuitData) : Provers where
  outputs := getGates prime c.outGates data
  magics := getGates prime c.magicGates data
  answer := fun received => (runCmtProver c prime batchSize data received).response

end Prover

end Pepper.Cmtgkr.CircuitProtocol
