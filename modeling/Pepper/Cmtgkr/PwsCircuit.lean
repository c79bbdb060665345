import Pepper.Cmtgkr.PwsCircuitParser

/-!
# Circuits of worksheets

`PWSCircuit`: the circuit built from a parser's description, its evaluation in slices
between the operations that set magic variables, and the tables through which inputs,
magic variables and outputs are read and set. Values are kept by layer, the input layer
first, and by the gate's number in its layer.
-/

set_option autoImplicit false

open Pepper.Common.Gmp Pepper.Foundations.Loop Pepper.Cmtgkr.Layer

namespace Pepper.Cmtgkr.Pws

/-! ## Construction -/

/-- `PWSCircuit`: the wiring of each layer and the gates of the mappings, null where a
name has no gate. -/
structure PWSCircuit where
  parser : PWSCircuitParser
  layers : List (List GateWiring)
  inGates : List (Option ℕ)
  outGates : List (Option ℕ)
  magicGates : List (Option ℕ)

/-- `makeGateMapping` from a map; a gate outside the layer fails an assertion. -/
def makeGateMapping (size : ℕ) (mapping : List (ℕ × ℕ)) (offset : ℕ) :
    Option (List (Option ℕ)) :=
  match mapping.getLast? with
  | none => some []
  | some (key, _) =>
      if mapping.all fun e => e.2 < size then
        some ((List.range (key - offset + 1)).map fun i => mapping.lookup (i + offset))
      else none

/-- `makeGateMapping` from a vector. -/
def makeGateMappingVec (size : ℕ) (mapping : List ℕ) : Option (List (Option ℕ)) :=
  if mapping.all (· < size) then some (mapping.map some) else none

/-- `constructCircuit`. A circuit without layers fails an assertion. -/
def constructCircuit (parser : PWSCircuitParser) : Option PWSCircuit := do
  let layers := parser.circuitDesc.map fun layer => layer.map GateDescription.makeGate
  let inputLayer ← layers.head?
  let outputLayer ← layers.getLast?
  let inGates ← makeGateMapping inputLayer.length parser.inGates 0
  let outGates ← makeGateMapping outputLayer.length parser.outGates parser.outputGateBegin
  let magicGates ← makeGateMappingVec inputLayer.length parser.magicGates
  pure
    { parser := parser, layers := layers, inGates := inGates, outGates := outGates,
      magicGates := magicGates }

namespace PWSCircuit

variable (c : PWSCircuit)

/-- `depth`. -/
def depth : ℕ := c.layers.length

/-- The gates of a layer. -/
def layer (lNum : ℕ) : List GateWiring := c.layers.getD lNum []

/-- The number of the output layer. -/
def outLayer : ℕ := c.depth - 1

end PWSCircuit

/-! ## Values -/

/-- The values of the gates, by layer and number. -/
abbrev Values := ℕ → ℕ → Gate

/-- Fresh gate data. -/
def zeroValues : Values := fun _ _ => ⟨0, 0⟩

/-- The value of the gate at a position. -/
def Values.at (v : Values) (pos : GatePosition) : Gate := v pos.layer pos.name

/-- Writing the gate at a position. -/
def Values.set (v : Values) (pos : GatePosition) (g : Gate) : Values :=
  Function.update v pos.layer (Function.update (v pos.layer) pos.name g)

/-- `Gate::setValue` of an integer. -/
def setValueZ (prime value : ℤ) : Gate :=
  Gate.canonicalize prime { qValue := value, zValue := value }

/-- `setGates` on a layer. -/
def setGates (prime : ℤ) (gates : List (Option ℕ)) (vec : List ℚ) (v : ℕ → Gate) : ℕ → Gate :=
  (gates.zip vec).foldl
    (fun v e =>
      match e.1 with
      | some idx => Function.update v idx ((v idx).setValue prime e.2)
      | none => v)
    v

/-- `getGates`: what is sent of the gates of a mapping. -/
def getGates (prime : ℤ) (gates : List (Option ℕ)) (v : ℕ → Gate) : List ℚ :=
  gates.map fun g =>
    match g with
    | some idx => modIfNeededQ (v idx).qValue prime 1
    | none => 0

/-- The loops over constants. `num` keeps its value where a text is no integer. -/
def setConstants (prime : ℤ) (entries : List (Text × List ℕ)) (v : ℕ → Gate) : ℕ → Gate :=
  (entries.foldl
    (fun (st : ℤ × (ℕ → Gate)) e =>
      let num := (mpzSetStr e.1).getD st.1
      (num, e.2.foldl (fun v idx => Function.update v idx (setValueZ prime num)) st.2))
    (0, v)).2

namespace PWSCircuit

variable (c : PWSCircuit) (prime : ℤ)

/-- The constants of the input layer with their gates. -/
def inConstantEntries : List (Text × List ℕ) := c.parser.inConstants.map fun e => (e.1, [e.2])

/-- `initializeInputs`. -/
def initializeInputs (inputs magic : List ℚ) (v : Values) : Values :=
  Function.update v 0
    (setConstants prime c.inConstantEntries
      (setGates prime c.magicGates magic (setGates prime c.inGates inputs (v 0))))

/-- `initializeOutputs`. -/
def initializeOutputs (outputs : List ℚ) (v : Values) : Values :=
  Function.update v c.outLayer
    (setConstants prime c.parser.outConstants (setGates prime c.outGates outputs (v c.outLayer)))

/-! ## Evaluation -/

/-- The gates of a layer from `first` up to `last`. -/
def evalLayer (lNum first last : ℕ) (v : Values) : Values :=
  forLoop (last - first)
    (fun j v =>
      let wiring := (c.layer lNum).getD (first + j) default
      v.set ⟨lNum, first + j⟩
        ((v lNum (first + j)).computeGateValue prime wiring (v (lNum - 1) wiring.in1)
          (v (lNum - 1) wiring.in2)))
    v

/-- `evalGates` up to the end of every layer. -/
def evalGatesFrom (start : List ℕ) (v : Values) : Values :=
  forLoop (c.depth - 1)
    (fun l v => c.evalLayer prime (l + 1) (start.getD (l + 1) 0) (c.layer (l + 1)).length v) v

/-- `evalGates` between two guards. -/
def evalGates (start stop : List ℕ) (v : Values) : Values :=
  forLoop (stop.length - 1)
    (fun l v => c.evalLayer prime (l + 1) (start.getD (l + 1) 0) (stop.getD (l + 1) 0) v) v

end PWSCircuit

/-- `setVal`. -/
def setVal (v : Values) (pos : GatePosition) (val : ℤ) : Values :=
  v.set pos { qValue := val, zValue := val }

/-- `computeMs`. -/
def computeMs (ms : List GatePosition) (x1 x2 : ℚ) (v : Values) : Values :=
  let flags : List ℤ := if x1 < x2 then [1, 0, 0] else if x1 = x2 then [0, 1, 0] else [0, 0, 1]
  (ms.zip flags).foldl (fun v e => setVal v e.1 e.2) v

/-- `mpz_tstbit`, of the two's complement. -/
def tstbit (a : ℤ) (i : ℕ) : Bool := a / 2 ^ i % 2 == 1

/-- `computeBits`. -/
def computeBits (bits : List GatePosition) (sum : ℤ) (trueBits : Bool) (v : Values) : Values :=
  let tmp := if trueBits then sum else sum + 2 ^ bits.length
  (bits.zipIdx).foldl
    (fun v e => setVal v e.1 (if tstbit tmp e.2 then (if trueBits then 1 else 2 ^ e.2) else 0)) v

/-- `toTrueNumber` on the residue of a gate, in place. -/
def toTrueResidue (prime : ℤ) (pos : GatePosition) (v : Values) : Values :=
  v.set pos { v.at pos with zValue := toTrueNumber (v.at pos).zValue (prime.tdiv 2) prime }

/-- `toTrueNumber` on the rational of a gate, in place. -/
def toTrueRational (prime : ℤ) (pos : GatePosition) (v : Values) : Values :=
  let q := (v.at pos).qValue
  v.set pos
    { v.at pos with
      qValue := if prime.tdiv 2 < q.num then Rat.divInt (q.num - prime) q.den else q }

/-- `computeMagicGates`. The operands are read again after the flags are set. -/
def computeMagicGates (prime : ℤ) (op : MagicVarOperation) (v : Values) : Values :=
  match op with
  | .notEqual m x1 x2 =>
      if (v.at x1).zValue = (v.at x2).zValue then setVal v m 0
      else
        let diff := (v.at x1).zValue - (v.at x2).zValue
        setVal v m (mpzInvert diff diff prime)
  | .lessThanInt ms ns x1 x2 =>
      let v := toTrueResidue prime x2 (toTrueResidue prime x1 v)
      let below := (v.at x1).zValue < (v.at x2).zValue
      let v := computeMs ms (v.at x1).zValue (v.at x2).zValue v
      let diff :=
        if below then (v.at x1).zValue - (v.at x2).zValue
        else (v.at x2).zValue - (v.at x1).zValue
      computeBits ns diff false v
  | .lessThanFloat ms ns ds x1 x2 =>
      let v := toTrueRational prime x2 (toTrueRational prime x1 v)
      let below := (v.at x1).qValue < (v.at x2).qValue
      let v := computeMs ms (v.at x1).qValue (v.at x2).qValue v
      let diff :=
        if below then (v.at x1).qValue - (v.at x2).qValue
        else (v.at x2).qValue - (v.at x1).qValue
      computeBits ds diff.den true (computeBits ns diff.num false v)

namespace PWSCircuit

variable (c : PWSCircuit) (prime : ℤ)

/-- The loop of `evaluate` over the operations. -/
def evaluateOps : List (List ℕ × MagicVarOperation) → List ℕ → Values → Values
  | [], lastGuard, v => c.evalGatesFrom prime lastGuard v
  | (guard, op) :: ops, lastGuard, v =>
      evaluateOps ops guard (computeMagicGates prime op (c.evalGates prime lastGuard guard v))

/-- `evaluate`. -/
def evaluate (v : Values) : Values := c.evaluateOps prime c.parser.magicOps [] v

/-! ## The two parties -/

/-- What the prover holds and sends for one instance. -/
structure ProverRun where
  values : Values
  outputs : List ℚ
  magics : List ℚ

/-- The prover's answer to `REQ_OUTPUTS`. -/
def prove (inputs : List ℚ) : ProverRun :=
  let values := c.evaluate prime (c.initializeInputs prime inputs [] zeroValues)
  { values := values
    outputs := getGates prime c.outGates (values c.outLayer)
    magics := getGates prime c.magicGates (values 0) }

/-- The verifier's circuit at its first claim. -/
def verifierOutputs (outputs : List ℚ) : Values := c.initializeOutputs prime outputs zeroValues

/-- The verifier's circuit at its last check. -/
def verifierInputs (inputs magics outputs : List ℚ) : Values :=
  c.initializeInputs prime inputs magics (c.verifierOutputs prime outputs)

end PWSCircuit

end Pepper.Cmtgkr.Pws
