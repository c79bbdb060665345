import Pepper.Cmtgkr.PwsPrimitives

/-!
# The worksheet parser

`PWSCircuitParser`: it reads a worksheet line by line and builds a layered circuit, whose
gates only read the layer below. A value is carried up by adding zero (`promotePrimitive`,
`promoteGate`); sums and products are built as balanced trees (`reduce`). After the last
line the outputs are carried to a common layer and the positions of the inputs, magic
variables, outputs and constants are listed.

A run that prints a parse error, abandons a line, does not end or reads past the end of a
vector is `none`. The order of two function arguments that both add gates is left open by
the language: `rightFirst` says whether the right one comes first.
-/

set_option autoImplicit false

open Pepper.Common.Gmp Pepper.Cmtgkr.Env Pepper.Cmtgkr.Layer

namespace Pepper.Cmtgkr.Pws

/-- The members of `PWSCircuitParser`. `constMap` is the position in `constants`, which
only grows. -/
structure PWSCircuitParser where
  varMap : List (ℕ × CVar)
  inOutVarsMap : List (ℕ × CVar)
  outConstantDesc : List (GatePosition × Text)
  constants : List CConst
  circuitDesc : CircuitDescription
  magicOps : List (List ℕ × MagicVarOperation)
  outConstants : List (Text × List ℕ)
  inConstants : List (Text × ℕ)
  outputGateBegin : ℕ
  inGates : List (ℕ × ℕ)
  outGates : List (ℕ × ℕ)
  magicGates : List ℕ
deriving DecidableEq, Repr

/-- After `clear`. -/
def PWSCircuitParser.new : PWSCircuitParser where
  varMap := []
  inOutVarsMap := []
  outConstantDesc := []
  constants := []
  circuitDesc := []
  magicOps := []
  outConstants := []
  inConstants := []
  outputGateBegin := 0
  inGates := []
  outGates := []
  magicGates := []

/-- A run of a member function. -/
abbrev ParserM := StateT PWSCircuitParser Option

/-! ## Primitives -/

/-- `getVarMap`. -/
def getVarMap (p : Primitive) (s : PWSCircuitParser) : List (ℕ × CVar) :=
  if p.isInputOutput then s.inOutVarsMap else s.varMap

/-- Writing an entry of `getVarMap`. -/
def setVarMap (p : Primitive) (v : CVar) (s : PWSCircuitParser) : PWSCircuitParser :=
  if p.isInputOutput then { s with inOutVarsMap := mapSet p.idx v s.inOutVarsMap }
  else { s with varMap := mapSet p.idx v s.varMap }

/-- `getCircuitVariable`. The map holds a null pointer for a name it does not have. -/
def getCircuitVariable (p : Primitive) : ParserM CVar := fun s =>
  ((getVarMap p s).lookup p.idx).map fun v => (v, s)

/-- `getCircuitPrimitive`: a `CPrimitive&` is the place where the object is. -/
def getCircuitPrimitive (p : Primitive) : ParserM CPrimitive := fun s =>
  if p.isConstant then (s.constants[p.idx]?).map fun c => (c.toCPrimitive, s)
  else ((getVarMap p s).lookup p.idx).map fun v => (v.toCPrimitive, s)

/-- Writing through a `CPrimitive&`. -/
def modifyPrimitive (p : Primitive) (f : CPrimitive → CPrimitive) : ParserM Unit := fun s =>
  if p.isConstant then
    (s.constants[p.idx]?).map fun c =>
      ((), { s with constants := s.constants.set p.idx { c with toCPrimitive := f c.toCPrimitive } })
  else
    ((getVarMap p s).lookup p.idx).map fun v =>
      ((), setVarMap p { v with toCPrimitive := f v.toCPrimitive } s)

/-- `toPrimitive` of the object at a place. -/
def toPrimitive (p : Primitive) : ParserM Primitive := fun s =>
  if p.isConstant then (s.constants[p.idx]?).map fun c => (c.toPrimitive, s)
  else ((getVarMap p s).lookup p.idx).map fun v => (v.toPrimitive, s)

/-- `addVariable`. -/
def addVariable (type : VarType) (name : ℕ) : ParserM Primitive := fun s =>
  let testVar : CVar := { CPrimitive.new with varType := type, name := name }
  let p := testVar.toPrimitive
  match (getVarMap p s).lookup name with
  | some _ => some (p, s)
  | none => some (p, setVarMap p testVar s)

/-- `addConstant`. -/
def addConstant (constant : Text) : ParserM Primitive := fun s =>
  match s.constants.findIdx? (fun c => c.value == constant) with
  | some i => some (⟨.constant, i⟩, s)
  | none =>
      let i := s.constants.length
      some (⟨.constant, i⟩,
        { s with constants := s.constants ++ [{ CPrimitive.new with value := constant, name := i }] })

/-- `makeMagic`. -/
def makeMagic (p : Primitive) : ParserM Unit :=
  if p.isVariable then do
    let v ← getCircuitVariable p
    modify (setVarMap p v.makeMagic)
  else pure ()

/-! ## Gates -/

/-- `getLayer`: missing layers are appended. -/
def growLayers (layerNum : ℕ) (desc : CircuitDescription) : CircuitDescription :=
  desc ++ List.replicate (layerNum + 1 - desc.length) []

/-- `getGate` of a position, for reading. -/
def getGateDescription (pos : GatePosition) : ParserM GateDescription := fun s =>
  ((s.circuitDesc[pos.layer]?).bind fun layer => layer[pos.name]?).map fun g => (g, s)

/-- `getGate` of a position, for writing. -/
def modifyGate (pos : GatePosition) (f : GateDescription → GateDescription) : ParserM Unit :=
  fun s =>
    ((s.circuitDesc[pos.layer]?).bind fun layer => layer[pos.name]?).map fun _ =>
      ((), { s with circuitDesc := s.circuitDesc.modify pos.layer fun layer =>
        layer.modify pos.name f })

/-- `addGate`. -/
def addGate (op : OpType) (in1 in2 outLayerNum : ℕ) : ParserM GatePosition := fun s =>
  let desc := growLayers outLayerNum s.circuitDesc
  let pos : GatePosition := ⟨outLayerNum, (desc.getD outLayerNum []).length⟩
  some (pos, { s with circuitDesc := desc.modify outLayerNum fun layer =>
    layer ++ [{ op := op, pos := pos, in1 := in1, in2 := in2, boundPrimitive := .empty }] })

/-- `bindVariable`. All old gates are looked for in the lowest layer. -/
def bindVariable (var : Primitive) (gate : GatePosition) : ParserM Unit := do
  let v ← getCircuitPrimitive var
  if v.isBound then
    v.gateIndex.forM fun name => modifyGate ⟨v.minLayer, name⟩ GateDescription.unbind
  modifyPrimitive var (·.bind gate)
  modifyGate gate (·.bind var)

/-- `addToCircuit`. -/
def addToCircuit (p : Primitive) : ParserM Unit := do
  let cp ← getCircuitPrimitive p
  if !cp.isBound then
    let var ← toPrimitive p
    let gate ← addGate .constant 0 0 0
    bindVariable var gate

/-- The constant zero. -/
def zeroConstant : ParserM Primitive := addConstant (Text.ofInt 0)

/-- One pass of the loop of `promotePrimitive`; `getGate` is the overload for a primitive
and a layer. -/
def promoteStep (getGate : Primitive → ℕ → ParserM GatePosition) (p : Primitive) :
    ParserM Unit := do
  let zero ← zeroConstant
  let cp ← getCircuitPrimitive p
  let g1 ← getGate p cp.maxLayer
  let g2 ← getGate zero cp.maxLayer
  let g ← addGate .add g1.name g2.name (cp.maxLayer + 1)
  let var ← toPrimitive p
  modifyGate g (·.bind var)
  modifyPrimitive p (·.push g.name)

/-- The loop of `promotePrimitive`. The highest layer grows at every pass. -/
def promoteLoop (step : ParserM Unit) (p : Primitive) (layer : ℕ) : ℕ → ParserM Unit
  | 0 => failure
  | fuel + 1 => do
      let cp ← getCircuitPrimitive p
      if layer > cp.maxLayer then
        step
        promoteLoop step p layer fuel

/-- `promotePrimitive`. It carries up a variable with the help of the constant zero, which
is carried up with its own help; `depth` counts these nested calls, of which there are at
most two. -/
def promotePrimitiveAt : ℕ → Primitive → ℕ → ParserM GatePosition
  | 0, _, _ => failure
  | depth + 1, p, layer => do
      let getGate (q : Primitive) (l : ℕ) : ParserM GatePosition := do
        addToCircuit q
        let cq ← getCircuitPrimitive q
        promotePrimitiveAt depth q (if l = 0 then cq.minLayer else l)
      promoteLoop (promoteStep getGate p) p layer (layer + 1)
      let cp ← getCircuitPrimitive p
      if layer < cp.minLayer then failure
      match cp.gateIndex[layer - cp.minLayer]? with
      | some name => pure ⟨layer, name⟩
      | none => failure

/-- `promotePrimitive`. -/
def promotePrimitive (p : Primitive) (layer : ℕ) : ParserM GatePosition :=
  promotePrimitiveAt 3 p layer

/-- `getGate` of a primitive; layer `0` stands for its lowest layer. -/
def getGate (p : Primitive) (layer : ℕ) : ParserM GatePosition := do
  addToCircuit p
  let cp ← getCircuitPrimitive p
  promotePrimitive p (if layer = 0 then cp.minLayer else layer)

/-- The loop of `promoteGate` on a gate that is bound to nothing. -/
def promoteUnbound (gatePos : GatePosition) : ℕ → ParserM GatePosition
  | 0 => pure gatePos
  | n + 1 => do
      let zero ← zeroConstant
      let zeroGate ← getGate zero gatePos.layer
      let g ← addGate .add gatePos.name zeroGate.name (gatePos.layer + 1)
      promoteUnbound g n

/-- `promoteGate`. -/
def promoteGate (g : GatePosition) (layer : ℕ) : ParserM GatePosition := do
  let desc ← getGateDescription g
  match desc.boundPrimitive.option with
  | some p => promotePrimitive p layer
  | none => promoteUnbound g (layer - g.layer)

/-- `makeGate`. -/
def makeGate (op : OpType) (in1 in2 : GatePosition) : ParserM GatePosition :=
  if in1.layer ≠ in2.layer then do
    let layer := max in1.layer in2.layer
    let gate1 ← promoteGate in1 layer
    let gate2 ← promoteGate in2 layer
    addGate op gate1.name gate2.name (layer + 1)
  else addGate op in1.name in2.name (in1.layer + 1)

/-- `negateGate`. -/
def negateGate (g : GatePosition) : ParserM GatePosition := do
  let neg1 ← addConstant (Text.ofInt (-1))
  let neg1Gate ← getGate neg1 g.layer
  addGate .mul g.name neg1Gate.name (g.layer + 1)

/-- `makeSubGate` of the gates of two primitives. -/
def makeSubGate (rightFirst : Bool) (x1 x2 : Primitive) : ParserM GatePosition := do
  if rightFirst then
    let in2 ← getGate x2 0
    let in1 ← getGate x1 0
    let neg ← negateGate in2
    makeGate .add in1 neg
  else
    let in1 ← getGate x1 0
    let in2 ← getGate x2 0
    let neg ← negateGate in2
    makeGate .add in1 neg

/-- `bindOutputConstant` of a number. -/
def bindOutputConstant (outGate : GatePosition) (val : Text) : ParserM Unit :=
  modify fun s => { s with outConstantDesc := s.outConstantDesc ++ [(outGate, val)] }

/-- `makeZeroOrOtherGate`. -/
def makeZeroOrOtherGate (var : Primitive) (other : ℤ) : ParserM Unit := do
  let otherConst ← addConstant (Text.ofInt (-other))
  let otherConstGate ← getGate otherConst 0
  let varGate ← getGate var 0
  let nzTerm ← makeGate .add otherConstGate varGate
  let zOrOtherGate ← makeGate .mul varGate nzTerm
  bindOutputConstant zOrOtherGate (Text.ofInt 0)

/-- The `while` loop of `reduce`; every pass halves the list. -/
def reduceLoop (op : OpType) : ℕ → List GatePosition → ℕ → ParserM GatePosition
  | 0, _, _ => failure
  | fuel + 1, terms, inLayer =>
      let pairs : List GatePosition → ParserM (List GatePosition) :=
        fun terms => (List.range (terms.length / 2)).mapM fun i =>
          addGate op (terms.getD (2 * i) ⟨0, 0⟩).name (terms.getD (2 * i + 1) ⟨0, 0⟩).name
            (inLayer + 1)
      match terms with
      | [] => failure
      | [g] => pure g
      | g :: gs =>
          if (g :: gs).length % 2 = 1 then do
            let first ← promoteGate g (inLayer + 1)
            let out ← pairs gs
            reduceLoop op fuel (first :: out) (inLayer + 1)
          else do
            let out ← pairs (g :: gs)
            reduceLoop op fuel out (inLayer + 1)

/-- `reduce`. -/
def reduce (op : OpType) (terms : List GatePosition) : ParserM GatePosition :=
  match terms with
  | [] => do
      let zero ← zeroConstant
      getGate zero 0
  | [g] => pure g
  | _ => do
      let inLayer := terms.foldl (fun l g => max l g.layer) 0
      let terms' ← terms.mapM fun g => promoteGate g inLayer
      reduceLoop op terms.length terms' inLayer

/-! ## Lines -/

/-- `parseVar`: the fixed words that begin like a variable have the number zero, and a bare
`M` is an error. -/
def parseVar : Token → ParserM (Option Primitive)
  | .var type name => do
      let p ← addVariable type name
      -- the primitive of the object, which an earlier line may have made magic
      let p ← toPrimitive p
      pure (some p)
  | .word .mlt | .word .meq | .word .mgt => do
      let p ← addVariable .magic 0
      let p ← toPrimitive p
      pure (some p)
  | .word .m => failure
  | _ => pure none

/-- `parsePrimitive`. -/
def parsePrimitive : Token → ParserM (Option Primitive)
  | .const text => do
      if mpqSetStr text then
        let p ← addConstant text
        pure (some p)
      else failure
  | token => parseVar token

mutual

/-- `parsePoly`: the words up to `end` and those behind it. -/
def parsePoly (finish : Word) : ℕ → List GatePosition → List Token →
    ParserM (Option GatePosition × List Token)
  | 0, _, _ => failure
  | _ + 1, _, [] => failure
  | fuel + 1, terms, token :: pws => do
      if token = .word .plus then
        if terms.isEmpty then failure
        else parsePoly finish fuel terms pws
      else if token = .word finish then
        match terms with
        | [] => pure (none, pws)
        | [g] => pure (some g, pws)
        | _ => do
            let g ← reduce .add terms
            pure (some g, pws)
      else do
        let (term, pws) ← parsePolyTerm fuel [] false (token :: pws)
        parsePoly finish fuel (terms ++ term.toList) pws

/-- `parsePolyTerm`. -/
def parsePolyTerm : ℕ → List GatePosition → Bool → List Token →
    ParserM (Option GatePosition × List Token)
  | 0, _, _, _ => failure
  | _ + 1, _, _, [] => failure
  | fuel + 1, vars, negate, token :: pws =>
      let finish (pws : List Token) : ParserM (Option GatePosition × List Token) :=
        match vars with
        | [] => pure (none, pws)
        | [g] => pure (some g, pws)
        | _ => do
            let g ← reduce .mul vars
            pure (some g, pws)
      match token with
      | .word .leftParen => do
          let (gate, pws) ← parsePoly .rightParen fuel [] pws
          match gate with
          | none => pure (none, pws)
          | some g => do
              let g ← if negate then negateGate g else pure g
              parsePolyTerm fuel (vars ++ [g]) false pws
      | .word .polyEnd | .word .rightParen => finish (token :: pws)
      | .word .times =>
          if vars.isEmpty then failure
          else do
            -- a sign before the star falls on the factor before it
            let vars ←
              if negate then
                match vars.getLast? with
                | some g => do
                    let g ← negateGate g
                    pure (vars.dropLast ++ [g])
                | none => pure vars
              else pure vars
            parsePolyTerm fuel vars false pws
      | .word .plus => if vars.isEmpty then failure else finish (token :: pws)
      | .word .minus => parsePolyTerm fuel vars true pws
      | _ => do
          let p ← parsePrimitive token
          match p with
          | none => pure (none, pws)
          | some p => do
              let g ← getGate p 0
              let g ← if negate then negateGate g else pure g
              parsePolyTerm fuel (vars ++ [g]) false pws

end

/-- `parsePolyConstraint`. -/
def parsePolyConstraint : List Token → ParserM (List Token)
  | token :: .word .assign :: pws => do
      let p ← parsePrimitive token
      match p with
      | none => failure
      | some p => do
          let (gate, pws) ← parsePoly .polyEnd (2 * pws.length + 2) [] pws
          match gate with
          | none => pure pws
          | some g => do
              if p.isVariable then bindVariable p g
              else
                let text ← fun s => (s.constants[p.idx]?).map fun c => (c.value, s)
                bindOutputConstant g text
              pure pws
  | _ => failure

/-- A primitive that has to be there. -/
def requirePrimitive (token : Token) : ParserM Primitive := do
  match ← parsePrimitive token with
  | some p => pure p
  | none => failure

/-- `pws >> nVars`. -/
def requireInt : Token → ParserM ℤ
  | .const text =>
      match mpzSetStr text with
      | some n => pure n
      | none => failure
  | _ => failure

/-- `getOpGuard`. -/
def getOpGuard : ParserM (List ℕ) := fun s => some (s.circuitDesc.map List.length, s)

/-- `addMagicOp`. -/
def addMagicOp (op : MagicVarOperation) (guard : List ℕ) : ParserM Unit :=
  modify fun s => { s with magicOps := s.magicOps ++ [(guard, op)] }

/-- The loop over the bits `N_0, N_1, ...`: their gates. -/
def parseBits (base : ℕ) : ℕ → ParserM (List GatePosition)
  | 0 => pure []
  | n + 1 => do
      let nis ← parseBits base n
      let ni ← addVariable .magic (base + n)
      modify (fun s =>
        match (getVarMap ni s).lookup ni.idx with
        | some v => setVarMap ni v.makeMagic s
        | none => s)
      makeZeroOrOtherGate ni (2 ^ n)
      let g ← getGate ni 0
      pure (nis ++ [g])

/-- The gates of the three flags and their constraints. -/
def parseFlags (mlt meq mgt : Primitive) :
    ParserM (GatePosition × GatePosition × GatePosition) := do
  makeMagic mlt
  makeMagic meq
  makeMagic mgt
  makeZeroOrOtherGate mlt 1
  makeZeroOrOtherGate meq 1
  makeZeroOrOtherGate mgt 1
  let lt ← getGate mlt 0
  let eq ← getGate meq 0
  let gt ← getGate mgt 0
  let sum ← reduce .add [lt, eq, gt]
  bindOutputConstant sum (Text.ofInt 1)
  pure (lt, eq, gt)

/-- The three product constraints; `bits` is the sum of the bits less the power. -/
def parseDifferences (lt eq gt bits x1Subx2 x2Subx1 : GatePosition) : ParserM Unit := do
  let below ← makeGate .add bits x2Subx1
  let below ← makeGate .mul lt below
  bindOutputConstant below (Text.ofInt 0)
  let above ← makeGate .add bits x1Subx2
  let above ← makeGate .mul gt above
  bindOutputConstant above (Text.ofInt 0)
  let equal ← makeGate .mul eq x1Subx2
  bindOutputConstant equal (Text.ofInt 0)

/-- `parseLessThanInt`. -/
def parseLessThanInt (rightFirst : Bool) : List Token → ParserM (List Token)
  | .word .bit0 :: n0 :: .word .numBits :: n :: .word .mlt :: mlt :: .word .meq :: meq ::
      .word .mgt :: mgt :: .word .x1 :: x1 :: .word .x2 :: x2 :: .word .y :: y :: pws => do
      let opGuard ← getOpGuard
      let n0 ← requirePrimitive n0
      let nVars ← requireInt n
      let mlt ← requirePrimitive mlt
      let meq ← requirePrimitive meq
      let mgt ← requirePrimitive mgt
      let x1 ← requirePrimitive x1
      let x2 ← requirePrimitive x2
      let y ← requirePrimitive y
      let nBits := (nVars - 1).toNat
      let nis ← parseBits n0.idx nBits
      let power ← addConstant (Text.ofInt (-(2 ^ nBits)))
      let powerGate ← getGate power 0
      let (lt, eq, gt) ← parseFlags mlt meq mgt
      let sumNis ← reduce .add (nis ++ [powerGate])
      let x1Subx2 ← makeSubGate rightFirst x1 x2
      let x2Subx1 ← makeSubGate rightFirst x2 x1
      parseDifferences lt eq gt sumNis x1Subx2 x2Subx1
      bindVariable y lt
      let g1 ← getGate x1 0
      let g2 ← getGate x2 0
      addMagicOp (.lessThanInt [lt, eq, gt] nis g1 g2) opGuard
      pure pws
  | _ => failure

/-- The loop over `D_0, D_1, ...`: their gates, those of their multiples, and the next power
of the inverse of two. -/
def parseDenominators (base : ℕ) (prime inv : ℤ) :
    ℕ → ParserM (List GatePosition × List GatePosition × ℤ)
  | 0 => pure ([], [], 1)
  | n + 1 => do
      let (bitDis, dis, num2) ← parseDenominators base prime inv n
      let di ← addVariable .magic (base + n)
      modify (fun s =>
        match (getVarMap di s).lookup di.idx with
        | some v => setVarMap di v.makeMagic s
        | none => s)
      makeZeroOrOtherGate di 1
      let const ← addConstant (Text.ofInt num2)
      let constGate ← getGate const 0
      let diGate ← getGate di 0
      let prod ← makeGate .mul constGate diGate
      pure (bitDis ++ [diGate], dis ++ [prod], modmult num2 inv prime)

/-- `parseLessThanFloat`. -/
def parseLessThanFloat (rightFirst : Bool) (prime : ℤ) : List Token → ParserM (List Token)
  | .word .bit0 :: n0 :: .word .numNa :: na :: .word .numBits :: n :: .word .den0 :: d0 ::
      .word .numNb :: nb :: .word .den :: d :: .word .numDen :: nd :: .word .mlt :: mlt ::
      .word .meq :: meq :: .word .mgt :: mgt :: .word .x1 :: x1 :: .word .x2 :: x2 ::
      .word .y :: y :: pws => do
      let opGuard ← getOpGuard
      let n0 ← requirePrimitive n0
      let nAVars ← requireInt na
      let n ← requirePrimitive n
      let d0 ← requirePrimitive d0
      let nBVars ← requireInt nb
      let d ← requirePrimitive d
      let nd ← requirePrimitive nd
      let mlt ← requirePrimitive mlt
      let meq ← requirePrimitive meq
      let mgt ← requirePrimitive mgt
      let x1 ← requirePrimitive x1
      let x2 ← requirePrimitive x2
      let y ← requirePrimitive y
      let nis ← parseBits n0.idx nAVars.toNat
      let power ← addConstant (Text.ofInt (-(2 ^ nAVars.toNat)))
      let powerGate ← getGate power 0
      let nGate ← reduce .add (nis ++ [powerGate])
      bindVariable n nGate
      let (bitDis, dis, _) ←
        parseDenominators d0.idx prime (mpzInvert 2 2 prime) (nBVars + 1).toNat
      let diUniqueGate ← reduce .add bitDis
      bindOutputConstant diUniqueGate (Text.ofInt 1)
      let dGate ← reduce .add dis
      bindVariable d dGate
      let ndGate ← makeGate .mul nGate dGate
      bindVariable nd ndGate
      let (lt, eq, gt) ← parseFlags mlt meq mgt
      let x1Subx2 ← makeSubGate rightFirst x1 x2
      let x2Subx1 ← makeSubGate rightFirst x2 x1
      parseDifferences lt eq gt ndGate x1Subx2 x2Subx1
      bindVariable y lt
      let g1 ← getGate x1 0
      let g2 ← getGate x2 0
      addMagicOp (.lessThanFloat [lt, eq, gt] nis bitDis g1 g2) opGuard
      pure pws
  | _ => failure

/-- `parseNotEqual`. -/
def parseNotEqual (rightFirst : Bool) : List Token → ParserM (List Token)
  | .word .m :: m :: .word .x1 :: x1 :: .word .x2 :: x2 :: .word .y :: y :: pws => do
      let opGuard ← getOpGuard
      let m ← requirePrimitive m
      let x1 ← requirePrimitive x1
      let x2 ← requirePrimitive x2
      let y ← requirePrimitive y
      makeMagic m
      let mGate ← getGate m 0
      let x1Subx2 ← makeSubGate rightFirst x1 x2
      let x2Subx1 ← makeSubGate rightFirst x2 x1
      let mTimesDiff ← makeGate .mul mGate x1Subx2
      let negMTimesDiff ← makeGate .mul mTimesDiff x2Subx1
      let check ← makeGate .add negMTimesDiff x1Subx2
      bindVariable y mTimesDiff
      bindOutputConstant check (Text.ofInt 0)
      let g1 ← getGate x1 0
      let g2 ← getGate x2 0
      addMagicOp (.notEqual mGate g1 g2) opGuard
      pure pws
  | _ => failure

/-- `parseDivide`: the gate multiplies by the inverse of the divisor. -/
def parseDivide (prime : ℤ) : List Token → ParserM (List Token)
  | p :: .word .assign :: dividend :: .word .slash :: .const text :: pws => do
      let p ← requirePrimitive p
      if !p.isVariable then failure
      let dividend ← do
        match ← parseVar dividend with
        | some q => pure q
        | none => failure
      match mpzSetStr text with
      | none => failure
      | some divisor => do
          let inverse ← addConstant (Text.ofInt (mpzInvert divisor divisor prime))
          let divisorGate ← getGate inverse 0
          let dividendGate ← getGate dividend 0
          let quotientGate ← makeGate .divInt dividendGate divisorGate
          bindVariable p quotientGate
          pure pws
  | _ => failure

/-- The loop of `parse`. Words that begin no line are passed over. -/
def parseLines (rightFirst : Bool) (prime : ℤ) : ℕ → List Token → ParserM Unit
  | 0, _ => failure
  | _ + 1, [] => pure ()
  | fuel + 1, token :: pws => do
      let pws ←
        match token with
        | .word .poly => parsePolyConstraint pws
        | .word .lessThanInt => parseLessThanInt rightFirst pws
        | .word .lessThanFloat => parseLessThanFloat rightFirst prime pws
        | .word .notEqual => parseNotEqual rightFirst pws
        | .word .slash => parseDivide prime pws
        | _ => pure pws
      parseLines rightFirst prime fuel pws

/-! ## Outputs and indexes -/

/-- The bound outputs, in the order of their names. -/
def boundOutputs (s : PWSCircuitParser) : List CVar :=
  (s.inOutVarsMap.map Prod.snd).filter fun v => v.isOutput && v.isBound

/-- The greatest `int`. -/
def intMax : ℕ := 2 ^ 31 - 1

/-- `makeOutputLayer`. -/
def makeOutputLayer : ParserM Unit := do
  let s ← get
  let outputLayer := s.outConstantDesc.foldl (fun l d => max d.1.layer l) 0
  let outputLayer := (boundOutputs s).foldl (fun l v => max v.minLayer l) outputLayer
  let outputGateBegin := (boundOutputs s).foldl (fun n v => min n v.name) intMax
  modify fun s => { s with outputGateBegin := outputGateBegin }
  s.outConstantDesc.forM fun d => do
    let newPos ← promoteGate d.1 outputLayer
    modify fun s => { s with outConstants := mapPush d.2 newPos.name s.outConstants }
  (boundOutputs s).forM fun v => do
    let _ ← promotePrimitive ⟨.inputOutput, v.name⟩ outputLayer

/-- `constructInvertedIndexes`. -/
def constructInvertedIndexes (s : PWSCircuitParser) : PWSCircuitParser :=
  let io := (s.inOutVarsMap.map Prod.snd).filter fun v => v.isBound
  { s with
    outGates := (io.filter fun v => v.isOutput).foldl
      (fun m v => mapSet v.name (v.gateIndex.getLastD 0) m) s.outGates
    inGates := (io.filter fun v => v.isInput).foldl
      (fun m v => mapSet v.name (v.gateIndex.headD 0) m) s.inGates
    magicGates := s.magicGates ++ ((s.varMap.map Prod.snd).filter fun v =>
      v.isBound && v.isMagic).map fun v => v.gateIndex.headD 0
    inConstants := s.inConstants ++ (s.constants.filter fun c => c.isBound).map fun c =>
      (c.value, c.gateIndex.headD 0) }

/-- `parse`; `clearPrivate`, which follows, only frees what nothing reads any more. -/
def parse (rightFirst : Bool) (prime : ℤ) (pws : List Token) : Option PWSCircuitParser := do
  let ((), s) ← (do
    parseLines rightFirst prime (pws.length + 1) pws
    makeOutputLayer : ParserM Unit) PWSCircuitParser.new
  pure (constructInvertedIndexes s)

end Pepper.Cmtgkr.Pws
