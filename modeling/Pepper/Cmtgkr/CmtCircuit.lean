import Pepper.Cmtgkr.WiringPredicates

/-!
# Circuits of levels

`CMTCircuit` builds a circuit from its input level down to level zero, `BasicCMTCircuit` wires the
gates of a level, and `Circuit::evaluate` computes the levels one from the other. Main results:
`evaluate_spec`, every level after a run is its evaluation from the level before it, and
`WellFormed.residues`, over integer inputs the residues of a level are the operations of its gates
on the residues of the level before.
-/

set_option autoImplicit false

open Pepper.Common.Gmp Pepper.Foundations.Loop Pepper.Foundations.Multilinear
open Pepper.Cmtgkr.Env

namespace Pepper.Cmtgkr.Layer

/-! ## Gates of a level -/

namespace CircuitLayer

/-- A level of the shell. -/
def empty : CircuitLayer := ⟨[], none, none⟩

/-- The layer without supplied predicates. -/
def bruteForce (l : CircuitLayer) : CircuitLayer := ⟨l.gates, none, none⟩

/-- The level that `makeLevel` leaves: default gates. -/
def fresh (size : ℕ) (addFn mulFn : MleFn) : CircuitLayer :=
  ⟨List.replicate size default, some addFn, some mulFn⟩

/-- `setWiring` of the gates from `start` on. -/
def setWirings (l : CircuitLayer) (start stop : ℕ) (w : ℕ → GateWiring) : CircuitLayer :=
  { l with
    gates := forLoop (stop - start)
      (fun i gates => gates.set (start + i) (w (start + i))) l.gates }

@[simp] theorem addFn_setWirings (l : CircuitLayer) (start stop : ℕ) (w : ℕ → GateWiring) :
    (l.setWirings start stop w).addFn = l.addFn := rfl

@[simp] theorem mulFn_setWirings (l : CircuitLayer) (start stop : ℕ) (w : ℕ → GateWiring) :
    (l.setWirings start stop w).mulFn = l.mulFn := rfl

@[simp] theorem size_setWirings (l : CircuitLayer) (start stop : ℕ) (w : ℕ → GateWiring) :
    (l.setWirings start stop w).size = l.size :=
  forLoop_frame List.length fun _ _ _ => List.length_set

@[simp] theorem size_fresh (size : ℕ) (addFn mulFn : MleFn) : (fresh size addFn mulFn).size = size :=
  List.length_replicate

/-- The gates that the loop has passed have their new wiring. -/
theorem gate_setWirings (l : CircuitLayer) (start stop : ℕ) (w : ℕ → GateWiring) {j : ℕ}
    (hj : j < l.size) :
    (l.setWirings start stop w).gate j = if start ≤ j ∧ j < stop then w j else l.gate j := by
  have hinv := forLoop_induction
    (P := fun k gates => gates.length = l.size ∧
      gates.getD j default = if start ≤ j ∧ j < start + k then w j else l.gate j)
    (n := stop - start)
    (g := fun i gates => gates.set (start + i) (w (start + i))) (s := l.gates)
    ⟨rfl, (if_neg fun h => absurd h.2 (not_lt.2 h.1)).symm⟩ ?_
  · refine hinv.2.trans (if_congr ⟨fun h => ⟨h.1, ?_⟩, fun h => ⟨h.1, ?_⟩⟩ rfl rfl)
    · omega
    · omega
  · intro i _ gates hgates
    refine ⟨List.length_set.trans hgates.1, ?_⟩
    rw [List.getD_eq_getElem?_getD, List.getElem?_set]
    by_cases hij : start + i = j
    · rw [if_pos hij, if_pos (by rw [hgates.1, hij]; exact hj), if_pos (by omega), hij]
      rfl
    · rw [if_neg hij, ← List.getD_eq_getElem?_getD, hgates.2]
      refine if_congr ⟨fun h => ⟨h.1, by omega⟩, fun h => ⟨h.1, by omega⟩⟩ rfl rfl

end CircuitLayer

/-! ## Construction -/

/-- `CMTCircuit`; an input or output gate is a level and a label. -/
structure CMTCircuit where
  layers : List CircuitLayer
  currentLevel : ℕ
  inGates : List (ℕ × ℕ)
  outGates : List (ℕ × ℕ)

namespace CMTCircuit

def depth (c : CMTCircuit) : ℕ := c.layers.length

def layer (c : CMTCircuit) (lvl : ℕ) : CircuitLayer := c.layers.getD lvl .empty

/-- `makeShell`. -/
def makeShell (nlevels : ℕ) : CMTCircuit :=
  ⟨List.replicate nlevels .empty, nlevels, [], []⟩

/-- `makeLevel`: below level zero there is none. -/
def makeLevel (size : ℕ) (addFn mulFn : MleFn) (c : CMTCircuit) : Option CMTCircuit :=
  if c.currentLevel = 0 then none
  else
    let level := c.currentLevel - 1
    some { c with layers := c.layers.set level (.fresh size addFn mulFn), currentLevel := level }

/-- `clayer`. -/
def clayer (c : CMTCircuit) (shift : ℕ) : CircuitLayer := c.layer (c.currentLevel + shift)

/-- A loop that sets the wiring of gates of the current level. -/
def setWirings (start stop : ℕ) (w : ℕ → GateWiring) (c : CMTCircuit) : CMTCircuit :=
  { c with layers := c.layers.set c.currentLevel ((c.clayer 0).setWirings start stop w) }

/-- `addToLastGate`. -/
def addToLastGate (start stop : ℕ) (shift : ℤ) (c : CMTCircuit) : CMTCircuit :=
  c.setWirings start stop fun i => ⟨.add, (shift + i).toNat, (c.clayer 1).size - 1⟩

/-- `makeGates`. -/
def makeGates (type : GateType) (start stop shift : ℕ) (c : CMTCircuit) : CMTCircuit :=
  c.setWirings start stop fun i => ⟨type, i, shift + i⟩

/-- `makeMulGates`. -/
def makeMulGates (start stop shift : ℕ) (c : CMTCircuit) : CMTCircuit :=
  c.makeGates .mul start stop shift

/-- `makeAddGates`. -/
def makeAddGates (start stop shift : ℕ) (c : CMTCircuit) : CMTCircuit :=
  c.makeGates .add start stop shift

/-- `makeReduceLayer`. -/
def makeReduceLayer (type : GateType) (start stop : ℕ) (c : CMTCircuit) : CMTCircuit :=
  c.setWirings start stop fun i => ⟨type, 2 * i, 2 * i + 1⟩

/-- `makeFLTLvl2`. -/
def makeFLTLvl2 (start stop : ℕ) (c : CMTCircuit) : CMTCircuit :=
  c.setWirings start stop fun i =>
    if i.testBit 0 then ⟨.mul, i >>> 1, i >>> 1⟩
    else ⟨.add, i >>> 1, (c.clayer 1).size - 1⟩

/-- `makeFLTGeneral`. -/
def makeFLTGeneral (psub1 : ℕ) (start stop bitNum : ℕ) (c : CMTCircuit) : CMTCircuit :=
  c.setWirings start stop fun i =>
    if i.testBit 0 then ⟨.mul, i, i⟩
    else if psub1.testBit bitNum then ⟨.mul, i, i + 1⟩
    else ⟨.add, i, (c.clayer 1).size - 1⟩

/-- `makeFLTLast`. -/
def makeFLTLast (start stop : ℕ) (c : CMTCircuit) : CMTCircuit :=
  c.makeReduceLayer .mul start stop

/-- `getFLTDepth`. -/
def getFLTDepth (psub1 : ℕ) : ℕ := sizeInBase2 psub1

/-- `addGatesFromLevel`. -/
def addGatesFromLevel (gates : List (ℕ × ℕ)) (level start stop : ℕ) : List (ℕ × ℕ) :=
  gates ++ (List.range' start (stop - start)).map fun i => (level, i)

theorem length_addGatesFromLevel (level start stop : ℕ) :
    (addGatesFromLevel [] level start stop).length = stop - start := by
  rw [addGatesFromLevel, List.nil_append, List.length_map, List.length_range']

theorem nodup_addGatesFromLevel (level start stop : ℕ) :
    (addGatesFromLevel [] level start stop).Nodup := by
  rw [addGatesFromLevel, List.nil_append]
  refine List.Nodup.map (fun a b h => (Prod.mk.inj h).2) List.nodup_range'

theorem getElem?_addGatesFromLevel (level start : ℕ) {stop i : ℕ} (hi : start + i < stop) :
    (addGatesFromLevel [] level start stop)[i]? = some (level, start + i) := by
  have hlt : i < stop - start := by omega
  rw [addGatesFromLevel, List.nil_append, List.getElem?_map, List.getElem?_range' hlt, Nat.one_mul]
  rfl

/-- `addGatesFromLevel` for `inGates`. -/
def addInGates (level start stop : ℕ) (c : CMTCircuit) : CMTCircuit :=
  { c with inGates := addGatesFromLevel c.inGates level start stop }

/-- `addGatesFromLevel` for `outGates`. -/
def addOutGates (level start stop : ℕ) (c : CMTCircuit) : CMTCircuit :=
  { c with outGates := addGatesFromLevel c.outGates level start stop }

end CMTCircuit

/-! ## Levels that are built -/

namespace CMTCircuit

/-- A circuit whose levels from `k` on are built: `t` of them, counted from the input level. -/
def ofLevels (k t : ℕ) (level : ℕ → CircuitLayer) (inGates outGates : List (ℕ × ℕ)) : CMTCircuit :=
  ⟨List.replicate k .empty ++ ((List.range t).map level).reverse, k, inGates, outGates⟩

/-- The level after `t` others, while its gates are set. -/
def building (k t : ℕ) (level : ℕ → CircuitLayer) (l : CircuitLayer)
    (inGates outGates : List (ℕ × ℕ)) : CMTCircuit :=
  ⟨List.replicate k .empty ++ l :: ((List.range t).map level).reverse, k, inGates, outGates⟩

section Building

variable {k t : ℕ} {level : ℕ → CircuitLayer} {l : CircuitLayer} {inGates outGates : List (ℕ × ℕ)}

theorem makeShell_eq (n : ℕ) (level : ℕ → CircuitLayer) :
    makeShell n = ofLevels n 0 level [] [] := by
  rw [makeShell, ofLevels, List.range_zero, List.map_nil, List.reverse_nil, List.append_nil]

@[simp] theorem makeLevel_ofLevels (size : ℕ) (addFn mulFn : MleFn) :
    (ofLevels (k + 1) t level inGates outGates).makeLevel size addFn mulFn =
      some (building k t level (.fresh size addFn mulFn) inGates outGates) := by
  have hset : (List.replicate (k + 1) CircuitLayer.empty ++
      ((List.range t).map level).reverse).set k (.fresh size addFn mulFn) =
        List.replicate k .empty ++ .fresh size addFn mulFn ::
          ((List.range t).map level).reverse := by
    rw [List.replicate_succ', List.append_assoc, List.set_append_right _ _ (by simp)]
    simp
  rw [makeLevel, ofLevels, if_neg (Nat.succ_ne_zero k)]
  simp only [Nat.add_sub_cancel, hset, building]

@[simp] theorem clayer_building_zero :
    (building k t level l inGates outGates).clayer 0 = l := by
  simp [clayer, layer, building, List.getD_eq_getElem?_getD]

@[simp] theorem clayer_building_one :
    (building k (t + 1) level l inGates outGates).clayer 1 = level t := by
  simp [clayer, layer, building, List.getD_eq_getElem?_getD, List.range_succ]

@[simp] theorem setWirings_building (start stop : ℕ) (w : ℕ → GateWiring) :
    (building k t level l inGates outGates).setWirings start stop w =
      building k t level (l.setWirings start stop w) inGates outGates := by
  rw [setWirings, clayer_building_zero]
  simp [building, List.set_append_right]

@[simp] theorem depth_building :
    (building k t level l inGates outGates).depth = k + (t + 1) := by
  simp [depth, building]

@[simp] theorem addInGates_building (lvl start stop : ℕ) :
    (building k t level l inGates outGates).addInGates lvl start stop =
      building k t level l (addGatesFromLevel inGates lvl start stop) outGates := rfl

@[simp] theorem addOutGates_building (lvl start stop : ℕ) :
    (building k t level l inGates outGates).addOutGates lvl start stop =
      building k t level l inGates (addGatesFromLevel outGates lvl start stop) := rfl

@[simp] theorem addOutGates_ofLevels (lvl start stop : ℕ) :
    (ofLevels k t level inGates outGates).addOutGates lvl start stop =
      ofLevels k t level inGates (addGatesFromLevel outGates lvl start stop) := rfl

/-- The level is done. -/
theorem building_eq (h : l = level t) :
    building k t level l inGates outGates = ofLevels k (t + 1) level inGates outGates := by
  simp [building, ofLevels, h, List.range_succ]

@[simp] theorem depth_ofLevels : (ofLevels k t level inGates outGates).depth = k + t := by
  simp [depth, ofLevels]

theorem layer_ofLevels {lvl : ℕ} (h : lvl < t) :
    (ofLevels 0 t level inGates outGates).layer lvl = level (t - 1 - lvl) := by
  simp [layer, ofLevels, List.getD_eq_getElem?_getD, h]

end Building

end CMTCircuit

/-! ## Evaluation -/

/-- The values of all gates, by level and label. -/
abbrev CircuitData := ℕ → ℕ → Gate

namespace CMTCircuit

/-- `setValue` of one gate. -/
def setGate (prime : ℤ) (data : CircuitData) (g : ℕ × ℕ) (v : ℚ) : CircuitData :=
  Function.update data g.1
    (Function.update (data g.1) g.2 ((data g.1 g.2).setValue prime v))

/-- `setGates`. -/
def setGates (prime : ℤ) (gates : List (ℕ × ℕ)) (vec : List ℚ) (data : CircuitData) :
    CircuitData :=
  (gates.zip vec).foldl (fun data gv => setGate prime data gv.1 gv.2) data

/-- `Circuit::evaluate`, from the input level down. -/
def evaluate (c : CMTCircuit) (prime : ℤ) (data : CircuitData) : CircuitData :=
  if c.depth < 2 then data
  else
    forLoop (c.depth - 1)
      (fun k data =>
        let lvl := c.depth - 2 - k
        Function.update data lvl ((c.layer lvl).evaluate prime (data (lvl + 1)) (data lvl)))
      data

section Evaluate

variable {c : CMTCircuit} {prime : ℤ}

/-- Every level is computed from the one before it, and the input level stays. -/
theorem evaluate_spec (data : CircuitData) :
    (∀ lvl, lvl + 1 < c.depth → c.evaluate prime data lvl =
      (c.layer lvl).evaluate prime (c.evaluate prime data (lvl + 1)) (data lvl)) ∧
      ∀ lvl, c.depth ≤ lvl + 1 → c.evaluate prime data lvl = data lvl := by
  rw [evaluate]
  split
  · rename_i h
    exact ⟨fun lvl hlvl => absurd hlvl (by omega), fun _ _ => rfl⟩
  · rename_i hdepth
    have hrun := forLoop_induction
      (P := fun k (D : CircuitData) =>
        (∀ lvl, lvl + 1 < c.depth → c.depth - 1 - k ≤ lvl →
          D lvl = (c.layer lvl).evaluate prime (D (lvl + 1)) (data lvl)) ∧
          ∀ lvl, c.depth ≤ lvl + 1 ∨ lvl < c.depth - 1 - k → D lvl = data lvl)
      (n := c.depth - 1)
      (g := fun k D =>
        let lvl := c.depth - 2 - k
        Function.update D lvl ((c.layer lvl).evaluate prime (D (lvl + 1)) (D lvl)))
      (s := data) ⟨fun lvl h h' => absurd h (by omega), fun _ _ => rfl⟩ ?_
    · exact ⟨fun lvl h => hrun.1 lvl h (by omega), fun lvl h => hrun.2 lvl (Or.inl h)⟩
    · intro k hk D hD
      dsimp only
      refine ⟨fun lvl hlvl hdone => ?_, fun lvl hlvl => ?_⟩
      · by_cases hnew : lvl = c.depth - 2 - k
        · rw [hnew, Function.update_self, Function.update_of_ne (Nat.succ_ne_self _),
            hD.2 (c.depth - 2 - k) (Or.inr (by omega))]
        · rw [Function.update_of_ne hnew, Function.update_of_ne (by omega)]
          exact hD.1 lvl hlvl (by omega)
      · rw [Function.update_of_ne (by omega)]
        exact hD.2 lvl (by omega)

end Evaluate

/-- Additions and multiplications of gates that are there. -/
structure WellFormed (c : CMTCircuit) : Prop where
  type_ne : ∀ lvl, lvl + 1 < c.depth → ∀ j < (c.layer lvl).size,
    ((c.layer lvl).gate j).type ≠ .divInt
  inRange : ∀ lvl, lvl + 1 < c.depth → ∀ j < (c.layer lvl).size,
    ((c.layer lvl).gate j).in1 < (c.layer (lvl + 1)).size ∧
      ((c.layer lvl).gate j).in2 < (c.layer (lvl + 1)).size

/-- The residue of a gate. -/
def residue (p : ℕ) (data : CircuitData) (lvl j : ℕ) : ZMod p := ((data lvl j).zValue : ZMod p)

/-- Over integer inputs all values are integers, and residues follow the gates. By induction on the
distance from the input level. -/
theorem WellFormed.residues {c : CMTCircuit} (h : c.WellFormed) {p : ℕ} [Fact p.Prime]
    {data : CircuitData}
    (hinput : ∀ j < (c.layer (c.depth - 1)).size, (data (c.depth - 1) j).IsInteger p)
    {lvl j : ℕ} (hlvl : lvl < c.depth) (hj : j < (c.layer lvl).size) :
    (c.evaluate p data lvl j).IsInteger p ∧
      (lvl + 1 < c.depth → residue p (c.evaluate p data) lvl j =
        ((c.layer lvl).gate j).eval
          (residue p (c.evaluate p data) (lvl + 1) ((c.layer lvl).gate j).in1)
          (residue p (c.evaluate p data) (lvl + 1) ((c.layer lvl).gate j).in2)) := by
  obtain ⟨hlevels, hstays⟩ := @evaluate_spec c p data
  obtain ⟨k, hk⟩ : ∃ k, lvl + 1 + k = c.depth := ⟨c.depth - (lvl + 1), by omega⟩
  induction k generalizing lvl j with
  | zero =>
      have hlast : lvl = c.depth - 1 := by omega
      refine ⟨?_, fun hlt => absurd hlt (by omega)⟩
      rw [hstays lvl (by omega), hlast]
      rw [hlast] at hj
      exact hinput j hj
  | succ k ih =>
      have hlt : lvl + 1 < c.depth := by omega
      obtain ⟨h1, h2⟩ := h.inRange lvl hlt j hj
      have hop1 := (ih hlt h1 (by omega)).1
      have hop2 := (ih hlt h2 (by omega)).1
      obtain ⟨hvalue, hinteger⟩ := computeGateValue_integer _ (h.type_ne lvl hlt j hj)
        (data lvl j) hop1 hop2
      have hgate : c.evaluate p data lvl j = _ :=
        (congrFun (hlevels lvl hlt) j).trans (CircuitLayer.evaluate_apply _ _ _ _ hj)
      rw [residue, hgate]
      exact ⟨hinteger, fun _ => hvalue⟩

end CMTCircuit

/-! ## Inputs -/

namespace CMTCircuit

section Inputs

variable {p : ℕ} [Fact p.Prime]

theorem cast_setValue (g : Gate) (n : ℤ) : ((g.setValue p (n : ℚ)).zValue : ZMod p) = n := by
  have hvalue : (g.setValue p (n : ℚ)).zValue = modIfNeeded (convertToZ g.zValue n p) p 2 := rfl
  rw [hvalue, cast_modIfNeeded, cast_convertToZ _ (Rat.den_intCast n), Rat.num_intCast]

theorem setGate_self (prime : ℤ) (data : CircuitData) (lvl j : ℕ) (v : ℚ) :
    setGate prime data (lvl, j) v lvl j = (data lvl j).setValue prime v := by
  rw [setGate, Function.update_self, Function.update_self]

theorem setGate_of_ne (prime : ℤ) (data : CircuitData) {g : ℕ × ℕ} {lvl j : ℕ} (h : (lvl, j) ≠ g)
    (v : ℚ) : setGate prime data g v lvl j = data lvl j := by
  rw [setGate]
  by_cases hlvl : lvl = g.1
  · have hj : j ≠ g.2 := fun hj => h (Prod.ext hlvl hj)
    rw [hlvl, Function.update_self, Function.update_of_ne hj]
  · rw [Function.update_of_ne hlvl]

/-- A gate that is not set keeps its values. -/
theorem setGates_of_notMem (prime : ℤ) {gates : List (ℕ × ℕ)} (vec : List ℚ) (data : CircuitData)
    {lvl j : ℕ} (h : (lvl, j) ∉ gates) : setGates prime gates vec data lvl j = data lvl j := by
  induction gates generalizing vec data with
  | nil => rfl
  | cons g gates ih =>
      cases vec with
      | nil => rfl
      | cons v vec =>
          obtain ⟨hne, hmem⟩ := not_or.1 (fun h' => h (List.mem_cons.2 h'))
          exact (ih vec (setGate prime data g v) hmem).trans (setGate_of_ne prime data hne v)

/-- A gate that is set once. -/
theorem setGates_of_nodup (prime : ℤ) {gates : List (ℕ × ℕ)} (hnodup : gates.Nodup)
    (vec : List ℚ) (data : CircuitData) {i lvl j : ℕ} (hi : gates[i]? = some (lvl, j)) {v : ℚ}
    (hv : vec[i]? = some v) :
    setGates prime gates vec data lvl j = (data lvl j).setValue prime v := by
  induction gates generalizing vec data i with
  | nil => cases hi
  | cons g gates ih =>
      obtain ⟨hfirst, hrest⟩ := List.nodup_cons.1 hnodup
      cases vec with
      | nil => cases hv
      | cons w vec =>
          cases i with
          | zero =>
              cases hi
              cases hv
              exact (setGates_of_notMem prime vec _ hfirst).trans (setGate_self prime data lvl j v)
          | succ i =>
              have hne : (lvl, j) ≠ g := fun h => hfirst (h ▸ List.mem_of_getElem? hi)
              refine (ih hrest vec (setGate prime data g w) hi hv).trans ?_
              rw [setGate_of_ne prime data hne]

end Inputs

/-! ## Predicates of a level -/

/-- The supplied predicates of a level are the multilinear extensions of its wiring. -/
def PredicatesMatch (p : ℕ) (c : CMTCircuit) (lvl : ℕ) : Prop :=
  ∃ L : LayerPair, L.out = c.layer lvl ∧ L.inSize = (c.layer (lvl + 1)).size ∧
    ∀ rand : Vec,
      ((L.out.computeWirePredicates rand L.inSize p).1 : ZMod p) =
          wiringExtension L .add (castVec p rand) ∧
        ((L.out.computeWirePredicates rand L.inSize p).2 : ZMod p) =
          wiringExtension L .mul (castVec p rand)

/-- For two adjacent levels: the supplied functions evaluate the predicates. -/
theorem predicatesMatch_iff {p : ℕ} {c : CMTCircuit} {lvl : ℕ} (L : LayerPair)
    (hout : L.out = c.layer lvl) (hin : L.inSize = (c.layer (lvl + 1)).size) :
    c.PredicatesMatch p lvl ↔ ∀ rand, SuppliedPredicates L p rand := by
  constructor
  · rintro ⟨L', hout', hin', h⟩ rand
    have hL : L' = L := by
      obtain ⟨out', inSize', _, _, _⟩ := L'
      obtain ⟨out, inSize, _, _, _⟩ := L
      cases hout.trans hout'.symm
      cases hin.trans hin'.symm
      rfl
    subst hL
    obtain ⟨hadd, hmul⟩ := h rand
    rw [CircuitLayer.computeWirePredicates] at hadd hmul
    refine ⟨fun f hf => ?_, fun f hf => ?_⟩
    · rw [hf, ← wirePredicate_eq_wiringExtension] at hadd
      exact hadd
    · rw [hf, ← wirePredicate_eq_wiringExtension] at hmul
      exact hmul
  · intro h
    refine ⟨L, hout, hin, fun rand => ?_⟩
    rw [← wirePredicate_eq_wiringExtension, ← wirePredicate_eq_wiringExtension]
    exact cast_computeWirePredicates L (h rand)

/-- Supplied functions with reduced values compute what the pass over the gates does. -/
theorem computeWirePredicates_eq_bruteForce {p : ℕ} (L : LayerPair) {rand : Vec}
    (h : SuppliedPredicates L p rand)
    (hadd : ∀ f, L.out.addFn = some f →
      f rand L.mi L.mip1 L.out.size L.inSize p % p = f rand L.mi L.mip1 L.out.size L.inSize p)
    (hmul : ∀ f, L.out.mulFn = some f →
      f rand L.mi L.mip1 L.out.size L.inSize p % p = f rand L.mi L.mip1 L.out.size L.inSize p) :
    L.out.computeWirePredicates rand L.inSize p =
      L.out.bruteForce.computeWirePredicates rand L.inSize p := by
  have hreduced : ∀ {x : ℤ} (gateType : GateType), x % p = x →
      (x : ZMod p) = wirePredicate L gateType (castVec p rand) →
      x = L.out.wireSum gateType (computeChiAll L.out.size zeroVec L.mi rand p)
        (computeChiAll L.inSize zeroVec L.mip1 (fun i => rand (L.mi + i)) p)
        (computeChiAll L.inSize zeroVec L.mip1 (fun i => rand (L.mi + L.mip1 + i)) p) p := by
    intro x gateType hx hcast
    rw [← cast_wireSum, ZMod.intCast_eq_intCast_iff, Int.ModEq, hx] at hcast
    rw [hcast, CircuitLayer.wireSum, Int.emod_emod_of_dvd _ (dvd_refl _)]
  refine Prod.ext ?_ ?_
  · rw [CircuitLayer.computeWirePredicates]
    cases hf : L.out.addFn with
    | none => rfl
    | some f => exact hreduced .add (hadd f hf) (h.1 f hf)
  · rw [CircuitLayer.computeWirePredicates]
    cases hf : L.out.mulFn with
    | none => rfl
    | some f => exact hreduced .mul (hmul f hf) (h.2 f hf)

end CMTCircuit

end Pepper.Cmtgkr.Layer
