import Mathlib.Logic.Relation
import Pepper.Cmtgkr.PwsCircuitParser

/-!
# The parser as a sequence of elementary calls

Every member function of the worksheet parser is a sequence of a few elementary calls: a name or a
constant is entered, a gate is added above two gates that are there, a primitive gets its first
gate, is carried up by one layer or is bound to a gate. `Step` lists them with what is known when
they happen, and a `Policy` says which of the calls that change a binding a run may make.

`WellFormed` holds in every state of a run (`Step.wellFormed`): every gate reads gates of the layer
below that are there, and the gates of a primitive are there, one in each of its layers. The
functions of the parser are runs (`getGate_run`, `makeGate_run`, `reduce_run`, ...).
-/

set_option autoImplicit false

open Pepper.Common.Gmp Pepper.Cmtgkr.Env Pepper.Cmtgkr.Layer

namespace Pepper.Cmtgkr.Pws

/-! ## Inverting the monad -/

section Monad

variable {α β : Type}

/-- One step of a `do` block. -/
theorem bind_inv {m : ParserM α} {f : α → ParserM β} {s s' : PWSCircuitParser} {b : β}
    (h : (m >>= f) s = some (b, s')) : ∃ a s₁, m s = some (a, s₁) ∧ f a s₁ = some (b, s') := by
  change (m s).bind (fun r => f r.1 r.2) = _ at h
  obtain ⟨⟨a, s₁⟩, hm, hf⟩ := Option.bind_eq_some_iff.mp h
  exact ⟨a, s₁, hm, hf⟩

theorem bind_run {m : ParserM α} {f : α → ParserM β} {s s₁ : PWSCircuitParser} {a : α}
    (h : m s = some (a, s₁)) : (m >>= f) s = f a s₁ := by
  change (m s).bind (fun r => f r.1 r.2) = _
  rw [h]
  rfl

theorem pure_inv {a b : α} {s s' : PWSCircuitParser}
    (h : (pure a : ParserM α) s = some (b, s')) : b = a ∧ s' = s := by
  obtain ⟨rfl, rfl⟩ := Prod.mk.inj (Option.some.inj h)
  exact ⟨rfl, rfl⟩

theorem failure_inv {b : α} {s s' : PWSCircuitParser}
    (h : (failure : ParserM α) s = some (b, s')) : False :=
  Option.noConfusion rfl (heq_of_eq h)

theorem modify_inv {f : PWSCircuitParser → PWSCircuitParser} {s s' : PWSCircuitParser} {u : Unit}
    (h : (modify f : ParserM Unit) s = some (u, s')) : s' = f s :=
  (Prod.mk.inj (Option.some.inj h)).2.symm

end Monad

/-! ## Maps -/

section Maps

variable {α : Type}

/-- The keys of a map are ascending. -/
def Ordered (m : List (ℕ × α)) : Prop := (m.map Prod.fst).Pairwise (· < ·)

theorem ordered_cons {k : ℕ} {a : α} {m : List (ℕ × α)} :
    Ordered ((k, a) :: m) ↔ (∀ j ∈ m.map Prod.fst, k < j) ∧ Ordered m :=
  List.pairwise_cons

theorem mem_keys_mapSet {k i : ℕ} {a : α} {m : List (ℕ × α)} :
    i ∈ (mapSet k a m).map Prod.fst → i = k ∨ i ∈ m.map Prod.fst := by
  induction m with
  | nil => simp [mapSet]
  | cons e m ih =>
      obtain ⟨j, b⟩ := e
      rw [mapSet]
      split_ifs with hlt heq
      · intro h
        rcases List.mem_cons.mp h with rfl | h
        · exact Or.inl rfl
        · exact Or.inr h
      · exact Or.inr
      · intro h
        rcases List.mem_cons.mp h with rfl | h
        · exact Or.inr List.mem_cons_self
        · rcases ih h with rfl | h
          · exact Or.inl rfl
          · exact Or.inr (List.mem_cons_of_mem _ h)

theorem ordered_mapSet {m : List (ℕ × α)} (hm : Ordered m) (k : ℕ) (a : α) :
    Ordered (mapSet k a m) := by
  induction m with
  | nil => exact List.pairwise_singleton _ _
  | cons e m ih =>
      obtain ⟨j, b⟩ := e
      obtain ⟨hj, hrest⟩ := ordered_cons.mp hm
      rw [mapSet]
      split_ifs with hlt heq
      · refine ordered_cons.mpr ⟨fun i hi => ?_, hm⟩
        rcases List.mem_cons.mp hi with rfl | hi
        · exact hlt
        · exact hlt.trans (hj i hi)
      · exact ordered_cons.mpr ⟨hj, hrest⟩
      · refine ordered_cons.mpr ⟨fun i hi => ?_, ih hrest⟩
        rcases mem_keys_mapSet hi with rfl | hi
        · exact lt_of_le_of_ne (Nat.le_of_not_lt hlt) (Ne.symm heq)
        · exact hj i hi

theorem lookup_cons_ite (j i : ℕ) (b : α) (m : List (ℕ × α)) :
    ((j, b) :: m).lookup i = if i = j then some b else m.lookup i := by
  rw [List.lookup_cons]
  by_cases h : i = j
  · rw [if_pos h, beq_iff_eq.mpr h]
  · rw [if_neg h, beq_false_of_ne h]

theorem lookup_mapSet {m : List (ℕ × α)} (hm : Ordered m) (k : ℕ) (a : α) (i : ℕ) :
    (mapSet k a m).lookup i = if i = k then some a else m.lookup i := by
  induction m with
  | nil => exact lookup_cons_ite k i a []
  | cons e m ih =>
      obtain ⟨j, b⟩ := e
      obtain ⟨-, hrest⟩ := ordered_cons.mp hm
      rw [mapSet]
      by_cases hlt : k < j
      · rw [if_pos hlt, lookup_cons_ite]
      · rw [if_neg hlt]
        by_cases heq : k = j
        · subst heq
          rw [if_pos rfl, lookup_cons_ite, lookup_cons_ite]
          by_cases hi : i = k
          · rw [if_pos hi, if_pos hi]
          · rw [if_neg hi, if_neg hi, if_neg hi]
        · rw [if_neg heq, lookup_cons_ite, lookup_cons_ite, ih hrest]
          by_cases hi : i = j
          · have hik : i ≠ k := fun h => heq (h.symm.trans hi)
            rw [if_pos hi, if_neg hik, if_pos hi]
          · rw [if_neg hi, if_neg hi]

end Maps

/-! ## Gates and objects of a state -/

/-- The gate at a position. -/
def gateAt (s : PWSCircuitParser) (pos : GatePosition) : Option GateDescription :=
  (s.circuitDesc[pos.layer]?).bind fun layer => layer[pos.name]?

/-- There is a gate at the position. -/
def HasGate (s : PWSCircuitParser) (pos : GatePosition) : Prop := (gateAt s pos).isSome

/-- The object at the place of a primitive. -/
def objectAt (s : PWSCircuitParser) (p : Primitive) : Option CPrimitive :=
  if p.isConstant then (s.constants[p.idx]?).map CConst.toCPrimitive
  else ((getVarMap p s).lookup p.idx).map CVar.toCPrimitive

/-- The gates of an object are there, one in each layer from the lowest to the highest. -/
structure CPrimitive.Placed (s : PWSCircuitParser) (cp : CPrimitive) : Prop where
  gates : ∀ i name, cp.gateIndex[i]? = some name → HasGate s ⟨cp.minLayer + i, name⟩
  top : cp.isBound → cp.maxLayer + 1 = cp.minLayer + cp.gateIndex.length

theorem CPrimitive.Placed.mono {s s' : PWSCircuitParser} {cp : CPrimitive} (h : cp.Placed s)
    (hhas : ∀ pos, HasGate s pos → HasGate s' pos) : cp.Placed s' :=
  ⟨fun i name hi => hhas _ (h.gates i name hi), h.top⟩

/-- What holds in every state of a run. -/
structure WellFormed (s : PWSCircuitParser) : Prop where
  varsOrdered : Ordered s.varMap
  iosOrdered : Ordered s.inOutVarsMap
  varNames : ∀ k v, s.varMap.lookup k = some v → v.name = k ∧ v.isIO = false
  ioNames : ∀ k v, s.inOutVarsMap.lookup k = some v → v.name = k ∧ v.isIO = true
  constNames : ∀ (i : ℕ) (c : CConst), s.constants[i]? = some c → c.name = i
  constLayers : ∀ (i : ℕ) (c : CConst), s.constants[i]? = some c → c.isBound → c.minLayer = 0
  inputs : ∀ n g, gateAt s ⟨0, n⟩ = some g → g.op = .constant
  wiring : ∀ l n g, gateAt s ⟨l + 1, n⟩ = some g →
    g.op ≠ .constant ∧ HasGate s ⟨l, g.in1⟩ ∧ HasGate s ⟨l, g.in2⟩
  placed : ∀ p cp, objectAt s p = some cp → cp.Placed s
  owners : ∀ pos g p, gateAt s pos = some g → g.boundPrimitive.option = some p →
    ∃ cp, objectAt s p = some cp ∧ cp.isBound = true

theorem wellFormed_new : WellFormed PWSCircuitParser.new where
  varsOrdered := List.Pairwise.nil
  iosOrdered := List.Pairwise.nil
  varNames _ _ h := by simp [PWSCircuitParser.new] at h
  ioNames _ _ h := by simp [PWSCircuitParser.new] at h
  constNames _ _ h := by simp [PWSCircuitParser.new] at h
  constLayers _ _ h := by simp [PWSCircuitParser.new] at h
  inputs _ _ h := by simp [PWSCircuitParser.new, gateAt] at h
  wiring _ _ _ h := by simp [PWSCircuitParser.new, gateAt] at h
  placed p cp h := by
    rw [objectAt] at h
    split at h
    · simp [PWSCircuitParser.new] at h
    · have hmap : getVarMap p PWSCircuitParser.new = [] := by
        rw [getVarMap]
        split <;> rfl
      simp [hmap] at h
  owners _ _ _ h := by simp [PWSCircuitParser.new, gateAt] at h

/-- A later state has the same gates, with the same wiring, and possibly more. -/
def Grows (s s' : PWSCircuitParser) : Prop :=
  ∀ pos g, gateAt s pos = some g → ∃ b, gateAt s' pos = some { g with boundPrimitive := b }

theorem Grows.refl (s : PWSCircuitParser) : Grows s s := fun _ g h => ⟨g.boundPrimitive, h⟩

theorem Grows.trans {s s₁ s₂ : PWSCircuitParser} (h : Grows s s₁) (h' : Grows s₁ s₂) :
    Grows s s₂ := by
  intro pos g hg
  obtain ⟨b, hb⟩ := h pos g hg
  obtain ⟨b', hb'⟩ := h' pos _ hb
  exact ⟨b', hb'⟩

theorem Grows.hasGate {s s' : PWSCircuitParser} (h : Grows s s') {pos : GatePosition}
    (hpos : HasGate s pos) : HasGate s' pos := by
  obtain ⟨g, hg⟩ := Option.isSome_iff_exists.mp hpos
  obtain ⟨b, hb⟩ := h pos g hg
  exact Option.isSome_iff_exists.mpr ⟨_, hb⟩

/-! ## What the elementary calls do -/

section Effects

variable {s s' : PWSCircuitParser}

theorem gateAt_of_desc (h : s'.circuitDesc = s.circuitDesc) (pos : GatePosition) :
    gateAt s' pos = gateAt s pos := by
  rw [gateAt, gateAt, h]

theorem isVariable_iff {p : Primitive} :
    p.isVariable = true ↔ p.pType = .inputOutput ∨ p.pType = .intermediate := by
  obtain ⟨t, i⟩ := p
  cases t <;> simp [Primitive.isVariable, Primitive.isInputOutput]

@[simp] theorem isConstant_constant (i : ℕ) :
    (⟨.constant, i⟩ : Primitive).isConstant = true := rfl

@[simp] theorem isConstant_intermediate (i : ℕ) :
    (⟨.intermediate, i⟩ : Primitive).isConstant = false := rfl

@[simp] theorem isConstant_inputOutput (i : ℕ) :
    (⟨.inputOutput, i⟩ : Primitive).isConstant = false := rfl

/-- A primitive is a constant or a variable. -/
theorem isConstant_eq_not (p : Primitive) : p.isConstant = !p.isVariable := by
  obtain ⟨t, i⟩ := p
  cases t <;> rfl

/-- Writing a variable: the object at its place is another one, the others are what they were. -/
theorem objectAt_setVarMap (hs : WellFormed s) {p : Primitive} (hp : p.isVariable = true)
    (v : CVar) (q : Primitive) :
    objectAt (setVarMap p v s) q = if q = p then some v.toCPrimitive else objectAt s q := by
  obtain ⟨t, i⟩ := p
  obtain ⟨u, j⟩ := q
  rcases isVariable_iff.mp hp with rfl | rfl
  · cases u with
    | constant => rfl
    | intermediate => rfl
    | inputOutput =>
        change ((mapSet i v s.inOutVarsMap).lookup j).map _ = _
        rw [lookup_mapSet hs.iosOrdered]
        by_cases h : j = i
        · subst h
          rw [if_pos rfl, if_pos rfl]
          rfl
        · rw [if_neg h, if_neg fun heq => h (Primitive.mk.inj heq).2]
          rfl
  · cases u with
    | constant => rfl
    | inputOutput => rfl
    | intermediate =>
        change ((mapSet i v s.varMap).lookup j).map _ = _
        rw [lookup_mapSet hs.varsOrdered]
        by_cases h : j = i
        · subst h
          rw [if_pos rfl, if_pos rfl]
          rfl
        · rw [if_neg h, if_neg fun heq => h (Primitive.mk.inj heq).2]
          rfl

theorem desc_setVarMap (p : Primitive) (v : CVar) (s : PWSCircuitParser) :
    (setVarMap p v s).circuitDesc = s.circuitDesc := by
  rw [setVarMap]
  split <;> rfl

theorem constants_setVarMap (p : Primitive) (v : CVar) (s : PWSCircuitParser) :
    (setVarMap p v s).constants = s.constants := by
  rw [setVarMap]
  split <;> rfl

/-- The name and the kind of a variable at a place are those of the place. -/
def Named (p : Primitive) (v : CVar) : Prop := v.name = p.idx ∧ v.isIO = p.isInputOutput

/-- Writing a variable of the place keeps all but where its gates are. -/
theorem wellFormed_setVarMap (hs : WellFormed s) {p : Primitive} (hp : p.isVariable = true)
    {v : CVar} (hv : Named p v) (hplaced : v.toCPrimitive.Placed s)
    (hbound : ∀ cp, objectAt s p = some cp → cp.isBound = true → v.isBound = true) :
    WellFormed (setVarMap p v s) := by
  -- gates and constants are untouched, only the map that holds `p` changes
  have hgate : ∀ pos, gateAt (setVarMap p v s) pos = gateAt s pos :=
    gateAt_of_desc (desc_setVarMap p v s)
  have hhas : ∀ pos, HasGate (setVarMap p v s) pos = HasGate s pos := fun pos => by
    rw [HasGate, hgate, HasGate]
  have hmove : ∀ cp : CPrimitive, cp.Placed s → cp.Placed (setVarMap p v s) := fun cp h =>
    h.mono fun pos hpos => (hhas pos).mpr hpos
  refine ⟨?_, ?_, ?_, ?_, ?_, ?_, ?_, ?_, ?_, ?_⟩
  · -- the two maps stay ordered; the one that does not hold `p` is the same
    rw [setVarMap]
    split
    · exact hs.varsOrdered
    · exact ordered_mapSet hs.varsOrdered _ _
  · rw [setVarMap]
    split
    · exact ordered_mapSet hs.iosOrdered _ _
    · exact hs.iosOrdered
  · -- names: an entry other than the one of `p` is an old entry
    intro k w hw
    rw [setVarMap] at hw
    split at hw
    · exact hs.varNames k w hw
    · next hio =>
        rw [lookup_mapSet hs.varsOrdered] at hw
        by_cases hk : k = p.idx
        · rw [if_pos hk] at hw
          obtain rfl := Option.some.inj hw
          exact ⟨hk ▸ hv.1, hv.2.trans (Bool.eq_false_iff.mpr hio)⟩
        · rw [if_neg hk] at hw
          exact hs.varNames k w hw
  · intro k w hw
    rw [setVarMap] at hw
    split at hw
    · next hio =>
      rw [lookup_mapSet hs.iosOrdered] at hw
      by_cases hk : k = p.idx
      · rw [if_pos hk] at hw
        obtain rfl := Option.some.inj hw
        exact ⟨hk ▸ hv.1, hv.2.trans hio⟩
      · rw [if_neg hk] at hw
        exact hs.ioNames k w hw
    · exact hs.ioNames k w hw
  · intro i c hc
    rw [constants_setVarMap] at hc
    exact hs.constNames i c hc
  · intro i c hc
    rw [constants_setVarMap] at hc
    exact hs.constLayers i c hc
  · intro n g hg
    rw [hgate] at hg
    exact hs.inputs n g hg
  · intro l n g hg
    rw [hgate] at hg
    rw [hhas, hhas]
    exact hs.wiring l n g hg
  · -- placement: the new entry by hypothesis, the others by monotonicity
    intro q cp hq
    rw [objectAt_setVarMap hs hp] at hq
    by_cases h : q = p
    · rw [if_pos h] at hq
      obtain rfl := Option.some.inj hq
      exact hmove _ hplaced
    · rw [if_neg h] at hq
      exact hmove _ (hs.placed q cp hq)
  · -- owners: bound entries stay bound
    intro pos g q hg hq
    rw [hgate] at hg
    obtain ⟨cp, hcp, hb⟩ := hs.owners pos g q hg hq
    rw [objectAt_setVarMap hs hp]
    by_cases h : q = p
    · rw [if_pos h]
      exact ⟨_, rfl, hbound cp (h ▸ hcp) hb⟩
    · rw [if_neg h]
      exact ⟨cp, hcp, hb⟩

theorem named_of_lookup (hs : WellFormed s) {p : Primitive} {v : CVar}
    (h : (getVarMap p s).lookup p.idx = some v) : Named p v := by
  rw [getVarMap] at h
  split at h
  · next hio => exact ⟨(hs.ioNames _ v h).1, (hs.ioNames _ v h).2.trans hio.symm⟩
  · next hio =>
      exact ⟨(hs.varNames _ v h).1, (hs.varNames _ v h).2.trans (Bool.eq_false_iff.mpr hio).symm⟩

/-- A variable that is entered is named as its place. -/
theorem named_toPrimitive (v : CVar) : Named v.toPrimitive v ∧ v.toPrimitive.isVariable = true := by
  rw [CVar.toPrimitive]
  cases h : v.isIO with
  | true => exact ⟨⟨rfl, h⟩, rfl⟩
  | false => exact ⟨⟨rfl, h⟩, rfl⟩

/-- `addVariable` enters an object without gates, if there is none at the place. -/
theorem addVariable_inv (hs : WellFormed s) {type : VarType} {name : ℕ} {p : Primitive}
    (h : addVariable type name s = some (p, s')) :
    WellFormed s' ∧ p.isVariable = true ∧ (objectAt s' p).isSome ∧
      (∀ pos, gateAt s' pos = gateAt s pos) ∧ s'.constants = s.constants ∧
      ∀ q, objectAt s' q = if q = p ∧ objectAt s p = none then some CPrimitive.new
        else objectAt s q := by
  obtain ⟨hnamed, hvar⟩ :=
    named_toPrimitive { CPrimitive.new with varType := type, name := name }
  generalize htest : ({ CPrimitive.new with varType := type, name := name } : CVar) = testVar
    at hnamed hvar
  have hname : testVar.toPrimitive.idx = name := by rw [← hnamed.1, ← htest]
  have hobject : objectAt s testVar.toPrimitive =
      ((getVarMap testVar.toPrimitive s).lookup name).map CVar.toCPrimitive := by
    rw [objectAt, isConstant_eq_not, hvar, hname]
    rfl
  have hnew : testVar.toCPrimitive = CPrimitive.new := by rw [← htest]
  simp only [addVariable, htest] at h
  cases hlookup : (getVarMap testVar.toPrimitive s).lookup name with
  | some v =>
      rw [hlookup] at h
      obtain ⟨rfl, rfl⟩ := Prod.mk.inj (Option.some.inj h)
      rw [hlookup] at hobject
      -- the name is declared already: nothing changes
      refine ⟨hs, hvar, by rw [hobject]; rfl, fun _ => rfl, rfl, fun q => ?_⟩
      rw [if_neg]
      rintro ⟨-, hnone⟩
      rw [hobject] at hnone
      exact Option.some_ne_none _ hnone
  | none =>
      rw [hlookup] at h
      obtain ⟨rfl, rfl⟩ := Prod.mk.inj (Option.some.inj h)
      rw [hlookup] at hobject
      -- a fresh name: the new entry has no gates, so nothing has to be placed
      have hplaced : testVar.toCPrimitive.Placed s := by
        rw [hnew]
        exact ⟨fun i name h => by simp [CPrimitive.new] at h, fun h => by
          simp [CPrimitive.isBound, CPrimitive.new] at h⟩
      have hafter := objectAt_setVarMap hs hvar testVar
      have hbound : ∀ cp, objectAt s testVar.toPrimitive = some cp → cp.isBound = true →
          testVar.isBound = true := fun cp hcp => by simp [hobject] at hcp
      refine ⟨wellFormed_setVarMap hs hvar hnamed hplaced hbound, hvar, ?_,
        gateAt_of_desc (desc_setVarMap _ _ s), constants_setVarMap _ _ s, fun q => ?_⟩
      · rw [hafter, if_pos rfl]
        rfl
      · rw [hafter, hnew]
        by_cases hq : q = testVar.toPrimitive
        · rw [if_pos hq, if_pos ⟨hq, hobject⟩]
        · rw [if_neg hq, if_neg fun hand => hq hand.1]

end Effects

section Effects

variable {s s' : PWSCircuitParser}

/-- The states have the same names and constants, with the same objects. -/
structure SameNames (s s' : PWSCircuitParser) : Prop where
  vars : s'.varMap = s.varMap
  ios : s'.inOutVarsMap = s.inOutVarsMap
  constants : s'.constants = s.constants

theorem SameNames.objectAt (h : SameNames s s') (p : Primitive) :
    Pws.objectAt s' p = Pws.objectAt s p := by
  rw [Pws.objectAt, Pws.objectAt, getVarMap, getVarMap, h.vars, h.ios, h.constants]

/-- Changing gates keeps a state well formed if no gate is lost and every gate is wired to gates
that are there. -/
theorem wellFormed_of_gates (hs : WellFormed s) (hnames : SameNames s s')
    (hhas : ∀ pos, HasGate s pos → HasGate s' pos)
    (hinputs : ∀ n g, gateAt s' ⟨0, n⟩ = some g → g.op = .constant)
    (hwiring : ∀ l n g, gateAt s' ⟨l + 1, n⟩ = some g →
      g.op ≠ .constant ∧ HasGate s' ⟨l, g.in1⟩ ∧ HasGate s' ⟨l, g.in2⟩)
    (howners : ∀ pos g p, gateAt s' pos = some g → g.boundPrimitive.option = some p →
      ∃ cp, objectAt s p = some cp ∧ cp.isBound = true) : WellFormed s' where
  varsOrdered := hnames.vars ▸ hs.varsOrdered
  iosOrdered := hnames.ios ▸ hs.iosOrdered
  varNames := hnames.vars ▸ hs.varNames
  ioNames := hnames.ios ▸ hs.ioNames
  constNames := hnames.constants ▸ hs.constNames
  constLayers := hnames.constants ▸ hs.constLayers
  inputs := hinputs
  wiring := hwiring
  placed p cp h := by
    rw [hnames.objectAt] at h
    exact (hs.placed p cp h).mono hhas
  owners pos g p hg hp := by
    rw [hnames.objectAt]
    exact howners pos g p hg hp

/-- The state with other constants. -/
def withConstants (s : PWSCircuitParser) (cs : List CConst) : PWSCircuitParser :=
  { s with constants := cs }

theorem objectAt_withConstants (s : PWSCircuitParser) (cs : List CConst) (q : Primitive) :
    objectAt (withConstants s cs) q =
      if q.isConstant then (cs[q.idx]?).map CConst.toCPrimitive else objectAt s q := by
  by_cases hq : q.isConstant = true
  · rw [objectAt, if_pos hq, if_pos hq]
    rfl
  · rw [objectAt, if_neg hq, if_neg hq, objectAt, if_neg hq]
    rfl

theorem wellFormed_withConstants (hs : WellFormed s) {cs : List CConst}
    (hcs : ∀ (i : ℕ) (c : CConst), cs[i]? = some c →
      c.name = i ∧ (c.isBound → c.minLayer = 0) ∧ c.toCPrimitive.Placed s)
    (hbound : ∀ (i : ℕ) (c : CConst), s.constants[i]? = some c → c.isBound = true →
      ∃ c', cs[i]? = some c' ∧ c'.isBound = true) : WellFormed (withConstants s cs) where
  varsOrdered := hs.varsOrdered
  iosOrdered := hs.iosOrdered
  varNames := hs.varNames
  ioNames := hs.ioNames
  constNames i c hc := (hcs i c hc).1
  constLayers i c hc := (hcs i c hc).2.1
  inputs := hs.inputs
  wiring := hs.wiring
  placed q cp hq := by
    rw [objectAt_withConstants] at hq
    split at hq
    · obtain ⟨c, hc, rfl⟩ := Option.map_eq_some_iff.mp hq
      exact (hcs q.idx c hc).2.2.mono fun _ h => h
    · exact (hs.placed q cp hq).mono fun _ h => h
  owners pos g q hg hq := by
    obtain ⟨cp, hcp, hb⟩ := hs.owners pos g q hg hq
    rw [objectAt_withConstants]
    split
    · next hconst =>
        rw [objectAt, if_pos hconst] at hcp
        obtain ⟨c, hc, rfl⟩ := Option.map_eq_some_iff.mp hcp
        obtain ⟨c', hc', hb'⟩ := hbound q.idx c hc hb
        exact ⟨c'.toCPrimitive, by rw [hc']; rfl, hb'⟩
    · exact ⟨cp, hcp, hb⟩

theorem WellFormed.constant (hs : WellFormed s) {i : ℕ} {c : CConst}
    (hc : s.constants[i]? = some c) :
    c.name = i ∧ (c.isBound → c.minLayer = 0) ∧ c.toCPrimitive.Placed s := by
  refine ⟨hs.constNames i c hc, hs.constLayers i c hc, hs.placed ⟨.constant, i⟩ _ ?_⟩
  change (s.constants[i]?).map _ = _
  rw [hc]
  rfl

theorem placed_new (s : PWSCircuitParser) : CPrimitive.new.Placed s where
  gates i name h := by simp [CPrimitive.new] at h
  top h := by simp [CPrimitive.isBound, CPrimitive.new] at h

/-- The object of a constant that is entered. -/
def newConst (text : Text) (i : ℕ) : CConst := { CPrimitive.new with value := text, name := i }

/-- A constant of the list with a new one is an old one, or the new one at its end. -/
theorem getElem?_snoc {α : Type} (l : List α) (a b : α) (i : ℕ) :
    (l ++ [a])[i]? = some b ↔ l[i]? = some b ∨ i = l.length ∧ b = a := by
  rcases Nat.lt_trichotomy i l.length with hi | hi | hi
  · rw [List.getElem?_append_left hi]
    simp [hi.ne]
  · subst hi
    simp [eq_comm]
  · rw [List.getElem?_eq_none (by simpa using hi), List.getElem?_eq_none hi.le]
    simp [hi.ne']

/-- `addConstant` enters an object without gates, if the text is new. -/
theorem addConstant_inv (hs : WellFormed s) {text : Text} {p : Primitive}
    (h : addConstant text s = some (p, s')) :
    WellFormed s' ∧ (∃ i c, p = ⟨.constant, i⟩ ∧ s'.constants[i]? = some c ∧ c.value = text) ∧
      (∀ pos, gateAt s' pos = gateAt s pos) ∧
      (∀ (i : ℕ) (c : CConst), s.constants[i]? = some c → s'.constants[i]? = some c) ∧
      ∀ q, objectAt s' q = if q = p ∧ objectAt s p = none then some CPrimitive.new
        else objectAt s q := by
  rw [addConstant] at h
  cases hfind : s.constants.findIdx? (fun c => c.value == text) with
  | some i =>
      rw [hfind] at h
      obtain ⟨rfl, rfl⟩ := Prod.mk.inj (Option.some.inj h)
      obtain ⟨hi, hvalue, -⟩ := List.findIdx?_eq_some_iff_getElem.mp hfind
      have hc : s.constants[i]? = some s.constants[i] := List.getElem?_eq_getElem hi
      -- the text is in the pool already: its first index is returned
      refine ⟨hs, ⟨i, _, rfl, hc, by simpa using hvalue⟩, fun _ => rfl, fun _ _ h => h, fun q => ?_⟩
      rw [if_neg]
      rintro ⟨-, hnone⟩
      change (s.constants[i]?).map _ = none at hnone
      rw [hc] at hnone
      exact Option.some_ne_none _ hnone
  | none =>
      rw [hfind] at h
      obtain ⟨rfl, rfl⟩ := Prod.mk.inj (Option.some.inj h)
      have hsnoc := getElem?_snoc s.constants (newConst text s.constants.length)
      change WellFormed (withConstants s (s.constants ++ [newConst text s.constants.length])) ∧ _
      refine ⟨wellFormed_withConstants hs ?_ fun i c hc hb => ⟨c, (hsnoc c i).mpr (Or.inl hc), hb⟩,
        ⟨s.constants.length, newConst text s.constants.length, rfl, ?_, rfl⟩,
        fun _ => rfl, fun i c hc => (hsnoc c i).mpr (Or.inl hc), fun q => ?_⟩
      · -- the pool grows by one constant at the end, old indices read the same
        intro i c hc
        rcases (hsnoc c i).mp hc with hc | ⟨rfl, rfl⟩
        · exact hs.constant hc
        · exact ⟨rfl, fun _ => rfl, placed_new s⟩
      · exact (hsnoc _ _).mpr (Or.inr ⟨rfl, rfl⟩)
      · change objectAt (withConstants s (s.constants ++ [newConst text s.constants.length])) q = _
        have hnone : objectAt s ⟨.constant, s.constants.length⟩ = none := by
          change (s.constants[s.constants.length]?).map _ = none
          rw [List.getElem?_eq_none (Nat.le_refl _)]
          rfl
        rw [objectAt_withConstants]
        -- no variable is touched; a constant is compared by its index
        obtain ⟨u, j⟩ := q
        cases u with
        | intermediate => rw [if_neg (by simp), if_neg fun hand => by simp at hand]
        | inputOutput => rw [if_neg (by simp), if_neg fun hand => by simp at hand]
        | constant =>
            rw [if_pos (isConstant_constant j)]
            by_cases hj : j = s.constants.length
            · subst hj
              rw [if_pos ⟨rfl, hnone⟩]
              simp [newConst]
            · rw [if_neg fun hand => hj (Primitive.mk.inj hand.1).2]
              have hget : (s.constants ++ [newConst text s.constants.length])[j]? =
                  s.constants[j]? := by
                apply Option.ext
                intro c
                rw [hsnoc]
                simp [hj]
              rw [hget]
              rfl

/-- `getCircuitPrimitive` reads the object. -/
theorem getCircuitPrimitive_inv {p : Primitive} {cp : CPrimitive}
    (h : getCircuitPrimitive p s = some (cp, s')) : s' = s ∧ objectAt s p = some cp := by
  rw [getCircuitPrimitive] at h
  split at h
  · next hp =>
      obtain ⟨c, hc, heq⟩ := Option.map_eq_some_iff.mp h
      obtain ⟨rfl, rfl⟩ := Prod.mk.inj heq
      rw [objectAt, if_pos hp, hc]
      exact ⟨rfl, rfl⟩
  · next hp =>
      obtain ⟨v, hv, heq⟩ := Option.map_eq_some_iff.mp h
      obtain ⟨rfl, rfl⟩ := Prod.mk.inj heq
      rw [objectAt, if_neg hp, hv]
      exact ⟨rfl, rfl⟩

/-- `toPrimitive` of an object is its place. -/
theorem toPrimitive_inv (hs : WellFormed s) {p q : Primitive}
    (h : toPrimitive p s = some (q, s')) : s' = s ∧ q = p := by
  obtain ⟨t, i⟩ := p
  rw [toPrimitive] at h
  cases t with
  | constant =>
      obtain ⟨c, hc, heq⟩ := Option.map_eq_some_iff.mp h
      obtain ⟨rfl, rfl⟩ := Prod.mk.inj heq
      exact ⟨rfl, by rw [CConst.toPrimitive, hs.constNames i c hc]⟩
  | intermediate =>
      obtain ⟨v, hv, heq⟩ := Option.map_eq_some_iff.mp h
      obtain ⟨rfl, rfl⟩ := Prod.mk.inj heq
      obtain ⟨hname, hio⟩ := hs.varNames i v hv
      exact ⟨rfl, by rw [CVar.toPrimitive, hio, hname]; rfl⟩
  | inputOutput =>
      obtain ⟨v, hv, heq⟩ := Option.map_eq_some_iff.mp h
      obtain ⟨rfl, rfl⟩ := Prod.mk.inj heq
      obtain ⟨hname, hio⟩ := hs.ioNames i v hv
      exact ⟨rfl, by rw [CVar.toPrimitive, hio, hname]; rfl⟩

/-- The texts of the constants. -/
def constText (s : PWSCircuitParser) (i : ℕ) : Option Text := (s.constants[i]?).map CConst.value

/-- `modifyPrimitive` changes the object at its place. -/
theorem modifyPrimitive_inv (hs : WellFormed s) {p : Primitive} {f : CPrimitive → CPrimitive}
    {u : Unit} (h : modifyPrimitive p f s = some (u, s')) :
    ∃ cp, objectAt s p = some cp ∧ (∀ pos, gateAt s' pos = gateAt s pos) ∧
      (∀ i, constText s' i = constText s i) ∧
      (∀ q, objectAt s' q = if q = p then some (f cp) else objectAt s q) ∧
      ((f cp).Placed s → (p.isConstant → (f cp).isBound → (f cp).minLayer = 0) →
        (cp.isBound = true → (f cp).isBound = true) → WellFormed s') := by
  rw [modifyPrimitive] at h
  split at h
  · next hp =>
      obtain ⟨c, hc, heq⟩ := Option.map_eq_some_iff.mp h
      obtain ⟨-, rfl⟩ := Prod.mk.inj heq
      -- a constant: one entry of the pool is replaced
      have hlt : p.idx < s.constants.length := (List.getElem?_eq_some_iff.mp hc).1
      have hget : ∀ i, (s.constants.set p.idx { c with toCPrimitive := f c.toCPrimitive })[i]? =
          if i = p.idx then some { c with toCPrimitive := f c.toCPrimitive }
          else s.constants[i]? := by
        intro i
        by_cases hi : i = p.idx
        · subst hi
          rw [List.getElem?_set_self hlt, if_pos rfl]
        · rw [List.getElem?_set_ne (Ne.symm hi), if_neg hi]
      refine ⟨c.toCPrimitive, by rw [objectAt, if_pos hp, hc]; rfl, fun _ => rfl, fun i => ?_,
        fun q => ?_, fun hplaced hlayer hbound => ?_⟩
      · rw [constText, constText, hget]
        by_cases hi : i = p.idx
        · rw [if_pos hi, hi, hc]
          rfl
        · rw [if_neg hi]
      · refine (objectAt_withConstants s _ q).trans ?_
        by_cases hq : q.isConstant = true
        · rw [if_pos hq, hget]
          -- within the constants the index decides which object it is
          by_cases hi : q.idx = p.idx
          · have heq : q = p := by
              rw [Primitive.isConstant, beq_iff_eq] at hp hq
              obtain ⟨t, i⟩ := p
              obtain ⟨u, j⟩ := q
              exact Primitive.mk.injEq u j t i ▸ ⟨hq.trans hp.symm, hi⟩
            rw [if_pos hi, if_pos heq]
            rfl
          · rw [if_neg hi, if_neg fun heq => hi (congrArg Primitive.idx heq), objectAt, if_pos hq]
        · rw [if_neg hq, if_neg fun hqp : q = p => hq (hqp ▸ hp)]
      · refine wellFormed_withConstants hs (fun i c' hc' => ?_) fun i c' hc' hb => ?_
        · rw [hget] at hc'
          by_cases hi : i = p.idx
          · rw [if_pos hi] at hc'
            obtain rfl := Option.some.inj hc'
            exact ⟨(hs.constNames p.idx c hc).trans hi.symm, hlayer hp, hplaced⟩
          · rw [if_neg hi] at hc'
            exact hs.constant hc'
        · rw [hget]
          by_cases hi : i = p.idx
          · rw [hi, hc] at hc'
            obtain rfl := Option.some.inj hc'
            rw [if_pos hi]
            exact ⟨_, rfl, hbound hb⟩
          · rw [if_neg hi]
            exact ⟨c', hc', hb⟩
  · next hp =>
      -- a variable: one entry of its map is replaced
      have hvar : p.isVariable = true := by
        rw [isConstant_eq_not] at hp
        simpa using hp
      obtain ⟨v, hv, heq⟩ := Option.map_eq_some_iff.mp h
      obtain ⟨-, rfl⟩ := Prod.mk.inj heq
      have hobject : objectAt s p = some v.toCPrimitive := by rw [objectAt, if_neg hp, hv]; rfl
      have hnamed : Named p { v with toCPrimitive := f v.toCPrimitive } :=
        ⟨(named_of_lookup hs hv).1, (named_of_lookup hs hv).2⟩
      refine ⟨v.toCPrimitive, hobject,
        gateAt_of_desc (desc_setVarMap _ _ s), fun i => ?_, objectAt_setVarMap hs hvar _,
        fun hplaced _ hbound => wellFormed_setVarMap hs hvar hnamed hplaced fun cp hcp hb => ?_⟩
      · rw [constText, constText, constants_setVarMap]
      · rw [hobject] at hcp
        exact hbound (Option.some.inj hcp ▸ hb)

end Effects

section Gates

variable {s s' : PWSCircuitParser}

theorem gateAt_growLayers (s : PWSCircuitParser) (n : ℕ) (pos : GatePosition) :
    ((growLayers n s.circuitDesc)[pos.layer]?).bind (fun layer => layer[pos.name]?) =
      gateAt s pos := by
  rw [growLayers, gateAt]
  rcases Nat.lt_or_ge pos.layer s.circuitDesc.length with hlt | hge
  · rw [List.getElem?_append_left hlt]
  · rw [List.getElem?_append_right hge, List.getElem?_replicate, List.getElem?_eq_none hge]
    split <;> rfl

theorem getElem?_modify_ite {α : Type} (l : List α) (i j : ℕ) (f : α → α) :
    (l.modify i f)[j]? = if i = j then (l[j]?).map f else l[j]? := by
  rw [List.getElem?_modify]
  by_cases h : i = j
  · simp only [h, ↓reduceIte]
    rfl
  · simp only [h, ↓reduceIte]
    exact id_map _

/-- The description after a gate is appended to a layer. -/
theorem gateAt_append {desc : CircuitDescription} {l : ℕ} (hl : l < desc.length)
    (g : GateDescription) (pos : GatePosition) :
    ((desc.modify l fun layer => layer ++ [g])[pos.layer]?).bind (fun layer => layer[pos.name]?) =
      if pos = ⟨l, (desc.getD l []).length⟩ then some g
      else (desc[pos.layer]?).bind fun layer => layer[pos.name]? := by
  have hget : desc[l]? = some desc[l] := List.getElem?_eq_getElem hl
  have hgetD : desc.getD l [] = desc[l] := by rw [List.getD_eq_getElem?_getD, hget]; rfl
  obtain ⟨k, n⟩ := pos
  change ((desc.modify l fun layer => layer ++ [g])[k]?).bind (fun layer => layer[n]?) =
    if _ then some g else (desc[k]?).bind fun layer => layer[n]?
  rw [getElem?_modify_ite, hgetD]
  by_cases hk : l = k
  · subst hk
    rw [if_pos rfl, hget]
    change (desc[l] ++ [g])[n]? = if _ then some g else desc[l][n]?
    apply Option.ext
    intro b
    rw [getElem?_snoc]
    by_cases hn : n = desc[l].length
    · subst hn
      simp [eq_comm]
    · rw [if_neg fun h => hn (GatePosition.mk.inj h).2]
      simp [hn]
  · rw [if_neg hk, if_neg fun h => hk (GatePosition.mk.inj h).1.symm]

/-- `addGate` puts one gate at the end of its layer. -/
theorem addGate_inv {op : OpType} {in1 in2 l : ℕ} {pos : GatePosition}
    (h : addGate op in1 in2 l s = some (pos, s')) :
    pos.layer = l ∧ gateAt s pos = none ∧ SameNames s s' ∧
      (∀ q, gateAt s' q = if q = pos then some ⟨op, pos, in1, in2, .empty⟩ else gateAt s q) := by
  obtain ⟨rfl, rfl⟩ := Prod.mk.inj (Option.some.inj h)
  have hl : l < (growLayers l s.circuitDesc).length := by
    rw [growLayers, List.length_append, List.length_replicate]
    omega
  refine ⟨rfl, ?_, ⟨rfl, rfl, rfl⟩, fun q => ?_⟩
  · rw [← gateAt_growLayers s l]
    change ((growLayers l s.circuitDesc)[l]?).bind _ = none
    rw [List.getElem?_eq_getElem hl, List.getD_eq_getElem?_getD, List.getElem?_eq_getElem hl]
    exact List.getElem?_eq_none (Nat.le_refl _)
  · refine (gateAt_append hl _ q).trans ?_
    rw [gateAt_growLayers]

/-- `modifyGate` changes the gate at its position. -/
theorem modifyGate_inv {pos : GatePosition} {f : GateDescription → GateDescription} {u : Unit}
    (h : modifyGate pos f s = some (u, s')) :
    ∃ g, gateAt s pos = some g ∧ SameNames s s' ∧
      ∀ q, gateAt s' q = if q = pos then some (f g) else gateAt s q := by
  obtain ⟨g, hg, heq⟩ := Option.map_eq_some_iff.mp h
  obtain ⟨-, rfl⟩ := Prod.mk.inj heq
  refine ⟨g, hg, ⟨rfl, rfl, rfl⟩, fun q => ?_⟩
  obtain ⟨l, n⟩ := pos
  obtain ⟨k, m⟩ := q
  obtain ⟨layer, hlayer, hname⟩ := Option.bind_eq_some_iff.mp hg
  change ((s.circuitDesc.modify l fun layer => layer.modify n f)[k]?).bind (fun layer => layer[m]?) =
    if _ then some (f g) else (s.circuitDesc[k]?).bind fun layer => layer[m]?
  rw [getElem?_modify_ite]
  by_cases hk : l = k
  · subst hk
    rw [if_pos rfl, hlayer]
    change (layer.modify n f)[m]? = if _ then some (f g) else layer[m]?
    rw [getElem?_modify_ite]
    by_cases hm : n = m
    · subst hm
      rw [if_pos rfl, hname, if_pos rfl]
      rfl
    · rw [if_neg hm, if_neg fun h => hm (GatePosition.mk.inj h).2.symm]
  · rw [if_neg hk, if_neg fun h => hk (GatePosition.mk.inj h).1.symm]

/-- A state with one more gate, wired to gates that are there. -/
theorem wellFormed_addGate (hs : WellFormed s) {op : OpType} {in1 in2 l : ℕ} {pos : GatePosition}
    (h : addGate op in1 in2 l s = some (pos, s'))
    (hin : ∀ k, l = k + 1 → op ≠ .constant ∧ HasGate s ⟨k, in1⟩ ∧ HasGate s ⟨k, in2⟩)
    (hinput : l = 0 → op = .constant) : WellFormed s' ∧ Grows s s' ∧ HasGate s' pos := by
  obtain ⟨hlayer, hfresh, hnames, hgate⟩ := addGate_inv h
  -- the new position was free, so every gate from before reads the same
  have hold : ∀ q g, gateAt s q = some g → gateAt s' q = some g := by
    intro q g hg
    rw [hgate, if_neg, hg]
    rintro rfl
    rw [hfresh] at hg
    exact Option.some_ne_none _ hg.symm
  have hhas : ∀ q, HasGate s q → HasGate s' q := by
    intro q hq
    obtain ⟨g, hg⟩ := Option.isSome_iff_exists.mp hq
    exact Option.isSome_iff_exists.mpr ⟨g, hold q g hg⟩
  refine ⟨wellFormed_of_gates hs hnames hhas ?_ ?_ ?_,
    fun q g hg => ⟨g.boundPrimitive, hold q g hg⟩, ?_⟩
  · intro n g hg
    rw [hgate] at hg
    split at hg
    · -- the new gate sits in layer 0 only when it is a constant
      next heq =>
        obtain rfl := Option.some.inj hg
        exact hinput (hlayer ▸ (congrArg GatePosition.layer heq).symm)
    · exact hs.inputs n g hg
  · intro k n g hg
    rw [hgate] at hg
    split at hg
    · -- above layer 0 its two inputs are in the layer below
      next heq =>
        obtain rfl := Option.some.inj hg
        obtain ⟨hop, h1, h2⟩ := hin k (hlayer ▸ (congrArg GatePosition.layer heq).symm)
        exact ⟨hop, hhas _ h1, hhas _ h2⟩
    · obtain ⟨hop, h1, h2⟩ := hs.wiring k n g hg
      exact ⟨hop, hhas _ h1, hhas _ h2⟩
  · intro q g p hg hp
    rw [hgate] at hg
    split at hg
    · -- the new gate is bound to nothing
      obtain rfl := Option.some.inj hg
      exact Option.noConfusion rfl (heq_of_eq hp)
    · exact hs.owners q g p hg hp
  · rw [HasGate, hgate, if_pos rfl]
    rfl

/-- Binding a gate to a primitive that has gates keeps a state well formed. -/
theorem wellFormed_rebind (hs : WellFormed s) {p : Primitive} {pos : GatePosition} {u : Unit}
    (h : modifyGate pos (·.bind p) s = some (u, s'))
    (hp : ∃ cp, objectAt s p = some cp ∧ cp.isBound = true) : WellFormed s' ∧ Grows s s' := by
  obtain ⟨g₁, hg₁, hnames, hgate⟩ := modifyGate_inv h
  -- a gate of the new state is an old one, but for what it is bound to
  have hback : ∀ q g, gateAt s' q = some g → ∃ g₀, gateAt s q = some g₀ ∧ g.op = g₀.op ∧
      g.in1 = g₀.in1 ∧ g.in2 = g₀.in2 ∧
      (g.boundPrimitive.option = some p ∨ g.boundPrimitive = g₀.boundPrimitive) := by
    intro q g hg
    rw [hgate] at hg
    split at hg
    · next hq =>
        obtain rfl := Option.some.inj hg
        exact ⟨g₁, hq ▸ hg₁, rfl, rfl, rfl, Or.inl rfl⟩
    · exact ⟨g, hg, rfl, rfl, rfl, Or.inr rfl⟩
  have hgrows : Grows s s' := by
    intro q g hg
    rw [hgate]
    split
    · next hq =>
        obtain rfl : g₁ = g := Option.some.inj (hg₁.symm.trans (hq ▸ hg))
        exact ⟨_, rfl⟩
    · exact ⟨g.boundPrimitive, hg⟩
  refine ⟨wellFormed_of_gates hs hnames (fun _ => hgrows.hasGate) ?_ ?_ ?_, hgrows⟩
  · intro n g hg
    obtain ⟨g₀, hg₀, hop, -⟩ := hback _ _ hg
    exact hop.trans (hs.inputs n g₀ hg₀)
  · intro l n g hg
    obtain ⟨g₀, hg₀, hop, hin1, hin2, -⟩ := hback _ _ hg
    obtain ⟨hop₀, h1, h2⟩ := hs.wiring l n g₀ hg₀
    rw [hop, hin1, hin2]
    exact ⟨hop₀, hgrows.hasGate h1, hgrows.hasGate h2⟩
  · intro q g r hg hr
    obtain ⟨g₀, hg₀, -, -, -, hbound | hbound⟩ := hback _ _ hg
    · obtain rfl := Option.some.inj (hbound.symm.trans hr)
      exact hp
    · rw [hbound] at hr
      exact hs.owners q g₀ r hg₀ hr

/-- Unbinding changes nothing. -/
theorem unbind_eq (g : GateDescription) : g.unbind = g := by
  rw [GateDescription.unbind, Maybe.isValid_invalidate]

/-- The loop of `bindVariable` over the old gates leaves the state as it is. -/
theorem unbindAll_inv {l : ℕ} {names : List ℕ} {u : Unit}
    (h : (names.forM fun name => modifyGate ⟨l, name⟩ GateDescription.unbind) s = some (u, s')) :
    s' = s := by
  induction names generalizing s with
  | nil => exact (pure_inv h).2
  | cons name names ih =>
      change (modifyGate ⟨l, name⟩ GateDescription.unbind >>= fun _ =>
        names.forM fun name => modifyGate ⟨l, name⟩ GateDescription.unbind) s = _ at h
      obtain ⟨u₁, s₁, hstep, hrest⟩ := bind_inv h
      have hfirst : s₁ = s := by
        obtain ⟨g, hg, heq⟩ := Option.map_eq_some_iff.mp hstep
        obtain ⟨-, rfl⟩ := Prod.mk.inj heq
        have hid : (fun layer : LayerDescription => layer.modify name GateDescription.unbind) =
            fun layer => layer := by
          funext layer
          apply List.ext_getElem?
          intro i
          rw [getElem?_modify_ite]
          split
          · cases layer[i]? with
            | none => rfl
            | some g => exact congrArg some (unbind_eq g)
          · rfl
        have hdesc : s.circuitDesc.modify l (fun layer => layer.modify name GateDescription.unbind) =
            s.circuitDesc := by
          rw [hid]
          apply List.ext_getElem?
          intro i
          rw [getElem?_modify_ite]
          split <;> simp
        simp only [hdesc]
      rw [ih hrest, hfirst]

/-- `bindVariable` makes the gate the only gate of the object, and gives it the name of the
primitive. -/
theorem bindVariable_inv (hs : WellFormed s) {p : Primitive} {gate : GatePosition} {u : Unit}
    (h : bindVariable p gate s = some (u, s')) :
    (objectAt s p).isSome ∧
      (∀ q, gateAt s' q = if q = gate then (gateAt s gate).map fun g => g.bind p
        else gateAt s q) ∧
      (∀ i, constText s' i = constText s i) ∧
      (∀ q, objectAt s' q = if q = p then some ⟨gate.layer, gate.layer, [gate.name]⟩
        else objectAt s q) ∧
      HasGate s gate ∧ ((p.isConstant → gate.layer = 0) → WellFormed s' ∧ Grows s s') := by
  rw [bindVariable] at h
  obtain ⟨v, s₂, hv, hrun⟩ := bind_inv h
  clear h
  obtain ⟨rfl, hobject⟩ := getCircuitPrimitive_inv hv
  -- unbinding changes nothing: both branches go on with the two modifications
  have hrest : (modifyPrimitive p (·.bind gate) >>= fun _ => modifyGate gate (·.bind p)) s₂ =
      some (u, s') := by
    by_cases hb : v.isBound = true
    · simp only [hb, ↓reduceIte] at hrun
      obtain ⟨u₁, s₁, hunbind, hrun⟩ := bind_inv hrun
      rw [unbindAll_inv hunbind] at hrun
      exact hrun
    · simp only [hb, Bool.false_eq_true, ↓reduceIte] at hrun
      exact hrun
  obtain ⟨u₂, s₃, hmodify, hgate⟩ := bind_inv hrest
  obtain ⟨cp, hcp, hgates, htexts, hobjects, hwf⟩ := modifyPrimitive_inv hs hmodify
  obtain ⟨g, hg, hnames, hbind⟩ := modifyGate_inv hgate
  rw [hgates] at hg
  have hhas : HasGate s₂ gate := Option.isSome_iff_exists.mpr ⟨g, hg⟩
  refine ⟨by rw [hobject]; rfl, fun q => ?_, fun i => ?_, fun q => ?_, hhas, fun hconst => ?_⟩
  · rw [hbind, hgates, hg]
    rfl
  · rw [← htexts i, constText, constText, hnames.constants]
  · rw [hnames.objectAt, hobjects]
    rfl
  · -- one gate, at the lowest layer: the entry is placed
    have hplaced : (cp.bind gate).Placed s₂ := by
      refine ⟨fun i name hi => ?_, fun _ => rfl⟩
      cases i with
      | zero =>
          obtain rfl : gate.name = name := by simpa [CPrimitive.bind] using hi
          exact hhas
      | succ i => simp [CPrimitive.bind] at hi
    have hwf₃ := hwf hplaced (fun hp _ => hconst hp) fun _ => rfl
    have hgrows₃ : Grows s₂ s₃ := fun q g hg => ⟨g.boundPrimitive, by rw [hgates, hg]⟩
    obtain ⟨hwf', hgrows'⟩ := wellFormed_rebind hwf₃ hgate
      ⟨cp.bind gate, by rw [hobjects, if_pos rfl], rfl⟩
    exact ⟨hwf', hgrows₃.trans hgrows'⟩

end Gates

/-! ## Elementary calls -/

/-- The calls that a run may be forbidden to make: a gate becomes the only gate of a primitive, a
variable becomes magic, an output constant or an operation is recorded. -/
inductive Call where
  | bind (p : Primitive) (gate : GatePosition)
  | magic (p : Primitive)
  | record
deriving DecidableEq, Repr

/-- The calls that a run may make. Constants are never bound to another gate; inputs and outputs
never become magic. -/
structure Policy where
  allows : PWSCircuitParser → Call → Prop
  bind_variable : ∀ s p gate, allows s (.bind p gate) → p.isVariable = true
  magic_intermediate : ∀ s p, allows s (.magic p) → p.pType = .intermediate

/-- The primitive that `addConstant` gives for a text: the first constant with it. -/
structure IsConst (s : PWSCircuitParser) (text : Text) (p : Primitive) : Prop where
  isConstant : p.isConstant = true
  there : constText s p.idx = some text
  first : ∀ j, j < p.idx → ∃ t, constText s j = some t ∧ t ≠ text

/-- The constant zero of a state. -/
abbrev IsZero (s : PWSCircuitParser) (p : Primitive) : Prop := IsConst s (Text.ofInt 0) p

/-- The last lines of the loop in `promotePrimitive`: a gate in the layer above the highest gate of
the primitive. -/
def promoteTo (p : Primitive) (in1 in2 layer : ℕ) : ParserM Unit := do
  let g ← addGate .add in1 in2 layer
  let var ← toPrimitive p
  modifyGate g (·.bind var)
  modifyPrimitive p (·.push g.name)

/-- One elementary call, with what is known when it is made. -/
inductive Step (P : Policy) (s s' : PWSCircuitParser) : Prop where
  | addVariable (type : VarType) (name : ℕ) (p : Primitive)
      (run : Pws.addVariable type name s = some (p, s'))
  | addConstant (text : Text) (p : Primitive) (run : Pws.addConstant text s = some (p, s'))
  | makeMagic (p : Primitive) (v : CVar) (allowed : P.allows s (.magic p))
      (found : (getVarMap p s).lookup p.idx = some v)
      (run : s' = setVarMap p v.makeMagic s)
  | addToCircuit (p : Primitive) (run : Pws.addToCircuit p s = some ((), s'))
  | addGate (op : OpType) (in1 in2 layer : ℕ) (pos : GatePosition) (isGate : op ≠ .constant)
      (has1 : HasGate s ⟨layer, in1⟩) (has2 : HasGate s ⟨layer, in2⟩)
      (run : Pws.addGate op in1 in2 (layer + 1) s = some (pos, s'))
  | promote (p zero : Primitive) (cp cz : CPrimitive) (in1 in2 : ℕ)
      (object : objectAt s p = some cp) (zeroObject : objectAt s zero = some cz)
      (isZero : IsZero s zero) (bound : cp.isBound = true)
      (top : cp.gateIndex[cp.maxLayer - cp.minLayer]? = some in1)
      (zeroGate : cz.gateIndex[cp.maxLayer]? = some in2)
      (run : promoteTo p in1 in2 (cp.maxLayer + 1) s = some ((), s'))
  | bindVariable (p : Primitive) (gate : GatePosition) (allowed : P.allows s (.bind p gate))
      (run : Pws.bindVariable p gate s = some ((), s'))
  | record (allowed : P.allows s .record) (names : SameNames s s')
      (desc : s'.circuitDesc = s.circuitDesc)

/-- A sequence of elementary calls. -/
abbrev Run (P : Policy) : PWSCircuitParser → PWSCircuitParser → Prop :=
  Relation.ReflTransGen (Step P)

section Steps

variable {P : Policy} {s s' : PWSCircuitParser}

theorem objectAt_variable {p : Primitive} (hp : p.isVariable = true) :
    objectAt s p = ((getVarMap p s).lookup p.idx).map CVar.toCPrimitive := by
  rw [objectAt, isConstant_eq_not, hp]
  rfl

/-- A variable that becomes magic keeps its gates. -/
theorem makeMagic_inv (hs : WellFormed s) {p : Primitive} {v : CVar}
    (hp : p.pType = .intermediate) (h : (getVarMap p s).lookup p.idx = some v) :
    WellFormed (setVarMap p v.makeMagic s) ∧
      ∀ q, objectAt (setVarMap p v.makeMagic s) q = objectAt s q := by
  have hvar : p.isVariable = true := isVariable_iff.mpr (Or.inr hp)
  have hnamed : Named p v.makeMagic := by
    refine ⟨(named_of_lookup hs h).1, ?_⟩
    rw [Primitive.isInputOutput, hp]
    rfl
  have hobject : objectAt s p = some v.toCPrimitive := by
    rw [objectAt_variable hvar, h]
    rfl
  refine ⟨wellFormed_setVarMap hs hvar hnamed (hs.placed p _ hobject) fun cp hcp hb => ?_,
    fun q => ?_⟩
  · rw [hobject] at hcp
    exact Option.some.inj hcp ▸ hb
  rw [objectAt_setVarMap hs hvar]
  split
  · next hq => rw [hq, hobject]; rfl
  · rfl

theorem grows_of_gateAt (h : ∀ pos, gateAt s' pos = gateAt s pos) : Grows s s' :=
  fun pos g hg => ⟨g.boundPrimitive, by rw [h, hg]⟩

/-- `addToCircuit` gives a primitive without gates a new one in the input layer. -/
theorem addToCircuit_inv (hs : WellFormed s) {p : Primitive} {u : Unit}
    (h : addToCircuit p s = some (u, s')) :
    ∃ cp, objectAt s p = some cp ∧ (cp.isBound = true ∧ s' = s ∨
      cp.isBound = false ∧ ∃ g, gateAt s g = none ∧ g.layer = 0 ∧
        (∀ q, gateAt s' q = if q = g then some ⟨.constant, g, 0, 0, ⟨some p⟩⟩ else gateAt s q) ∧
        (∀ i, constText s' i = constText s i) ∧
        (∀ q, objectAt s' q = if q = p then some (cp.bind g) else objectAt s q) ∧
        WellFormed s' ∧ Grows s s') := by
  rw [addToCircuit] at h
  obtain ⟨cp, s₁, hcp, hrun⟩ := bind_inv h
  clear h
  obtain ⟨rfl, hobject⟩ := getCircuitPrimitive_inv hcp
  refine ⟨cp, hobject, ?_⟩
  cases hb : cp.isBound with
  | true =>
      -- bound already: the call leaves the state alone
      simp only [hb, Bool.not_true, Bool.false_eq_true, ↓reduceIte] at hrun
      exact Or.inl ⟨rfl, (pure_inv hrun).2⟩
  | false =>
      simp only [hb, Bool.not_false, ↓reduceIte] at hrun
      -- unbound: a constant gate in layer 0 and then the binding
      obtain ⟨q, s₂, hq, hrun₂⟩ := bind_inv hrun
      obtain ⟨rfl, rfl⟩ := toPrimitive_inv hs hq
      obtain ⟨g, s₃, hgate, hbind⟩ := bind_inv hrun₂
      obtain ⟨hlayer, hfresh, hnames, hadd⟩ := addGate_inv hgate
      obtain ⟨hwf₃, hgrows₃, -⟩ := wellFormed_addGate hs hgate (by simp) fun _ => rfl
      obtain ⟨-, hgates, htexts, hobjects, -, hlater⟩ := bindVariable_inv hwf₃ hbind
      obtain ⟨hwf', hgrows'⟩ := hlater fun _ => hlayer
      refine Or.inr ⟨rfl, g, hfresh, hlayer, fun r => ?_, fun i => ?_, fun r => ?_, hwf',
        hgrows₃.trans hgrows'⟩
      · rw [hgates]
        split
        · rw [hadd, if_pos rfl]
          rfl
        · next hr => rw [hadd, if_neg hr]
      · rw [htexts, constText, constText, hnames.constants]
      · rw [hobjects, hnames.objectAt]
        rfl


/-- `promoteTo` puts a gate above the highest gate of the primitive. -/
theorem promoteTo_inv (hs : WellFormed s) {p : Primitive} {cp : CPrimitive} {in1 in2 l : ℕ} {u : Unit}
    (hobject : objectAt s p = some cp) (hbound : cp.isBound = true) (hl : cp.maxLayer = l)
    (h1 : HasGate s ⟨l, in1⟩) (h2 : HasGate s ⟨l, in2⟩)
    (h : promoteTo p in1 in2 (l + 1) s = some (u, s')) :
    ∃ g, gateAt s g = none ∧ g.layer = l + 1 ∧
      (∀ q, gateAt s' q = if q = g then some ⟨.add, g, in1, in2, ⟨some p⟩⟩ else gateAt s q) ∧
      (∀ i, constText s' i = constText s i) ∧
      (∀ q, objectAt s' q = if q = p then some (cp.push g.name) else objectAt s q) ∧
      WellFormed s' ∧ Grows s s' := by
  have hplaced := hs.placed p cp hobject
  have htop := hplaced.top hbound
  rw [promoteTo] at h
  obtain ⟨g, s₁, hg, run₁⟩ := bind_inv h
  obtain ⟨hwf₁, hgrows₁, hhas⟩ := wellFormed_addGate hs hg
    (fun k hk => by obtain rfl := Nat.succ.inj hk; exact ⟨by decide, h1, h2⟩) (by simp)
  obtain ⟨hlayer, hfresh, hnames, hadd⟩ := addGate_inv hg
  obtain ⟨var, s₂, hvar, run₂⟩ := bind_inv run₁
  obtain ⟨rfl, hp⟩ := toPrimitive_inv hwf₁ hvar
  rw [hp] at run₂
  obtain ⟨u₃, s₃, hbind, hpush⟩ := bind_inv run₂
  obtain ⟨g₀, hg₀, hnames₃, hgate₃⟩ := modifyGate_inv hbind
  obtain ⟨hwf₃, hgrows₃⟩ := wellFormed_rebind hwf₁ hbind
    ⟨cp, by rw [hnames.objectAt, hobject], hbound⟩
  obtain ⟨cp', hcp', hgates', htexts', hobjects', hwf'⟩ := modifyPrimitive_inv hwf₃ hpush
  -- binding the gate to its object has not changed the object yet
  have hsame : cp' = cp := by
    rw [hnames₃.objectAt, hnames.objectAt, hobject] at hcp'
    exact (Option.some.inj hcp').symm
  subst hsame
  -- the pushed gate is the one above the highest layer
  have hplaced' : (cp'.push g.name).Placed s₃ := by
    refine ⟨fun i name hi => ?_, fun _ => ?_⟩
    · rcases (getElem?_snoc _ _ _ _).mp hi with hi | ⟨rfl, rfl⟩
      · exact hgrows₃.hasGate (hgrows₁.hasGate (hplaced.gates i name hi))
      · have hpos : (⟨cp'.minLayer + cp'.gateIndex.length, g.name⟩ : GatePosition) = g := by
          rw [← htop, hl, ← hlayer]
        change HasGate s₃ ⟨cp'.minLayer + cp'.gateIndex.length, g.name⟩
        rw [hpos]
        exact hgrows₃.hasGate hhas
    · change cp'.maxLayer + 1 + 1 = cp'.minLayer + (cp'.gateIndex ++ [g.name]).length
      rw [List.length_append, List.length_singleton, htop, Nat.add_assoc]
  have hconst : p.isConstant → (cp'.push g.name).isBound → (cp'.push g.name).minLayer = 0 := by
    intro hp _
    change cp'.minLayer = 0
    rw [objectAt, if_pos hp] at hobject
    obtain ⟨c, hc, rfl⟩ := Option.map_eq_some_iff.mp hobject
    exact hs.constLayers p.idx c hc hbound
  have hbound' : cp'.isBound = true → (cp'.push g.name).isBound = true := fun _ => by
    simp [CPrimitive.isBound, CPrimitive.push]
  refine ⟨g, hfresh, hlayer, fun q => ?_, fun i => ?_, fun q => ?_, hwf' hplaced' hconst hbound',
    (hgrows₁.trans hgrows₃).trans (grows_of_gateAt hgates')⟩
  · rw [hgates', hgate₃]
    split
    · rw [hadd, if_pos rfl] at hg₀
      obtain rfl := Option.some.inj hg₀
      rfl
    · next hq => rw [hadd, if_neg hq]
  · rw [htexts', constText, constText, hnames₃.constants, hnames.constants]
  · rw [hobjects', hnames₃.objectAt, hnames.objectAt]

/-- A gate can always be added. -/
theorem addGate_run (op : OpType) (in1 in2 l : ℕ) (s : PWSCircuitParser) :
    ∃ s' g, addGate op in1 in2 l s = some (g, s') := ⟨_, _, rfl⟩

theorem getCircuitPrimitive_run {p : Primitive} {cp : CPrimitive} (h : objectAt s p = some cp) :
    getCircuitPrimitive p s = some (cp, s) := by
  rw [getCircuitPrimitive]
  rw [objectAt] at h
  split at h
  · next hp =>
      obtain ⟨c, hc, rfl⟩ := Option.map_eq_some_iff.mp h
      rw [if_pos hp, hc]
      rfl
  · next hp =>
      obtain ⟨v, hv, rfl⟩ := Option.map_eq_some_iff.mp h
      rw [if_neg hp, hv]
      rfl

theorem toPrimitive_run (hs : WellFormed s) {p : Primitive} {cp : CPrimitive}
    (h : objectAt s p = some cp) : toPrimitive p s = some (p, s) := by
  obtain ⟨q, s', hrun⟩ : ∃ q s', toPrimitive p s = some (q, s') := by
    rw [toPrimitive]
    rw [objectAt] at h
    split at h
    · next hp =>
        obtain ⟨c, hc, rfl⟩ := Option.map_eq_some_iff.mp h
        exact ⟨_, _, by rw [if_pos hp, hc]; rfl⟩
    · next hp =>
        obtain ⟨v, hv, rfl⟩ := Option.map_eq_some_iff.mp h
        exact ⟨_, _, by rw [if_neg hp, hv]; rfl⟩
  obtain ⟨rfl, rfl⟩ := toPrimitive_inv hs hrun
  exact hrun

theorem modifyPrimitive_run {p : Primitive} {cp : CPrimitive} (f : CPrimitive → CPrimitive)
    (h : objectAt s p = some cp) : ∃ s', modifyPrimitive p f s = some ((), s') := by
  rw [modifyPrimitive]
  rw [objectAt] at h
  split at h
  · next hp =>
      obtain ⟨c, hc, rfl⟩ := Option.map_eq_some_iff.mp h
      exact ⟨_, by rw [if_pos hp, hc]; rfl⟩
  · next hp =>
      obtain ⟨v, hv, rfl⟩ := Option.map_eq_some_iff.mp h
      exact ⟨_, by rw [if_neg hp, hv]; rfl⟩

theorem modifyGate_run {pos : GatePosition} (f : GateDescription → GateDescription)
    (h : HasGate s pos) : ∃ s', modifyGate pos f s = some ((), s') := by
  obtain ⟨g, hg⟩ := Option.isSome_iff_exists.mp h
  exact ⟨_, by rw [modifyGate, show (s.circuitDesc[pos.layer]?).bind _ = some g from hg]; rfl⟩

/-- A primitive that is there can be given a gate. -/
theorem addToCircuit_run (hs : WellFormed s) {p : Primitive} {cp : CPrimitive}
    (h : objectAt s p = some cp) : ∃ s', addToCircuit p s = some ((), s') := by
  rw [addToCircuit, bind_run (getCircuitPrimitive_run h)]
  cases hb : cp.isBound with
  | true => exact ⟨s, rfl⟩
  | false =>
      simp only [Bool.not_false, ↓reduceIte]
      rw [bind_run (toPrimitive_run hs h)]
      obtain ⟨s₁, g, hgate⟩ := addGate_run .constant 0 0 0 s
      obtain ⟨-, -, hnames, hadd⟩ := addGate_inv hgate
      have h₁ : objectAt s₁ p = some cp := (hnames.objectAt p).trans h
      rw [bind_run hgate, bindVariable, bind_run (getCircuitPrimitive_run h₁)]
      simp only [hb, Bool.false_eq_true, ↓reduceIte]
      obtain ⟨s₂, hmodify⟩ := modifyPrimitive_run (CPrimitive.bind · g) h₁
      have hhas : HasGate s₂ g := by
        obtain ⟨-, -, hgates, -⟩ := modifyPrimitive_inv
          (wellFormed_addGate hs hgate (by simp) fun _ => rfl).1 hmodify
        rw [HasGate, hgates, hadd, if_pos rfl]
        rfl
      obtain ⟨s₃, hbind⟩ := modifyGate_run (GateDescription.bind · p) hhas
      exact ⟨s₃, (bind_run hmodify).trans hbind⟩

/-- A primitive can be carried up by one layer. -/
theorem promoteTo_run (hs : WellFormed s) {p : Primitive} {cp : CPrimitive} {in1 in2 l : ℕ}
    (h : objectAt s p = some cp) (h1 : HasGate s ⟨l, in1⟩) (h2 : HasGate s ⟨l, in2⟩) :
    ∃ s', promoteTo p in1 in2 (l + 1) s = some ((), s') := by
  obtain ⟨s₁, g, hgate⟩ := addGate_run .add in1 in2 (l + 1) s
  obtain ⟨-, -, hnames, hadd⟩ := addGate_inv hgate
  obtain ⟨hwf₁, -, hhas⟩ := wellFormed_addGate hs hgate
    (fun k hk => by obtain rfl := Nat.succ.inj hk; exact ⟨by decide, h1, h2⟩) (by simp)
  have h₁ : objectAt s₁ p = some cp := (hnames.objectAt p).trans h
  obtain ⟨s₂, hbind⟩ := modifyGate_run (GateDescription.bind · p) hhas
  obtain ⟨-, -, hnames₂, -⟩ := modifyGate_inv hbind
  obtain ⟨s₃, hpush⟩ := modifyPrimitive_run (CPrimitive.push · g.name)
    ((hnames₂.objectAt p).trans h₁)
  refine ⟨s₃, ?_⟩
  rw [promoteTo, bind_run hgate, bind_run (toPrimitive_run hwf₁ h₁), bind_run hbind]
  exact hpush

/-- What an elementary call does to the gates and the objects. -/
inductive Effect (P : Policy) (s s' : PWSCircuitParser) : Prop where
  | names (gates : ∀ q, gateAt s' q = gateAt s q)
      (objects : ∀ q, objectAt s' q = objectAt s q ∨
        objectAt s q = none ∧ objectAt s' q = some CPrimitive.new)
  | touch (p : Primitive) (cp : CPrimitive) (g : GatePosition)
      (object : objectAt s p = some cp) (unbound : cp.isBound = false) (fresh : gateAt s g = none) (layer : g.layer = 0)
      (gates : ∀ q, gateAt s' q =
        if q = g then some ⟨.constant, g, 0, 0, ⟨some p⟩⟩ else gateAt s q)
      (objects : ∀ q, objectAt s' q = if q = p then some (cp.bind g) else objectAt s q)
  | gate (op : OpType) (in1 in2 layer : ℕ) (g : GatePosition) (fresh : gateAt s g = none)
      (above : g.layer = layer + 1)
      (gates : ∀ q, gateAt s' q = if q = g then some ⟨op, g, in1, in2, .empty⟩ else gateAt s q)
      (objects : ∀ q, objectAt s' q = objectAt s q)
  | promote (p zero : Primitive) (cp cz : CPrimitive) (in1 in2 : ℕ) (g : GatePosition)
      (object : objectAt s p = some cp) (zeroObject : objectAt s zero = some cz)
      (isZero : IsZero s zero) (bound : cp.isBound = true)
      (top : cp.gateIndex[cp.maxLayer - cp.minLayer]? = some in1)
      (zeroGate : cz.gateIndex[cp.maxLayer]? = some in2)
      (fresh : gateAt s g = none) (above : g.layer = cp.maxLayer + 1)
      (gates : ∀ q, gateAt s' q = if q = g then some ⟨.add, g, in1, in2, ⟨some p⟩⟩ else gateAt s q)
      (objects : ∀ q, objectAt s' q = if q = p then some (cp.push g.name) else objectAt s q)
  | rebind (p : Primitive) (cp : CPrimitive) (g : GatePosition) (allowed : P.allows s (.bind p g))
      (object : objectAt s p = some cp) (there : HasGate s g)
      (gates : ∀ q, gateAt s' q = if q = g then (gateAt s g).map fun d => d.bind p else gateAt s q)
      (objects : ∀ q, objectAt s' q = if q = p then some (cp.bind g) else objectAt s q)

/-- A zero that has a gate in a layer has one in every layer below. -/
theorem zero_hasGate (hs : WellFormed s) {zero : Primitive} {cz : CPrimitive} {l name : ℕ}
    (hzero : zero.isConstant = true) (hobject : objectAt s zero = some cz)
    (hname : cz.gateIndex[l]? = some name) : cz.minLayer = 0 ∧ HasGate s ⟨l, name⟩ := by
  have hmin : cz.minLayer = 0 := by
    rw [objectAt, if_pos hzero] at hobject
    obtain ⟨c, hc, rfl⟩ := Option.map_eq_some_iff.mp hobject
    refine hs.constLayers zero.idx c hc ?_
    cases hg : c.gateIndex with
    | nil => simp [hg] at hname
    | cons a l => simp [CPrimitive.isBound, hg]
  have hplaced := (hs.placed zero cz hobject).gates l name hname
  rw [hmin, Nat.zero_add] at hplaced
  exact ⟨hmin, hplaced⟩

/-- An elementary call keeps a state well formed, loses no gate and no constant, and does one of
five things to the gates and the objects. -/
theorem Step.effect (h : Step P s s') (hs : WellFormed s) :
    WellFormed s' ∧ Grows s s' ∧
      (∀ i text, constText s i = some text → constText s' i = some text) ∧ Effect P s s' := by
  cases h with
  | addVariable type name p run =>
      obtain ⟨hwf, -, -, hgate, hconsts, hobjects⟩ := addVariable_inv hs run
      refine ⟨hwf, grows_of_gateAt hgate, fun i text h => ?_, .names hgate fun q => ?_⟩
      · rwa [constText, hconsts]
      · rw [hobjects]
        split
        · next hq => exact Or.inr ⟨hq.1 ▸ hq.2, rfl⟩
        · exact Or.inl rfl
  | addConstant text p run =>
      obtain ⟨hwf, -, hgate, hconsts, hobjects⟩ := addConstant_inv hs run
      refine ⟨hwf, grows_of_gateAt hgate, fun i text h => ?_, .names hgate fun q => ?_⟩
      · obtain ⟨c, hc, rfl⟩ := Option.map_eq_some_iff.mp h
        rw [constText, hconsts i c hc]
        rfl
      · rw [hobjects]
        split
        · next hq => exact Or.inr ⟨hq.1 ▸ hq.2, rfl⟩
        · exact Or.inl rfl
  | makeMagic p v allowed found run =>
      subst run
      obtain ⟨hwf, hobjects⟩ := makeMagic_inv hs (P.magic_intermediate s p allowed) found
      have hgate := gateAt_of_desc (desc_setVarMap p v.makeMagic s)
      refine ⟨hwf, grows_of_gateAt hgate, fun i text h => ?_,
        .names hgate fun q => Or.inl (hobjects q)⟩
      rwa [constText, constants_setVarMap]
  | addToCircuit p run =>
      obtain ⟨cp, hobject, h⟩ := addToCircuit_inv hs run
      rcases h with ⟨-, rfl⟩ | ⟨hb, g, hfresh, hlayer, hgates, htexts, hobjects, hwf, hgrows⟩
      · exact ⟨hs, Grows.refl _, fun _ _ h => h, .names (fun _ => rfl) fun _ => Or.inl rfl⟩
      · exact ⟨hwf, hgrows, fun i text h => (htexts i).trans h,
          .touch p cp g hobject hb hfresh hlayer hgates hobjects⟩
  | addGate op in1 in2 layer pos isGate has1 has2 run =>
      obtain ⟨hwf, hgrows, -⟩ := wellFormed_addGate hs run
        (fun k hk => by obtain rfl := Nat.succ.inj hk; exact ⟨isGate, has1, has2⟩) (by simp)
      obtain ⟨hlayer, hfresh, hnames, hgates⟩ := addGate_inv run
      refine ⟨hwf, hgrows, fun i text h => ?_,
        .gate op in1 in2 layer pos hfresh hlayer hgates hnames.objectAt⟩
      rwa [constText, hnames.constants]
  | promote p zero cp cz in1 in2 object zeroObject isZero bound top zeroGate run =>
      have hplaced := hs.placed p cp object
      have hlt := (List.getElem?_eq_some_iff.mp top).1
      have h1 : HasGate s ⟨cp.maxLayer, in1⟩ := by
        have hgate := hplaced.gates _ _ top
        have htop := hplaced.top bound
        rwa [Nat.add_sub_cancel' (by omega)] at hgate
      have h2 := (zero_hasGate hs isZero.1 zeroObject zeroGate).2
      obtain ⟨g, hfresh, hlayer, hgates, htexts, hobjects, hwf, hgrows⟩ :=
        promoteTo_inv hs object bound rfl h1 h2 run
      exact ⟨hwf, hgrows, fun i text h => (htexts i).trans h,
        .promote p zero cp cz in1 in2 g object zeroObject isZero bound top zeroGate hfresh hlayer
          hgates hobjects⟩
  | bindVariable p gate allowed run =>
      obtain ⟨hsome, hgates, htexts, hobjects, hthere, hlater⟩ := bindVariable_inv hs run
      obtain ⟨cp, hobject⟩ := Option.isSome_iff_exists.mp hsome
      have hvar := P.bind_variable s p gate allowed
      obtain ⟨hwf, hgrows⟩ := hlater fun hp => by simp [isConstant_eq_not, hvar] at hp
      exact ⟨hwf, hgrows, fun i text h => (htexts i).trans h,
        .rebind p cp gate allowed hobject hthere hgates hobjects⟩
  | record allowed names desc =>
      have hgate := gateAt_of_desc desc
      have hgrows := grows_of_gateAt hgate
      refine ⟨wellFormed_of_gates hs names (fun _ => hgrows.hasGate) ?_ ?_ ?_, hgrows,
        fun i text h => ?_, .names hgate fun q => Or.inl (names.objectAt q)⟩
      · intro n g hg
        rw [hgate] at hg
        exact hs.inputs n g hg
      · intro l n g hg
        rw [hgate] at hg
        obtain ⟨hop, h1, h2⟩ := hs.wiring l n g hg
        exact ⟨hop, hgrows.hasGate h1, hgrows.hasGate h2⟩
      · intro pos g p hg hp
        rw [hgate] at hg
        exact hs.owners pos g p hg hp
      · rwa [constText, names.constants]

/-- A run keeps a state well formed and loses no gate and no constant. -/
theorem Run.wellFormed (h : Run P s s') (hs : WellFormed s) :
    WellFormed s' ∧ Grows s s' ∧
      ∀ i text, constText s i = some text → constText s' i = some text := by
  induction h with
  | refl => exact ⟨hs, Grows.refl s, fun _ _ h => h⟩
  | tail _ hstep ih =>
      obtain ⟨hwf, hgrows, htexts, -⟩ := hstep.effect ih.1
      exact ⟨hwf, ih.2.1.trans hgrows, fun i text h => htexts i text (ih.2.2 i text h)⟩

end Steps

end Pepper.Cmtgkr.Pws
