import Mathlib.Data.Int.Cast.Basic
import Pepper.Cmtgkr.PwsSteps

/-!
# Promotion

The nested calls by which `promotePrimitive` carries a primitive up, with the help of the constant
zero: they end, they are a run, and the gate they return is the primitive's gate in the layer
(`promotePrimitive_run`, `promotePrimitive_inv`). The lowest gate of an object is the one that was
bound last; it only moves when the primitive is given its first gate or is bound to another one
(`Run.keeps_lowest`). Primitives that a run does not bind keep their gates or get new, different ones
in the input layer (`Run.lowest_origin`, `Run.lowest_distinct`).
-/

set_option autoImplicit false

open Pepper.Common.Gmp Pepper.Cmtgkr.Env Pepper.Cmtgkr.Layer

namespace Pepper.Cmtgkr.Pws

/-! ## Constants of a text -/

section Constants

variable {s s' : PWSCircuitParser} {text : Text} {p q : Primitive}

theorem IsConst.mono (h : IsConst s text p)
    (htexts : ∀ i t, constText s i = some t → constText s' i = some t) : IsConst s' text p where
  isConstant := h.isConstant
  there := htexts _ _ h.there
  first j hj := by
    obtain ⟨t, ht, hne⟩ := h.first j hj
    exact ⟨t, htexts j t ht, hne⟩

theorem IsConst.object (h : IsConst s text p) : ∃ cp, objectAt s p = some cp := by
  obtain ⟨c, hc, -⟩ := Option.map_eq_some_iff.mp h.there
  exact ⟨c.toCPrimitive, by rw [objectAt, if_pos h.isConstant, hc]; rfl⟩

/-- A constant that was there as an object had its text. -/
theorem IsConst.of_object {text : Text} {p : Primitive} {cp : CPrimitive} (h : IsConst s' text p)
    (htexts : ∀ i t, constText s i = some t → constText s' i = some t)
    (hobject : objectAt s p = some cp) : IsConst s text p := by
  rw [objectAt, if_pos h.isConstant] at hobject
  obtain ⟨c, hc, -⟩ := Option.map_eq_some_iff.mp hobject
  have hlt := (List.getElem?_eq_some_iff.mp hc).1
  have hback : ∀ j t, j < s.constants.length → constText s' j = some t → constText s j = some t := by
    intro j t hj ht
    have hj' : constText s j = some (s.constants[j]).value := by
      rw [constText, List.getElem?_eq_getElem hj]
      rfl
    rw [hj', ← htexts j _ hj', ht]
  refine ⟨h.isConstant, hback _ _ hlt h.there, fun j hj => ?_⟩
  obtain ⟨t, ht, hne⟩ := h.first j hj
  exact ⟨t, hback j t (hj.trans hlt) ht, hne⟩

theorem IsConst.eq_mk (h : IsConst s text p) : p = ⟨.constant, p.idx⟩ := by
  obtain ⟨t, i⟩ := p
  have ht : t = .constant := beq_iff_eq.mp h.isConstant
  rw [ht]

theorem IsConst.unique (h : IsConst s text p) (h' : IsConst s text q) : p = q := by
  have hidx : p.idx = q.idx := by
    rcases Nat.lt_trichotomy p.idx q.idx with hlt | heq | hlt
    · obtain ⟨t, ht, hne⟩ := h'.first _ hlt
      exact absurd (Option.some.inj (ht.symm.trans h.there)) hne
    · exact heq
    · obtain ⟨t, ht, hne⟩ := h.first _ hlt
      exact absurd (Option.some.inj (ht.symm.trans h'.there)) hne
  rw [h.eq_mk, h'.eq_mk, hidx]

theorem isConst_iff (i : ℕ) :
    IsConst s text ⟨.constant, i⟩ ↔ s.constants.findIdx? (fun c => c.value == text) = some i := by
  constructor
  · rintro ⟨-, htext, hfirst⟩
    obtain ⟨c, hc, rfl⟩ := Option.map_eq_some_iff.mp htext
    obtain ⟨hi, hget⟩ := List.getElem?_eq_some_iff.mp hc
    refine List.findIdx?_eq_some_iff_getElem.mpr ⟨hi, by simp [hget], fun j hj => ?_⟩
    obtain ⟨t, ht, hne⟩ := hfirst j hj
    obtain ⟨c', hc', rfl⟩ := Option.map_eq_some_iff.mp ht
    obtain ⟨hlt, hget'⟩ := List.getElem?_eq_some_iff.mp hc'
    subst hget'
    simpa using hne
  · intro h
    obtain ⟨hi, hvalue, hfirst⟩ := List.findIdx?_eq_some_iff_getElem.mp h
    refine ⟨rfl, ?_, fun j hj => ?_⟩
    · simpa [constText, List.getElem?_eq_getElem hi] using hvalue
    · have hget := List.getElem?_eq_getElem (hj.trans hi)
      exact ⟨_, by rw [constText, hget]; rfl, by simpa using hfirst j hj⟩

theorem addConstant_isConst (h : addConstant text s = some (p, s')) : IsConst s' text p := by
  rw [addConstant] at h
  cases hfind : s.constants.findIdx? (fun c => c.value == text) with
  | some i =>
      rw [hfind] at h
      obtain ⟨rfl, rfl⟩ := Prod.mk.inj (Option.some.inj h)
      exact (isConst_iff i).mpr hfind
  | none =>
      rw [hfind] at h
      obtain ⟨rfl, rfl⟩ := Prod.mk.inj (Option.some.inj h)
      refine (isConst_iff _).mpr ?_
      rw [List.findIdx?_append, hfind]
      simp

theorem addConstant_run (text : Text) (s : PWSCircuitParser) :
    ∃ p s', addConstant text s = some (p, s') := by
  rw [addConstant]
  split <;> exact ⟨_, _, rfl⟩

end Constants

/-! ## Carrying a primitive up -/

/-- `getGate` of a primitive and a layer, as `promotePrimitiveAt` calls it. -/
def getGateAt (depth : ℕ) (q : Primitive) (l : ℕ) : ParserM GatePosition := do
  addToCircuit q
  let cq ← getCircuitPrimitive q
  promotePrimitiveAt depth q (if l = 0 then cq.minLayer else l)

/-- What `promotePrimitiveAt` does after its loop. -/
def gateOfLayer (p : Primitive) (layer : ℕ) : ParserM GatePosition := do
  let cp ← getCircuitPrimitive p
  if layer < cp.minLayer then failure
  match cp.gateIndex[layer - cp.minLayer]? with
  | some name => pure ⟨layer, name⟩
  | none => failure

theorem promotePrimitiveAt_succ (depth : ℕ) (p : Primitive) (layer : ℕ) :
    promotePrimitiveAt (depth + 1) p layer =
      (promoteLoop (promoteStep (getGateAt depth) p) p layer (layer + 1) >>= fun _ =>
        gateOfLayer p layer) := rfl

section Promotion

variable {P : Policy} {s s' : PWSCircuitParser} {p : Primitive} {cp : CPrimitive}

/-- A bound object has a gate in each of its layers. -/
theorem CPrimitive.Placed.gate (h : cp.Placed s) (hbound : cp.isBound = true) {l : ℕ}
    (hmin : cp.minLayer ≤ l) (hmax : l ≤ cp.maxLayer) :
    ∃ name, cp.gateIndex[l - cp.minLayer]? = some name ∧ HasGate s ⟨l, name⟩ := by
  have hlt : l - cp.minLayer < cp.gateIndex.length := by
    have := h.top hbound
    omega
  have hget := List.getElem?_eq_getElem hlt
  refine ⟨_, hget, ?_⟩
  have hgate := h.gates _ _ hget
  rwa [Nat.add_sub_cancel' hmin] at hgate

theorem CPrimitive.Placed.le (h : cp.Placed s) (hbound : cp.isBound = true) :
    cp.minLayer ≤ cp.maxLayer := by
  have htop := h.top hbound
  have hpos : 0 < cp.gateIndex.length := by
    rw [CPrimitive.isBound] at hbound
    cases hg : cp.gateIndex with
    | nil => simp [hg] at hbound
    | cons a l => simp
  omega

theorem gateOfLayer_run (hobject : objectAt s p = some cp) {l name : ℕ} (hmin : cp.minLayer ≤ l)
    (hname : cp.gateIndex[l - cp.minLayer]? = some name) :
    gateOfLayer p l s = some (⟨l, name⟩, s) := by
  rw [gateOfLayer, bind_run (getCircuitPrimitive_run hobject)]
  simp only [Nat.not_lt.mpr hmin, ↓reduceIte, hname]
  rfl

/-- A primitive that has a gate in the layer is left as it is. -/
theorem promotePrimitiveAt_there (depth : ℕ) (hobject : objectAt s p = some cp) {l name : ℕ}
    (hmin : cp.minLayer ≤ l) (hmax : l ≤ cp.maxLayer)
    (hname : cp.gateIndex[l - cp.minLayer]? = some name) :
    promotePrimitiveAt (depth + 1) p l s = some (⟨l, name⟩, s) := by
  have hloop : promoteLoop (promoteStep (getGateAt depth) p) p l (l + 1) s = some ((), s) := by
    rw [promoteLoop, bind_run (getCircuitPrimitive_run hobject)]
    simp only [Nat.not_lt.mpr hmax, ↓reduceIte]
    rfl
  rw [promotePrimitiveAt_succ, bind_run hloop]
  exact gateOfLayer_run hobject hmin hname

theorem addToCircuit_bound (hobject : objectAt s p = some cp) (hbound : cp.isBound = true) :
    addToCircuit p s = some ((), s) := by
  rw [addToCircuit, bind_run (getCircuitPrimitive_run hobject)]
  simp only [hbound, Bool.not_true, Bool.false_eq_true, ↓reduceIte]
  rfl

theorem getGateAt_there (depth : ℕ) (hobject : objectAt s p = some cp) (hbound : cp.isBound = true)
    {l name : ℕ} (hmin : cp.minLayer ≤ l) (hmax : l ≤ cp.maxLayer)
    (hname : cp.gateIndex[l - cp.minLayer]? = some name) :
    getGateAt (depth + 1) p l s = some (⟨l, name⟩, s) := by
  have hl : (if l = 0 then cp.minLayer else l) = l := by
    split
    · omega
    · rfl
  rw [getGateAt, bind_run (addToCircuit_bound hobject hbound),
    bind_run (getCircuitPrimitive_run hobject), hl]
  exact promotePrimitiveAt_there depth hobject hmin hmax hname

/-- The loop ends above the layer if each of its passes carries the primitive up by one layer. -/
theorem promoteLoop_run {f : ParserM Unit} {Q : PWSCircuitParser → Prop} {l : ℕ}
    (hstep : ∀ s cp, Q s → objectAt s p = some cp → cp.isBound = true →
      ∃ s' name, f s = some ((), s') ∧ Q s' ∧ objectAt s' p = some (cp.push name)) :
    ∀ fuel s cp, Q s → objectAt s p = some cp → cp.isBound = true → l - cp.maxLayer < fuel →
      ∃ s' cp', promoteLoop f p l fuel s = some ((), s') ∧ Q s' ∧ objectAt s' p = some cp' ∧
        cp'.isBound = true ∧ cp'.minLayer = cp.minLayer ∧ l ≤ cp'.maxLayer ∧
        (∃ names, cp'.gateIndex = cp.gateIndex ++ names) := by
  intro fuel
  induction fuel with
  | zero => exact fun _ _ _ _ _ hlt => absurd hlt (Nat.not_lt_zero _)
  | succ fuel ih =>
      intro s cp hQ hobject hbound hlt
      rw [promoteLoop, bind_run (getCircuitPrimitive_run hobject)]
      by_cases hl : l > cp.maxLayer
      · simp only [hl, ↓reduceIte]
        obtain ⟨s₁, name, hrun, hQ₁, hobject₁⟩ := hstep s cp hQ hobject hbound
        obtain ⟨s', cp', hloop, hQ', hobject', hbound', hmin, hmax, names, hnames⟩ :=
          ih s₁ (cp.push name) hQ₁ hobject₁ (by simp [CPrimitive.isBound, CPrimitive.push])
            (by change l - (cp.maxLayer + 1) < fuel; omega)
        refine ⟨s', cp', ?_, hQ', hobject', hbound', hmin, hmax, name :: names, ?_⟩
        · rw [bind_run hrun]
          exact hloop
        · rw [hnames, CPrimitive.push, List.append_assoc, List.singleton_append]
      · simp only [hl, ↓reduceIte]
        exact ⟨s, cp, rfl, hQ, hobject, hbound, rfl, Nat.le_of_not_lt hl, [],
          (List.append_nil _).symm⟩

end Promotion

section Promotion

variable {P : Policy} {s s' : PWSCircuitParser} {p : Primitive} {cp : CPrimitive}

/-- Entering the constant zero. -/
theorem zeroConstant_run (P : Policy) (hs : WellFormed s) :
    ∃ z s', zeroConstant s = some (z, s') ∧ Run P s s' ∧ IsZero s' z ∧
      ∀ q, q ≠ z → objectAt s' q = objectAt s q := by
  obtain ⟨z, s', hrun⟩ := addConstant_run (Text.ofInt 0) s
  obtain ⟨-, -, -, -, hobjects⟩ := addConstant_inv hs hrun
  refine ⟨z, s', hrun, .single (.addConstant _ z hrun), addConstant_isConst hrun, fun q hq => ?_⟩
  rw [hobjects, if_neg fun h => hq h.1]

/-- An object that is there is still there when the constant zero has been entered. -/
theorem zeroConstant_object (hs : WellFormed s) {z : Primitive} (h : zeroConstant s = some (z, s'))
    (hobject : objectAt s p = some cp) : objectAt s' p = some cp := by
  obtain ⟨-, -, -, -, hobjects⟩ := addConstant_inv hs h
  rw [hobjects, if_neg, hobject]
  rintro ⟨rfl, hnone⟩
  rw [hobject] at hnone
  exact Option.some_ne_none _ hnone

/-- One pass of the loop, when `getGate` gives the highest gate of the primitive and carries the
constant zero there. -/
theorem promoteStep_run {G : Primitive → ℕ → ParserM GatePosition} (hs : WellFormed s)
    (hobject : objectAt s p = some cp) (hbound : cp.isBound = true)
    (hown : ∀ s₁ top, objectAt s₁ p = some cp →
      cp.gateIndex[cp.maxLayer - cp.minLayer]? = some top →
      G p cp.maxLayer s₁ = some (⟨cp.maxLayer, top⟩, s₁))
    (hzero : ∀ s₁ z, WellFormed s₁ → objectAt s₁ p = some cp → IsZero s₁ z →
      (∀ i t, constText s i = some t → constText s₁ i = some t) →
      ∃ name s₂ cz, G z cp.maxLayer s₁ = some (⟨cp.maxLayer, name⟩, s₂) ∧ Run P s₁ s₂ ∧
        objectAt s₂ p = some cp ∧ objectAt s₂ z = some cz ∧
        cz.gateIndex[cp.maxLayer]? = some name ∧ ∀ q, q ≠ z → objectAt s₂ q = objectAt s₁ q) :
    ∃ s' name z, promoteStep G p s = some ((), s') ∧ Run P s s' ∧ IsZero s' z ∧
      objectAt s' p = some (cp.push name) ∧
      ∀ q, q ≠ p → q ≠ z → objectAt s' q = objectAt s q := by
  -- the zero constant may be a fresh one: objects other than `p` and it keep their entries
  obtain ⟨z, s₁, hz, hrun₁, hisZero, hframe₁⟩ := zeroConstant_run P hs
  have hobject₁ := zeroConstant_object hs hz hobject
  obtain ⟨hwf₁, -, htexts₁⟩ := hrun₁.wellFormed hs
  have hplaced := hwf₁.placed p cp hobject₁
  obtain ⟨top, htop, -⟩ := hplaced.gate hbound (hplaced.le hbound) (Nat.le_refl _)
  obtain ⟨name, s₂, cz, hG, hrun₂, hobject₂, hcz, hname, hframe₂⟩ :=
    hzero s₁ z hwf₁ hobject₁ hisZero htexts₁
  obtain ⟨hwf₂, -, htexts₂⟩ := hrun₂.wellFormed hwf₁
  have hisZero₂ := hisZero.mono htexts₂
  have hplaced₂ := hwf₂.placed p cp hobject₂
  -- the gate of the highest layer is the one the promotion adds the zero to
  have h1 : HasGate s₂ ⟨cp.maxLayer, top⟩ := by
    have hgate := hplaced₂.gates _ _ htop
    rwa [Nat.add_sub_cancel' (hplaced₂.le hbound)] at hgate
  have h2 := (zero_hasGate hwf₂ hisZero.isConstant hcz hname).2
  obtain ⟨s', hpromote⟩ := promoteTo_run hwf₂ hobject₂ h1 h2
  -- the step of the policy, with everything its guard asks for
  have hstep : Step P s₂ s' :=
    .promote p z cp cz top name hobject₂ hcz hisZero₂ hbound htop hname hpromote
  obtain ⟨g, -, -, -, -, hobjects, -, -⟩ := promoteTo_inv hwf₂ hobject₂ hbound rfl h1 h2 hpromote
  refine ⟨s', g.name, z, ?_, (hrun₁.trans hrun₂).tail hstep,
    hisZero₂.mono (hstep.effect hwf₂).2.2.1, by rw [hobjects, if_pos rfl], fun q hq hqz => ?_⟩
  · rw [promoteStep, bind_run hz, bind_run (getCircuitPrimitive_run hobject₁),
      bind_run (hown s₁ top hobject₁ htop), bind_run hG]
    exact hpromote
  · rw [hobjects, if_neg hq, hframe₂ q hqz, hframe₁ q hqz]

/-- The constant zero has a lowest gate in the input layer once it has any. -/
theorem IsZero.minLayer {z : Primitive} (hs : WellFormed s) (hz : IsZero s z)
    (hobject : objectAt s z = some cp) (hbound : cp.isBound = true) : cp.minLayer = 0 := by
  rw [objectAt, if_pos hz.isConstant] at hobject
  obtain ⟨c, hc, rfl⟩ := Option.map_eq_some_iff.mp hobject
  exact hs.constLayers z.idx c hc hbound

/-- A primitive that is there is given its first gate, if it has none. -/
theorem touch_run (P : Policy) (hs : WellFormed s) (hobject : objectAt s p = some cp) :
    ∃ s' cp', addToCircuit p s = some ((), s') ∧ Run P s s' ∧ objectAt s' p = some cp' ∧
      cp'.isBound = true ∧ (cp.isBound = true → s' = s) ∧
      ∀ q, q ≠ p → objectAt s' q = objectAt s q := by
  obtain ⟨s', hrun⟩ := addToCircuit_run hs hobject
  have hstep : Step P s s' := .addToCircuit p hrun
  obtain ⟨cp', hcp', h⟩ := addToCircuit_inv hs hrun
  obtain rfl := Option.some.inj (hcp'.symm.trans hobject)
  rcases h with ⟨hb, rfl⟩ | ⟨hb, g, -, -, -, -, hobjects, -, -⟩
  · exact ⟨s', cp', hrun, .single hstep, hobject, hb, fun _ => rfl, fun _ _ => rfl⟩
  · refine ⟨s', cp'.bind g, hrun, .single hstep, by rw [hobjects, if_pos rfl], rfl, fun hb' => ?_,
      fun q hq => by rw [hobjects, if_neg hq]⟩
    rw [hb] at hb'
    exact Bool.noConfusion hb'

/-- Carrying the constant zero to a layer. It is its own help. -/
theorem zero_getGateAt (depth : ℕ) (hs : WellFormed s) {z : Primitive} (hz : IsZero s z) (l : ℕ) :
    ∃ name s' cz, getGateAt (depth + 2) z l s = some (⟨l, name⟩, s') ∧ Run P s s' ∧
      objectAt s' z = some cz ∧ cz.gateIndex[l]? = some name ∧
      ∀ q, q ≠ z → objectAt s' q = objectAt s q := by
  obtain ⟨c₀, hc₀⟩ := hz.object
  obtain ⟨s₁, c₁, htouch, hrun₁, hobject₁, hbound₁, -, hframe₁⟩ := touch_run P hs hc₀
  obtain ⟨hwf₁, -, htexts₁⟩ := hrun₁.wellFormed hs
  have hmin₁ : c₁.minLayer = 0 := IsZero.minLayer hwf₁ (hz.mono htexts₁) hobject₁ hbound₁
  -- every pass leaves the other objects alone
  obtain ⟨s', c', hloop, ⟨hwf', hrun', hframe', hz'⟩, hobject', hbound', hmin', hmax', -⟩ :=
    promoteLoop_run (f := promoteStep (getGateAt (depth + 1)) z) (p := z) (l := l)
      (Q := fun t => WellFormed t ∧ Run P s t ∧ (∀ q, q ≠ z → objectAt t q = objectAt s q) ∧
        IsZero t z)
      (fun t ct ⟨hwf, hrun, hframe, hzt⟩ hobject hbound => by
        obtain ⟨t', name, z', hstep, hrun', hz', hpush, hframe'⟩ :=
          promoteStep_run (P := P) (G := getGateAt (depth + 1)) hwf hobject hbound
            (fun t₁ top h₁ htop => getGateAt_there depth h₁ hbound
              ((hwf.placed z ct hobject).le hbound) (Nat.le_refl _) htop)
            (fun t₁ z₁ hwf₁ h₁ hz₁ htexts => by
              obtain rfl := hz₁.unique (hzt.mono htexts)
              have hplaced := hwf₁.placed z₁ ct h₁
              obtain ⟨top, htop, -⟩ := hplaced.gate hbound (hplaced.le hbound) (Nat.le_refl _)
              have hmin := IsZero.minLayer hwf₁ hz₁ h₁ hbound
              refine ⟨top, t₁, ct, getGateAt_there depth h₁ hbound (hplaced.le hbound)
                (Nat.le_refl _) htop, .refl, h₁, h₁, ?_, fun _ _ => rfl⟩
              rwa [hmin] at htop)
        have hzt' : IsZero t' z := hzt.mono (hrun'.wellFormed hwf).2.2
        obtain rfl := hz'.unique hzt'
        exact ⟨t', name, hstep, ⟨(hrun'.wellFormed hwf).1, hrun.trans hrun', fun q hq => by
          rw [hframe' q hq hq, hframe q hq], hzt'⟩, hpush⟩)
      (l + 1) s₁ c₁ ⟨hwf₁, hrun₁, hframe₁, hz.mono htexts₁⟩ hobject₁ hbound₁ (by omega)
  have hmin : c'.minLayer = 0 := hmin'.trans hmin₁
  obtain ⟨name, hname, -⟩ := (hwf'.placed z c' hobject').gate hbound' (hmin ▸ Nat.zero_le l) hmax'
  refine ⟨name, s', c', ?_, hrun', hobject', by rwa [hmin] at hname, hframe'⟩
  have hl : (if l = 0 then c₁.minLayer else l) = l := by
    split
    · omega
    · rfl
  rw [getGateAt, bind_run htouch, bind_run (getCircuitPrimitive_run hobject₁), hl,
    promotePrimitiveAt_succ, bind_run hloop]
  exact gateOfLayer_run hobject' (hmin ▸ Nat.zero_le l) hname

end Promotion

/-! ## Lowest gates -/

/-- The lowest gate of an object. -/
def CPrimitive.lowest (cp : CPrimitive) : Option GatePosition :=
  cp.gateIndex.head?.map fun name => ⟨cp.minLayer, name⟩

/-- The gate that a primitive is bound to. -/
def lowest (s : PWSCircuitParser) (p : Primitive) : Option GatePosition :=
  (objectAt s p).bind CPrimitive.lowest

section Lowest

variable {P : Policy} {s s' : PWSCircuitParser} {p : Primitive} {cp : CPrimitive}

@[simp] theorem CPrimitive.lowest_new : CPrimitive.new.lowest = none := rfl

@[simp] theorem CPrimitive.lowest_bind (cp : CPrimitive) (g : GatePosition) :
    (cp.bind g).lowest = some g := rfl

theorem CPrimitive.lowest_push (cp : CPrimitive) (hbound : cp.isBound = true) (name : ℕ) :
    (cp.push name).lowest = cp.lowest := by
  rw [CPrimitive.isBound] at hbound
  rw [CPrimitive.lowest, CPrimitive.lowest, CPrimitive.push]
  cases hg : cp.gateIndex with
  | nil => simp [hg] at hbound
  | cons a l => rfl

theorem CPrimitive.isBound_iff (cp : CPrimitive) : cp.isBound = true ↔ ∃ g, cp.lowest = some g := by
  rw [CPrimitive.isBound, CPrimitive.lowest]
  cases cp.gateIndex <;> simp

theorem lowest_eq_some {g : GatePosition} :
    lowest s p = some g ↔ ∃ cp, objectAt s p = some cp ∧ cp.lowest = some g :=
  Option.bind_eq_some_iff

/-- The lowest gate is there. -/
theorem WellFormed.hasGate_lowest (hs : WellFormed s) {g : GatePosition}
    (h : lowest s p = some g) : HasGate s g := by
  obtain ⟨cp, hobject, hlow⟩ := lowest_eq_some.mp h
  obtain ⟨name, hhead, rfl⟩ := Option.map_eq_some_iff.mp hlow
  rw [List.head?_eq_getElem?] at hhead
  exact (hs.placed p cp hobject).gates 0 name hhead

/-- What an elementary call does to the gate of a primitive. -/
inductive LowestEffect (P : Policy) (s s' : PWSCircuitParser) (p : Primitive) : Prop where
  | kept (same : lowest s' p = lowest s p)
  | touched (g : GatePosition) (unbound : lowest s p = none)
      (fresh : gateAt s g = none) (layer : g.layer = 0) (after : lowest s' p = some g)
      (others : ∀ q, q ≠ p → lowest s' q = lowest s q)
  | rebound (g : GatePosition) (allowed : P.allows s (.bind p g)) (there : HasGate s g)
      (after : lowest s' p = some g)

theorem Effect.lowestEffect (h : Effect P s s') (p : Primitive) : LowestEffect P s s' p := by
  cases h with
  | names gates objects =>
      refine .kept ?_
      -- a declared object gets no gate: its lowest gate is the same or still none
      rcases objects p with h | ⟨hnone, hnew⟩
      · rw [lowest, lowest, h]
      · rw [lowest, lowest, hnone, hnew]
        rfl
  | touch q cp g object unbound fresh layer gates objects =>
      by_cases hp : p = q
      · subst hp
        -- the object had no gate, so the new one is its lowest
        refine .touched g ?_ fresh layer ?_ fun r hr => by
          rw [lowest, lowest, objects, if_neg hr]
        · rw [lowest, object]
          rw [CPrimitive.isBound] at unbound
          cases hg : cp.gateIndex with
          | nil => rw [Option.bind_some, CPrimitive.lowest, hg]; rfl
          | cons a l => simp [hg] at unbound
        · rw [lowest, objects, if_pos rfl]
          rfl
      · exact .kept (by rw [lowest, lowest, objects, if_neg hp])
  | gate op in1 in2 layer g fresh above gates objects =>
      exact .kept (by rw [lowest, lowest, objects])
  | promote q zero cp cz in1 in2 g object zeroObject isZero bound top zeroGate fresh above gates
      objects =>
      refine .kept ?_
      by_cases hp : p = q
      · subst hp
        -- a promotion appends above, the lowest gate stays
        rw [lowest, lowest, objects, if_pos rfl, object]
        exact cp.lowest_push bound _
      · rw [lowest, lowest, objects, if_neg hp]
  | rebind q cp g allowed object there gates objects =>
      by_cases hp : p = q
      · subst hp
        exact .rebound g allowed there (by rw [lowest, objects, if_pos rfl]; rfl)
      · exact .kept (by rw [lowest, lowest, objects, if_neg hp])

/-- A primitive that no call binds to another gate keeps its gate. -/
theorem Run.keeps_lowest (h : Run P s s') (hs : WellFormed s) (hp : ∀ t gate, ¬ P.allows t (.bind p gate))
    {g : GatePosition} (hg : lowest s p = some g) : lowest s' p = some g := by
  induction h with
  | refl => exact hg
  | tail hrun hstep ih =>
      obtain ⟨-, -, -, heffect⟩ := hstep.effect (Run.wellFormed hrun hs).1
      cases heffect.lowestEffect p with
      | kept same => rw [same, ih]
      | touched g' unbound => rw [ih] at unbound; exact Option.noConfusion rfl (heq_of_eq unbound)
      | rebound g' allowed => exact absurd allowed (hp _ _)

/-- The gate of a constant never changes. -/
theorem Run.lowest_constant (h : Run P s s') (hs : WellFormed s) (hp : p.isConstant = true)
    {g : GatePosition} (hg : lowest s p = some g) : lowest s' p = some g :=
  h.keeps_lowest hs (fun t gate hallowed => by
    have hvar := P.bind_variable t p gate hallowed
    rw [isConstant_eq_not, hvar] at hp
    exact Bool.noConfusion hp) hg

/-- A primitive that is not bound has the gate it had, or a new input gate. -/
theorem Run.lowest_origin (h : Run P s s') (hs : WellFormed s) {p : Primitive}
    (hp : ∀ t gate, ¬ P.allows t (.bind p gate)) {g : GatePosition} (hg : lowest s' p = some g) :
    lowest s p = some g ∨ lowest s p = none ∧ g.layer = 0 ∧ gateAt s g = none := by
  induction h with
  | refl => exact Or.inl hg
  | tail hrun hstep ih =>
      obtain ⟨hwf, hgrows, -⟩ := Run.wellFormed hrun hs
      cases (hstep.effect hwf).2.2.2.lowestEffect p with
      | kept same => exact ih (same ▸ hg)
      | touched g' unbound fresh layer after =>
          obtain rfl := Option.some.inj (after.symm.trans hg)
          refine Or.inr ⟨?_, layer, ?_⟩
          · by_contra hne
            obtain ⟨k, hk⟩ := Option.ne_none_iff_exists'.mp hne
            rw [Run.keeps_lowest hrun hs hp hk] at unbound
            exact Option.noConfusion rfl (heq_of_eq unbound)
          · by_contra hne
            obtain ⟨d, hd⟩ := Option.ne_none_iff_exists'.mp hne
            obtain ⟨b, hb⟩ := hgrows _ d hd
            rw [fresh] at hb
            exact Option.noConfusion rfl (heq_of_eq hb)
      | rebound g' allowed => exact absurd allowed (hp _ _)

/-- Two primitives that are not bound do not get the same new gate. -/
theorem Run.lowest_distinct (h : Run P s s') (hs : WellFormed s) {p q : Primitive} (hpq : p ≠ q)
    (hp : ∀ t gate, ¬ P.allows t (.bind p gate)) (hq : ∀ t gate, ¬ P.allows t (.bind q gate))
    (hnew : lowest s q = none) {g k : GatePosition} (hg : lowest s' p = some g)
    (hk : lowest s' q = some k) : g ≠ k := by
  induction h generalizing g k with
  | refl =>
      rw [hnew] at hk
      exact Option.noConfusion rfl (heq_of_eq hk)
  | tail hrun hstep ih =>
      obtain ⟨hwf, -, -⟩ := Run.wellFormed hrun hs
      have heffect := (hstep.effect hwf).2.2.2
      -- a gate that is new in this step is not one that the other primitive had before it
      have hfresh : ∀ {r j}, lowest _ r = some j → gateAt _ j ≠ none := fun hr =>
        Option.isSome_iff_ne_none.mp (hwf.hasGate_lowest hr)
      cases heffect.lowestEffect p with
      | rebound g' allowed => exact absurd allowed (hp _ _)
      | touched g' unbound fresh layer after others =>
          obtain rfl := Option.some.inj (after.symm.trans hg)
          rw [others q hpq.symm] at hk
          rintro rfl
          exact hfresh hk fresh
      | kept same =>
          rw [same] at hg
          cases heffect.lowestEffect q with
          | rebound k' allowed => exact absurd allowed (hq _ _)
          | kept same' => exact ih hg (same' ▸ hk)
          | touched k' unbound fresh layer after others =>
              obtain rfl := Option.some.inj (after.symm.trans hk)
              rintro rfl
              exact hfresh hg fresh

end Lowest

/-! ## Values -/

theorem digits_toDigits (n : ℕ) : Text.digits (Nat.toDigits 10 n) = some n := by
  have hall : (Nat.toDigits 10 n).all Char.isDigit = true :=
    List.all_eq_true.mpr fun _ hc => Nat.isDigit_of_mem_toDigits (by decide) (by decide) hc
  have hvalue : Nat.ofDigitChars 10 (Nat.toDigits 10 n) 0 = n := Nat.ofDigitChars_ten_toDigits
  cases hd : Nat.toDigits 10 n with
  | nil => exact absurd hd Nat.toDigits_ne_nil
  | cons c cs =>
      rw [hd] at hall hvalue
      rw [Text.digits, if_pos hall]
      exact congrArg some hvalue

/-- The text of a number is read as that number. -/
theorem mpzSetStr_ofInt (n : ℤ) : mpzSetStr (Text.ofInt n) = some n := by
  cases n with
  | negSucc n =>
      rw [Text.ofInt, mpzSetStr, digits_toDigits]
      rfl
  | ofNat n =>
      change mpzSetStr (Nat.toDigits 10 n) = some (n : ℤ)
      have hread : (Text.digits (Nat.toDigits 10 n)).map (fun k => (k : ℤ)) = some (n : ℤ) := by
        rw [digits_toDigits]
        rfl
      cases hd : Nat.toDigits 10 n with
      | nil => exact absurd hd Nat.toDigits_ne_nil
      | cons c cs =>
          rw [hd] at hread
          have hc : c.isDigit = true :=
            Nat.isDigit_of_mem_toDigits (b := 10) (n := n) (by decide) (by decide)
              (hd ▸ List.mem_cons_self)
          have hne : c ≠ '-' := by
            rintro rfl
            exact Bool.noConfusion hc
          rw [mpzSetStr]
          · exact hread
          · rintro ds hds
            exact hne (List.cons.inj hds).1

section Values

variable {R : Type} [CommRing R]

/-- The residue of a gate over those of its inputs. A division multiplies by the inverse that the
divisor's gate holds. -/
def OpType.eval : OpType → R → R → R
  | .add, a, b => a + b
  | .mul, a, b => a * b
  | .divInt, a, b => a * b
  | .constant, a, b => a + b

/-- The values of an evaluation: every gate has the value of its operation, and the gate of an
integer constant has its value. -/
structure Evaluates (s : PWSCircuitParser) (val : GatePosition → R) : Prop where
  gate : ∀ l n g, gateAt s ⟨l + 1, n⟩ = some g →
    val ⟨l + 1, n⟩ = g.op.eval (val ⟨l, g.in1⟩) (val ⟨l, g.in2⟩)
  const : ∀ p text num g, IsConst s text p → mpzSetStr text = some num → lowest s p = some g →
    val g = (num : R)

/-- The gates of an object carry the value of its lowest gate. -/
def Aligned (s : PWSCircuitParser) (val : GatePosition → R) : Prop :=
  ∀ p cp g, objectAt s p = some cp → cp.lowest = some g →
    ∀ i name, cp.gateIndex[i]? = some name → val ⟨cp.minLayer + i, name⟩ = val g

/-- All gates that are bound to a primitive, too, carry the value of its lowest gate, and they are
no lower. -/
structure Consistent (s : PWSCircuitParser) (val : GatePosition → R) : Prop where
  aligned : Aligned s val
  bound : ∀ pos d p g, gateAt s pos = some d → d.boundPrimitive.option = some p →
    lowest s p = some g → g.layer ≤ pos.layer ∧ val pos = val g

variable (R) in
/-- A variable is only bound to a gate that is no higher than the gates that are bound to it already
and carries the same value. -/
def faithful : Policy where
  allows s
    | .bind p gate => p.isVariable = true ∧ ∀ pos d, gateAt s pos = some d →
        d.boundPrimitive.option = some p →
        gate.layer ≤ pos.layer ∧ ∀ val : GatePosition → R, Evaluates s val → val pos = val gate
    | .magic p => p.pType = .intermediate
    | .record => True
  bind_variable _ _ _ h := h.1
  magic_intermediate _ _ h := h

variable {P : Policy} {s s' : PWSCircuitParser} {val : GatePosition → R}

theorem lowest_layer {cp : CPrimitive} {g : GatePosition} (h : cp.lowest = some g) :
    g.layer = cp.minLayer ∧ cp.gateIndex[0]? = some g.name := by
  obtain ⟨name, hhead, rfl⟩ := Option.map_eq_some_iff.mp h
  rw [List.head?_eq_getElem?] at hhead
  exact ⟨rfl, hhead⟩

omit [CommRing R] in
/-- The only gate of an object that was just bound. -/
theorem bind_gates {cp : CPrimitive} {g₀ g : GatePosition} {val : GatePosition → R} {i name : ℕ}
    (hlow : (cp.bind g₀).lowest = some g) (hname : (cp.bind g₀).gateIndex[i]? = some name) :
    val ⟨(cp.bind g₀).minLayer + i, name⟩ = val g := by
  obtain rfl : g₀ = g := Option.some.inj hlow
  cases i with
  | zero =>
      obtain rfl : g₀.name = name := Option.some.inj hname
      rfl
  | succ i => simp [CPrimitive.bind] at hname

theorem Evaluates.add (h : Evaluates s val) {l n : ℕ} {g : GateDescription}
    (hg : gateAt s ⟨l + 1, n⟩ = some g) (hop : g.op = .add) :
    val ⟨l + 1, n⟩ = val ⟨l, g.in1⟩ + val ⟨l, g.in2⟩ := by
  have hgate := h.gate l n g hg
  rwa [hop] at hgate

theorem Evaluates.zero (h : Evaluates s val) {z : Primitive} {g : GatePosition} (hz : IsZero s z)
    (hg : lowest s z = some g) : val g = 0 := by
  have hconst := h.const z _ 0 g hz (mpzSetStr_ofInt 0) hg
  rwa [Int.cast_zero] at hconst

/-- An evaluation of a later state is one of this state. -/
theorem Evaluates.of_run (h : Evaluates s' val) (hrun : Run P s s') (hs : WellFormed s) :
    Evaluates s val where
  gate l n g hg := by
    obtain ⟨-, hgrows, -⟩ := hrun.wellFormed hs
    obtain ⟨b, hb⟩ := hgrows _ g hg
    exact h.gate l n { g with boundPrimitive := b } hb
  const p text num g hp hnum hg := by
    obtain ⟨-, -, htexts⟩ := hrun.wellFormed hs
    exact h.const p text num g (hp.mono htexts) hnum (hrun.lowest_constant hs hp.isConstant hg)

/-- A gate that is bound is bound to a primitive with gates. -/
theorem WellFormed.lowest_of_bound (hs : WellFormed s) {pos : GatePosition} {d : GateDescription}
    {p : Primitive} (hd : gateAt s pos = some d) (hp : d.boundPrimitive.option = some p) :
    ∃ g, lowest s p = some g := by
  obtain ⟨cp, hobject, hbound⟩ := hs.owners pos d p hd hp
  obtain ⟨g, hg⟩ := (cp.isBound_iff).mp hbound
  exact ⟨g, lowest_eq_some.mpr ⟨cp, hobject, hg⟩⟩

/-- The value of a gate that carries a primitive up. -/
theorem Aligned.promoted (hc : Aligned s val) (hs : WellFormed s) (hval : Evaluates s val)
    {p zero : Primitive} {cp cz : CPrimitive} {in1 in2 : ℕ} {low : GatePosition}
    (hobject : objectAt s p = some cp) (hzeroObject : objectAt s zero = some cz)
    (hzero : IsZero s zero) (hbound : cp.isBound = true) (hlow : cp.lowest = some low)
    (htop : cp.gateIndex[cp.maxLayer - cp.minLayer]? = some in1)
    (hzeroGate : cz.gateIndex[cp.maxLayer]? = some in2) :
    val ⟨cp.maxLayer, in1⟩ + val ⟨cp.maxLayer, in2⟩ = val low := by
  have h1 : val ⟨cp.maxLayer, in1⟩ = val low := by
    have hgate := hc p cp low hobject hlow _ _ htop
    rwa [Nat.add_sub_cancel' ((hs.placed p cp hobject).le hbound)] at hgate
  obtain ⟨hmin, -⟩ := zero_hasGate hs hzero.isConstant hzeroObject hzeroGate
  have hzeroBound : cz.isBound = true := by
    cases hg : cz.gateIndex with
    | nil => simp [hg] at hzeroGate
    | cons a l => simp [CPrimitive.isBound, hg]
  obtain ⟨z, hz⟩ := (cz.isBound_iff).mp hzeroBound
  have h2 : val ⟨cp.maxLayer, in2⟩ = 0 := by
    have hgate := hc zero cz z hzeroObject hz _ _ hzeroGate
    rw [hmin, Nat.zero_add] at hgate
    rw [hgate]
    exact hval.zero hzero (lowest_eq_some.mpr ⟨cz, hzeroObject, hz⟩)
  rw [h1, h2, add_zero]

/-- The gate that a call adds for a primitive carries the primitive's value. -/
theorem Aligned.promoted_gate (hc : Aligned s val) (hs : WellFormed s) (hval : Evaluates s val)
    (hval' : Evaluates s' val) {p zero : Primitive} {cp cz : CPrimitive} {in1 in2 : ℕ}
    {g low : GatePosition} {b : Maybe Primitive} (hobject : objectAt s p = some cp)
    (hzeroObject : objectAt s zero = some cz) (hzero : IsZero s zero) (hbound : cp.isBound = true)
    (hlow : cp.lowest = some low) (htop : cp.gateIndex[cp.maxLayer - cp.minLayer]? = some in1)
    (hzeroGate : cz.gateIndex[cp.maxLayer]? = some in2) (habove : g.layer = cp.maxLayer + 1)
    (hgate : gateAt s' g = some ⟨.add, g, in1, in2, b⟩) : val g = val low := by
  have hpos : (⟨cp.maxLayer + 1, g.name⟩ : GatePosition) = g := by rw [← habove]
  have hadd := hval'.add (hpos.symm ▸ hgate) rfl
  rw [hpos] at hadd
  rw [hadd]
  exact hc.promoted hs hval hobject hzeroObject hzero hbound hlow htop hzeroGate

/-- An elementary call keeps the gates of an object aligned. -/
theorem Effect.aligned (h : Effect P s s') (hs : WellFormed s) (hval : Evaluates s val)
    (hval' : Evaluates s' val) (hc : Aligned s val) : Aligned s' val := by
  intro p cp g hobject hlow i name hname
  cases h with
  | names gates objects =>
      rcases objects p with h | ⟨-, hnew⟩
      · exact hc p cp g (h ▸ hobject) hlow i name hname
      · obtain rfl := Option.some.inj (hobject.symm.trans hnew)
        simp [CPrimitive.new] at hname
  | touch p₀ c g₀ object unbound fresh layer gates objects =>
      rw [objects] at hobject
      split at hobject
      · obtain rfl := Option.some.inj hobject
        exact bind_gates hlow hname
      · exact hc p cp g hobject hlow i name hname
  | gate op in1 in2 layer g₀ fresh above gates objects =>
      exact hc p cp g (objects p ▸ hobject) hlow i name hname
  | promote p₀ zero c cz in1 in2 g₀ object zeroObject isZero bound top zeroGate fresh above gates
      objects =>
      rw [objects] at hobject
      split at hobject
      · obtain rfl := Option.some.inj hobject
        rw [c.lowest_push bound] at hlow
        rcases (getElem?_snoc _ _ _ _).mp hname with hname | ⟨rfl, rfl⟩
        · exact hc p₀ c g object hlow i name hname
        · -- the new gate is the highest one
          have hpos : (⟨c.minLayer + c.gateIndex.length, g₀.name⟩ : GatePosition) = g₀ := by
            -- its layer is one above the old highest layer
            rw [← (hs.placed p₀ c object).top bound, ← above]
          refine (congrArg val hpos).trans ?_
          exact hc.promoted_gate hs hval hval' object zeroObject isZero bound hlow top zeroGate
            above ((gates g₀).trans (if_pos rfl))
      · exact hc p cp g hobject hlow i name hname
  | rebind p₀ c g₀ allowed object there gates objects =>
      rw [objects] at hobject
      split at hobject
      · obtain rfl := Option.some.inj hobject
        exact bind_gates hlow hname
      · exact hc p cp g hobject hlow i name hname

/-- The gates of an object stay aligned in every run. -/
theorem Run.aligned (h : Run P s s') (hs : WellFormed s)
    (hc : ∀ val : GatePosition → R, Evaluates s val → Aligned s val) (hval' : Evaluates s' val) :
    Aligned s' val := by
  induction h with
  | refl => exact hc val hval'
  | tail hrun hstep ih =>
      have hwf := (Run.wellFormed hrun hs).1
      have hval := hval'.of_run (.single hstep) hwf
      exact (hstep.effect hwf).2.2.2.aligned hwf hval hval' (ih hval)

variable (R) in
/-- The gates of every object are aligned in every evaluation. -/
def AllAligned (s : PWSCircuitParser) : Prop :=
  ∀ val : GatePosition → R, Evaluates s val → Aligned s val

theorem AllAligned.of_run (h : AllAligned R s) (hrun : Run P s s') (hs : WellFormed s) :
    AllAligned R s' := fun _ hval => hrun.aligned hs h hval

theorem aligned_of_new (h : Run P .new s) : AllAligned R s := fun _ hval =>
  h.aligned wellFormed_new (fun _ _ p cp g hobject => by
    simp [objectAt, PWSCircuitParser.new, getVarMap] at hobject) hval

/-- A faithful call keeps gates and primitives consistent. -/
theorem Effect.consistent (h : Effect (faithful R) s s') (hs : WellFormed s)
    (hval : Evaluates s val) (hval' : Evaluates s' val) (hc : Consistent s val) :
    Consistent s' val := by
  refine ⟨h.aligned hs hval hval' hc.aligned, fun pos d p g hd hp hg => ?_⟩
  cases h with
  | names gates objects =>
      rw [gates] at hd
      rcases objects p with h | ⟨hnone, -⟩
      · exact hc.bound pos d p g hd hp (by rwa [lowest, h] at hg)
      · -- a gate that was bound before has an owner with an entry, so the owner is not the new name
        obtain ⟨cp, hobject, -⟩ := hs.owners pos d p hd hp
        exact Option.noConfusion rfl (heq_of_eq (hnone.symm.trans hobject))
  | touch p₀ c g₀ object unbound fresh layer gates objects =>
      rw [gates] at hd
      split at hd
      · next hpos =>
          obtain rfl := Option.some.inj hd
          obtain rfl := Option.some.inj hp
          rw [lowest, objects, if_pos rfl] at hg
          obtain rfl : g₀ = g := Option.some.inj hg
          exact ⟨hpos ▸ Nat.le_refl _, by rw [hpos]⟩
      · obtain ⟨cp, hobject, hbound⟩ := hs.owners pos d p hd hp
        -- an owner is bound, the touched object was not
        have hne : p ≠ p₀ := by
          rintro rfl
          obtain rfl := Option.some.inj (hobject.symm.trans object)
          rw [unbound] at hbound
          exact Bool.noConfusion hbound
        rw [lowest, objects, if_neg hne] at hg
        exact hc.bound pos d p g hd hp hg
  | gate op in1 in2 layer g₀ fresh above gates objects =>
      rw [gates] at hd
      split at hd
      · obtain rfl := Option.some.inj hd
        exact Option.noConfusion rfl (heq_of_eq hp)
      · rw [lowest, objects] at hg
        exact hc.bound pos d p g hd hp hg
  | promote p₀ zero c cz in1 in2 g₀ object zeroObject isZero bound top zeroGate fresh above gates
      objects =>
      -- the promoted object keeps its lowest gate
      have hlow : p = p₀ → c.lowest = some g := fun hpp => by
        rw [lowest, objects, if_pos hpp] at hg
        exact (c.lowest_push bound _).symm.trans hg
      rw [gates] at hd
      split at hd
      · next hpos =>
          obtain rfl := Option.some.inj hd
          obtain rfl := Option.some.inj hp
          refine ⟨?_, (congrArg val hpos).trans ?_⟩
          · rw [hpos, above, (lowest_layer (hlow rfl)).1]
            exact ((hs.placed p₀ c object).le bound).trans (Nat.le_succ _)
          · exact hc.aligned.promoted_gate hs hval hval' object zeroObject isZero bound (hlow rfl)
              top zeroGate above ((gates g₀).trans (if_pos rfl))
      · by_cases hpp : p = p₀
        · refine hc.bound pos d p g hd hp ?_
          rw [lowest, hpp, object]
          exact hlow hpp
        · rw [lowest, objects, if_neg hpp] at hg
          exact hc.bound pos d p g hd hp hg
  | rebind p₀ c g₀ allowed object there gates objects =>
      rw [gates] at hd
      split at hd
      · next hpos =>
          obtain ⟨d₀, -, rfl⟩ := Option.map_eq_some_iff.mp hd
          obtain rfl := Option.some.inj hp
          rw [lowest, objects, if_pos rfl] at hg
          obtain rfl : g₀ = g := Option.some.inj hg
          -- the new binding: the gate is the lowest one itself
          exact ⟨hpos ▸ Nat.le_refl _, by rw [hpos]⟩
      · by_cases hpp : p = p₀
        · -- a gate that stays bound to the primitive under its earlier gate
          subst hpp
          obtain ⟨hlayer, hvalue⟩ := allowed.2 pos d hd hp
          rw [lowest, objects, if_pos rfl] at hg
          obtain rfl := Option.some.inj hg
          exact ⟨hlayer, hvalue val hval⟩
        · rw [lowest, objects, if_neg hpp] at hg
          exact hc.bound pos d p g hd hp hg

/-- Faithful runs keep gates and primitives consistent in every evaluation. -/
theorem Run.consistent (h : Run (faithful R) s s') (hs : WellFormed s)
    (hc : ∀ val : GatePosition → R, Evaluates s val → Consistent s val) (hval' : Evaluates s' val) :
    Consistent s' val := by
  induction h with
  | refl => exact hc val hval'
  | tail hrun hstep ih =>
      have hwf := (Run.wellFormed hrun hs).1
      have hval := hval'.of_run (.single hstep) hwf
      exact (hstep.effect hwf).2.2.2.consistent hwf hval hval' (ih hval)

end Values

/-! ## The two calls -/

section Calls

variable {P : Policy} {s s' : PWSCircuitParser}

/-- The gate that `promoteGate` carries up for a gate: the lowest one of the primitive that the gate
is bound to. -/
def standIn (s : PWSCircuitParser) (g : GatePosition) : GatePosition :=
  ((gateAt s g).bind fun d => d.boundPrimitive.option.bind (lowest s)).getD g

theorem standIn_bound {g g₀ : GatePosition} {d : GateDescription} {p : Primitive}
    (hd : gateAt s g = some d) (hp : d.boundPrimitive.option = some p) (hg₀ : lowest s p = some g₀) :
    standIn s g = g₀ := by
  rw [standIn, hd, Option.bind_some, hp, Option.bind_some, hg₀, Option.getD_some]

theorem standIn_unbound {g : GatePosition} {d : GateDescription} (hd : gateAt s g = some d)
    (hp : d.boundPrimitive.option = none) : standIn s g = g := by
  rw [standIn, hd, Option.bind_some, hp, Option.bind_none, Option.getD_none]

/-- The call returned a gate of the layer with the value of the gate that was to be carried. -/
structure Carried (P : Policy) (s s' : PWSCircuitParser) (g pos : GatePosition) (l : ℕ) :
    Prop where
  run : Run P s s'
  layer : pos.layer = l
  there : HasGate s' pos
  value : ∀ {R : Type} [CommRing R], AllAligned R s →
    ∀ val : GatePosition → R, Evaluates s' val → val pos = val g

/-- `promotePrimitive` returned the gate of the layer that the primitive now has, above its lowest
gate. -/
structure PrimitivePromoted (P : Policy) (s s' : PWSCircuitParser) (p : Primitive)
    (g pos : GatePosition) (l : ℕ) : Prop where
  run : Run P s s'
  layer : pos.layer = l
  there : HasGate s' pos
  lowest : lowest s' p = some g
  gate : ∃ cp i, objectAt s' p = some cp ∧ cp.gateIndex[i]? = some pos.name ∧
    pos.layer = cp.minLayer + i
  value : ∀ {R : Type} [CommRing R] {val : GatePosition → R}, Aligned s' val → val pos = val g

/-- `promotePrimitive` succeeds for any layer from the lowest gate of a primitive. -/
theorem promotePrimitive_promoted (P : Policy) (hs : WellFormed s) {p : Primitive}
    {g : GatePosition} (hg : lowest s p = some g) {l : ℕ} (hle : g.layer ≤ l) :
    ∃ pos s', promotePrimitive p l s = some (pos, s') ∧ PrimitivePromoted P s s' p g pos l := by
  obtain ⟨cp, hobject, hlow⟩ := lowest_eq_some.mp hg
  have hbound := (cp.isBound_iff).mpr ⟨g, hlow⟩
  -- the loop starts at or below the layer asked for
  have hmin : cp.minLayer ≤ l := (lowest_layer hlow).1 ▸ hle
  obtain ⟨s', c', hloop, ⟨hwf', hrun'⟩, hobject', hbound', hmin', hmax', names, hnames⟩ :=
    promoteLoop_run (f := promoteStep (getGateAt 2) p) (p := p) (l := l)
      (Q := fun t => WellFormed t ∧ Run P s t)
      (fun t ct ⟨hwf, hrun⟩ hobject hbound => by
        obtain ⟨t', name, z', hstep, hrun', -, hpush, -⟩ :=
          promoteStep_run (P := P) (G := getGateAt 2) hwf hobject hbound
            (fun t₁ top h₁ htop => getGateAt_there 1 h₁ hbound
              ((hwf.placed p ct hobject).le hbound) (Nat.le_refl _) htop)
            (fun t₁ z hwf₁ h₁ hz _ => by
              by_cases hpz : p = z
              · -- the constant zero itself: it is in its highest layer already
                subst hpz
                have hplaced := hwf₁.placed p ct h₁
                obtain ⟨top, htop, -⟩ := hplaced.gate hbound (hplaced.le hbound) (Nat.le_refl _)
                have hmin := IsZero.minLayer hwf₁ hz h₁ hbound
                refine ⟨top, t₁, ct, getGateAt_there 1 h₁ hbound (hplaced.le hbound)
                  (Nat.le_refl _) htop, .refl, h₁, h₁, ?_, fun _ _ => rfl⟩
                rwa [hmin] at htop
              · obtain ⟨name, t₂, cz, hG, hrun₂, hcz, hname, hframe⟩ :=
                  zero_getGateAt (P := P) 0 hwf₁ hz ct.maxLayer
                exact ⟨name, t₂, cz, hG, hrun₂, (hframe p hpz).trans h₁, hcz, hname, hframe⟩)
        exact ⟨t', name, hstep, ⟨(hrun'.wellFormed hwf).1, hrun.trans hrun'⟩, hpush⟩)
      (l + 1) s cp ⟨hs, .refl⟩ hobject hbound (by omega)
  have hmin'' : c'.minLayer ≤ l := hmin' ▸ hmin
  obtain ⟨name, hname, hthere⟩ := (hwf'.placed p c' hobject').gate hbound' hmin'' hmax'
  -- the pushes went to the end of the list, the head is the one from before
  have hlow' : c'.lowest = some g := by
    obtain ⟨name₀, hhead, rfl⟩ := Option.map_eq_some_iff.mp hlow
    rw [CPrimitive.lowest, hnames, List.head?_append, hhead, hmin']
    rfl
  refine ⟨⟨l, name⟩, s', ?_, hrun', rfl, hthere, lowest_eq_some.mpr ⟨c', hobject', hlow'⟩,
    ⟨c', _, hobject', hname, (Nat.add_sub_cancel' hmin'').symm⟩, fun {R} _ val haligned => ?_⟩
  · rw [promotePrimitive, promotePrimitiveAt_succ, bind_run hloop]
    exact gateOfLayer_run hobject' hmin'' hname
  · have hvalue := haligned p c' g hobject' hlow' _ _ hname
    rwa [Nat.add_sub_cancel' hmin''] at hvalue

/-- `promotePrimitive` carries a primitive that has gates to any layer from its lowest. -/
theorem promotePrimitive_run (P : Policy) (hs : WellFormed s) {p : Primitive} {g : GatePosition}
    (hg : lowest s p = some g) {l : ℕ} (hle : g.layer ≤ l) :
    ∃ pos s', promotePrimitive p l s = some (pos, s') ∧ Carried P s s' g pos l := by
  obtain ⟨pos, s', hrun, hpromoted⟩ := promotePrimitive_promoted P hs hg hle
  exact ⟨pos, s', hrun, hpromoted.run, hpromoted.layer, hpromoted.there, fun haligned val hval =>
    hpromoted.value (haligned.of_run hpromoted.run hs val hval)⟩

/-- A call that succeeds was about such a layer. -/
theorem promotePrimitive_inv (P : Policy) (hs : WellFormed s) {p : Primitive} {g : GatePosition}
    (hg : lowest s p = some g) {l : ℕ} {pos : GatePosition}
    (h : promotePrimitive p l s = some (pos, s')) : g.layer ≤ l ∧ Carried P s s' g pos l := by
  have hle : g.layer ≤ l := by
    by_contra hlt
    obtain ⟨cp, hobject, hlow⟩ := lowest_eq_some.mp hg
    rw [(lowest_layer hlow).1, not_le] at hlt
    have hmax := (hs.placed p cp hobject).le ((cp.isBound_iff).mpr ⟨g, hlow⟩)
    have hloop : promoteLoop (promoteStep (getGateAt 2) p) p l (l + 1) s = some ((), s) := by
      rw [promoteLoop, bind_run (getCircuitPrimitive_run hobject)]
      simp only [Nat.not_lt.mpr (hlt.le.trans hmax), ↓reduceIte]
      rfl
    rw [promotePrimitive, promotePrimitiveAt_succ, bind_run hloop, gateOfLayer,
      bind_run (getCircuitPrimitive_run hobject)] at h
    simp only [hlt, ↓reduceIte] at h
    obtain ⟨_, _, hfail, -⟩ := bind_inv h
    exact failure_inv hfail
  obtain ⟨pos', s₁, hrun, hcarried⟩ := promotePrimitive_run P hs hg hle
  rw [hrun] at h
  obtain ⟨rfl, rfl⟩ := Prod.mk.inj (Option.some.inj h)
  exact ⟨hle, hcarried⟩

/-- `getGate` of a primitive gives its lowest gate. -/
theorem getGate_run (P : Policy) (hs : WellFormed s) {p : Primitive} {cp : CPrimitive}
    (hobject : objectAt s p = some cp) :
    ∃ g s', getGate p 0 s = some (g, s') ∧ Run P s s' ∧ lowest s' p = some g ∧
      (lowest s p = some g → s' = s) := by
  obtain ⟨s', cp', hadd, hrun, hobject', hbound', hsame, -⟩ := touch_run P hs hobject
  obtain ⟨g, hlow⟩ := (cp'.isBound_iff).mp hbound'
  obtain ⟨hlayer, hhead⟩ := lowest_layer hlow
  refine ⟨g, s', ?_, hrun, lowest_eq_some.mpr ⟨cp', hobject', hlow⟩, fun hg =>
    hsame ((cp.isBound_iff).mpr ⟨g, by rwa [lowest, hobject] at hg⟩)⟩
  have hmax := ((hrun.wellFormed hs).1.placed p cp' hobject').le ((cp'.isBound_iff).mpr ⟨g, hlow⟩)
  have hpromote := promotePrimitiveAt_there 2 hobject' (Nat.le_refl _) hmax
    (by rwa [Nat.sub_self])
  rw [getGate, bind_run hadd, bind_run (getCircuitPrimitive_run hobject'), if_pos rfl]
  rw [← hlayer] at hpromote ⊢
  exact hpromote

theorem getGate_inv (P : Policy) (hs : WellFormed s) {p : Primitive} {pos : GatePosition}
    (h : getGate p 0 s = some (pos, s')) :
    Run P s s' ∧ lowest s' p = some pos ∧ (lowest s p = some pos → s' = s) := by
  obtain ⟨_, s₁, hadd, -⟩ := bind_inv h
  obtain ⟨cp, hobject, -⟩ := addToCircuit_inv hs hadd
  obtain ⟨g, s₂, hrun, hR, hlow, hsame⟩ := getGate_run P hs hobject
  rw [hrun] at h
  obtain ⟨rfl, rfl⟩ := Prod.mk.inj (Option.some.inj h)
  exact ⟨hR, hlow, hsame⟩

/-- `getGate` of a constant and a layer. -/
theorem getGate_constant_run (P : Policy) (hs : WellFormed s) {text : Text} {p : Primitive}
    (hp : IsConst s text p) (l : ℕ) :
    ∃ g pos s', getGate p l s = some (pos, s') ∧ Carried P s s' g pos l ∧
      lowest s' p = some g := by
  obtain ⟨cp, hobject⟩ := hp.object
  obtain ⟨s₁, cp₁, hadd, hrun₁, hobject₁, hbound₁, -⟩ := touch_run P hs hobject
  obtain ⟨g, hlow₁⟩ := (cp₁.isBound_iff).mp hbound₁
  obtain ⟨hwf₁, -, htexts₁⟩ := hrun₁.wellFormed hs
  have hg := lowest_eq_some.mpr ⟨cp₁, hobject₁, hlow₁⟩
  have hmin : cp₁.minLayer = 0 := by
    have hobject₂ := hobject₁
    rw [objectAt, if_pos hp.isConstant] at hobject₂
    obtain ⟨c, hc, rfl⟩ := Option.map_eq_some_iff.mp hobject₂
    exact hwf₁.constLayers p.idx c hc hbound₁
  obtain ⟨pos, s', hpromote, hcarried⟩ := promotePrimitive_run P hwf₁ hg
    (((lowest_layer hlow₁).1.trans hmin).le.trans (Nat.zero_le l))
  have hl : (if l = 0 then cp₁.minLayer else l) = l := by
    split
    · next h => rw [hmin, h]
    · rfl
  refine ⟨g, pos, s', ?_, ⟨hrun₁.trans hcarried.run, hcarried.layer, hcarried.there,
    fun haligned => hcarried.value (haligned.of_run hrun₁ hs)⟩,
    hcarried.run.lowest_constant hwf₁ hp.isConstant hg⟩
  rw [getGate, bind_run hadd, bind_run (getCircuitPrimitive_run hobject₁), hl]
  exact hpromote

/-- Carrying a gate that is bound to nothing. -/
theorem promoteUnbound_run (P : Policy) (n : ℕ) (hs : WellFormed s) {g : GatePosition}
    (hg : HasGate s g) :
    ∃ pos s', promoteUnbound g n s = some (pos, s') ∧ Carried P s s' g pos (g.layer + n) := by
  induction n generalizing s g with
  | zero => exact ⟨g, s, rfl, .refl, rfl, hg, fun _ _ _ => rfl⟩
  | succ n ih =>
      -- one level up: the gate plus the zero constant carried to the same layer
      obtain ⟨z, s₁, hz, hrun₁, hisZero, -⟩ := zeroConstant_run P hs
      have hwf₁ := (hrun₁.wellFormed hs).1
      obtain ⟨g₀, zeroGate, s₂, hzeroGate, hcarried, hlow⟩ :=
        getGate_constant_run P hwf₁ hisZero g.layer
      have hrun₂ : Run P s s₂ := hrun₁.trans hcarried.run
      obtain ⟨hwf₂, hgrows₂, -⟩ := hrun₂.wellFormed hs
      obtain ⟨s₃, g₁, hadd⟩ := addGate_run .add g.name zeroGate.name (g.layer + 1) s₂
      have h1 : HasGate s₂ ⟨g.layer, g.name⟩ := hgrows₂.hasGate hg
      have h2 : HasGate s₂ ⟨g.layer, zeroGate.name⟩ := hcarried.layer ▸ hcarried.there
      have hstep : Step P s₂ s₃ := .addGate .add _ _ g.layer g₁ (by decide) h1 h2 hadd
      obtain ⟨hwf₃, -, hthere⟩ := wellFormed_addGate hwf₂ hadd
        (fun k hk => by obtain rfl := Nat.succ.inj hk; exact ⟨by decide, h1, h2⟩) (by simp)
      obtain ⟨hlayer, -, -, hgates⟩ := addGate_inv hadd
      obtain ⟨pos, s', hpromote, hcarried'⟩ := ih hwf₃ hthere
      refine ⟨pos, s', ?_, (hrun₂.tail hstep).trans hcarried'.run, ?_, hcarried'.there,
        fun {R} _ haligned val hval => ?_⟩
      · rw [promoteUnbound, bind_run hz, bind_run hzeroGate, bind_run hadd]
        exact hpromote
      · rw [hcarried'.layer, hlayer]
        omega
      · have hval₃ := hval.of_run hcarried'.run hwf₃
        have hval₂ := hval₃.of_run (.single hstep) hwf₂
        -- the value of the add gate, in every reading of the gates that respects additions
        have hsum : val g₁ = val g + val zeroGate := by
          have hpos : (⟨g.layer + 1, g₁.name⟩ : GatePosition) = g₁ := by rw [← hlayer]
          have heq := hval₃.add (l := g.layer) (n := g₁.name) (by rw [hpos, hgates, if_pos rfl]) rfl
          rw [hpos] at heq
          rw [heq]
          congr 2
          rw [← hcarried.layer]
        -- the constant's gate stands for zero in that reading
        have hzeroValue : val zeroGate = 0 := by
          rw [hcarried.value (haligned.of_run hrun₁ hs) val hval₂]
          exact hval₂.zero (hisZero.mono (hcarried.run.wellFormed hwf₁).2.2) hlow
        rw [hcarried'.value (haligned.of_run (hrun₂.tail hstep) hs) val hval, hsum, hzeroValue,
          add_zero]

theorem getGateDescription_run {g : GatePosition} {d : GateDescription} (hd : gateAt s g = some d) :
    getGateDescription g s = some (d, s) := by
  rw [getGateDescription, show (s.circuitDesc[g.layer]?).bind _ = some d from hd]
  rfl

/-- A gate that is bound is carried up as the primitive it is bound to. -/
theorem promoteGate_bound {g : GatePosition} {d : GateDescription} {p : Primitive}
    (hd : gateAt s g = some d) (hp : d.boundPrimitive.option = some p) (l : ℕ) :
    promoteGate g l s = promotePrimitive p l s := by
  rw [promoteGate, bind_run (getGateDescription_run hd)]
  simp only [hp]

/-- `promoteGate` carries a gate, or the one that stands in for it, to any layer from its own. -/
theorem promoteGate_run (P : Policy) (hs : WellFormed s) {g : GatePosition} {l : ℕ}
    (hg : HasGate s g) (hle : (standIn s g).layer ≤ l) :
    ∃ pos s', promoteGate g l s = some (pos, s') ∧ Carried P s s' (standIn s g) pos l := by
  obtain ⟨d, hd⟩ := Option.isSome_iff_exists.mp hg
  cases hp : d.boundPrimitive.option with
  | none =>
      rw [standIn_unbound hd hp] at hle ⊢
      obtain ⟨pos, s', hrun, hcarried⟩ := promoteUnbound_run P (l - g.layer) hs hg
      rw [Nat.add_sub_cancel' hle] at hcarried
      refine ⟨pos, s', ?_, hcarried⟩
      rw [promoteGate, bind_run (getGateDescription_run hd)]
      simp only [hp]
      exact hrun
  | some p =>
      obtain ⟨g₀, hg₀⟩ := hs.lowest_of_bound hd hp
      rw [standIn_bound hd hp hg₀] at hle ⊢
      obtain ⟨pos, s', hrun, hcarried⟩ := promotePrimitive_run P hs hg₀ hle
      exact ⟨pos, s', (promoteGate_bound hd hp l).trans hrun, hcarried⟩

theorem promoteGate_inv (P : Policy) (hs : WellFormed s) {g pos : GatePosition} {l : ℕ}
    (hle : g.layer ≤ l) (h : promoteGate g l s = some (pos, s')) :
    Carried P s s' (standIn s g) pos l := by
  obtain ⟨_, _, hget, -⟩ := bind_inv h
  obtain ⟨d, hd, -⟩ := Option.map_eq_some_iff.mp hget
  have hd : gateAt s g = some d := hd
  have hlow : (standIn s g).layer ≤ l := by
    cases hp : d.boundPrimitive.option with
    | none => rwa [standIn_unbound hd hp]
    | some p =>
        obtain ⟨g₀, hg₀⟩ := hs.lowest_of_bound hd hp
        rw [standIn_bound hd hp hg₀]
        rw [promoteGate_bound hd hp] at h
        exact (promotePrimitive_inv P hs hg₀ h).1
  obtain ⟨pos', s₂, hrun', hcarried⟩ := promoteGate_run P hs
    (Option.isSome_iff_exists.mpr ⟨_, hd⟩) hlow
  rw [hrun'] at h
  obtain ⟨rfl, rfl⟩ := Prod.mk.inj (Option.some.inj h)
  exact hcarried

end Calls

end Pepper.Cmtgkr.Pws
