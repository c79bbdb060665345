import Pepper.Cmtgkr.PwsPromotion

/-!
# Gates that stand for themselves

`promoteGate` carries up the lowest gate of the primitive that a gate is bound to. A gate is settled
if that gate is no higher and always has its value (`Settled`). While nothing is bound, settled
gates stay settled (`Settled.of_run`), and a primitive whose gates are all bound to it goes on to
own its gates (`Run.owns`). Gates of such primitives, and gates that are bound to nothing, are firm:
they are settled, and so is what `promoteGate` makes of them (`Firm.settled`, `promoteGate_firm`).
-/

set_option autoImplicit false

open Pepper.Cmtgkr.Env Pepper.Cmtgkr.Layer

namespace Pepper.Cmtgkr.Pws

/-! ## Runs that bind nothing -/

/-- A run that is allowed less. -/
theorem Run.mono {P Q : Policy} {s s' : PWSCircuitParser} (h : Run P s s')
    (hPQ : ∀ t c, P.allows t c → Q.allows t c) : Run Q s s' := by
  refine Relation.ReflTransGen.mono (fun a b hstep => ?_) _ _ h
  cases hstep with
  | addVariable type name p run => exact .addVariable type name p run
  | addConstant text p run => exact .addConstant text p run
  | makeMagic p v allowed found run => exact .makeMagic p v (hPQ _ _ allowed) found run
  | addToCircuit p run => exact .addToCircuit p run
  | addGate op in1 in2 layer pos isGate has1 has2 run =>
      exact .addGate op in1 in2 layer pos isGate has1 has2 run
  | promote p zero cp cz in1 in2 object zeroObject isZero bound top zeroGate run =>
      exact .promote p zero cp cz in1 in2 object zeroObject isZero bound top zeroGate run
  | bindVariable p gate allowed run => exact .bindVariable p gate (hPQ _ _ allowed) run
  | record allowed names desc => exact .record (hPQ _ _ allowed) names desc

/-- The policy under which gates are built: nothing is bound or recorded. -/
def building : Policy where
  allows _ _ := False
  bind_variable _ _ _ h := h.elim
  magic_intermediate _ _ h := h.elim

theorem Run.of_building {P : Policy} {s s' : PWSCircuitParser} (h : Run building s s') :
    Run P s s' := h.mono fun _ _ hallowed => hallowed.elim

/-- Building gates moves no primitive. -/
theorem building_lowest {s s' : PWSCircuitParser} (h : Run building s s') (hs : WellFormed s)
    {p : Primitive} {g : GatePosition} (hg : lowest s p = some g) : lowest s' p = some g :=
  h.keeps_lowest hs (fun _ _ hallowed => hallowed) hg

/-- No variable is bound. -/
def Policy.Quiet (P : Policy) : Prop := ∀ t p gate, ¬ P.allows t (.bind p gate)

theorem building_quiet : building.Quiet := fun _ _ _ hallowed => hallowed

section Quiet

variable {P : Policy} {s s' : PWSCircuitParser}

/-- A gate that is there stays bound to what it is bound to. -/
theorem Effect.keeps_gate (h : Effect P s s') (hP : P.Quiet) {g : GatePosition}
    {d : GateDescription} (hd : gateAt s g = some d) : gateAt s' g = some d := by
  have hne : ∀ {k}, gateAt s k = none → g ≠ k := by
    rintro k hk rfl
    rw [hk] at hd
    exact Option.noConfusion rfl (heq_of_eq hd)
  cases h with
  | names gates objects => rw [gates, hd]
  | touch p cp k object unbound fresh layer gates objects => rw [gates, if_neg (hne fresh), hd]
  | gate op in1 in2 layer k fresh above gates objects => rw [gates, if_neg (hne fresh), hd]
  | promote p zero cp cz in1 in2 k object zeroObject isZero bound top zeroGate fresh above gates
      objects => rw [gates, if_neg (hne fresh), hd]
  | rebind p cp k allowed object there gates objects => exact absurd allowed (hP _ _ _)

theorem Run.keeps_gate (h : Run P s s') (hP : P.Quiet) (hs : WellFormed s) {g : GatePosition}
    {d : GateDescription} (hd : gateAt s g = some d) : gateAt s' g = some d := by
  induction h with
  | refl => exact hd
  | tail hrun hstep ih =>
      exact (hstep.effect (Run.wellFormed hrun hs).1).2.2.2.keeps_gate hP ih

/-- What `promoteGate` carries up for a gate stays the same. -/
theorem Run.standIn_eq (h : Run P s s') (hP : P.Quiet) (hs : WellFormed s) {g : GatePosition}
    (hg : HasGate s g) : standIn s' g = standIn s g := by
  obtain ⟨d, hd⟩ := Option.isSome_iff_exists.mp hg
  have hd' := h.keeps_gate hP hs hd
  cases hp : d.boundPrimitive.option with
  | none => rw [standIn_unbound hd hp, standIn_unbound hd' hp]
  | some p =>
      obtain ⟨g₀, hg₀⟩ := hs.lowest_of_bound hd hp
      have hg₀' := h.keeps_lowest hs (fun t gate => hP t p gate) hg₀
      rw [standIn_bound hd hp hg₀, standIn_bound hd' hp hg₀']

end Quiet

/-! ## Settled gates -/

section Settled

variable (R : Type) [CommRing R]

/-- The gate that is carried up for a gate is no higher and has its value in every evaluation. -/
def Settled (s : PWSCircuitParser) (g : GatePosition) : Prop :=
  (standIn s g).layer ≤ g.layer ∧
    ∀ val : GatePosition → R, Evaluates s val → val g = val (standIn s g)

/-- The lowest gate of a primitive, if it has any, is settled. -/
def SettledAt (s : PWSCircuitParser) (p : Primitive) : Prop :=
  ∀ g, lowest s p = some g → Settled R s g

variable {R} {P : Policy} {s s' : PWSCircuitParser}

theorem Settled.of_run {g : GatePosition} (h : Settled R s g) (hrun : Run P s s') (hP : P.Quiet)
    (hs : WellFormed s) (hg : HasGate s g) : Settled R s' g := by
  rw [Settled, hrun.standIn_eq hP hs hg]
  exact ⟨h.1, fun val hval => h.2 val (hval.of_run hrun hs)⟩

/-- A gate that is bound to nothing, or to a primitive of which it is the lowest gate. -/
theorem settled_of_standIn {g : GatePosition} (h : standIn s g = g) : Settled R s g := by
  rw [Settled, h]
  exact ⟨Nat.le_refl _, fun _ _ => rfl⟩

end Settled

/-! ## Owners -/

/-- All gates of the primitive are bound to it. -/
def Owns (s : PWSCircuitParser) (p : Primitive) : Prop :=
  ∀ cp, objectAt s p = some cp → ∀ i name, cp.gateIndex[i]? = some name →
    ∃ d, gateAt s ⟨cp.minLayer + i, name⟩ = some d ∧ d.boundPrimitive.option = some p

section Owners

variable {P : Policy} {s s' : PWSCircuitParser} {p : Primitive}

/-- A primitive without gates. -/
theorem owns_of_unbound (h : lowest s p = none) : Owns s p := by
  intro cp hobject i name hname
  have hnone : cp.gateIndex = [] := by
    rw [lowest, hobject, Option.bind_some, CPrimitive.lowest, Option.map_eq_none_iff] at h
    exact List.head?_eq_none_iff.mp h
  simp [hnone] at hname

theorem Effect.owns (h : Effect P s s') (hP : P.Quiet) (hs : WellFormed s) (hp : Owns s p) :
    Owns s' p := by
  -- the gates that were there are still bound to the primitive
  have hkept : ∀ cp, objectAt s p = some cp → ∀ i name, cp.gateIndex[i]? = some name →
      ∃ d, gateAt s' ⟨cp.minLayer + i, name⟩ = some d ∧ d.boundPrimitive.option = some p := by
    intro cp hobject i name hname
    obtain ⟨d, hd, hbound⟩ := hp cp hobject i name hname
    exact ⟨d, h.keeps_gate hP hd, hbound⟩
  intro cp hobject i name hname
  cases h with
  | names gates objects =>
      rcases objects p with h | ⟨-, hnew⟩
      · exact hkept cp (h ▸ hobject) i name hname
      · obtain rfl := Option.some.inj (hobject.symm.trans hnew)
        simp [CPrimitive.new] at hname
  | touch q c g object unbound fresh layer gates objects =>
      rw [objects] at hobject
      split at hobject
      · next hq =>
          -- the new gate is the only one
          obtain rfl := Option.some.inj hobject
          subst hq
          cases i with
          | succ i => simp [CPrimitive.bind] at hname
          | zero =>
              obtain rfl : g.name = name := Option.some.inj hname
              refine ⟨_, (gates g).trans (if_pos rfl), ?_⟩
              rfl
      · exact hkept cp hobject i name hname
  | gate op in1 in2 layer g fresh above gates objects =>
      exact hkept cp (objects p ▸ hobject) i name hname
  | promote q zero c cz in1 in2 g object zeroObject isZero bound top zeroGate fresh above gates
      objects =>
      rw [objects] at hobject
      split at hobject
      · next hq =>
          obtain rfl := Option.some.inj hobject
          subst hq
          rcases (getElem?_snoc _ _ _ _).mp hname with hname | ⟨rfl, rfl⟩
          · exact hkept c object i name hname
          · -- the gate that was pushed
            have hpos : (⟨c.minLayer + c.gateIndex.length, g.name⟩ : GatePosition) = g := by
              rw [← (hs.placed p c object).top bound, ← above]
            refine ⟨⟨.add, g, in1, in2, ⟨some p⟩⟩, ?_, rfl⟩
            exact (congrArg _ hpos).trans ((gates g).trans (if_pos rfl))
      · exact hkept cp hobject i name hname
  | rebind q c g allowed object there gates objects => exact absurd allowed (hP _ _ _)

/-- Owners stay owners while nothing is bound. -/
theorem Run.owns (h : Run P s s') (hP : P.Quiet) (hs : WellFormed s) (hp : Owns s p) :
    Owns s' p := by
  induction h with
  | refl => exact hp
  | tail hrun hstep ih =>
      have hwf := (Run.wellFormed hrun hs).1
      exact (hstep.effect hwf).2.2.2.owns hP hwf ih

/-- The lowest gate of an owner stands in for each of its gates. -/
theorem Owns.standIn_eq (h : Owns s p) {cp : CPrimitive} {g₀ g : GatePosition} {i : ℕ}
    (hobject : objectAt s p = some cp) (hlow : cp.lowest = some g₀)
    (hname : cp.gateIndex[i]? = some g.name) (hlayer : g.layer = cp.minLayer + i) :
    standIn s g = g₀ := by
  obtain ⟨d, hd, hbound⟩ := h cp hobject i g.name hname
  rw [← hlayer] at hd
  exact standIn_bound hd hbound (lowest_eq_some.mpr ⟨cp, hobject, hlow⟩)

theorem Owns.standIn_lowest (h : Owns s p) {g : GatePosition} (hg : lowest s p = some g) :
    standIn s g = g := by
  obtain ⟨cp, hobject, hlow⟩ := lowest_eq_some.mp hg
  obtain ⟨hlayer, hname⟩ := lowest_layer hlow
  exact h.standIn_eq hobject hlow hname hlayer

/-- While nothing is bound, a primitive whose lowest gate is settled, if it has any, goes on so. -/
theorem SettledAt.of_run {R : Type} [CommRing R] (h : SettledAt R s p) (hrun : Run P s s')
    (hP : P.Quiet) (hs : WellFormed s) : SettledAt R s' p := by
  intro g hg
  cases hlow : lowest s p with
  | none =>
      exact settled_of_standIn ((hrun.owns hP hs (owns_of_unbound hlow)).standIn_lowest hg)
  | some g₀ =>
      have hkept := hrun.keeps_lowest hs (fun t gate => hP t p gate) hlow
      obtain rfl := Option.some.inj (hkept.symm.trans hg)
      exact (h g₀ hlow).of_run hrun hP hs (hs.hasGate_lowest hlow)

end Owners

/-! ## Firm gates -/

section Firm

variable {R : Type} [CommRing R] {P : Policy} {s s' : PWSCircuitParser} {p : Primitive}

variable (R) in
/-- The gate is settled, and it is bound to nothing or to an owner. -/
structure Firm (s : PWSCircuitParser) (g : GatePosition) : Prop where
  settled : Settled R s g
  owner : ∀ d p, gateAt s g = some d → d.boundPrimitive.option = some p → Owns s p

theorem Firm.of_run {g : GatePosition} (h : Firm R s g) (hrun : Run P s s') (hP : P.Quiet)
    (hs : WellFormed s) (hg : HasGate s g) : Firm R s' g where
  settled := h.settled.of_run hrun hP hs hg
  owner d p hd hp := by
    obtain ⟨d', hd'⟩ := Option.isSome_iff_exists.mp hg
    obtain rfl := Option.some.inj ((hrun.keeps_gate hP hs hd').symm.trans hd)
    exact hrun.owns hP hs (h.owner d' p hd' hp)

theorem firm_of_unbound {g : GatePosition} {d : GateDescription} (hd : gateAt s g = some d)
    (hp : d.boundPrimitive.option = none) : Firm R s g where
  settled := settled_of_standIn (standIn_unbound hd hp)
  owner e p he hbound := by
    obtain rfl := Option.some.inj (hd.symm.trans he)
    rw [hp] at hbound
    exact Option.noConfusion rfl (heq_of_eq hbound)

/-- The gates of an owner are firm. -/
theorem Owns.firm_of_gate (h : Owns s p) (haligned : AllAligned R s) {cp : CPrimitive}
    {g₀ g : GatePosition} {i : ℕ} (hobject : objectAt s p = some cp) (hlow : cp.lowest = some g₀)
    (hname : cp.gateIndex[i]? = some g.name) (hlayer : g.layer = cp.minLayer + i) :
    Firm R s g where
  settled := by
    rw [Settled, h.standIn_eq hobject hlow hname hlayer, hlayer, (lowest_layer hlow).1]
    refine ⟨Nat.le_add_right _ _, fun val hval => ?_⟩
    have hvalue := haligned val hval p cp g₀ hobject hlow i g.name hname
    rwa [← hlayer] at hvalue
  owner d q hd hq := by
    obtain ⟨e, he, hbound⟩ := h cp hobject i g.name hname
    rw [← hlayer, hd] at he
    obtain rfl := Option.some.inj he
    rw [hq] at hbound
    obtain rfl := Option.some.inj hbound
    exact h

theorem Owns.firm (h : Owns s p) (haligned : AllAligned R s) {g : GatePosition}
    (hg : lowest s p = some g) : Firm R s g := by
  obtain ⟨cp, hobject, hlow⟩ := lowest_eq_some.mp hg
  obtain ⟨hlayer, hname⟩ := lowest_layer hlow
  exact h.firm_of_gate haligned hobject hlow hname hlayer

theorem promoteUnbound_firm {n : ℕ} {g pos : GatePosition} {d : GateDescription}
    (hd : gateAt s g = some d) (hp : d.boundPrimitive.option = none)
    (h : promoteUnbound g n s = some (pos, s')) : Firm R s' pos := by
  induction n generalizing s g d with
  | zero =>
      obtain ⟨rfl, rfl⟩ := pure_inv h
      exact firm_of_unbound hd hp
  | succ n ih =>
      obtain ⟨z, s₁, -, h₁⟩ := bind_inv h
      obtain ⟨zeroGate, s₂, -, h₂⟩ := bind_inv h₁
      obtain ⟨g', s₃, hadd, hrest⟩ := bind_inv h₂
      obtain ⟨-, -, -, hgates⟩ := addGate_inv hadd
      exact ih ((hgates g').trans (if_pos rfl)) rfl hrest

/-- The gate to which a firm gate is carried is firm. -/
theorem promoteGate_firm (hs : WellFormed s) (haligned : AllAligned R s) {g pos : GatePosition}
    {l : ℕ} (hfirm : Firm R s g) (hle : g.layer ≤ l) (h : promoteGate g l s = some (pos, s')) :
    Firm R s' pos := by
  have hcall := h
  obtain ⟨_, _, hget, hmatch⟩ := bind_inv h
  obtain ⟨d, hd, heq⟩ := Option.map_eq_some_iff.mp hget
  obtain ⟨rfl, rfl⟩ := Prod.mk.inj heq
  have hd : gateAt s g = some d := hd
  cases hp : d.boundPrimitive.option with
  | none =>
      simp only [hp] at hmatch
      exact promoteUnbound_firm hd hp hmatch
  | some p =>
      obtain ⟨g₀, hg₀⟩ := hs.lowest_of_bound hd hp
      have hle' := hfirm.settled.1.trans hle
      rw [standIn_bound hd hp hg₀] at hle'
      obtain ⟨pos', s₁, hrun, hpromoted⟩ := promotePrimitive_promoted building hs hg₀ hle'
      rw [promoteGate_bound hd hp, hrun] at hcall
      obtain ⟨rfl, rfl⟩ := Prod.mk.inj (Option.some.inj hcall)
      obtain ⟨cp, i, hobject, hname, hlayer⟩ := hpromoted.gate
      obtain ⟨cp', hobject', hlow⟩ := lowest_eq_some.mp hpromoted.lowest
      obtain rfl := Option.some.inj (hobject'.symm.trans hobject)
      have howns := hpromoted.run.owns building_quiet hs (hfirm.owner d p hd hp)
      exact howns.firm_of_gate (haligned.of_run hpromoted.run hs) hobject' hlow hname hlayer

end Firm

end Pepper.Cmtgkr.Pws
