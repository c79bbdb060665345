import Pepper.Cmtgkr.PwsWorksheet
import Pepper.Cmtgkr.PwsCircuit

/-!
# Bindings and promoted gates

A state resolves its gates if `promoteGate` and `promotePrimitive` carry every gate and every
variable to the layers above with the values they have (`Resolves`). Since `Maybe::invalidate` does
nothing, a gate stays bound to its variable when the variable gets another gate, and `promoteGate`
then carries up the other one. Runs that bind a variable only to gates that may stand for all gates
already bound to it resolve their gates, and the first other binding ends this
(`faithful_resolves`, `Run.first_unfaithful`).
-/

set_option autoImplicit false

open Pepper.Common.Gmp Pepper.Cmtgkr.Env Pepper.Cmtgkr.Layer

namespace Pepper.Cmtgkr.Pws

/-! ## Evaluations of later states -/

section Extensions

variable {R : Type} [CommRing R] {P : Policy} {s s' : PWSCircuitParser} {val : GatePosition → R}

/-- A constant with a gate had it before, or has a new gate. -/
theorem Effect.const_origin (h : Effect P s s')
    (htexts : ∀ i t, constText s i = some t → constText s' i = some t) {text : Text}
    {p : Primitive} {g : GatePosition} (hp : IsConst s' text p) (hg : lowest s' p = some g) :
    IsConst s text p ∧ lowest s p = some g ∨ gateAt s g = none := by
  cases h.lowestEffect p with
  | touched g' unbound fresh layer after others =>
      obtain rfl := Option.some.inj (after.symm.trans hg)
      exact Or.inr fresh
  | rebound g' allowed =>
      have hconst := hp.isConstant
      rw [isConstant_eq_not, P.bind_variable _ _ _ allowed] at hconst
      exact Bool.noConfusion hconst
  | kept same =>
      rw [same] at hg
      obtain ⟨cp, hobject, -⟩ := lowest_eq_some.mp hg
      exact Or.inl ⟨hp.of_object htexts hobject, hg⟩

/-- The values are an evaluation of the next state, too, once the new gate has one that fits. -/
theorem Evaluates.update (hval : Evaluates s val) {g : GatePosition} {x : R}
    (hold : ∀ q d, q ≠ g → gateAt s' q = some d →
      ∃ d', gateAt s q = some d' ∧ d'.op = d.op ∧ d'.in1 = d.in1 ∧ d'.in2 = d.in2 ∧
        ∀ l, q.layer = l + 1 → (⟨l, d.in1⟩ : GatePosition) ≠ g ∧ (⟨l, d.in2⟩ : GatePosition) ≠ g)
    (hnew : ∀ d l, g.layer = l + 1 → gateAt s' g = some d →
      x = d.op.eval (val ⟨l, d.in1⟩) (val ⟨l, d.in2⟩))
    (hconst : ∀ p text num k, IsConst s' text p → mpzSetStr text = some num → lowest s' p = some k →
      IsConst s text p ∧ lowest s p = some k ∧ k ≠ g ∨ k = g ∧ x = num) :
    Evaluates s' (Function.update val g x) where
  gate l n d hd := by
    by_cases hg : (⟨l + 1, n⟩ : GatePosition) = g
    · have hlower : ∀ i, (⟨l, i⟩ : GatePosition) ≠ g := by
        rintro i rfl
        exact Nat.succ_ne_self l (congrArg GatePosition.layer hg)
      rw [Function.update_of_ne (hlower _), Function.update_of_ne (hlower _), hg,
        Function.update_self]
      exact hnew d l (hg ▸ rfl) (hg ▸ hd)
    · obtain ⟨d', hd', hop', h1, h2, hne⟩ := hold _ d hg hd
      obtain ⟨hne1, hne2⟩ := hne l rfl
      rw [Function.update_of_ne hg, Function.update_of_ne hne1, Function.update_of_ne hne2, ← h1,
        ← h2, ← hop']
      exact hval.gate l n d' hd'
  const p text num k hp hnum hk := by
    rcases hconst p text num k hp hnum hk with ⟨hp', hk', hne⟩ | ⟨rfl, rfl⟩
    · rw [Function.update_of_ne hne]
      exact hval.const p text num k hp' hnum hk'
    · exact Function.update_self ..

/-- The inputs of a gate are not the position of a new gate. -/
theorem WellFormed.inputs_ne (hs : WellFormed s) {g q : GatePosition} {d : GateDescription}
    (hfresh : gateAt s g = none) (hd : gateAt s q = some d) {l : ℕ} (hl : q.layer = l + 1) :
    (⟨l, d.in1⟩ : GatePosition) ≠ g ∧ (⟨l, d.in2⟩ : GatePosition) ≠ g := by
  obtain ⟨layer, name⟩ := q
  obtain rfl : layer = l + 1 := hl
  obtain ⟨-, h1, h2⟩ := hs.wiring l name d hd
  have hne : ∀ pos, HasGate s pos → pos ≠ g := by
    rintro pos hpos rfl
    rw [HasGate, hfresh] at hpos
    exact Bool.noConfusion hpos
  exact ⟨hne _ h1, hne _ h2⟩

/-- A call that adds one gate: the evaluations of the state before it have a value for the gate. -/
theorem Evaluates.extend_fresh (hval : Evaluates s val) (hs : WellFormed s) (hs' : WellFormed s')
    (horigin : ∀ text p k, IsConst s' text p → lowest s' p = some k →
      IsConst s text p ∧ lowest s p = some k ∨ gateAt s k = none)
    {g : GatePosition} {d : GateDescription} {x : R} (hfresh : gateAt s g = none)
    (hgates : ∀ q, gateAt s' q = if q = g then some d else gateAt s q)
    (hlayer : ∀ l, g.layer = l + 1 → x = d.op.eval (val ⟨l, d.in1⟩) (val ⟨l, d.in2⟩))
    (hinput : ∀ text p num, IsConst s' text p → mpzSetStr text = some num →
      lowest s' p = some g → x = num) :
    ∃ val', Evaluates s' val' ∧ ∀ pos, HasGate s pos → val' pos = val pos := by
  refine ⟨Function.update val g x, hval.update (fun q d' hq hd' => ?_) (fun d' l hl hd' => ?_)
    fun p text num k hp hnum hk => ?_, fun pos hpos => Function.update_of_ne ?_ ..⟩
  · rw [hgates, if_neg hq] at hd'
    exact ⟨d', hd', rfl, rfl, rfl, fun l hl => hs.inputs_ne hfresh hd' hl⟩
  · rw [hgates, if_pos rfl] at hd'
    obtain rfl := Option.some.inj hd'
    exact hlayer l hl
  · by_cases hkg : k = g
    · exact Or.inr ⟨hkg, hinput text p num hp hnum (hkg ▸ hk)⟩
    · rcases horigin text p k hp hk with ⟨hp', hk'⟩ | hnone
      · exact Or.inl ⟨hp', hk', hkg⟩
      · have hthere := hs'.hasGate_lowest hk
        rw [HasGate, hgates, if_neg hkg, hnone] at hthere
        exact Bool.noConfusion hthere
  · rintro rfl
    rw [HasGate, hfresh] at hpos
    exact Bool.noConfusion hpos

/-- Every evaluation of a state is, on its gates, one of every later state. -/
theorem Effect.extend (h : Effect P s s') (hs : WellFormed s) (hs' : WellFormed s')
    (htexts : ∀ i t, constText s i = some t → constText s' i = some t) (hval : Evaluates s val) :
    ∃ val', Evaluates s' val' ∧ ∀ pos, HasGate s pos → val' pos = val pos := by
  -- a gate that is new is the gate of no primitive
  have hold : ∀ {p g}, gateAt s g = none → lowest s p = some g → False := fun hfresh hg => by
    have hthere := hs.hasGate_lowest hg
    rw [HasGate, hfresh] at hthere
    exact Bool.noConfusion hthere
  have horigin : ∀ text p k, IsConst s' text p → lowest s' p = some k →
      IsConst s text p ∧ lowest s p = some k ∨ gateAt s k = none :=
    fun _ _ _ hp hk => h.const_origin htexts hp hk
  cases h with
  | names gates objects =>
      -- nothing is built: the values stay
      refine ⟨val, ⟨fun l n d hd => hval.gate l n d (gates _ ▸ hd), fun p text num k hp hnum hk => ?_⟩,
        fun _ _ => rfl⟩
      rcases horigin text p k hp hk with ⟨hp', hk'⟩ | hnone
      · exact hval.const p text num k hp' hnum hk'
      · have hthere := hs'.hasGate_lowest hk
        rw [HasGate, gates, hnone] at hthere
        exact Bool.noConfusion hthere
  | touch p cp g object unbound fresh layer gates objects =>
      -- an input, or a constant whose gate gets the number of its text
      refine hval.extend_fresh hs hs' horigin
        (x := ((((constText s' p.idx).bind mpzSetStr).getD 0 : ℤ) : R)) fresh gates
        (fun l hl => ?_) fun text q num hq hnum hlow => ?_
      · rw [layer] at hl
        exact absurd hl.symm (Nat.succ_ne_zero l)
      · have hpq : q = p := by
          by_contra hne
          rw [lowest, objects, if_neg hne] at hlow
          exact hold fresh hlow
        rw [← hpq, hq.there, Option.bind_some, hnum, Option.getD_some]
  | gate op in1 in2 layer g fresh above gates objects =>
      -- the value of a new gate is read off its operands
      refine hval.extend_fresh hs hs' horigin
        (x := op.eval (val ⟨layer, in1⟩) (val ⟨layer, in2⟩)) fresh gates
        (fun l hl => ?_) fun text q _ _ _ hq => ?_
      · obtain rfl := Nat.succ.inj (above.symm.trans hl)
        rfl
      · rw [lowest, objects] at hq
        exact (hold fresh hq).elim
  | promote p zero cp cz in1 in2 g object zeroObject isZero bound top zeroGate fresh above gates
      objects =>
      -- a promoted gate adds zero to the gate below it
      refine hval.extend_fresh hs hs' horigin
        (x := val ⟨cp.maxLayer, in1⟩ + val ⟨cp.maxLayer, in2⟩) fresh gates (fun l hl => ?_)
        fun text q _ _ _ hq => ?_
      · obtain rfl := Nat.succ.inj (above.symm.trans hl)
        rfl
      · rw [lowest, objects] at hq
        split at hq
        · -- the lowest gate of the promoted primitive was there before
          refine (hold fresh (p := p) ?_).elim
          rw [lowest, object]
          exact (cp.lowest_push bound _).symm.trans hq
        · exact (hold fresh hq).elim
  | rebind p cp g allowed object there gates objects =>
      -- only the name of the gate changes
      refine ⟨val, ⟨fun l n d hd => ?_, fun q text num k hq hnum hk => ?_⟩, fun _ _ => rfl⟩
      · rw [gates] at hd
        split at hd
        · next hpos =>
            obtain ⟨d₀, hd₀, rfl⟩ := Option.map_eq_some_iff.mp hd
            exact hval.gate l n d₀ (hpos ▸ hd₀)
        · exact hval.gate l n d hd
      · rcases horigin text q k hq hk with ⟨hq', hk'⟩ | hnone
        · exact hval.const q text num k hq' hnum hk'
        · have hthere := hs'.hasGate_lowest hk
          rw [HasGate, gates] at hthere
          split at hthere
          · next hpos => rw [← hpos, hnone] at hthere; exact Bool.noConfusion hthere
          · rw [hnone] at hthere; exact Bool.noConfusion hthere

theorem Run.extend (h : Run P s s') (hs : WellFormed s) (hval : Evaluates s val) :
    ∃ val', Evaluates s' val' ∧ ∀ pos, HasGate s pos → val' pos = val pos := by
  induction h with
  | refl => exact ⟨val, hval, fun _ _ => rfl⟩
  | tail hrun hstep ih =>
      obtain ⟨val₁, hval₁, hsame₁⟩ := ih
      obtain ⟨hwf, hgrows, -⟩ := Run.wellFormed hrun hs
      obtain ⟨hwf', -, htexts, heffect⟩ := hstep.effect hwf
      obtain ⟨val₂, hval₂, hsame₂⟩ := heffect.extend hwf hwf' htexts hval₁
      exact ⟨val₂, hval₂, fun pos hpos =>
        (hsame₂ pos (hgrows.hasGate hpos)).trans (hsame₁ pos hpos)⟩

variable (R) in
/-- Every circuit that is built from nothing has an evaluation. -/
theorem Run.exists_evaluates (h : Run P .new s) : ∃ val : GatePosition → R, Evaluates s val := by
  have hnew : Evaluates .new fun _ => (0 : R) :=
    ⟨fun l n g hg => by simp [gateAt, PWSCircuitParser.new] at hg, fun p text num g hp => by
      simpa [constText, PWSCircuitParser.new] using hp.there⟩
  obtain ⟨val, hval, -⟩ := h.extend wellFormed_new hnew
  exact ⟨val, hval⟩

end Extensions

/-! ## Resolved gates -/

section Resolved

variable (R : Type) [CommRing R]

/-- What the parser takes `promoteGate`, `promotePrimitive` and `bindVariable` to do: the gates that
the first two return are in the layer and carry, in every evaluation, the value of the gate or of the
lowest gate of the primitive; and a variable has the gate to which it was bound last. -/
structure Resolves (s : PWSCircuitParser) : Prop where
  gate : ∀ g l, HasGate s g → g.layer ≤ l → ∃ pos s', promoteGate g l s = some (pos, s') ∧
    pos.layer = l ∧ HasGate s' pos ∧ ∀ val : GatePosition → R, Evaluates s' val → val pos = val g
  primitive : ∀ p g l, lowest s p = some g → g.layer ≤ l →
    ∃ pos s', promotePrimitive p l s = some (pos, s') ∧
      pos.layer = l ∧ HasGate s' pos ∧ ∀ val : GatePosition → R, Evaluates s' val → val pos = val g
  rebound : ∀ p g s', bindVariable p g s = some ((), s') →
    ∀ q, lowest s' q = if q = p then some g else lowest s q

variable {R} {P : Policy} {s s' : PWSCircuitParser}

/-- All evaluations of a state are consistent. -/
def AllConsistent (R : Type) [CommRing R] (s : PWSCircuitParser) : Prop :=
  ∀ val : GatePosition → R, Evaluates s val → Consistent s val

theorem bindVariable_lowest (hs : WellFormed s) {p : Primitive} {g : GatePosition}
    (h : bindVariable p g s = some ((), s')) (q : Primitive) :
    lowest s' q = if q = p then some g else lowest s q := by
  obtain ⟨-, -, -, hobjects, -⟩ := bindVariable_inv hs h
  rw [lowest, hobjects]
  split
  · rfl
  · rfl

/-- In consistent states every gate is settled. -/
theorem AllConsistent.settled (hc : AllConsistent R s) (hs : WellFormed s)
    {val₀ : GatePosition → R} (hval₀ : Evaluates s val₀) {g : GatePosition} (hg : HasGate s g) :
    Settled R s g := by
  obtain ⟨d, hd⟩ := Option.isSome_iff_exists.mp hg
  cases hp : d.boundPrimitive.option with
  | none => exact settled_of_standIn (standIn_unbound hd hp)
  | some p =>
      obtain ⟨g₀, hg₀⟩ := hs.lowest_of_bound hd hp
      rw [Settled, standIn_bound hd hp hg₀]
      exact ⟨((hc val₀ hval₀).bound g d p g₀ hd hp hg₀).1,
        fun val hval => ((hc val hval).bound g d p g₀ hd hp hg₀).2⟩

/-- Consistent states resolve their gates. -/
theorem resolves_of_consistent (hs : WellFormed s) {val₀ : GatePosition → R}
    (hval₀ : Evaluates s val₀) (hc : AllConsistent R s) : Resolves R s := by
  have haligned : AllAligned R s := fun val hval => (hc val hval).aligned
  refine ⟨fun g l hg hle => ?_, fun p g l hg hle => ?_, fun p g s' h => bindVariable_lowest hs h⟩
  · have hsettled := hc.settled hs hval₀ hg
    obtain ⟨pos, s', hrun, hcarried⟩ :=
      promoteGate_run building hs hg (hsettled.1.trans hle)
    have hmeans := hcarried.means (S := True) hs (fun _ => haligned) fun _ => hsettled
    exact ⟨pos, s', hrun, hcarried.layer, hmeans.there, hmeans.value trivial⟩
  · obtain ⟨pos, s', hrun, hcarried⟩ := promotePrimitive_run building hs hg hle
    exact ⟨pos, s', hrun, hcarried.layer, hcarried.there, hcarried.value haligned⟩

/-- States that resolve their gates are consistent: a gate that is bound to a primitive is carried
to its own layer. -/
theorem consistent_of_resolves (hs : WellFormed s)
    (haligned : ∀ val : GatePosition → R, Evaluates s val → Aligned s val) (h : Resolves R s) :
    AllConsistent R s := by
  refine fun val hval => ⟨haligned val hval, fun pos d p g hd hp hg => ?_⟩
  have hpos : HasGate s pos := Option.isSome_iff_exists.mpr ⟨d, hd⟩
  obtain ⟨pos', s', hrun, -, -, hvalue⟩ := h.gate pos pos.layer hpos (Nat.le_refl _)
  rw [promoteGate_bound hd hp] at hrun
  have hle := (promotePrimitive_inv building hs hg hrun).1
  obtain ⟨_, _, hrun', hpromoted⟩ := promotePrimitive_promoted building hs hg hle
  rw [hrun] at hrun'
  obtain ⟨rfl, rfl⟩ := Prod.mk.inj (Option.some.inj hrun')
  obtain ⟨val', hval', hsame⟩ := hpromoted.run.extend hs hval
  have hprimitive := hpromoted.value (hpromoted.run.aligned hs haligned hval')
  refine ⟨hle, ?_⟩
  calc val pos = val' pos := (hsame pos hpos).symm
    _ = val' pos' := (hvalue val' hval').symm
    _ = val' g := hprimitive
    _ = val g := hsame g (hs.hasGate_lowest hg)

/-- A binding keeps the gates resolved exactly if it is faithful. -/
theorem bindVariable_resolves_iff (hrun : Run P .new s) (hres : Resolves R s) {p : Primitive}
    {gate : GatePosition} (hp : p.isVariable = true) (h : bindVariable p gate s = some ((), s')) :
    Resolves R s' ↔ (faithful R).allows s (.bind p gate) := by
  have hs := (hrun.wellFormed wellFormed_new).1
  have hstep : Step anyLine s s' := .bindVariable p gate ⟨trivial, hp⟩ h
  have hwf' := (hstep.effect hs).1
  have hrun' : Run anyLine s s' := .single hstep
  obtain ⟨-, hgates, -, -, hthere, -⟩ := bindVariable_inv hs h
  obtain ⟨val₀, hval₀⟩ := hrun.exists_evaluates R
  refine ⟨fun hres' => ⟨hp, fun pos d hd hbound => ?_⟩, fun hallowed => ?_⟩
  · have hc' := consistent_of_resolves hwf'
      (fun val hval => hrun'.aligned hs (aligned_of_new hrun) hval) hres'
    have hlow := (bindVariable_lowest hs h p).trans (if_pos rfl)
    by_cases hpos : pos = gate
    · exact ⟨hpos ▸ Nat.le_refl _, fun val _ => congrArg val hpos⟩
    · have hd' : gateAt s' pos = some d := by rw [hgates, if_neg hpos, hd]
      -- the gate and the new one agree in every evaluation that goes on after the binding
      have hbound' : ∀ val : GatePosition → R, Evaluates s val →
          gate.layer ≤ pos.layer ∧ val pos = val gate := fun val hval => by
        obtain ⟨val', hval', hsame⟩ := hrun'.extend hs hval
        rw [← hsame pos (Option.isSome_iff_exists.mpr ⟨d, hd⟩), ← hsame gate hthere]
        exact (hc' val' hval').bound pos d p gate hd' hbound hlow
      exact ⟨(hbound' val₀ hval₀).1, fun val hval => (hbound' val hval).2⟩
  · have hfaithful : Step (faithful R) s s' := .bindVariable p gate hallowed h
    have hc := consistent_of_resolves hs (aligned_of_new hrun) hres
    obtain ⟨val', hval', -⟩ := hrun'.extend hs hval₀
    exact resolves_of_consistent hwf' hval' fun val hval =>
      Run.consistent (.single hfaithful) hs hc hval

end Resolved

/-! ## Runs of the parser -/

section Runs

variable {R : Type} [CommRing R] {s : PWSCircuitParser}

/-- Binding a variable that has no gate is faithful. -/
theorem faithful_of_unbound (hs : WellFormed s) {p : Primitive} (hp : p.isVariable = true)
    (hunbound : lowest s p = none) (gate : GatePosition) :
    (faithful R).allows s (.bind p gate) := by
  refine ⟨hp, fun pos d hd hbound => ?_⟩
  obtain ⟨g, hg⟩ := hs.lowest_of_bound hd hbound
  exact Option.noConfusion rfl (heq_of_eq (hunbound.symm.trans hg))

/-- The parser before the first line has no gate to be inconsistent. -/
theorem allConsistent_new (R : Type) [CommRing R] : AllConsistent R .new := fun val hval => by
  refine ⟨aligned_of_new (P := faithful R) .refl val hval, fun pos d p g hd => ?_⟩
  simp [gateAt, PWSCircuitParser.new] at hd

/-- Every state that a faithful run reaches resolves its gates, and a further binding keeps this
exactly if it is faithful. -/
theorem faithful_resolves (h : Run (faithful R) .new s) :
    Resolves R s ∧ ∀ p gate s', p.isVariable = true → bindVariable p gate s = some ((), s') →
      (Resolves R s' ↔ (faithful R).allows s (.bind p gate)) := by
  have hs := (h.wellFormed wellFormed_new).1
  obtain ⟨val₀, hval₀⟩ := h.exists_evaluates R
  have hres : Resolves R s := resolves_of_consistent hs hval₀ fun val hval =>
    h.consistent wellFormed_new (allConsistent_new R) hval
  exact ⟨hres, fun p gate s' hp hbind => bindVariable_resolves_iff h hres hp hbind⟩

/-- A run is faithful, or a first binding leaves a state that does not resolve its gates. -/
theorem Run.first_unfaithful (h : Run anyLine .new s) :
    Run (faithful R) .new s ∨ ∃ t t' p gate, Run (faithful R) .new t ∧
      bindVariable p gate t = some ((), t') ∧ Run anyLine t' s ∧ ¬ Resolves R t' := by
  induction h with
  | refl => exact Or.inl .refl
  | @tail u _ hrun hstep ih =>
      rcases ih with hfaithful | ⟨t, t', p, gate, hfirst, hbind, hlater, hres⟩
      · cases hstep with
        | addVariable type name p run => exact Or.inl (hfaithful.tail (.addVariable type name p run))
        | addConstant text p run => exact Or.inl (hfaithful.tail (.addConstant text p run))
        | makeMagic p v allowed found run =>
            exact Or.inl (hfaithful.tail (.makeMagic p v allowed found run))
        | addToCircuit p run => exact Or.inl (hfaithful.tail (.addToCircuit p run))
        | addGate op in1 in2 layer pos isGate has1 has2 run =>
            exact Or.inl (hfaithful.tail (.addGate op in1 in2 layer pos isGate has1 has2 run))
        | promote p zero cp cz in1 in2 object zeroObject isZero bound top zeroGate run =>
            exact Or.inl (hfaithful.tail (.promote p zero cp cz in1 in2 object zeroObject isZero
              bound top zeroGate run))
        | record allowed names desc => exact Or.inl (hfaithful.tail (.record trivial names desc))
        | bindVariable p gate allowed run =>
            have hiff := (faithful_resolves hfaithful).2 p gate _ allowed.2 run
            by_cases hallowed : (faithful R).allows u (.bind p gate)
            · exact Or.inl (hfaithful.tail (.bindVariable p gate hallowed run))
            · exact Or.inr ⟨_, _, p, gate, hfaithful, run, .refl, fun hres =>
                hallowed (hiff.mp hres)⟩
      · exact Or.inr ⟨t, t', p, gate, hfirst, hbind, hlater.tail hstep, hres⟩

end Runs

/-- Every worksheet whose magic variables are no inputs or outputs is parsed by a faithful run, or
there is a first line that binds a variable so that the gates are no longer resolved. -/
theorem parseLines_resolves {R : Type} [CommRing R] {rightFirst : Bool} {prime : ℤ} {fuel : ℕ}
    {pws : List Token} {s : PWSCircuitParser}
    (hlines : OpLines rightFirst prime (fun line _ => line.Intermediate) fuel pws .new)
    (h : parseLines rightFirst prime fuel pws .new = some ((), s)) :
    Run (faithful R) .new s ∨ ∃ t t' p gate, Run (faithful R) .new t ∧
      bindVariable p gate t = some ((), t') ∧ Run anyLine t' s ∧ ¬ Resolves R t' :=
  (parseLines_run wellFormed_new hlines h).first_unfaithful

/-- All gates that are bound to the primitive are in the list. -/
def BoundOnly (s : PWSCircuitParser) (p : Primitive) (l : List GatePosition) : Prop :=
  ∀ layer < s.circuitDesc.length, ∀ name < (s.circuitDesc.getD layer []).length,
    ((gateAt s ⟨layer, name⟩).bind fun d => d.boundPrimitive.option) = some p →
      (⟨layer, name⟩ : GatePosition) ∈ l

instance (s : PWSCircuitParser) (p : Primitive) (l : List GatePosition) :
    Decidable (BoundOnly s p l) :=
  inferInstanceAs (Decidable (∀ layer < s.circuitDesc.length,
    ∀ name < (s.circuitDesc.getD layer []).length,
      ((gateAt s ⟨layer, name⟩).bind fun d => d.boundPrimitive.option) = some p →
        (⟨layer, name⟩ : GatePosition) ∈ l))

theorem BoundOnly.mem {s : PWSCircuitParser} {p : Primitive} {l : List GatePosition}
    (h : BoundOnly s p l) {pos : GatePosition} {d : GateDescription} (hd : gateAt s pos = some d)
    (hp : d.boundPrimitive.option = some p) : pos ∈ l := by
  obtain ⟨layer, hlayer, hget⟩ := Option.bind_eq_some_iff.mp hd
  obtain ⟨hl, rfl⟩ := List.getElem?_eq_some_iff.mp hlayer
  refine h pos.layer hl pos.name ?_ ?_
  · rw [List.getD_eq_getElem?_getD, hlayer]
    exact (List.getElem?_eq_some_iff.mp hget).1
  · rw [hd]
    exact hp

/-- `P V5 = I0 * I1 E` and `P V5 = I1 * I0 E`. -/
def productLines : List Token :=
  [.word .poly, .var .temp 5, .word .assign, .var .input 0, .word .times, .var .input 1,
    .word .polyEnd,
    .word .poly, .var .temp 5, .word .assign, .var .input 1, .word .times, .var .input 0,
    .word .polyEnd]

/-- The second line binds `V5` again, while the gate of the first stays bound to it. -/
theorem faithful_resolves_productLines : ∃ s, parseLines false 11 15 productLines .new = some ((), s) ∧
    lowest s ⟨.intermediate, 5⟩ = some ⟨1, 1⟩ ∧
    ((gateAt s ⟨1, 0⟩).bind fun d => d.boundPrimitive.option) = some ⟨.intermediate, 5⟩ ∧
    Resolves (ZMod 11) s := by
  have h : (do
      let (p, s₁) ← addVariable .temp 5 .new
      let (_, s₂) ← addVariable .input 0 s₁
      let (_, s₃) ← addToCircuit ⟨.inputOutput, 0⟩ s₂
      let (_, s₄) ← addVariable .input 1 s₃
      let (_, s₅) ← addToCircuit ⟨.inputOutput, 1⟩ s₄
      let (first, s₆) ← addGate .mul 0 1 1 s₅
      let (_, s₇) ← bindVariable p first s₆
      let (second, s₈) ← addGate .mul 1 0 1 s₇
      let (_, s₉) ← bindVariable p second s₈
      pure (p, first, second, decide ((gateAt s₅ ⟨0, 0⟩).isSome ∧ (gateAt s₅ ⟨0, 1⟩).isSome ∧
        (gateAt s₇ ⟨0, 1⟩).isSome ∧ (gateAt s₇ ⟨0, 0⟩).isSome ∧ lowest s₆ p = none ∧ BoundOnly s₈ p [first] ∧
        (gateAt s₈ first).map (fun d => (d.op, d.in1, d.in2)) = some (.mul, 0, 1) ∧
        (gateAt s₈ second).map (fun d => (d.op, d.in1, d.in2)) = some (.mul, 1, 0) ∧
        parseLines false 11 15 productLines .new = some ((), s₉) ∧ lowest s₉ p = some second ∧
        ((gateAt s₉ first).bind fun d => d.boundPrimitive.option) = some p))) =
        some (⟨.intermediate, 5⟩, ⟨1, 0⟩, ⟨1, 1⟩, true) := by
    decide +kernel
  simp only [Option.bind_eq_bind, Option.bind_eq_some_iff] at h
  obtain ⟨⟨p, s₁⟩, h₁, ⟨_, s₂⟩, h₂, ⟨_, s₃⟩, h₃, ⟨_, s₄⟩, h₄, ⟨_, s₅⟩, h₅, ⟨first, s₆⟩, h₆,
    ⟨_, s₇⟩, h₇, ⟨second, s₈⟩, h₈, ⟨_, s₉⟩, h₉, hvalues⟩ := h
  simp only [Option.pure_def, Option.some.injEq, Prod.mk.injEq, decide_eq_true_eq] at hvalues
  obtain ⟨rfl, rfl, rfl, hin1, hin2, hin1', hin2', hunbound, honly, hfirst, hsecond, hparse, hlow,
    hbound⟩ := hvalues
  have hrun₆ : Run (faithful (ZMod 11)) .new s₆ :=
    .head (.addVariable .temp 5 _ h₁) (.head (.addVariable .input 0 _ h₂)
      (.head (.addToCircuit ⟨.inputOutput, 0⟩ h₃) (.head (.addVariable .input 1 _ h₄)
        (.head (.addToCircuit ⟨.inputOutput, 1⟩ h₅)
          (.single (.addGate .mul 0 1 0 _ (by decide) hin1 hin2 h₆))))))
  -- the first binding is of a variable without a gate
  have hs₆ := (hrun₆.wellFormed wellFormed_new).1
  have hrun₇ : Run (faithful (ZMod 11)) .new s₇ :=
    hrun₆.tail (.bindVariable _ _ (faithful_of_unbound hs₆ (by decide) hunbound _) h₇)
  have hrun₈ : Run (faithful (ZMod 11)) .new s₈ :=
    hrun₇.tail (.addGate .mul 1 0 0 _ (by decide) hin1' hin2' h₈)
  -- the second is to a gate with the operands of the first in the other order
  have hallowed : (faithful (ZMod 11)).allows s₈ (.bind ⟨.intermediate, 5⟩ ⟨1, 1⟩) := by
    refine ⟨by decide, fun pos d hd hp => ?_⟩
    obtain rfl := List.mem_singleton.mp (honly.mem hd hp)
    refine ⟨Nat.le_refl _, fun val hval => ?_⟩
    obtain ⟨d₁, hd₁, hop₁⟩ := Option.map_eq_some_iff.mp hfirst
    obtain ⟨d₂, hd₂, hop₂⟩ := Option.map_eq_some_iff.mp hsecond
    simp only [Prod.mk.injEq] at hop₁ hop₂
    have hval₁ := hval.gate 0 0 d₁ hd₁
    have hval₂ := hval.gate 0 1 d₂ hd₂
    rw [hop₁.1, hop₁.2.1, hop₁.2.2] at hval₁
    rw [hop₂.1, hop₂.2.1, hop₂.2.2] at hval₂
    exact hval₁.trans ((mul_comm _ _).trans hval₂.symm)
  exact ⟨s₉, hparse, hlow, Option.bind_eq_some_iff.mpr hbound,
    (faithful_resolves (hrun₈.tail (.bindVariable _ _ hallowed h₉))).1⟩

/-- `P V5 = I0 + I0 E`. -/
def sumLine : List Token :=
  [.word .poly, .var .temp 5, .word .assign, .var .input 0, .word .plus, .var .input 0,
    .word .polyEnd]

/-- `P V5 = I0 + I0 E` and `/ V5 = V5 / 4`. -/
def redefined : List Token :=
  sumLine ++ [.word .slash, .var .temp 5, .word .assign, .var .temp 5, .word .slash, .const ['4']]

/-- After the second line the gate of the sum is carried up as the quotient. -/
theorem redefined_not_promoted : ∃ s pos s' c,
    parseLines false 11 14 redefined .new = some ((), s) ∧ HasGate s ⟨1, 0⟩ ∧
      promoteGate ⟨1, 0⟩ 2 s = some (pos, s') ∧
      constructCircuit (constructInvertedIndexes s') = some c ∧
      ¬ ((c.prove 11 [3]).values.at pos).zValue ≡
        ((c.prove 11 [3]).values.at ⟨1, 0⟩).zValue [ZMOD 11] := by
  have h : (do
      let parsed ← parseLines false 11 14 redefined .new
      let promoted ← promoteGate ⟨1, 0⟩ 2 parsed.2
      let c ← constructCircuit (constructInvertedIndexes promoted.2)
      let v := (c.prove 11 [3]).values
      pure ((gateAt parsed.2 ⟨1, 0⟩).isSome, (v.at promoted.1).zValue, (v.at ⟨1, 0⟩).zValue)) =
        some (true, 18, 6) := by
    decide +kernel
  simp only [Option.bind_eq_bind, Option.bind_eq_some_iff] at h
  obtain ⟨⟨_, s⟩, hparse, ⟨pos, s'⟩, hpromote, c, hc, hvalues⟩ := h
  obtain ⟨hgate, hvalue⟩ := Prod.mk.inj (Option.some.inj hvalues)
  obtain ⟨hpos, hold⟩ := Prod.mk.inj hvalue
  refine ⟨s, pos, s', c, hparse, hgate, hpromote, hc, ?_⟩
  rw [hpos, hold]
  decide

end Pepper.Cmtgkr.Pws
