import Pepper.Cmtgkr.PwsGadgets

/-!
# The lines of a worksheet

What each kind of line does: the gates it builds, the output constants and operations it records
and the primitives it binds. A line is a run that binds nothing but its targets
(`parsePolyConstraint_run`, `parseLessThanInt_run`, ...); between the calls that bind them the
gadgets of a comparison are built (`gadget`).
-/

set_option autoImplicit false

open Pepper.Common.Gmp Pepper.Cmtgkr.Env Pepper.Cmtgkr.Layer

namespace Pepper.Cmtgkr.Pws

/-! ## Policies of lines -/

/-- The policy of a line: only its targets are bound. -/
def lineCalls (T : Primitive → Prop) : Policy where
  allows _
    | .bind p _ => T p ∧ p.isVariable = true
    | .magic p => p.pType = .intermediate
    | .record => True
  bind_variable _ _ _ h := h.2
  magic_intermediate _ _ h := h

/-- The policy of a gadget: nothing is bound. -/
abbrev gadget : Policy := lineCalls fun _ => False

section Policies

variable {s s' : PWSCircuitParser} {T : Primitive → Prop}

theorem Run.of_gadget (h : Run gadget s s') : Run (lineCalls T) s s' := by
  refine h.mono fun t c hallowed => ?_
  cases c with
  | bind p gate => exact hallowed.1.elim
  | magic p => exact hallowed
  | record => trivial

/-- Primitives that a line does not bind keep their gates. -/
theorem line_lowest (h : Run (lineCalls T) s s') (hs : WellFormed s) {p : Primitive}
    (hp : ¬ T p) {g : GatePosition} (hg : lowest s p = some g) : lowest s' p = some g :=
  h.keeps_lowest hs (fun _ _ hallowed => hp hallowed.1) hg

theorem gadget_quiet : gadget.Quiet := fun _ _ _ hallowed => hallowed.1

end Policies

/-! ## Recording -/

/-- Output constants were recorded, and no operation. -/
structure Recorded (s s' : PWSCircuitParser) (out : List (GatePosition × Text)) : Prop where
  outputs : s'.outConstantDesc = s.outConstantDesc ++ out
  ops : s'.magicOps = s.magicOps

section Gadgets

variable {R : Type} [CommRing R] {S : Prop} {s s' : PWSCircuitParser}

theorem SameRecords.recorded (h : SameRecords s s') : Recorded s s' [] :=
  ⟨by rw [h.outputs, List.append_nil], h.ops⟩

theorem Recorded.trans {s₁ s₂ : PWSCircuitParser} {out out' : List (GatePosition × Text)}
    (h : Recorded s s₁ out) (h' : Recorded s₁ s₂ out') : Recorded s s₂ (out ++ out') :=
  ⟨by rw [h'.outputs, h.outputs, List.append_assoc], h'.ops.trans h.ops⟩

theorem bindOutputConstant_inv {T : Primitive → Prop} {pos : GatePosition} {text : Text} {u : Unit}
    (h : bindOutputConstant pos text s = some (u, s')) :
    Run (lineCalls T) s s' ∧ Recorded s s' [(pos, text)] := by
  have hs' := modify_inv h
  exact ⟨.single (.record trivial (by rw [hs']; exact ⟨rfl, rfl, rfl⟩) (by rw [hs'])),
    by rw [hs'], by rw [hs']⟩

/-- A primitive that owns its gates, the lowest one in the input layer. -/
structure Grounded (s : PWSCircuitParser) (p : Primitive) : Prop where
  owns : Owns s p
  layer : ∀ g, lowest s p = some g → g.layer = 0

theorem grounded_of_unbound {p : Primitive} (h : lowest s p = none) : Grounded s p where
  owns := owns_of_unbound h
  layer g hg := by
    rw [h] at hg
    exact Option.noConfusion rfl (heq_of_eq hg)

theorem Grounded.of_run {P : Policy} {p : Primitive} (h : Grounded s p) (hrun : Run P s s')
    (hP : P.Quiet) (hs : WellFormed s) : Grounded s' p where
  owns := hrun.owns hP hs h.owns
  layer g hg := by
    rcases hrun.lowest_origin hs (fun t gate => hP t p gate) hg with hold | ⟨-, hlayer, -⟩
    · exact h.layer g hold
    · exact hlayer

/-- `makeZeroOrOtherGate`: the product that vanishes at zero and at the other value. -/
theorem makeZeroOrOtherGate_inv (hs : WellFormed s) (hA : S → AllAligned R s) {var : Primitive}
    (hvar : S → Grounded s var) {other : ℤ} {u : Unit}
    (h : makeZeroOrOtherGate var other s = some (u, s')) :
    ∃ g pos, Run gadget s s' ∧ lowest s' var = some g ∧
      Recorded s s' [(pos, Text.ofInt 0)] ∧
      Means S s' pos (fun val : GatePosition → R => val g * (val g - other)) := by
  obtain ⟨otherConst, s₁, hconst, h₁⟩ := bind_inv h
  obtain ⟨otherGate, s₂, hget, h₂⟩ := bind_inv h₁
  obtain ⟨varGate, s₃, hvarGate, h₃⟩ := bind_inv h₂
  obtain ⟨nz, s₄, hnz, h₄⟩ := bind_inv h₃
  obtain ⟨zo, s₅, hzo, hout⟩ := bind_inv h₄
  -- the constant, and the gate of the variable, both in the input layer
  have hother : (addConstant (Text.ofInt (-other)) >>= fun p => getGate p 0) s =
      some (otherGate, s₂) := (bind_run hconst).trans hget
  obtain ⟨hrun₂, hlayer₂, hm₂⟩ := constGate_means (R := R) hs hA hother
  have hwf₂ := (hrun₂.wellFormed hs).1
  obtain ⟨hrun₃, hwf₃, hlow₃, hthere₃⟩ := getGate_building hwf₂ hvarGate
  have hm₃ := hm₂.of_run hrun₃ hwf₂
  have hrun₂₃ : Run building s s₃ := hrun₂.trans hrun₃
  have hA₃ : S → AllAligned R s₃ := fun hS => (hA hS).of_run hrun₂₃ hs
  have hvar₃ : S → Grounded s₃ var := fun hS => (hvar hS).of_run hrun₂₃ building_quiet hs
  have hfirm₃ : S → Firm R s₃ varGate := fun hS => (hvar₃ hS).owns.firm (hA₃ hS) hlow₃
  -- their sum, and its product with the variable
  obtain ⟨hrun₄, hb₄⟩ := makeGate_inv (S := S) (R := R) OpType.add_ne_constant hwf₃ hA₃
    hm₃.there hthere₃
    (fun hne hS => absurd (hlayer₂.trans ((hvar₃ hS).layer varGate hlow₃).symm) hne) hnz
  obtain ⟨hwf₄, hgrows₄, -⟩ := hrun₄.wellFormed hwf₃
  obtain ⟨hrun₅, hb₅⟩ := makeGate_inv (S := S) (R := R) OpType.mul_ne_constant hwf₄
    (fun hS => (hA₃ hS).of_run hrun₄ hwf₃) (hgrows₄.hasGate hthere₃) hb₄.there
    (fun _ hS => ⟨((hfirm₃ hS).settled).of_run hrun₄ building_quiet hwf₃ hthere₃, hb₄.settled hS⟩)
    hzo
  have hwf₅ := (hrun₅.wellFormed hwf₄).1
  obtain ⟨hrun₆, hrecorded⟩ := bindOutputConstant_inv (T := fun _ => False) hout
  have hbuilt : Run building s s₅ := (hrun₂₃.trans hrun₄).trans hrun₅
  have hlow₅ := building_lowest hrun₅ hwf₄ (building_lowest hrun₄ hwf₃ hlow₃)
  refine ⟨varGate, zo, hbuilt.of_building.trans hrun₆,
    line_lowest hrun₆ hwf₅ id hlow₅, hbuilt.sameRecords.recorded.trans hrecorded,
    (hb₅.toMeans.of_run hrun₆ hwf₅).there, fun hS val hval => ?_⟩
  -- the value of the product, from the gates below it
  have hval₅ := hval.of_run hrun₆ hwf₅
  have hval₄ := hval₅.of_run hrun₅ hwf₄
  rw [hb₅.value hS val hval₅, hb₄.value hS val hval₄,
    hm₃.value hS val (hval₄.of_run hrun₄ hwf₃), OpType.eval, OpType.eval]
  push_cast
  ring

/-- The primitive that `addVariable` gives. -/
theorem addVariable_eq {type : VarType} {name : ℕ} {p : Primitive}
    (h : addVariable type name s = some (p, s')) :
    p = ({ CPrimitive.new with varType := type, name := name } : CVar).toPrimitive := by
  rw [addVariable] at h
  split at h
  · exact (Prod.mk.inj (Option.some.inj h)).1.symm
  · exact (Prod.mk.inj (Option.some.inj h)).1.symm

/-- Entering a variable that is made magic at once. -/
theorem magicVariable_inv {T : Primitive → Prop} {name : ℕ} {p : Primitive}
    {s₁ : PWSCircuitParser} {u : Unit} (hadd : addVariable .magic name s = some (p, s₁))
    (hmodify : (modify (fun s =>
      match (getVarMap p s).lookup p.idx with
      | some v => setVarMap p v.makeMagic s
      | none => s) : ParserM Unit) s₁ = some (u, s')) :
    p = ⟨.intermediate, name⟩ ∧ Run (lineCalls T) s s' ∧ SameRecords s s' := by
  have hp : p = ⟨.intermediate, name⟩ := addVariable_eq hadd
  have hs' := modify_inv hmodify
  have hstep₁ : Step (lineCalls T) s s₁ := .addVariable _ _ p hadd
  refine ⟨hp, ?_, ?_⟩
  · cases hlookup : (getVarMap p s₁).lookup p.idx with
    | none =>
        rw [hlookup] at hs'
        exact hs' ▸ .single hstep₁
    | some v =>
        rw [hlookup] at hs'
        exact (Relation.ReflTransGen.single hstep₁).tail
          (.makeMagic p v (by rw [hp]; rfl) hlookup hs')
  · refine (keeps_addVariable _ _ _ _ _ hadd).trans ?_
    rw [hs']
    split
    · exact keeps_setVarMap _ _ s₁
    · exact .refl s₁

/-- `makeMagic` of a variable that is no input or output. -/
theorem makeMagic_run {T : Primitive → Prop} {p : Primitive} (hp : p.pType = .intermediate) {u : Unit}
    (h : makeMagic p s = some (u, s')) : Run (lineCalls T) s s' ∧ SameRecords s s' := by
  rw [makeMagic, if_pos (isVariable_iff.mpr (Or.inr hp))] at h
  obtain ⟨v, s₁, hv, hmodify⟩ := bind_inv h
  obtain ⟨w, hw, heq⟩ := Option.map_eq_some_iff.mp hv
  obtain ⟨rfl, rfl⟩ := Prod.mk.inj heq
  have hs' := modify_inv hmodify
  exact ⟨.single (.makeMagic p w hp hw hs'), hs' ▸ keeps_setVarMap p w.makeMagic _⟩

/-- What the loop over the bits leaves: the bits' gates, and a constraint on each. -/
structure BitGates (S : Prop) (R : Type) [CommRing R] (s s' : PWSCircuitParser) (base n : ℕ)
    (nis : List GatePosition) (out : List (GatePosition × Text)) : Prop where
  run : Run gadget s s'
  recorded : Recorded s s' out
  length : nis.length = n
  lowest : ∀ i g, nis[i]? = some g → lowest s' ⟨.intermediate, base + i⟩ = some g
  constraints : ∀ d ∈ out, d.2 = Text.ofInt 0 ∧ ∃ i g, nis[i]? = some g ∧
    Means S s' d.1 (fun val : GatePosition → R => val g * (val g - 2 ^ i))

theorem parseBits_inv {base n : ℕ} {nis : List GatePosition} (hs : WellFormed s)
    (hA : S → AllAligned R s) (hbit : S → ∀ i < n, Grounded s ⟨.intermediate, base + i⟩)
    (h : parseBits base n s = some (nis, s')) :
    ∃ out, BitGates S R s s' base n nis out := by
  induction n generalizing s' nis with
  | zero =>
      obtain ⟨rfl, rfl⟩ := pure_inv h
      exact ⟨[], .refl, SameRecords.recorded (.refl s'), rfl, by simp, by simp⟩
  | succ n ih =>
      -- the bits below, and the variable of bit `n` with its constraint
      rw [parseBits] at h
      obtain ⟨old, s₁, hold, h₁⟩ := bind_inv h
      obtain ⟨ni, s₂, hadd, h₂⟩ := bind_inv h₁
      obtain ⟨u, s₃, hmodify, h₃⟩ := bind_inv h₂
      obtain ⟨u', s₄, hzo, h₄⟩ := bind_inv h₃
      obtain ⟨g, s₅, hget, hpure⟩ := bind_inv h₄
      obtain ⟨rfl, rfl⟩ := pure_inv hpure
      obtain ⟨out, hbits⟩ := ih (fun hS i hi => hbit hS i (hi.trans (Nat.lt_succ_self n))) hold
      have hwf₁ := (hbits.run.wellFormed hs).1
      obtain ⟨rfl, hrun₃, hsame₃⟩ := magicVariable_inv (T := fun _ => False) hadd hmodify
      have hwf₃ := (hrun₃.wellFormed hwf₁).1
      obtain ⟨g₀, pos, hrun₄, hlow₄, hrecorded₄, hm₄⟩ := makeZeroOrOtherGate_inv (R := R) hwf₃
        (fun hS => (hA hS).of_run (hbits.run.trans hrun₃) hs)
        (fun hS => (hbit hS n (Nat.lt_succ_self n)).of_run (hbits.run.trans hrun₃) gadget_quiet hs)
        hzo
      have hwf₄ := (hrun₄.wellFormed hwf₃).1
      obtain ⟨hrun₅, hlow₅, hsame₅⟩ := getGate_inv building hwf₄ hget
      -- the gate that is read back is the one the constraint is about
      obtain rfl : g₀ = g := by
        have hkept := building_lowest hrun₅ hwf₄ hlow₄
        exact Option.some.inj (hkept.symm.trans hlow₅)
      obtain rfl := hsame₅ hlow₄
      have hlater : Run gadget s₁ _ := hrun₃.trans hrun₄
      refine ⟨out ++ ([] ++ [(pos, Text.ofInt 0)]), hbits.run.trans hlater,
        hbits.recorded.trans (hsame₃.recorded.trans hrecorded₄), ?_, fun i g hi => ?_,
        fun d hd => ?_⟩
      · rw [List.length_append, hbits.length]
        rfl
      · rcases (getElem?_snoc _ _ _ _).mp hi with hi | ⟨rfl, rfl⟩
        · exact line_lowest hlater hwf₁ id (hbits.lowest i g hi)
        · rw [hbits.length]
          exact hlow₄
      · -- the constraints of the bits below still hold what they held
        rcases List.mem_append.mp hd with hd | hd
        · obtain ⟨htext, i, g, hi, hm⟩ := hbits.constraints d hd
          exact ⟨htext, i, g, (getElem?_snoc _ _ _ _).mpr (Or.inl hi), hm.of_run hlater hwf₁⟩
        · obtain rfl := List.mem_singleton.mp hd
          refine ⟨rfl, n, g₀, (getElem?_snoc _ _ _ _).mpr (Or.inr ⟨hbits.length.symm, rfl⟩),
            hm₄.there, fun hsound val hval => ?_⟩
          rw [hm₄.value hsound val hval]
          push_cast
          rfl

/-- What a run of a gadget does to a gate that a primitive has: nothing. -/
theorem getGate_gadget (hs : WellFormed s) {p : Primitive} {g pos : GatePosition}
    (hg : lowest s p = some g) (h : getGate p 0 s = some (pos, s')) : pos = g ∧ s' = s := by
  obtain ⟨hrun, hlow, hsame⟩ := getGate_inv building hs h
  obtain rfl := Option.some.inj (hlow.symm.trans (building_lowest hrun hs hg))
  exact ⟨rfl, hsame hg⟩

/-- The flags' gates, and the constraints on them. -/
structure FlagGates (S : Prop) (R : Type) [CommRing R] (s s' : PWSCircuitParser)
    (mlt meq mgt : Primitive) (lt eq gt : GatePosition) (out : List (GatePosition × Text)) :
    Prop where
  run : Run gadget s s'
  recorded : Recorded s s' out
  below : lowest s' mlt = some lt
  equal : lowest s' meq = some eq
  above : lowest s' mgt = some gt
  constraints : ∀ d ∈ out,
    d.2 = Text.ofInt 0 ∧ (∃ g ∈ [lt, eq, gt],
      Means S s' d.1 (fun val : GatePosition → R => val g * (val g - 1))) ∨
    d.2 = Text.ofInt 1 ∧
      Means S s' d.1 (fun val : GatePosition → R => val lt + val eq + val gt)

theorem parseFlags_inv {mlt meq mgt : Primitive} {lt eq gt : GatePosition} (hs : WellFormed s)
    (hA : S → AllAligned R s) (hflag : S → ∀ m ∈ [mlt, meq, mgt], Grounded s m)
    (hlt : mlt.pType = .intermediate) (heq : meq.pType = .intermediate) (hgt : mgt.pType = .intermediate)
    (h : parseFlags mlt meq mgt s = some ((lt, eq, gt), s')) :
    ∃ out, FlagGates S R s s' mlt meq mgt lt eq gt out := by
  obtain ⟨_, s₁, hmagic₁, h₁⟩ := bind_inv h
  obtain ⟨_, s₂, hmagic₂, h₂⟩ := bind_inv h₁
  obtain ⟨_, s₃, hmagic₃, h₃⟩ := bind_inv h₂
  obtain ⟨_, s₄, hzo₁, h₄⟩ := bind_inv h₃
  obtain ⟨_, s₅, hzo₂, h₅⟩ := bind_inv h₄
  obtain ⟨_, s₆, hzo₃, h₆⟩ := bind_inv h₅
  obtain ⟨lt', s₇, hget₁, h₇⟩ := bind_inv h₆
  obtain ⟨eq', s₈, hget₂, h₈⟩ := bind_inv h₇
  obtain ⟨gt', s₉, hget₃, h₉⟩ := bind_inv h₈
  obtain ⟨sum, s₁₀, hsum, h₁₀⟩ := bind_inv h₉
  obtain ⟨_, s₁₁, hout, hpure⟩ := bind_inv h₁₀
  obtain ⟨htriple, rfl⟩ := pure_inv hpure
  obtain ⟨rfl, hpair⟩ := Prod.mk.inj htriple
  obtain ⟨rfl, rfl⟩ := Prod.mk.inj hpair
  clear h h₁ h₂ h₃ h₄ h₅ h₆ h₇ h₈ h₉ h₁₀ hpure htriple hpair
  obtain ⟨hr₁, hk₁⟩ := makeMagic_run (T := fun _ => False) hlt hmagic₁
  obtain ⟨hr₂, hk₂⟩ := makeMagic_run (T := fun _ => False) heq hmagic₂
  obtain ⟨hr₃, hk₃⟩ := makeMagic_run (T := fun _ => False) hgt hmagic₃
  have hr : Run gadget s s₃ := (hr₁.trans hr₂).trans hr₃
  have hwf₃ := (hr.wellFormed hs).1
  have hA' : ∀ {t}, Run gadget s t → S → AllAligned R t := fun hrun hS => (hA hS).of_run hrun hs
  have hflag' : ∀ {t}, Run gadget s t → ∀ m ∈ [mlt, meq, mgt], S → Grounded t m :=
    fun hrun m hm hS => (hflag hS m hm).of_run hrun gadget_quiet hs
  obtain ⟨g₁, pos₁, hr₄, hlow₁, hrec₄, hm₁⟩ := makeZeroOrOtherGate_inv (R := R) hwf₃ (hA' hr)
    (hflag' hr mlt (by simp)) hzo₁
  have hwf₄ := (hr₄.wellFormed hwf₃).1
  obtain ⟨g₂, pos₂, hr₅, hlow₂, hrec₅, hm₂⟩ := makeZeroOrOtherGate_inv (R := R) hwf₄
    (hA' (hr.trans hr₄)) (hflag' (hr.trans hr₄) meq (by simp)) hzo₂
  have hwf₅ := (hr₅.wellFormed hwf₄).1
  obtain ⟨g₃, pos₃, hr₆, hlow₃, hrec₆, hm₃⟩ := makeZeroOrOtherGate_inv (R := R) hwf₅
    (hA' ((hr.trans hr₄).trans hr₅)) (hflag' ((hr.trans hr₄).trans hr₅) mgt (by simp)) hzo₃
  have hwf₆ := (hr₆.wellFormed hwf₅).1
  have hbefore : Run gadget s s₆ := ((hr.trans hr₄).trans hr₅).trans hr₆
  -- the gates of the flags are there, and reading them changes nothing
  have hlow₁' := line_lowest (hr₅.trans hr₆) hwf₄ id hlow₁
  have hlow₂' := line_lowest hr₆ hwf₅ id hlow₂
  obtain ⟨rfl, rfl⟩ := getGate_gadget hwf₆ hlow₁' hget₁
  obtain ⟨rfl, rfl⟩ := getGate_gadget hwf₆ hlow₂' hget₂
  obtain ⟨rfl, rfl⟩ := getGate_gadget hwf₆ hlow₃ hget₃
  have hterm : ∀ t ∈ [lt, eq, gt], ∃ m ∈ [mlt, meq, mgt], lowest s₉ m = some t := fun t ht => by
    simp only [List.mem_cons, List.not_mem_nil, or_false] at ht
    rcases ht with rfl | rfl | rfl
    · exact ⟨mlt, by simp, hlow₁'⟩
    · exact ⟨meq, by simp, hlow₂'⟩
    · exact ⟨mgt, by simp, hlow₃⟩
  have hfirm : S → ∀ t ∈ [lt, eq, gt], Firm R s₉ t := fun hS t ht => by
    obtain ⟨m, hm, hlow⟩ := hterm t ht
    exact (hflag' hbefore m hm hS).owns.firm (hA' hbefore hS) hlow
  obtain ⟨hr₁₀, hmsum⟩ := reduce_inv (S := S) (R := R) OpType.add_ne_constant hwf₆ (hA' hbefore)
    (by simp)
    (fun t ht => by
      obtain ⟨m, -, hlow⟩ := hterm t ht
      exact hwf₆.hasGate_lowest hlow)
    (fun hS t ht => (hfirm hS t ht).settled) (fun hS t ht => hfirm hS t (List.mem_of_head? ht)) hsum
  have hwf₁₀ := (hr₁₀.wellFormed hwf₆).1
  obtain ⟨hr₁₁, hrec₁₁⟩ := bindOutputConstant_inv (T := fun _ => False) hout
  have hend : Run gadget s₉ s' := (Run.of_building hr₁₀).trans hr₁₁
  refine ⟨_, hr.trans (((hr₄.trans hr₅).trans hr₆).trans hend),
    (hk₁.trans (hk₂.trans hk₃)).recorded.trans (hrec₄.trans (hrec₅.trans (hrec₆.trans
      (hr₁₀.sameRecords.recorded.trans hrec₁₁)))),
    line_lowest hend hwf₆ id hlow₁', line_lowest hend hwf₆ id hlow₂',
    line_lowest hend hwf₆ id hlow₃, fun d hd => ?_⟩
  have hone : ∀ {pos g : GatePosition} {t : PWSCircuitParser}, Run gadget t s' → WellFormed t →
      Means S t pos (fun val : GatePosition → R => val g * (val g - ((1 : ℤ) : R))) →
      Means S s' pos (fun val : GatePosition → R => val g * (val g - 1)) := by
    intro pos g t hrun hwf hm
    have hm' := hm.of_run hrun hwf
    exact ⟨hm'.there, fun hsound val hval => by rw [hm'.value hsound val hval, Int.cast_one]⟩
  simp only [List.nil_append, List.cons_append, List.mem_cons, List.not_mem_nil, or_false] at hd
  rcases hd with rfl | rfl | rfl | rfl
  · exact Or.inl ⟨rfl, _, by simp, hone ((hr₅.trans hr₆).trans hend) hwf₄ hm₁⟩
  · exact Or.inl ⟨rfl, _, by simp, hone (hr₆.trans hend) hwf₅ hm₂⟩
  · exact Or.inl ⟨rfl, _, by simp, hone hend hwf₆ hm₃⟩
  · refine Or.inr ⟨rfl, (hmsum.toMeans.of_run hr₁₁ hwf₁₀).there, fun hsound val hval => ?_⟩
    rw [hmsum.value hsound val (hval.of_run hr₁₁ hwf₁₀)]
    simp [OpType.fold, add_assoc]

/-- A product of a gate with the sum of two others, bound to zero. -/
theorem differenceGate_inv (hs : WellFormed s) (hA : S → AllAligned R s)
    {flag a b : GatePosition} (hflag : HasGate s flag) (ha : HasGate s a) (hb : HasGate s b)
    (hsettled : S → ∀ g ∈ [flag, a, b], Settled R s g) {u : Unit}
    (h : (makeGate .add a b >>= fun sum => makeGate .mul flag sum >>= fun prod =>
      bindOutputConstant prod (Text.ofInt 0)) s = some (u, s')) :
    ∃ pos, Run gadget s s' ∧ Recorded s s' [(pos, Text.ofInt 0)] ∧
      Means S s' pos (fun val : GatePosition → R => val flag * (val a + val b)) := by
  obtain ⟨sum, s₁, hsum, h₁⟩ := bind_inv h
  obtain ⟨prod, s₂, hprod, hout⟩ := bind_inv h₁
  obtain ⟨hr₁, hb₁⟩ := makeGate_inv (S := S) (R := R) OpType.add_ne_constant hs hA ha hb
    (fun _ hS => ⟨hsettled hS a (by simp), hsettled hS b (by simp)⟩) hsum
  obtain ⟨hwf₁, hgrows₁, -⟩ := hr₁.wellFormed hs
  obtain ⟨hr₂, hb₂⟩ := makeGate_inv (S := S) (R := R) OpType.mul_ne_constant hwf₁
    (fun hS => (hA hS).of_run hr₁ hs) (hgrows₁.hasGate hflag) hb₁.there
    (fun _ hS => ⟨(hsettled hS flag (by simp)).of_run hr₁ building_quiet hs hflag,
      hb₁.settled hS⟩) hprod
  have hwf₂ := (hr₂.wellFormed hwf₁).1
  obtain ⟨hr₃, hrec⟩ := bindOutputConstant_inv (T := fun _ => False) hout
  refine ⟨prod, (hr₁.of_building.trans hr₂.of_building).trans hr₃,
    (hr₁.sameRecords.trans hr₂.sameRecords).recorded.trans hrec,
    (hb₂.toMeans.of_run hr₃ hwf₂).there, fun hS val hval => ?_⟩
  have hval₂ := hval.of_run hr₃ hwf₂
  rw [hb₂.value hS val hval₂, hb₁.value hS val (hval₂.of_run hr₂ hwf₁)]
  rfl

/-- `parseDifferences`. -/
theorem parseDifferences_inv (hs : WellFormed s) (hA : S → AllAligned R s)
    {lt eq gt bits d12 d21 : GatePosition}
    (hthere : ∀ g ∈ [lt, eq, gt, bits, d12, d21], HasGate s g)
    (hsettled : S → ∀ g ∈ [lt, eq, gt, bits, d12, d21], Settled R s g)
    {u : Unit} (h : parseDifferences lt eq gt bits d12 d21 s = some (u, s')) :
    ∃ below above equal, Run gadget s s' ∧
      Recorded s s' [(below, Text.ofInt 0), (above, Text.ofInt 0), (equal, Text.ofInt 0)] ∧
      Means S s' below (fun val : GatePosition → R => val lt * (val bits + val d21)) ∧
      Means S s' above (fun val : GatePosition → R => val gt * (val bits + val d12)) ∧
      Means S s' equal (fun val : GatePosition → R => val eq * val d12) := by
  obtain ⟨sum₁, t₁, hsum₁, h₁⟩ := bind_inv h
  obtain ⟨prod₁, t₂, hprod₁, h₂⟩ := bind_inv h₁
  obtain ⟨u₁, s₁, hout₁, h₃⟩ := bind_inv h₂
  obtain ⟨sum₂, t₃, hsum₂, h₄⟩ := bind_inv h₃
  obtain ⟨prod₂, t₄, hprod₂, h₅⟩ := bind_inv h₄
  obtain ⟨u₂, s₂, hout₂, h₆⟩ := bind_inv h₅
  obtain ⟨equal, s₃, hequal, hout₃⟩ := bind_inv h₆
  clear h h₁ h₂ h₃ h₄ h₅ h₆
  -- the gates are there and settled after each product
  have hlater : ∀ {t}, Run gadget s t → ∀ g ∈ [lt, eq, gt, bits, d12, d21],
      HasGate t g ∧ (S → Settled R t g) := fun hrun g hg =>
    ⟨(hrun.wellFormed hs).2.1.hasGate (hthere g hg),
      fun hS => (hsettled hS g hg).of_run hrun gadget_quiet hs (hthere g hg)⟩
  obtain ⟨below, hr₁, hrec₁, hm₁⟩ := differenceGate_inv (S := S) (R := R) hs hA
    (hthere lt (by simp)) (hthere bits (by simp)) (hthere d21 (by simp))
    (fun hS g hg => hsettled hS g (by
      simp only [List.mem_cons, List.not_mem_nil, or_false] at hg ⊢
      tauto))
    ((bind_run hsum₁).trans ((bind_run hprod₁).trans hout₁))
  have hwf₁ := (hr₁.wellFormed hs).1
  obtain ⟨above, hr₂, hrec₂, hm₂⟩ := differenceGate_inv (S := S) (R := R) hwf₁
    (fun hS => (hA hS).of_run hr₁ hs) (hlater hr₁ gt (by simp)).1 (hlater hr₁ bits (by simp)).1
    (hlater hr₁ d12 (by simp)).1
    (fun hS g hg => (hlater hr₁ g (by
      simp only [List.mem_cons, List.not_mem_nil, or_false] at hg ⊢
      tauto)).2 hS)
    ((bind_run hsum₂).trans ((bind_run hprod₂).trans hout₂))
  have hwf₂ := (hr₂.wellFormed hwf₁).1
  have hr₁₂ : Run gadget s s₂ := hr₁.trans hr₂
  obtain ⟨hr₃, hb₃⟩ := makeGate_inv (S := S) (R := R) OpType.mul_ne_constant hwf₂
    (fun hS => (hA hS).of_run hr₁₂ hs) (hlater hr₁₂ eq (by simp)).1 (hlater hr₁₂ d12 (by simp)).1
    (fun _ hS => ⟨(hlater hr₁₂ eq (by simp)).2 hS, (hlater hr₁₂ d12 (by simp)).2 hS⟩) hequal
  have hwf₃ := (hr₃.wellFormed hwf₂).1
  obtain ⟨hr₄, hrec₄⟩ := bindOutputConstant_inv (T := fun _ => False) hout₃
  have hend : Run gadget s₂ s' := hr₃.of_building.trans hr₄
  exact ⟨below, above, equal, hr₁₂.trans hend,
    hrec₁.trans (hrec₂.trans (hr₃.sameRecords.recorded.trans hrec₄)),
    hm₁.of_run (hr₂.trans hend) hwf₁, hm₂.of_run hend hwf₂, hb₃.toMeans.of_run hr₄ hwf₃⟩

end Gadgets

/-! ## Names in a line -/

/-- The variable that a token names. -/
def Token.asVariable : Token → Option Primitive
  | .var type name => some ({ CPrimitive.new with varType := type, name := name } : CVar).toPrimitive
  | .word .mlt | .word .meq | .word .mgt => some ⟨.intermediate, 0⟩
  | _ => none

section Names

variable {s s' : PWSCircuitParser}

theorem enterVariable_inv (hs : WellFormed s) {type : VarType} {name : ℕ} {o : Option Primitive}
    (h : (addVariable type name >>= fun p => toPrimitive p >>= fun q => pure (some q)) s =
      some (o, s')) :
    Run building s s' ∧
      o = some ({ CPrimitive.new with varType := type, name := name } : CVar).toPrimitive := by
  obtain ⟨p, s₁, hadd, h₁⟩ := bind_inv h
  obtain ⟨q, s₂, hq, hpure⟩ := bind_inv h₁
  obtain ⟨rfl, rfl⟩ := pure_inv hpure
  have hrun : Run building s s₁ := .single (.addVariable _ _ p hadd)
  obtain ⟨rfl, rfl⟩ := toPrimitive_inv (hrun.wellFormed hs).1 hq
  exact ⟨hrun, by rw [addVariable_eq hadd]⟩

theorem parseVar_inv (token : Token) (hs : WellFormed s) {o : Option Primitive}
    (h : parseVar token s = some (o, s')) : Run building s s' ∧ o = token.asVariable := by
  cases token with
  | var type name => exact enterVariable_inv hs h
  | const text =>
      obtain ⟨rfl, rfl⟩ := pure_inv h
      exact ⟨.refl, rfl⟩
  | comment =>
      obtain ⟨rfl, rfl⟩ := pure_inv h
      exact ⟨.refl, rfl⟩
  | word w =>
      cases w with
      | mlt | meq | mgt => exact enterVariable_inv hs h
      | m => exact (failure_inv h).elim
      | _ =>
          obtain ⟨rfl, rfl⟩ := pure_inv h
          exact ⟨.refl, rfl⟩

theorem parsePrimitive_inv (hs : WellFormed s) {token : Token} {o : Option Primitive}
    (h : parsePrimitive token s = some (o, s')) :
    Run building s s' ∧ (o = token.asVariable ∨
      token.asVariable = none ∧ ∃ p, o = some p ∧ p.isConstant = true) := by
  cases token with
  | const text =>
      rw [parsePrimitive] at h
      by_cases htext : mpqSetStr text = true
      · simp only [htext, ↓reduceIte] at h
        obtain ⟨p, s₁, hadd, hpure⟩ := bind_inv h
        obtain ⟨rfl, rfl⟩ := pure_inv hpure
        exact ⟨.single (.addConstant _ p hadd),
          Or.inr ⟨rfl, p, rfl, (addConstant_isConst hadd).isConstant⟩⟩
      · simp only [htext, Bool.false_eq_true, ↓reduceIte] at h
        exact (failure_inv h).elim
  | var type name =>
      obtain ⟨hrun, ho⟩ := parseVar_inv (.var type name) hs h
      exact ⟨hrun, Or.inl ho⟩
  | comment =>
      obtain ⟨hrun, ho⟩ := parseVar_inv .comment hs h
      exact ⟨hrun, Or.inl ho⟩
  | word w =>
      obtain ⟨hrun, ho⟩ := parseVar_inv (.word w) hs h
      exact ⟨hrun, Or.inl ho⟩

/-- The primitive of a token that has to name one. -/
theorem requirePrimitive_inv (hs : WellFormed s) {token : Token} {p : Primitive}
    (h : requirePrimitive token s = some (p, s')) :
    Run building s s' ∧ WellFormed s' ∧
      (token.asVariable = some p ∨ token.asVariable = none ∧ p.isConstant = true) := by
  obtain ⟨o, s₁, hparse, hmatch⟩ := bind_inv h
  obtain ⟨hrun, ho⟩ := parsePrimitive_inv hs hparse
  cases o with
  | none => exact (failure_inv hmatch).elim
  | some q =>
      obtain ⟨rfl, rfl⟩ := pure_inv hmatch
      refine ⟨hrun, (hrun.wellFormed hs).1, ?_⟩
      rcases ho with ho | ⟨hnone, r, hr, hconst⟩
      · exact Or.inl ho.symm
      · obtain rfl := Option.some.inj hr
        exact Or.inr ⟨hnone, hconst⟩

/-- The token names the primitive: a variable, or the constant of a text. -/
def Token.Names (token : Token) (s : PWSCircuitParser) (p : Primitive) : Prop :=
  token.asVariable = some p ∨ ∃ text, token = .const text ∧ IsConst s text p

theorem requirePrimitive_names (hs : WellFormed s) {token : Token} {p : Primitive}
    (h : requirePrimitive token s = some (p, s')) : token.Names s' p := by
  obtain ⟨o, s₁, hparse, hmatch⟩ := bind_inv h
  cases o with
  | none => exact (failure_inv hmatch).elim
  | some q =>
      obtain ⟨rfl, rfl⟩ := pure_inv hmatch
      cases token with
      | const text =>
          rw [parsePrimitive] at hparse
          by_cases htext : mpqSetStr text = true
          · simp only [htext, ↓reduceIte] at hparse
            obtain ⟨p, s₁, hadd, hpure⟩ := bind_inv hparse
            obtain ⟨heq, rfl⟩ := pure_inv hpure
            obtain rfl := Option.some.inj heq
            exact Or.inr ⟨text, rfl, addConstant_isConst hadd⟩
          · simp only [htext, Bool.false_eq_true, ↓reduceIte] at hparse
            exact (failure_inv hparse).elim
      | var type name => exact Or.inl (parseVar_inv (.var type name) hs hparse).2.symm
      | comment => exact Or.inl (parseVar_inv .comment hs hparse).2.symm
      | word w => exact Or.inl (parseVar_inv (.word w) hs hparse).2.symm

/-- A constant is settled in a later state if it was or was not there. -/
theorem settledAt_const {R : Type} [CommRing R] {P : Policy} (hs : WellFormed s)
    (hrun : Run P s s') (hP : P.Quiet) {text : Text} {p : Primitive} (hp : IsConst s' text p)
    (h : ∀ q, IsConst s text q → SettledAt R s q) : SettledAt R s' p := by
  have hbefore : SettledAt R s p := fun g hg => by
    obtain ⟨cp, hobject, -⟩ := lowest_eq_some.mp hg
    exact h p (hp.of_object (hrun.wellFormed hs).2.2 hobject) g hg
  exact hbefore.of_run hrun hP hs

theorem Token.Names.settledAt {R : Type} [CommRing R] {token : Token} {p : Primitive}
    (hp : token.Names s' p) (hs : WellFormed s) (hrun : Run building s s')
    (h : ∀ q, token.Names s q → SettledAt R s q) : SettledAt R s' p := by
  rcases hp with hvar | ⟨text, rfl, hconst⟩
  · exact (h p (Or.inl hvar)).of_run hrun building_quiet hs
  · exact settledAt_const hs hrun building_quiet hconst fun q hq => h q (Or.inr ⟨text, rfl, hq⟩)

theorem requireInt_inv {token : Token} {n : ℤ} (h : requireInt token s = some (n, s')) :
    s' = s ∧ ∃ text, token = .const text ∧ mpzSetStr text = some n := by
  cases token with
  | const text =>
      cases hz : mpzSetStr text with
      | none =>
          simp only [requireInt, hz] at h
          exact (failure_inv h).elim
      | some k =>
          simp only [requireInt, hz] at h
          obtain ⟨rfl, rfl⟩ := pure_inv h
          exact ⟨rfl, text, rfl, hz⟩
  | var _ _ => exact (failure_inv h).elim
  | word _ => exact (failure_inv h).elim
  | comment => exact (failure_inv h).elim

theorem asVariable_isVariable {token : Token} {p : Primitive} (h : token.asVariable = some p) :
    p.isVariable = true := by
  cases token with
  | var type name =>
      obtain rfl := Option.some.inj h
      exact (named_toPrimitive _).2
  | const text => exact Option.noConfusion rfl (heq_of_eq h)
  | comment => exact Option.noConfusion rfl (heq_of_eq h)
  | word w =>
      cases w <;> first
        | (obtain rfl := Option.some.inj h; rfl)
        | exact Option.noConfusion rfl (heq_of_eq h)

end Names

/-! ## Polynomials -/

section Polynomials

variable {s s' : PWSCircuitParser}

/-- The calls that build gates, without what the gates carry. -/
theorem reduce_run {op : OpType} (hop : op ≠ .constant) (hs : WellFormed s)
    {terms : List GatePosition} {pos : GatePosition} (hterms : ∀ t ∈ terms, HasGate s t)
    (h : reduce op terms s = some (pos, s')) : Run building s s' ∧ HasGate s' pos := by
  cases terms with
  | nil =>
      exact reduce_nil_inv hs h
  | cons g gs =>
      obtain ⟨hrun, hm⟩ := reduce_inv (R := ℤ) hop hs False.elim (List.cons_ne_nil g gs) hterms
        False.elim False.elim h
      exact ⟨hrun, hm.there⟩

theorem makeGate_run {op : OpType} (hop : op ≠ .constant) (hs : WellFormed s)
    {in1 in2 pos : GatePosition} (h1 : HasGate s in1) (h2 : HasGate s in2)
    (h : makeGate op in1 in2 s = some (pos, s')) : Run building s s' ∧ HasGate s' pos := by
  obtain ⟨hrun, hm⟩ := makeGate_inv (R := ℤ) hop hs False.elim h1 h2 (fun _ => False.elim) h
  exact ⟨hrun, hm.there⟩

theorem negateGate_run (negate : Bool) (hs : WellFormed s) {g pos : GatePosition}
    (hg : HasGate s g)
    (h : (if negate then negateGate g else pure g : ParserM GatePosition) s = some (pos, s')) :
    Run building s s' ∧ HasGate s' pos := by
  cases negate with
  | true =>
      obtain ⟨hrun, hm⟩ := negateGate_inv (R := ℤ) hs False.elim hg h
      exact ⟨hrun, hm.there⟩
  | false =>
      obtain ⟨rfl, rfl⟩ := pure_inv h
      exact ⟨.refl, hg⟩

/-- The gate of a parsed part, if there is one. -/
def GateThere (s : PWSCircuitParser) (o : Option GatePosition) : Prop := ∀ g, o = some g → HasGate s g

/-- The end of a sum or of a product. -/
def closeTerms (op : OpType) (terms : List GatePosition) (pws : List Token) :
    ParserM (Option GatePosition × List Token) :=
  match terms with
  | [] => pure (none, pws)
  | [g] => pure (some g, pws)
  | _ => do
      let g ← reduce op terms
      pure (some g, pws)

theorem closeTerms_run {op : OpType} (hop : op ≠ .constant) (hs : WellFormed s)
    {terms : List GatePosition} {pws rest : List Token} {o : Option GatePosition}
    (hterms : ∀ t ∈ terms, HasGate s t)
    (h : closeTerms op terms pws s = some ((o, rest), s')) :
    Run building s s' ∧ GateThere s' o := by
  match terms, hterms, h with
  | [], _, h =>
      obtain ⟨hpair, rfl⟩ := pure_inv h
      obtain ⟨rfl, -⟩ := Prod.mk.inj hpair
      exact ⟨.refl, fun _ h => Option.noConfusion rfl (heq_of_eq h)⟩
  | [g], hterms, h =>
      obtain ⟨hpair, rfl⟩ := pure_inv h
      obtain ⟨rfl, -⟩ := Prod.mk.inj hpair
      exact ⟨.refl, fun g' h => Option.some.inj h ▸ hterms g List.mem_cons_self⟩
  | g :: g' :: gs, hterms, h =>
      obtain ⟨pos, s₁, hreduce, hpure⟩ := bind_inv h
      obtain ⟨hpair, rfl⟩ := pure_inv hpure
      obtain ⟨rfl, -⟩ := Prod.mk.inj hpair
      obtain ⟨hrun, hthere⟩ := reduce_run hop hs hterms hreduce
      exact ⟨hrun, fun g' h => Option.some.inj h ▸ hthere⟩

theorem forall_mem_append {s : PWSCircuitParser} {terms more : List GatePosition}
    (hterms : ∀ t ∈ terms, HasGate s t) (hmore : ∀ t ∈ more, HasGate s t) :
    ∀ t ∈ terms ++ more, HasGate s t := fun t ht =>
  (List.mem_append.mp ht).elim (hterms t) (hmore t)

theorem ite_bind {α β : Type} (c : Bool) (m m' : ParserM α) (k : α → ParserM β) :
    (if c = true then m >>= k else m' >>= k) = (if c = true then m else m') >>= k := by
  cases c <;> rfl

/-- The sign before a star. -/
def negateLast (negate : Bool) (vars : List GatePosition) : ParserM (List GatePosition) :=
  if negate then
    match vars.getLast? with
    | some g => do
        let g ← negateGate g
        pure (vars.dropLast ++ [g])
    | none => pure vars
  else pure vars

theorem negateLast_bind {β : Type} (negate : Bool) (vars : List GatePosition)
    (k : List GatePosition → ParserM β) :
    (if negate = true then
      match vars.getLast? with
      | some g => negateGate g >>= fun g => pure (vars.dropLast ++ [g]) >>= k
      | none => pure vars >>= k
    else pure vars >>= k) = negateLast negate vars >>= k := by
  cases negate with
  | false => rfl
  | true =>
      rw [negateLast]
      cases vars.getLast? with
      | none => rfl
      | some g => simp only [↓reduceIte, bind_assoc]

theorem negateLast_run (hs : WellFormed s) {negate : Bool} {vars vars' : List GatePosition}
    (hvars : ∀ t ∈ vars, HasGate s t) (h : negateLast negate vars s = some (vars', s')) :
    Run building s s' ∧ ∀ t ∈ vars', HasGate s' t := by
  rw [negateLast] at h
  cases negate with
  | false =>
      obtain ⟨rfl, rfl⟩ := pure_inv h
      exact ⟨.refl, hvars⟩
  | true =>
      simp only [↓reduceIte] at h
      cases hlast : vars.getLast? with
      | none =>
          simp only [hlast] at h
          obtain ⟨rfl, rfl⟩ := pure_inv h
          exact ⟨.refl, hvars⟩
      | some g =>
          simp only [hlast] at h
          obtain ⟨g', s₁, hneg, hpure⟩ := bind_inv h
          obtain ⟨rfl, rfl⟩ := pure_inv hpure
          obtain ⟨hrun, hthere⟩ := negateGate_run true hs
            (hvars g (List.mem_of_getLast? hlast)) hneg
          obtain ⟨-, hgrows, -⟩ := hrun.wellFormed hs
          exact ⟨hrun, forall_mem_append
            (fun t ht => hgrows.hasGate (hvars t (List.mem_of_mem_dropLast ht)))
            fun t ht => List.mem_singleton.mp ht ▸ hthere⟩

/-- With this fuel, parsing a polynomial builds gates. -/
def BuildsPoly (fuel : ℕ) : Prop :=
  ∀ {finish : Word} {terms : List GatePosition} {pws rest : List Token}
    {o : Option GatePosition} {s s' : PWSCircuitParser}, WellFormed s →
    (∀ t ∈ terms, HasGate s t) → parsePoly finish fuel terms pws s = some ((o, rest), s') →
    Run building s s' ∧ GateThere s' o

/-- With this fuel, parsing a term of a polynomial builds gates. -/
def BuildsTerm (fuel : ℕ) : Prop :=
  ∀ {vars : List GatePosition} {negate : Bool} {pws rest : List Token}
    {o : Option GatePosition} {s s' : PWSCircuitParser}, WellFormed s →
    (∀ t ∈ vars, HasGate s t) → parsePolyTerm fuel vars negate pws s = some ((o, rest), s') →
    Run building s s' ∧ GateThere s' o

section Steps

variable {fuel : ℕ} {vars : List GatePosition} {negate : Bool} {token : Token}
  {pws rest : List Token} {o : Option GatePosition}

/-- The rest of a term behind one of its factors. -/
theorem BuildsTerm.factor (hterm : BuildsTerm fuel) (hs : WellFormed s)
    (hvars : ∀ t ∈ vars, HasGate s t) {g : GatePosition} (hg : HasGate s g)
    (h : (if negate then negateGate g >>= fun g => parsePolyTerm fuel (vars ++ [g]) false pws
      else pure g >>= fun g => parsePolyTerm fuel (vars ++ [g]) false pws) s =
        some ((o, rest), s')) :
    Run building s s' ∧ GateThere s' o := by
  rw [ite_bind] at h
  obtain ⟨g', s₁, hnegate, h₁⟩ := bind_inv h
  obtain ⟨hrun₁, hthere₁⟩ := negateGate_run _ hs hg hnegate
  obtain ⟨hwf₁, hgrows₁, -⟩ := hrun₁.wellFormed hs
  obtain ⟨hrun₂, hthere₂⟩ := hterm hwf₁
    (forall_mem_append (fun t ht => hgrows₁.hasGate (hvars t ht))
      fun t ht => List.mem_singleton.mp ht ▸ hthere₁) h₁
  exact ⟨hrun₁.trans hrun₂, hthere₂⟩

/-- A term that starts with a primitive, or with a word that is none. -/
theorem BuildsTerm.primitive (hterm : BuildsTerm fuel) (hs : WellFormed s)
    (hvars : ∀ t ∈ vars, HasGate s t)
    {next : Option Primitive → ParserM (Option GatePosition × List Token)}
    (h : (parsePrimitive token >>= next) s = some ((o, rest), s'))
    (hnone : next none = pure (none, pws))
    (hsome : ∀ p, next (some p) = getGate p 0 >>= fun g =>
      if negate then negateGate g >>= fun g => parsePolyTerm fuel (vars ++ [g]) false pws
      else pure g >>= fun g => parsePolyTerm fuel (vars ++ [g]) false pws) :
    Run building s s' ∧ GateThere s' o := by
  obtain ⟨p, s₁, hparse, h₁⟩ := bind_inv h
  obtain ⟨hrun₁, -⟩ := parsePrimitive_inv hs hparse
  obtain ⟨hwf₁, hgrows₁, -⟩ := hrun₁.wellFormed hs
  cases p with
  | none =>
      rw [hnone] at h₁
      obtain ⟨hpair, rfl⟩ := pure_inv h₁
      obtain ⟨rfl, -⟩ := Prod.mk.inj hpair
      exact ⟨hrun₁, fun _ h => Option.noConfusion rfl (heq_of_eq h)⟩
  | some p =>
      rw [hsome] at h₁
      obtain ⟨g, s₂, hget, h₂⟩ := bind_inv h₁
      obtain ⟨hrun₂, hwf₂, -, hthere₂⟩ := getGate_building hwf₁ hget
      have hbuilt : Run building s s₂ := hrun₁.trans hrun₂
      obtain ⟨-, hgrows, -⟩ := hbuilt.wellFormed hs
      obtain ⟨hrun₃, hthere₃⟩ :=
        hterm.factor hwf₂ (fun t ht => hgrows.hasGate (hvars t ht)) hthere₂ h₂
      exact ⟨hbuilt.trans hrun₃, hthere₃⟩

theorem parsePoly_step (ihPoly : BuildsPoly fuel) (ihTerm : BuildsTerm fuel) :
    BuildsPoly (fuel + 1) := by
  intro finish terms pws rest o s s' hs hterms h
  cases pws with
  | nil => exact (failure_inv h).elim
  | cons token pws =>
      rw [parsePoly.eq_def] at h
      simp only at h
      by_cases hplus : token = .word .plus
      · simp only [hplus, ↓reduceIte] at h
        by_cases hempty : terms.isEmpty = true
        · simp only [hempty, ↓reduceIte] at h
          exact (failure_inv h).elim
        · simp only [hempty, Bool.false_eq_true, ↓reduceIte] at h
          exact ihPoly hs hterms h
      · simp only [hplus, ↓reduceIte] at h
        by_cases hfinish : token = .word finish
        · simp only [hfinish, ↓reduceIte] at h
          change closeTerms .add terms pws s = _ at h
          exact closeTerms_run (by decide) hs hterms h
        · simp only [hfinish, ↓reduceIte] at h
          obtain ⟨⟨term, pws₁⟩, s₁, hterm, h₁⟩ := bind_inv h
          obtain ⟨hrun₁, hthere₁⟩ := ihTerm hs (by simp) hterm
          obtain ⟨hwf₁, hgrows₁, -⟩ := hrun₁.wellFormed hs
          obtain ⟨hrun₂, hthere₂⟩ := ihPoly hwf₁
            (forall_mem_append (fun t ht => hgrows₁.hasGate (hterms t ht))
              fun t ht => hthere₁ t (Option.mem_toList.mp ht)) h₁
          exact ⟨hrun₁.trans hrun₂, hthere₂⟩

theorem parsePolyTerm_step (ihPoly : BuildsPoly fuel) (ihTerm : BuildsTerm fuel) :
    BuildsTerm (fuel + 1) := by
  intro vars negate pws rest o s s' hs hvars h
  cases pws with
  | nil => exact (failure_inv h).elim
  | cons token pws =>
      rw [parsePolyTerm.eq_def] at h
      simp only at h
      have hclose : closeTerms .mul vars (token :: pws) s = some ((o, rest), s') →
          Run building s s' ∧ GateThere s' o := closeTerms_run (by decide) hs hvars
      cases token with
      | var type name => exact ihTerm.primitive hs hvars h rfl fun _ => rfl
      | const text => exact ihTerm.primitive hs hvars h rfl fun _ => rfl
      | comment => exact ihTerm.primitive hs hvars h rfl fun _ => rfl
      | word w =>
          cases w with
          | polyEnd | rightParen => exact hclose h
          | minus => exact ihTerm hs hvars h
          | plus =>
              by_cases hempty : vars.isEmpty = true
              · simp only [hempty, ↓reduceIte] at h
                exact (failure_inv h).elim
              · simp only [hempty, Bool.false_eq_true, ↓reduceIte] at h
                exact hclose h
          | leftParen =>
              obtain ⟨⟨gate, pws₁⟩, s₁, hinner, h₁⟩ := bind_inv h
              obtain ⟨hrun₁, hthere₁⟩ := ihPoly hs (by simp) hinner
              obtain ⟨hwf₁, hgrows₁, -⟩ := hrun₁.wellFormed hs
              cases gate with
              | none =>
                  -- the bracket was empty, and ends the term
                  obtain ⟨hpair, rfl⟩ := pure_inv h₁
                  obtain ⟨rfl, -⟩ := Prod.mk.inj hpair
                  exact ⟨hrun₁, fun _ h => Option.noConfusion rfl (heq_of_eq h)⟩
              | some g =>
                  obtain ⟨hrun₂, hthere₂⟩ := ihTerm.factor hwf₁
                    (fun t ht => hgrows₁.hasGate (hvars t ht)) (hthere₁ g rfl) h₁
                  exact ⟨hrun₁.trans hrun₂, hthere₂⟩
          | times =>
              by_cases hempty : vars.isEmpty = true
              · simp only [hempty, ↓reduceIte] at h
                exact (failure_inv h).elim
              · simp only [hempty, Bool.false_eq_true, ↓reduceIte] at h
                obtain ⟨vars', s₁, hsign, h₁⟩ := bind_inv
                  ((congrFun (negateLast_bind negate vars fun vars =>
                    parsePolyTerm fuel vars false pws) s).symm.trans h)
                obtain ⟨hrun₁, hvars'⟩ := negateLast_run hs hvars hsign
                obtain ⟨hwf₁, -, -⟩ := hrun₁.wellFormed hs
                obtain ⟨hrun₂, hthere₂⟩ := ihTerm hwf₁ hvars' h₁
                exact ⟨hrun₁.trans hrun₂, hthere₂⟩
          | _ => exact ihTerm.primitive hs hvars h rfl fun _ => rfl

end Steps

/-- Parsing a polynomial, or a term of one, builds gates. -/
theorem parsePoly_run (fuel : ℕ) : BuildsPoly fuel ∧ BuildsTerm fuel := by
  induction fuel with
  | zero => exact ⟨fun _ _ h => (failure_inv h).elim, fun _ _ h => (failure_inv h).elim⟩
  | succ fuel ih => exact ⟨parsePoly_step ih.1 ih.2, parsePolyTerm_step ih.1 ih.2⟩

end Polynomials

/-! ## Lines without an operation -/

/-- The policy of any line. -/
abbrev anyLine : Policy := lineCalls fun _ => True

section PlainLines

variable {s s' : PWSCircuitParser}

theorem Run.of_line {T : Primitive → Prop} (h : Run (lineCalls T) s s') : Run anyLine s s' := by
  refine h.mono fun t c hallowed => ?_
  cases c with
  | bind p gate => exact ⟨trivial, hallowed.2⟩
  | magic p => exact hallowed
  | record => trivial

/-- A line, or a part of one, that records no operation. -/
structure PlainLine (T : Primitive → Prop) (s s' : PWSCircuitParser) : Prop where
  run : Run (lineCalls T) s s'
  ops : s'.magicOps = s.magicOps

variable {T : Primitive → Prop}

theorem PlainLine.trans {s₁ : PWSCircuitParser} (h : PlainLine T s s₁) (h' : PlainLine T s₁ s') :
    PlainLine T s s' := ⟨h.run.trans h'.run, h'.ops.trans h.ops⟩

theorem PlainLine.of_building (h : Run building s s') : PlainLine T s s' :=
  ⟨h.of_building, h.sameRecords.ops⟩

theorem bindVariable_plain {p : Primitive} {g : GatePosition} {u : Unit} (hT : T p)
    (hp : p.isVariable = true) (h : bindVariable p g s = some (u, s')) : PlainLine T s s' :=
  ⟨.single (.bindVariable p g ⟨hT, hp⟩ h), (keeps_bindVariable _ _ _ _ _ h).ops⟩

theorem bindOutputConstant_plain {pos : GatePosition} {text : Text} {u : Unit}
    (h : bindOutputConstant pos text s = some (u, s')) : PlainLine T s s' := by
  obtain ⟨hrun, hrecorded⟩ := bindOutputConstant_inv (T := T) h
  exact ⟨hrun, hrecorded.ops⟩

/-- A line `P`. -/
theorem parsePolyConstraint_run (hs : WellFormed s) {pws rest : List Token}
    (h : parsePolyConstraint pws s = some (rest, s')) : PlainLine (fun _ => True) s s' := by
  unfold parsePolyConstraint at h
  split at h
  · next token pws =>
    obtain ⟨p, s₁, hparse, h₁⟩ := bind_inv h
    obtain ⟨hrun₁, -⟩ := parsePrimitive_inv hs hparse
    have hwf₁ := (hrun₁.wellFormed hs).1
    cases p with
    | none => exact (failure_inv h₁).elim
    | some p =>
        obtain ⟨⟨gate, pws'⟩, s₂, hpoly, h₂⟩ := bind_inv h₁
        obtain ⟨hrun₂, hthere⟩ := (parsePoly_run _).1 hwf₁ (by simp) hpoly
        have hbuilt : PlainLine (fun _ => True) s s₂ := .of_building (hrun₁.trans hrun₂)
        cases gate with
        | none =>
            obtain ⟨-, rfl⟩ := pure_inv h₂
            exact hbuilt
        | some g =>
            by_cases hp : p.isVariable = true
            · simp only [hp, ↓reduceIte] at h₂
              obtain ⟨u, s₃, hbind, hpure⟩ := bind_inv h₂
              obtain ⟨-, rfl⟩ := pure_inv hpure
              exact hbuilt.trans (bindVariable_plain trivial hp hbind)
            · simp only [hp, Bool.false_eq_true, ↓reduceIte] at h₂
              obtain ⟨text, s₃, htext, h₃⟩ := bind_inv h₂
              obtain ⟨u, s₄, hout, hpure⟩ := bind_inv h₃
              obtain ⟨-, rfl⟩ := pure_inv hpure
              obtain ⟨c, -, heq⟩ := Option.map_eq_some_iff.mp htext
              obtain ⟨-, rfl⟩ := Prod.mk.inj heq
              exact hbuilt.trans (bindOutputConstant_plain hout)
  · exact (failure_inv h).elim

/-- A line `/`. -/
theorem parseDivide_run (hs : WellFormed s) {prime : ℤ} {pws rest : List Token}
    (h : parseDivide prime pws s = some (rest, s')) : PlainLine (fun _ => True) s s' := by
  unfold parseDivide at h
  split at h
  · next token dividend text pws =>
    obtain ⟨p, s₁, hp, h₁⟩ := bind_inv h
    obtain ⟨hrun₁, hwf₁, -⟩ := requirePrimitive_inv hs hp
    by_cases hvar : p.isVariable = true
    · simp only [hvar, Bool.not_true, Bool.false_eq_true, ↓reduceIte] at h₁
      obtain ⟨o, s₂, hparse, h₂⟩ := bind_inv h₁
      obtain ⟨hrun₂, -⟩ := parseVar_inv _ hwf₁ hparse
      have hwf₂ := (hrun₂.wellFormed hwf₁).1
      cases o with
      | none =>
          obtain ⟨_, _, hfail, -⟩ := bind_inv h₂
          exact (failure_inv hfail).elim
      | some q =>
          obtain ⟨q', s₃, hpure, h₃⟩ := bind_inv h₂
          obtain ⟨rfl, rfl⟩ := pure_inv hpure
          cases hz : mpzSetStr text with
          | none =>
              simp only [hz] at h₃
              exact (failure_inv h₃).elim
          | some divisor =>
              simp only [hz] at h₃
              obtain ⟨inverse, s₄, hconst, h₄⟩ := bind_inv h₃
              obtain ⟨divisorGate, s₅, hdivisor, h₅⟩ := bind_inv h₄
              obtain ⟨dividendGate, s₆, hdividend, h₆⟩ := bind_inv h₅
              obtain ⟨quotientGate, s₇, hquotient, h₇⟩ := bind_inv h₆
              obtain ⟨u, s₈, hbind, hlast⟩ := bind_inv h₇
              obtain ⟨-, rfl⟩ := pure_inv hlast
              -- the constant is the inverse of the divisor, and the gate multiplies with it
              have hrun₄ : Run building s₃ s₄ := .single (.addConstant _ inverse hconst)
              have hwf₄ := (hrun₄.wellFormed hwf₂).1
              obtain ⟨hrun₅, hwf₅, -, hthere₅⟩ := getGate_building hwf₄ hdivisor
              obtain ⟨hrun₆, hwf₆, -, hthere₆⟩ := getGate_building hwf₅ hdividend
              obtain ⟨hrun₇, hthere₇⟩ := makeGate_run (by decide) hwf₆ hthere₆
                ((hrun₆.wellFormed hwf₅).2.1.hasGate hthere₅) hquotient
              have hbuilt : Run building s s₇ :=
                ((((hrun₁.trans hrun₂).trans hrun₄).trans hrun₅).trans hrun₆).trans hrun₇
              exact (PlainLine.of_building hbuilt).trans (bindVariable_plain trivial hvar hbind)
    · simp only [hvar, Bool.not_false, ↓reduceIte] at h₁
      obtain ⟨_, _, hfail, -⟩ := bind_inv h₁
      exact (failure_inv hfail).elim
  · exact (failure_inv h).elim

end PlainLines

end Pepper.Cmtgkr.Pws
