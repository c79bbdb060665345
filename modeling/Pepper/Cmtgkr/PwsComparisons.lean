import Pepper.Cmtgkr.PwsLines

/-!
# Comparison lines

The lines `<I`, `<F` and `!=`: the magic variables they set, their operands and their targets
(`opLine?`), and what they record: an operation with the sizes of the layers at the start of the
line as its guard (`parseOpLine_recorded`). `parseLessThanInt_inv` also says what the gates of `<I`
carry that are bound to constants.
-/

set_option autoImplicit false

open Pepper.Common.Gmp Pepper.Cmtgkr.Env Pepper.Cmtgkr.Layer

namespace Pepper.Cmtgkr.Pws

/-! ## The line of a comparison of integers -/

/-- The words of a line `<I` behind its first one. -/
def lessThanIntTokens (n0 n mlt meq mgt x1 x2 y : Token) (rest : List Token) : List Token :=
  .word .bit0 :: n0 :: .word .numBits :: n :: .word .mlt :: mlt :: .word .meq :: meq ::
    .word .mgt :: mgt :: .word .x1 :: x1 :: .word .x2 :: x2 :: .word .y :: y :: rest

/-- The number in a word. -/
def Token.number : Token → ℤ
  | .const text => (mpzSetStr text).getD 0
  | _ => 0

/-- What a line `<I` needs for its gates to carry what they should: a bit, gates that the bits and
the flags own, and gates of the operands and of the power of two that are settled. -/
structure LessThanReady (R : Type) [CommRing R] (s : PWSCircuitParser) (base nBits : ℕ)
    (flags : List Primitive) (operand : Primitive → Prop) : Prop where
  aligned : AllAligned R s
  positive : 0 < nBits
  bits : ∀ i < nBits, Grounded s ⟨.intermediate, base + i⟩
  flags : ∀ m ∈ flags, Grounded s m
  operands : ∀ q, operand q → SettledAt R s q
  power : ∀ q, IsConst s (Text.ofInt (-(2 ^ nBits))) q → SettledAt R s q

/-- The gates that a line `<I` binds to constants: one for each bit, one for each flag and one for
their sum, and the three products. -/
def LessThanOutputs (S : Prop) (R : Type) [CommRing R] (s s' : PWSCircuitParser) (nBits : ℕ)
    (lt eq gt g1 g2 : GatePosition) (nis : List GatePosition) : Prop :=
  ∃ bits flags posLt posGt posEq,
    s'.outConstantDesc = s.outConstantDesc ++ (bits ++ (flags ++
      [(posLt, Text.ofInt 0), (posGt, Text.ofInt 0), (posEq, Text.ofInt 0)])) ∧
    (∀ d ∈ bits, d.2 = Text.ofInt 0 ∧ ∃ i g, nis[i]? = some g ∧
      Means S s' d.1 (fun val : GatePosition → R => val g * (val g - 2 ^ i))) ∧
    (∀ d ∈ flags, d.2 = Text.ofInt 0 ∧ (∃ g ∈ [lt, eq, gt],
        Means S s' d.1 (fun val : GatePosition → R => val g * (val g - 1))) ∨
      d.2 = Text.ofInt 1 ∧
        Means S s' d.1 (fun val : GatePosition → R => val lt + val eq + val gt)) ∧
    Means S s' posLt (fun val : GatePosition → R =>
      val lt * ((nis.map val).sum - 2 ^ nBits + (val g2 - val g1))) ∧
    Means S s' posGt (fun val : GatePosition → R =>
      val gt * ((nis.map val).sum - 2 ^ nBits + (val g1 - val g2))) ∧
    Means S s' posEq (fun val : GatePosition → R => val eq * (val g1 - val g2))

/-- What a line `<I` leaves: the operation and, when the operands are not the target, the gates that
are bound to constants. -/
structure LessThanGates (S : Prop) (R : Type) [CommRing R] (s s' : PWSCircuitParser)
    (base nBits : ℕ) (plt peq pgt p1 p2 py : Primitive) (lt eq gt g1 g2 : GatePosition)
    (nis : List GatePosition) : Prop where
  run : Run (lineCalls (· = py)) s s'
  ops : s'.magicOps =
    s.magicOps ++ [(s.circuitDesc.map List.length, .lessThanInt [lt, eq, gt] nis g1 g2)]
  length : nis.length = nBits
  bits : ∀ i g, nis[i]? = some g → ⟨.intermediate, base + i⟩ ≠ py →
    lowest s' ⟨.intermediate, base + i⟩ = some g
  below : plt ≠ py → lowest s' plt = some lt
  equal : peq ≠ py → lowest s' peq = some eq
  above : pgt ≠ py → lowest s' pgt = some gt
  operand1 : lowest s' p1 = some g1
  operand2 : lowest s' p2 = some g2
  target : lowest s' py = some lt
  outputs : p1 ≠ py → p2 ≠ py → LessThanOutputs S R s s' nBits lt eq gt g1 g2 nis

section LessThanInt

variable {R : Type} [CommRing R] {S : Prop} {s s' : PWSCircuitParser}

/-- A token that has to be a variable. -/
theorem requireVariable_inv (hs : WellFormed s) {token : Token} {p q : Primitive}
    (hq : token.asVariable = some q) (h : requirePrimitive token s = some (p, s')) :
    p = q ∧ Run building s s' ∧ WellFormed s' := by
  obtain ⟨hrun, hwf, hp | ⟨hp, -⟩⟩ := requirePrimitive_inv hs h
  · exact ⟨Option.some.inj (hp.symm.trans hq), hrun, hwf⟩
  · rw [hq] at hp
    cases hp

theorem addMagicOp_inv {T : Primitive → Prop} {op : MagicVarOperation} {guard : List ℕ} {u : Unit}
    (h : addMagicOp op guard s = some (u, s')) :
    Run (lineCalls T) s s' ∧ SameNames s s' ∧ s'.outConstantDesc = s.outConstantDesc ∧
      s'.magicOps = s.magicOps ++ [(guard, op)] := by
  have hs' := modify_inv h
  have hnames : SameNames s s' := by
    rw [hs']
    exact ⟨rfl, rfl, rfl⟩
  exact ⟨.single (.record trivial hnames (by rw [hs'])), hnames, by rw [hs'], by rw [hs']⟩

/-- The names of the line do not change it. -/
theorem LessThanReady.of_run {base nBits : ℕ} {flags : List Primitive}
    {operand operand' : Primitive → Prop} (h : LessThanReady R s base nBits flags operand)
    (hrun : Run building s s') (hs : WellFormed s)
    (hoperands : ∀ q, operand' q → SettledAt R s' q) :
    LessThanReady R s' base nBits flags operand' where
  aligned := h.aligned.of_run hrun hs
  positive := h.positive
  bits i hi := (h.bits i hi).of_run hrun building_quiet hs
  flags m hm := (h.flags m hm).of_run hrun building_quiet hs
  operands := hoperands
  power _ hq := settledAt_const hs hrun building_quiet hq h.power

/-- The gates that the line `<I` builds before it binds its target. -/
structure LessThanBody (S : Prop) (R : Type) [CommRing R] (s s' : PWSCircuitParser)
    (base nBits : ℕ) (plt peq pgt p1 p2 : Primitive) (lt eq gt g1 g2 : GatePosition)
    (nis : List GatePosition) : Prop where
  run : Run gadget s s'
  ops : s'.magicOps = s.magicOps
  length : nis.length = nBits
  bits : ∀ i g, nis[i]? = some g → lowest s' ⟨.intermediate, base + i⟩ = some g
  below : lowest s' plt = some lt
  equal : lowest s' peq = some eq
  above : lowest s' pgt = some gt
  operand1 : lowest s' p1 = some g1
  operand2 : lowest s' p2 = some g2
  outputs : LessThanOutputs S R s s' nBits lt eq gt g1 g2 nis

/-- The constraints on the bits stay what they are. -/
theorem bitOutputs_of_run {P : Policy} {nis : List GatePosition}
    {out : List (GatePosition × Text)} (hrun : Run P s s') (hs : WellFormed s)
    (h : ∀ d ∈ out, d.2 = Text.ofInt 0 ∧ ∃ i g, nis[i]? = some g ∧
      Means S s d.1 (fun val : GatePosition → R => val g * (val g - 2 ^ i))) :
    ∀ d ∈ out, d.2 = Text.ofInt 0 ∧ ∃ i g, nis[i]? = some g ∧
      Means S s' d.1 (fun val : GatePosition → R => val g * (val g - 2 ^ i)) := fun d hd => by
  obtain ⟨htext, i, g, hi, hm⟩ := h d hd
  exact ⟨htext, i, g, hi, hm.of_run hrun hs⟩

/-- So do those on the flags. -/
theorem flagOutputs_of_run {P : Policy} {lt eq gt : GatePosition}
    {out : List (GatePosition × Text)} (hrun : Run P s s') (hs : WellFormed s)
    (h : ∀ d ∈ out, d.2 = Text.ofInt 0 ∧ (∃ g ∈ [lt, eq, gt],
        Means S s d.1 (fun val : GatePosition → R => val g * (val g - 1))) ∨
      d.2 = Text.ofInt 1 ∧
        Means S s d.1 (fun val : GatePosition → R => val lt + val eq + val gt)) :
    ∀ d ∈ out, d.2 = Text.ofInt 0 ∧ (∃ g ∈ [lt, eq, gt],
        Means S s' d.1 (fun val : GatePosition → R => val g * (val g - 1))) ∨
      d.2 = Text.ofInt 1 ∧
        Means S s' d.1 (fun val : GatePosition → R => val lt + val eq + val gt) := fun d hd => by
  rcases h d hd with ⟨htext, g, hg, hm⟩ | ⟨htext, hm⟩
  · exact Or.inl ⟨htext, g, hg, hm.of_run hrun hs⟩
  · exact Or.inr ⟨htext, hm.of_run hrun hs⟩

/-- The gates of the bits and the flags, the constraints on them, and the sum of the bits and the
power of two. -/
structure LessThanSum (S : Prop) (R : Type) [CommRing R] (s s' : PWSCircuitParser)
    (base nBits : ℕ) (plt peq pgt : Primitive) (lt eq gt sumNis : GatePosition)
    (nis : List GatePosition) (bitsOut flagsOut : List (GatePosition × Text)) : Prop where
  run : Run gadget s s'
  recorded : Recorded s s' (bitsOut ++ flagsOut)
  length : nis.length = nBits
  bits : ∀ i g, nis[i]? = some g → lowest s' ⟨.intermediate, base + i⟩ = some g
  flags : ∀ e ∈ [(plt, lt), (peq, eq), (pgt, gt)], lowest s' e.1 = some e.2
  bitConstraints : ∀ d ∈ bitsOut, d.2 = Text.ofInt 0 ∧ ∃ i g, nis[i]? = some g ∧
    Means S s' d.1 (fun val : GatePosition → R => val g * (val g - 2 ^ i))
  flagConstraints : ∀ d ∈ flagsOut,
    d.2 = Text.ofInt 0 ∧ (∃ g ∈ [lt, eq, gt],
      Means S s' d.1 (fun val : GatePosition → R => val g * (val g - 1))) ∨
    d.2 = Text.ofInt 1 ∧
      Means S s' d.1 (fun val : GatePosition → R => val lt + val eq + val gt)
  settled : S → ∀ e ∈ [(plt, lt), (peq, eq), (pgt, gt)], Settled R s' e.2
  sum : Builds S s' sumNis (fun val : GatePosition → R => (nis.map val).sum - 2 ^ nBits)

theorem lessThanSum_inv {base nBits : ℕ} {plt peq pgt power : Primitive}
    {operand : Primitive → Prop} {lt eq gt powerGate sumNis : GatePosition}
    {nis : List GatePosition} {s₁ s₂ s₃ s₄ : PWSCircuitParser} (hs : WellFormed s)
    (hready : S → LessThanReady R s base nBits [plt, peq, pgt] operand)
    (hplt : plt.pType = .intermediate) (hpeq : peq.pType = .intermediate)
    (hpgt : pgt.pType = .intermediate) (hbits : parseBits base nBits s = some (nis, s₁))
    (hpower : addConstant (Text.ofInt (-(2 ^ nBits))) s₁ = some (power, s₂))
    (hpowerGate : getGate power 0 s₂ = some (powerGate, s₃))
    (hflags : parseFlags plt peq pgt s₃ = some ((lt, eq, gt), s₄))
    (hsum : reduce .add (nis ++ [powerGate]) s₄ = some (sumNis, s')) :
    ∃ bitsOut flagsOut,
      LessThanSum S R s s' base nBits plt peq pgt lt eq gt sumNis nis bitsOut flagsOut := by
  have hA : S → AllAligned R s := fun hS => (hready hS).aligned
  obtain ⟨out₁, hb⟩ := parseBits_inv (S := S) (R := R) hs hA (fun hS => (hready hS).bits) hbits
  have hwf₁ := (hb.run.wellFormed hs).1
  have hA₁ : S → AllAligned R s₁ := fun hS => (hA hS).of_run hb.run hs
  obtain ⟨hr₃, -, hm₃⟩ := constGate_means (S := S) (R := R) hwf₁ hA₁
    ((bind_run hpower).trans hpowerGate)
  have hr₂ : Run building s₁ s₂ := .single (.addConstant _ power hpower)
  have hwf₂ := (hr₂.wellFormed hwf₁).1
  obtain ⟨hr₂₃, -, hpowerLow, hpowerThere⟩ := getGate_building hwf₂ hpowerGate
  have hpowerSettled : S → Settled R s₃ powerGate := fun hS =>
    (settledAt_const hs (hb.run.trans hr₂.of_building) gadget_quiet (addConstant_isConst hpower)
      (hready hS).power).of_run hr₂₃ building_quiet hwf₂ powerGate hpowerLow
  have hwf₃ := (hr₃.wellFormed hwf₁).1
  have h₀₃ : Run gadget s s₃ := hb.run.trans hr₃.of_building
  obtain ⟨out₄, hf⟩ := parseFlags_inv (S := S) (R := R) hwf₃ (fun hS => (hA hS).of_run h₀₃ hs)
    (fun hS m hm => ((hready hS).flags m hm).of_run h₀₃ gadget_quiet hs) hplt hpeq hpgt hflags
  obtain ⟨hwf₄, hgrows₄, -⟩ := hf.run.wellFormed hwf₃
  have h₀₄ : Run gadget s s₄ := h₀₃.trans hf.run
  have h₁₄ : Run gadget s₁ s₄ := hr₃.of_building.trans hf.run
  have hA₄ : S → AllAligned R s₄ := fun hS => (hA hS).of_run h₀₄ hs
  have hnis₄ : ∀ i g, nis[i]? = some g → lowest s₄ ⟨.intermediate, base + i⟩ = some g :=
    fun i g hi => line_lowest h₁₄ hwf₁ id (hb.lowest i g hi)
  -- the bits own their gates, so their sum starts at a gate that stays in its place
  have hbit₄ : S → ∀ i g, nis[i]? = some g → Firm R s₄ g := fun hS i g hi => by
    have hlt : i < nBits := hb.length ▸ (List.getElem?_eq_some_iff.mp hi).1
    exact (((hready hS).bits i hlt).of_run h₀₄ gadget_quiet hs).owns.firm (hA₄ hS) (hnis₄ i g hi)
  obtain ⟨hr₅, hm₅⟩ := reduce_inv (S := S) (R := R) OpType.add_ne_constant hwf₄ hA₄ (by simp)
    (forall_mem_append (fun t ht => by
      obtain ⟨i, hi⟩ := List.mem_iff_getElem?.mp ht
      exact hwf₄.hasGate_lowest (hnis₄ i t hi))
      fun t ht => List.mem_singleton.mp ht ▸ hgrows₄.hasGate hpowerThere)
    (fun hS t ht => by
      rcases List.mem_append.mp ht with ht | ht
      · obtain ⟨i, hi⟩ := List.mem_iff_getElem?.mp ht
        exact (hbit₄ hS i t hi).settled
      · exact List.mem_singleton.mp ht ▸ (hpowerSettled hS).of_run hf.run gadget_quiet hwf₃
          hpowerThere)
    (fun hS t ht => by
      -- there is a bit, so the first term is one
      have hpos : 0 < nis.length := hb.length ▸ (hready hS).positive
      rw [List.head?_append_of_ne_nil _ (List.ne_nil_of_length_pos hpos),
        List.head?_eq_getElem?] at ht
      exact hbit₄ hS 0 t ht) hsum
  have hlow₄ : ∀ e ∈ [(plt, lt), (peq, eq), (pgt, gt)], lowest s₄ e.1 = some e.2 := by
    simp only [List.forall_mem_cons, List.not_mem_nil, false_imp_iff, implies_true, and_true]
    exact ⟨hf.below, hf.equal, hf.above⟩
  have h₄ : Run gadget s₄ s' := hr₅.of_building
  have h₁ : Run gadget s₁ s' := h₁₄.trans h₄
  have hrecorded := hb.recorded.trans
    (hr₃.sameRecords.recorded.trans (hf.recorded.trans hr₅.sameRecords.recorded))
  rw [List.nil_append, List.append_nil] at hrecorded
  refine ⟨out₁, out₄, hb.run.trans h₁, hrecorded, hb.length,
    fun i g hi => line_lowest h₁ hwf₁ id (hb.lowest i g hi),
    fun e he => line_lowest h₄ hwf₄ id (hlow₄ e he), bitOutputs_of_run h₁ hwf₁ hb.constraints,
    flagOutputs_of_run h₄ hwf₄ hf.constraints, fun hS e he => ?_,
    ⟨hm₅.there, fun hS val hval => ?_⟩, hm₅.firm⟩
  · -- so do the flags
    have hm : e.1 ∈ [plt, peq, pgt] := List.mem_map_of_mem (f := Prod.fst) he
    have hfirm := (((hready hS).flags e.1 hm).of_run h₀₄ gadget_quiet hs).owns.firm (hA₄ hS)
      (hlow₄ e he)
    exact hfirm.settled.of_run h₄ gadget_quiet hwf₄ (hwf₄.hasGate_lowest (hlow₄ e he))
  · rw [hm₅.value hS val hval, List.map_append, OpType.fold, List.sum_append, List.map_singleton,
      List.sum_singleton, hm₃.value hS val ((hval.of_run h₄ hwf₄).of_run hf.run hwf₃)]
    push_cast
    ring

theorem lessThanBody_inv {rightFirst : Bool} {base nBits : ℕ} {plt peq pgt p1 p2 power : Primitive}
    {lt eq gt powerGate sumNis d12 d21 : GatePosition} {nis : List GatePosition} {u : Unit}
    {s₁ s₂ s₃ s₄ s₅ s₆ s₇ : PWSCircuitParser} (hs : WellFormed s)
    (hready : S → LessThanReady R s base nBits [plt, peq, pgt] (· ∈ [p1, p2]))
    (hplt : plt.pType = .intermediate) (hpeq : peq.pType = .intermediate)
    (hpgt : pgt.pType = .intermediate) (hbits : parseBits base nBits s = some (nis, s₁))
    (hpower : addConstant (Text.ofInt (-(2 ^ nBits))) s₁ = some (power, s₂))
    (hpowerGate : getGate power 0 s₂ = some (powerGate, s₃))
    (hflags : parseFlags plt peq pgt s₃ = some ((lt, eq, gt), s₄))
    (hsum : reduce .add (nis ++ [powerGate]) s₄ = some (sumNis, s₅))
    (h12 : makeSubGate rightFirst p1 p2 s₅ = some (d12, s₆))
    (h21 : makeSubGate rightFirst p2 p1 s₆ = some (d21, s₇))
    (hdiff : parseDifferences lt eq gt sumNis d12 d21 s₇ = some (u, s')) :
    ∃ g1 g2, LessThanBody S R s s' base nBits plt peq pgt p1 p2 lt eq gt g1 g2 nis := by
  obtain ⟨bitsOut, flagsOut, hbelow⟩ := lessThanSum_inv hs hready hplt hpeq hpgt hbits hpower
    hpowerGate hflags hsum
  have hwf₅ := (hbelow.run.wellFormed hs).1
  have hA₅ : S → AllAligned R s₅ := fun hS => (hready hS).aligned.of_run hbelow.run hs
  have hoperand : ∀ p ∈ [p1, p2], S → SettledAt R s₅ p := fun p hp hS =>
    ((hready hS).operands p hp).of_run hbelow.run gadget_quiet hs
  -- the differences of the operands, made of the same two gates
  obtain ⟨g1, g2, hr₆, hlow1, hlow2, hm₆⟩ := makeSubGate_inv (S := S) (R := R) hwf₅ hA₅
    (hoperand p1 (by simp)) h12
  have hwf₆ := (hr₆.wellFormed hwf₅).1
  obtain ⟨g2', g1', hr₇, hlow2', hlow1', hm₇⟩ := makeSubGate_inv (S := S) (R := R) hwf₆
    (fun hS => (hA₅ hS).of_run hr₆ hwf₅)
    (fun hS => (hoperand p2 (by simp) hS).of_run hr₆ building_quiet hwf₅) h21
  obtain rfl := Option.some.inj ((building_lowest hr₇ hwf₆ hlow1).symm.trans hlow1')
  obtain rfl := Option.some.inj ((building_lowest hr₇ hwf₆ hlow2).symm.trans hlow2')
  have hr₅₇ : Run building s₅ s₇ := hr₆.trans hr₇
  obtain ⟨hwf₇, hgrows₇, -⟩ := hr₅₇.wellFormed hwf₅
  have hsum₇ := hbelow.sum.of_run hr₅₇ building_quiet hwf₅
  have hd12₇ := hm₆.of_run hr₇ building_quiet hwf₆
  -- the gates of which the three products are made
  have hflag : ∀ e ∈ [(plt, lt), (peq, eq), (pgt, gt)],
      HasGate s₇ e.2 ∧ (S → Settled R s₇ e.2) := fun e he => by
    have hthere := hwf₅.hasGate_lowest (hbelow.flags e he)
    exact ⟨hgrows₇.hasGate hthere, fun hS =>
      (hbelow.settled hS e he).of_run hr₅₇ building_quiet hwf₅ hthere⟩
  have hterms : ∀ g ∈ [lt, eq, gt, sumNis, d12, d21], HasGate s₇ g ∧ (S → Settled R s₇ g) := by
    simp only [List.forall_mem_cons, List.not_mem_nil, false_imp_iff, implies_true, and_true]
      at hflag ⊢
    exact ⟨hflag.1, hflag.2.1, hflag.2.2, ⟨hsum₇.there, hsum₇.settled⟩,
      ⟨hd12₇.there, hd12₇.settled⟩, ⟨hm₇.there, hm₇.settled⟩⟩
  obtain ⟨posLt, posGt, posEq, hr₈, hrec₈, hmLt, hmGt, hmEq⟩ := parseDifferences_inv (S := S)
    (R := R) hwf₇ (fun hS => (hA₅ hS).of_run hr₅₇ hwf₅) (fun g hg => (hterms g hg).1)
    (fun hS g hg => (hterms g hg).2 hS) hdiff
  have h₅ : Run gadget s₅ s' := (Run.of_building hr₅₇).trans hr₈
  have hflags' : ∀ e ∈ [(plt, lt), (peq, eq), (pgt, gt)], lowest s' e.1 = some e.2 := fun e he =>
    line_lowest h₅ hwf₅ id (hbelow.flags e he)
  simp only [List.forall_mem_cons, List.not_mem_nil, false_imp_iff, implies_true, and_true]
    at hflags'
  refine ⟨g1, g2, hbelow.run.trans h₅, ?_, hbelow.length,
    fun i g hi => line_lowest h₅ hwf₅ id (hbelow.bits i g hi), hflags'.1, hflags'.2.1, hflags'.2.2,
    line_lowest hr₈ hwf₇ id hlow1', line_lowest hr₈ hwf₇ id hlow2',
    bitsOut, flagsOut, posLt, posGt, posEq, ?_, bitOutputs_of_run h₅ hwf₅ hbelow.bitConstraints,
    flagOutputs_of_run h₅ hwf₅ hbelow.flagConstraints, ?_, ?_, ?_⟩
  · rw [hrec₈.ops, hr₅₇.sameRecords.ops, hbelow.recorded.ops]
  · rw [hrec₈.outputs, hr₅₇.sameRecords.outputs, hbelow.recorded.outputs]
    simp only [List.append_assoc]
  · refine ⟨hmLt.there, fun hS val hval => ?_⟩
    have hval₇ := hval.of_run hr₈ hwf₇
    rw [hmLt.value hS val hval, hsum₇.value hS val hval₇, hm₇.value hS val hval₇]
  · refine ⟨hmGt.there, fun hS val hval => ?_⟩
    have hval₇ := hval.of_run hr₈ hwf₇
    rw [hmGt.value hS val hval, hsum₇.value hS val hval₇, hd12₇.value hS val hval₇]
  · refine ⟨hmEq.there, fun hS val hval => ?_⟩
    rw [hmEq.value hS val hval, hd12₇.value hS val (hval.of_run hr₈ hwf₇)]

theorem LessThanOutputs.of_run {P : Policy} {t t' : PWSCircuitParser} {nBits : ℕ}
    {lt eq gt g1 g2 : GatePosition} {nis : List GatePosition}
    (h : LessThanOutputs S R t t' nBits lt eq gt g1 g2 nis) (hrun : Run P t' s')
    (ht' : WellFormed t') (hbefore : t.outConstantDesc = s.outConstantDesc)
    (hafter : s'.outConstantDesc = t'.outConstantDesc) :
    LessThanOutputs S R s s' nBits lt eq gt g1 g2 nis := by
  obtain ⟨bits, flags, posLt, posGt, posEq, hout, hbits, hflags, hmLt, hmGt, hmEq⟩ := h
  exact ⟨bits, flags, posLt, posGt, posEq, by rw [hafter, hout, hbefore],
    bitOutputs_of_run hrun ht' hbits, flagOutputs_of_run hrun ht' hflags, hmLt.of_run hrun ht',
    hmGt.of_run hrun ht', hmEq.of_run hrun ht'⟩

/-- The last calls of a comparison line: the gates of the operands are read, if they are not the
ones that the operands had, and the operation is recorded. -/
theorem recordOp_inv {T : Primitive → Prop} {p1 p2 : Primitive} {k1 k2 : GatePosition}
    {op : MagicVarOperation} {guard : List ℕ} {u : Unit} {s₁ s₂ : PWSCircuitParser}
    (hs : WellFormed s) (h1 : getGate p1 0 s = some (k1, s₁)) (h2 : getGate p2 0 s₁ = some (k2, s₂))
    (hop : addMagicOp op guard s₂ = some (u, s')) :
    Run (lineCalls T) s s' ∧ lowest s' p1 = some k1 ∧ lowest s' p2 = some k2 ∧
      s'.magicOps = s.magicOps ++ [(guard, op)] ∧ s'.outConstantDesc = s.outConstantDesc := by
  obtain ⟨hr₁, hw₁, hlow1, -⟩ := getGate_building hs h1
  obtain ⟨hr₂, hw₂, hlow2, -⟩ := getGate_building hw₁ h2
  obtain ⟨hrun, hnames, hout, hops⟩ := addMagicOp_inv (T := T) hop
  have hquiet : SameRecords s s₂ := hr₁.sameRecords.trans hr₂.sameRecords
  have hlow1' := building_lowest hr₂ hw₁ hlow1
  refine ⟨(hr₁.of_building.trans hr₂.of_building).trans hrun, ?_, ?_, by rw [hops, hquiet.ops],
    by rw [hout, hquiet.outputs]⟩
  · rwa [lowest, hnames.objectAt]
  · rwa [lowest, hnames.objectAt]

/-- The line `<I`. -/
theorem parseLessThanInt_inv {rightFirst : Bool} {n0 n mlt meq mgt x1 x2 y : Token}
    {rest rest' : List Token} {b plt peq pgt py : Primitive} (hs : WellFormed s)
    (hready : S → LessThanReady R s b.idx (n.number - 1).toNat [plt, peq, pgt]
      fun q => x1.Names s q ∨ x2.Names s q)
    (hb : n0.asVariable = some b) (hlt : mlt.asVariable = some plt)
    (heq : meq.asVariable = some peq) (hgt : mgt.asVariable = some pgt)
    (hplt : plt.pType = .intermediate) (hpeq : peq.pType = .intermediate)
    (hpgt : pgt.pType = .intermediate) (hy : y.asVariable = some py)
    (h : parseLessThanInt rightFirst (lessThanIntTokens n0 n mlt meq mgt x1 x2 y rest) s =
      some (rest', s')) :
    rest' = rest ∧ ∃ (text : Text) (N : ℤ) (p1 p2 : Primitive) (lt eq gt g1 g2 : GatePosition)
      (nis : List GatePosition),
      n = .const text ∧ mpzSetStr text = some N ∧
      (x1.asVariable = some p1 ∨ x1.asVariable = none ∧ p1.isConstant = true) ∧
      (x2.asVariable = some p2 ∨ x2.asVariable = none ∧ p2.isConstant = true) ∧
      LessThanGates S R s s' b.idx (N - 1).toNat plt peq pgt p1 p2 py lt eq gt g1 g2 nis := by
  obtain ⟨guard, t₀, hguard, h₁⟩ := bind_inv h
  obtain ⟨hguard', rfl⟩ := Prod.mk.inj (Option.some.inj hguard)
  obtain ⟨b', t₁, hb', h₂⟩ := bind_inv h₁
  obtain ⟨N, t₂, hN, h₃⟩ := bind_inv h₂
  obtain ⟨plt', t₃, hlt', h₄⟩ := bind_inv h₃
  obtain ⟨peq', t₄, heq', h₅⟩ := bind_inv h₄
  obtain ⟨pgt', t₅, hgt', h₆⟩ := bind_inv h₅
  obtain ⟨p1, t₆, hp1, h₇⟩ := bind_inv h₆
  obtain ⟨p2, t₇, hp2, h₈⟩ := bind_inv h₇
  obtain ⟨py', t₈, hy', h₉⟩ := bind_inv h₈
  obtain ⟨nis, s₁, hbits, h₁₀⟩ := bind_inv h₉
  obtain ⟨power, s₂, hpower, h₁₁⟩ := bind_inv h₁₀
  obtain ⟨powerGate, s₃, hpowerGate, h₁₂⟩ := bind_inv h₁₁
  obtain ⟨⟨lt, eq, gt⟩, s₄, hflags, h₁₃⟩ := bind_inv h₁₂
  obtain ⟨sumNis, s₅, hsum, h₁₄⟩ := bind_inv h₁₃
  obtain ⟨d12, s₆, h12, h₁₅⟩ := bind_inv h₁₄
  obtain ⟨d21, s₇, h21, h₁₆⟩ := bind_inv h₁₅
  obtain ⟨u₈, s₈, hdiff, h₁₇⟩ := bind_inv h₁₆
  obtain ⟨u₉, s₉, hbind, h₁₈⟩ := bind_inv h₁₇
  obtain ⟨g1, s₁₀, hg1, h₁₉⟩ := bind_inv h₁₈
  obtain ⟨g2, s₁₁, hg2, h₂₀⟩ := bind_inv h₁₉
  obtain ⟨u₁₂, s₁₂, hop, hpure⟩ := bind_inv h₂₀
  obtain ⟨rfl, rfl⟩ := pure_inv hpure
  clear h h₁ h₂ h₃ h₄ h₅ h₆ h₇ h₈ h₉ h₁₀ h₁₁ h₁₂ h₁₃ h₁₄ h₁₅ h₁₆ h₁₇ h₁₈ h₁₉ h₂₀ hpure
  -- the names
  obtain ⟨rfl, hr₁, hw₁⟩ := requireVariable_inv hs hb hb'
  obtain ⟨rfl, text, hn, hN⟩ := requireInt_inv hN
  obtain ⟨rfl, hr₃, hw₃⟩ := requireVariable_inv hw₁ hlt hlt'
  obtain ⟨rfl, hr₄, hw₄⟩ := requireVariable_inv hw₃ heq heq'
  obtain ⟨rfl, hr₅, hw₅⟩ := requireVariable_inv hw₄ hgt hgt'
  have hnames1 := requirePrimitive_names hw₅ hp1
  obtain ⟨hr₆, hw₆, hp1⟩ := requirePrimitive_inv hw₅ hp1
  have hnames2 := requirePrimitive_names hw₆ hp2
  obtain ⟨hr₇, hw₇, hp2⟩ := requirePrimitive_inv hw₆ hp2
  obtain ⟨rfl, hr₈, hw₈⟩ := requireVariable_inv hw₇ hy hy'
  have hnames₆ : Run building _ t₆ := (((hr₁.trans hr₃).trans hr₄).trans hr₅).trans hr₆
  have hnames : Run building _ t₈ := (hnames₆.trans hr₇).trans hr₈
  have hcount : (n.number - 1).toNat = (N - 1).toNat := by
    rw [hn, Token.number, hN]
    rfl
  rw [hcount] at hready
  -- the gates
  obtain ⟨g1', g2', hbody⟩ := lessThanBody_inv (S := S) (R := R) hw₈
    (fun hS => (hready hS).of_run hnames hs fun q hq => by
      simp only [List.mem_cons, List.not_mem_nil, or_false] at hq
      rcases hq with rfl | rfl
      · exact (hnames1.settledAt hs hnames₆ fun r hr => (hready hS).operands r (Or.inl hr)).of_run
          (hr₇.trans hr₈) building_quiet hw₆
      · exact (hnames2.settledAt hs (hnames₆.trans hr₇) fun r hr =>
          (hready hS).operands r (Or.inr hr)).of_run hr₈ building_quiet hw₇)
    hplt hpeq hpgt hbits hpower hpowerGate hflags hsum h12 h21 hdiff
  have hw₈' := (hbody.run.wellFormed hw₈).1
  -- the target, and the operands behind it
  have hpy := asVariable_isVariable hy
  have hbindRun : Run (lineCalls (· = py')) s₈ s₉ := .single (.bindVariable _ lt ⟨rfl, hpy⟩ hbind)
  have hw₉ := (hbindRun.wellFormed hw₈').1
  obtain ⟨-, -, -, hobjects, -⟩ := bindVariable_inv hw₈' hbind
  obtain ⟨hopRun, hlow1, hlow2, hopOps, hopOut⟩ := recordOp_inv (T := (· = py')) hw₉ hg1 hg2 hop
  have hlast : Run (lineCalls (· = py')) s₈ s' := hbindRun.trans hopRun
  have hbindRecords := keeps_bindVariable _ _ _ _ _ hbind
  have htarget : lowest s₉ py' = some lt := by
    rw [lowest, hobjects, if_pos rfl]
    rfl
  refine ⟨rfl, text, N, p1, p2, lt, eq, gt, g1, g2, nis, hn, hN, hp1, hp2,
    (hnames.of_building.trans hbody.run.of_gadget).trans hlast, ?_, hbody.length,
    fun i g hi hne => line_lowest hlast hw₈' hne (hbody.bits i g hi),
    fun hne => line_lowest hlast hw₈' hne hbody.below,
    fun hne => line_lowest hlast hw₈' hne hbody.equal,
    fun hne => line_lowest hlast hw₈' hne hbody.above, hlow1, hlow2, ?_, fun hp1y hp2y => ?_⟩
  · rw [hopOps, hbindRecords.ops, hbody.ops, hnames.sameRecords.ops, hguard']
  · exact line_lowest (recordOp_inv (T := fun _ => False) hw₉ hg1 hg2 hop).1 hw₉ id htarget
  · -- the operands still have the gates that were compared
    obtain rfl := Option.some.inj ((line_lowest hlast hw₈' hp1y hbody.operand1).symm.trans hlow1)
    obtain rfl := Option.some.inj ((line_lowest hlast hw₈' hp2y hbody.operand2).symm.trans hlow2)
    exact hbody.outputs.of_run hlast hw₈' hnames.sameRecords.outputs
      (hopOut.trans hbindRecords.outputs)

end LessThanInt

/-! ## What the lines name -/

/-- The gates that an operation reads. -/
def MagicVarOperation.operands : MagicVarOperation → List GatePosition
  | .notEqual _ x1 x2 => [x1, x2]
  | .lessThanInt _ _ x1 x2 => [x1, x2]
  | .lessThanFloat _ _ _ x1 x2 => [x1, x2]

/-- The gates that an operation sets. -/
def MagicVarOperation.sets : MagicVarOperation → List GatePosition
  | .notEqual m _ _ => [m]
  | .lessThanInt ms ns _ _ => ms ++ ns
  | .lessThanFloat ms ns ds _ _ => ms ++ ns ++ ds

/-- The variables that a comparison line names: those it sets, its operands, and its targets. -/
structure OpLine where
  magics : List Primitive
  operands : List Primitive
  targets : List Primitive

/-- The variables with the numbers from `base` on. -/
def magicRange (base n : ℕ) : List Primitive :=
  (List.range n).map fun i => ⟨.intermediate, base + i⟩

/-- What a comparison line names, when its magic variables and its targets are variables. -/
def opLine? : List Token → Option OpLine
  | .word .lessThanInt :: .word .bit0 :: n0 :: .word .numBits :: n :: .word .mlt :: mlt ::
      .word .meq :: meq :: .word .mgt :: mgt :: .word .x1 :: x1 :: .word .x2 :: x2 ::
      .word .y :: y :: _ => do
      let b ← n0.asVariable
      let lt ← mlt.asVariable
      let eq ← meq.asVariable
      let gt ← mgt.asVariable
      let y ← y.asVariable
      some
        { magics := [lt, eq, gt] ++ magicRange b.idx (n.number - 1).toNat
          operands := x1.asVariable.toList ++ x2.asVariable.toList
          targets := [y] }
  | .word .lessThanFloat :: .word .bit0 :: n0 :: .word .numNa :: na :: .word .numBits :: n ::
      .word .den0 :: d0 :: .word .numNb :: nb :: .word .den :: d :: .word .numDen :: nd ::
      .word .mlt :: mlt :: .word .meq :: meq :: .word .mgt :: mgt :: .word .x1 :: x1 ::
      .word .x2 :: x2 :: .word .y :: y :: _ => do
      let b ← n0.asVariable
      let n ← n.asVariable
      let c ← d0.asVariable
      let d ← d.asVariable
      let nd ← nd.asVariable
      let lt ← mlt.asVariable
      let eq ← meq.asVariable
      let gt ← mgt.asVariable
      let y ← y.asVariable
      some
        { magics := [lt, eq, gt] ++ magicRange b.idx na.number.toNat ++
            magicRange c.idx (nb.number + 1).toNat
          operands := x1.asVariable.toList ++ x2.asVariable.toList
          targets := [n, d, nd, y] }
  | .word .notEqual :: .word .m :: m :: .word .x1 :: x1 :: .word .x2 :: x2 :: .word .y :: y :: _ => do
      let m ← m.asVariable
      let y ← y.asVariable
      some
        { magics := [m]
          operands := x1.asVariable.toList ++ x2.asVariable.toList
          targets := [y] }
  | _ => none

/-- The magic variables of the line are no inputs or outputs and have no gate yet; the operands are
neither magic variables nor targets, and no target is a magic variable. -/
structure OpLine.Fresh (line : OpLine) (s : PWSCircuitParser) : Prop where
  intermediate : ∀ m ∈ line.magics, m.pType = .intermediate
  unbound : ∀ m ∈ line.magics, lowest s m = none
  operands : ∀ x ∈ line.operands, x ∉ line.magics ∧ x ∉ line.targets
  targets : ∀ t ∈ line.targets, t ∉ line.magics

instance (line : OpLine) (s : PWSCircuitParser) : Decidable (line.Fresh s) :=
  decidable_of_iff
    ((∀ m ∈ line.magics, m.pType = .intermediate) ∧ (∀ m ∈ line.magics, lowest s m = none) ∧
      (∀ x ∈ line.operands, x ∉ line.magics ∧ x ∉ line.targets) ∧
      ∀ t ∈ line.targets, t ∉ line.magics)
    ⟨fun ⟨h₁, h₂, h₃, h₄⟩ => ⟨h₁, h₂, h₃, h₄⟩, fun ⟨h₁, h₂, h₃, h₄⟩ => ⟨h₁, h₂, h₃, h₄⟩⟩

/-- What a comparison line leaves: an operation whose guard is the sizes of the layers at its start,
on the gates of its operands and, when no target is a magic variable, of its magic variables. -/
structure OpRecorded (line : OpLine) (s s' : PWSCircuitParser) (op : MagicVarOperation) :
    Prop where
  run : Run (lineCalls (· ∈ line.targets)) s s'
  ops : s'.magicOps = s.magicOps ++ [(s.circuitDesc.map List.length, op)]
  operands : ∀ g ∈ op.operands, ∃ p, (p ∈ line.operands ∨ p.isConstant = true) ∧
    lowest s' p = some g
  sets : (∀ t ∈ line.targets, t ∉ line.magics) → ∀ g ∈ op.sets, ∃ p ∈ line.magics,
    lowest s' p = some g

section OpLines

variable {s s' : PWSCircuitParser}

theorem mem_magicRange (base : ℕ) {n i : ℕ} (hi : i < n) :
    (⟨.intermediate, base + i⟩ : Primitive) ∈ magicRange base n :=
  List.mem_map.mpr ⟨i, List.mem_range.mpr hi, rfl⟩

/-- The two operands of a line. -/
theorem operands_named {x1 x2 : Token} {p1 p2 : Primitive} {g1 g2 : GatePosition}
    (hp1 : x1.asVariable = some p1 ∨ x1.asVariable = none ∧ p1.isConstant = true)
    (hp2 : x2.asVariable = some p2 ∨ x2.asVariable = none ∧ p2.isConstant = true)
    (hlow1 : lowest s p1 = some g1) (hlow2 : lowest s p2 = some g2) :
    ∀ g ∈ [g1, g2], ∃ p,
      (p ∈ x1.asVariable.toList ++ x2.asVariable.toList ∨ p.isConstant = true) ∧
        lowest s p = some g := by
  intro g hg
  simp only [List.mem_cons, List.not_mem_nil, or_false] at hg
  rcases hg with rfl | rfl
  · exact ⟨p1, hp1.imp (fun h => List.mem_append_left _ (Option.mem_toList.mpr h)) And.right, hlow1⟩
  · exact ⟨p2, hp2.imp (fun h => List.mem_append_right _ (Option.mem_toList.mpr h)) And.right,
      hlow2⟩

/-- The line `<I`. -/
theorem lessThanInt_recorded {rightFirst : Bool} {pws rest : List Token} {line : OpLine}
    (hs : WellFormed s) (hline : opLine? (.word .lessThanInt :: pws) = some line)
    (hmagic : ∀ m ∈ line.magics, m.pType = .intermediate)
    (h : parseLessThanInt rightFirst pws s = some (rest, s')) :
    ∃ op, OpRecorded line s s' op := by
  have hshape := h
  unfold parseLessThanInt at hshape
  split at hshape
  · next n0 n mlt meq mgt x1 x2 y pws =>
    clear hshape
    simp only [opLine?, Option.bind_eq_bind, Option.bind_eq_some_iff, Option.some.injEq] at hline
    obtain ⟨b, hb, plt, hlt, peq, heq, pgt, hgt, py, hy, rfl⟩ := hline
    obtain ⟨-, text, N, p1, p2, lt, eq, gt, g1, g2, nis, hn, hN, hp1, hp2, hgates⟩ :=
      parseLessThanInt_inv (S := False) (R := ℤ) hs False.elim hb hlt heq hgt
        (hmagic plt (by simp)) (hmagic peq (by simp)) (hmagic pgt (by simp)) hy h
    have hnumber : n.number = N := by rw [hn, Token.number, hN]; rfl
    refine ⟨.lessThanInt [lt, eq, gt] nis g1 g2, hgates.run.mono fun t c hallowed => ?_, hgates.ops,
      operands_named hp1 hp2 hgates.operand1 hgates.operand2, fun htargets g hg => ?_⟩
    · cases c with
      | bind p gate => exact ⟨List.mem_singleton.mpr hallowed.1, hallowed.2⟩
      | magic p => exact hallowed
      | record => trivial
    · -- what it sets: the flags and the bits
      have hne : ∀ m ∈ [plt, peq, pgt] ++ magicRange b.idx (n.number - 1).toNat, m ≠ py :=
        fun m hm heq => htargets py List.mem_cons_self (heq ▸ hm)
      simp only [MagicVarOperation.sets, List.mem_append, List.mem_cons, List.not_mem_nil,
        or_false] at hg
      rcases hg with (rfl | rfl | rfl) | hg
      · exact ⟨plt, by simp, hgates.below (hne plt (by simp))⟩
      · exact ⟨peq, by simp, hgates.equal (hne peq (by simp))⟩
      · exact ⟨pgt, by simp, hgates.above (hne pgt (by simp))⟩
      · obtain ⟨i, hi⟩ := List.mem_iff_getElem?.mp hg
        have hlt : i < (n.number - 1).toNat := by
          rw [hnumber, ← hgates.length]
          exact (List.getElem?_eq_some_iff.mp hi).1
        have hmem := List.mem_append_right [plt, peq, pgt] (mem_magicRange b.idx hlt)
        exact ⟨_, hmem, hgates.bits i g hi (hne _ hmem)⟩
  · exact (failure_inv hshape).elim

theorem makeSubGate_run {rightFirst : Bool} (hs : WellFormed s) {x1 x2 : Primitive}
    {pos : GatePosition} (h : makeSubGate rightFirst x1 x2 s = some (pos, s')) :
    ∃ g1 g2, Run building s s' ∧ lowest s' x1 = some g1 ∧ lowest s' x2 = some g2 ∧
      HasGate s' pos := by
  obtain ⟨g1, g2, hrun, hlow1, hlow2, hm⟩ :=
    makeSubGate_inv (S := False) (R := ℤ) hs False.elim False.elim h
  exact ⟨g1, g2, hrun, hlow1, hlow2, hm.there⟩

/-- The line `!=`. -/
theorem notEqual_recorded {rightFirst : Bool} {pws rest : List Token} {line : OpLine}
    (hs : WellFormed s) (hline : opLine? (.word .notEqual :: pws) = some line)
    (hmagic : ∀ m ∈ line.magics, m.pType = .intermediate)
    (h : parseNotEqual rightFirst pws s = some (rest, s')) :
    ∃ op, OpRecorded line s s' op := by
  unfold parseNotEqual at h
  split at h
  · next m x1 x2 y pws =>
    simp only [opLine?, Option.bind_eq_bind, Option.bind_eq_some_iff, Option.some.injEq] at hline
    obtain ⟨pm, hm, py, hy, rfl⟩ := hline
    obtain ⟨guard, t₀, hguard, h₁⟩ := bind_inv h
    obtain ⟨hguard', rfl⟩ := Prod.mk.inj (Option.some.inj hguard)
    obtain ⟨pm', t₁, hm', h₂⟩ := bind_inv h₁
    obtain ⟨p1, t₂, hp1, h₃⟩ := bind_inv h₂
    obtain ⟨p2, t₃, hp2, h₄⟩ := bind_inv h₃
    obtain ⟨py', t₄, hy', h₅⟩ := bind_inv h₄
    obtain ⟨u₁, s₁, hmake, h₆⟩ := bind_inv h₅
    obtain ⟨mGate, s₂, hmGate, h₇⟩ := bind_inv h₆
    obtain ⟨d12, s₃, h12, h₈⟩ := bind_inv h₇
    obtain ⟨d21, s₄, h21, h₉⟩ := bind_inv h₈
    obtain ⟨prod, s₅, hprod, h₁₀⟩ := bind_inv h₉
    obtain ⟨neg, s₆, hneg, h₁₁⟩ := bind_inv h₁₀
    obtain ⟨check, s₇, hcheck, h₁₂⟩ := bind_inv h₁₁
    obtain ⟨u₂, s₈, hbind, h₁₃⟩ := bind_inv h₁₂
    obtain ⟨u₃, s₉, hout, h₁₄⟩ := bind_inv h₁₃
    obtain ⟨g1, s₁₀, hg1, h₁₅⟩ := bind_inv h₁₄
    obtain ⟨g2, s₁₁, hg2, h₁₆⟩ := bind_inv h₁₅
    obtain ⟨u₄, s₁₂, hop, hpure⟩ := bind_inv h₁₆
    obtain ⟨rfl, rfl⟩ := pure_inv hpure
    clear h h₁ h₂ h₃ h₄ h₅ h₆ h₇ h₈ h₉ h₁₀ h₁₁ h₁₂ h₁₃ h₁₄ h₁₅ h₁₆ hpure
    obtain ⟨rfl, hr₁, hw₁⟩ := requireVariable_inv hs hm hm'
    obtain ⟨hr₂, hw₂, hp1⟩ := requirePrimitive_inv hw₁ hp1
    obtain ⟨hr₃, hw₃, hp2⟩ := requirePrimitive_inv hw₂ hp2
    obtain ⟨rfl, hr₄, hw₄⟩ := requireVariable_inv hw₃ hy hy'
    have hpy := asVariable_isVariable hy
    -- the gates of the line
    obtain ⟨hr₅, hk₅⟩ := makeMagic_run (T := fun _ => False)
      (hmagic pm' List.mem_cons_self) hmake
    have hw₅ := (hr₅.wellFormed hw₄).1
    obtain ⟨hr₆, hw₆, hlowM, hthereM⟩ := getGate_building hw₅ hmGate
    obtain ⟨-, -, hr₇, -, -, hthere12⟩ := makeSubGate_run hw₆ h12
    have hw₇ := (hr₇.wellFormed hw₆).1
    obtain ⟨-, -, hr₈, -, -, hthere21⟩ := makeSubGate_run hw₇ h21
    obtain ⟨hw₈, hgrows₈, -⟩ := hr₈.wellFormed hw₇
    obtain ⟨hr₉, hthereProd⟩ := makeGate_run (by decide) hw₈
      ((Run.wellFormed (hr₇.trans hr₈) hw₆).2.1.hasGate hthereM)
      (hgrows₈.hasGate hthere12) hprod
    obtain ⟨hw₉, hgrows₉, -⟩ := hr₉.wellFormed hw₈
    obtain ⟨hr₁₀, hthereNeg⟩ := makeGate_run (by decide) hw₉ hthereProd
      (hgrows₉.hasGate hthere21) hneg
    obtain ⟨hw₁₀, hgrows₁₀, -⟩ := hr₁₀.wellFormed hw₉
    obtain ⟨hr₁₁, -⟩ := makeGate_run (by decide) hw₁₀ hthereNeg
      ((hgrows₈.trans (hgrows₉.trans hgrows₁₀)).hasGate hthere12) hcheck
    have hw₁₁ := (hr₁₁.wellFormed hw₁₀).1
    have hlate : Run building s₃ s₇ := ((hr₈.trans hr₉).trans hr₁₀).trans hr₁₁
    have hgates : PlainLine (· ∈ [py']) s₁ s₇ := .of_building ((hr₆.trans hr₇).trans hlate)
    have hnames : PlainLine (· ∈ [py']) _ t₄ :=
      .of_building (((hr₁.trans hr₂).trans hr₃).trans hr₄)
    -- the target, and the record
    have hbound : PlainLine (· ∈ [py']) s₇ s₉ :=
      (bindVariable_plain List.mem_cons_self hpy hbind).trans (bindOutputConstant_plain hout)
    have hw₁₂ := (hbound.run.wellFormed hw₁₁).1
    obtain ⟨hr₁₃, hlow1, hlow2, hops, -⟩ := recordOp_inv (T := (· ∈ [py'])) hw₁₂ hg1 hg2 hop
    have hline : PlainLine (· ∈ [py']) _ s₉ :=
      ((hnames.trans ⟨hr₅.of_gadget, hk₅.ops⟩).trans hgates).trans hbound
    refine ⟨.notEqual mGate g1 g2, hline.run.trans hr₁₃, by rw [hops, hline.ops, ← hguard'],
      operands_named hp1 hp2 hlow1 hlow2, fun htargets g hg => ?_⟩
    · obtain rfl := List.mem_singleton.mp hg
      have hne : pm' ∉ [py'] := fun hmem =>
        htargets py' List.mem_cons_self (List.mem_singleton.mp hmem ▸ List.mem_cons_self)
      have hafter : Run (lineCalls (· ∈ [py'])) s₇ s' := hbound.run.trans hr₁₃
      exact ⟨pm', List.mem_cons_self, line_lowest hafter hw₁₁ hne
        (building_lowest hlate hw₇ (building_lowest hr₇ hw₆ hlowM))⟩
  · exact (failure_inv h).elim

/-- What the loop over the powers leaves: a gate for each variable, and one for its multiple. -/
theorem parseDenominators_run {base : ℕ} {prime inv num : ℤ} {n : ℕ}
    {bitDis dis : List GatePosition} (hs : WellFormed s)
    (h : parseDenominators base prime inv n s = some ((bitDis, dis, num), s')) :
    Run gadget s s' ∧ s'.magicOps = s.magicOps ∧ bitDis.length = n ∧
      (∀ i g, bitDis[i]? = some g → lowest s' ⟨.intermediate, base + i⟩ = some g) ∧
      ∀ g ∈ dis, HasGate s' g := by
  induction n generalizing s' bitDis dis num with
  | zero =>
      obtain ⟨htriple, rfl⟩ := pure_inv h
      obtain ⟨rfl, hpair⟩ := Prod.mk.inj htriple
      obtain ⟨rfl, -⟩ := Prod.mk.inj hpair
      exact ⟨.refl, rfl, rfl, by simp, by simp⟩
  | succ n ih =>
      -- the variable of the power `n` comes behind those of the lower powers
      rw [parseDenominators] at h
      obtain ⟨⟨bits, multiples, num2⟩, s₁, hold, h₁⟩ := bind_inv h
      obtain ⟨di, s₂, hadd, h₂⟩ := bind_inv h₁
      obtain ⟨u, s₃, hmodify, h₃⟩ := bind_inv h₂
      obtain ⟨u', s₄, hzo, h₄⟩ := bind_inv h₃
      obtain ⟨const, s₅, hconst, h₅⟩ := bind_inv h₄
      obtain ⟨constGate, s₆, hconstGate, h₆⟩ := bind_inv h₅
      obtain ⟨diGate, s₇, hdi, h₇⟩ := bind_inv h₆
      obtain ⟨prod, s₈, hprod, hpure⟩ := bind_inv h₇
      obtain ⟨htriple, rfl⟩ := pure_inv hpure
      obtain ⟨rfl, hpair⟩ := Prod.mk.inj htriple
      obtain ⟨rfl, -⟩ := Prod.mk.inj hpair
      -- the variable, its constraint, and its multiple
      obtain ⟨hr₁, hops₁, hlength, hlow, hthere⟩ := ih hold
      have hw₁ := (hr₁.wellFormed hs).1
      obtain ⟨rfl, hr₃, hk₃⟩ := magicVariable_inv (T := fun _ => False) hadd hmodify
      have hw₃ := (hr₃.wellFormed hw₁).1
      obtain ⟨g₀, pos, hr₄, hlow₄, hrec₄, -⟩ :=
        makeZeroOrOtherGate_inv (S := False) (R := ℤ) hw₃ False.elim False.elim hzo
      have hw₄ := (hr₄.wellFormed hw₃).1
      have hr₅ : Run building s₄ s₅ := .single (.addConstant _ const hconst)
      have hw₅ := (hr₅.wellFormed hw₄).1
      obtain ⟨hr₆, hw₆, -, hthere₆⟩ := getGate_building hw₅ hconstGate
      have hlow₆ := building_lowest hr₆ hw₅ (building_lowest hr₅ hw₄ hlow₄)
      obtain ⟨rfl, rfl⟩ := getGate_gadget hw₆ hlow₆ hdi
      obtain ⟨hr₈, hthere₈⟩ := makeGate_run (by decide) hw₆ hthere₆ (hw₆.hasGate_lowest hlow₆) hprod
      have hbuilt : Run building s₄ s' := (hr₅.trans hr₆).trans hr₈
      have hlater : Run gadget s₁ s' := (hr₃.trans hr₄).trans hbuilt.of_building
      refine ⟨hr₁.trans hlater, ?_, by rw [List.length_append, hlength]; rfl, fun i g hi => ?_,
        fun g hg => ?_⟩
      · rw [hbuilt.sameRecords.ops, hrec₄.ops, hk₃.ops, hops₁]
      · -- the variable of a lower power keeps its gate
        rcases (getElem?_snoc _ _ _ _).mp hi with hi | ⟨rfl, rfl⟩
        · exact line_lowest hlater hw₁ id (hlow i g hi)
        · rw [hlength]
          exact building_lowest hr₈ hw₆ hlow₆
      · rcases List.mem_append.mp hg with hg | hg
        · exact (hlater.wellFormed hw₁).2.1.hasGate (hthere g hg)
        · exact List.mem_singleton.mp hg ▸ hthere₈

/-- The numerator: the bits less a power of two, bound to its variable. -/
theorem numerator_inv {T : Primitive → Prop} {base lengthN : ℕ} {c : ℤ} {pn power : Primitive}
    {nis : List GatePosition} {powerGate nGate : GatePosition} {u : Unit}
    {s₁ s₂ s₃ s₄ : PWSCircuitParser} (hs : WellFormed s) (hT : T pn) (hpn : pn.isVariable = true)
    (hbits : parseBits base lengthN s = some (nis, s₁))
    (hpower : addConstant (Text.ofInt c) s₁ = some (power, s₂))
    (hpowerGate : getGate power 0 s₂ = some (powerGate, s₃))
    (hnGate : reduce .add (nis ++ [powerGate]) s₃ = some (nGate, s₄))
    (hbind : bindVariable pn nGate s₄ = some (u, s')) :
    PlainLine T s s' ∧ nis.length = lengthN ∧ HasGate s' nGate ∧
      ∀ i g, nis[i]? = some g → ¬ T ⟨.intermediate, base + i⟩ →
        lowest s' ⟨.intermediate, base + i⟩ = some g := by
  obtain ⟨out, hB⟩ := parseBits_inv (S := False) (R := ℤ) hs False.elim False.elim hbits
  have hw₁ := (hB.run.wellFormed hs).1
  obtain ⟨hr₃, -, hmPower⟩ := constGate_means (S := False) (R := ℤ) hw₁ False.elim
    ((bind_run hpower).trans hpowerGate)
  have hw₃ := (hr₃.wellFormed hw₁).1
  have hthere : ∀ t ∈ nis, HasGate s₃ t := fun t ht => by
    obtain ⟨i, hi⟩ := List.mem_iff_getElem?.mp ht
    exact hw₃.hasGate_lowest (building_lowest hr₃ hw₁ (hB.lowest i t hi))
  obtain ⟨hr₄, hthereN⟩ := reduce_run (by decide) hw₃ (forall_mem_append hthere
    fun t ht => List.mem_singleton.mp ht ▸ hmPower.there) hnGate
  have hw₄ := (hr₄.wellFormed hw₃).1
  have hbound : PlainLine T s₄ s' := bindVariable_plain hT hpn hbind
  have hafter : PlainLine T s₁ s' := (PlainLine.of_building (hr₃.trans hr₄)).trans hbound
  have hline : PlainLine T s s₁ := ⟨hB.run.of_gadget, hB.recorded.ops⟩
  exact ⟨hline.trans hafter, hB.length, (hbound.run.wellFormed hw₄).2.1.hasGate hthereN,
    fun i g hi hnot => line_lowest hafter.run hw₁ hnot (hB.lowest i g hi)⟩

/-- The denominator: one of the powers, bound to its variable. -/
theorem denominator_inv {T : Primitive → Prop} {baseDen lengthD : ℕ} {prime inv num : ℤ}
    {text : Text} {pd : Primitive} {bitDis dis : List GatePosition} {unique dGate : GatePosition}
    {u u' : Unit} {s₁ s₂ s₃ s₄ : PWSCircuitParser} (hs : WellFormed s) (hT : T pd)
    (hpd : pd.isVariable = true)
    (hden : parseDenominators baseDen prime inv lengthD s = some ((bitDis, dis, num), s₁))
    (hunique : reduce .add bitDis s₁ = some (unique, s₂))
    (hout : bindOutputConstant unique text s₂ = some (u, s₃))
    (hdGate : reduce .add dis s₃ = some (dGate, s₄))
    (hbind : bindVariable pd dGate s₄ = some (u', s')) :
    PlainLine T s s' ∧ bitDis.length = lengthD ∧ HasGate s' dGate ∧
      ∀ i g, bitDis[i]? = some g → ¬ T ⟨.intermediate, baseDen + i⟩ →
        lowest s' ⟨.intermediate, baseDen + i⟩ = some g := by
  obtain ⟨hr₁, hops, hlength, hlow, hthere⟩ := parseDenominators_run hs hden
  have hline : PlainLine T s s₁ := ⟨hr₁.of_gadget, hops⟩
  have hw₁ := (hline.run.wellFormed hs).1
  obtain ⟨hr₂, -⟩ := reduce_run (by decide) hw₁ (fun t ht => by
    obtain ⟨i, hi⟩ := List.mem_iff_getElem?.mp ht
    exact hw₁.hasGate_lowest (hlow i t hi)) hunique
  have hplain₁ : PlainLine T s₁ s₃ :=
    (PlainLine.of_building hr₂).trans (bindOutputConstant_plain hout)
  obtain ⟨hw₃, hgrows₃, -⟩ := hplain₁.run.wellFormed hw₁
  obtain ⟨hr₄, hthereD⟩ := reduce_run (by decide) hw₃
    (fun t ht => hgrows₃.hasGate (hthere t ht)) hdGate
  have hw₄ := (hr₄.wellFormed hw₃).1
  have hbound : PlainLine T s₄ s' := bindVariable_plain hT hpd hbind
  have hafter : PlainLine T s₁ s' := hplain₁.trans ((PlainLine.of_building hr₄).trans hbound)
  exact ⟨hline.trans hafter, hlength, (hbound.run.wellFormed hw₄).2.1.hasGate hthereD,
    fun i g hi hnot => line_lowest hafter.run hw₁ hnot (hlow i g hi)⟩

/-- The second half of a line `<F`: the flags, and the differences of the operands against the
product of numerator and denominator. -/
theorem floatFlags_inv {rightFirst : Bool} {plt peq pgt p1 p2 : Primitive}
    {lt eq gt ndGate d12 d21 : GatePosition} {u : Unit} {s₁ s₂ s₃ : PWSCircuitParser}
    (hs : WellFormed s) (hplt : plt.pType = .intermediate) (hpeq : peq.pType = .intermediate)
    (hpgt : pgt.pType = .intermediate) (hnd : HasGate s ndGate)
    (hflags : parseFlags plt peq pgt s = some ((lt, eq, gt), s₁))
    (h12 : makeSubGate rightFirst p1 p2 s₁ = some (d12, s₂))
    (h21 : makeSubGate rightFirst p2 p1 s₂ = some (d21, s₃))
    (hdiff : parseDifferences lt eq gt ndGate d12 d21 s₃ = some (u, s')) :
    Run gadget s s' ∧ s'.magicOps = s.magicOps ∧ lowest s' plt = some lt ∧
      lowest s' peq = some eq ∧ lowest s' pgt = some gt := by
  obtain ⟨out, hF⟩ := parseFlags_inv (S := False) (R := ℤ) hs False.elim False.elim hplt hpeq
    hpgt hflags
  obtain ⟨hw₁, hgrows₁, -⟩ := hF.run.wellFormed hs
  obtain ⟨-, -, hr₂, -, -, hthere12⟩ := makeSubGate_run hw₁ h12
  have hw₂ := (hr₂.wellFormed hw₁).1
  obtain ⟨-, -, hr₃, -, -, hthere21⟩ := makeSubGate_run hw₂ h21
  obtain ⟨hw₃, hgrows₃, -⟩ := hr₃.wellFormed hw₂
  have hgrows : Grows s₁ s₃ := (Run.wellFormed (hr₂.trans hr₃) hw₁).2.1
  obtain ⟨_, _, _, hr₄, hrecorded, -⟩ := parseDifferences_inv (S := False) (R := ℤ) hw₃ False.elim
    (fun g hg => by
      simp only [List.mem_cons, List.not_mem_nil, or_false] at hg
      rcases hg with rfl | rfl | rfl | rfl | rfl | rfl
      · exact hgrows.hasGate (hw₁.hasGate_lowest hF.below)
      · exact hgrows.hasGate (hw₁.hasGate_lowest hF.equal)
      · exact hgrows.hasGate (hw₁.hasGate_lowest hF.above)
      · exact (hgrows₁.trans hgrows).hasGate hnd
      · exact hgrows₃.hasGate hthere12
      · exact hthere21) False.elim hdiff
  have hbuilt : Run building s₁ s₃ := hr₂.trans hr₃
  have hafter : Run gadget s₁ s' := hbuilt.of_building.trans hr₄
  refine ⟨hF.run.trans hafter, ?_, line_lowest hafter hw₁ id hF.below,
    line_lowest hafter hw₁ id hF.equal, line_lowest hafter hw₁ id hF.above⟩
  rw [hrecorded.ops, hbuilt.sameRecords.ops, hF.recorded.ops]

/-- The line `<F`. -/
theorem lessThanFloat_recorded {rightFirst : Bool} {prime : ℤ} {pws rest : List Token}
    {line : OpLine} (hs : WellFormed s) (hline : opLine? (.word .lessThanFloat :: pws) = some line)
    (hmagic : ∀ m ∈ line.magics, m.pType = .intermediate)
    (h : parseLessThanFloat rightFirst prime pws s = some (rest, s')) :
    ∃ op, OpRecorded line s s' op := by
  unfold parseLessThanFloat at h
  split at h
  · next n0 na n d0 nb d nd mlt meq mgt x1 x2 y pws =>
    simp only [opLine?, Option.bind_eq_bind, Option.bind_eq_some_iff, Option.some.injEq] at hline
    obtain ⟨b, hb, pn, hn, c, hc, pd, hd, pnd, hnd, plt, hlt, peq, heq, pgt, hgt, py, hy, rfl⟩ :=
      hline
    obtain ⟨guard, t₀, hguard, h₁⟩ := bind_inv h
    obtain ⟨hguard', rfl⟩ := Prod.mk.inj (Option.some.inj hguard)
    obtain ⟨b', t₁, hb', h₂⟩ := bind_inv h₁
    obtain ⟨N, t₂, hna, h₃⟩ := bind_inv h₂
    obtain ⟨pn', t₃, hn', h₄⟩ := bind_inv h₃
    obtain ⟨c', t₄, hc', h₅⟩ := bind_inv h₄
    obtain ⟨M, t₅, hnb, h₆⟩ := bind_inv h₅
    obtain ⟨pd', t₆, hd', h₇⟩ := bind_inv h₆
    obtain ⟨pnd', t₇, hnd', h₈⟩ := bind_inv h₇
    obtain ⟨plt', t₈, hlt', h₉⟩ := bind_inv h₈
    obtain ⟨peq', t₉, heq', h₁₀⟩ := bind_inv h₉
    obtain ⟨pgt', t₁₀, hgt', h₁₁⟩ := bind_inv h₁₀
    obtain ⟨p1, t₁₁, hp1, h₁₂⟩ := bind_inv h₁₁
    obtain ⟨p2, t₁₂, hp2, h₁₃⟩ := bind_inv h₁₂
    obtain ⟨py', t₁₃, hy', h₁₄⟩ := bind_inv h₁₃
    obtain ⟨nis, s₁, hbits, h₁₅⟩ := bind_inv h₁₄
    obtain ⟨power, s₂, hpower, h₁₆⟩ := bind_inv h₁₅
    obtain ⟨powerGate, s₃, hpowerGate, h₁₇⟩ := bind_inv h₁₆
    obtain ⟨nGate, s₄, hnGate, h₁₈⟩ := bind_inv h₁₇
    obtain ⟨u₁, s₅, hbindN, h₁₉⟩ := bind_inv h₁₈
    obtain ⟨⟨bitDis, dis, num⟩, s₆, hden, h₂₀⟩ := bind_inv h₁₉
    obtain ⟨unique, s₇, hunique, h₂₁⟩ := bind_inv h₂₀
    obtain ⟨u₂, s₈, hout, h₂₂⟩ := bind_inv h₂₁
    obtain ⟨dGate, s₉, hdGate, h₂₃⟩ := bind_inv h₂₂
    obtain ⟨u₃, s₁₀, hbindD, h₂₄⟩ := bind_inv h₂₃
    obtain ⟨ndGate, s₁₁, hndGate, h₂₅⟩ := bind_inv h₂₄
    obtain ⟨u₄, s₁₂, hbindND, h₂₆⟩ := bind_inv h₂₅
    obtain ⟨⟨lt, eq, gt⟩, s₁₃, hflags, h₂₇⟩ := bind_inv h₂₆
    obtain ⟨d12, s₁₄, h12, h₂₈⟩ := bind_inv h₂₇
    obtain ⟨d21, s₁₅, h21, h₂₉⟩ := bind_inv h₂₈
    obtain ⟨u₅, s₁₆, hdiff, h₃₀⟩ := bind_inv h₂₉
    obtain ⟨u₆, s₁₇, hbindY, h₃₁⟩ := bind_inv h₃₀
    obtain ⟨g1, s₁₈, hg1, h₃₂⟩ := bind_inv h₃₁
    obtain ⟨g2, s₁₉, hg2, h₃₃⟩ := bind_inv h₃₂
    obtain ⟨u₇, s₂₀, hop, hpure⟩ := bind_inv h₃₃
    obtain ⟨rfl, rfl⟩ := pure_inv hpure
    clear h h₁ h₂ h₃ h₄ h₅ h₆ h₇ h₈ h₉ h₁₀ h₁₁ h₁₂ h₁₃ h₁₄ h₁₅ h₁₆ h₁₇ h₁₈ h₁₉ h₂₀ h₂₁ h₂₂ h₂₃ h₂₄
      h₂₅ h₂₆ h₂₇ h₂₈ h₂₉ h₃₀ h₃₁ h₃₂ h₃₃ hpure
    -- the names
    obtain ⟨rfl, hr₁, hw₁⟩ := requireVariable_inv hs hb hb'
    obtain ⟨rfl, textA, rfl, hnumA⟩ := requireInt_inv hna
    obtain ⟨rfl, hr₃, hw₃⟩ := requireVariable_inv hw₁ hn hn'
    obtain ⟨rfl, hr₄, hw₄⟩ := requireVariable_inv hw₃ hc hc'
    obtain ⟨rfl, textB, rfl, hnumB⟩ := requireInt_inv hnb
    obtain ⟨rfl, hr₆, hw₆⟩ := requireVariable_inv hw₄ hd hd'
    obtain ⟨rfl, hr₇, hw₇⟩ := requireVariable_inv hw₆ hnd hnd'
    obtain ⟨rfl, hr₈, hw₈⟩ := requireVariable_inv hw₇ hlt hlt'
    obtain ⟨rfl, hr₉, hw₉⟩ := requireVariable_inv hw₈ heq heq'
    obtain ⟨rfl, hr₁₀, hw₁₀⟩ := requireVariable_inv hw₉ hgt hgt'
    obtain ⟨hr₁₁, hw₁₁, hp1⟩ := requirePrimitive_inv hw₁₀ hp1
    obtain ⟨hr₁₂, hw₁₂, hp2⟩ := requirePrimitive_inv hw₁₁ hp2
    obtain ⟨rfl, hr₁₃, hw₁₃⟩ := requireVariable_inv hw₁₂ hy hy'
    have hnumA' : Token.number (.const textA) = N := by rw [Token.number, hnumA]; rfl
    have hnumB' : Token.number (.const textB) = M := by rw [Token.number, hnumB]; rfl
    have hpn := asVariable_isVariable hn
    have hpd := asVariable_isVariable hd
    have hpnd := asVariable_isVariable hnd
    have hpy := asVariable_isVariable hy
    rw [hnumA', hnumB'] at hmagic
    generalize hT : [pn', pd', pnd', py'] = targets
    have hTn : pn' ∈ targets := by rw [← hT]; simp
    have hTd : pd' ∈ targets := by rw [← hT]; simp
    have hTnd : pnd' ∈ targets := by rw [← hT]; simp
    have hTy : py' ∈ targets := by rw [← hT]; simp
    have hvariable : ∀ q ∈ targets, q.isVariable = true := by
      intro q hq
      rw [← hT] at hq
      simp only [List.mem_cons, List.not_mem_nil, or_false] at hq
      rcases hq with rfl | rfl | rfl | rfl <;> assumption
    have hnames : PlainLine (· ∈ targets) _ t₁₃ :=
      .of_building ((((((((((hr₁.trans hr₃).trans hr₄).trans hr₆).trans hr₇).trans hr₈).trans
        hr₉).trans hr₁₀).trans hr₁₁).trans hr₁₂).trans hr₁₃)
    -- the numerator, the denominator and their product
    obtain ⟨hlineN, hlengthN, hthereN, hlowN⟩ :=
      numerator_inv hw₁₃ hTn hpn hbits hpower hpowerGate hnGate hbindN
    have hv₅ := (hlineN.run.wellFormed hw₁₃).1
    obtain ⟨hlineD, hlengthD, hthereD, hlowD⟩ :=
      denominator_inv hv₅ hTd hpd hden hunique hout hdGate hbindD
    obtain ⟨hv₁₀, hgrows₁₀, -⟩ := hlineD.run.wellFormed hv₅
    obtain ⟨hr₂₃, hthereND⟩ := makeGate_run (by decide) hv₁₀ (hgrows₁₀.hasGate hthereN) hthereD
      hndGate
    have hv₁₁ := (hr₂₃.wellFormed hv₁₀).1
    have hbound₁₁ : PlainLine (· ∈ targets) s₁₁ s₁₂ := bindVariable_plain hTnd hpnd hbindND
    obtain ⟨hv₁₂, hgrows₁₂, -⟩ := hbound₁₁.run.wellFormed hv₁₁
    -- the flags and the differences
    obtain ⟨hrunF, hopsF, hbelow, hequal, habove⟩ := floatFlags_inv hv₁₂ (hmagic plt' (by simp))
      (hmagic peq' (by simp)) (hmagic pgt' (by simp)) (hgrows₁₂.hasGate hthereND) hflags h12 h21
      hdiff
    have hlineF : PlainLine (· ∈ targets) s₁₂ s₁₆ := ⟨hrunF.of_gadget, hopsF⟩
    have hv₁₆ := (hlineF.run.wellFormed hv₁₂).1
    -- the target, and the record
    have hbound₁₆ : PlainLine (· ∈ targets) s₁₆ s₁₇ := bindVariable_plain hTy hpy hbindY
    have hv₁₇ := (hbound₁₆.run.wellFormed hv₁₆).1
    obtain ⟨hr₂₈, hlow1, hlow2, hops, -⟩ := recordOp_inv (T := (· ∈ targets)) hv₁₇ hg1 hg2 hop
    have hafterD : PlainLine (· ∈ targets) s₁₀ s₁₇ :=
      ((PlainLine.of_building hr₂₃).trans hbound₁₁).trans (hlineF.trans hbound₁₆)
    have hafterN : PlainLine (· ∈ targets) s₅ s₁₇ := hlineD.trans hafterD
    have hwhole : PlainLine (· ∈ targets) _ s₁₇ := (hnames.trans hlineN).trans hafterN
    refine ⟨.lessThanFloat [lt, eq, gt] nis bitDis g1 g2, hwhole.run.trans hr₂₈,
      by rw [hops, hwhole.ops, ← hguard'], operands_named hp1 hp2 hlow1 hlow2,
      fun htargets g hg => ?_⟩
    · rw [hnumA', hnumB'] at htargets ⊢
      generalize hmagics : [plt', peq', pgt'] ++ magicRange b'.idx N.toNat ++
        magicRange c'.idx (M + 1).toNat = magics at htargets ⊢
      have hne : ∀ m ∈ magics, m ∉ targets := fun m hm hq => htargets m (hT ▸ hq) hm
      -- what follows a group of magic variables binds none of them
      have hkeep : ∀ {t m g}, PlainLine (· ∈ targets) t s₁₇ → WellFormed t → m ∈ magics →
          lowest t m = some g → ∃ q ∈ magics, lowest s' q = some g :=
        fun hafter hwf hm hlow => ⟨_, hm, line_lowest hr₂₈ hv₁₇ (hne _ hm)
          (line_lowest hafter.run hwf (hne _ hm) hlow)⟩
      have hflag : ∀ p ∈ [plt', peq', pgt'], p ∈ magics := fun p hp => by
        rw [← hmagics]
        exact List.mem_append_left _ (List.mem_append_left _ hp)
      simp only [MagicVarOperation.sets, List.mem_append, List.mem_cons, List.not_mem_nil,
        or_false] at hg
      rcases hg with ((rfl | rfl | rfl) | hg) | hg
      · exact hkeep hbound₁₆ hv₁₆ (hflag plt' (by simp)) hbelow
      · exact hkeep hbound₁₆ hv₁₆ (hflag peq' (by simp)) hequal
      · exact hkeep hbound₁₆ hv₁₆ (hflag pgt' (by simp)) habove
      · obtain ⟨i, hi⟩ := List.mem_iff_getElem?.mp hg
        have hlt' : i < N.toNat := hlengthN ▸ (List.getElem?_eq_some_iff.mp hi).1
        have hmem : (⟨.intermediate, b'.idx + i⟩ : Primitive) ∈ magics := by
          rw [← hmagics]
          exact List.mem_append_left _ (List.mem_append_right _ (mem_magicRange _ hlt'))
        exact hkeep hafterN hv₅ hmem (hlowN i g hi (hne _ hmem))
      · obtain ⟨i, hi⟩ := List.mem_iff_getElem?.mp hg
        have hlt' : i < (M + 1).toNat := hlengthD ▸ (List.getElem?_eq_some_iff.mp hi).1
        have hmem : (⟨.intermediate, c'.idx + i⟩ : Primitive) ∈ magics := by
          rw [← hmagics]
          exact List.mem_append_right _ (mem_magicRange _ hlt')
        exact hkeep hafterD hv₁₀ hmem (hlowD i g hi (hne _ hmem))
  · exact (failure_inv h).elim

end OpLines

end Pepper.Cmtgkr.Pws
