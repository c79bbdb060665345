import Pepper.Cmtgkr.PwsComparisons

/-!
# Whole worksheets

The loop of `parse` over the lines of a worksheet. What every line keeps, the parser keeps
(`parseLines_keeps`), and the whole parse is a run of elementary calls (`parseLines_run`).
-/

set_option autoImplicit false

open Pepper.Common.Gmp Pepper.Cmtgkr.Env Pepper.Cmtgkr.Layer

namespace Pepper.Cmtgkr.Pws

/-! ## Lines -/

/-- One pass of the loop of `parse`: a line, or a word that begins none. -/
def parseLine (rightFirst : Bool) (prime : ℤ) (token : Token) (pws : List Token) :
    ParserM (List Token) :=
  match token with
  | .word .poly => parsePolyConstraint pws
  | .word .lessThanInt => parseLessThanInt rightFirst pws
  | .word .lessThanFloat => parseLessThanFloat rightFirst prime pws
  | .word .notEqual => parseNotEqual rightFirst pws
  | .word .slash => parseDivide prime pws
  | _ => pure pws

theorem parseLines_succ (rightFirst : Bool) (prime : ℤ) (fuel : ℕ) (token : Token)
    (pws : List Token) :
    parseLines rightFirst prime (fuel + 1) (token :: pws) =
      (parseLine rightFirst prime token pws >>= parseLines rightFirst prime fuel) := by
  cases token with
  | word w => cases w <;> rfl
  | var type name => rfl
  | const text => rfl
  | comment => rfl

theorem parseLines_cons {rightFirst : Bool} {prime : ℤ} {fuel : ℕ} {token : Token}
    {pws rest : List Token} {s s' t : PWSCircuitParser}
    (h : parseLine rightFirst prime token pws s = some (rest, s'))
    (hrest : parseLines rightFirst prime fuel rest s' = some ((), t)) :
    parseLines rightFirst prime (fuel + 1) (token :: pws) s = some ((), t) := by
  rw [parseLines_succ, bind_run h, hrest]

/-- The words that begin the lines with operations. -/
def Token.isOpWord : Token → Bool
  | .word .lessThanInt | .word .lessThanFloat | .word .notEqual => true
  | _ => false

/-- Every line with an operation names variables, with the property `Q` in the state in which the
parser comes to the line. -/
def OpLines (rightFirst : Bool) (prime : ℤ) (Q : OpLine → PWSCircuitParser → Prop) :
    ℕ → List Token → PWSCircuitParser → Prop
  | 0, _, _ => True
  | _ + 1, [], _ => True
  | fuel + 1, token :: pws, s =>
      (token.isOpWord = true → ∃ line, opLine? (token :: pws) = some line ∧ Q line s) ∧
        ∀ rest s', parseLine rightFirst prime token pws s = some (rest, s') →
          OpLines rightFirst prime Q fuel rest s'

instance decidableOpLines {rightFirst : Bool} {prime : ℤ} {Q : OpLine → PWSCircuitParser → Prop}
    [∀ line s, Decidable (Q line s)] :
    ∀ fuel pws s, Decidable (OpLines rightFirst prime Q fuel pws s)
  | 0, _, _ => isTrue trivial
  | _ + 1, [], _ => isTrue trivial
  | fuel + 1, token :: pws, s =>
      have := @decidableOpLines rightFirst prime Q _ fuel
      decidable_of_iff
        ((token.isOpWord = true → ∃ line ∈ opLine? (token :: pws), Q line s) ∧
          ∀ r ∈ parseLine rightFirst prime token pws s,
            OpLines rightFirst prime Q fuel r.1 r.2)
        ⟨fun h => ⟨h.1, fun rest s' hr => h.2 (rest, s') hr⟩,
          fun h => ⟨h.1, fun r hr => h.2 r.1 r.2 hr⟩⟩

/-- The magic variables of a line are no inputs or outputs. -/
def OpLine.Intermediate (line : OpLine) : Prop := ∀ m ∈ line.magics, m.pType = .intermediate

section Lines

variable {rightFirst : Bool} {prime : ℤ} {s s' : PWSCircuitParser}

/-- A line, which names variables with the property if it has an operation, and the lines behind
it. -/
theorem opLines_cons {Q : OpLine → PWSCircuitParser → Prop} {fuel : ℕ} {token : Token}
    {pws rest : List Token}
    (hop : token.isOpWord = true → ∃ line, opLine? (token :: pws) = some line ∧ Q line s)
    (h : parseLine rightFirst prime token pws s = some (rest, s'))
    (hrest : OpLines rightFirst prime Q fuel rest s') :
    OpLines rightFirst prime Q (fuel + 1) (token :: pws) s := by
  refine ⟨hop, fun rest' t ht => ?_⟩
  obtain ⟨rfl, rfl⟩ := Prod.mk.inj (Option.some.inj (h.symm.trans ht))
  exact hrest

/-- A line records one operation, or none. -/
theorem parseLine_inv (hs : WellFormed s) {token : Token} {pws rest : List Token}
    {Q : OpLine → PWSCircuitParser → Prop} (hQ : ∀ line, Q line s → line.Intermediate)
    (hline : token.isOpWord = true → ∃ line, opLine? (token :: pws) = some line ∧ Q line s)
    (h : parseLine rightFirst prime token pws s = some (rest, s')) :
    PlainLine (fun _ => True) s s' ∨ ∃ line op, Q line s ∧ OpRecorded line s s' op := by
  unfold parseLine at h
  split at h
  · exact Or.inl (parsePolyConstraint_run hs h)
  · obtain ⟨line, hop, hq⟩ := hline rfl
    obtain ⟨op, hrecorded⟩ := lessThanInt_recorded hs hop (hQ line hq) h
    exact Or.inr ⟨line, op, hq, hrecorded⟩
  · obtain ⟨line, hop, hq⟩ := hline rfl
    obtain ⟨op, hrecorded⟩ := lessThanFloat_recorded hs hop (hQ line hq) h
    exact Or.inr ⟨line, op, hq, hrecorded⟩
  · obtain ⟨line, hop, hq⟩ := hline rfl
    obtain ⟨op, hrecorded⟩ := notEqual_recorded hs hop (hQ line hq) h
    exact Or.inr ⟨line, op, hq, hrecorded⟩
  · exact Or.inl (parseDivide_run hs h)
  · obtain ⟨-, rfl⟩ := pure_inv h
    exact Or.inl ⟨.refl, rfl⟩

/-- What every line keeps, the parser keeps. -/
theorem parseLines_keeps {Q : OpLine → PWSCircuitParser → Prop}
    (hQ : ∀ line s, Q line s → line.Intermediate) {I : PWSCircuitParser → Prop}
    (hplain : ∀ s s', WellFormed s → I s → PlainLine (fun _ => True) s s' → I s')
    (hop : ∀ s s' line op, WellFormed s → I s → Q line s → OpRecorded line s s' op → I s')
    {fuel : ℕ} {pws : List Token} (hs : WellFormed s) (hI : I s)
    (hlines : OpLines rightFirst prime Q fuel pws s)
    (h : parseLines rightFirst prime fuel pws s = some ((), s')) : Run anyLine s s' ∧ I s' := by
  induction fuel generalizing pws s with
  | zero => exact (failure_inv h).elim
  | succ fuel ih =>
      cases pws with
      | nil =>
          obtain ⟨-, rfl⟩ := pure_inv h
          exact ⟨.refl, hI⟩
      | cons token pws =>
          rw [parseLines_succ] at h
          obtain ⟨rest, s₁, hline, hrest⟩ := bind_inv h
          obtain ⟨hfirst, hlater⟩ := hlines
          have hstep : Run anyLine s s₁ ∧ I s₁ := by
            rcases parseLine_inv hs (fun line => hQ line s) hfirst hline with
              hp | ⟨line, op, hq, hrecorded⟩
            · exact ⟨hp.run, hplain s s₁ hs hI hp⟩
            · exact ⟨hrecorded.run.of_line, hop s s₁ line op hs hI hq hrecorded⟩
          have hwf := (hstep.1.wellFormed hs).1
          obtain ⟨hrun, hI'⟩ := ih hwf hstep.2 (hlater rest s₁ hline) hrest
          exact ⟨hstep.1.trans hrun, hI'⟩

/-- The parser makes a run of elementary calls. -/
theorem parseLines_run {fuel : ℕ} {pws : List Token} (hs : WellFormed s)
    (hlines : OpLines rightFirst prime (fun line _ => line.Intermediate) fuel pws s)
    (h : parseLines rightFirst prime fuel pws s = some ((), s')) : Run anyLine s s' :=
  (parseLines_keeps (I := fun _ => True) (fun _ _ h => h) (fun _ _ _ _ _ => trivial)
    (fun _ _ _ _ _ _ _ _ => trivial) hs trivial hlines h).1

end Lines

/-! ## The output layer -/

section Outputs

variable {T : Primitive → Prop} {s s' : PWSCircuitParser}

theorem le_foldl_max {α : Type} (f : α → ℕ) (l : List α) (b : ℕ) :
    b ≤ l.foldl (fun n a => max (f a) n) b ∧ ∀ a ∈ l, f a ≤ l.foldl (fun n a => max (f a) n) b := by
  induction l generalizing b with
  | nil => exact ⟨Nat.le_refl b, by simp⟩
  | cons a l ih =>
      obtain ⟨hle, hall⟩ := ih (max (f a) b)
      refine ⟨(le_max_right _ _).trans hle, fun c hc => ?_⟩
      rcases List.mem_cons.mp hc with rfl | hc
      · exact (le_max_left _ _).trans hle
      · exact hall c hc

/-- An entry of a map with ascending keys. -/
theorem lookup_of_mem {α : Type} {m : List (ℕ × α)} (hm : Ordered m) {k : ℕ} {a : α}
    (h : (k, a) ∈ m) : m.lookup k = some a := by
  induction m with
  | nil => exact absurd h List.not_mem_nil
  | cons e m ih =>
      obtain ⟨hlt, hrest⟩ := ordered_cons.mp hm
      rw [lookup_cons_ite]
      rcases List.mem_cons.mp h with rfl | h
      · exact if_pos rfl
      · have hk := hlt k (List.mem_map_of_mem h)
        rw [if_neg (by omega), ih hrest h]

/-- A loop whose passes record no operation. -/
theorem forM_plain {α : Type} {f : α → ParserM Unit} {l : List α} {u : Unit}
    (hf : ∀ a ∈ l, ∀ t u t', PlainLine T s t → f a t = some (u, t') → PlainLine T t t')
    (h : l.forM f s = some (u, s')) : PlainLine T s s' := by
  suffices ∀ t, PlainLine T s t → l.forM f t = some (u, s') → PlainLine T t s' from
    this s ⟨.refl, rfl⟩ h
  clear h
  intro t
  induction l generalizing t with
  | nil =>
      intro _ h
      obtain ⟨-, rfl⟩ := pure_inv h
      exact ⟨.refl, rfl⟩
  | cons a l ih =>
      intro ht h
      obtain ⟨u', t₁, hfirst, hrest⟩ := bind_inv h
      have hstep := hf a List.mem_cons_self t u' t₁ ht hfirst
      exact hstep.trans (ih (fun b hb => hf b (List.mem_cons_of_mem _ hb)) t₁ (ht.trans hstep) hrest)

/-- A bound output has a gate. -/
theorem boundOutputs_lowest (hs : WellFormed s) {v : CVar} (hv : v ∈ boundOutputs s) :
    ∃ g, lowest s ⟨.inputOutput, v.name⟩ = some g := by
  obtain ⟨hmem, hbound⟩ := List.mem_filter.mp hv
  obtain ⟨⟨k, v'⟩, hentry, rfl⟩ := List.mem_map.mp hmem
  have hlookup := lookup_of_mem hs.iosOrdered hentry
  obtain ⟨g, hg⟩ := (v'.toCPrimitive.isBound_iff).mp (Bool.and_eq_true_iff.mp hbound).2
  refine ⟨g, lowest_eq_some.mpr ⟨v'.toCPrimitive, ?_, hg⟩⟩
  have hname := (hs.ioNames k v' hlookup).1
  change (s.inOutVarsMap.lookup v'.name).map CVar.toCPrimitive = _
  rw [hname, hlookup]
  rfl

/-- `makeOutputLayer` carries up gates, and records none of the operations. -/
theorem makeOutputLayer_run (hs : WellFormed s) {u : Unit}
    (h : makeOutputLayer s = some (u, s')) : PlainLine (fun _ => False) s s' := by
  obtain ⟨s₀, s₁, hget, h₁⟩ := bind_inv h
  obtain ⟨rfl, rfl⟩ := Prod.mk.inj (Option.some.inj hget)
  obtain ⟨u₂, s₂, hbegin, h₂⟩ := bind_inv h₁
  obtain ⟨u₃, s₃, hconstants, houtputs⟩ := bind_inv h₂
  clear h h₁ h₂
  have hrecord : ∀ {t t' : PWSCircuitParser}, SameNames t t' → t'.circuitDesc = t.circuitDesc →
      t'.magicOps = t.magicOps → PlainLine (fun _ => False) t t' := fun hnames hdesc hops =>
    ⟨.single (.record trivial hnames hdesc), hops⟩
  have hline₂ : PlainLine (fun _ => False) s s₂ := by
    rw [modify_inv hbegin]
    exact hrecord ⟨rfl, rfl, rfl⟩ rfl rfl
  have hw₂ := (hline₂.run.wellFormed hs).1
  -- the gates that are bound to constants
  have hline₃ : PlainLine (fun _ => False) s₂ s₃ := forM_plain (fun d hd t u t' ht hpass => by
    obtain ⟨pos, t₁, hpromote, hpush⟩ := bind_inv hpass
    have hw := (ht.run.wellFormed hw₂).1
    have hle := ((le_foldl_max (fun d : GatePosition × Text => d.1.layer) s.outConstantDesc 0).2 d
      hd).trans (le_foldl_max (fun v : CVar => v.minLayer) (boundOutputs s) _).1
    have hcarried := promoteGate_inv building hw hle hpromote
    have hbuilt : PlainLine (fun _ => False) t t₁ := .of_building hcarried.run
    refine hbuilt.trans ?_
    rw [modify_inv hpush]
    exact hrecord ⟨rfl, rfl, rfl⟩ rfl rfl) hconstants
  -- the outputs that have gates
  have hw₃ := (hline₃.run.wellFormed hw₂).1
  refine (hline₂.trans hline₃).trans (forM_plain (fun v hv t u t' ht hpass => ?_) houtputs)
  obtain ⟨g, hlow⟩ := boundOutputs_lowest hs hv
  have hlow' := line_lowest ((hline₂.trans hline₃).trans ht).run hs id hlow
  obtain ⟨pos, t₁, hpromote, hpure⟩ := bind_inv hpass
  obtain ⟨-, rfl⟩ := pure_inv hpure
  exact .of_building (promotePrimitive_inv building (ht.run.wellFormed hw₃).1 hlow' hpromote).2.run

end Outputs

end Pepper.Cmtgkr.Pws
