import Pepper.Foundations.Outcome
import Pepper.Foundations.TextLines
import Pepper.Libv.ComputePoly

/-!
# The cells of the prover's interpreter of polynomials

`compute_poly` on the array `temp_qs` itself: a call at `tempNum` works in the cells `tempNum` and
`tempNum + 1`, and a bracket starts a call at `tempNum + 2`. An access past the array is a fault.

A call writes its own two cells and the cells above them (`computePoly_framed`). `Holds` relates
the two cells and the flags of a call to the state of the loop that has no array, and each part of
the code keeps that relation as long as both cells are in the array.
-/

set_option autoImplicit false

namespace Pepper.Libv.TempStack

open Pepper.Foundations Pepper.Foundations.Outcome Pepper.Foundations.TextLines Pepper.Zcc
open Pepper.Libv.ComputePoly (PolyState polyReader)

/-! ## The code -/

/-- A string that the stream iterator yields. -/
abbrev Tok := List Char

/-- How a call can fail to return: it accesses a cell past the array. `fuel` is the bound on the
recursion of the model. -/
inductive Fault where
  | outside (index : ℕ)
  | fuel
deriving DecidableEq, Repr

/-- The members that `voc` reads. -/
structure Variables where
  sizeInput : ℕ
  sizeOutput : ℕ
  numVars : ℕ
  inputOutputQ : ℕ → ℚ
  f1Q : ℕ → ℚ
  f1Index : ℕ → ℕ

/-- `atoi`: the number at the start of a text, or zero. -/
def atoi (text : Tok) : ℤ := ((scanNumber text).map Prod.fst).getD 0

/-- What `voc` leaves: the value of the variable it refers to, the value of `use_if_constant`, and
what it has printed. -/
structure Voc where
  value : ℚ
  useIfConstant : ℚ
  printed : List String

/-- The message of `voc` on a variable out of range. -/
def parseError (str : Tok) : String := "PARSE ERROR - variable " ++ String.ofList str ++ "\n"

/-- A branch of `voc`: the variable with the number that follows the first character, if that is
from `low` on and below `high`. -/
def vocRange (low high : ℕ) (cell : ℕ → ℚ) (str : Tok) (useIfConstant : ℚ) : Voc :=
  let index := atoi (str.drop 1)
  if index < low ∨ index ≥ high then ⟨useIfConstant, useIfConstant, [parseError str]⟩
  else ⟨cell index.toNat, useIfConstant, []⟩

/-- `voc`. `mpqSetStr` gives what `mpq_set_str` leaves in its first argument. -/
def voc (vars : Variables) (mpqSetStr : Tok → ℚ → ℚ) (str : Tok) (useIfConstant : ℚ) : Voc :=
  match str.head? with
  | some 'I' => vocRange 0 vars.sizeInput vars.inputOutputQ str useIfConstant
  | some 'O' =>
      vocRange vars.sizeInput (vars.sizeInput + vars.sizeOutput) vars.inputOutputQ str
        useIfConstant
  | some 'V' => vocRange 0 vars.numVars (fun i => vars.f1Q (vars.f1Index i)) str useIfConstant
  | _ => ⟨mpqSetStr str useIfConstant, mpqSetStr str useIfConstant, []⟩

/-- The members that `compute_poly` writes, with an array of `size` cells, and the output. -/
structure Members (size : ℕ) where
  tempQs : Fin size → ℚ
  tempQ : ℚ
  printed : List String

/-- The members and the local variables of one call. -/
structure CallState (size : ℕ) where
  members : Members size
  hasTerms : Bool
  hasFactors : Bool
  isEmpty : Bool
  negate : Bool

/-- One turn of the `while` loop: whether the loop goes on, and the tokens that are left. -/
structure Turn (size : ℕ) where
  again : Bool
  state : CallState size
  cmds : List Tok

variable {size : ℕ}

/-- Reading `temp_qs[i]`. -/
def Members.load (m : Members size) (i : ℕ) : Except Fault ℚ :=
  if h : i < size then .ok (m.tempQs ⟨i, h⟩) else .error (.outside i)

/-- Writing `temp_qs[i]`. -/
def Members.store (m : Members size) (i : ℕ) (q : ℚ) : Except Fault (Members size) :=
  if h : i < size then .ok { m with tempQs := Function.update m.tempQs ⟨i, h⟩ q }
  else .error (.outside i)

/-- The message of `compute_poly` on a polynomial that is nested too deep. -/
def tooManyCalls (size : ℕ) : String :=
  "ERROR IN PROVER - Polynomial required more than " ++ toString size ++ " recursive calls \n"

/-- The term that is emitted: negated in place after an odd number of signs. -/
def signTerm (tempNum : ℕ) (c : CallState size) : Except Fault (Members size) :=
  if c.negate then do
    let term ← c.members.load (tempNum + 1)
    c.members.store (tempNum + 1) (-term)
  else pure c.members

/-- The first term is the sum, every other term is added to it. -/
def addTerm (tempNum : ℕ) (hasTerms : Bool) (m : Members size) : Except Fault (Members size) := do
  let term ← m.load (tempNum + 1)
  if !hasTerms then m.store tempNum term
  else do
    let poly ← m.load tempNum
    m.store tempNum (poly + term)

/-- Emit the last term, if necessary. -/
def emit (tempNum : ℕ) (c : CallState size) : Except Fault (CallState size) :=
  if c.hasFactors then do
    let m ← signTerm tempNum c
    let m ← addTerm tempNum c.hasTerms m
    pure { members := m, hasTerms := true, isEmpty := false, hasFactors := false, negate := false }
  else pure c

/-- The first factor is the term, with every other factor the term is multiplied. -/
def multiplyTerm (tempNum : ℕ) (r : ℚ) (c : CallState size) : Except Fault (Members size) :=
  if !c.hasFactors then c.members.store (tempNum + 1) r
  else do
    let term ← c.members.load (tempNum + 1)
    c.members.store (tempNum + 1) (term * r)

/-- A factor of the current term. -/
def factor (tempNum : ℕ) (r : ℚ) (c : CallState size) : Except Fault (CallState size) := do
  let m ← multiplyTerm tempNum r c
  pure { c with members := m, hasFactors := true }

/-- What follows the loop: the last term, and zero for an empty polynomial. -/
def finish (tempNum : ℕ) (c : CallState size) : Except Fault (Members size) := do
  let c ← emit tempNum c
  if c.isEmpty then c.members.store tempNum 0 else pure c.members

/-- The start of the loop in a call. -/
def CallState.init (m : Members size) : CallState size where
  members := m
  hasTerms := false
  hasFactors := false
  isEmpty := true
  negate := false

section Code

variable (vars : Variables) (mpqSetStr : Tok → ℚ → ℚ)

/-- A sign ends the term before it. -/
def emitBefore (tempNum : ℕ) (c : CallState size) (tok : Tok) : Except Fault (CallState size) :=
  if tok = ['+'] ∨ tok = ['-'] then emit tempNum c else pure c

/-- The body of the `while` loop for a token and the tokens after it. `call` is the recursive
call. -/
def turn (call : ℕ → Members size → List Tok → Except Fault (Members size × List Tok))
    (tempNum : ℕ) (c : CallState size) (tok : Tok) (cmds : List Tok) :
    Except Fault (Turn size) := do
  let c ← emitBefore tempNum c tok
  if tok = ['('] then do
    -- a call that has been refused leaves its tokens to this loop
    let r ← call (tempNum + 2) c.members cmds
    let subresult ← r.1.load (tempNum + 2)
    let c ← factor tempNum subresult { c with members := r.1 }
    pure ⟨true, c, r.2⟩
  -- a closing bracket and the end of the line are not told apart
  else if tok = [')'] then pure ⟨false, c, cmds⟩
  else if tok = ['E'] then pure ⟨false, c, cmds⟩
  else if tok = ['+'] ∨ tok = ['*'] then pure ⟨true, c, cmds⟩
  else if tok = ['-'] then pure ⟨true, { c with negate := !c.negate }, cmds⟩
  else do
    let v := voc vars mpqSetStr tok c.members.tempQ
    let m := { c.members with
      tempQ := v.useIfConstant, printed := c.members.printed ++ v.printed }
    let c ← factor tempNum v.value { c with members := m }
    pure ⟨true, c, cmds⟩

/-- The `while` loop, with fuel for its turns. -/
def loop (call : ℕ → Members size → List Tok → Except Fault (Members size × List Tok)) :
    ℕ → ℕ → CallState size → List Tok → Except Fault (CallState size × List Tok)
  | _, _, c, [] => pure (c, [])
  | 0, _, _, _ :: _ => .error .fuel
  | fuel + 1, tempNum, c, tok :: cmds => do
      let t ← turn vars mpqSetStr call tempNum c tok cmds
      if t.again then loop call fuel tempNum t.state t.cmds else pure (t.state, t.cmds)

/-- `compute_poly`, with fuel for the calls. -/
def computePoly : ℕ → ℕ → Members size → List Tok → Except Fault (Members size × List Tok)
  | 0, _, _, _ => .error .fuel
  | fuel + 1, tempNum, m, cmds => do
      let m ← m.store tempNum 0
      -- the sum is cleared before the nesting is checked
      if tempNum ≥ size - 1 then
        pure ({ m with printed := m.printed ++ [tooManyCalls size] }, cmds)
      else do
        let r ← loop vars mpqSetStr (computePoly fuel) cmds.length tempNum (CallState.init m) cmds
        let m ← finish tempNum r.1
        pure (m, r.2)

/-- The call at the lowest cells; no call is made without a token of its own. -/
def run (m : Members size) (cmds : List Tok) : Except Fault (Members size × List Tok) :=
  computePoly vars mpqSetStr (cmds.length + 1) 0 m cmds

end Code

/-! ## Reading and writing cells -/

section Cells

variable {m : Members size} {i : ℕ}

/-- What a write to the cell `i` leaves. -/
structure Stored (m : Members size) (i : ℕ) (q : ℚ) (m' : Members size) : Prop where
  here : m'.load i = .ok q
  elsewhere : ∀ j, j ≠ i → m'.load j = m.load j
  printed : m'.printed = m.printed

theorem exists_load (m : Members size) (hi : i < size) : ∃ q, m.load i = .ok q :=
  ⟨_, dif_pos hi⟩

theorem store_outside (hi : size ≤ i) (q : ℚ) : m.store i q = .error (.outside i) :=
  dif_neg (not_lt.2 hi)

theorem store_spec (m : Members size) (hi : i < size) (q : ℚ) :
    Ends (m.store i q) (Stored m i q) fun _ => False := by
  rw [Members.store, dif_pos hi, ends_ok]
  refine ⟨?_, ?_, rfl⟩
  · rw [Members.load, dif_pos hi]
    exact congrArg Except.ok (Function.update_self _ _ _)
  · intro j hj
    rw [Members.load, Members.load]
    split_ifs with hjs
    · have hne : (⟨j, hjs⟩ : Fin size) ≠ ⟨i, hi⟩ := fun h => hj (congrArg Fin.val h)
      exact congrArg Except.ok (Function.update_of_ne hne _ _)
    · rfl

end Cells

/-! ## What a call leaves alone -/

/-- The cells below `tempNum` are the same, and the output has only grown. -/
structure Extends (tempNum : ℕ) (m m' : Members size) : Prop where
  below : ∀ i < tempNum, m'.load i = m.load i
  printed : m.printed <+: m'.printed

namespace Extends

variable {tempNum tempNum' : ℕ} {m m' m'' : Members size}

theorem refl (tempNum : ℕ) (m : Members size) : Extends tempNum m m :=
  ⟨fun _ _ => rfl, List.prefix_rfl⟩

theorem trans (h : Extends tempNum m m') (h' : Extends tempNum m' m'') :
    Extends tempNum m m'' :=
  ⟨fun i hi => (h'.below i hi).trans (h.below i hi), h.printed.trans h'.printed⟩

theorem mono (h : Extends tempNum' m m') (hle : tempNum ≤ tempNum') : Extends tempNum m m' :=
  ⟨fun i hi => h.below i (hi.trans_le hle), h.printed⟩

end Extends

section Frame

variable {tempNum : ℕ}

theorem store_extends (m : Members size) {i : ℕ} (hi : tempNum ≤ i) (q : ℚ) :
    Ends (m.store i q) (Extends tempNum m) fun _ => True := by
  by_cases hsize : i < size
  · refine (store_spec m hsize q).mono (fun m' h => ⟨?_, ?_⟩) fun _ h => h.elim
    · intro j hj
      exact h.elsewhere j (by omega)
    · rw [h.printed]
  · rw [store_outside (not_lt.1 hsize)]
    trivial

theorem signTerm_extends (c : CallState size) :
    Ends (signTerm tempNum c) (Extends tempNum c.members) fun _ => True := by
  rw [signTerm]
  split_ifs
  · rw [ends_bind]
    exact (ends_any _).mono_ok fun term _ => store_extends _ (Nat.le_succ _) _
  · exact Extends.refl _ _

theorem addTerm_extends (hasTerms : Bool) (m : Members size) :
    Ends (addTerm tempNum hasTerms m) (Extends tempNum m) fun _ => True := by
  rw [addTerm, ends_bind]
  refine (ends_any _).mono_ok fun term _ => ?_
  split_ifs
  · exact store_extends _ le_rfl _
  · rw [ends_bind]
    exact (ends_any _).mono_ok fun poly _ => store_extends _ le_rfl _

theorem emit_extends (c : CallState size) :
    Ends (emit tempNum c) (fun c' => Extends tempNum c.members c'.members) fun _ => True := by
  rw [emit]
  split_ifs
  · simp only [ends_bind, ends_pure]
    refine (signTerm_extends c).mono_ok fun m hm => ?_
    exact (addTerm_extends c.hasTerms m).mono_ok fun m' hm' => hm.trans hm'
  · exact Extends.refl _ _

theorem factor_extends (r : ℚ) (c : CallState size) :
    Ends (factor tempNum r c) (fun c' => Extends tempNum c.members c'.members) fun _ => True := by
  rw [factor, ends_bind, multiplyTerm]
  split_ifs
  · exact (store_extends _ (Nat.le_succ _) _).mono_ok fun m hm => hm
  · rw [ends_bind]
    exact (ends_any _).mono_ok fun term _ =>
      (store_extends _ (Nat.le_succ _) _).mono_ok fun m hm => hm

theorem finish_extends (c : CallState size) :
    Ends (finish tempNum c) (Extends tempNum c.members) fun _ => True := by
  rw [finish, ends_bind]
  refine (emit_extends c).mono_ok fun c' hc' => ?_
  split_ifs
  · exact (store_extends _ le_rfl _).mono_ok fun m hm => hc'.trans hm
  · exact hc'

variable {vars : Variables} {mpqSetStr : Tok → ℚ → ℚ}

/-- What every call leaves alone, and that it only takes tokens. -/
def Framed (call : ℕ → Members size → List Tok → Except Fault (Members size × List Tok)) : Prop :=
  ∀ tempNum m cmds,
    Ends (call tempNum m cmds) (fun r => Extends tempNum m r.1 ∧ r.2.length ≤ cmds.length)
      fun _ => True

theorem emitBefore_extends (c : CallState size) (tok : Tok) :
    Ends (emitBefore tempNum c tok) (fun c' => Extends tempNum c.members c'.members)
      fun _ => True := by
  rw [emitBefore]
  split_ifs
  · exact emit_extends c
  · exact Extends.refl _ _

variable {call : ℕ → Members size → List Tok → Except Fault (Members size × List Tok)}

theorem turn_extends (hcall : Framed call) (c : CallState size) (tok : Tok) (cmds : List Tok) :
    Ends (turn vars mpqSetStr call tempNum c tok cmds)
      (fun t => Extends tempNum c.members t.state.members ∧ t.cmds.length ≤ cmds.length)
      fun _ => True := by
  rw [turn, ends_bind]
  refine (emitBefore_extends c tok).mono_ok fun c' hc' => ?_
  split_ifs
  · -- the inner call writes above both cells of this one
    simp only [ends_bind, ends_pure]
    refine (hcall _ _ _).mono_ok fun r hr => (ends_any _).mono_ok fun q _ => ?_
    have hkept := hc'.trans (hr.1.mono (by omega))
    exact (factor_extends q _).mono_ok fun c'' h => ⟨hkept.trans h, hr.2⟩
  · exact ⟨hc', le_rfl⟩
  · exact ⟨hc', le_rfl⟩
  · exact ⟨hc', le_rfl⟩
  · exact ⟨hc', le_rfl⟩
  · simp only [ends_bind, ends_pure]
    refine (factor_extends _ _).mono_ok fun c'' h => ⟨hc'.trans ?_, le_rfl⟩
    exact ⟨h.below, (List.prefix_append _ _).trans h.printed⟩

theorem loop_extends (hcall : Framed call) (fuel : ℕ) (c : CallState size) (cmds : List Tok) :
    Ends (loop vars mpqSetStr call fuel tempNum c cmds)
      (fun r => Extends tempNum c.members r.1.members ∧ r.2.length ≤ cmds.length)
      fun _ => True := by
  induction fuel generalizing c cmds with
  | zero =>
      cases cmds with
      | nil => exact ⟨Extends.refl _ _, le_rfl⟩
      | cons tok cmds => trivial
  | succ fuel ih =>
      cases cmds with
      | nil => exact ⟨Extends.refl _ _, le_rfl⟩
      | cons tok cmds =>
          rw [loop, ends_bind]
          refine (turn_extends hcall c tok cmds).mono_ok fun t ht => ?_
          have hlen : t.cmds.length ≤ (tok :: cmds).length := Nat.le_succ_of_le ht.2
          split_ifs
          · refine (ih t.state t.cmds).mono_ok fun r hr => ⟨ht.1.trans hr.1, ?_⟩
            exact hr.2.trans hlen
          · exact ⟨ht.1, hlen⟩

/-- No call writes a cell below its own two, whatever tokens it reads. -/
theorem computePoly_framed (fuel : ℕ) : Framed (@computePoly size vars mpqSetStr fuel) := by
  induction fuel with
  | zero => exact fun _ _ _ => trivial
  | succ fuel ih =>
      intro tempNum m cmds
      rw [computePoly, ends_bind]
      refine (store_extends m le_rfl 0).mono_ok fun m' hm' => ?_
      split_ifs
      · exact ⟨⟨hm'.below, hm'.printed.trans (List.prefix_append _ _)⟩, le_rfl⟩
      · simp only [ends_bind, ends_pure]
        refine (loop_extends ih cmds.length (CallState.init m') cmds).mono_ok fun r hr => ?_
        exact (finish_extends r.1).mono_ok fun m'' h => ⟨hm'.trans (hr.1.trans h), hr.2⟩

end Frame

/-! ## The cells of a call and the loop without cells -/

/-- The two cells and the flags of the call at `tempNum` are the state `s` of the loop that keeps
its sum and its product to itself. The product has a value from its first factor on. -/
structure Holds (tempNum : ℕ) (c : CallState size) (s : PolyState) : Prop where
  inside : tempNum + 1 < size
  hasTerms : s.hasTerms = c.hasTerms
  hasFactors : s.hasFactors = c.hasFactors
  isEmpty : s.isEmpty = c.isEmpty
  negate : s.negate = c.negate
  poly : c.members.load tempNum = .ok s.polyTarget
  term : c.hasFactors = true → c.members.load (tempNum + 1) = .ok s.termTarget

namespace Holds

variable {tempNum : ℕ} {c : CallState size} {s : PolyState}

/-- The cells of a call are in one state or another. -/
theorem exists_state (h : tempNum + 1 < size) (c : CallState size) : ∃ s, Holds tempNum c s := by
  obtain ⟨poly, hpoly⟩ := exists_load c.members (Nat.lt_of_succ_lt h)
  obtain ⟨term, hterm⟩ := exists_load c.members h
  exact ⟨⟨poly, term, c.hasTerms, c.hasFactors, c.isEmpty, c.negate⟩,
    ⟨h, rfl, rfl, rfl, rfl, hpoly, fun _ => hterm⟩⟩

theorem signTerm (h : Holds tempNum c s) (hfactors : c.hasFactors = true) :
    Ends (signTerm tempNum c)
      (fun m => m.load tempNum = .ok s.polyTarget ∧
        m.load (tempNum + 1) = .ok (if s.negate then -s.termTarget else s.termTarget))
      fun _ => False := by
  rw [TempStack.signTerm, h.negate]
  split_ifs
  · rw [ends_bind, h.term hfactors, ends_ok]
    refine (store_spec _ h.inside _).mono_ok fun m hm => ⟨?_, hm.here⟩
    rw [hm.elsewhere _ (Nat.ne_of_lt (Nat.lt_succ_self _)), h.poly]
  · exact ⟨h.poly, h.term hfactors⟩

theorem emit (h : Holds tempNum c s) :
    Ends (emit tempNum c) (fun c' => Holds tempNum c' s.emit) fun _ => False := by
  have hlow : tempNum < size := Nat.lt_of_succ_lt h.inside
  rw [TempStack.emit]
  split_ifs with hfactors
  · have hstate : s.emit =
        { polyTarget := if s.hasTerms
            then s.polyTarget + if s.negate then -s.termTarget else s.termTarget
            else if s.negate then -s.termTarget else s.termTarget
          termTarget := if s.negate then -s.termTarget else s.termTarget
          hasTerms := true
          hasFactors := false
          isEmpty := false
          negate := false } := if_pos (h.hasFactors.trans hfactors)
    simp only [ends_bind, ends_pure]
    refine (h.signTerm hfactors).mono_ok fun m hm => ?_
    rw [addTerm, hm.2, ends_bind, ends_ok, ← h.hasTerms]
    -- only the sum is written from here on
    have hstored : ∀ q, q = s.emit.polyTarget → Ends (m.store tempNum q)
        (fun m' => Holds tempNum
          { members := m', hasTerms := true, isEmpty := false, hasFactors := false,
            negate := false } s.emit) fun _ => False := by
      rintro q rfl
      refine (store_spec m hlow _).mono_ok fun m' hm' => ?_
      rw [hstate] at hm' ⊢
      exact ⟨h.inside, rfl, rfl, rfl, rfl, hm'.here, fun hf => absurd hf Bool.false_ne_true⟩
    cases hterms : s.hasTerms with
    | false => exact hstored _ (by rw [hstate, hterms]; rfl)
    | true =>
        change Ends (m.load tempNum >>= fun poly => m.store tempNum (poly + _)) _ _
        rw [ends_bind, hm.1, ends_ok]
        exact hstored _ (by rw [hstate, hterms]; rfl)
  · have hstate : s.emit = s := if_neg (by rw [h.hasFactors]; exact hfactors)
    rw [hstate]
    exact h

theorem factor (h : Holds tempNum c s) (r : ℚ) :
    Ends (factor tempNum r c) (fun c' => Holds tempNum c' (s.factor r)) fun _ => False := by
  rw [TempStack.factor, ends_bind]
  have hstored : ∀ q, q = (s.factor r).termTarget → Ends (c.members.store (tempNum + 1) q)
      (fun m => Ends (pure { c with members := m, hasFactors := true })
        (fun c' => Holds tempNum c' (s.factor r)) fun _ : Fault => False) fun _ => False := by
    rintro q rfl
    refine (store_spec _ h.inside _).mono_ok fun m hm => ?_
    refine ⟨h.inside, h.hasTerms, rfl, h.isEmpty, h.negate, ?_, fun _ => hm.here⟩
    rw [hm.elsewhere _ (Nat.ne_of_lt (Nat.lt_succ_self _))]
    exact h.poly
  rw [multiplyTerm]
  cases hfactors : c.hasFactors with
  | false => exact hstored _ (by simp [PolyState.factor, h.hasFactors, hfactors])
  | true =>
      change Ends (c.members.load (tempNum + 1) >>= fun term =>
        c.members.store (tempNum + 1) (term * r)) _ _
      rw [ends_bind, h.term hfactors, ends_ok]
      exact hstored _ (by simp [PolyState.factor, h.hasFactors, hfactors])

theorem finish (h : Holds tempNum c s) :
    Ends (finish tempNum c) (fun m => m.load tempNum = .ok s.result) fun _ => False := by
  rw [TempStack.finish, ends_bind]
  refine h.emit.mono_ok fun c' hc' => ?_
  rw [PolyState.result, hc'.isEmpty]
  split_ifs
  · exact (store_spec _ (Nat.lt_of_succ_lt h.inside) 0).mono_ok fun m hm => hm.here
  · exact hc'.poly

/-- A call that starts finds its cells in the initial state. -/
theorem init (h : tempNum + 1 < size) {m : Members size} (hm : m.load tempNum = .ok 0) :
    Holds tempNum (CallState.init m) PolyState.init :=
  ⟨h, rfl, rfl, rfl, rfl, hm, fun hf => absurd hf Bool.false_ne_true⟩

/-- A call above the two cells leaves the state as it is. -/
theorem of_extends (h : Holds tempNum c s) {m : Members size}
    (hm : Extends (tempNum + 2) c.members m) : Holds tempNum { c with members := m } s where
  inside := h.inside
  hasTerms := h.hasTerms
  hasFactors := h.hasFactors
  isEmpty := h.isEmpty
  negate := h.negate
  poly := by rw [hm.below _ (by omega), h.poly]
  term hf := by rw [hm.below _ (by omega), h.term hf]

end Holds

end Pepper.Libv.TempStack
