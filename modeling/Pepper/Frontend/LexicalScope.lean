import Mathlib.Data.List.Basic

/-!
# Names of variables in the C front end

Functions are expanded in place, and one stack of scopes (`CLexicalScope`) serves blocks and
calls alike: `getAddID` prefixes a name with the names of all scopes, `getID` searches the whole
stack. `expandStatement` and `getExpr` are the expansion, as far as scopes go; every use of an
identifier is recorded with the stack it meets and with the declarations around it in the text of
its function. Unique names of declarations on a stack differ (`CLexicalScope.getAddID_injective`).
A use gets the name of the declaration that static scoping selects exactly if no caller's scope
declares a name that the function itself does not declare (`lexical_iff`).
-/

set_option autoImplicit false

namespace Pepper.Frontend.CCompiler

/-- A name without `$`: those of the scanner, of functions, and the fixed ones of scopes. -/
structure Identifier where
  text : String
  plain : '$' ∉ text.toList
deriving DecidableEq

/-- A scope on the stack: its name and what is declared in it. -/
structure Frame where
  scopeName : Identifier
  vars : List Identifier
deriving DecidableEq

/-- `CLexicalScope`, the innermost scope first. -/
abbrev CLexicalScope := List Frame

namespace CLexicalScope

/-- The loop of `getID`: from the first scope that declares the name on, the names of the
scopes are put in front. -/
def getIDLoop (name : Identifier) : CLexicalScope → Bool → String → String
  | [], _, id => id
  | got :: rest, found, id =>
      let found := found || got.vars.contains name
      getIDLoop name rest found (if found then got.scopeName.text ++ "$" ++ id else id)

def getID (scope : CLexicalScope) (name : Identifier) : String :=
  getIDLoop name scope false name.text

/-- The name of a variable that is declared in the innermost scope. -/
def getAddID : CLexicalScope → String → String
  | [], id => id
  | got :: rest, id => getAddID rest (got.scopeName.text ++ "$" ++ id)

end CLexicalScope

/-! ## Programs -/

/-- Expressions, as far as names go: binary and unary operations are `operation`. -/
inductive Expression where
  | constant
  | identifier (name : Identifier)
  | operation (args : List Expression)
  | cast (toCast : Expression)
  | multi (args : List Expression)
  | call (funcName : Identifier) (args : List Expression)
  | assignment (lhs rhs : Expression)

inductive Statement where
  | compound (declarations : List Identifier) (statements : List Statement)
  | expression (e : Expression)
  | ret (toRet : Option Expression)
  | loop (pre block : Statement) (enter : Expression)
  | ifStatement (cond : Expression) (the : Statement) (els : Option Statement)

structure FunctionDefinition where
  name : Identifier
  args : List Identifier
  block : Statement

/-- What stands at the top level of a program. -/
inductive TopLevel where
  | function (fd : FunctionDefinition)
  | globalVariable (name : Identifier) (initializer : List Expression)

/-! ## Expansion -/

/-- What the blocks around a piece of text declare, the innermost first and the parameters of the
function last, each with the unique name that it got. -/
abbrev Enclosing := List (List (Identifier × String))

/-- A use of an identifier: the declarations around it, and the stack that it meets. -/
structure Use where
  enclosing : Enclosing
  scope : CLexicalScope
  name : Identifier
deriving DecidableEq

structure State where
  scope : CLexicalScope
  /-- The names in `Function.getVars()`. -/
  vars : List String
  functable : List FunctionDefinition
  uses : List Use

/-- An exception ends the expansion. -/
abbrev Expansion := ExceptT Unit (StateM State)

def pushScope (name : Identifier) : Expansion Unit :=
  modify fun s => { s with scope := ⟨name, []⟩ :: s.scope }

def popScope : Expansion Unit := modify fun s => { s with scope := s.scope.tail }

/-- The unique name of the new variable. A name that the innermost scope has already is
refused. -/
def addVar (name : Identifier) : Expansion String := do
  match (← get).scope with
  | [] => throw ()
  | top :: rest =>
      if top.vars.contains name then throw ()
      else
        let scope : CLexicalScope := ⟨top.scopeName, top.vars ++ [name]⟩ :: rest
        let id := scope.getAddID name.text
        modify fun s => { s with scope, vars := id :: s.vars }
        return id

/-- The declarations of a block, or the parameters of a function. -/
def addVars : List Identifier → Expansion (List (Identifier × String))
  | [] => return []
  | v :: vs => do
      let id ← addVar v
      let ids ← addVars vs
      return (v, id) :: ids

/-- `getID` and the look-up of the unique name. -/
def useIdentifier (enclosing : Enclosing) (name : Identifier) : Expansion Bool := do
  let s ← get
  if s.scope.isEmpty then throw ()
  else
    modify fun s => { s with uses := ⟨enclosing, s.scope, name⟩ :: s.uses }
    if s.vars.contains (s.scope.getID name) then return true else throw ()

def blockScope : Identifier := ⟨"block", by decide⟩

def thenScope : Identifier := ⟨"then", by decide⟩

def elseScope : Identifier := ⟨"else", by decide⟩

def lookupFunction (name : Identifier) : Expansion FunctionDefinition := do
  match (← get).functable.find? fun fd => fd.name = name with
  | none => throw ()
  | some fd => return fd

mutual

/-- Whether the value is there: a call of a function without `return` has none. `enclosing` is
the text around the expression; a call starts anew with the parameters of the function. -/
def getExpr : ℕ → Enclosing → Expression → Expansion Bool
  | 0, _, _ => throw ()
  | _ + 1, _, .constant => return true
  | _ + 1, enclosing, .identifier name => useIdentifier enclosing name
  | fuel + 1, enclosing, .operation args => do
      let operands ← getExprs fuel enclosing args
      -- the type of an operation is read off its operands
      if operands.all id then return true else throw ()
  | fuel + 1, enclosing, .cast toCast => do
      let _ ← getExpr fuel enclosing toCast
      return true
  | fuel + 1, enclosing, .multi args => do
      match (← getExprs fuel enclosing args).getLast? with
      | none => throw ()
      | some value => return value
  | fuel + 1, enclosing, .call funcName args => do
      -- `builtinFunctionCall` evaluates the arguments before it looks at the name
      let _ ← getExprs fuel enclosing args
      let toCall ← lookupFunction funcName
      let inputExprs ← getExprs fuel enclosing args
      if inputExprs.length ≠ toCall.args.length then throw ()
      else
        pushScope funcName
        let parameters ← addVars toCall.args
        let returnValue ← expandStatement fuel [parameters] toCall.block
        popScope
        return returnValue
  | fuel + 1, enclosing, .assignment lhs rhs => do
      let _ ← getExpr fuel enclosing lhs
      let _ ← getExpr fuel enclosing rhs
      return true

def getExprs : ℕ → Enclosing → List Expression → Expansion (List Bool)
  | 0, _, _ => throw ()
  | _ + 1, _, [] => return []
  | fuel + 1, enclosing, e :: es => do
      let value ← getExpr fuel enclosing e
      let values ← getExprs fuel enclosing es
      return value :: values

/-- Whether the statement returns a value. -/
def expandStatement : ℕ → Enclosing → Statement → Expansion Bool
  | 0, _, _ => throw ()
  | fuel + 1, enclosing, .compound declarations statements => do
      pushScope blockScope
      let locals ← addVars declarations
      let returnValue ← expandStatements fuel (locals :: enclosing) statements
      popScope
      return returnValue
  | fuel + 1, enclosing, .expression e => do
      let _ ← getExpr fuel enclosing e
      return false
  | _ + 1, _, .ret none => return true
  | fuel + 1, enclosing, .ret (some toRet) => getExpr fuel enclosing toRet
  | fuel + 1, enclosing, .loop pre block enter => do
      let _ ← expandStatement fuel enclosing pre
      let _ ← expandStatement fuel enclosing block
      let _ ← getExpr fuel enclosing enter
      return false
  | fuel + 1, enclosing, .ifStatement cond the els => do
      let _ ← getExpr fuel enclosing cond
      pushScope thenScope
      let retValThe ← expandStatement fuel ([] :: enclosing) the
      popScope
      pushScope elseScope
      match els with
      | none => throw ()
      | some els =>
          let retValEls ← expandStatement fuel ([] :: enclosing) els
          popScope
          if retValThe || retValEls then throw () else return false

/-- A statement that returns a value ends the block. -/
def expandStatements : ℕ → Enclosing → List Statement → Expansion Bool
  | 0, _, _ => throw ()
  | _ + 1, _, [] => return false
  | fuel + 1, enclosing, p :: ps => do
      if ← expandStatement fuel enclosing p then return true
      else expandStatements fuel enclosing ps

end

/-! ## Whole programs -/

/-- `addFunction` and `addGlobalVariable`. Initializers meet an empty stack. -/
def addTopLevel (fuel : ℕ) : TopLevel → Expansion Unit
  | .function fd => do
      let s ← get
      if s.functable.any fun other => other.name = fd.name then throw ()
      else modify fun s => { s with functable := s.functable ++ [fd] }
  | .globalVariable name initializer => do
      let s ← get
      if s.vars.contains name.text then throw ()
      else
        modify fun s => { s with vars := name.text :: s.vars }
        let _ ← getExprs fuel [] initializer
        return ()

def compute : Identifier := ⟨"compute", by decide⟩

def computeReturn : Identifier := ⟨"__compute__", by decide⟩

def main : Identifier := ⟨"main", by decide⟩

def mainReturn : Identifier := ⟨"__main__", by decide⟩

def inputName : Identifier := ⟨"input", by decide⟩

def outputName : Identifier := ⟨"output", by decide⟩

/-- The scope of the function that is run has a variable for its value, too. -/
def setProgramWithCompute (fuel : ℕ) (fd : FunctionDefinition) : Expansion Unit := do
  pushScope compute
  if fd.args.all (fun v => v = inputName ∨ v = outputName) ∧ inputName ∈ fd.args ∧
      outputName ∈ fd.args then
    let input ← addVar inputName
    let _ ← addVar computeReturn
    let output ← addVar outputName
    let _ ← expandStatement fuel [[(inputName, input), (outputName, output)]] fd.block
    return ()
  else throw ()

def setProgramWithCStyleMain (fuel : ℕ) (fd : FunctionDefinition) : Expansion Unit := do
  pushScope main
  match fd.args with
  | argc :: argv :: _ =>
      let argcLval ← addVar argc
      let argvLval ← addVar argv
      let _ ← addVar mainReturn
      let _ ← expandStatement fuel [[(argc, argcLval), (argv, argvLval)]] fd.block
      return ()
  | _ => throw ()

def setProgram (fuel : ℕ) (p : List TopLevel) : Expansion Unit := do
  p.forM (addTopLevel fuel)
  match (← get).functable.find? fun fd => fd.name = compute with
  | some fd => setProgramWithCompute fuel fd
  | none =>
      match (← get).functable.find? fun fd => fd.name = main with
      | some fd => setProgramWithCStyleMain fuel fd
      | none => throw ()

/-- The state in which the expansion of a program ends. -/
def run (fuel : ℕ) (p : List TopLevel) : State := ((setProgram fuel p).run.run ⟨[], [], [], []⟩).2

/-! ## Unique names -/

namespace CLexicalScope

/-- The scopes of a unique name can be counted. -/
theorem count_getAddID (scope : CLexicalScope) (id : String) :
    (scope.getAddID id).toList.count '$' = scope.length + id.toList.count '$' := by
  induction scope generalizing id with
  | nil => simp [getAddID]
  | cons got rest ih =>
      have hplain : got.scopeName.text.toList.count '$' = 0 :=
        List.count_eq_zero.2 got.scopeName.plain
      rw [getAddID, ih]
      simp only [String.toList_append, List.count_append, List.length_cons, hplain]
      have hsep : "$".toList.count '$' = 1 := by decide
      rw [hsep]
      omega

theorem getAddID_inj (scope : CLexicalScope) {id id' : String}
    (h : scope.getAddID id = scope.getAddID id') : id = id' := by
  induction scope generalizing id id' with
  | nil => exact h
  | cons got rest ih =>
      have happend := congrArg String.toList (ih h)
      simp only [String.toList_append, List.append_cancel_left_eq] at happend
      exact String.toList_injective happend

theorem count_text (name : Identifier) : name.text.toList.count '$' = 0 :=
  List.count_eq_zero.2 name.plain

theorem Identifier.text_injective {x y : Identifier} (h : x.text = y.text) : x = y := by
  cases x
  cases y
  cases h
  rfl

/-- Two declarations on one stack have different unique names. -/
theorem getAddID_injective {scope : CLexicalScope} {i j : ℕ} (hi : i < scope.length)
    (hj : j < scope.length) {x y : Identifier}
    (h : getAddID (scope.drop i) x.text = getAddID (scope.drop j) y.text) : i = j ∧ x = y := by
  have hcount := congrArg (fun id : String => id.toList.count '$') h
  simp only [count_getAddID, count_text, List.length_drop, Nat.add_zero] at hcount
  obtain rfl : i = j := by omega
  exact ⟨rfl, Identifier.text_injective (getAddID_inj _ h)⟩

/-- A declaration on the stack is no global variable. -/
theorem getAddID_ne_global {scope : CLexicalScope} {i : ℕ} (hi : i < scope.length)
    (x global : Identifier) : getAddID (scope.drop i) x.text ≠ global.text := by
  intro h
  have hcount := congrArg (fun id : String => id.toList.count '$') h
  simp only [count_getAddID, count_text, List.length_drop, Nat.add_zero] at hcount
  omega

end CLexicalScope

/-! ## Static scoping -/

/-- The unique name of the declaration that static scoping selects: the innermost one around
the use in the text of its function, or else the global variable. -/
def Use.selected (u : Use) : String :=
  match u.enclosing.flatten.find? fun d => d.1 = u.name with
  | some d => d.2
  | none => u.name.text

/-- The use gets the name of that declaration. -/
def Use.Resolves (u : Use) : Prop := u.scope.getID u.name = u.selected

/-- The stack has no declaration of a name that the function itself does not declare. -/
def Use.Unshadowed (u : Use) : Prop :=
  (∀ d ∈ u.enclosing.flatten, d.1 ≠ u.name) → ∀ got ∈ u.scope, u.name ∉ got.vars

/-- The declarations around a piece of text are the innermost ones on the stack: those of the
blocks, and among those of the scope of the call the parameters. -/
inductive Encloses : Enclosing → CLexicalScope → Prop
  | call {decls : List (Identifier × String)} {got : Frame} {callers : CLexicalScope}
      (h : ∀ d ∈ decls, d.1 ∈ got.vars ∧
        d.2 = CLexicalScope.getAddID (got :: callers) d.1.text) : Encloses [decls] (got :: callers)
  | block {decls : List (Identifier × String)} {got : Frame} {enclosing : Enclosing}
      {scope : CLexicalScope}
      (h : decls = got.vars.map fun v => (v, CLexicalScope.getAddID (got :: scope) v.text))
      (hrest : Encloses enclosing scope) : Encloses (decls :: enclosing) (got :: scope)

namespace CLexicalScope

theorem getIDLoop_found (name : Identifier) (scope : CLexicalScope) (id : String) :
    getIDLoop name scope true id = scope.getAddID id := by
  induction scope generalizing id with
  | nil => rfl
  | cons got rest ih =>
      rw [getIDLoop, getAddID, Bool.true_or, if_pos rfl, ih]

theorem getID_of_mem {got : Frame} {rest : CLexicalScope} {name : Identifier}
    (h : name ∈ got.vars) : getID (got :: rest) name = getAddID (got :: rest) name.text := by
  have hcontains : got.vars.contains name = true := List.contains_iff_mem.2 h
  rw [getID, getIDLoop, getAddID, hcontains, Bool.or_true, if_pos rfl, getIDLoop_found]

theorem getID_of_notMem {got : Frame} {rest : CLexicalScope} {name : Identifier}
    (h : name ∉ got.vars) : getID (got :: rest) name = getID rest name := by
  have hcontains : got.vars.contains name = false := by
    rw [Bool.eq_false_iff, Ne, List.contains_iff_mem]
    exact h
  rw [getID, getIDLoop, hcontains, Bool.or_false, if_neg Bool.false_ne_true, getID]

/-- A name that is found nowhere is a global one, and only then. -/
theorem getID_eq_text_iff (scope : CLexicalScope) (name : Identifier) :
    scope.getID name = name.text ↔ ∀ got ∈ scope, name ∉ got.vars := by
  induction scope with
  | nil => exact ⟨fun _ got hgot => absurd hgot List.not_mem_nil, fun _ => rfl⟩
  | cons got rest ih =>
      by_cases h : name ∈ got.vars
      · rw [getID_of_mem h]
        refine ⟨fun heq => absurd heq ?_, fun hall => absurd h (hall got List.mem_cons_self)⟩
        have hlt : 0 < (got :: rest).length := Nat.succ_pos _
        exact getAddID_ne_global hlt name name
      · rw [getID_of_notMem h, ih, List.forall_mem_cons]
        exact (and_iff_right h).symm

end CLexicalScope

/-- The first declaration around the use is the first one that the search meets. -/
theorem Encloses.getID_eq {enclosing : Enclosing} {scope : CLexicalScope}
    (h : Encloses enclosing scope) {name : Identifier} {d : Identifier × String}
    (hd : enclosing.flatten.find? (fun d => d.1 = name) = some d) : scope.getID name = d.2 := by
  induction h with
  | call h =>
      rw [List.flatten_cons, List.flatten_nil, List.append_nil] at hd
      have hname : d.1 = name := by simpa using List.find?_some hd
      obtain ⟨hmem, hid⟩ := h d (List.mem_of_find?_eq_some hd)
      rw [hname] at hmem hid
      rw [hid]
      exact CLexicalScope.getID_of_mem hmem
  | @block decls got enclosing scope h hrest ih =>
      rw [List.flatten_cons, List.find?_append] at hd
      cases hfirst : decls.find? (fun d => d.1 = name) with
      | some d' =>
          rw [hfirst] at hd
          obtain rfl : d' = d := by simpa using hd
          have hname : d'.1 = name := by simpa using List.find?_some hfirst
          have hmem := List.mem_of_find?_eq_some hfirst
          rw [h] at hmem
          obtain ⟨v, hv, rfl⟩ := List.mem_map.1 hmem
          obtain rfl : v = name := hname
          exact CLexicalScope.getID_of_mem hv
      | none =>
          rw [hfirst, Option.none_or] at hd
          have hnot : name ∉ got.vars := by
            intro hv
            have hnone := List.find?_eq_none.1 hfirst
            rw [h] at hnone
            exact hnone _ (List.mem_map.2 ⟨name, hv, rfl⟩) (decide_eq_true rfl)
          rw [CLexicalScope.getID_of_notMem hnot]
          exact ih hd

/-- A use that is placed as its function says. -/
def Use.Placed (u : Use) : Prop := Encloses u.enclosing u.scope

theorem Use.Placed.resolves_iff {u : Use} (h : u.Placed) : u.Resolves ↔ u.Unshadowed := by
  rw [Use.Resolves, Use.selected, Use.Unshadowed]
  cases hfind : u.enclosing.flatten.find? fun d => d.1 = u.name with
  | some d =>
      refine iff_of_true (h.getID_eq hfind) fun hall => absurd ?_ (hall d ?_)
      · simpa using List.find?_some hfind
      · exact List.mem_of_find?_eq_some hfind
  | none =>
      have hall : ∀ d ∈ u.enclosing.flatten, d.1 ≠ u.name := fun d hd heq =>
        List.find?_eq_none.1 hfind d hd (decide_eq_true heq)
      rw [CLexicalScope.getID_eq_text_iff]
      exact ⟨fun hno _ => hno, fun hno => hno hall⟩

/-! ## Expansions -/

/-- The result and the state after it. -/
def Expansion.out {α : Type} (x : Expansion α) (s : State) : Except Unit α × State := x.run.run s

/-- From one stack to another, with all uses placed, also if the expansion ends. -/
def Moves {α : Type} (S S' : CLexicalScope) (Q : α → Prop) (x : Expansion α) : Prop :=
  ∀ s, s.scope = S → (∀ u ∈ s.uses, u.Placed) → (∀ u ∈ (x.out s).2.uses, u.Placed) ∧
    ∀ a, (x.out s).1 = .ok a → (x.out s).2.scope = S' ∧ Q a

section Moves

variable {α β : Type} {S S' S'' : CLexicalScope}

theorem out_bind (x : Expansion α) (f : α → Expansion β) (s : State) :
    (x >>= f).out s = match x.out s with
      | (.ok a, s') => (f a).out s'
      | (.error e, s') => (.error e, s') := by
  show (match x.run.run s with
    | (a, s') => (ExceptT.bindCont f a).run s') = _
  rw [Expansion.out]
  rcases x.run.run s with ⟨_ | a, s'⟩ <;> rfl

theorem Moves.bind {Q : α → Prop} {R : β → Prop} {x : Expansion α} {f : α → Expansion β}
    (hx : Moves S S' Q x) (hf : ∀ a, Q a → Moves S' S'' R (f a)) : Moves S S'' R (x >>= f) := by
  intro s hs huses
  obtain ⟨hplaced, hok⟩ := hx s hs huses
  rw [out_bind]
  rcases hout : x.out s with ⟨_ | a, s'⟩
  · rw [hout] at hplaced
    exact ⟨hplaced, fun b hb => nomatch hb⟩
  · rw [hout] at hplaced hok
    obtain ⟨hscope, hQ⟩ := hok a rfl
    exact hf a hQ s' hscope hplaced

theorem Moves.pure {Q : α → Prop} {a : α} (h : Q a) : Moves S S Q (Pure.pure a) :=
  fun _ hs huses => ⟨huses, fun b hb => by cases hb; exact ⟨hs, h⟩⟩

theorem Moves.throw {Q : α → Prop} : Moves S S' Q (MonadExcept.throw () : Expansion α) :=
  fun _ _ huses => ⟨huses, fun _ hb => nomatch hb⟩

theorem moves_pushScope (name : Identifier) :
    Moves S (⟨name, []⟩ :: S) (fun _ => True) (pushScope name) :=
  fun _ hs huses => ⟨huses, fun _ _ => ⟨congrArg _ hs, trivial⟩⟩

theorem moves_popScope (got : Frame) : Moves (got :: S) S (fun _ => True) popScope :=
  fun _ hs huses => ⟨huses, fun _ _ => ⟨congrArg List.tail hs, trivial⟩⟩

/-- The state may be read at any time. -/
theorem Moves.get {R : β → Prop} {f : State → Expansion β}
    (hf : ∀ s, s.scope = S → Moves S S' R (f s)) : Moves S S' R (MonadState.get >>= f) := by
  intro s hs huses
  exact hf s hs s hs huses

theorem moves_addVar (got : Frame) (rest : CLexicalScope) (name : Identifier) :
    Moves (got :: rest) (⟨got.scopeName, got.vars ++ [name]⟩ :: rest)
      (fun id => id = CLexicalScope.getAddID (got :: rest) name.text) (addVar name) := by
  refine Moves.get fun s hs => ?_
  simp only [hs]
  split_ifs
  · exact Moves.throw
  · exact fun _ _ huses => ⟨huses, fun _ hb => by cases hb; exact ⟨rfl, rfl⟩⟩

/-- By induction on the declarations: each gets the name that the stack gives it. -/
theorem moves_addVars (name : Identifier) (rest : CLexicalScope) (vs : List Identifier)
    (vars : List Identifier) :
    Moves (⟨name, vars⟩ :: rest) (⟨name, vars ++ vs⟩ :: rest)
      (fun ids => ids = vs.map fun v => (v, CLexicalScope.getAddID (⟨name, []⟩ :: rest) v.text))
      (addVars vs) := by
  induction vs generalizing vars with
  | nil =>
      rw [List.append_nil]
      exact Moves.pure rfl
  | cons v vs ih =>
      have happend : vars ++ v :: vs = vars ++ [v] ++ vs := (List.append_cons vars v vs)
      rw [happend]
      refine (moves_addVar ⟨name, vars⟩ rest v).bind fun id hid => (ih (vars ++ [v])).bind
        fun ids hids => Moves.pure ?_
      rw [hid, hids]
      rfl

theorem moves_lookupFunction (name : Identifier) :
    Moves S S (fun _ => True) (lookupFunction name) := by
  refine Moves.get fun s _ => ?_
  split
  · exact Moves.throw
  · exact Moves.pure trivial

theorem moves_record {enclosing : Enclosing} (h : Encloses enclosing S) (name : Identifier) :
    Moves S S (fun _ => True) (modify fun s : State =>
      { s with uses := ⟨enclosing, s.scope, name⟩ :: s.uses } : Expansion PUnit) := by
  intro s hs huses
  refine ⟨fun u hu => ?_, fun _ _ => ⟨hs, trivial⟩⟩
  rcases List.mem_cons.1 hu with rfl | hu
  · exact hs ▸ h
  · exact huses u hu

/-- A use is recorded with the stack, which is empty only outside of functions. -/
theorem moves_useIdentifier {enclosing : Enclosing} (h : S = [] ∨ Encloses enclosing S)
    (name : Identifier) : Moves S S (fun _ => True) (useIdentifier enclosing name) := by
  refine Moves.get fun s hs => ?_
  rcases h with rfl | h
  · rw [hs, List.isEmpty_nil, if_pos rfl]
    exact Moves.throw
  split_ifs with hempty hvar
  · exact Moves.throw
  · exact (moves_record h name).bind fun _ _ => Moves.pure trivial
  · exact (moves_record h name).bind fun _ _ => Moves.throw

end Moves

/-- What the parts of an expansion keep, for one amount of fuel. -/
structure KeepsScope (fuel : ℕ) : Prop where
  expr : ∀ {enclosing S}, S = [] ∨ Encloses enclosing S → ∀ e,
    Moves S S (fun _ => True) (getExpr fuel enclosing e)
  exprs : ∀ {enclosing S}, S = [] ∨ Encloses enclosing S → ∀ es,
    Moves S S (fun _ => True) (getExprs fuel enclosing es)
  statement : ∀ {enclosing S}, Encloses enclosing S → ∀ p,
    Moves S S (fun _ => True) (expandStatement fuel enclosing p)
  statements : ∀ {enclosing S}, Encloses enclosing S → ∀ ps,
    Moves S S (fun _ => True) (expandStatements fuel enclosing ps)

namespace KeepsScope

variable {fuel : ℕ} {enclosing : Enclosing} {S : CLexicalScope}

theorem zero : KeepsScope 0 := by
  refine ⟨fun _ e => ?_, fun _ es => ?_, fun _ p => ?_, fun _ ps => ?_⟩
  · rw [getExpr]
    exact Moves.throw
  · rw [getExprs]
    exact Moves.throw
  · rw [expandStatement]
    exact Moves.throw
  · rw [expandStatements]
    exact Moves.throw

/-- A body runs in a scope of its own. -/
theorem moves_inScope {α : Type} {got : Frame} {x : Expansion α}
    (hx : Moves (got :: S) (got :: S) (fun _ => True) x) :
    Moves (got :: S) S (fun _ => True) (do let a ← x; popScope; return a) :=
  hx.bind fun _ _ => (moves_popScope got).bind fun _ _ => Moves.pure trivial

/-- A call: its parameters are what is around the body. -/
theorem moves_call (h : KeepsScope fuel) (hS : S = [] ∨ Encloses enclosing S)
    (funcName : Identifier) (args : List Expression) :
    Moves S S (fun _ => True) (getExpr (fuel + 1) enclosing (.call funcName args)) := by
  rw [getExpr]
  refine (h.exprs hS args).bind fun _ _ => (moves_lookupFunction funcName).bind fun toCall _ =>
    (h.exprs hS args).bind fun inputExprs _ => ?_
  split_ifs
  · exact Moves.throw
  · refine (moves_pushScope funcName).bind fun _ _ =>
      (moves_addVars funcName S toCall.args []).bind fun parameters hparameters =>
        moves_inScope (h.statement (.call fun d hd => ?_) toCall.block)
    rw [hparameters] at hd
    obtain ⟨v, hv, rfl⟩ := List.mem_map.1 hd
    exact ⟨by rwa [List.nil_append], rfl⟩

theorem moves_expr (h : KeepsScope fuel) (hS : S = [] ∨ Encloses enclosing S) (e : Expression) :
    Moves S S (fun _ => True) (getExpr (fuel + 1) enclosing e) := by
  cases e with
  | constant =>
      rw [getExpr]
      exact Moves.pure trivial
  | identifier name =>
      rw [getExpr]
      exact moves_useIdentifier hS name
  | operation args =>
      rw [getExpr]
      refine (h.exprs hS args).bind fun operands _ => ?_
      split_ifs
      · exact Moves.pure trivial
      · exact Moves.throw
  | cast toCast =>
      rw [getExpr]
      exact (h.expr hS toCast).bind fun _ _ => Moves.pure trivial
  | multi args =>
      rw [getExpr]
      refine (h.exprs hS args).bind fun values _ => ?_
      split
      · exact Moves.throw
      · exact Moves.pure trivial
  | call funcName args => exact h.moves_call hS funcName args
  | assignment lhs rhs =>
      rw [getExpr]
      exact (h.expr hS lhs).bind fun _ _ => (h.expr hS rhs).bind fun _ _ => Moves.pure trivial

theorem moves_exprs (h : KeepsScope fuel) (hS : S = [] ∨ Encloses enclosing S)
    (es : List Expression) :
    Moves S S (fun _ => True) (getExprs (fuel + 1) enclosing es) := by
  cases es with
  | nil =>
      rw [getExprs]
      exact Moves.pure trivial
  | cons e es =>
      rw [getExprs]
      exact (h.expr hS e).bind fun _ _ => (h.exprs hS es).bind fun _ _ => Moves.pure trivial

/-- A branch declares nothing itself. -/
theorem encloses_branch (hS : Encloses enclosing S) (name : Identifier) :
    Encloses ([] :: enclosing) (⟨name, []⟩ :: S) := .block rfl hS

theorem moves_statement (h : KeepsScope fuel) (hS : Encloses enclosing S) (p : Statement) :
    Moves S S (fun _ => True) (expandStatement (fuel + 1) enclosing p) := by
  cases p with
  | compound declarations statements =>
      rw [expandStatement]
      -- the block opens a scope of its own and its statements are expanded in it
      refine (moves_pushScope blockScope).bind fun _ _ =>
        (moves_addVars blockScope S declarations []).bind fun locals hlocals =>
          moves_inScope (h.statements (.block ?_ hS) statements)
      rw [hlocals, List.nil_append]
      rfl
  | expression e =>
      rw [expandStatement]
      exact (h.expr (Or.inr hS) e).bind fun _ _ => Moves.pure trivial
  | ret toRet =>
      cases toRet with
      | none =>
          rw [expandStatement]
          exact Moves.pure trivial
      | some e =>
          rw [expandStatement]
          exact h.expr (Or.inr hS) e
  | loop pre block enter =>
      rw [expandStatement]
      -- a loop opens no scope
      exact (h.statement hS pre).bind fun _ _ => (h.statement hS block).bind fun _ _ =>
        (h.expr (Or.inr hS) enter).bind fun _ _ => Moves.pure trivial
  | ifStatement cond the els =>
      rw [expandStatement]
      -- each branch opens a scope and closes it again
      refine (h.expr (Or.inr hS) cond).bind fun _ _ => (moves_pushScope thenScope).bind fun _ _ =>
        (h.statement (encloses_branch hS thenScope) the).bind fun _ _ =>
          (moves_popScope _).bind fun _ _ => (moves_pushScope elseScope).bind fun _ _ => ?_
      cases els with
      | none => exact Moves.throw
      | some els =>
          refine (h.statement (encloses_branch hS elseScope) els).bind fun _ _ =>
            (moves_popScope _).bind fun _ _ => ?_
          split_ifs
          · exact Moves.throw
          · exact Moves.pure trivial

theorem moves_statements (h : KeepsScope fuel) (hS : Encloses enclosing S)
    (ps : List Statement) :
    Moves S S (fun _ => True) (expandStatements (fuel + 1) enclosing ps) := by
  cases ps with
  | nil =>
      rw [expandStatements]
      exact Moves.pure trivial
  | cons p ps =>
      rw [expandStatements]
      refine (h.statement hS p).bind fun returned _ => ?_
      split_ifs
      · exact Moves.pure trivial
      · exact h.statements hS ps

end KeepsScope

/-- By induction on the fuel. -/
theorem keepsScope (fuel : ℕ) : KeepsScope fuel := by
  induction fuel with
  | zero => exact KeepsScope.zero
  | succ fuel ih => exact ⟨ih.moves_expr, ih.moves_exprs, ih.moves_statement, ih.moves_statements⟩

/-! ## Runs -/

/-- All uses are placed, wherever the expansion ends. -/
def Places {α : Type} (S : CLexicalScope) (x : Expansion α) : Prop :=
  ∀ s, s.scope = S → (∀ u ∈ s.uses, u.Placed) → ∀ u ∈ (x.out s).2.uses, u.Placed

theorem Moves.places {α : Type} {S S' : CLexicalScope} {Q : α → Prop} {x : Expansion α}
    (h : Moves S S' Q x) : Places S x :=
  fun s hs huses => (h s hs huses).1

theorem Moves.bind_places {α β : Type} {S S' : CLexicalScope} {Q : α → Prop} {x : Expansion α}
    {f : α → Expansion β} (hx : Moves S S' Q x) (hf : ∀ a, Q a → Places S' (f a)) :
    Places S (x >>= f) := by
  intro s hs huses
  obtain ⟨hplaced, hok⟩ := hx s hs huses
  rw [out_bind]
  rcases hout : x.out s with ⟨_ | a, s'⟩
  · rwa [hout] at hplaced
  · rw [hout] at hplaced hok
    obtain ⟨hscope, hQ⟩ := hok a rfl
    exact hf a hQ s' hscope hplaced

theorem Places.throw {α : Type} {S : CLexicalScope} :
    Places S (MonadExcept.throw () : Expansion α) :=
  fun _ _ huses => huses

theorem Places.get {β : Type} {S : CLexicalScope} {f : State → Expansion β}
    (hf : ∀ s, Places S (f s)) : Places S (MonadState.get >>= f) :=
  fun s hs huses => hf s s hs huses

theorem moves_addTopLevel (fuel : ℕ) (q : TopLevel) :
    Moves [] [] (fun _ => True) (addTopLevel fuel q) := by
  cases q with
  | function fd =>
      refine Moves.get fun s _ => ?_
      split_ifs
      · exact Moves.throw
      · exact fun _ hs huses => ⟨huses, fun _ _ => ⟨hs, trivial⟩⟩
  | globalVariable name initializer =>
      refine Moves.get fun s _ => ?_
      have hadd : Moves [] [] (fun _ => True) (modify fun s : State =>
          { s with vars := name.text :: s.vars } : Expansion PUnit) :=
        fun _ hs huses => ⟨huses, fun _ _ => ⟨hs, trivial⟩⟩
      split_ifs
      · exact Moves.throw
      · exact hadd.bind fun _ _ => ((keepsScope fuel).exprs (Or.inl rfl) initializer).bind
          fun _ _ => Moves.pure trivial

theorem moves_forM (fuel : ℕ) (p : List TopLevel) :
    Moves [] [] (fun _ => True) (p.forM (addTopLevel fuel)) := by
  induction p with
  | nil => exact Moves.pure trivial
  | cons q p ih => exact (moves_addTopLevel fuel q).bind fun _ _ => ih

/-- The function that is run: its parameters, and a variable for its value somewhere in the
same scope. -/
theorem moves_entry {fuel : ℕ} {name x y : Identifier} {vars : List Identifier} (hx : x ∈ vars)
    (hy : y ∈ vars) (fd : FunctionDefinition) {idX idY : String}
    (hidX : idX = CLexicalScope.getAddID [⟨name, []⟩] x.text)
    (hidY : idY = CLexicalScope.getAddID [⟨name, []⟩] y.text) :
    Moves [⟨name, vars⟩] [⟨name, vars⟩] (fun _ => True)
      (do let _ ← expandStatement fuel [[(x, idX), (y, idY)]] fd.block; return ()) := by
  refine ((keepsScope fuel).statement (.call fun d hd => ?_) fd.block).bind
    fun _ _ => Moves.pure trivial
  rcases List.mem_cons.1 hd with rfl | hd
  · exact ⟨hx, hidX⟩
  · obtain rfl := List.mem_singleton.1 hd
    exact ⟨hy, hidY⟩

theorem places_setProgramWithCompute (fuel : ℕ) (fd : FunctionDefinition) :
    Places [] (setProgramWithCompute fuel fd) := by
  refine (moves_pushScope compute).bind_places fun _ _ => ?_
  split_ifs
  · exact (moves_addVar _ _ inputName).bind_places fun input hinput =>
      (moves_addVar _ _ computeReturn).bind_places fun _ _ =>
        (moves_addVar _ _ outputName).bind_places fun output houtput =>
          (moves_entry (by decide) (by decide) fd hinput houtput).places
  · exact Places.throw

theorem places_setProgramWithCStyleMain (fuel : ℕ) (fd : FunctionDefinition) :
    Places [] (setProgramWithCStyleMain fuel fd) := by
  refine (moves_pushScope main).bind_places fun _ _ => ?_
  split
  · rename_i argc argv rest _
    have hx : argc ∈ [] ++ [argc] ++ [argv] ++ [mainReturn] := by simp
    have hy : argv ∈ [] ++ [argc] ++ [argv] ++ [mainReturn] := by simp
    exact (moves_addVar _ _ argc).bind_places fun idArgc hargc =>
      (moves_addVar _ _ argv).bind_places fun idArgv hargv =>
        (moves_addVar _ _ mainReturn).bind_places fun _ _ =>
          (moves_entry hx hy fd hargc hargv).places
  · exact Places.throw

theorem places_setProgram (fuel : ℕ) (p : List TopLevel) : Places [] (setProgram fuel p) := by
  refine (moves_forM fuel p).bind_places fun _ _ => Places.get fun s => ?_
  split
  · exact places_setProgramWithCompute fuel _
  · refine Places.get fun s => ?_
    split
    · exact places_setProgramWithCStyleMain fuel _
    · exact Places.throw

/-- Every use that a run records is placed as its function says. -/
theorem run_placed {fuel : ℕ} {p : List TopLevel} {u : Use} (hu : u ∈ (run fuel p).uses) :
    u.Placed :=
  places_setProgram fuel p ⟨[], [], [], []⟩ rfl (fun _ hu => absurd hu List.not_mem_nil) u hu

/-- Of a use that is reached: it gets the name of the declaration that static scoping selects,
and no two declarations of the stack, and no declaration and a global variable, have the same
unique name. -/
structure Use.Lexical (u : Use) : Prop where
  resolves : u.Resolves
  distinct : ∀ i j : ℕ, ∀ hi : i < u.scope.length, ∀ hj : j < u.scope.length,
    ∀ x ∈ u.scope[i].vars, ∀ y ∈ u.scope[j].vars,
      CLexicalScope.getAddID (u.scope.drop i) x.text =
        CLexicalScope.getAddID (u.scope.drop j) y.text → i = j ∧ x = y
  global : ∀ i : ℕ, ∀ hi : i < u.scope.length, ∀ x ∈ u.scope[i].vars, ∀ g : Identifier,
    CLexicalScope.getAddID (u.scope.drop i) x.text ≠ g.text

theorem Use.Placed.lexical {u : Use} (h : u.Placed) (hu : u.Unshadowed) : u.Lexical :=
  ⟨h.resolves_iff.2 hu, fun _ _ hi hj _ _ _ _ heq => CLexicalScope.getAddID_injective hi hj heq,
    fun _ hi x _ g => CLexicalScope.getAddID_ne_global hi x g⟩

/-- A use that a run reaches is resolved lexically exactly if the stack declares no name that
its function does not declare. -/
theorem lexical_iff {fuel : ℕ} {p : List TopLevel} {u : Use} (hu : u ∈ (run fuel p).uses) :
    u.Lexical ↔ u.Unshadowed :=
  ⟨fun h => (run_placed hu).resolves_iff.1 h.resolves, (run_placed hu).lexical⟩

/-! ## A global variable behind a caller's -/

def nameX : Identifier := ⟨"x", by decide⟩

def nameG : Identifier := ⟨"g", by decide⟩

/-- `int x; int g() { return x; } void compute(…) { int x; x = g(); }`, with the pointers left
out. -/
def shadowing : List TopLevel :=
  [.globalVariable nameX [],
    .function ⟨nameG, [], .compound [] [.ret (some (.identifier nameX))]⟩,
    .function ⟨compute, [inputName, outputName],
      .compound [nameX] [.expression (.assignment (.identifier nameX) (.call nameG []))]⟩]

/-- The use in `g`, where the stack has the scopes of `g` and of its caller. -/
def useInG : Use :=
  ⟨[[], []], [⟨blockScope, []⟩, ⟨nameG, []⟩, ⟨blockScope, [nameX]⟩,
    ⟨compute, [inputName, computeReturn, outputName]⟩], nameX⟩

theorem useInG_mem : useInG ∈ (run 10 shadowing).uses := by decide +kernel

/-- Static scoping selects the global `x`, `getID` the `x` of the caller. -/
theorem useInG_not_lexical :
    useInG ∈ (run 10 shadowing).uses ∧ useInG.selected = "x" ∧
      useInG.scope.getID useInG.name = "compute$block$x" ∧ ¬ useInG.Lexical := by
  refine ⟨useInG_mem, by decide +kernel, by decide +kernel, fun h => ?_⟩
  have hresolves := h.resolves
  revert hresolves
  rw [Use.Resolves]
  decide +kernel

/-- The use in `compute`, which declares `x` itself. -/
theorem lexical_useInCompute : ∃ u ∈ (run 10 shadowing).uses,
    u.selected = "compute$block$x" ∧ u.Unshadowed ∧ u.Lexical := by
  have hmem : (⟨[[(nameX, "compute$block$x")],
      [(inputName, "compute$input"), (outputName, "compute$output")]],
      [⟨blockScope, [nameX]⟩, ⟨compute, [inputName, computeReturn, outputName]⟩], nameX⟩ : Use) ∈
      (run 10 shadowing).uses := by decide +kernel
  have hunshadowed : Use.Unshadowed ⟨[[(nameX, "compute$block$x")],
      [(inputName, "compute$input"), (outputName, "compute$output")]],
      [⟨blockScope, [nameX]⟩, ⟨compute, [inputName, computeReturn, outputName]⟩], nameX⟩ :=
    fun hall => absurd rfl (hall (nameX, "compute$block$x") (by simp))
  exact ⟨_, hmem, by decide +kernel, hunshadowed, (lexical_iff hmem).2 hunshadowed⟩

end Pepper.Frontend.CCompiler
