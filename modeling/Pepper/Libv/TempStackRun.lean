import Pepper.Libv.TempStack

/-!
# Runs of the prover's interpreter of polynomials

What `compute_poly` does with any list of tokens and any array of at least two cells. Every list of
tokens reads as one polynomial (`reads_polynomial`), and both kinds of runs are inductions on how
it is read: where the cells suffice the loop follows the polynomial (`follows_of_reads`), where
they do not the run ends at the first bracket without cells or reports it (`runsOut_of_reads`). An
array of odd size is never left (`computePoly_safe`).

`staysInside_iff` puts the runs together, and `run_refines` takes the value in the first cell to
the loop that keeps its sums to itself.
-/

set_option autoImplicit false

namespace Pepper.Libv.TempStack

open Pepper.Foundations Pepper.Foundations.Outcome Pepper.Zcc
open Pepper.Libv.ComputePoly (PolyState polyReader)

/-! ## The polynomial of a list of tokens -/

/-- What a token is for the loop, in the order in which it compares it. -/
def lex (tok : Tok) : Bracketed (Atom Tok) :=
  if tok = ['('] then .opening
  else if tok = [')'] then .closing
  else if tok = ['E'] then .stop
  else if tok = ['+'] then .atom .plus
  else if tok = ['*'] then .atom .times
  else if tok = ['-'] then .atom .minus
  else .atom (.name tok)

/-- The polynomial at the start of a list of tokens, and the tokens after its end. -/
def polynomial (cmds : List Tok) : Text Tok × List Tok := scan lex cmds.length cmds

/-- The levels of the polynomial, the outermost included. -/
def levels (cmds : List Tok) : ℕ := (polynomial cmds).1.depth + 1

theorem reads_polynomial (cmds : List Tok) :
    Reads lex cmds (polynomial cmds).1 (polynomial cmds).2 :=
  reads_scan cmds.length cmds le_rfl

/-- A balanced text up to an `E` is the polynomial of its tokens. -/
theorem polynomial_flatten (n : Text Tok) {toks : List Tok} (htoks : toks.map lex = n.flatten)
    (rest : List Tok) : polynomial (toks ++ ['E'] :: rest) = (n, rest) := by
  have htail : Reads lex (['E'] :: rest) .nil rest := Reads.stop rfl
  have hreads := (reads_polynomial _).unique (reads_flatten n htoks htail)
  exact Prod.ext hreads.1.symm hreads.2.symm

section Runs

variable {size : ℕ} (vars : Variables) (mpqSetStr : Tok → ℚ → ℚ)

/-- A factor that has a value: `voc` finds the same one whatever `temp_q` holds. -/
def Denotes (tok : Tok) : Prop :=
  ∀ q q', (voc vars mpqSetStr tok q).value = (voc vars mpqSetStr tok q').value

/-- The value of a factor. -/
def factorValue (tok : Tok) : ℚ := (voc vars mpqSetStr tok 0).value

/-- All factors of a text have values. -/
def AllDenote (n : Text Tok) : Prop := ∀ tok, Atom.name tok ∈ n.atoms → Denotes vars mpqSetStr tok

variable {vars mpqSetStr}
variable {call : ℕ → Members size → List Tok → Except Fault (Members size × List Tok)}
variable {tempNum : ℕ} {c : CallState size} {s : PolyState} {tok : Tok} {cmds : List Tok}

/-! ## One turn of the loop -/

/-- A token that is not a bracket changes the state as it does in the loop without cells. -/
theorem turn_atom {a : Atom Tok} (htok : lex tok = .atom a) (h : Holds tempNum c s) :
    Ends (turn vars mpqSetStr call tempNum c tok cmds)
      (fun t => t.again = true ∧ t.cmds = cmds ∧ ∃ s', Holds tempNum t.state s' ∧
        ((∀ x, a = .name x → Denotes vars mpqSetStr x) →
          s' = (polyReader (factorValue vars mpqSetStr) 0).atom s a))
      fun _ => False := by
  rw [lex] at htok
  split_ifs at htok with hopening hclosing hstop hplus htimes hminus
  · obtain rfl := Bracketed.atom.inj htok
    subst hplus
    exact (ends_bind _ _ _ _).2 (h.emit.mono_ok fun c' hc' => ⟨rfl, rfl, s.emit, hc', fun _ => rfl⟩)
  · obtain rfl := Bracketed.atom.inj htok
    subst htimes
    exact ⟨rfl, rfl, s, h, fun _ => rfl⟩
  · obtain rfl := Bracketed.atom.inj htok
    subst hminus
    refine (ends_bind _ _ _ _).2 (h.emit.mono_ok fun c' hc' => ⟨rfl, rfl, _, ?_, fun _ => rfl⟩)
    refine ⟨hc'.inside, hc'.hasTerms, hc'.hasFactors, hc'.isEmpty, ?_, hc'.poly, hc'.term⟩
    exact congrArg not hc'.negate
  · obtain rfl := Bracketed.atom.inj htok
    have hbefore : emitBefore tempNum c tok = pure c :=
      if_neg (not_or.2 ⟨hplus, hminus⟩)
    rw [turn, hbefore, ends_bind, ends_pure, if_neg hopening, if_neg hclosing, if_neg hstop,
      if_neg (not_or.2 ⟨hplus, htimes⟩), if_neg hminus]
    -- `voc` only touches `temp_q` and the output
    have hstate : Holds tempNum { c with members := { c.members with
        tempQ := (voc vars mpqSetStr tok c.members.tempQ).useIfConstant
        printed := c.members.printed ++ (voc vars mpqSetStr tok c.members.tempQ).printed } } s :=
      ⟨h.inside, h.hasTerms, h.hasFactors, h.isEmpty, h.negate, h.poly, h.term⟩
    refine (ends_bind _ _ _ _).2 ((hstate.factor _).mono_ok fun c' hc' => ?_)
    refine ⟨rfl, rfl, _, hc', fun hvalues => ?_⟩
    exact congrArg s.factor (hvalues tok rfl _ _)

theorem turn_opening (htok : lex tok = .opening) :
    turn vars mpqSetStr call tempNum c tok cmds = (do
      let r ← call (tempNum + 2) c.members cmds
      let subresult ← r.1.load (tempNum + 2)
      let c' ← factor tempNum subresult { c with members := r.1 }
      pure ⟨true, c', r.2⟩) := by
  rw [lex] at htok
  split_ifs at htok with hopening
  subst hopening
  rfl

/-- A closing bracket and an `E` both end the loop. -/
theorem turn_end (htok : lex tok = .closing ∨ lex tok = .stop) :
    turn vars mpqSetStr call tempNum c tok cmds = pure ⟨false, c, cmds⟩ := by
  rw [lex] at htok
  split_ifs at htok with hopening hclosing hstop
  · simp at htok
  · subst hclosing
    rfl
  · subst hstop
    rfl
  all_goals simp at htok

/-! ## Polynomials that fit -/

theorem AllDenote.atom {a : Atom Tok} {n : Text Tok} (h : AllDenote vars mpqSetStr (.atom a n)) :
    (∀ x, a = .name x → Denotes vars mpqSetStr x) ∧ AllDenote vars mpqSetStr n := by
  refine ⟨?_, fun x hx => h x (List.mem_cons_of_mem _ hx)⟩
  rintro x rfl
  exact h x List.mem_cons_self

theorem AllDenote.group {inner n : Text Tok} (h : AllDenote vars mpqSetStr (.group inner n)) :
    AllDenote vars mpqSetStr inner ∧ AllDenote vars mpqSetStr n :=
  ⟨fun x hx => h x (List.mem_append_left _ hx), fun x hx => h x (List.mem_append_right _ hx)⟩

variable {toks mid rest : List Tok} {inner n : Text Tok}

variable (size vars mpqSetStr) in
/-- In every call that has the cells for it, the loop reads the tokens `toks` as the text `n` and
does to its cells what the loop without cells does to its state. -/
def Follows (toks : List Tok) (n : Text Tok) (rest : List Tok) : Prop :=
  ∀ {tempNum fuel turns : ℕ} {c : CallState size} {s : PolyState},
    tempNum + 2 * n.depth + 1 < size → toks.length ≤ fuel → toks.length ≤ turns →
    Holds tempNum c s →
    Ends (loop vars mpqSetStr (computePoly vars mpqSetStr fuel) turns tempNum c toks)
      (fun r => r.2 = rest ∧ ∃ s', Holds tempNum r.1 s' ∧
        (AllDenote vars mpqSetStr n →
          s' = (polyReader (factorValue vars mpqSetStr) 0).run PolyState.init s n))
      fun _ => False

/-- A call whose loop follows a text leaves the meaning of the text in its first cell. -/
theorem Follows.computePoly (h : Follows size vars mpqSetStr toks n rest) {fuel : ℕ}
    (hdepth : tempNum + 2 * n.depth + 1 < size) (hfuel : toks.length < fuel) (m : Members size) :
    Ends (computePoly vars mpqSetStr fuel tempNum m toks)
      (fun r => r.2 = rest ∧ ∃ q, r.1.load tempNum = .ok q ∧
        (AllDenote vars mpqSetStr n → q = meaning (factorValue vars mpqSetStr) n))
      fun _ => False := by
  obtain ⟨fuel, rfl, hlen⟩ := exists_fuel hfuel
  have hcells : tempNum + 1 < size := by omega
  rw [TempStack.computePoly, ends_bind]
  refine (store_spec m (Nat.lt_of_succ_lt hcells) 0).mono_ok fun m' hm' => ?_
  rw [if_neg (by omega)]
  simp only [ends_bind, ends_pure]
  refine (h hdepth hlen le_rfl (Holds.init hcells hm'.here)).mono_ok ?_
  rintro r ⟨hrest, s, hs, hvalue⟩
  refine hs.finish.mono_ok fun m'' hm'' => ⟨hrest, _, hm'', fun hdenote => ?_⟩
  rw [hvalue hdenote]
  exact ComputePoly.polyReader_result (factorValue vars mpqSetStr) 0 n

/-- A bracket is a factor with the meaning of its text. -/
theorem Follows.turn (h : Follows size vars mpqSetStr toks inner mid) {fuel : ℕ}
    (htok : lex tok = .opening) (hdepth : tempNum + 2 + 2 * inner.depth + 1 < size)
    (hfuel : toks.length < fuel) (hs : Holds tempNum c s) :
    Ends (turn vars mpqSetStr (TempStack.computePoly vars mpqSetStr fuel) tempNum c tok toks)
      (fun t => t.again = true ∧ t.cmds = mid ∧ ∃ s', Holds tempNum t.state s' ∧
        (AllDenote vars mpqSetStr inner → s' = s.factor (meaning (factorValue vars mpqSetStr) inner)))
      fun _ => False := by
  rw [turn_opening htok, ends_bind]
  have hcall := (h.computePoly hdepth hfuel c.members).and
    (computePoly_framed fuel (tempNum + 2) c.members toks)
  refine hcall.mono ?_ fun e he => he.1
  rintro r ⟨⟨hmid, q, hq, hvalue⟩, hkept, -⟩
  rw [ends_bind, hq, ends_ok, ends_bind]
  refine ((hs.of_extends hkept).factor q).mono_ok fun c' hc' => ⟨rfl, hmid, _, hc', ?_⟩
  intro hdenote
  rw [hvalue hdenote]

/-- By induction on how the tokens are read: the loop follows every text. -/
theorem follows_of_reads (h : Reads lex toks n rest) : Follows size vars mpqSetStr toks n rest := by
  induction h with
  | exhausted =>
      intro tempNum fuel turns c s _ _ _ hs
      rw [loop]
      exact ⟨rfl, s, hs, fun _ => rfl⟩
  | closing htok =>
      intro tempNum fuel turns c s _ _ hturns hs
      obtain ⟨turns, rfl, -⟩ := exists_fuel hturns
      rw [loop, turn_end (Or.inl htok)]
      exact ⟨rfl, s, hs, fun _ => rfl⟩
  | stop htok =>
      intro tempNum fuel turns c s _ _ hturns hs
      obtain ⟨turns, rfl, -⟩ := exists_fuel hturns
      rw [loop, turn_end (Or.inr htok)]
      exact ⟨rfl, s, hs, fun _ => rfl⟩
  | @atom tok toks rest a n htok _ ih =>
      intro tempNum fuel turns c s hdepth hfuel hturns hs
      obtain ⟨turns, rfl, hlen⟩ := exists_fuel hturns
      rw [loop, ends_bind]
      refine (turn_atom htok hs).mono_ok ?_
      rintro ⟨again, c', cmds⟩ ⟨rfl, rfl, s', hs', hvalue⟩
      refine (ih hdepth (Nat.le_of_succ_le hfuel) hlen hs').mono_ok ?_
      rintro r ⟨hrest, s'', hs'', hvalue'⟩
      refine ⟨hrest, s'', hs'', fun hdenote => ?_⟩
      rw [hvalue' hdenote.atom.2, hvalue hdenote.atom.1]
      rfl
  | @group tok toks mid rest inner n htok hinner _ ihInner ihRest =>
      intro tempNum fuel turns c s hdepth hfuel hturns hs
      obtain ⟨turns, rfl, hlen⟩ := exists_fuel hturns
      rw [Nest.depth] at hdepth
      rw [loop, ends_bind]
      refine (Follows.turn ihInner htok (by omega) hfuel hs).mono_ok ?_
      rintro ⟨again, c', cmds⟩ ⟨rfl, rfl, s', hs', hvalue⟩
      -- the loop goes on with the tokens that the inner call has left
      have hmid := hinner.length_le
      refine (ihRest (by omega) (hmid.trans (Nat.le_of_succ_le hfuel)) (hmid.trans hlen)
        hs').mono_ok ?_
      rintro r ⟨hrest, s'', hs'', hvalue'⟩
      refine ⟨hrest, s'', hs'', fun hdenote => ?_⟩
      rw [hvalue' hdenote.group.2, hvalue hdenote.group.1,
        ← ComputePoly.polyReader_result (factorValue vars mpqSetStr) 0 inner]
      rfl

/-! ## Polynomials that are nested too deep -/

/-- The message about the nesting has been printed. -/
def Reported (m : Members size) : Prop := tooManyCalls size ∈ m.printed

theorem Extends.reported {m m' : Members size} (h : Extends tempNum m m') (hm : Reported m) :
    Reported m' :=
  h.printed.subset hm

/-- How a call ends that runs out of cells: the last cell of an array of odd size is left for the
call that reports, and an array of even size is left at its end. -/
abbrev Overflows {α : Type} (size : ℕ) (x : Except Fault α) (members : α → Members size) : Prop :=
  Ends x (fun r => Odd size ∧ Reported (members r)) fun e => Even size → e = .outside size

/-- What follows a report keeps it. -/
theorem overflows_of_reported {α : Type} {x : Except Fault α} {members : α → Members size}
    {m : Members size} (hodd : Odd size) (hm : Reported m)
    (hx : Ends x (fun r => Extends tempNum m (members r)) fun _ => True) :
    Overflows size x members :=
  hx.mono (fun _ hr => ⟨hodd, hr.reported hm⟩) fun _ _ heven =>
    absurd heven (Nat.not_even_iff_odd.2 hodd)

variable (size vars mpqSetStr) in
/-- In every call that does not have the cells for the text `n`, the loop runs out of them on the
tokens `toks`. -/
def RunsOut (toks : List Tok) (n : Text Tok) : Prop :=
  ∀ {tempNum fuel turns : ℕ} (c : CallState size), Even tempNum → tempNum + 1 < size →
    size ≤ tempNum + 2 * n.depth + 1 → toks.length ≤ fuel → toks.length ≤ turns →
    Overflows size (loop vars mpqSetStr (computePoly vars mpqSetStr fuel) turns tempNum c toks)
      fun r => r.1.members

theorem RunsOut.computePoly (h : RunsOut size vars mpqSetStr toks n) {fuel : ℕ}
    (heven : Even tempNum) (hinside : tempNum ≤ size) (hdepth : size ≤ tempNum + 2 * n.depth + 1)
    (hfuel : toks.length < fuel) (m : Members size) :
    Overflows size (computePoly vars mpqSetStr fuel tempNum m toks) Prod.fst := by
  obtain ⟨fuel, rfl, hlen⟩ := exists_fuel hfuel
  rw [TempStack.computePoly, Overflows, ends_bind]
  rcases hinside.eq_or_lt with rfl | hlt
  · -- the first write comes before the check
    rw [store_outside le_rfl]
    exact fun _ => rfl
  · refine (store_spec m hlt 0).mono (fun m' hm' => ?_) fun _ he => he.elim
    by_cases hlast : tempNum ≥ size - 1
    · rw [if_pos hlast]
      have hsize : size = tempNum + 1 := by omega
      exact ⟨hsize ▸ heven.add_one, List.mem_append_right _ List.mem_cons_self⟩
    · rw [if_neg hlast]
      simp only [ends_bind, ends_pure]
      have hloop := h (CallState.init m') heven (by omega) hdepth hlen le_rfl
      refine hloop.mono_ok fun r hr => ?_
      exact overflows_of_reported hr.1 hr.2 (finish_extends r.1)

/-- By induction on how the tokens are read: the first bracket without cells ends the run, or is
reported and the loop goes on with the tokens inside it. -/
theorem runsOut_of_reads (h : Reads lex toks n rest) : RunsOut size vars mpqSetStr toks n := by
  induction h with
  | exhausted =>
      intro tempNum fuel turns c _ hcells hdepth _ _
      exact absurd hdepth (by rw [Nest.depth]; omega)
  | closing htok =>
      intro tempNum fuel turns c _ hcells hdepth _ _
      exact absurd hdepth (by rw [Nest.depth]; omega)
  | stop htok =>
      intro tempNum fuel turns c _ hcells hdepth _ _
      exact absurd hdepth (by rw [Nest.depth]; omega)
  | @atom tok toks rest a n htok _ ih =>
      intro tempNum fuel turns c heven hcells hdepth hfuel hturns
      obtain ⟨turns, rfl, hlen⟩ := exists_fuel hturns
      obtain ⟨s, hs⟩ := Holds.exists_state hcells c
      rw [loop, Overflows, ends_bind]
      refine (turn_atom htok hs).mono ?_ fun _ he => he.elim
      rintro ⟨again, c', cmds⟩ ⟨rfl, rfl, -⟩
      exact ih c' heven hcells hdepth (Nat.le_of_succ_le hfuel) hlen
  | @group tok toks mid rest inner n htok hinner _ ihInner ihRest =>
      intro tempNum fuel turns c heven hcells hdepth hfuel hturns
      obtain ⟨turns, rfl, hlen⟩ := exists_fuel hturns
      rw [Nest.depth] at hdepth
      rw [loop, Overflows, ends_bind]
      by_cases hfits : tempNum + 2 + 2 * inner.depth + 1 < size
      · -- the group fits, so that what follows it does not
        obtain ⟨s, hs⟩ := Holds.exists_state hcells c
        refine (Follows.turn (follows_of_reads hinner) htok hfits hfuel hs).mono ?_
          fun _ he => he.elim
        rintro ⟨again, c', cmds⟩ ⟨rfl, rfl, -⟩
        have hmid := hinner.length_le
        exact ihRest c' heven hcells (by omega) (hmid.trans (Nat.le_of_succ_le hfuel))
          (hmid.trans hlen)
      · have hcall := RunsOut.computePoly ihInner (heven.add even_two) (by omega)
          (by omega) hfuel c.members
        rw [turn_opening htok, ends_bind]
        refine hcall.mono_ok fun r hr => ?_
        -- the report stays, whatever the rest of the tokens makes the loop do
        have hturn : Ends (do
            let subresult ← r.1.load (tempNum + 2)
            let c' ← factor tempNum subresult { c with members := r.1 }
            pure (⟨true, c', r.2⟩ : Turn size))
            (fun t => Extends tempNum r.1 t.state.members) fun _ => True := by
          simp only [ends_bind, ends_pure]
          exact (ends_any _).mono_ok fun q _ => factor_extends q _
        refine hturn.mono (fun t ht => ?_) fun e _ he =>
          absurd he (Nat.not_even_iff_odd.2 hr.1)
        split_ifs
        · exact overflows_of_reported hr.1 (ht.reported hr.2)
            ((loop_extends (computePoly_framed fuel) turns t.state t.cmds).mono_ok fun _ h => h.1)
        · exact ⟨hr.1, ht.reported hr.2⟩

/-! ## Arrays of odd size -/

theorem turn_safe (hcall : Ends (call (tempNum + 2) c.members cmds) (fun _ => True) fun _ => False)
    (hframed : Framed call) (hcells : tempNum + 2 < size) :
    Ends (turn vars mpqSetStr call tempNum c tok cmds) (fun _ => True) fun _ => False := by
  obtain ⟨s, hs⟩ := Holds.exists_state (Nat.lt_of_succ_lt hcells) c
  cases htok : lex tok with
  | opening =>
      rw [turn_opening htok, ends_bind]
      refine (hcall.and (hframed _ _ _)).mono (fun r hr => ?_) fun _ he => he.1
      obtain ⟨q, hq⟩ := exists_load r.1 hcells
      rw [ends_bind, hq, ends_ok, ends_bind]
      exact ((hs.of_extends hr.2.1).factor q).mono_ok fun _ _ => trivial
  | closing =>
      rw [turn_end (Or.inl htok)]
      trivial
  | stop =>
      rw [turn_end (Or.inr htok)]
      trivial
  | atom a => exact (turn_atom htok hs).mono_ok fun _ _ => trivial

theorem loop_safe {fuel : ℕ}
    (hcall : ∀ (m : Members size) (toks : List Tok), toks.length < fuel →
      Ends (call (tempNum + 2) m toks) (fun _ => True) fun _ => False)
    (hframed : Framed call) (hcells : tempNum + 2 < size) {turns : ℕ} (c : CallState size)
    {cmds : List Tok} (hfuel : cmds.length ≤ fuel) (hturns : cmds.length ≤ turns) :
    Ends (loop vars mpqSetStr call turns tempNum c cmds) (fun _ => True) fun _ => False := by
  induction turns generalizing c cmds with
  | zero =>
      rw [List.length_eq_zero_iff.1 (Nat.le_zero.1 hturns), loop]
      trivial
  | succ turns ih =>
      cases cmds with
      | nil =>
          rw [loop]
          trivial
      | cons tok cmds =>
          rw [loop, ends_bind]
          have hturn : Ends (turn vars mpqSetStr call tempNum c tok cmds) (fun _ => True)
              fun _ => False := turn_safe (hcall c.members cmds hfuel) hframed hcells
          refine (hturn.and (turn_extends hframed c tok cmds)).mono (fun t ht => ?_)
            fun _ he => he.1
          have hlen := ht.2.2
          split_ifs
          · exact ih t.state (hlen.trans (Nat.le_of_succ_le hfuel))
              (hlen.trans (Nat.le_of_succ_le_succ hturns))
          · trivial

/-- With an odd number of cells every call that is reached has its first cell, and the check comes
before the second one is used. -/
theorem computePoly_safe (hodd : Odd size) (fuel : ℕ) {tempNum : ℕ} (heven : Even tempNum)
    (hinside : tempNum < size) (m : Members size) {cmds : List Tok} (hfuel : cmds.length < fuel) :
    Ends (computePoly vars mpqSetStr fuel tempNum m cmds) (fun _ => True) fun _ => False := by
  induction fuel generalizing tempNum m cmds with
  | zero => exact absurd hfuel (Nat.not_lt_zero _)
  | succ fuel ih =>
      rw [computePoly, ends_bind]
      refine (store_spec m hinside 0).mono_ok fun m' hm' => ?_
      split_ifs with hlast
      · trivial
      · have hnext : tempNum + 2 < size := by
          have hne : tempNum + 2 ≠ size := by
            rintro rfl
            exact (Nat.not_even_iff_odd.2 hodd) (heven.add even_two)
          omega
        simp only [ends_bind, ends_pure]
        have hcells : tempNum + 1 < size := Nat.lt_of_succ_lt hnext
        have hcalls : ∀ (m : Members size) (toks : List Tok), toks.length < fuel →
            Ends (computePoly vars mpqSetStr fuel (tempNum + 2) m toks) (fun _ => True)
              fun _ => False := fun m toks h => ih (heven.add even_two) hnext m h
        refine (loop_safe hcalls (computePoly_framed fuel) hnext _ (Nat.le_of_lt_succ hfuel)
          le_rfl).mono_ok fun r _ => ?_
        obtain ⟨s, hs⟩ := Holds.exists_state hcells r.1
        exact hs.finish.mono_ok fun _ _ => trivial

/-! ## Runs from the lowest cells -/

/-- A polynomial that fits leaves its meaning in the first cell, and the tokens after its end. -/
theorem run_fits (cmds : List Tok) (hfits : 2 * levels cmds ≤ size) (m : Members size) :
    Ends (run vars mpqSetStr m cmds)
      (fun r => r.2 = (polynomial cmds).2 ∧ ∃ q, r.1.load 0 = .ok q ∧
        (AllDenote vars mpqSetStr (polynomial cmds).1 →
          q = meaning (factorValue vars mpqSetStr) (polynomial cmds).1))
      fun _ => False := by
  rw [levels] at hfits
  exact Follows.computePoly (follows_of_reads (reads_polynomial cmds)) (by omega)
    (Nat.lt_succ_self _) m

/-- A polynomial that does not fit: with an odd number of cells the run reports, with an even
number it writes past the array. -/
theorem run_overflows (cmds : List Tok) (htight : size < 2 * levels cmds) (m : Members size) :
    Overflows size (run vars mpqSetStr m cmds) Prod.fst := by
  rw [levels] at htight
  exact RunsOut.computePoly (runsOut_of_reads (reads_polynomial cmds)) Even.zero (Nat.zero_le _)
    (by omega) (Nat.lt_succ_self _) m

/-- The write past the array is the one at its end. -/
theorem run_outside (heven : Even size) (cmds : List Tok) (htight : size < 2 * levels cmds)
    (m : Members size) : run vars mpqSetStr m cmds = .error (.outside size) := by
  have hrun : Overflows size (run vars mpqSetStr m cmds) Prod.fst := run_overflows cmds htight m
  cases hresult : run vars mpqSetStr m cmds with
  | ok r =>
      rw [hresult] at hrun
      exact absurd heven (Nat.not_even_iff_odd.2 hrun.1)
  | error e =>
      rw [hresult] at hrun
      exact congrArg Except.error (hrun heven)

/-- The run agrees with the loop without cells, in the array that the prover allocates. -/
theorem run_refines (cmds : List Tok) (hfits : 2 * levels cmds ≤ ComputePoly.tempStackSize)
    (hdenote : AllDenote vars mpqSetStr (polynomial cmds).1)
    (m : Members ComputePoly.tempStackSize) :
    Ends (run vars mpqSetStr m cmds)
      (fun r => ∃ q, r.1.load 0 = .ok q ∧
        ComputePoly.computePoly (factorValue vars mpqSetStr) 0 (cmds.map lex) = some (q, r.2.map lex))
      fun _ => False := by
  refine (run_fits cmds hfits m).mono_ok ?_
  rintro r ⟨hrest, q, hq, hvalue⟩
  have hdepth : 0 + 2 * (polynomial cmds).1.depth < ComputePoly.tempStackSize - 1 := by
    rw [levels] at hfits
    have hpos : ComputePoly.tempStackSize = 16 := rfl
    omega
  refine ⟨q, hq, ?_⟩
  rw [ComputePoly.computePoly, ComputePoly.polyReader_start _ (by decide), Option.bind_some,
    (polyReader (factorValue vars mpqSetStr) 0).read_of_reads (fun _ => rfl) (fun _ => rfl)
      (reads_polynomial cmds) (by rw [List.length_map]; exact Nat.lt_succ_self _),
    ComputePoly.polyReader_fold _ 0 _ hdepth, hrest, hvalue hdenote,
    ← ComputePoly.polyReader_result (factorValue vars mpqSetStr) 0 (polynomial cmds).1]
  rfl

variable (vars mpqSetStr) in
/-- The interpreter stays inside an array of `size` cells on the tokens `cmds`: it returns without
an access past the array, a polynomial that fits leaves its value in the first cell and is consumed
up to its end, and no call writes a cell of the calls around it. -/
structure StaysInside (size : ℕ) (cmds : List Tok) : Prop where
  inside : ∀ m : Members size, ∃ r, run vars mpqSetStr m cmds = .ok r
  value : 2 * levels cmds ≤ size → AllDenote vars mpqSetStr (polynomial cmds).1 →
    ∀ m : Members size, ∃ m', run vars mpqSetStr m cmds = .ok (m', (polynomial cmds).2) ∧
      m'.load 0 = .ok (meaning (factorValue vars mpqSetStr) (polynomial cmds).1)
  enclosing : ∀ (fuel tempNum : ℕ) (m : Members size) (toks : List Tok)
    (r : Members size × List Tok), computePoly vars mpqSetStr fuel tempNum m toks = .ok r →
      ∀ i < tempNum, r.1.load i = m.load i

/-- For every list of tokens and every array of at least two cells. -/
theorem staysInside_iff (hsize : 2 ≤ size) (cmds : List Tok) :
    StaysInside vars mpqSetStr size cmds ↔ Odd size ∨ 2 * levels cmds ≤ size := by
  constructor
  · intro h
    by_contra hnot
    rw [not_or, Nat.not_odd_iff_even, not_le] at hnot
    let m : Members size := ⟨fun _ => 0, 0, []⟩
    obtain ⟨r, hr⟩ := h.inside m
    rw [run_outside hnot.1 cmds hnot.2 m] at hr
    cases hr
  · intro h
    refine ⟨fun m => ?_, fun hfits hdenote m => ?_, fun fuel tempNum m toks r hr i hi => ?_⟩
    · rcases h with hodd | hfits
      · have hsafe : Ends (run vars mpqSetStr m cmds) (fun _ => True) fun _ => False :=
          computePoly_safe hodd _ Even.zero (by omega) m (Nat.lt_succ_self _)
        obtain ⟨r, hr, -⟩ := hsafe.returns
        exact ⟨r, hr⟩
      · obtain ⟨r, hr, -⟩ := (run_fits cmds hfits m).returns
        exact ⟨r, hr⟩
    · obtain ⟨⟨m', rest⟩, hr, hrest, q, hq, hvalue⟩ := (run_fits cmds hfits m).returns
      refine ⟨m', ?_, ?_⟩
      · rw [hr]
        exact congrArg (fun l => Except.ok (m', l)) hrest
      · rw [hq, hvalue hdenote]
    · have hframe := (computePoly_framed fuel tempNum m toks).of_eq_ok hr
      exact hframe.1.below i hi

end Runs

/-- A prover with one input `I0` and one variable `V0`. -/
def oneVariable : Variables where
  sizeInput := 1
  sizeOutput := 0
  numVars := 1
  inputOutputQ := fun _ => 3
  f1Q := fun _ => 5
  f1Index := id

/-- Constants without a fraction. -/
def setInteger (str : Tok) (_ : ℚ) : ℚ := atoi str

/-- `I0 - ( 1 + V0 ) E`, in four cells. -/
theorem staysInside_two_levels :
    levels [['I', '0'], ['-'], ['('], ['1'], ['+'], ['V', '0'], [')'], ['E']] = 2 ∧
      StaysInside oneVariable setInteger 4
        [['I', '0'], ['-'], ['('], ['1'], ['+'], ['V', '0'], [')'], ['E']] := by
  have hlevels : levels [['I', '0'], ['-'], ['('], ['1'], ['+'], ['V', '0'], [')'], ['E']] = 2 := by
    decide
  refine ⟨hlevels, (staysInside_iff (by decide) _).2 (Or.inr ?_)⟩
  rw [hlevels]

/-- `V0` in eight brackets: the line of a worksheet needs nine levels. -/
def eightBrackets : List Tok :=
  List.replicate 8 ['('] ++ ['V', '0'] :: (List.replicate 8 [')'] ++ [['E']])

/-- In the sixteen cells that the prover allocates, the ninth call writes behind the last one. -/
theorem eightBrackets_outside :
    (∀ m : Members 16, run oneVariable setInteger m eightBrackets = .error (.outside 16)) ∧
      ¬ StaysInside oneVariable setInteger ComputePoly.tempStackSize eightBrackets := by
  have hrun : ∀ m : Members 16,
      run oneVariable setInteger m eightBrackets = .error (.outside 16) := fun m => rfl
  refine ⟨hrun, fun h => ?_⟩
  obtain ⟨r, hr⟩ := h.inside ⟨fun _ => 0, 0, []⟩
  cases (hrun _).symm.trans hr

end Pepper.Libv.TempStack
