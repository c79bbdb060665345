import Mathlib.Data.List.Basic
import Mathlib.Data.Option.Basic
import Mathlib.Tactic.Common

/-!
# Bracketed token streams and their readers

A recursive-descent loop over a token stream with brackets keeps a state for the group it is in,
starts a fresh state at an opening bracket, folds the result of the inner group into the outer
state, and returns at the matching closing bracket. `BracketReader` is such a loop, with a fuel
argument for the recursion over the stream.

`Nest` is a balanced stream as data: its constructors are the cases of the loop, so a fact about
the loop is an induction over a `Nest`. The main results are `read_flatten` (with fuel for every
token, the loop reads a balanced stream exactly up to its closing bracket and computes the
structural fold), `fold_eq_run` (a reader whose `start` succeeds deep enough does not fail) and
`run_rel` (related readers give related results).

A stream need not be balanced. `Reads` is what a loop makes of any stream when a group may also end
at a stop mark or with the stream: `reads_scan` and `Reads.unique` say that every stream reads as
exactly one sequence.
-/

set_option autoImplicit false

namespace Pepper.Foundations

universe u v w v' w'

/-- A token: a bracket, the mark that ends a whole stream, or an atom. -/
inductive Bracketed (α : Type u) where
  | opening : Bracketed α
  | closing : Bracketed α
  | stop : Bracketed α
  | atom (a : α) : Bracketed α
deriving DecidableEq, Repr

/-- A balanced sequence of atoms and groups. -/
inductive Nest (α : Type u) where
  | nil : Nest α
  | atom (a : α) (rest : Nest α) : Nest α
  | group (inner rest : Nest α) : Nest α
deriving DecidableEq, Repr

namespace Nest

variable {α : Type u}

/-- The tokens of a balanced sequence. -/
def flatten : Nest α → List (Bracketed α)
  | nil => []
  | atom a rest => .atom a :: flatten rest
  | group inner rest => .opening :: (flatten inner ++ .closing :: flatten rest)

/-- One sequence after another. -/
def append : Nest α → Nest α → Nest α
  | nil, n => n
  | atom a rest, n => atom a (append rest n)
  | group inner rest, n => group inner (append rest n)

instance : Append (Nest α) := ⟨append⟩

@[simp] theorem nil_append (n : Nest α) : nil ++ n = n := rfl

@[simp] theorem atom_append (a : α) (m n : Nest α) : atom a m ++ n = atom a (m ++ n) := rfl

@[simp] theorem group_append (i m n : Nest α) : group i m ++ n = group i (m ++ n) := rfl

/-- How deep the groups of a sequence are nested. -/
def depth : Nest α → ℕ
  | nil => 0
  | atom _ rest => depth rest
  | group inner rest => max (depth inner + 1) (depth rest)

/-- The number of atoms and groups at the outermost level. -/
def items : Nest α → ℕ
  | nil => 0
  | atom _ rest => items rest + 1
  | group _ rest => items rest + 1

/-- The same sequence with other atoms. -/
def map {β : Type v} (f : α → β) : Nest α → Nest β
  | nil => nil
  | atom a rest => atom (f a) (map f rest)
  | group inner rest => group (map f inner) (map f rest)

/-- The atoms, from left to right. -/
def atoms : Nest α → List α
  | nil => []
  | atom a rest => a :: atoms rest
  | group inner rest => atoms inner ++ atoms rest

theorem mem_atoms_map {β : Type v} {f : α → β} {b : β} {n : Nest α} (h : b ∈ (n.map f).atoms) :
    ∃ a ∈ n.atoms, f a = b := by
  induction n with
  | nil => exact absurd h List.not_mem_nil
  | atom a rest ih =>
      rcases List.mem_cons.1 h with rfl | h
      · exact ⟨a, List.mem_cons_self, rfl⟩
      · obtain ⟨a', ha', rfl⟩ := ih h
        exact ⟨a', List.mem_cons_of_mem a ha', rfl⟩
  | group inner rest ihInner ihRest =>
      rcases List.mem_append.1 h with h | h
      · obtain ⟨a, ha, rfl⟩ := ihInner h
        exact ⟨a, List.mem_append_left _ ha, rfl⟩
      · obtain ⟨a, ha, rfl⟩ := ihRest h
        exact ⟨a, List.mem_append_right _ ha, rfl⟩

theorem items_le_length (n : Nest α) : n.items ≤ n.flatten.length := by
  induction n with
  | nil => simp [items, flatten]
  | atom a rest ih => simpa [items, flatten] using ih
  | group inner rest _ ih =>
      simp only [items, flatten, List.length_cons, List.length_append]
      omega

end Nest

/-- The parts of a loop over a bracketed stream: the state in which a group at a given depth is
started, what an atom and the result of an inner group do to the state, the result at the closing
bracket, and the result, if there is one, at a stop mark and at the end of the stream. -/
structure BracketReader (α : Type u) (σ : Type v) (ρ : Type w) where
  start : ℕ → Option σ
  atom : σ → α → σ
  group : σ → ρ → σ
  finish : σ → ρ
  stop : σ → Option ρ
  exhausted : σ → Option ρ

namespace BracketReader

variable {α : Type u} {σ : Type v} {ρ : Type w} (R : BracketReader α σ ρ)

/-- The loop: the result of the group that is open, and the tokens after it. -/
def read : ℕ → ℕ → σ → List (Bracketed α) → Option (ρ × List (Bracketed α))
  | 0, _, _, _ => none
  | _ + 1, _, s, [] => (R.exhausted s).map fun r => (r, [])
  | fuel + 1, d, s, .opening :: toks =>
      (R.start (d + 1)).bind fun s₀ =>
        (read fuel (d + 1) s₀ toks).bind fun p => read fuel d (R.group s p.1) p.2
  | _ + 1, _, s, .closing :: toks => some (R.finish s, toks)
  | _ + 1, _, s, .stop :: toks => (R.stop s).map fun r => (r, toks)
  | fuel + 1, d, s, .atom a :: toks => read fuel d (R.atom s a) toks

/-- The same loop by recursion over a balanced sequence. -/
def fold : ℕ → σ → Nest α → Option σ
  | _, s, .nil => some s
  | d, s, .atom a rest => fold d (R.atom s a) rest
  | d, s, .group inner rest =>
      (R.start (d + 1)).bind fun s₀ =>
        (fold (d + 1) s₀ inner).bind fun s₁ => fold d (R.group s (R.finish s₁)) rest

/-- The loop with the state `s₀` at the start of every group. -/
def run (s₀ : σ) : σ → Nest α → σ
  | s, .nil => s
  | s, .atom a rest => run s₀ (R.atom s a) rest
  | s, .group inner rest => run s₀ (R.group s (R.finish (run s₀ s₀ inner))) rest

/-- With fuel for every token, reading a balanced sequence is the structural fold followed by
reading what comes after the sequence. -/
theorem read_flatten (n : Nest α) (fuel d : ℕ) (s : σ) (toks : List (Bracketed α))
    (hfuel : n.flatten.length ≤ fuel + n.items) (hpos : 0 < fuel) :
    R.read (fuel + n.items) d s (n.flatten ++ toks) =
      (R.fold d s n).bind fun s' => R.read fuel d s' toks := by
  induction n generalizing fuel d s toks with
  | nil => simp [Nest.items, Nest.flatten, fold]
  | atom a rest ih =>
      have hrest : rest.flatten.length ≤ fuel + rest.items := by
        simp only [Nest.flatten, Nest.items, List.length_cons] at hfuel
        omega
      exact ih fuel d (R.atom s a) toks hrest hpos
  | group inner rest ihInner ihRest =>
      simp only [Nest.flatten, Nest.items, List.length_cons, List.length_append] at hfuel
      have hitems := inner.items_le_length
      have hrest : rest.flatten.length ≤ fuel + rest.items := by omega
      -- the inner group is read with the fuel that is left, which covers all its tokens
      obtain ⟨f, hf⟩ : ∃ f, fuel + rest.items = (f + 1) + inner.items :=
        ⟨fuel + rest.items - inner.items - 1, by omega⟩
      have hinner : inner.flatten.length ≤ f + 1 + inner.items := by omega
      change R.read (fuel + rest.items + 1) d s
          (.opening :: ((inner.flatten ++ .closing :: rest.flatten) ++ toks)) = _
      simp only [read, fold, Option.bind_assoc]
      cases hs : R.start (d + 1) with
      | none => rfl
      | some s₀ =>
          have hread : R.read (fuel + rest.items) (d + 1) s₀
                ((inner.flatten ++ .closing :: rest.flatten) ++ toks) =
              (R.fold (d + 1) s₀ inner).bind fun s₁ =>
                some (R.finish s₁, rest.flatten ++ toks) := by
            rw [hf, List.append_assoc]
            exact ihInner (f + 1) (d + 1) s₀ _ hinner (Nat.succ_pos f)
          simp only [Option.bind_some, hread, Option.bind_assoc]
          congr 1
          funext s₁
          exact ihRest fuel d _ toks hrest hpos

/-- Reading a balanced sequence and its closing bracket, with the tokens themselves as fuel. -/
theorem read_closed (n : Nest α) (fuel d : ℕ) (s : σ) (toks : List (Bracketed α))
    (hfuel : n.flatten.length < fuel) :
    R.read fuel d s (n.flatten ++ .closing :: toks) =
      (R.fold d s n).map fun s' => (R.finish s', toks) := by
  obtain ⟨f, rfl⟩ : ∃ f, fuel = (f + 1) + n.items :=
    ⟨fuel - n.items - 1, by have := n.items_le_length; omega⟩
  rw [R.read_flatten n (f + 1) d s _ (by omega) (Nat.succ_pos f), Option.map_eq_bind]
  rfl

/-- Reading a balanced sequence up to the end of the stream. -/
theorem read_exhausted (n : Nest α) (fuel d : ℕ) (s : σ) (hfuel : n.flatten.length < fuel) :
    R.read fuel d s n.flatten =
      (R.fold d s n).bind fun s' => (R.exhausted s').map fun r => (r, []) := by
  obtain ⟨f, rfl⟩ : ∃ f, fuel = (f + 1) + n.items :=
    ⟨fuel - n.items - 1, by have := n.items_le_length; omega⟩
  have h := R.read_flatten n (f + 1) d s [] (by omega) (Nat.succ_pos f)
  rwa [List.append_nil] at h

/-- Reading a balanced sequence up to a stop mark. -/
theorem read_stopped (n : Nest α) (fuel d : ℕ) (s : σ) (toks : List (Bracketed α))
    (hfuel : n.flatten.length < fuel) :
    R.read fuel d s (n.flatten ++ .stop :: toks) =
      (R.fold d s n).bind fun s' => (R.stop s').map fun r => (r, toks) := by
  obtain ⟨f, rfl⟩ : ∃ f, fuel = (f + 1) + n.items :=
    ⟨fuel - n.items - 1, by have := n.items_le_length; omega⟩
  exact R.read_flatten n (f + 1) d s _ (by omega) (Nat.succ_pos f)

/-- A reader that starts every group down to the depth of the sequence in the state `s₀` does not
fail, and computes the total fold. -/
theorem fold_eq_run (s₀ : σ) (n : Nest α) (d : ℕ) (s : σ)
    (hstart : ∀ e, e ≤ d + n.depth → R.start e = some s₀) :
    R.fold d s n = some (R.run s₀ s n) := by
  induction n generalizing d s with
  | nil => rfl
  | atom a rest ih => exact ih d (R.atom s a) hstart
  | group inner rest ihInner ihRest =>
      have hle : d + 1 ≤ d + (Nest.group inner rest).depth := by
        simp only [Nest.depth]
        omega
      have hinner : ∀ e, e ≤ d + 1 + inner.depth → R.start e = some s₀ := by
        intro e he
        apply hstart
        simp only [Nest.depth]
        omega
      have hrest : ∀ e, e ≤ d + rest.depth → R.start e = some s₀ := by
        intro e he
        apply hstart
        simp only [Nest.depth]
        omega
      simp only [fold, run, hstart _ hle, Option.bind_some, ihInner _ _ hinner]
      exact ihRest d _ hrest

/-- Reading a sequence with other atoms. -/
theorem run_map {β : Type u} (R' : BracketReader β σ ρ) (f : β → α)
    (hatom : ∀ s b, R'.atom s b = R.atom s (f b)) (hgroup : ∀ s r, R'.group s r = R.group s r)
    (hfinish : ∀ s, R'.finish s = R.finish s) (s₀ : σ) (n : Nest β) (s : σ) :
    R.run s₀ s (n.map f) = R'.run s₀ s n := by
  induction n generalizing s with
  | nil => rfl
  | atom b rest ih => rw [Nest.map, run, run, hatom, ih]
  | group inner rest ihInner ihRest =>
      rw [Nest.map, run, run, hgroup, hfinish, ihInner, ihRest]

section Simulation

variable {σ' : Type v'} {ρ' : Type w'} (R' : BracketReader α σ' ρ')

/-- Readers that agree, up to a relation of states and one of results, on the start of a group, on
each atom, on the result of a group and at the end of a group agree on every balanced sequence. -/
theorem run_rel (S : σ → σ' → Prop) (Q : ρ → ρ' → Prop) (s₀ : σ) (s₀' : σ') (hstart : S s₀ s₀')
    (hatom : ∀ s s' a, S s s' → S (R.atom s a) (R'.atom s' a))
    (hgroup : ∀ s s' r r', S s s' → Q r r' → S (R.group s r) (R'.group s' r'))
    (hfinish : ∀ s s', S s s' → Q (R.finish s) (R'.finish s'))
    (n : Nest α) (s : σ) (s' : σ') (h : S s s') : S (R.run s₀ s n) (R'.run s₀' s' n) := by
  induction n generalizing s s' with
  | nil => exact h
  | atom a rest ih => exact ih _ _ (hatom s s' a h)
  | group inner rest ihInner ihRest =>
      have hres : Q (R.finish (R.run s₀ s₀ inner)) (R'.finish (R'.run s₀' s₀' inner)) :=
        hfinish _ _ (ihInner s₀ s₀' hstart)
      exact ihRest _ _ (hgroup s s' _ _ h hres)

end Simulation

end BracketReader

/-! ## Streams of any shape -/

section Reads

variable {α : Type u} {τ : Type v} (lex : τ → Bracketed α)

/-- What a lenient loop makes of a stream: a group ends at a closing bracket, at a stop mark or
with the stream. The sequence that is read, and the tokens after it. -/
inductive Reads : List τ → Nest α → List τ → Prop where
  | exhausted : Reads [] .nil []
  | closing {tok : τ} {toks : List τ} (htok : lex tok = .closing) : Reads (tok :: toks) .nil toks
  | stop {tok : τ} {toks : List τ} (htok : lex tok = .stop) : Reads (tok :: toks) .nil toks
  | atom {tok : τ} {toks rest : List τ} {a : α} {n : Nest α} (htok : lex tok = .atom a)
      (hrest : Reads toks n rest) : Reads (tok :: toks) (.atom a n) rest
  | group {tok : τ} {toks mid rest : List τ} {inner n : Nest α} (htok : lex tok = .opening)
      (hinner : Reads toks inner mid) (hrest : Reads mid n rest) :
      Reads (tok :: toks) (.group inner n) rest

/-- The sequence at the start of a stream and the tokens after it, with fuel for the recursion. -/
def scan : ℕ → List τ → Nest α × List τ
  | _, [] => (.nil, [])
  | 0, tok :: toks => (.nil, tok :: toks)
  | fuel + 1, tok :: toks =>
      match lex tok with
      | .closing => (.nil, toks)
      | .stop => (.nil, toks)
      | .atom a => (.atom a (scan fuel toks).1, (scan fuel toks).2)
      | .opening =>
          (.group (scan fuel toks).1 (scan fuel (scan fuel toks).2).1,
            (scan fuel (scan fuel toks).2).2)

variable {lex} {toks rest : List τ} {n : Nest α}

/-- Fuel for one more token. -/
theorem exists_fuel {k fuel : ℕ} (h : k + 1 ≤ fuel) : ∃ fuel', fuel = fuel' + 1 ∧ k ≤ fuel' :=
  ⟨fuel - 1, by omega, by omega⟩

theorem Reads.length_le (h : Reads lex toks n rest) : rest.length ≤ toks.length := by
  induction h with
  | exhausted => exact Nat.le_refl _
  | closing _ => exact Nat.le_succ _
  | stop _ => exact Nat.le_succ _
  | atom _ _ ih => exact Nat.le_succ_of_le ih
  | group _ _ _ ihInner ihRest => exact Nat.le_succ_of_le (Nat.le_trans ihRest ihInner)

/-- Every stream reads as a sequence. -/
theorem reads_scan (fuel : ℕ) (toks : List τ) (hfuel : toks.length ≤ fuel) :
    Reads lex toks (scan lex fuel toks).1 (scan lex fuel toks).2 := by
  induction fuel generalizing toks with
  | zero =>
      rw [List.length_eq_zero_iff.1 (Nat.le_zero.1 hfuel)]
      exact Reads.exhausted
  | succ fuel ih =>
      cases toks with
      | nil => exact Reads.exhausted
      | cons tok toks =>
          have hlen : toks.length ≤ fuel := Nat.le_of_succ_le_succ hfuel
          have hfirst := ih toks hlen
          rw [scan]
          cases htok : lex tok with
          | closing => exact Reads.closing htok
          | stop => exact Reads.stop htok
          | atom a => exact Reads.atom htok hfirst
          | opening => exact Reads.group htok hfirst (ih _ (Nat.le_trans hfirst.length_le hlen))

/-- A stream reads in one way. -/
theorem Reads.unique (h : Reads lex toks n rest) {n' : Nest α} {rest' : List τ}
    (h' : Reads lex toks n' rest') : n' = n ∧ rest' = rest := by
  induction h generalizing n' rest' with
  | exhausted =>
      cases h'
      exact ⟨rfl, rfl⟩
  -- the tokens decide the rule: two different rules disagree on the first token
  | closing htok =>
      cases h' with
      | closing _ => exact ⟨rfl, rfl⟩
      | stop _ => exact ⟨rfl, rfl⟩
      | atom htok' _ => simp [htok] at htok'
      | group htok' _ _ => simp [htok] at htok'
  | stop htok =>
      cases h' with
      | closing _ => exact ⟨rfl, rfl⟩
      | stop _ => exact ⟨rfl, rfl⟩
      | atom htok' _ => simp [htok] at htok'
      | group htok' _ _ => simp [htok] at htok'
  | atom htok _ ih =>
      cases h' with
      | atom htok' hrest' =>
          rw [htok] at htok'
          obtain rfl := Bracketed.atom.inj htok'
          obtain ⟨rfl, rfl⟩ := ih hrest'
          exact ⟨rfl, rfl⟩
      | closing htok' => simp [htok] at htok'
      | stop htok' => simp [htok] at htok'
      | group htok' _ _ => simp [htok] at htok'
  | group htok _ _ ihInner ihRest =>
      cases h' with
      | group htok' hinner' hrest' =>
          obtain ⟨rfl, rfl⟩ := ihInner hinner'
          obtain ⟨rfl, rfl⟩ := ihRest hrest'
          exact ⟨rfl, rfl⟩
      | closing htok' => simp [htok] at htok'
      | stop htok' => simp [htok] at htok'
      | atom htok' _ => simp [htok] at htok'

/-- A balanced text reads as the sequence that it spells, up to the token that ends it. -/
theorem reads_flatten (n : Nest α) {toks tail rest : List τ} (htoks : toks.map lex = n.flatten)
    (htail : Reads lex tail .nil rest) : Reads lex (toks ++ tail) n rest := by
  induction n generalizing toks tail rest with
  | nil =>
      rw [List.map_eq_nil_iff.1 htoks]
      exact htail
  | atom a n ih =>
      obtain ⟨tok, toks, rfl, htok, htoks⟩ := List.map_eq_cons_iff.1 htoks
      exact Reads.atom htok (ih htoks htail)
  | group inner n ihInner ihRest =>
      obtain ⟨tok, toks, rfl, htok, htoks⟩ := List.map_eq_cons_iff.1 htoks
      obtain ⟨first, second, rfl, hfirst, hsecond⟩ := List.map_eq_append_iff.1 htoks
      obtain ⟨close, second, rfl, hclose, hsecond⟩ := List.map_eq_cons_iff.1 hsecond
      have hinner : Reads lex (first ++ close :: (second ++ tail)) inner (second ++ tail) :=
        ihInner hfirst (Reads.closing hclose)
      rw [List.cons_append, List.append_assoc]
      exact Reads.group htok hinner (ihRest hsecond htail)

/-- A reader that ends a group in one way whatever ends it folds the sequence that the stream
reads as. -/
theorem BracketReader.read_of_reads {σ : Type v'} {ρ : Type w} (R : BracketReader α σ ρ)
    (hstop : ∀ s, R.stop s = some (R.finish s))
    (hexhausted : ∀ s, R.exhausted s = some (R.finish s)) (h : Reads lex toks n rest)
    {fuel : ℕ} (hfuel : toks.length < fuel) (d : ℕ) (s : σ) :
    R.read fuel d s (toks.map lex) =
      (R.fold d s n).map fun s' => (R.finish s', rest.map lex) := by
  induction h generalizing fuel d s with
  | exhausted =>
      obtain ⟨fuel, rfl, -⟩ := exists_fuel hfuel
      simp [BracketReader.read, BracketReader.fold, hexhausted]
  | closing htok =>
      obtain ⟨fuel, rfl, -⟩ := exists_fuel hfuel
      simp [BracketReader.read, BracketReader.fold, htok]
  | stop htok =>
      obtain ⟨fuel, rfl, -⟩ := exists_fuel hfuel
      simp [BracketReader.read, BracketReader.fold, htok, hstop]
  | atom htok _ ih =>
      obtain ⟨fuel, rfl, hlen⟩ := exists_fuel hfuel
      rw [List.map_cons, htok, BracketReader.read, BracketReader.fold]
      exact ih hlen d _
  | @group tok toks mid rest inner n htok hinner _ ihInner ihRest =>
      obtain ⟨fuel, rfl, hlen⟩ := exists_fuel hfuel
      rw [List.map_cons, htok, BracketReader.read, BracketReader.fold]
      cases R.start (d + 1) with
      | none => rfl
      | some s₀ =>
          simp only [Option.bind_some]
          rw [ihInner hlen (d + 1) s₀]
          cases R.fold (d + 1) s₀ inner with
          | none => rfl
          | some s₁ =>
              simp only [Option.map_some, Option.bind_some]
              exact ihRest (Nat.lt_of_le_of_lt hinner.length_le hlen) d _

end Reads

end Pepper.Foundations
