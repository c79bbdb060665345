import Pepper.Foundations.FieldBits
import Pepper.Zcc.LessThan

/-!
# The constraints of a split into bits

A line `SIL (int | uint) bits N X x Y0 Vk` says that the `N` variables from `Vk` on hold the bits
of `x`. `splitAsBasicConstraints` names these variables by their numbers in the spec, whereas the
worksheet numbers the variables of a spec in the order in which they are declared (`toVar`).

`split_satisfied_iff` reads the list as equations, `split_sound` says that only the two's
complement of `x` satisfies them, and `toVar_consecutive` that variables declared one after the
other are numbered one after the other.
-/

set_option autoImplicit false

open Pepper.Foundations Pepper.Foundations.FieldBits

namespace Pepper.Zcc

universe u v

/-! ## Names and numbers -/

/-- A name of a spec. -/
inductive SpecName where
  | input (n : ℕ) : SpecName
  | output (n : ℕ) : SpecName
  | var (n : ℕ) : SpecName
deriving DecidableEq, Repr

/-- A place in the prover's memory: inputs and outputs are numbered together. -/
inductive Cell where
  | io (index : ℕ) : Cell
  | v (index : ℕ) : Cell
deriving DecidableEq, Repr

/-- The sections of a spec: the numbers of the names, a line each. -/
structure Declarations where
  inputs : List ℕ
  outputs : List ℕ
  vars : List ℕ

/-- `read_var`: a new name gets the next index. -/
def readVar (indexOffset : ℕ) (varDict : List (ℕ × ℕ)) (name : ℕ) : List (ℕ × ℕ) :=
  if (varDict.lookup name).isSome then varDict
  else varDict ++ [(name, indexOffset + varDict.length)]

/-- `read_vars_section`. -/
def readVarsSection (lines : List ℕ) (indexOffset : ℕ) : List (ℕ × ℕ) :=
  lines.foldl (readVar indexOffset) []

namespace Declarations

/-- `input_vars`. -/
def inputVars (d : Declarations) : List (ℕ × ℕ) := readVarsSection d.inputs 0

/-- `output_vars`, numbered from where the inputs leave off. -/
def outputVars (d : Declarations) : List (ℕ × ℕ) := readVarsSection d.outputs d.inputVars.length

/-- `variables`. -/
def variableVars (d : Declarations) : List (ℕ × ℕ) := readVarsSection d.vars 0

/-- The second result of `to_var`; a name that is not declared is left as it is. -/
def toVar (d : Declarations) : SpecName → Cell
  | .input n => .io ((d.inputVars.lookup n).getD n)
  | .output n => .io ((d.outputVars.lookup n).getD n)
  | .var n => .v ((d.variableVars.lookup n).getD n)

/-- The name has a line in its section. -/
def Declares (d : Declarations) : SpecName → Prop
  | .input n => n ∈ d.inputs
  | .output n => n ∈ d.outputs
  | .var n => n ∈ d.vars

/-- The `N` variables from `start` on have consecutive lines, in order, and none before them. -/
def DeclaresRun (d : Declarations) (start N : ℕ) : Prop :=
  ∃ before after, d.vars = before ++ (List.range N).map (start + ·) ++ after ∧
    ∀ i < N, start + i ∉ before

end Declarations

/-- The entries of a dictionary are numbered from the offset on. -/
def Numbered (indexOffset : ℕ) (varDict : List (ℕ × ℕ)) : Prop :=
  ∀ j (h : j < varDict.length), varDict[j].2 = indexOffset + j

theorem lookup_eq_some {varDict : List (ℕ × ℕ)} {name index : ℕ}
    (h : varDict.lookup name = some index) : (name, index) ∈ varDict := by
  obtain ⟨l₁, l₂, rfl, -⟩ := List.lookup_eq_some_iff.1 h
  simp

section ReadVar

variable {indexOffset : ℕ} {varDict : List (ℕ × ℕ)} {name : ℕ}

theorem Numbered.readVar (h : Numbered indexOffset varDict) :
    Numbered indexOffset (readVar indexOffset varDict name) := by
  rw [Zcc.readVar]
  split_ifs
  · exact h
  · intro j hj
    rcases Nat.lt_or_ge j varDict.length with hlt | hge
    · rw [List.getElem_append_left hlt]
      exact h j hlt
    · have hj' : j = varDict.length := by
        rw [List.length_append, List.length_singleton] at hj
        omega
      subst hj'
      simp

theorem lookup_readVar_self : ((readVar indexOffset varDict name).lookup name).isSome := by
  rw [readVar]
  split_ifs with h
  · exact h
  · simp [List.lookup_append]

/-- Names keep their index. -/
theorem lookup_readVar_of_some {name' index : ℕ} (h : varDict.lookup name' = some index) :
    (readVar indexOffset varDict name).lookup name' = some index := by
  rw [readVar]
  split_ifs
  · exact h
  · rw [List.lookup_append, h, Option.some_or]

theorem lookup_foldl_of_some (lines : List ℕ) {name' index : ℕ}
    (h : varDict.lookup name' = some index) :
    (lines.foldl (readVar indexOffset) varDict).lookup name' = some index := by
  induction lines generalizing varDict with
  | nil => exact h
  | cons name lines ih => exact ih (lookup_readVar_of_some h)

theorem numbered_readVarsSection (lines : List ℕ) :
    Numbered indexOffset (readVarsSection lines indexOffset) := by
  have hrun : ∀ dict, Numbered indexOffset dict →
      Numbered indexOffset (lines.foldl (readVar indexOffset) dict) := by
    induction lines with
    | nil => exact fun dict h => h
    | cons name lines ih => exact fun dict h => ih _ h.readVar
  exact hrun [] fun j hj => absurd hj (Nat.not_lt_zero j)

/-- A new name makes the section longer by one. -/
theorem length_readVar_of_none (h : varDict.lookup name = none) :
    (readVar indexOffset varDict name).length = varDict.length + 1 := by
  rw [readVar, h]
  simp

/-- A new name goes to the end. -/
theorem lookup_readVar_of_none {name' : ℕ} (h : varDict.lookup name = none) :
    (readVar indexOffset varDict name).length = varDict.length + 1 ∧
      (readVar indexOffset varDict name).lookup name' =
        if name' = name then some (indexOffset + varDict.length) else varDict.lookup name' := by
  rw [readVar, h]
  refine ⟨by simp, ?_⟩
  rw [if_neg (by simp), List.lookup_append]
  by_cases hsame : name' = name
  · subst hsame
    simp [h]
  · have hbeq : (name' == name) = false := beq_eq_false_iff_ne.2 hsame
    rw [if_neg hsame, List.lookup_cons, hbeq]
    simp

/-- A name without a line has no index. -/
theorem lookup_readVarsSection_eq_none {lines : List ℕ} (h : name ∉ lines) :
    (readVarsSection lines indexOffset).lookup name = none := by
  have hrun : ∀ dict : List (ℕ × ℕ), dict.lookup name = none →
      (lines.foldl (readVar indexOffset) dict).lookup name = none := by
    induction lines with
    | nil => exact fun dict hd => hd
    | cons line lines ih =>
        intro dict hd
        obtain ⟨hne, hrest⟩ := not_or.1 (fun hm => h (List.mem_cons.2 hm))
        refine ih hrest _ ?_
        cases hline : dict.lookup line with
        | none => rw [(lookup_readVar_of_none hline).2, if_neg hne, hd]
        | some index =>
            rw [readVar, hline]
            exact hd
  exact hrun [] rfl

/-- A name with a line has an index. -/
theorem lookup_readVarsSection_isSome {lines : List ℕ} (h : name ∈ lines) :
    ((readVarsSection lines indexOffset).lookup name).isSome := by
  obtain ⟨before, after, rfl⟩ := List.append_of_mem h
  rw [readVarsSection, List.foldl_append, List.foldl_cons]
  have hself : ((readVar indexOffset (before.foldl (readVar indexOffset) []) name).lookup
      name).isSome := lookup_readVar_self
  obtain ⟨index, hindex⟩ := Option.isSome_iff_exists.1 hself
  rw [lookup_foldl_of_some after hindex]
  rfl

/-- Two names do not share an index. -/
theorem lookup_readVarsSection_inj {lines : List ℕ} {name' index : ℕ}
    (h : (readVarsSection lines indexOffset).lookup name = some index)
    (h' : (readVarsSection lines indexOffset).lookup name' = some index) : name = name' := by
  have hnum : Numbered indexOffset (readVarsSection lines indexOffset) :=
    numbered_readVarsSection lines
  obtain ⟨j, hj, hget⟩ := List.mem_iff_getElem.1 (lookup_eq_some h)
  obtain ⟨j', hj', hget'⟩ := List.mem_iff_getElem.1 (lookup_eq_some h')
  have hindex := hnum j hj
  have hindex' := hnum j' hj'
  rw [hget] at hindex
  rw [hget'] at hindex'
  have hsame : j = j' := by
    simp only at hindex hindex'
    omega
  subst hsame
  exact congrArg Prod.fst (hget.symm.trans hget')

/-- Variables declared one after the other are numbered one after the other. -/
theorem lookup_run {before after : List ℕ} {start N : ℕ} (hfresh : ∀ i < N, start + i ∉ before)
    {i : ℕ} (hi : i < N) :
    (readVarsSection (before ++ (List.range N).map (start + ·) ++ after) indexOffset).lookup
        (start + i) =
      some (indexOffset + (readVarsSection before indexOffset).length + i) := by
  -- after `k` of the lines the first `k` names are numbered and the others are still new
  have hrun : ∀ k ≤ N,
      (((List.range k).map (start + ·)).foldl (readVar indexOffset)
          (readVarsSection before indexOffset)).length =
        (readVarsSection before indexOffset).length + k ∧
      ∀ i < N, (((List.range k).map (start + ·)).foldl (readVar indexOffset)
          (readVarsSection before indexOffset)).lookup (start + i) =
        if i < k then some (indexOffset + (readVarsSection before indexOffset).length + i)
        else none := by
    intro k
    induction k with
    | zero =>
        intro _
        exact ⟨rfl, fun i hi => lookup_readVarsSection_eq_none (hfresh i hi)⟩
    | succ k ih =>
        intro hk
        obtain ⟨hlength, hlookup⟩ := ih (Nat.le_of_succ_le hk)
        have hnew := hlookup k (Nat.lt_of_succ_le hk)
        rw [if_neg (lt_irrefl k)] at hnew
        rw [List.range_succ, List.map_append, List.foldl_append, List.map_singleton,
          List.foldl_cons, List.foldl_nil]
        refine ⟨?_, fun i hi => ?_⟩
        · rw [length_readVar_of_none hnew, hlength, Nat.add_assoc]
        · rw [(lookup_readVar_of_none hnew).2, hlookup i hi, hlength]
          rcases lt_trichotomy i k with hlt | rfl | hgt
          · rw [if_neg (by omega), if_pos hlt, if_pos (by omega)]
          · rw [if_pos rfl, if_pos (Nat.lt_succ_self i), Nat.add_assoc]
          · rw [if_neg (by omega), if_neg hgt.asymm, if_neg (by omega)]
  rw [readVarsSection, List.foldl_append, List.foldl_append]
  refine lookup_foldl_of_some after ?_
  exact ((hrun N le_rfl).2 i hi).trans (if_pos hi)

/-- An index lies in the range of its section. -/
theorem lookup_readVarsSection_range {lines : List ℕ} {index : ℕ}
    (h : (readVarsSection lines indexOffset).lookup name = some index) :
    indexOffset ≤ index ∧ index < indexOffset + (readVarsSection lines indexOffset).length := by
  obtain ⟨j, hj, hget⟩ := List.mem_iff_getElem.1 (lookup_eq_some h)
  have hnum : Numbered indexOffset (readVarsSection lines indexOffset) :=
    numbered_readVarsSection lines
  have hindex := hnum j hj
  rw [hget] at hindex
  simp only at hindex
  omega

end ReadVar

namespace Declarations

variable {d : Declarations}

/-- The variables of a run are numbered from the number of the first one on. -/
theorem toVar_consecutive {start N : ℕ} (h : d.DeclaresRun start N) :
    ∃ first, ∀ i < N, d.toVar (.var (start + i)) = .v (first + i) := by
  obtain ⟨before, after, hvars, hfresh⟩ := h
  refine ⟨0 + (readVarsSection before 0).length, fun i hi => ?_⟩
  rw [toVar, variableVars, hvars, lookup_run hfresh hi, Option.getD_some]

/-- Inputs are numbered before outputs. -/
theorem below_outputs {n n' i i' : ℕ} (hi : d.inputVars.lookup n = some i)
    (hi' : d.outputVars.lookup n' = some i') : i < i' := by
  have hbelow := (lookup_readVarsSection_range hi).2
  have habove := (lookup_readVarsSection_range hi').1
  rw [zero_add] at hbelow
  exact hbelow.trans_le habove

/-- Different declared names are different places. -/
theorem toVar_injective {x y : SpecName} (hx : d.Declares x) (hy : d.Declares y)
    (h : d.toVar x = d.toVar y) : x = y := by
  have hindex : ∀ {lines : List ℕ} {n : ℕ} (offset : ℕ), n ∈ lines → ∃ index,
      (readVarsSection lines offset).lookup n = some index := fun _ hn =>
    Option.isSome_iff_exists.1 (lookup_readVarsSection_isSome hn)
  cases x with
  | input n =>
      -- an index of a section comes from a declaration in it
      obtain ⟨i, hi⟩ := hindex 0 hx
      cases y with
      | input n' =>
          obtain ⟨i', hi'⟩ := hindex 0 hy
          simp only [toVar, inputVars, hi, hi', Option.getD_some, Cell.io.injEq] at h
          rw [lookup_readVarsSection_inj hi (h ▸ hi')]
      | output n' =>
          -- inputs come before outputs in the vector
          obtain ⟨i', hi'⟩ := hindex d.inputVars.length hy
          have hsame := Cell.io.inj h
          rw [show d.inputVars.lookup n = some i from hi,
            show d.outputVars.lookup n' = some i' from hi', Option.getD_some,
            Option.getD_some] at hsame
          exact absurd hsame (below_outputs hi hi').ne
      | var n' => simp [toVar] at h
  | output n =>
      obtain ⟨i, hi⟩ := hindex d.inputVars.length hx
      cases y with
      | input n' =>
          obtain ⟨i', hi'⟩ := hindex 0 hy
          have hsame := Cell.io.inj h
          rw [show d.outputVars.lookup n = some i from hi,
            show d.inputVars.lookup n' = some i' from hi', Option.getD_some,
            Option.getD_some] at hsame
          exact absurd hsame (below_outputs hi' hi).ne'
      | output n' =>
          obtain ⟨i', hi'⟩ := hindex d.inputVars.length hy
          simp only [toVar, outputVars, hi, hi', Option.getD_some, Cell.io.injEq] at h
          rw [lookup_readVarsSection_inj hi (h ▸ hi')]
      | var n' => simp [toVar] at h
  | var n =>
      obtain ⟨i, hi⟩ := hindex 0 hx
      cases y with
      | input n' => simp [toVar] at h
      | output n' => simp [toVar] at h
      | var n' =>
          obtain ⟨i', hi'⟩ := hindex 0 hy
          simp only [toVar, variableVars, hi, hi', Option.getD_some, Cell.v.injEq] at h
          rw [lookup_readVarsSection_inj hi (h ▸ hi')]

theorem DeclaresRun.declares {start N : ℕ} (h : d.DeclaresRun start N) {i : ℕ} (hi : i < N) :
    d.Declares (.var (start + i)) := by
  obtain ⟨before, after, hvars, -⟩ := h
  rw [Declares, hvars]
  exact List.mem_append_left _ (List.mem_append_right _
    (List.mem_map_of_mem (List.mem_range.2 hi)))

end Declarations

/-! ## The constraints -/

/-- `signedPot`: the weight of bit `i`. -/
def signedPot (signed : Bool) (numBits i : ℕ) : ℤ :=
  if i = numBits - 1 ∧ signed then -2 ^ i else 2 ^ i

/-- `matchConstraint`, the first `k` bits. -/
def matchConstraint (signed : Bool) (numBits outputStart : ℕ) : ℕ → Text SpecName
  | 0 => .nil
  | k + 1 =>
      matchConstraint signed numBits outputStart k ++
        .atom .plus (constText (signedPot signed numBits k) ++
          .atom .times (nameText (.var (outputStart + k))))

/-- `split_as_basic_constraints`. -/
def splitAsBasicConstraints (signed : Bool) (numBits : ℕ) (toSplit : Text SpecName)
    (outputStart : ℕ) : List (Text SpecName) :=
  (List.range numBits).map (fun i =>
      let bitvar := nameText (.var (outputStart + i))
      basicConstraint bitvar (minusText bitvar (constText 1)) .nil) ++
    [basicConstraint .nil .nil
      (minusText (matchConstraint signed numBits outputStart numBits) toSplit)]

section Reading

variable {R : Type v} [CommRing R] (ρ : SpecName → R) (signed : Bool) (numBits outputStart : ℕ)

/-- A product of two factors after a plus sign. -/
theorem Meaning.Clean.plusProduct {m : Meaning R} (h : m.Clean) (r t : R) :
    ((m.flush.factor r).factor t).flush.sum = m.flush.sum + r * t ∧
      ((m.flush.factor r).factor t).Clean := by
  rw [Clean] at h
  rw [h]
  exact ⟨rfl, rfl⟩

theorem readText_matchConstraint (k : ℕ) :
    (readText ρ Meaning.empty (matchConstraint signed numBits outputStart k)).Clean ∧
      meaning ρ (matchConstraint signed numBits outputStart k) =
        ∑ i ∈ Finset.range k,
          (signedPot signed numBits i : R) * ρ (.var (outputStart + i)) := by
  induction k with
  | zero => exact ⟨Meaning.clean_empty, rfl⟩
  | succ k ih =>
      obtain ⟨hclean, hsum⟩ := ih
      rw [meaning_eq_readText] at hsum ⊢
      simp only [matchConstraint, readText_append, readText_plus, readText_const, readText_times,
        readText_name]
      obtain ⟨hvalue, hnext⟩ := hclean.plusProduct
        ((signedPot signed numBits k : ℤ) : R) (ρ (.var (outputStart + k)))
      exact ⟨hnext, by rw [hvalue, hsum, Finset.sum_range_succ]⟩

/-- The constraints of a split as equations. -/
theorem split_satisfied_iff {toSplit : Text SpecName} (hx : IsFactor toSplit) :
    (∀ line ∈ splitAsBasicConstraints signed numBits toSplit outputStart, meaning ρ line = 0) ↔
      (∀ i < numBits,
        ρ (.var (outputStart + i)) * (ρ (.var (outputStart + i)) - 1) = 0) ∧
      ∑ i ∈ Finset.range numBits, (signedPot signed numBits i : R) * ρ (.var (outputStart + i)) =
        meaning ρ toSplit := by
  have hbit : ∀ i, meaning ρ (basicConstraint (nameText (.var (outputStart + i)))
      (minusText (nameText (.var (outputStart + i))) (constText 1)) .nil) =
        ρ (.var (outputStart + i)) * (ρ (.var (outputStart + i)) - 1) := by
    intro i
    rw [meaning_basicConstraint,
      (meaning_minusText ρ (clean_readText_factor ρ (.name _)) (.const 1)).1, meaning_nameText,
      meaning_constText, meaning_nil, Int.cast_one, add_zero]
  obtain ⟨hclean, hsum⟩ := readText_matchConstraint ρ signed numBits outputStart numBits
  simp only [splitAsBasicConstraints, List.forall_mem_append, List.forall_mem_map, List.mem_range,
    List.forall_mem_cons, List.not_mem_nil, false_implies, implies_true, and_true, hbit,
    meaning_basicConstraint, meaning_nil, mul_zero, zero_add,
    (meaning_minusText ρ hclean hx).1, hsum, sub_eq_zero]

end Reading

/-! ## Only the two's complement -/

/-- The weights read the bits of a number as two's complement. -/
theorem sum_signedPot {R : Type v} [CommRing R] (signed : Bool) {N S : ℕ} (hN : 1 ≤ N)
    (hS : S < 2 ^ N) :
    ∑ i ∈ Finset.range N, (signedPot signed N i : R) * (if S.testBit i then 1 else 0) =
      (signedValue signed N S : ℤ) := by
  obtain ⟨k, rfl⟩ : ∃ k, N = k + 1 := ⟨N - 1, (Nat.sub_add_cancel hN).symm⟩
  have hsum := sum_testBit_cast (R := R) hS
  have hlow : ∀ i ∈ Finset.range k,
      (signedPot signed (k + 1) i : R) * (if S.testBit i then 1 else 0) =
        if S.testBit i then 2 ^ i else 0 := by
    intro i hi
    have hne : i ≠ k := ne_of_lt (Finset.mem_range.1 hi)
    rw [signedPot, if_neg (fun h => hne h.1)]
    split_ifs <;> simp
  rw [Finset.sum_range_succ] at hsum ⊢
  rw [Finset.sum_congr rfl hlow, eq_sub_of_add_eq hsum, signedPot, signedValue, Nat.add_sub_cancel]
  cases signed with
  | false => cases S.testBit k <;> simp
  | true =>
      cases S.testBit k with
      | false => simp
      | true =>
          simp only [and_self, if_true, Bool.and_self]
          push_cast
          ring

variable {p : ℕ} [Fact p.Prime]

/-- Any assignment that satisfies the constraints holds the bits of the operand. -/
theorem split_sound {signed : Bool} {N : ℕ} (hN : 1 ≤ N) (hp : 2 ^ (N + 1) < p) {x : ℤ}
    (hx : InRange signed N x) {toSplit : Text SpecName} (hfactor : IsFactor toSplit) (start : ℕ)
    {ρ : SpecName → ZMod p} (hvalue : meaning ρ toSplit = x)
    (hsat : ∀ line ∈ splitAsBasicConstraints signed N toSplit start, meaning ρ line = 0) :
    ∀ i < N, ρ (.var (start + i)) = if (wordOf N x).testBit i then 1 else 0 := by
  obtain ⟨hbits, hmatch⟩ := (split_satisfied_iff ρ signed N start hfactor).1 hsat
  obtain ⟨S, hS, hS', -⟩ := exists_bits (b := fun i => ρ (.var (start + i))) hbits
  have hsum : ((signedValue signed N S : ℤ) : ZMod p) = x := by
    rw [← sum_signedPot signed hN hS, ← hvalue, ← hmatch]
    apply Finset.sum_congr rfl
    intro i hi
    rw [hS' i (Finset.mem_range.1 hi)]
  -- both sides of the match are below the modulus
  have hexact : signedValue signed N S = x := by
    have hleft : |signedValue signed N S| < 2 ^ N := abs_signedValue_lt hS
    have hright : |signedValue signed N (wordOf N x)| < 2 ^ N := abs_signedValue_lt (wordOf_lt N x)
    rw [signedValue_wordOf hN hx] at hright
    have hp' : (2 : ℤ) ^ N + 2 ^ N < p := by
      rw [← mul_two, ← pow_succ]
      exact_mod_cast hp
    refine sub_eq_zero.1 (eq_zero_of_abs_lt (p := p) ?_ (by push_cast; rw [hsum, sub_self]))
    exact (abs_sub _ _).trans_lt ((add_lt_add hleft hright).trans hp')
  intro i hi
  rw [hS' i hi, ← hexact, wordOf_signedValue hS]

/-- The bits of the operand satisfy the constraints. -/
theorem split_complete {signed : Bool} {N : ℕ} (hN : 1 ≤ N) {x : ℤ} (hx : InRange signed N x)
    {toSplit : Text SpecName} (hfactor : IsFactor toSplit) (start : ℕ) {ρ : SpecName → ZMod p}
    (hvalue : meaning ρ toSplit = x)
    (hbits : ∀ i < N, ρ (.var (start + i)) = if (wordOf N x).testBit i then 1 else 0) :
    ∀ line ∈ splitAsBasicConstraints signed N toSplit start, meaning ρ line = 0 := by
  rw [split_satisfied_iff ρ signed N start hfactor]
  constructor
  · intro i hi
    rw [hbits i hi]
    split_ifs <;> simp
  · have hsum := sum_signedPot (R := ZMod p) signed hN (wordOf_lt N x)
    rw [signedValue_wordOf hN hx] at hsum
    rw [hvalue, ← hsum]
    apply Finset.sum_congr rfl
    intro i hi
    rw [hbits i (Finset.mem_range.1 hi)]

end Pepper.Zcc
