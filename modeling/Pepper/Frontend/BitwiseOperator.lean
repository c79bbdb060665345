import Pepper.Frontend.BitString

/-!
# Bitwise operations, shifts and casts

`getOutputBit` computes a bit of the result from the strings of the arguments, `inlineOp` a
string of the encoding. On strings that represent integers of the encoding the results are
those of two's complement (`inlineOp_represents`). A conversion through `toBitString` and all
that is computed from it agree with two's complement exactly if the bits of the operand reach
the encoding with their sign (`implements_iff`).
-/

set_option autoImplicit false

open Pepper.Foundations.FieldBits
open Pepper.Foundations.TwosComplement

namespace Pepper.Frontend

/-- `BitwiseAndOperator`, …, `BitwiseShiftOperator` with the amount that its constant argument
has. -/
inductive BitwiseOperator where
  | and
  | or
  | xor
  | not
  | leftShift (shiftVal : ℕ)
  | rightShift (shiftVal : ℕ)
deriving DecidableEq

/-- What an output bit is: a bit that is there, or an operation on bits. -/
inductive OutputBit where
  | bit (b : BitExpression)
  | not (middle : BitExpression)
  | and (left right : BitExpression)
  | or (left right : BitExpression)
  | xor (left right : BitExpression)
deriving DecidableEq

def OutputBit.eval (ρ : ℕ → ℚ) : OutputBit → Bool
  | bit b => b.bit ρ
  | not m => !m.bit ρ
  | and l r => l.bit ρ && r.bit ρ
  | or l r => l.bit ρ || r.bit ρ
  | xor l r => l.bit ρ ^^ r.bit ρ

namespace BitwiseOperator

/-- Shifts take one string; an amount of the length or more is refused. -/
def getOutputBit (bitwiseEncoding : IntType) (i : ℕ) (left right : BitString) :
    BitwiseOperator → Option OutputBit
  | and => some (.and (left.bitAt i) (right.bitAt i))
  | or => some (.or (left.bitAt i) (right.bitAt i))
  | xor => some (.xor (left.bitAt i) (right.bitAt i))
  | not => some (.not (left.bitAt i))
  | leftShift shiftVal =>
      if shiftVal ≥ bitwiseEncoding.getBits then none
      else if i < shiftVal then some (.bit .FALSE)
      else some (.bit (left.bitAt (i - shiftVal)))
  | rightShift shiftVal =>
      if shiftVal ≥ bitwiseEncoding.getBits then none
      else if i + shiftVal ≥ bitwiseEncoding.getBits then
        if bitwiseEncoding.signed then some (.bit (left.bitAt (bitwiseEncoding.getBits - 1)))
        else some (.bit .FALSE)
      else some (.bit (left.bitAt (i + shiftVal)))

/-- An assignment of an output bit to a line. -/
structure BitAssignment where
  line : ℕ
  rhs : OutputBit

def BitAssignment.Holds (ρ : ℕ → ℚ) (s : BitAssignment) : Prop :=
  ρ s.line = if s.rhs.eval ρ then 1 else 0

/-- `evaluateExpression`: a bit that is there is used, an operation gets a line. -/
def evaluateExpression (line : ℕ) : OutputBit → BitExpression × List BitAssignment
  | .bit b => (b, [])
  | e => (.lval line, [⟨line, e⟩])

/-- The string of the output bits; bit `i` may use the line `lineNumber + i`. -/
def inlineOp (op : BitwiseOperator) (bitwiseEncoding : IntType) (lineNumber : ℕ)
    (left right : BitString) : Option (BitString × List BitAssignment) :=
  if h : ∀ i : Fin bitwiseEncoding.getBits,
      (op.getOutputBit bitwiseEncoding i left right).isSome then
    let exprs := fun i : Fin bitwiseEncoding.getBits =>
      evaluateExpression (lineNumber + i)
        ((op.getOutputBit bitwiseEncoding i left right).get (h i))
    some (⟨bitwiseEncoding, fun i => (exprs i).1⟩,
      (List.finRange bitwiseEncoding.getBits).flatMap fun i => (exprs i).2)
  else none

/-- The operation on integers. -/
def onInts (v w : ℤ) : BitwiseOperator → ℤ
  | and => v.land w
  | or => v.lor w
  | xor => v.xor w
  | not => v.lnot
  | leftShift shiftVal => v * 2 ^ shiftVal
  | rightShift shiftVal => v / 2 ^ shiftVal

section Output

variable {ρ : ℕ → ℚ}

/-- An expression is the output bit, if its assignments hold. -/
theorem evaluateExpression_spec (line : ℕ) (e : OutputBit)
    (hbit : ∀ b, e = .bit b → b.IsBit ρ)
    (h : ∀ s ∈ (evaluateExpression line e).2, s.Holds ρ) :
    (evaluateExpression line e).1.IsBit ρ ∧
      (evaluateExpression line e).1.bit ρ = e.eval ρ := by
  have hline : (⟨line, e⟩ : BitAssignment).Holds ρ →
      (BitExpression.lval line).IsBit ρ ∧ (BitExpression.lval line).bit ρ = e.eval ρ := by
    intro hs
    have hvalue : (BitExpression.lval line).value ρ = if e.eval ρ then 1 else 0 := hs
    rw [BitExpression.IsBit, BitExpression.bit, hvalue]
    cases e.eval ρ
    · exact ⟨Or.inl rfl, decide_eq_false zero_ne_one⟩
    · exact ⟨Or.inr rfl, decide_eq_true rfl⟩
  cases e with
  | bit b => exact ⟨hbit b rfl, rfl⟩
  | not m => exact hline (h _ List.mem_cons_self)
  | and l r => exact hline (h _ List.mem_cons_self)
  | or l r => exact hline (h _ List.mem_cons_self)
  | xor l r => exact hline (h _ List.mem_cons_self)

/-- A bit that is passed on is a bit of the string, or zero. -/
theorem isBit_of_getOutputBit {op : BitwiseOperator} {T : IntType} {i : ℕ}
    {left right : BitString} (hleft : left.IsBits ρ) {b : BitExpression}
    (h : op.getOutputBit T i left right = some (.bit b)) : b.IsBit ρ := by
  cases op with
  | leftShift k =>
      rw [getOutputBit] at h
      split_ifs at h with hk hi
      · cases h
        exact BitExpression.isBit_constant false
      · cases h
        exact hleft.bitAt _
  | rightShift k =>
      rw [getOutputBit] at h
      split_ifs at h with hk hi hsigned
      · cases h
        exact hleft.bitAt _
      · cases h
        exact BitExpression.isBit_constant false
      · cases h
        exact hleft.bitAt _
  | _ => exact nomatch h

variable {T : IntType} {left right : BitString}

/-- The output bits are those of the operation on the integers of the encoding. -/
theorem eval_getOutputBit (hleft : left.bitwiseEncoding = T) (hright : right.bitwiseEncoding = T)
    {op : BitwiseOperator} {i : ℕ} (hi : i < T.length) {e : OutputBit}
    (h : op.getOutputBit T i left right = some e) :
    e.eval ρ = (op.onInts (left.valueIn ρ) (right.valueIn ρ)).testBit i := by
  subst hleft
  have hl := fun {j : ℕ} (hj : j < left.bitwiseEncoding.length) => left.bit_eq_testBit (ρ := ρ) hj
  have hr : (right.bitAt i).bit ρ = (right.valueIn ρ).testBit i :=
    right.bit_eq_testBit (by rwa [hright])
  cases op with
  | and =>
      cases h
      rw [OutputBit.eval, hl hi, hr, onInts, Int.testBit_land]
  | or =>
      cases h
      rw [OutputBit.eval, hl hi, hr, onInts, Int.testBit_lor]
  | xor =>
      cases h
      rw [OutputBit.eval, hl hi, hr, onInts, Int.testBit_lxor]
  | not =>
      cases h
      rw [OutputBit.eval, hl hi, onInts, Int.testBit_lnot]
  | leftShift k =>
      -- the low bits are cleared, the others come from `k` places below
      rw [getOutputBit] at h
      rw [onInts, testBit_mul_two_pow]
      split_ifs at h ⊢ with hk hlow
      · cases h
        exact BitExpression.bit_constant false
      · cases h
        exact hl ((Nat.sub_le i k).trans_lt hi)
  | rightShift k =>
      -- three kinds of bits: copies of the sign, zeros above an unsigned operand, shifted bits
      have hpos := left.bitwiseEncoding.length_pos
      rw [getOutputBit] at h
      rw [onInts, testBit_ediv]
      split_ifs at h with hk hhigh hsigned
      · -- copies of the sign
        cases h
        have hhigh' : left.bitwiseEncoding.length ≤ i + k := hhigh
        rw [left.testBit_sign hsigned (hhigh'.trans (Nat.le_succ _)),
          ← left.testBit_sign hsigned (Nat.sub_add_cancel hpos).ge]
        exact hl (Nat.sub_lt hpos Nat.one_pos)
      · cases h
        have hhigh' : left.bitwiseEncoding.length ≤ i + k := hhigh
        have hunsigned := Bool.eq_false_iff.2 hsigned
        rw [left.testBit_of_le (left.nonneg_valueIn hunsigned) (hhigh'.trans (Nat.le_succ _))
          fun _ => hhigh']
        exact BitExpression.bit_constant false
      · cases h
        exact hl (not_le.1 hhigh)

end Output

/-- On strings of the encoding, an operation is that of two's complement. -/
theorem inlineOp_represents {ρ : ℕ → ℚ} {T : IntType} {op : BitwiseOperator} {n : ℕ}
    {left right bs : BitString} {stmts : List BitAssignment} (hleft : left.IsBits ρ)
    (hencL : left.bitwiseEncoding = T) (hencR : right.bitwiseEncoding = T)
    (h : op.inlineOp T n left right = some (bs, stmts)) (hstmts : ∀ s ∈ stmts, s.Holds ρ) :
    bs.Represents ρ
      (wrap T.signed T.length (op.onInts (left.valueIn ρ) (right.valueIn ρ))) := by
  rw [inlineOp] at h
  split at h
  · rename_i hsome
    simp only [Option.some.injEq, Prod.mk.injEq] at h
    obtain ⟨rfl, rfl⟩ := h
    have hbit : ∀ i : Fin T.getBits, _ ∧ _ := fun i => evaluateExpression_spec
      (n + i) ((op.getOutputBit T i left right).get (hsome i))
      (fun b hb => isBit_of_getOutputBit hleft (by rw [← hb, Option.some_get]))
      fun s hs => hstmts s (List.mem_flatMap.2 ⟨i, List.mem_finRange i, hs⟩)
    refine ⟨fun i => (hbit i).1, valueOf_eq_wrap T.length_pos fun i hi => ?_⟩
    rw [BitString.bitAt_of_lt _ hi]
    refine (hbit ⟨i, hi⟩).2.trans ?_
    exact eval_getOutputBit hencL hencR hi (Option.some_get _).symm
  · exact nomatch h

end BitwiseOperator

/-! ## Casts -/

namespace Operand

def getType : Operand → FiniteType
  | constant cv => IntConstant.getType cv
  | lval x => .int x.type

def value (ρ : ℕ → ℚ) : Operand → ℚ
  | constant cv => cv
  | lval x => ρ x.line

theorem Holds.value {ρ : ℕ → ℚ} {v : ℤ} {op : Operand} (h : op.Holds ρ v) : op.value ρ = v := by
  cases op with
  | constant cv => exact congrArg Int.cast h
  | lval x => exact h.1

theorem Holds.contains {ρ : ℕ → ℚ} {v : ℤ} {op : Operand} (h : op.Holds ρ v) :
    op.getType.Contains v := by
  cases op with
  | constant cv =>
      obtain rfl : cv = v := h
      exact IntConstant.contains_getType cv
  | lval x => exact ⟨v, rfl, h.2.1⟩

end Operand

/-- The argument itself if its type is a subtype, or else its bits. -/
def CStyleCast.inlineOp (targetType : IntType) (lineNumber : ℕ) (operand : Operand) :
    Operand ⊕ (BitString × Operand × List SplitStatement) :=
  if TypeHeirarchy.isSubType operand.getType (.int targetType) then .inl operand
  else .inr (BitString.toBitString targetType lineNumber operand)

/-! ## Two's complement -/

/-- `r` is the number of the type that is congruent to `v`. -/
def IsResidue (T : IntType) (v r : ℤ) : Prop := T.Contains r ∧ (2 : ℤ) ^ T.length ∣ r - v

/-- The polynomial of a string has the value `r`. -/
def Reads (isBoolean : ℕ → Bool) (ρ : ℕ → ℚ) (bs : BitString) (r : ℤ) : Prop :=
  ∃ pe, toPolynomialExpression isBoolean bs = some pe ∧ pe.value ρ = r

theorem isResidue_iff {T : IntType} {v r : ℤ} :
    IsResidue T v r ↔ r = wrap T.signed T.length v := by
  constructor
  · rintro ⟨hr, hdvd⟩
    exact wrap_unique T.length_pos hr hdvd
  · rintro rfl
    exact ⟨inRange_wrap T.length_pos v, wrap_congr v⟩

theorem reads_iff {isBoolean : ℕ → Bool} {ρ : ℕ → ℚ} (hρ : Respects isBoolean ρ) {bs : BitString}
    (hbits : bs.IsBits ρ) {r : ℤ} : Reads isBoolean ρ bs r ↔ bs.valueIn ρ = r := by
  obtain ⟨pe, heq, hvalue⟩ := toPolynomialExpression_value hρ hbits
  constructor
  · rintro ⟨pe', heq', hvalue'⟩
    obtain rfl : pe = pe' := Option.some_inj.1 (heq.symm.trans heq')
    exact_mod_cast hvalue.symm.trans hvalue'
  · rintro rfl
    exact ⟨pe, heq, hvalue⟩

/-- An operand with the value `v` in the encoding `T`: its string, casts to `T` and what bitwise
operations compute from its string are as in two's complement. -/
structure Implements (isBoolean : ℕ → Bool) (ρ : ℕ → ℚ) (T : IntType) (lineNumber : ℕ)
    (operand : Operand) (v : ℤ) : Prop where
  residue : ∃ r, IsResidue T v r ∧
    Reads isBoolean ρ (BitString.toBitString T lineNumber operand).1 r
  same : T.Contains v → Reads isBoolean ρ (BitString.toBitString T lineNumber operand).1 v
  cast : ∃ r, IsResidue T v r ∧ match CStyleCast.inlineOp T lineNumber operand with
    | .inl result => result.value ρ = r
    | .inr (bs, _, _) => Reads isBoolean ρ bs r
  bitwise : ∀ (op : BitwiseOperator) (line : ℕ) (right bs : BitString) (stmts : List _),
    right.bitwiseEncoding = T → op.inlineOp T line
      (BitString.toBitString T lineNumber operand).1 right = some (bs, stmts) →
    (∀ s ∈ stmts, BitwiseOperator.BitAssignment.Holds ρ s) → ∃ r u, IsResidue T v u ∧
      IsResidue T (op.onInts u (right.valueIn ρ)) r ∧ Reads isBoolean ρ bs r
  bitwiseRight : ∀ (op : BitwiseOperator) (line : ℕ) (left bs : BitString) (stmts : List _),
    left.IsBits ρ → left.bitwiseEncoding = T → op.inlineOp T line left
      (BitString.toBitString T lineNumber operand).1 = some (bs, stmts) →
    (∀ s ∈ stmts, BitwiseOperator.BitAssignment.Holds ρ s) → ∃ r u, IsResidue T v u ∧
      IsResidue T (op.onInts (left.valueIn ρ) u) r ∧ Reads isBoolean ρ bs r

section Conversion

variable {isBoolean : ℕ → Bool} {ρ : ℕ → ℚ} {T : IntType} {n : ℕ} {operand : Operand} {v : ℤ}

theorem Implements.translatable (h : Implements isBoolean ρ T n operand v)
    (hρ : Respects isBoolean ρ) (hop : operand.Holds ρ v)
    (hsplit : ∀ s ∈ (BitString.toBitString T n operand).2.2, s.Holds ρ) :
    operand.Translatable T v := by
  obtain ⟨r, hr, hreads⟩ := h.residue
  have hvalue := (reads_iff hρ (BitString.toBitString_isBits hop hsplit)).1 hreads
  rw [isResidue_iff] at hr
  exact (BitString.toBitString_value_iff hop hsplit).1 (hvalue.trans hr)

/-- The argument of a cast that changes nothing. -/
theorem residue_of_isSubType (hop : operand.Holds ρ v)
    (hsub : TypeHeirarchy.isSubType operand.getType (.int T) = true) : IsResidue T v v := by
  obtain ⟨w, hw, hcontains⟩ := TypeHeirarchy.contains_of_isSubType hsub hop.contains
  obtain rfl : v = w := by exact_mod_cast hw
  exact ⟨hcontains, by rw [sub_self]; exact dvd_zero _⟩

theorem Operand.Translatable.implements (h : operand.Translatable T v)
    (hρ : Respects isBoolean ρ) (hop : operand.Holds ρ v)
    (hsplit : ∀ s ∈ (BitString.toBitString T n operand).2.2, s.Holds ρ) :
    Implements isBoolean ρ T n operand v := by
  have hbits := BitString.toBitString_isBits hop hsplit
  have henc := BitString.toBitString_encoding T n operand
  have hvalue := (BitString.toBitString_value_iff hop hsplit).2 h
  have hres : IsResidue T v ((BitString.toBitString T n operand).1.valueIn ρ) :=
    isResidue_iff.2 hvalue
  have hreads : Reads isBoolean ρ (BitString.toBitString T n operand).1
      ((BitString.toBitString T n operand).1.valueIn ρ) := (reads_iff hρ hbits).2 rfl
  refine ⟨⟨_, hres, hreads⟩, fun hv => ?_, ?_, fun op line right bs stmts hright hrun hstmts => ?_,
    fun op line left bs stmts hleft hencL hrun hstmts => ?_⟩
  · rw [reads_iff hρ hbits, hvalue]
    exact wrap_of_inRange T.length_pos hv
  · rw [CStyleCast.inlineOp]
    split_ifs with hsub
    · exact ⟨v, residue_of_isSubType hop hsub, hop.value⟩
    · exact ⟨_, hres, hreads⟩
  · have hrep := BitwiseOperator.inlineOp_represents hbits henc hright hrun hstmts
    exact ⟨_, _, hres, isResidue_iff.2 rfl, (reads_iff hρ hrep.isBits).2 hrep.value⟩
  · have hrep := BitwiseOperator.inlineOp_represents hleft hencL henc hrun hstmts
    exact ⟨_, _, hres, isResidue_iff.2 rfl, (reads_iff hρ hrep.isBits).2 hrep.value⟩

/-- Conversion is that of two's complement exactly if the sign reaches the encoding: the
highest bit that the encoding keeps of a constant, and the sign of a variable whose string
is signed and shorter. -/
theorem implements_iff (hρ : Respects isBoolean ρ) (hop : operand.Holds ρ v)
    (hsplit : ∀ s ∈ (BitString.toBitString T n operand).2.2, s.Holds ρ) :
    Implements isBoolean ρ T n operand v ↔ operand.Translatable T v :=
  ⟨fun h => h.translatable hρ hop hsplit, fun h => h.implements hρ hop hsplit⟩

end Conversion

/-! ## A sign that is lost -/

/-- The variable of line `0`, of type `int bits 2`. -/
def narrow : Operand := .lval ⟨0, ⟨true, 2, by decide⟩, [], none⟩

/-- Its value is `-1`, and the two bits of its split are one. -/
def minusOne : ℕ → ℚ := fun x => if x = 0 then -1 else 1

def wide : IntType := ⟨true, 4, by decide⟩

theorem narrow_holds : narrow.Holds minusOne (-1) := by
  refine ⟨by norm_num [minusOne], by decide, fun bs hmem => ?_⟩
  exact nomatch List.mem_singleton.1 hmem

/-- The fresh bits. -/
theorem narrow_split (T : IntType) :
    ∀ s ∈ (BitString.toBitString T 1 narrow).2.2, s.Holds minusOne := by
  intro s hs
  obtain rfl := List.mem_singleton.1 hs
  have hbits : ∀ i : Fin 2, (BitExpression.lval (1 + i)).value minusOne = 1 := by decide
  refine ⟨fun i => Or.inr (hbits i), ?_⟩
  have hvalue : (BitString.ofLines ⟨true, 2, by decide⟩ 1).valueIn minusOne = -1 := by
    decide +kernel
  exact congrArg Int.cast hvalue

/-- Only the sign moves: the four bits `1001`. -/
theorem narrow_value : (BitString.toBitString wide 1 narrow).1.valueIn minusOne = -7 := by
  decide +kernel

theorem respects_minusOne : Respects (fun _ => false) minusOne := fun _ h => nomatch h

/-- `-1` of `int bits 2`, which is a number of `int bits 4`, too, becomes `-7` there. -/
theorem narrow_not_implements :
    narrow.Holds minusOne (-1) ∧ wide.Contains (-1) ∧
      Reads (fun _ => false) minusOne (BitString.toBitString wide 1 narrow).1 (-7) ∧
      ¬ Implements (fun _ => false) minusOne wide 1 narrow (-1) := by
  have hbits := BitString.toBitString_isBits narrow_holds (narrow_split wide)
  refine ⟨narrow_holds, by decide, (reads_iff respects_minusOne hbits).2 narrow_value,
    fun h => ?_⟩
  have hkeeps := h.translatable respects_minusOne narrow_holds (narrow_split wide)
  exact hkeeps ⟨⟨rfl, by decide⟩, by decide⟩

/-- Without a wider type it stays `-1`. -/
theorem implements_narrow :
    narrow.Translatable ⟨true, 2, by decide⟩ (-1) ∧
      Implements (fun _ => false) minusOne ⟨true, 2, by decide⟩ 1 narrow (-1) := by
  have hkeeps : narrow.Translatable ⟨true, 2, by decide⟩ (-1) :=
    fun h => absurd h.1.2 (by decide)
  exact ⟨hkeeps, (implements_iff respects_minusOne narrow_holds (narrow_split _)).2 hkeeps⟩

end Pepper.Frontend
