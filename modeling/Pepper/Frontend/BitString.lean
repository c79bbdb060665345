import Pepper.Foundations.TwosComplement
import Pepper.Frontend.PolynomialRun
import Pepper.Frontend.TypeHeirarchy

/-!
# Bit strings of integers

`toBitString` finds the bits of an operand in an encoding: those of a constant, those that are
remembered for a variable, or fresh ones of a split, and `translate` moves a string to the
encoding that is asked for. `toPolynomialExpression` reads a string (`toPolynomialExpression_value`).
`translate` and the bits of a constant are right exactly if no sign is lost: `translate_value_iff`,
`ofConstant_value_iff`, and of any operand `toBitString_value_iff`.
-/

set_option autoImplicit false

open Pepper.Foundations.FieldBits
open Pepper.Foundations.TwosComplement

namespace Pepper.Frontend

/-- A `BooleanConstant`, or the variable of a line. -/
inductive BitExpression where
  | constant (bit : Bool)
  | lval (line : ℕ)
deriving DecidableEq

namespace BitExpression

def FALSE : BitExpression := constant false

def value (ρ : ℕ → ℚ) : BitExpression → ℚ
  | constant b => if b then 1 else 0
  | lval x => ρ x

/-- The value is a bit. -/
def IsBit (ρ : ℕ → ℚ) (e : BitExpression) : Prop := e.value ρ = 0 ∨ e.value ρ = 1

/-- The bit that the value is. -/
def bit (ρ : ℕ → ℚ) (e : BitExpression) : Bool := decide (e.value ρ = 1)

variable {ρ : ℕ → ℚ}

theorem isBit_constant (b : Bool) : (constant b).IsBit ρ := by
  cases b
  · exact Or.inl rfl
  · exact Or.inr rfl

@[simp] theorem bit_constant (b : Bool) : (constant b).bit ρ = b := by
  cases b
  · exact decide_eq_false zero_ne_one
  · exact decide_eq_true rfl

theorem IsBit.value_eq {e : BitExpression} (h : e.IsBit ρ) :
    e.value ρ = if e.bit ρ then 1 else 0 := by
  rcases h with h | h
  · rw [bit, h, decide_eq_false zero_ne_one]
    rfl
  · rw [bit, h, decide_eq_true rfl]
    rfl

end BitExpression

/-- The bits of an integer type, the lowest first. -/
structure BitString where
  bitwiseEncoding : IntType
  bits : Fin bitwiseEncoding.getBits → BitExpression

namespace BitString

/-- There is a bit at every index of the encoding. -/
def bitAt (bs : BitString) (i : ℕ) : BitExpression :=
  if h : i < bs.bitwiseEncoding.getBits then bs.bits ⟨i, h⟩ else .FALSE

theorem bitAt_of_lt (bs : BitString) {i : ℕ} (h : i < bs.bitwiseEncoding.getBits) :
    bs.bitAt i = bs.bits ⟨i, h⟩ :=
  dif_pos h

/-- Between signed types, to a longer one. -/
def WideningConversion (old new : IntType) : Prop :=
  old.signed ∧ new.signed ∧ new.getBits > old.getBits

instance (old new : IntType) : Decidable (WideningConversion old new) :=
  inferInstanceAs (Decidable (_ ∧ _ ∧ _))

/-- In a widening conversion only the sign moves; otherwise the low bits are copied. -/
def translate (bs : BitString) (bitwiseEncoding : IntType) : BitString where
  bitwiseEncoding
  bits i :=
    if WideningConversion bs.bitwiseEncoding bitwiseEncoding ∧
        i.val = bitwiseEncoding.getBits - 1 then
      bs.bitAt (bs.bitwiseEncoding.getBits - 1)
    else if i.val < bs.bitwiseEncoding.getBits ∧
        ¬ (WideningConversion bs.bitwiseEncoding bitwiseEncoding ∧
          i.val = bs.bitwiseEncoding.getBits - 1) then
      bs.bitAt i
    else .FALSE

/-- The bits of a constant; the highest bit of a signed type is its sign. -/
def ofConstant (bitwiseEncoding : IntType) (cv : ℤ) : BitString where
  bitwiseEncoding
  bits i :=
    if i.val = bitwiseEncoding.getBits - 1 ∧ bitwiseEncoding.signed then
      .constant (decide (cv.sign < 0))
    else .constant (cv.testBit i)

/-- The variables of the lines from `firstLine` on. -/
def ofLines (bitwiseEncoding : IntType) (firstLine : ℕ) : BitString where
  bitwiseEncoding
  bits i := .lval (firstLine + i)

end BitString

/-- `firstLine`, `firstLine + 1`, … become the bits of `toSplit`. -/
structure SplitStatement where
  bitwiseEncoding : IntType
  toSplit : ℕ
  firstLine : ℕ
deriving DecidableEq

/-- A variable: the line that assigns it, its type, and the strings that are remembered for
the variables it is assigned from and for itself. -/
structure LvalExpression where
  line : ℕ
  type : IntType
  assigned : List (Option BitString)
  bitString : Option BitString

/-- What a bitwise operation takes: an `IntConstant` or a variable. -/
inductive Operand where
  | constant (cv : ℤ)
  | lval (asLval : LvalExpression)

/-- The string that is there already. -/
def LvalExpression.oldString (asLval : LvalExpression) : Option BitString :=
  (asLval.assigned ++ [asLval.bitString]).findSome? id

namespace BitString

/-- The bits of an operand. `lineNumber` is the next free line; the operand is returned
with what it remembers now. -/
def toBitString (bitwiseEncoding : IntType) (lineNumber : ℕ) :
    Operand → BitString × Operand × List SplitStatement
  | .constant cv => (ofConstant bitwiseEncoding cv, .constant cv, [])
  | .lval asLval =>
      match asLval.oldString with
      | some oldString => (oldString.translate bitwiseEncoding, .lval asLval, [])
      | none =>
          let newBs := ofLines asLval.type lineNumber
          (newBs.translate bitwiseEncoding, .lval { asLval with bitString := some newBs },
            [⟨asLval.type, asLval.line, lineNumber⟩])

end BitString

/-! ## Polynomials of bit strings -/

section Polynomial

variable (isBoolean : ℕ → Bool)

/-- `addFactor` of a bit. -/
def addBit (e : BitExpression) (pt : PolynomialTerm) : PolynomialTerm :=
  match e with
  | .constant b => addConstant (if b then .ONE else .ZERO) pt
  | .lval x => addMonomer isBoolean x pt

/-- The power of two of a bit. -/
def signedPot (bs : BitString) (i : ℕ) : ℤ :=
  if i = bs.bitwiseEncoding.getBits - 1 ∧ bs.bitwiseEncoding.signed then -2 ^ i else 2 ^ i

/-- `toPolynomialExpression` of a bit string. -/
def toPolynomialExpression (bs : BitString) : Option PolynomialExpression :=
  (List.range bs.bitwiseEncoding.getBits).foldlM (fun pe i =>
    addMultiplesOfTerm (.valueOf (signedPot bs i) 1 Nat.one_pos)
      (addBit isBoolean (bs.bitAt i) .new) pe) .new

end Polynomial

variable {isBoolean : ℕ → Bool} {ρ : ℕ → ℚ}

/-- Every variable of the string is a bit. -/
def BitString.IsBits (ρ : ℕ → ℚ) (bs : BitString) : Prop := ∀ i, (bs.bits i).IsBit ρ

/-- The integer that the bits stand for. -/
def BitString.valueIn (ρ : ℕ → ℚ) (bs : BitString) : ℤ :=
  valueOf bs.bitwiseEncoding.signed bs.bitwiseEncoding.length fun i => (bs.bitAt i).bit ρ

theorem BitString.IsBits.bitAt {bs : BitString} (h : bs.IsBits ρ) (i : ℕ) :
    (bs.bitAt i).IsBit ρ := by
  rw [BitString.bitAt]
  split
  · exact h _
  · exact BitExpression.isBit_constant false

theorem addBit_spec (hρ : Respects isBoolean ρ) (e : BitExpression) :
    ExactTerm (addBit isBoolean e .new) ∧ (addBit isBoolean e .new).value ρ = e.value ρ := by
  have hnew : (PolynomialTerm.new).value ρ = 1 := by
    rw [PolynomialTerm.new, PolynomialTerm.value, FloatConstant.toRat_ONE]
    simp [factorsValue]
  cases e with
  | constant b =>
      have hpot : FloatConstant.isPOT (if b then FloatConstant.ONE else .ZERO).den = true := by
        cases b <;> exact FloatConstant.isPOT_one
      refine ⟨addConstant_exact hpot exactTerm_new, ?_⟩
      rw [addBit, addConstant_value, hnew, one_mul, BitExpression.value]
      cases b
      · exact FloatConstant.toRat_ZERO
      · exact FloatConstant.toRat_ONE
  | lval x =>
      refine ⟨addMonomer_exact isBoolean x exactTerm_new, ?_⟩
      rw [addBit, addMonomer_value hρ, hnew, one_mul, BitExpression.value]

theorem signedPot_eq (bs : BitString) (i : ℕ) :
    signedPot bs i = weight bs.bitwiseEncoding.signed bs.bitwiseEncoding.length i := by
  have hpos := bs.bitwiseEncoding.length_pos
  have hiff : (i = bs.bitwiseEncoding.getBits - 1 ∧ bs.bitwiseEncoding.signed = true) ↔
      (bs.bitwiseEncoding.signed && i + 1 == bs.bitwiseEncoding.length) = true := by
    rw [Bool.and_eq_true, beq_iff_eq, and_comm, IntType.getBits]
    exact and_congr_right fun _ => ⟨fun h => by rw [h, Nat.sub_add_cancel hpos],
      fun h => by rw [← h, Nat.add_sub_cancel]⟩
  rw [signedPot, weight]
  exact if_congr hiff rfl rfl

/-- By induction on the bits that were added. -/
theorem foldlM_addBit (hρ : Respects isBoolean ρ) (bs : BitString) (hbits : bs.IsBits ρ) (k : ℕ) :
    ∃ pe, (List.range k).foldlM (fun pe i =>
        addMultiplesOfTerm (.valueOf (signedPot bs i) 1 Nat.one_pos)
          (addBit isBoolean (bs.bitAt i) .new) pe) PolynomialExpression.new = some pe ∧
      SortedTerms pe.terms ∧
        pe.value ρ =
          (∑ i ∈ Finset.range k, if (bs.bitAt i).bit ρ then signedPot bs i else 0 : ℤ) := by
  induction k with
  | zero =>
      refine ⟨.new, rfl, SortedTerms.nil, ?_⟩
      rw [PolynomialExpression.new, PolynomialExpression.value, termsValue]
      simp
  | succ k ih =>
      obtain ⟨pe, heq, hsorted, hvalue⟩ := ih
      obtain ⟨hexact, hbit⟩ := addBit_spec hρ (bs.bitAt k)
      have hpot : FloatConstant.isPOT
          (FloatConstant.valueOf (signedPot bs k) 1 Nat.one_pos).den = true := by
        rw [(FloatConstant.valueOf_one _).2]
        exact FloatConstant.isPOT_one
      obtain ⟨pe', heq', hadded, -⟩ := hexact.addsTerm _ pe hpot hsorted
      refine ⟨pe', ?_, hadded.sorted, ?_⟩
      · rw [List.range_succ, List.foldlM_append, heq]
        simpa using heq'
      · rw [hadded.value, hvalue, hbit, FloatConstant.toRat_valueOf, Finset.sum_range_succ,
          (hbits.bitAt k).value_eq]
        split <;> push_cast <;> ring

/-- The polynomial of a string is the integer that its bits stand for. -/
theorem toPolynomialExpression_value (hρ : Respects isBoolean ρ) {bs : BitString}
    (hbits : bs.IsBits ρ) :
    ∃ pe, toPolynomialExpression isBoolean bs = some pe ∧ pe.value ρ = bs.valueIn ρ := by
  obtain ⟨pe, heq, -, hvalue⟩ := foldlM_addBit hρ bs hbits bs.bitwiseEncoding.getBits
  refine ⟨pe, heq, ?_⟩
  rw [hvalue, BitString.valueIn, valueOf]
  simp only [signedPot_eq, IntType.getBits]

/-! ## Encodings -/

namespace BitString

theorem IsBits.translate {bs : BitString} (h : bs.IsBits ρ) (T : IntType) :
    (bs.translate T).IsBits ρ := by
  intro i
  simp only [BitString.translate]
  split_ifs
  · exact h.bitAt _
  · exact h.bitAt _
  · exact BitExpression.isBit_constant false

theorem isBits_ofConstant (T : IntType) (cv : ℤ) : (ofConstant T cv).IsBits ρ := by
  intro i
  simp only [ofConstant]
  split_ifs
  · exact BitExpression.isBit_constant _
  · exact BitExpression.isBit_constant _

theorem bit_eq_testBit (bs : BitString) {i : ℕ} (hi : i < bs.bitwiseEncoding.length) :
    (bs.bitAt i).bit ρ = (bs.valueIn ρ).testBit i :=
  (testBit_valueOf hi fun i => (bs.bitAt i).bit ρ).symm

theorem contains_valueIn (bs : BitString) : bs.bitwiseEncoding.Contains (bs.valueIn ρ) :=
  inRange_valueOf bs.bitwiseEncoding.length_pos _

/-- From a signed type to a longer one. -/
def Widens (S T : IntType) : Prop := S.signed = true ∧ S.length < T.length

/-- The bits of a number that is not negative end below its length. -/
theorem testBit_of_le (bs : BitString) (hnonneg : 0 ≤ bs.valueIn ρ) {i : ℕ}
    (hi : bs.bitwiseEncoding.length ≤ i + 1) (hsigned : bs.bitwiseEncoding.signed = false →
      bs.bitwiseEncoding.length ≤ i) : (bs.valueIn ρ).testBit i = false := by
  have hrange : if bs.bitwiseEncoding.signed then bs.bitwiseEncoding.length ≤ i + 1
      else bs.bitwiseEncoding.length ≤ i := by
    split
    · exact hi
    · rename_i h
      exact hsigned (Bool.eq_false_iff.2 h)
  rw [testBit_eq_sign bs.bitwiseEncoding.length_pos bs.contains_valueIn hrange]
  exact decide_eq_false (not_lt.2 hnonneg)

theorem testBit_sign (bs : BitString) (hsigned : bs.bitwiseEncoding.signed = true)
    {i : ℕ} (hi : bs.bitwiseEncoding.length ≤ i + 1) :
    (bs.valueIn ρ).testBit i = decide (bs.valueIn ρ < 0) := by
  refine testBit_eq_sign bs.bitwiseEncoding.length_pos bs.contains_valueIn ?_
  rwa [if_pos hsigned]

theorem nonneg_valueIn (bs : BitString) (hunsigned : bs.bitwiseEncoding.signed = false) :
    0 ≤ bs.valueIn ρ := by
  have h := bs.contains_valueIn (ρ := ρ)
  rw [IntType.Contains, hunsigned] at h
  exact h.1

/-- To a type that is not longer, or from numbers that are not negative, every bit is right. -/
theorem bit_translate (bs : BitString) (T : IntType)
    (hkeeps : ¬ (Widens bs.bitwiseEncoding T ∧ bs.valueIn ρ < 0)) {i : ℕ} (hi : i < T.length) :
    ((bs.translate T).bitAt i).bit ρ = (bs.valueIn ρ).testBit i := by
  have hnonneg : bs.bitwiseEncoding.length < T.length → 0 ≤ bs.valueIn ρ := by
    intro hlonger
    cases hsigned : bs.bitwiseEncoding.signed with
    | false => exact bs.nonneg_valueIn hsigned
    | true => exact not_lt.1 fun hneg => hkeeps ⟨⟨hsigned, hlonger⟩, hneg⟩
  have hpos := bs.bitwiseEncoding.length_pos
  rw [bitAt_of_lt _ hi]
  simp only [BitString.translate]
  split_ifs with hsign hcopy
  · -- the sign, in its new place
    obtain ⟨⟨hsigned, -, hlonger⟩, rfl⟩ := hsign
    rw [IntType.getBits, bs.bit_eq_testBit (Nat.sub_lt hpos Nat.one_pos),
      bs.testBit_sign hsigned (Nat.sub_add_cancel hpos).ge,
      bs.testBit_sign hsigned (hlonger.le.trans le_tsub_add)]
  · exact bs.bit_eq_testBit hcopy.1
  · rw [show BitExpression.FALSE = .constant false from rfl, BitExpression.bit_constant]
    rcases not_and_or.1 hcopy with hle | hold
    · have hle' : bs.bitwiseEncoding.length ≤ i := not_lt.1 hle
      exact (bs.testBit_of_le (hnonneg (hle'.trans_lt hi)) (hle'.trans (Nat.le_succ i))
        fun _ => hle').symm
    · -- the place that the sign leaves
      obtain ⟨⟨hsigned, -, hlonger⟩, rfl⟩ := not_not.1 hold
      rw [IntType.getBits, bs.testBit_sign hsigned le_tsub_add]
      exact (decide_eq_false (not_lt.2 (hnonneg hlonger))).symm

/-- The bit that a negative number loses on the way to a longer type. -/
theorem bit_translate_lost (bs : BitString) (T : IntType) (hwidens : Widens bs.bitwiseEncoding T)
    (hneg : bs.valueIn ρ < 0) :
    ∃ i < T.length, ((bs.translate T).bitAt i).bit ρ ≠ (bs.valueIn ρ).testBit i := by
  obtain ⟨hsigned, hlonger⟩ := hwidens
  have hpos := bs.bitwiseEncoding.length_pos
  have hset : ∀ i, bs.bitwiseEncoding.length ≤ i + 1 → (bs.valueIn ρ).testBit i = true := by
    intro i hi
    rw [bs.testBit_sign hsigned hi]
    exact decide_eq_true hneg
  cases hT : T.signed with
  | false =>
      -- zeros come in above the old string
      have hnot : ¬ WideningConversion bs.bitwiseEncoding T := fun h => by
        rw [WideningConversion, hT] at h
        exact Bool.false_ne_true h.2.1
      refine ⟨bs.bitwiseEncoding.length, hlonger, ?_⟩
      rw [bitAt_of_lt _ hlonger, hset _ (Nat.le_succ _)]
      simp only [BitString.translate, hnot, false_and, if_false, IntType.getBits, lt_irrefl]
      exact Bool.false_ne_true
  | true =>
      -- the old place of the sign is cleared
      have hold : bs.bitwiseEncoding.length - 1 < T.length := (Nat.sub_le _ 1).trans_lt hlonger
      have hne : bs.bitwiseEncoding.length - 1 ≠ T.length - 1 := by omega
      have hwidening : WideningConversion bs.bitwiseEncoding T := ⟨hsigned, hT, hlonger⟩
      refine ⟨bs.bitwiseEncoding.length - 1, hold, ?_⟩
      rw [bitAt_of_lt _ hold, hset _ (Nat.sub_add_cancel hpos).ge]
      simp only [BitString.translate, hwidening, hne, and_false, true_and, if_false, not_true,
        IntType.getBits]
      exact Bool.false_ne_true

theorem translate_value_iff (bs : BitString) (T : IntType) :
    (bs.translate T).valueIn ρ = wrap T.signed T.length (bs.valueIn ρ) ↔
      ¬ (Widens bs.bitwiseEncoding T ∧ bs.valueIn ρ < 0) := by
  rw [valueIn]
  refine (valueOf_eq_wrap_iff T.length_pos _ _).trans ⟨fun h hlost => ?_, fun hkeeps i hi => ?_⟩
  · obtain ⟨i, hi, hne⟩ := bs.bit_translate_lost T hlost.1 hlost.2
    exact hne (h i hi)
  · exact bs.bit_translate T hkeeps hi

/-- Of a constant only the highest bit of a signed type can be wrong. -/
theorem ofConstant_value_iff (T : IntType) (cv : ℤ) :
    (ofConstant T cv).valueIn ρ = wrap T.signed T.length cv ↔
      (T.signed = true → cv.testBit (T.length - 1) = decide (cv < 0)) := by
  have hpos := T.length_pos
  have hsign : decide (cv.sign < 0) = decide (cv < 0) := decide_eq_decide.2 Int.sign_neg_iff
  rw [valueIn]
  refine (valueOf_eq_wrap_iff hpos _ _).trans ⟨fun h hT => ?_, fun h i hi => ?_⟩
  · have htop := h (T.length - 1) (Nat.sub_lt hpos Nat.one_pos)
    have hlt : T.length - 1 < (ofConstant T cv).bitwiseEncoding.getBits :=
      Nat.sub_lt hpos Nat.one_pos
    rw [bitAt_of_lt _ hlt] at htop
    simp only [ofConstant, IntType.getBits, hT, and_self, if_true, BitExpression.bit_constant,
      hsign] at htop
    exact htop.symm
  · rw [bitAt_of_lt _ hi]
    simp only [ofConstant]
    split_ifs with htop
    · rw [BitExpression.bit_constant, hsign, htop.1]
      exact (h htop.2).symm
    · exact BitExpression.bit_constant _

/-- The bits of a string are bits, and stand for `v`. -/
structure Represents (ρ : ℕ → ℚ) (bs : BitString) (v : ℤ) : Prop where
  isBits : bs.IsBits ρ
  value : bs.valueIn ρ = v

end BitString

/-! ## Operands -/

/-- What a split asks of its variables. -/
def SplitStatement.Holds (ρ : ℕ → ℚ) (s : SplitStatement) : Prop :=
  (BitString.ofLines s.bitwiseEncoding s.firstLine).IsBits ρ ∧
    ((BitString.ofLines s.bitwiseEncoding s.firstLine).valueIn ρ : ℚ) = ρ s.toSplit

/-- An operand has a value of its type, and so have the strings that are remembered for it. -/
def Operand.Holds (ρ : ℕ → ℚ) (v : ℤ) : Operand → Prop
  | .constant cv => cv = v
  | .lval x => ρ x.line = v ∧ x.type.Contains v ∧
      ∀ bs, some bs ∈ x.assigned ++ [x.bitString] → bs.Represents ρ v

/-- The encoding of the string that is translated. -/
def LvalExpression.encoding (x : LvalExpression) : IntType :=
  match x.oldString with
  | some oldString => oldString.bitwiseEncoding
  | none => x.type

/-- The bits of a constant end in its sign, or the string of a variable does not lose it. -/
def Operand.Translatable (T : IntType) (v : ℤ) : Operand → Prop
  | .constant _ => T.signed = true → v.testBit (T.length - 1) = decide (v < 0)
  | .lval x => ¬ (BitString.Widens x.encoding T ∧ v < 0)

namespace BitString

theorem LvalExpression.oldString_mem {x : LvalExpression} {bs : BitString}
    (h : x.oldString = some bs) : some bs ∈ x.assigned ++ [x.bitString] := by
  obtain ⟨o, hmem, ho⟩ := List.exists_of_findSome?_eq_some h
  rwa [id, ← show o = some bs from ho] at *

theorem toBitString_encoding (T : IntType) (n : ℕ) (op : Operand) :
    (toBitString T n op).1.bitwiseEncoding = T := by
  cases op with
  | constant cv => rfl
  | lval x =>
      rw [toBitString]
      split <;> rfl

/-- Whatever is translated represents the value. -/
theorem toBitString_represents {T : IntType} {n : ℕ} {x : LvalExpression} {v : ℤ}
    (h : (Operand.lval x).Holds ρ v)
    (hsplit : ∀ s ∈ (toBitString T n (.lval x)).2.2, s.Holds ρ) :
    ∃ bs : BitString, (toBitString T n (.lval x)).1 = bs.translate T ∧ bs.Represents ρ v ∧
      bs.bitwiseEncoding = x.encoding := by
  obtain ⟨hline, -, hstrings⟩ := h
  rw [toBitString] at hsplit ⊢
  rw [LvalExpression.encoding]
  split at hsplit
  · rename_i oldString hold
    exact ⟨oldString, rfl, hstrings _ (LvalExpression.oldString_mem hold), rfl⟩
  · rename_i hold
    obtain ⟨hbits, hvalue⟩ := hsplit _ List.mem_cons_self
    refine ⟨ofLines x.type n, rfl, ⟨hbits, ?_⟩, rfl⟩
    rw [hline] at hvalue
    exact_mod_cast hvalue

theorem toBitString_isBits {T : IntType} {n : ℕ} {op : Operand} {v : ℤ} (h : op.Holds ρ v)
    (hsplit : ∀ s ∈ (toBitString T n op).2.2, s.Holds ρ) : (toBitString T n op).1.IsBits ρ := by
  cases op with
  | constant cv => exact isBits_ofConstant T cv
  | lval x =>
      obtain ⟨bs, heq, hrep, -⟩ := toBitString_represents h hsplit
      rw [heq]
      exact hrep.isBits.translate T

/-- The string stands for the number of the encoding exactly if no sign is lost. -/
theorem toBitString_value_iff {T : IntType} {n : ℕ} {op : Operand} {v : ℤ} (h : op.Holds ρ v)
    (hsplit : ∀ s ∈ (toBitString T n op).2.2, s.Holds ρ) :
    (toBitString T n op).1.valueIn ρ = wrap T.signed T.length v ↔ op.Translatable T v := by
  cases op with
  | constant cv =>
      obtain rfl : cv = v := h
      exact ofConstant_value_iff T cv
  | lval x =>
      obtain ⟨bs, heq, hrep, henc⟩ := toBitString_represents h hsplit
      rw [heq, Operand.Translatable, ← henc, ← hrep.value]
      exact bs.translate_value_iff T

/-- What is remembered afterwards is right, too. -/
theorem toBitString_holds {T : IntType} {n : ℕ} {op : Operand} {v : ℤ} (h : op.Holds ρ v)
    (hsplit : ∀ s ∈ (toBitString T n op).2.2, s.Holds ρ) : (toBitString T n op).2.1.Holds ρ v := by
  cases op with
  | constant cv => exact h
  | lval x =>
      have hx := h
      obtain ⟨hline, htype, hstrings⟩ := hx
      rw [toBitString] at hsplit ⊢
      split at hsplit
      · exact h
      · obtain ⟨hbits, hvalue⟩ := hsplit _ List.mem_cons_self
        refine ⟨hline, htype, fun bs hmem => ?_⟩
        rcases List.mem_append.1 hmem with hmem | hmem
        · exact hstrings bs (List.mem_append_left _ hmem)
        · obtain rfl : bs = ofLines x.type n := Option.some_inj.1 (List.mem_singleton.1 hmem)
          rw [hline] at hvalue
          exact ⟨hbits, by exact_mod_cast hvalue⟩

end BitString

end Pepper.Frontend
