import Pepper.Foundations.MultiplyDivide
import Pepper.Frontend.BitwiseOperator
import Pepper.Frontend.LinearTypes

/-!
# Division by a constant

`getMagicNumber` searches for a multiplier and a shift, `inlineOp` multiplies, adds a power of two
to the products of negative dividends and shifts the bits of the sum. Main result
(`division_spec`): for every integer type and every divisor of at least two the search ends, the
shift of the product is the quotient rounded toward zero, the product and the amount of the shift
fit the type that is computed for the product, the bits of every operand that the product can be
end in its sign, so that the string that is built is that of the quotient, and the remainder is of
the type that is assigned to it.
-/

set_option autoImplicit false

namespace Pepper.Frontend

open Pepper.Foundations.MultiplyDivide Pepper.Foundations.TwosComplement

namespace DivisionOperator

/-! ## The search -/

structure MagicNumber where
  M : ℤ
  shift : ℕ
deriving DecidableEq

/-- One pass of the loop: the next multiple of the divisor is near enough for both signs. -/
def tryShift (n_t : IntType) (d : ℤ) (p : ℕ) : Option MagicNumber :=
  let twoP : ℤ := 2 ^ p
  let Md := twoP + d - twoP % d
  if (Md - twoP) * n_t.getMaxInt ≥ twoP then none
  else if -((Md - twoP) * n_t.getMinInt + 1) ≥ twoP then none
  else some ⟨Md / d, p⟩

/-- The loop over the shifts from `p` on. -/
def searchFrom (n_t : IntType) (d : ℤ) : ℕ → ℕ → Option MagicNumber
  | 0, _ => none
  | fuel + 1, p =>
      match tryShift n_t d p with
      | some magicNumber => some magicNumber
      | none => searchFrom n_t d fuel (p + 1)

/-- Divisors below two are refused. -/
def getMagicNumber (fuel : ℕ) (n_t : IntType) (d : ℤ) : Option MagicNumber :=
  if d < 2 then none else searchFrom n_t d fuel 0

/-- What a pass has found. -/
structure Fits (n_t : IntType) (d : ℤ) (m : MagicNumber) (e : ℤ) : Prop where
  multiplier : IsMultiplier d (2 ^ m.shift) m.M e
  max : e * n_t.getMaxInt < 2 ^ m.shift
  min : -(e * n_t.getMinInt + 1) < 2 ^ m.shift

theorem tryShift_fits {n_t : IntType} {d : ℤ} (hd : 0 < d) {p : ℕ} {m : MagicNumber}
    (h : tryShift n_t d p = some m) : ∃ e, Fits n_t d m e := by
  rw [tryShift] at h
  split_ifs at h with hmax hmin
  cases h
  have hlt := Int.emod_lt_of_pos (2 ^ p : ℤ) hd
  have hdvd : d ∣ 2 ^ p + d - 2 ^ p % d := by
    have hmod : (2 ^ p + d - 2 ^ p % d : ℤ) = d * (2 ^ p / d + 1) := by
      linear_combination -Int.mul_ediv_add_emod (2 ^ p : ℤ) d
    exact ⟨_, hmod⟩
  refine ⟨d - 2 ^ p % d, ⟨hd, by positivity, sub_pos.2 hlt, ?_⟩, ?_, ?_⟩
  · change (2 ^ p + d - 2 ^ p % d) / d * d = _
    rw [Int.ediv_mul_cancel hdvd]
    ring
  · refine lt_of_eq_of_lt ?_ (not_le.1 hmax)
    ring
  · refine lt_of_eq_of_lt ?_ (not_le.1 hmin)
    ring

/-- A shift that is large enough is taken. -/
theorem tryShift_isSome {n_t : IntType} {d : ℤ} (hd : 0 < d) {p : ℕ}
    (hp : d * 2 ^ n_t.length < 2 ^ p) : (tryShift n_t d p).isSome = true := by
  have hnonneg := Int.emod_nonneg (2 ^ p : ℤ) hd.ne'
  have hlt := Int.emod_lt_of_pos (2 ^ p : ℤ) hd
  have hpow : (0 : ℤ) < 2 ^ n_t.length := by positivity
  have hhalf : (2 : ℤ) ^ (n_t.length - 1) ≤ 2 ^ n_t.length :=
    pow_le_pow_right₀ one_le_two (Nat.sub_le _ _)
  have hmax : n_t.getMaxInt ≤ 2 ^ n_t.length := by
    rw [IntType.getMaxInt, IntType.getBits]
    split <;> linarith
  have hmin : -n_t.getMinInt ≤ 2 ^ n_t.length := by
    rw [IntType.getMinInt, IntType.getBits]
    split <;> linarith
  have hbound : ∀ v : ℤ, v ≤ 2 ^ n_t.length →
      (2 ^ p + d - 2 ^ p % d - 2 ^ p) * v < 2 ^ p := by
    intro v hv
    have hexcess : 2 ^ p + d - 2 ^ p % d - 2 ^ p = d - 2 ^ p % d := by ring
    rw [hexcess]
    refine lt_of_le_of_lt ?_ hp
    calc (d - 2 ^ p % d) * v ≤ (d - 2 ^ p % d) * 2 ^ n_t.length :=
          mul_le_mul_of_nonneg_left hv (sub_nonneg.2 hlt.le)
      _ ≤ d * 2 ^ n_t.length := mul_le_mul_of_nonneg_right (by linarith) hpow.le
  have hneg := hbound _ hmin
  rw [tryShift]
  rw [if_neg (not_le.2 (hbound _ hmax)), if_neg (not_le.2 (by linarith))]
  rfl

theorem searchFrom_spec {n_t : IntType} {d : ℤ} {fuel p k : ℕ} (hk : k < fuel)
    (h : (tryShift n_t d (p + k)).isSome = true) :
    ∃ m q, searchFrom n_t d fuel p = some m ∧ tryShift n_t d q = some m := by
  induction fuel generalizing p k with
  | zero => exact absurd hk (Nat.not_lt_zero k)
  | succ fuel ih =>
      rw [searchFrom]
      cases htry : tryShift n_t d p with
      | some m => exact ⟨m, p, rfl, htry⟩
      | none =>
          cases k with
          | zero =>
              rw [Nat.add_zero, htry] at h
              cases h
          | succ k =>
              refine ih (Nat.lt_of_succ_lt_succ hk) ?_
              rwa [Nat.add_right_comm, Nat.add_assoc]

/-- The search ends after so many passes. -/
def passes (n_t : IntType) (d : ℤ) : ℕ := d.natAbs.size + n_t.length + 1

theorem getMagicNumber_fits (n_t : IntType) {d : ℤ} (hd : 2 ≤ d) {fuel : ℕ}
    (hfuel : passes n_t d ≤ fuel) :
    ∃ m e, getMagicNumber fuel n_t d = some m ∧ Fits n_t d m e := by
  have hpos : 0 < d := lt_of_lt_of_le zero_lt_two hd
  have hsize : d < 2 ^ d.natAbs.size := by
    have hlt : ((d.natAbs : ℕ) : ℤ) < ((2 ^ d.natAbs.size : ℕ) : ℤ) :=
      Int.ofNat_lt.2 (Nat.lt_size_self d.natAbs)
    rwa [Int.natAbs_of_nonneg hpos.le, Nat.cast_pow, Nat.cast_ofNat] at hlt
  have hlarge : d * 2 ^ n_t.length < 2 ^ (d.natAbs.size + n_t.length) := by
    rw [pow_add]
    exact mul_lt_mul_of_pos_right hsize (by positivity)
  have htry : (tryShift n_t d (d.natAbs.size + n_t.length)).isSome = true :=
    tryShift_isSome hpos hlarge
  rw [← Nat.zero_add (d.natAbs.size + n_t.length)] at htry
  obtain ⟨m, q, hsearch, hq⟩ := searchFrom_spec hfuel htry
  obtain ⟨e, hfits⟩ := tryShift_fits hpos hq
  refine ⟨m, e, ?_, hfits⟩
  rw [getMagicNumber, if_neg (not_lt.2 hd), hsearch]

theorem searchFrom_mono {n_t : IntType} {d : ℤ} {m : MagicNumber} {fuel fuel' p : ℕ}
    (hle : fuel ≤ fuel') (h : searchFrom n_t d fuel p = some m) :
    searchFrom n_t d fuel' p = some m := by
  induction fuel generalizing fuel' p with
  | zero => cases h
  | succ fuel ih =>
      obtain ⟨k, rfl⟩ := Nat.exists_eq_add_of_le' hle
      rw [Nat.add_succ, searchFrom]
      rw [searchFrom] at h
      cases htry : tryShift n_t d p with
      | some found =>
          rw [htry] at h
          exact h
      | none =>
          rw [htry] at h
          exact ih (Nat.le_add_left fuel k) h

theorem getMagicNumber_mono {n_t : IntType} {d : ℤ} {m : MagicNumber} {fuel fuel' : ℕ}
    (hle : fuel ≤ fuel') (h : getMagicNumber fuel n_t d = some m) :
    getMagicNumber fuel' n_t d = some m := by
  rw [getMagicNumber] at h ⊢
  split
  · rename_i hsmall
    rw [if_pos hsmall] at h
    cases h
  · rename_i hlarge
    rw [if_neg hlarge] at h
    exact searchFrom_mono hle h

/-- The product, with the power of two for a negative dividend. -/
def productValue (m : MagicNumber) (n : ℤ) : ℤ := m.M * n + if n < 0 then 2 ^ m.shift else 0

/-- The shift of the product is the quotient rounded toward zero. -/
theorem Fits.quotient {n_t : IntType} {d e : ℤ} {m : MagicNumber} (h : Fits n_t d m e) {n : ℤ}
    (hn : n_t.Contains n) : productValue m n / 2 ^ m.shift = n.tdiv d := by
  obtain ⟨hmin, hmax⟩ := (n_t.contains_iff n).1 hn
  have he := h.multiplier.excess_pos.le
  refine h.multiplier.tdiv_eq_mul_ediv (fun _ => ?_) fun _ => ?_
  · exact lt_of_le_of_lt (mul_le_mul_of_nonneg_left hmax he) h.max
  · refine lt_of_le_of_lt ?_ h.min
    have hle := mul_le_mul_of_nonneg_left hmin he
    linarith

/-! ## The product -/

/-- `product.getType()`, the encoding of the shift. -/
def productType (argType : FiniteType) (m : MagicNumber) : FiniteType :=
  PlusOperator.sumTypes 2 (TypeHeirarchy.looseUnion
    (TimesOperator.multiplyTypes argType (IntConstant.getType m.M))
    (TimesOperator.multiplyTypes .boolean (IntConstant.getType (2 ^ m.shift))))

section Product

variable {argType : FiniteType} {n_t T : IntType} {m : MagicNumber} {n : ℤ}

theorem exists_productType (harg : argType.kind = .int n_t) (m : MagicNumber) :
    ∃ T, productType argType m = .int T :=
  PlusOperator.sumTypes_two (TypeHeirarchy.isInt_looseUnion
    (TimesOperator.isInt_multiplyTypes ⟨n_t, harg⟩ (IntConstant.isInt_getType m.M))
    (TimesOperator.isInt_multiplyTypes ⟨_, rfl⟩ (IntConstant.isInt_getType (2 ^ m.shift))))

/-- Every sum of a multiple of a dividend and the power of two, or zero, is of the type. -/
theorem contains_productType (harg : argType.kind = .int n_t) (hT : productType argType m = .int T)
    (hn : n_t.Contains n) {b : ℤ} (hb : b = 0 ∨ b = 1) :
    T.Contains (m.M * n + b * 2 ^ m.shift) := by
  have harg' : argType.Contains (n : ℚ) := by
    rw [FiniteType.Contains, harg]
    exact ⟨n, rfl, hn⟩
  have hb' : FiniteType.boolean.Contains (b : ℚ) := by
    rw [FiniteType.contains_boolean]
    exact_mod_cast hb
  have hfirst := TypeHeirarchy.contains_looseUnion_left
    (TimesOperator.multiplyTypes .boolean (IntConstant.getType (2 ^ m.shift)))
    (TimesOperator.contains_multiplyTypes harg' (IntConstant.contains_getType m.M))
  have hsecond := TypeHeirarchy.contains_looseUnion_right
    (TimesOperator.multiplyTypes argType (IntConstant.getType m.M))
    (TimesOperator.contains_multiplyTypes hb' (IntConstant.contains_getType (2 ^ m.shift)))
  have hsum := PlusOperator.contains_sumTypes [(n : ℚ) * m.M, (b : ℚ) * ((2 ^ m.shift : ℤ) : ℚ)]
    (List.forall_mem_cons.2 ⟨hfirst, List.forall_mem_singleton.2 hsecond⟩)
  have hvalue : [(n : ℚ) * m.M, (b : ℚ) * ((2 ^ m.shift : ℤ) : ℚ)].sum =
      ((m.M * n + b * 2 ^ m.shift : ℤ) : ℚ) := by
    rw [List.sum_cons, List.sum_singleton]
    push_cast
    ring
  change (productType argType m).Contains _ at hsum
  rw [hvalue, hT] at hsum
  obtain ⟨v, hv, hcontains⟩ := hsum
  rwa [Int.cast_injective hv]

theorem productValue_contains (harg : argType.kind = .int n_t)
    (hT : productType argType m = .int T) (hn : n_t.Contains n) :
    T.Contains (productValue m n) := by
  rw [productValue]
  split
  · have hcontains := contains_productType harg hT hn (Or.inr rfl)
    rwa [one_mul] at hcontains
  · have hcontains := contains_productType harg hT hn (Or.inl rfl)
    rwa [zero_mul] at hcontains

/-- The power of two is of the type, so that the amount of the shift is below its length. -/
theorem shift_lt (harg : argType.kind = .int n_t) (hT : productType argType m = .int T) :
    m.shift < T.getBits := by
  have hzero : n_t.Contains 0 := by
    obtain ⟨v, hv, hcontains⟩ := FiniteType.contains_zero (.int n_t)
    rwa [Int.cast_eq_zero.1 hv.symm] at hcontains
  have hpower := contains_productType harg hT hzero (Or.inr rfl)
  rw [mul_zero, zero_add, one_mul, IntType.contains_iff] at hpower
  exact (pow_lt_pow_iff_right₀ one_lt_two).1 (hpower.2.trans_lt T.getMaxInt_lt)

end Product

/-! ## The remainder -/

/-- The type that is set for the result of the remainder mode. -/
def remainderType (isSignedResult : Bool) (N : ℕ) : IntType :=
  if isSignedResult then ⟨true, N + 1, Nat.succ_pos N⟩ else .uint N

theorem remainderType_contains {n_t D : IntType} {d n : ℤ} (hd : 2 ≤ d)
    (hD : (IntConstant.getType d).kind = .int D) (hn : n_t.Contains n) :
    (remainderType n_t.signed D.getBits).Contains (n - d * n.tdiv d) := by
  have hpos : 0 < d := zero_lt_two.trans_le hd
  obtain ⟨v, hv, hcontains⟩ : ∃ v : ℤ, (d : ℚ) = v ∧ D.Contains v := by
    have h := IntConstant.contains_getType d
    rwa [FiniteType.Contains, hD] at h
  rw [← Int.cast_injective hv, IntType.contains_iff] at hcontains
  have hbits : d < 2 ^ D.getBits := by
    refine hcontains.2.trans_lt ?_
    exact D.getMaxInt_lt
  have hrest := abs_lt.1 (abs_sub_mul_tdiv_lt hpos n)
  rw [remainderType]
  split
  · exact ⟨(neg_lt_neg hbits).le.trans hrest.1.le, hrest.2.trans hbits⟩
  · rename_i hsigned
    have hnonneg : 0 ≤ n := by
      obtain ⟨hmin, -⟩ := (n_t.contains_iff n).1 hn
      rwa [IntType.getMinInt, if_neg hsigned] at hmin
    have hquotient : d * n.tdiv d ≤ n := by
      rw [Int.tdiv_eq_ediv_of_nonneg hnonneg]
      exact Int.mul_ediv_self_le hpos.ne'
    exact IntType.contains_uint (sub_nonneg.2 hquotient) (hrest.2.trans hbits)

/-! ## The shift -/

/-- What `product` can be once it is evaluated: a constant, a variable whose numbers are not
negative, or the variable that the sum of the two summands was assigned to. -/
inductive IsProduct (typeOf : ℕ → FiniteType) (n_t : IntType) (m : MagicNumber) : Operand → Prop
  | constant (cv : ℤ) : IsProduct typeOf n_t m (.constant cv)
  | unsigned (hn : n_t.signed = false) (x : LvalExpression) : IsProduct typeOf n_t m (.lval x)
  | signed {x less t₁ t₂ line fuel : ℕ} {k₁ k₂ : ℤ} {pe : TypedExpression} {S : IntType}
      (hn : n_t.signed = true) (hx : typeOf x = .int n_t) (hless : typeOf less = .boolean)
      (h₁ : Summand typeOf m.M x k₁ t₁) (h₂ : Summand typeOf (2 ^ m.shift) less k₂ t₂)
      (hlt : t₁ < t₂)
      (hsum : TypedExpression.inlinePlus typeOf (TypedExpression.getType typeOf fuel)
        (.ofMonomial typeOf k₁ [t₁]) (.ofMonomial typeOf k₂ [t₂]) = some pe)
      (htype : pe.getType typeOf (fuel + 2) = some (.int S)) :
      IsProduct typeOf n_t m (.lval ⟨line, S, [], none⟩)

section Shift

variable {argType : FiniteType} {n_t T : IntType} {m : MagicNumber} {n : ℤ}

/-- The variable of the sum has the type of the product. -/
theorem getType_product {typeOf : ℕ → FiniteType} (harg : argType.kind = .int n_t)
    (hT : productType argType m = .int T) (hM : 0 < m.M) (hn : n_t.signed = true)
    {x less t₁ t₂ fuel : ℕ} {k₁ k₂ : ℤ} {pe : TypedExpression} (hx : typeOf x = .int n_t)
    (hless : typeOf less = .boolean) (h₁ : Summand typeOf m.M x k₁ t₁)
    (h₂ : Summand typeOf (2 ^ m.shift) less k₂ t₂) (hlt : t₁ < t₂)
    (hsum : TypedExpression.inlinePlus typeOf (TypedExpression.getType typeOf fuel)
      (.ofMonomial typeOf k₁ [t₁]) (.ofMonomial typeOf k₂ [t₂]) = some pe) :
    pe.getType typeOf (fuel + 2) = some (.int T) := by
  obtain ⟨signed, w, hw⟩ := n_t
  cases hn
  rw [TypedExpression.inlinePlus_eq (h₁.ne_zero hM.ne') hlt, Option.some.injEq] at hsum
  have harg' : argType = .int ⟨true, w, hw⟩ := FiniteType.eq_signed harg
  rw [← hsum, getType_sum hM hx hless h₁ h₂ hlt, ← hT, productType, harg']

theorem IsProduct.translatable {typeOf : ℕ → FiniteType} {operand : Operand}
    (h : IsProduct typeOf n_t m operand) (harg : argType.kind = .int n_t)
    (hT : productType argType m = .int T) (hM : 0 < m.M) (hn : n_t.Contains n) {ρ : ℕ → ℚ}
    (hop : operand.Holds ρ (productValue m n)) : operand.Translatable T (productValue m n) := by
  cases h with
  | constant cv =>
      intro hsigned
      have hcontains := productValue_contains harg hT hn
      refine testBit_eq_sign T.length_pos hcontains ?_
      rw [if_pos hsigned]
      exact le_tsub_add
  | unsigned hunsigned x =>
      rintro ⟨-, hneg⟩
      have hnonneg : 0 ≤ n := by
        obtain ⟨hmin, -⟩ := (n_t.contains_iff n).1 hn
        rwa [IntType.getMinInt, hunsigned, if_neg Bool.false_ne_true] at hmin
      rw [productValue, if_neg (not_lt.2 hnonneg), add_zero] at hneg
      exact absurd hneg (not_lt.2 (mul_nonneg hM.le hnonneg))
  | signed hsigned hx hless h₁ h₂ hlt hsum htype =>
      rintro ⟨⟨-, hshort⟩, -⟩
      rw [getType_product harg hT hM hsigned hx hless h₁ h₂ hlt hsum, Option.some.injEq,
        FiniteType.int.injEq] at htype
      rw [htype] at hshort
      exact absurd hshort (lt_irrefl _)

/-- A right shift by less than the length only passes bits on. -/
theorem exists_rightShift {p : ℕ} (hp : p < T.getBits) (line : ℕ) (left right : BitString) :
    ∃ bs, (BitwiseOperator.rightShift p).inlineOp T line left right = some (bs, []) := by
  have hpass : ∀ i, ∃ b, BitwiseOperator.getOutputBit T i left right (.rightShift p) =
      some (.bit b) := by
    intro i
    rw [BitwiseOperator.getOutputBit, if_neg (not_le.2 hp)]
    split_ifs <;> exact ⟨_, rfl⟩
  have hsome : ∀ i : Fin T.getBits,
      (BitwiseOperator.getOutputBit T i left right (.rightShift p)).isSome := by
    intro i
    obtain ⟨b, hb⟩ := hpass i
    rw [hb]
    rfl
  have hnone : ∀ i : Fin T.getBits, (BitwiseOperator.evaluateExpression (line + i)
      ((BitwiseOperator.getOutputBit T i left right (.rightShift p)).get (hsome i))).2 = [] := by
    intro i
    obtain ⟨b, hb⟩ := hpass i
    simp only [hb, Option.get_some, BitwiseOperator.evaluateExpression]
  refine ⟨⟨T, fun i => (BitwiseOperator.evaluateExpression (line + i)
    ((BitwiseOperator.getOutputBit T i left right (.rightShift p)).get (hsome i))).1⟩, ?_⟩
  rw [BitwiseOperator.inlineOp, dif_pos hsome]
  exact congrArg some (Prod.ext rfl (List.flatMap_eq_nil_iff.2 fun i _ => hnone i))

/-- The string of the shifted product has the value of the shift. -/
theorem reads_rightShift {isBoolean : ℕ → Bool} {ρ : ℕ → ℚ} (hρ : Respects isBoolean ρ) {p : ℕ}
    (hp : p < T.getBits) {v : ℤ} (hv : T.Contains v) {operand : Operand} (hop : operand.Holds ρ v)
    (htranslatable : operand.Translatable T v) {lineNumber : ℕ}
    (hsplit : ∀ s ∈ (BitString.toBitString T lineNumber operand).2.2, s.Holds ρ) (line : ℕ)
    {right : BitString} (hright : right.bitwiseEncoding = T) :
    ∃ bs, (BitwiseOperator.rightShift p).inlineOp T line
        (BitString.toBitString T lineNumber operand).1 right = some (bs, []) ∧
      Reads isBoolean ρ bs (v / 2 ^ p) := by
  have hbits := BitString.toBitString_isBits hop hsplit
  have hvalue := (BitString.toBitString_value_iff hop hsplit).2 htranslatable
  rw [wrap_of_inRange T.length_pos hv] at hvalue
  obtain ⟨bs, hbs⟩ := exists_rightShift hp line (BitString.toBitString T lineNumber operand).1 right
  have hshift := BitwiseOperator.inlineOp_represents hbits
    (BitString.toBitString_encoding T lineNumber operand) hright hbs
    fun s hs => absurd hs List.not_mem_nil
  rw [BitwiseOperator.onInts, hvalue, wrap_of_inRange T.length_pos (inRange_ediv hv p)] at hshift
  exact ⟨bs, hbs, (reads_iff hρ hshift.isBits).2 hshift.value⟩

end Shift

/-- What a division of numbers of the type `n_t` by `d` does for `n`, with products in `T` and
remainders in `R`. -/
structure Divides (n_t T R : IntType) (d : ℤ) (m : MagicNumber) (n : ℤ) : Prop where
  quotient : productValue m n / 2 ^ m.shift = n.tdiv d
  product : T.Contains (productValue m n)
  shift : ∀ (isBoolean : ℕ → Bool) (ρ : ℕ → ℚ) (typeOf : ℕ → FiniteType) (operand : Operand)
    (lineNumber line : ℕ) (right : BitString), Respects isBoolean ρ →
    IsProduct typeOf n_t m operand → operand.Holds ρ (productValue m n) →
    (∀ s ∈ (BitString.toBitString T lineNumber operand).2.2, s.Holds ρ) →
    right.bitwiseEncoding = T →
    ∃ bs, (BitwiseOperator.rightShift m.shift).inlineOp T line
        (BitString.toBitString T lineNumber operand).1 right = some (bs, []) ∧
      Reads isBoolean ρ bs (n.tdiv d)
  remainder : R.Contains (n - d * n.tdiv d)

/-- The search ends, and what it finds divides every number of the type. -/
theorem division_spec {argType : FiniteType} {n_t : IntType} (harg : argType.kind = .int n_t)
    {d : ℤ} (hd : 2 ≤ d) :
    ∃ (m : MagicNumber) (T D : IntType),
      (∀ fuel, passes n_t d ≤ fuel → getMagicNumber fuel n_t d = some m) ∧
      productType argType m = .int T ∧ m.shift < T.getBits ∧
      (IntConstant.getType d).kind = .int D ∧
      ∀ n, n_t.Contains n → Divides n_t T (remainderType n_t.signed D.getBits) d m n := by
  obtain ⟨m, e, hsearch, hfits⟩ := getMagicNumber_fits n_t hd le_rfl
  obtain ⟨T, hT⟩ := exists_productType harg m
  obtain ⟨D, hD⟩ := IntConstant.isInt_getType d
  have hshift := shift_lt harg hT
  have hM := hfits.multiplier.multiplier_pos
  refine ⟨m, T, D, fun fuel hfuel => getMagicNumber_mono hfuel hsearch, hT, hshift, hD,
    fun n hn => ?_⟩
  have hquotient := hfits.quotient hn
  have hproduct := productValue_contains harg hT hn
  refine ⟨hquotient, hproduct, ?_, remainderType_contains hd hD hn⟩
  intro isBoolean ρ typeOf operand lineNumber line right hρ hsum hop hsplit hright
  have htranslatable := hsum.translatable harg hT hM hn hop
  rw [← hquotient]
  exact reads_rightShift hρ hshift hproduct hop htranslatable hsplit line hright

theorem threeBits_pos : 0 < 3 := by decide

def threeBits : IntType := ⟨true, 3, threeBits_pos⟩

def sixBits : IntType := ⟨true, 6, by decide⟩

/-- Line `0` is the dividend, line `1` is whether it is negative. -/
def dividendTypes : ℕ → FiniteType
  | 0 => .int threeBits
  | 1 => .boolean
  | _ => .int sixBits

/-- `-4`, its sign, the product `-4` of line `2` and the bits `111100` of that. -/
def dividedByThree : ℕ → ℚ
  | 0 => -4
  | 2 => -4
  | 3 => 0
  | 4 => 0
  | _ => 1

theorem isProduct_dividendTypes : IsProduct dividendTypes threeBits ⟨3, 3⟩
    (.lval ⟨2, sixBits, [], none⟩) := by
  have htype : (TypedExpression.ofTwo dividendTypes 3 0 (2 ^ 3) 1).getType dividendTypes (0 + 2) =
      some (.int sixBits) := by decide +kernel
  exact .signed rfl rfl rfl .inlined .inlined Nat.zero_lt_one
    (TypedExpression.inlinePlus_eq three_ne_zero Nat.zero_lt_one) htype

/-- The sum of the products for `-4` shifts to `-1`, and one less than zero is left. -/
theorem division_spec_minusFour :
    Divides threeBits sixBits threeBits 3 ⟨3, 3⟩ (-4) ∧ ∃ bs,
      (BitwiseOperator.rightShift 3).inlineOp sixBits 9
        (BitString.toBitString sixBits 3 (.lval ⟨2, sixBits, [], none⟩)).1
        (.ofConstant sixBits 3) = some (bs, []) ∧
      Reads (fun _ => false) dividedByThree bs (-1) := by
  have harg : FiniteType.kind (.int threeBits) = .int threeBits := rfl
  have hd : (2 : ℤ) ≤ 3 := by decide
  obtain ⟨m, T, D, hsearch, hT, hshift, hD, hdivides⟩ := division_spec harg hd
  have hfound : getMagicNumber 6 threeBits 3 = some ⟨3, 3⟩ := by decide +kernel
  have hm : (⟨3, 3⟩ : MagicNumber) = m :=
    Option.some.inj (hfound.symm.trans (hsearch 6 (by decide +kernel)))
  subst hm
  have htype : productType (.int threeBits) ⟨3, 3⟩ = .int sixBits := by decide +kernel
  have hT' : sixBits = T := FiniteType.int.inj (htype.symm.trans hT)
  subst hT'
  have hD' : IntConstant.getType 3 = .int ⟨false, 2, Nat.two_pos⟩ := by decide +kernel
  rw [hD'] at hD
  cases hD
  have h := hdivides (-4) (by decide +kernel)
  refine ⟨h, ?_⟩
  have hsplit : ∀ s ∈ (BitString.toBitString sixBits 3 (.lval ⟨2, sixBits, [], none⟩)).2.2,
      s.Holds dividedByThree := by
    refine List.forall_mem_singleton.2 ⟨?_, ?_⟩
    · intro i
      fin_cases i <;> first | exact Or.inl rfl | exact Or.inr rfl
    · decide +kernel
  have hop : (Operand.lval ⟨2, sixBits, [], none⟩).Holds dividedByThree
      (productValue ⟨3, 3⟩ (-4)) := by
    refine ⟨by decide +kernel, by decide +kernel, fun bs hbs => ?_⟩
    rw [List.nil_append, List.mem_singleton] at hbs
    cases hbs
  exact h.shift (fun _ => false) dividedByThree dividendTypes _ 3 9 (.ofConstant sixBits 3)
    (fun _ h => nomatch h) isProduct_dividendTypes hop hsplit rfl

end DivisionOperator

end Pepper.Frontend
