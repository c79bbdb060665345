import Pepper.Common.ConstraintEval
import Pepper.Libv.SplitInt
import Pepper.Zcc.LessThanFloat

/-!
# The honest prover of a comparison of rationals

`computeLessThanFloat` is what the prover writes for a `<F` line of the worksheet: the case, the
numerator and the denominator of the difference in lowest terms, their bits, and last the inverse
of the denominator, over `D` itself, and the product with the numerator. For equal operands the
difference is replaced by `-1`.

`lessThanFloat_spec` says that the residues of these values satisfy the constraints of the back
end (`lessThanFloat_complete`), and that every assignment that does has the result of the
comparison.
-/

set_option autoImplicit false

open Pepper.Foundations Pepper.Foundations.Loop Pepper.Foundations.FieldBits Pepper.Zcc
open Pepper.Cmtgkr.Layer (convertToZ)
open Pepper.Common.ConstraintGen (Convertible cast_convertToZ)
open Pepper.Libv.LessThan (Ref Operand scratch deref bitPass forLoop_bitPass sum_bits writeCases
  writeCases_of_ne)
open Pepper.Libv.SplitInt (splitPass forLoop_splitPass)

namespace Pepper.Libv.LessThanFloat

universe u

/-! ## The prover -/

section Prover

variable {κ : Type u} [DecidableEq κ]

/-- One pass of the loop that fills in the flags of the denominator. -/
def flagPass (dCell : ℕ → κ) (i : ℕ) (s : ℤ × (κ → ℚ)) : ℤ × (κ → ℚ) :=
  (s.1.tdiv 2, Function.update s.2 (dCell i) (s.1.tmod 2 : ℤ))

/-- The comparison: the three cases, `N` and `D`. -/
def writeCase (n d mlt meq mgt : κ) (x1 x2 : Ref κ) (s : κ → ℚ) : κ → ℚ :=
  let tempQ := scratch x1 x2
  let write (lt eq gt : ℚ) : κ → ℚ :=
    Function.update (Function.update (Function.update s mlt lt) meq eq) mgt gt
  let fraction (s : κ → ℚ) (num den : ℚ) : κ → ℚ :=
    Function.update (Function.update s n num) d den
  if deref tempQ s x1 < deref tempQ s x2 then
    let diff := deref tempQ (write 1 0 0) x1 - deref tempQ (write 1 0 0) x2
    fraction (write 1 0 0) diff.num diff.den
  else if deref tempQ s x1 = deref tempQ s x2 then fraction (write 0 1 0) (-1) 1
  else
    let diff := deref tempQ (write 0 0 1) x2 - deref tempQ (write 0 0 1) x1
    fraction (write 0 0 1) diff.num diff.den

/-- `compute_less_than_float`: `nCell i` and `dCell i` are the variables `i` places after `N_0`
and `D_0`. -/
def computeLessThanFloat (Na Nb : ℕ) (nCell dCell : ℕ → κ) (n d nd mlt meq mgt : κ)
    (x1 x2 : Ref κ) (y : κ) (s : κ → ℚ) : κ → ℚ :=
  let s := writeCase n d mlt meq mgt x1 x2 s
  let s := Function.update s y (s mlt)
  -- the bits of the numerator of the difference + 2^Na
  let s := (forLoop Na (bitPass nCell) (2 ^ Na + (s n).num, s)).2
  let s := (forLoop (Nb + 1) (flagPass dCell) ((s d).num, s)).2
  let s := Function.update s d (s d)⁻¹
  Function.update s nd (s n * s d)

theorem forLoop_flagPass {dCell : ℕ → κ} (hinj : Function.Injective dCell) (S N : ℕ)
    (s : κ → ℚ) :
    (∀ i < N, (forLoop N (flagPass dCell) (S, s)).2 (dCell i) = if S.testBit i then 1 else 0) ∧
      ∀ c, (∀ i < N, c ≠ dCell i) → (forLoop N (flagPass dCell) (S, s)).2 c = s c := by
  have hpass : flagPass dCell = splitPass N false false dCell := by
    funext i t
    rw [splitPass, if_neg (fun h => Bool.false_ne_true h.2)]
    rfl
  rw [hpass]
  exact (forLoop_splitPass (fun h => absurd h Bool.false_ne_true) hinj s (le_refl N)).2

end Prover

/-! ## Operands -/

section Operands

variable {ν : Type u}

/-- An operand in a constraint. -/
def floatText : Operand ν → Text (FloatName ν)
  | .var x => nameText (.base x)
  | .const c => constText c

/-- An operand on a worksheet line. -/
def floatRef : Operand ν → Ref (FloatName ν)
  | .var x => .cell (.base x)
  | .const c => .const c

/-- The value of an operand. -/
def floatValue (s : FloatName ν → ℚ) : Operand ν → ℚ
  | .var x => s (.base x)
  | .const c => c

/-- Constants share the scratch cell: both operands are read as the second one. -/
def ReadAlike (a b : Operand ν) : Prop := ∀ c c', a = .const c → b = .const c' → c = c'

theorem isFactor_floatText (a : Operand ν) : IsFactor (floatText a) := by
  cases a with
  | var x => exact .name _
  | const c => exact .const c

theorem deref_floatRef {a b : Operand ν} (h : ReadAlike a b) (s : FloatName ν → ℚ) :
    deref (scratch (floatRef a) (floatRef b)) s (floatRef a) = floatValue s a ∧
      deref (scratch (floatRef a) (floatRef b)) s (floatRef b) = floatValue s b := by
  cases a with
  | var x =>
      cases b with
      | var y => exact ⟨rfl, rfl⟩
      | const c => exact ⟨rfl, rfl⟩
  | const c =>
      cases b with
      | var y => exact ⟨rfl, rfl⟩
      | const c' =>
          obtain rfl := h c c' rfl rfl
          exact ⟨rfl, rfl⟩

/-- Writing to auxiliary variables and to the target does not change the other names. -/
theorem floatValue_congr {a : Operand ν} {target : ν} (ha : a ≠ .var target)
    {s s' : FloatName ν → ℚ} (h : ∀ x, x ≠ target → s' (.base x) = s (.base x)) :
    floatValue s' a = floatValue s a := by
  cases a with
  | var x => exact h x fun hx => ha (by rw [hx])
  | const c => rfl

end Operands

/-! ## What the prover writes -/

section Written

variable {ν : Type u} [DecidableEq ν]

/-- The memory after the `<F` line for `target = (a < b)`. -/
def compareFloat (Na Nb : ℕ) (a b : Operand ν) (target : ν) (s : FloatName ν → ℚ) :
    FloatName ν → ℚ :=
  computeLessThanFloat Na Nb (fun i => .aux target (.nBit i)) (fun i => .aux target (.dBit i))
    (.aux target .n) (.aux target .d) (.aux target .nd) (.aux target .mlt) (.aux target .meq)
    (.aux target .mgt) (floatRef a) (floatRef b) (.base target) s

/-- The fraction that the prover works with: the negative difference, or `-1`. -/
def fractionOf (x y : ℚ) : ℚ := if x < y then x - y else if x = y then -1 else y - x

theorem fractionOf_of_lt {x y : ℚ} (h : x < y) : fractionOf x y = x - y := if_pos h

theorem fractionOf_self (x : ℚ) : fractionOf x x = -1 := by
  rw [fractionOf, if_neg (lt_irrefl x), if_pos rfl]

theorem fractionOf_of_gt {x y : ℚ} (h : y < x) : fractionOf x y = y - x := by
  rw [fractionOf, if_neg h.asymm, if_neg h.ne']

/-- The memory after the comparison. -/
theorem writeCase_spec {a b : Operand ν} (h : ReadAlike a b) {target : ν}
    (ha : a ≠ .var target) (hb : b ≠ .var target) (s : FloatName ν → ℚ) {x y : ℚ}
    (hx : floatValue s a = x) (hy : floatValue s b = y) :
    let s' := writeCase (.aux target .n) (.aux target .d) (.aux target .mlt) (.aux target .meq)
      (.aux target .mgt) (floatRef a) (floatRef b) s
    (∀ z, s' (.base z) = s (.base z)) ∧
      s' (.aux target .mlt) = (if x < y then 1 else 0) ∧
      s' (.aux target .meq) = (if x = y then 1 else 0) ∧
      s' (.aux target .mgt) = (if y < x then 1 else 0) ∧
      s' (.aux target .n) = (fractionOf x y).num ∧ s' (.aux target .d) = (fractionOf x y).den := by
  intro s'
  let W := writeCases (FloatName.aux target .mlt) (.aux target .meq) (.aux target .mgt)
  have hkeep : ∀ {c : Operand ν} (lt eq gt : ℚ), c ≠ .var target →
      floatValue (W lt eq gt s) c = floatValue s c := fun lt eq gt hc =>
    floatValue_congr hc fun z _ => writeCases_of_ne (by simp) (by simp) (by simp) lt eq gt s
  have hread : ∀ t : FloatName ν → ℚ,
      deref (scratch (floatRef a) (floatRef b)) t (floatRef a) = floatValue t a ∧
        deref (scratch (floatRef a) (floatRef b)) t (floatRef b) = floatValue t b :=
    deref_floatRef h
  have hwritten : s' = Function.update (Function.update (W (if x < y then 1 else 0)
      (if x = y then 1 else 0) (if y < x then 1 else 0) s) (.aux target .n)
      (fractionOf x y).num) (.aux target .d) (fractionOf x y).den := by
    simp only [s', writeCase, (hread _).1, (hread _).2, hx, hy]
    -- the code compares twice, once for each order
    rcases lt_trichotomy x y with hlt | rfl | hgt
    · rw [if_pos hlt, if_pos hlt, if_neg hlt.ne, if_neg hlt.asymm, fractionOf_of_lt hlt]
      change Function.update (Function.update (W 1 0 0 s) _
        (floatValue (W 1 0 0 s) a - floatValue (W 1 0 0 s) b).num) _
        (floatValue (W 1 0 0 s) a - floatValue (W 1 0 0 s) b).den = _
      rw [hkeep _ _ _ ha, hkeep _ _ _ hb, hx, hy]
    · have hnum : (((-1 : ℚ).num : ℤ) : ℚ) = -1 := by norm_num
      have hden : (((-1 : ℚ).den : ℕ) : ℚ) = 1 := by norm_num
      rw [if_neg (lt_irrefl x), if_pos rfl, if_pos rfl, fractionOf_self, hnum, hden,
        if_neg (lt_irrefl x)]
      rfl
    · rw [if_neg hgt.asymm, if_neg hgt.ne', if_neg hgt.ne', if_pos hgt, if_neg hgt.asymm,
        fractionOf_of_gt hgt]
      change Function.update (Function.update (W 0 0 1 s) _
        (floatValue (W 0 0 1 s) b - floatValue (W 0 0 1 s) a).num) _
        (floatValue (W 0 0 1 s) b - floatValue (W 0 0 1 s) a).den = _
      rw [hkeep _ _ _ ha, hkeep _ _ _ hb, hx, hy]
  rw [hwritten]
  refine ⟨fun z => ?_, ?_, ?_, ?_, ?_, ?_⟩ <;> simp [W, writeCases]

/-- The memory after the whole line. -/
theorem compareFloat_spec (Na Nb : ℕ) {a b : Operand ν} (h : ReadAlike a b) {target : ν}
    (ha : a ≠ .var target) (hb : b ≠ .var target) (s : FloatName ν → ℚ) {x y : ℚ}
    (hx : floatValue s a = x) (hy : floatValue s b = y) :
    let s' := compareFloat Na Nb a b target s
    let q := fractionOf x y
    (∀ z, z ≠ target → s' (.base z) = s (.base z)) ∧
      s' (.aux target .mlt) = (if x < y then 1 else 0) ∧
      s' (.aux target .meq) = (if x = y then 1 else 0) ∧
      s' (.aux target .mgt) = (if y < x then 1 else 0) ∧
      s' (.base target) = s' (.aux target .mlt) ∧
      s' (.aux target .n) = q.num ∧ s' (.aux target .d) = (q.den : ℚ)⁻¹ ∧
      s' (.aux target .nd) = q ∧
      (∀ i < Na, s' (.aux target (.nBit i)) =
        (((2 ^ Na + q.num).tdiv (2 ^ i)).tmod 2 * 2 ^ i : ℤ)) ∧
      ∀ i < Nb + 1, s' (.aux target (.dBit i)) = if q.den.testBit i then 1 else 0 := by
  intro s' q
  obtain ⟨hbase, hlt, heq, hgt, hn, hd⟩ := writeCase_spec h ha hb s hx hy
  have hnInj : Function.Injective fun i => (FloatName.aux target (.nBit i) : FloatName ν) := by
    intro i j hij
    simpa using hij
  have hdInj : Function.Injective fun i => (FloatName.aux target (.dBit i) : FloatName ν) := by
    intro i j hij
    simpa using hij
  simp only [s', compareFloat, computeLessThanFloat]
  generalize writeCase (.aux target .n) (.aux target .d) (.aux target .mlt) (.aux target .meq)
    (.aux target .mgt) (floatRef a) (floatRef b) s = t at *
  -- the bits of the numerator
  obtain ⟨-, hother, hnBits⟩ := forLoop_bitPass
    (fun i => (FloatName.aux target (.nBit i) : FloatName ν)) hnInj Na (2 ^ Na + q.num)
    (Function.update t (.base target) (t (.aux target .mlt)))
  have hnum : ((Function.update t (.base target) (t (.aux target .mlt))) (.aux target .n)).num =
      q.num := by
    rw [Function.update_of_ne (by simp), hn, Rat.num_intCast]
  rw [hnum]
  generalize (forLoop Na (bitPass fun i => (FloatName.aux target (.nBit i) : FloatName ν))
    (2 ^ Na + q.num, Function.update t (.base target) (t (.aux target .mlt)))).2 = t2 at *
  -- the flags of the denominator
  have hden : (t2 (.aux target .d)).num = (q.den : ℕ) := by
    rw [hother _ (by simp), Function.update_of_ne (by simp), hd, Rat.num_natCast]
  rw [hden]
  obtain ⟨hdBits, hother'⟩ := forLoop_flagPass hdInj q.den (Nb + 1) t2
  generalize (forLoop (Nb + 1) (flagPass fun i => (FloatName.aux target (.dBit i) : FloatName ν))
    ((q.den : ℕ), t2)).2 = t3 at *
  have hchain : ∀ c, (∀ i, c ≠ .aux target (.dBit i)) → (∀ i, c ≠ .aux target (.nBit i)) →
      t3 c = Function.update t (.base target) (t (.aux target .mlt)) c := fun c hc hc' => by
    rw [hother' c fun i _ => hc i, hother c fun i _ => hc' i]
  have hn3 : t3 (.aux target .n) = q.num := by
    rw [hchain _ (by simp) (by simp), Function.update_of_ne (by simp), hn]
  have hd3 : t3 (.aux target .d) = q.den := by
    rw [hchain _ (by simp) (by simp), Function.update_of_ne (by simp), hd]
  refine ⟨fun z hz => ?_, ?_, ?_, ?_, ?_, ?_, ?_, ?_, fun i hi => ?_, fun i hi => ?_⟩
  · rw [Function.update_of_ne (by simp), Function.update_of_ne (by simp),
      hchain _ (by simp) (by simp), Function.update_of_ne (by simpa using hz), hbase]
  · rw [Function.update_of_ne (by simp), Function.update_of_ne (by simp),
      hchain _ (by simp) (by simp), Function.update_of_ne (by simp), hlt]
  · rw [Function.update_of_ne (by simp), Function.update_of_ne (by simp),
      hchain _ (by simp) (by simp), Function.update_of_ne (by simp), heq]
  · rw [Function.update_of_ne (by simp), Function.update_of_ne (by simp),
      hchain _ (by simp) (by simp), Function.update_of_ne (by simp), hgt]
  · rw [Function.update_of_ne (by simp), Function.update_of_ne (by simp),
      hchain _ (by simp) (by simp), Function.update_self, Function.update_of_ne (by simp),
      Function.update_of_ne (by simp), hchain _ (by simp) (by simp),
      Function.update_of_ne (by simp)]
  · rw [Function.update_of_ne (by simp), Function.update_of_ne (by simp), hn3]
  · rw [Function.update_of_ne (by simp), Function.update_self, hd3]
  · rw [Function.update_self, Function.update_self, Function.update_of_ne (by simp), hn3, hd3,
      ← div_eq_mul_inv, Rat.num_div_den]
  · rw [Function.update_of_ne (by simp), Function.update_of_ne (by simp),
      hother' _ (by simp), hnBits i hi]
    push_cast
    rfl
  · rw [Function.update_of_ne (by simp), Function.update_of_ne (by simp), hdBits i hi]

end Written

/-! ## The constraints of the same line -/

section Line

variable {ν : Type u} {p : ℕ} [Fact p.Prime]

/-- The residues of the names. -/
def residues (p : ℕ) (s : FloatName ν → ℚ) : FloatName ν → ZMod p := fun x =>
  (convertToZ 0 (s x) p : ℤ)

theorem residues_eq_cast {s : FloatName ν → ℚ} {x : FloatName ν} (h : Convertible p (s x)) :
    residues p s x = (s x : ZMod p) := cast_convertToZ h

theorem residues_of_int {s : FloatName ν → ℚ} {x : FloatName ν} {n : ℤ} (h : s x = n) :
    residues p s x = n := by
  rw [residues_eq_cast (h ▸ Pepper.Common.ConstraintGen.convertible_intCast n), h, Rat.cast_intCast]

theorem convertible_of_den_dvd (htwo : (2 : ZMod p) ≠ 0) {q : ℚ} {k : ℕ} (h : q.den ∣ 2 ^ k) :
    Convertible p q := by
  refine Convertible.of_dvd ?_ h
  rw [Nat.cast_pow, Nat.cast_ofNat]
  exact pow_ne_zero k htwo

/-- The fraction is negative, with a numerator and a denominator that the bits hold. -/
theorem fractionOf_spec {Na Nb : ℕ} {x y : ℚ} (hx : x.den ∣ 2 ^ Nb) (hy : y.den ∣ 2 ^ Nb)
    (hxy : |(x - y).num| ≤ 2 ^ Na) :
    -2 ^ Na ≤ (fractionOf x y).num ∧ (fractionOf x y).num < 0 ∧
      ∃ j ≤ Nb, (fractionOf x y).den = 2 ^ j := by
  obtain ⟨hlow, hhigh⟩ := abs_le.1 hxy
  rcases lt_trichotomy x y with hlt | rfl | hgt
  · rw [fractionOf_of_lt hlt]
    exact ⟨hlow, Rat.num_neg.2 (sub_neg.2 hlt), sub_den_eq hx hy⟩
  · rw [fractionOf_self]
    have hpos : (1 : ℤ) ≤ 2 ^ Na := one_le_pow₀ (by norm_num)
    exact ⟨by norm_num; linarith, by norm_num, 0, Nat.zero_le _, by norm_num⟩
  · rw [fractionOf_of_gt hgt]
    have hnum : (y - x).num = -(x - y).num := by rw [← Rat.num_neg_eq_neg_num, neg_sub]
    refine ⟨by rw [hnum]; linarith, Rat.num_neg.2 (sub_neg.2 hgt), ?_⟩
    exact sub_den_eq hy hx

/-- A number of `k` bits from its bits modulo the prime. -/
theorem sum_bits_cast (k : ℕ) {t : ℤ} (ht : 0 ≤ t) (hlt : t < 2 ^ k) :
    ∑ i ∈ Finset.range k, (((t.tdiv (2 ^ i)).tmod 2 * 2 ^ i : ℤ) : ZMod p) = t := by
  rw [← Int.cast_sum, sum_bits, Int.tdiv_eq_zero_of_lt ht hlt, mul_zero, sub_zero]

/-- A flag is the same number modulo the prime. -/
theorem residues_ite {s : FloatName ν → ℚ} {z : FloatName ν} {P : Prop} [Decidable P]
    (hz : s z = if P then 1 else 0) : residues p s z = if P then 1 else 0 := by
  by_cases hP : P
  · rw [if_pos hP] at hz ⊢
    rw [residues_of_int (n := 1) (by rw [hz, Int.cast_one]), Int.cast_one]
  · rw [if_neg hP] at hz ⊢
    rw [residues_of_int (n := 0) (by rw [hz, Int.cast_zero]), Int.cast_zero]

/-- An operand that is not the target has the residue that it had before the line. -/
theorem meaning_operand {s s' : FloatName ν → ℚ} {target : ν}
    (hbase : ∀ z, z ≠ target → s' (.base z) = s (.base z)) {c : Operand ν} {v : ℚ}
    (hc : c ≠ .var target) (hv : floatValue s c = v) (hconv : Convertible p v) :
    meaning (residues p s') (floatText c) = (v : ZMod p) := by
  have hkept := (floatValue_congr hc hbase).trans hv
  cases c with
  | var z =>
      have hcell : s' (.base z) = v := hkept
      rw [floatText, meaning_nameText, residues_eq_cast (hcell.symm ▸ hconv), hcell]
  | const n =>
      rw [floatText, meaning_constText, ← hkept]
      exact (Rat.cast_intCast n).symm

/-- The inverse of a power of two is the inverse of its residue. -/
theorem residues_inv_two_pow (htwo : (2 : ZMod p) ≠ 0) {s : FloatName ν → ℚ} {z : FloatName ν}
    {j : ℕ} (hz : s z = ((2 ^ j : ℕ) : ℚ)⁻¹) : residues p s z = ((2 : ZMod p) ^ j)⁻¹ := by
  have hden : (s z).den = 2 ^ j := by
    rw [hz, Rat.inv_natCast_den_of_pos (Nat.two_pow_pos j)]
  have hnum : (s z).num = 1 := by
    rw [hz, Rat.inv_natCast_num_of_pos (Nat.two_pow_pos j)]
  rw [residues_eq_cast (convertible_of_den_dvd htwo (dvd_of_eq hden)), Rat.cast_def, hden, hnum,
    Int.cast_one, one_div, Nat.cast_pow, Nat.cast_ofNat]

variable [DecidableEq ν]

/-- What the prover writes satisfies the constraints modulo the prime. -/
theorem lessThanFloat_complete {Na Nb : ℕ} (htwo : (2 : ZMod p) ≠ 0) {x y : ℚ}
    (hx : x.den ∣ 2 ^ Nb) (hy : y.den ∣ 2 ^ Nb) (hxy : |(x - y).num| ≤ 2 ^ Na)
    {a b : Operand ν} (h : ReadAlike a b) {target : ν} (ha : a ≠ .var target)
    (hb : b ≠ .var target) {s : FloatName ν → ℚ} (hvx : floatValue s a = x)
    (hvy : floatValue s b = y) :
    ∀ line ∈ lessThanAsBasicConstraintsF Na Nb (floatText a) (floatText b) target,
      meaning (residues p (compareFloat Na Nb a b target s)) line = 0 := by
  have hconvx := convertible_of_den_dvd htwo hx
  have hconvy := convertible_of_den_dvd htwo hy
  obtain ⟨hbase, hlt, heq, hgt, hout, hn, hd, hnd, hnBits, hdBits⟩ :=
    compareFloat_spec Na Nb h ha hb s hvx hvy
  obtain ⟨hlow, hneg, j, hj, hden⟩ := fractionOf_spec hx hy hxy
  generalize compareFloat Na Nb a b target s = s' at *
  -- the residues of what is written
  have hND : residues p s' (.aux target .nd) = (fractionOf x y : ZMod p) := by
    rw [residues_eq_cast (hnd.symm ▸ convertible_of_den_dvd htwo (dvd_of_eq hden)), hnd]
  have hfraction : (fractionOf x y : ZMod p) =
      (fractionOf x y).num * ((2 : ZMod p) ^ j)⁻¹ := by
    rw [Rat.cast_def, hden, div_eq_mul_inv, Nat.cast_pow, Nat.cast_ofNat]
  have hbits : ∀ i < Na, residues p s' (.aux target (.nBit i)) =
      (((2 ^ Na + (fractionOf x y).num).tdiv (2 ^ i)).tmod 2 * 2 ^ i : ℤ) := fun i hi =>
    residues_of_int (hnBits i hi)
  have hflags : ∀ i < Nb + 1, residues p s' (.aux target (.dBit i)) = if j = i then 1 else 0 := by
    intro i hi
    rw [residues_ite (hdBits i hi), hden, Nat.testBit_two_pow]
    simp only [decide_eq_true_eq]
  rw [lessThanFloat_satisfied_iff _ Na Nb (isFactor_floatText a) (isFactor_floatText b),
    meaning_operand hbase ha hvx hconvx, meaning_operand hbase hb hvy hconvy, residues_of_int hn,
    hND, residues_inv_two_pow htwo (hd.trans (by rw [hden])), residues_ite hlt, residues_ite heq,
    residues_ite hgt]
  have hmem : ∀ {i : ℕ}, i ∈ Finset.range (Nb + 1) → i < Nb + 1 := Finset.mem_range.1
  refine ⟨?_, ?_, ?_, ?_, ?_, ?_, ?_, ?_, ?_, ?_, ?_, ?_⟩
  -- the bits of the numerator, and their sum
  · intro i hi
    have hzero := ((Pepper.Libv.LessThan.bits_satisfied_iff Na
      (show 2 ^ Na + (fractionOf x y).num < 2 ^ Na by linarith)).2 (by linarith)).1 i hi
    rw [hbits i hi]
    exact_mod_cast congrArg (Int.cast : ℤ → ZMod p) hzero
  · rw [Finset.sum_congr rfl fun i hi => hbits i (Finset.mem_range.1 hi),
      sum_bits_cast Na (by linarith) (by linarith)]
    push_cast
    ring
  -- the flags of the denominator: the one at `j` is set
  · intro i hi
    rw [hflags i hi]
    split_ifs <;> simp
  · rw [Finset.sum_eq_single_of_mem j (Finset.mem_range.2 (Nat.lt_succ_of_le hj)),
      hflags j (Nat.lt_succ_of_le hj), if_pos rfl, mul_one]
    · rw [← Nat.sub_add_cancel hj, pow_add, mul_assoc,
        mul_inv_cancel₀ (pow_ne_zero j htwo), mul_one, Nat.sub_add_cancel hj]
    · intro i hi hne
      rw [hflags i (hmem hi), if_neg hne.symm, mul_zero]
  · rw [Finset.sum_congr rfl fun i hi => hflags i (hmem hi), Finset.sum_ite_eq,
      if_pos (Finset.mem_range.2 (Nat.lt_succ_of_le hj))]
  -- the cases
  · intro M hM
    simp only [List.mem_cons, List.not_mem_nil, or_false] at hM
    rcases hM with rfl | rfl | rfl
    · rw [residues_ite hlt]; split_ifs <;> simp
    · rw [residues_ite heq]; split_ifs <;> simp
    · rw [residues_ite hgt]; split_ifs <;> simp
  · rcases lt_trichotomy x y with hcase | rfl | hcase
    · simp [hcase, hcase.ne, hcase.asymm]
    · simp
    · simp [hcase, hcase.ne', hcase.asymm]
  · rw [hfraction]
  -- the difference of the operands in each case
  · split_ifs with hcase
    · rw [fractionOf_of_lt hcase, Rat.cast_sub_of_ne_zero hconvx hconvy]
      ring
    · rw [zero_mul]
  · split_ifs with hcase
    · rw [hcase, sub_self, mul_zero]
    · rw [zero_mul]
  · split_ifs with hcase
    · rw [fractionOf_of_gt hcase, Rat.cast_sub_of_ne_zero hconvy hconvx]
      ring
    · rw [zero_mul]
  · rw [← residues_ite hlt, residues, residues, hout]

/-- A comparison of rationals: what the prover writes satisfies the constraints modulo the prime,
and every assignment that satisfies them has the result of the comparison. -/
theorem lessThanFloat_spec {Na Nb : ℕ} (hp : 2 ^ (Na + Nb + 2) < p) {x y : ℚ}
    (hx : x.den ∣ 2 ^ Nb) (hy : y.den ∣ 2 ^ Nb) (hxy : |(x - y).num| ≤ 2 ^ Na)
    {a b : Operand ν} (h : ReadAlike a b) {target : ν} (ha : a ≠ .var target)
    (hb : b ≠ .var target) {s : FloatName ν → ℚ} (hvx : floatValue s a = x)
    (hvy : floatValue s b = y) :
    (∀ line ∈ lessThanAsBasicConstraintsF Na Nb (floatText a) (floatText b) target,
      meaning (residues p (compareFloat Na Nb a b target s)) line = 0) ∧
    ∀ ρ : FloatName ν → ZMod p,
      meaning ρ (floatText a) = ((convertToZ 0 x p : ℤ) : ZMod p) →
      meaning ρ (floatText b) = ((convertToZ 0 y p : ℤ) : ZMod p) →
      (∀ line ∈ lessThanAsBasicConstraintsF Na Nb (floatText a) (floatText b) target,
        meaning ρ line = 0) →
      ρ (.base target) = if x < y then 1 else 0 := by
  have htwo : (2 : ZMod p) ≠ 0 := two_ne_zero_of_lt hp
  refine ⟨lessThanFloat_complete htwo hx hy hxy h ha hb hvx hvy, fun ρ hρx hρy hsat => ?_⟩
  rw [cast_convertToZ (convertible_of_den_dvd htwo hx)] at hρx
  rw [cast_convertToZ (convertible_of_den_dvd htwo hy)] at hρy
  exact lessThanFloat_sound hp hx hy hxy (isFactor_floatText a) (isFactor_floatText b) target
    hρx hρy hsat

end Line

/-- One half and one, with one bit for the numerator and one for the denominator. -/
theorem lessThanFloat_half :
    (∀ line ∈ lessThanAsBasicConstraintsF 1 1 (floatText (.var 0)) (floatText (.const 1)) 2,
      meaning (residues 17 (compareFloat 1 1 (.var 0) (.const 1) 2 fun _ => (1 / 2 : ℚ))) line =
        0) ∧
    ∀ ρ : FloatName ℕ → ZMod 17,
      meaning ρ (floatText (.var 0)) = ((convertToZ 0 (1 / 2) (17 : ℕ) : ℤ) : ZMod 17) →
      meaning ρ (floatText (.const 1)) = ((convertToZ 0 1 (17 : ℕ) : ℤ) : ZMod 17) →
      (∀ line ∈ lessThanAsBasicConstraintsF 1 1 (floatText (.var 0)) (floatText (.const 1)) 2,
        meaning ρ line = 0) →
      ρ (.base 2) = if (1 / 2 : ℚ) < 1 then 1 else 0 := by
  have : Fact (Nat.Prime 17) := ⟨by norm_num⟩
  exact lessThanFloat_spec (p := 17) (by norm_num) (by norm_num) (by norm_num) (by norm_num)
    (fun c c' h => by simp at h) (by simp) (by simp) rfl (by simp [floatValue])

end Pepper.Libv.LessThanFloat
