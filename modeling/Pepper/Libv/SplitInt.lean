import Pepper.Cmtgkr.Layer
import Pepper.Libv.LessThan
import Pepper.Zcc.Split

/-!
# The honest prover of a split into bits

`computeSplitIntLe` is what the prover writes for a `SIL` line of the worksheet. A negative number
has `2 ^ N` added, its bits are divided off from the lowest on, and the highest bit of a signed
number is written by a branch of its own. The cells are counted from the renumbered first variable.

`split_spec` puts it together with the constraints of the same line: the bits satisfy them, and
no other assignment does.
-/

set_option autoImplicit false

open Pepper.Foundations Pepper.Foundations.Loop Pepper.Foundations.FieldBits Pepper.Zcc
open Pepper.Cmtgkr.Layer (convertToZ cast_convertToZ)
open Pepper.Libv.LessThan (Ref Operand)

namespace Pepper.Libv.SplitInt

universe u

/-! ## The prover -/

section Prover

variable {κ : Type u} [DecidableEq κ]

/-- `voc` for a single token. -/
def voc (s : κ → ℚ) : Ref κ → ℚ
  | .cell c => s c
  | .const q => q

/-- One pass of the loop that fills in the bits; the state is `temp` and the memory. -/
def splitPass (N : ℕ) (isSigned inIsNegative : Bool) (outputCell : ℕ → κ) (i : ℕ)
    (s : ℤ × (κ → ℚ)) : ℤ × (κ → ℚ) :=
  if i = N - 1 ∧ isSigned then
    (s.1, Function.update s.2 (outputCell i) (if inIsNegative then 1 else 0))
  else (s.1.tdiv 2, Function.update s.2 (outputCell i) (s.1.tmod 2 : ℤ))

/-- `compute_split_int_le`: `outputCell i` is the variable `i` places after the first one. -/
def computeSplitIntLe (isSigned : Bool) (N : ℕ) (input : Ref κ) (outputCell : ℕ → κ)
    (s : κ → ℚ) : κ → ℚ :=
  let temp := (voc s input).num
  let inIsNegative := decide (temp < 0)
  (forLoop N (splitPass N isSigned inIsNegative outputCell)
    (if inIsNegative then temp + 2 ^ N else temp, s)).2

theorem tdiv_two (S k : ℕ) : ((S / 2 ^ k : ℕ) : ℤ).tdiv 2 = ((S / 2 ^ (k + 1) : ℕ) : ℤ) := by
  rw [pow_succ, ← Nat.div_div_eq_div_mul]
  rfl

theorem tmod_two (S k : ℕ) :
    ((((S / 2 ^ k : ℕ) : ℤ).tmod 2 : ℤ) : ℚ) = if S.testBit k then 1 else 0 := by
  have hmod : ((S / 2 ^ k : ℕ) : ℤ).tmod 2 = ((S / 2 ^ k % 2 : ℕ) : ℤ) := rfl
  rw [hmod, Nat.testBit_eq_decide_div_mod_eq]
  rcases Nat.mod_two_eq_zero_or_one (S / 2 ^ k) with h | h <;> simp [h]

/-- The loop writes the bits of `S`, if the branch for the sign writes the highest one. -/
theorem forLoop_splitPass {N S : ℕ} {isSigned inIsNegative : Bool}
    (htop : isSigned → S.testBit (N - 1) = inIsNegative) {outputCell : ℕ → κ}
    (hinj : Function.Injective outputCell) (s : κ → ℚ) {k : ℕ} (hk : k ≤ N) :
    (k < N → (forLoop k (splitPass N isSigned inIsNegative outputCell) (S, s)).1 =
        (S / 2 ^ k : ℕ)) ∧
      (∀ i < k, (forLoop k (splitPass N isSigned inIsNegative outputCell) (S, s)).2
        (outputCell i) = if S.testBit i then 1 else 0) ∧
      ∀ c, (∀ i < k, c ≠ outputCell i) →
        (forLoop k (splitPass N isSigned inIsNegative outputCell) (S, s)).2 c = s c := by
  induction k with
  | zero => simp
  | succ k ih =>
      obtain ⟨htemp, hbits, hother⟩ := ih (Nat.le_of_succ_le hk)
      have htemp := htemp (Nat.lt_of_succ_le hk)
      rw [forLoop_succ]
      generalize forLoop k (splitPass N isSigned inIsNegative outputCell) (S, s) = t at *
      -- both branches write bit `k`
      have hpass : (splitPass N isSigned inIsNegative outputCell k t).2 =
          Function.update t.2 (outputCell k) (if S.testBit k then 1 else 0) := by
        by_cases hbranch : k = N - 1 ∧ isSigned = true
        · obtain ⟨rfl, hsigned⟩ := hbranch
          rw [splitPass, if_pos ⟨rfl, hsigned⟩, ← htop hsigned]
        · rw [splitPass, if_neg hbranch, htemp, tmod_two]
      rw [hpass]
      refine ⟨fun hlt => ?_, fun i hi => ?_, fun c hc => ?_⟩
      · have hnotTop : ¬(k = N - 1 ∧ isSigned = true) := fun h => by omega
        rw [splitPass, if_neg hnotTop, htemp, tdiv_two]
      · rcases Nat.lt_succ_iff_lt_or_eq.1 hi with hlt | rfl
        · rw [Function.update_of_ne (fun h => hlt.ne (hinj h)), hbits i hlt]
        · rw [Function.update_self]
      · rw [Function.update_of_ne (hc k (Nat.lt_succ_self k))]
        exact hother c fun i hi => hc i (Nat.lt_succ_of_lt hi)

/-- The prover writes the two's complement of an operand in range and nothing else. -/
theorem computeSplitIntLe_spec {isSigned : Bool} {N : ℕ} (hN : 1 ≤ N) {x : ℤ}
    (hx : InRange isSigned N x) {input : Ref κ} {outputCell : ℕ → κ}
    (hinj : Function.Injective outputCell) {s : κ → ℚ} (hvalue : voc s input = x) :
    (∀ i < N, computeSplitIntLe isSigned N input outputCell s (outputCell i) =
      if (wordOf N x).testBit i then 1 else 0) ∧
    ∀ c, (∀ i < N, c ≠ outputCell i) → computeSplitIntLe isSigned N input outputCell s c = s c := by
  have hword := cast_wordOf hN hx
  have htop : isSigned → (wordOf N x).testBit (N - 1) = decide (x < 0) := by
    rintro rfl
    exact testBit_wordOf_top hN hx
  have hrun := (forLoop_splitPass htop hinj s (le_refl N)).2
  rw [hword] at hrun
  simpa only [computeSplitIntLe, hvalue, Rat.num_intCast, decide_eq_true_eq] using hrun

end Prover

/-! ## A line of the worksheet -/

/-- An operand in a constraint. -/
def factorText : Operand SpecName → Text SpecName
  | .var x => nameText x
  | .const c => constText c

theorem isFactor_factorText (x : Operand SpecName) : IsFactor (factorText x) := by
  cases x with
  | var x => exact .name x
  | const c => exact .const c

/-- `generate_computation_split`, the operand: a name is renumbered. -/
def operandRef (d : Declarations) : Operand SpecName → Ref Cell
  | .var x => .cell (d.toVar x)
  | .const c => .const c

/-- The index after `Y0 V`. -/
def outputStart (d : Declarations) (start : ℕ) : ℕ := (d.variableVars.lookup start).getD start

/-- The memory after the worksheet line of `SIL (int | uint) bits N X x Y0 V`. -/
def runSplit (d : Declarations) (signed : Bool) (N : ℕ) (x : Operand SpecName) (start : ℕ)
    (s : Cell → ℚ) : Cell → ℚ :=
  computeSplitIntLe signed N (operandRef d x) (fun i => .v (outputStart d start + i)) s

/-- The residues of the names of a spec. -/
def residues (d : Declarations) (p : ℕ) (s : Cell → ℚ) : SpecName → ZMod p := fun x =>
  (convertToZ 0 (s (d.toVar x)) p : ℤ)

/-- The operand of a split: a constant, or a declared name that is not one of the bits. -/
def ProperOperand (d : Declarations) (start N : ℕ) : Operand SpecName → Prop
  | .var x => d.Declares x ∧ ∀ i < N, x ≠ .var (start + i)
  | .const _ => True

section Line

variable {p : ℕ} [Fact p.Prime]

theorem residues_of_int {d : Declarations} {s : Cell → ℚ} {x : SpecName} {n : ℤ}
    (h : s (d.toVar x) = n) : residues d p s x = n := by
  rw [residues, h, cast_convertToZ 0 (Rat.den_intCast n), Rat.num_intCast]

/-- Split into bits: what the prover writes satisfies the constraints of the line, and every
assignment modulo `p` that satisfies them has the same bits, those of the two's complement. The
spec declares the bits one after the other. -/
theorem split_spec {signed : Bool} {N : ℕ} (hN : 1 ≤ N) (hp : 2 ^ (N + 1) < p) {v : ℤ}
    (hv : InRange signed N v) {d : Declarations} {start : ℕ} (hrun : d.DeclaresRun start N)
    {x : Operand SpecName} (hx : ProperOperand d start N x) {s : Cell → ℚ}
    (hvalue : voc s (operandRef d x) = v) :
    (∀ i < N, runSplit d signed N x start s (d.toVar (.var (start + i))) =
      if (wordOf N v).testBit i then 1 else 0) ∧
    (∀ line ∈ splitAsBasicConstraints signed N (factorText x) start,
      meaning (residues d p (runSplit d signed N x start s)) line = 0) ∧
    ∀ ρ : SpecName → ZMod p, meaning ρ (factorText x) = v →
      (∀ line ∈ splitAsBasicConstraints signed N (factorText x) start, meaning ρ line = 0) →
      ∀ i < N, ρ (.var (start + i)) =
        residues d p (runSplit d signed N x start s) (.var (start + i)) := by
  -- the bits are consecutive in the vector, whatever their order in the program
  obtain ⟨first, hcells⟩ := Declarations.toVar_consecutive hrun
  have hstart : outputStart d start = first := Cell.v.inj (hcells 0 hN)
  have hinj : Function.Injective fun i => Cell.v (outputStart d start + i) := by
    intro i j h
    exact Nat.add_left_cancel (Cell.v.inj h)
  obtain ⟨hwritten, hkept⟩ := computeSplitIntLe_spec hN hv hinj hvalue
  have hbits : ∀ i < N, runSplit d signed N x start s (d.toVar (.var (start + i))) =
      if (wordOf N v).testBit i then 1 else 0 := by
    intro i hi
    rw [hcells i hi, ← hstart]
    exact hwritten i hi
  -- zero and one are their own residues
  have hresidues : ∀ i < N, residues d p (runSplit d signed N x start s) (.var (start + i)) =
      if (wordOf N v).testBit i then 1 else 0 := by
    intro i hi
    have hbit := hbits i hi
    split_ifs at hbit ⊢
    · rw [residues_of_int (n := 1) (by rw [hbit]; rfl), Int.cast_one]
    · rw [residues_of_int (n := 0) (by rw [hbit]; rfl), Int.cast_zero]
  -- the operand is none of the bits, so it kept its value
  have hoperand : meaning (residues d p (runSplit d signed N x start s)) (factorText x) = v := by
    cases x with
    | const c =>
        have hc : (c : ℚ) = v := hvalue
        rw [factorText, meaning_constText, Int.cast_inj.1 hc]
    | var y =>
        rw [factorText, meaning_nameText]
        refine residues_of_int ((hkept (d.toVar y) fun i hi hsame => ?_).trans hvalue)
        refine hx.2 i hi (Declarations.toVar_injective hx.1 (hrun.declares hi) ?_)
        rw [hcells i hi, hsame, hstart]
  refine ⟨hbits, ?_, fun ρ hρ hsat i hi => ?_⟩
  · exact split_complete hN hv (isFactor_factorText x) start hoperand hresidues
  · rw [hresidues i hi, split_sound hN hp hv (isFactor_factorText x) start hρ hsat i hi]

end Line

/-- An input and three variables, of which the last two are bits. -/
def oneInput : Declarations where
  inputs := [0]
  outputs := []
  vars := [7, 8, 9]

/-- The bits of `-1` as a signed number of two bits. -/
theorem split_spec_minusOne :
    (∀ i < 2, runSplit oneInput true 2 (.var (.input 0)) 8 (fun _ => -1)
        (oneInput.toVar (.var (8 + i))) = if (wordOf 2 (-1)).testBit i then 1 else 0) ∧
      ∀ line ∈ splitAsBasicConstraints true 2 (factorText (.var (.input 0))) 8,
        meaning (residues oneInput 11
          (runSplit oneInput true 2 (.var (.input 0)) 8 fun _ => -1)) line = 0 := by
  have : Fact (Nat.Prime 11) := ⟨by norm_num⟩
  have hrun : oneInput.DeclaresRun 8 2 := ⟨[7], [], by decide, by decide⟩
  have hx : ProperOperand oneInput 8 2 (.var (.input 0)) := ⟨List.mem_singleton.2 rfl, by simp⟩
  have hrange : InRange true 2 (-1) := by decide
  have hspec := split_spec (p := 11) (s := fun _ => -1) (by norm_num) (by norm_num) hrange hrun hx
    (by simp [voc, operandRef])
  exact ⟨hspec.1, hspec.2.1⟩

end Pepper.Libv.SplitInt
