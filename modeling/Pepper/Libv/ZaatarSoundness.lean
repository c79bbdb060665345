import Mathlib.FieldTheory.Finite.Basic
import Pepper.Crypto.DotProduct
import Pepper.Libv.ZaatarArgument

/-!
# Soundness of the Zaatar argument

Any two vectors as proof for each instance. A run that ends with the verdict `true` has found the
identity of polynomials at the points of all repetitions (`identityAt_of_beginPepper`); with a row
that does not hold, there are at most `2 * chi` such points. The public stream is a tape of field
elements, of which each repetition reads its own section, and `beginPepper_sound` counts the tapes.
-/

set_option autoImplicit false

open Polynomial
open Pepper.Common.Gmp Pepper.Foundations.Loop Pepper.Foundations.LinearPcp
open Pepper.Foundations.RootInterpolation
open Pepper.Libv.QuadraticProgram Pepper.Libv.Queries Pepper.Libv.DivisibilityTest
open Pepper.Libv.PlainQueries Pepper.Libv.Commitment Pepper.Libv.DrawnPoints
open Pepper.Libv.Consistency Pepper.Libv.RootOfUnity
open Pepper.Crypto.DotProduct (tapePrng)

namespace Pepper.Libv.ZaatarArgument

/-! ## Points of a wrong assignment -/

section Points

variable {p : ℕ} [Fact p.Prime] {q : Qap} {omega : ℤ}

/-- The proof vector has as many coefficients as there are rows. -/
theorem natDegree_proofPoly_lt (f2 : Vec) : (proofPoly p q f2).natDegree < q.sizeF2Vec := by
  refine Nat.lt_succ_of_le (natDegree_sum_le_of_forall_le _ _ fun i hi => ?_)
  exact (natDegree_C_mul_X_pow_le _ _).trans (Nat.le_of_lt_succ (Finset.mem_range.1 hi))

/-- The points of an identity that an assignment with a wrong row claims. -/
theorem card_identityAt_le (hω : IsPrimitiveRoot (omega : ZMod p) q.sizeF2Vec) {f1 f2 io : Vec}
    {j : ℕ} (hj : 1 ≤ j) (hjchi : j ≤ q.chi) (hrow : ¬ q.SatisfiesRow f1 io p j)
    (points : Finset (ZMod p)) (hpoints : ∀ x ∈ points, IdentityAt p q omega f1 f2 io x) :
    points.card ≤ 2 * q.chi := by
  by_contra hcard
  refine hrow ?_
  have hidentity := eq_mul_rowDivisor_of_points (Nat.succ_pos q.chi) hω
    (natDegree_proofPoly_lt f2) points (Nat.lt_of_not_le hcard) hpoints
  rw [satisfiesRow_iff_cast]
  exact rows_of_mul_rowDivisor hω hidentity hj (Nat.lt_succ_of_le hjchi)

/-- A run with the verdict `true`. -/
theorem identityAt_of_beginPepper {P : Prng} {r : Params} (hr : r.setup = Setup.init q omega p)
    (hω : IsPrimitiveRoot (omega : ZMod p) q.sizeF2Vec) (hlin : 0 < r.numRepsLin)
    (hpos : 0 < r.numRepetitions) {crypto : Crypto P} {privateAfterInput priv : P.State}
    {instances : ℕ → Instance}
    (haccept : beginPepper r crypto privateAfterInput priv instances = some true) {b rho : ℕ}
    (hb : b < r.batchSize) (hrho : rho < r.numRepetitions) :
    IdentityAt p q omega (instances b).f1 (instances b).f2 (instances b).io
      ((pointAt (Setup.init q omega p) r.numRepsLin rho crypto.pub : ℤ) : ZMod p) := by
  rcases queries_cases hr hω crypto privateAfterInput priv
    (commitmentQueries r.keys r.privBits r.setup crypto).1.conQ
    (commitmentQueries r.keys r.privBits r.setup crypto).2.conQ with
    ⟨-, hnone⟩ | ⟨-, v, w, hv, hw, hsim⟩
  · rw [beginPepper, hnone] at haccept
    cases haccept
  · obtain ⟨verdict, hverdict, hiff⟩ := beginPepper_of_queries hr hω hlin hpos instances hv hw hsim
    rw [haccept, Option.some_inj] at hverdict
    exact (hiff.1 hverdict.symm b hb).2 rho hrho

end Points

/-! ## The tape -/

theorem afterDraws_tape (prime : ℤ) (n : ℕ) (tape : ℕ → ℤ) :
    afterDraws (P := tapePrng) prime n tape = fun i => tape (n + i) := by
  induction n with
  | zero => exact funext fun i => congrArg tape (Nat.zero_add i).symm
  | succ n ih =>
      refine (afterDraws_add (P := tapePrng) prime n 1 tape).trans ?_
      refine (congrArg (afterDraws (P := tapePrng) prime 1) ih).trans ?_
      exact funext fun i => congrArg tape (by omega)

section Tape

variable {p numRepetitions numDraws : ℕ}

/-- The tape with `numDraws + 1` draws for each repetition. -/
def sectionTape (ω : Fin numRepetitions → Fin (numDraws + 1) → ZMod p) (i : ℕ) : ℤ :=
  if h : i / (numDraws + 1) < numRepetitions then
    ((ω ⟨i / (numDraws + 1), h⟩ ⟨i % (numDraws + 1), Nat.mod_lt i (Nat.succ_pos numDraws)⟩).val : ℤ)
  else 0

/-- The last draw of a section. -/
theorem sectionTape_last (ω : Fin numRepetitions → Fin (numDraws + 1) → ZMod p)
    (rho : Fin numRepetitions) :
    sectionTape ω (rho * (numDraws + 1) + numDraws) = ((ω rho (Fin.last numDraws)).val : ℤ) := by
  have hdiv : (rho * (numDraws + 1) + numDraws) / (numDraws + 1) = (rho : ℕ) :=
    Nat.div_eq_of_lt_le (by omega) (by rw [Nat.succ_mul]; omega)
  have hmod : (rho * (numDraws + 1) + numDraws) % (numDraws + 1) = numDraws :=
    Nat.mul_add_mod_of_lt (Nat.lt_succ_self numDraws)
  rw [sectionTape, dif_pos (by rw [hdiv]; exact rho.isLt)]
  congr 3
  · exact Fin.ext hdiv
  · exact Fin.ext hmod

/-- The point of a repetition is the last draw of its section. -/
theorem pointAt_sectionTape [Fact p.Prime] {q : Qap} {omega : ℤ} {numRepsLin : ℕ}
    (ω : Fin numRepetitions → Fin (numRepsLin * linDraws q + 1) → ZMod p)
    (rho : Fin numRepetitions) :
    ((pointAt (P := tapePrng) (Setup.init q omega p) numRepsLin rho (sectionTape ω) : ℤ) : ZMod p) =
      ω rho (Fin.last (numRepsLin * linDraws q)) := by
  have hlast := congrFun (afterDraws_tape (p : ℤ)
    (rho * (numRepsLin * linDraws q + 1) + numRepsLin * linDraws q) (sectionTape ω)) 0
  have hpoint : pointAt (P := tapePrng) (Setup.init q omega p) numRepsLin rho (sectionTape ω) =
      ((ω rho (Fin.last (numRepsLin * linDraws q))).val : ℤ) % (p : ℤ) :=
    congrArg (· % (p : ℤ)) (hlast.trans (sectionTape_last ω rho))
  rw [hpoint, ZMod.intCast_mod, Int.cast_natCast, ZMod.natCast_zmod_val]

end Tape

/-! ## The run -/

/-- With a row of some instance that does not hold, whatever the two proof vectors of the instances,
at most `(2 * chi) ^ numRepetitions` in `p ^ numRepetitions` of the public tapes end with the
verdict `true`. -/
theorem beginPepper_sound {p : ℕ} [Fact p.Prime] {q : Qap} {omega : ℤ} {r : Params}
    (hr : r.setup = Setup.init q omega p) {m : ℕ} (hm : 1 ≤ m) (hchi : q.chi + 1 = 2 ^ m)
    (hdvd : 2 ^ m ∣ p - 1) {draws : ℕ → ℤ} {fuel : ℕ} {powers : Vec}
    (homega : generateRootOfUnity draws fuel (2 ^ m) p = some (omega, powers))
    (hlin : 0 < r.numRepsLin) (privateStart privateAfterInput priv : ℕ → ℤ)
    (instances : ℕ → Instance) {b : ℕ} (hb : b < r.batchSize) {j : ℕ} (hj : 1 ≤ j)
    (hjchi : j ≤ q.chi) (hrow : ¬ q.SatisfiesRow (instances b).f1 (instances b).io p j) :
    let Tapes := Fin r.numRepetitions → Fin (roundDraws q r.numRepsLin) → ZMod p
    p ^ r.numRepetitions * Nat.card {ω : Tapes //
        beginPepper (P := tapePrng) r ⟨sectionTape ω, privateStart⟩ privateAfterInput priv
          instances = some true} ≤
      (2 * q.chi) ^ r.numRepetitions * Nat.card Tapes := by
  classical
  intro Tapes
  have hω : IsPrimitiveRoot (omega : ZMod p) q.sizeF2Vec := by
    rw [Qap.sizeF2Vec, hchi]
    exact isPrimitiveRoot_of_generate hm hdvd homega
  -- the points at which the claimed identity happens to hold
  let points : Finset (ZMod p) := Finset.univ.filter fun x =>
    IdentityAt p q omega (instances b).f1 (instances b).f2 (instances b).io x
  have hpoints : points.card ≤ 2 * q.chi :=
    card_identityAt_le hω hj hjchi hrow points fun x hx => (Finset.mem_filter.1 hx).2
  have hround : Rare (2 * q.chi) p fun ω : Fin (roundDraws q r.numRepsLin) → ZMod p =>
      ω (Fin.last (r.numRepsLin * linDraws q)) ∈ points := by
    have hrare := rare_mem (Fin.last (r.numRepsLin * linDraws q)) points
    rw [Nat.card_zmod] at hrare
    exact hrare.weaken hpoints
  refine (Rare.all fun _ : Fin r.numRepetitions => hround).mono fun ω haccept rho => ?_
  have hidentity := identityAt_of_beginPepper hr hω hlin (Nat.lt_of_le_of_lt (Nat.zero_le rho)
    rho.isLt) haccept hb rho.isLt
  rw [pointAt_sectionTape ω rho] at hidentity
  exact Finset.mem_filter.2 ⟨Finset.mem_univ _, hidentity⟩

/-! ## An instance -/

/-- One row makes a second vector of length two, an `int`. -/
theorem oneRow_sizeF2_int : 1 + 1 < 2 ^ 31 := by norm_num

/-- The program with the single row `v * v - w = 0`. -/
def squareQap : Qap where
  nPrime := 2
  sizeInput := 0
  sizeOutput := 0
  chi := 1
  polyA := [⟨1, 1, 1⟩]
  polyB := [⟨1, 1, 1⟩]
  polyC := [⟨2, 1, -1⟩]
  sizeF2_int := oneRow_sizeF2_int
  polyA_inRange := by decide
  polyB_inRange := by decide
  polyC_inRange := by decide

/-- Two repetitions for one instance of `squareQap`. -/
def squareParams : Params where
  keys := keys101
  privBits := 4
  setup := Setup.init squareQap 4 (5 : ℕ)
  numRepetitions := 2
  numRepsLin := 1
  numVerificationRuns := 1
  batchSize := 1

/-- With `v = w = 2` at most four in twenty-five tapes are accepted. -/
theorem beginPepper_squareQap :
    5 ^ 2 * Nat.card {ω : Fin 2 → Fin (roundDraws squareQap 1) → ZMod 5 //
        beginPepper (P := tapePrng) squareParams ⟨sectionTape ω, fun i => i⟩ (fun i => i) zeroVec
          (fun _ => ⟨zeroVec, fun _ => 2, fun _ => 1⟩) = some true} ≤
      (2 * 1) ^ 2 * Nat.card (Fin 2 → Fin (roundDraws squareQap 1) → ZMod 5) := by
  have homega : generateRootOfUnity (fun _ => 2) 1 (2 ^ 1) (5 : ℕ) =
      some (4, Roots.powersOfOmega 2 4 5) := rfl
  have hsetup : squareParams.setup = Setup.init squareQap 4 (5 : ℕ) := rfl
  have hrow : ¬ squareQap.SatisfiesRow (fun _ => 2) zeroVec (5 : ℕ) 1 := by decide
  exact beginPepper_sound hsetup le_rfl rfl (by decide) homega one_pos (fun i => i) (fun i => i)
    zeroVec (fun _ => ⟨zeroVec, fun _ => 2, fun _ => 1⟩) (b := 0) one_pos le_rfl le_rfl hrow

end Pepper.Libv.ZaatarArgument
