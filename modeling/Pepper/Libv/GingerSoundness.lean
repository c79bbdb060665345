import Mathlib.Tactic.DeriveFintype
import Pepper.Libv.LinearProofs

/-!
# Soundness of the Ginger tests

Any two vectors as proof. What one repetition checks of them is a correction test and an equation
that is linear in the weights (`runRepetition_iff`); with a constraint that does not hold, either
the second vector lacks a product or the equation has a coefficient other than zero. So at most two
in `p` of the draws of a repetition accept, and `gingerTests_sound` counts all repetitions.
-/

set_option autoImplicit false

open Pepper.Common.Gmp Pepper.Foundations Pepper.Foundations.Loop Pepper.Foundations.LinearPcp
open Pepper.Libv.Queries Pepper.Libv.Evaluation Pepper.Libv.LinearProofs Pepper.Libv.GammaFile
open Pepper.Zcc

namespace Pepper.Libv.GingerTests

universe u

/-! ## Draws -/

/-- The draws of one repetition: the weight of each constraint, and the cells of two queries to each
of the vectors in every linearity test. -/
inductive Draw (numCons n numRepsLin : ℕ) where
  | alpha (c : Fin numCons)
  | l1 (i : Fin numRepsLin) (k : Fin n)
  | l2 (i : Fin numRepsLin) (k : Fin n)
  | m1 (i : Fin numRepsLin) (k : Fin (n * n))
  | m2 (i : Fin numRepsLin) (k : Fin (n * n))
deriving DecidableEq, Fintype

section Coins

variable {p numCons n numRepsLin : ℕ} [Fact p.Prime]

/-- The weights and the queries that have been drawn. -/
def drawnCoins (ω : Draw numCons n numRepsLin → ZMod p) : Coins where
  alpha := drawnVec fun c => ω (.alpha c)
  l1 := fun i => if h : i < numRepsLin then drawnVec fun k => ω (.l1 ⟨i, h⟩ k) else zeroVec
  l2 := fun i => if h : i < numRepsLin then drawnVec fun k => ω (.l2 ⟨i, h⟩ k) else zeroVec
  m1 := fun i => if h : i < numRepsLin then drawnVec fun k => ω (.m1 ⟨i, h⟩ k) else zeroVec
  m2 := fun i => if h : i < numRepsLin then drawnVec fun k => ω (.m2 ⟨i, h⟩ k) else zeroVec

/-- The coins of all repetitions; beyond the last there are none. -/
def allCoins {numRepetitions : ℕ}
    (ω : Fin numRepetitions → Draw numCons n numRepsLin → ZMod p) (rho : ℕ) : Coins :=
  if h : rho < numRepetitions then drawnCoins (ω ⟨rho, h⟩)
  else ⟨zeroVec, fun _ => zeroVec, fun _ => zeroVec, fun _ => zeroVec, fun _ => zeroVec⟩

end Coins

/-! ## One repetition -/

section Repetition

variable {p : ℕ} [Fact p.Prime] {n : ℕ} {F1 F2 : Vec}

/-- A vector passes all linearity tests; the others are the correction test and an equation. -/
theorem runRepetition_iff {numRepsLin : ℕ} (hlin : 0 < numRepsLin) (gamma : Vec × Vec) (s : Coins)
    (cValue : ℤ) :
    runRepetition numRepsLin (answer n numRepsLin p gamma F1 F2 s) cValue p = true ↔
      corrTest (dotProduct n (s.l1 0) F1) (dotProduct n (s.l2 0) F1)
          (dotProduct (n * n)
            (createCorrTestQueriesReuse n n (s.l1 0) (s.l2 0) (s.m1 0) p zeroVec) F2)
          (dotProduct (n * n) (s.m1 0) F2) p = true ∧
        ((cValue + dotProduct n gamma.1 F1 + dotProduct (n * n) gamma.2 F2 : ℤ) : ZMod p) = 0 := by
  have hfirst : ∀ k, k < numLinQueries →
      answer n numRepsLin p gamma F1 F2 s k = linAnswer n F1 F2 s 0 k := by
    intro k hk
    have h := answer_lin n numRepsLin p gamma F1 F2 s hlin hk
    rwa [Nat.zero_mul, Nat.zero_add] at h
  have hlinTests : forLoop numRepsLin (fun i result =>
      result && linTest (answer n numRepsLin p gamma F1 F2 s (i * numLinQueries))
          (answer n numRepsLin p gamma F1 F2 s (i * numLinQueries + 1))
          (answer n numRepsLin p gamma F1 F2 s (i * numLinQueries + 2)) p
        && linTest (answer n numRepsLin p gamma F1 F2 s (i * numLinQueries + 3))
          (answer n numRepsLin p gamma F1 F2 s (i * numLinQueries + 4))
          (answer n numRepsLin p gamma F1 F2 s (i * numLinQueries + 5)) p) true = true := by
    refine forLoop_induction (P := fun _ b => b = true) rfl ?_
    rintro i hi b rfl
    have h := fun k hk => answer_lin n numRepsLin p gamma F1 F2 s hi (k := k) hk
    have h0 := h 0 (by decide)
    rw [Nat.add_zero] at h0
    rw [h0, h 1 (by decide), h 2 (by decide), h 3 (by decide), h 4 (by decide), h 5 (by decide)]
    simp [linTest, linAnswer]
  have h7 := answer_test n numRepsLin p gamma F1 F2 s 0
  rw [Nat.add_zero] at h7
  simp only [runRepetition, hlinTests, Bool.true_and, Bool.and_eq_true]
  refine and_congr ?_ ?_
  · rw [hfirst 0 (by decide), hfirst 1 (by decide), hfirst 3 (by decide), h7]
    rfl
  · -- the two shifts are taken off again
    rw [cktTest, decide_eq_true_eq]
    change (cValue + (answer n numRepsLin p gamma F1 F2 s (numRepsLin * numLinQueries + 1) -
        answer n numRepsLin p gamma F1 F2 s 0) +
      (answer n numRepsLin p gamma F1 F2 s (numRepsLin * numLinQueries + 2) -
        answer n numRepsLin p gamma F1 F2 s 3)) % (p : ℤ) = 0 ↔ _
    rw [answer_test, answer_test, hfirst 0 (by decide), hfirst 3 (by decide),
      ← Int.zero_emod (p : ℤ), emod_eq_emod_iff, Int.cast_zero]
    simp only [linAnswer, testAnswer]
    refine Eq.congr_left ?_
    push_cast
    rw [cast_cktTestQueries_dot, cast_cktTestQueries_dot]
    ring

omit [Fact p.Prime] in
/-- The verdict on a proof that is two vectors. -/
theorem runTests_iff {numRepetitions numRepsLin : ℕ} (hlin : 0 < numRepsLin)
    (gamma : ℕ → Vec × Vec) (c : Vec) (coins : ℕ → Coins) :
    runCorrectionAndCircuitTests numRepetitions numRepsLin
        (fun k => answer n numRepsLin p (gamma (k / numLinPcpQueries numRepsLin)) F1 F2
          (coins (k / numLinPcpQueries numRepsLin)) (k % numLinPcpQueries numRepsLin)) c p = true ↔
      ∀ rho < numRepetitions,
        runRepetition numRepsLin (answer n numRepsLin p (gamma rho) F1 F2 (coins rho)) (c rho) p =
          true := by
  have hrep : ∀ rho, runRepetition numRepsLin
      (fun k => answer n numRepsLin p
        (gamma ((rho * numLinPcpQueries numRepsLin + k) / numLinPcpQueries numRepsLin)) F1 F2
        (coins ((rho * numLinPcpQueries numRepsLin + k) / numLinPcpQueries numRepsLin))
        ((rho * numLinPcpQueries numRepsLin + k) % numLinPcpQueries numRepsLin)) (c rho) p =
      runRepetition numRepsLin (answer n numRepsLin p (gamma rho) F1 F2 (coins rho)) (c rho) p := by
    intro rho
    refine runRepetition_congr hlin (fun k hk => ?_) _ _
    rw [block_div hk, Nat.mul_add_mod_of_lt hk]
  rw [runCorrectionAndCircuitTests]
  refine forLoop_induction (P := fun k b => b = true ↔ ∀ rho < k,
    runRepetition numRepsLin (answer n numRepsLin p (gamma rho) F1 F2 (coins rho)) (c rho) p =
      true) (iff_of_true rfl fun rho h => absurd h (Nat.not_lt_zero rho)) ?_
  intro k _ b hb
  rw [Bool.and_eq_true, hb, hrep, Nat.forall_lt_succ_right]

end Repetition

/-! ## Constraints that do not hold -/

section Sound

variable {ν : Type u} [LinearOrder ν] {p : ℕ} [Fact p.Prime]

/-- The draws of one repetition accept rarely. -/
theorem rare_runRepetition {D : Decls ν} {spec : List (Text ν)} {g0 : List Gamma0Line}
    {g12 : List Gamma12Line} (hin : ∀ l ∈ g12, l.InRange D.vars.length)
    (hsum : ∀ (alpha : Vec) (io f1 : ℕ → ZMod p),
      (g0.map (gamma0Value alpha io)).sum + (g12.map (gamma12Value alpha f1)).sum =
        ∑ c ∈ Finset.range spec.length,
          (alpha (0 + c) : ZMod p) * meaning (D.nameValue io f1) (spec.getD c .nil))
    {F1Index : ℕ → ℕ} (hindex : ∀ i < D.vars.length, F1Index i < D.vars.length) (io F1 F2 : Vec)
    {numRepsLin : ℕ} (hlin : 0 < numRepsLin) {c : Fin spec.length}
    (hfails : constraintValue p D spec io (fun i => F1 (F1Index i)) c ≠ 0) :
    Rare 2 p fun ω : Draw spec.length D.vars.length numRepsLin → ZMod p =>
      runRepetition numRepsLin
        (answer D.vars.length numRepsLin p
          (gammaVectors D.vars.length F1Index (drawnCoins ω).alpha g12) F1 F2 (drawnCoins ω))
        (gammaConstant (drawnCoins ω).alpha io g0) p = true := by
  by_cases hF2 : IsProduct p D.vars.length D.vars.length F1 F1 F2
  · -- the equation has the constraints as coefficients
    have hrare := rare_linear (F := ZMod p) (ι := Draw spec.length D.vars.length numRepsLin)
      (x := .alpha) (fun _ _ h => Draw.alpha.inj h)
      (a := fun c => constraintValue p D spec io (fun i => F1 (F1Index i)) c) hfails 0
    rw [Nat.card_zmod] at hrare
    refine (hrare.weaken one_le_two).mono fun ω hω => ?_
    have hzero := ((runRepetition_iff hlin _ _ _).1 hω).2
    rw [cast_gamma_dot hin hsum hindex (fun i j hi hj => hF2 i hi j hj)] at hzero
    rw [zero_add, ← hzero]
    exact Finset.sum_congr rfl fun c _ => by rw [drawnCoins, cast_drawnVec]
  · -- the queries of the first linearity test find the missing product
    have hrare := rare_corrTest (p := p) (ι := Draw spec.length D.vars.length numRepsLin)
      (x := .l1 ⟨0, hlin⟩) (y := .l2 ⟨0, hlin⟩) (fun _ _ h => (Draw.l1.inj h).2)
      (fun _ _ h => (Draw.l2.inj h).2) (fun _ _ h => by cases h) hF2
      fun ω => (drawnCoins ω).m1 0
    refine hrare.mono fun ω hω => ?_
    have hcorr := ((runRepetition_iff hlin _ _ _).1 hω).1
    have h1 : (drawnCoins ω).l1 0 = drawnVec fun k => ω (.l1 ⟨0, hlin⟩ k) := dif_pos hlin
    have h2 : (drawnCoins ω).l2 0 = drawnVec fun k => ω (.l2 ⟨0, hlin⟩ k) := dif_pos hlin
    rw [h1, h2] at hcorr
    exact hcorr

/-- `V0`, by which the first variable is zero. -/
def zeroLine : Text ℕ := .atom (.name 0) .nil

theorem symbolic_zeroLine : symbolic zeroLine = MvPolynomial.X 0 := by
  simp [symbolic, meaning, zeroLine, BracketReader.run, meaningReader, Meaning.flush,
    Meaning.factor, Meaning.empty]

theorem zeroLine_canonical : Canonical ([⟨some 1, [0]⟩] : List (Term ℕ)) := by
  refine ⟨by decide, by simp, ?_⟩
  intro t ht
  obtain rfl := List.mem_singleton.1 ht
  exact ⟨1, rfl, by decide⟩

theorem zeroLine_termsValue :
    symbolic zeroLine = termsValue MvPolynomial.X [⟨some 1, [0]⟩] := by
  rw [symbolic_zeroLine]
  simp [termsValue, Term.value, Term.coeff]

theorem zeroLine_basic : BasicLine twoVars zeroLine := by
  refine basicLine_of_canonical zeroLine_canonical (by simp) zeroLine_termsValue ?_
  intro t ht
  obtain rfl := List.mem_singleton.1 ht
  exact BasicFactors.linear (x := 0) (by decide)

theorem zeroLine_fits : SpecFits twoVars [zeroLine] := by
  intro k line hk
  obtain ⟨rfl, rfl⟩ : k = 0 ∧ zeroLine = line := by
    cases k with
    | zero => exact ⟨rfl, by simpa using hk⟩
    | succ k => simp at hk
  refine support_fits_of_canonical zeroLine_canonical zeroLine_termsValue ?_
  intro t ht
  obtain rfl := List.mem_singleton.mp ht
  refine ⟨fun i hi => ?_, fun i hi => ?_⟩
  · rcases hi with hi | hi <;> cases hi
  · obtain rfl : 0 = i := Option.some.inj hi
    decide

end Sound

end Pepper.Libv.GingerTests
