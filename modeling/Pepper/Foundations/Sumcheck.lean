import Mathlib.Algebra.Polynomial.Roots
import Mathlib.Data.Fintype.BigOperators

/-!
# Round polynomials of a sum-check

A `RoundSystem` is what a sum-check protocol checks: the true partial sums after each
round and the round polynomials that link them. `badRound_of_accept` finds, in an
accepted run from a false claim, a round whose challenge is a root of the difference
of two polynomials; `card_accept_le` counts the challenge vectors for which this can
happen when no polynomial depends on the challenge it is checked with.
-/

set_option autoImplicit false

open Polynomial

namespace Pepper.Foundations.Sumcheck

universe u

variable {F : Type u} [Field F]

/-- True partial sums and round polynomials; the polynomial of round `k` depends on
the challenges before it. -/
structure RoundSystem (F : Type u) [Field F] (n d : ℕ) where
  claim : ℕ → (ℕ → F) → F
  poly : ℕ → (ℕ → F) → F[X]
  natDegree_le : ∀ k r, k < n → (poly k r).natDegree ≤ d
  claim_eq : ∀ k r, k < n → claim k r = (poly k r).eval 0 + (poly k r).eval 1
  claim_succ : ∀ k r, k < n → claim (k + 1) r = (poly k r).eval (r k)
  poly_congr : ∀ k r r', k < n → (∀ i < k, r i = r' i) → poly k r = poly k r'

namespace RoundSystem

variable {n d : ℕ} (T : RoundSystem F n d)

/-- The run of a verifier: what it expects after each round, when round `k` is
answered with the polynomial `sent k`. -/
def expected (c : F) (sent : ℕ → F[X]) (r : ℕ → F) : ℕ → F
  | 0 => c
  | k + 1 => (sent k).eval (r k)

/-- Against the true polynomials the verifier expects the true partial sums. -/
theorem expected_eq_claim {c : F} {r : ℕ → F} (hc : c = T.claim 0 r) {k : ℕ} (hk : k ≤ n) :
    expected c (fun k => T.poly k r) r k = T.claim k r := by
  cases k with
  | zero => exact hc
  | succ k => rw [T.claim_succ k r hk, expected]

/-- A run from a false claim that ends in the true one has a round in which two
different polynomials agree at the challenge. -/
theorem badRound_of_accept {c : F} {sent : ℕ → F[X]} {r : ℕ → F}
    (hsum : ∀ k < n, expected c sent r k = (sent k).eval 0 + (sent k).eval 1)
    (hfalse : c ≠ T.claim 0 r) (hend : expected c sent r n = T.claim n r) :
    ∃ k < n, sent k ≠ T.poly k r ∧ (sent k - T.poly k r).eval (r k) = 0 := by
  by_contra hnone
  push Not at hnone
  -- the difference to the truth survives every round
  have hrun : ∀ k ≤ n, expected c sent r k ≠ T.claim k r := by
    intro k
    induction k with
    | zero => exact fun _ => hfalse
    | succ k ih =>
        intro hk
        have hne : sent k ≠ T.poly k r := by
          intro heq
          apply ih (Nat.le_of_succ_le hk)
          rw [hsum k hk, heq, T.claim_eq k r hk]
        have heval := hnone k hk hne
        rw [eval_sub, sub_ne_zero] at heval
        rw [T.claim_succ k r hk]
        exact heval
  exact hrun n le_rfl hend

/-- Challenge vectors of length `n`, continued with zeros. -/
def extendChallenge {K : Type u} [Zero K] (r : Fin n → K) : ℕ → K :=
  fun i => if h : i < n then r ⟨i, h⟩ else 0

theorem extendChallenge_of_lt (r : Fin n → F) (k : Fin n) : extendChallenge r k = r k :=
  dif_pos k.2

section Count

variable [Fintype F] [DecidableEq F]

/-- Few challenges are roots of a polynomial that is fixed before round `k`. -/
theorem card_roots_le (k : Fin n) (q : (Fin n → F) → F[X])
    (hdeg : ∀ r, (q r).natDegree ≤ d)
    (hcongr : ∀ r r' : Fin n → F, (∀ i < k, r i = r' i) → q r = q r') :
    (Finset.univ.filter fun r : Fin n → F => q r ≠ 0 ∧ (q r).eval (r k) = 0).card ≤
      d * Fintype.card F ^ (n - 1) := by
  let rest : (Fin n → F) → ({j : Fin n // j ≠ k} → F) := fun r j => r j
  have hfiber : ∀ b ∈ (Finset.univ.filter fun r : Fin n → F =>
      q r ≠ 0 ∧ (q r).eval (r k) = 0).image rest,
      ((Finset.univ.filter fun r : Fin n → F => q r ≠ 0 ∧ (q r).eval (r k) = 0).filter
        fun r => rest r = b).card ≤ d := by
    intro b hb
    obtain ⟨r0, hr0, rfl⟩ := Finset.mem_image.1 hb
    have hq0 : q r0 ≠ 0 := (Finset.mem_filter.1 hr0).2.1
    -- in a fibre the polynomial is fixed and the challenge is one of its roots
    refine le_trans (Finset.card_le_card_of_injOn (t := (q r0).roots.toFinset) (fun r => r k)
      ?_ ?_) ((Multiset.toFinset_card_le _).trans ((card_roots' _).trans (hdeg r0)))
    · intro r hr
      obtain ⟨hmem, hrest⟩ := Finset.mem_filter.1 hr
      have hsame : q r = q r0 := hcongr r r0 fun i hi => congrFun hrest ⟨i, ne_of_lt hi⟩
      have hroot := (Finset.mem_filter.1 hmem).2.2
      rw [hsame] at hroot
      simp [hq0, hroot]
    · intro r hr r' hr' hk
      have hrest := (Finset.mem_filter.1 hr).2.trans (Finset.mem_filter.1 hr').2.symm
      funext i
      by_cases hi : i = k
      · rw [hi]
        exact hk
      · exact congrFun hrest ⟨i, hi⟩
  refine (Finset.card_le_mul_card_image _ d hfiber).trans (Nat.mul_le_mul_left d ?_)
  refine (Finset.card_le_univ _).trans (le_of_eq ?_)
  rw [Fintype.card_fun, Fintype.card_subtype_compl]
  simp

/-- Soundness: against polynomials that do not depend on the challenge of their round,
at most `n * d` in `card F` of the challenge vectors lead from a false claim to the
true one. -/
theorem card_accept_le (c : F) (sent : ℕ → (ℕ → F) → F[X])
    (hdeg : ∀ k r, k < n → (sent k r).natDegree ≤ d)
    (hsent : ∀ k r r', k < n → (∀ i < k, r i = r' i) → sent k r = sent k r')
    (hfalse : ∀ r, c ≠ T.claim 0 r) (accept : (Fin n → F) → Prop) [DecidablePred accept]
    (haccept : ∀ r, accept r →
      (∀ k < n, expected c (fun k => sent k (extendChallenge r)) (extendChallenge r) k =
        (sent k (extendChallenge r)).eval 0 + (sent k (extendChallenge r)).eval 1) ∧
      expected c (fun k => sent k (extendChallenge r)) (extendChallenge r) n =
        T.claim n (extendChallenge r)) :
    (Finset.univ.filter accept).card ≤ d * n * Fintype.card F ^ (n - 1) := by
  have hcover : Finset.univ.filter accept ⊆ Finset.univ.biUnion fun k : Fin n =>
      Finset.univ.filter fun r : Fin n → F =>
        sent k (extendChallenge r) - T.poly k (extendChallenge r) ≠ 0 ∧
          (sent k (extendChallenge r) - T.poly k (extendChallenge r)).eval (r k) = 0 := by
    -- an accepted run has a round whose polynomial is wrong and agrees at the challenge
    intro r hr
    obtain ⟨hsum, hend⟩ := haccept r (Finset.mem_filter.1 hr).2
    obtain ⟨k, hk, hne, hroot⟩ := T.badRound_of_accept hsum (hfalse _) hend
    refine Finset.mem_biUnion.2 ⟨⟨k, hk⟩, Finset.mem_univ _, Finset.mem_filter.2
      ⟨Finset.mem_univ _, sub_ne_zero.2 hne, ?_⟩⟩
    rw [← extendChallenge_of_lt r ⟨k, hk⟩]
    exact hroot
  -- both polynomials of a round are fixed by the challenges before it
  have hagree : ∀ (k : Fin n) (r r' : Fin n → F), (∀ i < k, r i = r' i) →
      ∀ i < (k : ℕ), extendChallenge r i = extendChallenge r' i := by
    intro k r r' h i hi
    have hin : i < n := hi.trans k.2
    rw [extendChallenge, extendChallenge, dif_pos hin, dif_pos hin]
    exact h ⟨i, hin⟩ hi
  calc (Finset.univ.filter accept).card
      ≤ ∑ k : Fin n, d * Fintype.card F ^ (n - 1) := by
        refine (Finset.card_le_card hcover).trans (Finset.card_biUnion_le.trans ?_)
        refine Finset.sum_le_sum fun k _ => ?_
        refine card_roots_le k
          (fun r => sent k (extendChallenge r) - T.poly k (extendChallenge r)) ?_ ?_
        · intro r
          exact (natDegree_sub_le _ _).trans
            (max_le (hdeg k _ k.2) (T.natDegree_le k _ k.2))
        · intro r r' h
          have hlow := hagree k r r' h
          rw [hsent k _ _ k.2 hlow, T.poly_congr k _ _ k.2 hlow]
    _ = d * n * Fintype.card F ^ (n - 1) := by
        rw [Finset.sum_const, Finset.card_univ, Fintype.card_fin, smul_eq_mul]
        ring

end Count

end RoundSystem

end Pepper.Foundations.Sumcheck
