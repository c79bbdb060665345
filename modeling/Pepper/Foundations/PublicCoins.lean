import Pepper.Foundations.Multilinear
import Pepper.Foundations.Sumcheck

/-!
# Protocols with public coins

The verifier of such a protocol draws its coins one after the other. A `CoinTest` is a polynomial
for one of them that is fixed by the coins before it; the coin hits when it is a root of that
polynomial and the polynomial is not zero. `card_hits_le` counts the coin vectors at which one of
several tests is hit.

`pivotPoly` are the polynomials for the coordinates of a random point: a table with an entry other
than zero has an extension that vanishes at the point only if one of them is hit.
-/

set_option autoImplicit false

open Polynomial
open Pepper.Foundations.Multilinear Pepper.Foundations.Sumcheck

namespace Pepper.Foundations.PublicCoins

universe u

variable {F : Type u} [Field F]

/-! ## Tests -/

/-- A polynomial for one coin, fixed by the coins before it. -/
structure CoinTest (F : Type u) [Field F] where
  coin : ℕ
  bound : ℕ
  poly : (ℕ → F) → F[X]
  natDegree_le : ∀ r, (poly r).natDegree ≤ bound
  poly_congr : ∀ r r', (∀ i < coin, r i = r' i) → poly r = poly r'

/-- The coin is a root of its polynomial. -/
def CoinTest.Hit (T : CoinTest F) (r : ℕ → F) : Prop :=
  T.poly r ≠ 0 ∧ (T.poly r).eval (r T.coin) = 0

/-- How many coins can hit one of the tests, if each test is charged with its degree. -/
def totalBound (tests : List (CoinTest F)) : ℕ := (tests.map CoinTest.bound).sum

theorem totalBound_append (tests tests' : List (CoinTest F)) :
    totalBound (tests ++ tests') = totalBound tests + totalBound tests' := by
  rw [totalBound, List.map_append, List.sum_append]
  rfl

/-- Tests that are numbered. -/
theorem totalBound_range (T : ℕ → CoinTest F) (n : ℕ) :
    totalBound ((List.range n).map T) = ∑ i ∈ Finset.range n, (T i).bound := by
  induction n with
  | zero => rfl
  | succ n ih =>
      rw [List.range_succ, List.map_append, totalBound_append, ih, Finset.sum_range_succ]
      rfl

/-- Groups of tests that are numbered. -/
theorem totalBound_flatMap (T : ℕ → List (CoinTest F)) (n : ℕ) :
    totalBound ((List.range n).flatMap T) = ∑ i ∈ Finset.range n, totalBound (T i) := by
  induction n with
  | zero => rfl
  | succ n ih =>
      rw [List.range_succ, List.flatMap_append, totalBound_append, ih, Finset.sum_range_succ]
      simp

section Count

variable [Fintype F] [DecidableEq F] {n : ℕ}

omit [Fintype F] [DecidableEq F] in
/-- Coin vectors that agree before coin `k`, continued with zeros. -/
theorem extendChallenge_agree {k : Fin n} {r r' : Fin n → F} (h : ∀ i < k, r i = r' i) :
    ∀ i < (k : ℕ), RoundSystem.extendChallenge r i = RoundSystem.extendChallenge r' i := by
  intro i hi
  have hin : i < n := hi.trans k.2
  rw [RoundSystem.extendChallenge, RoundSystem.extendChallenge, dif_pos hin, dif_pos hin]
  exact h ⟨i, hin⟩ hi

open Classical in
/-- The coin vectors at which one test is hit. -/
theorem card_hit_le (T : CoinTest F) (hcoin : T.coin < n) :
    (Finset.univ.filter fun r : Fin n → F => T.Hit (RoundSystem.extendChallenge r)).card ≤
      T.bound * Fintype.card F ^ (n - 1) := by
  have hroots := RoundSystem.card_roots_le ⟨T.coin, hcoin⟩
    (fun r => T.poly (RoundSystem.extendChallenge r)) (fun r => T.natDegree_le _)
    fun r r' h => T.poly_congr _ _ (extendChallenge_agree h)
  refine (Finset.card_le_card fun r hr => ?_).trans hroots
  obtain ⟨hne, hroot⟩ := (Finset.mem_filter.1 hr).2
  refine Finset.mem_filter.2 ⟨Finset.mem_univ _, hne, ?_⟩
  rw [← RoundSystem.extendChallenge_of_lt r ⟨T.coin, hcoin⟩]
  exact hroot

open Classical in
/-- By induction on the tests, each of which is charged with its degree. -/
theorem card_hits_le {tests : List (CoinTest F)} (hcoin : ∀ T ∈ tests, T.coin < n) :
    (Finset.univ.filter fun r : Fin n → F =>
      ∃ T ∈ tests, T.Hit (RoundSystem.extendChallenge r)).card ≤
        totalBound tests * Fintype.card F ^ (n - 1) := by
  induction tests with
  | nil => simp
  | cons T tests ih =>
      obtain ⟨hfirst, hrest⟩ := List.forall_mem_cons.1 hcoin
      have hsplit : (Finset.univ.filter fun r : Fin n → F =>
          ∃ S ∈ T :: tests, S.Hit (RoundSystem.extendChallenge r)) ⊆
            (Finset.univ.filter fun r : Fin n → F => T.Hit (RoundSystem.extendChallenge r)) ∪
              Finset.univ.filter fun r : Fin n → F =>
                ∃ S ∈ tests, S.Hit (RoundSystem.extendChallenge r) := by
        intro r hr
        rw [Finset.mem_union, Finset.mem_filter, Finset.mem_filter]
        obtain ⟨S, hS, hhit⟩ := (Finset.mem_filter.1 hr).2
        rcases List.mem_cons.1 hS with rfl | hS
        · exact Or.inl ⟨Finset.mem_univ _, hhit⟩
        · exact Or.inr ⟨Finset.mem_univ _, S, hS, hhit⟩
      refine (Finset.card_le_card hsplit).trans ((Finset.card_union_le _ _).trans ?_)
      have htotal : totalBound (T :: tests) = T.bound + totalBound tests := List.sum_cons
      rw [htotal, add_mul]
      exact add_le_add (card_hit_le T hfirst) (ih hrest)

/-- The same for an event in which some test is hit. -/
theorem card_le_of_hits {tests : List (CoinTest F)} (hcoin : ∀ T ∈ tests, T.coin < n)
    (event : (Fin n → F) → Prop) [DecidablePred event]
    (h : ∀ r, event r → ∃ T ∈ tests, T.Hit (RoundSystem.extendChallenge r)) :
    (Finset.univ.filter event).card ≤ totalBound tests * Fintype.card F ^ (n - 1) := by
  classical
  refine (Finset.card_le_card fun r hr => ?_).trans (card_hits_le hcoin)
  exact Finset.mem_filter.2 ⟨Finset.mem_univ _, h r (Finset.mem_filter.1 hr).2⟩

omit [Field F] [DecidableEq F] in
/-- A bound that says nothing. -/
theorem card_le_of_card_le {bound : ℕ} (hn : 0 < n) (hbound : Fintype.card F ≤ bound)
    (event : (Fin n → F) → Prop) [DecidablePred event] :
    (Finset.univ.filter event).card ≤ bound * Fintype.card F ^ (n - 1) := by
  refine (Finset.card_le_univ _).trans ?_
  rw [Fintype.card_fun, Fintype.card_fin, ← mul_pow_sub_one (ne_of_gt hn)]
  exact Nat.mul_le_mul_right _ hbound

end Count

/-! ## The extension of a table at a random point -/

section Pivot

/-- The next entry of a folded table, as a polynomial in the coordinate. -/
noncomputable def foldPoly (f : ℕ → F) (j : ℕ) : F[X] :=
  C (f (2 * j)) + X * C (f (2 * j + 1) - f (2 * j))

theorem eval_foldPoly (f : ℕ → F) (j : ℕ) (x : F) : (foldPoly f j).eval x = foldTable x f j := by
  simp only [foldPoly, foldTable, eval_add, eval_C, eval_mul, eval_X]
  ring

theorem natDegree_foldPoly_le (f : ℕ → F) (j : ℕ) : (foldPoly f j).natDegree ≤ 1 := by
  refine (natDegree_add_le _ _).trans (max_le ?_ ?_)
  · rw [natDegree_C]
    exact Nat.zero_le 1
  · exact (natDegree_mul_C_le _ _).trans natDegree_X_le

/-- It is zero only when both entries are. -/
theorem foldPoly_eq_zero {f : ℕ → F} {j : ℕ} (h : foldPoly f j = 0) :
    f (2 * j) = 0 ∧ f (2 * j + 1) = 0 := by
  have h0 := eval_foldPoly f j 0
  have h1 := eval_foldPoly f j 1
  rw [h, eval_zero, foldTable] at h0 h1
  constructor
  · linear_combination -h0
  · linear_combination -h1

/-- A table whose first `2 ^ n` entries are not all zero. -/
def NonzeroBelow (n : ℕ) (f : ℕ → F) : Prop := ∃ j < 2 ^ n, f j ≠ 0

open Classical in
/-- The polynomial of the first pair of entries that is not zero. -/
noncomputable def pivotPoly (f : ℕ → F) (n : ℕ) : F[X] :=
  if h : ∃ j < 2 ^ n, foldPoly f j ≠ 0 then foldPoly f h.choose else 0

theorem natDegree_pivotPoly_le (f : ℕ → F) (n : ℕ) : (pivotPoly f n).natDegree ≤ 1 := by
  rw [pivotPoly]
  split_ifs
  · exact natDegree_foldPoly_le f _
  · rw [natDegree_zero]
    exact Nat.zero_le 1

/-- A table that is folded at a coin that does not hit keeps an entry other than zero. -/
theorem nonzeroBelow_fold {f : ℕ → F} {n : ℕ} (h : NonzeroBelow (n + 1) f) {x : F}
    (hx : ¬ (pivotPoly f n ≠ 0 ∧ (pivotPoly f n).eval x = 0)) : NonzeroBelow n (foldTable x f) := by
  obtain ⟨j, hj, hne⟩ := h
  have hpair : ∃ j < 2 ^ n, foldPoly f j ≠ 0 := by
    refine ⟨j / 2, by omega, fun hzero => hne ?_⟩
    obtain ⟨heven, hodd⟩ := foldPoly_eq_zero hzero
    rcases Nat.even_or_odd' j with ⟨m, rfl | rfl⟩
    · rwa [Nat.mul_div_cancel_left m two_pos] at heven
    · have hdiv : (2 * m + 1) / 2 = m := by omega
      rwa [hdiv] at hodd
  have hpivot : pivotPoly f n = foldPoly f hpair.choose := dif_pos hpair
  obtain ⟨hlt, hpoly⟩ := hpair.choose_spec
  refine ⟨hpair.choose, hlt, fun hroot => hx ?_⟩
  rw [hpivot, eval_foldPoly]
  exact ⟨hpoly, hroot⟩

/-- The entries that remain after the coordinates of a point that hits nowhere. -/
theorem nonzeroBelow_foldTables {f : ℕ → F} {n : ℕ} (h : NonzeroBelow n f) {r : ℕ → F} {k : ℕ}
    (hk : k ≤ n)
    (hr : ∀ i < k, ¬ (pivotPoly (foldTables r f i) (n - (i + 1)) ≠ 0 ∧
      (pivotPoly (foldTables r f i) (n - (i + 1))).eval (r i) = 0)) :
    NonzeroBelow (n - k) (foldTables r f k) := by
  induction k with
  | zero => exact h
  | succ k ih =>
      have hlow := ih (Nat.le_of_succ_le hk) fun i hi => hr i (hi.trans (Nat.lt_succ_self k))
      have hsub : n - k = n - (k + 1) + 1 := by omega
      rw [hsub] at hlow
      exact nonzeroBelow_fold hlow (hr k (Nat.lt_succ_self k))

/-- At a point that hits nowhere the extension is not zero. -/
theorem extension_ne_zero {f : ℕ → F} {n : ℕ} (h : NonzeroBelow n f) {r : ℕ → F}
    (hr : ∀ i < n, ¬ (pivotPoly (foldTables r f i) (n - (i + 1)) ≠ 0 ∧
      (pivotPoly (foldTables r f i) (n - (i + 1))).eval (r i) = 0)) :
    extension f n r ≠ 0 := by
  obtain ⟨j, hj, hne⟩ := nonzeroBelow_foldTables h le_rfl hr
  rw [Nat.sub_self, pow_zero, Nat.lt_one_iff] at hj
  rw [hj, foldTables_eq_extension] at hne
  exact hne

theorem extension_sub (f g : ℕ → F) (n : ℕ) (r : ℕ → F) :
    extension (fun k => f k - g k) n r = extension f n r - extension g n r := by
  rw [extension, extension, extension, ← Finset.sum_sub_distrib]
  exact Finset.sum_congr rfl fun k _ => sub_mul _ _ _

end Pivot

end Pepper.Foundations.PublicCoins
