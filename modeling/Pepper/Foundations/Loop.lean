import Mathlib.Algebra.BigOperators.Group.Finset.Basic
import Mathlib.Algebra.BigOperators.Intervals
import Mathlib.Algebra.BigOperators.Ring.Finset
import Mathlib.Logic.Function.Basic

/-!
# Counted loops over memory blocks

`forLoop n body s` runs `body 0`, ..., `body (n - 1)` in order on a state. A block
of cells is a function on indices, written with `Function.update`.

The rules: `forLoop_induction` carries an invariant through a run,
`forLoop_simulation` relates two runs step by step, `forLoop_update_apply` reads a
block filled cell by cell, and `forLoop_add` reads an accumulator. For a walk over
a list of entries that each add into one cell, `foldl_scatter_apply` gives every
cell of the result.
-/

set_option autoImplicit false

namespace Pepper.Foundations.Loop

universe u v

variable {σ : Type u} {τ : Type v}

/-- Block `i` of `m` blocks of `n` cells ends before the end of all of them. -/
theorem block_le {m i : ℕ} (hi : i < m) (n : ℕ) : i * n + n ≤ m * n := by
  rw [← Nat.succ_mul]
  exact Nat.mul_le_mul_right n hi

theorem block_lt {m n i j : ℕ} (hi : i < m) (hj : j < n) : i * n + j < m * n :=
  (Nat.add_lt_add_left hj _).trans_le (block_le hi n)

/-- The number of the block that a cell is in. -/
theorem block_div {n j : ℕ} (hj : j < n) (i : ℕ) : (i * n + j) / n = i := by
  rw [Nat.mul_comm, Nat.mul_add_div (Nat.zero_lt_of_lt hj), Nat.div_eq_of_lt hj, Nat.add_zero]

/-- Block and place determine a cell. -/
theorem block_inj {n i j i' j' : ℕ} (hj : j < n) (hj' : j' < n) (h : i * n + j = i' * n + j') :
    i = i' ∧ j = j' := by
  have hi : i = i' := by rw [← block_div hj i, ← block_div hj' i', h]
  subst hi
  exact ⟨rfl, Nat.add_left_cancel h⟩

/-- A double sum over rows and columns is the sum over all cells. -/
theorem sum_cells {M : Type} [AddCommMonoid M] (m n : ℕ) (f : ℕ → M) :
    ∑ k ∈ Finset.range (m * n), f k =
      ∑ i ∈ Finset.range m, ∑ j ∈ Finset.range n, f (i * n + j) := by
  induction m with
  | zero => simp
  | succ m ih => rw [Nat.succ_mul, Finset.sum_range_add, ih, Finset.sum_range_succ]

/-- The loop `for (i = 0; i < n; i++) body i`. -/
def forLoop : ℕ → (ℕ → σ → σ) → σ → σ
  | 0, _, s => s
  | n + 1, body, s => body n (forLoop n body s)

@[simp] theorem forLoop_zero (body : ℕ → σ → σ) (s : σ) : forLoop 0 body s = s := rfl

theorem forLoop_succ (n : ℕ) (body : ℕ → σ → σ) (s : σ) :
    forLoop (n + 1) body s = body n (forLoop n body s) := rfl

/-- Invariant rule: `P i` before the `i`-th pass gives `P n` after the loop. -/
theorem forLoop_induction {P : ℕ → σ → Prop} {n : ℕ} {g : ℕ → σ → σ} {s : σ}
    (start : P 0 s) (step : ∀ i, i < n → ∀ t, P i t → P (i + 1) (g i t)) :
    P n (forLoop n g s) := by
  induction n with
  | zero => exact start
  | succ n ih =>
      rw [forLoop_succ]
      refine step n (Nat.lt_succ_self n) _ (ih ?_)
      intro i hi t ht
      exact step i (Nat.lt_succ_of_lt hi) t ht

/-- Simulation rule: two loops whose `i`-th passes take related states to related states
end in related states. -/
theorem forLoop_simulation {R : ℕ → σ → τ → Prop} {n : ℕ} {g : ℕ → σ → σ}
    {k : ℕ → τ → τ} {s : σ} {t : τ} (start : R 0 s t)
    (step : ∀ i, i < n → ∀ a b, R i a b → R (i + 1) (g i a) (k i b)) :
    R n (forLoop n g s) (forLoop n k t) := by
  induction n with
  | zero => exact start
  | succ n ih =>
      rw [forLoop_succ, forLoop_succ]
      refine step n (Nat.lt_succ_self n) _ _ (ih ?_)
      intro i hi a b hab
      exact step i (Nat.lt_succ_of_lt hi) a b hab

theorem forLoop_congr {n : ℕ} {g k : ℕ → σ → σ} {s : σ}
    (h : ∀ i, i < n → ∀ t, g i t = k i t) :
    forLoop n g s = forLoop n k s := by
  refine forLoop_simulation (R := fun _ => Eq) rfl ?_
  rintro i hi a b rfl
  exact h i hi a

theorem forLoop_append (m n : ℕ) (body : ℕ → σ → σ) (s : σ) :
    forLoop (m + n) body s = forLoop n (fun j => body (m + j)) (forLoop m body s) := by
  induction n with
  | zero => rfl
  | succ n ih => rw [← Nat.add_assoc, forLoop_succ, ih, forLoop_succ]

/-- A loop over rows and columns is one over cells. -/
theorem forLoop_nested (m n : ℕ) (body : ℕ → σ → σ) (s : σ) :
    forLoop m (fun i s => forLoop n (fun j s => body (i * n + j) s) s) s =
      forLoop (m * n) body s := by
  induction m with
  | zero => rw [Nat.zero_mul, forLoop_zero, forLoop_zero]
  | succ m ih => rw [forLoop_succ, ih, Nat.succ_mul, forLoop_append]

/-- A loop on a pair that keeps its parts apart. -/
theorem forLoop_prod (n : ℕ) (g : ℕ → σ → σ) (k : ℕ → τ → τ) (s : σ × τ) :
    forLoop n (fun i s => (g i s.1, k i s.2)) s = (forLoop n g s.1, forLoop n k s.2) := by
  induction n with
  | zero => rfl
  | succ n ih => rw [forLoop_succ, ih, forLoop_succ, forLoop_succ]

/-- A loop that also counts how many steps its passes make. -/
theorem forLoop_counter (n : ℕ) (len : ℕ → ℕ) (g : ℕ → ℕ → τ → τ) (s : ℕ × τ) :
    forLoop n (fun j s => (s.1 + len j, g j s.1 s.2)) s =
      (s.1 + ∑ j ∈ Finset.range n, len j,
        forLoop n (fun j t => g j (s.1 + ∑ j' ∈ Finset.range j, len j') t) s.2) := by
  induction n with
  | zero => rfl
  | succ n ih => rw [forLoop_succ, ih, forLoop_succ, Finset.sum_range_succ, Nat.add_assoc]

/-- What one pass establishes and no pass breaks. -/
theorem forLoop_once {n i : ℕ} {g : ℕ → σ → σ} {Q : σ → Prop} (hi : i < n)
    (set : ∀ s, Q (g i s)) (keep : ∀ j, j < n → ∀ s, Q s → Q (g j s)) (s : σ) :
    Q (forLoop n g s) := by
  refine forLoop_induction (P := fun k s => i < k → Q s) (fun h => absurd h (Nat.not_lt_zero i)) ?_
    hi
  intro j hj t ht hlt
  rcases Nat.lt_succ_iff_lt_or_eq.1 hlt with hlt | rfl
  · exact keep j hj t (ht hlt)
  · exact set t

/-- A loop that may fail, and runs through the states `g`. -/
theorem foldlM_range_eq {f : σ → ℕ → Option σ} {n : ℕ} {g : ℕ → σ}
    (h : ∀ i, i < n → f (g i) i = some (g (i + 1))) :
    (List.range n).foldlM f (g 0) = some (g n) := by
  induction n with
  | zero => rfl
  | succ n ih =>
      rw [List.range_succ, List.foldlM_append, ih fun i hi => h i (Nat.lt_succ_of_lt hi)]
      refine (Option.bind_some _ _).trans ?_
      rw [List.foldlM_cons, h n (Nat.lt_succ_self n)]
      rfl

/-- A projection of the state that every pass leaves alone. -/
theorem forLoop_frame {n : ℕ} {g : ℕ → σ → σ} {s : σ} (f : σ → τ)
    (h : ∀ i, i < n → ∀ t, f (g i t) = f t) : f (forLoop n g s) = f s := by
  refine forLoop_induction (P := fun _ t => f t = f s) rfl ?_
  intro i hi t ht
  rw [h i hi t, ht]

/-- A loop that rewrites cell `i` from its own old value at pass `i`. -/
theorem forLoop_update_apply (n : ℕ) (f : ℕ → τ → τ) (a : ℕ → τ) (j : ℕ) :
    forLoop n (fun i b => Function.update b i (f i (b i))) a j =
      if j < n then f j (a j) else a j := by
  induction n with
  | zero => simp
  | succ n ih =>
      rw [forLoop_succ]
      by_cases hj : j = n
      · subst hj
        rw [Function.update_self]
        have hrest : forLoop j (fun i b => Function.update b i (f i (b i))) a j = a j := by
          rw [ih, if_neg (lt_irrefl j)]
        rw [hrest, if_pos (Nat.lt_succ_self j)]
      · rw [Function.update_of_ne hj, ih]
        have hiff : j < n + 1 ↔ j < n := by omega
        simp only [hiff]

/-- A loop that fills the cells below `n`. -/
theorem forLoop_fill_apply (n : ℕ) (f : ℕ → τ) (a : ℕ → τ) (j : ℕ) :
    forLoop n (fun i b => Function.update b i (f i)) a j = if j < n then f j else a j :=
  forLoop_update_apply n (fun i _ => f i) a j

/-- A loop that fills the `n` cells from `base` on. -/
theorem forLoop_block_apply (n base : ℕ) (f : ℕ → τ) (a : ℕ → τ) (j : ℕ) :
    forLoop n (fun i b => Function.update b (base + i) (f i)) a j =
      if base ≤ j ∧ j < base + n then f (j - base) else a j := by
  induction n with
  | zero => rw [forLoop_zero, if_neg (by omega)]
  | succ n ih =>
      rw [forLoop_succ]
      by_cases hj : j = base + n
      · subst hj
        rw [Function.update_self, if_pos (by omega), Nat.add_sub_cancel_left]
      · have hiff : (base ≤ j ∧ j < base + (n + 1)) ↔ (base ≤ j ∧ j < base + n) := by omega
        rw [Function.update_of_ne hj, ih]
        simp only [hiff]

/-- A loop that fills cells from `base` on from the cells below `base`. -/
theorem forLoop_upper_apply {m base : ℕ} (hm : m ≤ base) (f : τ → τ) (a : ℕ → τ) (j : ℕ) :
    forLoop m (fun i b => Function.update b (base + i) (f (b i))) a j =
      if base ≤ j ∧ j < base + m then f (a (j - base)) else a j := by
  induction m generalizing j with
  | zero => rw [forLoop_zero, if_neg (by omega)]
  | succ m ih =>
      have hlow := ih (Nat.le_of_succ_le hm) m
      rw [if_neg (by omega)] at hlow
      rw [forLoop_succ, hlow]
      by_cases hj : j = base + m
      · subst hj
        rw [Function.update_self, if_pos (by omega), Nat.add_sub_cancel_left]
      · have hiff : (base ≤ j ∧ j < base + (m + 1)) ↔ (base ≤ j ∧ j < base + m) := by omega
        rw [Function.update_of_ne hj, ih (Nat.le_of_succ_le hm)]
        simp only [hiff]

/-- A loop that fills cell `i` at pass `i` from cells that no earlier pass has written. -/
theorem forLoop_gather_apply (n : ℕ) (f : ℕ → (ℕ → τ) → τ) (a : ℕ → τ)
    (hf : ∀ i b, (∀ j, i ≤ j → b j = a j) → f i b = f i a) (j : ℕ) :
    forLoop n (fun i b => Function.update b i (f i b)) a j = if j < n then f j a else a j := by
  induction n generalizing j with
  | zero => simp
  | succ n ih =>
      rw [forLoop_succ]
      have hrest : ∀ j, n ≤ j → forLoop n (fun i b => Function.update b i (f i b)) a j = a j := by
        intro j hj
        rw [ih j, if_neg (by omega)]
      by_cases hj : j = n
      · subst hj
        rw [Function.update_self, hf j _ hrest, if_pos (Nat.lt_succ_self j)]
      · have hiff : j < n + 1 ↔ j < n := by omega
        rw [Function.update_of_ne hj, ih j]
        simp only [hiff]

/-- A loop over the rows of a table with `size` columns that writes the column `i` from
the entries of its row. -/
theorem forLoop_column_apply {size i : ℕ} (hi : i < size) (n : ℕ) (f : ℕ → (ℕ → τ) → τ)
    (a : ℕ → τ) (hf : ∀ b x, (∀ j < size, x (b * size + j) = a (b * size + j)) → f b x = f b a)
    (b : ℕ) {j : ℕ} (hj : j < size) :
    forLoop n (fun b x => Function.update x (b * size + i) (f b x)) a (b * size + j) =
      if b < n ∧ j = i then f b a else a (b * size + j) := by
  induction n generalizing b j with
  | zero => rw [forLoop_zero, if_neg (by omega)]
  | succ n ih =>
      rw [forLoop_succ]
      by_cases hcell : b = n ∧ j = i
      · obtain ⟨rfl, rfl⟩ := hcell
        rw [Function.update_self, if_pos ⟨Nat.lt_succ_self b, rfl⟩]
        refine hf b _ fun j' hj' => ?_
        rw [ih b hj', if_neg (by omega)]
      · have hne : b * size + j ≠ n * size + i := fun heq => hcell (block_inj hj hi heq)
        have hiff : (b < n + 1 ∧ j = i) ↔ (b < n ∧ j = i) := by omega
        rw [Function.update_of_ne hne, ih b hj]
        simp only [hiff]

/-- An accumulator collects the sum of what the passes add. -/
theorem forLoop_add [AddCommMonoid τ] (n : ℕ) (f : ℕ → τ) (a : τ) :
    forLoop n (fun i acc => acc + f i) a = a + ∑ i ∈ Finset.range n, f i := by
  induction n with
  | zero => simp
  | succ n ih => rw [forLoop_succ, ih, Finset.sum_range_succ, add_assoc]

/-- An accumulator collects the product of what the passes multiply in. -/
theorem forLoop_mul [CommMonoid τ] (n : ℕ) (f : ℕ → τ) (a : τ) :
    forLoop n (fun i acc => acc * f i) a = a * ∏ i ∈ Finset.range n, f i := by
  induction n with
  | zero => simp
  | succ n ih => rw [forLoop_succ, ih, Finset.prod_range_succ, mul_assoc]

/-- A verdict that every pass can only withdraw. -/
theorem forLoop_all (n : ℕ) (test : ℕ → Bool) (verdict : Bool) :
    forLoop n (fun i verdict => verdict && test i) verdict = true ↔
      verdict = true ∧ ∀ i < n, test i = true := by
  induction n with
  | zero => simp
  | succ n ih => rw [forLoop_succ, Bool.and_eq_true, ih, Nat.forall_lt_succ_right, and_assoc]

/-- A walk over entries, each adding `val e` into cell `idx e`, leaves in cell `j`
its old value plus the values of the entries that name `j`. -/
theorem foldl_scatter_apply {ε : Type v} [AddCommMonoid τ] (idx : ε → ℕ) (val : ε → τ)
    (es : List ε) (a : ℕ → τ) (j : ℕ) :
    es.foldl (fun b e => Function.update b (idx e) (b (idx e) + val e)) a j =
      a j + ((es.filter fun e => idx e = j).map val).sum := by
  induction es generalizing a with
  | nil => simp
  | cons e es ih =>
      rw [List.foldl_cons, ih]
      by_cases he : idx e = j
      · subst he
        simp [add_assoc]
      · have hne : j ≠ idx e := fun h => he h.symm
        simp [he, Function.update_of_ne hne]

/-- Grouping entries by the cell they name does not change a weighted sum. -/
theorem sum_mul_scatter {ε : Type v} [CommSemiring τ] (n : ℕ) (idx : ε → ℕ) (weight : ℕ → τ)
    (val : ε → τ) (es : List ε) (h : ∀ e ∈ es, idx e < n) :
    ∑ i ∈ Finset.range n, weight i * ((es.filter fun e => idx e = i).map val).sum =
      (es.map fun e => weight (idx e) * val e).sum := by
  induction es with
  | nil => simp
  | cons e es ih =>
      have htail := ih fun e' he' => h e' (List.mem_cons_of_mem e he')
      have hsplit : ∀ i, ((List.filter (fun e => decide (idx e = i)) (e :: es)).map val).sum =
          (if idx e = i then val e else 0) +
            ((es.filter fun e => idx e = i).map val).sum := by
        intro i
        by_cases hi : idx e = i
        · simp [hi]
        · simp [hi]
      simp only [hsplit, mul_add, Finset.sum_add_distrib, htail, List.map_cons, List.sum_cons]
      congr 1
      rw [Finset.sum_eq_single (idx e)]
      · rw [if_pos rfl]
      · intro i _ hi
        rw [if_neg hi.symm, mul_zero]
      · intro hnot
        exact absurd (Finset.mem_range.2 (h e List.mem_cons_self)) hnot

end Pepper.Foundations.Loop
