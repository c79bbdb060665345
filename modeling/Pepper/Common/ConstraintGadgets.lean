import Pepper.Common.ConstraintEval

/-!
# The constraints of a gadget

For a well-formed call (`Op.Valid`): old variables keep their values (`Op.values_frame`), new values
can be mapped modulo the prime (`Op.values_convertible`), and the values satisfy the constraints of
the gadget (`Op.residual_eq`). The exception is `!=`: its `neqCheck` is off by one, always, because
`oneq` is zero (`Op.residual_bad`).
-/

set_option autoImplicit false

open Pepper.Common.Gmp Pepper.Foundations.Loop
open Pepper.Cmtgkr.Layer (convertToZ)

namespace Pepper.Common.ConstraintGen

/-! ## Bits -/

/-- Bits with their weights, top bit first. -/
def WeightedBits (bitsLength : ℕ) (w : ℕ → ℤ) : Prop :=
  ∀ b < bitsLength, w b = 0 ∨ w b = 2 ^ (bitsLength - 1 - b)

/-- After `n` passes of `decompose_bits`: the bits `w` that are written, and what is left of the
number. -/
structure BitsWritten (a : ℤ) (bits bitsLength : ℕ) (q : ℕ → ℚ) (n : ℕ) (w : ℕ → ℤ) (rest : ℤ)
    (f : ℕ → ℚ) : Prop where
  weighted : ∀ b < n, w b = 0 ∨ w b = 2 ^ (bitsLength - 1 - b)
  sum : ∑ b ∈ Finset.range n, w b + rest = a
  nonneg : 0 ≤ rest
  lt : rest < 2 ^ (bitsLength - n)
  written : ∀ b < n, f (bits + b) = w b
  frame : ∀ j, j < bits ∨ bits + n ≤ j → f j = q j

/-- The next pass writes a bit, set or not. -/
theorem BitsWritten.next {a rest : ℤ} {bits bitsLength n : ℕ} {q f : ℕ → ℚ} {w : ℕ → ℤ}
    (h : BitsWritten a bits bitsLength q n w rest f) {bit : ℤ}
    (hbit : bit = 0 ∨ bit = 2 ^ (bitsLength - 1 - n)) (hrest : 0 ≤ rest - bit)
    (hrest' : rest - bit < 2 ^ (bitsLength - 1 - n)) :
    BitsWritten a bits bitsLength q (n + 1) (Function.update w n bit) (rest - bit)
      (Function.update f (bits + n) (bit : ℚ)) where
  weighted := by
    intro b hb
    by_cases hbn : b = n
    · rw [hbn, Function.update_self]
      exact hbit
    · rw [Function.update_of_ne hbn]
      exact h.weighted b (by omega)
  sum := by
    have hrange : ∑ b ∈ Finset.range n, Function.update w n bit b =
        ∑ b ∈ Finset.range n, w b := by
      apply Finset.sum_congr rfl
      intro b hb
      rw [Function.update_of_ne (Finset.mem_range.1 hb).ne]
    rw [Finset.sum_range_succ, Function.update_self, hrange, ← h.sum]
    ring
  nonneg := hrest
  lt := by
    have hnext : bitsLength - (n + 1) = bitsLength - 1 - n := by omega
    rw [hnext]
    exact hrest'
  written := by
    intro b hb
    by_cases hbn : b = n
    · rw [hbn, Function.update_self, Function.update_self]
    · rw [Function.update_of_ne (by omega), Function.update_of_ne hbn]
      exact h.written b (by omega)
  frame := by
    intro j hj
    rw [Function.update_of_ne (by omega)]
    exact h.frame j (by omega)

/-- `decompose_bits` on a number that fits: its bits, with nothing left. -/
theorem decomposeBits_spec {a : ℤ} {bitsLength : ℕ} (ha : 0 ≤ a) (hfit : a < 2 ^ bitsLength)
    (bits : ℕ) (q : ℕ → ℚ) :
    ∃ w : ℕ → ℤ, WeightedBits bitsLength w ∧ ∑ b ∈ Finset.range bitsLength, w b = a ∧
      (∀ b < bitsLength, Generator.decomposeBits a bits bitsLength q (bits + b) = w b) ∧
      ∀ j, j < bits ∨ bits + bitsLength ≤ j →
        Generator.decomposeBits a bits bitsLength q j = q j := by
  have hloop := forLoop_induction
    (P := fun n (st : ℤ × ℤ × (ℕ → ℚ)) => (n < bitsLength → st.2.1 = 2 ^ (bitsLength - 1 - n)) ∧
      ∃ w, BitsWritten a bits bitsLength q n w st.1 st.2.2)
    (n := bitsLength)
    (g := fun b (st : ℤ × ℤ × (ℕ → ℚ)) =>
      let sub := st.1 - st.2.1
      if 0 ≤ sub then (sub, st.2.1.tdiv 2, Function.update st.2.2 (bits + b) st.2.1)
      else (st.1, st.2.1.tdiv 2, Function.update st.2.2 (bits + b) 0))
    (s := (a, 2 ^ (bitsLength - 1), q)) ?_ ?_
  · obtain ⟨-, w, hw⟩ := hloop
    have hlt := hw.lt
    rw [Nat.sub_self, pow_zero] at hlt
    have hrest := hw.nonneg
    have hsum := hw.sum
    refine ⟨w, hw.weighted, ?_, hw.written, hw.frame⟩
    omega
  · refine ⟨fun _ => rfl, fun _ => 0, ?_, ?_, ha, hfit, ?_, fun _ _ => rfl⟩
    · exact fun b hb => absurd hb (Nat.not_lt_zero b)
    · rw [Finset.range_zero, Finset.sum_empty, zero_add]
    · exact fun b hb => absurd hb (Nat.not_lt_zero b)
  · rintro n hn ⟨rest, z, f⟩ ⟨hz, w, hw⟩
    obtain rfl : z = 2 ^ (bitsLength - 1 - n) := hz hn
    have hlt : rest < 2 ^ (bitsLength - n) := hw.lt
    have hnonneg : 0 ≤ rest := hw.nonneg
    have hhalf : (2 : ℤ) ^ (bitsLength - n) = 2 ^ (bitsLength - 1 - n) * 2 := by
      rw [← pow_succ]
      congr 1
      omega
    -- the weight of the pass after this one
    have hweight : n + 1 < bitsLength →
        (2 ^ (bitsLength - 1 - n) : ℤ).tdiv 2 = 2 ^ (bitsLength - 1 - (n + 1)) := by
      intro hlt'
      have hexp : bitsLength - 1 - n = bitsLength - 1 - (n + 1) + 1 := by omega
      rw [hexp, pow_succ, Int.mul_tdiv_cancel _ two_ne_zero]
    by_cases hbit : 0 ≤ rest - 2 ^ (bitsLength - 1 - n)
    · have hset := hw.next (.inr rfl) hbit (by omega)
      simp only [if_pos hbit]
      exact ⟨hweight, _, by exact_mod_cast hset⟩
    · have hclear := hw.next (.inl rfl) (by omega) (by omega)
      rw [sub_zero, Int.cast_zero] at hclear
      simp only [if_neg hbit]
      exact ⟨hweight, _, hclear⟩

/-- Numerator and denominator, one after the other. -/
theorem decomposeFraction_spec {a b : ℤ} {r t : ℕ} (ha : 0 ≤ a) (har : a < 2 ^ r) (hb : 0 ≤ b)
    (hbt : b < 2 ^ t) (v : ℕ) (q : ℕ → ℚ) :
    ∃ wn wd : ℕ → ℤ, WeightedBits r wn ∧ WeightedBits t wd ∧
      ∑ i ∈ Finset.range r, wn i = a ∧ ∑ i ∈ Finset.range t, wd i = b ∧
      (∀ i < r, Generator.decomposeBits b (v + r) t (Generator.decomposeBits a v r q) (v + i) =
        wn i) ∧
      (∀ i < t, Generator.decomposeBits b (v + r) t (Generator.decomposeBits a v r q) (v + r + i) =
        wd i) ∧
      ∀ j < v, Generator.decomposeBits b (v + r) t (Generator.decomposeBits a v r q) j = q j := by
  obtain ⟨wn, hwn, hsumn, hvaln, hframen⟩ := decomposeBits_spec ha har v q
  obtain ⟨wd, hwd, hsumd, hvald, hframed⟩ :=
    decomposeBits_spec hb hbt (v + r) (Generator.decomposeBits a v r q)
  refine ⟨wn, wd, hwn, hwd, hsumn, hsumd, ?_, hvald, ?_⟩
  · intro i hi
    rw [hframed (v + i) (.inl (by omega)), hvaln i hi]
  · intro j hj
    rw [hframed j (.inl (by omega)), hframen j (.inl hj)]

/-! ## Calls that are well formed -/

/-- What the callers of a gadget promise: the variables exist, comparisons and equalities hold, and
numerator and denominator of a difference fit. -/
def Op.Valid (s : Generator) : Op → Prop
  | .newConstraint => True
  | .addTerm _ variableIDs _ => ∀ i ∈ variableIDs, i < s.variablesNext
  | .constant _ => True
  | .distanceSquared p1 p2 n => p1 + n ≤ s.variablesNext ∧ p2 + n ≤ s.variablesNext
  | .product a b => a < s.variablesNext ∧ b < s.variablesNext
  | .sum terms => ∀ k ∈ terms, k < s.variablesNext
  | .xgeY x y r t => Comparable s x y r t ∧ 0 ≤ s.qF1 x - s.qF1 y
  | .xgtY x y r t => Comparable s x y r t ∧ 0 < s.qF1 x - s.qF1 y
  | .xleY x y r t => Comparable s y x r t ∧ 0 ≤ s.qF1 y - s.qF1 x
  | .xltY x y r t => Comparable s y x r t ∧ 0 < s.qF1 y - s.qF1 x
  | .eqVec x y d => x + d ≤ s.variablesNext ∧ y + d ≤ s.variablesNext ∧
      ∀ i < d, s.qF1 (x + i) = s.qF1 (y + i)
  | .neq x y => x < s.variablesNext ∧ y < s.variablesNext
  | .neqVec x y d => x + d ≤ s.variablesNext ∧ y + d ≤ s.variablesNext
where
  /-- The two sides of a comparison and the widths of its bits. -/
  Comparable (s : Generator) (x y r t : ℕ) : Prop :=
    x < s.variablesNext ∧ y < s.variablesNext ∧ 0 < r ∧ 0 < t ∧
      (s.qF1 x - s.qF1 y).num < 2 ^ r ∧ ((s.qF1 x - s.qF1 y).den : ℤ) < 2 ^ t

theorem Op.Valid.ordered {s : Generator} {op : Op} (h : op.Valid s) : op.Ordered s.qF1 := by
  cases op with
  | xgeY x y r t => exact h.2
  | xgtY x y r t => exact h.2.le
  | xleY x y r t => exact h.2
  | xltY x y r t => exact h.2.le
  | _ => exact trivial

/-- A program every call of which is well formed where the prover makes it. -/
def ValidFrom : Generator → List Op → Prop
  | _, [] => True
  | s, op :: ops => op.Valid s ∧ ValidFrom (op.step s) ops

/-- The factors that the program itself puts into the constraints with weights `gamma`. -/
def Op.ownValue {p : ℕ} (gamma : Vec) (x : ℕ → ZMod p) : Op → ZMod p
  | .addTerm coefficient (i :: rest) constraintID =>
      gamma constraintID * (coefficient * (x i * (rest.map x).prod))
  | _ => 0

/-- A call whose gadget is right: constants can be mapped, nothing is compared with `!=`. -/
def Op.Good (p : ℕ) : Op → Prop
  | .constant qvalue => Convertible p qvalue
  | .neq _ _ => False
  | .neqVec _ _ d => d = 0
  | _ => True

/-! ## Old variables keep their values -/

section Frame

variable {prime : ℤ} {oneq : ℚ} {v c : ℕ}

theorem chainEffect_frame (coefficient : ℤ) (constraintID : ℕ) (rest : List ℕ) :
    ∀ (v c i : ℕ) (q : ℕ → ℚ), ∀ j < v,
      (chainEffect coefficient constraintID v c i rest).values q j = q j := by
  induction rest with
  | nil => exact fun _ _ _ _ _ _ => rfl
  | cons nextFactor rest ih =>
      cases rest with
      | nil => exact fun _ _ _ _ _ _ => rfl
      | cons k rest =>
          intro v c i q j hj
          have hrest := ih (v + 1) (c + 1) v (Function.update q v (q i * q nextFactor)) j
            (Nat.lt_succ_of_lt hj)
          rw [Function.update_of_ne hj.ne] at hrest
          exact hrest

theorem neqValues_frame {x y : ℕ} (q : ℕ → ℚ) {j : ℕ} (hj : j < v ∨ v + 3 ≤ j) :
    neqValues prime oneq v x y q j = q j := by
  rw [neqValues, Function.update_of_ne (by omega), Function.update_of_ne (by omega),
    Function.update_of_ne (by omega)]

theorem neqVecStep_frame {x y i : ℕ} (st : (ℕ → ℚ) × Bool) {j : ℕ}
    (hj : j < v + 1 + 3 * i ∨ v + 1 + 3 * i + 3 ≤ j) :
    (neqVecStep prime oneq v x y i st).1 j = st.1 j := by
  have hvalues : neqValues prime oneq (v + 1 + 3 * i) (x + i) (y + i) st.1 j = st.1 j :=
    neqValues_frame st.1 hj
  rw [neqVecStep]
  split
  · show Function.update _ _ _ j = _
    rw [Function.update_of_ne (by omega), hvalues]
  · exact hvalues

theorem neqVecValues_frame {x y d : ℕ} (q : ℕ → ℚ) {j : ℕ} (hj : j < v) :
    (neqVecValues prime oneq v x y d q).1 j = q j := by
  rw [neqVecValues]
  refine forLoop_induction (P := fun _ (st : (ℕ → ℚ) × Bool) => st.1 j = q j) ?_ ?_
  · exact Function.update_of_ne hj.ne _ _
  · intro i _ st hst
    rw [neqVecStep_frame st (.inl (by omega)), hst]

theorem foldl_sum_frame (terms : List ℕ) (q : ℕ → ℚ) {j : ℕ} (hj : j ≠ v) :
    terms.foldl (fun q k => Function.update q v (q v + q k)) q j = q j := by
  induction terms generalizing q with
  | nil => rfl
  | cons k terms ih => rw [List.foldl_cons, ih, Function.update_of_ne hj]

theorem forLoop_distance_frame (p1 p2 n : ℕ) (q : ℕ → ℚ) {j : ℕ} (hj : j ≠ v) :
    forLoop n
      (fun i q =>
        Function.update q v (q v + (q (p1 + i) - q (p2 + i)) * (q (p1 + i) - q (p2 + i))))
      q j = q j := by
  refine forLoop_frame (fun q : ℕ → ℚ => q j) ?_
  intro i _ q
  exact Function.update_of_ne hj _ _

/-- The bits that `create_constraint_XgeY` writes. -/
theorem xgeY_spec {s : Generator} {x y r t : ℕ} (hc : Op.Valid.Comparable s x y r t)
    (hle : 0 ≤ s.qF1 x - s.qF1 y) :
    ∃ wn wd : ℕ → ℤ, WeightedBits r wn ∧ WeightedBits t wd ∧
      ∑ i ∈ Finset.range r, wn i = (s.qF1 x - s.qF1 y).num ∧
      ∑ i ∈ Finset.range t, wd i = ((s.qF1 x - s.qF1 y).den : ℤ) - 1 ∧
      (∀ i < r, (xgeYEffect s.variablesNext c x y r t).values s.qF1 (s.variablesNext + i) = wn i) ∧
      (∀ i < t,
        (xgeYEffect s.variablesNext c x y r t).values s.qF1 (s.variablesNext + r + i) = wd i) ∧
      ∀ j < s.variablesNext, (xgeYEffect s.variablesNext c x y r t).values s.qF1 j = s.qF1 j := by
  obtain ⟨-, -, -, -, hnum, hden⟩ := hc
  have hpos := (s.qF1 x - s.qF1 y).den_pos
  exact decomposeFraction_spec (Rat.num_nonneg.2 hle) hnum (by omega) (by omega) _ _

/-- The bits that `create_constraint_XgtY` writes. -/
theorem xgtY_spec {s : Generator} {x y r t : ℕ} (hc : Op.Valid.Comparable s x y r t)
    (hlt : 0 < s.qF1 x - s.qF1 y) :
    ∃ wn wd : ℕ → ℤ, WeightedBits r wn ∧ WeightedBits t wd ∧
      ∑ i ∈ Finset.range r, wn i = (s.qF1 x - s.qF1 y).num - 1 ∧
      ∑ i ∈ Finset.range t, wd i = ((s.qF1 x - s.qF1 y).den : ℤ) ∧
      (∀ i < r, (xgtYEffect s.variablesNext c x y r t).values s.qF1 (s.variablesNext + i) = wn i) ∧
      (∀ i < t,
        (xgtYEffect s.variablesNext c x y r t).values s.qF1 (s.variablesNext + r + i) = wd i) ∧
      ∀ j < s.variablesNext, (xgtYEffect s.variablesNext c x y r t).values s.qF1 j = s.qF1 j := by
  obtain ⟨-, -, -, -, hnum, hden⟩ := hc
  have hpos : 0 < (s.qF1 x - s.qF1 y).num := Rat.num_pos.2 hlt
  exact decomposeFraction_spec (by omega) (by omega) (by omega) hden _ _

theorem xgeY_frame {s : Generator} {x y r t : ℕ} (hc : Op.Valid.Comparable s x y r t)
    (hle : 0 ≤ s.qF1 x - s.qF1 y) {j : ℕ} (hj : j < s.variablesNext) :
    (xgeYEffect s.variablesNext c x y r t).values s.qF1 j = s.qF1 j := by
  obtain ⟨_, _, -, -, -, -, -, -, hframe⟩ := xgeY_spec (c := c) hc hle
  exact hframe j hj

theorem xgtY_frame {s : Generator} {x y r t : ℕ} (hc : Op.Valid.Comparable s x y r t)
    (hlt : 0 < s.qF1 x - s.qF1 y) {j : ℕ} (hj : j < s.variablesNext) :
    (xgtYEffect s.variablesNext c x y r t).values s.qF1 j = s.qF1 j := by
  obtain ⟨_, _, -, -, -, -, -, -, hframe⟩ := xgtY_spec (c := c) hc hlt
  exact hframe j hj

theorem Op.values_frame {s : Generator} {op : Op} (h : op.Valid s) {j : ℕ}
    (hj : j < s.variablesNext) :
    (op.effect prime oneq s.variablesNext c).values s.qF1 j = s.qF1 j := by
  cases op with
  | newConstraint => rfl
  | addTerm coefficient variableIDs constraintID =>
      cases variableIDs with
      | nil => rfl
      | cons i rest => exact chainEffect_frame coefficient constraintID rest _ c i s.qF1 j hj
  | constant qvalue => exact Function.update_of_ne hj.ne _ _
  | distanceSquared p1 p2 n =>
      exact (forLoop_distance_frame p1 p2 n _ hj.ne).trans (Function.update_of_ne hj.ne _ _)
  | product a b => exact Function.update_of_ne hj.ne _ _
  | sum terms => exact (foldl_sum_frame terms _ hj.ne).trans (Function.update_of_ne hj.ne _ _)
  | xgeY x y r t => exact xgeY_frame h.1 h.2 hj
  | xgtY x y r t => exact xgtY_frame h.1 h.2 hj
  | xleY x y r t => exact xgeY_frame h.1 h.2 hj
  | xltY x y r t => exact xgtY_frame h.1 h.2 hj
  | eqVec x y d => rfl
  | neq x y => exact neqValues_frame s.qF1 (.inl hj)
  | neqVec x y d => exact neqVecValues_frame s.qF1 hj

end Frame

/-! ## New values can be mapped -/

section Mapped

variable {p : ℕ} [Fact p.Prime] {v : ℕ}

/-- A point that maps the first values. -/
def Matches (x : ℕ → ZMod p) (n : ℕ) (q : ℕ → ℚ) : Prop :=
  ∀ i < n, Convertible p (q i) ∧ x i = (q i : ZMod p)

theorem Matches.sub {x : ℕ → ZMod p} {n : ℕ} {q : ℕ → ℚ} (h : Matches x n q) {i j : ℕ}
    (hi : i < n) (hj : j < n) :
    Convertible p (q i - q j) ∧ x i - x j = ((q i - q j : ℚ) : ZMod p) := by
  refine ⟨(h i hi).1.sub (h j hj).1, ?_⟩
  rw [Rat.cast_sub_of_ne_zero (h i hi).1 (h j hj).1, (h i hi).2, (h j hj).2]

theorem Matches.old {x : ℕ → ZMod p} {m n : ℕ} {q q' : ℕ → ℚ} (h : Matches x n q') (hmn : m ≤ n)
    (hframe : ∀ i < m, q' i = q i) : Matches x m q := by
  intro i hi
  rw [← hframe i hi]
  exact h i (hi.trans_le hmn)

/-- Values that can be mapped have a point. -/
theorem matches_cast {n : ℕ} {q : ℕ → ℚ} (h : ∀ i < n, Convertible p (q i)) :
    Matches (fun i => (q i : ZMod p)) n q := fun i hi => ⟨h i hi, rfl⟩

/-- The accumulated square of a distance. -/
theorem distance_value {x : ℕ → ZMod p} {q : ℕ → ℚ} (h : Matches x v q) {p1 p2 n : ℕ}
    (h1 : p1 + n ≤ v) (h2 : p2 + n ≤ v) :
    Convertible p
        (forLoop n
          (fun i q =>
            Function.update q v (q v + (q (p1 + i) - q (p2 + i)) * (q (p1 + i) - q (p2 + i))))
          (Function.update q v 0) v) ∧
      ((forLoop n
          (fun i q =>
            Function.update q v (q v + (q (p1 + i) - q (p2 + i)) * (q (p1 + i) - q (p2 + i))))
          (Function.update q v 0) v : ℚ) : ZMod p) =
        ∑ i ∈ Finset.range n, (x (p1 + i) - x (p2 + i)) * (x (p1 + i) - x (p2 + i)) := by
  have hloop := forLoop_induction
    (P := fun m (f : ℕ → ℚ) => (∀ j < v, f j = q j) ∧ Convertible p (f v) ∧
      ((f v : ℚ) : ZMod p) =
        ∑ i ∈ Finset.range m, (x (p1 + i) - x (p2 + i)) * (x (p1 + i) - x (p2 + i)))
    (n := n)
    (g := fun i q =>
      Function.update q v (q v + (q (p1 + i) - q (p2 + i)) * (q (p1 + i) - q (p2 + i))))
    (s := Function.update q v 0) ?_ ?_
  · exact hloop.2
  · -- the variable starts at zero
    refine ⟨fun j hj => Function.update_of_ne hj.ne _ _, ?_, ?_⟩
    · rw [Function.update_self]
      exact convertible_intCast 0
    · rw [Function.update_self, Finset.range_zero, Finset.sum_empty, Rat.cast_zero]
  · rintro i hi f ⟨hframe, hconv, hval⟩
    -- a later variable is written, the coordinates read are those from before
    have hf : Matches x v f := fun j hj => by
      rw [hframe j hj]
      exact h j hj
    obtain ⟨hdiff, hcast⟩ := hf.sub (i := p1 + i) (j := p2 + i) (by omega) (by omega)
    refine ⟨?_, ?_, ?_⟩
    · intro j hj
      rw [Function.update_of_ne hj.ne, hframe j hj]
    · rw [Function.update_self]
      exact hconv.add (hdiff.mul hdiff)
    · rw [Function.update_self, Rat.cast_add_of_ne_zero hconv (hdiff.mul hdiff),
        Rat.cast_mul_of_ne_zero hdiff hdiff, hval, ← hcast, Finset.sum_range_succ]

/-- The accumulated sum. -/
theorem sum_value {x : ℕ → ZMod p} (terms : List ℕ) (hterms : ∀ k ∈ terms, k < v) (q : ℕ → ℚ)
    (h : Matches x v q) (hq : Convertible p (q v)) :
    Convertible p (terms.foldl (fun q k => Function.update q v (q v + q k)) q v) ∧
      ((terms.foldl (fun q k => Function.update q v (q v + q k)) q v : ℚ) : ZMod p) =
        (q v : ZMod p) + (terms.map x).sum := by
  induction terms generalizing q with
  | nil =>
      rw [List.map_nil, List.sum_nil, add_zero]
      exact ⟨hq, rfl⟩
  | cons k terms ih =>
      have hk := h k (hterms k List.mem_cons_self)
      have hstep := ih (fun j hj => hterms j (List.mem_cons_of_mem k hj))
        (Function.update q v (q v + q k))
        (h.old le_rfl fun j hj => (Function.update_of_ne hj.ne _ _).symm)
      rw [Function.update_self, Rat.cast_add_of_ne_zero hq hk.1, ← hk.2, add_assoc] at hstep
      exact hstep (hq.add hk.1)

theorem factor_convertible {q : ℕ → ℚ} (h : ∀ i < v, Convertible p (q i)) {a : ℤ} (ha : a < v) :
    Convertible p (Generator.factor q a) := by
  rw [Generator.factor]
  split
  · exact h a.toNat (by omega)
  · exact convertible_intCast 1

theorem factor_cast {x : ℕ → ZMod p} {q : ℕ → ℚ} (h : Matches x v q) {a : ℤ} (ha : a < v) :
    ((Generator.factor q a : ℚ) : ZMod p) = factorValue x a := by
  rw [Generator.factor, factorValue]
  split
  · rename_i hneg
    rw [if_neg (not_lt_of_ge hneg), (h a.toNat (by omega)).2]
  · rename_i hneg
    rw [if_pos (not_le.1 hneg), Rat.cast_one]

theorem chainEffect_convertible (coefficient : ℤ) (constraintID : ℕ) (rest : List ℕ) :
    ∀ (v c i : ℕ) (q : ℕ → ℚ), i < v → (∀ j ∈ rest, j < v) → (∀ j < v, Convertible p (q j)) →
      ∀ j < v + (chainEffect coefficient constraintID v c i rest).vars,
        Convertible p ((chainEffect coefficient constraintID v c i rest).values q j) := by
  induction rest with
  | nil => exact fun _ _ _ _ _ _ hq => hq
  | cons nextFactor rest ih =>
      cases rest with
      | nil => exact fun _ _ _ _ _ _ hq => hq
      | cons k rest =>
          intro v c i q hi hrest hq j hj
          refine ih (v + 1) (c + 1) v (Function.update q v (q i * q nextFactor))
            (Nat.lt_succ_self v) ?_ ?_ j ?_
          · intro l hl
            exact Nat.lt_succ_of_lt (hrest l (List.mem_cons_of_mem _ hl))
          · intro l hl
            by_cases hlv : l = v
            · rw [hlv, Function.update_self]
              exact (hq i hi).mul (hq nextFactor (hrest nextFactor List.mem_cons_self))
            · rw [Function.update_of_ne hlv]
              exact hq l (by omega)
          · rw [chainEffect] at hj
            simp only at hj
            omega

omit [Fact p.Prime] in
/-- A gadget that writes one new variable. -/
theorem convertible_single {q f : ℕ → ℚ} (hq : ∀ i < v, Convertible p (q i))
    (hframe : ∀ i < v, f i = q i) (hv : Convertible p (f v)) {i : ℕ} (hi : i < v + 1) :
    Convertible p (f i) := by
  rcases Nat.lt_succ_iff_lt_or_eq.1 hi with hlt | rfl
  · rw [hframe i hlt]
    exact hq i hlt
  · exact hv

/-- A comparison writes integers. -/
theorem convertible_bits {q f : ℕ → ℚ} {r t : ℕ} {wn wd : ℕ → ℤ}
    (hq : ∀ i < v, Convertible p (q i)) (hframe : ∀ i < v, f i = q i)
    (hn : ∀ i < r, f (v + i) = wn i) (hd : ∀ i < t, f (v + r + i) = wd i) {i : ℕ}
    (hi : i < v + (r + t)) : Convertible p (f i) := by
  rcases Nat.lt_or_ge i v with hlt | hge
  · rw [hframe i hlt]
    exact hq i hlt
  · obtain ⟨j, rfl⟩ := Nat.exists_eq_add_of_le hge
    rcases Nat.lt_or_ge j r with hjr | hjr
    · rw [hn j hjr]
      exact convertible_intCast _
    · obtain ⟨k, rfl⟩ := Nat.exists_eq_add_of_le hjr
      rw [← add_assoc, hd k (by omega)]
      exact convertible_intCast _

/-- A right call keeps all values mappable. -/
theorem Op.values_convertible {prime : ℤ} {oneq : ℚ} {c : ℕ} {s : Generator} {op : Op}
    (h : op.Valid s) (hgood : op.Good p) (hq : ∀ i < s.variablesNext, Convertible p (s.qF1 i)) :
    ∀ i < s.variablesNext + (op.effect prime oneq s.variablesNext c).vars,
      Convertible p ((op.effect prime oneq s.variablesNext c).values s.qF1 i) := by
  have hframe : ∀ i < s.variablesNext,
      (op.effect prime oneq s.variablesNext c).values s.qF1 i = s.qF1 i :=
    fun i hi => op.values_frame h hi
  have hx := matches_cast hq
  have hge : ∀ {x y r t : ℕ}, Op.Valid.Comparable s x y r t → 0 ≤ s.qF1 x - s.qF1 y →
      ∀ i < s.variablesNext + (r + t),
        Convertible p ((xgeYEffect s.variablesNext c x y r t).values s.qF1 i) := by
    intro x y r t hc hle i hi
    obtain ⟨wn, wd, -, -, -, -, hn, hd, hold⟩ := xgeY_spec (c := c) hc hle
    exact convertible_bits hq hold hn hd hi
  -- the strict comparison has the same bits, its numerator one less and its denominator not
  have hgt : ∀ {x y r t : ℕ}, Op.Valid.Comparable s x y r t → 0 < s.qF1 x - s.qF1 y →
      ∀ i < s.variablesNext + (r + t),
        Convertible p ((xgtYEffect s.variablesNext c x y r t).values s.qF1 i) := by
    intro x y r t hc hlt i hi
    obtain ⟨wn, wd, -, -, -, -, hn, hd, hold⟩ := xgtY_spec (c := c) hc hlt
    exact convertible_bits hq hold hn hd hi
  -- most operations write one variable: its value is a polynomial of old ones
  cases op with
  | newConstraint => exact hq
  | addTerm coefficient variableIDs constraintID =>
      cases variableIDs with
      | nil => exact hq
      | cons i rest =>
          exact chainEffect_convertible coefficient constraintID rest _ c i s.qF1
            (h i List.mem_cons_self) (fun j hj => h j (List.mem_cons_of_mem i hj)) hq
  | constant qvalue =>
      intro i hi
      refine convertible_single hq hframe ?_ hi
      show Convertible p (Function.update s.qF1 s.variablesNext qvalue s.variablesNext)
      rw [Function.update_self]
      exact hgood
  | distanceSquared p1 p2 n =>
      intro i hi
      exact convertible_single hq hframe (distance_value hx h.1 h.2).1 hi
  | product a b =>
      intro i hi
      refine convertible_single hq hframe ?_ hi
      show Convertible p (Function.update s.qF1 s.variablesNext _ s.variablesNext)
      rw [Function.update_self, one_mul]
      exact (factor_convertible hq h.1).mul (factor_convertible hq h.2)
  | sum terms =>
      intro i hi
      refine convertible_single hq hframe ?_ hi
      refine (sum_value terms h (Function.update s.qF1 s.variablesNext 0)
        (hx.old le_rfl fun j hj => (Function.update_of_ne hj.ne _ _).symm) ?_).1
      rw [Function.update_self]
      exact convertible_intCast 0
  | xgeY x y r t => exact hge h.1 h.2
  | xgtY x y r t => exact hgt h.1 h.2
  | xleY x y r t => exact hge h.1 h.2
  | xltY x y r t => exact hgt h.1 h.2
  | eqVec x y d => exact hq
  | neq x y => exact hgood.elim
  | neqVec x y d =>
      obtain rfl : d = 0 := hgood
      intro i hi
      refine convertible_single hq hframe ?_ hi
      show Convertible p (Function.update s.qF1 s.variablesNext 1 s.variablesNext)
      rw [Function.update_self]
      exact convertible_intCast 1

end Mapped

/-! ## The constraints of a gadget -/

section Residual

variable {p : ℕ} [Fact p.Prime] (gamma : Vec) {x : ℕ → ZMod p} {v c : ℕ}

theorem bitsTerms_residual {xb xbLength : ℕ} {w : ℕ → ℤ} (hw : WeightedBits xbLength w)
    (hx : ∀ b < xbLength, x (xb + b) = (w b : ZMod p)) :
    residual gamma x (bitsTerms c xb xbLength) = 0 := by
  rw [bitsTerms, residual_range]
  apply Finset.sum_eq_zero
  intro b hb
  have hb' := Finset.mem_range.1 hb
  simp only [residual_cons, residual_nil, termValue, factorValue_natCast, factorValue_neg_one,
    hx b hb']
  rcases hw b hb' with hzero | hone
  · rw [hzero]
    simp
  · rw [hone]
    push_cast
    ring

theorem fractionTerms_residual (check y' x' num r den t : ℕ) :
    residual gamma x (fractionTerms check x' y' num r den t) =
      gamma check * ((x x' - x y') * ∑ i ∈ Finset.range t, x (den + i) -
        ∑ i ∈ Finset.range r, x (num + i)) := by
  rw [fractionTerms, residual_append, residual_range, residual_range, mul_sub, Finset.mul_sum,
    Finset.mul_sum, Finset.mul_sum, sub_eq_add_neg, ← Finset.sum_neg_distrib]
  congr 1
  · apply Finset.sum_congr rfl
    intro i _
    simp only [residual_cons, residual_nil, termValue, factorValue_natCast]
    push_cast
    ring
  · apply Finset.sum_congr rfl
    intro i _
    simp only [residual_cons, residual_nil, termValue, factorValue_natCast, factorValue_neg_one]
    push_cast
    ring

theorem cast_mul_den {q : ℚ} (h : Convertible p q) : (q : ZMod p) * (q.den : ZMod p) = q.num := by
  rw [Rat.cast_def, div_mul_cancel₀ _ h]

/-- Sums of weighted bits at a point. -/
theorem sum_bits_cast {n base : ℕ} {w : ℕ → ℤ} {a : ℤ} (hsum : ∑ i ∈ Finset.range n, w i = a)
    (hx : ∀ i < n, x (base + i) = (w i : ZMod p)) :
    ∑ i ∈ Finset.range n, x (base + i) = (a : ZMod p) := by
  rw [← hsum, Int.cast_sum]
  apply Finset.sum_congr rfl
  intro i hi
  exact hx i (Finset.mem_range.1 hi)

theorem matches_bits {q : ℕ → ℚ} {n base m : ℕ} {w : ℕ → ℤ} (hm : Matches x m q)
    (hle : base + n ≤ m) (hval : ∀ i < n, q (base + i) = w i) :
    ∀ i < n, x (base + i) = (w i : ZMod p) := by
  intro i hi
  rw [(hm (base + i) (by omega)).2, hval i hi, Rat.cast_intCast]

theorem xgeY_residual {s : Generator} {x' y' r t : ℕ} (hc : Op.Valid.Comparable s x' y' r t)
    (hle : 0 ≤ s.qF1 x' - s.qF1 y')
    (hm : Matches x (s.variablesNext + (r + t))
      ((xgeYEffect s.variablesNext c x' y' r t).values s.qF1)) :
    residual gamma x (xgeYEffect s.variablesNext c x' y' r t).terms = 0 := by
  obtain ⟨wn, wd, hwn, hwd, hsumn, hsumd, hn, hd, hframe⟩ := xgeY_spec (c := c) hc hle
  have hnx := matches_bits hm (by omega) hn
  have hdx := matches_bits hm (by omega) hd
  obtain ⟨hconv, hdiff⟩ := (hm.old (by omega) hframe).sub hc.1 hc.2.1
  simp only [xgeYEffect, residual_append, bitsTerms_residual gamma hwn hnx,
    bitsTerms_residual gamma hwd hdx, fractionTerms_residual, residual_cons, residual_nil, termValue,
    factorValue_natCast, factorValue_neg_one, sum_bits_cast hsumn hnx, sum_bits_cast hsumd hdx]
  have hfraction := cast_mul_den hconv
  rw [← hdiff] at hfraction
  push_cast
  linear_combination (gamma (c + r + t) : ZMod p) * hfraction

theorem xgtY_residual {s : Generator} {x' y' r t : ℕ} (hc : Op.Valid.Comparable s x' y' r t)
    (hlt : 0 < s.qF1 x' - s.qF1 y')
    (hm : Matches x (s.variablesNext + (r + t))
      ((xgtYEffect s.variablesNext c x' y' r t).values s.qF1)) :
    residual gamma x (xgtYEffect s.variablesNext c x' y' r t).terms = 0 := by
  obtain ⟨wn, wd, hwn, hwd, hsumn, hsumd, hn, hd, hframe⟩ := xgtY_spec (c := c) hc hlt
  have hnx := matches_bits hm (by omega) hn
  have hdx := matches_bits hm (by omega) hd
  obtain ⟨hconv, hdiff⟩ := (hm.old (by omega) hframe).sub hc.1 hc.2.1
  simp only [xgtYEffect, residual_append, bitsTerms_residual gamma hwn hnx,
    bitsTerms_residual gamma hwd hdx, fractionTerms_residual, residual_cons, residual_nil, termValue,
    factorValue_neg_one, sum_bits_cast hsumn hnx, sum_bits_cast hsumd hdx]
  have hfraction := cast_mul_den hconv
  rw [← hdiff] at hfraction
  push_cast
  linear_combination (gamma (c + r + t) : ZMod p) * hfraction

theorem chainEffect_residual (coefficient : ℤ) (constraintID : ℕ) (rest : List ℕ) :
    ∀ (v c i : ℕ) (q : ℕ → ℚ), i < v → (∀ j ∈ rest, j < v) →
      Matches x (v + (chainEffect coefficient constraintID v c i rest).vars)
        ((chainEffect coefficient constraintID v c i rest).values q) →
      residual gamma x (chainEffect coefficient constraintID v c i rest).terms =
        gamma constraintID * (coefficient * (x i * (rest.map x).prod)) := by
  induction rest with
  | nil =>
      intro v c i q _ _ _
      simp [chainEffect, termsEffect, termValue]
  | cons nextFactor rest ih =>
      cases rest with
      | nil =>
          intro v c i q _ _ _
          simp [chainEffect, termsEffect, termValue, mul_assoc]
      | cons k rest =>
          intro v c i q hi hrest hm
          have hnext := hrest nextFactor List.mem_cons_self
          set q' := Function.update q v (q i * q nextFactor) with hq'
          set e := chainEffect coefficient constraintID (v + 1) (c + 1) v (k :: rest) with he
          have hm' : Matches x (v + 1 + e.vars) (e.values q') := by
            intro j hj
            exact hm j (by rw [chainEffect, ← he]; simp only; omega)
          have hframe := chainEffect_frame coefficient constraintID (k :: rest) (v + 1) (c + 1) v q'
          have htail := ih (v + 1) (c + 1) v q' (Nat.lt_succ_self v)
            (fun l hl => Nat.lt_succ_of_lt (hrest l (List.mem_cons_of_mem _ hl))) hm'
          -- the new variable holds the product of the two factors before it
          have hold : Matches x (v + 1) q' := hm'.old (by omega) hframe
          have hxi := hold i (Nat.lt_succ_of_lt hi)
          have hxn := hold nextFactor (Nat.lt_succ_of_lt hnext)
          have hxv := (hold v (Nat.lt_succ_self v)).2
          rw [hq', Function.update_of_ne hi.ne] at hxi
          rw [hq', Function.update_of_ne hnext.ne] at hxn
          rw [hq', Function.update_self, Rat.cast_mul_of_ne_zero hxi.1 hxn.1, ← hxi.2, ← hxn.2]
            at hxv
          have hterms : (chainEffect coefficient constraintID v c i
              (nextFactor :: k :: rest)).terms =
                ⟨c, 1, v, -1⟩ :: ⟨c, -1, i, nextFactor⟩ :: e.terms := rfl
          rw [hterms, residual_cons, residual_cons, htail, termValue, termValue,
            factorValue_natCast, factorValue_natCast, factorValue_natCast, factorValue_neg_one, hxv]
          simp only [List.map_cons, List.prod_cons]
          push_cast
          ring

variable (c x) in
/-- The point `x` holds what the call has left in the variables. -/
abbrev Op.WrittenAt (op : Op) (oneq : ℚ) (s : Generator) : Prop :=
  Matches x (s.variablesNext + (op.effect p oneq s.variablesNext c).vars)
    ((op.effect p oneq s.variablesNext c).values s.qF1)

theorem distanceSquared_residual {oneq : ℚ} {s : Generator} {p1 p2 n : ℕ}
    (h : (Op.distanceSquared p1 p2 n).Valid s) (hold : Matches x s.variablesNext s.qF1)
    (hm : Op.WrittenAt x c (Op.distanceSquared p1 p2 n) oneq s) :
    residual gamma x ((Op.distanceSquared p1 p2 n).effect p oneq s.variablesNext c).terms =
      (Op.distanceSquared p1 p2 n).ownValue gamma x := by
  have hnew := (hm s.variablesNext (Nat.lt_succ_self _)).2
  simp only [Op.effect, (distance_value hold h.1 h.2).2] at hnew
  simp only [Op.effect, Op.ownValue, residual_append, residual_range, residual_cons,
    residual_nil, termValue, factorValue_natCast, factorValue_neg_one, hnew]
  have hsum : ∀ i ∈ Finset.range n,
      (gamma c : ZMod p) * (((1 : ℤ) : ZMod p) * x (p1 + i) * x (p1 + i)) +
        ((gamma c : ZMod p) * (((-1 : ℤ) : ZMod p) * x (p1 + i) * x (p2 + i)) +
          ((gamma c : ZMod p) * (((-1 : ℤ) : ZMod p) * x (p1 + i) * x (p2 + i)) +
            ((gamma c : ZMod p) * (((1 : ℤ) : ZMod p) * x (p2 + i) * x (p2 + i)) + 0))) =
      (gamma c : ZMod p) * ((x (p1 + i) - x (p2 + i)) * (x (p1 + i) - x (p2 + i))) := by
    intro i _
    push_cast
    ring
  rw [Finset.sum_congr rfl hsum, ← Finset.mul_sum]
  push_cast
  ring

theorem product_residual {oneq : ℚ} {s : Generator} {a b : ℤ}
    (h : (Op.product a b).Valid s) (hold : Matches x s.variablesNext s.qF1)
    (hm : Op.WrittenAt x c (Op.product a b) oneq s) :
    residual gamma x ((Op.product a b).effect p oneq s.variablesNext c).terms =
      (Op.product a b).ownValue gamma x := by
  have hnew := (hm s.variablesNext (Nat.lt_succ_self _)).2
  simp only [Op.effect, Function.update_self] at hnew
  have hq : ∀ i < s.variablesNext, Convertible p (s.qF1 i) := fun i hi => (hold i hi).1
  rw [one_mul, Rat.cast_mul_of_ne_zero (factor_convertible hq h.1) (factor_convertible hq h.2),
    factor_cast hold h.1, factor_cast hold h.2] at hnew
  simp only [Op.effect, Op.ownValue, residual_cons, residual_nil, termValue,
    factorValue_natCast, factorValue_neg_one, hnew]
  push_cast
  ring

theorem sum_residual {oneq : ℚ} {s : Generator} {terms : List ℕ}
    (h : (Op.sum terms).Valid s) (hold : Matches x s.variablesNext s.qF1)
    (hm : Op.WrittenAt x c (Op.sum terms) oneq s) :
    residual gamma x ((Op.sum terms).effect p oneq s.variablesNext c).terms =
      (Op.sum terms).ownValue gamma x := by
  have hstart : Matches x s.variablesNext (Function.update s.qF1 s.variablesNext 0) :=
    hold.old le_rfl fun j hj => (Function.update_of_ne hj.ne _ _).symm
  have hzero : Convertible p (Function.update s.qF1 s.variablesNext 0 s.variablesNext) := by
    rw [Function.update_self]
    exact convertible_intCast 0
  have hnew := (hm s.variablesNext (Nat.lt_succ_self _)).2
  simp only [Op.effect, (sum_value terms h _ hstart hzero).2, Function.update_self,
    Rat.cast_zero, zero_add] at hnew
  simp only [Op.effect, Op.ownValue, residual_append, residual_flatMap, residual_cons,
    residual_nil, termValue, factorValue_natCast, factorValue_neg_one, hnew]
  have hterm : ∀ k ∈ terms,
      (gamma c : ZMod p) * (((1 : ℤ) : ZMod p) * x k * 1) + 0 = (gamma c : ZMod p) * x k := by
    intro k _
    push_cast
    ring
  rw [List.map_congr_left hterm, List.sum_map_mul_left]
  push_cast
  ring

theorem eqVec_residual {oneq : ℚ} {s : Generator} {x' y' d : ℕ}
    (h : (Op.eqVec x' y' d).Valid s) (hold : Matches x s.variablesNext s.qF1) :
    residual gamma x ((Op.eqVec x' y' d).effect p oneq s.variablesNext c).terms =
      (Op.eqVec x' y' d).ownValue gamma x := by
  obtain ⟨hx', hy', heq⟩ := h
  simp only [Op.effect, Op.ownValue, residual_range]
  apply Finset.sum_eq_zero
  intro i hi
  have hi' := Finset.mem_range.1 hi
  simp only [residual_cons, residual_nil, termValue, factorValue_natCast, factorValue_neg_one,
    (hold (x' + i) (by omega)).2, (hold (y' + i) (by omega)).2, heq i hi']
  push_cast
  ring

/-- A comparison of empty vectors writes a one. -/
theorem neqVec_zero_residual {oneq : ℚ} {s : Generator} {x' y' : ℕ}
    (hm : Op.WrittenAt x c (Op.neqVec x' y' 0) oneq s) :
    residual gamma x ((Op.neqVec x' y' 0).effect p oneq s.variablesNext c).terms =
      (Op.neqVec x' y' 0).ownValue gamma x := by
  have hnew := (hm s.variablesNext (Nat.lt_succ_self _)).2
  have hval : (neqVecEffect p oneq s.variablesNext c x' y' 0).values s.qF1 s.variablesNext =
      1 := Function.update_self _ _ _
  simp only [Op.effect, hval, Rat.cast_one] at hnew
  simp only [Op.effect, Op.ownValue, neqVecEffect, binaryTerms, List.range_zero,
    List.flatMap_nil, residual_append, residual_cons, residual_nil, termValue,
    factorValue_natCast, factorValue_neg_one, hnew]
  push_cast
  ring

/-- A right call satisfies its constraints; what is left is what the program adds itself. -/
theorem Op.residual_eq {oneq : ℚ} {s : Generator} {op : Op} (h : op.Valid s) (hgood : op.Good p)
    (hm : Matches x (s.variablesNext + (op.effect p oneq s.variablesNext c).vars)
      ((op.effect p oneq s.variablesNext c).values s.qF1)) :
    residual gamma x (op.effect p oneq s.variablesNext c).terms = op.ownValue gamma x := by
  have hold : Matches x s.variablesNext s.qF1 :=
    hm.old (Nat.le_add_right _ _) fun i hi => op.values_frame h hi
  cases op with
  | newConstraint => rfl
  | addTerm coefficient variableIDs constraintID =>
      cases variableIDs with
      | nil => rfl
      | cons i rest =>
          exact chainEffect_residual gamma coefficient constraintID rest _ c i s.qF1
            (h i List.mem_cons_self) (fun j hj => h j (List.mem_cons_of_mem i hj)) hm
  | constant qvalue =>
      have hnew := (hm s.variablesNext (Nat.lt_succ_self _)).2
      simp only [Op.effect, Function.update_self] at hnew
      simp only [Op.effect, Op.ownValue, residual_cons, residual_nil, termValue,
        factorValue_natCast, factorValue_neg_one, hnew, Int.cast_neg, cast_convertToZ hgood]
      push_cast
      ring
  | distanceSquared p1 p2 n => exact distanceSquared_residual gamma h hold hm
  | product a b => exact product_residual gamma h hold hm
  | sum terms => exact sum_residual gamma h hold hm
  | xgeY x' y' r t => exact xgeY_residual gamma h.1 h.2 hm
  | xgtY x' y' r t => exact xgtY_residual gamma h.1 h.2 hm
  | xleY x' y' r t => exact xgeY_residual gamma h.1 h.2 hm
  | xltY x' y' r t => exact xgtY_residual gamma h.1 h.2 hm
  | eqVec x' y' d => exact eqVec_residual gamma h hold
  | neq x' y' => exact hgood.elim
  | neqVec x' y' d =>
      obtain rfl : d = 0 := hgood
      exact neqVec_zero_residual gamma hm

/-! ## The constraints of a `!=` -/

/-- Constraints without weight. -/
theorem neqEffect_residual_outside {prime : ℤ} {oneq : ℚ} {x' y' : ℕ}
    (h : ∀ k, c ≤ k → k < c + 3 → ((gamma k : ℤ) : ZMod p) = 0) :
    residual gamma x (neqEffect prime oneq v c x' y').terms = 0 := by
  apply residual_eq_zero
  intro t ht
  simp only [neqEffect, binaryTerms, List.cons_append, List.nil_append, List.mem_cons,
    List.not_mem_nil, or_false] at ht
  rcases ht with rfl | rfl | rfl | rfl | rfl | rfl | rfl | rfl <;> exact h _ (by simp) (by simp)

theorem neqVecTerms_residual_outside {prime : ℤ} {oneq : ℚ} {x' y' i d : ℕ} (hi : i < d)
    (h : ∀ k, c ≤ k → k < c + (2 + 3 * d) → ((gamma k : ℤ) : ZMod p) = 0) :
    residual gamma x (neqVecTerms prime oneq v c x' y' i) = 0 := by
  rw [neqVecTerms, residual_append, neqEffect_residual_outside gamma, zero_add]
  · apply residual_eq_zero
    intro t ht
    simp only [List.mem_cons, List.not_mem_nil, or_false] at ht
    rcases ht with rfl | rfl
    · exact h (c + 1) (by omega) (by omega)
    · exact h (c + 1) (by omega) (by omega)
  · intro k hk hk'
    exact h k (by omega) (by omega)

/-- Weights that are one in a single constraint. -/
def single (k : ℕ) : Vec := fun k' => if k' = k then 1 else 0

theorem cast_single_of_ne {k k' : ℕ} (h : k' ≠ k) : ((single k k' : ℤ) : ZMod p) = 0 := by
  rw [single, if_neg h, Int.cast_zero]

/-- Outside the constraints of the call any call leaves what the program adds itself. -/
theorem Op.residual_outside {oneq : ℚ} {s : Generator} {op : Op} {k : ℕ} (h : op.Valid s)
    (hm : Matches x (s.variablesNext + (op.effect p oneq s.variablesNext c).vars)
      ((op.effect p oneq s.variablesNext c).values s.qF1))
    (hk : k < c ∨ c + (op.effect p oneq s.variablesNext c).cons ≤ k) :
    residual (single k) x (op.effect p oneq s.variablesNext c).terms =
      op.ownValue (single k) x := by
  cases op with
  | neq x' y' =>
      apply neqEffect_residual_outside
      intro k' hk' hk''
      simp only [Op.effect, neqEffect] at hk
      exact cast_single_of_ne (by omega)
  | neqVec x' y' d =>
      have hzero : ∀ k', c ≤ k' → k' < c + (2 + 3 * d) → ((single k k' : ℤ) : ZMod p) = 0 := by
        intro k' hk' hk''
        simp only [Op.effect, neqVecEffect] at hk
        exact cast_single_of_ne (by omega)
      simp only [Op.effect, neqVecEffect, residual_append, residual_range, Op.ownValue]
      rw [Finset.sum_eq_zero fun i hi =>
        neqVecTerms_residual_outside (single k) (Finset.mem_range.1 hi) hzero, add_zero]
      simp only [binaryTerms, residual_cons, residual_nil, termValue, hzero c le_rfl (by omega),
        hzero (c + 1) (by omega) (by omega), zero_mul, add_zero]
  | constant qvalue =>
      have hnew := (hm s.variablesNext (Nat.lt_succ_self _)).1
      have hval : (Op.effect p oneq s.variablesNext c (.constant qvalue)).values s.qF1
          s.variablesNext = qvalue := Function.update_self _ _ _
      rw [hval] at hnew
      exact Op.residual_eq (single k) h hnew hm
  | _ => exact Op.residual_eq (single k) h trivial hm

/-- `neqCheck`: the inverse times the difference, less one, less what was computed to be just
that. With `oneq` zero the prover did not take the one off. -/
theorem neqEffect_residual {prime : ℤ} {x' y' : ℕ}
    (hvar : x (v + 2) = (x y' - x x') * x (v + 1)) :
    residual (single (c + 1)) x (neqEffect prime 0 v c x' y').terms = -1 := by
  have hbinary : ((single (c + 1) c : ℤ) : ZMod p) = 0 := cast_single_of_ne (by omega)
  have hopt : ((single (c + 1) (c + 2) : ℤ) : ZMod p) = 0 := cast_single_of_ne (by omega)
  have hcheck : ((single (c + 1) (c + 1) : ℤ) : ZMod p) = 1 := by
    rw [single, if_pos rfl, Int.cast_one]
  simp only [neqEffect, binaryTerms, residual_append, residual_cons, residual_nil, termValue,
    factorValue_natCast, factorValue_neg_one, hbinary, hopt, hcheck, hvar]
  push_cast
  ring

/-- What a `!=` computes from its operands. -/
theorem neqValues_new {p : ℤ} {a b : ℕ} (hx : a < v) (hy : b < v) (q : ℕ → ℚ) :
    neqValues p 0 v a b q (v + 1) = Generator.diffInverse p (q b - q a) ∧
      neqValues p 0 v a b q (v + 2) = (q b - q a) * Generator.diffInverse p (q b - q a) := by
  constructor
  · rw [neqValues, Function.update_of_ne (by omega), Function.update_self,
      Function.update_of_ne hy.ne, Function.update_of_ne hx.ne]
  · rw [neqValues, Function.update_self, Function.update_of_ne (by omega),
      Function.update_of_ne (by omega), Function.update_of_ne (by omega),
      Function.update_of_ne (by omega), Function.update_self, sub_zero]

/-- The first component of a vector comparison is not touched by the later ones. -/
theorem neqVecValues_first (prime : ℤ) {x' y' d : ℕ} (hd : 0 < d) (hx : x' < v) (hy : y' < v)
    (q : ℕ → ℚ) :
    (neqVecValues prime 0 v x' y' d q).1 (v + 2) =
        Generator.diffInverse prime (q y' - q x') ∧
      (neqVecValues prime 0 v x' y' d q).1 (v + 3) =
        (q y' - q x') * Generator.diffInverse prime (q y' - q x') := by
  rw [neqVecValues]
  have hloop := forLoop_induction
    (P := fun n (st : (ℕ → ℚ) × Bool) => (∀ j < v, st.1 j = q j) ∧
      (0 < n → st.1 (v + 2) = Generator.diffInverse prime (q y' - q x') ∧
        st.1 (v + 3) = (q y' - q x') * Generator.diffInverse prime (q y' - q x')))
    (n := d) (g := neqVecStep prime 0 v x' y')
    (s := (Function.update q v
      (if forLoop d (fun i same => same && decide (q (x' + i) = q (y' + i))) true then 1 else 0),
      false)) ?_ ?_
  · exact hloop.2 hd
  · exact ⟨fun j hj => Function.update_of_ne hj.ne _ _, fun h => absurd h (lt_irrefl 0)⟩
  · rintro n _ st ⟨hframe, hfirst⟩
    refine ⟨?_, fun _ => ?_⟩
    · intro j hj
      rw [neqVecStep_frame st (.inl (by omega)), hframe j hj]
    · rcases Nat.eq_zero_or_pos n with rfl | hn
      · obtain ⟨hinv, hvar⟩ := neqValues_new (p := prime) (v := v + 1) (a := x') (b := y')
          (by omega) (by omega) st.1
        rw [hframe x' hx, hframe y' hy] at hinv hvar
        rw [neqVecStep]
        split
        · constructor
          · exact (Function.update_of_ne (by omega) _ _).trans hinv
          · exact (Function.update_of_ne (by omega) _ _).trans hvar
        · exact ⟨hinv, hvar⟩
      · rw [neqVecStep_frame st (.inl (by omega)), neqVecStep_frame st (.inl (by omega))]
        exact hfirst hn

/-- The product of a difference with its inverse at a point. -/
theorem cast_neqVar {q : ℕ → ℚ} (h : Matches x v q) {x' y' : ℕ} (hx : x' < v) (hy : y' < v)
    (n : ℤ) : (((q y' - q x') * n : ℚ) : ZMod p) = (x y' - x x') * n := by
  obtain ⟨hconv, hdiff⟩ := h.sub hy hx
  rw [Rat.cast_mul_of_ne_zero hconv (convertible_intCast n), ← hdiff, Rat.cast_intCast]

/-- A `!=` breaks its second constraint. -/
theorem neq_residual_bad {s : Generator} {x' y' : ℕ}
    (h : (Op.neq x' y').Valid s) (hold : Matches x s.variablesNext s.qF1)
    (hm : Op.WrittenAt x c (Op.neq x' y') 0 s) :
    ∃ k, c ≤ k ∧ k < c + ((Op.neq x' y').effect p 0 s.variablesNext c).cons ∧
      residual (single k) x ((Op.neq x' y').effect p 0 s.variablesNext c).terms =
        (Op.neq x' y').ownValue (single k) x - 1 := by
  obtain ⟨hinv, hvar⟩ := neqValues_new (p := p) h.1 h.2 s.qF1
  have hthree : (Op.effect p 0 s.variablesNext c (.neq x' y')).vars = 3 := rfl
  rw [Op.WrittenAt, hthree] at hm
  have hxinv := (hm (s.variablesNext + 1) (by omega)).2
  have hxvar := (hm (s.variablesNext + 2) (by omega)).2
  simp only [Op.effect, neqEffect, hinv, Rat.cast_intCast] at hxinv
  simp only [Op.effect, neqEffect, hvar, cast_neqVar hold h.1 h.2] at hxvar
  rw [← hxinv] at hxvar
  refine ⟨c + 1, by omega, ?_, ?_⟩
  · show c + 1 < c + 3
    omega
  · show _ = (0 : ZMod p) - 1
    rw [Op.effect, neqEffect_residual hxvar, zero_sub]

/-- A comparison of vectors breaks the second constraint of its first component. -/
theorem neqVec_residual_bad {s : Generator} {x' y' d : ℕ}
    (h : (Op.neqVec x' y' d).Valid s) (hd : 0 < d) (hold : Matches x s.variablesNext s.qF1)
    (hm : Op.WrittenAt x c (Op.neqVec x' y' d) 0 s) :
    ∃ k, c ≤ k ∧ k < c + ((Op.neqVec x' y' d).effect p 0 s.variablesNext c).cons ∧
      residual (single k) x ((Op.neqVec x' y' d).effect p 0 s.variablesNext c).terms =
        (Op.neqVec x' y' d).ownValue (single k) x - 1 := by
  obtain ⟨hx', hy'⟩ := h
  have hx : x' < s.variablesNext := by omega
  have hy : y' < s.variablesNext := by omega
  obtain ⟨hinv, hvar⟩ := neqVecValues_first p hd hx hy s.qF1
  have hvars : (Op.effect p 0 s.variablesNext c (.neqVec x' y' d)).vars = 1 + 3 * d := rfl
  rw [Op.WrittenAt, hvars] at hm
  -- the inverse and the product variable of the first coordinate carry what was written there
  have hxinv := (hm (s.variablesNext + 2) (by omega)).2
  have hxvar := (hm (s.variablesNext + 3) (by omega)).2
  simp only [Op.effect, neqVecEffect, hinv, Rat.cast_intCast] at hxinv
  simp only [Op.effect, neqVecEffect, hvar,
    cast_neqVar hold (show x' < _ by omega) (show y' < _ by omega)] at hxvar
  rw [← hxinv] at hxvar
  -- the second constraint of the first coordinate is the only one selected
  have hzero : ∀ k', k' ≠ c + 3 → ((single (c + 3) k' : ℤ) : ZMod p) = 0 :=
    fun k' hk' => cast_single_of_ne hk'
  have hcheck : ∀ i, residual (single (c + 3)) x
      [⟨c + 1, 1, (s.variablesNext + 1 + 3 * i : ℕ), -1⟩, ⟨c + 1, -1, -1, -1⟩] = 0 := by
    intro i
    simp only [residual_cons, residual_nil, termValue, hzero (c + 1) (by omega), zero_mul,
      add_zero]
  refine ⟨c + 3, by omega, ?_, ?_⟩
  · simp only [Op.effect, neqVecEffect]
    omega
  · simp only [Op.effect, neqVecEffect, residual_append, residual_range, Op.ownValue]
    rw [Finset.sum_eq_single 0]
    · have hfirst : residual (single (c + 3)) x
          (neqEffect p 0 (s.variablesNext + 1) (c + 2) x' y').terms = -1 :=
        neqEffect_residual hxvar
      rw [neqVecTerms, residual_append, hcheck]
      simp only [mul_zero, add_zero, hfirst]
      simp only [binaryTerms, residual_cons, residual_nil, termValue, hzero c (by omega),
        hzero (c + 1) (by omega), zero_mul, add_zero, zero_add, zero_sub]
    · -- the others write their constraints elsewhere
      intro i hi hi0
      rw [neqVecTerms, residual_append, hcheck, add_zero]
      apply neqEffect_residual_outside
      intro k hk hk'
      exact hzero k (by omega)
    · intro h0
      exact absurd (Finset.mem_range.2 hd) h0

/-- A call with a `!=` in it breaks one of its constraints, by one. -/
theorem Op.residual_bad {s : Generator} {op : Op} (h : op.Valid s) (hbad : ¬op.Good p)
    (hm : Matches x (s.variablesNext + (op.effect p 0 s.variablesNext c).vars)
      ((op.effect p 0 s.variablesNext c).values s.qF1)) :
    ∃ k, c ≤ k ∧ k < c + (op.effect p 0 s.variablesNext c).cons ∧
      residual (single k) x (op.effect p 0 s.variablesNext c).terms =
        op.ownValue (single k) x - 1 := by
  have hold : Matches x s.variablesNext s.qF1 :=
    hm.old (Nat.le_add_right _ _) fun i hi => op.values_frame h hi
  cases op with
  | neq x' y' => exact neq_residual_bad h hold hm
  | neqVec x' y' d => exact neqVec_residual_bad h (Nat.pos_of_ne_zero hbad) hold hm
  | constant qvalue =>
      have hnew := (hm s.variablesNext (Nat.lt_succ_self _)).1
      have hval : (Op.effect p 0 s.variablesNext c (.constant qvalue)).values s.qF1
          s.variablesNext = qvalue := Function.update_self _ _ _
      rw [hval] at hnew
      exact absurd hnew hbad
  | _ => exact absurd trivial hbad

end Residual

/-! ## The indices of the terms -/

section Below

variable {prime : ℤ} {oneq : ℚ} {v c : ℕ}

theorem chainEffect_below (coefficient : ℤ) (constraintID : ℕ) (rest : List ℕ) :
    ∀ (v c i : ℕ), i < v → (∀ j ∈ rest, j < v) →
      ∀ t ∈ (chainEffect coefficient constraintID v c i rest).terms,
        t.Below (v + (chainEffect coefficient constraintID v c i rest).vars) := by
  induction rest with
  | nil =>
      -- one factor left: a single term over an old variable
      intro v c i hi _ t ht
      obtain rfl := List.mem_singleton.1 ht
      simp only [Term.Below, chainEffect, termsEffect]
      omega
  | cons nextFactor rest ih =>
      cases rest with
      | nil =>
          intro v c i hi hrest t ht
          have hj := hrest nextFactor List.mem_cons_self
          obtain rfl := List.mem_singleton.1 ht
          simp only [Term.Below, chainEffect, termsEffect]
          omega
      | cons k rest =>
          -- more factors: the first product is a variable of its own, the rest continues from it
          intro v c i hi hrest t ht
          have hnext := hrest nextFactor List.mem_cons_self
          have htail := ih (v + 1) (c + 1) v (Nat.lt_succ_self v)
            (fun l hl => Nat.lt_succ_of_lt (hrest l (List.mem_cons_of_mem _ hl)))
          rw [chainEffect] at ht ⊢
          simp only [List.mem_cons] at ht
          rcases ht with rfl | rfl | ht
          · simp only [Term.Below]
            omega
          · simp only [Term.Below]
            omega
          · have hbelow := htail t ht
            simp only [Term.Below] at hbelow ⊢
            push_cast at hbelow ⊢
            omega

theorem bitsTerms_below {xb xbLength n : ℕ} (h : xb + xbLength ≤ n) :
    ∀ t ∈ bitsTerms c xb xbLength, t.Below n := by
  intro t ht
  obtain ⟨b, hb, ht⟩ := List.mem_flatMap.1 ht
  have hb' := List.mem_range.1 hb
  simp only [List.mem_cons, List.not_mem_nil, or_false] at ht
  rcases ht with rfl | rfl
  · simp only [Term.Below]
    omega
  · simp only [Term.Below]
    omega

theorem fractionTerms_below {check x y num r den t n : ℕ} (hx : x < n) (hy : y < n)
    (hr : num + r ≤ n) (ht : den + t ≤ n) :
    ∀ t' ∈ fractionTerms check x y num r den t, t'.Below n := by
  intro t' ht'
  rw [fractionTerms, List.mem_append, List.mem_flatMap, List.mem_flatMap] at ht'
  rcases ht' with ⟨i, hi, ht'⟩ | ⟨i, hi, ht'⟩
  · have hi' := List.mem_range.1 hi
    simp only [List.mem_cons, List.not_mem_nil, or_false] at ht'
    rcases ht' with rfl | rfl
    · simp only [Term.Below]
      omega
    · simp only [Term.Below]
      omega
  · have hi' := List.mem_range.1 hi
    obtain rfl := List.mem_singleton.1 ht'
    simp only [Term.Below]
    omega

theorem xgeYEffect_below {x y r t : ℕ} (hx : x < v) (hy : y < v) :
    ∀ t' ∈ (xgeYEffect v c x y r t).terms, t'.Below (v + (r + t)) := by
  intro t' ht'
  simp only [xgeYEffect, List.mem_append, List.mem_cons, List.not_mem_nil, or_false] at ht'
  rcases ht' with ((ht' | ht') | ht') | rfl | rfl
  · exact bitsTerms_below (by omega) t' ht'
  · exact bitsTerms_below (by omega) t' ht'
  · exact fractionTerms_below (by omega) (by omega) (by omega) (by omega) t' ht'
  · simp only [Term.Below]
    omega
  · simp only [Term.Below]
    omega

theorem xgtYEffect_below {x y r t : ℕ} (hx : x < v) (hy : y < v) :
    ∀ t' ∈ (xgtYEffect v c x y r t).terms, t'.Below (v + (r + t)) := by
  intro t' ht'
  simp only [xgtYEffect, List.mem_append, List.mem_cons, List.not_mem_nil, or_false] at ht'
  rcases ht' with ((ht' | ht') | ht') | rfl
  · exact bitsTerms_below (by omega) t' ht'
  · exact bitsTerms_below (by omega) t' ht'
  · exact fractionTerms_below (by omega) (by omega) (by omega) (by omega) t' ht'
  · simp only [Term.Below]
    omega

theorem neqEffect_below {x y n : ℕ} (hx : x < n) (hy : y < n) (hv : v + 3 ≤ n) :
    ∀ t ∈ (neqEffect prime oneq v c x y).terms, t.Below n := by
  intro t ht
  simp only [neqEffect, binaryTerms, List.cons_append, List.nil_append, List.mem_cons,
    List.not_mem_nil, or_false] at ht
  rcases ht with rfl | rfl | rfl | rfl | rfl | rfl | rfl | rfl <;>
    (simp only [Term.Below]; omega)

/-- The terms of a call stand on old variables and on its own. -/
theorem Op.terms_below {s : Generator} {op : Op} (h : op.Valid s) :
    ∀ t ∈ (op.effect prime oneq s.variablesNext c).terms,
      t.Below (s.variablesNext + (op.effect prime oneq s.variablesNext c).vars) := by
  intro t ht
  cases op with
  | newConstraint => exact absurd ht List.not_mem_nil
  | addTerm coefficient variableIDs constraintID =>
      cases variableIDs with
      | nil => exact absurd ht List.not_mem_nil
      | cons i rest =>
          exact chainEffect_below coefficient constraintID rest _ c i (h i List.mem_cons_self)
            (fun j hj => h j (List.mem_cons_of_mem i hj)) t ht
  | constant qvalue =>
      simp only [Op.effect, List.mem_cons, List.not_mem_nil, or_false] at ht
      rcases ht with rfl | rfl <;> (simp only [Term.Below, Op.effect]; omega)
  | distanceSquared p1 p2 n =>
      obtain ⟨h1, h2⟩ := h
      simp only [Op.effect, List.mem_append, List.mem_flatMap, List.mem_range, List.mem_cons,
        List.not_mem_nil, or_false] at ht
      rcases ht with ⟨i, hi, rfl | rfl | rfl | rfl⟩ | rfl <;>
        (simp only [Term.Below, Op.effect]; omega)
  | product a b =>
      obtain ⟨ha, hb⟩ := h
      simp only [Op.effect, List.mem_cons, List.not_mem_nil, or_false] at ht
      rcases ht with rfl | rfl <;> (simp only [Term.Below, Op.effect]; omega)
  | sum terms =>
      simp only [Op.effect, List.mem_append, List.mem_flatMap, List.mem_cons, List.not_mem_nil,
        or_false] at ht
      rcases ht with ⟨k, hk, rfl⟩ | rfl
      · have hk' := h k hk
        simp only [Term.Below, Op.effect]
        omega
      · simp only [Term.Below, Op.effect]
        omega
  | xgeY x y r t' => exact xgeYEffect_below h.1.1 h.1.2.1 t ht
  | xgtY x y r t' => exact xgtYEffect_below h.1.1 h.1.2.1 t ht
  | xleY x y r t' => exact xgeYEffect_below h.1.1 h.1.2.1 t ht
  | xltY x y r t' => exact xgtYEffect_below h.1.1 h.1.2.1 t ht
  | eqVec x y d =>
      obtain ⟨hx, hy, -⟩ := h
      simp only [Op.effect, List.mem_flatMap, List.mem_range, List.mem_cons, List.not_mem_nil,
        or_false] at ht
      rcases ht with ⟨i, hi, rfl | rfl⟩ <;> (simp only [Term.Below, Op.effect]; omega)
  | neq x y =>
      exact neqEffect_below (Nat.lt_add_right _ h.1) (Nat.lt_add_right _ h.2) le_rfl t ht
  | neqVec x y d =>
      obtain ⟨hx, hy⟩ := h
      simp only [Op.effect, neqVecEffect, binaryTerms, neqVecTerms, List.mem_append,
        List.mem_flatMap, List.mem_range, List.mem_cons, List.not_mem_nil, or_false] at ht
      rcases ht with ((rfl | rfl) | rfl | rfl) | ⟨i, hi, ht | rfl | rfl⟩
      · simp only [Term.Below, Op.effect, neqVecEffect]
        omega
      · simp only [Term.Below, Op.effect, neqVecEffect]
        omega
      · simp only [Term.Below, Op.effect, neqVecEffect]
        omega
      · simp only [Term.Below, Op.effect, neqVecEffect]
        omega
      · exact neqEffect_below (by omega) (by omega)
          (by simp only [Op.effect, neqVecEffect]; omega) t ht
      · simp only [Term.Below, Op.effect, neqVecEffect]
        omega
      · simp only [Term.Below, Op.effect, neqVecEffect]
        omega

end Below

end Pepper.Common.ConstraintGen
