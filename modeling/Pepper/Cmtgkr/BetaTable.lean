import Pepper.Cmtgkr.SumCheckProverRun
import Mathlib.Algebra.Order.Floor.Div

/-!
# The table of equality weights

`betar` holds, after each round over the output gates, the extension of equality at the
challenges so far times the Lagrange polynomials of the open coordinates. A round drops
the factor of its coordinate by a division, or, when that factor is zero, by computing the
table anew from the coordinates that are left.

`recomputed_betar` reads the second way. It is right as long as a coordinate is left; in the
last round `log2i` counts one coordinate for the table of one cell, and `z` is read past
the coordinates of the layer. `betarTables_iff` says for which points and challenges a
whole run keeps the table.
-/

set_option autoImplicit false

open Pepper.Common.Gmp Pepper.Foundations.Loop Pepper.Foundations.Multilinear
open Pepper.Cmtgkr.Env Pepper.Cmtgkr.Layer Pepper.Cmtgkr.LayerSum
open Pepper.Cmtgkr.SumCheckProver Pepper.Cmtgkr.SumCheckProverRun

namespace Pepper.Cmtgkr.BetaTable

/-! ## Sizes -/

theorem clog_shiftRight {n : ℕ} (hn : 0 < n) (j : ℕ) :
    Nat.clog 2 (((n - 1) >>> j) + 1) = Nat.clog 2 n - j := by
  refine eq_of_forall_ge_iff fun y => ?_
  rw [Nat.clog_le_iff_le_pow (by norm_num), Nat.sub_le_iff_le_add,
    Nat.clog_le_iff_le_pow (by norm_num), Nat.shiftRight_eq_div_pow, Nat.add_one_le_iff,
    Nat.div_lt_iff_lt_mul (Nat.two_pow_pos j), ← pow_add]
  omega

/-- The coordinates that `log2i` counts for the table of the next round: those that are
left, but never none. -/
theorem log2i_nEffective {n k : ℕ} (hn : 0 < n) :
    log2i (((n - 1) >>> (k + 1)) + 1) = max 1 (log2i n - (k + 1)) := by
  rw [log2i]
  split_ifs with hone
  · have hclog := clog_shiftRight hn (k + 1)
    rw [hone, Nat.clog_one_right] at hclog
    rw [log2i]
    split_ifs with hn1
    · omega
    · omega
  · have hclog := clog_shiftRight hn (k + 1)
    have hpos : 0 < Nat.clog 2 (((n - 1) >>> (k + 1)) + 1) :=
      Nat.clog_pos (by norm_num) (lt_of_le_of_ne (Nat.succ_pos _) (Ne.symm hone))
    have hn1 : n ≠ 1 := by
      rintro rfl
      simp at hone
    rw [log2i, if_neg hn1, ← hclog, max_eq_right hpos]

theorem lt_ceilDiv_iff {n i j : ℕ} (hn : 0 < n) : i < n ⌈/⌉ 2 ^ j ↔ i ≤ (n - 1) >>> j := by
  rw [← not_le, ceilDiv_le_iff_le_mul (Nat.two_pow_pos j), Nat.shiftRight_eq_div_pow,
    Nat.le_div_iff_mul_le (Nat.two_pow_pos j), mul_comm]
  omega

/-! ## One round -/

section Rounds

variable {p : ℕ} [Fact p.Prime] {c : SumCheckInput}

/-- The recomputation runs when the factor is zero. -/
theorem recomputed_betar (hc : c.prime = p) (bitPos nEffectiveBetar : ℕ) {z : ℤ}
    (hz : (z : ZMod p) = 1) (st : ProverState) {i : ℕ} (hi : i < nEffectiveBetar) :
    (dropBetarFactor c bitPos nEffectiveBetar z st i : ZMod p) =
      lagrange (shiftPoint (bitPos + 1) (castVec p c.z)) (log2i nEffectiveBetar) i *
        st.partialBetar := by
  have hzero : oneSub z % (p : ℤ) = 0 := by
    rw [← Int.dvd_iff_emod_eq_zero, ← ZMod.intCast_zmod_eq_zero_iff_dvd, cast_oneSub, hz, sub_self]
  rw [dropBetarFactor, hc, if_neg (not_not.2 hzero),
    forLoop_update_apply _ (fun _ x => modmult x st.partialBetar p), if_pos hi, cast_modmult,
    cast_computeChiAll _ _ _ _ hi]

/-- The table of a layer's point after the factor of coordinate `k` is dropped. -/
def droppedTable (p : ℕ) (c : SumCheckInput) (rho : ℕ → ZMod p) (k i : ℕ) : ZMod p :=
  equality (castVec p c.z) rho k *
    lagrange (shiftPoint (k + 1) (castVec p c.z)) (c.layers.mi - (k + 1)) i

/-- The tables before round `k`, `k` coordinates being replaced by challenges. -/
structure BetaTables (p : ℕ) (c : SumCheckInput) (rho : ℕ → ZMod p) (k : ℕ)
    (st : ProverState) : Prop where
  partialBetar : (st.partialBetar : ZMod p) = equality (castVec p c.z) rho k
  betar : ∀ i ≤ (c.layers.out.size - 1) >>> k, (st.betar i : ZMod p) =
    equality (castVec p c.z) rho k *
      lagrange (shiftPoint k (castVec p c.z)) (c.layers.mi - k) i

variable {rho : ℕ → ZMod p} {k : ℕ} {st : ProverState}

/-- Division drops the factor from the even cells. -/
theorem divided_betar (hc : c.prime = p) (hk : k < c.layers.mi) (hst : BetaTables p c rho k st)
    (hz : (c.z k : ZMod p) ≠ 1) {i : ℕ} (hi : i ≤ (c.layers.out.size - 1) >>> (k + 1)) :
    (dropBetarFactor c k (((c.layers.out.size - 1) >>> (k + 1)) + 1) (c.z k) st i : ZMod p) =
      droppedTable p c rho k i := by
  have hne : (1 - (c.z k : ZMod p)) ≠ 0 := sub_ne_zero.2 (Ne.symm hz)
  have hrange : 2 * i ≤ (c.layers.out.size - 1) >>> k := by
    rw [Nat.shiftRight_succ] at hi
    omega
  have hbit : (2 * i).testBit 0 = false := by simp
  have hhalf : (2 * i) >>> 1 = i := by
    rw [Nat.shiftRight_one]
    omega
  rw [cast_dropBetarFactor hc _ _ hz st (Nat.lt_succ_of_le hi), hst.betar _ hrange,
    lagrange_shiftPoint _ hk, hbit, hhalf, bitFactor_false, castVec_apply, droppedTable]
  field_simp

/-- While a coordinate is left, both ways give the same table. -/
theorem dropBetarFactor_eq (hc : c.prime = p) (hk : k < c.layers.mi)
    (hst : BetaTables p c rho k st) (hgood : k + 1 < c.layers.mi ∨ (c.z k : ZMod p) ≠ 1) {i : ℕ}
    (hi : i ≤ (c.layers.out.size - 1) >>> (k + 1)) :
    (dropBetarFactor c k (((c.layers.out.size - 1) >>> (k + 1)) + 1) (c.z k) st i : ZMod p) =
      droppedTable p c rho k i := by
  by_cases hz : (c.z k : ZMod p) = 1
  · have hleft : k + 1 < c.layers.mi := hgood.resolve_right (not_not.2 hz)
    have hlog : log2i (((c.layers.out.size - 1) >>> (k + 1)) + 1) = c.layers.mi - (k + 1) := by
      rw [log2i_nEffective c.layers.out_pos]
      exact max_eq_right (Nat.le_sub_of_add_le' hleft)
    rw [recomputed_betar hc _ _ hz st (Nat.lt_succ_of_le hi), hlog, hst.partialBetar, mul_comm,
      droppedTable]
  · exact divided_betar hc hk hst hz hi

/-- Without a coordinate left, the recomputation reads the next cell of `z`. -/
theorem dropBetarFactor_last (hc : c.prime = p) (hk : k + 1 = c.layers.mi)
    (hst : BetaTables p c rho k st) (hz : (c.z k : ZMod p) = 1) :
    (dropBetarFactor c k (((c.layers.out.size - 1) >>> (k + 1)) + 1) (c.z k) st 0 : ZMod p) =
      (1 - c.z c.layers.mi) * equality (castVec p c.z) rho k := by
  have hlog : log2i (((c.layers.out.size - 1) >>> (k + 1)) + 1) = 1 := by
    rw [log2i_nEffective c.layers.out_pos, hk]
    show max 1 (c.layers.mi - c.layers.mi) = 1
    rw [Nat.sub_self, max_eq_left (Nat.zero_le 1)]
  rw [recomputed_betar hc _ _ hz st (Nat.succ_pos _), hlog, hst.partialBetar, lagrange_succ,
    lagrange_zero, Nat.zero_testBit, bitFactor_false, one_mul, shiftPoint, hk, castVec_apply]

omit [Fact p.Prime] in
/-- A round over the output gates replaces the dropped factor by its value at the
challenge, in the table and in the product. -/
theorem doRoundP_betar (hc : c.prime = p) (z r : ℤ) (st : ProverState) {i : ℕ}
    (hi : i ≤ (c.layers.out.size - 1) >>> (k + 1)) :
    (doRoundP c k z r st zeroVec).1.betar i =
      modmult (dropBetarFactor c k (((c.layers.out.size - 1) >>> (k + 1)) + 1) z st i)
        (mle r (oneSub z) z p) p := by
  rw [doRoundP]
  dsimp only
  rw [forLoop_update_apply _ (fun _ x => modmult x (mle r (oneSub z) z c.prime) c.prime),
    if_pos (Nat.lt_succ_of_le hi), hc]

theorem cast_mle_oneSub (z r : ℤ) :
    ((mle r (oneSub z) z p : ℤ) : ZMod p) = equalityFactor (z : ZMod p) r := by
  rw [cast_mle, cast_oneSub, equalityFactor]
  ring

theorem doRoundP_partialBetar (hc : c.prime = p) (z r : ℤ) (st : ProverState) :
    ((doRoundP c k z r st zeroVec).1.partialBetar : ZMod p) =
      st.partialBetar * equalityFactor (z : ZMod p) r := by
  show ((modmult st.partialBetar (mle r (oneSub z) z c.prime) c.prime : ℤ) : ZMod p) = _
  rw [hc, cast_modmult, cast_mle_oneSub]

/-- A round keeps the tables, but for the last one at a coordinate equal to one. -/
theorem doRoundP_tables (hc : c.prime = p) (hk : k < c.layers.mi) {r : ℤ} (hr : rho k = r)
    (hst : BetaTables p c rho k st) (hgood : k + 1 < c.layers.mi ∨ (c.z k : ZMod p) ≠ 1) :
    BetaTables p c rho (k + 1) (doRoundP c k (c.z k) r st zeroVec).1 where
  partialBetar := by
    rw [doRoundP_partialBetar hc, hst.partialBetar, equality_succ, castVec_apply, hr]
  betar := by
    intro i hi
    rw [doRoundP_betar hc _ _ _ hi, cast_modmult, dropBetarFactor_eq hc hk hst hgood hi,
      cast_mle_oneSub, droppedTable, equality_succ, castVec_apply, hr]
    ring

/-! ## A run -/

/-- The tables with which the first round starts. -/
theorem betaTables_zero (hc : c.prime = p) (st : ProverState) :
    BetaTables p c rho 0
      { st with
        betar := computeChiAll st.betar c.z c.layers.out.size c.prime 0
        partialBetar := 1 } where
  partialBetar := by rw [equality, Finset.prod_range_zero, Int.cast_one]
  betar := by
    intro i hi
    have hpos := c.layers.out_pos
    rw [Nat.shiftRight_zero] at hi
    rw [hc, equality, Finset.prod_range_zero, one_mul]
    exact cast_computeChiAll st.betar c.z c.layers.out.size 0 (by omega)

variable (r : Vec)

theorem runProver_round (k : ℕ) : (runProver c (roundRequests r k)).round = k := by
  induction k with
  | zero => rfl
  | succ k ih =>
      rw [roundRequests_succ, runProver_append, handle]
      split_ifs
      · rw [ih]
      · rw [ih]

/-- The table in which round `k` of a run starts. -/
def roundStart (c : SumCheckInput) (r : Vec) (k : ℕ) : ProverState :=
  let st := (runProver c (roundRequests r k)).state
  if k = 0 then
    { st with
      betar := computeChiAll st.betar c.z c.layers.out.size c.prime 0
      partialBetar := 1 }
  else st

/-- A round over the output gates in a run: what it does to the two tables. -/
theorem runProver_succ (hk : k < c.layers.mi) :
    (runProver c (roundRequests r (k + 1))).state.betar =
        (doRoundP c k (c.z k) (r k) (roundStart c r k) zeroVec).1.betar ∧
      (runProver c (roundRequests r (k + 1))).state.partialBetar =
        (doRoundP c k (c.z k) (r k) (roundStart c r k) zeroVec).1.partialBetar := by
  have hround := runProver_round (c := c) r k
  have hlt : ¬k ≥ numRounds c.toSumCheckTask := by
    rw [numRounds]
    omega
  have hnot : ¬k > c.layers.mi + 2 * c.layers.mip1 := by omega
  have hmip1 : 0 < c.layers.mip1 := log2i_pos c.layers.in_pos
  have hnotO : k ≠ c.layers.mi + c.layers.mip1 := by omega
  rw [roundRequests_succ, runProver_append, handle, hround, if_neg hlt]
  dsimp only
  rw [doRound]
  simp only [if_neg hnot, if_neg hnotO, if_pos hk]
  rw [roundStart]
  exact ⟨rfl, rfl⟩

/-- Before the last round both paths keep the tables, for every point. -/
theorem roundStart_tables (hc : c.prime = p) {k : ℕ} (hk : k < c.layers.mi) :
    BetaTables p c (castVec p r) k (roundStart c r k) := by
  induction k with
  | zero => exact betaTables_zero hc _
  | succ k ih =>
      have hprev : k < c.layers.mi := Nat.lt_of_succ_lt hk
      have hstep := doRoundP_tables hc hprev (castVec_apply p r k) (ih hprev) (Or.inl hk)
      obtain ⟨hbetar, hpart⟩ := runProver_succ (c := c) r hprev
      rw [roundStart, if_neg (Nat.succ_ne_zero k)]
      exact ⟨by rw [hpart, hstep.partialBetar], fun i hi => by rw [hbetar, hstep.betar i hi]⟩

/-- The table of the last round, at its only cell: right unless the recomputation runs and
reads a cell of `z` that is not zero. -/
theorem lastTable_iff (hc : c.prime = p) {k : ℕ} (hk : k + 1 = c.layers.mi) :
    ((runProver c (roundRequests r (k + 1))).state.betar 0 : ZMod p) =
        equality (castVec p c.z) (castVec p r) (k + 1) ↔
      (c.z k : ZMod p) ≠ 1 ∨ (c.z (k + 1) : ZMod p) = 0 ∨
        ∃ j < k + 1, equalityFactor (c.z j : ZMod p) (r j) = 0 := by
  have hlt : k < c.layers.mi := Nat.lt_of_succ_le hk.le
  have hst := roundStart_tables (c := c) r hc hlt
  have hfactors : equality (castVec p c.z) (castVec p r) (k + 1) = 0 ↔
      ∃ j < k + 1, equalityFactor (c.z j : ZMod p) (r j) = 0 := by
    rw [equality, Finset.prod_eq_zero_iff]
    simp only [Finset.mem_range, castVec_apply]
  rw [(runProver_succ (c := c) r hlt).1, doRoundP_betar hc _ _ _ (Nat.zero_le _), cast_modmult,
    cast_mle_oneSub, ← hfactors]
  by_cases hz : (c.z k : ZMod p) = 1
  · rw [dropBetarFactor_last hc hk hst hz, equality_succ, castVec_apply, castVec_apply, ← hk,
      mul_assoc]
    constructor
    · intro heq
      right
      have hzero : (c.z (k + 1) : ZMod p) * (equality (castVec p c.z) (castVec p r) k *
          equalityFactor (c.z k : ZMod p) (r k)) = 0 := by linear_combination -heq
      exact mul_eq_zero.1 hzero
    · rintro (hne | hcell | hvanish)
      · exact absurd hz hne
      · rw [hcell, sub_zero, one_mul]
      · rw [hvanish, mul_zero]
  · have hdrop := dropBetarFactor_eq hc hlt hst (Or.inr hz)
      (Nat.zero_le ((c.layers.out.size - 1) >>> (k + 1)))
    have hlast : droppedTable p c (castVec p r) k 0 =
        equality (castVec p c.z) (castVec p r) k := by
      rw [droppedTable, hk, Nat.sub_self, lagrange_zero, mul_one]
    rw [hdrop, hlast, equality_succ, castVec_apply, castVec_apply]
    exact iff_of_true rfl (Or.inl hz)

/-- The cells of the table and the value of `evaluate_beta` are residues. -/
theorem lastTable_range (hc : c.prime = p) {k : ℕ} (hk : k < c.layers.mi) :
    (0 ≤ (runProver c (roundRequests r (k + 1))).state.betar 0 ∧
      (runProver c (roundRequests r (k + 1))).state.betar 0 < p) ∧
    0 ≤ evaluateBeta c.z r (k + 1) p ∧ evaluateBeta c.z r (k + 1) p < p := by
  rw [(runProver_succ (c := c) r hk).1, doRoundP_betar hc _ _ _ (Nat.zero_le _), modmult,
    evaluateBeta, forLoop_succ, mulmle, modmult]
  exact ⟨emod_range _, emod_range _⟩

/-- After every round `bitPos` the table is the product of the factors so far times the
Lagrange polynomials of the coordinates left, and after the last one `evaluate_beta`,
exactly if the last coordinate is not one, or the cell of `z` after it is zero, or one of
the factors vanishes. -/
theorem betarTables_iff (hc : c.prime = p) :
    ((∀ bitPos < c.layers.mi, ∀ i < c.layers.out.size ⌈/⌉ 2 ^ (bitPos + 1),
        ((runProver c (roundRequests r (bitPos + 1))).state.betar i : ZMod p) =
          (∏ j ∈ Finset.range (bitPos + 1),
            ((1 - (c.z j : ZMod p)) * (1 - r j) + c.z j * r j)) *
          lagrange (fun t => (c.z (bitPos + 1 + t) : ZMod p)) (c.layers.mi - (bitPos + 1)) i) ∧
      (runProver c (roundRequests r c.layers.mi)).state.betar 0 =
        evaluateBeta c.z r c.layers.mi p) ↔
    ((c.z (c.layers.mi - 1) : ZMod p) ≠ 1 ∨ (c.z c.layers.mi : ZMod p) = 0 ∨
      ∃ j < c.layers.mi, (1 - (c.z j : ZMod p)) * (1 - r j) + c.z j * r j = 0) := by
  obtain ⟨k, hk⟩ : ∃ k, c.layers.mi = k + 1 :=
    Nat.exists_eq_succ_of_ne_zero (log2i_pos c.layers.out_pos).ne'
  have hlt : k < c.layers.mi := hk ▸ Nat.lt_succ_self k
  have hlast := lastTable_iff (c := c) r hc hk.symm
  obtain ⟨hbetar, heval⟩ := lastTable_range (c := c) r hc hlt
  have hvalue : (runProver c (roundRequests r (k + 1))).state.betar 0 =
      evaluateBeta c.z r (k + 1) p ↔
        ((runProver c (roundRequests r (k + 1))).state.betar 0 : ZMod p) =
          equality (castVec p c.z) (castVec p r) (k + 1) := by
    rw [eq_iff_cast_eq hbetar heval, cast_evaluateBeta]
  rw [hk, hvalue, Nat.add_sub_cancel]
  refine (and_iff_right_of_imp ?_).trans hlast
  intro hright bitPos hpos i hi
  rw [lt_ceilDiv_iff c.layers.out_pos] at hi
  show _ = equality (castVec p c.z) (castVec p r) (bitPos + 1) *
    lagrange (shiftPoint (bitPos + 1) (castVec p c.z)) (k + 1 - (bitPos + 1)) i
  rcases Nat.lt_succ_iff_lt_or_eq.1 hpos with hbefore | rfl
  · -- a round before the last: its table is the one in which the next round starts
    have hnext : bitPos + 1 < c.layers.mi := by omega
    have hst := (roundStart_tables (c := c) r hc hnext).betar i hi
    rw [roundStart, if_neg (Nat.succ_ne_zero bitPos), hk] at hst
    exact hst
  · -- the table of the last round has one cell
    have hsize : c.layers.out.size - 1 < 2 ^ (bitPos + 1) := by
      have hle := c.layers.outSize_le
      have hpositive := c.layers.out_pos
      rw [hk] at hle
      omega
    rw [Nat.shiftRight_eq_div_pow, Nat.div_eq_of_lt hsize, Nat.le_zero] at hi
    rw [hi, hright, Nat.sub_self, lagrange_zero, mul_one]

end Rounds

/-- One gate over one gate modulo three, at the point `1` with `2` in the next cell. -/
def pastTheLayer : SumCheckInput where
  layers := LayerPair.double
  batchSize := 1
  z := fun i => i + 1
  trueSum := zeroVec
  prime := 3
  inValue := fun _ => zeroVec
  outValue := fun _ => zeroVec

/-- With the challenge `1` the only cell should be `1`. -/
theorem pastTheLayer_fails :
    ¬ (runProver pastTheLayer (roundRequests (fun _ => 1) pastTheLayer.layers.mi)).state.betar 0 =
      evaluateBeta pastTheLayer.z (fun _ => 1) pastTheLayer.layers.mi 3 := by
  decide

/-- With the challenge `0` the polynomial is zero at the first coordinate already. -/
theorem pastTheLayer_zeroChallenge :
    (∀ bitPos < pastTheLayer.layers.mi,
        ∀ i < pastTheLayer.layers.out.size ⌈/⌉ 2 ^ (bitPos + 1),
        ((runProver pastTheLayer (roundRequests zeroVec (bitPos + 1))).state.betar i : ZMod 3) =
          (∏ j ∈ Finset.range (bitPos + 1),
            ((1 - (pastTheLayer.z j : ZMod 3)) * (1 - zeroVec j) +
              pastTheLayer.z j * zeroVec j)) *
          lagrange (fun t => (pastTheLayer.z (bitPos + 1 + t) : ZMod 3))
            (pastTheLayer.layers.mi - (bitPos + 1)) i) ∧
      (runProver pastTheLayer (roundRequests zeroVec pastTheLayer.layers.mi)).state.betar 0 =
        evaluateBeta pastTheLayer.z zeroVec pastTheLayer.layers.mi (3 : ℕ) :=
  (betarTables_iff (p := 3) zeroVec rfl).2 (Or.inr (Or.inr ⟨0, by decide, by decide⟩))

end Pepper.Cmtgkr.BetaTable
