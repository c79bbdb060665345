import Pepper.Cmtgkr.LayerSum

/-!
# The prover of a layer's sum-check

`CMTSumCheckProver` keeps three tables that it folds round by round: `betar` (the
extension of equality at the open coordinates), `addormultr` (the Lagrange polynomials
of the wires so far) and, for each instance, `vals` (the input layer at the challenges
so far). The value of a round polynomial at zero is never computed, it is inferred
from what the prover expects the sum to be.

`doRoundP_spec` and `doRoundO_spec` read one round over the field: the values that it
computes are weighted sums over the gates, and each table takes one more coordinate.
-/

set_option autoImplicit false

open Pepper.Common.Gmp Pepper.Foundations.Loop Pepper.Foundations.Multilinear
open Pepper.Cmtgkr.Env Pepper.Cmtgkr.Layer Pepper.Cmtgkr.LayerSum

namespace Pepper.Cmtgkr.SumCheckProver

/-! ## The code -/

/-- Values of a round polynomial that are sent, at `0`, `1` and `2`. -/
def polySize : ℕ := 3

/-- What both parties are constructed from: two layers, the size of the batch, the point
and the claims. -/
structure SumCheckTask where
  layers : LayerPair
  batchSize : ℕ
  z : Vec
  trueSum : Vec
  prime : ℤ

/-- What the prover has besides: the values of the gates in each instance. -/
structure SumCheckInput extends SumCheckTask where
  inValue : ℕ → Vec
  outValue : ℕ → Vec

/-- The members of `CMTSumCheckProver` that live from round to round. -/
structure ProverState where
  expected : Vec
  betar : Vec
  addormultr : Vec
  vals : ℕ → Vec
  v1s : Vec
  partialBetar : ℤ

/-- The members after construction and the first lines of `run`. -/
def ProverState.init (c : SumCheckInput) : ProverState where
  expected := c.trueSum
  betar := zeroVec
  addormultr := fun _ => 1
  vals := fun _ => zeroVec
  v1s := zeroVec
  partialBetar := 1

/-- A loop over the instances that rewrites the entry `m` of each one's polynomial. -/
def forBatch (batchSize m : ℕ) (f : ℕ → ℤ → ℤ) (poly : Vec) : Vec :=
  forLoop batchSize
    (fun b poly => Function.update poly (b * polySize + m) (f b (poly (b * polySize + m)))) poly

/-- A pass over the gates: the polynomials take the gate's share, then the gate's entry
of `addormultr` is rewritten. -/
def gatePass (size : ℕ) (share : ℕ → ℤ → Vec → Vec) (next : ℕ → ℤ → ℤ) (poly addormultr : Vec) :
    Vec × Vec :=
  forLoop size
    (fun gateIdx s =>
      (share gateIdx (s.2 gateIdx) s.1,
        Function.update s.2 gateIdx (next gateIdx (s.2 gateIdx))))
    (poly, addormultr)

/-- The static `computeChiAll`: `n` cells, coordinates of `z` from `startAt` on. -/
def computeChiAll (betar z : Vec) (n : ℕ) (prime : ℤ) (startAt : ℕ) : Vec :=
  forLoop (log2i n)
    (fun logi betar => chiAllPass n (2 ^ logi) logi (z (logi + startAt)) prime betar)
    (Function.update betar 0 1)

/-- `mulmle2_si`. -/
def mulmle2Si (op1 op2 : ℤ) (bit : Bool) (prime : ℤ) : ℤ :=
  modmult op1 (if bit then op2 else 1 - op2) prime

/-- `mulmle2`. -/
def mulmle2 (op1 op2 : ℤ) (bit : Bool) (prime : ℤ) : ℤ :=
  modmult op1 (if bit then op2 else oneSub op2) prime

/-- `init_vals_array`. -/
def initValsArray (inSize : ℕ) (value vals : Vec) : Vec :=
  forLoop (2 ^ log2i inSize)
    (fun k vals => Function.update vals k (if k < inSize then value k else 0)) vals

/-- `betar` without the factor of the coordinate `bitPos`: divided out, or computed anew
when that factor is zero. -/
def dropBetarFactor (c : SumCheckInput) (bitPos nEffectiveBetar : ℕ) (z : ℤ)
    (st : ProverState) : Vec :=
  let tmp := oneSub z % c.prime
  if tmp ≠ 0 then
    let inv := mpzInvert tmp tmp c.prime
    forLoop nEffectiveBetar
      (fun i betar => Function.update betar i (modmult (betar (2 * i)) inv c.prime)) st.betar
  else
    forLoop nEffectiveBetar
      (fun i betar => Function.update betar i (modmult (betar i) st.partialBetar c.prime))
      (computeChiAll st.betar c.z nEffectiveBetar c.prime (bitPos + 1))

/-- The first loop of `doRoundP` at one gate: its value at `1`. -/
def gateRoundP1 (c : SumCheckInput) (bitPos : ℕ) (st : ProverState) (gateIdx : ℕ) (poly : Vec) :
    Vec :=
  if gateIdx.testBit bitPos then
    let tmp := st.addormultr gateIdx * st.betar (gateIdx >>> bitPos)
    forBatch c.batchSize 1
      (fun b x =>
        if c.outValue b gateIdx ≠ 0 then addmodmult x (c.outValue b gateIdx) tmp c.prime else x)
      poly
  else poly

/-- The second loop of `doRoundP` at one gate: its value at `2`. With three values a
polynomial this is the only pass over `m`. -/
def gateRoundP2 (c : SumCheckInput) (bitPos : ℕ) (z : ℤ) (betar : Vec) (gateIdx : ℕ)
    (addormult : ℤ) (poly : Vec) : Vec :=
  let gateBetar :=
    modmult (betar (gateIdx >>> (bitPos + 1))) (mleSi 2 (oneSub z) z c.prime) c.prime
  let tmp := gateBetar * mulmle2Si addormult 2 (gateIdx.testBit bitPos) c.prime
  forBatch c.batchSize 2
    (fun b x =>
      if c.outValue b gateIdx ≠ 0 then addmodmult x tmp (c.outValue b gateIdx) c.prime else x)
    poly

/-- `doRoundP`, a round over the output gates. -/
def doRoundP (c : SumCheckInput) (bitPos : ℕ) (z r : ℤ) (st : ProverState) (roundPoly : Vec) :
    ProverState × Vec :=
  let size := c.layers.out.size
  let poly1 := forLoop size (gateRoundP1 c bitPos st) roundPoly
  let nEffectiveBetar := ((size - 1) >>> (bitPos + 1)) + 1
  let betar := dropBetarFactor c bitPos nEffectiveBetar z st
  let run :=
    gatePass size (gateRoundP2 c bitPos z betar)
      (fun gateIdx addormult => mulmle2 addormult r (gateIdx.testBit bitPos) c.prime)
      poly1 st.addormultr
  let tmp := mle r (oneSub z) z c.prime
  ({ st with
      betar :=
        forLoop nEffectiveBetar
          (fun i betar => Function.update betar i (modmult (betar i) tmp c.prime)) betar
      addormultr := run.2
      partialBetar := modmult st.partialBetar tmp c.prime },
    run.1)

/-- `inputGateIdx`: the input that the round is about. -/
def movingInput (c : SumCheckInput) (onO1 : Bool) (gateIdx : ℕ) : ℕ :=
  if onO1 then (c.layers.out.gate gateIdx).in1 else (c.layers.out.gate gateIdx).in2

/-- `applyGateOperation` in a round: the other operand is a gate of the input layer
(`onO1`) or the value that the first half of the rounds has left. -/
def roundOperation (c : SumCheckInput) (onO1 : Bool) (v1s : Vec) (gateIdx b : ℕ) (moving : ℤ) :
    ℤ :=
  let w := c.layers.out.gate gateIdx
  if onO1 then w.applyGateOperation moving (c.inValue b w.in2) c.prime
  else w.applyGateOperation (v1s b) moving c.prime

/-- One gate of `doRoundO`. The moving input has the value `vals[base + 1]` at `1` and the
line through both cells at `2`; `V1s` and `V2` only carry it to the operation there. -/
def gateRoundO (c : SumCheckInput) (bitPos : ℕ) (onO1 : Bool) (vals : ℕ → Vec) (v1s : Vec)
    (gateIdx : ℕ) (addormult : ℤ) (poly : Vec) : Vec :=
  let base := 2 * ((movingInput c onO1 gateIdx >>> bitPos) / 2)
  let bit := (movingInput c onO1 gateIdx).testBit bitPos
  let poly :=
    if bit then
      forBatch c.batchSize 1
        (fun b x => x + roundOperation c onO1 v1s gateIdx b (vals b (base + 1)) * addormult) poly
    else poly
  let gateAddormultr := mulmle2Si addormult 2 bit c.prime
  forBatch c.batchSize 2
    (fun b x =>
      x + roundOperation c onO1 v1s gateIdx b
          (mleSi 2 (vals b base) (vals b (base + 1)) c.prime) * gateAddormultr)
    poly

/-- `doRoundO`, a round over the first inputs (`onO1`) or the second ones. -/
def doRoundO (c : SumCheckInput) (bitPos : ℕ) (r : ℤ) (onO1 : Bool) (st : ProverState)
    (roundPoly : Vec) : ProverState × Vec :=
  let vals : ℕ → Vec :=
    if bitPos = 0 then fun b => initValsArray c.layers.inSize (c.inValue b) (st.vals b)
    else st.vals
  let run :=
    gatePass c.layers.out.size (gateRoundO c bitPos onO1 vals st.v1s)
      (fun gateIdx addormult =>
        mulmle2 addormult r ((movingInput c onO1 gateIdx).testBit bitPos) c.prime)
      roundPoly st.addormultr
  -- the factor `betar[0]` was left out above
  let poly :=
    forBatch c.batchSize 2 (fun _ x => modmult x (st.betar 0) c.prime)
      (forBatch c.batchSize 1 (fun _ x => modmult x (st.betar 0) c.prime) run.1)
  let numEffective := 2 ^ (c.layers.mip1 - bitPos)
  ({ st with
      addormultr := run.2
      vals := fun b =>
        forLoop (numEffective / 2)
          (fun i v => Function.update v i
            (addmodmult (modmult (v (2 * i)) (oneSub r) c.prime) (v (2 * i + 1)) r c.prime))
          (vals b) },
    poly)

/-- The end of `doRound`: the value at zero is what is missing to the expected sum. -/
def inferZero (c : SumCheckInput) (expected roundPoly : Vec) : Vec :=
  forLoop c.batchSize
    (fun b poly => Function.update poly (b * polySize)
      (modsub (expected b) (poly (b * polySize + 1)) c.prime))
    roundPoly

/-- `doRound`: the members after the round and the polynomial of every instance. -/
def doRound (c : SumCheckInput) (round : ℕ) (r : ℤ) (st : ProverState) : ProverState × Vec :=
  let mi := c.layers.mi
  let mip1 := c.layers.mip1
  if round > mi + 2 * mip1 then (st, zeroVec)
  else
    let st :=
      if round = 0 then
        { st with
          betar := computeChiAll st.betar c.z c.layers.out.size c.prime 0
          partialBetar := 1 }
      else st
    let st :=
      if round = mi + mip1 then
        { st with
          v1s := forLoop c.batchSize (fun b v1s => Function.update v1s b (st.vals b 0)) st.v1s }
      else st
    let run :=
      if round < mi then doRoundP c round (c.z round) r st zeroVec
      else if round < mi + mip1 then doRoundO c (round - mi) r true st zeroVec
      else doRoundO c (round - mi - mip1) r false st zeroVec
    (run.1, inferZero c run.1.expected run.2)

/-- `numRounds`. -/
abbrev numRounds (t : SumCheckTask) : ℕ := t.layers.mi + 2 * t.layers.mip1

/-! ## Messages -/

/-- The verifier's messages in a sum-check. -/
inductive Request where
  | scPoly (r : ℤ)
  | vs
deriving DecidableEq, Repr

/-- The prover between two messages: the round, the challenges received, the members and
the last response. -/
structure ProverRun where
  round : ℕ
  rand : Vec
  state : ProverState
  response : Vec

/-- One message of `run`: a round that comes with its challenge, or the request for the
two values. -/
def handle (c : SumCheckInput) (s : ProverRun) : Request → ProverRun
  | .scPoly r =>
      if s.round ≥ numRounds c.toSumCheckTask then { s with round := s.round + 1 }
      else
        let run := doRound c s.round r s.state
        { round := s.round + 1
          rand := Function.update s.rand s.round r
          state :=
            { run.1 with
              expected :=
                forLoop c.batchSize
                  (fun b expected => Function.update expected b
                    (extrap (fun m => run.2 (b * polySize + m)) polySize r c.prime))
                  run.1.expected }
          response := run.2 }
  | .vs =>
      { s with
        response :=
          forLoop c.batchSize
            (fun b vs => Function.update (Function.update vs (2 * b) (s.state.v1s b)) (2 * b + 1)
              (s.state.vals b 0))
            zeroVec }

/-- `CMTSumCheckProver` after the messages it has received. -/
def runProver (c : SumCheckInput) (received : List Request) : ProverRun :=
  received.foldl (handle c)
    { round := 0, rand := zeroVec, state := ProverState.init c, response := zeroVec }

/-- Its response to the last of them. -/
def respond (c : SumCheckInput) (received : List Request) : Vec := (runProver c received).response

/-! ## Loops over gates and instances -/

section Loops

variable {p : ℕ}

theorem forBatch_apply (batchSize : ℕ) {m m' : ℕ} (hm : m < polySize) (hm' : m' < polySize)
    (f : ℕ → ℤ → ℤ) (poly : Vec) (b : ℕ) :
    forBatch batchSize m f poly (b * polySize + m') =
      if b < batchSize ∧ m' = m then f b (poly (b * polySize + m')) else
        poly (b * polySize + m') := by
  refine forLoop_column_apply hm batchSize (fun b poly => f b (poly (b * polySize + m))) poly ?_ b
    hm' |>.trans ?_
  · intro b x hx
    rw [hx m hm]
  · by_cases hcell : b < batchSize ∧ m' = m
    · obtain ⟨_, rfl⟩ := hcell
      rfl
    · rw [if_neg hcell, if_neg hcell]

theorem forBatch_self {batchSize m b : ℕ} (hm : m < polySize) (hb : b < batchSize) (f : ℕ → ℤ → ℤ)
    (poly : Vec) :
    forBatch batchSize m f poly (b * polySize + m) = f b (poly (b * polySize + m)) := by
  rw [forBatch_apply batchSize hm hm, if_pos ⟨hb, rfl⟩]

theorem forBatch_of_ne {batchSize m m' : ℕ} (hm : m < polySize) (hm' : m' < polySize)
    (hne : m' ≠ m) (f : ℕ → ℤ → ℤ) (poly : Vec) (b : ℕ) :
    forBatch batchSize m f poly (b * polySize + m') = poly (b * polySize + m') := by
  rw [forBatch_apply batchSize hm hm', if_neg fun h => hne h.2]

@[simp] theorem cast_mulmle2Si (op1 op2 : ℤ) (bit : Bool) :
    ((mulmle2Si op1 op2 bit p : ℤ) : ZMod p) = op1 * bitFactor bit (op2 : ZMod p) := by
  cases bit <;> simp [mulmle2Si]

@[simp] theorem cast_mulmle2 (op1 op2 : ℤ) (bit : Bool) :
    ((mulmle2 op1 op2 bit p : ℤ) : ZMod p) = op1 * bitFactor bit (op2 : ZMod p) := by
  cases bit <;> simp [mulmle2]

/-- Every gate of a pass sees its own entry as it was before the pass. -/
theorem gatePass_spec (size : ℕ) {batchSize m : ℕ} (share : ℕ → ℤ → Vec → Vec) (next : ℕ → ℤ → ℤ)
    (poly addormultr : Vec) (t : ℕ → ℕ → ZMod p)
    (hshare : ∀ g < size, ∀ (poly : Vec), ∀ b < batchSize,
      (share g (addormultr g) poly (b * polySize + m) : ZMod p) =
        poly (b * polySize + m) + t b g) :
    (∀ b < batchSize,
      ((gatePass size share next poly addormultr).1 (b * polySize + m) : ZMod p) =
        poly (b * polySize + m) + ∑ g ∈ Finset.range size, t b g) ∧
    ∀ g < size, (gatePass size share next poly addormultr).2 g = next g (addormultr g) := by
  have hrun : (∀ g, (gatePass size share next poly addormultr).2 g =
        if g < size then next g (addormultr g) else addormultr g) ∧
      ∀ b < batchSize,
        ((gatePass size share next poly addormultr).1 (b * polySize + m) : ZMod p) =
          poly (b * polySize + m) + ∑ g ∈ Finset.range size, t b g := by
    -- after `i` gates the shares are summed and the first `i` entries of the table are moved on
    refine forLoop_induction
      (P := fun i (s : Vec × Vec) =>
        (∀ g, s.2 g = if g < i then next g (addormultr g) else addormultr g) ∧
          ∀ b < batchSize, (s.1 (b * polySize + m) : ZMod p) =
            poly (b * polySize + m) + ∑ g ∈ Finset.range i, t b g) ?_ ?_
    · exact ⟨fun g => rfl, fun b _ => by simp⟩
    · rintro g hg ⟨poly', addormultr'⟩ ⟨hentry, hsum⟩
      -- no earlier gate has touched the entry of this one
      have hown : addormultr' g = addormultr g := by
        have hg' := hentry g
        rwa [if_neg (lt_irrefl g)] at hg'
      dsimp only at hentry hsum ⊢
      rw [hown]
      refine ⟨?_, ?_⟩
      · intro g'
        by_cases hgg : g' = g
        · rw [hgg, Function.update_self, if_pos (Nat.lt_succ_self g)]
        · have hiff : g' < g + 1 ↔ g' < g := by omega
          rw [Function.update_of_ne hgg, hentry g']
          simp only [hiff]
      · intro b hb
        rw [hshare g hg _ b hb, hsum b hb, Finset.sum_range_succ, add_assoc]
  refine ⟨hrun.2, ?_⟩
  intro g hg
  rw [hrun.1 g, if_pos hg]

/-- A pass over the gates that adds to the polynomials alone. -/
theorem gateSum_spec (size : ℕ) {batchSize m : ℕ} (step : ℕ → Vec → Vec) (poly : Vec)
    (t : ℕ → ℕ → ZMod p)
    (hstep : ∀ g < size, ∀ (poly : Vec), ∀ b < batchSize,
      (step g poly (b * polySize + m) : ZMod p) = poly (b * polySize + m) + t b g) :
    ∀ b < batchSize, (forLoop size step poly (b * polySize + m) : ZMod p) =
      poly (b * polySize + m) + ∑ g ∈ Finset.range size, t b g := by
  refine forLoop_induction
    (P := fun i (poly' : Vec) => ∀ b < batchSize, (poly' (b * polySize + m) : ZMod p) =
      poly (b * polySize + m) + ∑ g ∈ Finset.range i, t b g) (fun b _ => by simp) ?_
  intro g hg poly' hsum b hb
  rw [hstep g hg _ b hb, hsum b hb, Finset.sum_range_succ, add_assoc]

/-- `addmodmult` skipped for a value that is zero. -/
theorem cast_skipZero (x value tmp : ℤ) :
    (((if value ≠ 0 then addmodmult x value tmp p else x : ℤ)) : ZMod p) = x + value * tmp := by
  split_ifs with h
  · exact cast_addmodmult x value tmp
  · simp [not_not.1 h]

theorem cast_skipZero' (x value tmp : ℤ) :
    (((if value ≠ 0 then addmodmult x tmp value p else x : ℤ)) : ZMod p) = x + tmp * value := by
  split_ifs with h
  · exact cast_addmodmult x tmp value
  · simp [not_not.1 h]

end Loops

/-! ## One round -/

section Rounds

variable {p : ℕ} [Fact p.Prime] {c : SumCheckInput} {rho : ℕ → ZMod p}

/-- The values of the input layer of instance `b`, as a table. -/
def inTable (p : ℕ) (c : SumCheckInput) (b : ℕ) : ℕ → ZMod p :=
  padded p c.layers.inSize (c.inValue b)

/-- The output gates hold their operation on the input gates. -/
structure SumCheckInput.Evaluated (p : ℕ) [Fact p.Prime] (c : SumCheckInput) : Prop where
  prime_eq : c.prime = p
  outValue_eq : ∀ b < c.batchSize, ∀ g < c.layers.out.size,
    (c.outValue b g : ZMod p) = gateValue c.layers (inTable p c b) g

theorem cast_computeChiAll (betar z : Vec) (n startAt : ℕ) {k : ℕ} (hk : k < n) :
    (computeChiAll betar z n p startAt k : ZMod p) =
      lagrange (shiftPoint startAt (castVec p z)) (log2i n) k := by
  have hpoint : castVec p (fun i => z (i + startAt)) = shiftPoint startAt (castVec p z) := by
    funext i
    rw [castVec_apply, shiftPoint, castVec_apply, add_comm]
  rw [computeChiAll, ← hpoint]
  refine forLoop_induction
    (P := fun logi (a : Vec) => ∀ k < 2 ^ logi, k < n →
      (a k : ZMod p) = lagrange (castVec p fun i => z (i + startAt)) logi k) ?_ ?_ k
    (hk.trans_le (le_two_pow_log2i n)) hk
  · intro k hk _
    rw [pow_zero, Nat.lt_one_iff] at hk
    simp [hk]
  · intro logi _ a ha
    exact chiAllPass_spec (r := fun i => z (i + startAt)) (min_le_left _ _) le_rfl ha

theorem cast_dropBetarFactor (hc : c.prime = p) (bitPos nEffectiveBetar : ℕ) {z : ℤ}
    (hz : (z : ZMod p) ≠ 1) (st : ProverState) {i : ℕ} (hi : i < nEffectiveBetar) :
    (dropBetarFactor c bitPos nEffectiveBetar z st i : ZMod p) =
      st.betar (2 * i) * (1 - z : ZMod p)⁻¹ := by
  have hne : ((oneSub z % (p : ℤ) : ℤ) : ZMod p) ≠ 0 := by
    rw [ZMod.intCast_mod, cast_oneSub, sub_ne_zero]
    exact hz.symm
  have hnonzero : oneSub z % (p : ℤ) ≠ 0 := by
    intro hzero
    rw [hzero] at hne
    simp at hne
  rw [dropBetarFactor, hc, if_pos hnonzero]
  rw [forLoop_gather_apply nEffectiveBetar (fun i (betar : Vec) =>
      modmult (betar (2 * i)) (mpzInvert (oneSub z % p) (oneSub z % p) p) p), if_pos hi,
    cast_modmult, cast_mpzInvert _ _ hne, ZMod.intCast_mod, cast_oneSub]
  intro i b hb
  rw [hb (2 * i) (by omega)]

/-- One gate of a round over the output gates changes one value each time. -/
theorem gateRoundP1_apply (hc : c.prime = p) (k : ℕ) (st : ProverState) (g : ℕ) (poly : Vec)
    {b : ℕ} (hb : b < c.batchSize) :
    (gateRoundP1 c k st g poly (b * polySize + 1) : ZMod p) =
        poly (b * polySize + 1) +
          (if g.testBit k then st.addormultr g * st.betar (g >>> k) * c.outValue b g else 0 : ZMod p) ∧
      gateRoundP1 c k st g poly (b * polySize + 2) = poly (b * polySize + 2) := by
  rw [gateRoundP1, hc]
  split_ifs with hbit
  · refine ⟨?_, forBatch_of_ne (by decide) (by decide) (by decide) _ _ _⟩
    rw [forBatch_self (by decide) hb, cast_skipZero, Int.cast_mul]
    ring
  · exact ⟨(add_zero _).symm, rfl⟩

theorem gateRoundP2_apply (hc : c.prime = p) (k : ℕ) (z : ℤ) (betar : Vec) (g : ℕ)
    (addormult : ℤ) (poly : Vec) {b : ℕ} (hb : b < c.batchSize) :
    (gateRoundP2 c k z betar g addormult poly (b * polySize + 2) : ZMod p) =
        poly (b * polySize + 2) + betar (g >>> (k + 1)) * equalityFactor (z : ZMod p) 2 *
          (addormult * bitFactor (g.testBit k) 2) * c.outValue b g ∧
      gateRoundP2 c k z betar g addormult poly (b * polySize + 1) = poly (b * polySize + 1) := by
  rw [gateRoundP2, hc]
  refine ⟨?_, forBatch_of_ne (by decide) (by decide) (by decide) _ _ _⟩
  rw [forBatch_self (by decide) hb, cast_skipZero', Int.cast_mul, cast_modmult,
    cast_mleSi (by norm_num), cast_mulmle2Si, cast_oneSub, equalityFactor]
  push_cast
  ring

/-- Dividing the factor of one bit out of every other entry leaves the table of the bits above. -/
theorem dropBetarFactor_lagrange (hc : c.prime = p) {k : ℕ} (hk : k < c.layers.mi)
    (hz : (c.z k : ZMod p) ≠ 1) {rho : ℕ → ZMod p} {st : ProverState}
    (hbetar : ∀ i ≤ (c.layers.out.size - 1) >>> k, (st.betar i : ZMod p) =
      equality (castVec p c.z) rho k *
        lagrange (shiftPoint k (castVec p c.z)) (c.layers.mi - k) i) :
    ∀ i ≤ (c.layers.out.size - 1) >>> (k + 1),
      (dropBetarFactor c k (((c.layers.out.size - 1) >>> (k + 1)) + 1) (c.z k) st i : ZMod p) =
        equality (castVec p c.z) rho k *
          lagrange (shiftPoint (k + 1) (castVec p c.z)) (c.layers.mi - (k + 1)) i := by
  intro i hi
  have hne : (1 - (c.z k : ZMod p)) ≠ 0 := sub_ne_zero.2 (Ne.symm hz)
  have hrange : 2 * i ≤ (c.layers.out.size - 1) >>> k := by
    rw [Nat.shiftRight_succ] at hi
    omega
  have hbit : (2 * i).testBit 0 = false := by simp
  have hhalf : (2 * i) >>> 1 = i := by
    rw [Nat.shiftRight_one]
    omega
  rw [cast_dropBetarFactor hc _ _ hz st (Nat.lt_succ_of_le hi), hbetar _ hrange,
    lagrange_shiftPoint _ hk, hbit, hhalf, bitFactor_false, castVec_apply]
  field_simp

/-- A round over the output gates. -/
theorem doRoundP_spec (hc : c.Evaluated p) {k : ℕ} (hk : k < c.layers.mi) {rho : ℕ → ZMod p}
    {r : ℤ} (hr : rho k = r) (hz : (c.z k : ZMod p) ≠ 1) {st : ProverState}
    (hwires : ∀ g < c.layers.out.size, (st.addormultr g : ZMod p) = lagrange rho k g)
    (hbetar : ∀ i ≤ (c.layers.out.size - 1) >>> k, (st.betar i : ZMod p) =
      equality (castVec p c.z) rho k *
        lagrange (shiftPoint k (castVec p c.z)) (c.layers.mi - k) i) :
    (∀ b < c.batchSize, ((doRoundP c k (c.z k) r st zeroVec).2 (b * polySize + 1) : ZMod p) =
      roundValueP c.layers (inTable p c b) (castVec p c.z) k rho 1) ∧
    (∀ b < c.batchSize, ((doRoundP c k (c.z k) r st zeroVec).2 (b * polySize + 2) : ZMod p) =
      roundValueP c.layers (inTable p c b) (castVec p c.z) k rho 2) ∧
    (∀ g < c.layers.out.size,
      ((doRoundP c k (c.z k) r st zeroVec).1.addormultr g : ZMod p) = lagrange rho (k + 1) g) ∧
    (∀ i ≤ (c.layers.out.size - 1) >>> (k + 1),
      ((doRoundP c k (c.z k) r st zeroVec).1.betar i : ZMod p) =
        equality (castVec p c.z) rho (k + 1) *
          lagrange (shiftPoint (k + 1) (castVec p c.z)) (c.layers.mi - (k + 1)) i) := by
  have hprime := hc.prime_eq
  have hdrop := dropBetarFactor_lagrange hprime hk hz hbetar
  generalize hbetar' : dropBetarFactor c k (((c.layers.out.size - 1) >>> (k + 1)) + 1) (c.z k) st =
    betar' at hdrop
  have hle : ∀ g < c.layers.out.size, ∀ j, g >>> j ≤ (c.layers.out.size - 1) >>> j := by
    intro g hg j
    rw [Nat.shiftRight_eq_div_pow, Nat.shiftRight_eq_div_pow]
    exact Nat.div_le_div_right (by omega)
  -- the values after both passes over the gates
  have hone := gateSum_spec c.layers.out.size (gateRoundP1 c k st) zeroVec _
    fun g _ poly b hb => (gateRoundP1_apply hprime k st g poly hb).1
  have hone' := gateSum_spec (p := p) c.layers.out.size (gateRoundP1 c k st) zeroVec
    (fun _ _ => 0)
    fun g _ poly b (hb : b < c.batchSize) => by
      rw [(gateRoundP1_apply hprime k st g poly hb).2, add_zero]
  have htwo := gatePass_spec c.layers.out.size (gateRoundP2 c k (c.z k) betar')
    (fun g addormult => mulmle2 addormult r (g.testBit k) c.prime)
    (forLoop c.layers.out.size (gateRoundP1 c k st) zeroVec) st.addormultr _
    fun g _ poly b hb =>
      (gateRoundP2_apply hprime k (c.z k) betar' g (st.addormultr g) poly hb).1
  have htwo' := gatePass_spec (p := p) c.layers.out.size (gateRoundP2 c k (c.z k) betar')
    (fun g addormult => mulmle2 addormult r (g.testBit k) c.prime)
    (forLoop c.layers.out.size (gateRoundP1 c k st) zeroVec) st.addormultr (fun _ _ => 0)
    fun g _ poly b (hb : b < c.batchSize) => by
      rw [(gateRoundP2_apply hprime k (c.z k) betar' g (st.addormultr g) poly hb).2, add_zero]
  rw [doRoundP, hbetar']
  refine ⟨?_, ?_, ?_, ?_⟩
  · intro b hb
    show ((gatePass _ _ _ _ _).1 (b * polySize + 1) : ZMod p) = _
    rw [htwo'.1 b hb, hone b hb, roundValueP, Finset.sum_const_zero, add_zero, zeroVec,
      Int.cast_zero, zero_add]
    apply Finset.sum_congr rfl
    intro g hg
    rw [Finset.mem_range] at hg
    rw [← hc.outValue_eq b hb g hg, hwires g hg, hbetar _ (hle g hg k),
      lagrange_shiftPoint _ hk, Nat.testBit_shiftRight, add_zero, ← Nat.shiftRight_add]
    cases g.testBit k with
    | false => simp
    | true =>
        simp only [if_true, bitFactor_true, equalityFactor, castVec_apply]
        ring
  · intro b hb
    show ((gatePass _ _ _ _ _).1 (b * polySize + 2) : ZMod p) = _
    rw [htwo.1 b hb, hone' b hb, roundValueP, Finset.sum_const_zero, add_zero, zeroVec,
      Int.cast_zero, zero_add]
    apply Finset.sum_congr rfl
    intro g hg
    rw [Finset.mem_range] at hg
    rw [← hc.outValue_eq b hb g hg, hwires g hg, hdrop _ (hle g hg (k + 1)), castVec_apply]
    ring
  · intro g hg
    show ((gatePass _ _ _ _ _).2 g : ZMod p) = _
    rw [htwo.2 g hg, hprime, cast_mulmle2, hwires g hg, lagrange_succ, hr]
  · intro i hi
    dsimp only
    rw [forLoop_update_apply _ (fun _ x => modmult x (mle r (oneSub (c.z k)) (c.z k) c.prime) c.prime),
      if_pos (by omega), hprime, cast_modmult, hdrop i hi, cast_mle, cast_oneSub, equality_succ,
      equalityFactor, castVec_apply, hr]
    ring

/-! ### Rounds over the inputs -/

/-- The operation of a gate in a round, over the field. -/
def fieldOperation (p : ℕ) (c : SumCheckInput) (onO1 : Bool) (v1 : ℕ → ZMod p) (g b : ℕ)
    (x : ZMod p) : ZMod p :=
  let w := c.layers.out.gate g
  if onO1 then w.eval x (inTable p c b w.in2) else w.eval (v1 b) x

theorem cast_roundOperation (hc : c.prime = p) (onO1 : Bool) (v1s : Vec) {g : ℕ}
    (hg : g < c.layers.out.size) (b : ℕ) (x : ℤ) :
    (roundOperation c onO1 v1s g b x : ZMod p) =
      fieldOperation p c onO1 (castVec p v1s) g b (x : ZMod p) := by
  rw [roundOperation, fieldOperation, hc]
  cases onO1 with
  | true =>
      simp only [if_true]
      rw [cast_applyGateOperation, inTable, padded, if_pos (c.layers.inRange g hg).2]
  | false =>
      simp only [Bool.false_eq_true, if_false]
      rw [cast_applyGateOperation, castVec_apply]

theorem movingInput_lt (onO1 : Bool) {g : ℕ} (hg : g < c.layers.out.size) :
    movingInput c onO1 g < 2 ^ c.layers.mip1 := by
  cases onO1 with
  | true => exact c.layers.in1_lt hg
  | false => exact c.layers.in2_lt hg

theorem cast_initValsArray (b : ℕ) (vals : Vec) {j : ℕ} (hj : j < 2 ^ c.layers.mip1) :
    (initValsArray c.layers.inSize (c.inValue b) vals j : ZMod p) = inTable p c b j := by
  have hj' : j < 2 ^ log2i c.layers.inSize := hj
  rw [initValsArray, forLoop_fill_apply, if_pos hj', inTable, padded]
  split_ifs
  · rfl
  · exact Int.cast_zero

/-- One gate of a round over the inputs. -/
theorem gateRoundO_apply (hc : c.prime = p) {k : ℕ} (onO1 : Bool)
    {vals : ℕ → Vec} (v1s : Vec) {table : ℕ → ℕ → ZMod p} {g : ℕ} (hg : g < c.layers.out.size)
    (addormult : ℤ) (poly : Vec) {b : ℕ} (hb : b < c.batchSize)
    (hlow : (vals b (2 * (movingInput c onO1 g >>> (k + 1))) : ZMod p) =
      table b (2 * (movingInput c onO1 g >>> (k + 1))))
    (hhigh : (vals b (2 * (movingInput c onO1 g >>> (k + 1)) + 1) : ZMod p) =
      table b (2 * (movingInput c onO1 g >>> (k + 1)) + 1)) :
    (gateRoundO c k onO1 vals v1s g addormult poly (b * polySize + 1) : ZMod p) =
        poly (b * polySize + 1) +
          fieldOperation p c onO1 (castVec p v1s) g b
            (foldTable 1 (table b) (movingInput c onO1 g >>> (k + 1))) *
            (addormult * bitFactor ((movingInput c onO1 g).testBit k) 1) ∧
      (gateRoundO c k onO1 vals v1s g addormult poly (b * polySize + 2) : ZMod p) =
        poly (b * polySize + 2) +
          fieldOperation p c onO1 (castVec p v1s) g b
            (foldTable 2 (table b) (movingInput c onO1 g >>> (k + 1))) *
            (addormult * bitFactor ((movingInput c onO1 g).testBit k) 2) := by
  have hhalf : (movingInput c onO1 g >>> k) / 2 = movingInput c onO1 g >>> (k + 1) :=
    (Nat.shiftRight_succ _ _).symm
  rw [gateRoundO, hhalf]
  constructor
  · rw [forBatch_of_ne (by decide) (by decide) (by decide)]
    -- the value at 1 gets a share of the gates whose bit is set only
    cases (movingInput c onO1 g).testBit k with
    | false => simp
    | true =>
        rw [if_pos rfl, forBatch_self (by decide) hb, Int.cast_add, Int.cast_mul,
          cast_roundOperation hc onO1 v1s hg, hhigh, foldTable, bitFactor_true]
        simp
  · -- the value at 2 is written after it, at another entry
    have hpass : ∀ f : ℕ → ℤ → ℤ,
        (if (movingInput c onO1 g).testBit k then forBatch c.batchSize 1 f poly else poly)
          (b * polySize + 2) = poly (b * polySize + 2) := by
      intro f
      split_ifs
      · exact forBatch_of_ne (by decide) (by decide) (by decide) _ _ _
      · rfl
    rw [forBatch_self (by decide) hb, hpass, Int.cast_add, Int.cast_mul,
      cast_roundOperation hc onO1 v1s hg, hc, cast_mleSi (by norm_num), cast_mulmle2Si, hlow,
      hhigh, foldTable]
    push_cast
    ring_nf

/-- Folding a table in place: no entry is read after it is written. -/
theorem foldVals_apply (prime r : ℤ) (vals : Vec) {n j : ℕ} (hj : j < n) :
    forLoop n
        (fun i v => Function.update v i
          (addmodmult (modmult (v (2 * i)) (oneSub r) prime) (v (2 * i + 1)) r prime)) vals j =
      addmodmult (modmult (vals (2 * j)) (oneSub r) prime) (vals (2 * j + 1)) r prime := by
  rw [forLoop_gather_apply _ (fun i (v : Vec) =>
    addmodmult (modmult (v (2 * i)) (oneSub r) prime) (v (2 * i + 1)) r prime), if_pos hj]
  intro i v hv
  rw [hv (2 * i) (by omega), hv (2 * i + 1) (by omega)]

/-- A round over the first or over the second inputs, from a table of the input layer at
the challenges so far. -/
theorem doRoundO_spec (hc : c.prime = p) {k : ℕ} (hk : k < c.layers.mip1) (onO1 : Bool) (r : ℤ)
    {st : ProverState} {table : ℕ → ℕ → ZMod p} (htable : k = 0 → table = inTable p c)
    (hvals : 0 < k → ∀ b < c.batchSize, ∀ j < 2 ^ (c.layers.mip1 - k),
      (st.vals b j : ZMod p) = table b j) :
    (∀ b < c.batchSize, ∀ x : ZMod p, ∀ m, (m = 1 ∧ x = 1 ∨ m = 2 ∧ x = 2) →
      ((doRoundO c k r onO1 st zeroVec).2 (b * polySize + m) : ZMod p) =
        st.betar 0 * ∑ g ∈ Finset.range c.layers.out.size,
          fieldOperation p c onO1 (castVec p st.v1s) g b
            (foldTable x (table b) (movingInput c onO1 g >>> (k + 1))) *
            (st.addormultr g * bitFactor ((movingInput c onO1 g).testBit k) x)) ∧
    (∀ g < c.layers.out.size, ((doRoundO c k r onO1 st zeroVec).1.addormultr g : ZMod p) =
      st.addormultr g * bitFactor ((movingInput c onO1 g).testBit k) (r : ZMod p)) ∧
    (∀ b < c.batchSize, ∀ j < 2 ^ (c.layers.mip1 - (k + 1)),
      ((doRoundO c k r onO1 st zeroVec).1.vals b j : ZMod p) =
        foldTable (r : ZMod p) (table b) j) ∧
    ∀ b, ∀ j < 2 ^ (c.layers.mip1 - (k + 1)), 0 ≤ (doRoundO c k r onO1 st zeroVec).1.vals b j ∧
      (doRoundO c k r onO1 st zeroVec).1.vals b j < p := by
  -- the table is built in the first round and folded in the later ones
  obtain ⟨vals, hvals'⟩ : ∃ vals : ℕ → Vec, vals = if k = 0 then
      fun b => initValsArray c.layers.inSize (c.inValue b) (st.vals b) else st.vals := ⟨_, rfl⟩
  have hentry : ∀ b < c.batchSize, ∀ j < 2 ^ (c.layers.mip1 - k),
      (vals b j : ZMod p) = table b j := by
    intro b hb j hj
    rw [hvals']
    split_ifs with hzero
    · rw [hzero, Nat.sub_zero] at hj
      rw [cast_initValsArray b _ hj, htable hzero]
    · exact hvals (Nat.pos_of_ne_zero hzero) b hb j hj
  -- half the table per round
  have hpow : 2 ^ (c.layers.mip1 - k) = 2 * 2 ^ (c.layers.mip1 - (k + 1)) := by
    rw [← pow_succ']
    congr 1
    omega
  have hindex : ∀ g < c.layers.out.size,
      movingInput c onO1 g >>> (k + 1) < 2 ^ (c.layers.mip1 - (k + 1)) := by
    intro g hg
    rw [Nat.shiftRight_eq_div_pow, Nat.div_lt_iff_lt_mul (by positivity), ← pow_add,
      Nat.sub_add_cancel (by omega)]
    exact movingInput_lt onO1 hg
  -- one gate's share, at both points, with the entries it reads in range
  have hgate := fun g (hg : g < c.layers.out.size) (poly : Vec) b (hb : b < c.batchSize) =>
    gateRoundO_apply hc onO1 st.v1s hg (st.addormultr g) poly hb
      (hentry b hb (2 * (movingInput c onO1 g >>> (k + 1)))
        (by have := hindex g hg; omega))
      (hentry b hb (2 * (movingInput c onO1 g >>> (k + 1)) + 1)
        (by have := hindex g hg; omega))
  have hone := gatePass_spec c.layers.out.size (gateRoundO c k onO1 vals st.v1s)
    (fun g addormult => mulmle2 addormult r ((movingInput c onO1 g).testBit k) c.prime)
    zeroVec st.addormultr _ fun g hg poly b hb => (hgate g hg poly b hb).1
  have htwo := gatePass_spec c.layers.out.size (gateRoundO c k onO1 vals st.v1s)
    (fun g addormult => mulmle2 addormult r ((movingInput c onO1 g).testBit k) c.prime)
    zeroVec st.addormultr _ fun g hg poly b hb => (hgate g hg poly b hb).2
  have hhalf : 2 ^ (c.layers.mip1 - k) / 2 = 2 ^ (c.layers.mip1 - (k + 1)) := by omega
  rw [doRoundO, ← hvals']
  refine ⟨?_, ?_, ?_, ?_⟩
  · -- the two values are written one after the other, at entries that differ
    rintro b hb x m (⟨rfl, rfl⟩ | ⟨rfl, rfl⟩)
    · dsimp only
      rw [forBatch_of_ne (by decide) (by decide) (by decide), forBatch_self (by decide) hb, hc,
        cast_modmult, ← hc, hone.1 b hb, zeroVec, Int.cast_zero, zero_add, mul_comm]
    · dsimp only
      rw [forBatch_self (by decide) hb, forBatch_of_ne (by decide) (by decide) (by decide), hc,
        cast_modmult, ← hc, htwo.1 b hb, zeroVec, Int.cast_zero, zero_add, mul_comm]
  · intro g hg
    dsimp only
    rw [hone.2 g hg, hc, cast_mulmle2]
  · -- the new table folds two neighbours at the challenge
    intro b hb j hj
    dsimp only
    rw [hhalf, foldVals_apply c.prime r (vals b) hj, hc, cast_addmodmult, cast_modmult, cast_oneSub,
      hentry b hb _ (by omega), hentry b hb _ (by omega), foldTable]
  · intro b j hj
    dsimp only
    rw [hhalf, foldVals_apply c.prime r (vals b) hj, hc]
    exact emod_range _

end Rounds

end Pepper.Cmtgkr.SumCheckProver
