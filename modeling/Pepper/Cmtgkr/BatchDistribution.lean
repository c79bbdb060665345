import Pepper.Foundations.Loop
import Mathlib.Algebra.Order.Group.Nat
import Mathlib.Order.Monotone.Basic
import Mathlib.Tactic.Ring

/-!
# Splitting a batch across provers

`CMTProtocolConfig` cuts a batch of `nBatch` instances into consecutive slices, one
for each prover. `CMTVerifier::distribute` sends every prover the inputs of its
slice, the prover runs its circuit on one instance after the other, and
`CMTVerifier::gather` writes the answers back at the offset of the slice. A prover
whose slice is empty is skipped by `gather`.

`splitting_transparent` states that the number of provers does not show in the
result: every cell is the one a single prover with the whole batch produces. The
slices are the blocks between the boundaries `firstInstance`, and the loop over the
provers fills the result up to the boundary it has reached (`gather_upTo`).
-/

set_option autoImplicit false

namespace Pepper.Cmtgkr.BatchDistribution

open Pepper.Foundations.Loop

universe u

/-! ## Configurations -/

structure CMTProverConfig where
  startInstance : ℕ
  endInstance : ℕ
  deriving DecidableEq, Repr

def CMTProverConfig.batchSize (conf : CMTProverConfig) : ℕ :=
  conf.endInstance - conf.startInstance

structure CMTProtocolConfig where
  batchSize : ℕ
  pConfs : List CMTProverConfig

/-- The constructor `CMTProtocolConfig(int nBatch, int nProvers)`. -/
def CMTProtocolConfig.split (nBatch nProvers : ℕ) : CMTProtocolConfig :=
  let numResponsible := nBatch / nProvers
  let extra := nBatch - numResponsible * nProvers
  { batchSize := nBatch
    pConfs := (List.range nProvers).map fun pid =>
      let start := pid * numResponsible + min pid extra
      { startInstance := start
        endInstance := start + numResponsible + if pid < extra then 1 else 0 } }

def CMTProtocolConfig.numProvers (conf : CMTProtocolConfig) : ℕ := conf.pConfs.length

/-! ## Vectors and messages -/

section Vectors

variable {Q : Type u}

/-- `MPNVector::copy`: `len` cells of `other` from `startOther` on, written from
`startThis` on. -/
def copyCells (len : ℕ) (other : ℕ → Q) (startOther : ℕ) (vec : ℕ → Q) (startThis : ℕ) :
    ℕ → Q :=
  forLoop len (fun i v => Function.update v (startThis + i) (other (startOther + i))) vec

/-- A header and the numbers of the body. -/
structure Message (Q : Type u) where
  header : String
  body : List Q

/-- `NetClient::sendQVector` from a pointer into a vector. -/
def sendVector (header : String) (vec : ℕ → Q) (start len : ℕ) : Message Q :=
  ⟨header, (List.range len).map fun i => vec (start + i)⟩

/-- `NetClient::getDataAsQVector`: at most `len` numbers, until the body ends. -/
def getDataAsVector (body : List Q) (vec : ℕ → Q) (start len : ℕ) : ℕ → Q :=
  forLoop (min len body.length)
    (fun i v => Function.update v (start + i) (body.getD i (v (start + i)))) vec

/-- `CMTVerifier::waitForResponse`: messages with another header are dropped; without an
answer the call blocks, which is `none`. -/
def waitForResponse (header : String) : List (Message Q) → Option (List Q × List (Message Q))
  | [] => none
  | msg :: rest =>
      if msg.header = header then some (msg.body, rest) else waitForResponse header rest

end Vectors

/-! ## The verifier's two operations and the prover between them -/

section Protocol

variable {Q : Type u}

/-- `CMTVerifier::distribute`: the message for each prover. -/
def distribute (conf : CMTProtocolConfig) (header : String) (vec : ℕ → Q) (instanceSize : ℕ) :
    List (Message Q) :=
  conf.pConfs.map fun pConf =>
    let distroStart := pConf.startInstance * instanceSize
    let distroSize := pConf.batchSize * instanceSize
    sendVector header vec distroStart distroSize

/-- One pass of `CMTVerifier::gather` for the prover `pid` with the queue `nets pid`. -/
def gatherFrom (conf : CMTProtocolConfig) (header : String) (instanceSize : ℕ)
    (nets : ℕ → List (Message Q)) (vec : ℕ → Q) (pid : ℕ) : Option (ℕ → Q) :=
  match conf.pConfs[pid]? with
  | none => none
  | some pConf =>
      let gatherStart := pConf.startInstance * instanceSize
      let gatherSize := pConf.batchSize * instanceSize
      if 0 < gatherSize then
        (waitForResponse header (nets pid)).map fun answer =>
          getDataAsVector answer.1 vec gatherStart gatherSize
      else some vec

/-- `CMTVerifier::gather`. -/
def gather (conf : CMTProtocolConfig) (vec : ℕ → Q) (header : String) (instanceSize : ℕ)
    (nets : ℕ → List (Message Q)) : Option (ℕ → Q) :=
  if instanceSize = 0 then some vec
  else (List.range conf.numProvers).foldlM (gatherFrom conf header instanceSize nets) vec

variable [Zero Q] {inputSize outputSize : ℕ}

/-- A prover's answer to `REQ_OUTPUTS`: it cuts the received vector into instances, runs
`circuit` on each and sends the outputs in one vector. -/
def answer (circuit : (Fin inputSize → Q) → Fin outputSize → Q) (conf : CMTProverConfig)
    (response : String) (request : Message Q) : Message Q :=
  let vec := getDataAsVector request.body (fun _ => 0) 0 (inputSize * conf.batchSize)
  let outs := forLoop conf.batchSize (fun b outs =>
    let inner := copyCells inputSize vec (b * inputSize) (fun _ => 0) 0
    let res := circuit fun i => inner i
    copyCells outputSize (fun j => if h : j < outputSize then res ⟨j, h⟩ else 0) 0 outs
      (b * outputSize)) fun _ => 0
  sendVector response outs 0 (outputSize * conf.batchSize)

/-- One round: the inputs go out, every prover appends its answer to the messages `stale`
that are still in its queue, and the answers are gathered into `outputs`. -/
def roundTrip (circuit : (Fin inputSize → Q) → Fin outputSize → Q) (conf : CMTProtocolConfig)
    (request response : String) (stale : ℕ → List (Message Q)) (inputs outputs : ℕ → Q) :
    Option (ℕ → Q) :=
  let requests := distribute conf request inputs inputSize
  let nets := fun pid => stale pid ++
    (List.zipWith (fun pConf msg => answer circuit pConf response msg) conf.pConfs
      requests)[pid]?.toList
  gather conf outputs response outputSize nets

end Protocol

/-! ## The slices -/

/-- First instance of the prover `pid`; `firstInstance nBatch nProvers nProvers` is the end
of the batch. -/
def firstInstance (nBatch nProvers pid : ℕ) : ℕ :=
  pid * (nBatch / nProvers) + min pid (nBatch % nProvers)

/-- Number of instances of the prover `pid`. -/
def sliceSize (nBatch nProvers pid : ℕ) : ℕ :=
  nBatch / nProvers + if pid < nBatch % nProvers then 1 else 0

section Slices

variable (nBatch nProvers : ℕ)

@[simp] theorem firstInstance_zero : firstInstance nBatch nProvers 0 = 0 := by
  simp [firstInstance]

theorem firstInstance_succ (pid : ℕ) :
    firstInstance nBatch nProvers (pid + 1) =
      firstInstance nBatch nProvers pid + sliceSize nBatch nProvers pid := by
  have hmin : min (pid + 1) (nBatch % nProvers) =
      min pid (nBatch % nProvers) + if pid < nBatch % nProvers then 1 else 0 := by
    by_cases h : pid < nBatch % nProvers
    · rw [if_pos h, Nat.min_eq_left h, Nat.min_eq_left h.le]
    · rw [if_neg h, Nat.min_eq_right (by omega), Nat.min_eq_right (not_lt.1 h)]
      rfl
  unfold firstInstance sliceSize
  rw [hmin]
  ring

theorem firstInstance_numProvers (h : 0 < nProvers) :
    firstInstance nBatch nProvers nProvers = nBatch := by
  rw [firstInstance, Nat.min_eq_right (Nat.mod_lt nBatch h).le]
  exact Nat.div_add_mod nBatch nProvers

theorem firstInstance_mono : Monotone (firstInstance nBatch nProvers) := by
  refine monotone_nat_of_le_succ fun pid => ?_
  rw [firstInstance_succ]
  exact Nat.le_add_right _ _

/-- Slices are the blocks between consecutive boundaries, so two that share an instance are
slices of the same prover. -/
theorem slice_unique {b pid pid' : ℕ}
    (h : firstInstance nBatch nProvers pid ≤ b ∧ b < firstInstance nBatch nProvers (pid + 1))
    (h' : firstInstance nBatch nProvers pid' ≤ b ∧
      b < firstInstance nBatch nProvers (pid' + 1)) : pid = pid' := by
  have hmono := firstInstance_mono nBatch nProvers
  rcases lt_trichotomy pid pid' with hlt | heq | hgt
  · have := hmono (Nat.succ_le_of_lt hlt)
    exact absurd (h'.1.trans_lt h.2) (not_lt.2 this)
  · exact heq
  · have := hmono (Nat.succ_le_of_lt hgt)
    exact absurd (h.1.trans_lt h'.2) (not_lt.2 this)

theorem exists_slice {b n : ℕ} (hb : b < firstInstance nBatch nProvers n) :
    ∃ pid < n, firstInstance nBatch nProvers pid ≤ b ∧
      b < firstInstance nBatch nProvers (pid + 1) := by
  induction n with
  | zero => simp at hb
  | succ n ih =>
      by_cases hn : b < firstInstance nBatch nProvers n
      · obtain ⟨pid, hpid, hslice⟩ := ih hn
        exact ⟨pid, Nat.lt_succ_of_lt hpid, hslice⟩
      · exact ⟨n, Nat.lt_succ_self n, not_lt.1 hn, hb⟩

theorem sliceSize_le (pid pid' : ℕ) :
    sliceSize nBatch nProvers pid ≤ sliceSize nBatch nProvers pid' + 1 := by
  unfold sliceSize
  split <;> split <;> omega

/-- The configuration of the source, written with the boundaries. -/
theorem split_pConfs :
    (CMTProtocolConfig.split nBatch nProvers).pConfs = (List.range nProvers).map fun pid =>
      ⟨firstInstance nBatch nProvers pid, firstInstance nBatch nProvers (pid + 1)⟩ := by
  have hextra : nBatch - nBatch / nProvers * nProvers = nBatch % nProvers := by
    rw [Nat.mod_eq_sub, Nat.mul_comm]
  refine List.map_congr_left fun pid _ => ?_
  rw [firstInstance_succ, hextra, sliceSize, ← Nat.add_assoc]
  rfl

@[simp] theorem split_numProvers :
    (CMTProtocolConfig.split nBatch nProvers).numProvers = nProvers := by
  rw [CMTProtocolConfig.numProvers, split_pConfs, List.length_map, List.length_range]

theorem split_getElem? {pid : ℕ} (h : pid < nProvers) :
    (CMTProtocolConfig.split nBatch nProvers).pConfs[pid]? =
      some ⟨firstInstance nBatch nProvers pid, firstInstance nBatch nProvers (pid + 1)⟩ := by
  rw [split_pConfs, List.getElem?_map, List.getElem?_range h]
  rfl

theorem slice_batchSize (pid : ℕ) :
    CMTProverConfig.batchSize
      ⟨firstInstance nBatch nProvers pid, firstInstance nBatch nProvers (pid + 1)⟩ =
        sliceSize nBatch nProvers pid := by
  rw [CMTProverConfig.batchSize, firstInstance_succ]
  exact Nat.add_sub_cancel_left _ _

end Slices

/-! ## Reading messages -/

section Reading

variable {Q : Type u}

theorem copyCells_apply (len : ℕ) (other : ℕ → Q) (startOther : ℕ) (vec : ℕ → Q)
    (startThis j : ℕ) :
    copyCells len other startOther vec startThis j =
      if startThis ≤ j ∧ j < startThis + len then other (startOther + (j - startThis))
      else vec j :=
  forLoop_block_apply len startThis (fun i => other (startOther + i)) vec j

/-- A vector that is sent and read at its full length arrives cell by cell. -/
theorem getDataAsVector_sendVector (header : String) (src : ℕ → Q) (s len : ℕ) (vec : ℕ → Q)
    (start j : ℕ) :
    getDataAsVector (sendVector header src s len).body vec start len j =
      if start ≤ j ∧ j < start + len then src (s + (j - start)) else vec j := by
  have hlen : (sendVector header src s len).body.length = len := by simp [sendVector]
  have hcell : ∀ i < len, ∀ d, (sendVector header src s len).body.getD i d = src (s + i) := by
    intro i hi d
    simp [sendVector, List.getD, hi]
  rw [getDataAsVector, hlen, Nat.min_self,
    ← forLoop_block_apply len start (fun i => src (s + i)) vec j]
  refine congrFun (forLoop_congr fun i hi v => ?_) j
  rw [hcell i hi]

theorem waitForResponse_append (header : String) (stale : List (Message Q))
    (hstale : ∀ msg ∈ stale, msg.header ≠ header) (body : List Q) :
    waitForResponse header (stale ++ [⟨header, body⟩]) = some (body, []) := by
  induction stale with
  | nil => exact if_pos rfl
  | cons msg stale ih =>
      rw [List.cons_append, waitForResponse, if_neg (hstale msg List.mem_cons_self)]
      exact ih fun m hm => hstale m (List.mem_cons_of_mem msg hm)

end Reading

/-! ## One round -/

section Round

variable {Q : Type u} {inputSize outputSize : ℕ}

/-- The first `n` instances done one after the other: outputs of `circuit` in the first
`n * outputSize` cells, the old cells after them. -/
def batchResult (circuit : (Fin inputSize → Q) → Fin outputSize → Q) (n : ℕ)
    (inputs outputs : ℕ → Q) : ℕ → Q := fun i =>
  if h : 0 < outputSize ∧ i < n * outputSize then
    circuit (fun t => inputs (i / outputSize * inputSize + t)) ⟨i % outputSize, Nat.mod_lt i h.1⟩
  else outputs i

variable (circuit : (Fin inputSize → Q) → Fin outputSize → Q) (inputs outputs : ℕ → Q)

theorem batchResult_apply {n b : ℕ} (hb : b < n) (j : Fin outputSize) :
    batchResult circuit n inputs outputs (b * outputSize + j) =
      circuit (fun t => inputs (b * inputSize + t)) j := by
  have hpos : 0 < outputSize := j.pos
  have hlt : b * outputSize + j < n * outputSize := block_lt hb j.isLt
  rw [batchResult, dif_pos ⟨hpos, hlt⟩]
  simp only [block_div j.isLt, Nat.mul_add_mod_of_lt j.isLt]

/-- The last pass of a batch: the outputs of instance `n` go behind those before it. -/
theorem batchResult_succ [Zero Q] (n : ℕ) :
    copyCells outputSize
      (fun j => if h : j < outputSize then
        circuit (fun t => inputs (n * inputSize + t)) ⟨j, h⟩ else 0) 0
      (batchResult circuit n inputs outputs) (n * outputSize) =
    batchResult circuit (n + 1) inputs outputs := by
  funext i
  rw [copyCells_apply]
  by_cases hi : n * outputSize ≤ i ∧ i < n * outputSize + outputSize
  · obtain ⟨k, rfl⟩ := Nat.exists_eq_add_of_le hi.1
    have hk : k < outputSize := by omega
    rw [if_pos hi, Nat.add_sub_cancel_left, Nat.zero_add, dif_pos hk]
    exact (batchResult_apply circuit inputs outputs (Nat.lt_succ_self n) ⟨k, hk⟩).symm
  · have hiff : i < (n + 1) * outputSize ↔ i < n * outputSize := by
      rw [Nat.succ_mul]
      by_cases h0 : outputSize = 0
      · subst h0; simp
      · omega
    rw [if_neg hi, batchResult, batchResult]
    simp only [hiff]

/-- A prover sends back the batch of its slice. -/
theorem answer_eq [Zero Q] (header response : String) (conf : CMTProverConfig) :
    answer circuit conf response (sendVector header inputs (conf.startInstance * inputSize)
      (conf.batchSize * inputSize)) =
    sendVector response (batchResult circuit conf.batchSize
      (fun i => inputs (conf.startInstance * inputSize + i)) fun _ => 0) 0
        (outputSize * conf.batchSize) := by
  unfold answer
  dsimp only
  congr 1
  set vec := getDataAsVector _ _ _ _ with hvec
  have hcell : ∀ b < conf.batchSize, ∀ t : Fin inputSize,
      copyCells inputSize vec (b * inputSize) (fun _ => 0) 0 t =
        inputs (conf.startInstance * inputSize + (b * inputSize + t)) := by
    intro b hb t
    have hlt : b * inputSize + t < conf.batchSize * inputSize := block_lt hb t.isLt
    have ht : 0 ≤ (t : ℕ) ∧ (t : ℕ) < 0 + inputSize := ⟨Nat.zero_le _, by simp⟩
    rw [copyCells_apply, if_pos ht, hvec, Nat.mul_comm inputSize, getDataAsVector_sendVector,
      if_pos ⟨Nat.zero_le _, by simpa using hlt⟩]
    simp
  -- after `n` instances the vector of the answer holds the batch of the first `n`
  refine forLoop_induction (P := fun n outs => outs = batchResult circuit n
    (fun i => inputs (conf.startInstance * inputSize + i)) fun _ => 0) ?_ ?_
  · funext i
    simp [batchResult]
  · rintro b hb _ rfl
    rw [← batchResult_succ circuit (fun i => inputs (conf.startInstance * inputSize + i))]
    simp only [hcell b hb]

end Round

/-! ## The whole round -/

section Transparency

variable {Q : Type u} [Zero Q] {inputSize outputSize : ℕ}
  (circuit : (Fin inputSize → Q) → Fin outputSize → Q) (nBatch nProvers : ℕ)
  (inputs outputs : ℕ → Q)

/-- The answer that the prover `pid` sends back. -/
def sliceAnswer (response : String) (pid : ℕ) : Message Q :=
  sendVector response (batchResult circuit (sliceSize nBatch nProvers pid)
    (fun i => inputs (firstInstance nBatch nProvers pid * inputSize + i)) fun _ => 0) 0
      (outputSize * sliceSize nBatch nProvers pid)

theorem answers_getElem? (request response : String) {pid : ℕ} (h : pid < nProvers) :
    (List.zipWith (fun pConf msg => answer circuit pConf response msg)
      (CMTProtocolConfig.split nBatch nProvers).pConfs
      (distribute (CMTProtocolConfig.split nBatch nProvers) request inputs inputSize))[pid]? =
    some (sliceAnswer circuit nBatch nProvers inputs response pid) := by
  have hconf := split_getElem? nBatch nProvers h
  rw [List.getElem?_zipWith, distribute, List.getElem?_map, hconf]
  simp only [Option.map_some, Option.some.injEq]
  rw [answer_eq, sliceAnswer, slice_batchSize]

/-- Writing a prover's answer at the offset of its slice completes the batch up to the next
boundary. -/
theorem getDataAsVector_sliceAnswer (response : String) (pid : ℕ) :
    getDataAsVector (sliceAnswer circuit nBatch nProvers inputs response pid).body
      (batchResult circuit (firstInstance nBatch nProvers pid) inputs outputs)
      (firstInstance nBatch nProvers pid * outputSize)
      (sliceSize nBatch nProvers pid * outputSize) =
    batchResult circuit (firstInstance nBatch nProvers (pid + 1)) inputs outputs := by
  funext i
  rw [sliceAnswer, Nat.mul_comm outputSize, getDataAsVector_sendVector, firstInstance_succ]
  set s := firstInstance nBatch nProvers pid
  set n := sliceSize nBatch nProvers pid
  by_cases hi : s * outputSize ≤ i ∧ i < s * outputSize + n * outputSize
  · -- a cell of the slice: its output belongs to the instance `s + k / outputSize`
    obtain ⟨k, rfl⟩ := Nat.exists_eq_add_of_le hi.1
    have hk : k < n * outputSize := by omega
    have hpos : 0 < outputSize := Nat.pos_of_ne_zero fun h0 => by simp [h0] at hk
    have hb : k / outputSize < n := Nat.div_lt_of_lt_mul (by rwa [Nat.mul_comm])
    have hsplit : s * outputSize + k =
        (s + k / outputSize) * outputSize + k % outputSize := by
      rw [Nat.add_mul, Nat.add_assoc, Nat.mul_comm (k / outputSize), Nat.div_add_mod]
    have hkk : k = k / outputSize * outputSize + k % outputSize := by
      rw [Nat.mul_comm, Nat.div_add_mod]
    have hmod : k % outputSize < outputSize := Nat.mod_lt k hpos
    rw [if_pos hi, Nat.add_sub_cancel_left, Nat.zero_add, hsplit]
    have hwhole := batchResult_apply circuit inputs outputs (n := s + n)
      (b := s + k / outputSize) (by omega) ⟨k % outputSize, hmod⟩
    have hpart := batchResult_apply circuit (fun i => inputs (s * inputSize + i)) (fun _ => 0)
      hb ⟨k % outputSize, hmod⟩
    rw [hwhole]
    refine (congrArg _ hkk).trans (hpart.trans ?_)
    simp only [Nat.add_mul, Nat.add_assoc]
  · -- the prover answers for no other cell
    have hiff : i < (s + n) * outputSize ↔ i < s * outputSize := by
      rw [Nat.add_mul]
      omega
    rw [if_neg hi, batchResult, batchResult]
    simp only [hiff]

variable {nProvers} in
/-- What the loop of `gather` has written after the first provers: the batch up to the
boundary of the next one. -/
theorem gather_upTo (response : String) {stale : ℕ → List (Message Q)}
    (hstale : ∀ pid < nProvers, ∀ msg ∈ stale pid, msg.header ≠ response)
    (hsize : outputSize ≠ 0) {pid : ℕ} (h : pid < nProvers) {nets : ℕ → List (Message Q)}
    (hnets : nets pid = stale pid ++ [sliceAnswer circuit nBatch nProvers inputs response pid]) :
    gatherFrom (CMTProtocolConfig.split nBatch nProvers) response outputSize nets
      (batchResult circuit (firstInstance nBatch nProvers pid) inputs outputs) pid =
    some (batchResult circuit (firstInstance nBatch nProvers (pid + 1)) inputs outputs) := by
  rw [gatherFrom, split_getElem? nBatch nProvers h]
  simp only [slice_batchSize]
  by_cases hempty : sliceSize nBatch nProvers pid = 0
  · -- an empty slice is skipped and moves no boundary
    rw [firstInstance_succ, hempty, Nat.zero_mul, if_neg (lt_irrefl 0), Nat.add_zero]
  · have hpos : 0 < sliceSize nBatch nProvers pid * outputSize :=
      Nat.mul_pos (Nat.pos_of_ne_zero hempty) (Nat.pos_of_ne_zero hsize)
    have hwait := waitForResponse_append response (stale pid) (hstale pid h)
      (sliceAnswer circuit nBatch nProvers inputs response pid).body
    rw [if_pos hpos, hnets]
    refine (congrArg _ hwait).trans ?_
    exact congrArg some (getDataAsVector_sliceAnswer circuit nBatch nProvers inputs outputs
      response pid)

/-- A round with any positive number of provers gives every instance its result. -/
theorem roundTrip_eq (request response : String) {stale : ℕ → List (Message Q)}
    (hstale : ∀ pid < nProvers, ∀ msg ∈ stale pid, msg.header ≠ response)
    (hprovers : 0 < nProvers) :
    roundTrip circuit (CMTProtocolConfig.split nBatch nProvers) request response stale inputs
      outputs = some (batchResult circuit nBatch inputs outputs) := by
  have hzero : batchResult circuit (firstInstance nBatch nProvers 0) inputs outputs =
      outputs := by
    funext i
    simp [batchResult]
  unfold roundTrip gather
  dsimp only
  by_cases hsize : outputSize = 0
  · rw [if_pos hsize]
    congr 1
    funext i
    simp [batchResult, hsize]
  · rw [if_neg hsize, split_numProvers]
    nth_rewrite 1 [← hzero]
    refine (foldlM_range_eq (g := fun pid =>
      batchResult circuit (firstInstance nBatch nProvers pid) inputs outputs) ?_).trans ?_
    · intro pid hpid
      refine gather_upTo circuit nBatch inputs outputs response hstale hsize hpid ?_
      rw [answers_getElem? circuit nBatch nProvers inputs request response hpid]
      rfl
    · rw [firstInstance_numProvers nBatch nProvers hprovers]

/-- Splitting a batch is transparent: the round with `nProvers` provers leaves the vector that
one prover leaves, instance `b` has the outputs of `circuit` on its inputs, every instance is
in the slice of exactly one prover, and two slices differ by at most one instance. -/
theorem splitting_transparent (request response : String) (stale : ℕ → List (Message Q))
    (hstale : ∀ pid < nProvers, ∀ msg ∈ stale pid, msg.header ≠ response)
    (hprovers : 0 < nProvers) :
    (∃ result,
      roundTrip circuit (CMTProtocolConfig.split nBatch nProvers) request response stale inputs
        outputs = some result ∧
      roundTrip circuit (CMTProtocolConfig.split nBatch 1) request response stale inputs
        outputs = some result ∧
      ∀ b < nBatch, ∀ j : Fin outputSize, result (b * outputSize + j) =
        circuit (fun t => inputs (b * inputSize + t)) j) ∧
    (∀ b < nBatch, ∃! pid, pid < nProvers ∧
      ∃ conf, (CMTProtocolConfig.split nBatch nProvers).pConfs[pid]? = some conf ∧
        conf.startInstance ≤ b ∧ b < conf.endInstance) ∧
    (∀ conf ∈ (CMTProtocolConfig.split nBatch nProvers).pConfs,
      ∀ conf' ∈ (CMTProtocolConfig.split nBatch nProvers).pConfs,
        conf.batchSize ≤ conf'.batchSize + 1) := by
  refine ⟨⟨batchResult circuit nBatch inputs outputs, ?_, ?_, ?_⟩, ?_, ?_⟩
  · -- any number of provers, and one prover alone
    exact roundTrip_eq circuit nBatch nProvers inputs outputs request response hstale hprovers
  · refine roundTrip_eq circuit nBatch 1 inputs outputs request response ?_ Nat.one_pos
    intro pid hpid
    exact hstale pid (hpid.trans_le hprovers)
  · intro b hb j
    exact batchResult_apply circuit inputs outputs hb j
  · intro b hb
    -- the slices cover the batch and are disjoint
    rw [← firstInstance_numProvers nBatch nProvers hprovers] at hb
    obtain ⟨pid, hpid, hslice⟩ := exists_slice nBatch nProvers hb
    refine ⟨pid, ⟨hpid, _, split_getElem? nBatch nProvers hpid, hslice⟩, ?_⟩
    rintro pid' ⟨hpid', conf, hconf, hslice'⟩
    rw [split_getElem? nBatch nProvers hpid'] at hconf
    cases hconf
    exact slice_unique nBatch nProvers hslice' hslice
  · intro conf hconf conf' hconf'
    rw [split_pConfs] at hconf hconf'
    obtain ⟨pid, -, rfl⟩ := List.mem_map.1 hconf
    obtain ⟨pid', -, rfl⟩ := List.mem_map.1 hconf'
    rw [slice_batchSize, slice_batchSize]
    exact sliceSize_le nBatch nProvers pid pid'

/-- Three instances on five provers, so that two provers get nothing; instances of two
inputs and one output, and a late answer to another request in every queue. -/
theorem splitting_transparent_five : ∃ result,
    roundTrip (fun (x : Fin 2 → ℤ) (_ : Fin 1) => x 0 + x 1) (CMTProtocolConfig.split 3 5)
      "REQ_OUTPUTS" "REQ_OUTPUTS::RESP" (fun _ => [⟨"REQ_VS::RESP", [7]⟩]) (fun i => i)
      (fun _ => 0) = some result ∧ result 2 = 9 := by
  obtain ⟨⟨result, hrun, -, hvalue⟩, -, -⟩ :=
    splitting_transparent (fun (x : Fin 2 → ℤ) (_ : Fin 1) => x 0 + x 1) 3 5 (fun i => i)
      (fun _ => 0) "REQ_OUTPUTS" "REQ_OUTPUTS::RESP" (fun _ => [⟨"REQ_VS::RESP", [7]⟩])
      (by simp) (by decide)
  exact ⟨result, hrun, hvalue 2 (by decide) 0⟩

end Transparency

end Pepper.Cmtgkr.BatchDistribution
