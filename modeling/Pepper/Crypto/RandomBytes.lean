import Pepper.Foundations.Loop
import Pepper.Foundations.Simulation
import Mathlib.Data.BitVec

/-!
# Numbers and bits from the ChaCha keystream

`Prng` keeps a block of the keystream and an index into it. A request takes whole bytes from the
index on, after a refill if the block is too short. `get_randomb(m, nbits)` reads them as a
big-endian number and drops the surplus bits, `get_random(m, n)` repeats this until the number is
below `n`, and `get_randomb(buf, nbits)` copies them into `buf` and masks the last byte.

`spans_disjoint` states that no byte of the keystream serves two requests. The mask of the last
byte keeps the low `diff` random bits where the request asks for `nbits % 8 = 8 - diff`: the byte
is right exactly when the bits between the two agree, in particular when `nbits % 8` is 0 or 4
(`run_correct_iff`).
-/

set_option autoImplicit false

namespace Pepper.Crypto.RandomBytes

open Pepper.Foundations.Loop
open Pepper.Foundations.Simulation

/-! ## The generator -/

def mp_bits_per_limb : ℕ := 64

def RANDOM_STATE_SIZE : ℕ := 3000 * mp_bits_per_limb / 8

abbrev Byte := BitVec 8

/-- `chacha` is the number of keystream bytes produced. -/
structure Prng where
  chacha : ℕ
  random_state : ℕ → Byte
  random_index : ℕ

section Generator

variable (keystream : ℕ → Byte)

/-- `chacha_refill_randomness`; `ECRYPT_keystream_bytes` writes the next bytes of the keystream. -/
def chacha_refill_randomness (s : Prng) : Prng :=
  { chacha := s.chacha + RANDOM_STATE_SIZE
    random_state := fun i => keystream (s.chacha + i)
    random_index := 0 }

/-- `init_chacha_png`. -/
def init_chacha_png : Prng := chacha_refill_randomness keystream ⟨0, fun _ => 0, 0⟩

/-- Refill when the rest of the block has fewer than `nbytes` bytes. -/
def ensureBytes (s : Prng) (nbytes : ℕ) : Prng :=
  if RANDOM_STATE_SIZE - s.random_index < nbytes then chacha_refill_randomness keystream s else s

/-- `ceil(double(nbits)/8.0)`. -/
def numBytes (nbits : ℕ) : ℕ := (nbits + 7) / 8

/-- `mpz_import` of `nbytes` bytes, the most significant first. -/
def mpz_import (raw : ℕ → Byte) (nbytes : ℕ) : ℕ :=
  forLoop nbytes (fun i m => m * 256 + (raw i).toNat) 0

/-- `chacha_urandomb(mpz_t, int)`. -/
def chacha_urandomb (s : Prng) (nbits : ℕ) : Prng × ℕ :=
  let nbytes := numBytes nbits
  let diff := 8 * nbytes - nbits
  let s := ensureBytes keystream s nbytes
  let m := mpz_import (fun i => s.random_state (s.random_index + i)) nbytes
  let s := { s with random_index := s.random_index + nbytes }
  (s, if diff ≠ 0 then m / 2 ^ diff else m)

/-- `mpz_sizeinbase(n, 2)`. -/
def sizeInBase2 (n : ℕ) : ℕ := Nat.log2 n + 1

/-- The loop of `chacha_urandom` for at most `fuel` draws, with the number of draws. -/
def chacha_urandom : ℕ → Prng → ℕ → Option (Prng × ℕ × ℕ)
  | 0, _, _ => none
  | fuel + 1, s, n =>
      let draw := chacha_urandomb keystream s (sizeInBase2 n)
      if n ≤ draw.2 then (chacha_urandom fuel draw.1 n).map fun r => (r.1, r.2.1, r.2.2 + 1)
      else some (draw.1, draw.2, 1)

/-- The partial byte of `chacha_urandomb(char*, int)`. -/
def maskByte (diff : ℕ) (random old : Byte) : Byte :=
  (random &&& (0xFF#8 >>> (8 - diff))) ||| (old &&& (0xFF#8 <<< diff))

/-- `chacha_urandomb(char*, int)`. -/
def chacha_urandomb_buf (s : Prng) (buf : ℕ → Byte) (nbits : ℕ) : Prng × (ℕ → Byte) :=
  if nbits = 0 then (s, buf)
  else
    let nbytes := numBytes nbits
    let diff := 8 * nbytes - nbits
    let s := ensureBytes keystream s nbytes
    let raw := fun i => s.random_state (s.random_index + i)
    let buf :=
      if diff = 0 then forLoop nbytes (fun i b => Function.update b i (raw i)) buf
      else
        let buf := forLoop (nbytes - 1) (fun i b => Function.update b i (raw i)) buf
        Function.update buf (nbytes - 1) (maskByte diff (raw (nbytes - 1)) (buf (nbytes - 1)))
    ({ s with random_index := s.random_index + nbytes }, buf)

end Generator

/-! ## Requests -/

/-- `get_randomb(m, nbits)`, `get_random(m, n)` and `get_randomb(buf, nbits)`. -/
inductive Request where
  | number (nbits : ℕ)
  | below (n : ℕ)
  | buffer (buf : ℕ → Byte) (nbits : ℕ)

/-- Bytes of one draw. -/
def Request.nbytes : Request → ℕ
  | .number nbits => numBytes nbits
  | .below n => numBytes (sizeInBase2 n)
  | .buffer _ nbits => numBytes nbits

/-- A draw is at most a block, and a bound is at least 1. -/
def Request.Valid (r : Request) : Prop :=
  r.nbytes ≤ RANDOM_STATE_SIZE ∧ ∀ n, r = .below n → 1 ≤ n

/-- `len` bytes of the keystream from `start` on. -/
structure Span where
  start : ℕ
  len : ℕ

/-- The result of a request. `spans` records which bytes of the keystream it read; the code does
not keep it. -/
structure Answer where
  value : ℕ
  buf : ℕ → Byte
  spans : List Span

/-- Position in the keystream of the next byte of the block. -/
def Prng.position (s : Prng) : ℕ := s.chacha - RANDOM_STATE_SIZE + s.random_index

section Step

variable (keystream : ℕ → Byte)

/-- The bytes that the next draw of `nbytes` bytes reads. -/
def nextSpan (s : Prng) (nbytes : ℕ) : Span := ⟨(ensureBytes keystream s nbytes).position, nbytes⟩

/-- The bytes that the next `count` draws of `nbits` bits read. -/
def nextSpans (nbits : ℕ) : ℕ → Prng → List Span
  | 0, _ => []
  | count + 1, s =>
      nextSpan keystream s (numBytes nbits) ::
        nextSpans nbits count (chacha_urandomb keystream s nbits).1

/-- One request, with at most `fuel` draws for `get_random`. -/
def step (fuel : ℕ) (s : Prng) : Request → Option (Prng × Answer)
  | .number nbits =>
      let r := chacha_urandomb keystream s nbits
      some (r.1, ⟨r.2, fun _ => 0, [nextSpan keystream s (numBytes nbits)]⟩)
  | .below n =>
      (chacha_urandom keystream fuel s n).map fun r =>
        (r.1, ⟨r.2.1, fun _ => 0, nextSpans keystream (sizeInBase2 n) r.2.2 s⟩)
  | .buffer buf nbits =>
      let r := chacha_urandomb_buf keystream s buf nbits
      some (r.1, ⟨0, r.2,
        if nbits = 0 then [] else [nextSpan keystream s (numBytes nbits)]⟩)

/-! ## What the requests ask for -/

/-- Bit `i` of a buffer. -/
def bufBit (buf : ℕ → Byte) (i : ℕ) : Bool := (buf (i / 8)).getLsbD (i % 8)

/-- The answer of a request: a number of `nbits` keystream bits, a number below the bound, or the
buffer with exactly its low `nbits` bits replaced by the keystream bits of the span. -/
def Correct : Request → Answer → Prop
  | .number nbits, b =>
      b.value < 2 ^ nbits ∧ ∃ start, b.spans = [⟨start, numBytes nbits⟩] ∧
        b.value = mpz_import (fun i => keystream (start + i)) (numBytes nbits) /
          2 ^ (8 * numBytes nbits - nbits)
  | .below n, b => b.value < n
  | .buffer buf nbits, b =>
      (nbits = 0 ∧ b.spans = [] ∧ b.buf = buf) ∨
        ∃ start, b.spans = [⟨start, numBytes nbits⟩] ∧ ∀ i, bufBit b.buf i =
          if i < nbits then bufBit (fun k => keystream (start + k)) i else bufBit buf i

/-- One span after the other between the positions `lo` and `hi`. -/
def Chain : ℕ → ℕ → List Span → Prop
  | lo, hi, [] => lo ≤ hi
  | lo, hi, x :: spans => lo ≤ x.start ∧ Chain (x.start + x.len) hi spans

/-- Two spans share no byte, the first being in front. -/
def Span.Before (x y : Span) : Prop := x.start + x.len ≤ y.start

/-- The condition under which the mask of the last byte does no harm: the random bits and the old
bits agree between `nbits % 8` and `8 - nbits % 8`. -/
def MaskAgrees (s : Prng) : Request → Prop
  | .buffer buf nbits =>
      nbits % 8 ≠ 0 → ∀ j, min (nbits % 8) (8 - nbits % 8) ≤ j →
        j < max (nbits % 8) (8 - nbits % 8) →
          (keystream ((nextSpan keystream s (numBytes nbits)).start + nbits / 8)).getLsbD j =
            (buf (nbits / 8)).getLsbD j
  | _ => True

end Step

/-! ## Spans -/

theorem Chain.le {lo hi : ℕ} {spans : List Span} (h : Chain lo hi spans) : lo ≤ hi := by
  induction spans generalizing lo with
  | nil => exact h
  | cons x spans ih => exact (h.1.trans (Nat.le_add_right _ _)).trans (ih h.2)

theorem Chain.append {lo mid hi : ℕ} {first rest : List Span} (hfirst : Chain lo mid first)
    (hrest : Chain mid hi rest) : Chain lo hi (first ++ rest) := by
  induction first generalizing lo with
  | nil =>
      cases rest with
      | nil => exact Nat.le_trans hfirst hrest
      | cons y rest => exact ⟨Nat.le_trans hfirst hrest.1, hrest.2⟩
  | cons x first ih => exact ⟨hfirst.1, ih hfirst.2⟩

theorem Chain.le_start {lo hi : ℕ} {spans : List Span} (h : Chain lo hi spans) {x : Span}
    (hx : x ∈ spans) : lo ≤ x.start := by
  induction spans generalizing lo with
  | nil => cases hx
  | cons y spans ih =>
      rcases List.mem_cons.1 hx with rfl | hx
      · exact h.1
      · exact (h.1.trans (Nat.le_add_right _ _)).trans (ih h.2 hx)

theorem Chain.pairwise {lo hi : ℕ} {spans : List Span} (h : Chain lo hi spans) :
    spans.Pairwise Span.Before := by
  induction spans generalizing lo with
  | nil => exact List.Pairwise.nil
  | cons x spans ih =>
      exact List.pairwise_cons.2 ⟨fun y hy => h.2.le_start hy, ih h.2⟩

/-! ## The block and the keystream -/

/-- The block is a piece of the keystream that ends where the keystream has been produced. -/
structure Inv (keystream : ℕ → Byte) (s : Prng) : Prop where
  produced : RANDOM_STATE_SIZE ≤ s.chacha
  index : s.random_index ≤ RANDOM_STATE_SIZE
  block : ∀ i < RANDOM_STATE_SIZE,
    s.random_state i = keystream (s.chacha - RANDOM_STATE_SIZE + i)

section Draws

variable {keystream : ℕ → Byte} {s : Prng}

theorem inv_refill (s : Prng) : Inv keystream (chacha_refill_randomness keystream s) where
  produced := Nat.le_add_left _ _
  index := Nat.zero_le _
  block i _ := by simp [chacha_refill_randomness]

theorem inv_init : Inv keystream (init_chacha_png keystream) := inv_refill _

theorem ensureBytes_spec (h : Inv keystream s) {nbytes : ℕ} (hn : nbytes ≤ RANDOM_STATE_SIZE) :
    Inv keystream (ensureBytes keystream s nbytes) ∧
      (ensureBytes keystream s nbytes).random_index + nbytes ≤ RANDOM_STATE_SIZE ∧
      s.position ≤ (ensureBytes keystream s nbytes).position := by
  rw [ensureBytes]
  split
  · have hproduced := h.produced
    have hindex := h.index
    refine ⟨inv_refill s, ?_, ?_⟩
    · simpa [chacha_refill_randomness] using hn
    · simp only [Prng.position, chacha_refill_randomness]
      omega
  · have hindex := h.index
    exact ⟨h, by omega, le_refl _⟩

/-- The bytes of a draw are those of its span. -/
theorem read_eq (h : Inv keystream s) {nbytes i : ℕ} (hn : nbytes ≤ RANDOM_STATE_SIZE)
    (hi : i < nbytes) :
    (ensureBytes keystream s nbytes).random_state
        ((ensureBytes keystream s nbytes).random_index + i) =
      keystream ((nextSpan keystream s nbytes).start + i) := by
  obtain ⟨hinv, hfits, -⟩ := ensureBytes_spec h hn
  rw [hinv.block _ (by omega), nextSpan, Prng.position, Nat.add_assoc]

/-- A draw moves the position behind its span. -/
theorem advance_spec (h : Inv keystream s) {nbytes : ℕ} (hn : nbytes ≤ RANDOM_STATE_SIZE)
    {s' : Prng} (hs' : s' = { ensureBytes keystream s nbytes with
      random_index := (ensureBytes keystream s nbytes).random_index + nbytes }) :
    Inv keystream s' ∧ Chain s.position s'.position [nextSpan keystream s nbytes] := by
  obtain ⟨hinv, hfits, hpos⟩ := ensureBytes_spec h hn
  subst hs'
  refine ⟨⟨hinv.produced, hfits, hinv.block⟩, hpos, ?_⟩
  simp only [Chain, nextSpan, Prng.position]
  omega

theorem mpz_import_congr {raw raw' : ℕ → Byte} {nbytes : ℕ}
    (h : ∀ i < nbytes, raw i = raw' i) : mpz_import raw nbytes = mpz_import raw' nbytes :=
  forLoop_congr fun i hi m => by rw [h i hi]

theorem mpz_import_lt (raw : ℕ → Byte) (nbytes : ℕ) : mpz_import raw nbytes < 2 ^ (8 * nbytes) := by
  refine forLoop_induction (P := fun i m => m < 2 ^ (8 * i)) Nat.one_pos ?_
  intro i _ m hm
  have hbyte : (raw i).toNat < 256 := (raw i).isLt
  have hpow : 2 ^ (8 * (i + 1)) = 2 ^ (8 * i) * 256 := by rw [Nat.mul_add, Nat.pow_add]
  omega

theorem le_numBytes (nbits : ℕ) : nbits ≤ 8 * numBytes nbits := by
  rw [numBytes]
  omega

/-- A number of `nbits` bits of the keystream. -/
theorem chacha_urandomb_spec (h : Inv keystream s) {nbits : ℕ}
    (hn : numBytes nbits ≤ RANDOM_STATE_SIZE) :
    Inv keystream (chacha_urandomb keystream s nbits).1 ∧
      Chain s.position (chacha_urandomb keystream s nbits).1.position
        [nextSpan keystream s (numBytes nbits)] ∧
      (chacha_urandomb keystream s nbits).2 =
        mpz_import (fun i => keystream ((nextSpan keystream s (numBytes nbits)).start + i))
          (numBytes nbits) / 2 ^ (8 * numBytes nbits - nbits) ∧
      (chacha_urandomb keystream s nbits).2 < 2 ^ nbits := by
  obtain ⟨hinv, hchain⟩ := advance_spec h hn rfl
  have himport := mpz_import_congr fun i hi => read_eq h hn hi
  have hvalue : (chacha_urandomb keystream s nbits).2 =
      mpz_import (fun i => keystream ((nextSpan keystream s (numBytes nbits)).start + i))
        (numBytes nbits) / 2 ^ (8 * numBytes nbits - nbits) := by
    rw [← himport]
    unfold chacha_urandomb
    dsimp only
    by_cases hdiff : 8 * numBytes nbits - nbits = 0
    · rw [if_neg (not_not.2 hdiff), hdiff, pow_zero, Nat.div_one]
    · rw [if_pos hdiff]
  refine ⟨hinv, hchain, hvalue, ?_⟩
  rw [hvalue]
  refine Nat.div_lt_of_lt_mul ?_
  rw [← pow_add, Nat.sub_add_cancel (le_numBytes nbits)]
  exact mpz_import_lt _ _

/-- A number below the bound, after as many draws as it took. -/
theorem chacha_urandom_spec {fuel n count v : ℕ} {s' : Prng} (h : Inv keystream s)
    (hn : numBytes (sizeInBase2 n) ≤ RANDOM_STATE_SIZE)
    (hrun : chacha_urandom keystream fuel s n = some (s', v, count)) :
    Inv keystream s' ∧ v < n ∧
      Chain s.position s'.position (nextSpans keystream (sizeInBase2 n) count s) := by
  induction fuel generalizing s count with
  | zero => cases hrun
  | succ fuel ih =>
      obtain ⟨hinv, hchain, -, -⟩ := chacha_urandomb_spec h hn
      rw [chacha_urandom] at hrun
      split at hrun
      · obtain ⟨⟨t, w, k⟩, hrest, heq⟩ := Option.map_eq_some_iff.1 hrun
        cases heq
        obtain ⟨hinv', hlt, hchain'⟩ := ih hinv hrest
        exact ⟨hinv', hlt, hchain.append hchain'⟩
      · next hlt =>
          cases hrun
          exact ⟨hinv, not_le.1 hlt, hchain⟩

/-- The generator after `k` draws of `nbits` bits. -/
def afterDraws (keystream : ℕ → Byte) (nbits : ℕ) : ℕ → Prng → Prng
  | 0, s => s
  | k + 1, s => afterDraws keystream nbits k (chacha_urandomb keystream s nbits).1

/-- `get_random` returns exactly when some draw from here on is below the bound. -/
theorem chacha_urandom_returns_iff (n : ℕ) (s : Prng) :
    (∃ fuel r, chacha_urandom keystream fuel s n = some r) ↔
      ∃ k, (chacha_urandomb keystream (afterDraws keystream (sizeInBase2 n) k s)
        (sizeInBase2 n)).2 < n := by
  constructor
  · rintro ⟨fuel, r, hrun⟩
    induction fuel generalizing s r with
    | zero => cases hrun
    | succ fuel ih =>
        rw [chacha_urandom] at hrun
        split at hrun
        · obtain ⟨r', hrest, -⟩ := Option.map_eq_some_iff.1 hrun
          obtain ⟨k, hk⟩ := ih _ r' hrest
          exact ⟨k + 1, hk⟩
        · next hlt => exact ⟨0, not_le.1 hlt⟩
  · rintro ⟨k, hk⟩
    induction k generalizing s with
    | zero =>
        refine ⟨1, ((chacha_urandomb keystream s (sizeInBase2 n)).1,
          (chacha_urandomb keystream s (sizeInBase2 n)).2, 1), ?_⟩
        rw [chacha_urandom]
        exact if_neg (not_le.2 hk)
    | succ k ih =>
        obtain ⟨fuel, r, hrun⟩ := ih _ hk
        refine ⟨fuel + 1, ?_⟩
        rw [chacha_urandom]
        split
        · exact ⟨_, by rw [hrun]; rfl⟩
        · exact ⟨_, rfl⟩

/-! ## The partial byte -/

/-- The mask keeps `diff` random bits and the old bits from `diff` on. -/
theorem getLsbD_maskByte {diff j : ℕ} (hdiff : diff ≤ 8) (hj : j < 8) (random old : Byte) :
    (maskByte diff random old).getLsbD j =
      if j < diff then random.getLsbD j else old.getLsbD j := by
  have hlow : (0xFF#8 >>> (8 - diff)).getLsbD j = decide (j < diff) := by
    rw [BitVec.getLsbD_ushiftRight]
    by_cases hlt : j < diff
    · have hones : ∀ k : Fin 8, (0xFF#8).getLsbD k = true := by decide
      rw [hones ⟨8 - diff + j, by omega⟩, decide_eq_true hlt]
    · rw [BitVec.getLsbD_of_ge _ _ (by omega), decide_eq_false hlt]
  have hhigh : (0xFF#8 <<< diff).getLsbD j = !decide (j < diff) := by
    have hones : ∀ k : Fin 8, (0xFF#8).getLsbD k = true := by decide
    rw [BitVec.getLsbD_shiftLeft, decide_eq_true hj, Bool.true_and, hones ⟨j - diff, by omega⟩,
      Bool.and_true]
  rw [maskByte, BitVec.getLsbD_or, BitVec.getLsbD_and, BitVec.getLsbD_and, hlow, hhigh]
  by_cases hlt : j < diff
  · simp [hlt]
  · simp [hlt]

/-- What the code leaves in a buffer: whole bytes of the keystream, then the masked byte. -/
theorem chacha_urandomb_buf_apply (h : Inv keystream s) {nbits : ℕ}
    (hn : numBytes nbits ≤ RANDOM_STATE_SIZE) (hpos : nbits ≠ 0) (buf : ℕ → Byte) (k : ℕ) :
    (chacha_urandomb_buf keystream s buf nbits).2 k =
      if k < nbits / 8 then
        keystream ((nextSpan keystream s (numBytes nbits)).start + k)
      else if k = nbits / 8 ∧ nbits % 8 ≠ 0 then
        maskByte (8 - nbits % 8)
          (keystream ((nextSpan keystream s (numBytes nbits)).start + k)) (buf k)
      else buf k := by
  rw [chacha_urandomb_buf, if_neg hpos]
  dsimp only
  by_cases hr : nbits % 8 = 0
  · -- whole bytes: nothing is masked, the loop fills the buffer
    have hbytes : numBytes nbits = nbits / 8 := by rw [numBytes]; omega
    have hdiff : 8 * numBytes nbits - nbits = 0 := by rw [hbytes]; omega
    rw [if_pos hdiff, forLoop_fill_apply, hbytes]
    have hnot : ¬ (k = nbits / 8 ∧ nbits % 8 ≠ 0) := fun hk => hk.2 hr
    rw [if_neg hnot]
    by_cases hk : k < nbits / 8
    · rw [if_pos hk, if_pos hk]
      rw [hbytes] at hn
      exact read_eq h hn hk
    · rw [if_neg hk, if_neg hk]
  · -- a partial byte: the loop fills all bytes before it, then the last one is masked
    have hbytes : numBytes nbits = nbits / 8 + 1 := by rw [numBytes]; omega
    have hdiff : 8 * numBytes nbits - nbits = 8 - nbits % 8 := by rw [hbytes]; omega
    rw [hdiff, if_neg (by omega), hbytes, Nat.add_sub_cancel]
    rw [hbytes] at hn
    by_cases hk : k = nbits / 8
    · rw [← hk] at hn ⊢
      rw [Function.update_self, if_neg (lt_irrefl k), if_pos ⟨rfl, hr⟩,
        read_eq h hn (Nat.lt_succ_self k), forLoop_fill_apply, if_neg (lt_irrefl k)]
    · rw [Function.update_of_ne hk, forLoop_fill_apply]
      have hnot : ¬ (k = nbits / 8 ∧ nbits % 8 ≠ 0) := fun hk' => hk hk'.1
      rw [if_neg hnot]
      by_cases hlt : k < nbits / 8
      · rw [if_pos hlt, if_pos hlt]
        exact read_eq h hn (Nat.lt_succ_of_lt hlt)
      · rw [if_neg hlt, if_neg hlt]

/-- The buffer is right exactly when the mask does no harm. -/
theorem bufBit_iff (h : Inv keystream s) {nbits : ℕ}
    (hn : numBytes nbits ≤ RANDOM_STATE_SIZE) (hpos : nbits ≠ 0) (buf : ℕ → Byte) :
    (∀ i, bufBit (chacha_urandomb_buf keystream s buf nbits).2 i =
      if i < nbits then
        bufBit (fun k => keystream ((nextSpan keystream s (numBytes nbits)).start + k)) i
      else bufBit buf i) ↔ MaskAgrees keystream s (.buffer buf nbits) := by
  set start := (nextSpan keystream s (numBytes nbits)).start with hstart
  set q := nbits / 8 with hq
  set r := nbits % 8 with hr
  have hsplit : 8 * q + r = nbits := Nat.div_add_mod nbits 8
  have hr8 : r < 8 := Nat.mod_lt _ (by decide)
  have hcell := chacha_urandomb_buf_apply h hn hpos buf
  rw [← hstart, ← hq, ← hr] at hcell
  have hagree : MaskAgrees keystream s (.buffer buf nbits) ↔ (r ≠ 0 → ∀ j, min r (8 - r) ≤ j →
      j < max r (8 - r) → (keystream (start + q)).getLsbD j = (buf q).getLsbD j) := Iff.rfl
  rw [hagree]
  constructor
  · -- bits between the two masks are the ones a wrong mask can get wrong
    intro hbits hr0 j hmin hmax
    have hj : j < 8 := by omega
    have hbit := hbits (8 * q + j)
    have hdiv : (8 * q + j) / 8 = q := by omega
    have hmod : (8 * q + j) % 8 = j := by omega
    rw [bufBit, bufBit, bufBit, hdiv, hmod, hcell, if_neg (lt_irrefl q), if_pos ⟨rfl, hr0⟩,
      getLsbD_maskByte (Nat.sub_le 8 r) hj] at hbit
    -- below `r` the bit should come from the stream, from `r` on it should stay
    by_cases hjr : j < r
    · rw [if_neg (by omega), if_pos (by omega)] at hbit
      exact hbit.symm
    · rw [if_pos (by omega), if_neg (by omega)] at hbit
      exact hbit
  · intro hagrees i
    have hj : i % 8 < 8 := Nat.mod_lt _ (by decide)
    have hi : 8 * (i / 8) + i % 8 = i := Nat.div_add_mod i 8
    rw [bufBit, bufBit, bufBit, hcell]
    -- in a byte before the last one every bit is the stream's
    by_cases hlt : i / 8 < q
    · rw [if_pos hlt, if_pos (by omega)]
    · rw [if_neg hlt]
      by_cases hlast : i / 8 = q ∧ r ≠ 0
      · rw [if_pos hlast, getLsbD_maskByte (Nat.sub_le 8 r) hj, hlast.1]
        have hbetween := hagrees hlast.2 (i % 8)
        by_cases hjr : i % 8 < r
        · rw [if_pos (by omega : i < nbits)]
          by_cases hjd : i % 8 < 8 - r
          · rw [if_pos hjd]
          · rw [if_neg hjd, hbetween (by omega) (by omega)]
        · rw [if_neg (by omega : ¬ i < nbits)]
          by_cases hjd : i % 8 < 8 - r
          · rw [if_pos hjd, hbetween (by omega) (by omega)]
          · rw [if_neg hjd]
      · -- past the last byte the buffer is untouched
        rw [if_neg hlast, if_neg (by omega)]

/-- A request for whole bytes, or for whole bytes and a half byte, is never harmed. -/
theorem maskAgrees_of_mod {buf : ℕ → Byte} {nbits : ℕ} (h : nbits % 8 = 0 ∨ nbits % 8 = 4) :
    MaskAgrees keystream s (.buffer buf nbits) := by
  intro hr j hmin hmax
  rcases h with h | h
  · exact absurd h hr
  · rw [h] at hmin hmax
    exact absurd (hmin.trans_lt hmax) (lt_irrefl _)

/-! ## One request and a sequence of requests -/

/-- A request keeps the invariant, and its spans lie between the two positions. -/
theorem step_spec {fuel : ℕ} {r : Request} (h : Inv keystream s) (hvalid : r.Valid) {s' : Prng}
    {b : Answer} (hstep : step keystream fuel s r = some (s', b)) :
    Inv keystream s' ∧ Chain s.position s'.position b.spans := by
  cases r with
  | number nbits =>
      cases hstep
      obtain ⟨hinv, hchain, -, -⟩ := chacha_urandomb_spec h hvalid.1
      exact ⟨hinv, hchain⟩
  | below n =>
      obtain ⟨⟨t, v, count⟩, hrun, heq⟩ := Option.map_eq_some_iff.1 hstep
      cases heq
      obtain ⟨hinv, -, hchain⟩ := chacha_urandom_spec h hvalid.1 hrun
      exact ⟨hinv, hchain⟩
  | buffer buf nbits =>
      cases hstep
      by_cases hzero : nbits = 0
      · simp only [chacha_urandomb_buf, if_pos hzero]
        exact ⟨h, le_refl _⟩
      · simp only [chacha_urandomb_buf, if_neg hzero]
        exact advance_spec h hvalid.1 rfl

/-- The answer to a request is right exactly when the mask does no harm. -/
theorem step_correct_iff {fuel : ℕ} {r : Request} (h : Inv keystream s) (hvalid : r.Valid) :
    (∀ s' b, step keystream fuel s r = some (s', b) → Correct keystream r b) ↔
      MaskAgrees keystream s r := by
  cases r with
  | number nbits =>
      refine ⟨fun _ => trivial, fun _ s' b hstep => ?_⟩
      cases hstep
      obtain ⟨-, -, hvalue, hlt⟩ := chacha_urandomb_spec h hvalid.1
      exact ⟨hlt, _, rfl, hvalue⟩
  | below n =>
      refine ⟨fun _ => trivial, fun _ s' b hstep => ?_⟩
      obtain ⟨⟨t, v, count⟩, hrun, heq⟩ := Option.map_eq_some_iff.1 hstep
      cases heq
      exact (chacha_urandom_spec h hvalid.1 hrun).2.1
  | buffer buf nbits =>
      by_cases hzero : nbits = 0
      · subst hzero
        refine ⟨fun _ hr => absurd rfl hr, fun _ s' b hstep => ?_⟩
        cases hstep
        exact Or.inl ⟨rfl, rfl, rfl⟩
      · rw [← bufBit_iff h hvalid.1 hzero]
        constructor
        · intro hcorrect
          rcases hcorrect _ _ rfl with ⟨hbad, -⟩ | ⟨start, hspans, hbits⟩
          · exact absurd hbad hzero
          · simp only [if_neg hzero, List.cons.injEq, and_true] at hspans
            rw [hspans]
            exact hbits
        · intro hbits s' b hstep
          cases hstep
          exact Or.inr ⟨_, if_neg hzero, hbits⟩

/-- No byte of the keystream serves two requests. -/
theorem spans_chain {fuel : ℕ} {requests : List Request} (h : Inv keystream s)
    (hvalid : ∀ r ∈ requests, r.Valid) {s' : Prng} {answers : List Answer}
    (hrun : run (step keystream fuel) s requests = some (s', answers)) :
    Chain s.position s'.position (answers.flatMap Answer.spans) := by
  induction requests generalizing s answers with
  | nil =>
      cases hrun
      exact le_refl _
  | cons r requests ih =>
      obtain ⟨t, b, rest, hfirst, hrest, rfl⟩ := run_cons_eq_some hrun
      obtain ⟨hinv, hchain⟩ := step_spec h (hvalid r List.mem_cons_self) hfirst
      rw [List.flatMap_cons]
      exact hchain.append (ih hinv (fun r' hr' => hvalid r' (List.mem_cons_of_mem r hr')) hrest)

theorem along_correct_iff {fuel : ℕ} {requests : List Request} (h : Inv keystream s)
    (hvalid : ∀ r ∈ requests, r.Valid) :
    Along (step keystream fuel)
        (fun s r => ∀ s' b, step keystream fuel s r = some (s', b) → Correct keystream r b)
        s requests ↔
      Along (step keystream fuel) (MaskAgrees keystream) s requests := by
  induction requests generalizing s with
  | nil => exact Iff.rfl
  | cons r requests ih =>
      have hr := hvalid r List.mem_cons_self
      refine and_congr (step_correct_iff h hr) (forall_congr' fun s' => forall_congr' fun b => ?_)
      refine imp_congr_right fun hstep => ?_
      exact ih (step_spec h hr hstep).1 fun r' hr' => hvalid r' (List.mem_cons_of_mem r hr')

end Draws

/-- Over every sequence of requests: no keystream byte is used twice and every answer is right,
exactly when the mask of each partial byte does no harm; and `get_random` returns exactly when
some draw from its state on is below the bound. -/
theorem run_correct_iff (keystream : ℕ → Byte) (fuel : ℕ) (requests : List Request)
    (hvalid : ∀ r ∈ requests, r.Valid) :
    (((∀ s answers, run (step keystream fuel) (init_chacha_png keystream) requests =
          some (s, answers) → (answers.flatMap Answer.spans).Pairwise Span.Before) ∧
        Along (step keystream fuel)
          (fun s r => ∀ s' b, step keystream fuel s r = some (s', b) → Correct keystream r b)
          (init_chacha_png keystream) requests) ↔
      Along (step keystream fuel) (MaskAgrees keystream) (init_chacha_png keystream)
        requests) ∧
    ∀ (n : ℕ) (s : Prng), (∃ fuel r, chacha_urandom keystream fuel s n = some r) ↔
      ∃ k, (chacha_urandomb keystream (afterDraws keystream (sizeInBase2 n) k s)
        (sizeInBase2 n)).2 < n := by
  refine ⟨?_, fun n s => chacha_urandom_returns_iff n s⟩
  rw [along_correct_iff inv_init hvalid]
  refine and_iff_right fun s answers hrun => ?_
  exact (spans_chain inv_init hvalid hrun).pairwise

/-- Nibbles are masked right: 12 bits, then a number below 10. -/
theorem run_correct_nibble :
    (∀ s answers, run (step (fun _ => 0x5A#8) 3) (init_chacha_png fun _ => 0x5A#8)
        [.buffer (fun _ => 0) 12, .below 10] =
        some (s, answers) → (answers.flatMap Answer.spans).Pairwise Span.Before) ∧
      Along (step (fun _ => 0x5A#8) 3)
        (fun s r => ∀ s' b, step (fun _ => 0x5A#8) 3 s r = some (s', b) →
          Correct (fun _ => 0x5A#8) r b)
        (init_chacha_png fun _ => 0x5A#8) [.buffer (fun _ => 0) 12, .below 10] := by
  have hiff := (run_correct_iff (fun _ => 0x5A#8) 3 [.buffer (fun _ => 0) 12, .below 10] (by
    intro r hr
    rcases List.mem_pair.1 hr with rfl | rfl
    · exact ⟨by decide, by simp⟩
    · exact ⟨by decide +kernel, by simp⟩)).1
  refine hiff.2 ⟨fun _ j hlow hhigh => ?_, fun _ _ _ => ⟨trivial, fun _ _ _ => trivial⟩⟩
  -- half of the byte is drawn and half of it is kept
  exact absurd (hlow.trans_lt hhigh) (by decide)

/-- `get_randomb(buf, 1)` on a zero byte with the keystream byte `0xFF`: seven bits change. -/
theorem oneBit_changes_seven :
    bufBit (chacha_urandomb_buf (fun _ => 0xFF#8) (init_chacha_png fun _ => 0xFF#8)
        (fun _ => 0) 1).2 6 = true ∧
      bufBit (fun _ => 0) 6 = false ∧
      ¬ Along (step (fun _ => 0xFF#8) 1)
        (fun s r => ∀ s' b, step (fun _ => 0xFF#8) 1 s r = some (s', b) →
          Correct (fun _ => 0xFF#8) r b)
        (init_chacha_png fun _ => 0xFF#8) [.buffer (fun _ => 0) 1] := by
  refine ⟨by decide +kernel, by decide, fun halong => ?_⟩
  rcases halong.1 _ _ rfl with ⟨hzero, -⟩ | ⟨start, -, hbits⟩
  · exact absurd hzero (by decide)
  · have hold : bufBit (chacha_urandomb_buf (fun _ => 0xFF#8) (init_chacha_png fun _ => 0xFF#8)
        (fun _ => 0) 1).2 6 = bufBit (fun _ => 0) 6 := (hbits 6).trans (if_neg (by decide))
    revert hold
    decide +kernel

end Pepper.Crypto.RandomBytes
