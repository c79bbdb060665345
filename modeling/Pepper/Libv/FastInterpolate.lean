import Pepper.Common.Gmp
import Pepper.Foundations.Fourier

/-!
# The prover's in-place Fourier transform

`zcompFastInterpolate` is the non-recursive branch of `zcomp_fast_interpolate`: bit
reversal through a byte table (`zreverse`), then levels of butterflies whose twiddle
index steps by `K` modulo `n`. Only every other level reduces its cells.

`zreverse_shiftRight` identifies the index map with `bitRev`, `cast_fftLevel`
identifies a level with one butterfly round, and `cast_zcompFastInterpolate` gives
every cell of the result.
-/

set_option autoImplicit false

open Pepper.Common.Gmp Pepper.Foundations.Loop Pepper.Foundations.Fourier

namespace Pepper.Libv.FastInterpolate

/-! ## The code -/

/-- `bit_reversal_table`. -/
def bitReversalTable : List ℕ :=
  [0x00, 0x80, 0x40, 0xC0, 0x20, 0xA0, 0x60, 0xE0, 0x10, 0x90, 0x50, 0xD0, 0x30, 0xB0, 0x70, 0xF0,
   0x08, 0x88, 0x48, 0xC8, 0x28, 0xA8, 0x68, 0xE8, 0x18, 0x98, 0x58, 0xD8, 0x38, 0xB8, 0x78, 0xF8,
   0x04, 0x84, 0x44, 0xC4, 0x24, 0xA4, 0x64, 0xE4, 0x14, 0x94, 0x54, 0xD4, 0x34, 0xB4, 0x74, 0xF4,
   0x0C, 0x8C, 0x4C, 0xCC, 0x2C, 0xAC, 0x6C, 0xEC, 0x1C, 0x9C, 0x5C, 0xDC, 0x3C, 0xBC, 0x7C, 0xFC,
   0x02, 0x82, 0x42, 0xC2, 0x22, 0xA2, 0x62, 0xE2, 0x12, 0x92, 0x52, 0xD2, 0x32, 0xB2, 0x72, 0xF2,
   0x0A, 0x8A, 0x4A, 0xCA, 0x2A, 0xAA, 0x6A, 0xEA, 0x1A, 0x9A, 0x5A, 0xDA, 0x3A, 0xBA, 0x7A, 0xFA,
   0x06, 0x86, 0x46, 0xC6, 0x26, 0xA6, 0x66, 0xE6, 0x16, 0x96, 0x56, 0xD6, 0x36, 0xB6, 0x76, 0xF6,
   0x0E, 0x8E, 0x4E, 0xCE, 0x2E, 0xAE, 0x6E, 0xEE, 0x1E, 0x9E, 0x5E, 0xDE, 0x3E, 0xBE, 0x7E, 0xFE,
   0x01, 0x81, 0x41, 0xC1, 0x21, 0xA1, 0x61, 0xE1, 0x11, 0x91, 0x51, 0xD1, 0x31, 0xB1, 0x71, 0xF1,
   0x09, 0x89, 0x49, 0xC9, 0x29, 0xA9, 0x69, 0xE9, 0x19, 0x99, 0x59, 0xD9, 0x39, 0xB9, 0x79, 0xF9,
   0x05, 0x85, 0x45, 0xC5, 0x25, 0xA5, 0x65, 0xE5, 0x15, 0x95, 0x55, 0xD5, 0x35, 0xB5, 0x75, 0xF5,
   0x0D, 0x8D, 0x4D, 0xCD, 0x2D, 0xAD, 0x6D, 0xED, 0x1D, 0x9D, 0x5D, 0xDD, 0x3D, 0xBD, 0x7D, 0xFD,
   0x03, 0x83, 0x43, 0xC3, 0x23, 0xA3, 0x63, 0xE3, 0x13, 0x93, 0x53, 0xD3, 0x33, 0xB3, 0x73, 0xF3,
   0x0B, 0x8B, 0x4B, 0xCB, 0x2B, 0xAB, 0x6B, 0xEB, 0x1B, 0x9B, 0x5B, 0xDB, 0x3B, 0xBB, 0x7B, 0xFB,
   0x07, 0x87, 0x47, 0xC7, 0x27, 0xA7, 0x67, 0xE7, 0x17, 0x97, 0x57, 0xD7, 0x37, 0xB7, 0x77, 0xF7,
   0x0F, 0x8F, 0x4F, 0xCF, 0x2F, 0xAF, 0x6F, 0xEF, 0x1F, 0x9F, 0x5F, 0xDF, 0x3F, 0xBF, 0x7F, 0xFF]

/-- `zreverse`: the bits of a 32-bit word in opposite order, a byte at a time. -/
def zreverse (v : ℕ) : ℕ :=
  (bitReversalTable.getD (v &&& 0xff) 0 <<< 24) |||
    (bitReversalTable.getD ((v >>> 8) &&& 0xff) 0 <<< 16) |||
    (bitReversalTable.getD ((v >>> 16) &&& 0xff) 0 <<< 8) |||
    bitReversalTable.getD ((v >>> 24) &&& 0xff) 0

/-- `ffs`: one plus the position of the lowest set bit of a 32-bit word, zero for zero. -/
def ffs (v : ℕ) : ℕ :=
  match (List.range 32).find? fun i => v.testBit i with
  | some i => i + 1
  | none => 0

/-- The reduction that a level of stretches of length `L` applies to what it stores. -/
def levelReduce (n L : ℕ) (prime v : ℤ) : ℤ := if L % 4 = 0 ∨ L = n then v % prime else v

/-- One pass of the innermost loop; the state is the twiddle index and the block. -/
def butterflyStep (n L K j : ℕ) (powers : Vec) (prime : ℤ) (i : ℕ) (s : ℕ × Vec) : ℕ × Vec :=
  let k2 := L / 2
  let base := L * j
  let temp := powers s.1 * s.2 (base + k2 + i)
  let temp2 := s.2 (base + i)
  let low := Function.update s.2 (base + i) (levelReduce n L prime (s.2 (base + i) + temp))
  ((s.1 + K) % n, Function.update low (base + k2 + i) (levelReduce n L prime (temp2 - temp)))

/-- One level: every stretch of length `L`, with the twiddle index starting at zero. -/
def fftLevel (n L K : ℕ) (powers : Vec) (prime : ℤ) (A : Vec) : Vec :=
  forLoop (n / L) (fun j B => (forLoop (L / 2) (butterflyStep n L K j powers prime) (0, B)).2) A

/-- The loop over levels, `L` doubling and `level` halving; at most `fuel` levels. -/
def fftLevels : ℕ → ℕ → ℕ → ℕ → Vec → ℤ → Vec → Vec
  | 0, _, _, _, _, _, A => A
  | fuel + 1, n, L, level, powers, prime, A =>
      if L ≤ n then
        fftLevels fuel n (L + L) (level / 2) powers prime
          (fftLevel n L (level % n) powers prime A)
      else A

/-- The bit-reversal exchange that precedes the levels. -/
def bitReversalSwaps (n numLeadingZeros : ℕ) (A : Vec) : Vec :=
  forLoop n
    (fun i B =>
      if zreverse i >>> numLeadingZeros > i then swapCells B i (zreverse i >>> numLeadingZeros)
      else B) A

/-- `zcomp_fast_interpolate`, in place, with the table of twiddle factors `powers`. -/
def zcompFastInterpolate (k : ℕ) (A powers : Vec) (prime : ℤ) : Vec :=
  fftLevels k k 2 (k / 2) powers prime (bitReversalSwaps k (ffs (zreverse k)) A)

/-! ## Bit reversal through the table -/

theorem bitReversalTable_testBit :
    ∀ v < 256, ∀ t < 8, (bitReversalTable.getD v 0).testBit t = v.testBit (7 - t) := by
  decide +kernel

theorem bitReversalTable_lt : ∀ v < 256, bitReversalTable.getD v 0 < 2 ^ 8 := by
  decide +kernel

/-- A table entry reverses the byte that starts at bit `s`. -/
theorem bitReversalTable_byte (v s t : ℕ) :
    (bitReversalTable.getD ((v >>> s) &&& 0xff) 0).testBit t =
      (decide (t < 8) && v.testBit (s + (7 - t))) := by
  have hmask : (v >>> s) &&& 0xff = (v >>> s) % 2 ^ 8 := Nat.and_two_pow_sub_one_eq_mod _ 8
  have hlt : (v >>> s) % 2 ^ 8 < 256 := Nat.mod_lt _ (by norm_num)
  rw [hmask]
  by_cases ht : t < 8
  · have hpos : 7 - t < 8 := by omega
    rw [bitReversalTable_testBit _ hlt t ht, Nat.testBit_mod_two_pow, Nat.testBit_shiftRight]
    simp [ht, hpos]
  · have hbit : (bitReversalTable.getD ((v >>> s) % 2 ^ 8) 0).testBit t = false := by
      apply Nat.testBit_lt_two_pow
      exact (bitReversalTable_lt _ hlt).trans_le
        (Nat.pow_le_pow_right (by norm_num) (Nat.le_of_not_lt ht))
    rw [hbit]
    simp [ht]

theorem testBit_zreverse (v t : ℕ) :
    (zreverse v).testBit t = (decide (t < 32) && v.testBit (31 - t)) := by
  have hzero := bitReversalTable_byte v 0 (t - 24)
  rw [Nat.shiftRight_zero] at hzero
  simp only [zreverse, Nat.testBit_or, Nat.testBit_shiftLeft, hzero, bitReversalTable_byte]
  -- which of the four bytes the bit is in
  rcases Nat.lt_or_ge t 8 with h | h
  · have hpos : 24 + (7 - t) = 31 - t := by omega
    have h1 : t < 32 := by omega
    have h2 : ¬24 ≤ t := by omega
    have h3 : ¬16 ≤ t := by omega
    have h4 : ¬8 ≤ t := by omega
    simp [h, h1, h2, h3, h4, hpos]
  · rcases Nat.lt_or_ge t 16 with h' | h'
    · have hpos : 16 + (7 - (t - 8)) = 31 - t := by omega
      have h1 : t < 32 := by omega
      have h2 : ¬24 ≤ t := by omega
      have h3 : ¬16 ≤ t := by omega
      have h4 : ¬t < 8 := by omega
      have h5 : t - 8 < 8 := by omega
      simp [h, h1, h2, h3, h4, h5, hpos]
    · rcases Nat.lt_or_ge t 24 with h'' | h''
      · have hpos : 8 + (7 - (t - 16)) = 31 - t := by omega
        have h1 : t < 32 := by omega
        have h2 : ¬24 ≤ t := by omega
        have h4 : ¬t < 8 := by omega
        have h5 : ¬t - 8 < 8 := by omega
        have h6 : t - 16 < 8 := by omega
        simp [h', h1, h2, h4, h5, h6, hpos]
      · by_cases ht : t < 32
        · have hpos : 0 + (7 - (t - 24)) = 31 - t := by omega
          have h4 : ¬t < 8 := by omega
          have h5 : ¬t - 8 < 8 := by omega
          have h6 : ¬t - 16 < 8 := by omega
          have h7 : t - 24 < 8 := by omega
          simp only [hpos]
          simp [h'', ht, h4, h5, h6, h7]
        · have h4 : ¬t < 8 := by omega
          have h5 : ¬t - 8 < 8 := by omega
          have h6 : ¬t - 16 < 8 := by omega
          have h7 : ¬t - 24 < 8 := by omega
          simp [ht, h4, h5, h6, h7]

/-- The reversed length has its only bit at position `31 - m`. -/
theorem ffs_zreverse_two_pow {m : ℕ} (hm : m < 32) : ffs (zreverse (2 ^ m)) = 32 - m := by
  have hbit : ∀ t, (zreverse (2 ^ m)).testBit t = true ↔ t = 31 - m := by
    intro t
    rw [testBit_zreverse, Bool.and_eq_true, decide_eq_true_eq, Nat.testBit_two_pow,
      decide_eq_true_eq]
    omega
  have hfind : (List.range 32).find? (fun t => (zreverse (2 ^ m)).testBit t) = some (31 - m) := by
    rw [List.find?_range_eq_some]
    refine ⟨(hbit _).2 rfl, ?_, ?_⟩
    · rw [List.mem_range]
      omega
    · intro t ht
      rw [Bool.not_eq_true', ← Bool.not_eq_true, hbit]
      omega
  rw [ffs, hfind]
  have hsub : 31 - m + 1 = 32 - m := by omega
  exact hsub

/-- Reversal of a 32-bit word, shifted down, reverses the `m` low bits. -/
theorem zreverse_shiftRight {m i : ℕ} (hm : m < 32) : zreverse i >>> (32 - m) = bitRev m i := by
  apply Nat.eq_of_testBit_eq
  intro t
  rw [Nat.testBit_shiftRight, testBit_zreverse, testBit_bitRev]
  by_cases ht : t < m
  · have hpos : 31 - (32 - m + t) = m - 1 - t := by omega
    have hlt : 32 - m + t < 32 := by omega
    rw [hpos]
    simp [ht, hlt]
  · have hlt : ¬32 - m + t < 32 := by omega
    simp [ht, hlt]

theorem bitReversalSwaps_apply {m : ℕ} (hm : m < 32) (A : Vec) {x : ℕ} (hx : x < 2 ^ m) :
    bitReversalSwaps (2 ^ m) (ffs (zreverse (2 ^ m))) A x = A (bitRev m x) := by
  have hbody : bitReversalSwaps (2 ^ m) (ffs (zreverse (2 ^ m))) A =
      forLoop (2 ^ m) (fun i B => if bitRev m i > i then swapCells B i (bitRev m i) else B) A := by
    rw [bitReversalSwaps, ffs_zreverse_two_pow hm]
    apply forLoop_congr
    intro i _ B
    rw [zreverse_shiftRight hm]
  rw [hbody]
  exact forLoop_swap_apply (fun i _ => bitRev_lt m i) (fun i hi => bitRev_bitRev hi) A hx

/-! ## Levels -/

/-- What a level does to a pair: `i` is the offset of the pair in its stretch. -/
def levelPair (n L K : ℕ) (powers : Vec) (prime : ℤ) (i : ℕ) (lo hi : ℤ) : ℤ × ℤ :=
  (levelReduce n L prime (lo + powers (i * K % n) * hi),
    levelReduce n L prime (lo - powers (i * K % n) * hi))

/-- The twiddle index of the innermost loop is `i * K` modulo `n`. -/
theorem butterflyStep_loop (n h K j : ℕ) (powers : Vec) (prime : ℤ) (B : Vec) :
    (forLoop h (butterflyStep n (2 * h) K j powers prime) (0, B)).2 =
      forLoop h (fun i B' => updatePair (levelPair n (2 * h) K powers prime) h (2 * h * j) i B')
        B := by
  have hhalf : 2 * h / 2 = h := by omega
  have hrun : ∀ k, forLoop k (butterflyStep n (2 * h) K j powers prime) (0, B) =
      (k * K % n,
        forLoop k (fun i B' => updatePair (levelPair n (2 * h) K powers prime) h (2 * h * j) i B')
          B) := by
    intro k
    induction k with
    | zero => simp
    | succ k ih =>
        rw [forLoop_succ, forLoop_succ, ih, butterflyStep, updatePair, hhalf]
        have hidx : (k * K % n + K) % n = (k + 1) * K % n := by
          rw [Nat.mod_add_mod, Nat.succ_mul]
        rw [hidx]
        rfl
  rw [hrun h]

theorem fftLevel_apply {n h blocks : ℕ} (hh : 0 < h) (hn : n = 2 * h * blocks) (K : ℕ)
    (powers : Vec) (prime : ℤ) (A : Vec) {x : ℕ} (hx : x < n) :
    fftLevel n (2 * h) K powers prime A x =
      pairUpdate (levelPair n (2 * h) K powers prime) h A x := by
  have hhalf : 2 * h / 2 = h := by omega
  have hblocks : n / (2 * h) = blocks := by
    rw [hn, Nat.mul_div_cancel_left _ (by omega)]
  have hbody : fftLevel n (2 * h) K powers prime A =
      forLoop blocks (fun j B => forLoop h
        (fun i B' => updatePair (levelPair n (2 * h) K powers prime) h (2 * h * j) i B') B) A := by
    rw [fftLevel, hblocks, hhalf]
    apply forLoop_congr
    intro j _ B
    rw [butterflyStep_loop]
  rw [hbody, forLoop_pairs_apply, if_pos (hn ▸ hx)]

/-- The last level reduces every cell it stores. -/
theorem fftLevel_range {s : ℕ} {prime : ℤ} (hprime : 0 < prime) (K : ℕ) (powers A : Vec) {x : ℕ}
    (hx : x < 2 ^ (s + 1)) :
    0 ≤ fftLevel (2 ^ (s + 1)) (2 ^ (s + 1)) K powers prime A x ∧
      fftLevel (2 ^ (s + 1)) (2 ^ (s + 1)) K powers prime A x < prime := by
  have hreduced : ∀ v, 0 ≤ levelReduce (2 ^ (s + 1)) (2 ^ (s + 1)) prime v ∧
      levelReduce (2 ^ (s + 1)) (2 ^ (s + 1)) prime v < prime := by
    intro v
    rw [levelReduce, if_pos (Or.inr rfl)]
    exact ⟨Int.emod_nonneg v hprime.ne', Int.emod_lt_of_pos v hprime⟩
  have hstretch : (2 : ℕ) ^ (s + 1) = 2 * 2 ^ s := by ring
  have hlevel := fftLevel_apply (Nat.two_pow_pos s) (by rw [mul_one, hstretch]) K
    powers prime A hx
  rw [← hstretch] at hlevel
  rw [hlevel, pairUpdate]
  split
  · exact hreduced _
  · exact hreduced _

/-- The levels that do not reduce are all followed by the last one, which does. -/
theorem fftLevels_range {m : ℕ} {prime : ℤ} (hprime : 0 < prime) (powers : Vec) (k : ℕ) :
    ∀ (s fuel level : ℕ) (A : Vec), m = s + (k + 1) → k < fuel → ∀ t < 2 ^ m,
      0 ≤ fftLevels fuel (2 ^ m) (2 ^ (s + 1)) level powers prime A t ∧
        fftLevels fuel (2 ^ m) (2 ^ (s + 1)) level powers prime A t < prime := by
  induction k with
  | zero =>
      intro s fuel level A hm hfuel t ht
      obtain ⟨fuel, rfl⟩ := Nat.exists_eq_succ_of_ne_zero hfuel.ne'
      rw [zero_add] at hm
      subst hm
      have hstop : ¬2 ^ (s + 1) + 2 ^ (s + 1) ≤ 2 ^ (s + 1) := by
        have := Nat.two_pow_pos (s + 1)
        omega
      rw [fftLevels, if_pos le_rfl]
      cases fuel with
      | zero => exact fftLevel_range hprime _ powers A ht
      | succ fuel =>
          rw [fftLevels, if_neg hstop]
          exact fftLevel_range hprime _ powers A ht
  | succ k ih =>
      intro s fuel level A hm hfuel t ht
      obtain ⟨fuel, rfl⟩ := Nat.exists_eq_succ_of_ne_zero (Nat.ne_zero_of_lt hfuel)
      have hgo : 2 ^ (s + 1) ≤ 2 ^ m := Nat.pow_le_pow_right (by norm_num) (by omega)
      have hdouble : 2 ^ (s + 1) + 2 ^ (s + 1) = 2 ^ (s + 1 + 1) := by ring
      rw [fftLevels, if_pos hgo, hdouble]
      exact ih (s + 1) fuel _ _ (by omega) (Nat.lt_of_succ_lt_succ hfuel) t ht

/-- Whatever the twiddle factors, the transform leaves residues in every cell. -/
theorem zcompFastInterpolate_range {m : ℕ} (hm : 1 ≤ m) {prime : ℤ} (hprime : 0 < prime)
    (A powers : Vec) {t : ℕ} (ht : t < 2 ^ m) :
    0 ≤ zcompFastInterpolate (2 ^ m) A powers prime t ∧
      zcompFastInterpolate (2 ^ m) A powers prime t < prime := by
  obtain ⟨k, rfl⟩ := Nat.exists_eq_succ_of_ne_zero (Nat.one_le_iff_ne_zero.1 hm)
  have hfuel : k < 2 ^ (k + 1) := lt_of_lt_of_le (Nat.lt_succ_self k) Nat.lt_two_pow_self.le
  have hrun := fftLevels_range hprime powers k 0 (2 ^ (k + 1)) (2 ^ (k + 1) / 2)
    (bitReversalSwaps (2 ^ (k + 1)) (ffs (zreverse (2 ^ (k + 1)))) A) (by omega) hfuel t ht
  rwa [zero_add, pow_one] at hrun

section Prime

variable {p : ℕ} [Fact p.Prime]

theorem cast_levelReduce (n L : ℕ) (v : ℤ) : (levelReduce n L p v : ZMod p) = v := by
  rw [levelReduce]
  split
  · exact ZMod.intCast_mod v p
  · rfl

/-- In the field a level is one butterfly round with factor `w ^ K`. -/
theorem cast_fftLevel {n h blocks : ℕ} (hh : 0 < h) (hn : n = 2 * h * blocks) (K : ℕ)
    (powers : Vec) {w : ZMod p} (hw : w ^ n = 1)
    (hpowers : ∀ i < n, (powers i : ZMod p) = w ^ i) (A : Vec) {x : ℕ} (hx : x < n) :
    (fftLevel n (2 * h) K powers p A x : ZMod p) = butterfly (w ^ K) h (castVec p A) x := by
  have hnpos : 0 < n := Nat.zero_lt_of_lt hx
  have htwiddle : ∀ i, (powers (i * K % n) : ZMod p) = (w ^ K) ^ i := by
    intro i
    rw [hpowers _ (Nat.mod_lt _ hnpos), ← pow_eq_pow_mod _ hw, mul_comm, pow_mul]
  rw [fftLevel_apply hh hn K powers p A hx, butterfly, pairUpdate, pairUpdate]
  by_cases hlow : x % (2 * h) < h
  · rw [if_pos hlow, if_pos hlow, levelPair]
    simp only [cast_levelReduce, Int.cast_add, Int.cast_mul, htwiddle, castVec_apply]
  · rw [if_neg hlow, if_neg hlow, levelPair]
    simp only [cast_levelReduce, Int.cast_sub, Int.cast_mul, htwiddle, castVec_apply]

/-- The remaining `k` levels finish the transform. The induction is on `k`; the
invariant is that every stretch of length `2 ^ s` holds its partial sums. -/
theorem cast_fftLevels {m : ℕ} (powers : Vec) {w : ZMod p} (a : ℕ → ZMod p)
    (hw : w ^ 2 ^ m = 1) (hhalf : 1 ≤ m → w ^ 2 ^ (m - 1) = -1)
    (hpowers : ∀ i < 2 ^ m, (powers i : ZMod p) = w ^ i) (k : ℕ) :
    ∀ (s fuel : ℕ) (A : Vec), m = s + k → k ≤ fuel →
      (∀ j < 2 ^ k, ∀ t < 2 ^ s,
        (A (2 ^ s * j + t) : ZMod p) = partialDft a k (2 ^ s) (w ^ 2 ^ k) j t) →
      ∀ t < 2 ^ m,
        (fftLevels fuel (2 ^ m) (2 ^ (s + 1)) (2 ^ k / 2) powers p A t : ZMod p) =
          partialDft a 0 (2 ^ m) w 0 t := by
  induction k with
  -- no level is left: one row of the full length
  | zero =>
      intro s fuel A hm _ hA t ht
      rw [Nat.add_zero] at hm
      subst hm
      have hstop : ¬2 ^ (m + 1) ≤ 2 ^ m := by
        rw [not_le]
        exact Nat.pow_lt_pow_right (by norm_num) (Nat.lt_succ_self m)
      have hdone := hA 0 (by norm_num) t ht
      rw [mul_zero, zero_add, pow_zero, pow_one] at hdone
      cases fuel with
      | zero => exact hdone
      | succ fuel => rw [fftLevels, if_neg hstop]; exact hdone
  -- one level: rows twice as long, half as many of them
  | succ k ih =>
      intro s fuel A hm hfuel hA t ht
      obtain ⟨fuel, rfl⟩ : ∃ f, fuel = f + 1 := ⟨fuel - 1, by omega⟩
      have hgo : 2 ^ (s + 1) ≤ 2 ^ m := Nat.pow_le_pow_right (by norm_num) (by omega)
      have hdouble : 2 ^ (s + 1) + 2 ^ (s + 1) = 2 ^ (s + 1 + 1) := by ring
      have hlevel : 2 ^ (k + 1) / 2 = 2 ^ k := by
        rw [pow_succ, Nat.mul_div_cancel _ (by norm_num)]
      have hK : 2 ^ k % 2 ^ m = 2 ^ k :=
        Nat.mod_eq_of_lt (Nat.pow_lt_pow_right (by norm_num) (by omega))
      have hstretch : (2 : ℕ) ^ (s + 1) = 2 * 2 ^ s := by ring
      have hlength : 2 ^ m = 2 * 2 ^ s * 2 ^ k := by rw [hm]; ring
      rw [fftLevels, if_pos hgo, hdouble, hlevel, hK]
      refine ih (s + 1) fuel _ (by omega) (by omega) ?_ t ht
      intro j hj u hu
      -- the half turn of the root of this level
      have hroot : (w ^ 2 ^ k) ^ 2 ^ s = -1 := by
        have hexp : 2 ^ k * 2 ^ s = 2 ^ (m - 1) := by
          rw [← pow_add]
          congr 1
          omega
        rw [← pow_mul, hexp, hhalf (by omega)]
      have hsquare : (w ^ 2 ^ k) ^ 2 = w ^ 2 ^ (k + 1) := by
        rw [← pow_mul, pow_succ]
      have hx : 2 * 2 ^ s * j + u < 2 ^ m := by
        rw [hstretch] at hu
        calc 2 * 2 ^ s * j + u < 2 * 2 ^ s * j + 2 * 2 ^ s := by omega
          _ = 2 * 2 ^ s * (j + 1) := by ring
          _ ≤ 2 * 2 ^ s * 2 ^ k := Nat.mul_le_mul_left _ hj
          _ = 2 ^ m := hlength.symm
      rw [hstretch]
      rw [cast_fftLevel (Nat.two_pow_pos s) hlength (2 ^ k) powers hw hpowers A hx]
      refine butterfly_partialDft a (castVec p A) k (2 ^ s) hroot ?_ hj (hstretch ▸ hu)
      intro j' hj' t' ht'
      rw [castVec_apply, hA j' hj' t' ht', hsquare]

/-- The transform: cell `t` holds the Fourier sum of the input. -/
theorem cast_zcompFastInterpolate {m : ℕ} (hm : 1 ≤ m) (hm' : m < 32) (A powers : Vec)
    {w : ZMod p} (hw : IsPrimitiveRoot w (2 ^ m))
    (hpowers : ∀ i < 2 ^ m, (powers i : ZMod p) = w ^ i) {t : ℕ} (ht : t < 2 ^ m) :
    (zcompFastInterpolate (2 ^ m) A powers p t : ZMod p) =
      ∑ u ∈ Finset.range (2 ^ m), (A u : ZMod p) * w ^ (t * u) := by
  have hone : w ^ 2 ^ m = 1 := hw.pow_eq_one
  have hhalf : w ^ 2 ^ (m - 1) = -1 := by
    have hsq : w ^ 2 ^ (m - 1) * w ^ 2 ^ (m - 1) = 1 := by
      rw [← sq, ← pow_mul, ← pow_succ, Nat.sub_add_cancel hm, hone]
    have hne : w ^ 2 ^ (m - 1) ≠ 1 :=
      hw.pow_ne_one_of_pos_of_lt (Nat.two_pow_pos _).ne'
        (Nat.pow_lt_pow_right (by norm_num) (by omega))
    exact (mul_self_eq_one_iff.1 hsq).resolve_left hne
  have hfuel : m ≤ 2 ^ m := Nat.lt_two_pow_self.le
  rw [zcompFastInterpolate]
  have hrun := cast_fftLevels powers (castVec p A) hone (fun _ => hhalf) hpowers m 0 (2 ^ m)
    (bitReversalSwaps (2 ^ m) (ffs (zreverse (2 ^ m))) A) (by omega) hfuel ?_ t ht
  · rw [zero_add, pow_one] at hrun
    rw [hrun, partialDft_zero]
    rfl
  · intro j hj t' ht'
    rw [pow_zero, Nat.lt_one_iff] at ht'
    subst ht'
    rw [pow_zero, one_mul, add_zero, bitReversalSwaps_apply hm' A hj, partialDft_one]
    rfl

end Prime

end Pepper.Libv.FastInterpolate
