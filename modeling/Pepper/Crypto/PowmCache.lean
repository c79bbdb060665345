import Pepper.Common.Gmp
import Mathlib.Data.ZMod.Basic

/-!
# The table of powers

A `PowmCache` holds for every window of an exponent the powers of the base to the values of the
window. A chunk ends with the entry that the next chunk starts from, so `computeCache` computes one
entry after the other, and `extendCache` goes on from the last old entry.

`cache_eq` gives every entry: `b ^ (v * 2 ^ (w * chunk))`, reduced but for the first one, which is
the base as it was passed. A table that was extended is the table built at the largest size
(`extend_eq`).
-/

set_option autoImplicit false

namespace Pepper.Crypto

open Pepper.Foundations.Loop
open Pepper.Common.Gmp

/-! ## The code -/

structure PowmCache where
  prime : ℤ
  cache : Vec
  windowSize : ℕ
  numChunks : ℕ
  cacheSize : ℕ

namespace PowmCache

def get_num_chunks (max_exp_bits window_size : ℕ) : ℕ :=
  if window_size = 0 then 0 else (max_exp_bits + window_size - 1) / window_size

def get_num_pow_per_chunk (window_size : ℕ) : ℕ := 2 ^ window_size - 1

def get_cache_size (num_chunks window_size : ℕ) : ℕ :=
  num_chunks * get_num_pow_per_chunk window_size + 1

/-- One entry of the chunk at `base`. -/
def computeEntry (prime : ℤ) (base j : ℕ) (cache : Vec) : Vec :=
  Function.update cache (base + (j + 1)) (cache base * cache (base + j) % prime)

/-- One chunk of `computeCache`. -/
def computeChunk (prime : ℤ) (windowSize i : ℕ) (cache : Vec) : Vec :=
  forLoop (get_num_pow_per_chunk windowSize)
    (computeEntry prime (i * get_num_pow_per_chunk windowSize)) cache

/-- `computeCache`. -/
def computeCache (start_chunk : ℕ) (c : PowmCache) : PowmCache :=
  { c with
    cache := forLoop (c.numChunks - start_chunk)
      (fun i => computeChunk c.prime c.windowSize (start_chunk + i)) c.cache }

/-- The constructor. -/
def new (b p : ℤ) (max_exp_bits win_size : ℕ) : PowmCache :=
  let numChunks := get_num_chunks max_exp_bits win_size
  computeCache 0
    ⟨p, Function.update zeroVec 0 b, win_size, numChunks, get_cache_size numChunks win_size⟩

def extendCache (c : PowmCache) (max_exp_bits : ℕ) : PowmCache :=
  if get_num_pow_per_chunk c.windowSize = 0 then c
  else
    let new_num_chunks := get_num_chunks max_exp_bits c.windowSize
    if new_num_chunks ≤ c.numChunks then c
    else
      -- the old entries, and zeros behind them
      let new_cache := forLoop c.cacheSize
        (fun i new_cache => Function.update new_cache i (c.cache i)) zeroVec
      computeCache c.numChunks
        { c with
          cache := new_cache
          numChunks := new_num_chunks
          cacheSize := get_cache_size new_num_chunks c.windowSize }

/-! ## The entries -/

section Entries

variable {b p : ℤ} {w : ℕ}

/-- The exponent of entry `t`. -/
def entryExponent (w t : ℕ) : ℕ :=
  (t % get_num_pow_per_chunk w + 1) * 2 ^ (w * (t / get_num_pow_per_chunk w))

/-- Entry `t`: the first one is not reduced. -/
def entry (b p : ℤ) (w t : ℕ) : ℤ := if t = 0 then b else b ^ entryExponent w t % p

theorem numPow_succ (w : ℕ) : get_num_pow_per_chunk w + 1 = 2 ^ w :=
  Nat.sub_add_cancel Nat.one_le_two_pow

theorem numPow_pos (hw : 0 < w) : 0 < get_num_pow_per_chunk w := by
  have h : 2 ^ 1 ≤ 2 ^ w := Nat.pow_le_pow_right Nat.two_pos hw
  rw [get_num_pow_per_chunk]
  omega

/-- The last entry of a chunk is the first one of the next. -/
theorem entryExponent_chunk (hw : 0 < w) (chunk : ℕ) {j : ℕ}
    (hj : j ≤ get_num_pow_per_chunk w) :
    entryExponent w (chunk * get_num_pow_per_chunk w + j) = (j + 1) * 2 ^ (w * chunk) := by
  have hpos := numPow_pos hw
  rcases hj.lt_or_eq with hlt | rfl
  · rw [entryExponent, Nat.add_comm (chunk * _), Nat.add_mul_mod_self_right, Nat.mod_eq_of_lt hlt,
      Nat.add_mul_div_right _ _ hpos, Nat.div_eq_of_lt hlt, Nat.zero_add]
  · rw [entryExponent, ← Nat.succ_mul, Nat.mul_mod_left, Nat.mul_div_cancel _ hpos, numPow_succ,
      Nat.zero_add, Nat.one_mul, Nat.succ_eq_add_one, Nat.mul_add, Nat.mul_one, pow_add,
      Nat.mul_comm]

theorem entry_emod (b p : ℤ) (w t : ℕ) : entry b p w t % p = b ^ entryExponent w t % p := by
  rw [entry]
  split
  · rename_i h
    rw [h, entryExponent, Nat.zero_mod, Nat.zero_div, Nat.mul_zero, pow_zero, Nat.mul_one, pow_one]
  · exact Int.emod_emod_of_dvd _ dvd_rfl

/-- The entries below `size`, and zeros. -/
def entries (b p : ℤ) (w size : ℕ) : Vec := fun t => if t < size then entry b p w t else 0

/-- An entry is computed from two that are there. -/
theorem computeEntry_entries (hw : 0 < w) {chunk j : ℕ} (hj : j < get_num_pow_per_chunk w) :
    computeEntry p (chunk * get_num_pow_per_chunk w) j
        (entries b p w (chunk * get_num_pow_per_chunk w + j + 1)) =
      entries b p w (chunk * get_num_pow_per_chunk w + (j + 1) + 1) := by
  set base := chunk * get_num_pow_per_chunk w with hbase
  have hnew : entries b p w (base + j + 1) base * entries b p w (base + j + 1) (base + j) % p =
      entry b p w (base + (j + 1)) := by
    have hfirst : entryExponent w base = 1 * 2 ^ (w * chunk) :=
      entryExponent_chunk hw chunk (Nat.zero_le _)
    have hentry : entry b p w (base + (j + 1)) = b ^ entryExponent w (base + (j + 1)) % p :=
      if_neg (Nat.succ_ne_zero _)
    rw [entries, if_pos (by omega), entries, if_pos (by omega), hentry,
      Int.mul_emod, entry_emod, entry_emod, ← Int.mul_emod, ← pow_add, hfirst,
      entryExponent_chunk hw chunk hj.le, entryExponent_chunk hw chunk hj, ← Nat.add_mul,
      Nat.add_comm 1]
  funext t
  rw [computeEntry, hnew]
  by_cases ht : t = base + (j + 1)
  · rw [ht, Function.update_self, entries, if_pos (by omega)]
  · rw [Function.update_of_ne ht, entries, entries]
    exact if_congr (by omega) rfl rfl

/-- A chunk is computed from its first entry. -/
theorem computeChunk_entries (hw : 0 < w) (chunk : ℕ) :
    computeChunk p w chunk (entries b p w (get_cache_size chunk w)) =
      entries b p w (get_cache_size (chunk + 1) w) := by
  have hloop := forLoop_induction
    (P := fun j cache => cache = entries b p w (chunk * get_num_pow_per_chunk w + j + 1))
    (n := get_num_pow_per_chunk w)
    (g := computeEntry p (chunk * get_num_pow_per_chunk w))
    (s := entries b p w (get_cache_size chunk w)) rfl
    (fun j hj t ht => by rw [ht]; exact computeEntry_entries hw hj)
  rw [computeChunk, hloop, get_cache_size, Nat.succ_mul]

/-- All chunks from `start` on. -/
theorem computeCache_entries (hw : 0 < w) {start chunks size : ℕ} (hle : start ≤ chunks) :
    computeCache start ⟨p, entries b p w (get_cache_size start w), w, chunks, size⟩ =
      ⟨p, entries b p w (get_cache_size chunks w), w, chunks, size⟩ := by
  have hloop := forLoop_induction
    (P := fun i cache => cache = entries b p w (get_cache_size (start + i) w))
    (n := chunks - start) (g := fun i => computeChunk p w (start + i))
    (s := entries b p w (get_cache_size start w)) rfl
    (fun i _ t ht => by rw [ht]; exact computeChunk_entries hw (start + i))
  rw [computeCache]
  dsimp only
  rw [hloop, Nat.add_sub_cancel' hle]

/-- The table of `chunks` chunks. -/
def table (b p : ℤ) (w chunks : ℕ) : PowmCache :=
  ⟨p, entries b p w (get_cache_size chunks w), w, chunks, get_cache_size chunks w⟩

theorem entries_one (b p : ℤ) (w : ℕ) : entries b p w 1 = Function.update zeroVec 0 b := by
  funext t
  rw [Function.update_apply, entries]
  by_cases ht : t = 0
  · rw [if_pos ht, if_pos (Nat.lt_one_iff.2 ht), entry, if_pos ht]
  · rw [if_neg ht, if_neg (fun h => ht (Nat.lt_one_iff.1 h))]
    rfl

theorem get_cache_size_zero (w : ℕ) : get_cache_size 0 w = 1 := by
  rw [get_cache_size, Nat.zero_mul]

theorem new_eq_table (b p : ℤ) (bits w : ℕ) :
    PowmCache.new b p bits w = table b p w (get_num_chunks bits w) := by
  rw [PowmCache.new, ← entries_one b p w]
  rcases Nat.eq_zero_or_pos w with rfl | hw
  · rfl
  · have h := @computeCache_entries b p w hw 0 (get_num_chunks bits w)
      (get_cache_size (get_num_chunks bits w) w) (Nat.zero_le _)
    rw [get_cache_size_zero] at h
    exact h

/-- The copy of the old entries. -/
theorem copied_entries (b p : ℤ) (w size : ℕ) :
    forLoop size (fun i cache => Function.update cache i (entries b p w size i)) zeroVec =
      entries b p w size := by
  funext t
  rw [forLoop_fill_apply]
  split
  · rfl
  · rename_i h
    rw [entries, if_neg h]
    rfl

theorem extend_table (b p : ℤ) (w chunks bits : ℕ) :
    (table b p w chunks).extendCache bits = table b p w (max chunks (get_num_chunks bits w)) := by
  rw [PowmCache.extendCache]
  rcases Nat.eq_zero_or_pos w with rfl | hw
  · -- without a window there is nothing to extend
    have hzero : get_num_chunks bits 0 = 0 := rfl
    rw [hzero, Nat.max_zero]
    rfl
  · have hpow : get_num_pow_per_chunk (table b p w chunks).windowSize ≠ 0 := (numPow_pos hw).ne'
    rw [if_neg hpow]
    dsimp only
    have hwindow : (table b p w chunks).windowSize = w := rfl
    have hchunks : (table b p w chunks).numChunks = chunks := rfl
    rw [hwindow, hchunks]
    split
    · rename_i hle
      rw [max_eq_left hle]
    · rename_i hlt
      have hle := (not_le.1 hlt).le
      rw [max_eq_right hle]
      have hcopy := copied_entries b p w (get_cache_size chunks w)
      exact (congrArg (fun v => computeCache chunks
        ⟨p, v, w, get_num_chunks bits w, get_cache_size (get_num_chunks bits w) w⟩) hcopy).trans
        (computeCache_entries hw hle)

theorem get_num_chunks_mono {m n : ℕ} (h : m ≤ n) (w : ℕ) :
    get_num_chunks m w ≤ get_num_chunks n w := by
  rw [get_num_chunks, get_num_chunks]
  split
  · exact le_rfl
  · exact Nat.div_le_div_right (by omega)

/-- A table that was extended is the table built at the largest size. -/
theorem extend_eq (b p : ℤ) (w bits : ℕ) (sizes : List ℕ) :
    sizes.foldl PowmCache.extendCache (PowmCache.new b p bits w) =
      PowmCache.new b p (sizes.foldl max bits) w := by
  induction sizes generalizing bits with
  | nil => rfl
  | cons size sizes ih =>
      have hstep : (PowmCache.new b p bits w).extendCache size =
          PowmCache.new b p (max bits size) w := by
        rw [new_eq_table, new_eq_table, extend_table]
        refine congrArg _ ?_
        rcases le_total bits size with h | h
        · rw [max_eq_right h, max_eq_right (get_num_chunks_mono h w)]
        · rw [max_eq_left h, max_eq_left (get_num_chunks_mono h w)]
      rw [List.foldl_cons, List.foldl_cons, hstep, ih]

/-- The entries by chunk and value of the window. -/
theorem cache_eq (b p : ℤ) {w : ℕ} (hw : 0 < w) (bits : ℕ) {chunk v : ℕ}
    (hchunk : chunk < get_num_chunks bits w) (hv : 1 ≤ v) (hv' : v ≤ 2 ^ w - 1) :
    (PowmCache.new b p bits w).cache (chunk * (2 ^ w - 1) + v - 1) =
      if chunk = 0 ∧ v = 1 then b else b ^ (v * 2 ^ (w * chunk)) % p := by
  have hpow : 2 ^ w - 1 = get_num_pow_per_chunk w := rfl
  have hindex : chunk * (2 ^ w - 1) + v - 1 = chunk * get_num_pow_per_chunk w + (v - 1) := by
    rw [hpow]
    omega
  have hbelow : chunk * get_num_pow_per_chunk w + (v - 1) <
      get_cache_size (get_num_chunks bits w) w := by
    have hle := block_le hchunk (get_num_pow_per_chunk w)
    rw [get_cache_size]
    omega
  rw [new_eq_table, hindex]
  show entries b p w _ _ = _
  rw [entries, if_pos hbelow, entry, entryExponent_chunk hw chunk (by omega),
    Nat.sub_add_cancel hv]
  have hzero : chunk * get_num_pow_per_chunk w + (v - 1) = 0 ↔ chunk = 0 ∧ v = 1 := by
    rw [Nat.add_eq_zero_iff, Nat.mul_eq_zero, or_iff_left (numPow_pos hw).ne']
    omega
  exact if_congr hzero rfl rfl

end Entries

end PowmCache

end Pepper.Crypto
