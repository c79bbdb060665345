import Pepper.Libv.Commitment
import Pepper.LibGpu.Modexp
import Mathlib.GroupTheory.OrderOfElement
import Mathlib.Data.Int.ModEq

/-!
# The three encrypted dot products

`Crypto` raises the ciphertexts of a query file to the proof vector one by one
(`dotProductRegularEnc`) or in blocks (`dotProductSimelEnc`), with the work split over
threads; `CPUCrypto` does it in chunks, with sliding windows over the low bits of each
exponent (`cpuDotProductEnc`). The first two take the file as `dump_vector_interleaved`
writes it, all first halves before all second halves, and decrypt to the inner product
under every split (`dotProductRegularEnc_encrypts`, `dotProductSimelEnc_encrypts`).
`CPUCrypto` reads the two halves of a ciphertext from neighbouring cells, as `dump_vector`
writes them in the build that has it; on this layout it decrypts to the same
(`homomorphic_on_layouts`).

`homomorphic_iff` says for which queries and proof vectors all three still agree on one file
of halves.
-/

set_option autoImplicit false

open Pepper.Common.Gmp Pepper.Foundations.Loop Pepper.LibGpu.Modexp
open Pepper.Libv.Queries Pepper.Libv.PlainQueries Pepper.Libv.Commitment

namespace Pepper.Crypto.DotProduct

/-! ## The code -/

/-- `elgamal_smul`. -/
def elgamalSmul (k : ElGamalKeys) (c : ℤ × ℤ) (coefficient : ℤ) : ℤ × ℤ :=
  if coefficient = 0 then (1, 1) else (powm c.1 coefficient k.p, powm c.2 coefficient k.p)

/-- A parallel loop: the iterations each thread runs, the threads in the order in which
they reach the critical section. -/
structure Schedule (size : ℕ) where
  threads : List (List ℕ)
  complete : threads.flatten.Perm (List.range size)

/-- The private product of one thread of `dot_product_regular_enc`. -/
def privOutput (k : ElGamalKeys) (size : ℕ) (q d : Vec) (iterations : List ℕ) : ℤ × ℤ :=
  iterations.foldl
    (fun priv i => elgamalHadd k priv (elgamalSmul k (q i, q (size + i)) (d i))) (1, 1)

/-- `dot_product_regular_enc`. -/
def dotProductRegularEnc (k : ElGamalKeys) (size : ℕ) (schedule : Schedule size) (q d : Vec) :
    ℤ × ℤ :=
  schedule.threads.foldl
    (fun output its => elgamalHadd k output (privOutput k size q d its)) (1, 1)

/-- The threads of `dot_product_simel_enc`, in the order in which they reach the critical
section. -/
structure Team where
  numThreads : ℕ
  order : List ℕ
  nonempty : 0 < numThreads
  complete : order.Perm (List.range numThreads)

/-- `sizes[id]`: equal parts, with the rest in the last one. -/
def partSize (size numThreads id : ℕ) : ℕ :=
  if id + 1 < numThreads then size / numThreads
  else size - forLoop (numThreads - 1) (fun _ sum => sum + size / numThreads) 0

/-- `base` of a thread. -/
def partBase (size numThreads id : ℕ) : ℕ :=
  forLoop id (fun i base => base + partSize size numThreads i) 0

/-- The private pair of one thread of `dot_product_simel_enc`. -/
def blockOutput (k : ElGamalKeys) (size numThreads : ℕ) (q d : Vec) (id : ℕ) : ℤ × ℤ :=
  let base := partBase size numThreads id
  let part := partSize size numThreads id
  (spowmBlock part (fun i => q (base + i)) (fun i => d (base + i)) k.p,
    spowmBlock part (fun i => q (size + base + i)) (fun i => d (base + i)) k.p)

/-- `dot_product_simel_enc`. -/
def dotProductSimelEnc (k : ElGamalKeys) (size : ℕ) (team : Team) (q d : Vec) : ℤ × ℤ :=
  team.order.foldl
    (fun output id => elgamalHadd k output (blockOutput k size team.numThreads q d id)) (1, 1)

/-- The exponent bits that `build_sw` keeps in `CPUCrypto::dot_product_enc`. -/
def exponentBits : ℕ := 192

/-- One component of one chunk of `CPUCrypto::dot_product_enc`: every second cell of the
query from `first` on. -/
def chunkProduct (k : ElGamalKeys) (vecSize first : ℕ) (q d : Vec) (output : ℤ) : ℤ :=
  forLoop vecSize
    (fun j acc =>
      acc * mpModexpMont k.p (q (first + 2 * j)) (mpGetSw exponentBits (d j).toNat) % k.p)
    output

/-- `CPUCrypto::dot_product_enc`. -/
def cpuDotProductEnc (k : ElGamalKeys) (maxKernelVecSize size : ℕ) (q d : Vec) : ℤ × ℤ :=
  forLoop ((size + maxKernelVecSize - 1) / maxKernelVecSize)
    (fun chunk output =>
      let i := chunk * maxKernelVecSize
      let vecSize := min maxKernelVecSize (size - i)
      (chunkProduct k vecSize (2 * i + 0) q (fun j => d (i + j)) output.1,
        chunkProduct k vecSize (2 * i + 1) q (fun j => d (i + j)) output.2))
    (1, 1)

/-! ## Both layouts of `Crypto` -/

section Crypto

variable (k : ElGamalKeys)

theorem elgamalSmul_encrypts {m : ℕ} {c : ℤ × ℤ} (h : Encrypts k m c) (coefficient : ℤ) :
    Encrypts k (m * coefficient.toNat) (elgamalSmul k c coefficient) := by
  have : Fact k.p.Prime := ⟨k.p_prime⟩
  rw [elgamalSmul]
  split
  · rename_i hzero
    rw [hzero]
    exact one_encrypts k
  · constructor
    · rw [cast_powm]
      exact pow_ne_zero _ h.1
    · rw [cast_powm, cast_powm, h.2, mul_pow, ← pow_mul, ← pow_mul, ← pow_mul,
        mul_comm k.r.toNat]

theorem sum_map_range (n : ℕ) (f : ℕ → ℕ) :
    ((List.range n).map f).sum = ∑ i ∈ Finset.range n, f i := rfl

/-- Any accumulation of ciphertexts encrypts the sum. -/
theorem foldl_hadd_encrypts {ι : Type} (term : ι → ℕ) (cipher : ι → ℤ × ℤ) (l : List ι)
    (h : ∀ i ∈ l, Encrypts k (term i) (cipher i)) {m : ℕ} {c : ℤ × ℤ} (hc : Encrypts k m c) :
    Encrypts k (m + (l.map term).sum)
      (l.foldl (fun output i => elgamalHadd k output (cipher i)) c) := by
  induction l generalizing m c with
  | nil => simpa using hc
  | cons i l ih =>
      have hstep := ih (fun j hj => h j (List.mem_cons_of_mem i hj))
        (hc.hadd k (h i List.mem_cons_self))
      rw [List.foldl_cons, List.map_cons, List.sum_cons, ← add_assoc]
      exact hstep

variable {size : ℕ} {q d plain : Vec}
  (hq : ∀ i < size, Encrypts k (plain i).toNat (q i, q (size + i)))

include hq in
/-- The element-wise product, whatever the schedule. -/
theorem dotProductRegularEnc_encrypts (schedule : Schedule size) :
    Encrypts k (∑ i ∈ Finset.range size, (plain i).toNat * (d i).toNat)
      (dotProductRegularEnc k size schedule q d) := by
  have hmem : ∀ its ∈ schedule.threads, ∀ i ∈ its, i < size := by
    intro its hits i hi
    exact List.mem_range.1 (schedule.complete.subset (List.mem_flatten.2 ⟨its, hits, hi⟩))
  have hthread : ∀ its ∈ schedule.threads,
      Encrypts k (its.map fun i => (plain i).toNat * (d i).toNat).sum
        (privOutput k size q d its) := by
    intro its hits
    have hfold := foldl_hadd_encrypts k (fun i => (plain i).toNat * (d i).toNat)
      (fun i => elgamalSmul k (q i, q (size + i)) (d i)) its
      (fun i hi => elgamalSmul_encrypts k (hq i (hmem its hits i hi)) (d i)) (one_encrypts k)
    rwa [zero_add] at hfold
  have htotal := foldl_hadd_encrypts k _ _ schedule.threads hthread (one_encrypts k)
  -- the threads together run every iteration once
  have hsum : (schedule.threads.map fun its =>
      (its.map fun i => (plain i).toNat * (d i).toNat).sum).sum =
        ∑ i ∈ Finset.range size, (plain i).toNat * (d i).toNat := by
    rw [← sum_map_range, ← (schedule.complete.map _).sum_eq, List.map_flatten, List.sum_flatten,
      List.map_map]
    rfl
  rw [zero_add, hsum] at htotal
  exact htotal

/-- The parts of the threads follow one another without a gap. -/
theorem sum_parts (size numThreads : ℕ) (f : ℕ → ℕ) (n : ℕ) :
    ∑ id ∈ Finset.range n,
        ∑ i ∈ Finset.range (partSize size numThreads id), f (partBase size numThreads id + i) =
      ∑ i ∈ Finset.range (partBase size numThreads n), f i := by
  induction n with
  | zero => rfl
  | succ n ih =>
      have hbase : partBase size numThreads (n + 1) =
          partBase size numThreads n + partSize size numThreads n := rfl
      rw [Finset.sum_range_succ, ih, hbase, Finset.sum_range_add]

theorem partBase_mono (size numThreads : ℕ) {m n : ℕ} (h : m ≤ n) :
    partBase size numThreads m ≤ partBase size numThreads n := by
  rw [partBase, partBase, forLoop_add, forLoop_add, zero_add, zero_add]
  exact Finset.sum_le_sum_of_subset (Finset.range_mono h)

/-- The last part takes what the equal ones leave. -/
theorem partBase_numThreads (numThreads : ℕ) (hpos : 0 < numThreads) :
    partBase size numThreads numThreads = size := by
  obtain ⟨t, rfl⟩ := Nat.exists_eq_succ_of_ne_zero hpos.ne'
  have hbase : ∀ n ≤ t, partBase size (t + 1) n = n * (size / (t + 1)) := by
    intro n
    induction n with
    | zero => intro _; rw [zero_mul]; rfl
    | succ n ih =>
        intro hn
        have hstep : partBase size (t + 1) (n + 1) =
            partBase size (t + 1) n + partSize size (t + 1) n := rfl
        rw [hstep, ih (Nat.le_of_succ_le hn), partSize, if_pos (Nat.succ_lt_succ hn), Nat.succ_mul]
  have hlast : partBase size (t + 1) (t + 1) =
      partBase size (t + 1) t + partSize size (t + 1) t := rfl
  have hsum : forLoop (t + 1 - 1) (fun _ sum => sum + size / (t + 1)) 0 = t * (size / (t + 1)) := by
    rw [Nat.add_sub_cancel, forLoop_add, Finset.sum_const, Finset.card_range, smul_eq_mul, zero_add]
  have hle : t * (size / (t + 1)) ≤ size := by
    calc t * (size / (t + 1)) ≤ (t + 1) * (size / (t + 1)) :=
          Nat.mul_le_mul_right _ (Nat.le_succ t)
      _ ≤ size := Nat.mul_div_le size (t + 1)
  rw [hlast, hbase t le_rfl, partSize, if_neg (lt_irrefl _), hsum]
  exact Nat.add_sub_cancel' hle

include hq in
/-- The product in blocks, whatever the team. -/
theorem dotProductSimelEnc_encrypts (team : Team) :
    Encrypts k (∑ i ∈ Finset.range size, (plain i).toNat * (d i).toNat)
      (dotProductSimelEnc k size team q d) := by
  have hbound : ∀ id ∈ team.order, ∀ i < partSize size team.numThreads id,
      partBase size team.numThreads id + i < size := by
    intro id hid i hi
    have hlt : id < team.numThreads := List.mem_range.1 (team.complete.subset hid)
    have hend : partBase size team.numThreads (id + 1) =
        partBase size team.numThreads id + partSize size team.numThreads id := rfl
    have hle := partBase_mono size team.numThreads (Nat.succ_le_of_lt hlt)
    rw [Nat.succ_eq_add_one, hend, partBase_numThreads _ team.nonempty] at hle
    omega
  have hthread : ∀ id ∈ team.order,
      Encrypts k (∑ i ∈ Finset.range (partSize size team.numThreads id),
          (plain (partBase size team.numThreads id + i)).toNat *
            (d (partBase size team.numThreads id + i)).toNat)
        (blockOutput k size team.numThreads q d id) := by
    intro id hid
    apply spowmBlock_encrypts
    intro i hi
    rw [add_assoc]
    exact hq _ (hbound id hid i hi)
  have htotal := foldl_hadd_encrypts k _ _ team.order hthread (one_encrypts k)
  have hsum := sum_parts size team.numThreads
    (fun i => (plain i).toNat * (d i).toNat) team.numThreads
  rw [partBase_numThreads _ team.nonempty, ← sum_map_range, ← (team.complete.map _).sum_eq] at hsum
  rw [zero_add, hsum] at htotal
  exact htotal

end Crypto

/-! ## The product over neighbouring cells -/

section Cpu

variable (k : ElGamalKeys)

/-- The exponent that `CPUCrypto` uses for a cell of the proof vector. -/
def lowBits (d : Vec) (j : ℕ) : ℕ := (d j).toNat % 2 ^ exponentBits

theorem cast_chunkProduct (vecSize first : ℕ) (q d : Vec) (output : ℤ) :
    (chunkProduct k vecSize first q d output : ZMod k.p) =
      (output : ZMod k.p) *
        ∏ j ∈ Finset.range vecSize, (q (first + 2 * j) : ZMod k.p) ^ lowBits d j := by
  have : Fact k.p.Prime := ⟨k.p_prime⟩
  rw [chunkProduct, cast_forLoop_prod]
  congr 1
  apply Finset.prod_congr rfl
  intro j _
  exact cast_mpModexpMont (q (first + 2 * j)) exponentBits (d j).toNat

/-- The chunks follow one another up to the end of the vector. -/
theorem prod_chunk (f : ℕ → ZMod k.p) {size chunkSize chunk : ℕ}
    (h : chunk * chunkSize < size) :
    (∏ i ∈ Finset.range (min (chunk * chunkSize) size), f i) *
        ∏ j ∈ Finset.range (min chunkSize (size - chunk * chunkSize)), f (chunk * chunkSize + j) =
      ∏ i ∈ Finset.range (min ((chunk + 1) * chunkSize) size), f i := by
  have hmin : min ((chunk + 1) * chunkSize) size =
      chunk * chunkSize + min chunkSize (size - chunk * chunkSize) := by
    rw [Nat.succ_mul]
    omega
  rw [min_eq_left h.le, hmin, Finset.prod_range_add]

theorem cast_cpuDotProductEnc {maxKernelVecSize : ℕ} (hpos : 0 < maxKernelVecSize) (size : ℕ)
    (q d : Vec) :
    ((cpuDotProductEnc k maxKernelVecSize size q d).1 : ZMod k.p) =
        ∏ j ∈ Finset.range size, (q (2 * j) : ZMod k.p) ^ lowBits d j ∧
      ((cpuDotProductEnc k maxKernelVecSize size q d).2 : ZMod k.p) =
        ∏ j ∈ Finset.range size, (q (2 * j + 1) : ZMod k.p) ^ lowBits d j := by
  -- the last chunk is cut at the size: past it there is nothing to multiply
  have hend : min ((size + maxKernelVecSize - 1) / maxKernelVecSize * maxKernelVecSize) size =
      size := by
    apply min_eq_right
    have hdiv := Nat.div_add_mod (size + maxKernelVecSize - 1) maxKernelVecSize
    have hmod := Nat.mod_lt (size + maxKernelVecSize - 1) hpos
    rw [mul_comm] at hdiv
    omega
  have hloop := forLoop_induction
    (P := fun chunk (output : ℤ × ℤ) =>
      (output.1 : ZMod k.p) = ∏ j ∈ Finset.range (min (chunk * maxKernelVecSize) size),
        (q (2 * j) : ZMod k.p) ^ lowBits d j ∧
      (output.2 : ZMod k.p) = ∏ j ∈ Finset.range (min (chunk * maxKernelVecSize) size),
        (q (2 * j + 1) : ZMod k.p) ^ lowBits d j)
    (n := (size + maxKernelVecSize - 1) / maxKernelVecSize)
    (g := fun chunk output =>
      let i := chunk * maxKernelVecSize
      let vecSize := min maxKernelVecSize (size - i)
      (chunkProduct k vecSize (2 * i + 0) q (fun j => d (i + j)) output.1,
        chunkProduct k vecSize (2 * i + 1) q (fun j => d (i + j)) output.2))
    (s := (1, 1)) ?_ ?_
  · rw [hend] at hloop
    exact hloop
  · simp
  · intro chunk hchunk output houtput
    -- a chunk that is started has an element to take
    have hlt : chunk * maxKernelVecSize < size := by
      have hle := block_le hchunk maxKernelVecSize
      have hdiv := Nat.div_mul_le_self (size + maxKernelVecSize - 1) maxKernelVecSize
      omega
    constructor
    · rw [← prod_chunk k _ hlt, ← houtput.1, cast_chunkProduct]
      congr 1
      apply Finset.prod_congr rfl
      intro j _
      rw [mul_add, add_zero]
      rfl
    · rw [← prod_chunk k _ hlt, ← houtput.2, cast_chunkProduct]
      congr 1
      apply Finset.prod_congr rfl
      intro j _
      rw [mul_add, add_right_comm]
      rfl

/-- Decryption gives `g ^ m` exactly for the encryptions of `m`. -/
theorem elgamalDec_eq_iff (m : ℕ) {c : ℤ × ℤ} (hc : (c.1 : ZMod k.p) ≠ 0) :
    elgamalDec k c = powm k.g m k.p ↔
      (c.2 : ZMod k.p) = (c.1 : ZMod k.p) ^ k.r.toNat * (k.g : ZMod k.p) ^ m := by
  have : Fact k.p.Prime := ⟨k.p_prime⟩
  constructor
  · intro hdec
    have hpow : ((powm c.1 k.r k.p : ℤ) : ZMod k.p) ≠ 0 := by
      rw [cast_powm]
      exact pow_ne_zero _ hc
    have hcast := congrArg (fun z : ℤ => (z : ZMod k.p)) hdec
    simp only [elgamalDec, ZMod.intCast_mod, Int.cast_mul, cast_mpzInvert _ _ hpow, cast_powm,
      Int.toNat_natCast] at hcast
    rw [← hcast, mul_inv_cancel_left₀ (pow_ne_zero _ hc)]
  · intro h
    exact elgamalDec_eq k ⟨hc, h⟩

/-- The order of the generator. -/
noncomputable def period : ℕ := orderOf (k.g : ZMod k.p)

theorem g_pow_eq_iff (a b : ℕ) :
    (k.g : ZMod k.p) ^ a = (k.g : ZMod k.p) ^ b ↔ a ≡ b [MOD period k] := by
  have : Fact k.p.Prime := ⟨k.p_prime⟩
  have hunit := pow_eq_pow_iff_modEq (x := Units.mk0 (k.g : ZMod k.p) k.g_invertible)
    (n := a) (m := b)
  rw [← orderOf_units, Units.val_mk0, Units.ext_iff, Units.val_pow_eq_pow_val,
    Units.val_pow_eq_pow_val, Units.val_mk0] at hunit
  exact hunit

/-! ### A query file -/

variable {P : Prng}

/-- The random exponents that `elgamal_enc_vec` draws first. -/
def drawRandomness (privBits size : ℕ) (crypto : Crypto P) : Vec :=
  (forLoop size
    (fun i (s : Crypto P × Vec) =>
      ({ s.1 with priv := (P.getRandomb s.1.priv privBits).2 },
        Function.update s.2 i (P.getRandomb s.1.priv privBits).1))
    (crypto, zeroVec)).2

/-- The query vector as the prover loads it. -/
def queryFile (privBits size : ℕ) (crypto : Crypto P) (q : Vec) : Vec :=
  loadVector (dumpVectorInterleaved (2 * size) (elgamalEncVec k privBits size crypto zeroVec q).2)
    zeroVec

theorem elgamalEncVec_cell (privBits size : ℕ) (crypto : Crypto P) (cipher plain : Vec) {i : ℕ}
    (hi : i < size) :
    (elgamalEncVec k privBits size crypto cipher plain).2 (2 * i) =
        (elgamalEncWithRand k (plain i) (drawRandomness privBits size crypto i)).1 ∧
      (elgamalEncVec k privBits size crypto cipher plain).2 (2 * i + 1) =
        (elgamalEncWithRand k (plain i) (drawRandomness privBits size crypto i)).2 := by
  rw [elgamalEncVec]
  refine forLoop_induction
    (P := fun n (c : Vec) => ∀ j < n,
      c (2 * j) = (elgamalEncWithRand k (plain j) (drawRandomness privBits size crypto j)).1 ∧
        c (2 * j + 1) =
          (elgamalEncWithRand k (plain j) (drawRandomness privBits size crypto j)).2)
    (n := size) ?_ ?_ i hi
  · intro j hj
    exact absurd hj (Nat.not_lt_zero j)
  · intro n _ c hc j hj
    by_cases hjn : j = n
    · subst hjn
      rw [Function.update_self, Function.update_of_ne (by omega), Function.update_self]
      exact ⟨rfl, rfl⟩
    · rw [Function.update_of_ne (by omega), Function.update_of_ne (by omega),
        Function.update_of_ne (by omega), Function.update_of_ne (by omega)]
      exact hc j (by omega)

/-- The exponent of `g` in a cell of the file: the randomness below `size`, what the second
halves carry from there on. -/
def fileExp (size : ℕ) (rand q : Vec) (i : ℕ) : ℕ :=
  if i < size then (rand i).toNat
  else k.r.toNat * (rand (i - size)).toNat + (q (i - size)).toNat

theorem cast_queryFile (privBits size : ℕ) (crypto : Crypto P) (q : Vec) {i : ℕ}
    (hi : i < 2 * size) :
    (queryFile k privBits size crypto q i : ZMod k.p) =
      (k.g : ZMod k.p) ^ fileExp k size (drawRandomness privBits size crypto) q i := by
  rw [fileExp]
  split
  · rename_i hlow
    rw [queryFile, loadVector, (dumpVectorInterleaved_getD size _ _ hlow).1,
      (elgamalEncVec_cell k privBits size crypto zeroVec q hlow).1, elgamalEncWithRand, cast_powm]
  · rename_i hhigh
    obtain ⟨j, rfl⟩ := Nat.exists_eq_add_of_le (Nat.le_of_not_lt hhigh)
    have hj : j < size := by omega
    rw [queryFile, loadVector, (dumpVectorInterleaved_getD size _ _ hj).2,
      (elgamalEncVec_cell k privBits size crypto zeroVec q hj).2, Nat.add_sub_cancel_left,
      elgamalEncWithRand, ElGamalKeys.gr, ZMod.intCast_mod, Int.cast_mul, cast_powm, cast_powm,
      cast_powm, ← pow_mul, ← pow_add]

/-- The product over every second cell of the file, from the first or from the second one on. -/
theorem prod_queryFile (privBits size : ℕ) (crypto : Crypto P) (q d : Vec) {s : ℕ} (hs : s < 2) :
    (∏ j ∈ Finset.range size,
      (queryFile k privBits size crypto q (2 * j + s) : ZMod k.p) ^ lowBits d j) =
      (k.g : ZMod k.p) ^ ∑ j ∈ Finset.range size,
        fileExp k size (drawRandomness privBits size crypto) q (2 * j + s) * lowBits d j := by
  rw [← Finset.prod_pow_eq_pow_sum]
  apply Finset.prod_congr rfl
  intro j hj
  have hj' := Finset.mem_range.1 hj
  rw [cast_queryFile k privBits size crypto q (by omega), ← pow_mul]

/-- What the product over neighbouring cells of one file decrypts to. -/
theorem cpuDotProductEnc_decrypts_iff {maxKernelVecSize : ℕ} (hpos : 0 < maxKernelVecSize)
    (privBits size : ℕ) (crypto : Crypto P) (q d : Vec) (m : ℕ) :
    elgamalDec k
        (cpuDotProductEnc k maxKernelVecSize size (queryFile k privBits size crypto q) d) =
        powm k.g m k.p ↔
      ∑ j ∈ Finset.range size,
          fileExp k size (drawRandomness privBits size crypto) q (2 * j + 1) * lowBits d j ≡
        k.r.toNat * (∑ j ∈ Finset.range size,
          fileExp k size (drawRandomness privBits size crypto) q (2 * j) * lowBits d j) + m
        [MOD period k] := by
  have : Fact k.p.Prime := ⟨k.p_prime⟩
  have hg := k.g_invertible
  obtain ⟨hfst, hsnd⟩ := cast_cpuDotProductEnc k hpos size (queryFile k privBits size crypto q) d
  have heven := prod_queryFile k privBits size crypto q d Nat.two_pos
  simp only [Nat.add_zero] at heven
  rw [heven] at hfst
  rw [prod_queryFile k privBits size crypto q d Nat.one_lt_two] at hsnd
  have hne : ((cpuDotProductEnc k maxKernelVecSize size
      (queryFile k privBits size crypto q) d).1 : ZMod k.p) ≠ 0 := by
    rw [hfst]
    exact pow_ne_zero _ hg
  rw [elgamalDec_eq_iff k m hne, hfst, hsnd, ← pow_mul, ← pow_add, g_pow_eq_iff, mul_comm]

/-- The weight of a cell of the file in the exponent that the product over neighbouring
cells decrypts to. -/
def cellWeight (d : Vec) (i : ℕ) : ℤ :=
  if i % 2 = 1 then lowBits d (i / 2) else -(k.r.toNat * lowBits d (i / 2))

theorem sum_cellWeight (d : Vec) (e : ℕ → ℕ) (size : ℕ) :
    ∑ i ∈ Finset.range (2 * size), cellWeight k d i * e i =
      ∑ j ∈ Finset.range size, (e (2 * j + 1) : ℤ) * lowBits d j -
        k.r.toNat * ∑ j ∈ Finset.range size, (e (2 * j) : ℤ) * lowBits d j := by
  induction size with
  | zero => simp
  | succ n ih =>
      have heven : cellWeight k d (2 * n) = -(k.r.toNat * lowBits d n) := by
        rw [cellWeight, if_neg (by omega), show 2 * n / 2 = n by omega]
      have hodd : cellWeight k d (2 * n + 1) = lowBits d n := by
        rw [cellWeight, if_pos (by omega), show (2 * n + 1) / 2 = n by omega]
      rw [Nat.mul_succ, Finset.sum_range_succ, Finset.sum_range_succ, ih, heven, hodd,
        Finset.sum_range_succ, Finset.sum_range_succ]
      ring

/-- The weights against the exponents of a file: the part of the randomness and the part
of the query. -/
theorem sum_cellWeight_fileExp (d rand q : Vec) (size : ℕ) :
    ∑ i ∈ Finset.range (2 * size), cellWeight k d i * fileExp k size rand q i =
      ∑ i ∈ Finset.range size,
          (cellWeight k d i + k.r.toNat * cellWeight k d (size + i)) * ((rand i).toNat : ℤ) +
        ∑ i ∈ Finset.range size, cellWeight k d (size + i) * ((q i).toNat : ℤ) := by
  rw [two_mul, Finset.sum_range_add, ← Finset.sum_add_distrib, ← Finset.sum_add_distrib]
  apply Finset.sum_congr rfl
  intro i hi
  have hlow : fileExp k size rand q i = (rand i).toNat := if_pos (Finset.mem_range.1 hi)
  have hhigh : fileExp k size rand q (size + i) =
      k.r.toNat * (rand i).toNat + (q i).toNat := by
    rw [fileExp, if_neg (by omega), Nat.add_sub_cancel_left]
  rw [hlow, hhigh]
  push_cast
  ring

/-- The inputs on which reading neighbouring cells does no harm: the randomness cancels,
and what remains is the inner product. -/
structure PairsAgree (size : ℕ) (q d : Vec) : Prop where
  blinding : ∀ i < size,
    cellWeight k d i + k.r.toNat * cellWeight k d (size + i) ≡ 0 [ZMOD period k]
  plain : ∑ i ∈ Finset.range size, cellWeight k d (size + i) * q i ≡
    ∑ i ∈ Finset.range size, q i * d i [ZMOD period k]

theorem cpuDotProductEnc_decrypts_iff_weights {maxKernelVecSize : ℕ}
    (hpos : 0 < maxKernelVecSize) (privBits size : ℕ) (crypto : Crypto P) (q d : Vec) (m : ℕ) :
    elgamalDec k
        (cpuDotProductEnc k maxKernelVecSize size (queryFile k privBits size crypto q) d) =
        powm k.g m k.p ↔
      ∑ i ∈ Finset.range size, (cellWeight k d i + k.r.toNat * cellWeight k d (size + i)) *
            ((drawRandomness privBits size crypto i).toNat : ℤ) +
          ∑ i ∈ Finset.range size, cellWeight k d (size + i) * ((q i).toNat : ℤ) ≡
        m [ZMOD period k] := by
  rw [cpuDotProductEnc_decrypts_iff k hpos, ← sum_cellWeight_fileExp, sum_cellWeight,
    ← Int.natCast_modEq_iff]
  push_cast
  rw [Int.modEq_iff_dvd, Int.modEq_iff_dvd]
  have hdiff (a b c : ℤ) : b + c - a = c - (a - b) := by ring
  rw [hdiff]

end Cpu

/-! ## Agreement -/

/-- The property of the commitment: every implementation decrypts to the inner product, for
all encryption randomness, schedules, teams and chunk sizes. -/
def Homomorphic (k : ElGamalKeys) (privBits size : ℕ) (q d : Vec) : Prop :=
  ∀ (P : Prng) (crypto : Crypto P) (schedule : Schedule size) (team : Team)
    (maxKernelVecSize : ℕ), 0 < maxKernelVecSize →
    let file := queryFile k privBits size crypto q
    let expected := powm k.g (∑ i ∈ Finset.range size, q i * d i) k.p
    elgamalDec k (dotProductRegularEnc k size schedule file d) = expected ∧
      elgamalDec k (dotProductSimelEnc k size team file d) = expected ∧
      elgamalDec k (cpuDotProductEnc k maxKernelVecSize size file d) = expected

/-- A stream that plays back a tape. -/
def tapePrng : Prng where
  State := ℕ → ℤ
  getRandom := fun tape n => (tape 0 % n, fun i => tape (i + 1))
  getRandomb := fun tape nbits => (tape 0 % 2 ^ nbits, fun i => tape (i + 1))
  getRandom_range := fun tape _ hn =>
    ⟨Int.emod_nonneg (tape 0) hn.ne', Int.emod_lt_of_pos (tape 0) hn⟩
  getRandomb_range := fun tape _ =>
    ⟨Int.emod_nonneg (tape 0) (by positivity), Int.emod_lt_of_pos (tape 0) (by positivity)⟩

theorem drawRandomness_tape (privBits size : ℕ) (pub priv : ℕ → ℤ) {i : ℕ} (hi : i < size) :
    drawRandomness privBits size (⟨pub, priv⟩ : Crypto tapePrng) i = priv i % 2 ^ privBits := by
  rw [drawRandomness]
  have hloop := forLoop_induction
    (P := fun n (s : Crypto tapePrng × Vec) =>
      (s.1.priv = fun j => priv (j + n)) ∧ ∀ j < n, s.2 j = priv j % 2 ^ privBits)
    (n := size)
    (g := fun i (s : Crypto tapePrng × Vec) =>
      ({ s.1 with priv := (tapePrng.getRandomb s.1.priv privBits).2 },
        Function.update s.2 i (tapePrng.getRandomb s.1.priv privBits).1))
    (s := (⟨pub, priv⟩, zeroVec)) ?_ ?_
  · exact hloop.2 i hi
  · exact ⟨rfl, fun j hj => absurd hj (Nat.not_lt_zero j)⟩
  · rintro n _ ⟨c, v⟩ ⟨hpriv, hv⟩
    change c.priv = _ at hpriv
    constructor
    · show (fun i => c.priv (i + 1)) = _
      rw [hpriv]
      funext j
      show priv (j + 1 + n) = priv (j + (n + 1))
      rw [add_right_comm, add_assoc]
    · intro j hj
      show Function.update v n (c.priv 0 % 2 ^ privBits) j = _
      by_cases hjn : j = n
      · rw [hjn, Function.update_self, hpriv]
        show priv (0 + n) % 2 ^ privBits = priv n % 2 ^ privBits
        rw [zero_add]
      · rw [Function.update_of_ne hjn]
        exact hv j (by omega)

section Agreement

variable (k : ElGamalKeys) {privBits size : ℕ} {q d : Vec}

theorem queryFile_encrypts {P : Prng} (crypto : Crypto P) (i : ℕ) (hi : i < size) :
    Encrypts k (q i).toNat
      (queryFile k privBits size crypto q i, queryFile k privBits size crypto q (size + i)) := by
  have hcells := fun c => dumpVectorInterleaved_getD size
    (elgamalEncVec k privBits size crypto zeroVec q).2 c hi
  rw [queryFile, loadVector, loadVector, (hcells _).1, (hcells _).2]
  exact elgamalEncVec_apply k privBits size crypto zeroVec q hi

variable (hq : ∀ i < size, 0 ≤ q i) (hd : ∀ i < size, 0 ≤ d i)

include hq hd in
theorem cast_inner :
    ((∑ i ∈ Finset.range size, (q i).toNat * (d i).toNat : ℕ) : ℤ) =
      ∑ i ∈ Finset.range size, q i * d i := by
  rw [Nat.cast_sum]
  apply Finset.sum_congr rfl
  intro i hi
  have hi' := Finset.mem_range.1 hi
  rw [Nat.cast_mul, Int.toNat_of_nonneg (hq i hi'), Int.toNat_of_nonneg (hd i hi')]

include hq hd in
/-- `Crypto` needs no condition. -/
theorem crypto_decrypts (privBits : ℕ) {P : Prng} (crypto : Crypto P)
    (schedule : Schedule size) (team : Team) :
    elgamalDec k
        (dotProductRegularEnc k size schedule (queryFile k privBits size crypto q) d) =
        powm k.g (∑ i ∈ Finset.range size, q i * d i) k.p ∧
      elgamalDec k (dotProductSimelEnc k size team (queryFile k privBits size crypto q) d) =
        powm k.g (∑ i ∈ Finset.range size, q i * d i) k.p := by
  rw [← cast_inner hq hd]
  constructor
  · exact elgamalDec_eq k
      (dotProductRegularEnc_encrypts k (queryFile_encrypts k crypto) schedule)
  · exact elgamalDec_eq k (dotProductSimelEnc_encrypts k (queryFile_encrypts k crypto) team)

include hq hd in
/-- The weights of the file decide the product over neighbouring cells. -/
theorem cpu_decrypts_iff (privBits : ℕ) {P : Prng} (crypto : Crypto P) {maxKernelVecSize : ℕ}
    (hpos : 0 < maxKernelVecSize) :
    elgamalDec k
        (cpuDotProductEnc k maxKernelVecSize size (queryFile k privBits size crypto q) d) =
        powm k.g (∑ i ∈ Finset.range size, q i * d i) k.p ↔
      ∑ i ∈ Finset.range size, (cellWeight k d i + k.r.toNat * cellWeight k d (size + i)) *
            ((drawRandomness privBits size crypto i).toNat : ℤ) +
          ∑ i ∈ Finset.range size, cellWeight k d (size + i) * q i ≡
        ∑ i ∈ Finset.range size, q i * d i [ZMOD period k] := by
  have hplain : ∑ i ∈ Finset.range size, cellWeight k d (size + i) * ((q i).toNat : ℤ) =
      ∑ i ∈ Finset.range size, cellWeight k d (size + i) * q i := by
    apply Finset.sum_congr rfl
    intro i hi
    rw [Int.toNat_of_nonneg (hq i (Finset.mem_range.1 hi))]
  rw [← cast_inner hq hd, cpuDotProductEnc_decrypts_iff_weights k hpos, hplain]

include hq hd in
/-- All implementations agree exactly where the pairs do. -/
theorem homomorphic_iff (hbits : 0 < privBits) :
    Homomorphic k privBits size q d ↔ PairsAgree k size q d := by
  constructor
  · intro h
    -- the runs with randomness zero, and one in a single cell
    have hrun (tape : ℕ → ℤ) := (cpu_decrypts_iff k hq hd privBits
      (⟨tape, tape⟩ : Crypto tapePrng) one_pos).1
        (h tapePrng ⟨tape, tape⟩ ⟨[List.range size], by simp⟩
          ⟨1, [0], one_pos, by simp⟩ 1 one_pos).2.2
    have hplain : ∑ i ∈ Finset.range size, cellWeight k d (size + i) * q i ≡
        ∑ i ∈ Finset.range size, q i * d i [ZMOD period k] := by
      have hzero := hrun (fun _ => 0)
      rwa [Finset.sum_eq_zero, zero_add] at hzero
      intro i hi
      rw [drawRandomness_tape _ _ _ _ (Finset.mem_range.1 hi)]
      simp
    refine ⟨?_, hplain⟩
    intro i hi
    have hone := hrun (fun j => if j = i then 1 else 0)
    rw [Finset.sum_eq_single i] at hone
    · have hdraw : (drawRandomness privBits size
          (⟨fun j => if j = i then 1 else 0, fun j => if j = i then 1 else 0⟩ :
            Crypto tapePrng) i).toNat = 1 := by
        rw [drawRandomness_tape _ _ _ _ hi, if_pos rfl,
          Int.emod_eq_of_lt zero_le_one (one_lt_pow₀ one_lt_two hbits.ne')]
        rfl
      rw [hdraw, Nat.cast_one, mul_one] at hone
      have hcancel := hone.trans hplain.symm
      rw [← zero_add (∑ i ∈ Finset.range size, cellWeight k d (size + i) * q i), ← add_assoc,
        add_zero] at hcancel
      exact Int.ModEq.add_right_cancel' _ hcancel
    · intro j hj hji
      rw [drawRandomness_tape _ _ _ _ (Finset.mem_range.1 hj), if_neg hji]
      simp
    · intro hi'
      exact absurd (Finset.mem_range.2 hi) hi'
  · intro h P crypto schedule team maxKernelVecSize hpos
    obtain ⟨hregular, hsimel⟩ :=
      crypto_decrypts k hq hd privBits crypto schedule team
    refine ⟨hregular, hsimel, (cpu_decrypts_iff k hq hd privBits crypto hpos).2 ?_⟩
    have hrand : ∑ i ∈ Finset.range size,
        (cellWeight k d i + k.r.toNat * cellWeight k d (size + i)) *
          ((drawRandomness privBits size crypto i).toNat : ℤ) ≡ 0 [ZMOD period k] := by
      rw [Int.modEq_zero_iff_dvd]
      apply Finset.dvd_sum
      intro i hi
      exact (Int.modEq_zero_iff_dvd.1 (h.blinding i (Finset.mem_range.1 hi))).mul_right _
    have htotal := hrand.add h.plain
    rwa [zero_add] at htotal

end Agreement

/-- Small keys. -/
def smallKeys : ElGamalKeys where
  p := 7
  g := 3
  r := 1
  p_prime := by norm_num
  g_invertible := by decide

/-- A single cell has its two halves side by side in either layout. -/
example : Homomorphic smallKeys 160 1 (fun _ => 2) (fun _ => 3) := by
  refine (homomorphic_iff smallKeys (fun _ _ => by norm_num) (fun _ _ => by norm_num)
    (by norm_num)).2 ⟨?_, ?_⟩
  · intro i hi
    obtain rfl := Nat.lt_one_iff.1 hi
    decide
  · exact Int.ModEq.refl _

/-- Two equal cells do not. -/
theorem twoCells_differ : ¬Homomorphic smallKeys 160 2 (fun _ => 1) (fun _ => 1) := by
  intro h
  have hcpu := (h tapePrng ⟨fun _ => 0, fun _ => 0⟩ ⟨[List.range 2], by decide⟩
    ⟨1, [0], one_pos, by decide⟩ 2 two_pos).2.2
  revert hcpu
  decide +kernel

/-! ## Each implementation on its own layout -/

section Layouts

variable (k : ElGamalKeys) {P : Prng}

/-- The query vector as a prover on a GPU loads it: the file that `dump_vector` writes has the two
halves of each ciphertext side by side. -/
def pairsFile (privBits size : ℕ) (crypto : Crypto P) (q : Vec) : Vec :=
  loadVector (dumpVector (2 * size) (elgamalEncVec k privBits size crypto zeroVec q).2) zeroVec

theorem pairsFile_apply (privBits size : ℕ) (crypto : Crypto P) (q : Vec) {i : ℕ}
    (hi : i < 2 * size) :
    pairsFile k privBits size crypto q i =
      (elgamalEncVec k privBits size crypto zeroVec q).2 i := by
  rw [pairsFile, loadVector, dumpVector, List.getD_eq_getElem?_getD]
  simp [hi]

/-- The product over neighbouring cells of this file has the inner product with the low bits of the
exponents as its plaintext. -/
theorem cpuDotProductEnc_pairs {maxKernelVecSize : ℕ} (hpos : 0 < maxKernelVecSize)
    (privBits size : ℕ) (crypto : Crypto P) (q d : Vec) :
    Encrypts k (∑ i ∈ Finset.range size, (q i).toNat * lowBits d i)
      (cpuDotProductEnc k maxKernelVecSize size (pairsFile k privBits size crypto q) d) := by
  have : Fact k.p.Prime := ⟨k.p_prime⟩
  obtain ⟨hfst, hsnd⟩ := cast_cpuDotProductEnc k hpos size (pairsFile k privBits size crypto q) d
  -- the two halves of every ciphertext
  have hcell : ∀ i ∈ Finset.range size,
      Encrypts k (q i).toNat (pairsFile k privBits size crypto q (2 * i),
        pairsFile k privBits size crypto q (2 * i + 1)) := fun i hi => by
    have hi' := Finset.mem_range.1 hi
    rw [pairsFile_apply k privBits size crypto q (by omega),
      pairsFile_apply k privBits size crypto q (by omega)]
    exact elgamalEncVec_apply k privBits size crypto zeroVec q hi'
  constructor
  · rw [hfst]
    exact Finset.prod_ne_zero_iff.2 fun i hi => pow_ne_zero _ (hcell i hi).1
  · calc ((cpuDotProductEnc k maxKernelVecSize size
            (pairsFile k privBits size crypto q) d).2 : ZMod k.p)
        = ∏ i ∈ Finset.range size,
            (pairsFile k privBits size crypto q (2 * i + 1) : ZMod k.p) ^ lowBits d i := hsnd
      _ = ∏ i ∈ Finset.range size,
            (((pairsFile k privBits size crypto q (2 * i) : ZMod k.p) ^ lowBits d i) ^ k.r.toNat *
              (k.g : ZMod k.p) ^ ((q i).toNat * lowBits d i)) :=
          Finset.prod_congr rfl fun i hi => by
            rw [(hcell i hi).2, mul_pow, ← pow_mul, ← pow_mul, ← pow_mul, mul_comm k.r.toNat]
      _ = _ := by
          rw [Finset.prod_mul_distrib, Finset.prod_pow, Finset.prod_pow_eq_pow_sum, hfst]

/-- The commitment is additively homomorphic through every implementation on the layout that its
build writes: `Crypto`'s two products on the halves, and `CPUCrypto`'s on the pairs when no exponent
has more bits than it keeps. -/
theorem homomorphic_on_layouts {size : ℕ} {q d : Vec} (hq : ∀ i < size, 0 ≤ q i)
    (hd : ∀ i < size, 0 ≤ d i) (privBits : ℕ) (crypto : Crypto P) (schedule : Schedule size)
    (team : Team) {maxKernelVecSize : ℕ} (hpos : 0 < maxKernelVecSize) :
    let expected := powm k.g (∑ i ∈ Finset.range size, q i * d i) k.p
    elgamalDec k
        (dotProductRegularEnc k size schedule (queryFile k privBits size crypto q) d) = expected ∧
      elgamalDec k (dotProductSimelEnc k size team (queryFile k privBits size crypto q) d) =
        expected ∧
      ((∀ i < size, d i < 2 ^ exponentBits) →
        elgamalDec k
          (cpuDotProductEnc k maxKernelVecSize size (pairsFile k privBits size crypto q) d) =
            expected) := by
  obtain ⟨hregular, hsimel⟩ := crypto_decrypts k hq hd privBits crypto schedule team
  refine ⟨hregular, hsimel, fun hbits => ?_⟩
  rw [elgamalDec_eq k (cpuDotProductEnc_pairs k hpos privBits size crypto q d), ← cast_inner hq hd]
  congr 2
  refine Finset.sum_congr rfl fun i hi => ?_
  have hi' := Finset.mem_range.1 hi
  have hlt : (d i).toNat < 2 ^ exponentBits := by
    have h := hbits i hi'
    zify
    rwa [Int.toNat_of_nonneg (hd i hi')]
  rw [lowBits, Nat.mod_eq_of_lt hlt]

/-- Two cells with different randomness in them. -/
theorem homomorphic_on_layouts_twoCells :
    let crypto : Crypto tapePrng := ⟨fun _ => 0, fun i => i + 2⟩
    let q : Vec := fun _ => 1
    let d : Vec := fun i => i + 1
    elgamalDec smallKeys (dotProductRegularEnc smallKeys 2 ⟨[[1], [0]], by decide⟩
        (queryFile smallKeys 160 2 crypto q) d) = 6 ∧
      elgamalDec smallKeys (dotProductSimelEnc smallKeys 2 ⟨2, [1, 0], two_pos, by decide⟩
        (queryFile smallKeys 160 2 crypto q) d) = 6 ∧
      elgamalDec smallKeys (cpuDotProductEnc smallKeys 1 2
        (pairsFile smallKeys 160 2 crypto q) d) = 6 := by
  intro crypto q d
  have hd : ∀ i < 2, 0 ≤ d i := by decide
  have hbits : ∀ i < 2, d i < 2 ^ exponentBits := by decide
  obtain ⟨hregular, hsimel, hcpu⟩ := homomorphic_on_layouts smallKeys (q := q)
    (fun _ _ => zero_le_one) hd 160 crypto ⟨[[1], [0]], by decide⟩ ⟨2, [1, 0], two_pos, by decide⟩
    one_pos
  have hexpected : powm smallKeys.g (∑ i ∈ Finset.range 2, q i * d i) smallKeys.p = 6 := by decide
  exact ⟨hregular.trans hexpected, hsimel.trans hexpected, (hcpu hbits).trans hexpected⟩

end Layouts

end Pepper.Crypto.DotProduct
