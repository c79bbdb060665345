import Pepper.Libv.PlainQueries

/-!
# The linear commitment

ElGamal in the exponent, as `Crypto` implements it: a vector `r` is encrypted cell by
cell, the prover raises the ciphertexts to its proof vector and multiplies them
(`dotProductEnc`), and decryption of the product is `g` to the inner product
(`elgamalDec_addEnc`). Exponents are never negative here.

The keys carry what key generation promises: a prime modulus and an invertible
generator. Order and encrypted key are derived as in `elgamal_precompute`.
-/

set_option autoImplicit false

open Pepper.Common.Gmp Pepper.Foundations.Loop
open Pepper.Libv.QuadraticProgram Pepper.Libv.Queries Pepper.Libv.PlainQueries

namespace Pepper.Libv.Commitment

variable {P : Prng}

/-! ## The code -/

/-- `mpz_powm` and the fixed-base power, for exponents that are not negative. -/
def powm (base exp modulus : ℤ) : ℤ := base ^ exp.toNat % modulus

/-- `gmpmee_spowm_block`: the product of `size` powers. -/
def spowmBlock (size : ℕ) (bases exps : Vec) (modulus : ℤ) : ℤ :=
  forLoop size (fun i acc => acc * powm (bases i) (exps i) modulus % modulus) (1 % modulus)

/-- Keys of the cryptosystem: `p`, `g` and the private exponent `r`. -/
structure ElGamalKeys where
  p : ℕ
  g : ℤ
  r : ℤ
  p_prime : p.Prime
  g_invertible : (g : ZMod p) ≠ 0

namespace ElGamalKeys

/-- The second half of the public key, `gr`. -/
def gr (k : ElGamalKeys) : ℤ := powm k.g k.r k.p

/-- The group order `q` that `elgamal_precompute` stores. -/
def order (k : ElGamalKeys) : ℤ := ((k.p : ℤ) - 1) / 2

end ElGamalKeys

/-- `elgamal_enc_with_rand`. -/
def elgamalEncWithRand (k : ElGamalKeys) (plain r : ℤ) : ℤ × ℤ :=
  (powm k.g r k.p, powm k.gr r k.p * powm k.g plain k.p % k.p)

/-- `elgamal_enc_vec`: all randomness first, then cipher `i` in cells `2 * i` and
`2 * i + 1`. -/
def elgamalEncVec (k : ElGamalKeys) (privBits size : ℕ) (crypto : Crypto P) (cipher plain : Vec) :
    Crypto P × Vec :=
  let drawn : Crypto P × Vec :=
    forLoop size
      (fun i s =>
        ({ s.1 with priv := (P.getRandomb s.1.priv privBits).2 },
          Function.update s.2 i (P.getRandomb s.1.priv privBits).1))
      (crypto, zeroVec)
  (drawn.1,
    forLoop size
      (fun i c =>
        Function.update
          (Function.update c (2 * i) (elgamalEncWithRand k (plain i) (drawn.2 i)).1)
          (2 * i + 1) (elgamalEncWithRand k (plain i) (drawn.2 i)).2)
      cipher)

/-- What `create_commitment_query` leaves for one proof vector: the ciphertexts and the
plain random vector that the consistency query starts from. -/
structure CommitmentQuery (P : Prng) where
  crypto : Crypto P
  rQ : Vec
  conQ : Vec

/-- `create_commitment_query`. -/
def createCommitmentQuery (k : ElGamalKeys) (privBits size : ℕ) (prime : ℤ) (crypto : Crypto P) :
    CommitmentQuery P :=
  let drawn : Crypto P × Vec :=
    forLoop size
      (fun i s => ((s.1.getRandomPriv prime).2, Function.update s.2 i (s.1.getRandomPriv prime).1))
      (crypto, zeroVec)
  let enc := elgamalEncVec k privBits size drawn.1 zeroVec drawn.2
  { crypto := enc.1, rQ := enc.2, conQ := drawn.2 }

/-- `dump_vector_interleaved`: the even cells, then the odd cells. -/
def dumpVectorInterleaved (size : ℕ) (q : Vec) : List ℤ :=
  ((List.range (size / 2)).map fun i => q (2 * i)) ++
    (List.range (size / 2)).map fun i => q (2 * i + 1)

/-- `elgamal_hadd`. -/
def elgamalHadd (k : ElGamalKeys) (a b : ℤ × ℤ) : ℤ × ℤ := (a.1 * b.1 % k.p, a.2 * b.2 % k.p)

/-- `dot_product_enc` on a loaded query: first halves in the cells below `size`, second
halves from `size` on. -/
def dotProductEnc (k : ElGamalKeys) (size : ℕ) (q d : Vec) : ℤ × ℤ :=
  elgamalHadd k (1, 1)
    (spowmBlock size q d k.p, spowmBlock size (fun i => q (size + i)) d k.p)

/-- `elgamal_dec`. -/
def elgamalDec (k : ElGamalKeys) (c : ℤ × ℤ) : ℤ :=
  let plain := powm c.1 k.r k.p
  mpzInvert plain plain k.p * c.2 % k.p

/-- The prover's commitment answer to the two query files. -/
def commitmentAnswer (k : ElGamalKeys) (q : Qap) (file1 file2 : List ℤ) (f1 f2 : Vec) : ℤ × ℤ :=
  elgamalHadd k (dotProductEnc k q.sizeF1Vec (loadVector file1 zeroVec) f1)
    (dotProductEnc k q.sizeF2Vec (loadVector file2 zeroVec) f2)

/-- `consistency_test`. -/
def consistencyTest (k : ElGamalKeys) (size : ℕ) (conAnswer comAnswer : ℤ)
    (answers conCoins : Vec) : Bool :=
  let temp1 := conAnswer - forLoop size (fun i acc => acc + conCoins i * answers i) 0
  if 0 ≤ temp1 ∧ temp1 < k.order then powm k.g temp1 k.p == comAnswer else false

/-! ## Decryption of the answer -/

section Decryption

variable (k : ElGamalKeys)

theorem cast_powm {n : ℕ} (base exp : ℤ) :
    (powm base exp n : ZMod n) = (base : ZMod n) ^ exp.toNat := by
  rw [powm, ZMod.intCast_mod, Int.cast_pow]

theorem cast_spowmBlock {n : ℕ} [Fact n.Prime] (size : ℕ) (bases exps : Vec) :
    (spowmBlock size bases exps n : ZMod n) =
      ∏ i ∈ Finset.range size, (bases i : ZMod n) ^ (exps i).toNat := by
  rw [spowmBlock, cast_forLoop_prod, ZMod.intCast_mod, Int.cast_one, one_mul]
  apply Finset.prod_congr rfl
  intro i _
  exact cast_powm (bases i) (exps i)

/-- A pair of which the second half is `g ^ m` times the first half to the private key. -/
def Encrypts (m : ℕ) (c : ℤ × ℤ) : Prop :=
  (c.1 : ZMod k.p) ≠ 0 ∧
    (c.2 : ZMod k.p) = (c.1 : ZMod k.p) ^ k.r.toNat * (k.g : ZMod k.p) ^ m

theorem elgamalEncWithRand_encrypts (plain r : ℤ) :
    Encrypts k plain.toNat (elgamalEncWithRand k plain r) := by
  have : Fact k.p.Prime := ⟨k.p_prime⟩
  have hg := k.g_invertible
  constructor
  · simp only [elgamalEncWithRand, cast_powm]
    exact pow_ne_zero _ hg
  · simp only [elgamalEncWithRand, ElGamalKeys.gr, ZMod.intCast_mod, Int.cast_mul, cast_powm]
    rw [← pow_mul, ← pow_mul, mul_comm k.r.toNat]

theorem Encrypts.hadd {m m' : ℕ} {c c' : ℤ × ℤ} (h : Encrypts k m c) (h' : Encrypts k m' c') :
    Encrypts k (m + m') (elgamalHadd k c c') := by
  have : Fact k.p.Prime := ⟨k.p_prime⟩
  constructor
  · simp only [elgamalHadd, ZMod.intCast_mod, Int.cast_mul]
    exact mul_ne_zero h.1 h'.1
  · simp only [elgamalHadd, ZMod.intCast_mod, Int.cast_mul, h.2, h'.2]
    rw [mul_pow, pow_add]
    ring

/-- Powers of ciphertexts multiply to a ciphertext of the inner product. -/
theorem spowmBlock_encrypts (size : ℕ) (q q' d plain : Vec)
    (hq : ∀ i < size, Encrypts k (plain i).toNat (q i, q' i)) :
    Encrypts k (∑ i ∈ Finset.range size, (plain i).toNat * (d i).toNat)
      (spowmBlock size q d k.p, spowmBlock size q' d k.p) := by
  have : Fact k.p.Prime := ⟨k.p_prime⟩
  constructor
  · rw [cast_spowmBlock]
    apply Finset.prod_ne_zero_iff.2
    intro i hi
    exact pow_ne_zero _ (hq i (Finset.mem_range.1 hi)).1
  · rw [cast_spowmBlock, cast_spowmBlock, ← Finset.prod_pow, ← Finset.prod_pow_eq_pow_sum,
      ← Finset.prod_mul_distrib]
    apply Finset.prod_congr rfl
    intro i hi
    rw [(hq i (Finset.mem_range.1 hi)).2, mul_pow, ← pow_mul, ← pow_mul, ← pow_mul,
      mul_comm k.r.toNat]

theorem one_encrypts : Encrypts k 0 (1, 1) := by
  have : Fact k.p.Prime := ⟨k.p_prime⟩
  constructor
  · simp
  · simp

/-- The answer to a loaded query encrypts the inner product. -/
theorem dotProductEnc_encrypts (size : ℕ) (q d plain : Vec)
    (hq : ∀ i < size, Encrypts k (plain i).toNat (q i, q (size + i))) :
    Encrypts k (∑ i ∈ Finset.range size, (plain i).toNat * (d i).toNat)
      (dotProductEnc k size q d) := by
  have hblock := spowmBlock_encrypts k size q (fun i => q (size + i)) d plain hq
  have hhadd := (one_encrypts k).hadd k hblock
  rwa [zero_add] at hhadd

theorem elgamalDec_eq {m : ℕ} {c : ℤ × ℤ} (h : Encrypts k m c) :
    elgamalDec k c = powm k.g m k.p := by
  have : Fact k.p.Prime := ⟨k.p_prime⟩
  have hpow : ((powm c.1 k.r k.p : ℤ) : ZMod k.p) ≠ 0 := by
    rw [cast_powm]
    exact pow_ne_zero _ h.1
  show mpzInvert (powm c.1 k.r k.p) (powm c.1 k.r k.p) k.p * c.2 % (k.p : ℤ) =
    k.g ^ ((m : ℤ)).toNat % (k.p : ℤ)
  rw [emod_eq_emod_iff, Int.cast_mul, cast_mpzInvert _ _ hpow, cast_powm, h.2,
    Int.cast_pow, Int.toNat_natCast, ← mul_assoc, inv_mul_cancel₀ (pow_ne_zero _ h.1), one_mul]

end Decryption

/-! ## Query files -/

theorem elgamalEncVec_apply (k : ElGamalKeys) (privBits size : ℕ) (crypto : Crypto P)
    (cipher plain : Vec) {i : ℕ} (hi : i < size) :
    Encrypts k (plain i).toNat
      ((elgamalEncVec k privBits size crypto cipher plain).2 (2 * i),
        (elgamalEncVec k privBits size crypto cipher plain).2 (2 * i + 1)) := by
  rw [elgamalEncVec]
  refine forLoop_induction
    (P := fun n (c : Vec) => ∀ j < n, Encrypts k (plain j).toNat (c (2 * j), c (2 * j + 1)))
    (n := size) ?_ ?_ i hi
  · intro j hj
    exact absurd hj (Nat.not_lt_zero j)
  · intro n _ c hc j hj
    by_cases hjn : j = n
    · subst hjn
      rw [Function.update_self, Function.update_of_ne (by omega), Function.update_self]
      exact elgamalEncWithRand_encrypts k _ _
    · rw [Function.update_of_ne (by omega), Function.update_of_ne (by omega),
        Function.update_of_ne (by omega), Function.update_of_ne (by omega)]
      exact hc j (by omega)

theorem dumpVectorInterleaved_getD (size : ℕ) (q : Vec) (d : ℤ) {i : ℕ} (hi : i < size) :
    (dumpVectorInterleaved (2 * size) q).getD i d = q (2 * i) ∧
      (dumpVectorInterleaved (2 * size) q).getD (size + i) d = q (2 * i + 1) := by
  have hhalf : 2 * size / 2 = size := by omega
  rw [dumpVectorInterleaved, hhalf]
  constructor
  · rw [List.getD_eq_getElem?_getD, List.getElem?_append_left (by simpa using hi)]
    simp [hi]
  · rw [List.getD_eq_getElem?_getD, List.getElem?_append_right (by simp)]
    simp [hi]

/-- The plain random vector has no negative cell. -/
theorem createCommitmentQuery_conQ_nonneg (k : ElGamalKeys) (privBits size : ℕ) {prime : ℤ}
    (hprime : 0 < prime) (crypto : Crypto P) (i : ℕ) :
    0 ≤ (createCommitmentQuery k privBits size prime crypto).conQ i := by
  rw [createCommitmentQuery]
  refine forLoop_induction (P := fun _ (s : Crypto P × Vec) => ∀ j, 0 ≤ s.2 j) ?_ ?_ i
  · exact fun _ => le_rfl
  · intro n _ s hs j
    show 0 ≤ Function.update s.2 n (s.1.getRandomPriv prime).1 j
    by_cases hjn : j = n
    · rw [hjn, Function.update_self]
      exact (P.getRandom_range s.1.priv prime hprime).1
    · rw [Function.update_of_ne hjn]
      exact hs j

theorem createCommitmentQuery_pub (k : ElGamalKeys) (privBits size : ℕ) (prime : ℤ)
    (crypto : Crypto P) :
    (createCommitmentQuery k privBits size prime crypto).crypto.pub = crypto.pub := by
  rw [createCommitmentQuery, elgamalEncVec]
  refine Eq.trans (forLoop_frame (fun s : Crypto P × Vec => s.1.pub) ?_) ?_
  · intro i _ s
    rfl
  · refine forLoop_frame (fun s : Crypto P × Vec => s.1.pub) ?_
    intro i _ s
    rfl

/-- The prover's answer to one commitment query encrypts the inner product. -/
theorem dotProductEnc_commitment (k : ElGamalKeys) (privBits size : ℕ) (prime : ℤ)
    (crypto : Crypto P) (d : Vec) :
    Encrypts k
      (∑ i ∈ Finset.range size,
        ((createCommitmentQuery k privBits size prime crypto).conQ i).toNat * (d i).toNat)
      (dotProductEnc k size
        (loadVector
          (dumpVectorInterleaved (2 * size)
            (createCommitmentQuery k privBits size prime crypto).rQ) zeroVec) d) := by
  apply dotProductEnc_encrypts
  intro i hi
  have hcells := fun c => dumpVectorInterleaved_getD size
    (createCommitmentQuery k privBits size prime crypto).rQ c hi
  rw [loadVector, loadVector, (hcells _).1, (hcells _).2, createCommitmentQuery]
  exact elgamalEncVec_apply k privBits size _ _ _ hi

end Pepper.Libv.Commitment
