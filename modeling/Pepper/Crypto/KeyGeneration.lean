import Pepper.Crypto.RandomBytes
import Mathlib.FieldTheory.Finite.Basic

/-!
# Generation of the ElGamal parameters

`generate_elgamal_crypto_keys` draws primes `q` until `p = 2 * q + 1` is accepted, squares a random
number for the generator `g`, and draws the exponent `r`. The loop goes on while `p` has the wrong
length and passes the primality test, so it ends at the first prime `q` for which `p` has the right
length or fails the test.

`generate_safe_prime_iff` states that the parameters are those of a safe-prime group exactly when
the first draw at which the loop ends gives a `p` with both properties. The primality test
`mpz_probab_prime_p` is a parameter; that it is exact is used only for the order of `g`.
-/

set_option autoImplicit false

namespace Pepper.Crypto.KeyGeneration

open Pepper.Crypto.RandomBytes

/-! ## The code -/

/-- The parameters in `Crypto`. -/
structure ElGamalParameters where
  p : ℕ
  q : ℕ
  g : ℕ
  r : ℕ
  gr : ℕ
  deriving DecidableEq, Repr

/-- `mpz_powm` for an exponent that is not negative. -/
def powm (base exp mod : ℕ) : ℕ := base ^ exp % mod

section Generation

variable (keystream : ℕ → Byte) (probab_prime : ℕ → Bool)

/-- `find_prime`, with at most `fuel` draws. -/
def find_prime (nbits : ℕ) : ℕ → Prng → Option (Prng × ℕ)
  | 0, _ => none
  | fuel + 1, s =>
      let draw := chacha_urandomb keystream s nbits
      if probab_prime draw.2 = false then find_prime nbits fuel draw.1 else some draw

/-- The loop that selects `q`, with at most `fuel` passes. -/
def selectPrime (public_key_mod_bits fuelPrime : ℕ) : ℕ → Prng → Option (Prng × ℕ)
  | 0, _ => none
  | fuel + 1, s =>
      match find_prime keystream probab_prime (public_key_mod_bits - 1) fuelPrime s with
      | none => none
      | some (s, q) =>
          let p := q * 2 + 1
          if sizeInBase2 p ≠ public_key_mod_bits ∧ probab_prime p = true then
            selectPrime public_key_mod_bits fuelPrime fuel s
          else some (s, q)

/-- `elgamal_precompute`. -/
def elgamal_precompute (k : ElGamalParameters) : ElGamalParameters :=
  { k with gr := powm k.g k.r k.p, q := (k.p - 1) / 2 }

/-- `generate_elgamal_crypto_keys`; the three bounds are on the draws of `find_prime`, the passes
of the selection loop and the draws of `get_random`. -/
def generate_elgamal_crypto_keys (public_key_mod_bits elgamal_priv_rand_bits : ℕ)
    (fuelPrime fuel fuelRandom : ℕ) (s : Prng) : Option ElGamalParameters :=
  match selectPrime keystream probab_prime public_key_mod_bits fuelPrime fuel s with
  | none => none
  | some (s, q) =>
      let p := q * 2 + 1
      match chacha_urandom keystream fuelRandom s (p - 1) with
      | none => none
      | some (s, drawn, _) =>
          let g := drawn * drawn % p
          let r := (chacha_urandomb keystream s elgamal_priv_rand_bits).2
          some (elgamal_precompute ⟨p, q, g, r, 0⟩)

end Generation

/-! ## A safe-prime group -/

/-- What the parameters are for: `p` and `q` are primes of a safe-prime group with `p` of full
length, and `g` is the square of the number `drawn`. With an exact test and a number that is not
`0` mod `p`, `g` is in the subgroup of order `q` and `elgamal_dec` can invert `c1 ^ r` for every
`c1` of that subgroup. -/
structure SafePrimeGroup (probab_prime : ℕ → Bool) (public_key_mod_bits : ℕ)
    (k : ElGamalParameters) (drawn : ℕ) : Prop where
  modulus : k.p = 2 * k.q + 1
  length : sizeInBase2 k.p = public_key_mod_bits
  q_passed : probab_prime k.q = true
  p_passed : probab_prime k.p = true
  square : k.g = drawn ^ 2 % k.p
  order : (∀ n, probab_prime n = true ↔ n.Prime) → ¬ k.p ∣ drawn →
    powm k.g k.q k.p = 1 ∧ k.q = (k.p - 1) / 2 ∧
      ∀ e, Nat.Coprime (powm (powm k.g e k.p) k.r k.p) k.p

/-- The draw ends the selection: it passes the test, and `2 * q + 1` has the right length or
fails the test. -/
def Ends (probab_prime : ℕ → Bool) (public_key_mod_bits q : ℕ) : Prop :=
  probab_prime q = true ∧
    (sizeInBase2 (2 * q + 1) = public_key_mod_bits ∨ probab_prime (2 * q + 1) = false)

/-- The draw is right: it passes the test, and `2 * q + 1` has the right length and passes. -/
def Right (probab_prime : ℕ → Bool) (public_key_mod_bits q : ℕ) : Prop :=
  probab_prime q = true ∧ sizeInBase2 (2 * q + 1) = public_key_mod_bits ∧
    probab_prime (2 * q + 1) = true

/-- Draw number `k` of `nbits` bits from the state `s` on. -/
def candidate (keystream : ℕ → Byte) (nbits : ℕ) (s : Prng) (k : ℕ) : ℕ :=
  (chacha_urandomb keystream (afterDraws keystream nbits k s) nbits).2

section Search

variable {keystream : ℕ → Byte} {probab_prime : ℕ → Bool} {bits : ℕ}

theorem Right.ends {q : ℕ} (h : Right probab_prime bits q) : Ends probab_prime bits q :=
  ⟨h.1, Or.inl h.2.1⟩

theorem not_ends_of_rejected {q : ℕ} (h : probab_prime q = false) :
    ¬ Ends probab_prime bits q := by
  rintro ⟨hpass, -⟩
  rw [h] at hpass
  cases hpass

theorem afterDraws_add (nbits j k : ℕ) (s : Prng) :
    afterDraws keystream nbits (j + k) s =
      afterDraws keystream nbits k (afterDraws keystream nbits j s) := by
  induction j generalizing s with
  | zero => rw [Nat.zero_add]; rfl
  | succ j ih =>
      rw [Nat.succ_add]
      exact ih _

theorem candidate_afterDraws (nbits j k : ℕ) (s : Prng) :
    candidate keystream nbits (afterDraws keystream nbits j s) k =
      candidate keystream nbits s (j + k) := by
  rw [candidate, candidate, afterDraws_add]

/-- `find_prime` returns the first draw that passes the test. -/
theorem find_prime_spec {nbits fuel q : ℕ} {s s' : Prng}
    (h : find_prime keystream probab_prime nbits fuel s = some (s', q)) :
    ∃ k, (∀ j < k, probab_prime (candidate keystream nbits s j) = false) ∧
      probab_prime q = true ∧ q = candidate keystream nbits s k ∧
      s' = afterDraws keystream nbits (k + 1) s := by
  induction fuel generalizing s with
  | zero => cases h
  | succ fuel ih =>
      rw [find_prime] at h
      split at h
      · next hreject =>
          obtain ⟨k, hbefore, hpass, hq, hs'⟩ := ih h
          refine ⟨k + 1, ?_, hpass, hq, hs'⟩
          intro j hj
          cases j with
          | zero => exact hreject
          | succ j => exact hbefore j (Nat.lt_of_succ_lt_succ hj)
      · next hpass =>
          cases h
          exact ⟨0, fun j hj => absurd hj (Nat.not_lt_zero j), Bool.not_eq_false _ ▸ hpass, rfl, rfl⟩

/-- The selection returns the first draw that ends it, and the generator behind that draw. -/
theorem selectPrime_spec {fuelPrime fuel q : ℕ} {s s' : Prng}
    (h : selectPrime keystream probab_prime bits fuelPrime fuel s = some (s', q)) :
    ∃ k, (∀ j < k, ¬ Ends probab_prime bits (candidate keystream (bits - 1) s j)) ∧
      Ends probab_prime bits q ∧ q = candidate keystream (bits - 1) s k ∧
      s' = afterDraws keystream (bits - 1) (k + 1) s := by
  induction fuel generalizing s with
  | zero => cases h
  | succ fuel ih =>
      rw [selectPrime] at h
      cases hfind : find_prime keystream probab_prime (bits - 1) fuelPrime s with
      | none => simp [hfind] at h
      | some r =>
          obtain ⟨t, q₀⟩ := r
          obtain ⟨k, hbefore, hpass, hq₀, ht⟩ := find_prime_spec hfind
          simp only [hfind, Nat.mul_comm q₀ 2] at h
          split at h
          · next hgoOn =>
              -- the pass goes on: the draws up to `k` do not end the loop
              obtain ⟨k', hbefore', hends, hq, hs'⟩ := ih h
              rw [ht, candidate_afterDraws] at hq
              rw [ht, ← afterDraws_add] at hs'
              refine ⟨k + 1 + k', ?_, hends, hq, hs'⟩
              intro j hj
              rcases lt_trichotomy j k with hlt | rfl | hgt
              · exact not_ends_of_rejected (hbefore j hlt)
              · rw [← hq₀]
                rintro ⟨-, hlength | hfail⟩
                · exact hgoOn.1 hlength
                · rw [hgoOn.2] at hfail
                  cases hfail
              · obtain ⟨i, rfl⟩ := Nat.exists_eq_add_of_lt hgt
                have hi := hbefore' i (by omega)
                rw [ht, candidate_afterDraws] at hi
                rwa [Nat.add_right_comm]
          · next hstop =>
              cases h
              refine ⟨k, ?_, ⟨hpass, ?_⟩, hq₀, ht⟩
              · exact fun j hj => not_ends_of_rejected (hbefore j hj)
              · by_cases hlength : sizeInBase2 (2 * q + 1) = bits
                · exact Or.inl hlength
                · exact Or.inr (Bool.eq_false_iff.2 fun htrue => hstop ⟨hlength, htrue⟩)

end Search

/-! ## The order of the generator -/

/-- A square that is not zero modulo a prime `2 * q + 1` has order dividing `q`. -/
theorem square_pow_eq_one {p q x : ℕ} (hp : p.Prime) (hpq : p = 2 * q + 1) (hx : ¬ p ∣ x) :
    (x ^ 2 % p) ^ q % p = 1 := by
  have hcop : Nat.Coprime x p := (hp.coprime_iff_not_dvd.2 hx).symm
  have hfermat := Nat.ModEq.pow_totient hcop
  rw [Nat.totient_prime hp, hpq, Nat.add_sub_cancel, pow_mul, ← hpq] at hfermat
  rw [← Nat.pow_mod]
  exact Eq.trans hfermat (Nat.mod_eq_of_lt hp.one_lt)

theorem coprime_powm {p a : ℕ} (ha : Nat.Coprime a p) (e : ℕ) :
    Nat.Coprime (powm a e p) p := by
  have hpow : Nat.Coprime (a ^ e) p := Nat.Coprime.pow_left e ha
  rw [powm, Nat.Coprime, ← Nat.gcd_rec, Nat.gcd_comm]
  exact hpow

/-! ## The generated parameters -/

section Generated

variable {keystream : ℕ → Byte} {probab_prime : ℕ → Bool} {bits privBits : ℕ}

/-- What the returned parameters are, whatever ended the selection: `g` is the square of a draw
below `p - 1`, and `r` the draw behind it. -/
theorem generate_spec {fuelPrime fuel fuelRandom : ℕ} {s : Prng} {k : ElGamalParameters}
    (h : generate_elgamal_crypto_keys keystream probab_prime bits privBits fuelPrime fuel
      fuelRandom s = some k) :
    ∃ s' t drawn draws, selectPrime keystream probab_prime bits fuelPrime fuel s = some (s', k.q) ∧
      chacha_urandom keystream fuelRandom s' (k.p - 1) = some (t, drawn, draws) ∧
      k.p = 2 * k.q + 1 ∧ k.g = drawn ^ 2 % k.p ∧
      k.r = (chacha_urandomb keystream t privBits).2 ∧ k.gr = powm k.g k.r k.p := by
  rw [generate_elgamal_crypto_keys] at h
  cases hselect : selectPrime keystream probab_prime bits fuelPrime fuel s with
  | none => simp [hselect] at h
  | some result =>
      obtain ⟨s', q⟩ := result
      simp only [hselect] at h
      split at h
      · cases h
      · next t drawn draws hdraw =>
          cases h
          have hq : (q * 2 + 1 - 1) / 2 = q := by
            rw [Nat.add_sub_cancel, Nat.mul_div_cancel q Nat.two_pos]
          refine ⟨s', t, drawn, draws, ?_, hdraw, ?_, ?_, rfl, rfl⟩
          · simp only [elgamal_precompute, hq]
          · simp only [elgamal_precompute, hq, Nat.mul_comm]
          · simp only [elgamal_precompute, pow_two]

/-- With the right `p` and `q` the parameters are those of a safe-prime group. -/
theorem safePrimeGroup_of_right {k : ElGamalParameters} {drawn : ℕ} (hp : k.p = 2 * k.q + 1)
    (hg : k.g = drawn ^ 2 % k.p) (h : Right probab_prime bits k.q) :
    SafePrimeGroup probab_prime bits k drawn where
  modulus := hp
  length := hp ▸ h.2.1
  q_passed := h.1
  p_passed := hp ▸ h.2.2
  square := hg
  order := by
    intro hexact hdrawn
    have hprime : k.p.Prime := (hexact k.p).1 (hp ▸ h.2.2)
    have hcop : Nat.Coprime drawn k.p := (hprime.coprime_iff_not_dvd.2 hdrawn).symm
    have hgcop : Nat.Coprime k.g k.p := by
      rw [hg]
      exact coprime_powm hcop 2
    refine ⟨?_, ?_, ?_⟩
    · rw [powm, hg]
      exact square_pow_eq_one hprime hp hdrawn
    · rw [hp, Nat.add_sub_cancel, Nat.mul_div_cancel_left k.q Nat.two_pos]
    · exact fun e => coprime_powm (coprime_powm hgcop e) k.r

end Generated

/-- On every stream on which the generation returns: with the number that `get_random` draws below
`p - 1` behind the draws of the primes, and `r` the next draw, the parameters are those of a
safe-prime group exactly when the first draw that ends the selection is right. -/
theorem generate_safe_prime_iff (keystream : ℕ → Byte) (probab_prime : ℕ → Bool)
    (bits privBits fuelPrime fuel fuelRandom : ℕ) (s : Prng) (k : ElGamalParameters)
    (hreturns : generate_elgamal_crypto_keys keystream probab_prime bits privBits fuelPrime fuel
      fuelRandom s = some k) :
    ∃ i t drawn draws,
      (∀ j < i, ¬ Ends probab_prime bits (candidate keystream (bits - 1) s j)) ∧
      Ends probab_prime bits (candidate keystream (bits - 1) s i) ∧
      chacha_urandom keystream fuelRandom (afterDraws keystream (bits - 1) (i + 1) s) (k.p - 1) =
        some (t, drawn, draws) ∧
      k.r = (chacha_urandomb keystream t privBits).2 ∧ k.gr = powm k.g k.r k.p ∧
      (SafePrimeGroup probab_prime bits k drawn ↔
        Right probab_prime bits (candidate keystream (bits - 1) s i)) := by
  obtain ⟨s', t, drawn, draws, hselect, hdraw, hp, hg, hr, hgr⟩ := generate_spec hreturns
  obtain ⟨i, hbefore, hends, hq, rfl⟩ := selectPrime_spec hselect
  refine ⟨i, t, drawn, draws, hbefore, hq ▸ hends, hdraw, hr, hgr, ?_⟩
  rw [← hq]
  constructor
  · intro hgroup
    exact ⟨hgroup.q_passed, hp ▸ hgroup.length, hp ▸ hgroup.p_passed⟩
  · exact safePrimeGroup_of_right hp hg

/-- A stream that starts with `101`: `q = 5` and `p = 11`, and `5` is drawn for `g = 3`. -/
theorem generate_safe_prime_iff_eleven :
    let keystream : ℕ → Byte := fun n => if n = 0 then 0xA0#8 else 0x50#8
    generate_elgamal_crypto_keys keystream (fun n => decide n.Prime) 4 4 1 1 1
        (init_chacha_png keystream) = some ⟨11, 5, 3, 5, 1⟩ ∧
      SafePrimeGroup (fun n => decide n.Prime) 4 ⟨11, 5, 3, 5, 1⟩ 5 := by
  intro keystream
  have hreturns : generate_elgamal_crypto_keys keystream (fun n => decide n.Prime) 4 4 1 1 1
      (init_chacha_png keystream) = some ⟨11, 5, 3, 5, 1⟩ := by decide +kernel
  obtain ⟨i, t, drawn, draws, hbefore, -, hdraw, -, -, hiff⟩ :=
    generate_safe_prime_iff keystream (fun n => decide n.Prime) 4 4 1 1 1
      (init_chacha_png keystream) ⟨11, 5, 3, 5, 1⟩ hreturns
  -- the first draw is 5, which ends the selection
  have hfirst : candidate keystream 3 (init_chacha_png keystream) 0 = 5 := by decide +kernel
  have hright : Right (fun n => decide n.Prime) 4 5 := by unfold Right; decide
  obtain rfl : i = 0 := by
    by_contra hne
    exact hbefore 0 (Nat.pos_of_ne_zero hne) (hfirst ▸ hright.ends)
  have hdrawn : (chacha_urandom keystream 1 (afterDraws keystream (4 - 1) (0 + 1)
      (init_chacha_png keystream)) (11 - 1)).map (fun d => d.2.1) = some 5 := by decide +kernel
  obtain rfl : drawn = 5 := Option.some.inj ((congrArg _ hdraw).symm.trans hdrawn)
  exact ⟨hreturns, hiff.2 (hfirst ▸ hright)⟩

/-- A stream of bytes `0xE0` and one more byte: the first draw is `q = 7`, and `p = 15` has the
right length and is composite. -/
theorem generate_accepts_fifteen :
    (generate_elgamal_crypto_keys (fun n => if n = 0 then 0xE0#8 else 0x50#8)
        (fun n => decide n.Prime) 4 4 1 1 1
        (init_chacha_png fun n => if n = 0 then 0xE0#8 else 0x50#8)).map ElGamalParameters.p =
      some 15 ∧
      ∀ (k : ElGamalParameters) (drawn : ℕ), k.p = 15 →
        ¬ SafePrimeGroup (fun n => decide n.Prime) 4 k drawn := by
  refine ⟨by decide +kernel, fun k drawn hk hgroup => ?_⟩
  have hpassed := hgroup.p_passed
  rw [hk] at hpassed
  revert hpassed
  decide

end Pepper.Crypto.KeyGeneration
