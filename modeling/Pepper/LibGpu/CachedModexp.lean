import Pepper.LibGpu.MontMemory
import Pepper.Crypto.PowmCache

/-!
# Exponentiation from a table

`mp_montgomerize_cpu` brings the entries of a `PowmCache` into Montgomery form, one after the other
and in place. `mp_modexp_cached_cpu` walks over the windows of an exponent from the low end, moves
its pointer to the next chunk of the table after each of them, and multiplies by an entry of the
chunk where the window is not zero. After `c` windows the result is the power to the low `w * c`
bits (`CachedProgress`).
-/

set_option autoImplicit false

namespace Pepper.LibGpu.CachedModexp

open Pepper.Foundations.Loop (block_le block_lt)
open Pepper.Foundations.CarrySave
open Pepper.LibGpu.MontWords
open Pepper.LibGpu.MontMemory
open Pepper.Common.Gmp
open Pepper.Crypto

/-! ## The code -/

section Code

variable (W : ℕ) (wrap : ℕ → ℕ) (fuel S junk : ℕ)

/-- `mp_montgomerize_cpu`, with its array `tmp`. -/
def mp_montgomerize_cpu (tmp ret a r_sq : ℕ) (n np mem : ℕ → ℕ) : Option (ℕ → ℕ) :=
  mp_montmul_cpu W wrap fuel S junk (copy S tmp a mem) ret tmp r_sq n np

/-- `mp_montgomerize_cpu_nocopy`. -/
def mp_montgomerize_cpu_nocopy (len_vector tmp ret a r_sq : ℕ) (n np mem : ℕ → ℕ) :
    Option (ℕ → ℕ) :=
  (List.range len_vector).foldlM
    (fun mem i =>
      mp_montgomerize_cpu W wrap fuel S junk tmp (ret + i * S) (a + i * S) r_sq n np mem)
    mem

/-- The macro `WINDOW`. -/
def WINDOW (w word n : ℕ) : ℕ := word / 2 ^ (w * n) % 2 ^ w

/-- Window `j` of word `i`; the state is the memory and the pointer into the table. -/
def cachedWindow (w tmp ret exp : ℕ) (n np : ℕ → ℕ) (i : ℕ) (s : (ℕ → ℕ) × ℕ) (j : ℕ) :
    Option ((ℕ → ℕ) × ℕ) :=
  let window := WINDOW w (s.1 (exp + i)) j
  (if 0 < window then
      mp_montmul_cpu W wrap fuel S junk (copy S tmp (s.2 + (window - 1) * S) s.1) ret ret tmp n np
    else some s.1).map fun mem => (mem, s.2 + (2 ^ w - 1) * S)

/-- `mp_modexp_cached_cpu`, with its array `tmp`. -/
def mp_modexp_cached_cpu (w tmp ret exp powm_cache r_sq : ℕ) (n np mem : ℕ → ℕ) :
    Option (ℕ → ℕ) :=
  (mp_montmul_cpu W wrap fuel S junk (make_one S tmp mem) ret tmp r_sq n np).bind fun mem =>
  ((List.range S).foldlM
    (fun s i =>
      (List.range (W / w)).foldlM (cachedWindow W wrap fuel S junk w tmp ret exp n np i) s)
    (mem, powm_cache)).bind fun s =>
  mp_montmul_cpu W wrap fuel S junk (make_one S tmp s.1) ret ret tmp n np

/-- `to_gpu_format`: fails where a number does not fit. -/
def to_gpu_format (data : ℕ) (array : Vec) (size : ℕ) (mem : ℕ → ℕ) : Option (ℕ → ℕ) :=
  (List.range size).foldlM
    (fun mem i =>
      if (array i).natAbs < 2 ^ (W * S) then
        some (writeWords S (data + i * S) (wordsOf W (array i).natAbs) mem)
      else none)
    mem

end Code

/-- The numbers `pp` and `nsq` that `init_crypto_state` passes as `np` and `r_sq`. -/
def init_crypto_state (bits : ℕ) (p : ℤ) : ℤ × ℤ :=
  let n : ℤ := 2 ^ bits
  let pp := mpzInvert 0 n p
  ((pp * n - 1).tdiv p, n * n % p)

/-- `create_cache`: the table of `base` from `cache` on, in Montgomery form. -/
def create_cache (W : ℕ) (wrap : ℕ → ℕ) (fuel S junk w tmp cache nsq_host : ℕ) (base p : ℤ)
    (p_host pp_host mem : ℕ → ℕ) : Option (ℕ → ℕ) :=
  let c := PowmCache.new base p (W * S) w
  (to_gpu_format W S cache c.cache c.cacheSize mem).bind
    (mp_montgomerize_cpu_nocopy W wrap fuel S junk c.cacheSize tmp cache cache nsq_host
      p_host pp_host)

/-! ## Windows -/

/-- Window `j` of word `i` is a window of the number. -/
theorem WINDOW_eq {W w i j e : ℕ} (hw : w * j + w ≤ W) :
    WINDOW w (e / (2 ^ W) ^ i % 2 ^ W) j = e / 2 ^ (W * i + w * j) % 2 ^ w :=
  digit_window hw

/-- A power by one window more. -/
theorem pow_window {M : Type*} [Monoid M] (b : M) (e w c : ℕ) :
    b ^ (e % 2 ^ (w * (c + 1))) =
      b ^ (e % 2 ^ (w * c)) * b ^ (e / 2 ^ (w * c) % 2 ^ w * 2 ^ (w * c)) := by
  rw [Nat.mul_succ, pow_add, Nat.mod_mul, ← pow_add, Nat.mul_comm (2 ^ (w * c))]

/-! ## Montgomery form of the table -/

section Montgomerize

variable {W : ℕ} {wrap : ℕ → ℕ} {fuel S junk : ℕ} {n np : ℕ → ℕ} {N : ℕ} {mem : ℕ → ℕ}
  {tmp tab r_sq square : ℕ}

/-- After `i` entries: these are in the form, the others are as they were. -/
structure Montgomerized (W S N size tab tmp : ℕ) (A : ℕ → ℕ) (mem : ℕ → ℕ) (i : ℕ)
    (mem' : ℕ → ℕ) : Prop where
  words : ∀ k, mem' k < 2 ^ W
  form : ∀ t < i, HoldsForm W S N mem' (tab + t * S) (A t : ZMod N)
  rest : ∀ t, i ≤ t → t < size → HoldsNumber W S mem' (tab + t * S) (A t)
  same : ∀ k, ¬ (tab ≤ k ∧ k < tab + size * S) → ¬ (tmp ≤ k ∧ k < tmp + S) → mem' k = mem k

theorem entry_apart {t t' : ℕ} (h : t ≠ t') : Apart (tab + t * S) S (tab + t' * S) S := by
  rcases Nat.lt_or_gt_of_ne h with hlt | hgt
  · have := block_le hlt S
    exact Or.inl (by omega)
  · have := block_le hgt S
    exact Or.inr (by omega)

/-- One entry after the other enters the form in its place. -/
theorem mp_montgomerize_spec (h : MontContext W wrap fuel S junk n np N) {size : ℕ} {A : ℕ → ℕ}
    (hmem : ∀ k, mem k < 2 ^ W) (htab : ∀ t < size, HoldsNumber W S mem (tab + t * S) (A t))
    (hsquare : HoldsNumber W S mem r_sq square) (hlt : square < N)
    (hsq : (square : ZMod N) = 2 ^ (W * S) * 2 ^ (W * S)) (htmptab : Apart tmp S tab (size * S))
    (htmpsq : Apart tmp S r_sq S) (htabsq : Apart r_sq S tab (size * S)) :
    ∃ mem', mp_montgomerize_cpu_nocopy W wrap fuel S junk size tmp tab tab r_sq n np mem =
        some mem' ∧ Montgomerized W S N size tab tmp A mem size mem' := by
  refine foldlM_range_spec (P := Montgomerized W S N size tab tmp A mem) ?_ ?_
  · exact ⟨hmem, fun t ht => absurd ht (Nat.not_lt_zero t), fun t _ ht => htab t ht,
      fun _ _ _ => rfl⟩
  · intro i hi mem₁ h₁
    -- entry `i` is copied to the scratch block and multiplied back into its place
    have hblock : i * S + S ≤ size * S := block_le hi S
    obtain ⟨hcopied, hcopysame⟩ :=
      holdsNumber_copy (p := tmp) (h₁.rest i le_rfl hi) (htmptab.sub hblock)
    have hcopywords := copy_lt h₁.words (htmptab.sub hblock)
    have hsq₁ : HoldsNumber W S (copy S tmp (tab + i * S) mem₁) r_sq square := by
      refine holdsNumber_frame ?_ hcopysame htmpsq
      -- the square of the radix is in neither of the blocks that were written
      have hsame : ∀ k < S, mem₁ (r_sq + k) = mem (r_sq + k) := by
        intro k hk
        refine h₁.same _ ?_ ?_
        · rcases htabsq with hle | hle <;> omega
        · rcases htmpsq with hle | hle <;> omega
      exact holdsNumber_of_words hsquare hsame
    obtain ⟨mem₂, hrun, hwords, hsame, hform⟩ :=
      montmul_enter h hcopywords hcopied hsq₁ hlt hsq (tab + i * S)
    refine ⟨mem₂, hrun, hwords, fun t ht => ?_, fun t ht ht' => ?_, fun k hk hk' => ?_⟩
    · -- an entry that is done is apart from entry `i` and from the scratch block
      rcases Nat.lt_succ_iff_lt_or_eq.1 ht with hlt' | rfl
      · refine HoldsForm.frame ?_ hsame (entry_apart hlt'.ne')
        exact (h₁.form t hlt').frame hcopysame (htmptab.sub (block_le (hlt'.trans hi) S))
      · exact hform
    · refine holdsNumber_frame ?_ hsame (entry_apart (Nat.ne_of_lt ht))
      exact holdsNumber_frame (h₁.rest t (Nat.le_of_succ_le ht) ht') hcopysame
        (htmptab.sub (block_le ht' S))
    · rw [hsame k (by omega), hcopysame k hk', h₁.same k hk hk']

end Montgomerize

/-! ## The walk over the windows -/

section Walk

variable {W : ℕ} {wrap : ℕ → ℕ} {fuel S junk : ℕ} {n np : ℕ → ℕ} {N : ℕ} {mem : ℕ → ℕ}
  {w tmp ret exp tab r_sq square e : ℕ} {b : ZMod N}

/-- What the walk is given: the exponent, the table of `b` in Montgomery form, the square that
brings a number into the form, and blocks that do not overlap. -/
structure CachedInput (W S w tmp ret exp tab r_sq N : ℕ) (b : ZMod N) (e : ℕ) (mem : ℕ → ℕ) :
    Prop where
  words : ∀ k, mem k < 2 ^ W
  window : w ∣ W
  exponent : HoldsNumber W S mem exp e
  table : ∀ chunk < S * (W / w), ∀ v, 1 ≤ v → v ≤ 2 ^ w - 1 →
    HoldsForm W S N mem (tab + (chunk * (2 ^ w - 1) + v - 1) * S) (b ^ (v * 2 ^ (w * chunk)))
  retTmp : Apart ret S tmp S
  retExp : Apart ret S exp S
  tmpExp : Apart tmp S exp S
  retTab : Apart ret S tab (S * (W / w) * (2 ^ w - 1) * S)
  tmpTab : Apart tmp S tab (S * (W / w) * (2 ^ w - 1) * S)

/-- After `c` windows: the power to the low `w * c` bits, and the pointer at chunk `c`. -/
structure CachedProgress (W S w tmp ret tab N : ℕ) (b : ZMod N) (e : ℕ) (mem : ℕ → ℕ) (c : ℕ)
    (s : (ℕ → ℕ) × ℕ) : Prop where
  words : ∀ k, s.1 k < 2 ^ W
  pointer : s.2 = tab + c * (2 ^ w - 1) * S
  power : HoldsForm W S N s.1 ret (b ^ (e % 2 ^ (w * c)))
  same : ∀ k, ¬ (ret ≤ k ∧ k < ret + S) → ¬ (tmp ≤ k ∧ k < tmp + S) → s.1 k = mem k

/-- A block that the walk does not write. -/
theorem holdsForm_of_same {mem' : ℕ → ℕ} {q : ℕ} {y : ZMod N} (h : HoldsForm W S N mem q y)
    (hret : Apart ret S q S) (htmp : Apart tmp S q S)
    (hsame : ∀ k, ¬ (ret ≤ k ∧ k < ret + S) → ¬ (tmp ≤ k ∧ k < tmp + S) → mem' k = mem k) :
    HoldsForm W S N mem' q y := by
  obtain ⟨u, hu, hform, hnumber⟩ := h
  have heq : ∀ i < S, mem' (q + i) = mem (q + i) := by
    intro i hi
    refine hsame _ ?_ ?_
    · rcases hret with hle | hle <;> omega
    · rcases htmp with hle | hle <;> omega
  exact ⟨u, hu, hform, holdsNumber_of_words hnumber heq⟩

/-- One window. -/
theorem cachedWindow_spec (h : MontContext W wrap fuel S junk n np N)
    (hinput : CachedInput W S w tmp ret exp tab r_sq N b e mem) {i j : ℕ} (hi : i < S)
    (hj : j < W / w) {s : (ℕ → ℕ) × ℕ}
    (hs : CachedProgress W S w tmp ret tab N b e mem (i * (W / w) + j) s) :
    ∃ s', cachedWindow W wrap fuel S junk w tmp ret exp n np i s j = some s' ∧
      CachedProgress W S w tmp ret tab N b e mem (i * (W / w) + j + 1) s' := by
  set c := i * (W / w) + j with hc
  have hchunk : c < S * (W / w) := block_lt hi hj
  have hmul : W / w * w = W := Nat.div_mul_cancel hinput.window
  have hoffset : W * i + w * j = w * c := by
    calc W * i + w * j = W / w * w * i + w * j := by rw [hmul]
      _ = w * c := by rw [hc]; ring
  have hfits : w * j + w ≤ W := by
    have hle : (j + 1) * w ≤ W / w * w := Nat.mul_le_mul_right _ hj
    rw [hmul, Nat.succ_mul, Nat.mul_comm j] at hle
    exact hle
  -- the window read from memory is window `c` of the exponent
  have hword : s.1 (exp + i) = e / (2 ^ W) ^ i % 2 ^ W := by
    rw [hs.same, ← hinput.exponent.2, value_div_mod hinput.exponent.1 hi]
    · rcases hinput.retExp with hle | hle <;> omega
    · rcases hinput.tmpExp with hle | hle <;> omega
  have hwindow : WINDOW w (s.1 (exp + i)) j = e / 2 ^ (w * c) % 2 ^ w := by
    rw [hword, WINDOW_eq hfits, hoffset]
  have hpointer : s.2 + (2 ^ w - 1) * S = tab + (c + 1) * (2 ^ w - 1) * S := by
    rw [hs.pointer]
    ring
  rw [cachedWindow, hwindow, hpointer]
  set v := e / 2 ^ (w * c) % 2 ^ w with hv
  have hpower := pow_window b e w c
  rw [← hv] at hpower
  rcases Nat.eq_zero_or_pos v with hzero | hpos
  · -- nothing is multiplied in
    rw [if_neg (by omega)]
    rw [hzero, Nat.zero_mul, pow_zero, mul_one] at hpower
    refine ⟨_, rfl, hs.words, rfl, ?_, hs.same⟩
    rw [hpower]
    exact hs.power
  · have hv' : v ≤ 2 ^ w - 1 := by
      have hlt : v < 2 ^ w := Nat.mod_lt _ (Nat.two_pow_pos w)
      omega
    have hindex : c * (2 ^ w - 1) + v - 1 < S * (W / w) * (2 ^ w - 1) := by
      have hle := block_le hchunk (2 ^ w - 1)
      omega
    have hsource : s.2 + (v - 1) * S = tab + (c * (2 ^ w - 1) + v - 1) * S := by
      have hsub : c * (2 ^ w - 1) + v - 1 = c * (2 ^ w - 1) + (v - 1) := Nat.add_sub_assoc hpos _
      rw [hsub, hs.pointer]
      ring
    have hretentry := hinput.retTab.sub (block_le hindex S)
    have htmpentry := hinput.tmpTab.sub (block_le hindex S)
    have hentry := holdsForm_of_same (hinput.table c hchunk v hpos hv') hretentry htmpentry hs.same
    obtain ⟨hcopied, hcopysame⟩ := hentry.copy htmpentry
    have hret := hs.power.frame hcopysame hinput.retTmp.symm
    obtain ⟨mem', hrun, hwords, hsame, hproduct⟩ :=
      montmul_form h (copy_lt hs.words htmpentry) hret hcopied ret
    rw [if_pos hpos, hsource, hrun]
    refine ⟨_, rfl, hwords, rfl, ?_, fun k hk hk' => ?_⟩
    · rw [hpower]
      exact hproduct
    · exact (hsame k hk).trans ((hcopysame k hk').trans (hs.same k hk hk'))

/-- All windows of all words. -/
theorem cachedWindows_spec (h : MontContext W wrap fuel S junk n np N)
    (hinput : CachedInput W S w tmp ret exp tab r_sq N b e mem) {s : (ℕ → ℕ) × ℕ}
    (hs : CachedProgress W S w tmp ret tab N b e mem 0 s) :
    ∃ s', (List.range S).foldlM (fun s i => (List.range (W / w)).foldlM
        (cachedWindow W wrap fuel S junk w tmp ret exp n np i) s) s = some s' ∧
      CachedProgress W S w tmp ret tab N b e mem (S * (W / w)) s' := by
  refine foldlM_range_spec
    (P := fun i => CachedProgress W S w tmp ret tab N b e mem (i * (W / w))) ?_ ?_
  · rwa [Nat.zero_mul]
  · intro i hi s₁ hs₁
    rw [Nat.succ_mul]
    exact foldlM_range_spec
      (P := fun j => CachedProgress W S w tmp ret tab N b e mem (i * (W / w) + j)) hs₁
      fun j hj s₂ hs₂ => cachedWindow_spec h hinput hi hj hs₂

/-- `mp_modexp_cached_cpu` leaves the power to the whole exponent. -/
theorem mp_modexp_cached_spec (h : MontContext W wrap fuel S junk n np N)
    (hinput : CachedInput W S w tmp ret exp tab r_sq N b e mem)
    (hsquare : HoldsNumber W S mem r_sq square) (hlt : square < N)
    (hsq : (square : ZMod N) = 2 ^ (W * S) * 2 ^ (W * S)) (htmpsq : Apart tmp S r_sq S) :
    ∃ mem', mp_modexp_cached_cpu W wrap fuel S junk w tmp ret exp tab r_sq n np mem = some mem' ∧
      (∀ k, mem' k < 2 ^ W) ∧
      (∀ k, ¬ (ret ≤ k ∧ k < ret + S) → ¬ (tmp ≤ k ∧ k < tmp + S) → mem' k = mem k) ∧
      ∃ u < N, (u : ZMod N) = b ^ e ∧ HoldsNumber W S mem' ret u := by
  have hW : 1 < 2 ^ W := Nat.lt_of_succ_lt h.word
  -- the result starts as one in Montgomery form
  obtain ⟨hone₀, hsame₀⟩ := @holdsNumber_make_one W S tmp mem h.size hW
  obtain ⟨mem₁, hrun₁, hwords₁, hsame₁, hform₁⟩ := montmul_enter h
    (make_one_lt h.size hW hinput.words) hone₀ (holdsNumber_frame hsquare hsame₀ htmpsq) hlt hsq ret
  have hstart : CachedProgress W S w tmp ret tab N b e mem 0 (mem₁, tab) := by
    refine ⟨hwords₁, by simp, ?_, fun k hk hk' => (hsame₁ k hk).trans (hsame₀ k hk')⟩
    rw [Nat.mul_zero, pow_zero, Nat.mod_one, pow_zero]
    rwa [Nat.cast_one] at hform₁
  obtain ⟨s, hwalk, hs⟩ := cachedWindows_spec h hinput hstart
  -- the last product takes it out of the form
  obtain ⟨hone₂, hsame₂⟩ := @holdsNumber_make_one W S tmp s.1 h.size hW
  obtain ⟨mem₃, hrun₃, hwords₃, hsame₃, u, hu, hpower, hnumber⟩ := montmul_leave h
    (make_one_lt h.size hW hs.words) (hs.power.frame hsame₂ hinput.retTmp.symm) hone₂ ret
  have hbits : w * (S * (W / w)) = W * S := by
    rw [Nat.mul_comm, Nat.mul_assoc, Nat.div_mul_cancel hinput.window, Nat.mul_comm]
  rw [hbits, Nat.mod_eq_of_lt (holdsNumber_lt hinput.exponent)] at hpower
  refine ⟨mem₃, ?_, hwords₃, fun k hk hk' => ?_, u, hu, hpower, hnumber⟩
  · rw [mp_modexp_cached_cpu, hrun₁]
    refine (Option.bind_some _ _).trans ?_
    rw [hwalk]
    exact hrun₃
  · exact (hsame₃ k hk).trans ((hsame₂ k hk').trans (hs.same k hk hk'))

end Walk

/-! ## The parameters of `init_crypto_state` -/

section Parameters

variable {N bits : ℕ}

theorem mpzInvert_dvd {a : ℤ} (h : Int.gcd a N = 1) (rop : ℤ) :
    (N : ℤ) ∣ mpzInvert rop a N * a - 1 := by
  rw [mpzInvert, if_pos h]
  have hbezout := Int.gcd_eq_gcd_ab a N
  rw [h, Nat.cast_one] at hbezout
  have hsplit : Int.gcdA a N % N * a - 1 =
      N * (-Int.gcdB a N - Int.gcdA a N / N * a) := by
    rw [Int.emod_def]
    linear_combination -hbezout
  exact ⟨_, hsplit⟩

/-- `pp` is the negated inverse of the modulus for `2 ^ bits`, and `nsq` the square of `2 ^ bits`. -/
theorem init_crypto_state_spec (hodd : N % 2 = 1) (hN : 1 < N) :
    (2 ^ bits : ℕ) ∣ (init_crypto_state bits N).1.toNat * N + 1 ∧
      (init_crypto_state bits N).1.toNat < 2 ^ bits ∧
      (init_crypto_state bits N).2.toNat < N ∧
      (((init_crypto_state bits N).2.toNat : ℕ) : ZMod N) = 2 ^ bits * 2 ^ bits := by
  have hpos : (0 : ℤ) < N := by exact_mod_cast Nat.lt_of_succ_lt hN
  have hgcd : Int.gcd (2 ^ bits) N = 1 := by
    have hcop : Nat.Coprime (2 ^ bits) N :=
      Nat.Coprime.pow_left _ (Nat.coprime_two_left.2 (Nat.odd_iff.2 hodd))
    exact_mod_cast hcop
  obtain ⟨q, hq⟩ := mpzInvert_dvd hgcd 0
  set inv := mpzInvert 0 (2 ^ bits) (N : ℤ) with hinv
  have hinvlow : 0 ≤ inv := by
    rw [hinv, mpzInvert, if_pos hgcd]
    exact Int.emod_nonneg _ hpos.ne'
  have hinvlt : inv < N := by
    rw [hinv, mpzInvert, if_pos hgcd]
    exact Int.emod_lt_of_pos _ hpos
  have htwo : (0 : ℤ) < 2 ^ bits := pow_pos two_pos _
  -- the inverse is not zero, since the modulus is not one
  have hinvpos : 0 < inv := by
    refine lt_of_le_of_ne hinvlow fun hzero => ?_
    rw [← hzero, zero_mul, zero_sub] at hq
    have hdvd : (N : ℤ) ∣ 1 := ⟨-q, by linarith⟩
    have hle := Int.le_of_dvd one_pos hdvd
    omega
  have hqnonneg : 0 ≤ q := by
    refine (mul_nonneg_iff_of_pos_left hpos).1 ?_
    rw [← hq]
    have hone : 1 ≤ inv * 2 ^ bits := Int.mul_pos hinvpos htwo
    linarith
  -- the code divides `inv * 2 ^ bits - 1` by the modulus, and the division is exact
  have hpp : (init_crypto_state bits N).1 = q := by
    rw [init_crypto_state]
    dsimp only
    rw [← hinv, hq, Int.mul_tdiv_cancel_left _ hpos.ne']
  have hnsq : (init_crypto_state bits N).2 = 2 ^ bits * 2 ^ bits % N := rfl
  have hqcast : ((q.toNat : ℕ) : ℤ) = q := Int.toNat_of_nonneg hqnonneg
  refine ⟨?_, ?_, ?_, ?_⟩
  · rw [hpp]
    have heq : ((q.toNat * N + 1 : ℕ) : ℤ) = inv * 2 ^ bits := by
      push_cast
      rw [hqcast]
      linarith
    have hdvd : ((2 ^ bits : ℕ) : ℤ) ∣ ((q.toNat * N + 1 : ℕ) : ℤ) := by
      rw [heq]
      push_cast
      exact Int.dvd_mul_left _ _
    exact Int.natCast_dvd_natCast.1 hdvd
  · rw [hpp]
    -- the quotient is smaller than the power since the inverse is smaller than the modulus
    have hlt : q < 2 ^ bits := by
      refine lt_of_mul_lt_mul_left (a := (N : ℤ)) ?_ hpos.le
      rw [← hq]
      have hle : inv * 2 ^ bits ≤ N * 2 ^ bits := Int.mul_le_mul_of_nonneg_right hinvlt.le htwo.le
      linarith
    have hcast : ((q.toNat : ℕ) : ℤ) < ((2 ^ bits : ℕ) : ℤ) := by
      rw [hqcast]
      exact_mod_cast hlt
    exact_mod_cast hcast
  · rw [hnsq]
    have hlt := Int.emod_lt_of_pos ((2 : ℤ) ^ bits * 2 ^ bits) hpos
    have hlow := Int.emod_nonneg ((2 : ℤ) ^ bits * 2 ^ bits) hpos.ne'
    omega
  · rw [hnsq]
    have hlow := Int.emod_nonneg ((2 : ℤ) ^ bits * 2 ^ bits) hpos.ne'
    have hcast : ((((2 : ℤ) ^ bits * 2 ^ bits % N).toNat : ℕ) : ℤ) = 2 ^ bits * 2 ^ bits % N :=
      Int.toNat_of_nonneg hlow
    rw [← Int.cast_natCast, hcast, ZMod.intCast_mod]
    push_cast
    rfl

/-- The multiplications use the lowest word of `pp` only. -/
theorem montContext_of_parameters {W S : ℕ} {wrap : ℕ → ℕ} {fuel junk : ℕ} {n np : ℕ → ℕ}
    (hW : W = 32 ∨ W = 64) (hS : 1 ≤ S) (hint : S < 2 ^ 31) (hwrap : Holds W wrap)
    (hjunk : junk < 2 ^ W) (hfuel : 2 * S ≤ fuel) (hn : HoldsNumber W S n 0 N)
    (hodd : N % 2 = 1) (hN : 1 < N)
    (hnp : HoldsNumber W S np 0 (init_crypto_state (W * S) N).1.toNat) :
    MontContext W wrap fuel S junk n np N := by
  have hword : 2 * S < 2 ^ W ∧ 2 < 2 ^ W := by
    rcases hW with rfl | rfl <;> constructor <;> omega
  refine ⟨hwrap, hS, hword.1, hword.2, hjunk, hfuel, hn, hodd, ?_⟩
  have hlow : np 0 = (init_crypto_state (W * S) N).1.toNat % 2 ^ W := by
    have hdigit := value_div_mod hnp.1 (Nat.lt_of_lt_of_le Nat.one_pos hS)
    rw [hnp.2, pow_zero, Nat.div_one] at hdigit
    exact hdigit.symm
  have hdvd : 2 ^ W ∣ (init_crypto_state (W * S) N).1.toNat * N + 1 :=
    (pow_dvd_pow 2 (Nat.le_mul_of_pos_right W hS)).trans (init_crypto_state_spec hodd hN).1
  have hmod : np 0 * N + 1 ≡ (init_crypto_state (W * S) N).1.toNat * N + 1 [MOD 2 ^ W] := by
    rw [hlow]
    exact ((Nat.mod_modEq _ _).mul_right N).add_right 1
  exact (Nat.modEq_zero_iff_dvd.1 (hmod.trans (Nat.modEq_zero_iff_dvd.2 hdvd)))

end Parameters

/-! ## The table in memory -/

section Table

variable {W S N w : ℕ} {wrap : ℕ → ℕ} {fuel junk : ℕ} {n np : ℕ → ℕ} {mem : ℕ → ℕ}
  {tmp tab r_sq b : ℕ}

/-- `to_gpu_format` writes one number after the other. -/
theorem to_gpu_format_spec {size : ℕ} {array : Vec} (hmem : ∀ k, mem k < 2 ^ W)
    (harray : ∀ t < size, (array t).natAbs < 2 ^ (W * S)) :
    ∃ mem', to_gpu_format W S tab array size mem = some mem' ∧ (∀ k, mem' k < 2 ^ W) ∧
      SameOutside tab (size * S) mem mem' ∧
      ∀ t < size, HoldsNumber W S mem' (tab + t * S) (array t).natAbs := by
  refine foldlM_range_spec
    (P := fun i mem' => (∀ k, mem' k < 2 ^ W) ∧ SameOutside tab (size * S) mem mem' ∧
      ∀ t < i, HoldsNumber W S mem' (tab + t * S) (array t).natAbs) ?_ ?_
  · exact ⟨hmem, fun _ _ => rfl, fun t ht => absurd ht (Nat.not_lt_zero t)⟩
  · rintro i hi mem₁ ⟨hwords, hsame, hnumbers⟩
    have hblock : i * S + S ≤ size * S := block_le hi S
    have hother : SameOutside (tab + i * S) S mem₁
        (writeWords S (tab + i * S) (wordsOf W (array i).natAbs) mem₁) := by
      intro k hk
      rw [writeWords_apply, if_neg hk]
    refine ⟨_, if_pos (harray i hi), fun k => ?_, fun k hk => ?_, fun t ht => ?_⟩
    · rw [writeWords_apply]
      split
      · exact Nat.mod_lt _ (Nat.two_pow_pos W)
      · exact hwords k
    · rw [hother k (by omega)]
      exact hsame k hk
    · rcases Nat.lt_succ_iff_lt_or_eq.1 ht with hlt | rfl
      · exact holdsNumber_frame (hnumbers t hlt) hother (entry_apart hlt.ne')
      · refine holdsNumber_writeWords ?_ _
        rw [← pow_mul]
        exact harray t hi

/-- The entries of the table fit where the base does. -/
theorem entry_natAbs_lt (hN : 0 < N) (hlt : N < 2 ^ (W * S)) (hb : b < 2 ^ (W * S)) (t : ℕ) :
    (PowmCache.entry b N w t).natAbs < 2 ^ (W * S) := by
  rw [PowmCache.entry]
  split
  · exact hb
  · have hpos : (0 : ℤ) < N := by exact_mod_cast hN
    have hlow := Int.emod_nonneg ((b : ℤ) ^ PowmCache.entryExponent w t) hpos.ne'
    have hhigh := Int.emod_lt_of_pos ((b : ℤ) ^ PowmCache.entryExponent w t) hpos
    omega

theorem entry_cast (t : ℕ) (hN : 0 < N) :
    ((PowmCache.entry b N w t).natAbs : ZMod N) = (b : ZMod N) ^ PowmCache.entryExponent w t := by
  have hpos : (0 : ℤ) < N := by exact_mod_cast hN
  have hlow : 0 ≤ PowmCache.entry b N w t := by
    rw [PowmCache.entry]
    split
    · exact Int.natCast_nonneg b
    · exact Int.emod_nonneg _ hpos.ne'
  have hcast : (((PowmCache.entry b N w t).natAbs : ℕ) : ℤ) = PowmCache.entry b N w t :=
    Int.natAbs_of_nonneg hlow
  have hmod := congrArg (Int.cast (R := ZMod N)) (PowmCache.entry_emod (b : ℤ) N w t)
  rw [ZMod.intCast_mod, ZMod.intCast_mod] at hmod
  rw [← Int.cast_natCast, hcast, hmod]
  push_cast
  rfl

/-- Blocks of the table that do not overlap. -/
structure TableLayout (S size tmp tab r_sq : ℕ) : Prop where
  tmpTab : Apart tmp S tab (size * S)
  tmpSquare : Apart tmp S r_sq S
  squareTab : Apart r_sq S tab (size * S)

/-- `create_cache` leaves the powers in Montgomery form. -/
theorem create_cache_spec (h : MontContext W wrap fuel S junk n np N) (hmem : ∀ k, mem k < 2 ^ W)
    (hb : b < 2 ^ (W * S)) {square : ℕ} (hsquare : HoldsNumber W S mem r_sq square)
    (hlt : square < N) (hsq : (square : ZMod N) = 2 ^ (W * S) * 2 ^ (W * S))
    (hlayout : TableLayout S (PowmCache.new b N (W * S) w).cacheSize tmp tab r_sq) :
    ∃ mem', create_cache W wrap fuel S junk w tmp tab r_sq b N n np mem = some mem' ∧
      (∀ k, mem' k < 2 ^ W) ∧
      (∀ k, ¬ (tab ≤ k ∧ k < tab + (PowmCache.new b N (W * S) w).cacheSize * S) →
        ¬ (tmp ≤ k ∧ k < tmp + S) → mem' k = mem k) ∧
      ∀ t < (PowmCache.new b N (W * S) w).cacheSize,
        HoldsForm W S N mem' (tab + t * S) ((b : ZMod N) ^ PowmCache.entryExponent w t) := by
  have hN : 0 < N := Nat.pos_of_ne_zero fun hzero => by
    have hodd := h.odd
    rw [hzero] at hodd
    exact absurd hodd (by decide)
  set c := PowmCache.new b N (W * S) w with hc
  have hentry : ∀ t < c.cacheSize, c.cache t = PowmCache.entry b N w t := by
    intro t ht
    rw [hc, PowmCache.new_eq_table] at ht ⊢
    exact if_pos ht
  obtain ⟨mem₁, hrun₁, hwords₁, hsame₁, hnumbers⟩ :=
    @to_gpu_format_spec W S mem tab c.cacheSize c.cache hmem
      fun t ht => by
        rw [hentry t ht]
        exact entry_natAbs_lt hN h.lt hb t
  obtain ⟨mem₂, hrun₂, hform⟩ := mp_montgomerize_spec h hwords₁ hnumbers
    (holdsNumber_frame hsquare hsame₁ hlayout.squareTab.symm) hlt hsq hlayout.tmpTab
    hlayout.tmpSquare hlayout.squareTab
  refine ⟨mem₂, ?_, hform.words, fun k hk hk' => ?_, fun t ht => ?_⟩
  · rw [create_cache, ← hc, hrun₁]
    exact hrun₂
  · exact (hform.same k hk hk').trans (hsame₁ k hk)
  · have hpower := hform.form t ht
    rwa [hentry t ht, entry_cast t hN] at hpower

end Table

/-! ## The result -/

section Result

/-- Blocks of the exponentiation that do not overlap. -/
structure WalkLayout (S size tmp ret exp tab r_sq : ℕ) : Prop where
  retTmp : Apart ret S tmp S
  retExp : Apart ret S exp S
  tmpExp : Apart tmp S exp S
  retTab : Apart ret S tab (size * S)
  tmpTab : Apart tmp S tab (size * S)
  tmpSquare : Apart tmp S r_sq S

/-- The table is one entry longer than its chunks. -/
theorem cacheSize_eq {W S w : ℕ} (hw : 0 < w) (hdvd : w ∣ W) (b p : ℤ) :
    (PowmCache.new b p (W * S) w).cacheSize = S * (W / w) * (2 ^ w - 1) + 1 := by
  have hchunks : PowmCache.get_num_chunks (W * S) w = S * (W / w) := by
    obtain ⟨q, rfl⟩ := hdvd
    rw [PowmCache.get_num_chunks, if_neg hw.ne', Nat.mul_div_cancel_left q hw,
      Nat.mul_assoc, Nat.add_sub_assoc hw, Nat.mul_add_div hw, Nat.div_eq_of_lt (by omega),
      Nat.add_zero, Nat.mul_comm]
  rw [PowmCache.new_eq_table, hchunks]
  rfl

/-- The first entry of a table is the base as it was passed. -/
theorem first_entry_not_reduced :
    ¬ ∀ chunk < PowmCache.get_num_chunks (32 * 1) 8, ∀ v, 1 ≤ v → v ≤ 2 ^ 8 - 1 →
      (PowmCache.new 7 5 (32 * 1) 8).cache (chunk * (2 ^ 8 - 1) + v - 1) =
        7 ^ (v * 2 ^ (8 * chunk)) % 5 := by
  intro h
  have hfirst := h 0 (by decide) 1 le_rfl (by decide)
  rw [PowmCache.cache_eq 7 5 (by decide) (32 * 1) (by decide) le_rfl (by decide),
    if_pos ⟨rfl, rfl⟩] at hfirst
  exact absurd hfirst (by decide)

variable {W S w N : ℕ} {wrap : ℕ → ℕ} {fuel junk : ℕ} {n np : ℕ → ℕ}

/-- The entry of a chunk and a window value, in a memory with the words of the table. -/
theorem holdsForm_chunk {tab chunks : ℕ} {mem₁ mem₂ : ℕ → ℕ} {b : ZMod N} (hw : 0 < w)
    (htable : ∀ t < chunks * (2 ^ w - 1) + 1,
      HoldsForm W S N mem₁ (tab + t * S) (b ^ PowmCache.entryExponent w t))
    (hsame : ∀ k < (chunks * (2 ^ w - 1) + 1) * S, mem₂ (tab + k) = mem₁ (tab + k)) :
    ∀ chunk < chunks, ∀ v, 1 ≤ v → v ≤ 2 ^ w - 1 →
      HoldsForm W S N mem₂ (tab + (chunk * (2 ^ w - 1) + v - 1) * S)
        (b ^ (v * 2 ^ (w * chunk))) := by
  intro chunk hchunk v hv hv'
  have hindex : chunk * (2 ^ w - 1) + v - 1 < chunks * (2 ^ w - 1) + 1 := by
    have hle := block_le hchunk (2 ^ w - 1)
    omega
  obtain ⟨u, hu, hform, hnumber⟩ := htable _ hindex
  have hwords : ∀ k < S, mem₂ (tab + (chunk * (2 ^ w - 1) + v - 1) * S + k) =
      mem₁ (tab + (chunk * (2 ^ w - 1) + v - 1) * S + k) := by
    intro k hk
    have hblock := block_le hindex S
    rw [Nat.add_assoc]
    exact hsame _ (by omega)
  refine ⟨u, hu, ?_, holdsNumber_of_words hnumber hwords⟩
  have hexponent := PowmCache.entryExponent_chunk hw chunk (j := v - 1)
    (Nat.sub_le_of_le_add (by rw [PowmCache.get_num_pow_per_chunk]; omega))
  rw [Nat.sub_add_cancel hv, PowmCache.get_num_pow_per_chunk, ← Nat.add_sub_assoc hv] at hexponent
  rw [hform, hexponent]

/-- A table that was extended is the table built at the largest size, and its entries are the
reduced powers, but for the first one. With the table of `b` in Montgomery form, the exponentiation
leaves the reduced power. The number of entries of a chunk is `(1 << window_size) - 1`, an `int`. -/
theorem cached_modexp (hW : W = 32 ∨ W = 64) (hS : 1 ≤ S) (hint : S < 2 ^ 31) (hw : 0 < w)
    (_hshift : w < 31) (hdvd : w ∣ W) (hodd : N % 2 = 1) (hN : 1 < N) (hwrap : Holds W wrap) (hjunk : junk < 2 ^ W)
    (hfuel : 2 * S ≤ fuel) (hn : HoldsNumber W S n 0 N)
    (hnp : HoldsNumber W S np 0 (init_crypto_state (W * S) N).1.toNat) :
    (∀ (b : ℤ) (bits : ℕ) (sizes : List ℕ),
      sizes.foldl PowmCache.extendCache (PowmCache.new b N bits w) =
        PowmCache.new b N (sizes.foldl max bits) w ∧
      ∀ chunk < PowmCache.get_num_chunks (sizes.foldl max bits) w, ∀ v, 1 ≤ v → v ≤ 2 ^ w - 1 →
        (sizes.foldl PowmCache.extendCache (PowmCache.new b N bits w)).cache
            (chunk * (2 ^ w - 1) + v - 1) =
          if chunk = 0 ∧ v = 1 then b else b ^ (v * 2 ^ (w * chunk)) % N) ∧
    ∀ (b tmp tab r_sq : ℕ) (mem : ℕ → ℕ), b < 2 ^ (W * S) → (∀ k, mem k < 2 ^ W) →
      HoldsNumber W S mem r_sq (init_crypto_state (W * S) N).2.toNat →
      TableLayout S (S * (W / w) * (2 ^ w - 1) + 1) tmp tab r_sq →
      ∃ mem₁, create_cache W wrap fuel S junk w tmp tab r_sq b N n np mem = some mem₁ ∧
        (∀ k, mem₁ k < 2 ^ W) ∧
        ∀ (e tmp' ret exp : ℕ) (mem₂ : ℕ → ℕ), (∀ k, mem₂ k < 2 ^ W) →
          (∀ k < (S * (W / w) * (2 ^ w - 1) + 1) * S, mem₂ (tab + k) = mem₁ (tab + k)) →
          (∀ k < S, mem₂ (r_sq + k) = mem₁ (r_sq + k)) → HoldsNumber W S mem₂ exp e →
          WalkLayout S (S * (W / w) * (2 ^ w - 1) + 1) tmp' ret exp tab r_sq →
          ∃ mem₃, mp_modexp_cached_cpu W wrap fuel S junk w tmp' ret exp tab r_sq n np mem₂ =
              some mem₃ ∧ HoldsNumber W S mem₃ ret (b ^ e % N) := by
  refine ⟨fun b bits sizes => ⟨PowmCache.extend_eq b N w bits sizes, ?_⟩, ?_⟩
  · -- the table of the client, whatever the sizes it was asked for
    intro chunk hchunk v hv hv'
    rw [PowmCache.extend_eq]
    exact PowmCache.cache_eq b N hw _ hchunk hv hv'
  · intro b tmp tab r_sq mem hb hmem hsquare hlayout
    have hcontext := montContext_of_parameters hW hS hint hwrap hjunk hfuel hn hodd hN hnp
    obtain ⟨-, -, hlt, hsq⟩ := @init_crypto_state_spec N (W * S) hodd hN
    have hsize := cacheSize_eq (S := S) hw hdvd b N
    rw [← hsize] at hlayout
    obtain ⟨mem₁, hrun₁, hmem₁, hsame₁, htable⟩ :=
      create_cache_spec hcontext hmem hb hsquare hlt hsq hlayout
    refine ⟨mem₁, hrun₁, hmem₁, fun e tmp' ret exp mem₂ hmem₂ htab₂ hsq₂ hexp hwalk => ?_⟩
    rw [hsize] at htable hsame₁ hlayout
    -- the square is where it was, through both runs
    have hsquare₂ : HoldsNumber W S mem₂ r_sq (init_crypto_state (W * S) N).2.toNat := by
      have hsame : ∀ k < S, mem₂ (r_sq + k) = mem (r_sq + k) := by
        intro k hk
        rw [hsq₂ k hk]
        refine hsame₁ _ ?_ ?_
        · rcases hlayout.squareTab with hle | hle <;> omega
        · rcases hlayout.tmpSquare with hle | hle <;> omega
      exact holdsNumber_of_words hsquare hsame
    have hinput : CachedInput W S w tmp' ret exp tab r_sq N (b : ZMod N) e mem₂ := by
      refine ⟨hmem₂, hdvd, hexp, holdsForm_chunk hw htable htab₂, hwalk.retTmp, hwalk.retExp,
        hwalk.tmpExp, ?_, ?_⟩
      · exact Apart.mono hwalk.retTab (Nat.mul_le_mul_right S (Nat.le_succ _))
      · exact Apart.mono hwalk.tmpTab (Nat.mul_le_mul_right S (Nat.le_succ _))
    obtain ⟨mem₃, hrun₃, -, -, u, hu, hpower, hnumber⟩ :=
      mp_modexp_cached_spec hcontext hinput hsquare₂ hlt hsq hwalk.tmpSquare
    refine ⟨mem₃, hrun₃, ?_⟩
    -- a residue below the modulus is the remainder
    have hmod : u ≡ b ^ e [MOD N] := by
      refine (ZMod.natCast_eq_natCast_iff _ _ _).1 ?_
      rw [hpower]
      push_cast
      rfl
    rwa [← Nat.mod_eq_of_lt hu, hmod] at hnumber

/-- `7 ^ 11` modulo `5` in one word, with windows of one bit. -/
theorem cached_modexp_seven :
    ∃ mem₁, create_cache 32 (· % 2 ^ 32) 2 1 0 1 1 2 0 7 5 (fun _ => 5) (fun _ => 858993459)
        (fun k => if k = 0 then 1 else 0) = some mem₁ ∧
      ∃ mem₃, mp_modexp_cached_cpu 32 (· % 2 ^ 32) 2 1 0 1 1 36 35 2 0 (fun _ => 5)
          (fun _ => 858993459) (fun k => if k < 35 then mem₁ k else if k = 35 then 11 else 0) =
            some mem₃ ∧ HoldsNumber 32 1 mem₃ 36 3 := by
  have hnumber : ∀ (p : ℕ → ℕ) (q : ℕ), p q < 2 ^ 32 → HoldsNumber 32 1 p q (p q) :=
    fun p q hp => ⟨fun i hi => by rwa [Nat.lt_one_iff.1 hi, Nat.add_zero], by simp [value]⟩
  -- the parameters for the modulus `5`
  have hpp : (init_crypto_state (32 * 1) (5 : ℕ)).1.toNat = 858993459 := by decide +kernel
  have hnsq : (init_crypto_state (32 * 1) (5 : ℕ)).2.toNat = 1 := by decide
  have hmem : ∀ k, (if k = 0 then 1 else 0 : ℕ) < 2 ^ 32 := fun k => by split_ifs <;> decide
  obtain ⟨-, hcache⟩ := @cached_modexp 32 1 1 5 (· % 2 ^ 32) 2 0 (fun _ => 5)
    (fun _ => 858993459) (Or.inl rfl) le_rfl (by decide)
    one_pos (by decide) (one_dvd _) rfl (by decide) (holds_mod 32) (by decide) le_rfl
    (hnumber _ 0 (by decide)) (by rw [hpp]; exact hnumber _ 0 (by decide))
  obtain ⟨mem₁, hrun₁, hmem₁, hpower⟩ := hcache 7 1 2 0 (fun k => if k = 0 then 1 else 0)
    (by decide) hmem (by rw [hnsq]; exact hnumber _ 0 (by decide))
    ⟨Or.inl (by decide), Or.inr (by decide), Or.inl (by decide)⟩
  refine ⟨mem₁, hrun₁, ?_⟩
  refine hpower 11 1 36 35 (fun k => if k < 35 then mem₁ k else if k = 35 then 11 else 0)
    (fun k => ?_) (fun k hk => if_pos (by omega)) (fun k hk => if_pos (by omega))
    (hnumber (fun k => if k < 35 then mem₁ k else if k = 35 then 11 else 0) 35 (by simp))
    ⟨Or.inr (by decide), Or.inr (by decide), Or.inl (by decide), Or.inr (by decide),
      Or.inl (by decide), Or.inr (by decide)⟩
  split_ifs
  · exact hmem₁ k
  · decide
  · decide

end Result

end Pepper.LibGpu.CachedModexp
