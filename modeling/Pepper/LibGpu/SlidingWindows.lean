import Pepper.LibGpu.Modexp
import Pepper.LibGpu.MontMemory
import Pepper.Foundations.PowerSchedule

/-!
# Schedules of windows

`mp_get_sw` cuts an exponent into a schedule of fragments; `mp_modexp_cpu` runs it on a table of
odd powers, and `mp_get_multi_sw` merges the schedules of several exponents by the distance of
their fragments from the top. Within the bit lengths that the arrays are made for no assertion
fails (`mp_get_sw_spec`), the exponentiation leaves the power to the whole exponent
(`mp_modexp_spec`), and the merged schedule runs to the product of the powers, whatever order the
sort leaves fragments of one position in (`multiRun_spec`).
-/

set_option autoImplicit false

namespace Pepper.LibGpu.SlidingWindows

open Pepper.Foundations.Loop
open Pepper.Foundations.CarrySave
open Pepper.Foundations.PowerSchedule
open Pepper.LibGpu.Modexp
open Pepper.LibGpu.MontWords
open Pepper.LibGpu.MontMemory

/-! ## The code -/

def MP_SW_MAX_NUM_FRAGS : ℕ := 512

def MP_SW_MAX_FRAGMENT : ℕ := 32

def MP_MAX_MULTI_EXP : ℕ := 32

/-- `mp_sw`; `num_fragments` is the length of the list. -/
structure MpSw where
  frags : List Frag
  max_fragment : ℕ

def get_bit (W : ℕ) (a : ℕ → ℕ) (i : ℕ) : ℕ := a (i / W) / 2 ^ (i % W) % 2

/-- The updates of `max_fragment`; a run of zeros does not change it. -/
def maxFragment (frags : List Frag) : ℕ :=
  frags.foldl (fun max_fragment f => if f.fragment > max_fragment then f.fragment else max_fragment) 0

/-- The length of the top fragment becomes what the lower ones leave of `num_bits`. -/
def setTopLength (num_bits : ℕ) : List Frag → List Frag
  | [] => []
  | [top] => [⟨top.fragment, num_bits⟩]
  | f :: g :: fs => f :: setTopLength (num_bits - f.length) (g :: fs)

/-- `mp_get_sw`, that is `mp_get_clnw`, with its assertions. -/
def mp_get_sw (W : ℕ) (a : ℕ → ℕ) (word_len : ℕ) : Option MpSw :=
  let num_bits := word_len * W
  let frags :=
    clnwLoop (fragmentWidth num_bits) num_bits ((List.range num_bits).map (get_bit W a))
  let kept := frags.rdropWhile (·.fragment = 0)
  if frags.length ≤ MP_SW_MAX_NUM_FRAGS ∧ maxFragment frags < MP_SW_MAX_FRAGMENT ∧
      (maxFragment frags % 2 = 1 ∨ kept = []) then
    some ⟨setTopLength num_bits kept, maxFragment frags⟩
  else none

section Exponentiation

variable (W : ℕ) (wrap : ℕ → ℕ) (fuel S junk : ℕ)

/-- One pass of the last loop of `mp_modexp_cpu`. -/
def fragmentPass (ar_pow ret : ℕ) (n np mem : ℕ → ℕ) (f : Frag) : Option (ℕ → ℕ) :=
  ((List.range f.length).foldlM
    (fun mem _ => mp_montmul_cpu W wrap fuel S junk mem ret ret ret n np) mem).bind fun mem =>
  if f.fragment = 0 then some mem
  else mp_montmul_cpu W wrap fuel S junk mem ret ret (ar_pow + f.fragment / 2 * S) n np

/-- `mp_modexp_cpu`, with its arrays `ar_sqr` and `ar_pow`. -/
def mp_modexp_cpu (sw : MpSw) (ar_sqr ar_pow ret ar : ℕ) (n np mem : ℕ → ℕ) :
    Option (ℕ → ℕ) :=
  (mp_montmul_cpu W wrap fuel S junk (copy S ar_pow ar mem) ar_sqr ar_pow ar_pow n np).bind
    fun mem =>
  ((List.range ((sw.max_fragment - 1) / 2)).foldlM
    (fun mem k => mp_montmul_cpu W wrap fuel S junk mem (ar_pow + (k + 1) * S) (ar_pow + k * S)
      ar_sqr n np) mem).bind fun mem =>
  match sw.frags.reverse with
  -- the schedule stands for an exponent other than zero
  | [] => none
  | top :: rest =>
      rest.foldlM (fragmentPass W wrap fuel S junk ar_pow ret n np)
        (copy S ret (ar_pow + top.fragment / 2 * S) mem)

/-- `mp_modexp_mont_cpu`, with its arrays `one` and `s_a`. -/
def mp_modexp_mont_cpu (sw : MpSw) (one s_a ar_sqr ar_pow ret a r_sq : ℕ) (n np mem : ℕ → ℕ) :
    Option (ℕ → ℕ) :=
  if sw.frags = [] then some (make_one S ret mem)
  else
    (mp_montmul_cpu W wrap fuel S junk mem s_a a r_sq n np).bind fun mem =>
    (mp_modexp_cpu W wrap fuel S junk sw ar_sqr ar_pow ret s_a n np mem).bind fun mem =>
    mp_montmul_cpu W wrap fuel S junk (make_one S one mem) ret ret one n np

end Exponentiation

/-- `sw_state`. -/
structure SwState where
  base : ℕ
  fragment : ℕ
  nextFragLoc : ℕ

/-- One entry of an `mp_multi_sw`. -/
structure MultiFrag where
  base : ℕ
  fragment : ℕ
  length : ℕ

/-- `mp_multi_sw`; `num_fragments` is the length of the list. -/
structure MpMultiSw where
  entries : List MultiFrag
  max_fragment : List ℕ
  num_bases : ℕ

/-- The states pushed for one base, from the top fragment down. -/
def pushStates (base : ℕ) : ℕ → List Frag → List SwState
  | _, [] => []
  | nextFragLoc, f :: frags =>
      ⟨base, f.fragment, nextFragLoc + f.length⟩ ::
        pushStates base (nextFragLoc + f.length) frags

/-- The entries for sorted states, from the last one on. -/
def multiFrags (curFragLoc : ℕ) : List SwState → List MultiFrag
  | [] => []
  | s :: states =>
      ⟨s.base, s.fragment, s.nextFragLoc - curFragLoc⟩ :: multiFrags s.nextFragLoc states

/-- `mp_get_multi_sw`; `sort` is the library's. -/
def mp_get_multi_sw (sort : List SwState → List SwState) (W : ℕ) (bases : ℕ → ℕ)
    (num_bases num_limbs : ℕ) : Option MpMultiSw :=
  if 0 < num_bases ∧ num_bases ≤ MP_MAX_MULTI_EXP then
    ((List.range num_bases).mapM fun i =>
      (mp_get_sw W (fun k => bases (i * num_limbs + k)) num_limbs).map fun sw =>
        (sw.max_fragment, pushStates i 0 sw.frags.reverse)).map fun rows =>
    let expStates := rows.flatMap Prod.snd
    ⟨(multiFrags 0 (sort expStates).reverse).reverse, rows.map Prod.fst, num_bases⟩
  else none

/-! ## The fragments -/

section Fragments

variable {d fuel num_bits : ℕ} {bits : List ℕ} {frags : List Frag}

/-- The bits that fragments span. -/
def bitLength (frags : List Frag) : ℕ := (frags.map Frag.length).sum

@[simp] theorem bitLength_nil : bitLength [] = 0 := rfl

@[simp] theorem bitLength_cons (f : Frag) (fs : List Frag) :
    bitLength (f :: fs) = f.length + bitLength fs := by
  rw [bitLength, List.map_cons, List.sum_cons, bitLength]

theorem bitLength_append (fs gs : List Frag) :
    bitLength (fs ++ gs) = bitLength fs + bitLength gs := by
  rw [bitLength, List.map_append, List.sum_append, bitLength, bitLength]

theorem nextFragment_length (d : ℕ) (bits : List ℕ) :
    (nextFragment d bits).length + (bits.drop d).length = bits.length := by
  rw [nextFragment, ← List.length_append, List.take_append_drop]

/-- Every bit is in one fragment, and a pass but the last reads `d` bits for two fragments. -/
theorem clnwLoop_lengths (hd : 0 < d) (h : bits.length ≤ fuel) :
    bitLength (clnwLoop d fuel bits) = bits.length ∧
      d * (clnwLoop d fuel bits).length ≤ 2 * (bits.length + (d - 1)) := by
  induction fuel generalizing bits with
  | zero =>
      obtain rfl := List.length_eq_zero_iff.1 (Nat.le_zero.1 h)
      exact ⟨rfl, Nat.zero_le _⟩
  | succ fuel ih =>
      cases bits with
      | nil => exact ⟨rfl, Nat.zero_le _⟩
      | cons b bits =>
          -- the bits of a pass after its run of zeros, if there is one
          have hpass : ∀ rest : List ℕ, rest.length ≤ (b :: bits).length →
              bitLength (clnwLoop d fuel (rest.drop d)) = (rest.drop d).length ∧
                d * (clnwLoop d fuel (rest.drop d)).length + 2 * d ≤
                  2 * ((b :: bits).length + (d - 1)) := by
            intro rest hrest
            obtain ⟨hbits, hcount⟩ := ih (length_drop_le hd (hrest.trans h))
            refine ⟨hbits, ?_⟩
            have hpos : 1 ≤ (b :: bits).length := Nat.succ_pos _
            rcases Nat.eq_zero_or_pos (rest.drop d).length with hnone | hsome
            · have hnil : rest.drop d = [] := List.length_eq_zero_iff.1 hnone
              rw [hnil]
              have hempty : clnwLoop d fuel [] = [] := by cases fuel <;> rfl
              rw [hempty, List.length_nil, Nat.mul_zero]
              omega
            · rw [List.length_drop] at hcount hsome
              omega
          rw [clnwLoop]
          split
          · obtain ⟨hbits, hcount⟩ := hpass ((b :: bits).dropWhile (· = 0))
              (List.length_dropWhile_le _ _)
            have hfirst := nextFragment_length d ((b :: bits).dropWhile (· = 0))
            have hrun : ((b :: bits).takeWhile (· = 0)).length +
                ((b :: bits).dropWhile (· = 0)).length = (b :: bits).length := by
              rw [← List.length_append, List.takeWhile_append_dropWhile]
            constructor
            · rw [bitLength_cons, bitLength_cons, hbits]
              dsimp only
              rw [hfirst, hrun]
            · rw [List.length_cons, List.length_cons, Nat.mul_add, Nat.mul_add]
              omega
          · obtain ⟨hbits, hcount⟩ := hpass (b :: bits) le_rfl
            have hfirst := nextFragment_length d (b :: bits)
            constructor
            · rw [bitLength_cons, hbits, hfirst]
            · rw [List.length_cons, Nat.mul_add]
              omega

theorem nextFragment_lt (hbits : ∀ b ∈ bits, b < 2) : (nextFragment d bits).fragment < 2 ^ d := by
  have hlt := Nat.ofDigits_lt_base_pow_length (one_lt_two)
    fun b hb => hbits b (List.mem_of_mem_take (i := d) hb)
  exact hlt.trans_le (Nat.pow_le_pow_right Nat.two_pos (List.length_take_le _ _))

theorem clnwLoop_lt (hbits : ∀ b ∈ bits, b < 2) :
    ∀ f ∈ clnwLoop d fuel bits, f.fragment < 2 ^ d := by
  induction fuel generalizing bits with
  | zero => exact fun f hf => absurd hf List.not_mem_nil
  | succ fuel ih =>
      cases bits with
      | nil => exact fun f hf => absurd hf List.not_mem_nil
      | cons b bits =>
          rw [clnwLoop]
          split
          · have hrest : ∀ c ∈ (b :: bits).dropWhile (· = 0), c < 2 := fun c hc =>
              hbits c (List.dropWhile_subset _ hc)
            intro f hf
            rcases List.mem_cons.1 hf with rfl | hf
            · exact Nat.two_pow_pos d
            rcases List.mem_cons.1 hf with rfl | hf
            · exact nextFragment_lt hrest
            · exact ih (fun c hc => hrest c (List.mem_of_mem_drop hc)) f hf
          · intro f hf
            rcases List.mem_cons.1 hf with rfl | hf
            · exact nextFragment_lt hbits
            · exact ih (fun c hc => hbits c (List.mem_of_mem_drop hc)) f hf

/-- The largest fragment is one of them, if they are not all zero. -/
theorem maxFragment_spec (frags : List Frag) :
    (∀ f ∈ frags, f.fragment ≤ maxFragment frags) ∧
      (maxFragment frags = 0 ∨ ∃ f ∈ frags, f.fragment = maxFragment frags) := by
  induction frags using List.reverseRecOn with
  | nil => exact ⟨fun f hf => absurd hf List.not_mem_nil, Or.inl rfl⟩
  | append_singleton frags g ih =>
      obtain ⟨hle, hmem⟩ := ih
      rw [maxFragment, List.foldl_append, List.foldl_cons, List.foldl_nil]
      rw [maxFragment] at hle hmem
      split
      · rename_i hgt
        refine ⟨fun f hf => ?_, Or.inr ⟨g, List.mem_append_right _ List.mem_cons_self, rfl⟩⟩
        rcases List.mem_append.1 hf with hf | hf
        · exact (hle f hf).trans hgt.le
        · rw [List.mem_singleton.1 hf]
      · rename_i hgt
        refine ⟨fun f hf => ?_, hmem.imp_right fun ⟨f, hf, heq⟩ =>
          ⟨f, List.mem_append_left _ hf, heq⟩⟩
        rcases List.mem_append.1 hf with hf | hf
        · exact hle f hf
        · rw [List.mem_singleton.1 hf]
          exact not_lt.1 hgt

/-- The new length of the top fragment changes no value. -/
theorem swValue_setTopLength (num_bits : ℕ) (frags : List Frag) :
    swValue (setTopLength num_bits frags) = swValue frags := by
  induction frags generalizing num_bits with
  | nil => rfl
  | cons f fs ih =>
      cases fs with
      | nil => simp [setTopLength]
      | cons g fs => rw [setTopLength, swValue_cons, ih, swValue_cons f]

theorem map_fragment_setTopLength (num_bits : ℕ) (frags : List Frag) :
    (setTopLength num_bits frags).map Frag.fragment = frags.map Frag.fragment := by
  induction frags generalizing num_bits with
  | nil => rfl
  | cons f fs ih =>
      cases fs with
      | nil => rfl
      | cons g fs => exact congrArg (f.fragment :: ·) (ih (num_bits - f.length))

/-- With it the fragments span the exponent. -/
theorem bitLength_setTopLength (hfrags : frags ≠ []) (h : bitLength frags ≤ num_bits) :
    bitLength (setTopLength num_bits frags) = num_bits := by
  induction frags generalizing num_bits with
  | nil => exact absurd rfl hfrags
  | cons f fs ih =>
      cases fs with
      | nil => simp [setTopLength]
      | cons g fs =>
          rw [bitLength_cons] at h
          rw [setTopLength, bitLength_cons, ih (List.cons_ne_nil _ _) (by omega)]
          omega

/-- A fragment of the schedule is one of those that were cut. -/
theorem exists_of_mem_setTopLength {f : Frag} (hf : f ∈ setTopLength num_bits frags) :
    ∃ g ∈ frags, g.fragment = f.fragment := by
  have hmem : f.fragment ∈ frags.map Frag.fragment := by
    rw [← map_fragment_setTopLength num_bits frags]
    exact List.mem_map_of_mem hf
  exact List.mem_map.1 hmem

theorem swValue_ne_zero {f : Frag} (hf : f ∈ frags) (hne : f.fragment ≠ 0) : swValue frags ≠ 0 := by
  induction frags with
  | nil => exact absurd hf List.not_mem_nil
  | cons g fs ih =>
      rw [swValue_cons]
      rcases List.mem_cons.1 hf with rfl | hf
      · exact fun hzero => hne (Nat.add_eq_zero_iff.1 hzero).1
      · intro hzero
        have hrest := (Nat.add_eq_zero_iff.1 hzero).2
        exact ih hf ((Nat.mul_eq_zero.1 hrest).resolve_left (Nat.two_pow_pos _).ne')

/-- The value of a schedule, by the places of its fragments. -/
theorem swValue_eq_sum (frags : List Frag) :
    swValue frags = ∑ k : Fin frags.length,
      (frags.get k).fragment * 2 ^ bitLength (frags.take k) := by
  induction frags with
  | nil => rfl
  | cons f fs ih =>
      have hsum := Fin.sum_univ_succ fun k : Fin (fs.length + 1) =>
        ((f :: fs).get k).fragment * 2 ^ bitLength ((f :: fs).take k)
      refine Eq.trans ?_ hsum.symm
      rw [swValue_cons, ih, Finset.mul_sum]
      congr 1
      · simp
      · refine Finset.sum_congr rfl fun k _ => ?_
        show _ = (fs.get k).fragment * 2 ^ bitLength (f :: fs.take k)
        rw [bitLength_cons, pow_add]
        ring

end Fragments

/-! ## The schedule of an exponent -/

section Schedule

variable {W word_len : ℕ} {a : ℕ → ℕ}

/-- The bits of the words are the bits of the number. -/
theorem map_get_bit (hW : 0 < W) (ha : ∀ i < word_len, a i < 2 ^ W) :
    (List.range (word_len * W)).map (get_bit W a) =
      getBits (word_len * W) (value (2 ^ W) word_len a) := by
  refine List.map_congr_left fun i hi => ?_
  have hword : i / W < word_len := (Nat.div_lt_iff_lt_mul hW).2 (List.mem_range.1 hi)
  have hbit := digit_window (u := value (2 ^ W) word_len a) (i := i / W)
    (show i % W + 1 ≤ W from Nat.mod_lt i hW)
  rw [value_div_mod ha hword, pow_one, Nat.div_add_mod] at hbit
  exact hbit

/-- What a schedule of `num_bits` bits for the exponent `e` is. -/
structure MpSw.Schedules (sw : MpSw) (num_bits e : ℕ) : Prop where
  value : swValue sw.frags = e
  odd : ∀ f ∈ sw.frags, f.fragment = 0 ∨ f.fragment % 2 = 1
  top : ∀ f ∈ sw.frags.getLast?, f.fragment ≠ 0
  le_max : ∀ f ∈ sw.frags, f.fragment ≤ sw.max_fragment
  max_lt : sw.max_fragment < MP_SW_MAX_FRAGMENT
  count : sw.frags.length ≤ MP_SW_MAX_NUM_FRAGS
  span : sw.frags ≠ [] → bitLength sw.frags = num_bits

theorem fragmentWidth_eq {num_bits : ℕ} (h : num_bits < 768) :
    fragmentWidth num_bits = if num_bits < 256 then 4 else 5 := by
  rw [fragmentWidth]
  split_ifs <;> rfl

/-- The largest fragment is below what all fragments are below. -/
theorem maxFragment_lt {frags : List Frag} {n : ℕ} (hn : 0 < n)
    (hlt : ∀ f ∈ frags, f.fragment < n) : maxFragment frags < n := by
  rcases (maxFragment_spec frags).2 with hzero | ⟨f, hf, heq⟩
  · rw [hzero]
    exact hn
  · rw [← heq]
    exact hlt f hf

/-- The largest fragment is odd, unless all are zero and none is kept. -/
theorem maxFragment_odd {frags : List Frag}
    (hodd : ∀ f ∈ frags, f.fragment = 0 ∨ f.fragment % 2 = 1) :
    maxFragment frags % 2 = 1 ∨ frags.rdropWhile (·.fragment = 0) = [] := by
  obtain ⟨hle, hmax⟩ := maxFragment_spec frags
  have hnone : maxFragment frags = 0 → frags.rdropWhile (·.fragment = 0) = [] := fun hzero =>
    List.rdropWhile_eq_nil_iff.2 fun f hf => decide_eq_true (Nat.le_zero.1 (hzero ▸ hle f hf))
  rcases hmax with hzero | ⟨f, hf, heq⟩
  · exact Or.inr (hnone hzero)
  · rcases hodd f hf with hzero | hone
    · exact Or.inr (hnone (heq ▸ hzero))
    · exact Or.inl (heq ▸ hone)

/-- Below 768 bits no assertion of `mp_get_sw` fails. -/
theorem mp_get_sw_spec (hW : 0 < W) (ha : ∀ i < word_len, a i < 2 ^ W)
    (hbits : word_len * W < 768) :
    ∃ sw, mp_get_sw W a word_len = some sw ∧
      sw.Schedules (word_len * W) (value (2 ^ W) word_len a) := by
  -- the words are cut as one number of `num_bits` bits
  set num_bits := word_len * W with hnum
  set e := value (2 ^ W) word_len a with he
  have he' : e < 2 ^ num_bits := by
    rw [hnum, Nat.mul_comm, pow_mul]
    exact value_lt ha
  -- the fragments before the zeros on top are dropped
  set frags := clnwLoop (fragmentWidth num_bits) num_bits (getBits num_bits e) with hfrags
  have hlength : (getBits num_bits e).length = num_bits := by
    rw [getBits, List.length_map, List.length_range]
  have hbinary : ∀ b ∈ getBits num_bits e, b < 2 := by
    intro b hb
    obtain ⟨i, -, rfl⟩ := List.mem_map.1 hb
    exact Nat.mod_lt _ Nat.two_pos
  obtain ⟨hspan, hcount⟩ := clnwLoop_lengths (fragmentWidth_pos num_bits) hlength.le
  have hlt : ∀ f ∈ frags, f.fragment < 2 ^ fragmentWidth num_bits := clnwLoop_lt hbinary
  rw [← hfrags, hlength] at hspan hcount
  have hle := (maxFragment_spec frags).1
  set kept := frags.rdropWhile (·.fragment = 0) with hkept
  have hinit : kept <+: frags := List.rdropWhile_prefix _ _
  obtain ⟨hodd, htop⟩ := mpGetSw_wellCut num_bits e
  have hsw : mpGetSw num_bits e = kept := rfl
  rw [hsw] at hodd htop
  have hwidth := fragmentWidth_eq hbits
  -- windows of the chosen width leave few enough fragments
  have hcount' : frags.length ≤ MP_SW_MAX_NUM_FRAGS := by
    rw [MP_SW_MAX_NUM_FRAGS]
    rw [hwidth] at hcount
    split_ifs at hcount <;> omega
  have hmaxlt : maxFragment frags < MP_SW_MAX_FRAGMENT := by
    refine (maxFragment_lt (Nat.two_pow_pos _) hlt).trans_le ?_
    rw [hwidth]
    split_ifs <;> decide
  have hmaxodd : maxFragment frags % 2 = 1 ∨ kept = [] :=
    maxFragment_odd (clnwLoop_odd (fragmentWidth_pos num_bits) num_bits _ hbinary)
  refine ⟨⟨setTopLength num_bits kept, maxFragment frags⟩, ?_, ?_⟩
  · rw [mp_get_sw, map_get_bit hW ha]
    exact if_pos ⟨hcount', hmaxlt, hmaxodd⟩
  · -- the length of the top fragment is set afterwards, its value is not
    have hfrom : ∀ f ∈ setTopLength num_bits kept, ∃ g ∈ kept, g.fragment = f.fragment :=
      fun f hf => exists_of_mem_setTopLength hf
    have hlen : (setTopLength num_bits kept).length = kept.length := by
      rw [← List.length_map Frag.fragment, map_fragment_setTopLength, List.length_map]
    refine ⟨?_, fun f hf => ?_, fun f hf => ?_, fun f hf => ?_, hmaxlt, ?_, fun hne => ?_⟩
    · rw [swValue_setTopLength, ← hsw, swValue_mpGetSw, Nat.mod_eq_of_lt he']
    · obtain ⟨g, hg, heq⟩ := hfrom f hf
      rw [← heq]
      exact hodd g hg
    · have hlast : f.fragment ∈ (kept.map Frag.fragment).getLast? := by
        rw [← map_fragment_setTopLength num_bits kept, List.getLast?_map]
        exact Option.mem_map_of_mem Frag.fragment hf
      rw [List.getLast?_map] at hlast
      obtain ⟨g, hg, heq⟩ := Option.mem_map.1 hlast
      rw [← heq]
      exact htop g hg
    · obtain ⟨g, hg, heq⟩ := hfrom f hf
      rw [← heq]
      exact hle g (hinit.subset hg)
    · rw [hlen]
      exact hinit.length_le.trans hcount'
    · have hkeptne : kept ≠ [] := by
        rintro hnil
        rw [hnil] at hne
        exact hne rfl
      -- what was dropped and what was kept cover all bits
      refine bitLength_setTopLength hkeptne ?_
      obtain ⟨dropped, hdropped⟩ := hinit
      rw [← hdropped, bitLength_append] at hspan
      omega

end Schedule

/-! ## The exponentiation -/

section Exponentiation

variable {W : ℕ} {wrap : ℕ → ℕ} {fuel S junk : ℕ} {n np : ℕ → ℕ} {N : ℕ} {mem : ℕ → ℕ}
  {ar_sqr ar_pow ret ar : ℕ} {x : ZMod N}

/-- The blocks of `mp_modexp_cpu`; the table has an entry for every odd fragment. -/
structure PowLayout (S ar_sqr ar_pow ret ar : ℕ) : Prop where
  sqrPow : Apart ar_sqr S ar_pow (MP_SW_MAX_FRAGMENT / 2 * S)
  retPow : Apart ret S ar_pow (MP_SW_MAX_FRAGMENT / 2 * S)
  powAr : Apart ar_pow S ar S

/-- The table of odd powers up to the fragment `max_fragment`. -/
def HoldsPowers (W S N : ℕ) (x : ZMod N) (max_fragment ar_pow : ℕ) (mem : ℕ → ℕ) : Prop :=
  ∀ k ≤ (max_fragment - 1) / 2, HoldsForm W S N mem (ar_pow + k * S) (x ^ (2 * k + 1))

/-- The entries of the table lie in it. -/
theorem power_block {max_fragment k : ℕ} (hmax : max_fragment < MP_SW_MAX_FRAGMENT)
    (hk : k ≤ (max_fragment - 1) / 2) : k * S + S ≤ MP_SW_MAX_FRAGMENT / 2 * S := by
  rw [← Nat.succ_mul]
  refine Nat.mul_le_mul_right S ?_
  rw [MP_SW_MAX_FRAGMENT] at hmax ⊢
  omega

theorem power_apart {k l : ℕ} (h : k < l) : Apart (ar_pow + l * S) S (ar_pow + k * S) S := by
  have hle := block_le h S
  exact Or.inr (by omega)

/-- Squarings in place. -/
theorem squarings_spec (h : MontContext W wrap fuel S junk n np N) (hmem : ∀ k, mem k < 2 ^ W)
    {y : ZMod N} (hret : HoldsForm W S N mem ret y) (count : ℕ) :
    ∃ mem', (List.range count).foldlM
        (fun mem _ => mp_montmul_cpu W wrap fuel S junk mem ret ret ret n np) mem = some mem' ∧
      (∀ k, mem' k < 2 ^ W) ∧ SameOutside ret S mem mem' ∧
      HoldsForm W S N mem' ret (y ^ 2 ^ count) := by
  refine foldlM_range_spec (P := fun i mem' => (∀ k, mem' k < 2 ^ W) ∧
    SameOutside ret S mem mem' ∧ HoldsForm W S N mem' ret (y ^ 2 ^ i)) ?_ ?_
  · exact ⟨hmem, fun _ _ => rfl, by rwa [pow_zero, pow_one]⟩
  · rintro i - mem₁ ⟨hwords, hsame, hform⟩
    obtain ⟨mem₂, hrun, hwords₂, hsame₂, hform₂⟩ := montmul_form h hwords hform hform ret
    refine ⟨mem₂, hrun, hwords₂, fun k hk => (hsame₂ k hk).trans (hsame k hk), ?_⟩
    rwa [← pow_add, ← two_mul, ← pow_succ'] at hform₂

/-- A pass goes on to the power with one fragment more. -/
theorem fragmentPass_spec (h : MontContext W wrap fuel S junk n np N) (hmem : ∀ k, mem k < 2 ^ W)
    {max_fragment : ℕ} (hmax : max_fragment < MP_SW_MAX_FRAGMENT)
    (hlayout : PowLayout S ar_sqr ar_pow ret ar) (hpow : HoldsPowers W S N x max_fragment ar_pow mem)
    {m : ℕ} (hret : HoldsForm W S N mem ret (x ^ m)) {f : Frag}
    (hodd : f.fragment = 0 ∨ f.fragment % 2 = 1) (hle : f.fragment ≤ max_fragment) :
    ∃ mem', fragmentPass W wrap fuel S junk ar_pow ret n np mem f = some mem' ∧
      (∀ k, mem' k < 2 ^ W) ∧ HoldsPowers W S N x max_fragment ar_pow mem' ∧
      HoldsForm W S N mem' ret (x ^ (f.fragment + 2 ^ f.length * m)) := by
  have hframe : ∀ {mem' : ℕ → ℕ}, SameOutside ret S mem mem' →
      HoldsPowers W S N x max_fragment ar_pow mem' := fun hsame k hk =>
    (hpow k hk).frame hsame (hlayout.retPow.sub (power_block hmax hk))
  obtain ⟨mem₁, hrun₁, hwords₁, hsame₁, hform₁⟩ := squarings_spec h hmem hret f.length
  have hsquared : (x ^ m) ^ 2 ^ f.length = x ^ (2 ^ f.length * m) := by
    rw [← pow_mul, Nat.mul_comm]
  rw [hsquared] at hform₁
  rw [fragmentPass, hrun₁, Option.bind_some]
  by_cases hzero : f.fragment = 0
  · rw [if_pos hzero]
    exact ⟨mem₁, rfl, hwords₁, hframe hsame₁, by rwa [hzero, Nat.zero_add]⟩
  · rw [if_neg hzero]
    have hone : f.fragment % 2 = 1 := hodd.resolve_left hzero
    have hentry := hframe hsame₁ (f.fragment / 2) (by omega)
    have hexp : 2 * (f.fragment / 2) + 1 = f.fragment := by omega
    rw [hexp] at hentry
    obtain ⟨mem₂, hrun₂, hwords₂, hsame₂, hform₂⟩ := montmul_form h hwords₁ hform₁ hentry ret
    refine ⟨mem₂, hrun₂, hwords₂, hframe fun k hk => (hsame₂ k hk).trans (hsame₁ k hk), ?_⟩
    rwa [← pow_add, Nat.add_comm] at hform₂

/-- The passes over the lower fragments, from the top down. -/
theorem fragmentPasses_spec (h : MontContext W wrap fuel S junk n np N) {max_fragment : ℕ}
    (hmax : max_fragment < MP_SW_MAX_FRAGMENT) (hlayout : PowLayout S ar_sqr ar_pow ret ar)
    {frags : List Frag}
    (hfrags : ∀ f ∈ frags, (f.fragment = 0 ∨ f.fragment % 2 = 1) ∧ f.fragment ≤ max_fragment)
    (hmem : ∀ k, mem k < 2 ^ W) (hpow : HoldsPowers W S N x max_fragment ar_pow mem) {m : ℕ}
    (hret : HoldsForm W S N mem ret (x ^ m)) :
    ∃ mem', frags.foldlM (fragmentPass W wrap fuel S junk ar_pow ret n np) mem = some mem' ∧
      (∀ k, mem' k < 2 ^ W) ∧ HoldsForm W S N mem' ret
        (x ^ frags.foldl (fun m f => f.fragment + 2 ^ f.length * m) m) := by
  induction frags generalizing mem m with
  | nil => exact ⟨mem, rfl, hmem, hret⟩
  | cons f frags ih =>
      obtain ⟨hodd, hle⟩ := hfrags f List.mem_cons_self
      obtain ⟨mem₁, hrun₁, hwords₁, hpow₁, hform₁⟩ :=
        fragmentPass_spec h hmem hmax hlayout hpow hret hodd hle
      obtain ⟨mem₂, hrun₂, hwords₂, hform₂⟩ :=
        ih (fun g hg => hfrags g (List.mem_cons_of_mem f hg)) hwords₁ hpow₁ hform₁
      refine ⟨mem₂, ?_, hwords₂, hform₂⟩
      rw [List.foldlM_cons, hrun₁]
      exact hrun₂

/-- The exponent from the top fragment down. -/
theorem foldl_reverse_swValue (frags : List Frag) :
    frags.reverse.foldl (fun m f => f.fragment + 2 ^ f.length * m) 0 = swValue frags := by
  rw [List.foldl_reverse]
  induction frags with
  | nil => rfl
  | cons f fs ih => rw [List.foldr_cons, ih, swValue_cons]

/-- `mp_modexp_cpu` leaves the power to the exponent of its schedule. -/
theorem mp_modexp_spec (h : MontContext W wrap fuel S junk n np N) (hmem : ∀ k, mem k < 2 ^ W)
    (hlayout : PowLayout S ar_sqr ar_pow ret ar) (har : HoldsForm W S N mem ar x) {sw : MpSw}
    {num_bits e : ℕ} (hsw : sw.Schedules num_bits e) (he : e ≠ 0) :
    ∃ mem', mp_modexp_cpu W wrap fuel S junk sw ar_sqr ar_pow ret ar n np mem = some mem' ∧
      (∀ k, mem' k < 2 ^ W) ∧ HoldsForm W S N mem' ret (x ^ e) := by
  have hblock : ∀ {k}, k ≤ (sw.max_fragment - 1) / 2 →
      k * S + S ≤ MP_SW_MAX_FRAGMENT / 2 * S := power_block hsw.max_lt
  have hfirst := hlayout.sqrPow.sub (hblock (Nat.zero_le _))
  rw [Nat.zero_mul, Nat.add_zero] at hfirst
  -- the first power and its square
  obtain ⟨hcopied, -⟩ := har.copy hlayout.powAr
  obtain ⟨mem₁, hrun₁, hwords₁, hsame₁, hsquare⟩ :=
    montmul_form h (copy_lt hmem hlayout.powAr) hcopied hcopied ar_sqr
  -- the table
  obtain ⟨mem₂, hrun₂, hwords₂, -, hpow⟩ := foldlM_range_spec
    (f := fun mem k => mp_montmul_cpu W wrap fuel S junk mem (ar_pow + (k + 1) * S)
      (ar_pow + k * S) ar_sqr n np) (n := (sw.max_fragment - 1) / 2) (s := mem₁)
    (P := fun i mem' => (∀ k, mem' k < 2 ^ W) ∧ HoldsForm W S N mem' ar_sqr (x * x) ∧
      ∀ k ≤ i, HoldsForm W S N mem' (ar_pow + k * S) (x ^ (2 * k + 1)))
    ⟨hwords₁, hsquare, fun k hk => by
      rw [Nat.le_zero.1 hk, Nat.zero_mul, Nat.add_zero, Nat.mul_zero, Nat.zero_add, pow_one]
      exact hcopied.frame hsame₁ hfirst⟩ (by
    rintro i hi mem' ⟨hwords, hsqr, hpowers⟩
    obtain ⟨mem'', hrun, hwords', hsame, hproduct⟩ :=
      montmul_form h hwords (hpowers i le_rfl) hsqr (ar_pow + (i + 1) * S)
    refine ⟨mem'', hrun, hwords', hsqr.frame hsame (hlayout.sqrPow.sub (hblock hi)).symm,
      fun k hk => ?_⟩
    rcases Nat.lt_succ_iff_lt_or_eq.1 (Nat.lt_succ_of_le hk) with hlt | rfl
    · exact (hpowers k (Nat.le_of_lt_succ hlt)).frame hsame (power_apart hlt)
    · have hexp : x ^ (2 * i + 1) * (x * x) = x ^ (2 * (i + 1) + 1) := by ring
      rwa [hexp] at hproduct)
  have hfrags : ∀ f ∈ sw.frags.reverse,
      (f.fragment = 0 ∨ f.fragment % 2 = 1) ∧ f.fragment ≤ sw.max_fragment := fun f hf =>
    ⟨hsw.odd f (List.mem_reverse.1 hf), hsw.le_max f (List.mem_reverse.1 hf)⟩
  have hexponent := foldl_reverse_swValue sw.frags
  have htop := hsw.top
  rw [List.getLast?_eq_head?_reverse] at htop
  rw [mp_modexp_cpu, hrun₁, Option.bind_some, hrun₂, Option.bind_some]
  rw [hsw.value] at hexponent
  cases hreverse : sw.frags.reverse with
  | nil =>
      rw [hreverse] at hexponent
      exact absurd hexponent.symm he
  | cons top rest =>
      rw [hreverse] at hexponent htop hfrags
      obtain ⟨htopodd, htople⟩ := hfrags top List.mem_cons_self
      have hone : top.fragment % 2 = 1 := htopodd.resolve_left (htop top rfl)
      have hindex : top.fragment / 2 ≤ (sw.max_fragment - 1) / 2 := by omega
      have hexp : 2 * (top.fragment / 2) + 1 = top.fragment := by omega
      have hapart := hlayout.retPow.sub (hblock hindex)
      have hentry := hpow _ hindex
      rw [hexp] at hentry
      obtain ⟨hret, hsame₃⟩ := hentry.copy hapart
      have hpow₃ : HoldsPowers W S N x sw.max_fragment ar_pow
          (copy S ret (ar_pow + top.fragment / 2 * S) mem₂) := fun k hk =>
        (hpow k hk).frame hsame₃ (hlayout.retPow.sub (hblock hk))
      obtain ⟨mem₄, hrun₄, hwords₄, hpower⟩ := fragmentPasses_spec h hsw.max_lt hlayout
        (fun f hf => hfrags f (List.mem_cons_of_mem top hf)) (copy_lt hwords₂ hapart) hpow₃ hret
      refine ⟨mem₄, hrun₄, hwords₄, ?_⟩
      rw [List.foldl_cons, Nat.mul_zero, Nat.add_zero] at hexponent
      rwa [hexponent] at hpower

/-- `mp_modexp_mont_cpu` leaves the reduced power, for the exponent zero as well. -/
theorem mp_modexp_mont_spec (h : MontContext W wrap fuel S junk n np N) (hN : 1 < N)
    (hmem : ∀ k, mem k < 2 ^ W) {one s_a a r_sq A square : ℕ}
    (hlayout : PowLayout S ar_sqr ar_pow ret s_a) (hone : Apart one S ret S)
    (ha : HoldsNumber W S mem a A) (hsquare : HoldsNumber W S mem r_sq square) (hlt : square < N)
    (hsq : (square : ZMod N) = 2 ^ (W * S) * 2 ^ (W * S)) {sw : MpSw} {num_bits e : ℕ}
    (hsw : sw.Schedules num_bits e) :
    ∃ mem', mp_modexp_mont_cpu W wrap fuel S junk sw one s_a ar_sqr ar_pow ret a r_sq n np mem =
        some mem' ∧ HoldsNumber W S mem' ret (A ^ e % N) := by
  have hW : 1 < 2 ^ W := Nat.lt_of_succ_lt h.word
  rw [mp_modexp_mont_cpu]
  by_cases hnil : sw.frags = []
  · have hzero : e = 0 := by rw [← hsw.value, hnil, swValue_nil]
    rw [if_pos hnil, hzero, pow_zero, Nat.mod_eq_of_lt hN]
    exact ⟨_, rfl, (holdsNumber_make_one h.size hW).1⟩
  · have he : e ≠ 0 := by
      rw [← hsw.value]
      exact swValue_ne_zero (List.getLast_mem hnil)
        (hsw.top _ (List.getLast?_eq_some_getLast hnil))
    obtain ⟨mem₁, hrun₁, hwords₁, -, henter⟩ := montmul_enter h hmem ha hsquare hlt hsq s_a
    obtain ⟨mem₂, hrun₂, hwords₂, hpower⟩ := mp_modexp_spec h hwords₁ hlayout henter hsw he
    obtain ⟨hone₃, hsame₃⟩ := @holdsNumber_make_one W S one mem₂ h.size hW
    obtain ⟨mem₄, hrun₄, -, -, u, hu, hueq, hnumber⟩ := montmul_leave h
      (make_one_lt h.size hW hwords₂) (hpower.frame hsame₃ hone) hone₃ ret
    rw [if_neg hnil, hrun₁, Option.bind_some, hrun₂, Option.bind_some]
    refine ⟨mem₄, hrun₄, ?_⟩
    have hmod : u ≡ A ^ e [MOD N] := by
      refine (ZMod.natCast_eq_natCast_iff _ _ _).1 ?_
      rw [hueq]
      push_cast
      rfl
    rwa [← Nat.mod_eq_of_lt hu, hmod] at hnumber

end Exponentiation

/-! ## Merged schedules -/

section Merge

variable {M : Type*} [CommMonoid M]

/-- The run of a merged schedule, from its last entry to its first. -/
def multiRun (base : ℕ → M) (entries : List MultiFrag) : M :=
  entries.foldr (fun f r => forLoop f.length (fun _ r => r * r) r * base f.base ^ f.fragment) 1

theorem squarings_eq (count : ℕ) (r : M) : forLoop count (fun _ r => r * r) r = r ^ 2 ^ count := by
  induction count with
  | zero => rw [forLoop_zero, pow_zero, pow_one]
  | succ count ih => rw [forLoop_succ, ih, pow_succ, pow_mul, pow_two]

/-- The position of a state and its factor. -/
def SwState.place (base : ℕ → M) (s : SwState) : ℕ × M :=
  (s.nextFragLoc, base s.base ^ s.fragment)

/-- The entries of sorted states are the steps for their places. -/
theorem multiRun_multiFrags (base : ℕ → M) (cur : ℕ) (states : List SwState) :
    multiRun base (multiFrags cur states).reverse =
      run (gaps cur (states.map (SwState.place base))) 1 := by
  have hrun : ∀ (cur : ℕ) (states : List SwState) (r : M),
      (multiFrags cur states).foldl
          (fun r f => forLoop f.length (fun _ r => r * r) r * base f.base ^ f.fragment) r =
        run (gaps cur (states.map (SwState.place base))) r := by
    intro cur states r
    induction states generalizing cur r with
    | nil => rfl
    | cons s states ih =>
        rw [multiFrags, List.foldl_cons, ih, squarings_eq]
        rfl
  rw [multiRun, List.foldr_reverse]
  exact hrun cur states 1

theorem pushStates_append (base loc : ℕ) (fs gs : List Frag) :
    pushStates base loc (fs ++ gs) =
      pushStates base loc fs ++ pushStates base (loc + bitLength fs) gs := by
  induction fs generalizing loc with
  | nil => rfl
  | cons f fs ih =>
      rw [List.cons_append, pushStates, ih, pushStates, List.cons_append, bitLength_cons,
        Nat.add_assoc]

theorem bitLength_reverse (frags : List Frag) : bitLength frags.reverse = bitLength frags := by
  rw [bitLength, List.map_reverse, List.sum_reverse, bitLength]

/-- The states of a base lie within the bits of its fragments. -/
theorem pushStates_loc_le (base loc : ℕ) (frags : List Frag) :
    ∀ s ∈ pushStates base loc frags, s.nextFragLoc ≤ loc + bitLength frags := by
  induction frags generalizing loc with
  | nil => exact fun s hs => absurd hs List.not_mem_nil
  | cons f fs ih =>
      intro s hs
      rw [bitLength_cons]
      rcases List.mem_cons.1 hs with rfl | hs
      · exact Nat.add_le_add_left (Nat.le_add_right _ _) loc
      · have := ih _ s hs
        omega

/-- The lowest fragment is the one furthest from the top. -/
theorem exists_pushStates_loc {frags : List Frag} (hne : frags ≠ []) (base loc : ℕ) :
    ∃ s ∈ pushStates base loc frags, s.nextFragLoc = loc + bitLength frags := by
  induction frags generalizing loc with
  | nil => exact absurd rfl hne
  | cons f fs ih =>
      rw [pushStates, bitLength_cons]
      rcases eq_or_ne fs [] with rfl | hfs
      · exact ⟨_, List.mem_cons_self, by simp⟩
      · obtain ⟨s, hs, hloc⟩ := ih hfs (loc + f.length)
        exact ⟨s, List.mem_cons_of_mem _ hs, by omega⟩

/-- The factors of one base multiply to its power. -/
theorem product_pushStates (base : ℕ → M) (i : ℕ) (frags : List Frag) :
    product (bitLength frags) ((pushStates i 0 frags.reverse).map (SwState.place base)) =
      base i ^ swValue frags := by
  induction frags with
  | nil => rw [swValue_nil, pow_zero]; rfl
  | cons f fs ih =>
      have hbelow : ∀ e ∈ (pushStates i 0 fs.reverse).map (SwState.place base),
          e.1 ≤ bitLength fs := by
        intro e he
        obtain ⟨s, hs, rfl⟩ := List.mem_map.1 he
        have hle := pushStates_loc_le i 0 fs.reverse s hs
        rwa [bitLength_reverse, Nat.zero_add] at hle
      rw [List.reverse_cons, pushStates_append, List.map_append, product_append, bitLength_cons,
        Nat.add_comm f.length, product_add hbelow, ih, bitLength_reverse, swValue_cons]
      simp only [pushStates, List.map_cons, List.map_nil, product_cons, product_nil, SwState.place,
        Nat.zero_add, Nat.sub_self, pow_zero, pow_one, mul_one]
      rw [← pow_mul, ← pow_add, Nat.add_comm f.fragment, Nat.mul_comm]

/-- The factors of several bases. -/
theorem product_range_flatMap (top : ℕ) (g : ℕ → List (ℕ × M)) (count : ℕ) :
    product top ((List.range count).flatMap g) = ∏ i ∈ Finset.range count, product top (g i) := by
  induction count with
  | zero => rfl
  | succ count ih =>
      rw [List.range_succ, List.flatMap_append, product_append, ih, Finset.prod_range_succ,
        List.flatMap_singleton]

/-- The states of all bases, sorted in any way. -/
theorem multiRun_spec (base : ℕ → M) {num_bits count : ℕ} {sw : ℕ → MpSw} {e : ℕ → ℕ}
    (hsw : ∀ i < count, (sw i).Schedules num_bits (e i)) {sorted : List SwState}
    (hperm : sorted.Perm
      ((List.range count).flatMap fun i => pushStates i 0 (sw i).frags.reverse))
    (hsorted : sorted.Pairwise fun s s' => s'.nextFragLoc ≤ s.nextFragLoc) :
    multiRun base (multiFrags 0 sorted.reverse).reverse =
      ∏ i ∈ Finset.range count, base i ^ e i := by
  have hspan : ∀ i < count, ∀ s ∈ pushStates i 0 (sw i).frags.reverse,
      s.nextFragLoc ≤ num_bits ∧ ∃ s' ∈ pushStates i 0 (sw i).frags.reverse,
        s'.nextFragLoc = num_bits := by
    intro i hi s hs
    have hne : (sw i).frags ≠ [] := by
      intro hnil
      rw [hnil] at hs
      exact List.not_mem_nil hs
    have hbits := (hsw i hi).span hne
    obtain ⟨s', hs', hloc⟩ :=
      exists_pushStates_loc (fun h => hne (List.reverse_eq_nil_iff.1 h)) i 0
    have hle := pushStates_loc_le i 0 _ s hs
    rw [bitLength_reverse, Nat.zero_add, hbits] at hle hloc
    exact ⟨hle, s', hs', hloc⟩
  have hproduct : product num_bits (sorted.map (SwState.place base)) =
      ∏ i ∈ Finset.range count, base i ^ e i := by
    rw [product_perm (hperm.map _), List.map_flatMap, product_range_flatMap]
    refine Finset.prod_congr rfl fun i hi => ?_
    have hi' := Finset.mem_range.1 hi
    rcases eq_or_ne (sw i).frags [] with hnil | hne
    · rw [← (hsw i hi').value, hnil, swValue_nil, pow_zero]
      rfl
    · rw [← (hsw i hi').span hne, product_pushStates, (hsw i hi').value]
  rw [multiRun_multiFrags, ← hproduct, List.map_reverse,
    product_perm (List.reverse_perm (sorted.map (SwState.place base))).symm]
  -- every exponent zero leaves nothing to run
  rcases eq_or_ne sorted [] with rfl | hne
  · rfl
  have hfrom : ∀ s ∈ sorted, s.nextFragLoc ≤ num_bits ∧
      ∃ s' ∈ sorted, s'.nextFragLoc = num_bits := by
    intro s hs
    obtain ⟨i, hi, hmem⟩ := List.mem_flatMap.1 (hperm.subset hs)
    obtain ⟨hle, s', hs', hloc⟩ := hspan i (List.mem_range.1 hi) s hmem
    exact ⟨hle, s', hperm.symm.subset (List.mem_flatMap.2 ⟨i, hi, hs'⟩), hloc⟩
  obtain ⟨s, hs⟩ := List.exists_mem_of_ne_nil sorted hne
  have hback : ∀ e, e ∈ (sorted.map (SwState.place base)).reverse ↔
      ∃ s ∈ sorted, s.place base = e := fun e => by rw [List.mem_reverse, List.mem_map]
  rw [@run_gaps M _ 0 num_bits, one_pow, one_mul]
  · rw [List.pairwise_reverse, List.pairwise_map]
    exact hsorted
  · exact fun _ _ => Nat.zero_le _
  · intro e he
    obtain ⟨s, hs, rfl⟩ := (hback e).1 he
    exact (hfrom s hs).1
  · intro hnil
    exact absurd (List.map_eq_nil_iff.1 (List.reverse_eq_nil_iff.1 hnil)) hne
  · obtain ⟨-, s', hs', hloc⟩ := hfrom s hs
    exact fun _ => ⟨_, (hback _).2 ⟨s', hs', rfl⟩, hloc⟩

theorem length_multiFrags (cur : ℕ) (states : List SwState) :
    (multiFrags cur states).length = states.length := by
  induction states generalizing cur with
  | nil => rfl
  | cons s states ih => rw [multiFrags, List.length_cons, ih, List.length_cons]

theorem length_pushStates (base loc : ℕ) (frags : List Frag) :
    (pushStates base loc frags).length = frags.length := by
  induction frags generalizing loc with
  | nil => rfl
  | cons f fs ih => rw [pushStates, List.length_cons, ih, List.length_cons]

theorem mapM_eq_map {α β : Type*} {f : α → Option β} {g : α → β} {l : List α}
    (h : ∀ i ∈ l, f i = some (g i)) : l.mapM f = some (l.map g) := by
  induction l with
  | nil => rfl
  | cons i l ih =>
      rw [List.mapM_cons, h i List.mem_cons_self,
        ih fun j hj => h j (List.mem_cons_of_mem i hj)]
      rfl

/-- The merged schedule of exponents within the bit lengths. -/
theorem mp_get_multi_sw_spec {sort : List SwState → List SwState}
    (hperm : ∀ l, (sort l).Perm l)
    (hsorted : ∀ l, (sort l).Pairwise fun s s' => s'.nextFragLoc ≤ s.nextFragLoc) {W : ℕ}
    (hW : 0 < W) {bases : ℕ → ℕ} {num_bases num_limbs : ℕ} (hlow : 0 < num_bases)
    (hhigh : num_bases ≤ MP_MAX_MULTI_EXP) (hwords : ∀ k, bases k < 2 ^ W)
    (hbits : num_limbs * W < 768) :
    ∃ multi, mp_get_multi_sw sort W bases num_bases num_limbs = some multi ∧
      multi.entries.length ≤ MP_SW_MAX_NUM_FRAGS * MP_MAX_MULTI_EXP ∧
      ∀ base : ℕ → M, multiRun base multi.entries = ∏ i ∈ Finset.range num_bases,
        base i ^ value (2 ^ W) num_limbs fun k => bases (i * num_limbs + k) := by
  -- each base is cut on its own
  have hget : ∀ i, ∃ sw, mp_get_sw W (fun k => bases (i * num_limbs + k)) num_limbs = some sw ∧
      sw.Schedules (num_limbs * W) (value (2 ^ W) num_limbs fun k => bases (i * num_limbs + k)) :=
    fun i => mp_get_sw_spec hW (fun k _ => hwords _) hbits
  choose sw hsome hsw using hget
  have hrows : ((List.range num_bases).mapM fun i =>
      (mp_get_sw W (fun k => bases (i * num_limbs + k)) num_limbs).map fun sw =>
        (sw.max_fragment, pushStates i 0 sw.frags.reverse)) =
      some ((List.range num_bases).map fun i =>
        ((sw i).max_fragment, pushStates i 0 (sw i).frags.reverse)) :=
    mapM_eq_map fun i _ => by rw [hsome i, Option.map_some]
  rw [mp_get_multi_sw, if_pos ⟨hlow, hhigh⟩, hrows, Option.map_some]
  refine ⟨_, rfl, ?_, fun base => ?_⟩
  · dsimp only
    rw [List.length_reverse, length_multiFrags, List.length_reverse, (hperm _).length_eq,
      List.flatMap_map, List.length_flatMap]
    -- a row has no more states than the array of one base
    have hcount : ∀ k ∈ (List.range num_bases).map
        fun i => (pushStates i 0 (sw i).frags.reverse).length, k ≤ MP_SW_MAX_NUM_FRAGS := by
      intro k hk
      obtain ⟨i, -, rfl⟩ := List.mem_map.1 hk
      rw [length_pushStates, List.length_reverse]
      exact (hsw i).count
    have hsum := List.sum_le_card_nsmul _ _ hcount
    rw [List.length_map, List.length_range, smul_eq_mul] at hsum
    refine hsum.trans ?_
    rw [Nat.mul_comm]
    exact Nat.mul_le_mul_left _ hhigh
  · -- the sort only permutes the rows
    refine multiRun_spec base (fun i _ => hsw i) ?_ (hsorted _)
    refine (hperm _).trans ?_
    rw [List.flatMap_map]

end Merge

/-! ## The result -/

section Result

variable {W S N : ℕ} {wrap : ℕ → ℕ} {fuel junk : ℕ} {n np : ℕ → ℕ}

/-- Below 768 bits a schedule stands for its exponent and keeps to the bounds of the arrays, and
`mp_modexp_cpu` on it leaves the power to the exponent. The merged schedule of up to
`MP_MAX_MULTI_EXP` exponents runs to the product of the powers, for every sort. -/
theorem sliding_windows {M : Type*} [CommMonoid M]
    (h : MontContext W wrap fuel S junk n np N) :
    (∀ (word_len : ℕ) (a : ℕ → ℕ), (∀ i < word_len, a i < 2 ^ W) → word_len * W < 768 →
      value (2 ^ W) word_len a ≠ 0 →
      ∃ sw, mp_get_sw W a word_len = some sw ∧
        value (2 ^ W) word_len a =
          ∑ k : Fin sw.frags.length,
            (sw.frags.get k).fragment * 2 ^ bitLength (sw.frags.take k) ∧
        (∀ f ∈ sw.frags, f.fragment ≠ 0 →
          f.fragment % 2 = 1 ∧ f.fragment ≤ sw.max_fragment) ∧
        sw.max_fragment < MP_SW_MAX_FRAGMENT ∧ sw.frags.length ≤ MP_SW_MAX_NUM_FRAGS ∧
        ∀ (ar_sqr ar_pow ret ar : ℕ) (mem : ℕ → ℕ) (x : ZMod N),
          PowLayout S ar_sqr ar_pow ret ar → (∀ k, mem k < 2 ^ W) →
          HoldsForm W S N mem ar x →
          ∃ mem', mp_modexp_cpu W wrap fuel S junk sw ar_sqr ar_pow ret ar n np mem =
              some mem' ∧ HoldsForm W S N mem' ret (x ^ value (2 ^ W) word_len a)) ∧
    ∀ (sort : List SwState → List SwState) (bases : ℕ → ℕ) (num_bases num_limbs : ℕ),
      (∀ l, (sort l).Perm l) →
      (∀ l, (sort l).Pairwise fun s s' => s'.nextFragLoc ≤ s.nextFragLoc) →
      0 < num_bases → num_bases ≤ MP_MAX_MULTI_EXP → (∀ k, bases k < 2 ^ W) →
      num_limbs * W < 768 →
      ∃ multi, mp_get_multi_sw sort W bases num_bases num_limbs = some multi ∧
        multi.entries.length ≤ MP_SW_MAX_NUM_FRAGS * MP_MAX_MULTI_EXP ∧
        ∀ base : ℕ → M, multiRun base multi.entries = ∏ i ∈ Finset.range num_bases,
          base i ^ value (2 ^ W) num_limbs fun k => bases (i * num_limbs + k) := by
  have hW : 0 < W := by
    refine Nat.pos_of_ne_zero fun hzero => ?_
    have hword := h.word
    rw [hzero] at hword
    exact absurd hword (by decide)
  constructor
  · intro word_len a ha hbits he
    obtain ⟨sw, hsome, hsw⟩ := mp_get_sw_spec hW ha hbits
    refine ⟨sw, hsome, ?_, fun f hf hne => ⟨(hsw.odd f hf).resolve_left hne, hsw.le_max f hf⟩,
      hsw.max_lt, hsw.count, fun ar_sqr ar_pow ret ar mem x hlayout hmem har => ?_⟩
    · rw [← swValue_eq_sum, hsw.value]
    · obtain ⟨mem', hrun, -, hpower⟩ := mp_modexp_spec h hmem hlayout har hsw he
      exact ⟨mem', hrun, hpower⟩
  · intro sort bases num_bases num_limbs hperm hsorted hlow hhigh hwords hbits
    exact mp_get_multi_sw_spec hperm hsorted hW hlow hhigh hwords hbits

/-- The exponents `11` and `0` with the base `2`. -/
theorem sliding_windows_eleven :
    (∃ sw, mp_get_sw 32 (fun _ => 11) 1 = some sw ∧
      ∃ mem', mp_modexp_cpu 32 (· % 2 ^ 32) 2 1 0 sw 0 1 17 18 (fun _ => 5)
          (fun _ => 858993459) (fun k => if k = 18 then 2 else 0) = some mem' ∧
        HoldsForm 32 1 5 mem' 17 (2 ^ 11)) ∧
    ∃ multi, mp_get_multi_sw (·.mergeSort fun s s' => s'.nextFragLoc ≤ s.nextFragLoc) 32
        (fun k => if k = 0 then 11 else 0) 2 1 = some multi ∧
      multiRun (fun _ => 2) multi.entries = 2 ^ 11 := by
  have hnumber : ∀ (p : ℕ → ℕ) (q : ℕ), p q < 2 ^ 32 → HoldsNumber 32 1 p q (p q) :=
    fun p q hp => ⟨fun i hi => by rwa [Nat.lt_one_iff.1 hi, Nat.add_zero], by simp [value]⟩
  have hcontext : MontContext 32 (· % 2 ^ 32) 2 1 0 (fun _ => 5) (fun _ => 858993459) 5 :=
    ⟨holds_mod 32, le_rfl, by decide, by decide, by decide, le_rfl, hnumber _ 0 (by decide), rfl,
      by decide⟩
  obtain ⟨hsingle, hmulti⟩ := sliding_windows (M := ℕ) hcontext
  constructor
  · have hvalue : value (2 ^ 32) 1 (fun _ => 11) = 11 := by simp [value]
    obtain ⟨sw, hsw, -, -, -, -, hrun⟩ := hsingle 1 (fun _ => 11) (fun _ _ => by decide)
      (by decide) (by rw [hvalue]; decide)
    refine ⟨sw, hsw, ?_⟩
    obtain ⟨mem', hmem', hform⟩ := hrun 0 1 17 18 (fun k => if k = 18 then 2 else 0) 2
      ⟨Or.inl (by decide), Or.inr (by decide), Or.inl (by decide)⟩
      (fun k => by split_ifs <;> decide)
      ⟨2, by decide, by decide, hnumber (fun k => if k = 18 then 2 else 0) 18 (by decide)⟩
    exact ⟨mem', hmem', hvalue ▸ hform⟩
  · obtain ⟨multi, hmulti', -, hproduct⟩ := hmulti
      (·.mergeSort fun s s' => s'.nextFragLoc ≤ s.nextFragLoc)
      (fun k => if k = 0 then 11 else 0) 2 1 (fun l => List.mergeSort_perm l _)
      (fun l => by
        have hsorted := @List.pairwise_mergeSort SwState
          (fun s s' => decide (s'.nextFragLoc ≤ s.nextFragLoc))
          (fun a b c hab hbc => by simp only [decide_eq_true_eq] at *; omega)
          (fun a b => by simp only [Bool.or_eq_true, decide_eq_true_eq]; omega) l
        exact hsorted.imp fun hle => of_decide_eq_true hle)
      (by decide) (by decide) (fun k => by split_ifs <;> decide) (by decide)
    refine ⟨multi, hmulti', ?_⟩
    rw [hproduct]
    simp [value]

end Result

end Pepper.LibGpu.SlidingWindows
