import Mathlib.Algebra.MvPolynomial.Basic
import Mathlib.Data.Finsupp.Multiset
import Mathlib.Data.List.Sort
import Pepper.Zcc.Tokens

/-!
# The expansion of a polynomial

`expandPolynomial` multiplies out a bracketed polynomial into terms `constant * v1 * ... * vn`. It
keeps the product that is being read as a list of terms and collects finished products in a
dictionary under the sorted names of each term, dropping a term whose constant becomes zero.

The empty list stands both for a product of which no factor has been read and for a product that
is zero. `Readable` is the condition on the text under which the two are never confused: every
product that has a zero factor ends in a zero factor, and every `-` is followed by a factor. For
such a text the expansion is that of the polynomial the text stands for (`expandPolynomial_eq`),
with one term for each set of names and no zero constants (`Canonical`).
-/

set_option autoImplicit false

namespace Pepper.Zcc

open Pepper.Foundations

universe u v

/-- A list of factors, with a constant in front of the names if there is one. -/
structure Term (ν : Type u) where
  const : Option ℤ
  factors : List ν
deriving DecidableEq, Repr

namespace Term

variable {ν : Type u} {R : Type v} [CommRing R]

/-- The constant of a term, `1` if none is written. -/
def coeff (t : Term ν) : ℤ := t.const.getD 1

/-- The value of a term. -/
def value (ρ : ν → R) (t : Term ν) : R := (t.coeff : R) * (t.factors.map ρ).prod

end Term

/-- The union of two factor lists, with the product of the constants in front. A zero constant
gives no term. -/
def productTerm {ν : Type u} (a b : Term ν) : List (Term ν) :=
  match a.const, b.const with
  | some x, some y => if x * y = 0 then [] else [⟨some (x * y), a.factors ++ b.factors⟩]
  | none, some y => [⟨some y, a.factors ++ b.factors⟩]
  | c, none => [⟨c, a.factors ++ b.factors⟩]

/-- The loop state: the terms of the product that is being read, and the dictionary of the terms
collected so far, each kept under its sorted names. -/
structure ExpandState (ν : Type u) where
  multiply : List (Term ν)
  expansion : List (Term ν)
deriving DecidableEq, Repr

section Code

variable {ν : Type u} [LinearOrder ν]

/-- Adds a term to the dictionary: the constants of equal terms are added, and a term whose
constant becomes zero is deleted. -/
def expandAddTerm (expansion : List (Term ν)) (termlist : Term ν) : List (Term ν) :=
  let mults := termlist.coeff
  let key := termlist.factors.insertionSort (· ≤ ·)
  match expansion.find? (fun e => e.factors = key) with
  | some gotlist =>
      let multo := gotlist.coeff + mults
      let rest := expansion.filter (fun e => e.factors ≠ key)
      if multo = 0 then rest else rest ++ [⟨some multo, key⟩]
  | none => expansion ++ [⟨some mults, key⟩]

namespace ExpandState

/-- At `)`, `+` or `-` the terms of the product go to the dictionary. -/
def flush (s : ExpandState ν) : ExpandState ν :=
  ⟨[], s.multiply.foldl expandAddTerm s.expansion⟩

/-- The factor is a constant or a name. -/
def token (s : ExpandState ν) (tok : Term ν) : ExpandState ν :=
  { s with multiply :=
      if s.multiply = [] then productTerm ⟨some 1, []⟩ tok
      else s.multiply.flatMap fun term1 => productTerm tok term1 }

/-- The factor is a bracketed polynomial, already expanded. -/
def recurse (s : ExpandState ν) (subPoly : List (Term ν)) : ExpandState ν :=
  { s with multiply :=
      if s.multiply = [] then subPoly
      else s.multiply.flatMap fun term1 => subPoly.flatMap fun term2 => productTerm term1 term2 }

end ExpandState

/-- The loop of `expand_polynomial`. A stop mark does not occur in a spec, and running out of
tokens is an exception. -/
def expandReader : BracketReader (Atom ν) (ExpandState ν) (List (Term ν)) where
  start _ := some ⟨[], []⟩
  atom s
    | .plus => s.flush
    | .minus => { s.flush with multiply := s.flush.multiply ++ [⟨some (-1), []⟩] }
    | .times => s
    | .blank => s
    | .const n => s.token ⟨some n, []⟩
    | .name x => s.token ⟨none, [x]⟩
  group s subPoly := s.recurse subPoly
  finish s := s.flush.expansion
  stop _ := none
  exhausted _ := none

/-- Takes a polynomial which starts with an opening bracket, reads up to the matching closing
bracket, and returns the terms together with the tokens that follow. -/
def expandPolynomial : List (Token ν) → Option (List (Term ν) × List (Token ν))
  | .opening :: tokens =>
      (expandReader.start 0).bind fun s => expandReader.read tokens.length 0 s tokens
  | _ => none

end Code

/-! ## Terms and their values -/

section Values

variable {ν : Type u} {R : Type v} [CommRing R]

/-- The sum of a list of terms. -/
def termsValue (ρ : ν → R) (e : List (Term ν)) : R := (e.map (Term.value ρ)).sum

@[simp] theorem termsValue_nil (ρ : ν → R) : termsValue ρ ([] : List (Term ν)) = 0 := rfl

@[simp] theorem termsValue_cons (ρ : ν → R) (t : Term ν) (e : List (Term ν)) :
    termsValue ρ (t :: e) = t.value ρ + termsValue ρ e := by
  simp [termsValue]

@[simp] theorem termsValue_append (ρ : ν → R) (e e' : List (Term ν)) :
    termsValue ρ (e ++ e') = termsValue ρ e + termsValue ρ e' := by
  simp [termsValue]

theorem termsValue_perm (ρ : ν → R) {e e' : List (Term ν)} (h : e.Perm e') :
    termsValue ρ e = termsValue ρ e' :=
  (h.map _).sum_eq

/-- A ring homomorphism maps the sum of the terms to their sum under the mapped values. -/
theorem map_termsValue {S : Type*} [CommRing S] (f : R →+* S) (ρ : ν → R) (e : List (Term ν)) :
    f (termsValue ρ e) = termsValue (fun x => f (ρ x)) e := by
  induction e with
  | nil => simp
  | cons t e ih =>
      simp only [termsValue_cons, map_add, ih, Term.value, map_mul, map_intCast, map_list_prod,
        List.map_map]
      rfl

theorem productTerm_value (ρ : ν → R) (a b : Term ν) :
    termsValue ρ (productTerm a b) = a.value ρ * b.value ρ := by
  obtain ⟨ca, fa⟩ := a
  obtain ⟨cb, fb⟩ := b
  cases ca with
  | none =>
      cases cb with
      | none => simp [productTerm, Term.value, Term.coeff]
      | some y =>
          simp [productTerm, Term.value, Term.coeff]
          ring
  | some x =>
      cases cb with
      | none =>
          simp [productTerm, Term.value, Term.coeff]
          ring
      | some y =>
          by_cases hxy : x * y = 0
          · have hcast : (x : R) * (y : R) = 0 := by exact_mod_cast congrArg (Int.cast (R := R)) hxy
            have hzero : (x : R) * (fa.map ρ).prod * ((y : R) * (fb.map ρ).prod) = 0 := by
              rw [mul_mul_mul_comm, hcast, zero_mul]
            simp [productTerm, hxy, Term.value, Term.coeff, hzero]
          · simp [productTerm, hxy, Term.value, Term.coeff]
            ring

/-- A term as the expansion writes it: a constant in front, which is not zero. -/
def Term.Proper (t : Term ν) : Prop := ∃ c, t.const = some c ∧ c ≠ 0

theorem productTerm_proper {a b : Term ν} (ha : a.const ≠ some 0) (hb : b.Proper) :
    ∃ t, productTerm a b = [t] ∧ t.Proper := by
  obtain ⟨ca, fa⟩ := a
  obtain ⟨cb, fb⟩ := b
  obtain ⟨y, rfl, hy⟩ := hb
  cases ca with
  | none => exact ⟨_, rfl, y, rfl, hy⟩
  | some x =>
      have hx : x ≠ 0 := fun h => ha (by rw [h])
      have hxy : x * y ≠ 0 := mul_ne_zero hx hy
      exact ⟨⟨some (x * y), fa ++ fb⟩, if_neg hxy, x * y, rfl, hxy⟩

theorem productTerm_zero {a b : Term ν} (ha : a.const = some 0) (hb : b.Proper) :
    productTerm a b = [] := by
  obtain ⟨ca, fa⟩ := a
  obtain ⟨cb, fb⟩ := b
  obtain ⟨y, rfl, -⟩ := hb
  obtain rfl : ca = some 0 := ha
  exact if_pos (zero_mul y)

theorem Term.Proper.const_ne {t : Term ν} (h : t.Proper) : t.const ≠ some 0 := by
  obtain ⟨c, hc, hne⟩ := h
  rw [hc]
  exact fun h0 => hne (Option.some.inj h0)

theorem Term.Proper.coeff_ne {t : Term ν} (h : t.Proper) : t.coeff ≠ 0 := by
  obtain ⟨c, hc, hne⟩ := h
  simpa [Term.coeff, hc] using hne

end Values

/-! ## Products of lists of terms -/

/-- The facts about a list of terms that multiplies out two others. -/
structure IsProduct {ν : Type u} (a b c : List (Term ν)) : Prop where
  value : termsValue (MvPolynomial.X (R := ℤ)) c =
    termsValue MvPolynomial.X a * termsValue MvPolynomial.X b
  proper : ∀ t ∈ c, t.Proper
  vanish : b = [] → c = []
  nonempty : a ≠ [] → b ≠ [] → c ≠ []

section Products

variable {ν : Type u}

theorem intCast_eq_C (c : ℤ) : (c : MvPolynomial ν ℤ) = MvPolynomial.C c :=
  (map_intCast (MvPolynomial.C (σ := ν) (R := ℤ)) c).symm

theorem flatMap_value {R : Type v} [CommRing R] (ρ : ν → R) (a : List (Term ν))
    (f : Term ν → List (Term ν)) (r : R)
    (hf : ∀ t, termsValue ρ (f t) = t.value ρ * r) :
    termsValue ρ (a.flatMap f) = termsValue ρ a * r := by
  induction a with
  | nil => simp
  | cons t a ih => simp [List.flatMap_cons, ih, hf, add_mul]

/-- The double loop over the terms of the product and of the sub-polynomial. -/
theorem isProduct_recurse {a b : List (Term ν)} (ha : ∀ t ∈ a, t.Proper)
    (hb : ∀ t ∈ b, t.Proper) :
    IsProduct a b (a.flatMap fun t₁ => b.flatMap fun t₂ => productTerm t₁ t₂) where
  value := by
    refine flatMap_value _ a _ _ fun t₁ => ?_
    rw [mul_comm]
    refine flatMap_value _ b _ _ fun t₂ => ?_
    rw [productTerm_value, mul_comm]
  proper t ht := by
    obtain ⟨t₁, h₁, ht⟩ := List.mem_flatMap.mp ht
    obtain ⟨t₂, h₂, ht⟩ := List.mem_flatMap.mp ht
    obtain ⟨t', heq, hproper⟩ := productTerm_proper (ha t₁ h₁).const_ne (hb t₂ h₂)
    rw [heq, List.mem_singleton] at ht
    exact ht ▸ hproper
  vanish hb := by simp [hb]
  nonempty hane hbne := by
    obtain ⟨t₁, h₁⟩ := List.exists_mem_of_ne_nil a hane
    obtain ⟨t₂, h₂⟩ := List.exists_mem_of_ne_nil b hbne
    obtain ⟨t', heq, -⟩ := productTerm_proper (ha t₁ h₁).const_ne (hb t₂ h₂)
    refine List.ne_nil_of_mem (a := t') (List.mem_flatMap.mpr ⟨t₁, h₁, ?_⟩)
    exact List.mem_flatMap.mpr ⟨t₂, h₂, by simp [heq]⟩

/-- What a token is worth on its own, as the loop starts a product with it. -/
theorem productTerm_one_proper (tok : Term ν) : ∀ t ∈ productTerm ⟨some 1, []⟩ tok, t.Proper := by
  obtain ⟨c, fs⟩ := tok
  intro t ht
  cases c with
  | none =>
      obtain rfl : t = ⟨some 1, fs⟩ := by simpa [productTerm] using ht
      exact ⟨1, rfl, one_ne_zero⟩
  | some n =>
      by_cases hn : n = 0
      · simp [productTerm, hn] at ht
      · obtain rfl : t = ⟨some n, fs⟩ := by simpa [productTerm, hn] using ht
        exact ⟨n, rfl, hn⟩

theorem productTerm_one_eq_nil {tok : Term ν} :
    productTerm ⟨some 1, []⟩ tok = [] ↔ tok.const = some 0 := by
  obtain ⟨c, fs⟩ := tok
  cases c with
  | none => simp [productTerm]
  | some n => by_cases hn : n = 0 <;> simp [productTerm, hn]

/-- The loop over the terms of the product for a single token. -/
theorem isProduct_token {a : List (Term ν)} (ha : ∀ t ∈ a, t.Proper) (tok : Term ν) :
    IsProduct a (productTerm ⟨some 1, []⟩ tok) (a.flatMap fun t₁ => productTerm tok t₁) where
  value := by
    have htok : termsValue (MvPolynomial.X (R := ℤ)) (productTerm ⟨some 1, []⟩ tok) =
        tok.value MvPolynomial.X := by
      rw [productTerm_value]
      simp [Term.value, Term.coeff]
    rw [htok]
    refine flatMap_value _ a _ _ fun t₁ => ?_
    rw [productTerm_value, mul_comm]
  proper t ht := by
    obtain ⟨t₁, h₁, ht⟩ := List.mem_flatMap.mp ht
    by_cases hzero : tok.const = some 0
    · simp [productTerm_zero hzero (ha t₁ h₁)] at ht
    · obtain ⟨t', heq, hproper⟩ := productTerm_proper hzero (ha t₁ h₁)
      rw [heq, List.mem_singleton] at ht
      exact ht ▸ hproper
  vanish hnil := by
    have hzero := productTerm_one_eq_nil.mp hnil
    rw [List.flatMap_eq_nil_iff]
    exact fun t₁ h₁ => productTerm_zero hzero (ha t₁ h₁)
  nonempty hane hne := by
    have hzero : tok.const ≠ some 0 := fun h => hne (productTerm_one_eq_nil.mpr h)
    obtain ⟨t₁, h₁⟩ := List.exists_mem_of_ne_nil a hane
    obtain ⟨t', heq, -⟩ := productTerm_proper hzero (ha t₁ h₁)
    exact List.ne_nil_of_mem (a := t') (List.mem_flatMap.mpr ⟨t₁, h₁, by simp [heq]⟩)

end Products

/-! ## The dictionary -/

section Dictionary

variable {ν : Type u} [LinearOrder ν]

/-- The form of the dictionary: one term for each sorted list of names, none with a zero
constant. -/
structure Canonical (e : List (Term ν)) : Prop where
  keys : (e.map Term.factors).Nodup
  sorted : ∀ t ∈ e, t.factors.Pairwise (· ≤ ·)
  proper : ∀ t ∈ e, t.Proper

theorem canonical_nil : Canonical ([] : List (Term ν)) where
  keys := List.nodup_nil
  sorted _ h := absurd h List.not_mem_nil
  proper _ h := absurd h List.not_mem_nil

/-- Looking a key up and deleting it takes one term out of the dictionary. -/
theorem perm_of_find {e : List (Term ν)} (hkeys : (e.map Term.factors).Nodup) {key : List ν}
    {got : Term ν} (h : e.find? (fun t => t.factors = key) = some got) :
    got.factors = key ∧ e.Perm (got :: e.filter (fun t => t.factors ≠ key)) := by
  have hkey : got.factors = key := by simpa using List.find?_some h
  refine ⟨hkey, ?_⟩
  induction e with
  | nil => simp at h
  | cons t e ih =>
      rw [List.map_cons, List.nodup_cons] at hkeys
      by_cases ht : t.factors = key
      · obtain rfl : t = got := by simpa [List.find?_cons, ht] using h
        have hrest : e.filter (fun t => t.factors ≠ key) = e := by
          rw [List.filter_eq_self]
          intro t' ht'
          have hne : t'.factors ≠ t.factors := fun heq =>
            hkeys.1 (heq ▸ List.mem_map_of_mem ht')
          simpa [ht] using hne
        simp only [List.filter_cons, ht, ne_eq, not_true_eq_false, decide_false,
          Bool.false_eq_true, ↓reduceIte]
        simp only [ne_eq] at hrest
        rw [hrest]
      · have hfind : e.find? (fun t => t.factors = key) = some got := by
          simpa [List.find?_cons, ht] using h
        have hperm := ih hkeys.2 hfind
        simp only [List.filter_cons, ne_eq, ht, not_false_eq_true, decide_true, ↓reduceIte]
        exact (hperm.cons t).trans (List.Perm.swap _ _ _)

theorem insertionSort_value {R : Type v} [CommRing R] (ρ : ν → R) (l : List ν) :
    ((l.insertionSort (· ≤ ·)).map ρ).prod = (l.map ρ).prod :=
  ((List.perm_insertionSort (· ≤ ·) l).map ρ).prod_eq

/-- Adding a term to the dictionary adds its value. -/
theorem expandAddTerm_value {R : Type v} [CommRing R] (ρ : ν → R) {e : List (Term ν)}
    (hkeys : (e.map Term.factors).Nodup) (t : Term ν) :
    termsValue ρ (expandAddTerm e t) = termsValue ρ e + t.value ρ := by
  simp only [expandAddTerm]
  split
  · next got hgot =>
      obtain ⟨hkey, hperm⟩ := perm_of_find hkeys hgot
      have hsplit : termsValue ρ e = got.value ρ +
          termsValue ρ (e.filter fun t' => t'.factors ≠ t.factors.insertionSort (· ≤ ·)) := by
        rw [termsValue_perm ρ hperm, termsValue_cons]
      have hgotValue : got.value ρ = (got.coeff : R) * (t.factors.map ρ).prod := by
        rw [Term.value, hkey, insertionSort_value]
      have hsum : got.value ρ + t.value ρ =
          ((got.coeff + t.coeff : ℤ) : R) * (t.factors.map ρ).prod := by
        rw [hgotValue, Term.value, Int.cast_add]
        ring
      split
      · next hzero =>
          rw [hsplit, add_right_comm, hsum, hzero, Int.cast_zero, zero_mul, zero_add]
      · next hne =>
          rw [hsplit, termsValue_append, add_right_comm, hsum, add_comm]
          simp [Term.value, Term.coeff, insertionSort_value]
  · next hnone =>
      simp [Term.value, Term.coeff, insertionSort_value]

/-- Adding a term with a constant that is not zero keeps the form of the dictionary. -/
theorem expandAddTerm_canonical {e : List (Term ν)} (he : Canonical e) {t : Term ν}
    (ht : t.Proper) : Canonical (expandAddTerm e t) := by
  have hsorted : (t.factors.insertionSort (· ≤ ·)).Pairwise (· ≤ ·) :=
    List.pairwise_insertionSort (· ≤ ·) t.factors
  have hcoeff : t.coeff ≠ 0 := by
    obtain ⟨c, hc, hne⟩ := ht
    simpa [Term.coeff, hc] using hne
  -- a new term under a key that is not in use keeps the dictionary canonical
  have hsnoc : ∀ (e' : List (Term ν)) (c : ℤ), Canonical e' → c ≠ 0 →
      (∀ t' ∈ e', t'.factors ≠ t.factors.insertionSort (· ≤ ·)) →
      Canonical (e' ++ [⟨some c, t.factors.insertionSort (· ≤ ·)⟩]) := by
    intro e' c he' hc hfresh
    refine ⟨?_, ?_, ?_⟩
    · rw [List.map_append, List.nodup_append]
      refine ⟨he'.keys, by simp, ?_⟩
      intro k hk k' hk'
      obtain ⟨t', ht', rfl⟩ := List.mem_map.mp hk
      obtain rfl : k' = t.factors.insertionSort (· ≤ ·) := by simpa using hk'
      exact hfresh t' ht'
    · intro t' ht'
      rcases List.mem_append.mp ht' with ht' | ht'
      · exact he'.sorted t' ht'
      · obtain rfl := List.mem_singleton.mp ht'
        exact hsorted
    · intro t' ht'
      rcases List.mem_append.mp ht' with ht' | ht'
      · exact he'.proper t' ht'
      · obtain rfl := List.mem_singleton.mp ht'
        exact ⟨c, rfl, hc⟩
  simp only [expandAddTerm]
  split
  · next got hgot =>
      have hrest : Canonical
          (e.filter fun t' => t'.factors ≠ t.factors.insertionSort (· ≤ ·)) :=
        ⟨he.keys.sublist (List.filter_sublist.map _),
          fun t' h => he.sorted t' (List.mem_of_mem_filter h),
          fun t' h => he.proper t' (List.mem_of_mem_filter h)⟩
      split
      · exact hrest
      · next hne =>
          refine hsnoc _ _ hrest hne fun t' h => ?_
          simpa using (List.mem_filter.mp h).2
  · next hnone =>
      refine hsnoc e _ he hcoeff fun t' h => ?_
      simpa using List.find?_eq_none.mp hnone t' h

/-- The loop that adds the terms of a finished product. -/
theorem foldl_expandAddTerm {R : Type v} [CommRing R] (ρ : ν → R) (ts : List (Term ν))
    (hts : ∀ t ∈ ts, t.Proper) {e : List (Term ν)} (he : Canonical e) :
    Canonical (ts.foldl expandAddTerm e) ∧
      termsValue ρ (ts.foldl expandAddTerm e) = termsValue ρ e + termsValue ρ ts := by
  induction ts generalizing e with
  | nil => exact ⟨he, by simp⟩
  | cons t ts ih =>
      have ht : t.Proper := hts t List.mem_cons_self
      obtain ⟨hcan, hval⟩ := ih (fun t' h => hts t' (List.mem_cons_of_mem _ h))
        (expandAddTerm_canonical he ht)
      refine ⟨hcan, ?_⟩
      rw [List.foldl_cons, hval, expandAddTerm_value ρ he.keys, termsValue_cons, add_assoc]

/-- The polynomial of a term is a monomial. -/
theorem value_eq_monomial (t : Term ν) :
    t.value (MvPolynomial.X (R := ℤ)) =
      MvPolynomial.monomial (Multiset.toFinsupp (t.factors : Multiset ν)) t.coeff := by
  have hprod : ∀ l : List ν, (l.map (MvPolynomial.X (R := ℤ))).prod =
      MvPolynomial.monomial (Multiset.toFinsupp (l : Multiset ν)) 1 := by
    intro l
    induction l with
    | nil => simp
    | cons x l ih =>
        rw [List.map_cons, List.prod_cons, ih, MvPolynomial.X, MvPolynomial.monomial_mul, one_mul,
          ← Multiset.cons_coe, ← Multiset.singleton_add, Multiset.toFinsupp_add,
          Multiset.toFinsupp_singleton]
  rw [Term.value, hprod, intCast_eq_C, MvPolynomial.C_mul_monomial, mul_one]

/-- The terms of a canonical dictionary are different monomials, so the coefficient of the first one
in the sum is its constant. -/
theorem Canonical.coeff_head_eq {t : Term ν} {e : List (Term ν)} (he : Canonical (t :: e)) :
    MvPolynomial.coeff (Multiset.toFinsupp (t.factors : Multiset ν))
      (termsValue (MvPolynomial.X (R := ℤ)) (t :: e)) = t.coeff := by
  obtain ⟨hfresh, -⟩ := List.nodup_cons.mp he.keys
  -- the other terms have no part in the monomial of the first
  have hrest : ∀ e' : List (Term ν), (∀ t' ∈ e', t' ∈ e) →
      MvPolynomial.coeff (Multiset.toFinsupp (t.factors : Multiset ν))
        (termsValue (MvPolynomial.X (R := ℤ)) e') = 0 := by
    intro e' hsub
    induction e' with
    | nil => simp
    | cons t' e' ih =>
        have ht' := hsub t' List.mem_cons_self
        have hne : Multiset.toFinsupp (t'.factors : Multiset ν) ≠
            Multiset.toFinsupp (t.factors : Multiset ν) := by
          intro heq
          have hperm : t'.factors.Perm t.factors :=
            Multiset.coe_eq_coe.mp (Multiset.toFinsupp.injective heq)
          have hlist := hperm.eq_of_pairwise'
            (he.sorted t' (List.mem_cons_of_mem _ ht')) (he.sorted t List.mem_cons_self)
          exact hfresh (hlist ▸ List.mem_map_of_mem ht')
        rw [termsValue_cons, MvPolynomial.coeff_add, value_eq_monomial,
          MvPolynomial.coeff_monomial, if_neg hne, zero_add]
        exact ih fun t'' h => hsub t'' (List.mem_cons_of_mem _ h)
  rw [termsValue_cons, MvPolynomial.coeff_add, hrest e fun _ h => h, value_eq_monomial,
    MvPolynomial.coeff_monomial, if_pos rfl, add_zero]

/-- The first term of a canonical dictionary is a monomial of the sum. -/
theorem Canonical.coeff_head {t : Term ν} {e : List (Term ν)} (he : Canonical (t :: e)) :
    MvPolynomial.coeff (Multiset.toFinsupp (t.factors : Multiset ν))
      (termsValue (MvPolynomial.X (R := ℤ)) (t :: e)) ≠ 0 := by
  rw [he.coeff_head_eq]
  exact (he.proper t List.mem_cons_self).coeff_ne

/-- Only the empty dictionary stands for the zero polynomial. -/
theorem Canonical.eq_nil {e : List (Term ν)} (he : Canonical e)
    (h0 : termsValue (MvPolynomial.X (R := ℤ)) e = 0) : e = [] := by
  cases e with
  | nil => rfl
  | cons t e =>
      have hcoeff := he.coeff_head
      rw [h0] at hcoeff
      exact absurd (MvPolynomial.coeff_zero _) hcoeff

end Dictionary

/-! ## Texts that are read as they are written -/

section Readable

variable {ν : Type u}

/-- The product with these factors, the last one first, is read as it is written: it has a factor
if it has a minus sign, and if one of its factors is zero then so is the last. -/
def ProductOk (negate : Bool) : List (MvPolynomial ν ℤ) → Prop
  | [] => negate = false
  | g :: fs => g ≠ 0 → ∀ f ∈ fs, f ≠ 0

/-- Every product of the text, and of the groups in it, is read as it is written. `negate` and
`factors` are the sign and the factors of the product in which the text starts. -/
def Readable (negate : Bool) (factors : List (MvPolynomial ν ℤ)) : Text ν → Prop
  | .nil => ProductOk negate factors
  | .atom .plus n => ProductOk negate factors ∧ Readable false [] n
  | .atom .minus n => ProductOk negate factors ∧ Readable true [] n
  | .atom .times n => Readable negate factors n
  | .atom .blank n => Readable negate factors n
  | .atom (.const c) n => Readable negate ((c : MvPolynomial ν ℤ) :: factors) n
  | .atom (.name x) n => Readable negate (MvPolynomial.X x :: factors) n
  | .group inner n => Readable false [] inner ∧ Readable negate (symbolic inner :: factors) n

end Readable

section Correct

variable {ν : Type u} [LinearOrder ν]

/-- The states of the expansion and of the meaning agree: the dictionary is the sum so far, and the
list of terms is the signed product of the factors, as long as none of them is zero. -/
structure Tracks (s : ExpandState ν) (m : Meaning (MvPolynomial ν ℤ))
    (factors : List (MvPolynomial ν ℤ)) : Prop where
  canonical : Canonical s.expansion
  sum : termsValue MvPolynomial.X s.expansion = m.sum
  product : m.product = if factors = [] then none else some factors.prod
  proper : ∀ t ∈ s.multiply, t.Proper
  started : factors = [] → s.multiply = if m.negate then [⟨some (-1), []⟩] else []
  vanished : ∀ g fs, factors = g :: fs → g = 0 → s.multiply = []
  value : factors ≠ [] → (∀ g ∈ factors, g ≠ 0) →
    s.multiply ≠ [] ∧
      termsValue MvPolynomial.X s.multiply = (if m.negate then -1 else 1) * factors.prod

theorem tracks_empty : Tracks (⟨[], []⟩ : ExpandState ν) Meaning.empty [] where
  canonical := canonical_nil
  sum := rfl
  product := rfl
  proper _ h := absurd h List.not_mem_nil
  started _ := rfl
  vanished _ _ h := absurd h (by simp)
  value h := absurd rfl h

namespace Tracks

variable {s : ExpandState ν} {m : Meaning (MvPolynomial ν ℤ)} {factors : List (MvPolynomial ν ℤ)}

/-- At the end of a product that is read as it is written, the terms that go to the dictionary are
the product. -/
theorem flush (h : Tracks s m factors) (hok : ProductOk m.negate factors) :
    Tracks s.flush m.flush [] ∧ m.flush.negate = false := by
  obtain ⟨hcan, hsum⟩ := foldl_expandAddTerm (MvPolynomial.X (R := ℤ)) s.multiply h.proper
    h.canonical
  have hvalue : termsValue MvPolynomial.X s.flush.expansion = m.flush.sum ∧
      m.flush.product = none ∧ m.flush.negate = false := by
    change termsValue MvPolynomial.X (s.multiply.foldl expandAddTerm s.expansion) = _ ∧ _
    rw [hsum, h.sum]
    cases factors with
    | nil =>
        -- no factor has been read: nothing is open
        have hneg : m.negate = false := hok
        have hmul : s.multiply = [] := by simpa [hneg] using h.started rfl
        have hprod : m.product = none := h.product
        have hflush : m.flush = m := by simp only [Meaning.flush, hprod]
        rw [hflush, hmul, termsValue_nil, add_zero]
        exact ⟨rfl, hprod, hneg⟩
    | cons g fs =>
        have hprod : m.product = some (g :: fs).prod := by simpa using h.product
        have hflush : m.flush =
            ⟨m.sum + (if m.negate then -(g :: fs).prod else (g :: fs).prod), false, none⟩ := by
          simp only [Meaning.flush, hprod]
        rw [hflush]
        refine ⟨?_, rfl, rfl⟩
        congr 1
        -- a zero factor empties the product, otherwise the product is in the list
        by_cases hg : g = 0
        · rw [h.vanished g fs rfl hg, hg]
          simp
        · have hall : ∀ f ∈ g :: fs, f ≠ 0 := by
            intro f hf
            rcases List.mem_cons.mp hf with rfl | hf
            · exact hg
            · exact hok hg f hf
          rw [(h.value (by simp) hall).2]
          cases m.negate <;> simp
  obtain ⟨hval, hprod, hneg⟩ := hvalue
  refine ⟨⟨hcan, hval, by simpa using hprod, ?_, ?_, ?_, ?_⟩, hneg⟩
  · exact fun _ ht => absurd ht List.not_mem_nil
  · intro _
    simp [hneg, ExpandState.flush]
  · exact fun _ _ hnil => absurd hnil (by simp)
  · exact fun hnil => absurd rfl hnil

/-- One more factor, as the list of terms `G`. -/
theorem factor (h : Tracks s m factors) {g : MvPolynomial ν ℤ} {G M : List (Term ν)}
    (hG : ∀ t ∈ G, t.Proper) (hvalue : termsValue MvPolynomial.X G = g) (hzero : G = [] ↔ g = 0)
    (hfirst : s.multiply = [] → M = G) (hnext : s.multiply ≠ [] → IsProduct s.multiply G M) :
    Tracks { s with multiply := M } (m.factor g) (g :: factors) := by
  refine ⟨h.canonical, h.sum, ?_, ?_, ?_, ?_, ?_⟩
  · change some _ = _
    rw [if_neg (by simp)]
    rw [h.product]
    by_cases hnil : factors = []
    · simp [hnil]
    · simp [hnil, mul_comm]
  · -- the first factor replaces the empty list, a later one multiplies it
    by_cases hM : s.multiply = []
    · rw [show ({ s with multiply := M } : ExpandState ν).multiply = G from hfirst hM]
      exact hG
    · exact (hnext hM).proper
  · exact fun hnil => absurd hnil (by simp)
  · rintro g' fs heq rfl
    obtain ⟨rfl, -⟩ := List.cons.inj heq
    have hGnil : G = [] := hzero.mpr rfl
    by_cases hM : s.multiply = []
    · exact (hfirst hM).trans hGnil
    · exact (hnext hM).vanish hGnil
  · intro _ hall
    have hg : g ≠ 0 := hall g List.mem_cons_self
    have hGne : G ≠ [] := fun hnil => hg (hzero.mp hnil)
    have hrest : ∀ f ∈ factors, f ≠ 0 := fun f hf => hall f (List.mem_cons_of_mem _ hf)
    rw [List.prod_cons]
    change M ≠ [] ∧ termsValue MvPolynomial.X M = (if m.negate then -1 else 1) * _
    by_cases hnil : factors = []
    · -- the first factor of the product
      have hM := h.started hnil
      cases hneg : m.negate with
      | false =>
          have hM0 : s.multiply = [] := by simpa [hneg] using hM
          rw [hfirst hM0, hvalue, hnil]
          exact ⟨hGne, by simp⟩
      | true =>
          -- the list holds the sign already
          have hM1 : s.multiply = [⟨some (-1), []⟩] := by simpa [hneg] using hM
          have hne : s.multiply ≠ [] := by simp [hM1]
          refine ⟨(hnext hne).nonempty hne hGne, ?_⟩
          rw [(hnext hne).value, hvalue, hM1, hnil]
          simp [Term.value, Term.coeff]
    · obtain ⟨hne, hval⟩ := h.value hnil hrest
      refine ⟨(hnext hne).nonempty hne hGne, ?_⟩
      rw [(hnext hne).value, hvalue, hval]
      ring

/-- A constant or a name. -/
theorem token (h : Tracks s m factors) (tok : Term ν) {g : MvPolynomial ν ℤ}
    (hvalue : tok.value MvPolynomial.X = g) (hzero : tok.const = some 0 ↔ g = 0) :
    Tracks (s.token tok) (m.factor g) (g :: factors) := by
  refine h.factor (productTerm_one_proper tok) ?_ (productTerm_one_eq_nil.trans hzero) ?_ ?_
  · rw [productTerm_value, hvalue]
    simp [Term.value, Term.coeff]
  · exact fun hnil => if_pos hnil
  · intro hne
    rw [if_neg hne]
    exact isProduct_token h.proper tok

/-- A bracketed polynomial, expanded. -/
theorem recurse (h : Tracks s m factors) {G : List (Term ν)} (hG : Canonical G)
    {g : MvPolynomial ν ℤ} (hvalue : termsValue MvPolynomial.X G = g) :
    Tracks (s.recurse G) (m.factor g) (g :: factors) := by
  have hzero : G = [] ↔ g = 0 := by
    constructor
    · rintro rfl
      exact hvalue.symm
    · exact fun h0 => hG.eq_nil (hvalue.trans h0)
  refine h.factor hG.proper hvalue hzero (fun hnil => if_pos hnil) ?_
  intro hne
  rw [if_neg hne]
  exact isProduct_recurse h.proper hG.proper

end Tracks

/-- Reading a text that is read as it is written keeps the two states in agreement. -/
theorem tracks_run (n : Text ν) (s : ExpandState ν) (m : Meaning (MvPolynomial ν ℤ))
    (factors : List (MvPolynomial ν ℤ)) (h : Tracks s m factors)
    (hread : Readable m.negate factors n) :
    ∃ factors', Tracks (expandReader.run ⟨[], []⟩ s n)
        ((meaningReader MvPolynomial.X).run Meaning.empty m n) factors' ∧
      ProductOk ((meaningReader MvPolynomial.X).run Meaning.empty m n).negate factors' := by
  induction n generalizing s m factors with
  | nil => exact ⟨factors, h, hread⟩
  | atom a rest ih =>
      cases a with
      | plus =>
          obtain ⟨hflush, hneg⟩ := h.flush hread.1
          have hrest : Readable m.flush.negate [] rest := hneg ▸ hread.2
          exact ih _ _ [] hflush hrest
      | minus =>
          obtain ⟨hflush, hneg⟩ := h.flush hread.1
          -- after the flush the sign is the only factor
          have htoggle : Tracks
              ({ s.flush with multiply := s.flush.multiply ++ [⟨some (-1), []⟩] } : ExpandState ν)
              m.flush.toggle [] := by
            refine ⟨hflush.canonical, hflush.sum, hflush.product, ?_, ?_, ?_, ?_⟩
            · intro t ht
              obtain rfl : t = ⟨some (-1), []⟩ := by simpa [ExpandState.flush] using ht
              exact ⟨-1, rfl, by decide⟩
            · intro _
              simp [Meaning.toggle, hneg, ExpandState.flush]
            · exact fun _ _ hnil => absurd hnil (by simp)
            · exact fun hnil => absurd rfl hnil
          have hrest : Readable m.flush.toggle.negate [] rest := by
            simpa [Meaning.toggle, hneg, Readable] using hread.2
          exact ih _ _ [] htoggle hrest
      | times => exact ih s m factors h hread
      | blank => exact ih s m factors h hread
      | const c =>
          refine ih _ _ _ (h.token ⟨some c, []⟩ ?_ ?_) hread
          · simp [Term.value, Term.coeff]
          · rw [Option.some.injEq, intCast_eq_C, MvPolynomial.C_eq_zero]
      | name x =>
          refine ih _ _ _ (h.token ⟨none, [x]⟩ ?_ ?_) hread
          · simp [Term.value, Term.coeff]
          · simp [MvPolynomial.X_ne_zero]
  | group inner rest ihInner ihRest =>
      -- a group is read on its own and flushed at its end
      obtain ⟨factors', htracks, hok⟩ := ihInner _ _ [] tracks_empty hread.1
      obtain ⟨hflush, -⟩ := htracks.flush hok
      exact ihRest _ _ _ (h.recurse hflush.canonical hflush.sum) hread.2

/-- The expansion of a bracketed text that is read as it is written: the call consumes the text and
its closing bracket, and returns a canonical list of terms whose sum is what the text stands
for. -/
theorem expandPolynomial_eq (n : Text ν) (hread : Readable false [] n) (toks : List (Token ν)) :
    ∃ terms, expandPolynomial (.opening :: (n.flatten ++ .closing :: toks)) = some (terms, toks) ∧
      Canonical terms ∧ termsValue MvPolynomial.X terms = symbolic n := by
  obtain ⟨factors, htracks, hok⟩ := tracks_run n _ _ [] tracks_empty hread
  obtain ⟨hflush, -⟩ := htracks.flush hok
  refine ⟨_, ?_, hflush.canonical, hflush.sum⟩
  have hfuel : n.flatten.length < (n.flatten ++ .closing :: toks).length := by simp
  change expandReader.read _ 0 ⟨[], []⟩ _ = _
  rw [expandReader.read_closed n _ 0 _ toks hfuel,
    expandReader.fold_eq_run ⟨[], []⟩ n 0 _ fun _ _ => rfl]
  rfl

end Correct

/-- The terms of an expansion that stands for the text add up to the meaning of the text. -/
theorem termsValue_eq_meaning {ν : Type u} {R : Type v} [CommRing R] (ρ : ν → R) {n : Text ν}
    {terms : List (Term ν)} (h : termsValue MvPolynomial.X terms = symbolic n) :
    termsValue ρ terms = meaning ρ n := by
  rw [meaning_eq_aeval, ← h]
  have hmap := map_termsValue (MvPolynomial.aeval (R := ℤ) ρ).toRingHom MvPolynomial.X terms
  simpa using hmap.symm

end Pepper.Zcc
