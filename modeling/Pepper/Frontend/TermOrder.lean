import Pepper.Foundations.LexOrder
import Pepper.Frontend.PolynomialInvariant

/-!
# The order of terms

`compareTo` of terms and of expressions compares degrees, counts, variables and, factor by
factor, whole polynomials. Over constants whose denominators are powers of two (`Dyadic`)
it is the lexicographic order of keys (`reflects_expression`, `reflects_term`), and so a
total order: `compareTo_pos_iff`, `compareTo_trans`. The constant of a term itself is not
looked at (`compareTo_setConstant`).
-/

set_option autoImplicit false

namespace Pepper.Frontend

open PolynomialTerm PolynomialExpression
open Pepper.Foundations.LexOrder

mutual

/-- The constants of a product, also those in its factors, are over powers of two. -/
inductive DyadicTerm : PolynomialTerm → Prop
  | intro {t : PolynomialTerm} (constant : FloatConstant.isPOT t.constant.den = true)
      (factors : ∀ p ∈ t.polyFactors, Dyadic p) : DyadicTerm t

/-- The constants of a sum are over powers of two. -/
inductive Dyadic : PolynomialExpression → Prop
  | intro {pe : PolynomialExpression} (terms : ∀ t ∈ pe.terms, DyadicTerm t) : Dyadic pe

end

theorem DyadicTerm.constant {t : PolynomialTerm} (h : DyadicTerm t) :
    FloatConstant.isPOT t.constant.den = true := by
  obtain ⟨hconstant, -⟩ := h
  exact hconstant

theorem DyadicTerm.factors {t : PolynomialTerm} (h : DyadicTerm t) :
    ∀ p ∈ t.polyFactors, Dyadic p := by
  obtain ⟨-, hfactors⟩ := h
  exact hfactors

theorem Dyadic.terms {pe : PolynomialExpression} (h : Dyadic pe) :
    ∀ t ∈ pe.terms, DyadicTerm t := by
  obtain ⟨hterms⟩ := h
  exact hterms

/-! ## Keys -/

mutual

/-- What `PolynomialTerm.compareTo` looks at, in its order. -/
def PolynomialTerm.key : PolynomialTerm → List ℚ
  | .mk _ ms ps d =>
      -(d : ℚ) :: -(ms.length : ℚ) ::
        (ms.map (fun x : ℕ => (x : ℚ)) ++ (-(ps.length : ℚ) :: factorsKey ps))

def factorsKey : List PolynomialExpression → List ℚ
  | [] => []
  | p :: ps => p.key ++ factorsKey ps

/-- What `PolynomialExpression.compareTo` looks at. -/
def PolynomialExpression.key : PolynomialExpression → List ℚ
  | .mk ts d => -(d : ℚ) :: -(ts.length : ℚ) :: termsKey ts

def termsKey : List PolynomialTerm → List ℚ
  | [] => []
  | t :: ts => t.key ++ (t.constant.toRat :: termsKey ts)

end

/-- More comes first. -/
theorem reflectsField_sub (m n : ℕ) : ReflectsField ((n : ℤ) - m) (-(m : ℚ)) (-(n : ℚ)) where
  neg h := by
    have hlt : n < m := by omega
    exact neg_lt_neg (by exact_mod_cast hlt)
  zero h := by
    have heq : m = n := by omega
    rw [heq]
  pos h := by
    have hlt : m < n := by omega
    exact neg_lt_neg (by exact_mod_cast hlt)

theorem reflectsField_line (x y : ℕ) : ReflectsField ((x : ℤ) - y) (x : ℚ) (y : ℚ) where
  neg h := by
    have hlt : x < y := by omega
    exact_mod_cast hlt
  zero h := by
    have heq : x = y := by omega
    rw [heq]
  pos h := by
    have hlt : y < x := by omega
    exact_mod_cast hlt

theorem reflectsField_constant {c c' : FloatConstant} (hc : FloatConstant.isPOT c.den = true)
    (hc' : FloatConstant.isPOT c'.den = true) :
    ReflectsField (c.compareTo c') c.toRat c'.toRat := by
  have hdiff : (c'.neg.add c).toRat = c.toRat - c'.toRat := by
    rw [FloatConstant.toRat_add (FloatConstant.isPOT_neg hc') hc, FloatConstant.neg_eq]
    ring
  refine ⟨fun h => ?_, fun h => ?_, fun h => ?_⟩
  · have hneg := (FloatConstant.toRat_neg_iff _).2 (Int.sign_neg_iff.1 h)
    linarith
  · have hzero := (FloatConstant.toRat_eq_zero_iff _).2 (Int.sign_eq_zero_iff_zero.1 h)
    linarith
  · have hpos := (FloatConstant.toRat_pos_iff _).2 (Int.sign_pos_iff.1 h)
    linarith

theorem reflects_monomers : ∀ {ms ms' : List ℕ}, ms.length = ms'.length →
    Reflects (compareMonomers ms ms') (ms.map fun x : ℕ => (x : ℚ)) (ms'.map fun x : ℕ => (x : ℚ))
  | [], [], _ => Reflects.nil
  | x :: ms, y :: ms', h => by
      rw [compareMonomers]
      exact Reflects.cons (reflectsField_line x y) fun _ =>
        reflects_monomers (Nat.succ.inj h)

/-- The comparison of the factors of a term, from that of each. -/
theorem reflects_factors :
    ∀ {ps qs : List PolynomialExpression}, ps.length = qs.length →
      (∀ p ∈ ps, ∀ q ∈ qs, Reflects (p.compareTo q) p.key q.key) →
      Reflects (compareFactors ps qs) (factorsKey ps) (factorsKey qs)
  | [], [], _, _ => Reflects.nil
  | p :: ps, q :: qs, hlength, h => by
      have hrest : ∀ p' ∈ ps, ∀ q' ∈ qs, Reflects (p'.compareTo q') p'.key q'.key :=
        fun p' hp' q' hq' => h p' (List.mem_cons_of_mem p hp') q' (List.mem_cons_of_mem q hq')
      rw [compareFactors, factorsKey, factorsKey]
      exact Reflects.append (h p List.mem_cons_self q List.mem_cons_self) fun _ =>
        reflects_factors (Nat.succ.inj hlength) hrest

/-- A term, from its factors. -/
theorem reflects_term_of_factors {t u : PolynomialTerm}
    (h : ∀ p ∈ t.polyFactors, ∀ q ∈ u.polyFactors, Reflects (p.compareTo q) p.key q.key) :
    Reflects (t.compareTo u) t.key u.key := by
  obtain ⟨c, ms, ps, d⟩ := t
  obtain ⟨c', ms', ps', d'⟩ := u
  rw [compareTo_mk, PolynomialTerm.key, PolynomialTerm.key]
  refine Reflects.cons (reflectsField_sub d d') fun _ => ?_
  refine Reflects.cons (reflectsField_sub _ _) fun hms => ?_
  refine Reflects.append (reflects_monomers (by omega)) fun _ => ?_
  refine Reflects.cons (reflectsField_sub _ _) fun hps => ?_
  exact reflects_factors (by omega) h

theorem reflects_terms :
    ∀ {ts us : List PolynomialTerm}, ts.length = us.length → (∀ t ∈ ts, DyadicTerm t) →
      (∀ u ∈ us, DyadicTerm u) →
      (∀ t ∈ ts, ∀ u ∈ us, Reflects (t.compareTo u) t.key u.key) →
      Reflects (compareTerms ts us) (termsKey ts) (termsKey us)
  | [], [], _, _, _, _ => Reflects.nil
  | t :: ts, u :: us, hlength, hts, hus, h => by
      have hrest : ∀ t' ∈ ts, ∀ u' ∈ us, Reflects (t'.compareTo u') t'.key u'.key :=
        fun t' ht' u' hu' => h t' (List.mem_cons_of_mem t ht') u' (List.mem_cons_of_mem u hu')
      have hconstant := reflectsField_constant (hts t List.mem_cons_self).constant
        (hus u List.mem_cons_self).constant
      rw [compareTerms, termsKey, termsKey]
      refine Reflects.append (h t List.mem_cons_self u List.mem_cons_self) fun _ => ?_
      refine Reflects.cons hconstant fun _ => ?_
      exact reflects_terms (Nat.succ.inj hlength)
        (fun t' ht' => hts t' (List.mem_cons_of_mem t ht'))
        (fun u' hu' => hus u' (List.mem_cons_of_mem u hu')) hrest

/-- The order of expressions is that of their keys. -/
theorem reflects_expression (pe : PolynomialExpression) :
    Dyadic pe → ∀ qe, Dyadic qe → Reflects (pe.compareTo qe) pe.key qe.key := by
  induction pe using PolynomialExpression.induction with
  | h ts d ih =>
      rintro hpe ⟨us, d'⟩ hqe
      rw [PolynomialExpression.compareTo, PolynomialExpression.key, PolynomialExpression.key]
      refine Reflects.cons (reflectsField_sub d d') fun _ => ?_
      refine Reflects.cons (reflectsField_sub ts.length us.length) fun hlength => ?_
      refine reflects_terms (by omega) hpe.terms hqe.terms fun t ht u hu => ?_
      exact reflects_term_of_factors fun p hp q hq =>
        ih t ht p hp ((hpe.terms t ht).factors p hp) q ((hqe.terms u hu).factors q hq)

/-- The order of terms is that of their keys. -/
theorem reflects_term {t u : PolynomialTerm} (ht : DyadicTerm t) (hu : DyadicTerm u) :
    Reflects (t.compareTo u) t.key u.key :=
  reflects_term_of_factors fun p hp q hq =>
    reflects_expression p (ht.factors p hp) q (hu.factors q hq)

/-! ## A total order -/

section Order

variable {t u v : PolynomialTerm}

theorem compareTo_pos_iff (ht : DyadicTerm t) (hu : DyadicTerm u) :
    0 < t.compareTo u ↔ u.compareTo t < 0 :=
  (reflects_term ht hu).pos_iff.trans (reflects_term hu ht).neg_iff.symm

theorem compareTo_zero_comm (ht : DyadicTerm t) (hu : DyadicTerm u) :
    t.compareTo u = 0 ↔ u.compareTo t = 0 := by
  rw [(reflects_term ht hu).zero_iff, (reflects_term hu ht).zero_iff]
  exact eq_comm

theorem compareTo_trans (ht : DyadicTerm t) (hu : DyadicTerm u) (hv : DyadicTerm v)
    (htu : t.compareTo u < 0) (huv : u.compareTo v < 0) : t.compareTo v < 0 := by
  rw [(reflects_term ht hu).neg_iff] at htu
  rw [(reflects_term hu hv).neg_iff] at huv
  exact (reflects_term ht hv).neg_iff.2 (htu.trans huv)

theorem compareTo_self (ht : DyadicTerm t) : t.compareTo t = 0 :=
  (reflects_term ht ht).zero_iff.2 rfl

/-- The constant of a term is not compared. -/
theorem compareTo_setConstant (c : FloatConstant) (t : PolynomialTerm) :
    (t.setConstant c).key = t.key := by
  obtain ⟨c', ms, ps, d⟩ := t
  rfl

end Order

end Pepper.Frontend
