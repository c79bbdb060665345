import Mathlib.Algebra.Order.BigOperators.Group.List
import Pepper.Frontend.PolynomialExpression

/-!
# What all polynomial expressions satisfy

`Reachable.ok`: in every expression that is built, the terms are sorted by degree and distinct where
they are linear, no constant is zero, no term is a sum and nothing else, and every factor is a sum
of at least two terms. Up to degree two this leaves few forms: a linear term has no factor
(`linearTerm_of_ok`), and the factors of a quadratic one are linear (`factor_degree_le_one`).
-/

set_option autoImplicit false

namespace Pepper.Frontend

open PolynomialTerm PolynomialExpression

/-- Induction over expressions: the hypothesis is about the factors of the terms. -/
theorem PolynomialExpression.induction {motive : PolynomialExpression → Prop}
    (h : ∀ ts d, (∀ t ∈ ts, ∀ p ∈ t.polyFactors, motive p) → motive (.mk ts d)) :
    ∀ pe, motive pe
  | .mk ts d => h ts d fun t ht p hp =>
      have hlt : sizeOf p < sizeOf (PolynomialExpression.mk ts d) := by
        have h₁ := List.sizeOf_lt_of_mem hp
        have h₂ := List.sizeOf_lt_of_mem ht
        have h₃ : sizeOf t.polyFactors < sizeOf t := by
          cases t
          simp only [PolynomialTerm.mk.sizeOf_spec, polyFactors]
          omega
        simp only [PolynomialExpression.mk.sizeOf_spec]
        omega
      PolynomialExpression.induction h p
termination_by pe => sizeOf pe
decreasing_by exact hlt

/-- A term is a product: it is not one sum and nothing else. -/
def IsProduct (t : PolynomialTerm) : Prop := ¬ (t.monomerFactors = [] ∧ t.polyFactors.length = 1)

/-- Terms in the order of a list: by degree, and constants and variables by their order. -/
def Before (t u : PolynomialTerm) : Prop :=
  u.degree ≤ t.degree ∧ (t.degree ≤ 1 → t.compareTo u < 0)

mutual

/-- The factors of a term are sums of at least two terms. Its degree is at least that of its
factors, which may have become smaller in a copy, and up to degree two it is exactly that. -/
inductive TermOk : PolynomialTerm → Prop
  | intro {t : PolynomialTerm} (factors : ∀ p ∈ t.polyFactors, ExpressionOk p)
      (sums : ∀ p ∈ t.polyFactors, 2 ≤ p.terms.length)
      (low : t.monomerFactors.length + (t.polyFactors.map PolynomialExpression.degree).sum ≤
        t.degree)
      (exact : t.degree ≤ 2 → t.degree =
        t.monomerFactors.length + (t.polyFactors.map PolynomialExpression.degree).sum) : TermOk t

/-- The terms of an expression are products with a constant that is not zero, in order. -/
inductive ExpressionOk : PolynomialExpression → Prop
  | intro {pe : PolynomialExpression} (terms : ∀ t ∈ pe.terms, TermOk t)
      (products : ∀ t ∈ pe.terms, IsProduct t ∧ t.constant.num ≠ 0)
      (low : ∀ t ∈ pe.terms, t.degree ≤ pe.degree) (sorted : pe.terms.Pairwise Before) :
      ExpressionOk pe

end

/-! ## Linear terms -/

/-- A constant or a multiple of a variable. -/
structure LinearTerm (t : PolynomialTerm) : Prop where
  noFactors : t.polyFactors = []
  degree : t.monomerFactors.length = t.degree
  le_one : t.degree ≤ 1

/-- The variable of a linear term. -/
def PolynomialTerm.lineOf (t : PolynomialTerm) : ℕ := t.monomerFactors.headD 0

theorem compareTo_mk (c c' : FloatConstant) (ms ms' : List ℕ) (ps ps' : List PolynomialExpression)
    (d d' : ℕ) :
    (PolynomialTerm.mk c ms ps d).compareTo (.mk c' ms' ps' d') =
      if (d' : ℤ) - d ≠ 0 then (d' : ℤ) - d
      else if (ms'.length : ℤ) - ms.length ≠ 0 then (ms'.length : ℤ) - ms.length
      else if compareMonomers ms ms' ≠ 0 then compareMonomers ms ms'
      else if (ps'.length : ℤ) - ps.length ≠ 0 then (ps'.length : ℤ) - ps.length
      else compareFactors ps ps' := by
  rw [PolynomialTerm.compareTo]
  rfl

/-- The order of linear terms. -/
theorem compareTo_linear {t u : PolynomialTerm} (ht : LinearTerm t) (hu : LinearTerm u) :
    t.compareTo u = if (u.degree : ℤ) - t.degree ≠ 0 then (u.degree : ℤ) - t.degree
      else (t.lineOf : ℤ) - u.lineOf := by
  obtain ⟨c, ms, ps, d⟩ := t
  obtain ⟨c', ms', ps', d'⟩ := u
  obtain ⟨hps, hd, hle⟩ := ht
  obtain ⟨hps', hd', hle'⟩ := hu
  simp only [polyFactors, monomerFactors, PolynomialTerm.degree] at hps hd hle hps' hd' hle'
  subst hps hps'
  rw [compareTo_mk]
  change _ = if (d' : ℤ) - d ≠ 0 then (d' : ℤ) - d else ((ms.headD 0 : ℕ) : ℤ) - (ms'.headD 0 : ℕ)
  by_cases hdeg : (d' : ℤ) - d ≠ 0
  · rw [if_pos hdeg, if_pos hdeg]
  · have hlen : ms.length = ms'.length := by omega
    rw [if_neg hdeg, if_neg hdeg, hlen, if_neg (by simp), if_neg (by simp : ¬ ((([] :
      List PolynomialExpression).length : ℤ) - ([] : List PolynomialExpression).length ≠ 0))]
    match ms, ms', hlen with
    | [], [], _ => simp [compareMonomers, compareFactors]
    | [x], [y], _ =>
        by_cases hxy : (x : ℤ) - y = 0
        · simp [compareMonomers, compareFactors, hxy]
        · simp [compareMonomers, hxy]
    | _ :: _ :: _, _, _ =>
        simp only [List.length_cons] at hd
        omega

/-- A term that comes before another one has at least its degree. -/
theorem degree_le_of_compareTo_neg {t u : PolynomialTerm} (h : t.compareTo u < 0) :
    u.degree ≤ t.degree := by
  obtain ⟨c, ms, ps, d⟩ := t
  obtain ⟨c', ms', ps', d'⟩ := u
  change d' ≤ d
  by_contra hlt
  rw [compareTo_mk, if_pos (by omega)] at h
  omega

theorem degree_le_of_compareTo_pos {t u : PolynomialTerm} (h : 0 < t.compareTo u) :
    t.degree ≤ u.degree := by
  obtain ⟨c, ms, ps, d⟩ := t
  obtain ⟨c', ms', ps', d'⟩ := u
  change d ≤ d'
  by_contra hlt
  rw [compareTo_mk, if_pos (by omega)] at h
  omega

/-- Where all factors have a positive degree, a product of degree at most one is linear. -/
theorem linearTerm_of_factors {t : PolynomialTerm} (hok : TermOk t) (hproduct : IsProduct t)
    (hd : t.degree ≤ 1) (hpos : ∀ p ∈ t.polyFactors, 1 ≤ p.degree) : LinearTerm t := by
  obtain ⟨-, -, -, hexact⟩ := hok
  have hsum := hexact (hd.trans one_le_two)
  have hlength : t.polyFactors.length ≤ (t.polyFactors.map PolynomialExpression.degree).sum := by
    have := List.length_le_sum_of_one_le (t.polyFactors.map PolynomialExpression.degree) (by
      intro n hn
      obtain ⟨p, hp, rfl⟩ := List.mem_map.1 hn
      exact hpos p hp)
    rwa [List.length_map] at this
  have hnil : t.polyFactors = [] := by
    rcases Nat.eq_zero_or_pos t.polyFactors.length with hzero | hone
    · exact List.length_eq_zero_iff.1 hzero
    · -- one factor of degree one, and no variable beside it
      refine absurd ⟨List.length_eq_zero_iff.1 ?_, ?_⟩ hproduct
      · omega
      · omega
  refine ⟨hnil, ?_, hd⟩
  rw [hnil] at hsum
  simpa using hsum.symm

/-- A sum of at least two terms is not a constant. -/
theorem one_le_degree_of_two_terms (pe : PolynomialExpression) :
    ExpressionOk pe → 2 ≤ pe.terms.length → 1 ≤ pe.degree := by
  induction pe using PolynomialExpression.induction with
  | h ts d ih =>
      rintro ⟨hterms, hproducts, hlow, hsorted⟩ hlength
      by_contra hd
      have hlinear : ∀ t ∈ ts, LinearTerm t := by
        intro t ht
        obtain ⟨hfactors, hsums, -, -⟩ := hterms t ht
        have htd : t.degree ≤ d := hlow t ht
        refine linearTerm_of_factors (hterms t ht) (hproducts t ht).1 ?_ ?_
        · simp only [PolynomialExpression.degree] at hd
          omega
        · exact fun p hp => ih t ht p hp (hfactors p hp) (hsums p hp)
      match ts, hlength with
      | t :: u :: rest, _ =>
          have ht := hlinear t List.mem_cons_self
          have hu := hlinear u (List.mem_cons_of_mem t List.mem_cons_self)
          have hbefore : Before t u := (List.pairwise_cons.1 hsorted).1 u List.mem_cons_self
          have htd := hlow t List.mem_cons_self
          have hud := hlow u (List.mem_cons_of_mem t List.mem_cons_self)
          have hneg := hbefore.2 ht.le_one
          have htlen := ht.degree
          have hulen := hu.degree
          simp only [PolynomialExpression.degree] at hd htd hud
          have htnil : t.monomerFactors = [] := List.length_eq_zero_iff.1 (by omega)
          have hunil : u.monomerFactors = [] := List.length_eq_zero_iff.1 (by omega)
          rw [compareTo_linear ht hu, if_neg (by omega), PolynomialTerm.lineOf,
            PolynomialTerm.lineOf, htnil, hunil] at hneg
          exact absurd hneg (by simp)

theorem one_le_degree_of_factor {t : PolynomialTerm} (h : TermOk t) {p : PolynomialExpression}
    (hp : p ∈ t.polyFactors) : 1 ≤ p.degree := by
  obtain ⟨hfactors, hsums, -, -⟩ := h
  exact one_le_degree_of_two_terms p (hfactors p hp) (hsums p hp)

theorem linearTerm_of_ok {t : PolynomialTerm} (h : TermOk t) (hproduct : IsProduct t)
    (hd : t.degree ≤ 1) : LinearTerm t :=
  linearTerm_of_factors h hproduct hd fun _ hp => one_le_degree_of_factor h hp

/-! ## Adding a term to a list -/

theorem insertTerm_perm {e : PolynomialTerm} {ts ts' : List PolynomialTerm}
    (h : insertTerm e ts = some ts') : ts'.Perm (e :: ts) := by
  induction ts generalizing ts' with
  | nil =>
      cases h
      exact List.Perm.refl _
  | cons t ts ih =>
      rw [insertTerm] at h
      split at h
      · obtain ⟨ts₁, h₁, rfl⟩ := Option.map_eq_some_iff.1 h
        exact ((ih h₁).cons t).trans (List.Perm.swap e t ts)
      · split at h
        · cases h
        · cases h
          exact List.Perm.refl _

/-- Inserting keeps the order of a list. -/
theorem insertTerm_sorted {e : PolynomialTerm} {ts ts' : List PolynomialTerm}
    (hlinear : ∀ t ∈ e :: ts, t.degree ≤ 1 → LinearTerm t) (hsorted : ts.Pairwise Before)
    (h : insertTerm e ts = some ts') : ts'.Pairwise Before := by
  induction ts generalizing ts' with
  | nil =>
      cases h
      exact List.pairwise_singleton Before e
  | cons t ts ih =>
      obtain ⟨hhead, htail⟩ := List.pairwise_cons.1 hsorted
      rw [insertTerm] at h
      split at h
      · rename_i hneg
        obtain ⟨ts₁, h₁, rfl⟩ := Option.map_eq_some_iff.1 h
        have hlinear' : ∀ u ∈ e :: ts, u.degree ≤ 1 → LinearTerm u := by
          intro u hu
          rcases List.mem_cons.1 hu with rfl | hu
          · exact hlinear u List.mem_cons_self
          · exact hlinear u (List.mem_cons_of_mem e (List.mem_cons_of_mem t hu))
        refine List.pairwise_cons.2 ⟨fun u hu => ?_, ih hlinear' htail h₁⟩
        rcases List.mem_cons.1 ((insertTerm_perm h₁).mem_iff.1 hu) with rfl | hu
        · exact ⟨degree_le_of_compareTo_neg hneg, fun _ => hneg⟩
        · exact hhead u hu
      · rename_i hneg
        split at h
        · cases h
        · rename_i hzero
          cases h
          have hpos : 0 < t.compareTo e := by omega
          have hdeg := degree_le_of_compareTo_pos hpos
          refine List.pairwise_cons.2 ⟨fun u hu => ?_, hsorted⟩
          have htu : u = t ∨ Before t u := (List.mem_cons.1 hu).imp_right (hhead u)
          have hud : u.degree ≤ t.degree := by
            rcases htu with rfl | htu
            · exact le_refl _
            · exact htu.1
          refine ⟨hud.trans hdeg, fun he => ?_⟩
          -- all three are linear, and their order is that of degrees and variables
          have hel := hlinear e List.mem_cons_self he
          have htl := hlinear t (List.mem_cons_of_mem e List.mem_cons_self) (hdeg.trans he)
          have hul := hlinear u (List.mem_cons_of_mem e hu) (hud.trans (hdeg.trans he))
          rw [compareTo_linear htl hel] at hpos
          rw [compareTo_linear hel hul]
          rcases htu with rfl | htu
          · split at hpos <;> split <;> omega
          · have hneg' := htu.2 (hdeg.trans he)
            rw [compareTo_linear htl hul] at hneg'
            split at hpos <;> split at hneg' <;> split <;> omega

theorem removeTerm_sublist (pt : PolynomialTerm) (ts : List PolynomialTerm) :
    (removeTerm pt ts).Sublist ts := by
  induction ts with
  | nil => exact List.Sublist.refl _
  | cons t ts ih =>
      rw [removeTerm]
      split
      · exact ih.cons_cons t
      · split
        · exact List.sublist_cons_self t ts
        · exact List.Sublist.refl _

theorem mem_of_floor {pt old : PolynomialTerm} {ts : List PolynomialTerm}
    (h : floor pt ts = some old) : old ∈ ts := by
  induction ts with
  | nil => cases h
  | cons t ts ih =>
      rw [floor] at h
      split at h
      · exact List.mem_cons_of_mem t (ih h)
      · split at h
        · cases h
          exact List.mem_cons_self
        · cases h

/-- A term that an expression may take. -/
structure Addable (e : PolynomialTerm) : Prop where
  ok : TermOk e
  product : IsProduct e
  num_ne_zero : e.constant.num ≠ 0

theorem addable_of_mem {pe : PolynomialExpression} (h : ExpressionOk pe) {t : PolynomialTerm}
    (ht : t ∈ pe.terms) : Addable t := by
  obtain ⟨hterms, hproducts, -, -⟩ := h
  exact ⟨hterms t ht, (hproducts t ht).1, (hproducts t ht).2⟩

theorem expressionOk_of_addable {pe : PolynomialExpression} (h : ∀ t ∈ pe.terms, Addable t)
    (hlow : ∀ t ∈ pe.terms, t.degree ≤ pe.degree) (hsorted : pe.terms.Pairwise Before) :
    ExpressionOk pe :=
  ⟨fun t ht => (h t ht).ok, fun t ht => ⟨(h t ht).product, (h t ht).num_ne_zero⟩, hlow, hsorted⟩

theorem ok_new : ExpressionOk .new :=
  ⟨fun _ h => absurd h List.not_mem_nil, fun _ h => absurd h List.not_mem_nil,
    fun _ h => absurd h List.not_mem_nil, List.Pairwise.nil⟩

/-- `TermsList.add` keeps the invariant, has one more term, and the larger degree. -/
theorem add_ok {pe pe' : PolynomialExpression} {e : PolynomialTerm} (hpe : ExpressionOk pe)
    (he : Addable e) (h : pe.add e = some pe') :
    ExpressionOk pe' ∧ pe'.terms.length = pe.terms.length + 1 ∧
      pe'.degree = max pe.degree e.degree := by
  obtain ⟨ts, d⟩ := pe
  obtain ⟨ts', h', rfl⟩ := Option.map_eq_some_iff.1 h
  have hperm := insertTerm_perm h'
  have hmem : ∀ t ∈ e :: ts, Addable t := by
    intro t ht
    rcases List.mem_cons.1 ht with rfl | ht
    · exact he
    · exact addable_of_mem hpe ht
  obtain ⟨-, -, hlow, hsorted⟩ := hpe
  refine ⟨expressionOk_of_addable ?_ ?_ ?_, hperm.length_eq, rfl⟩
  · intro t ht
    exact hmem t (hperm.mem_iff.1 ht)
  · intro t ht
    rcases List.mem_cons.1 (hperm.mem_iff.1 ht) with rfl | ht
    · exact le_max_right _ _
    · exact (hlow t ht).trans (le_max_left _ _)
  · refine insertTerm_sorted (fun t ht hd => ?_) hsorted h'
    exact linearTerm_of_ok (hmem t ht).ok (hmem t ht).product hd

theorem remove_ok {ts : List PolynomialTerm} {d : ℕ} (h : ExpressionOk (.mk ts d))
    (pt : PolynomialTerm) : ExpressionOk (.mk (removeTerm pt ts) d) := by
  have hsub := removeTerm_sublist pt ts
  have hmem : ∀ t ∈ removeTerm pt ts, Addable t := by
    intro t ht
    exact addable_of_mem h (hsub.subset ht)
  obtain ⟨-, -, hlow, hsorted⟩ := h
  exact expressionOk_of_addable hmem (fun t ht => hlow t (hsub.subset ht)) (hsorted.sublist hsub)

/-! ## Copies -/

/-- What a copy has in common with its original. -/
structure CopyOk (pe pe' : PolynomialExpression) : Prop where
  ok : ExpressionOk pe'
  length : pe'.terms.length = pe.terms.length
  degree_le : pe'.degree ≤ pe.degree

theorem duplicateFactors_ok {ps : List PolynomialExpression}
    (hps : ∀ p ∈ ps, ∀ p', p.duplicate = some p' → CopyOk p p') {ps' : List PolynomialExpression}
    (h : duplicateFactors ps = some ps') : List.Forall₂ CopyOk ps ps' := by
  induction ps generalizing ps' with
  | nil =>
      cases h
      exact List.Forall₂.nil
  | cons p ps ih =>
      obtain ⟨p', hp', h⟩ := Option.bind_eq_some_iff.1 h
      obtain ⟨ps₁, hps₁, rfl⟩ := Option.map_eq_some_iff.1 h
      refine List.Forall₂.cons (hps p List.mem_cons_self p' hp') (ih ?_ hps₁)
      exact fun q hq => hps q (List.mem_cons_of_mem p hq)

/-- The sum of the degrees of the factors does not grow, and where all of them are one it stays. -/
theorem sum_degree_copies {ps ps' : List PolynomialExpression} (h : List.Forall₂ CopyOk ps ps')
    (hsums : ∀ p ∈ ps, 2 ≤ p.terms.length) :
    (ps'.map PolynomialExpression.degree).sum ≤ (ps.map PolynomialExpression.degree).sum ∧
      ((∀ p ∈ ps, p.degree ≤ 1) →
        (ps'.map PolynomialExpression.degree).sum = (ps.map PolynomialExpression.degree).sum) ∧
      (∀ p ∈ ps', ExpressionOk p ∧ 2 ≤ p.terms.length) := by
  induction h with
  | nil => exact ⟨le_refl _, fun _ => rfl, fun p hp => absurd hp List.not_mem_nil⟩
  | @cons p p' ps ps' hp hps ih =>
      obtain ⟨hle, heq, hmem⟩ := ih fun q hq => hsums q (List.mem_cons_of_mem p hq)
      have hlength : 2 ≤ p'.terms.length := by
        rw [hp.length]
        exact hsums p List.mem_cons_self
      have hpos := one_le_degree_of_two_terms p' hp.ok hlength
      refine ⟨?_, fun hone => ?_, fun q hq => ?_⟩
      · simp only [List.map_cons, List.sum_cons]
        exact Nat.add_le_add hp.degree_le hle
      · have hrest := heq fun q hq => hone q (List.mem_cons_of_mem p hq)
        have hfirst : p'.degree = p.degree := by
          have := hp.degree_le
          have := hone p List.mem_cons_self
          omega
        simp only [List.map_cons, List.sum_cons, hrest, hfirst]
      · rcases List.mem_cons.1 hq with rfl | hq
        · exact ⟨hp.ok, hlength⟩
        · exact hmem q hq

/-- In a product of degree at most two every factor has degree one. -/
theorem factor_degree_le_one {t : PolynomialTerm} (h : TermOk t) (hproduct : IsProduct t)
    (hd : t.degree ≤ 2) : ∀ p ∈ t.polyFactors, p.degree ≤ 1 := by
  intro p hp
  have hpos : ∀ q ∈ t.polyFactors, 1 ≤ q.degree := fun q hq => one_le_degree_of_factor h hq
  obtain ⟨-, -, hlow, -⟩ := h
  obtain ⟨before, after, heq⟩ := List.append_of_mem hp
  have hsum : (t.polyFactors.map PolynomialExpression.degree).sum =
      (before.map PolynomialExpression.degree).sum + p.degree +
        (after.map PolynomialExpression.degree).sum := by
    rw [heq]
    simp only [List.map_append, List.map_cons, List.sum_append, List.sum_cons]
    omega
  have hlength : ∀ l : List PolynomialExpression, (∀ q ∈ l, 1 ≤ q.degree) →
      l.length ≤ (l.map PolynomialExpression.degree).sum := by
    intro l hl
    have := List.length_le_sum_of_one_le (l.map PolynomialExpression.degree) (by
      intro n hn
      obtain ⟨q, hq, rfl⟩ := List.mem_map.1 hn
      exact hl q hq)
    rwa [List.length_map] at this
  have hbefore := hlength before fun q hq => hpos q (by rw [heq]; exact List.mem_append_left _ hq)
  have hafter := hlength after fun q hq =>
    hpos q (by rw [heq]; exact List.mem_append_right _ (List.mem_cons_of_mem p hq))
  have hcount : t.polyFactors.length = before.length + 1 + after.length := by
    rw [heq]
    simp only [List.length_append, List.length_cons]
    omega
  by_contra hp2
  -- a factor of degree two leaves no room for another factor or a variable
  refine hproduct ⟨List.length_eq_zero_iff.1 ?_, ?_⟩ <;> omega

/-- A copy of a product is a product with the same variables and the same degree. -/
theorem duplicate_product {t t' : PolynomialTerm} (hok : TermOk t) (hproduct : IsProduct t)
    (hps : ∀ p ∈ t.polyFactors, ∀ p', p.duplicate = some p' → CopyOk p p')
    (h : t.duplicate = some t') :
    TermOk t' ∧ IsProduct t' ∧ t'.constant = t.constant ∧ t'.degree = t.degree := by
  obtain ⟨c, ms, ps, d⟩ := t
  obtain ⟨ps', h', rfl⟩ := Option.map_eq_some_iff.1 h
  have hone := fun hd => factor_degree_le_one hok hproduct hd
  obtain ⟨hfactors, hsums, hlow, hexact⟩ := hok
  have hcopies := duplicateFactors_ok hps h'
  obtain ⟨hle, heq, hmem⟩ := sum_degree_copies hcopies hsums
  refine ⟨⟨fun p hp => (hmem p hp).1, fun p hp => (hmem p hp).2, ?_, fun hd => ?_⟩, ?_, rfl, rfl⟩
  · exact (Nat.add_le_add_left hle _).trans hlow
  · change d = ms.length + (ps'.map PolynomialExpression.degree).sum
    rw [heq (hone hd)]
    exact hexact hd
  · rintro ⟨hnil, hlength⟩
    exact hproduct ⟨hnil, hcopies.length_eq.trans hlength⟩

theorem duplicateTerms_ok {ts : List PolynomialTerm} {d : ℕ}
    (hts : ∀ t ∈ ts, t.degree ≤ d ∧ ∀ t', t.duplicate = some t' →
      Addable t' ∧ t'.degree = t.degree)
    {pe pe' : PolynomialExpression} (hpe : ExpressionOk pe) (hd : pe.degree ≤ d)
    (h : duplicateTerms ts pe = some pe') :
    ExpressionOk pe' ∧ pe'.terms.length = pe.terms.length + ts.length ∧ pe'.degree ≤ d := by
  induction ts generalizing pe with
  | nil =>
      cases h
      exact ⟨hpe, rfl, hd⟩
  | cons t ts ih =>
      obtain ⟨t', ht', h⟩ := Option.bind_eq_some_iff.1 h
      obtain ⟨pe₁, hpe₁, h⟩ := Option.bind_eq_some_iff.1 h
      obtain ⟨htd, hcopy⟩ := hts t List.mem_cons_self
      obtain ⟨haddable, hdegree⟩ := hcopy t' ht'
      obtain ⟨hok, hlength, hmax⟩ := add_ok hpe haddable hpe₁
      have hd₁ : pe₁.degree ≤ d := by
        rw [hmax, hdegree]
        exact max_le hd htd
      have hrest := fun u hu => hts u (List.mem_cons_of_mem t hu)
      obtain ⟨hok', hlength', hd'⟩ := ih hrest hok hd₁ h
      refine ⟨hok', ?_, hd'⟩
      rw [hlength', hlength, List.length_cons]
      omega

/-- Copies keep the invariant. -/
theorem duplicate_ok (pe : PolynomialExpression) :
    ExpressionOk pe → ∀ pe', pe.duplicate = some pe' → CopyOk pe pe' := by
  induction pe using PolynomialExpression.induction with
  | h ts d ih =>
      intro hok pe' h
      have hts : ∀ t ∈ ts, t.degree ≤ d ∧ ∀ t', t.duplicate = some t' →
          Addable t' ∧ t'.degree = t.degree := by
        intro t ht
        have haddable := addable_of_mem hok ht
        obtain ⟨hterms, -, hlow, -⟩ := hok
        obtain ⟨hfactors, -, -, -⟩ := hterms t ht
        refine ⟨hlow t ht, fun t' ht' => ?_⟩
        obtain ⟨hok', hproduct', hconstant, hdegree⟩ := duplicate_product haddable.ok
          haddable.product (fun p hp => ih t ht p hp (hfactors p hp)) ht'
        exact ⟨⟨hok', hproduct', by rw [hconstant]; exact haddable.num_ne_zero⟩, hdegree⟩
      obtain ⟨hok', hlength, hdegree⟩ := duplicateTerms_ok hts ok_new (Nat.zero_le d) h
      exact ⟨hok', by rw [hlength]; exact Nat.zero_add _, hdegree⟩

theorem duplicate_term_ok {t t' : PolynomialTerm} (hok : TermOk t) (hproduct : IsProduct t)
    (h : t.duplicate = some t') :
    TermOk t' ∧ IsProduct t' ∧ t'.constant = t.constant ∧ t'.degree = t.degree := by
  refine duplicate_product hok hproduct (fun p hp => ?_) h
  obtain ⟨hfactors, -, -, -⟩ := hok
  exact duplicate_ok p (hfactors p hp)

/-! ## The operations keep the invariant -/

theorem setConstant_addable {t : PolynomialTerm} {c : FloatConstant} (hok : TermOk t)
    (hproduct : IsProduct t) (hc : c.num ≠ 0) : Addable (t.setConstant c) := by
  obtain ⟨c', ms, ps, d⟩ := t
  obtain ⟨hfactors, hsums, hlow, hexact⟩ := hok
  exact ⟨⟨hfactors, hsums, hlow, hexact⟩, hproduct, hc⟩

theorem num_ne_zero_of_not_isZero {c : FloatConstant} (h : ¬ c.isZero = true) : c.num ≠ 0 := by
  rwa [Ne, ← FloatConstant.isZero_iff]

theorem addMultipleOfProduct_ok {multiple : FloatConstant} {pt : PolynomialTerm}
    {pe pe' : PolynomialExpression} (hpt : TermOk pt) (hproduct : IsProduct pt)
    (hpe : ExpressionOk pe) (h : addMultipleOfProduct multiple pt pe = some pe') :
    ExpressionOk pe' := by
  obtain ⟨ts, d⟩ := pe
  rw [addMultipleOfProduct] at h
  dsimp only at h
  split at h
  · cases h
    exact hpe
  · rename_i hzero
    split at h
    · -- the term is there: the sum of the constants takes its place
      rename_i old hfloor
      obtain ⟨newTerm, hnew, h⟩ := Option.bind_eq_some_iff.1 h
      have hold := addable_of_mem hpe (mem_of_floor hfloor)
      obtain ⟨hok, hproduct', -, -⟩ := duplicate_term_ok hold.ok hold.product hnew
      split at h
      · cases h
        exact remove_ok hpe old
      · rename_i hsum
        exact (add_ok (remove_ok hpe old)
          (setConstant_addable hok hproduct' (num_ne_zero_of_not_isZero hsum)) h).1
    · obtain ⟨newTerm, hnew, h⟩ := Option.bind_eq_some_iff.1 h
      obtain ⟨hok, hproduct', -, -⟩ := duplicate_term_ok hpt hproduct hnew
      exact (add_ok hpe (setConstant_addable hok hproduct' (num_ne_zero_of_not_isZero hzero)) h).1

theorem addMultiplesOfTerm_product {multiple : FloatConstant} {pt : PolynomialTerm}
    (hproduct : IsProduct pt) (pe : PolynomialExpression) :
    addMultiplesOfTerm multiple pt pe = addMultipleOfProduct multiple pt pe := by
  match pt, hproduct with
  | .mk c [] [] d, _ => rw [addMultiplesOfTerm]
  | .mk c [] [p] d, hproduct => exact absurd ⟨rfl, rfl⟩ hproduct
  | .mk c [] (p :: q :: ps) d, _ => rw [addMultiplesOfTerm]
  | .mk c (x :: ms) ps d, _ => rw [addMultiplesOfTerm]

theorem addMultiplesOfTerms_ok {multiple : FloatConstant} {ts : List PolynomialTerm}
    (hts : ∀ t ∈ ts, Addable t) {pe pe' : PolynomialExpression} (hpe : ExpressionOk pe)
    (h : addMultiplesOfTerms multiple ts pe = some pe') : ExpressionOk pe' := by
  induction ts generalizing pe with
  | nil =>
      cases h
      exact hpe
  | cons t ts ih =>
      obtain ⟨pe₁, h₁, h₂⟩ := Option.bind_eq_some_iff.1 h
      have ht := hts t List.mem_cons_self
      rw [addMultiplesOfTerm_product ht.product] at h₁
      have hpe₁ := addMultipleOfProduct_ok ht.ok ht.product hpe h₁
      exact ih (fun u hu => hts u (List.mem_cons_of_mem t hu)) hpe₁ h₂

theorem addMultiplesOfTerm_ok {multiple : FloatConstant} {pt : PolynomialTerm}
    {pe pe' : PolynomialExpression} (hpt : TermOk pt) (hpe : ExpressionOk pe)
    (h : addMultiplesOfTerm multiple pt pe = some pe') : ExpressionOk pe' := by
  by_cases hproduct : IsProduct pt
  · rw [addMultiplesOfTerm_product hproduct] at h
    exact addMultipleOfProduct_ok hpt hproduct hpe h
  · -- the term is a sum, and its terms are products
    obtain ⟨c, ms, ps, d⟩ := pt
    obtain ⟨hnil, hlength⟩ := not_not.1 hproduct
    obtain ⟨p, hp⟩ := List.length_eq_one_iff.1 hlength
    simp only [monomerFactors, polyFactors] at hnil hp
    subst hnil hp
    obtain ⟨hfactors, -, -, -⟩ := hpt
    have hok := hfactors p List.mem_cons_self
    obtain ⟨ts, d'⟩ := p
    rw [addMultiplesOfTerm, addMultiplesOfSum] at h
    exact addMultiplesOfTerms_ok (fun t ht => addable_of_mem hok ht) hpe h

section Building

variable (isBoolean : ℕ → Bool)

/-- The factors of a term are sums. -/
def FactorsOk (t : PolynomialTerm) : Prop :=
  ∀ p ∈ t.polyFactors, ExpressionOk p ∧ 2 ≤ p.terms.length

theorem factorsOk_of_ok {t : PolynomialTerm} (h : TermOk t) : FactorsOk t := by
  obtain ⟨hfactors, hsums, -, -⟩ := h
  exact fun p hp => ⟨hfactors p hp, hsums p hp⟩

/-- Simplifying computes the degree. -/
theorem simplifyProduct_ok {t : PolynomialTerm} (h : FactorsOk t) :
    TermOk (simplifyProduct isBoolean t) := by
  obtain ⟨c, ms, ps, d⟩ := t
  exact ⟨fun p hp => (h p hp).1, fun p hp => (h p hp).2, le_refl _, fun _ => rfl⟩

theorem sortPolys_factors {t : PolynomialTerm} (h : FactorsOk t) : FactorsOk (sortPolys t) := by
  obtain ⟨c, ms, ps, d⟩ := t
  intro p hp
  exact h p ((List.mem_insertionSort _).1 hp)

theorem sortMonomers_factors {t : PolynomialTerm} (h : FactorsOk t) :
    FactorsOk (sortMonomers t) := by
  obtain ⟨c, ms, ps, d⟩ := t
  exact h

/-- Adding a sum as a factor. -/
theorem addFactor_sum_ok {p : PolynomialExpression} (hp : ExpressionOk p ∧ 2 ≤ p.terms.length)
    {t : PolynomialTerm} (h : FactorsOk t) : TermOk (addFactor isBoolean p t) := by
  obtain ⟨c, ms, ps, d⟩ := t
  match p, hp with
  | .mk (u :: v :: ts) d', hp =>
      rw [addFactor]
      apply simplifyProduct_ok
      apply sortPolys_factors
      intro q hq
      rcases List.mem_append.1 hq with hq | hq
      · exact h q hq
      · rw [List.mem_singleton.1 hq]
        exact hp
  | .mk [] d', hp => exact absurd hp.2 (by simp [PolynomialExpression.terms])
  | .mk [u] d', hp => exact absurd hp.2 (by simp [PolynomialExpression.terms])

theorem addFactors_factors {ps : List PolynomialExpression}
    (hps : ∀ p ∈ ps, ExpressionOk p ∧ 2 ≤ p.terms.length) {t : PolynomialTerm}
    (h : FactorsOk t) : FactorsOk (addFactors isBoolean ps t) := by
  induction ps generalizing t with
  | nil =>
      rw [addFactors]
      exact h
  | cons p ps ih =>
      rw [addFactors]
      have hp := addFactor_sum_ok isBoolean (hps p List.mem_cons_self) h
      exact ih (fun q hq => hps q (List.mem_cons_of_mem p hq)) (factorsOk_of_ok hp)

theorem addFactor_ok {pe : PolynomialExpression} (hpe : ExpressionOk pe) {t : PolynomialTerm}
    (h : TermOk t) : TermOk (addFactor isBoolean pe t) := by
  match pe, hpe with
  | .mk [] d', hpe =>
      obtain ⟨c, ms, ps, d⟩ := t
      obtain ⟨hfactors, hsums, hlow, hexact⟩ := h
      rw [addFactor]
      exact ⟨hfactors, hsums, hlow, hexact⟩
  | .mk [.mk c' ms' ps' d''] d', hpe =>
      have hfactors := factorsOk_of_ok (addable_of_mem hpe List.mem_cons_self).ok
      have ht := factorsOk_of_ok h
      obtain ⟨c, ms, ps, d⟩ := t
      rw [addFactor]
      apply simplifyProduct_ok
      apply sortPolys_factors
      apply sortMonomers_factors
      exact addFactors_factors isBoolean hfactors ht
  | .mk (u :: v :: ts) d', hpe =>
      exact addFactor_sum_ok isBoolean ⟨hpe, by simp [PolynomialExpression.terms]⟩
        (factorsOk_of_ok h)

theorem addConstant_ok (c : FloatConstant) {t : PolynomialTerm} (h : TermOk t) :
    TermOk (addConstant c t) := by
  obtain ⟨c', ms, ps, d⟩ := t
  obtain ⟨hfactors, hsums, hlow, hexact⟩ := h
  exact ⟨hfactors, hsums, hlow, hexact⟩

theorem addMonomer_ok (x : ℕ) {t : PolynomialTerm} (h : TermOk t) :
    TermOk (addMonomer isBoolean x t) := by
  have ht := factorsOk_of_ok h
  obtain ⟨c, ms, ps, d⟩ := t
  rw [addMonomer]
  apply simplifyProduct_ok
  apply sortMonomers_factors
  exact ht

theorem productTerm_ok {ptL ptR : PolynomialTerm} (hL : TermOk ptL) (hR : TermOk ptR) :
    TermOk (productTerm isBoolean ptL ptR) := by
  apply simplifyProduct_ok
  apply sortPolys_factors
  apply sortMonomers_factors
  apply addFactors_factors isBoolean (factorsOk_of_ok hR)
  apply addFactors_factors isBoolean (factorsOk_of_ok hL)
  exact fun p hp => absurd hp List.not_mem_nil

theorem termOk_new : TermOk .new :=
  ⟨fun _ h => absurd h List.not_mem_nil, fun _ h => absurd h List.not_mem_nil, le_refl _,
    fun _ => rfl⟩

variable {isBoolean}

mutual

/-- Every term that is built satisfies the invariant. -/
theorem ReachableTerm.ok {pt : PolynomialTerm} (h : ReachableTerm isBoolean pt) : TermOk pt :=
  match h with
  | .new => termOk_new
  | .constant c h => addConstant_ok c h.ok
  | .monomer x h => addMonomer_ok isBoolean x h.ok
  | .factor hpe h => addFactor_ok isBoolean hpe.ok h.ok
  | .product hL hR => productTerm_ok isBoolean hL.ok hR.ok
  | .term hpe h => (addable_of_mem hpe.ok h).ok

/-- Every expression that is built satisfies the invariant. -/
theorem Reachable.ok {pe : PolynomialExpression} (h : Reachable isBoolean pe) : ExpressionOk pe :=
  match h with
  | .new => ok_new
  | .add hpt hpe heq => addMultiplesOfTerm_ok hpt.ok hpe.ok heq

end

end Building

end Pepper.Frontend
