import Mathlib.Algebra.BigOperators.Group.List.Basic
import Mathlib.Tactic.Ring
import Pepper.Cmtgkr.PwsOwners

/-!
# Gates that the parser builds

What the functions that build gates return for settled gates: a product or sum of two gates
(`makeGate_inv`), a negated gate, a difference of two primitives and a balanced tree (`reduce_inv`).
`Means` says what a gate carries in every evaluation; it is kept by every later call. A gate that
was built is firm, too (`Builds`).
-/

set_option autoImplicit false

open Pepper.Common.Gmp Pepper.Cmtgkr.Env Pepper.Cmtgkr.Layer

namespace Pepper.Cmtgkr.Pws

/-! ## Operations on lists -/

section Lists

variable {R : Type} [CommRing R]

/-- The operation of a gate on a list. -/
def OpType.fold : OpType → List R → R
  | .add, l => l.sum
  | .mul, l => l.prod
  | .divInt, l => l.prod
  | .constant, l => l.sum

end Lists

/-! ## What a gate carries -/

section Means

variable {R : Type} [CommRing R]

/-- The gate is there and, if `S` holds, carries the value `f` in every evaluation. -/
structure Means (S : Prop) (s : PWSCircuitParser) (pos : GatePosition)
    (f : (GatePosition → R) → R) : Prop where
  there : HasGate s pos
  value : S → ∀ val : GatePosition → R, Evaluates s val → val pos = f val

variable {S : Prop} {P : Policy} {s s' : PWSCircuitParser}

theorem Means.of_run {pos : GatePosition} {f : (GatePosition → R) → R} (h : Means S s pos f)
    (hrun : Run P s s') (hs : WellFormed s) : Means S s' pos f where
  there := (hrun.wellFormed hs).2.1.hasGate h.there
  value hS val hval := h.value hS val (hval.of_run hrun hs)

/-- A gate that was built: it carries the value, and later calls that build gates carry it up. -/
structure Builds (S : Prop) (s : PWSCircuitParser) (pos : GatePosition)
    (f : (GatePosition → R) → R) : Prop extends Means S s pos f where
  firm : S → Firm R s pos

theorem Builds.of_run {pos : GatePosition} {f : (GatePosition → R) → R} (h : Builds S s pos f)
    (hrun : Run P s s') (hP : P.Quiet) (hs : WellFormed s) : Builds S s' pos f where
  toMeans := h.toMeans.of_run hrun hs
  firm hS := (h.firm hS).of_run hrun hP hs h.there

theorem Builds.settled {pos : GatePosition} {f : (GatePosition → R) → R} (h : Builds S s pos f)
    (hS : S) : Settled R s pos := (h.firm hS).settled

/-- A settled gate that was carried up. -/
theorem Carried.means {g pos : GatePosition} {l : ℕ}
    (h : Carried building s s' (standIn s g) pos l) (hs : WellFormed s)
    (hA : S → AllAligned R s) (hsettled : S → Settled R s g) :
    Means S s' pos (fun val : GatePosition → R => val g) where
  there := h.there
  value hS val hval :=
    (h.value (hA hS) val hval).trans ((hsettled hS).2 val (hval.of_run h.run hs)).symm

theorem OpType.add_ne_constant : OpType.add ≠ .constant := nofun

theorem OpType.mul_ne_constant : OpType.mul ≠ .constant := nofun

/-- A gate over two gates of a layer. -/
theorem addGate_means {op : OpType} (hop : op ≠ .constant) (hs : WellFormed s)
    {in1 in2 pos : GatePosition} (hlayer : in1.layer = in2.layer) (h1 : HasGate s in1)
    (h2 : HasGate s in2)
    (h : addGate op in1.name in2.name (in1.layer + 1) s = some (pos, s')) :
    Run building s s' ∧ pos.layer = in1.layer + 1 ∧
      Builds S s' pos (fun val : GatePosition → R => op.eval (val in1) (val in2)) := by
  have h2' : HasGate s ⟨in1.layer, in2.name⟩ := by rwa [hlayer]
  obtain ⟨hpos, -, -, hgates⟩ := addGate_inv h
  obtain ⟨-, -, hthere⟩ := wellFormed_addGate hs h
    (fun k hk => by obtain rfl := Nat.succ.inj hk; exact ⟨hop, h1, h2'⟩) (by simp)
  refine ⟨.single (.addGate op _ _ in1.layer pos hop h1 h2' h), hpos, ⟨hthere, fun _ val hval => ?_⟩,
    fun _ => firm_of_unbound ((hgates pos).trans (if_pos rfl)) rfl⟩
  have hpos' : (⟨in1.layer + 1, pos.name⟩ : GatePosition) = pos := by rw [← hpos]
  have hgate := hval.gate in1.layer pos.name _ (by rw [hpos', hgates, if_pos rfl])
  rw [hpos'] at hgate
  rw [hgate]
  congr 2
  rw [hlayer]

/-- A number that is entered and carried to a layer. -/
theorem constGate_means (hs : WellFormed s) (hA : S → AllAligned R s) {c : ℤ} {l : ℕ}
    {pos : GatePosition}
    (h : (addConstant (Text.ofInt c) >>= fun p => getGate p l) s = some (pos, s')) :
    Run building s s' ∧ pos.layer = l ∧
      Means S s' pos (fun _ : GatePosition → R => (c : R)) := by
  obtain ⟨p, s₁, hconst, hget⟩ := bind_inv h
  have hrun₁ : Run building s s₁ := .single (.addConstant _ p hconst)
  have hp := addConstant_isConst hconst
  have hwf₁ := (hrun₁.wellFormed hs).1
  obtain ⟨g, pos', s₂, hget', hcarried, hlow⟩ := getGate_constant_run building hwf₁ hp l
  rw [hget'] at hget
  obtain ⟨rfl, rfl⟩ := Prod.mk.inj (Option.some.inj hget)
  refine ⟨hrun₁.trans hcarried.run, hcarried.layer, hcarried.there, fun hsound val hval => ?_⟩
  rw [hcarried.value ((hA hsound).of_run hrun₁ hs) val hval]
  exact hval.const p _ c g (hp.mono (hcarried.run.wellFormed hwf₁).2.2) (mpzSetStr_ofInt c) hlow

/-- `makeGate`. Gates of one layer are not carried up. -/
theorem makeGate_inv {op : OpType} (hop : op ≠ .constant) (hs : WellFormed s)
    (hA : S → AllAligned R s) {in1 in2 pos : GatePosition} (h1 : HasGate s in1)
    (h2 : HasGate s in2)
    (hsettled : in1.layer ≠ in2.layer → S → Settled R s in1 ∧ Settled R s in2)
    (h : makeGate op in1 in2 s = some (pos, s')) :
    Run building s s' ∧
      Builds S s' pos (fun val : GatePosition → R => op.eval (val in1) (val in2)) := by
  rw [makeGate] at h
  by_cases hlayer : in1.layer = in2.layer
  · rw [if_neg (not_not.mpr hlayer)] at h
    obtain ⟨hrun, -, hbuilds⟩ := addGate_means (S := S) (R := R) hop hs hlayer h1 h2 h
    exact ⟨hrun, hbuilds⟩
  · rw [if_pos hlayer] at h
    obtain ⟨gate1, s₁, hg1, hrun⟩ := bind_inv h
    clear h
    obtain ⟨gate2, s₂, hg2, hadd⟩ := bind_inv hrun
    have hc1 := promoteGate_inv building hs (le_max_left _ _) hg1
    have hwf₁ := (hc1.run.wellFormed hs).1
    have hc2 := promoteGate_inv building hwf₁ (le_max_right _ _) hg2
    have hm1 := (hc1.means hs hA fun hS => (hsettled hlayer hS).1).of_run hc2.run hwf₁
    have hm2 := hc2.means hwf₁ (fun hS => (hA hS).of_run hc1.run hs) fun hS =>
      (hsettled hlayer hS).2.of_run hc1.run building_quiet hs h2
    rw [← hc1.layer] at hadd
    obtain ⟨hrun₃, -, hbuilds⟩ := addGate_means (S := S) (R := R) hop (hc2.run.wellFormed hwf₁).1
      (hc1.layer.trans hc2.layer.symm) hm1.there hm2.there hadd
    have hwf₂ := (hc2.run.wellFormed hwf₁).1
    refine ⟨(hc1.run.trans hc2.run).trans hrun₃, ⟨hbuilds.there, fun hS val hval => ?_⟩,
      hbuilds.firm⟩
    have hval₂ := hval.of_run hrun₃ hwf₂
    rw [hbuilds.value hS val hval, hm1.value hS val hval₂, hm2.value hS val hval₂]

/-- `negateGate`. -/
theorem negateGate_inv (hs : WellFormed s) (hA : S → AllAligned R s) {g pos : GatePosition}
    (hg : HasGate s g) (h : negateGate g s = some (pos, s')) :
    Run building s s' ∧ Builds S s' pos (fun val : GatePosition → R => -val g) := by
  obtain ⟨neg1, s₁, hconst, hrest⟩ := bind_inv h
  obtain ⟨neg1Gate, s₂, hget, hadd⟩ := bind_inv hrest
  have hneg : (addConstant (Text.ofInt (-1)) >>= fun p => getGate p g.layer) s =
      some (neg1Gate, s₂) := (bind_run hconst).trans hget
  obtain ⟨hrun₁, hlayer, hm⟩ := constGate_means (R := R) hs hA hneg
  obtain ⟨hwf₂, hgrows₂, -⟩ := hrun₁.wellFormed hs
  obtain ⟨hrun₂, -, hbuilds⟩ := addGate_means (S := S) (R := R) OpType.mul_ne_constant hwf₂
    hlayer.symm (hgrows₂.hasGate hg) hm.there hadd
  refine ⟨hrun₁.trans hrun₂, ⟨hbuilds.there, fun hS val hval => ?_⟩, hbuilds.firm⟩
  rw [hbuilds.value hS val hval, hm.value hS val (hval.of_run hrun₂ hwf₂), OpType.eval]
  push_cast
  ring

/-- `getGate` of a primitive, while gates are built. -/
theorem getGate_building (hs : WellFormed s) {p : Primitive} {g : GatePosition}
    (h : getGate p 0 s = some (g, s')) :
    Run building s s' ∧ WellFormed s' ∧ lowest s' p = some g ∧ HasGate s' g := by
  obtain ⟨hrun, hlow, -⟩ := getGate_inv building hs h
  have hwf := (hrun.wellFormed hs).1
  exact ⟨hrun, hwf, hlow, hwf.hasGate_lowest hlow⟩

/-- The end of `makeSubGate`, on the gates of the two primitives. -/
theorem subGate_inv (hs : WellFormed s) (hA : S → AllAligned R s) {in1 in2 pos : GatePosition}
    (h1 : HasGate s in1) (h2 : HasGate s in2) (hsettled : S → Settled R s in1)
    (h : (negateGate in2 >>= fun neg => makeGate .add in1 neg) s = some (pos, s')) :
    Run building s s' ∧ Builds S s' pos (fun val : GatePosition → R => val in1 - val in2) := by
  obtain ⟨neg, s₁, hneg, hadd⟩ := bind_inv h
  obtain ⟨hrun₁, hb₁⟩ := negateGate_inv (S := S) (R := R) hs hA h2 hneg
  obtain ⟨hwf₁, hgrows₁, -⟩ := hrun₁.wellFormed hs
  obtain ⟨hrun₂, hb₂⟩ := makeGate_inv (S := S) (R := R) OpType.add_ne_constant hwf₁
    (fun hS => (hA hS).of_run hrun₁ hs) (hgrows₁.hasGate h1) hb₁.there
    (fun _ hS => ⟨(hsettled hS).of_run hrun₁ building_quiet hs h1, hb₁.settled hS⟩) hadd
  refine ⟨hrun₁.trans hrun₂, ⟨hb₂.there, fun hS val hval => ?_⟩, hb₂.firm⟩
  rw [hb₂.value hS val hval, hb₁.value hS val (hval.of_run hrun₂ hwf₁), OpType.eval,
    sub_eq_add_neg]

/-- `makeSubGate`, in either order of evaluation. -/
theorem makeSubGate_inv {rightFirst : Bool} (hs : WellFormed s) (hA : S → AllAligned R s)
    {x1 x2 : Primitive} (hx1 : S → SettledAt R s x1) {pos : GatePosition}
    (h : makeSubGate rightFirst x1 x2 s = some (pos, s')) :
    ∃ g1 g2, Run building s s' ∧ lowest s' x1 = some g1 ∧ lowest s' x2 = some g2 ∧
      Builds S s' pos (fun val : GatePosition → R => val g1 - val g2) := by
  rw [makeSubGate] at h
  cases rightFirst with
  | true =>
      simp only [↓reduceIte] at h
      obtain ⟨g2, s₁, hg2, h₁⟩ := bind_inv h
      obtain ⟨g1, s₂, hg1, h₂⟩ := bind_inv h₁
      obtain ⟨hrun₁, hwf₁, hlow2, -⟩ := getGate_building hs hg2
      obtain ⟨hrun₂, hwf₂, hlow1, hhas1⟩ := getGate_building hwf₁ hg1
      have hlow2' := building_lowest hrun₂ hwf₁ hlow2
      have hrun₁₂ : Run building s s₂ := hrun₁.trans hrun₂
      obtain ⟨hrun₃, hb⟩ := subGate_inv (R := R) hwf₂ (fun hS => (hA hS).of_run hrun₁₂ hs) hhas1
        (hwf₂.hasGate_lowest hlow2')
        (fun hS => (hx1 hS).of_run hrun₁₂ building_quiet hs g1 hlow1) h₂
      exact ⟨g1, g2, hrun₁₂.trans hrun₃, building_lowest hrun₃ hwf₂ hlow1,
        building_lowest hrun₃ hwf₂ hlow2', hb⟩
  | false =>
      simp only [Bool.false_eq_true, ↓reduceIte] at h
      obtain ⟨g1, s₁, hg1, h₁⟩ := bind_inv h
      obtain ⟨g2, s₂, hg2, h₂⟩ := bind_inv h₁
      obtain ⟨hrun₁, hwf₁, hlow1, -⟩ := getGate_building hs hg1
      obtain ⟨hrun₂, hwf₂, hlow2, hhas2⟩ := getGate_building hwf₁ hg2
      have hlow1' := building_lowest hrun₂ hwf₁ hlow1
      have hrun₁₂ : Run building s s₂ := hrun₁.trans hrun₂
      obtain ⟨hrun₃, hb⟩ := subGate_inv (R := R) hwf₂ (fun hS => (hA hS).of_run hrun₁₂ hs)
        (hwf₂.hasGate_lowest hlow1') hhas2
        (fun hS => (hx1 hS).of_run hrun₁₂ building_quiet hs g1 hlow1') h₂
      exact ⟨g1, g2, hrun₁₂.trans hrun₃, building_lowest hrun₃ hwf₂ hlow1',
        building_lowest hrun₃ hwf₂ hlow2, hb⟩

/-- A loop over a list, when what each pass gives is kept by the later ones. -/
theorem mapM_inv {α β : Type} {f : α → ParserM β} {Q : α → β → PWSCircuitParser → Prop}
    (hQ : ∀ a b t t', WellFormed t → Run P t t' → Q a b t → Q a b t') {l : List α}
    (hs : WellFormed s)
    (hf : ∀ a ∈ l, ∀ t b t', Run P s t → f a t = some (b, t') → Run P t t' ∧ Q a b t')
    {out : List β} (h : l.mapM f s = some (out, s')) :
    Run P s s' ∧ List.Forall₂ (fun a b => Q a b s') l out := by
  induction l generalizing s out with
  | nil =>
      rw [List.mapM_nil] at h
      obtain ⟨rfl, rfl⟩ := pure_inv h
      exact ⟨.refl, .nil⟩
  | cons a l ih =>
      rw [List.mapM_cons] at h
      obtain ⟨b, s₁, hb, hrest⟩ := bind_inv h
      obtain ⟨bs, s₂, hbs, hpure⟩ := bind_inv hrest
      obtain ⟨rfl, rfl⟩ := pure_inv hpure
      obtain ⟨hrun₁, hQ₁⟩ := hf a List.mem_cons_self s b s₁ .refl hb
      have hwf₁ := (Run.wellFormed hrun₁ hs).1
      obtain ⟨hrun₂, hall⟩ := ih hwf₁ (fun c hc t d t' hrun => hf c (List.mem_cons_of_mem _ hc) t d t'
        (hrun₁.trans hrun)) hbs
      exact ⟨hrun₁.trans hrun₂, .cons (hQ a b s₁ _ hwf₁ hrun₂ hQ₁) hall⟩

theorem exists_of_forall₂ {α β : Type} {r : α → β → Prop} {l : List α} {out : List β}
    (h : List.Forall₂ r l out) : ∀ b ∈ out, ∃ a ∈ l, r a b := by
  induction h with
  | nil => simp
  | @cons a b l out hab _ ih =>
      intro c hc
      rcases List.mem_cons.mp hc with rfl | hc
      · exact ⟨a, List.mem_cons_self, hab⟩
      · obtain ⟨d, hd, hdc⟩ := ih c hc
        exact ⟨d, List.mem_cons_of_mem _ hd, hdc⟩

theorem map_eq_of_forall₂ {α β γ : Type} {f : α → γ} {g : β → γ} {l : List α} {out : List β}
    (h : List.Forall₂ (fun a b => f a = g b) l out) : l.map f = out.map g := by
  rw [← List.forall₂_eq_eq_eq]
  exact List.forall₂_map_left_iff.mpr (List.forall₂_map_right_iff.mpr h)

/-- A list of an even length, folded in pairs. -/
theorem OpType.fold_pairs {op : OpType} (v : ℕ → R) (n : ℕ) :
    op.fold ((List.range n).map fun i => op.eval (v (2 * i)) (v (2 * i + 1))) =
      op.fold ((List.range (2 * n)).map v) := by
  induction n with
  | zero => rfl
  | succ n ih =>
      have hdouble : 2 * (n + 1) = 2 * n + 1 + 1 := by ring
      rw [hdouble, List.range_succ, List.range_succ, List.range_succ]
      cases op <;>
        simp only [OpType.fold, OpType.eval, List.map_append, List.sum_append, List.prod_append,
          List.map_cons, List.map_nil, List.sum_singleton, List.prod_singleton] at ih ⊢ <;>
        rw [ih] <;> ring

theorem map_eq_range {α β : Type} (l : List α) (d : α) (f : α → β) :
    l.map f = (List.range l.length).map fun i => f (l.getD i d) := by
  apply List.ext_getElem
  · simp
  · intro i h1 h2
    have hi : i < l.length := by simpa using h1
    simp [List.getD_eq_getElem?_getD, List.getElem?_eq_getElem hi]

/-- One pass of the loop of `reduce`: the gates of a layer, taken in pairs. -/
theorem reducePairs_inv {op : OpType} (hop : op ≠ .constant) (hs : WellFormed s) {l : ℕ}
    {terms out : List GatePosition} (hterms : ∀ t ∈ terms, t.layer = l ∧ HasGate s t)
    (heven : terms.length % 2 = 0)
    (h : ((List.range (terms.length / 2)).mapM fun i =>
      addGate op (terms.getD (2 * i) ⟨0, 0⟩).name (terms.getD (2 * i + 1) ⟨0, 0⟩).name
        (l + 1)) s = some (out, s')) :
    Run building s s' ∧ (∀ t ∈ out, t.layer = l + 1 ∧ HasGate s' t ∧ (S → Firm R s' t)) ∧
      out.length = terms.length / 2 ∧
      ∀ val : GatePosition → R, S → Evaluates s' val →
        op.fold (out.map val) = op.fold (terms.map val) := by
  -- the number of terms is even, so that every pair is inside the list
  have hterm : ∀ i, i < terms.length → terms.getD i ⟨0, 0⟩ ∈ terms := by
    intro i hi
    rw [List.getD_eq_getElem?_getD, List.getElem?_eq_getElem hi]
    exact List.getElem_mem hi
  obtain ⟨hrun, hall⟩ := mapM_inv (P := building)
    (Q := fun i pos t => pos.layer = l + 1 ∧ Builds S t pos (fun val : GatePosition → R =>
      op.eval (val (terms.getD (2 * i) ⟨0, 0⟩)) (val (terms.getD (2 * i + 1) ⟨0, 0⟩))))
    (fun i pos t t' hwf hrun hq => ⟨hq.1, hq.2.of_run hrun building_quiet hwf⟩) hs
    -- each pair becomes one gate on the layer above
    (fun i hi t pos t' hrun hadd => by
      have hlt := List.mem_range.mp hi
      obtain ⟨hl1, hh1⟩ := hterms _ (hterm (2 * i) (by omega))
      obtain ⟨hl2, hh2⟩ := hterms _ (hterm (2 * i + 1) (by omega))
      obtain ⟨hwf, hgrows, -⟩ := hrun.wellFormed hs
      rw [← hl1] at hadd
      obtain ⟨hrun', hlayer, hbuilds⟩ := addGate_means (S := S) (R := R) hop hwf
        (hl1.trans hl2.symm) (hgrows.hasGate hh1) (hgrows.hasGate hh2) hadd
      exact ⟨hrun', hl1 ▸ hlayer, hbuilds⟩) h
  refine ⟨hrun, fun t ht => ?_, by simpa using hall.length_eq.symm, fun val hS hval => ?_⟩
  · obtain ⟨i, -, hlayer, hbuilds⟩ := exists_of_forall₂ hall t ht
    exact ⟨hlayer, hbuilds.there, hbuilds.firm⟩
  · -- the fold over the pairs is the fold over the terms
    have hvalues := map_eq_of_forall₂ (hall.imp fun i t ht => (ht.2.value hS val hval).symm)
    rw [← hvalues, map_eq_range terms ⟨0, 0⟩ val]
    rw [OpType.fold_pairs (fun i => val (terms.getD i ⟨0, 0⟩)) (terms.length / 2)]
    rw [Nat.mul_div_cancel' (Nat.dvd_of_mod_eq_zero heven)]

theorem OpType.fold_cons (op : OpType) (a : R) (l : List R) :
    op.fold (a :: l) = op.eval a (op.fold l) := by
  cases op <;> simp [OpType.fold, OpType.eval]

/-- The loop of `reduce`. Only the first gate is carried up on its own. -/
theorem reduceLoop_inv {op : OpType} (hop : op ≠ .constant) (fuel : ℕ) {terms : List GatePosition}
    {l : ℕ} {pos : GatePosition} (hs : WellFormed s) (hA : S → AllAligned R s)
    (hterms : ∀ t ∈ terms, t.layer = l ∧ HasGate s t)
    (hfirst : S → ∀ t ∈ terms.head?, Firm R s t)
    (h : reduceLoop op fuel terms l s = some (pos, s')) :
    Run building s s' ∧
      Builds S s' pos (fun val : GatePosition → R => op.fold (terms.map val)) := by
  induction fuel generalizing s terms l with
  | zero => exact (failure_inv h).elim
  | succ fuel ih =>
      rw [reduceLoop.eq_def] at h
      match terms, hterms, hfirst, h with
      | [], _, _, h => exact (failure_inv h).elim
      | [g], hterms, hfirst, h =>
          obtain ⟨rfl, rfl⟩ := pure_inv h
          refine ⟨.refl, ⟨(hterms _ List.mem_cons_self).2, fun _ val _ => ?_⟩,
            fun hS => hfirst hS _ rfl⟩
          cases op <;> simp [OpType.fold]
      | g :: g' :: gs, hterms, hfirst, h =>
          simp only at h
          by_cases hodd : (g :: g' :: gs).length % 2 = 1
          · -- the first gate is carried up alone
            rw [if_pos hodd] at h
            obtain ⟨first, s₁, hpromote, h₁⟩ := bind_inv h
            obtain ⟨out, s₂, hout, h₂⟩ := bind_inv h₁
            obtain ⟨hgl, hgh⟩ := hterms g List.mem_cons_self
            have hcarried := promoteGate_inv building hs (hgl ▸ Nat.le_succ l) hpromote
            obtain ⟨hwf₁, hgrows₁, -⟩ := hcarried.run.wellFormed hs
            obtain ⟨hrun₂, hthere₂, -, hvalue₂⟩ := reducePairs_inv (S := S) (R := R) hop hwf₁
              (fun t ht => ⟨(hterms t (List.mem_cons_of_mem _ ht)).1,
                hgrows₁.hasGate (hterms t (List.mem_cons_of_mem _ ht)).2⟩)
              (by rw [List.length_cons] at hodd; omega) hout
            obtain ⟨hwf₂, hgrows₂, -⟩ := hrun₂.wellFormed hwf₁
            have hfirst₂ := (hcarried.means hs hA fun hS => (hfirst hS g rfl).settled).of_run
              hrun₂ hwf₁
            obtain ⟨hrun₃, hbuilds⟩ := ih hwf₂
              (fun hS => (hA hS).of_run (hcarried.run.trans hrun₂) hs)
              (fun t ht => by
                rcases List.mem_cons.mp ht with rfl | ht
                · exact ⟨hcarried.layer, hfirst₂.there⟩
                · exact ⟨(hthere₂ t ht).1, (hthere₂ t ht).2.1⟩)
              (fun hS t ht => by
                obtain rfl : first = t := Option.some.inj ht
                exact (promoteGate_firm hs (hA hS) (hfirst hS g rfl) (hgl ▸ Nat.le_succ l)
                  hpromote).of_run hrun₂ building_quiet hwf₁ hcarried.there) h₂
            refine ⟨(hcarried.run.trans hrun₂).trans hrun₃,
              ⟨hbuilds.there, fun hS val hval => ?_⟩, hbuilds.firm⟩
            have hval₂ := hval.of_run hrun₃ hwf₂
            rw [hbuilds.value hS val hval, List.map_cons, List.map_cons, OpType.fold_cons,
              OpType.fold_cons, hfirst₂.value hS val hval₂, hvalue₂ val hS hval₂]
          · -- all terms are paired
            rw [if_neg hodd] at h
            obtain ⟨out, s₂, hout, h₂⟩ := bind_inv h
            obtain ⟨hrun₂, hthere₂, -, hvalue₂⟩ := reducePairs_inv (S := S) (R := R) hop hs hterms
              (by omega) hout
            obtain ⟨hwf₂, hgrows₂, -⟩ := hrun₂.wellFormed hs
            obtain ⟨hrun₃, hbuilds⟩ := ih hwf₂ (fun hS => (hA hS).of_run hrun₂ hs)
              (fun t ht => ⟨(hthere₂ t ht).1, (hthere₂ t ht).2.1⟩)
              (fun hS t ht => (hthere₂ t (List.mem_of_head? ht)).2.2 hS) h₂
            refine ⟨hrun₂.trans hrun₃, ⟨hbuilds.there, fun hS val hval => ?_⟩, hbuilds.firm⟩
            have hval₂ := hval.of_run hrun₃ hwf₂
            rw [hbuilds.value hS val hval, hvalue₂ val hS hval₂]

theorem layer_le_foldl (terms : List GatePosition) (b : ℕ) :
    b ≤ terms.foldl (fun l g => max l g.layer) b ∧
      ∀ t ∈ terms, t.layer ≤ terms.foldl (fun l g => max l g.layer) b := by
  induction terms generalizing b with
  | nil => exact ⟨Nat.le_refl b, by simp⟩
  | cons g terms ih =>
      obtain ⟨hle, hall⟩ := ih (max b g.layer)
      refine ⟨(le_max_left _ _).trans hle, fun t ht => ?_⟩
      rcases List.mem_cons.mp ht with rfl | ht
      · exact (le_max_right _ _).trans hle
      · exact hall t ht

/-- `reduce`: a balanced tree over gates of any layers. -/
theorem reduce_inv {op : OpType} (hop : op ≠ .constant) (hs : WellFormed s)
    (hA : S → AllAligned R s) {terms : List GatePosition} {pos : GatePosition}
    (hne : terms ≠ []) (hterms : ∀ t ∈ terms, HasGate s t)
    (hsettled : S → ∀ t ∈ terms, Settled R s t) (hfirst : S → ∀ t ∈ terms.head?, Firm R s t)
    (h : reduce op terms s = some (pos, s')) :
    Run building s s' ∧
      Builds S s' pos (fun val : GatePosition → R => op.fold (terms.map val)) := by
  match terms, hne, hterms, hsettled, hfirst, h with
  | [g], _, hterms, _, hfirst, h =>
      obtain ⟨rfl, rfl⟩ := pure_inv h
      refine ⟨.refl, ⟨hterms _ List.mem_cons_self, fun _ val _ => ?_⟩, fun hS => hfirst hS _ rfl⟩
      cases op <;> simp [OpType.fold]
  | g :: g' :: gs, _, hterms, hsettled, hfirst, h =>
      obtain ⟨terms', s₁, hpromote, hloop⟩ := bind_inv h
      generalize hlist : g :: g' :: gs = all at hterms hsettled hfirst hloop hpromote
      have hle := (layer_le_foldl all 0).2
      generalize all.foldl (fun l g => max l g.layer) 0 = inLayer at hle hpromote hloop
      -- a firm gate stays firm when it is carried up
      obtain ⟨hrun₁, hall⟩ := mapM_inv (P := building)
        (Q := fun (g pos : GatePosition) t => pos.layer = inLayer ∧
          Means S t pos (fun val : GatePosition → R => val g) ∧
            (S → Firm R s g → Firm R t pos))
        (fun g pos t t' hwf hrun hq => ⟨hq.1, hq.2.1.of_run hrun hwf, fun hS hfirm =>
          (hq.2.2 hS hfirm).of_run hrun building_quiet hwf hq.2.1.there⟩) hs
        (fun a ha t pos t' hrun hcall => by
          have hwf := (hrun.wellFormed hs).1
          have hcarried := promoteGate_inv building hwf (hle a ha) hcall
          have hA' : S → AllAligned R t := fun hS => (hA hS).of_run hrun hs
          exact ⟨hcarried.run, hcarried.layer, hcarried.means hwf hA' fun hS =>
            (hsettled hS a ha).of_run hrun building_quiet hs (hterms a ha),
            fun hS hfirm => promoteGate_firm hwf (hA' hS)
              (hfirm.of_run hrun building_quiet hs (hterms a ha)) (hle a ha) hcall⟩) hpromote
      obtain ⟨hwf₁, -, -⟩ := hrun₁.wellFormed hs
      obtain ⟨hrun₂, hbuilds⟩ := reduceLoop_inv hop _ hwf₁ (fun hS => (hA hS).of_run hrun₁ hs)
        (fun t ht => by
          obtain ⟨a, -, hlayer, hm, -⟩ := exists_of_forall₂ hall t ht
          exact ⟨hlayer, hm.there⟩)
        (fun hS t ht => by
          subst hlist
          cases hall with
          | cons hq _ =>
              obtain rfl := Option.some.inj ht
              exact hq.2.2 hS (hfirst hS g rfl)) hloop
      refine ⟨hrun₁.trans hrun₂, ⟨hbuilds.there, fun hS val hval => ?_⟩, hbuilds.firm⟩
      have hvalues := map_eq_of_forall₂
        (hall.imp fun g t ht => (ht.2.1.value hS val (hval.of_run hrun₂ hwf₁)).symm)
      rw [hbuilds.value hS val hval, ← hvalues]

/-- `reduce` of nothing is the constant zero. -/
theorem reduce_nil_inv {op : OpType} (hs : WellFormed s) {pos : GatePosition}
    (h : reduce op [] s = some (pos, s')) : Run building s s' ∧ HasGate s' pos := by
  obtain ⟨hrun, -, hm⟩ := constGate_means (S := False) (R := ℤ) (c := 0) (l := 0) hs False.elim h
  exact ⟨hrun, hm.there⟩

end Means

/-! ## Records -/

section Records

/-- The states have recorded the same output constants and operations. -/
structure SameRecords (s s' : PWSCircuitParser) : Prop where
  outputs : s'.outConstantDesc = s.outConstantDesc
  ops : s'.magicOps = s.magicOps

theorem SameRecords.refl (s : PWSCircuitParser) : SameRecords s s := ⟨rfl, rfl⟩

theorem SameRecords.trans {s s₁ s₂ : PWSCircuitParser} (h : SameRecords s s₁)
    (h' : SameRecords s₁ s₂) : SameRecords s s₂ :=
  ⟨h'.outputs.trans h.outputs, h'.ops.trans h.ops⟩

/-- A call that records nothing. -/
def Keeps {α : Type} (m : ParserM α) : Prop :=
  ∀ s a s', m s = some (a, s') → SameRecords s s'

variable {α β : Type}

theorem Keeps.bind {m : ParserM α} {f : α → ParserM β} (hm : Keeps m) (hf : ∀ a, Keeps (f a)) :
    Keeps (m >>= f) := by
  intro s b s' h
  obtain ⟨a, s₁, h₁, h₂⟩ := bind_inv h
  exact (hm s a s₁ h₁).trans (hf a s₁ b s' h₂)

theorem keeps_setVarMap (p : Primitive) (v : CVar) (s : PWSCircuitParser) :
    SameRecords s (setVarMap p v s) := by
  rw [setVarMap]
  split <;> exact ⟨rfl, rfl⟩

theorem keeps_modifyPrimitive (p : Primitive) (f : CPrimitive → CPrimitive) :
    Keeps (modifyPrimitive p f) := by
  intro s a s' h
  rw [modifyPrimitive] at h
  split at h
  · obtain ⟨c, -, heq⟩ := Option.map_eq_some_iff.mp h
    obtain ⟨-, rfl⟩ := Prod.mk.inj heq
    exact ⟨rfl, rfl⟩
  · obtain ⟨v, -, heq⟩ := Option.map_eq_some_iff.mp h
    obtain ⟨-, rfl⟩ := Prod.mk.inj heq
    exact keeps_setVarMap _ _ s

theorem keeps_modifyGate (pos : GatePosition) (f : GateDescription → GateDescription) :
    Keeps (modifyGate pos f) := by
  intro s a s' h
  obtain ⟨g, -, heq⟩ := Option.map_eq_some_iff.mp h
  obtain ⟨-, rfl⟩ := Prod.mk.inj heq
  exact ⟨rfl, rfl⟩

theorem keeps_addGate (op : OpType) (in1 in2 l : ℕ) : Keeps (addGate op in1 in2 l) := by
  intro s a s' h
  obtain ⟨-, rfl⟩ := Prod.mk.inj (Option.some.inj h)
  exact ⟨rfl, rfl⟩

theorem keeps_toPrimitive (p : Primitive) : Keeps (toPrimitive p) := by
  intro s a s' h
  rw [toPrimitive] at h
  split at h <;>
  · obtain ⟨_, -, heq⟩ := Option.map_eq_some_iff.mp h
    obtain ⟨-, rfl⟩ := Prod.mk.inj heq
    exact .refl s

theorem keeps_getCircuitPrimitive (p : Primitive) : Keeps (getCircuitPrimitive p) := by
  intro s a s' h
  obtain ⟨rfl, -⟩ := getCircuitPrimitive_inv h
  exact .refl _

theorem keeps_bindVariable (p : Primitive) (gate : GatePosition) : Keeps (bindVariable p gate) := by
  have hrest : Keeps (modifyPrimitive p (·.bind gate) >>= fun _ => modifyGate gate (·.bind p)) :=
    (keeps_modifyPrimitive _ _).bind fun _ => keeps_modifyGate _ _
  refine (keeps_getCircuitPrimitive p).bind fun v => ?_
  intro s a s' h
  by_cases hb : v.isBound = true
  · simp only [hb, ↓reduceIte] at h
    obtain ⟨u₁, s₁, hunbind, h₁⟩ := bind_inv h
    rw [unbindAll_inv hunbind] at h₁
    exact hrest s a s' h₁
  · simp only [hb, Bool.false_eq_true, ↓reduceIte] at h
    exact hrest s a s' h

theorem keeps_addToCircuit (p : Primitive) : Keeps (addToCircuit p) := by
  refine (keeps_getCircuitPrimitive p).bind fun cp => ?_
  cases cp.isBound with
  | true =>
      intro s a s' h
      simp only [Bool.not_true, Bool.false_eq_true, ↓reduceIte] at h
      obtain ⟨-, rfl⟩ := pure_inv h
      exact .refl _
  | false =>
      simp only [Bool.not_false, ↓reduceIte]
      exact (keeps_toPrimitive p).bind fun var => (keeps_addGate _ _ _ _).bind fun gate =>
        keeps_bindVariable var gate

theorem keeps_promoteTo (p : Primitive) (in1 in2 l : ℕ) : Keeps (promoteTo p in1 in2 l) :=
  (keeps_addGate _ _ _ _).bind fun _ => (keeps_toPrimitive p).bind fun _ =>
    (keeps_modifyGate _ _).bind fun _ => keeps_modifyPrimitive _ _

theorem keeps_addVariable (type : VarType) (name : ℕ) : Keeps (addVariable type name) := by
  intro s a s' h
  rw [addVariable] at h
  split at h <;> obtain ⟨-, rfl⟩ := Prod.mk.inj (Option.some.inj h)
  · exact .refl s
  · exact keeps_setVarMap _ _ s

theorem keeps_addConstant (text : Text) : Keeps (addConstant text) := by
  intro s a s' h
  rw [addConstant] at h
  split at h <;> obtain ⟨-, rfl⟩ := Prod.mk.inj (Option.some.inj h)
  · exact .refl s
  · exact ⟨rfl, rfl⟩

variable {P : Policy} {s s' : PWSCircuitParser}

theorem Step.sameRecords (h : Step P s s') (hP : ¬ P.allows s .record) : SameRecords s s' := by
  cases h with
  | addVariable type name p run => exact keeps_addVariable _ _ _ _ _ run
  | addConstant text p run => exact keeps_addConstant _ _ _ _ run
  | makeMagic p v allowed found run => exact run ▸ keeps_setVarMap p v.makeMagic s
  | addToCircuit p run => exact keeps_addToCircuit _ _ _ _ run
  | addGate op in1 in2 layer pos isGate has1 has2 run => exact keeps_addGate _ _ _ _ _ _ _ run
  | promote p zero cp cz in1 in2 object zeroObject isZero bound top zeroGate run =>
      exact keeps_promoteTo _ _ _ _ _ _ _ run
  | bindVariable p gate allowed run => exact keeps_bindVariable _ _ _ _ _ run
  | record allowed names desc => exact absurd allowed hP

/-- Building gates records nothing. -/
theorem Run.sameRecords (h : Run building s s') : SameRecords s s' := by
  induction h with
  | refl => exact .refl s
  | tail _ hstep ih => exact ih.trans (hstep.sameRecords id)

end Records

end Pepper.Cmtgkr.Pws
