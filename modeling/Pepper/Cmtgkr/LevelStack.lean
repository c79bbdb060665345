import Pepper.Cmtgkr.CmtCircuit

/-!
# Stacks of levels

Circuits whose levels are pushed one after the other, down to level zero: `ofList` is the circuit
of a list of levels, `Stacked` says that every level fits over the one before it. Main results:
`residue_levels`, the residues of a level are the gates of all levels before it applied to the
input residues, and `matches_blocks`, when the supplied predicates of a level of two blocks of gates
are the extensions of its wiring.
-/

set_option autoImplicit false

open Pepper.Common.Gmp Pepper.Foundations.Loop Pepper.Foundations.Multilinear
open Pepper.Cmtgkr.Env

namespace Pepper.Cmtgkr.Layer

universe u

/-! ## Circuits of a list of levels -/

namespace CMTCircuit

/-- A circuit with `k` levels to come below the given ones. -/
def ofList (k : ℕ) (levels : List CircuitLayer) (inGates outGates : List (ℕ × ℕ)) : CMTCircuit :=
  ⟨List.replicate k .empty ++ levels, k, inGates, outGates⟩

section OfList

variable {k : ℕ} {l : CircuitLayer} {levels : List CircuitLayer} {inGates outGates : List (ℕ × ℕ)}

theorem makeShell_eq_ofList (n : ℕ) : makeShell n = ofList n [] [] [] := by
  rw [makeShell, ofList, List.append_nil]

@[simp] theorem makeLevel_ofList (size : ℕ) (addFn mulFn : MleFn) :
    (ofList (k + 1) levels inGates outGates).makeLevel size addFn mulFn =
      some (ofList k (.fresh size addFn mulFn :: levels) inGates outGates) := by
  have hset : (List.replicate (k + 1) CircuitLayer.empty ++ levels).set k
      (.fresh size addFn mulFn) =
        List.replicate k .empty ++ .fresh size addFn mulFn :: levels := by
    rw [List.replicate_succ', List.append_assoc, List.set_append_right _ _ (by simp)]
    simp
  rw [makeLevel, ofList, if_neg (Nat.succ_ne_zero k)]
  simp only [Nat.add_sub_cancel, hset, ofList]

/-- Below level zero. -/
@[simp] theorem makeLevel_ofList_zero (size : ℕ) (addFn mulFn : MleFn) :
    (ofList 0 levels inGates outGates).makeLevel size addFn mulFn = none :=
  if_pos rfl

@[simp] theorem clayer_ofList_zero : (ofList k (l :: levels) inGates outGates).clayer 0 = l := by
  simp [clayer, layer, ofList, List.getD_eq_getElem?_getD]

@[simp] theorem clayer_ofList_one :
    (ofList k (l :: levels) inGates outGates).clayer 1 = levels.headD .empty := by
  cases levels <;> simp [clayer, layer, ofList, List.getD_eq_getElem?_getD]

@[simp] theorem setWirings_ofList (start stop : ℕ) (w : ℕ → GateWiring) :
    (ofList k (l :: levels) inGates outGates).setWirings start stop w =
      ofList k (l.setWirings start stop w :: levels) inGates outGates := by
  rw [setWirings, clayer_ofList_zero]
  simp [ofList, List.set_append_right]

@[simp] theorem depth_ofList : (ofList k levels inGates outGates).depth = k + levels.length := by
  simp [depth, ofList]

@[simp] theorem addInGates_ofList (lvl start stop : ℕ) :
    (ofList k levels inGates outGates).addInGates lvl start stop =
      ofList k levels (addGatesFromLevel inGates lvl start stop) outGates := rfl

@[simp] theorem addOutGates_ofList (lvl start stop : ℕ) :
    (ofList k levels inGates outGates).addOutGates lvl start stop =
      ofList k levels inGates (addGatesFromLevel outGates lvl start stop) := rfl

@[simp] theorem layer_ofList_zero (lvl : ℕ) :
    (ofList 0 levels inGates outGates).layer lvl = levels.getD lvl .empty := by
  rw [layer, ofList, List.replicate_zero, List.nil_append]

end OfList

end CMTCircuit

/-- The levels that a loop of `n` passes pushes, the last one first. -/
def stack (f : ℕ → CircuitLayer) : ℕ → List CircuitLayer
  | 0 => []
  | n + 1 => f n :: stack f n

@[simp] theorem length_stack (f : ℕ → CircuitLayer) (n : ℕ) : (stack f n).length = n := by
  induction n with
  | zero => rfl
  | succ n ih => rw [stack, List.length_cons, ih]

theorem size_headD_stack {f : ℕ → CircuitLayer} {size : ℕ → ℕ} {levels : List CircuitLayer} {n : ℕ}
    (hlevels : (levels.headD .empty).size = size 0)
    (hsize : ∀ i < n, (f i).size = size (i + 1)) :
    ((stack f n ++ levels).headD .empty).size = size n := by
  cases n with
  | zero => exact hlevels
  | succ n => exact hsize n (Nat.lt_succ_self n)

/-- A loop that pushes one level in each pass, over a level of `size i` gates. By induction on the
passes. -/
theorem CMTCircuit.foldlM_stack {step : CMTCircuit → ℕ → Option CMTCircuit} {f : ℕ → CircuitLayer}
    {size : ℕ → ℕ} {levels : List CircuitLayer} {inGates outGates : List (ℕ × ℕ)} {n : ℕ} (k : ℕ)
    (hlevels : (levels.headD .empty).size = size 0)
    (hsize : ∀ i < n, (f i).size = size (i + 1))
    (hstep : ∀ i < n, ∀ k levels, (levels.headD .empty).size = size i →
      step (ofList (k + 1) levels inGates outGates) i =
        some (ofList k (f i :: levels) inGates outGates)) :
    (List.range n).foldlM step (ofList (k + n) levels inGates outGates) =
      some (ofList k (stack f n ++ levels) inGates outGates) := by
  induction n generalizing k with
  | zero => rfl
  | succ n ih =>
      have hhead : ((stack f n ++ levels).headD .empty).size = size n :=
        size_headD_stack hlevels fun i hi => hsize i (hi.trans (Nat.lt_succ_self n))
      have hrest := ih (k + 1) (fun i hi => hsize i (hi.trans (Nat.lt_succ_self n)))
        fun i hi => hstep i (hi.trans (Nat.lt_succ_self n))
      have hshell : k + (n + 1) = k + 1 + n := by omega
      rw [List.range_succ, List.foldlM_append, hshell, hrest]
      refine (Option.bind_some _ _).trans ?_
      rw [List.foldlM_cons, hstep n (Nat.lt_succ_self n) k _ hhead]
      rfl

/-! ## Levels that fit -/

/-- The levels stand on a level of `s₀` gates, every level has the property `P` over the size of the
level before it, and the last level has `s` gates. -/
inductive Stacked (P : CircuitLayer → ℕ → Prop) (s₀ : ℕ) : ℕ → List CircuitLayer → Prop
  | nil : Stacked P s₀ s₀ []
  | cons {s : ℕ} {levels : List CircuitLayer} (l : CircuitLayer) : P l s →
      Stacked P s₀ s levels → Stacked P s₀ l.size (l :: levels)

namespace Stacked

variable {P Q : CircuitLayer → ℕ → Prop} {s₀ s s' : ℕ} {levels upper : List CircuitLayer}

theorem mono (hPQ : ∀ l s, P l s → Q l s) (h : Stacked P s₀ s levels) : Stacked Q s₀ s levels := by
  induction h with
  | nil => exact .nil
  | cons l hl _ ih => exact .cons l (hPQ l _ hl) ih

theorem push (h : Stacked P s₀ s levels) {l : CircuitLayer} (hl : P l s) (hsize : l.size = s') :
    Stacked P s₀ s' (l :: levels) :=
  hsize ▸ .cons l hl h

theorem append (hupper : Stacked P s s' upper) (h : Stacked P s₀ s levels) :
    Stacked P s₀ s' (upper ++ levels) := by
  induction hupper with
  | nil => exact h
  | cons l hl _ ih => exact .cons l hl ih

/-- The levels of a loop, by induction on its passes. -/
theorem stack {f : ℕ → CircuitLayer} {size : ℕ → ℕ} {n : ℕ}
    (hf : ∀ i < n, (f i).size = size (i + 1) ∧ P (f i) (size i)) :
    Stacked P (size 0) (size n) (stack f n) := by
  induction n with
  | zero => exact .nil
  | succ n ih =>
      obtain ⟨hsize, hP⟩ := hf n (Nat.lt_succ_self n)
      exact (ih fun i hi => hf i (hi.trans (Nat.lt_succ_self n))).push hP hsize

theorem size_head (h : Stacked P s₀ s levels) {rest : List CircuitLayer}
    (hrest : (rest.getD 0 .empty).size = s₀) : ((levels ++ rest).getD 0 .empty).size = s := by
  cases h with
  | nil => exact hrest
  | cons l _ _ => rfl

/-- What a level satisfies, over the levels and those before them. -/
theorem level (h : Stacked P s₀ s levels) {rest : List CircuitLayer}
    (hrest : (rest.getD 0 .empty).size = s₀) {lvl : ℕ} (hlvl : lvl < levels.length) :
    P ((levels ++ rest).getD lvl .empty) ((levels ++ rest).getD (lvl + 1) .empty).size := by
  induction h generalizing lvl with
  | nil => exact absurd hlvl (Nat.not_lt_zero lvl)
  | cons l hl htail ih =>
      cases lvl with
      | zero =>
          have hhead := htail.size_head hrest
          rw [List.getD_eq_getElem?_getD] at hhead
          rw [List.cons_append, List.getD_cons_zero, List.getD_cons_succ,
            List.getD_eq_getElem?_getD, hhead]
          exact hl
      | succ lvl => exact ih (Nat.lt_of_succ_lt_succ hlvl)

end Stacked

/-! ## Values of stacked levels -/

/-- The operations of a level on the values of the level before. -/
def CircuitLayer.apply {R : Type u} [Add R] [Mul R] (l : CircuitLayer) (v : ℕ → R) : ℕ → R :=
  fun j => (l.gate j).eval (v (l.gate j).in1) (v (l.gate j).in2)

/-- The values of the last level. -/
def levelValues {R : Type u} [Add R] [Mul R] (levels : List CircuitLayer) (input : ℕ → R) : ℕ → R :=
  levels.foldr CircuitLayer.apply input

section Values

variable {R : Type u} [Add R] [Mul R]

theorem levelValues_append (upper levels : List CircuitLayer) (input : ℕ → R) :
    levelValues (upper ++ levels) input = levelValues upper (levelValues levels input) :=
  List.foldr_append

theorem levelValues_cons (l : CircuitLayer) (levels : List CircuitLayer) (input : ℕ → R) :
    levelValues (l :: levels) input = l.apply (levelValues levels input) := rfl

/-- What every pass of a loop preserves. -/
theorem levelValues_stack {I : ℕ → (ℕ → R) → Prop} {f : ℕ → CircuitLayer} {n : ℕ} {v : ℕ → R}
    (hv : I 0 v) (hstep : ∀ i < n, ∀ w, I i w → I (i + 1) ((f i).apply w)) :
    I n (levelValues (stack f n) v) := by
  induction n with
  | zero => exact hv
  | succ n ih =>
      exact hstep n (Nat.lt_succ_self n) _ (ih fun i hi => hstep i (hi.trans (Nat.lt_succ_self n)))

end Values

/-- Additions and multiplications of gates that are there. -/
def Wired (l : CircuitLayer) (s : ℕ) : Prop :=
  ∀ j < l.size, (l.gate j).type ≠ .divInt ∧ (l.gate j).in1 < s ∧ (l.gate j).in2 < s

section Residues

variable {p : ℕ} {levels : List CircuitLayer} {input : CircuitLayer} {s : ℕ}
  {inGates outGates : List (ℕ × ℕ)} {data : CircuitData}

theorem Stacked.wellFormed (h : Stacked Wired input.size s levels) :
    (CMTCircuit.ofList 0 (levels ++ [input]) inGates outGates).WellFormed := by
  have hlevel : ∀ lvl, lvl + 1 < 0 + (levels ++ [input]).length → lvl < levels.length := by
    intro lvl hlvl
    rw [Nat.zero_add, List.length_append, List.length_singleton] at hlvl
    exact Nat.lt_of_succ_lt_succ hlvl
  constructor
  · intro lvl hlvl j hj
    rw [CMTCircuit.depth_ofList] at hlvl
    rw [CMTCircuit.layer_ofList_zero] at hj ⊢
    exact (h.level rfl (hlevel lvl hlvl) j hj).1
  · intro lvl hlvl j hj
    rw [CMTCircuit.depth_ofList] at hlvl
    rw [CMTCircuit.layer_ofList_zero] at hj ⊢
    rw [CMTCircuit.layer_ofList_zero]
    exact (h.level rfl (hlevel lvl hlvl) j hj).2

/-- The residues of a level. By induction on the levels before it. -/
theorem residue_levels [Fact p.Prime] (h : Stacked Wired input.size s levels)
    (hinput : ∀ j < input.size, (data levels.length j).IsInteger p) {lvl j : ℕ}
    (hlvl : lvl ≤ levels.length) (hj : j < ((levels ++ [input]).getD lvl .empty).size) :
    CMTCircuit.residue p
        ((CMTCircuit.ofList 0 (levels ++ [input]) inGates outGates).evaluate p data) lvl j =
      levelValues (levels.drop lvl) (CMTCircuit.residue p data levels.length) j := by
  have hdepth : (CMTCircuit.ofList 0 (levels ++ [input]) inGates outGates).depth =
      levels.length + 1 := by
    rw [CMTCircuit.depth_ofList, Nat.zero_add, List.length_append, List.length_singleton]
  have hlast : (levels ++ [input]).getD levels.length .empty = input := by
    simp [List.getD_eq_getElem?_getD]
  -- by induction on the distance from the input level
  obtain ⟨n, hn⟩ : ∃ n, lvl + n = levels.length := ⟨_, Nat.add_sub_cancel' hlvl⟩
  induction n generalizing lvl j with
  | zero =>
      rw [Nat.add_zero] at hn
      rw [hn, List.drop_length, levelValues, List.foldr_nil, CMTCircuit.residue,
        (CMTCircuit.evaluate_spec _).2 _ (by rw [hdepth]), CMTCircuit.residue]
  | succ n ih =>
      -- one level up: both inputs of the gate are values of the level below
      have hlt : lvl < levels.length := by omega
      obtain ⟨-, h1, h2⟩ := h.level rfl hlt j hj
      have hwell : (CMTCircuit.ofList 0 (levels ++ [input]) inGates outGates).WellFormed :=
        h.wellFormed
      have hinput' : ∀ j < ((CMTCircuit.ofList 0 (levels ++ [input]) inGates outGates).layer
          ((CMTCircuit.ofList 0 (levels ++ [input]) inGates outGates).depth - 1)).size,
          (data ((CMTCircuit.ofList 0 (levels ++ [input]) inGates outGates).depth - 1)
            j).IsInteger p := by
        intro j hj
        rw [hdepth, Nat.add_sub_cancel, CMTCircuit.layer_ofList_zero, hlast] at hj
        rw [hdepth, Nat.add_sub_cancel]
        exact hinput j hj
      have hj' : j <
          ((CMTCircuit.ofList 0 (levels ++ [input]) inGates outGates).layer lvl).size := by
        rwa [CMTCircuit.layer_ofList_zero]
      have hvalue := (hwell.residues hinput' (by rw [hdepth]; omega) hj').2 (by rw [hdepth]; omega)
      rw [CMTCircuit.layer_ofList_zero] at hvalue
      have hlevel : levels.drop lvl = (levels ++ [input]).getD lvl .empty ::
          levels.drop (lvl + 1) := by
        rw [List.drop_eq_getElem_cons hlt, List.getD_eq_getElem?_getD,
          List.getElem?_append_left hlt, List.getElem?_eq_getElem hlt, Option.getD_some]
      rw [hvalue, ih (by omega) h1 (by omega), ih (by omega) h2 (by omega), hlevel,
        levelValues_cons]
      rfl

end Residues

/-! ## Levels of two blocks -/

namespace CircuitLayer

/-- A level whose first `a` gates have the wiring `w` and the other `b` gates the wiring `w'`. -/
def blocks (a b : ℕ) (addFn mulFn : MleFn) (w w' : ℕ → GateWiring) : CircuitLayer :=
  ((fresh (a + b) addFn mulFn).setWirings 0 a w).setWirings a (a + b) w'

section Blocks

variable {a b : ℕ} {addFn mulFn : MleFn} {w w' : ℕ → GateWiring}

@[simp] theorem size_blocks : (blocks a b addFn mulFn w w').size = a + b := by
  rw [blocks, size_setWirings, size_setWirings, size_fresh]

theorem blocks_zero (w' : ℕ → GateWiring) :
    blocks a 0 addFn mulFn w w' = (fresh a addFn mulFn).setWirings 0 a w := by
  rw [blocks, Nat.add_zero, setWirings, Nat.sub_self, forLoop_zero]

theorem gate_blocks_left {j : ℕ} (hj : j < a) : (blocks a b addFn mulFn w w').gate j = w j := by
  have hsize : j < (fresh (a + b) addFn mulFn).size := by
    rw [size_fresh]
    exact hj.trans_le (Nat.le_add_right a b)
  rw [blocks, gate_setWirings _ _ _ _ (by rwa [size_setWirings]),
    if_neg fun h => absurd h.1 (not_le.2 hj), gate_setWirings _ _ _ _ hsize,
    if_pos ⟨Nat.zero_le j, hj⟩]

theorem gate_blocks_right {j : ℕ} (hj : j < b) :
    (blocks a b addFn mulFn w w').gate (a + j) = w' (a + j) := by
  have hlt : a + j < a + b := Nat.add_lt_add_left hj a
  rw [blocks, gate_setWirings _ _ _ _ (by rwa [size_setWirings, size_fresh]),
    if_pos ⟨Nat.le_add_right a j, hlt⟩]

theorem wired_blocks {s : ℕ}
    (hw : ∀ j < a, (w j).type ≠ .divInt ∧ (w j).in1 < s ∧ (w j).in2 < s)
    (hw' : ∀ j < b, (w' (a + j)).type ≠ .divInt ∧ (w' (a + j)).in1 < s ∧ (w' (a + j)).in2 < s) :
    Wired (blocks a b addFn mulFn w w') s := by
  intro j hj
  rw [size_blocks] at hj
  by_cases hja : j < a
  · rw [gate_blocks_left hja]
    exact hw j hja
  · obtain ⟨i, rfl⟩ := Nat.exists_eq_add_of_le (not_lt.1 hja)
    have hi : i < b := Nat.lt_of_add_lt_add_left hj
    rw [gate_blocks_right hi]
    exact hw' i hi

end Blocks

end CircuitLayer

/-! ## Supplied predicates -/

section Predicates

variable {p : ℕ}

/-- The extension of the wires of gate `g` with the wiring `w`, if it is of the type. -/
def wireTerm (gateType : GateType) (mi mip1 : ℕ) (r : ℕ → ZMod p) (g : ℕ) (w : GateWiring) :
    ZMod p :=
  if w.shouldBeTreatedAs gateType then
    lagrange r mi g * lagrange (shiftPoint mi r) mip1 w.in1 *
      lagrange (shiftPoint (mi + mip1) r) mip1 w.in2
  else 0

section Terms

variable (mi mip1 : ℕ) (r : ℕ → ZMod p) (g in1 in2 : ℕ)

@[simp] theorem wireTerm_self (gateType : GateType) :
    wireTerm gateType mi mip1 r g ⟨gateType, in1, in2⟩ =
      lagrange r mi g * lagrange (shiftPoint mi r) mip1 in1 *
        lagrange (shiftPoint (mi + mip1) r) mip1 in2 := by
  cases gateType <;> rfl

@[simp] theorem wireTerm_add_mul : wireTerm .add mi mip1 r g ⟨.mul, in1, in2⟩ = 0 := rfl

@[simp] theorem wireTerm_mul_add : wireTerm .mul mi mip1 r g ⟨.add, in1, in2⟩ = 0 := rfl

end Terms

/-- The predicates that the level comes with are the extensions of its wiring over a level of `s`
gates. -/
def Matches (p : ℕ) (l : CircuitLayer) (s : ℕ) : Prop :=
  ∃ L : LayerPair, L.out = l ∧ L.inSize = s ∧ ∀ rand, SuppliedPredicates L p rand

theorem Matches.predicatesMatch {c : CMTCircuit} {lvl : ℕ}
    (h : Matches p (c.layer lvl) (c.layer (lvl + 1)).size) : c.PredicatesMatch p lvl := by
  obtain ⟨L, hout, hin, hsupplied⟩ := h
  exact (CMTCircuit.predicatesMatch_iff L hout hin).2 hsupplied

/-- The sums over both blocks. -/
theorem matches_blocks {a b s mi mip1 : ℕ} {addFn mulFn : MleFn} {w w' : ℕ → GateWiring}
    (hwired : Wired (.blocks a b addFn mulFn w w') s) (hs : 0 < s) (hab : 0 < a + b)
    (hmi : log2i (a + b) = mi) (hmip1 : log2i s = mip1)
    (hadd : ∀ rand, ((addFn rand mi mip1 (a + b) s p : ℤ) : ZMod p) =
      ∑ g ∈ Finset.range a, wireTerm .add mi mip1 (castVec p rand) g (w g) +
        ∑ j ∈ Finset.range b, wireTerm .add mi mip1 (castVec p rand) (a + j) (w' (a + j)))
    (hmul : ∀ rand, ((mulFn rand mi mip1 (a + b) s p : ℤ) : ZMod p) =
      ∑ g ∈ Finset.range a, wireTerm .mul mi mip1 (castVec p rand) g (w g) +
        ∑ j ∈ Finset.range b, wireTerm .mul mi mip1 (castVec p rand) (a + j) (w' (a + j))) :
    Matches p (.blocks a b addFn mulFn w w') s := by
  let L : LayerPair := ⟨.blocks a b addFn mulFn w w', s, hs, by rwa [CircuitLayer.size_blocks],
    fun j hj => (hwired j hj).2⟩
  have hLmi : L.mi = mi := by rw [LayerPair.mi, CircuitLayer.logSize, CircuitLayer.size_blocks, hmi]
  have hLmip1 : L.mip1 = mip1 := hmip1
  have hsum : ∀ gateType (r : ℕ → ZMod p), wirePredicate L gateType r =
      ∑ g ∈ Finset.range a, wireTerm gateType mi mip1 r g (w g) +
        ∑ j ∈ Finset.range b, wireTerm gateType mi mip1 r (a + j) (w' (a + j)) := by
    intro gateType r
    rw [wirePredicate, CircuitLayer.size_blocks, Finset.sum_range_add]
    simp only [wireLagrange, hLmi, hLmip1]
    refine congrArg₂ (· + ·) (Finset.sum_congr rfl fun g hg => ?_)
      (Finset.sum_congr rfl fun j hj => ?_)
    · rw [CircuitLayer.gate_blocks_left (Finset.mem_range.1 hg), wireTerm]
    · rw [CircuitLayer.gate_blocks_right (Finset.mem_range.1 hj), wireTerm]
  refine ⟨L, rfl, rfl, fun rand => ⟨fun f hf => ?_, fun f hf => ?_⟩⟩
  · cases hf
    rw [hsum, hLmi, hLmip1, ← hadd, CircuitLayer.size_blocks]
  · cases hf
    rw [hsum, hLmi, hLmip1, ← hmul, CircuitLayer.size_blocks]

end Predicates

end Pepper.Cmtgkr.Layer
