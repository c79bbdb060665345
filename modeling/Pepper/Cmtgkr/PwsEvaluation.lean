import Pepper.Cmtgkr.PwsWorksheet
import Pepper.Cmtgkr.GateCoherence

/-!
# Evaluation of a worksheet's circuit

`evaluate` computes the gates in slices, between the operations that set magic variables. A circuit
without slices is evaluated layer by layer over the residues of its inputs (`layerValues`). After
each slice the gates below its guard have these values (`evalGates_computed`), and an operation that
only sets inputs beyond its guard does not change them (`Computed.computeMagicGates`). So the last
slice leaves an evaluation, with the residues that each operation has read and set
(`evaluate_after`).
-/

set_option autoImplicit false

open Pepper.Common.Gmp Pepper.Foundations.Loop Pepper.Cmtgkr.Env Pepper.Cmtgkr.Layer

namespace Pepper.Cmtgkr.Pws

/-! ## What an operation leaves -/

section Setting

theorem setVals_at_of_notMem (l : List (GatePosition × ℤ)) (v : Values) {g : GatePosition}
    (hg : g ∉ l.map Prod.fst) : (l.foldl (fun v e => setVal v e.1 e.2) v).at g = v.at g := by
  induction l generalizing v with
  | nil => rfl
  | cons e l ih =>
      obtain ⟨hne, hrest⟩ := not_or.mp (mt List.mem_cons.mpr hg)
      rw [List.foldl_cons, ih _ hrest, setVal, Values.at_set, if_neg hne]

theorem setVals_at_of_mem (l : List (GatePosition × ℤ)) (hl : (l.map Prod.fst).Nodup) (v : Values)
    {e : GatePosition × ℤ} (he : e ∈ l) :
    (l.foldl (fun v e => setVal v e.1 e.2) v).at e.1 = ⟨e.2, e.2⟩ := by
  induction l generalizing v with
  | nil => exact absurd he List.not_mem_nil
  | cons e' l ih =>
      obtain ⟨hnew, hrest⟩ := List.nodup_cons.mp hl
      rw [List.foldl_cons]
      rcases List.mem_cons.mp he with rfl | he
      · rw [setVals_at_of_notMem l _ hnew, setVal, Values.at_set, if_pos rfl]
      · exact ih hrest _ he

/-- The gates of the bits are set one by one. -/
theorem computeBits_eq (bits : List GatePosition) (sum : ℤ) (trueBits : Bool) (v : Values) :
    computeBits bits sum trueBits v =
      (bits.zipIdx.map fun e => (e.1,
        if tstbit (if trueBits then sum else sum + 2 ^ bits.length) e.2 then
          (if trueBits then 1 else 2 ^ e.2) else 0)).foldl (fun v e => setVal v e.1 e.2) v := by
  rw [List.foldl_map]
  rfl

theorem computeMs_of_notMem {ms : List GatePosition} {g : GatePosition} (hg : g ∉ ms) (x1 x2 : ℚ)
    (v : Values) : (computeMs ms x1 x2 v).at g = v.at g := by
  rw [computeMs]
  refine setVals_at_of_notMem _ v fun hmem => hg ?_
  obtain ⟨e, he, rfl⟩ := List.mem_map.mp hmem
  exact (List.of_mem_zip he).1

theorem computeBits_of_notMem {ns : List GatePosition} {g : GatePosition} (hg : g ∉ ns) (sum : ℤ)
    (trueBits : Bool) (v : Values) : (computeBits ns sum trueBits v).at g = v.at g := by
  rw [computeBits_eq]
  refine setVals_at_of_notMem _ v fun hmem => hg ?_
  obtain ⟨_, hbit, rfl⟩ := List.mem_map.mp hmem
  obtain ⟨e, he, rfl⟩ := List.mem_map.mp hbit
  exact List.fst_mem_of_mem_zipIdx he

theorem toTrueResidue_of_ne {p : ℕ} {g pos : GatePosition} (h : g ≠ pos) (v : Values) :
    (toTrueResidue p pos v).at g = v.at g := by
  rw [toTrueResidue, Values.at_set, if_neg h]

theorem toTrueResidue_cast (p : ℕ) (pos g : GatePosition) (v : Values) :
    (((toTrueResidue p pos v).at g).zValue : ZMod p) = (v.at g).zValue := by
  by_cases h : g = pos
  · rw [h, toTrueResidue, Values.at_set, if_pos rfl, toTrueNumber]
    dsimp only
    split_ifs
    · simp
    · rfl
  · rw [toTrueResidue_of_ne h]

theorem toTrueRational_zValue (prime : ℤ) (pos g : GatePosition) (v : Values) :
    ((toTrueRational prime pos v).at g).zValue = (v.at g).zValue := by
  rw [toTrueRational, Values.at_set]
  by_cases h : g = pos
  · subst h
    rw [if_pos rfl]
  · rw [if_neg h]

/-- The gates that an operation does not set keep their residues. -/
theorem computeMagicGates_cast {p : ℕ} {op : MagicVarOperation} {g : GatePosition}
    (hg : g ∉ op.sets) (v : Values) :
    (((computeMagicGates p op v).at g).zValue : ZMod p) = (v.at g).zValue := by
  cases op with
  | notEqual m x1 x2 =>
      have hne : g ≠ m := fun h => hg (List.mem_singleton.mpr h)
      rw [computeMagicGates]
      split_ifs
      · rw [setVal, Values.at_set, if_neg hne]
      · rw [setVal, Values.at_set, if_neg hne]
  | lessThanInt ms ns x1 x2 =>
      obtain ⟨hms, hns⟩ := not_or.mp (mt List.mem_append.mpr hg)
      simp only [computeMagicGates]
      rw [computeBits_of_notMem hns, computeMs_of_notMem hms, toTrueResidue_cast,
        toTrueResidue_cast]
  | lessThanFloat ms ns ds x1 x2 =>
      obtain ⟨hrest, hds⟩ := not_or.mp (mt List.mem_append.mpr hg)
      obtain ⟨hms, hns⟩ := not_or.mp (mt List.mem_append.mpr hrest)
      simp only [computeMagicGates]
      rw [computeBits_of_notMem hds, computeBits_of_notMem hns, computeMs_of_notMem hms,
        toTrueRational_zValue, toTrueRational_zValue]

end Setting

section Coherence

variable {p : ℕ} [Fact p.Prime]

theorem coherent_int (z : ℤ) : Coherent p ⟨z, z⟩ := by
  rw [coherent_iff]
  simp

theorem allCoherent_setVals (l : List (GatePosition × ℤ)) {v : Values} (hv : AllCoherent p v) :
    AllCoherent p (l.foldl (fun v e => setVal v e.1 e.2) v) := by
  induction l generalizing v with
  | nil => exact hv
  | cons e l ih => exact ih (hv.set e.1 (coherent_int e.2))

theorem AllCoherent.computeMs {v : Values} (hv : AllCoherent p v) (ms : List GatePosition)
    (x1 x2 : ℚ) : AllCoherent p (computeMs ms x1 x2 v) := by
  exact allCoherent_setVals _ hv

theorem AllCoherent.computeBits {v : Values} (hv : AllCoherent p v) (ns : List GatePosition)
    (sum : ℤ) (trueBits : Bool) : AllCoherent p (computeBits ns sum trueBits v) := by
  rw [computeBits_eq]
  exact allCoherent_setVals _ hv

theorem AllCoherent.computeMagicGates {v : Values} (hv : AllCoherent p v)
    (op : MagicVarOperation) : AllCoherent p (computeMagicGates p op v) := by
  cases op with
  | notEqual m x1 x2 =>
      rw [Pws.computeMagicGates]
      split_ifs
      · exact hv.set m (coherent_int 0)
      · exact hv.set m (coherent_int _)
  | lessThanInt ms ns x1 x2 =>
      have hresidue : ∀ {v}, AllCoherent p v → ∀ pos, AllCoherent p (toTrueResidue p pos v) :=
        fun h pos => h.set pos ((h pos).toTrueResidue _)
      exact ((hresidue (hresidue hv x1) x2).computeMs ms _ _).computeBits ns _ _
  | lessThanFloat ms ns ds x1 x2 =>
      have hrational : ∀ {v}, AllCoherent p v → ∀ pos, AllCoherent p (toTrueRational p pos v) :=
        fun h pos => h.set pos ((h pos).toTrueRational _)
      exact (((hrational (hrational hv x1) x2).computeMs ms _ _).computeBits ns _ _).computeBits ds
        _ _

/-- The residue that a gate gets from coherent operands. -/
theorem cast_computeGateValue (w : GateWiring) (g : Gate) {op1 op2 : Gate} (h1 : Coherent p op1)
    (h2 : Coherent p op2) :
    ((g.computeGateValue p w op1 op2).zValue : ZMod p) =
      w.eval (op1.zValue : ZMod p) (op2.zValue : ZMod p) := by
  have hz := cast_applyGateOperation (p := p) w op1.zValue op2.zValue
  rw [Gate.computeGateValue]
  cases htype : w.type with
  | add => exact hz
  | divInt => exact hz
  | mul =>
      dsimp only
      split_ifs with hzero
      · -- the residue of a rational that is zero is zero
        rw [GateWiring.eval, htype, Int.cast_zero]
        dsimp only
        rcases hzero with hzero | hzero
        · rw [h1.value, hzero]
          simp
        · rw [h2.value, hzero]
          simp
      · exact hz

end Coherence

/-! ## Slices -/

namespace PWSCircuit

section Slices

variable (c : PWSCircuit)

/-- The sizes of the layers. -/
def sizes : List ℕ := c.layers.map List.length

/-- The residues of the gates over those of the input layer. -/
def layerValues {R : Type} [CommRing R] (base : ℕ → R) : ℕ → ℕ → R
  | 0, n => base n
  | l + 1, n =>
      match (c.layer (l + 1))[n]? with
      | some w => w.eval (layerValues base l w.in1) (layerValues base l w.in2)
      | none => 0

/-- The gates below the bounds are there, with inputs that are below them. -/
structure Closed (bound : List ℕ) : Prop where
  there : ∀ l, bound.getD (l + 1) 0 ≤ (c.layer (l + 1)).length
  inputs : ∀ l n w, n < bound.getD (l + 1) 0 → (c.layer (l + 1))[n]? = some w →
    w.in1 < bound.getD l 0 ∧ w.in2 < bound.getD l 0

/-- The divisors are not zero over these inputs. -/
def Divides {R : Type} [CommRing R] (base : ℕ → R) : Prop :=
  ∀ (l n : ℕ) (w : GateWiring), (c.layer (l + 1))[n]? = some w → w.type = .divInt →
    c.layerValues base l w.in2 ≠ 0

variable (p : ℕ)

/-- The gates below the bounds have the residues of the circuit over the inputs. -/
def Computed (bound : List ℕ) (v : Values) : Prop :=
  ∀ l n, n < bound.getD l 0 →
    ((v l n).zValue : ZMod p) = c.layerValues (fun i => ((v 0 i).zValue : ZMod p)) l n

variable {c p}

theorem layerValues_succ {R : Type} [CommRing R] (base : ℕ → R) {l n : ℕ} {w : GateWiring}
    (hw : (c.layer (l + 1))[n]? = some w) :
    c.layerValues base (l + 1) n =
      w.eval (c.layerValues base l w.in1) (c.layerValues base l w.in2) := by
  rw [layerValues, hw]

/-- The values below closed bounds only depend on the inputs there. -/
theorem Closed.layerValues_congr {R : Type} [CommRing R] {bound : List ℕ} (h : c.Closed bound)
    {base base' : ℕ → R} (hbase : ∀ n, n < bound.getD 0 0 → base n = base' n) (l n : ℕ)
    (hn : n < bound.getD l 0) : c.layerValues base l n = c.layerValues base' l n := by
  induction l generalizing n with
  | zero => exact hbase n hn
  | succ l ih =>
      have hget := List.getElem?_eq_getElem (hn.trans_le (h.there l))
      obtain ⟨h1, h2⟩ := h.inputs l n _ hn hget
      rw [layerValues_succ base hget, layerValues_succ base' hget, ih _ h1, ih _ h2]

/-- An operation that sets inputs beyond the bounds. -/
theorem Computed.computeMagicGates {bound : List ℕ} {v : Values} (hv : c.Computed p bound v)
    (hclosed : c.Closed bound) {op : MagicVarOperation}
    (hsets : ∀ g ∈ op.sets, g.layer = 0 ∧ bound.getD 0 0 ≤ g.name) :
    c.Computed p bound (computeMagicGates p op v) := by
  have hkept : ∀ l n, n < bound.getD l 0 →
      (((Pws.computeMagicGates p op v) l n).zValue : ZMod p) = (v l n).zValue := fun l n hn =>
    computeMagicGates_cast (g := ⟨l, n⟩) (fun hmem => by
      obtain ⟨hlayer, hle⟩ := hsets _ hmem
      obtain rfl : l = 0 := hlayer
      exact absurd hle (Nat.not_le.mpr hn)) v
  intro l n hn
  rw [hkept l n hn, hv l n hn]
  exact hclosed.layerValues_congr (fun i hi => (hkept 0 i hi).symm) l n hn

variable [Fact p.Prime]

/-- What the slice of a layer leaves. -/
structure SliceOf (c : PWSCircuit) (p : ℕ) (base : ℕ → ZMod p) (l first last : ℕ)
    (v v' : Values) : Prop where
  coherent : AllCoherent p v'
  layers : ∀ k n, k ≠ l + 1 → v' k n = v k n
  below : ∀ n, n < first → v' (l + 1) n = v (l + 1) n
  computed : ∀ n, first ≤ n → n < last →
    ((v' (l + 1) n).zValue : ZMod p) = c.layerValues base (l + 1) n

theorem evalLayer_slice {base : ℕ → ZMod p} (hdiv : c.Divides base) {l : ℕ} (first : ℕ)
    {last : ℕ} {v : Values} (hv : AllCoherent p v) (hlast : last ≤ (c.layer (l + 1)).length)
    (hinputs : ∀ n w, n < last → (c.layer (l + 1))[n]? = some w →
      ((v l w.in1).zValue : ZMod p) = c.layerValues base l w.in1 ∧
        ((v l w.in2).zValue : ZMod p) = c.layerValues base l w.in2) :
    SliceOf c p base l first last v (c.evalLayer p (l + 1) first last v) := by
  have hrun := forLoop_induction
    (P := fun j t => SliceOf c p base l first (first + j) v t) (n := last - first)
    (g := fun j t =>
      t.set ⟨l + 1, first + j⟩
        ((t (l + 1) (first + j)).computeGateValue p ((c.layer (l + 1)).getD (first + j) default)
          (t l ((c.layer (l + 1)).getD (first + j) default).in1)
          (t l ((c.layer (l + 1)).getD (first + j) default).in2)))
    (s := v) ⟨hv, fun _ _ _ => rfl, fun _ _ => rfl, fun n h1 h2 => absurd h2 (by omega)⟩
    (fun j hj t ht => by
      obtain ⟨w, hget⟩ : ∃ w, (c.layer (l + 1))[first + j]? = some w :=
        ⟨_, List.getElem?_eq_getElem (show first + j < (c.layer (l + 1)).length by omega)⟩
      have hwiring : (c.layer (l + 1)).getD (first + j) default = w := by
        rw [List.getD_eq_getElem?_getD, hget, Option.getD_some]
      rw [hwiring]
      obtain ⟨h1, h2⟩ := hinputs _ _ (show first + j < last by omega) hget
      rw [← ht.layers l _ (by omega)] at h1 h2
      have hset : ∀ k n, (t.set ⟨l + 1, first + j⟩ ((t (l + 1) (first + j)).computeGateValue p w
          (t l w.in1) (t l w.in2))) k n = if (⟨k, n⟩ : GatePosition) = ⟨l + 1, first + j⟩ then
            (t (l + 1) (first + j)).computeGateValue p w (t l w.in1) (t l w.in2) else t k n :=
        fun k n => Values.at_set t ⟨l + 1, first + j⟩ ⟨k, n⟩ _
      have hother : ∀ n, n ≠ first + j → (⟨l + 1, n⟩ : GatePosition) ≠ ⟨l + 1, first + j⟩ :=
        fun n hne h => hne (congrArg GatePosition.name h)
      refine ⟨?_, fun k n hk => ?_, fun n hn => ?_, fun n hfirst hn => ?_⟩
      · refine ht.coherent.set _ (coherent_computeGateValue w _ (ht.coherent ⟨l, w.in1⟩)
          (ht.coherent ⟨l, w.in2⟩) fun htype => ?_)
        exact h2 ▸ hdiv l _ w hget htype
      · rw [hset, if_neg fun h => hk (congrArg GatePosition.layer h), ht.layers k n hk]
      · rw [hset, if_neg (hother n (by omega)), ht.below n hn]
      · rw [hset]
        by_cases hlt : n < first + j
        · rw [if_neg (hother n (by omega))]
          exact ht.computed n hfirst hlt
        · obtain rfl : n = first + j := by omega
          rw [if_pos rfl, layerValues_succ base hget, ← h1, ← h2]
          exact cast_computeGateValue w _ (ht.coherent ⟨l, w.in1⟩) (ht.coherent ⟨l, w.in2⟩))
  refine ⟨hrun.coherent, hrun.layers, hrun.below, fun n hfirst hn => hrun.computed n hfirst ?_⟩
  omega

/-- A slice computes the gates up to its end. -/
theorem evalGates_computed {start stop : List ℕ} {v : Values} (hstop : c.Closed stop)
    (hv : AllCoherent p v) (hstart : c.Computed p start v)
    (hdiv : c.Divides fun i => ((v 0 i).zValue : ZMod p)) :
    AllCoherent p (c.evalGates p start stop v) ∧ c.Computed p stop (c.evalGates p start stop v) ∧
      ∀ n, c.evalGates p start stop v 0 n = v 0 n := by
  set base : ℕ → ZMod p := fun i => ((v 0 i).zValue : ZMod p) with hbase
  obtain ⟨hcoherent, hinput, -, hcomputed⟩ := forLoop_induction
    (P := fun k t => AllCoherent p t ∧ (∀ n, t 0 n = v 0 n) ∧
      (∀ l n, n < start.getD (l + 1) 0 → t (l + 1) n = v (l + 1) n) ∧
      ∀ l n, l < k → n < stop.getD (l + 1) 0 →
        ((t (l + 1) n).zValue : ZMod p) = c.layerValues base (l + 1) n)
    (n := stop.length - 1)
    (g := fun l t => c.evalLayer p (l + 1) (start.getD (l + 1) 0) (stop.getD (l + 1) 0) t)
    (s := v) ⟨hv, fun _ => rfl, fun _ _ _ => rfl, fun _ _ h => absurd h (Nat.not_lt_zero _)⟩
    (fun k hk t ⟨ht, hinput, hbelow, hdone⟩ => by
      have hslice := evalLayer_slice hdiv (start.getD (k + 1) 0) ht (hstop.there k)
        (fun n w hn hw => by
          obtain ⟨h1, h2⟩ := hstop.inputs k n w hn hw
          have hin : ∀ i, i < stop.getD k 0 →
              ((t k i).zValue : ZMod p) = c.layerValues base k i := by
            intro i hi
            cases k with
            | zero => rw [hinput i]; rfl
            | succ k => exact hdone k i (Nat.lt_succ_self k) hi
          exact ⟨hin _ h1, hin _ h2⟩)
      refine ⟨hslice.coherent, fun n => ?_, fun l n hn => ?_, fun l n hl hn => ?_⟩
      · rw [hslice.layers 0 n (Nat.succ_ne_zero k).symm, hinput n]
      · by_cases hlk : l = k
        · subst hlk
          rw [hslice.below n hn, hbelow l n hn]
        · rw [hslice.layers (l + 1) n (fun h => hlk (Nat.succ.inj h)), hbelow l n hn]
      · by_cases hlk : l = k
        · subst hlk
          by_cases hfirst : n < start.getD (l + 1) 0
          · -- the gate was there before the slice
            rw [hslice.below n hfirst, hbelow l n hfirst]
            exact hstart (l + 1) n hfirst
          · exact hslice.computed n (Nat.le_of_not_lt hfirst) hn
        · rw [hslice.layers (l + 1) n (fun h => hlk (Nat.succ.inj h))]
          exact hdone l n (by omega) hn)
  refine ⟨hcoherent, fun l n hn => ?_, hinput⟩
  have hbase' : (fun i => (((c.evalGates p start stop v) 0 i).zValue : ZMod p)) = base := by
    funext i
    exact congrArg (fun g : Gate => (g.zValue : ZMod p)) (hinput i)
  rw [hbase']
  cases l with
  | zero => exact congrArg (fun g : Gate => (g.zValue : ZMod p)) (hinput n)
  | succ l =>
      refine hcomputed l n ?_ hn
      by_contra hle
      rw [List.getD_eq_default _ _ (by omega)] at hn
      exact absurd hn (Nat.not_lt_zero n)

end Slices

/-! ## All operations -/

section Operations

variable (c : PWSCircuit) (prime : ℤ)

/-- The values that the loop of `evaluate` has when it comes to an operation with the guard, behind
the operations of the list. -/
def evaluateUntil : List (List ℕ × MagicVarOperation) → List ℕ → List ℕ → Values → Values
  | [], lastGuard, guard, v => c.evalGates prime lastGuard guard v
  | (g, op) :: ops, lastGuard, guard, v =>
      evaluateUntil ops g guard (computeMagicGates prime op (c.evalGates prime lastGuard g v))

theorem evaluateOps_append (ops rest : List (List ℕ × MagicVarOperation)) (guard : List ℕ)
    (op : MagicVarOperation) (lastGuard : List ℕ) (v : Values) :
    c.evaluateOps prime (ops ++ (guard, op) :: rest) lastGuard v =
      c.evaluateOps prime rest guard
        (computeMagicGates prime op (c.evaluateUntil prime ops lastGuard guard v)) := by
  induction ops generalizing lastGuard v with
  | nil => rfl
  | cons e ops ih => exact ih e.1 _

theorem sizes_getD (l : ℕ) : c.sizes.getD l 0 = (c.layer l).length := by
  rw [sizes, layer, List.getD_eq_getElem?_getD, List.getD_eq_getElem?_getD, List.getElem?_map]
  cases c.layers[l]? <;> rfl

/-- The last slice ends with the layers. -/
theorem evalGatesFrom_eq (start : List ℕ) (v : Values) :
    c.evalGatesFrom prime start v = c.evalGates prime start c.sizes v := by
  rw [evalGatesFrom, evalGates, depth, sizes, List.length_map]
  simp only [← sizes_getD, sizes]

variable {c} (p : ℕ) [Fact p.Prime]

variable (c) in
/-- The gates below the bounds are computed, over inputs of which those in `fixed` are the ones
given. -/
structure EvaluatedTo (fixed : ℕ → Prop) (base : ℕ → ZMod p) (bound : List ℕ) (v : Values) :
    Prop where
  coherent : AllCoherent p v
  computed : c.Computed p bound v
  inputs : ∀ n, fixed n → ((v 0 n).zValue : ZMod p) = base n

variable (c) in
/-- The operation sets inputs beyond its guard, none of them in `fixed`. -/
structure Beyond (fixed : ℕ → Prop) (e : List ℕ × MagicVarOperation) : Prop where
  closed : c.Closed e.1
  sets : ∀ g ∈ e.2.sets, g.layer = 0 ∧ e.1.getD 0 0 ≤ g.name ∧ ¬ fixed g.name

variable {p} {fixed : ℕ → Prop} {base : ℕ → ZMod p}

theorem EvaluatedTo.evalGates {start stop : List ℕ} {v : Values}
    (h : c.EvaluatedTo p fixed base start v)
    (hdiv : ∀ base' : ℕ → ZMod p, (∀ n, fixed n → base' n = base n) → c.Divides base')
    (hstop : c.Closed stop) :
    c.EvaluatedTo p fixed base stop (c.evalGates p start stop v) ∧
      ∀ n, c.evalGates p start stop v 0 n = v 0 n := by
  obtain ⟨hcoherent, hcomputed, hinput⟩ :=
    evalGates_computed hstop h.coherent h.computed (hdiv _ h.inputs)
  exact ⟨⟨hcoherent, hcomputed, fun n hn => by rw [hinput, h.inputs n hn]⟩, hinput⟩

theorem EvaluatedTo.computeMagicGates {e : List ℕ × MagicVarOperation} {v : Values}
    (h : c.EvaluatedTo p fixed base e.1 v) (he : c.Beyond fixed e) :
    c.EvaluatedTo p fixed base e.1 (computeMagicGates p e.2 v) where
  coherent := h.coherent.computeMagicGates e.2
  computed := h.computed.computeMagicGates he.closed fun g hg =>
    ⟨(he.sets g hg).1, (he.sets g hg).2.1⟩
  inputs n hn := by
    have hkept := computeMagicGates_cast (p := p) (g := ⟨0, n⟩)
      (fun hmem => (he.sets _ hmem).2.2 hn) v
    exact hkept.trans (h.inputs n hn)

/-- The slices up to an operation. -/
theorem EvaluatedTo.evaluateUntil
    (hdiv : ∀ base' : ℕ → ZMod p, (∀ n, fixed n → base' n = base n) → c.Divides base')
    {ops : List (List ℕ × MagicVarOperation)} (hops : ∀ e ∈ ops, c.Beyond fixed e)
    {last guard : List ℕ} (hguard : c.Closed guard) {v : Values}
    (h : c.EvaluatedTo p fixed base last v) :
    c.EvaluatedTo p fixed base guard (c.evaluateUntil p ops last guard v) := by
  induction ops generalizing last v with
  | nil => exact (h.evalGates hdiv hguard).1
  | cons e ops ih =>
      obtain ⟨he, hrest⟩ := List.forall_mem_cons.mp hops
      exact ih hrest ((h.evalGates hdiv he.closed).1.computeMagicGates he)

/-- The slices to the end, after which inputs that no operation sets are as before. -/
theorem EvaluatedTo.evaluateOps
    (hdiv : ∀ base' : ℕ → ZMod p, (∀ n, fixed n → base' n = base n) → c.Divides base')
    {ops : List (List ℕ × MagicVarOperation)} (hops : ∀ e ∈ ops, c.Beyond fixed e)
    (hsizes : c.Closed c.sizes) {last : List ℕ} {v : Values}
    (h : c.EvaluatedTo p fixed base last v) :
    c.EvaluatedTo p fixed base c.sizes (c.evaluateOps p ops last v) ∧
      ∀ n, (∀ e ∈ ops, (⟨0, n⟩ : GatePosition) ∉ e.2.sets) →
        ((c.evaluateOps p ops last v 0 n).zValue : ZMod p) = (v 0 n).zValue := by
  induction ops generalizing last v with
  | nil =>
      obtain ⟨hlast, hinput⟩ := h.evalGates hdiv hsizes
      rw [PWSCircuit.evaluateOps, evalGatesFrom_eq]
      exact ⟨hlast, fun n _ => by rw [hinput]⟩
  | cons e ops ih =>
      obtain ⟨he, hrest⟩ := List.forall_mem_cons.mp hops
      obtain ⟨hslice, hinput⟩ := h.evalGates hdiv he.closed
      obtain ⟨hend, hkept⟩ := ih hrest (hslice.computeMagicGates he)
      refine ⟨hend, fun n hn => ?_⟩
      obtain ⟨hfirst, hlater⟩ := List.forall_mem_cons.mp hn
      have hset := computeMagicGates_cast (p := p) hfirst (c.evalGates p last e.1 v)
      refine (hkept n hlater).trans (hset.trans ?_)
      exact congrArg (fun g : Gate => (g.zValue : ZMod p)) (hinput n)

end Operations

end PWSCircuit

/-! ## The circuit of a state -/

section Circuit

variable {c : PWSCircuit} {s t : PWSCircuitParser}

theorem hasGate_iff {l n : ℕ} :
    HasGate s ⟨l, n⟩ ↔ n < (s.circuitDesc.map List.length).getD l 0 := by
  rw [HasGate, gateAt, List.getD_eq_getElem?_getD, List.getElem?_map]
  cases s.circuitDesc[l]? with
  | none => simp
  | some layer => simp

/-- The circuit has the gates of the description. -/
structure CircuitOf (c : PWSCircuit) (t : PWSCircuitParser) : Prop where
  parser : c.parser = constructInvertedIndexes t
  layers : c.layers = t.circuitDesc.map fun layer => layer.map GateDescription.makeGate

theorem constructCircuit_inv (h : constructCircuit (constructInvertedIndexes t) = some c) :
    CircuitOf c t := by
  simp only [constructCircuit, Option.bind_eq_bind, Option.bind_eq_some_iff, Option.pure_def,
    Option.some.injEq] at h
  obtain ⟨-, -, -, -, inGates, -, outGates, -, magicGates, -, rfl⟩ := h
  exact ⟨rfl, rfl⟩

theorem CircuitOf.wiring (h : CircuitOf c t) (l n : ℕ) :
    (c.layer l)[n]? = (gateAt t ⟨l, n⟩).map GateDescription.makeGate := by
  rw [PWSCircuit.layer, h.layers, gateAt, List.getD_eq_getElem?_getD, List.getElem?_map]
  cases t.circuitDesc[l]? with
  | none => rfl
  | some layer => simp

theorem CircuitOf.sizes (h : CircuitOf c t) : c.sizes = t.circuitDesc.map List.length := by
  rw [PWSCircuit.sizes, h.layers, List.map_map]
  exact List.map_congr_left fun layer _ => List.length_map _

theorem makeGate_inputs (d : GateDescription) :
    d.makeGate.in1 = d.in1 ∧ d.makeGate.in2 = d.in2 := by
  rw [GateDescription.makeGate]
  cases d.op <;> exact ⟨rfl, rfl⟩

/-- The sizes of an earlier state bound gates over gates of this state. -/
theorem CircuitOf.closed (h : CircuitOf c t) (hs : WellFormed s) (hgrows : Grows s t) :
    c.Closed (s.circuitDesc.map List.length) where
  there l := by
    by_contra hlt
    have hthere := hgrows.hasGate (hasGate_iff.mpr (Nat.lt_of_not_le hlt))
    rw [HasGate, ← Option.isSome_map, ← h.wiring, List.getElem?_eq_none (Nat.le_refl _)] at hthere
    exact Bool.noConfusion hthere
  inputs l n w hn hw := by
    obtain ⟨d, hd⟩ := Option.isSome_iff_exists.mp (hasGate_iff.mpr hn)
    obtain ⟨b, hb⟩ := hgrows _ d hd
    rw [h.wiring, hb] at hw
    obtain rfl := Option.some.inj hw
    obtain ⟨-, h1, h2⟩ := hs.wiring l n d hd
    rw [(makeGate_inputs _).1, (makeGate_inputs _).2]
    exact ⟨hasGate_iff.mp h1, hasGate_iff.mp h2⟩

theorem makeGate_eval {R : Type} [CommRing R] (d : GateDescription) (a b : R) :
    d.makeGate.eval a b = d.op.eval a b := by
  obtain ⟨op, pos, in1, in2, bound⟩ := d
  cases op <;> rfl

/-- The input gates of the integer constants hold these. -/
def ConstantsHold {R : Type} [CommRing R] (t : PWSCircuitParser) (base : ℕ → R) : Prop :=
  ∀ q text num g, IsConst t text q → mpzSetStr text = some num → lowest t q = some g →
    base g.name = (num : R)

/-- The lowest gate of a constant is an input. -/
theorem IsConst.lowest_layer (hs : WellFormed t) {text : Text} {q : Primitive} {g : GatePosition}
    (hq : IsConst t text q) (hg : lowest t q = some g) : g.layer = 0 := by
  obtain ⟨cp, hobject, hlow⟩ := lowest_eq_some.mp hg
  rw [(Pws.lowest_layer hlow).1]
  rw [objectAt, if_pos hq.isConstant] at hobject
  obtain ⟨k, hk, rfl⟩ := Option.map_eq_some_iff.mp hobject
  exact hs.constLayers q.idx k hk ((CPrimitive.isBound_iff _).mpr ⟨g, hlow⟩)

/-- The layers over such inputs are an evaluation. -/
theorem CircuitOf.evaluates {R : Type} [CommRing R] (h : CircuitOf c t) (hs : WellFormed t)
    {base : ℕ → R} (hbase : ConstantsHold t base) :
    Evaluates t fun pos => c.layerValues base pos.layer pos.name where
  gate l n g hg := by
    have hwiring : (c.layer (l + 1))[n]? = some g.makeGate := by
      rw [h.wiring, hg]
      rfl
    rw [PWSCircuit.layerValues_succ base hwiring, makeGate_eval, (makeGate_inputs g).1,
      (makeGate_inputs g).2]
  const q text num g hq hnum hg := by
    rw [hq.lowest_layer hs hg]
    exact hbase q text num g hq hnum hg

/-- No gate divides by zero, whatever the inputs. -/
def DivisorsInvertible (p : ℕ) (t : PWSCircuitParser) : Prop :=
  ∀ val : GatePosition → ZMod p, Evaluates t val →
    ∀ l n d, gateAt t ⟨l + 1, n⟩ = some d → d.op = .divInt → val ⟨l, d.in2⟩ ≠ 0

/-- Every division is by a gate of an integer constant that is not a multiple of the prime. -/
def DividesByConstants (p : ℕ) (t : PWSCircuitParser) : Prop :=
  ∀ l < t.circuitDesc.length, ∀ d ∈ t.circuitDesc.getD (l + 1) [], d.op = .divInt →
    ∃ i < t.constants.length, ∃ k ∈ t.constants[i]?,
      t.constants.findIdx? (fun e => e.value == k.value) = some i ∧
        k.gateIndex[l]? = some d.in2 ∧ ∃ num ∈ mpzSetStr k.value, ¬ (p : ℤ) ∣ num

instance (p : ℕ) (t : PWSCircuitParser) : Decidable (DividesByConstants p t) :=
  inferInstanceAs (Decidable (∀ l < t.circuitDesc.length, ∀ d ∈ t.circuitDesc.getD (l + 1) [],
    d.op = .divInt → ∃ i < t.constants.length, ∃ k ∈ t.constants[i]?,
      t.constants.findIdx? (fun e => e.value == k.value) = some i ∧
        k.gateIndex[l]? = some d.in2 ∧ ∃ num ∈ mpzSetStr k.value, ¬ (p : ℤ) ∣ num))

theorem DividesByConstants.invertible {p : ℕ} (h : DividesByConstants p t) (ht : WellFormed t)
    (haligned : AllAligned (ZMod p) t) : DivisorsInvertible p t := by
  intro val hval l n d hd hop
  obtain ⟨layer, hlayer, hmem⟩ := Option.bind_eq_some_iff.mp hd
  have hlt := (List.getElem?_eq_some_iff.mp hlayer).1
  obtain ⟨i, -, k, hk, hfirst, hgate, num, hnum, hne⟩ := h l (by dsimp only at hlt; omega) d
    (by rw [List.getD_eq_getElem?_getD, hlayer]; exact List.mem_of_getElem? hmem) hop
  -- the divisor is a gate of the constant, and so has its number
  have hconst : IsConst t k.value ⟨.constant, i⟩ := (isConst_iff i).mpr hfirst
  have hobject : objectAt t ⟨.constant, i⟩ = some k.toCPrimitive := by
    rw [objectAt, if_pos hconst.isConstant]
    exact congrArg (Option.map CConst.toCPrimitive) (Option.mem_def.mp hk)
  have hbound : k.toCPrimitive.isBound = true := by
    rw [CPrimitive.isBound]
    cases hg : k.gateIndex with
    | nil => simp [hg] at hgate
    | cons a as => rfl
  obtain ⟨g, hlow⟩ := (CPrimitive.isBound_iff _).mp hbound
  have hvalue := haligned val hval _ _ g hobject hlow l d.in2 hgate
  rw [ht.constLayers i k (Option.mem_def.mp hk) hbound, Nat.zero_add,
    hval.const _ _ num g hconst hnum (lowest_eq_some.mpr ⟨_, hobject, hlow⟩)] at hvalue
  rw [hvalue]
  exact fun hzero => hne ((ZMod.intCast_zmod_eq_zero_iff_dvd num p).mp hzero)

theorem CircuitOf.divides {p : ℕ} (h : CircuitOf c t) (hs : WellFormed t)
    (hdiv : DivisorsInvertible p t) {base : ℕ → ZMod p} (hbase : ConstantsHold t base) :
    c.Divides base := by
  intro l n w hw htype
  rw [h.wiring] at hw
  obtain ⟨d, hd, rfl⟩ := Option.map_eq_some_iff.mp hw
  have hop : d.op = .divInt := by
    rw [GateDescription.makeGate] at htype
    cases hop : d.op <;> simp [hop] at htype ⊢
  rw [(makeGate_inputs d).2]
  exact hdiv _ (h.evaluates hs hbase) l n d hd hop

end Circuit

/-! ## Inputs -/

section Inputs

variable {p : ℕ} [Fact p.Prime]

omit [Fact p.Prime] in
theorem coherent_update {v : ℕ → Gate} (hv : ∀ n, Coherent p (v n)) (i : ℕ) {g : Gate}
    (hg : Coherent p g) (n : ℕ) : Coherent p (Function.update v i g n) := by
  by_cases h : n = i
  · rw [h, Function.update_self]
    exact hg
  · rw [Function.update_of_ne h]
    exact hv n

theorem coherent_setGates (gates : List (Option ℕ)) {vec : List ℚ}
    (hvec : ∀ q ∈ vec, (q.den : ZMod p) ≠ 0) {v : ℕ → Gate} (hv : ∀ n, Coherent p (v n)) (n : ℕ) :
    Coherent p (setGates p gates vec v n) := by
  have hzip : ∀ e ∈ gates.zip vec, (e.2.den : ZMod p) ≠ 0 := fun e he =>
    hvec e.2 (List.of_mem_zip he).2
  rw [setGates]
  generalize gates.zip vec = entries at hzip
  induction entries generalizing v with
  | nil => exact hv n
  | cons e entries ih =>
      obtain ⟨he, hrest⟩ := List.forall_mem_cons.mp hzip
      obtain ⟨gate, value⟩ := e
      refine ih (fun k => ?_) hrest
      cases gate with
      | none => exact hv k
      | some idx => exact coherent_update hv idx (coherent_setValue (v idx) he) k

/-- One pass of the loop over the constants. -/
def setConstant (prime : ℤ) (st : ℤ × (ℕ → Gate)) (e : Text × ℕ) : ℤ × (ℕ → Gate) :=
  let num := (mpzSetStr e.1).getD st.1
  (num, Function.update st.2 e.2 (setValueZ prime num))

theorem setConstants_eq (prime : ℤ) (entries : List (Text × ℕ)) (v : ℕ → Gate) :
    setConstants prime (entries.map fun e => (e.1, [e.2])) v =
      (entries.foldl (setConstant prime) (0, v)).2 := by
  rw [setConstants, List.foldl_map]
  rfl

theorem coherent_setConstants (entries : List (Text × ℕ)) {st : ℤ × (ℕ → Gate)}
    (hv : ∀ n, Coherent p (st.2 n)) (n : ℕ) :
    Coherent p ((entries.foldl (setConstant p) st).2 n) := by
  induction entries generalizing st with
  | nil => exact hv n
  | cons e entries ih => exact ih (coherent_update hv e.2 (coherent_setValueZ _))

omit [Fact p.Prime] in
theorem setConstants_of_notMem (entries : List (Text × ℕ)) (st : ℤ × (ℕ → Gate)) {n : ℕ}
    (hn : n ∉ entries.map Prod.snd) : (entries.foldl (setConstant p) st).2 n = st.2 n := by
  induction entries generalizing st with
  | nil => rfl
  | cons e entries ih =>
      obtain ⟨hne, hrest⟩ := not_or.mp (mt List.mem_cons.mpr hn)
      rw [List.foldl_cons, ih _ hrest]
      exact Function.update_of_ne hne ..

/-- A gate that one entry sets, to an integer. -/
theorem setConstants_of_mem {entries : List (Text × ℕ)} (hnodup : (entries.map Prod.snd).Nodup)
    {e : Text × ℕ} (he : e ∈ entries) {num : ℤ} (hnum : mpzSetStr e.1 = some num)
    (st : ℤ × (ℕ → Gate)) :
    ((((entries.foldl (setConstant p) st).2 e.2).zValue : ℤ) : ZMod p) = num := by
  induction entries generalizing st with
  | nil => exact absurd he List.not_mem_nil
  | cons e' entries ih =>
      obtain ⟨hnew, hrest⟩ := List.nodup_cons.mp hnodup
      rw [List.foldl_cons]
      rcases List.mem_cons.mp he with rfl | he
      · rw [setConstants_of_notMem entries _ hnew, setConstant, hnum]
        dsimp only [Option.getD_some]
        rw [Function.update_self, setValueZ, Gate.canonicalize]
        exact cast_modIfNeeded _ _
      · exact ih hrest he _

variable {c : PWSCircuit} {t : PWSCircuitParser}

/-- The inputs, and their constants, when the rationals that are given have invertible
denominators. -/
theorem initializeInputs_coherent (c : PWSCircuit) {inputs : List ℚ}
    (hinputs : ∀ q ∈ inputs, (q.den : ZMod p) ≠ 0) :
    AllCoherent p (c.initializeInputs p inputs [] zeroValues) := by
  rintro ⟨l, n⟩
  rw [Values.at, PWSCircuit.initializeInputs, PWSCircuit.inConstantEntries, setConstants_eq]
  dsimp only
  cases l with
  | zero =>
      rw [Function.update_self]
      exact coherent_setConstants _ (coherent_setGates _ (by simp)
        (coherent_setGates _ hinputs fun _ => coherent_zero)) n
  | succ l =>
      rw [Function.update_of_ne (Nat.succ_ne_zero l)]
      exact coherent_zero

omit [Fact p.Prime] in
/-- The gate of a constant that has any. -/
theorem lowest_const (hs : WellFormed t) {i : ℕ} {k : CConst} (hk : t.constants[i]? = some k)
    (hbound : k.isBound = true) : lowest t ⟨.constant, i⟩ = some ⟨0, k.gateIndex.headD 0⟩ := by
  have hobject : objectAt t ⟨.constant, i⟩ = some k.toCPrimitive := by
    rw [objectAt, if_pos (by rfl)]
    exact congrArg (Option.map CConst.toCPrimitive) hk
  refine lowest_eq_some.mpr ⟨_, hobject, ?_⟩
  rw [CPrimitive.lowest, hs.constLayers i k hk hbound]
  rw [CPrimitive.isBound] at hbound
  cases hg : k.gateIndex with
  | nil => simp [hg] at hbound
  | cons a as => rfl

theorem initializeInputs_constants {P : Policy} (h : CircuitOf c t) (hrun : Run P .new t)
    (inputs : List ℚ) :
    ConstantsHold t fun n =>
      ((c.initializeInputs p inputs [] zeroValues 0 n).zValue : ZMod p) := by
  have hs := (hrun.wellFormed wellFormed_new).1
  intro q text num g hq hnum hg
  -- the entry of the constant
  obtain ⟨k, hk, rfl⟩ := Option.map_eq_some_iff.mp hq.there
  have hbound : k.isBound = true := by
    obtain ⟨cp, hobject, hlow⟩ := lowest_eq_some.mp hg
    rw [objectAt, if_pos hq.isConstant, hk] at hobject
    obtain rfl := Option.some.inj hobject
    exact (CPrimitive.isBound_iff _).mpr ⟨g, hlow⟩
  have hlow := lowest_const hs hk hbound
  rw [← hq.eq_mk, hg] at hlow
  obtain rfl := Option.some.inj hlow
  have hmem : (k.value, k.gateIndex.headD 0) ∈ (t.constants.filter fun k => k.isBound).map
      fun k => (k.value, k.gateIndex.headD 0) :=
    List.mem_map_of_mem (List.mem_filter.mpr ⟨List.mem_of_getElem? hk, hbound⟩)
  -- no two constants have the same gate
  have hnodup : (((t.constants.filter fun k => k.isBound).map
      fun k => (k.value, k.gateIndex.headD 0)).map Prod.snd).Nodup := by
    rw [List.map_map, List.Nodup, List.pairwise_map, List.pairwise_filter,
      List.pairwise_iff_getElem]
    intro i j hi hj hij hbi hbj heq
    have hapart := hrun.lowest_distinct wellFormed_new
      (p := ⟨.constant, i⟩) (q := ⟨.constant, j⟩) (by simp [hij.ne])
      (fun _ _ hallowed => Bool.noConfusion (P.bind_variable _ _ _ hallowed))
      (fun _ _ hallowed => Bool.noConfusion (P.bind_variable _ _ _ hallowed)) rfl
      (lowest_const hs (List.getElem?_eq_getElem hi) hbi)
      (lowest_const hs (List.getElem?_eq_getElem hj) hbj)
    exact hapart (congrArg (GatePosition.mk 0) heq)
  rw [PWSCircuit.initializeInputs, PWSCircuit.inConstantEntries, setConstants_eq, h.parser,
    constructInvertedIndexes]
  dsimp only
  rw [Function.update_self, List.foldl_append]
  exact setConstants_of_mem hnodup hmem hnum _

end Inputs

/-! ## The operations of a worksheet -/

section Worksheets

variable {s s' t : PWSCircuitParser} {e : List ℕ × MagicVarOperation}

/-- The guard of the operation is the sizes of the layers of an earlier state, in which the gates
that the operation sets were not there. They are inputs, and the gates of no constant. -/
def GuardedOp (s : PWSCircuitParser) (e : List ℕ × MagicVarOperation) : Prop :=
  ∃ r, WellFormed r ∧ Grows r s ∧ e.1 = r.circuitDesc.map List.length ∧
    ∀ g ∈ e.2.sets, g.layer = 0 ∧ gateAt r g = none ∧ HasGate s g ∧
      ∀ q : Primitive, q.isConstant = true → lowest s q ≠ some g

/-- The operations of the state are guarded. -/
def GuardedOps (s : PWSCircuitParser) : Prop := ∀ e ∈ s.magicOps, GuardedOp s e

/-- The operations that the later state has in addition set gates that were not there. -/
def LaterOps (s s' : PWSCircuitParser) : Prop :=
  ∃ ops, s'.magicOps = s.magicOps ++ ops ∧ ∀ e ∈ ops, ∀ g ∈ e.2.sets, gateAt s g = none

theorem not_hasGate {g : GatePosition} (h : gateAt s g = none) : ¬ HasGate s g := fun hthere => by
  rw [HasGate, h] at hthere
  exact Bool.noConfusion hthere

/-- Constants are bound by no policy. -/
theorem Policy.constant (P : Policy) {q : Primitive} (hq : q.isConstant = true)
    (t : PWSCircuitParser) (gate : GatePosition) : ¬ P.allows t (.bind q gate) := fun hallowed => by
  rw [isConstant_eq_not, P.bind_variable t q gate hallowed] at hq
  exact Bool.noConfusion hq

theorem GuardedOp.of_run {P : Policy} (h : GuardedOp s e) (hrun : Run P s s') (hs : WellFormed s) :
    GuardedOp s' e := by
  obtain ⟨r, hr, hgrows, hguard, hsets⟩ := h
  obtain ⟨-, hgrows', -⟩ := hrun.wellFormed hs
  refine ⟨r, hr, hgrows.trans hgrows', hguard, fun g hg => ?_⟩
  obtain ⟨hlayer, hfresh, hthere, hconst⟩ := hsets g hg
  refine ⟨hlayer, hfresh, hgrows'.hasGate hthere, fun q hq hlow => ?_⟩
  -- the constant had the gate, or got a new one
  rcases hrun.lowest_origin hs (P.constant hq) hlow with hold | ⟨-, -, hnew⟩
  · exact hconst q hq hold
  · exact not_hasGate hnew hthere

theorem OpRecorded.guarded {line : OpLine} {op : MagicVarOperation} (h : OpRecorded line s s' op)
    (hs : WellFormed s) (hfresh : line.Fresh s) :
    GuardedOp s' (s.circuitDesc.map List.length, op) := by
  obtain ⟨hwf', hgrows, -⟩ := h.run.wellFormed hs
  refine ⟨s, hs, hgrows, rfl, fun g hg => ?_⟩
  obtain ⟨m, hm, hlow⟩ := h.sets hfresh.targets g hg
  have hquiet : ∀ t gate, ¬ (lineCalls (· ∈ line.targets)).allows t (.bind m gate) :=
    fun _ _ hallowed => hfresh.targets m hallowed.1 hm
  have hunbound := hfresh.unbound m hm
  rcases h.run.lowest_origin hs hquiet hlow with hold | ⟨-, hlayer, hnew⟩
  · exact Option.noConfusion rfl (heq_of_eq (hunbound.symm.trans hold))
  · refine ⟨hlayer, hnew, hwf'.hasGate_lowest hlow, fun q hq hq' => ?_⟩
    have hne : q ≠ m := by
      rintro rfl
      rw [Primitive.isConstant, hfresh.intermediate q hm] at hq
      exact Bool.noConfusion hq
    exact h.run.lowest_distinct hs hne (Policy.constant _ hq) hquiet hunbound hq' hlow rfl

theorem LaterOps.refl (s : PWSCircuitParser) : LaterOps s s :=
  ⟨[], (List.append_nil _).symm, by simp⟩

/-- The lines of a worksheet with fresh magic variables. -/
theorem parseLines_guarded {rightFirst : Bool} {prime : ℤ} {fuel : ℕ} {pws : List Token}
    (hs : WellFormed s) (hguarded : GuardedOps s)
    (hlines : OpLines rightFirst prime (fun line s => line.Fresh s) fuel pws s)
    (h : parseLines rightFirst prime fuel pws s = some ((), s')) :
    Run anyLine s s' ∧ GuardedOps s' ∧ LaterOps s s' := by
  have hkeeps := parseLines_keeps (I := fun t => Grows s t ∧ GuardedOps t ∧ LaterOps s t)
    (fun _ _ hfresh => OpLine.Fresh.intermediate hfresh)
    (fun t t' ht hI hplain => by
      obtain ⟨hgrows, hops, hlater⟩ := hI
      refine ⟨hgrows.trans (hplain.run.wellFormed ht).2.1, fun e he => ?_, ?_⟩
      · rw [hplain.ops] at he
        exact (hops e he).of_run hplain.run ht
      · rwa [LaterOps, hplain.ops])
    (fun t t' line op ht hI hfresh hrecorded => by
      obtain ⟨hgrows, hops, ops, hsame, hlater⟩ := hI
      have hguardedOp := hrecorded.guarded ht hfresh
      refine ⟨hgrows.trans (hrecorded.run.wellFormed ht).2.1, fun e he => ?_,
        ops ++ [(t.circuitDesc.map List.length, op)],
        by rw [hrecorded.ops, hsame, List.append_assoc], fun e he g hg => ?_⟩
      · rw [hrecorded.ops] at he
        rcases List.mem_append.mp he with he | he
        · exact (hops e he).of_run hrecorded.run ht
        · exact List.mem_singleton.mp he ▸ hguardedOp
      · rcases List.mem_append.mp he with he | he
        · exact hlater e he g hg
        · -- the gates of the line are new, and so they were not there before
          obtain rfl := List.mem_singleton.mp he
          obtain ⟨m, hm, hlow⟩ := hrecorded.sets hfresh.targets g hg
          rcases hrecorded.run.lowest_origin ht
            (fun _ _ hallowed => hfresh.targets m hallowed.1 hm) hlow with hold | ⟨-, -, hnew⟩
          · exact Option.noConfusion rfl (heq_of_eq ((hfresh.unbound m hm).symm.trans hold))
          · by_contra hne
            have hthere := hgrows.hasGate (Option.isSome_iff_ne_none.mpr hne)
            exact not_hasGate hnew hthere)
    hs ⟨fun _ g h => ⟨g.boundPrimitive, h⟩, hguarded, .refl s⟩ hlines h
  exact ⟨hkeeps.1, hkeeps.2.2⟩

end Worksheets

/-! ## What `evaluate` leaves of an operation -/

section After

variable {p : ℕ}

/-- The values after the operation on `v` and an evaluation of the circuit: every gate has the
residue of its operation on its inputs, and the gates that the operation reads and sets have what it
left there. -/
structure EvaluatedAfter (p : ℕ) (s : PWSCircuitParser) (op : MagicVarOperation) (v w : Values) :
    Prop where
  evaluates : Evaluates s fun pos => ((w.at pos).zValue : ZMod p)
  kept : ∀ g ∈ op.operands ++ op.sets,
    ((w.at g).zValue : ZMod p) = ((computeMagicGates p op v).at g).zValue

variable [Fact p.Prime] {c : PWSCircuit} {s s' t : PWSCircuitParser}

/-- The inputs that hold constants. -/
def ConstantInput (t : PWSCircuitParser) (n : ℕ) : Prop :=
  ∃ q : Primitive, q.isConstant = true ∧ lowest t q = some ⟨0, n⟩

theorem ConstantsHold.congr {R : Type} [CommRing R] {base base' : ℕ → R} (h : ConstantsHold t base)
    (hs : WellFormed t) (hbase : ∀ n, ConstantInput t n → base' n = base n) :
    ConstantsHold t base' := by
  intro q text num g hq hnum hg
  have hpos : (⟨0, g.name⟩ : GatePosition) = g := by rw [← hq.lowest_layer hs hg]
  rw [hbase g.name ⟨q, hq.isConstant, hpos ▸ hg⟩]
  exact h q text num g hq hnum hg

theorem GuardedOp.beyond {e : List ℕ × MagicVarOperation} (h : GuardedOp t e)
    (hc : CircuitOf c t) : c.Beyond (ConstantInput t) e := by
  obtain ⟨r, hr, hgrows, hguard, hsets⟩ := h
  refine ⟨hguard ▸ hc.closed hr hgrows, fun g hg => ?_⟩
  obtain ⟨hlayer, hnew, -, hconst⟩ := hsets g hg
  have hpos : (⟨0, g.name⟩ : GatePosition) = g := by rw [← hlayer]
  refine ⟨hlayer, ?_, fun ⟨q, hq, hlow⟩ => hconst q hq (hpos ▸ hlow)⟩
  by_contra hlt
  rw [hguard] at hlt
  exact not_hasGate hnew (hpos ▸ hasGate_iff.mpr (Nat.lt_of_not_le hlt))

/-- Values that are computed to the end are an evaluation. -/
theorem PWSCircuit.EvaluatedTo.evaluates (hc : CircuitOf c t) (ht : WellFormed t)
    {base : ℕ → ZMod p} (hbase : ConstantsHold t base) {w : Values}
    (h : c.EvaluatedTo p (ConstantInput t) base c.sizes w) :
    Evaluates t fun pos => ((w.at pos).zValue : ZMod p) where
  gate l n g hg := by
    have hn : n < c.sizes.getD (l + 1) 0 := by
      rw [hc.sizes]
      exact hasGate_iff.mp (Option.isSome_iff_exists.mpr ⟨g, hg⟩)
    have hwiring : (c.layer (l + 1))[n]? = some g.makeGate := by
      rw [hc.wiring, hg]
      rfl
    have hclosed : c.Closed c.sizes := hc.sizes ▸ hc.closed ht fun _ g h => ⟨g.boundPrimitive, h⟩
    obtain ⟨h1, h2⟩ := hclosed.inputs l n _ hn hwiring
    refine (h.computed (l + 1) n hn).trans ?_
    rw [PWSCircuit.layerValues_succ _ hwiring, ← h.computed l _ h1, ← h.computed l _ h2,
      makeGate_eval, (makeGate_inputs g).1, (makeGate_inputs g).2]
    rfl
  const q text num g hq hnum hg := by
    have hlayer := hq.lowest_layer ht hg
    have hpos : (⟨0, g.name⟩ : GatePosition) = g := by rw [← hlayer]
    have hvalue := h.inputs g.name ⟨q, hq.isConstant, hpos ▸ hg⟩
    rw [← hpos]
    exact hvalue.trans (hbase q text num g hq hnum hg)

/-- The operands of a line have gates that were there, or new ones in the input layer. -/
theorem OpRecorded.operand_there {line : OpLine} {op : MagicVarOperation}
    (h : OpRecorded line s s' op) (hs : WellFormed s) (hfresh : line.Fresh s) {g : GatePosition}
    (hg : g ∈ op.operands) : HasGate s g ∨ g.layer = 0 ∧ HasGate s' g := by
  obtain ⟨q, hq, hlowest⟩ := h.operands g hg
  have hquiet : ∀ t gate, ¬ (lineCalls (· ∈ line.targets)).allows t (.bind q gate) := by
    intro t gate hallowed
    rcases hq with hq | hq
    · exact (hfresh.operands q hq).2 hallowed.1
    · exact Policy.constant _ hq t gate hallowed
  rcases h.run.lowest_origin hs hquiet hlowest with hold | ⟨-, hlayer, -⟩
  · exact Or.inl (hs.hasGate_lowest hold)
  · exact Or.inr ⟨hlayer, (h.run.wellFormed hs).1.hasGate_lowest hlowest⟩

/-- `evaluate` on the circuit of a worksheet, from inputs with invertible denominators and with
invertible divisors: what it leaves of the operation of a line with fresh magic variables,
which it computes on what it has when it comes to it. -/
theorem evaluate_after {line : OpLine} {op : MagicVarOperation} {inputs : List ℚ}
    (hs : Run anyLine .new s) (hfresh : line.Fresh s)
    (hrecorded : OpRecorded line s s' op) (hafter : Run anyLine s' t) (hguarded : GuardedOps t)
    (hlater : LaterOps s' t) (hc : CircuitOf c t) (hdivides : DivisorsInvertible p t)
    (hinputs : ∀ q ∈ inputs, (q.den : ZMod p) ≠ 0) :
    EvaluatedAfter p s' op
      (c.evaluateUntil p s.magicOps [] (s.circuitDesc.map List.length)
        (c.initializeInputs p inputs [] zeroValues))
      (c.evaluate p (c.initializeInputs p inputs [] zeroValues)) := by
  have hwf := (hs.wellFormed wellFormed_new).1
  obtain ⟨hwf', hgrows, -⟩ := hrecorded.run.wellFormed hwf
  obtain ⟨ht, hgrows', -⟩ := hafter.wellFormed hwf'
  have hwhole : Run anyLine .new t := (hs.trans hrecorded.run.of_line).trans hafter
  set v₀ := c.initializeInputs p inputs [] zeroValues with hv₀
  set guard := s.circuitDesc.map List.length with hguard
  set base : ℕ → ZMod p := fun n => ((v₀ 0 n).zValue : ZMod p) with hbase
  have hconstants : ConstantsHold t base := initializeInputs_constants hc hwhole inputs
  have hdiv : ∀ base' : ℕ → ZMod p, (∀ n, ConstantInput t n → base' n = base n) →
      c.Divides base' := fun base' h => hc.divides ht hdivides (hconstants.congr ht h)
  obtain ⟨later, hops, hlaterSets⟩ := hlater
  rw [hrecorded.ops, List.append_assoc, List.singleton_append] at hops
  have hbeyond : ∀ e ∈ t.magicOps, c.Beyond (ConstantInput t) e := fun e he =>
    (hguarded e he).beyond hc
  rw [hops] at hbeyond
  obtain ⟨hfirst, hrest⟩ := List.forall_mem_append.mp hbeyond
  obtain ⟨hop, hlast⟩ := List.forall_mem_cons.mp hrest
  -- the slices up to the operation, and those behind it
  have hstart : c.EvaluatedTo p (ConstantInput t) base [] v₀ :=
    ⟨initializeInputs_coherent c hinputs, fun l n hn => absurd hn (by simp), fun n _ => rfl⟩
  have hclosed : c.Closed guard := hc.closed hwf (hgrows.trans hgrows')
  have hset := (hstart.evaluateUntil hdiv hfirst hclosed).computeMagicGates hop
  have hsizes : c.Closed c.sizes := hc.sizes ▸ hc.closed ht fun _ g h => ⟨g.boundPrimitive, h⟩
  obtain ⟨hend, hkept⟩ := hset.evaluateOps hdiv hlast hsizes
  have hevaluate : c.evaluate p v₀ = c.evaluateOps p later guard (computeMagicGates p op
      (c.evaluateUntil p s.magicOps [] guard v₀)) := by
    rw [PWSCircuit.evaluate, hc.parser]
    change c.evaluateOps p t.magicOps [] v₀ = _
    rw [hops, PWSCircuit.evaluateOps_append]
  rw [hevaluate]
  refine ⟨(hend.evaluates hc ht hconstants).of_run hafter hwf', fun g hg => ?_⟩
  -- inputs that were there are not set again
  have hinput : ∀ n, HasGate s' ⟨0, n⟩ → ∀ e ∈ later, (⟨0, n⟩ : GatePosition) ∉ e.2.sets :=
    fun n hthere e he hmem => not_hasGate (hlaterSets e he _ hmem) hthere
  have hlow : ∀ g, g.layer = 0 → HasGate s' g →
      (((c.evaluateOps p later guard (computeMagicGates p op
        (c.evaluateUntil p s.magicOps [] guard v₀))).at g).zValue : ZMod p) =
      ((computeMagicGates p op (c.evaluateUntil p s.magicOps [] guard v₀)).at g).zValue := by
    rintro ⟨l, n⟩ hlayer hthere
    obtain rfl : l = 0 := hlayer
    exact hkept n (hinput n hthere)
  rcases List.mem_append.mp hg with hg | hg
  · rcases hrecorded.operand_there hwf hfresh hg with hold | ⟨hlayer, hthere⟩
    · -- it was computed before the operation, over inputs that stay
      have hthere := hasGate_iff.mp hold
      have hthere' : g.name < c.sizes.getD g.layer 0 := by
        rw [hc.sizes]
        exact hasGate_iff.mp (hgrows'.hasGate (hgrows.hasGate hold))
      refine (hend.computed g.layer g.name hthere').trans
        (Eq.trans ?_ (hset.computed g.layer g.name hthere).symm)
      exact hclosed.layerValues_congr (fun n hn => hkept n
        (hinput n (hgrows.hasGate (hasGate_iff.mpr hn)))) g.layer g.name hthere
    · exact hlow g hlayer hthere
  · obtain ⟨_, -, -, -, hsets⟩ := hrecorded.guarded hwf hfresh
    obtain ⟨hlayer, -, hthere, -⟩ := hsets g hg
    exact hlow g hlayer hthere

/-- A worksheet with a line that has an operation: the lines before it lead to the state `s`, the
line to `s'`, and the lines behind it and the output layer to `t`, whose circuit is `c`. The magic
variables of each such line are fresh where the parser comes to it. -/
structure OpWorksheet (rightFirst : Bool) (prime : ℤ) (before : List Token) (token : Token)
    (pws rest : List Token) (line : OpLine) (s s' t : PWSCircuitParser) (c : PWSCircuit) :
    Prop where
  before : ∃ fuel, parseLines rightFirst prime fuel before .new = some ((), s) ∧
    OpLines rightFirst prime (fun line s => line.Fresh s) fuel before .new
  names : opLine? (token :: pws) = some line
  fresh : line.Fresh s
  parse : parseLine rightFirst prime token pws s = some (rest, s')
  after : ∃ fuel, (parseLines rightFirst prime fuel rest >>= fun _ => makeOutputLayer) s' =
      some ((), t) ∧
    OpLines rightFirst prime (fun line s => line.Fresh s) fuel rest s'
  circuit : constructCircuit (constructInvertedIndexes t) = some c

theorem OpWorksheet.reached {rightFirst : Bool} {prime : ℤ} {before pws rest : List Token}
    {token : Token} {line : OpLine}
    (h : OpWorksheet rightFirst prime before token pws rest line s s' t c) :
    Run anyLine .new s ∧ GuardedOps s := by
  obtain ⟨fuel, hparse, hlines⟩ := h.before
  obtain ⟨hrun, hguarded, -⟩ := parseLines_guarded wellFormed_new
    (fun e he => absurd he (by simp [PWSCircuitParser.new])) hlines hparse
  exact ⟨hrun, hguarded⟩

/-- The line recorded the operation. -/
theorem OpWorksheet.recorded {rightFirst : Bool} {prime : ℤ} {before pws rest : List Token}
    {token : Token} {line : OpLine}
    (h : OpWorksheet rightFirst prime before token pws rest line s s' t c) {guard : List ℕ}
    {op : MagicVarOperation} (hop : s'.magicOps = s.magicOps ++ [(guard, op)]) :
    ∃ line' : OpLine, line'.Fresh s ∧ OpRecorded line' s s' op := by
  have hs := (h.reached.1.wellFormed wellFormed_new).1
  rcases parseLine_inv (Q := fun line s => line.Fresh s) hs (fun _ => OpLine.Fresh.intermediate)
    (fun _ => ⟨line, h.names, h.fresh⟩) h.parse with hplain | ⟨line', op', hfresh', hrecorded⟩
  · rw [hplain.ops] at hop
    simp at hop
  · obtain ⟨-, rfl⟩ := Prod.mk.inj (List.singleton_inj.mp
      (List.append_cancel_left (hrecorded.ops.symm.trans hop)))
    exact ⟨line', hfresh', hrecorded⟩

/-- What the lines behind it and the output layer leave. -/
theorem OpWorksheet.later {rightFirst : Bool} {prime : ℤ} {before pws rest : List Token}
    {token : Token} {line line' : OpLine} {op : MagicVarOperation}
    (h : OpWorksheet rightFirst prime before token pws rest line s s' t c)
    (hfresh : line'.Fresh s) (hrecorded : OpRecorded line' s s' op) :
    Run anyLine s' t ∧ GuardedOps t ∧ LaterOps s' t := by
  obtain ⟨hrun, hguarded⟩ := h.reached
  have hs := (hrun.wellFormed wellFormed_new).1
  have hs' := (hrecorded.run.wellFormed hs).1
  have hguarded' : GuardedOps s' := fun e he => by
    rw [hrecorded.ops] at he
    rcases List.mem_append.mp he with he | he
    · exact (hguarded e he).of_run hrecorded.run hs
    · exact List.mem_singleton.mp he ▸ hrecorded.guarded hs hfresh
  obtain ⟨fuel, hafter, hlines⟩ := h.after
  obtain ⟨_, t', hparse, houtput⟩ := bind_inv hafter
  obtain ⟨hrun', hops', hlater⟩ := parseLines_guarded hs' hguarded' hlines hparse
  have ht' := (hrun'.wellFormed hs').1
  have hlast := makeOutputLayer_run ht' houtput
  refine ⟨hrun'.trans hlast.run.of_line, fun e he => ?_, ?_⟩
  · rw [hlast.ops] at he
    exact (hops' e he).of_run hlast.run ht'
  · rwa [LaterOps, hlast.ops]

/-- What the prover's circuit holds after `evaluate`, of the operation of a line. -/
theorem OpWorksheet.evaluated {rightFirst : Bool} {before pws rest : List Token} {token : Token}
    {line : OpLine} {guard : List ℕ} {op : MagicVarOperation} {inputs : List ℚ}
    (h : OpWorksheet rightFirst p before token pws rest line s s' t c)
    (hop : s'.magicOps = s.magicOps ++ [(guard, op)]) (hdivides : DivisorsInvertible p t)
    (hinputs : ∀ q ∈ inputs, (q.den : ZMod p) ≠ 0) :
    EvaluatedAfter p s' op
      (c.evaluateUntil p s.magicOps [] guard (c.initializeInputs p inputs [] zeroValues))
      (c.prove p inputs).values := by
  obtain ⟨line', hfresh, hrecorded⟩ := h.recorded hop
  obtain ⟨hrun, hguarded, hlater⟩ := h.later hfresh hrecorded
  obtain ⟨rfl, -⟩ := Prod.mk.inj (List.singleton_inj.mp
    (List.append_cancel_left (hrecorded.ops.symm.trans hop)))
  exact evaluate_after h.reached.1 hfresh hrecorded hrun hguarded hlater
    (constructCircuit_inv h.circuit) hdivides hinputs

omit [Fact p.Prime] in
/-- In a worksheet the divisors are invertible if they are gates of such constants. -/
theorem OpWorksheet.invertible {rightFirst : Bool} {prime : ℤ} {before pws rest : List Token}
    {token : Token} {line : OpLine}
    (h : OpWorksheet rightFirst prime before token pws rest line s s' t c) {guard : List ℕ}
    {op : MagicVarOperation} (hop : s'.magicOps = s.magicOps ++ [(guard, op)])
    (hdivides : DividesByConstants p t) : DivisorsInvertible p t := by
  obtain ⟨line', hfresh, hrecorded⟩ := h.recorded hop
  have hwhole : Run anyLine .new t :=
    (h.reached.1.trans hrecorded.run.of_line).trans (h.later hfresh hrecorded).1
  exact hdivides.invertible (hwhole.wellFormed wellFormed_new).1 (aligned_of_new hwhole)

end After

end Pepper.Cmtgkr.Pws
