import Pepper.Cmtgkr.HamdistPredicates
import Pepper.Cmtgkr.MatmulCmtPP

/-!
# The Hamming distance circuit

`HamdistCircuit` adds two vectors, raises every entry of the sum to a power by the tower of
`BasicCMTCircuit`, and adds the powers up. Main result: `constructCircuit_run`, the levels that
the two loops of `constructCircuit` leave behind, from the last one down to the inputs.
-/

set_option autoImplicit false

open Pepper.Common.Gmp Pepper.Foundations.Loop Pepper.Foundations.Multilinear
open Pepper.Cmtgkr.Env Pepper.Cmtgkr.Layer Pepper.Cmtgkr.Layer.CMTCircuit
open Pepper.Cmtgkr.HamdistPredicates Pepper.Cmtgkr.MatmulCmtPP

namespace Pepper.Cmtgkr.HamdistCircuit

/-! ## The code -/

/-- One pass of the loop over the levels of the tower. -/
def makeTowerLevel (n : ℤ) (psub1 : ℕ) (c : CMTCircuit) (k : ℕ) : Option CMTCircuit := do
  let i := k + 2
  let bit := psub1.testBit i
  let c ← makeIntLevel (toInt (toInt (2 * n) + 2)) (hamdistAddWrap (hamdistFltAdd bit))
    (hamdistFltMul bit) c
  let c := c.makeFLTGeneral psub1 0 (toInt (2 * n)).toNat i
  pure (c.addToLastGate (toInt (2 * n)).toNat (c.clayer 0).size 0)

/-- One pass of the loop that adds up, with `i` from `d - 1` down to one. -/
def makeSumLevel (d : ℕ) (c : CMTCircuit) (k : ℕ) : Option CMTCircuit := do
  let i := d - 1 - k
  let half := toInt (2 ^ i)
  let c ← makeIntLevel (toInt (half + 2)) (hamdistAddWrap hamdistReduce) zero c
  let c := c.makeReduceLayer .add 0 half.toNat
  pure (c.addToLastGate half.toNat (c.clayer 0).size half)

/-- `constructCircuit`. -/
def constructCircuit (p d : ℕ) : Option CMTCircuit := do
  -- `powi` has 64 bits
  let n := toInt (2 ^ d % 2 ^ 64)
  let psub1 := p - 1
  let fltDepth := getFLTDepth psub1
  -- both vectors, the claimed distance and a zero
  let c ← makeIntLevel (toInt (toInt (2 * n) + 2)) zero zero (makeShell (fltDepth + d + 3))
  let c := c.addInGates (c.depth - 1) 0 (toInt (2 * n)).toNat
  let c := c.addOutGates (c.depth - 1) (toInt (2 * n)).toNat (toInt (toInt (2 * n) + 1)).toNat
  -- the vectors are added
  let c ← makeIntLevel (toInt (n + 2)) (hamdistAddWrap hamdistSumVec) zero c
  let c := c.makeAddGates 0 n.toNat n.toNat
  let c := c.addToLastGate n.toNat (c.clayer 0).size n
  -- the squares
  let c ← makeIntLevel (toInt (n + 2)) hamdistAddLastTwo hamdistFltMulLvl1 c
  let c := c.makeMulGates 0 n.toNat 0
  let c := c.addToLastGate n.toNat (c.clayer 0).size 0
  -- running products beside powers, from here to the last level of the tower
  let c ← makeIntLevel (toInt (toInt (2 * n) + 2)) (hamdistAddWrap hamdistFltAddLvl2)
    hamdistFltMulLvl2 c
  let c := c.makeFLTLvl2 0 (toInt (2 * n)).toNat
  let c := c.addToLastGate (toInt (2 * n)).toNat (c.clayer 0).size (-n)
  let c ← (List.range (fltDepth - 1 - 2)).foldlM (makeTowerLevel n psub1) c
  let c ← makeIntLevel (toInt (n + 2)) hamdistAddLastTwo hamdistReduce c
  let c := c.makeFLTLast 0 n.toNat
  let c := c.addToLastGate n.toNat (c.clayer 0).size n
  -- the powers are added up, with the claimed distance at the end
  let c ← (List.range (d - 1)).foldlM (makeSumLevel d) c
  let c ← c.makeLevel 2 reduce zero
  let c := c.makeReduceLayer .add 0 2
  let c ← c.makeLevel 1 reduce zero
  pure (c.makeReduceLayer .add 0 1)

/-- `Gate::setValue` of an `int`, on one gate. -/
def setInt (prime : ℤ) (data : CircuitData) (lvl j : ℕ) (v : ℤ) : CircuitData :=
  Function.update data lvl
    (Function.update (data lvl) j (Gate.canonicalize prime { qValue := v, zValue := v }))

/-- `initializeInputs`: the last gate holds the constant zero. -/
def initializeInputs (c : CMTCircuit) (prime : ℤ) (op : List ℚ) (data : CircuitData) :
    CircuitData :=
  let lvl := c.depth - 1
  setInt prime (setGates prime c.inGates op data) lvl ((c.layer lvl).size - 1) 0

/-- The distance that `evaluate` counts. -/
def countDifferences (n lvl : ℕ) (data : CircuitData) : ℕ :=
  forLoop n
    (fun i hamdist =>
      if (data lvl i).zValue = (data lvl (n + i)).zValue then hamdist else hamdist + 1) 0

/-- `evaluate`. -/
def evaluate (c : CMTCircuit) (prime : ℤ) (data : CircuitData) : CircuitData :=
  let lvl := c.depth - 1
  let n := c.inGates.length / 2
  let hamdist := countDifferences n lvl data
  c.evaluate prime (setInt prime data lvl (2 * n) (-hamdist))

/-! ## The levels -/

/-- The gates behind the data gates over a level of `s` gates. -/
def lastWiring (shift : ℤ) (s i : ℕ) : GateWiring := ⟨.add, (shift + i).toNat, s - 1⟩

def inputLevel (d : ℕ) : CircuitLayer := .fresh (2 * 2 ^ d + 2) zero zero

def addLevel (d : ℕ) : CircuitLayer :=
  .blocks (2 ^ d) 2 (hamdistAddWrap hamdistSumVec) zero (fun i => ⟨.add, i, 2 ^ d + i⟩)
    (lastWiring (2 ^ d : ℕ) (2 * 2 ^ d + 2))

def squareLevel (d : ℕ) : CircuitLayer :=
  .blocks (2 ^ d) 2 hamdistAddLastTwo hamdistFltMulLvl1 (fun i => ⟨.mul, i, 0 + i⟩)
    (lastWiring 0 (2 ^ d + 2))

/-- The wiring of `makeFLTLvl2`. -/
def secondWiring (s i : ℕ) : GateWiring :=
  if i.testBit 0 then ⟨.mul, i >>> 1, i >>> 1⟩ else ⟨.add, i >>> 1, s - 1⟩

def secondLevel (d : ℕ) : CircuitLayer :=
  .blocks (2 * 2 ^ d) 2 (hamdistAddWrap hamdistFltAddLvl2) hamdistFltMulLvl2
    (secondWiring (2 ^ d + 2)) (lastWiring (-(2 ^ d : ℕ)) (2 ^ d + 2))

/-- The wiring of `makeFLTGeneral`. -/
def towerWiring (bit : Bool) (s i : ℕ) : GateWiring :=
  if i.testBit 0 then ⟨.mul, i, i⟩
  else if bit then ⟨.mul, i, i + 1⟩
  else ⟨.add, i, s - 1⟩

def towerLevel (psub1 d k : ℕ) : CircuitLayer :=
  .blocks (2 * 2 ^ d) 2 (hamdistAddWrap (hamdistFltAdd (psub1.testBit (k + 2))))
    (hamdistFltMul (psub1.testBit (k + 2)))
    (towerWiring (psub1.testBit (k + 2)) (2 * 2 ^ d + 2)) (lastWiring 0 (2 * 2 ^ d + 2))

/-- Pairs of gates. -/
def pairWiring (type : GateType) (i : ℕ) : GateWiring := ⟨type, 2 * i, 2 * i + 1⟩

def lastLevel (d : ℕ) : CircuitLayer :=
  .blocks (2 ^ d) 2 hamdistAddLastTwo hamdistReduce (pairWiring .mul)
    (lastWiring (2 ^ d : ℕ) (2 * 2 ^ d + 2))

def sumLevel (d k : ℕ) : CircuitLayer :=
  .blocks (2 ^ (d - 1 - k)) 2 (hamdistAddWrap hamdistReduce) zero (pairWiring .add)
    (lastWiring (2 ^ (d - 1 - k) : ℕ) (2 ^ (d - k) + 2))

def twoLevel : CircuitLayer := .blocks 2 0 reduce zero (pairWiring .add) (pairWiring .add)

def oneLevel : CircuitLayer := .blocks 1 0 reduce zero (pairWiring .add) (pairWiring .add)

/-- The levels up to the top of the tower. -/
def towerLevels (p d : ℕ) : List CircuitLayer :=
  lastLevel d :: (stack (towerLevel (p - 1) d) (getFLTDepth (p - 1) - 1 - 2) ++
    [secondLevel d, squareLevel d, addLevel d])

/-- The levels that add up. -/
def sumLevels (d : ℕ) : List CircuitLayer := oneLevel :: twoLevel :: stack (sumLevel d) (d - 1)

/-- The circuit that is built. -/
def circuit (p d : ℕ) : CMTCircuit :=
  ofList 0 (sumLevels d ++ towerLevels p d ++ [inputLevel d])
    (addGatesFromLevel [] (getFLTDepth (p - 1) + d + 2) 0 (2 * 2 ^ d))
    (addGatesFromLevel [] (getFLTDepth (p - 1) + d + 2) (2 * 2 ^ d) (2 * 2 ^ d + 1))

section Construction

variable {p d : ℕ}

/-- Up to `2 ^ 29` entries the sizes fit. -/
structure SizesFit (d : ℕ) : Prop where
  entries : toInt (2 ^ d % 2 ^ 64) = (2 ^ d : ℕ)
  twice : toInt (2 * (2 ^ d : ℕ)) = (2 * 2 ^ d : ℕ)
  single : toInt ((2 ^ d : ℕ) + 2) = (2 ^ d + 2 : ℕ)
  double : toInt ((2 * 2 ^ d : ℕ) + 2) = (2 * 2 ^ d + 2 : ℕ)
  result : toInt ((2 * 2 ^ d : ℕ) + 1) = (2 * 2 ^ d + 1 : ℕ)

theorem sizesFit (hd : d ≤ 29) : SizesFit d := by
  have hn : (2 : ℕ) ^ d ≤ 2 ^ 29 := Nat.pow_le_pow_right Nat.two_pos hd
  have hmod : (2 : ℤ) ^ d % 2 ^ 64 = (2 ^ d : ℕ) := by
    rw [Nat.cast_pow]
    refine Int.emod_eq_of_lt (by positivity) ?_
    exact_mod_cast hn.trans_lt (by norm_num)
  exact ⟨by rw [hmod, toInt_of_lt (by omega)], toInt_of_lt (n := 2 * 2 ^ d) (by omega),
    toInt_of_lt (n := 2 ^ d + 2) (by omega), toInt_of_lt (n := 2 * 2 ^ d + 2) (by omega),
    toInt_of_lt (n := 2 * 2 ^ d + 1) (by omega)⟩

theorem makeTowerLevel_eq (hd : d ≤ 29) {psub1 k K : ℕ} {levels : List CircuitLayer}
    {ins outs : List (ℕ × ℕ)} (hsize : (levels.headD .empty).size = 2 * 2 ^ d + 2) :
    makeTowerLevel (2 ^ d : ℕ) psub1 (ofList (K + 1) levels ins outs) k =
      some (ofList K (towerLevel psub1 d k :: levels) ins outs) := by
  have hfit := sizesFit hd
  simp only [makeTowerLevel, hfit.twice, hfit.double, makeIntLevel_natCast, Int.toNat_natCast,
    makeLevel_ofList, Option.bind_eq_bind, Option.bind_some, makeFLTGeneral, addToLastGate,
    setWirings_ofList, clayer_ofList_zero, clayer_ofList_one, CircuitLayer.size_setWirings,
    CircuitLayer.size_fresh, hsize, Option.pure_def]
  rfl

theorem makeSumLevel_eq (hd : d ≤ 29) {k K : ℕ} {levels : List CircuitLayer}
    {ins outs : List (ℕ × ℕ)} (hsize : (levels.headD .empty).size = 2 ^ (d - k) + 2) :
    makeSumLevel d (ofList (K + 1) levels ins outs) k =
      some (ofList K (sumLevel d k :: levels) ins outs) := by
  have hn : 2 ^ (d - 1 - k) ≤ 2 ^ 29 := Nat.pow_le_pow_right Nat.two_pos (by omega)
  have hhalf : toInt (2 ^ (d - 1 - k)) = (2 ^ (d - 1 - k) : ℕ) :=
    (congrArg toInt (Nat.cast_pow 2 _).symm).trans (toInt_of_lt (by omega))
  have hsum : toInt ((2 ^ (d - 1 - k) : ℕ) + 2) = (2 ^ (d - 1 - k) + 2 : ℕ) :=
    toInt_of_lt (n := 2 ^ (d - 1 - k) + 2) (by omega)
  simp only [makeSumLevel, hhalf, hsum, makeIntLevel_natCast, Int.toNat_natCast, makeLevel_ofList,
    Option.bind_eq_bind, Option.bind_some, makeReduceLayer, addToLastGate, setWirings_ofList,
    clayer_ofList_zero, clayer_ofList_one, CircuitLayer.size_setWirings, CircuitLayer.size_fresh,
    hsize, Option.pure_def]
  rfl

/-- Everything up to the last level, over a shell with `e` levels to come. -/
theorem constructCircuit_run (hd : 1 ≤ d) (hint : d ≤ 29) {e : ℕ}
    (hshell : getFLTDepth (p - 1) + d + 3 =
      e + 1 + (d - 1) + 1 + (getFLTDepth (p - 1) - 1 - 2) + 4) :
    constructCircuit p d =
      (ofList e (twoLevel :: stack (sumLevel d) (d - 1) ++ towerLevels p d ++ [inputLevel d])
        (addGatesFromLevel [] (getFLTDepth (p - 1) + d + 2) 0 (2 * 2 ^ d))
        (addGatesFromLevel [] (getFLTDepth (p - 1) + d + 2) (2 * 2 ^ d)
          (2 * 2 ^ d + 1))).makeLevel 1 reduce zero >>= fun c =>
            pure (c.makeReduceLayer .add 0 1) := by
  let ins := addGatesFromLevel [] (getFLTDepth (p - 1) + d + 2) 0 (2 * 2 ^ d)
  let outs := addGatesFromLevel [] (getFLTDepth (p - 1) + d + 2) (2 * 2 ^ d) (2 * 2 ^ d + 1)
  let first := [secondLevel d, squareLevel d, addLevel d, inputLevel d]
  -- the powers are built above the first levels
  have htower := @foldlM_stack (makeTowerLevel (2 ^ d : ℕ) (p - 1)) (towerLevel (p - 1) d)
    (fun _ => 2 * 2 ^ d + 2) first ins outs (getFLTDepth (p - 1) - 1 - 2) (e + 1 + (d - 1) + 1)
    CircuitLayer.size_blocks (fun _ _ => CircuitLayer.size_blocks)
    fun i _ k levels h => makeTowerLevel_eq hint h
  -- and the sums above the powers
  have hsums := @foldlM_stack (makeSumLevel d) (sumLevel d) (fun k => 2 ^ (d - k) + 2)
    (towerLevels p d ++ [inputLevel d]) ins outs (d - 1) (e + 1) CircuitLayer.size_blocks
    (fun i _ => by
      have hi : d - 1 - i = d - (i + 1) := by omega
      rw [sumLevel, CircuitLayer.size_blocks, hi])
    fun i _ k levels h => makeSumLevel_eq hint h
  have hassoc : towerLevels p d ++ [inputLevel d] = lastLevel d ::
      (stack (towerLevel (p - 1) d) (getFLTDepth (p - 1) - 1 - 2) ++ first) := by
    rw [towerLevels, List.cons_append, List.append_assoc]
    rfl
  rw [List.append_assoc, hassoc]
  rw [hassoc] at hsums
  -- three levels, then the two loops, then the level of the subtraction
  rw [constructCircuit, hshell, makeShell_eq_ofList]
  have hdepth : e + 1 + (d - 1) + 1 + (getFLTDepth (p - 1) - 1 - 2) + 3 + 1 - 1 =
      getFLTDepth (p - 1) + d + 2 := by omega
  have hhead : ((stack (towerLevel (p - 1) d) (getFLTDepth (p - 1) - 1 - 2) ++ first).headD
      .empty).size = 2 * 2 ^ d + 2 :=
    @size_headD_stack _ (fun _ => 2 * 2 ^ d + 2) first _ CircuitLayer.size_blocks
      fun _ _ => CircuitLayer.size_blocks
  have hfit := sizesFit hint
  simp only [hfit.entries, hfit.twice, hfit.double, hfit.single, hfit.result,
    makeIntLevel_natCast, Int.toNat_natCast, makeLevel_ofList, Option.bind_eq_bind,
    Option.bind_some, depth_ofList, List.length_singleton, addInGates_ofList, addOutGates_ofList,
    makeAddGates, makeMulGates, makeGates, addToLastGate, makeFLTLvl2, setWirings_ofList,
    clayer_ofList_zero, clayer_ofList_one, CircuitLayer.size_setWirings, CircuitLayer.size_fresh,
    List.headD_cons, hdepth]
  refine (congrArg (Option.bind · _) htower).trans ?_
  simp only [makeLevel_ofList, Option.bind_some, makeFLTLast, makeReduceLayer, setWirings_ofList,
    clayer_ofList_zero, clayer_ofList_one, CircuitLayer.size_setWirings, CircuitLayer.size_fresh,
    hhead]
  refine (congrArg (Option.bind · _) hsums).trans ?_
  simp only [makeLevel_ofList, Option.bind_some, setWirings_ofList]
  rw [← CircuitLayer.blocks_zero (pairWiring .add)]
  rfl

theorem three_le_getFLTDepth (hp : 5 ≤ p) : 3 ≤ getFLTDepth (p - 1) := by
  rw [getFLTDepth, sizeInBase2, Int.natAbs_natCast]
  exact Nat.succ_le_succ ((Nat.le_log2 (by omega)).mpr (by omega))

/-- The circuit that is built. -/
theorem constructCircuit_eq (hd : 1 ≤ d) (hint : d ≤ 29) (hp : 5 ≤ p) :
    constructCircuit p d = some (circuit p d) := by
  have hdepth := three_le_getFLTDepth hp
  rw [@constructCircuit_run p d hd hint 1 (by omega)]
  simp only [makeLevel_ofList, Option.bind_eq_bind, Option.bind_some, makeReduceLayer,
    setWirings_ofList, Option.pure_def]
  rw [← CircuitLayer.blocks_zero (pairWiring .add)]
  rfl

/-- Modulo three there is no level left for the subtraction. -/
theorem constructCircuit_three (hd : 1 ≤ d) (hint : d ≤ 29) : constructCircuit 3 d = none := by
  have hdepth : getFLTDepth (3 - 1) = 2 := by decide
  rw [@constructCircuit_run 3 d hd hint 0 (by rw [hdepth]; omega), makeLevel_ofList_zero]
  rfl

/-- A pass that always fails. -/
theorem foldlM_eq_none {α β : Type} {f : β → α → Option β} {l : List α} {a : α} (ha : a ∈ l)
    (hf : ∀ b, f b a = none) (b : β) : l.foldlM f b = none := by
  induction l generalizing b with
  | nil => exact absurd ha List.not_mem_nil
  | cons a' l ih =>
      rw [List.foldlM_cons]
      rcases List.mem_cons.mp ha with rfl | ha
      · rw [hf]
        rfl
      · cases f b a' with
        | none => rfl
        | some b' => exact ih ha b'

/-- From `2 ^ 30` entries on one of the sizes is negative in 32 bits. -/
theorem constructCircuit_of_large (hd : 30 ≤ d) : constructCircuit p d = none := by
  have hneg : ∀ {size : ℤ} (addFn mulFn : MleFn) (c : CMTCircuit), size < 0 →
      makeIntLevel size addFn mulFn c = none := fun _ _ _ h => if_neg (not_le.2 h)
  rw [constructCircuit]
  obtain rfl | rfl | hlarge : d = 30 ∨ d = 31 ∨ 32 ≤ d := by omega
  · rw [hneg _ _ _ (by decide)]
    rfl
  · have hsecond : toInt (toInt (2 ^ 31 % 2 ^ 64) + 2) < 0 := by decide
    simp only [hneg _ _ _ hsecond, Option.bind_eq_bind, Option.bind_none, Option.bind_fun_none]
  · -- the level of `2 ^ 31` sums
    have hsum : ∀ c, makeSumLevel d c (d - 1 - 31) = none := fun c => by
      have hi : d - 1 - (d - 1 - 31) = 31 := by omega
      rw [makeSumLevel, hi, hneg _ _ _ (by decide)]
      rfl
    have hloop := fun c => foldlM_eq_none (f := makeSumLevel d)
      (List.mem_range.mpr (show d - 1 - 31 < d - 1 by omega)) hsum c
    simp only [hloop, Option.bind_eq_bind, Option.bind_none, Option.bind_fun_none]

end Construction

end Pepper.Cmtgkr.HamdistCircuit
