import Pepper.Cmtgkr.HamdistCircuit
import Pepper.Cmtgkr.MatmulPredicates

/-!
# The matrix multiplication circuit in its original layout

`MatmulCircuit::constructCircuit` without `useCmtPP`: a level of all products, levels that add them
up beside gates that carry the claimed products, a level that adds both, the tower of powers and
levels that add the powers up. Main result: `constructCircuit_sized`, the levels that the loops
leave behind when the variables of type `int` hold the sizes `N` and `M`.
-/

set_option autoImplicit false

open Pepper.Common.Gmp Pepper.Foundations.Loop Pepper.Foundations.Multilinear
open Pepper.Cmtgkr.Env Pepper.Cmtgkr.Layer Pepper.Cmtgkr.Layer.CMTCircuit
open Pepper.Cmtgkr.MatmulPredicates
open Pepper.Cmtgkr.MatmulCmtPP (toInt makeIntLevel toInt_of_lt makeIntLevel_natCast)
open Pepper.Cmtgkr.HamdistCircuit (lastWiring pairWiring secondWiring towerWiring)

namespace Pepper.Cmtgkr.MatmulCircuit

/-! ## The code -/

/-- The factors of the product with the label `index`. -/
def productWiring (d index : ℕ) : GateWiring :=
  let n := 2 ^ d
  let k := index &&& (n - 1)
  let i := (index >>> (2 * d)) &&& (n - 1)
  let j := (index >>> d) &&& (n - 1)
  ⟨.mul, (i <<< d) + k, (1 <<< (2 * d)) + (k <<< d) + j⟩

/-- The gates that carry the claimed products, at the end of a level of `size` gates over a level
of `prev` gates. -/
def carryWiring (size prev index : ℕ) : GateWiring := ⟨.add, prev - (size - index), prev - 1⟩

/-- One pass of the loop over the sums. -/
def makeSumLevel (d : ℕ) (nSquared nCubed : ℤ) (c : CMTCircuit) (k : ℕ) : Option CMTCircuit := do
  let step := k + 1
  -- `powi` has 64 bits
  let pow : ℤ := 2 ^ step % 2 ^ 64
  if pow = 0 then none
  else
    let addFn := if step = d then matAdd61P2dp1 else matAddBelow63P3d
    let c ← makeIntLevel (toInt (nCubed / pow + nSquared + 1)) addFn zero c
    let stop := ((c.clayer 0).size - nSquared - 1).toNat
    let c := c.makeReduceLayer .add 0 stop
    pure (c.setWirings stop (c.clayer 0).size (carryWiring (c.clayer 0).size (c.clayer 1).size))

/-- One pass of the loop over the levels of the tower. -/
def makeTowerLevel (nSquared : ℤ) (psub1 fltTop : ℕ) (c : CMTCircuit) (k : ℕ) :
    Option CMTCircuit := do
  let i := k + 2
  -- the bit for the functions is not the one that `makeFLTGeneral` tests
  let bit := psub1.testBit (fltTop - i - 1)
  let c ← makeIntLevel (toInt (toInt (2 * nSquared) + 1)) (fltAdd bit) (fltMul bit) c
  let c := c.makeFLTGeneral psub1 0 ((c.clayer 0).size - 1) i
  pure (c.addToLastGate ((c.clayer 0).size - 1) (c.clayer 0).size 0)

/-- One pass of the loop that adds the powers up. -/
def makePowerSum (nSquared : ℤ) (c : CMTCircuit) (i : ℕ) : Option CMTCircuit := do
  let size := (nSquared / 2) >>> i
  let c ← makeIntLevel size zero zero c
  pure (c.makeReduceLayer .add 0 (c.clayer 0).size)

/-- `constructCircuit` without `useCmtPP`. -/
def constructCircuit (p d : ℕ) : Option CMTCircuit := do
  let n := toInt (2 ^ d % 2 ^ 64)
  let nSquared := toInt (n * n)
  let nCubed := toInt (nSquared * n)
  let psub1 := p - 1
  let fltDepth := getFLTDepth psub1
  -- both matrices, the claimed product and a zero
  let c ← makeIntLevel (toInt (toInt (3 * nSquared) + 1)) zero zero
    (makeShell (fltDepth + 3 + 3 * d))
  let c := c.addInGates (c.depth - 1) 0 (toInt (2 * nSquared)).toNat
  let c := c.addOutGates (c.depth - 1) (toInt (2 * nSquared)).toNat (toInt (3 * nSquared)).toNat
  -- all products of entries; the claimed product and the zero are carried up
  let c ← makeIntLevel (toInt (toInt (nCubed + nSquared) + 1)) matAdd63P3d matMult63P3d c
  let stop := ((c.clayer 0).size - nSquared - 1).toNat
  let c := c.setWirings 0 stop (productWiring d)
  let c := c.setWirings stop (c.clayer 0).size (carryWiring (c.clayer 0).size (c.clayer 1).size)
  let c ← (List.range d).foldlM (makeSumLevel d nSquared nCubed) c
  -- the product next to the claimed one
  let c ← makeIntLevel (toInt (nSquared + 1)) matAdd61P2d zero c
  let c := c.makeAddGates 0 nSquared.toNat nSquared.toNat
  let c := c.addToLastGate nSquared.toNat (c.clayer 0).size nSquared
  -- the squares
  let c ← makeIntLevel (toInt (nSquared + 1)) zero fltMulLvl1 c
  let c := c.makeMulGates 0 nSquared.toNat 0
  let c := c.addToLastGate nSquared.toNat (c.clayer 0).size 0
  -- running products beside powers, from here to the last level of the tower
  let c ← makeIntLevel (toInt (toInt (2 * nSquared) + 1)) fltAddLvl2 fltMulLvl2 c
  let c := c.makeFLTLvl2 0 (toInt (2 * nSquared)).toNat
  let last := (c.clayer 0).size - 1
  let before := (c.clayer 1).size - 1
  let c := c.setWirings last (last + 1) fun _ => ⟨.add, before, before⟩
  let c ← (List.range (fltDepth - 1 - 2)).foldlM
    (makeTowerLevel nSquared psub1 (fltDepth + 2 * d)) c
  let c ← makeIntLevel nSquared zero f0MultD c
  let c := c.makeFLTLast 0 nSquared.toNat
  -- the powers are added up
  (List.range (2 * d)).foldlM (makePowerSum nSquared) c

/-! ## The levels -/

section Levels

variable (p d N M : ℕ)

def inputLevel : CircuitLayer := .fresh (3 * N + 1) zero zero

def productLevel : CircuitLayer :=
  .blocks M (N + 1) matAdd63P3d matMult63P3d (productWiring d)
    (carryWiring (M + (N + 1)) (3 * N + 1))

def sumLevel (k : ℕ) : CircuitLayer :=
  .blocks (M / 2 ^ (k + 1)) (N + 1) (if k + 1 = d then matAdd61P2dp1 else matAddBelow63P3d) zero
    (pairWiring .add) (carryWiring (M / 2 ^ (k + 1) + (N + 1)) (M / 2 ^ k + (N + 1)))

/-- The sums and the claimed products. -/
def claimLevel : CircuitLayer :=
  .blocks N 1 matAdd61P2d zero (fun i => ⟨.add, i, N + i⟩) (lastWiring N (M / 2 ^ d + (N + 1)))

def squareLevel : CircuitLayer :=
  .blocks N 1 zero fltMulLvl1 (fun i => ⟨.mul, i, 0 + i⟩) (lastWiring 0 (N + 1))

def secondLevel : CircuitLayer :=
  .blocks (2 * N) 1 fltAddLvl2 fltMulLvl2 (secondWiring (N + 1)) fun _ => ⟨.add, N, N⟩

def towerLevel (k : ℕ) : CircuitLayer :=
  let bit := (p - 1).testBit (getFLTDepth (p - 1) + 2 * d - (k + 2) - 1)
  .blocks (2 * N) 1 (fltAdd bit) (fltMul bit) (towerWiring ((p - 1).testBit (k + 2)) (2 * N + 1))
    (lastWiring 0 (2 * N + 1))

def lastLevel : CircuitLayer := .blocks N 0 zero f0MultD (pairWiring .mul) (pairWiring .mul)

def powerSum (k : ℕ) : CircuitLayer :=
  .blocks ((N / 2) >>> k) 0 zero zero (pairWiring .add) (pairWiring .add)

/-- The levels up to the comparison with the claimed products. -/
def productLevels : List CircuitLayer :=
  claimLevel d N M :: (stack (sumLevel d N M) d ++ [productLevel d N M])

/-- The levels of the tower. -/
def towerLevels : List CircuitLayer :=
  lastLevel N :: (stack (towerLevel p d N) (getFLTDepth (p - 1) - 1 - 2) ++
    [secondLevel N, squareLevel N])

/-- The circuit that is built. -/
def sizedCircuit : CMTCircuit :=
  ofList 0 (stack (powerSum N) (2 * d) ++ towerLevels p d N ++ productLevels d N M ++
      [inputLevel N])
    (addGatesFromLevel [] (getFLTDepth (p - 1) + 3 * d + 2) 0 (2 * N))
    (addGatesFromLevel [] (getFLTDepth (p - 1) + 3 * d + 2) (2 * N) (3 * N))

end Levels

/-! ## The construction -/

/-- The variables hold the sizes `N` and `M`, and the sizes of the levels fit. -/
structure SizesFit (d N M : ℕ) : Prop where
  squared : toInt (toInt (2 ^ d % 2 ^ 64) * toInt (2 ^ d % 2 ^ 64)) = N
  cubed : toInt (N * toInt (2 ^ d % 2 ^ 64)) = M
  inputs : 3 * N + 1 < 2 ^ 31
  products : M + N + 1 < 2 ^ 31
  shifts : d < 64

section Construction

variable {p d N M : ℕ}

/-- The sizes of the levels. -/
theorem SizesFit.sizes (h : SizesFit d N M) :
    toInt (3 * N) = (3 * N : ℕ) ∧ toInt ((3 * N : ℕ) + 1) = (3 * N + 1 : ℕ) ∧
      toInt (2 * N) = (2 * N : ℕ) ∧ toInt ((2 * N : ℕ) + 1) = (2 * N + 1 : ℕ) ∧
      toInt (N + 1) = (N + 1 : ℕ) ∧ toInt (M + N) = (M + N : ℕ) ∧
      toInt ((M + N : ℕ) + 1) = (M + (N + 1) : ℕ) := by
  have hN := h.inputs
  have hMN := h.products
  exact ⟨toInt_of_lt (n := 3 * N) (by omega), toInt_of_lt (n := 3 * N + 1) (by omega),
    toInt_of_lt (n := 2 * N) (by omega), toInt_of_lt (n := 2 * N + 1) (by omega),
    toInt_of_lt (n := N + 1) (by omega), toInt_of_lt (n := M + N) (by omega),
    toInt_of_lt (n := M + N + 1) (by omega)⟩

theorem toNat_behind (a : ℕ) : (((a + (N + 1) : ℕ) : ℤ) - N - 1).toNat = a := by
  omega

theorem makeSumLevel_eq (h : SizesFit d N M) {k K : ℕ} (hk : k < d) {levels : List CircuitLayer}
    {ins outs : List (ℕ × ℕ)} (hsize : (levels.headD .empty).size = M / 2 ^ k + (N + 1)) :
    makeSumLevel d N M (ofList (K + 1) levels ins outs) k =
      some (ofList K (sumLevel d N M k :: levels) ins outs) := by
  have hshifts := h.shifts
  have hpow : (2 : ℤ) ^ (k + 1) % 2 ^ 64 = (2 ^ (k + 1) : ℕ) := by
    have hlt : (2 : ℕ) ^ (k + 1) < 2 ^ 64 := Nat.pow_lt_pow_right one_lt_two (by omega)
    rw [Nat.cast_pow]
    exact Int.emod_eq_of_lt (by positivity) (by exact_mod_cast hlt)
  have hne : ((2 ^ (k + 1) : ℕ) : ℤ) ≠ 0 := by positivity
  have hfit : toInt ((M : ℤ) / (2 ^ (k + 1) : ℕ) + N + 1) = (M / 2 ^ (k + 1) + (N + 1) : ℕ) := by
    have hle : M / 2 ^ (k + 1) ≤ M := Nat.div_le_self _ _
    have hMN := h.products
    rw [← Int.natCast_div]
    exact toInt_of_lt (n := M / 2 ^ (k + 1) + N + 1) (by omega)
  simp only [makeSumLevel, hpow, if_neg hne, hfit, makeIntLevel_natCast, makeLevel_ofList,
    Option.bind_eq_bind, Option.bind_some, makeReduceLayer, setWirings_ofList, clayer_ofList_zero,
    clayer_ofList_one, CircuitLayer.size_setWirings, CircuitLayer.size_fresh, toNat_behind, hsize,
    Option.pure_def]
  rfl

theorem makeTowerLevel_eq (h : SizesFit d N M) {k K : ℕ} {levels : List CircuitLayer}
    {ins outs : List (ℕ × ℕ)} (hsize : (levels.headD .empty).size = 2 * N + 1) :
    makeTowerLevel N (p - 1) (getFLTDepth (p - 1) + 2 * d) (ofList (K + 1) levels ins outs) k =
      some (ofList K (towerLevel p d N k :: levels) ins outs) := by
  obtain ⟨-, -, htwice, hdouble, -⟩ := h.sizes
  simp only [makeTowerLevel, htwice, hdouble, makeIntLevel_natCast, makeLevel_ofList,
    Option.bind_eq_bind, Option.bind_some, makeFLTGeneral, addToLastGate, setWirings_ofList,
    clayer_ofList_zero, clayer_ofList_one, CircuitLayer.size_setWirings, CircuitLayer.size_fresh,
    hsize, Option.pure_def, Nat.add_sub_cancel]
  rfl

theorem size_powerSum {k : ℕ} : (powerSum N k).size = N / 2 ^ (k + 1) := by
  rw [powerSum, CircuitLayer.size_blocks, Nat.add_zero, Nat.shiftRight_eq_div_pow,
    Nat.div_div_eq_div_mul, pow_succ']

theorem size_lastLevel : (lastLevel N).size = N / 2 ^ 0 := by
  rw [lastLevel, CircuitLayer.size_blocks, Nat.add_zero, pow_zero, Nat.div_one]

theorem makePowerSum_eq {k K : ℕ} {levels : List CircuitLayer} {ins outs : List (ℕ × ℕ)} :
    makePowerSum N (ofList (K + 1) levels ins outs) k =
      some (ofList K (powerSum N k :: levels) ins outs) := by
  have hhalf : ((N : ℤ) / 2) >>> k = (((N / 2) >>> k : ℕ) : ℤ) := rfl
  simp only [makePowerSum, hhalf, makeIntLevel_natCast, makeLevel_ofList, Option.bind_eq_bind,
    Option.bind_some, makeReduceLayer, setWirings_ofList, clayer_ofList_zero,
    CircuitLayer.size_fresh, Option.pure_def, powerSum, CircuitLayer.blocks_zero]
  rfl

/-- Everything up to the sums of the powers, over a shell with `e` levels to come. -/
theorem constructCircuit_run (h : SizesFit d N M) {e : ℕ}
    (hshell : getFLTDepth (p - 1) + 3 + 3 * d =
      e + 1 + (getFLTDepth (p - 1) - 1 - 2) + 1 + 1 + 1 + d + 1 + 1) :
    constructCircuit p d = (List.range (2 * d)).foldlM (makePowerSum N)
      (ofList e (towerLevels p d N ++ productLevels d N M ++ [inputLevel N])
        (addGatesFromLevel [] (getFLTDepth (p - 1) + 3 * d + 2) 0 (2 * N))
        (addGatesFromLevel [] (getFLTDepth (p - 1) + 3 * d + 2) (2 * N) (3 * N))) := by
  let ins := addGatesFromLevel [] (getFLTDepth (p - 1) + 3 * d + 2) 0 (2 * N)
  let outs := addGatesFromLevel [] (getFLTDepth (p - 1) + 3 * d + 2) (2 * N) (3 * N)
  obtain ⟨hthree, hinputs, htwo, hdouble, hsingle, hsum, hproducts⟩ := h.sizes
  -- the sums are built above the products
  have hsums := @foldlM_stack (makeSumLevel d N M) (sumLevel d N M)
    (fun k => M / 2 ^ k + (N + 1)) [productLevel d N M, inputLevel N] ins outs d
    (e + 1 + (getFLTDepth (p - 1) - 1 - 2) + 1 + 1 + 1)
    (by
      rw [pow_zero, Nat.div_one]
      exact CircuitLayer.size_blocks)
    (fun _ _ => CircuitLayer.size_blocks) fun i hi k levels hl => makeSumLevel_eq h hi hl
  have hsecond : (secondLevel N).size = 2 * N + 1 := CircuitLayer.size_blocks
  -- the tower above the first powers
  have htower := @foldlM_stack (makeTowerLevel N (p - 1) (getFLTDepth (p - 1) + 2 * d))
    (towerLevel p d N) (fun _ => 2 * N + 1)
    (secondLevel N :: squareLevel N :: claimLevel d N M ::
      (stack (sumLevel d N M) d ++ [productLevel d N M, inputLevel N])) ins outs
    (getFLTDepth (p - 1) - 1 - 2) (e + 1) hsecond
    (fun _ _ => CircuitLayer.size_blocks) fun i _ k levels hl => makeTowerLevel_eq h hl
  have hlevels : towerLevels p d N ++ productLevels d N M ++ [inputLevel N] =
      lastLevel N :: (stack (towerLevel p d N) (getFLTDepth (p - 1) - 1 - 2) ++
        (secondLevel N :: squareLevel N :: claimLevel d N M ::
          (stack (sumLevel d N M) d ++ [productLevel d N M, inputLevel N]))) := by
    simp [towerLevels, productLevels]
  rw [hlevels, constructCircuit, hshell, makeShell_eq_ofList]
  have hdepth : e + 1 + (getFLTDepth (p - 1) - 1 - 2) + 1 + 1 + 1 + d + 1 + 1 - 1 =
      getFLTDepth (p - 1) + 3 * d + 2 := by omega
  have hhead : ((stack (sumLevel d N M) d ++ [productLevel d N M, inputLevel N]).headD
      .empty).size = M / 2 ^ d + (N + 1) :=
    @size_headD_stack _ (fun k => M / 2 ^ k + (N + 1)) _ _
      (by
        rw [pow_zero, Nat.div_one]
        exact CircuitLayer.size_blocks)
      fun _ _ => CircuitLayer.size_blocks
  simp only [h.squared, h.cubed, hthree, hinputs, htwo, hdouble, hsingle, hsum, hproducts,
    makeIntLevel_natCast, Int.toNat_natCast, makeLevel_ofList, Option.bind_eq_bind,
    Option.bind_some, depth_ofList, List.length_singleton, addInGates_ofList, addOutGates_ofList,
    setWirings_ofList, clayer_ofList_zero, clayer_ofList_one, CircuitLayer.size_setWirings,
    CircuitLayer.size_fresh, List.headD_cons, hdepth, toNat_behind]
  refine (congrArg (Option.bind · _) hsums).trans ?_
  simp only [makeLevel_ofList, Option.bind_some, makeAddGates, makeMulGates, makeGates,
    addToLastGate, makeFLTLvl2, setWirings_ofList, clayer_ofList_zero, clayer_ofList_one,
    CircuitLayer.size_setWirings, CircuitLayer.size_fresh, List.headD_cons, hhead,
    Nat.add_sub_cancel]
  refine (congrArg (Option.bind · _) htower).trans ?_
  simp only [makeLevel_ofList, Option.bind_some, makeFLTLast, makeReduceLayer, setWirings_ofList]
  rw [← CircuitLayer.blocks_zero (pairWiring .mul)]
  rfl

/-- The circuit that is built, when the tower has a level to spare. -/
theorem constructCircuit_sized (h : SizesFit d N M) (hdepth : 3 ≤ getFLTDepth (p - 1)) :
    constructCircuit p d = some (sizedCircuit p d N M) := by
  have hpowers := @foldlM_stack (makePowerSum N) (powerSum N) (fun k => N / 2 ^ k)
    (towerLevels p d N ++ productLevels d N M ++ [inputLevel N])
    (addGatesFromLevel [] (getFLTDepth (p - 1) + 3 * d + 2) 0 (2 * N))
    (addGatesFromLevel [] (getFLTDepth (p - 1) + 3 * d + 2) (2 * N) (3 * N)) (2 * d) 0
    size_lastLevel (fun _ _ => size_powerSum)
    fun _ _ _ _ _ => makePowerSum_eq
  rw [Nat.zero_add] at hpowers
  rw [constructCircuit_run h (e := 2 * d) (by omega), hpowers, sizedCircuit]
  simp only [List.append_assoc]

/-- Modulo three there is no level left for the last sum. -/
theorem constructCircuit_three (h : SizesFit d N M) (hd : 1 ≤ d) : constructCircuit 3 d = none := by
  have hdepth : getFLTDepth (3 - 1) = 2 := by decide
  obtain ⟨m, hm⟩ : ∃ m, 2 * d = m + 1 := ⟨2 * d - 1, by omega⟩
  have hpowers := @foldlM_stack (makePowerSum N) (powerSum N) (fun k => N / 2 ^ k)
    (towerLevels 3 d N ++ productLevels d N M ++ [inputLevel N])
    (addGatesFromLevel [] (getFLTDepth (3 - 1) + 3 * d + 2) 0 (2 * N))
    (addGatesFromLevel [] (getFLTDepth (3 - 1) + 3 * d + 2) (2 * N) (3 * N)) m 0
    size_lastLevel (fun _ _ => size_powerSum)
    fun _ _ _ _ _ => makePowerSum_eq
  have hhalf : ((N : ℤ) / 2) >>> m = (((N / 2) >>> m : ℕ) : ℤ) := rfl
  rw [Nat.zero_add] at hpowers
  rw [constructCircuit_run h (e := m) (by rw [hdepth]; omega), hm, List.range_succ,
    List.foldlM_append, hpowers]
  simp only [List.foldlM_cons, makePowerSum, hhalf, makeIntLevel_natCast, makeLevel_ofList_zero,
    Option.bind_eq_bind, Option.bind_some, Option.bind_none]

end Construction

end Pepper.Cmtgkr.MatmulCircuit
