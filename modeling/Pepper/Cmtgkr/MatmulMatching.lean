import Pepper.Cmtgkr.MatmulLevels

/-!
# Which levels of the matrix multiplication circuit match

The levels of `MatmulLevels` in the circuit that `constructCircuit` leaves behind. Main result:
`originalLayout_matches`. No circuit in the original layout has predicates that match on all levels;
where the sizes fit, those are the levels up to the comparison with the claimed products.
-/

set_option autoImplicit false

open Pepper.Common.Gmp Pepper.Cmtgkr.Env Pepper.Cmtgkr.Layer
open Pepper.Cmtgkr.Layer.CMTCircuit
open Pepper.Cmtgkr.MatmulCmtPP (toInt makeIntLevel dvd_toInt)
open Pepper.Cmtgkr.HamdistCircuit (lastWiring pairWiring pairWiring_wired secondWiring towerWiring)

namespace Pepper.Cmtgkr.MatmulCircuit

/-! ## The sizes -/

section Sizes

variable {p d : ℕ}

/-- Up to dimension `2 ^ 10` the sizes fit. -/
theorem sizesFit (hd : d ≤ 10) : SizesFit d (2 ^ (2 * d)) (2 ^ (3 * d)) := by
  interval_cases d <;> exact ⟨by decide, by decide, by decide, by decide, by decide⟩

/-- From `2 ^ 11` on the cube has no bits below `2 ^ 32`. -/
theorem sizesFit_cubed (hd : 11 ≤ d) (hd' : d ≤ 14) : SizesFit d (2 ^ (2 * d)) 0 := by
  interval_cases d <;> exact ⟨by decide, by decide, by decide, by decide, by decide⟩

/-- From `2 ^ 16` on the square has none either. -/
theorem sizesFit_squared (hd : 16 ≤ d) (hd' : d < 64) : SizesFit d 0 0 := by
  have hn : (2 : ℤ) ^ 16 ∣ toInt (2 ^ d % 2 ^ 64) := by
    refine dvd_toInt (by decide) ?_
    rw [Int.emod_def]
    exact dvd_sub (pow_dvd_pow 2 hd) ((pow_dvd_pow 2 (by decide : 16 ≤ 64)).mul_right _)
  have hsquared := mul_dvd_mul hn hn
  rw [← pow_add] at hsquared
  refine ⟨Int.bmod_eq_zero_of_dvd hsquared, ?_, by decide, by decide, hd'⟩
  rw [Nat.cast_zero, zero_mul]
  rfl

/-- The size of the input level is negative in 32 bits. -/
theorem constructCircuit_fifteen : constructCircuit p 15 = none := by
  have hinputs : toInt (toInt (3 * toInt (toInt (2 ^ 15 % 2 ^ 64) * toInt (2 ^ 15 % 2 ^ 64))) + 1) <
      0 := by
    decide
  simp only [constructCircuit, makeIntLevel, if_neg (not_le.2 hinputs), Option.bind_eq_bind,
    Option.bind_none]

/-- The pass that divides by `powi(2, 64)`. -/
theorem constructCircuit_of_large (hd : 64 ≤ d) : constructCircuit p d = none := by
  have hpass : ∀ (nSquared nCubed : ℤ) (c : CMTCircuit),
      makeSumLevel d nSquared nCubed c 63 = none := fun _ _ _ => rfl
  have hloop := fun nSquared nCubed c =>
    HamdistCircuit.foldlM_eq_none (f := makeSumLevel d nSquared nCubed)
      (List.mem_range.mpr (show 63 < d by omega)) (hpass nSquared nCubed) c
  simp only [constructCircuit, hloop, Option.bind_eq_bind, Option.bind_none, Option.bind_fun_none]

/-- The sizes of a circuit that is built. -/
theorem exists_sizesFit {c : CMTCircuit} (hc : constructCircuit p d = some c) :
    ∃ N M, SizesFit d N M := by
  obtain h | h | rfl | h | h : d ≤ 10 ∨ 11 ≤ d ∧ d ≤ 14 ∨ d = 15 ∨ 16 ≤ d ∧ d < 64 ∨ 64 ≤ d := by
    omega
  · exact ⟨_, _, sizesFit h⟩
  · exact ⟨_, _, sizesFit_cubed h.1 h.2⟩
  · rw [constructCircuit_fifteen] at hc
    cases hc
  · exact ⟨_, _, sizesFit_squared h.1 h.2⟩
  · rw [constructCircuit_of_large h] at hc
    cases hc

end Sizes

/-! ## Levels that do not match -/

/-- The level stands on a level of `s` gates, and at some point a function that it comes with is not
the extension of its wiring. -/
def Differs (p : ℕ) (l : CircuitLayer) (s : ℕ) : Prop :=
  ∃ L : LayerPair, L.out = l ∧ L.inSize = s ∧ ∃ rand, ¬ SuppliedPredicates L p rand

section Differences

variable {p d N s : ℕ}

theorem differs_of_wired {l : CircuitLayer} (hwired : Wired l s) (hs : 0 < s) (hl : 0 < l.size)
    (h : ¬ Matches p l s) : Differs p l s := by
  let L : LayerPair := ⟨l, s, hs, hl, fun j hj => (hwired j hj).2⟩
  have hpoint : ¬ ∀ rand, SuppliedPredicates L p rand := fun hall => h ⟨L, rfl, rfl, hall⟩
  exact ⟨L, rfl, rfl, not_forall.1 hpoint⟩

/-- The gate that carries zero over the powers. -/
theorem lastWiring_wired (hs : N < s) : ∀ j < 1, (lastWiring 0 s (N + j)).type ≠ .divInt ∧
    (lastWiring 0 s (N + j)).in1 < s ∧ (lastWiring 0 s (N + j)).in2 < s := by
  intro j hj
  obtain rfl : j = 0 := by omega
  refine ⟨GateType.noConfusion, ?_, ?_⟩
  · dsimp only [lastWiring]
    omega
  · dsimp only [lastWiring]
    omega

variable [Fact p.Prime]

theorem squareLevel_differs : Differs p (squareLevel N) (N + 1) := by
  have hwired : Wired (squareLevel N) (N + 1) := by
    refine CircuitLayer.wired_blocks (fun j hj => ⟨GateType.noConfusion, ?_, ?_⟩)
      (lastWiring_wired (Nat.lt_succ_self N))
    · exact Nat.lt_succ_of_lt hj
    · dsimp only
      omega
  refine differs_of_wired hwired (Nat.succ_pos N) ?_ (squareLevel_not_matches _)
  rw [squareLevel, CircuitLayer.size_blocks]
  exact Nat.succ_pos N

theorem secondLevel_differs (hN : 0 < N) : Differs p (secondLevel N) (N + 1) := by
  have hwired : Wired (secondLevel N) (N + 1) := by
    refine CircuitLayer.wired_blocks (fun j hj => ?_) fun j hj => ⟨GateType.noConfusion,
      Nat.lt_succ_self N, Nat.lt_succ_self N⟩
    have hhalf : j >>> 1 < N + 1 := by
      rw [Nat.shiftRight_one]
      omega
    rw [secondWiring]
    split_ifs
    · exact ⟨GateType.noConfusion, hhalf, hhalf⟩
    · exact ⟨GateType.noConfusion, hhalf, Nat.lt_succ_self N⟩
  refine differs_of_wired hwired (Nat.succ_pos N) ?_ (secondLevel_not_matches hN)
  rw [secondLevel, CircuitLayer.size_blocks]
  exact Nat.succ_pos _

theorem towerLevel_differs (hp : p ≠ 2) (hN : 0 < N) (k : ℕ) :
    Differs p (towerLevel p d N k) (2 * N + 1) := by
  have hwired : Wired (towerLevel p d N k) (2 * N + 1) := by
    refine CircuitLayer.wired_blocks (fun j hj => ?_) (lastWiring_wired (Nat.lt_succ_self _))
    have hin1 : j < 2 * N + 1 := Nat.lt_succ_of_lt hj
    rw [towerWiring]
    split_ifs
    · exact ⟨GateType.noConfusion, hin1, hin1⟩
    · exact ⟨GateType.noConfusion, hin1, Nat.succ_lt_succ hj⟩
    · exact ⟨GateType.noConfusion, hin1, Nat.lt_succ_self _⟩
  refine differs_of_wired hwired (Nat.succ_pos _) ?_ (towerLevel_not_matches hp hN k)
  rw [towerLevel, CircuitLayer.size_blocks]
  exact Nat.succ_pos _

theorem lastLevel_differs (hp : p ≠ 2) {k : ℕ} (hk : 1 ≤ k) :
    Differs p (lastLevel (2 ^ k)) (2 * 2 ^ k + 1) := by
  have hwired : Wired (lastLevel (2 ^ k)) (2 * 2 ^ k + 1) :=
    CircuitLayer.wired_blocks (pairWiring_wired GateType.noConfusion (Nat.le_succ _))
      fun j hj => absurd hj (Nat.not_lt_zero j)
  refine differs_of_wired hwired (Nat.succ_pos _) ?_ (lastLevel_not_matches hp hk)
  rw [lastLevel, CircuitLayer.size_blocks]
  exact Nat.two_pow_pos k

theorem powerSum_differs {k : ℕ} (hk : 0 < (N / 2) >>> k) :
    Differs p (powerSum N k) (N / 2 ^ k) := by
  have hhalf : 2 * ((N / 2) >>> k) ≤ N / 2 ^ k := by
    rw [Nat.shiftRight_eq_div_pow, Nat.div_div_eq_div_mul, Nat.mul_comm 2 (2 ^ k),
      ← Nat.div_div_eq_div_mul]
    exact Nat.mul_div_le (N / 2 ^ k) 2
  have hwired : Wired (powerSum N k) (N / 2 ^ k) :=
    CircuitLayer.wired_blocks (pairWiring_wired GateType.noConfusion hhalf)
      fun j hj => absurd hj (Nat.not_lt_zero j)
  refine differs_of_wired hwired (by omega) ?_ (powerSum_not_matches hk _)
  rw [powerSum, CircuitLayer.size_blocks]
  exact hk

end Differences

/-! ## The stacks -/

section Stacks

variable {p d N M : ℕ}

theorem length_powers (hdepth : 3 ≤ getFLTDepth (p - 1)) :
    (stack (powerSum N) (2 * d) ++ towerLevels p d N).length = getFLTDepth (p - 1) + 2 * d := by
  simp only [towerLevels, List.length_append, List.length_cons, List.length_nil, length_stack]
  omega

theorem length_productLevels : (productLevels d N M).length = d + 2 := by
  simp only [productLevels, List.length_append, List.length_cons, List.length_nil, length_stack]

theorem depth_sizedCircuit (hdepth : 3 ≤ getFLTDepth (p - 1)) :
    (sizedCircuit p d N M).depth = getFLTDepth (p - 1) + 3 * d + 3 := by
  rw [sizedCircuit, depth_ofList, List.length_append, List.length_append, length_powers hdepth,
    length_productLevels, List.length_singleton]
  ring

theorem layer_sizedCircuit (lvl : ℕ) :
    (sizedCircuit p d N M).layer lvl =
      (stack (powerSum N) (2 * d) ++ towerLevels p d N ++
        (productLevels d N M ++ [inputLevel N])).getD lvl .empty := by
  rw [sizedCircuit, layer_ofList_zero, List.append_assoc]

/-- The level of the squares. -/
theorem layer_square (hdepth : 3 ≤ getFLTDepth (p - 1)) :
    (sizedCircuit p d N M).layer (getFLTDepth (p - 1) + 2 * d - 1) = squareLevel N := by
  let upper := stack (powerSum N) (2 * d) ++
    lastLevel N :: (stack (towerLevel p d N) (getFLTDepth (p - 1) - 1 - 2) ++ [secondLevel N])
  have hupper : stack (powerSum N) (2 * d) ++ towerLevels p d N = upper ++ [squareLevel N] := by
    simp [upper, towerLevels]
  have hlength : upper.length = getFLTDepth (p - 1) + 2 * d - 1 := by
    have h := length_powers (d := d) (N := N) hdepth
    rw [hupper, List.length_append, List.length_singleton] at h
    omega
  rw [layer_sizedCircuit, hupper, List.append_assoc, ← hlength,
    List.getD_append_right _ _ _ _ le_rfl, Nat.sub_self]
  rfl

/-- The level before it. -/
theorem layer_claim (hdepth : 3 ≤ getFLTDepth (p - 1)) :
    (sizedCircuit p d N M).layer (getFLTDepth (p - 1) + 2 * d) = claimLevel d N M := by
  rw [layer_sizedCircuit, ← length_powers (d := d) (N := N) hdepth,
    List.getD_append_right _ _ _ _ le_rfl, Nat.sub_self]
  rfl

/-- The levels up to the comparison with the claimed products. -/
theorem productLevels_stacked (hd : 1 ≤ d) :
    Stacked (Matches p) (3 * 2 ^ (2 * d) + 1) (2 ^ (2 * d) + 1)
      (productLevels d (2 ^ (2 * d)) (2 ^ (3 * d))) := by
  have hproducts : Stacked (Matches p) (3 * 2 ^ (2 * d) + 1)
      (2 ^ (3 * d) / 2 ^ 0 + (2 ^ (2 * d) + 1)) [productLevel d (2 ^ (2 * d)) (2 ^ (3 * d))] := by
    refine Stacked.nil.push (productLevel_matches hd) ?_
    rw [pow_zero, Nat.div_one]
    exact CircuitLayer.size_blocks
  have hsums : Stacked (Matches p) (2 ^ (3 * d) / 2 ^ 0 + (2 ^ (2 * d) + 1))
      (2 ^ (3 * d) / 2 ^ d + (2 ^ (2 * d) + 1))
      (stack (sumLevel d (2 ^ (2 * d)) (2 ^ (3 * d))) d) := by
    refine @Stacked.stack _ _ (fun k => 2 ^ (3 * d) / 2 ^ k + (2 ^ (2 * d) + 1)) _ fun k hk =>
      ⟨CircuitLayer.size_blocks, ?_⟩
    obtain hlast | hn : k + 1 = d ∨ 1 ≤ d - (k + 1) := by omega
    · exact sumLevel_matches_last hlast
    · exact sumLevel_matches hn (by omega)
  exact (hsums.append hproducts).push claimLevel_matches CircuitLayer.size_blocks

/-- The levels of the tower and of the sums of the powers. -/
theorem powers_stacked [Fact p.Prime] (hp : p ≠ 2) (hd : 1 ≤ d) :
    ∃ s, Stacked (Differs p) (2 ^ (2 * d) + 1) s
      (stack (powerSum (2 ^ (2 * d))) (2 * d) ++ towerLevels p d (2 ^ (2 * d))) := by
  have hpos : 0 < 2 ^ (2 * d) := Nat.two_pow_pos _
  have hsquare : Stacked (Differs p) (2 ^ (2 * d) + 1) (2 ^ (2 * d) + 1)
      [squareLevel (2 ^ (2 * d))] :=
    Stacked.nil.push squareLevel_differs CircuitLayer.size_blocks
  have hsecond : Stacked (Differs p) (2 ^ (2 * d) + 1) (2 * 2 ^ (2 * d) + 1)
      [secondLevel (2 ^ (2 * d)), squareLevel (2 ^ (2 * d))] :=
    hsquare.push (secondLevel_differs hpos) CircuitLayer.size_blocks
  have htower : Stacked (Differs p) (2 * 2 ^ (2 * d) + 1) (2 * 2 ^ (2 * d) + 1)
      (stack (towerLevel p d (2 ^ (2 * d))) (getFLTDepth (p - 1) - 1 - 2)) :=
    @Stacked.stack _ _ (fun _ => 2 * 2 ^ (2 * d) + 1) _ fun k _ =>
      ⟨CircuitLayer.size_blocks, towerLevel_differs hp hpos k⟩
  have hlast : Stacked (Differs p) (2 ^ (2 * d) + 1) (2 ^ (2 * d) / 2 ^ 0)
      (towerLevels p d (2 ^ (2 * d))) :=
    (htower.append hsecond).push (lastLevel_differs hp (by omega)) size_lastLevel
  -- each sum has at least one gate
  have hsums : Stacked (Differs p) (2 ^ (2 * d) / 2 ^ 0) _
      (stack (powerSum (2 ^ (2 * d))) (2 * d)) :=
    @Stacked.stack _ _ (fun k => 2 ^ (2 * d) / 2 ^ k) _ fun k hk => by
        refine ⟨size_powerSum, powerSum_differs ?_⟩
        have hhalf : 2 ^ (2 * d) / 2 = 2 ^ (2 * d - 1) := by
          rw [← Nat.pow_div (by omega) Nat.two_pos, pow_one]
        rw [hhalf, Nat.shiftRight_eq_div_pow]
        exact Nat.div_pos (Nat.pow_le_pow_right Nat.two_pos (by omega)) (Nat.two_pow_pos k)
  exact ⟨_, hsums.append hlast⟩

/-- Where the claimed products have not been compared yet, the predicates are the extensions. -/
theorem supplied_iff [Fact p.Prime] (hp : p ≠ 2) (hd : 1 ≤ d) (hdepth : 3 ≤ getFLTDepth (p - 1))
    {lvl : ℕ} (hlvl : lvl + 1 < (sizedCircuit p d (2 ^ (2 * d)) (2 ^ (3 * d))).depth) :
    ∃ L : LayerPair, L.out = (sizedCircuit p d (2 ^ (2 * d)) (2 ^ (3 * d))).layer lvl ∧
      L.inSize = ((sizedCircuit p d (2 ^ (2 * d)) (2 ^ (3 * d))).layer (lvl + 1)).size ∧
        ((∀ rand, SuppliedPredicates L p rand) ↔ getFLTDepth (p - 1) + 2 * d ≤ lvl) := by
  rw [depth_sizedCircuit hdepth] at hlvl
  rw [layer_sizedCircuit, layer_sizedCircuit]
  have hlength := length_powers (d := d) (N := 2 ^ (2 * d)) hdepth
  have hproducts := productLevels_stacked (p := p) hd
  have hinput : ([inputLevel (2 ^ (2 * d))].getD 0 .empty).size = 3 * 2 ^ (2 * d) + 1 := by
    rw [List.getD_cons_zero, inputLevel, CircuitLayer.size_fresh]
  rcases lt_or_ge lvl (getFLTDepth (p - 1) + 2 * d) with h | h
  · obtain ⟨s, hpowers⟩ := powers_stacked hp hd
    obtain ⟨L, hout, hin, rand, hrand⟩ :=
      hpowers.level (hproducts.size_head hinput) (by rwa [hlength])
    exact ⟨L, hout, hin, iff_of_false (fun hall => hrand (hall rand)) (not_le.2 h)⟩
  · obtain ⟨i, rfl⟩ := Nat.exists_eq_add_of_le h
    have hlower : ∀ (rest : List CircuitLayer) j,
        (stack (powerSum (2 ^ (2 * d))) (2 * d) ++ towerLevels p d (2 ^ (2 * d)) ++ rest).getD
          (getFLTDepth (p - 1) + 2 * d + j) .empty = rest.getD j .empty := by
      intro rest j
      rw [← hlength, List.getD_append_right _ _ _ _ (Nat.le_add_right _ _), Nat.add_sub_cancel_left]
    have hi : i < (productLevels d (2 ^ (2 * d)) (2 ^ (3 * d))).length := by
      rw [length_productLevels]
      omega
    obtain ⟨L, hout, hin, hall⟩ := hproducts.level hinput hi
    rw [hlower, Nat.add_assoc _ i 1, hlower]
    exact ⟨L, hout, hin, iff_of_true hall h⟩

end Stacks

/-! ## Every circuit -/

section Circuit

variable {p d : ℕ} [Fact p.Prime]

theorem three_le_getFLTDepth (hp : p ≠ 2) (hthree : p ≠ 3) : 3 ≤ getFLTDepth (p - 1) := by
  have hprime : p.Prime := Fact.out
  have hfour : p ≠ 4 := fun h => by
    rw [h] at hprime
    exact absurd hprime (by decide)
  have htwo := hprime.two_le
  exact HamdistCircuit.three_le_getFLTDepth (by omega)

/-- The circuit, if the tower has a level to spare. -/
theorem eq_sizedCircuit {N M : ℕ} (h : SizesFit d N M) (hp : p ≠ 2) (hd : 1 ≤ d) {c : CMTCircuit}
    (hc : constructCircuit p d = some c) :
    3 ≤ getFLTDepth (p - 1) ∧ c = sizedCircuit p d N M := by
  rcases eq_or_ne p 3 with rfl | hthree
  · rw [constructCircuit_three h hd] at hc
    cases hc
  · have hdepth := three_le_getFLTDepth hp hthree
    rw [constructCircuit_sized h hdepth, Option.some_inj] at hc
    exact ⟨hdepth, hc.symm⟩

theorem exists_constructCircuit_iff (hp : p ≠ 2) (hd : 1 ≤ d) :
    (∃ c, constructCircuit p d = some c) ↔ p ≠ 3 ∧ d ≠ 15 ∧ d < 64 := by
  constructor
  · rintro ⟨c, hc⟩
    obtain ⟨N, M, h⟩ := exists_sizesFit hc
    refine ⟨?_, ?_, h.shifts⟩
    · rintro rfl
      rw [constructCircuit_three h hd] at hc
      cases hc
    · rintro rfl
      rw [constructCircuit_fifteen] at hc
      cases hc
  · rintro ⟨hthree, hfifteen, hlarge⟩
    have hdepth := three_le_getFLTDepth hp hthree
    obtain h | h | h : d ≤ 10 ∨ 11 ≤ d ∧ d ≤ 14 ∨ 16 ≤ d := by omega
    · exact ⟨_, constructCircuit_sized (sizesFit h) hdepth⟩
    · exact ⟨_, constructCircuit_sized (sizesFit_cubed h.1 h.2) hdepth⟩
    · exact ⟨_, constructCircuit_sized (sizesFit_squared h hlarge) hdepth⟩

/-- A circuit in the original layout is built unless `p` is three, a size is negative or a power of
two vanishes. None has the extensions of its wiring on all levels: in dimensions up to `2 ^ 10` the
levels up to the comparison with the claimed products have them and all above do not. -/
theorem originalLayout_matches (hp : p ≠ 2) (hd : 1 ≤ d) :
    ((∃ c, constructCircuit p d = some c) ↔ p ≠ 3 ∧ d ≠ 15 ∧ d < 64) ∧
      ∀ c, constructCircuit p d = some c →
        (∃ lvl, lvl + 1 < c.depth ∧ ∃ L : LayerPair, L.out = c.layer lvl ∧
          L.inSize = (c.layer (lvl + 1)).size ∧ ∃ rand, ¬ SuppliedPredicates L p rand) ∧
        (d ≤ 10 → c.depth = getFLTDepth (p - 1) + 3 * d + 3 ∧
          ∀ lvl, lvl + 1 < c.depth → ∃ L : LayerPair, L.out = c.layer lvl ∧
            L.inSize = (c.layer (lvl + 1)).size ∧
              ((∀ rand, SuppliedPredicates L p rand) ↔ getFLTDepth (p - 1) + 2 * d ≤ lvl)) := by
  refine ⟨exists_constructCircuit_iff hp hd, fun c hc => ⟨?_, fun hint => ?_⟩⟩
  · obtain ⟨N, M, h⟩ := exists_sizesFit hc
    obtain ⟨hdepth, rfl⟩ := eq_sizedCircuit h hp hd hc
    have hlvl : getFLTDepth (p - 1) + 2 * d - 1 + 1 = getFLTDepth (p - 1) + 2 * d := by omega
    refine ⟨getFLTDepth (p - 1) + 2 * d - 1, ?_, ?_⟩
    · rw [depth_sizedCircuit hdepth]
      omega
    · -- the level of the squares
      rw [hlvl, layer_square hdepth, layer_claim hdepth, claimLevel, CircuitLayer.size_blocks]
      exact squareLevel_differs
  · obtain ⟨hdepth, rfl⟩ := eq_sizedCircuit (sizesFit hint) hp hd hc
    exact ⟨depth_sizedCircuit hdepth, fun lvl hlvl => supplied_iff hp hd hdepth hlvl⟩

/-- Modulo eleven, for two rows: the predicates of the first sums are the extensions, those of the
squares are not. -/
theorem originalLayout_matches_eleven :
    ∃ c, constructCircuit 11 1 = some c ∧ c.depth = 10 ∧
      (∃ L : LayerPair, L.out = c.layer 7 ∧ ∀ rand, SuppliedPredicates L 11 rand) ∧
        ∃ L : LayerPair, L.out = c.layer 5 ∧ ∃ rand, ¬ SuppliedPredicates L 11 rand := by
  have hprime : Fact (Nat.Prime 11) := ⟨by norm_num⟩
  obtain ⟨hbuilt, hlevels⟩ := originalLayout_matches (p := 11) (d := 1) (by decide) le_rfl
  obtain ⟨c, hc⟩ := hbuilt.2 (by decide)
  obtain ⟨hdepth, hsupplied⟩ := (hlevels c hc).2 (by decide)
  have htop : getFLTDepth (11 - 1) = 4 := by decide
  rw [htop] at hdepth hsupplied
  rw [hdepth] at hsupplied
  obtain ⟨L, hout, -, hiff⟩ := hsupplied 7 (by decide)
  obtain ⟨L', hout', -, hiff'⟩ := hsupplied 5 (by decide)
  exact ⟨c, hc, hdepth, ⟨L, hout, hiff.2 (by decide)⟩, L', hout',
    not_forall.1 fun hall => absurd (hiff'.1 hall) (by decide)⟩

/-- The circuit for two rows is built modulo eleven. Its level five adds a zero over the squares: at
the labels of this gate the extension of the additions is one and the function is zero. -/
theorem squares_not_matched :
    ∃ c, constructCircuit 11 1 = some c ∧ 5 + 1 < c.depth ∧ ∃ (L : LayerPair) (rand : Vec),
      L.out = c.layer 5 ∧ L.inSize = (c.layer 6).size ∧ L.out.gate 4 = ⟨.add, 4, 4⟩ ∧
        L.out.addFn = some zero ∧ wirePredicate L .add (castVec 11 rand) = 1 ∧
          ¬ SuppliedPredicates L 11 rand := by
  have hdepth : 3 ≤ getFLTDepth (11 - 1) := by decide
  have hlevel : getFLTDepth (11 - 1) + 2 * 1 = 6 := by decide
  have hsquare := layer_square (p := 11) (d := 1) (N := 2 ^ (2 * 1)) (M := 2 ^ (3 * 1)) hdepth
  have hclaim := layer_claim (p := 11) (d := 1) (N := 2 ^ (2 * 1)) (M := 2 ^ (3 * 1)) hdepth
  rw [hlevel] at hsquare hclaim
  have hgate : (squareLevel (2 ^ (2 * 1))).gate 4 = ⟨.add, 4, 4⟩ :=
    CircuitLayer.gate_blocks_right (j := 0) Nat.zero_lt_one
  have hprime : Fact (Nat.Prime 11) := ⟨by norm_num⟩
  obtain ⟨L, hout, hin, -⟩ := squareLevel_differs (p := 11) (N := 2 ^ (2 * 1))
  have hsize : L.out.size = 5 := by
    rw [hout, squareLevel, CircuitLayer.size_blocks]
    rfl
  have hfour : 4 < 2 ^ L.mip1 := by
    rw [LayerPair.mip1, hin]
    exact le_two_pow_log2i (2 ^ (2 * 1) + 1)
  -- the labels of the last gate and of its inputs
  have hwire : wirePredicate L .add
      (castVec 11 (joinPoint L.mi L.mip1 4 (labelVec 4) (labelVec 4))) = 1 := by
    rw [wirePredicate_joinPoint L .add (hsize ▸ Nat.lt_succ_self 4), hout, hgate,
      add_treatedAs_add, if_pos rfl, lagrange_labelVec hfour hfour, if_pos rfl, one_mul]
  refine ⟨_, constructCircuit_sized (sizesFit (by decide)) hdepth, ?_, L, _, ?_, ?_, ?_, ?_, hwire,
    fun h => ?_⟩
  · rw [depth_sizedCircuit hdepth]
    decide
  · rw [hout]
    exact hsquare.symm
  · rw [hin, hclaim, claimLevel, CircuitLayer.size_blocks]
  · rw [hout, hgate]
  · rw [hout]
    rfl
  · have hadd := h.1 zero (by rw [hout]; rfl)
    rw [hwire, cast_zero] at hadd
    exact zero_ne_one hadd

end Circuit

end Pepper.Cmtgkr.MatmulCircuit
