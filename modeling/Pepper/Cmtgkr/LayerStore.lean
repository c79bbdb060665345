import Pepper.Cmtgkr.Layer
import Pepper.Foundations.Simulation
import Std.Data.String.ToNat

/-!
# The out-of-core gate store

`CircuitData` keeps the gate values of some layers in a deque. When the estimate of its memory
exceeds the budget it evicts layers from the front, writing those that are dirty to a directory,
and it reads a layer back from there, or fills it with zeros, at the next access. The estimate
samples the sizes of random gates anew at each call.

`run_eq_map` states that the store answers like a map from gates to their last values as long as
the samples of the layers in memory are covered at every load (`EvictionsCovered`), and that `save`
leaves every loaded layer readable. Two samples of one layer can differ, and then the assertion
`usage >= layer.dataSize()` can fail (`evict_assert_fails`); `run_eq_map_iff` states that nothing
else goes wrong. Layers whose gates all have one size are always covered
(`evictionsCovered_of_uniform`).
-/

set_option autoImplicit false

namespace Pepper.Cmtgkr.LayerStore

open Pepper.Cmtgkr.Layer
open Pepper.Foundations.Simulation

universe u

variable {T : Type u}

/-! ## Layers and their files -/

def LAYER_DATA_HEADER : ℕ := 0x11111111

/-- What `save` writes: the header, the number of gates and the gates. -/
structure LayerFile (T : Type u) where
  header : ℕ
  size : ℕ
  gates : List T

abbrev Directory (T : Type u) := String → Option (LayerFile T)

structure LayerData (T : Type u) where
  layer : ℕ
  gates : List T
  isDirty : Bool
deriving DecidableEq

namespace LayerData

/-- The constructor `LayerData(layerIdx)`. -/
def fresh (layerIdx : ℕ) : LayerData T := ⟨layerIdx, [], false⟩

/-- `layerName` for a layer index. -/
def layerName (index : ℕ) : String := "layer_" ++ Nat.repr index

/-- Non-const `operator[]`, which the caller writes `v` through. -/
def setGate (l : LayerData T) (gate : ℕ) (v : T) : LayerData T :=
  { l with gates := l.gates.set gate v, isDirty := true }

/-- Non-const `operator[]`, which the caller only reads through. -/
def touch (l : LayerData T) : LayerData T := { l with isDirty := true }

def save (l : LayerData T) (dir : Directory T) : Directory T :=
  if l.isDirty then
    Function.update dir (layerName l.layer) (some ⟨LAYER_DATA_HEADER, l.gates.length, l.gates⟩)
  else dir

/-- `load`: the layer afterwards and whether the whole file could be read. The gates behind the
end of a short file keep the zeros of `resize`. -/
def load [Zero T] (l : LayerData T) (dir : Directory T) : LayerData T × Bool :=
  match dir (layerName l.layer) with
  | none => (l, false)
  | some file =>
      let read := file.gates.take file.size
      ({ l with
          gates := read ++ List.replicate (file.size - read.length) 0
          isDirty := false },
        decide (file.size ≤ file.gates.length))

def tryLoad [Zero T] (l : LayerData T) (dir : Directory T) (size : ℕ) : LayerData T :=
  let loaded := l.load dir
  if loaded.2 then loaded.1 else { loaded.1 with gates := List.replicate size 0 }

end LayerData

/-! ## The sampled size -/

/-- `sizeof(this)`. -/
def pointerSize : ℕ := 8

/-- `sizeOf` for `mpz_t`. -/
def sizeOfMpz (val : ℤ) : ℕ := sizeInBase2 val / 8 + 16

def numSamples : ℕ := 4

/-- `LayerData::dataSize` with the random numbers `draws` from position `pos` on, and the position
after it. Each sample overwrites the one before it, so the last one counts. -/
def dataSize [Zero T] (sizeOf : T → ℕ) (draws : ℕ → ℕ) (pos : ℕ) (l : LayerData T) : ℕ × ℕ :=
  if 0 < l.gates.length then
    let avg := sizeOf (l.gates.getD (draws (pos + (numSamples - 1)) % l.gates.length) 0)
    (avg * l.gates.length / numSamples + pointerSize, pos + numSamples)
  else (pointerSize, pos)

/-! ## The store -/

/-- The store, its directory and the number of random numbers drawn. -/
structure CircuitData (T : Type u) where
  layers : List (LayerData T)
  layerSizes : List ℕ
  budget : ℕ
  usage : ℕ
  dir : Directory T
  drawn : ℕ

namespace CircuitData

/-- An empty store over an empty directory. -/
def init (memBudget : ℕ) (sizes : List ℕ) : CircuitData T :=
  ⟨[], sizes, memBudget, 0, fun _ => none, 0⟩

variable [Zero T] (sizeOf : T → ℕ) (draws : ℕ → ℕ)

/-- `usage += layer.dataSize()` on a 64-bit `size_t`. -/
def addUsage (c : CircuitData T) (l : LayerData T) : CircuitData T :=
  let sample := dataSize sizeOf draws c.drawn l
  { c with usage := (c.usage + sample.1) % 2 ^ 64, drawn := sample.2 }

/-- `usage -= layer.dataSize()` on a 64-bit `size_t`. -/
def subUsage (c : CircuitData T) (l : LayerData T) : CircuitData T :=
  let sample := dataSize sizeOf draws c.drawn l
  { c with
    usage := (c.usage + (2 ^ 64 - sample.1 % 2 ^ 64)) % 2 ^ 64
    drawn := sample.2 }

def updateUsage (c : CircuitData T) : CircuitData T :=
  c.layers.foldl (addUsage sizeOf draws) { c with usage := 0 }

/-- `shouldEvict(true)` for a deque of `numLayers` layers. -/
def shouldEvict (c : CircuitData T) (numLayers : ℕ) : Bool :=
  decide (1 < numLayers) && decide (c.budget < c.usage)

/-- The eviction loop of `load` over the deque; `none` is the failed assertion. -/
def evict (c : CircuitData T) : List (LayerData T) → Option (CircuitData T)
  | [] => some { c with layers := [] }
  | layer :: rest =>
      if c.shouldEvict (layer :: rest).length then
        let asserted := dataSize sizeOf draws c.drawn layer
        if asserted.1 ≤ c.usage then
          let saved := { c with dir := layer.save c.dir, drawn := asserted.2 }
          evict (subUsage sizeOf draws saved layer) rest
        else none
      else some { c with layers := layer :: rest }

def load (c : CircuitData T) (layerIdx : ℕ) : Option (CircuitData T) :=
  let updated := updateUsage sizeOf draws c
  (evict sizeOf draws updated updated.layers).map fun c =>
    let newLayer := (LayerData.fresh layerIdx).tryLoad c.dir (c.layerSizes.getD layerIdx 0)
    addUsage sizeOf draws { c with layers := c.layers ++ [newLayer] } newLayer

/-- `operator[]`; the reference it returns is to the layer with that index. -/
def access (c : CircuitData T) (layerIdx : ℕ) : Option (CircuitData T) :=
  if layerIdx < c.layerSizes.length then
    if c.layers.any fun l => l.layer == layerIdx then some c
    else load sizeOf draws c layerIdx
  else none

omit [Zero T] in
/-- Gate `gate` of the layer a reference points to. -/
def gate (c : CircuitData T) (layerIdx gate : ℕ) : Option T :=
  (c.layers.find? fun l => l.layer == layerIdx).bind fun l => l.gates[gate]?

omit [Zero T] in
/-- Change of the layer a reference points to. -/
def modify (c : CircuitData T) (layerIdx : ℕ) (f : LayerData T → LayerData T) : CircuitData T :=
  { c with layers := c.layers.map fun l => if l.layer = layerIdx then f l else l }

omit [Zero T] in
def save (c : CircuitData T) : CircuitData T :=
  { c with dir := c.layers.foldl (fun dir l => l.save dir) c.dir }

end CircuitData

/-! ## Sessions -/

/-- What a caller does with the store: `get` and `set` go through the reference that the last
`access` returned, `get` through its const or its non-const `operator[]`. -/
inductive Request (T : Type u) where
  | access (layer : ℕ)
  | get (viaConst : Bool) (gate : ℕ)
  | set (gate : ℕ) (v : T)
  | setBudget (newBudget : ℕ)
  | save

/-- The store and the layer of the last reference. -/
structure Session (T : Type u) where
  data : CircuitData T
  reference : Option ℕ

def Session.init (memBudget : ℕ) (sizes : List ℕ) : Session T :=
  ⟨CircuitData.init memBudget sizes, none⟩

/-- One request; the answer to a `get` is the gate. `none` is a failed assertion, and a `get` or
`set` without a reference or behind the end of the layer. -/
def Session.step [Zero T] (sizeOf : T → ℕ) (draws : ℕ → ℕ) (s : Session T) :
    Request T → Option (Session T × Option T)
  | .access layer =>
      (s.data.access sizeOf draws layer).map fun c => (⟨c, some layer⟩, none)
  | .get viaConst gate =>
      s.reference.bind fun layer => (s.data.gate layer gate).map fun v =>
        (if viaConst then s else ⟨s.data.modify layer LayerData.touch, s.reference⟩, some v)
  | .set gate v =>
      s.reference.bind fun layer => (s.data.gate layer gate).map fun _ =>
        (⟨s.data.modify layer fun l => l.setGate gate v, s.reference⟩, none)
  | .setBudget newBudget => some (⟨{ s.data with budget := newBudget }, s.reference⟩, none)
  | .save => some (⟨s.data.save, s.reference⟩, none)

/-! ## The map it stands for -/

/-- A value for every gate of every layer, and the layer of the last reference. -/
structure GateMap (T : Type u) where
  value : ℕ → ℕ → T
  reference : Option ℕ

def GateMap.init [Zero T] : GateMap T := ⟨fun _ _ => 0, none⟩

/-- The same requests on a map; `none` is a request outside the sizes. -/
def GateMap.step (sizes : List ℕ) (m : GateMap T) : Request T → Option (GateMap T × Option T)
  | .access layer =>
      if layer < sizes.length then some (⟨m.value, some layer⟩, none) else none
  | .get _ gate =>
      m.reference.bind fun layer =>
        if gate < sizes.getD layer 0 then some (m, some (m.value layer gate)) else none
  | .set gate v =>
      m.reference.bind fun layer =>
        if gate < sizes.getD layer 0 then
          some (⟨Function.update m.value layer (Function.update (m.value layer) gate v),
            m.reference⟩, none)
        else none
  | .setBudget _ => some (m, none)
  | .save => some (m, none)

/-! ## Files round-trip -/

theorem layerName_injective : Function.Injective LayerData.layerName := by
  intro a b h
  have hlist : "layer_".toList ++ (Nat.repr a).toList =
      "layer_".toList ++ (Nat.repr b).toList := by
    rw [← String.toList_append, ← String.toList_append]
    exact congrArg String.toList h
  exact Nat.repr_injective (String.toList_inj.1 (List.append_cancel_left hlist))

/-- Layer `index` reads back from the directory with the gates `gates`. -/
def Readable [Zero T] (dir : Directory T) (index : ℕ) (gates : List T) : Prop :=
  (LayerData.fresh index).tryLoad dir gates.length = ⟨index, gates, false⟩

section Files

variable [Zero T] (dir : Directory T)

theorem tryLoad_of_none {index : ℕ} (h : dir (LayerData.layerName index) = none) (size : ℕ) :
    (LayerData.fresh index).tryLoad dir size = ⟨index, List.replicate size 0, false⟩ := by
  simp [LayerData.tryLoad, LayerData.load, LayerData.fresh, h]

theorem tryLoad_of_file {index : ℕ} {gates : List T}
    (h : dir (LayerData.layerName index) = some ⟨LAYER_DATA_HEADER, gates.length, gates⟩)
    (size : ℕ) : (LayerData.fresh index).tryLoad dir size = ⟨index, gates, false⟩ := by
  simp [LayerData.tryLoad, LayerData.load, LayerData.fresh, h]

theorem readable_congr {dir dir' : Directory T} {index : ℕ}
    (h : dir' (LayerData.layerName index) = dir (LayerData.layerName index)) (gates : List T) :
    Readable dir' index gates ↔ Readable dir index gates := by
  have hload : (LayerData.fresh index).load dir' = (LayerData.fresh index).load dir := by
    have hname : (LayerData.fresh index : LayerData T).layer = index := rfl
    rw [LayerData.load, LayerData.load, hname, h]
  rw [Readable, Readable, LayerData.tryLoad, LayerData.tryLoad, hload]

/-- A dirty layer reads back after it is saved. -/
theorem readable_save {l : LayerData T} (hdirty : l.isDirty = true) :
    Readable (l.save dir) l.layer l.gates := by
  refine tryLoad_of_file _ ?_ _
  rw [LayerData.save, if_pos hdirty, Function.update_self]

omit [Zero T] in
theorem save_apply_of_ne {l : LayerData T} {index : ℕ} (h : index ≠ l.layer) :
    l.save dir (LayerData.layerName index) = dir (LayerData.layerName index) := by
  rw [LayerData.save]
  split
  · exact Function.update_of_ne (fun heq => h (layerName_injective heq)) _ _
  · rfl

/-- Saving a layer keeps what could be read before, except the layer itself if it is dirty. -/
theorem readable_save_of_readable {l : LayerData T} {index : ℕ} {gates : List T}
    (h : Readable dir index gates) (hclean : index = l.layer → l.isDirty = false) :
    Readable (l.save dir) index gates := by
  by_cases hindex : index = l.layer
  · have hkeep : l.save dir = dir := by
      rw [LayerData.save, hclean hindex]
      rfl
    rwa [hkeep]
  · exact (readable_congr (save_apply_of_ne dir hindex) gates).2 h

end Files

/-! ## What the deque and the directory stand for -/

/-- The gates of layer `k` under `value`. -/
def contents (sizes : List ℕ) (value : ℕ → ℕ → T) (k : ℕ) : List T :=
  (List.range (sizes.getD k 0)).map (value k)

@[simp] theorem contents_length (sizes : List ℕ) (value : ℕ → ℕ → T) (k : ℕ) :
    (contents sizes value k).length = sizes.getD k 0 := by
  simp [contents]

/-- Loaded layers hold their gates, and every layer that is not dirty in memory reads back from
the directory. -/
structure Represents [Zero T] (sizes : List ℕ) (layers : List (LayerData T))
    (dir : Directory T) (value : ℕ → ℕ → T) : Prop where
  nodup : (layers.map LayerData.layer).Nodup
  loaded : ∀ l ∈ layers, l.gates = contents sizes value l.layer
  stored : ∀ k, (∀ l ∈ layers, l.layer = k → l.isDirty = false) →
    Readable dir k (contents sizes value k)

section Store

variable [Zero T] {sizes : List ℕ} {layers : List (LayerData T)} {dir : Directory T}
  {value : ℕ → ℕ → T}

theorem represents_init : Represents (T := T) sizes [] (fun _ => none) fun _ _ => 0 where
  nodup := List.nodup_nil
  loaded l hl := absurd hl List.not_mem_nil
  stored k _ := by
    refine (tryLoad_of_none _ rfl _).trans ?_
    simp [contents, List.map_const']

/-- Eviction: the front layer is saved and leaves the deque. -/
theorem Represents.evict_front {layer : LayerData T} {rest : List (LayerData T)}
    (h : Represents sizes (layer :: rest) dir value) :
    Represents sizes rest (layer.save dir) value where
  nodup := (List.nodup_cons.1 h.nodup).2
  loaded l hl := h.loaded l (List.mem_cons_of_mem layer hl)
  stored k hk := by
    by_cases hdirty : k = layer.layer ∧ layer.isDirty = true
    · obtain ⟨rfl, hdirty⟩ := hdirty
      rw [← h.loaded layer List.mem_cons_self]
      exact readable_save dir hdirty
    · have hclean : k = layer.layer → layer.isDirty = false := fun heq =>
        Bool.eq_false_iff.2 fun htrue => hdirty ⟨heq, htrue⟩
      refine readable_save_of_readable dir (h.stored k ?_) hclean
      intro l hl hlk
      rcases List.mem_cons.1 hl with rfl | hl
      · exact hclean hlk.symm
      · exact hk l hl hlk

/-- Loading: a layer that is not in the deque comes back clean at its end. -/
theorem Represents.push_back (h : Represents sizes layers dir value) {k : ℕ}
    (hk : ∀ l ∈ layers, l.layer ≠ k) :
    Represents sizes
      (layers ++ [(LayerData.fresh k).tryLoad dir (sizes.getD k 0)]) dir value := by
  have hload : (LayerData.fresh k).tryLoad dir (sizes.getD k 0) =
      ⟨k, contents sizes value k, false⟩ := by
    have := h.stored k fun l hl hlk => absurd hlk (hk l hl)
    rwa [Readable, contents_length] at this
  rw [hload]
  refine ⟨?_, ?_, ?_⟩
  · rw [List.map_append, List.nodup_append]
    refine ⟨h.nodup, List.nodup_singleton _, ?_⟩
    intro a ha b hb
    obtain ⟨l, hl, rfl⟩ := List.mem_map.1 ha
    rw [List.map_singleton, List.mem_singleton] at hb
    rw [hb]
    exact hk l hl
  · intro l hl
    rcases List.mem_append.1 hl with hl | hl
    · exact h.loaded l hl
    · rw [List.mem_singleton.1 hl]
  · intro j hj
    exact h.stored j fun l hl => hj l (List.mem_append_left _ hl)

/-- Saving all layers keeps the picture and makes every layer readable. -/
theorem Represents.save_all (h : Represents sizes layers dir value) (k : ℕ) :
    Readable (layers.foldl (fun dir l => l.save dir) dir) k (contents sizes value k) := by
  induction layers generalizing dir with
  | nil => exact h.stored k fun l hl => absurd hl List.not_mem_nil
  | cons layer rest ih => exact ih h.evict_front

end Store

/-! ## Evictions and their assertion -/

section Samples

variable [Zero T] (sizeOf : T → ℕ) (draws : ℕ → ℕ)

/-- The size of a layer by the gate that the number `x` picks. -/
def sizeBy (l : LayerData T) (x : ℕ) : ℕ :=
  if 0 < l.gates.length then
    sizeOf (l.gates.getD (x % l.gates.length) 0) * l.gates.length / numSamples + pointerSize
  else pointerSize

omit [Zero T] in
/-- How many random numbers one sample of a layer takes. -/
def numDraws (l : LayerData T) : ℕ := if 0 < l.gates.length then numSamples else 0

omit [Zero T] in
def totalDraws (layers : List (LayerData T)) : ℕ := (layers.map numDraws).sum

/-- The sizes of the layers when each is sampled once, from position `pos` on. -/
def sampledSizes (pos : ℕ) : List (LayerData T) → List ℕ
  | [] => []
  | l :: rest =>
      sizeBy sizeOf l (draws (pos + (numSamples - 1))) :: sampledSizes (pos + numDraws l) rest

/-- The sizes of the layers when each is sampled twice, from position `pos` on. -/
def sampledPairs (pos : ℕ) : List (LayerData T) → List (ℕ × ℕ)
  | [] => []
  | l :: rest =>
      (sizeBy sizeOf l (draws (pos + (numSamples - 1))),
          sizeBy sizeOf l (draws (pos + numDraws l + (numSamples - 1)))) ::
        sampledPairs (pos + numDraws l + numDraws l) rest

/-- What is left of a sum of sizes, in 64 bits, when the second sizes of the first `i` layers are
taken away. -/
def leftOver (total : ℕ) (pairs : List (ℕ × ℕ)) (i : ℕ) : ℤ :=
  (total - ((pairs.take i).map Prod.snd).sum : ℤ) % 2 ^ 64

/-- From `total` on, as long as more than the budget is left and a layer would stay, the first
size of the next layer is at most what is left. -/
def PairsCovered (budget total : ℕ) (pairs : List (ℕ × ℕ)) : Prop :=
  ∀ i, i + 1 < pairs.length → (∀ j ≤ i, (budget : ℤ) < leftOver total pairs j) →
    ((pairs.getD i (0, 0)).1 : ℤ) ≤ leftOver total pairs i

/-- The condition on the layers in memory: with their sum taken from one sample of each layer, two
further samples of each layer stay covered. -/
def EvictionsCovered (budget pos : ℕ) (layers : List (LayerData T)) : Prop :=
  PairsCovered budget (sampledSizes sizeOf draws pos layers).sum
    (sampledPairs sizeOf draws (pos + totalDraws layers) layers)

/-- The condition on a request: for an access to a layer that is not in memory, the layers in
memory are covered. -/
def Covered (s : Session T) : Request T → Prop
  | .access layer =>
      (s.data.layers.any fun l => l.layer == layer) = false →
        EvictionsCovered sizeOf draws s.data.budget s.data.drawn s.data.layers
  | _ => True

end Samples

section Eviction

variable [Zero T] {sizeOf : T → ℕ} {draws : ℕ → ℕ}

theorem dataSize_eq (pos : ℕ) (l : LayerData T) :
    dataSize sizeOf draws pos l =
      (sizeBy sizeOf l (draws (pos + (numSamples - 1))), pos + numDraws l) := by
  rw [dataSize, sizeBy, numDraws]
  split <;> rfl

theorem length_sampledPairs (pos : ℕ) (layers : List (LayerData T)) :
    (sampledPairs sizeOf draws pos layers).length = layers.length := by
  induction layers generalizing pos with
  | nil => rfl
  | cons l rest ih => rw [sampledPairs, List.length_cons, List.length_cons, ih]

theorem leftOver_zero {total : ℕ} (htotal : total < 2 ^ 64) (pairs : List (ℕ × ℕ)) :
    leftOver total pairs 0 = total := by
  rw [leftOver, List.take_zero, List.map_nil, List.sum_nil, Nat.cast_zero, sub_zero]
  exact Int.emod_eq_of_lt (by positivity) (by exact_mod_cast htotal)

/-- `leftOver` only depends on the sum in 64 bits. -/
theorem leftOver_mod (total : ℕ) (pairs : List (ℕ × ℕ)) (i : ℕ) :
    leftOver (total % 2 ^ 64) pairs i = leftOver total pairs i := by
  rw [leftOver, leftOver]
  push_cast
  rw [Int.emod_sub_emod]

/-- Subtraction in 64 bits, followed by what is taken later. -/
theorem leftOver_succ (total : ℕ) (a b : ℕ) (pairs : List (ℕ × ℕ)) (i : ℕ) :
    leftOver ((total + (2 ^ 64 - b % 2 ^ 64)) % 2 ^ 64) pairs i =
      leftOver total ((a, b) :: pairs) (i + 1) := by
  rw [leftOver_mod, leftOver, leftOver, List.take_succ_cons, List.map_cons, List.sum_cons]
  have hb : b % 2 ^ 64 ≤ 2 ^ 64 := (Nat.mod_lt b (by positivity)).le
  have hmod := Int.emod_add_mul_ediv (b : ℤ) (2 ^ 64)
  have hcast : ((total + (2 ^ 64 - b % 2 ^ 64) : ℕ) : ℤ) = total + (2 ^ 64 - b % 2 ^ 64) := by
    rw [Nat.cast_add, Nat.cast_sub hb, Nat.cast_pow, Int.natCast_emod, Nat.cast_pow]
    rfl
  rw [hcast, Nat.cast_add]
  generalize (((pairs.take i).map Prod.snd).sum : ℤ) = taken
  have hsplit : (total : ℤ) + (2 ^ 64 - b % 2 ^ 64) - taken =
      total - (b + taken) + 2 ^ 64 * (1 + b / 2 ^ 64) := by
    linarith
  rw [hsplit, Int.add_mul_emod_self_left]

theorem pairsCovered_cons {budget total a b : ℕ} {pairs : List (ℕ × ℕ)} (htotal : total < 2 ^ 64)
    (hnext : pairs ≠ []) (hbudget : budget < total) :
    PairsCovered budget total ((a, b) :: pairs) ↔
      a ≤ total ∧
        PairsCovered budget ((total + (2 ^ 64 - b % 2 ^ 64)) % 2 ^ 64) pairs := by
  have hlength : 0 < pairs.length := List.length_pos_iff.2 hnext
  constructor
  · intro h
    constructor
    · have h0 := h 0 (by simpa using hlength) fun j hj => by
        rw [Nat.le_zero.1 hj, leftOver_zero htotal]
        exact_mod_cast hbudget
      rw [leftOver_zero htotal] at h0
      exact_mod_cast h0
    · intro i hi hj
      rw [leftOver_succ total a b]
      refine h (i + 1) (by simpa using hi) fun j hji => ?_
      cases j with
      | zero =>
          rw [leftOver_zero htotal]
          exact_mod_cast hbudget
      | succ j =>
          rw [← leftOver_succ]
          exact hj j (Nat.le_of_succ_le_succ hji)
  · rintro ⟨ha, h⟩ i hi hj
    cases i with
    | zero =>
        rw [leftOver_zero htotal]
        exact_mod_cast ha
    | succ i =>
        rw [← leftOver_succ]
        refine h i (by simpa using hi) fun j hji => ?_
        rw [leftOver_succ total a b]
        exact hj (j + 1) (Nat.succ_le_succ hji)

/-- The eviction loop gets through exactly when the samples of the layers are covered. -/
theorem evict_isSome_iff (c : CircuitData T) (layers : List (LayerData T))
    (husage : c.usage < 2 ^ 64) :
    (∃ c', CircuitData.evict sizeOf draws c layers = some c') ↔
      PairsCovered c.budget c.usage (sampledPairs sizeOf draws c.drawn layers) := by
  induction layers generalizing c with
  | nil => exact ⟨fun _ i hi => absurd hi (Nat.not_lt_zero _), fun _ => ⟨_, rfl⟩⟩
  | cons layer rest ih =>
      rw [CircuitData.evict]
      by_cases hevict : c.shouldEvict (layer :: rest).length = true
      · rw [if_pos hevict, dataSize_eq]
        rw [CircuitData.shouldEvict, Bool.and_eq_true, decide_eq_true_eq, decide_eq_true_eq] at hevict
        have hnext : sampledPairs sizeOf draws (c.drawn + numDraws layer + numDraws layer) rest ≠
            [] := by
          rw [← List.length_pos_iff, length_sampledPairs]
          exact Nat.lt_of_succ_lt_succ hevict.1
        rw [sampledPairs, pairsCovered_cons husage hnext hevict.2]
        by_cases hassert : sizeBy sizeOf layer (draws (c.drawn + (numSamples - 1))) ≤ c.usage
        · dsimp only
          rw [if_pos hassert, ih _ (Nat.mod_lt _ (by positivity))]
          simp only [CircuitData.subUsage, dataSize_eq, hassert, true_and]
        · dsimp only
          rw [if_neg hassert]
          exact ⟨fun h => absurd h (by simp), fun h => absurd h.1 hassert⟩
      · rw [if_neg hevict]
        refine ⟨fun _ i hi hj => ?_, fun _ => ⟨_, rfl⟩⟩
        -- the loop has stopped, so the budget is kept or one layer is left
        exfalso
        rw [length_sampledPairs] at hi
        have hbudget := hj 0 (Nat.zero_le i)
        rw [leftOver_zero husage] at hbudget
        refine hevict ?_
        rw [CircuitData.shouldEvict, Bool.and_eq_true, decide_eq_true_eq, decide_eq_true_eq]
        exact ⟨by omega, by exact_mod_cast hbudget⟩

/-- The estimate sums one sample of every layer and changes nothing else. -/
theorem updateUsage_spec (c : CircuitData T) :
    CircuitData.updateUsage sizeOf draws c =
      { c with
        usage := (sampledSizes sizeOf draws c.drawn c.layers).sum % 2 ^ 64
        drawn := c.drawn + totalDraws c.layers } := by
  have hfold : ∀ (ls : List (LayerData T)) (d : CircuitData T), d.usage < 2 ^ 64 →
      ls.foldl (CircuitData.addUsage sizeOf draws) d =
        { d with
          usage := (d.usage + (sampledSizes sizeOf draws d.drawn ls).sum) % 2 ^ 64
          drawn := d.drawn + totalDraws ls } := by
    intro ls
    induction ls with
    | nil =>
        intro d hd
        have husage : d.usage % 2 ^ 64 = d.usage := Nat.mod_eq_of_lt hd
        simp only [List.foldl_nil, sampledSizes, totalDraws, List.map_nil, List.sum_nil,
          Nat.add_zero, husage]
    | cons l ls ih =>
        intro d _
        rw [List.foldl_cons, ih _ (Nat.mod_lt _ (by positivity))]
        simp only [CircuitData.addUsage, dataSize_eq, sampledSizes, totalDraws, List.map_cons,
          List.sum_cons, Nat.mod_add_mod, Nat.add_assoc]
  rw [CircuitData.updateUsage, hfold _ _ (by positivity)]
  simp

/-- The eviction loop of a load gets through exactly when the layers in memory are covered. -/
theorem evict_updateUsage_isSome_iff (c : CircuitData T) :
    (∃ c', CircuitData.evict sizeOf draws (CircuitData.updateUsage sizeOf draws c) c.layers =
        some c') ↔
      EvictionsCovered sizeOf draws c.budget c.drawn c.layers := by
  rw [evict_isSome_iff _ _ (by rw [updateUsage_spec]; exact Nat.mod_lt _ (by positivity)),
    updateUsage_spec, EvictionsCovered, PairsCovered, PairsCovered]
  simp only [leftOver_mod]

/-- Layers whose gates all have one size are covered, whatever the samples. -/
theorem evictionsCovered_of_uniform (budget pos : ℕ) {layers : List (LayerData T)}
    (hsize : ∀ l ∈ layers, ∀ x, sizeBy sizeOf l x = sizeBy sizeOf l 0)
    (htotal : (layers.map fun l => sizeBy sizeOf l 0).sum < 2 ^ 64) :
    EvictionsCovered sizeOf draws budget pos layers := by
  have hsizes : ∀ (ls : List (LayerData T)) (pos : ℕ), (∀ l ∈ ls, l ∈ layers) →
      sampledSizes sizeOf draws pos ls = ls.map fun l => sizeBy sizeOf l 0 := by
    intro ls
    induction ls with
    | nil => exact fun _ _ => rfl
    | cons l rest ih =>
        intro pos hmem
        rw [sampledSizes, List.map_cons, hsize l (hmem l List.mem_cons_self),
          ih _ fun l' hl' => hmem l' (List.mem_cons_of_mem l hl')]
  have hpairs : ∀ (ls : List (LayerData T)) (pos : ℕ), (∀ l ∈ ls, l ∈ layers) →
      sampledPairs sizeOf draws pos ls =
        ls.map fun l => (sizeBy sizeOf l 0, sizeBy sizeOf l 0) := by
    intro ls
    induction ls with
    | nil => exact fun _ _ => rfl
    | cons l rest ih =>
        intro pos hmem
        have hl := hsize l (hmem l List.mem_cons_self)
        rw [sampledPairs, List.map_cons, hl, hl (draws (pos + numDraws l + (numSamples - 1))),
          ih _ fun l' hl' => hmem l' (List.mem_cons_of_mem l hl')]
  rw [EvictionsCovered, hsizes layers _ fun l hl => hl, hpairs layers _ fun l hl => hl]
  intro i hi _
  rw [List.length_map] at hi
  have hlt : i < layers.length := by omega
  -- what is left is the sum over the layers that are still there
  have hleft : leftOver (layers.map fun l => sizeBy sizeOf l 0).sum
      (layers.map fun l => (sizeBy sizeOf l 0, sizeBy sizeOf l 0)) i =
        ((layers.drop i).map fun l => sizeBy sizeOf l 0).sum := by
    have hsum := List.sum_take_add_sum_drop (layers.map fun l => sizeBy sizeOf l 0) i
    have htaken : (((layers.map fun l => (sizeBy sizeOf l 0, sizeBy sizeOf l 0)).take i).map
        Prod.snd).sum = ((layers.map fun l => sizeBy sizeOf l 0).take i).sum := by
      rw [← List.map_take, ← List.map_take, List.map_map]
      rfl
    rw [leftOver, htaken, ← hsum, Nat.cast_add, add_sub_cancel_left, List.map_drop]
    refine Int.emod_eq_of_lt (Int.natCast_nonneg _) ?_
    have hle : ((layers.map fun l => sizeBy sizeOf l 0).drop i).sum < 2 ^ 64 := by omega
    exact_mod_cast hle
  rw [hleft, List.getD_eq_getElem?_getD, List.getElem?_map, List.getElem?_eq_getElem hlt,
    List.drop_eq_getElem_cons hlt, List.map_cons, List.sum_cons]
  exact_mod_cast Nat.le_add_right _ _

/-- Evictions change what is in memory, not what the store stands for. -/
theorem evict_represents {c c' : CircuitData T} {layers : List (LayerData T)}
    {value : ℕ → ℕ → T} (h : Represents c.layerSizes layers c.dir value)
    (hevict : CircuitData.evict sizeOf draws c layers = some c') :
    Represents c.layerSizes c'.layers c'.dir value ∧ c'.layerSizes = c.layerSizes ∧
      ∀ l ∈ c'.layers, l ∈ layers := by
  induction layers generalizing c with
  | nil =>
      cases hevict
      exact ⟨h, rfl, fun l hl => hl⟩
  | cons layer rest ih =>
      rw [CircuitData.evict] at hevict
      split at hevict
      · dsimp only at hevict
        split at hevict
        · obtain ⟨hrep, hsizes, hmem⟩ := ih (by exact h.evict_front) hevict
          exact ⟨hrep, hsizes, fun l hl => List.mem_cons_of_mem layer (hmem l hl)⟩
        · cases hevict
      · cases hevict
        exact ⟨h, rfl, fun l hl => hl⟩

end Eviction

/-! ## One request -/

section Requests

variable [Zero T] {sizeOf : T → ℕ} {draws : ℕ → ℕ} {sizes : List ℕ}

/-- A session stands for a map: it has the same reference, to a layer that is loaded. -/
structure Session.Refines (sizes : List ℕ) (s : Session T) (m : GateMap T) : Prop where
  represents : Represents sizes s.data.layers s.data.dir m.value
  layerSizes : s.data.layerSizes = sizes
  reference : s.reference = m.reference
  loaded : ∀ k, s.reference = some k → ∃ l ∈ s.data.layers, l.layer = k

theorem refines_init (memBudget : ℕ) :
    (Session.init (T := T) memBudget sizes).Refines sizes GateMap.init where
  represents := represents_init
  layerSizes := rfl
  reference := rfl
  loaded k hk := by cases hk

/-- An access whose evictions are covered leaves the layer loaded. -/
theorem access_spec {s : Session T} {value : ℕ → ℕ → T} {k : ℕ}
    (h : Represents sizes s.data.layers s.data.dir value) (hsizes : s.data.layerSizes = sizes)
    (hk : k < sizes.length) (hcovered : Covered sizeOf draws s (.access k)) :
    ∃ c, s.data.access sizeOf draws k = some c ∧ Represents sizes c.layers c.dir value ∧
      c.layerSizes = sizes ∧ ∃ l ∈ c.layers, l.layer = k := by
  rw [CircuitData.access, hsizes, if_pos hk]
  by_cases hany : (s.data.layers.any fun l => l.layer == k) = true
  · refine ⟨s.data, if_pos hany, h, hsizes, ?_⟩
    obtain ⟨l, hl, hlk⟩ := List.any_eq_true.1 hany
    exact ⟨l, hl, beq_iff_eq.1 hlk⟩
  · rw [if_neg hany, CircuitData.load]
    have hnot : ∀ l ∈ s.data.layers, l.layer ≠ k := fun l hl hlk =>
      hany (List.any_eq_true.2 ⟨l, hl, beq_iff_eq.2 hlk⟩)
    have hspec : CircuitData.updateUsage sizeOf draws s.data = _ := updateUsage_spec s.data
    have hlayers : (CircuitData.updateUsage sizeOf draws s.data).layers = s.data.layers := by
      rw [hspec]
    have hls : (CircuitData.updateUsage sizeOf draws s.data).layerSizes =
        s.data.layerSizes := by
      rw [hspec]
    have hdir : (CircuitData.updateUsage sizeOf draws s.data).dir = s.data.dir := by
      rw [hspec]
    dsimp only
    rw [hlayers]
    obtain ⟨c, hc⟩ := (evict_updateUsage_isSome_iff s.data).2 (hcovered (Bool.eq_false_iff.2 hany))
    have hstart : Represents (CircuitData.updateUsage sizeOf draws s.data).layerSizes
        s.data.layers (CircuitData.updateUsage sizeOf draws s.data).dir value := by
      rw [hls, hdir, hsizes]
      exact h
    obtain ⟨hrep, hcsizes, hmem⟩ := evict_represents hstart hc
    rw [hls, hsizes] at hrep hcsizes
    rw [hc]
    refine ⟨_, rfl, ?_, hcsizes, ?_⟩
    · have hpush := hrep.push_back fun l hl => hnot l (hmem l hl)
      rw [← hcsizes] at hpush ⊢
      exact hpush
    · refine ⟨_, List.mem_append_right _ (List.mem_singleton_self _), ?_⟩
      rw [LayerData.tryLoad, LayerData.load]
      split <;> split <;> rfl

/-- What a reference finds. -/
theorem gate_eq {c : CircuitData T} {value : ℕ → ℕ → T} {k : ℕ}
    (h : Represents sizes c.layers c.dir value) (hk : ∃ l ∈ c.layers, l.layer = k) (g : ℕ) :
    c.gate k g = if g < sizes.getD k 0 then some (value k g) else none := by
  obtain ⟨l, hl, hlk⟩ := hk
  obtain ⟨l', hfind⟩ := Option.isSome_iff_exists.1
    (List.find?_isSome.2 ⟨l, hl, beq_iff_eq.2 hlk⟩ :
      (c.layers.find? fun l => l.layer == k).isSome)
  have hfound := List.find?_some hfind
  have hlayer : l'.layer = k := beq_iff_eq.1 hfound
  rw [CircuitData.gate, hfind]
  refine (congrArg (·[g]?) (h.loaded l' (List.mem_of_find?_eq_some hfind))).trans ?_
  rw [hlayer, contents, List.getElem?_map]
  split
  · next hg => rw [List.getElem?_range hg]; rfl
  · next hg => rw [List.getElem?_eq_none (by simpa using hg)]; rfl

/-- A change of one loaded layer that leaves it dirty. -/
theorem Represents.modify {c : CircuitData T} {value value' : ℕ → ℕ → T} {k : ℕ}
    (h : Represents sizes c.layers c.dir value) (hk : ∃ l ∈ c.layers, l.layer = k)
    {f : LayerData T → LayerData T} (hlayer : ∀ l, (f l).layer = l.layer)
    (hdirty : ∀ l, (f l).isDirty = true)
    (hgates : ∀ l ∈ c.layers, l.layer = k → (f l).gates = contents sizes value' k)
    (hrest : ∀ j, j ≠ k → value' j = value j) :
    Represents sizes (c.modify k f).layers (c.modify k f).dir value' where
  nodup := by
    have hnames : (c.modify k f).layers.map LayerData.layer = c.layers.map LayerData.layer := by
      -- the layers in memory keep their numbers
      rw [CircuitData.modify, List.map_map]
      refine List.map_congr_left fun l _ => ?_
      by_cases hl : l.layer = k
      · simp [hl, hlayer]
      · simp [hl]
    rw [hnames]
    exact h.nodup
  loaded l hl := by
    obtain ⟨l₀, hl₀, rfl⟩ := List.mem_map.1 hl
    by_cases hlk : l₀.layer = k
    · -- only the layer that was modified has new gates
      rw [if_pos hlk, hgates l₀ hl₀ hlk, hlayer, hlk]
    · rw [if_neg hlk, h.loaded l₀ hl₀, contents, contents, hrest _ hlk]
  stored j hj := by
    by_cases hjk : j = k
    · -- layer `k` is in memory and dirty
      obtain ⟨l, hl, hlk⟩ := hk
      have hmem : f l ∈ (c.modify k f).layers := List.mem_map.2 ⟨l, hl, if_pos hlk⟩
      have hclean := hj (f l) hmem (by rw [hlayer, hlk, hjk])
      rw [hdirty] at hclean
      cases hclean
    · have hcontents : contents sizes value' j = contents sizes value j := by
        rw [contents, contents, hrest j hjk]
      rw [hcontents]
      refine h.stored j fun l hl hlj => ?_
      have hlk : l.layer ≠ k := by rw [hlj]; exact hjk
      exact hj l (List.mem_map.2 ⟨l, hl, if_neg hlk⟩) hlj

omit [Zero T] in
theorem modify_loaded {c : CircuitData T} {k j : ℕ} (hj : ∃ l ∈ c.layers, l.layer = j)
    {f : LayerData T → LayerData T} (hlayer : ∀ l, (f l).layer = l.layer) :
    ∃ l ∈ (c.modify k f).layers, l.layer = j := by
  obtain ⟨l, hl, hlj⟩ := hj
  refine ⟨_, List.mem_map_of_mem hl, ?_⟩
  split
  · rw [hlayer, hlj]
  · exact hlj

omit [Zero T] in
/-- Writing a gate of a loaded layer. -/
theorem contents_set (value : ℕ → ℕ → T) (k g : ℕ) (v : T) :
    (contents sizes value k).set g v =
      contents sizes (Function.update value k (Function.update (value k) g v)) k := by
  refine List.ext_getElem (by simp) fun i hi _ => ?_
  rw [List.getElem_set]
  by_cases hig : g = i
  · subst hig
    simp [contents]
  · have hgi : i ≠ g := fun heq => hig heq.symm
    simp [contents, hig, Function.update_of_ne hgi]

/-- A covered request within the sizes is answered as the map answers it. -/
theorem step_refines {s : Session T} {m m' : GateMap T} {request : Request T} {b : Option T}
    (h : s.Refines sizes m) (hcovered : Covered sizeOf draws s request)
    (hmap : m.step sizes request = some (m', b)) :
    ∃ s', s.step sizeOf draws request = some (s', b) ∧ s'.Refines sizes m' := by
  cases request with
  | access layer =>
      simp only [GateMap.step] at hmap
      split at hmap
      · next hlayer =>
          cases hmap
          -- an access loads the layer, and may evict others
          obtain ⟨c, hc, hrep, hsizes, hloaded⟩ :=
            access_spec h.represents h.layerSizes hlayer hcovered
          refine ⟨⟨c, some layer⟩, ?_, hrep, hsizes, rfl, ?_⟩
          · simp only [Session.step, hc, Option.map_some]
          · intro k hk
            cases hk
            exact hloaded
      · cases hmap
  | get viaConst gate =>
      obtain ⟨k, hk, hrest⟩ := Option.bind_eq_some_iff.1 hmap
      split at hrest
      · next hgate =>
          cases hrest
          have hs : s.reference = some k := h.reference.trans hk
          have hloaded := h.loaded k hs
          have hvalue := gate_eq h.represents hloaded gate
          rw [if_pos hgate] at hvalue
          simp only [Session.step, hs, Option.bind_some, hvalue, Option.map_some]
          refine ⟨_, rfl, ?_⟩
          cases viaConst with
          | true =>
              rw [if_pos rfl]
              -- a reader that promises not to write leaves the layer clean
              exact h
          | false =>
              -- any other reader marks it dirty, with the same gates
              rw [if_neg Bool.false_ne_true]
              refine ⟨?_, h.layerSizes, hk.symm, ?_⟩
              · refine h.represents.modify hloaded (fun l => rfl) (fun l => rfl) ?_ fun j _ => rfl
                intro l hl hlk
                rw [← hlk]
                exact h.represents.loaded l hl
              · intro j hj
                exact modify_loaded (h.loaded j (hs.trans hj)) fun l => rfl
      · cases hrest
  | set gate v =>
      obtain ⟨k, hk, hrest⟩ := Option.bind_eq_some_iff.1 hmap
      split at hrest
      · next hgate =>
          cases hrest
          have hs : s.reference = some k := h.reference.trans hk
          have hloaded := h.loaded k hs
          have hvalue := gate_eq h.represents hloaded gate
          rw [if_pos hgate] at hvalue
          simp only [Session.step, hs, Option.bind_some, hvalue, Option.map_some]
          refine ⟨_, rfl, ?_, h.layerSizes, hk.symm, ?_⟩
          · -- the layer in memory is dirty from now on, so its file need not agree
            refine h.represents.modify hloaded (fun l => rfl) (fun l => rfl) ?_ ?_
            · intro l hl hlk
              refine Eq.trans ?_ (contents_set m.value k gate v)
              rw [← hlk]
              exact congrArg (fun gates => gates.set gate v) (h.represents.loaded l hl)
            · intro j hj
              exact Function.update_of_ne hj _ _
          · intro j hj
            exact modify_loaded (h.loaded j (hs.trans hj)) fun l => rfl
      · cases hrest
  | setBudget newBudget =>
      cases hmap
      exact ⟨_, rfl, h.represents, h.layerSizes, h.reference, h.loaded⟩
  | save =>
      cases hmap
      -- only the files change
      refine ⟨_, rfl, ⟨h.represents.nodup, h.represents.loaded, ?_⟩, h.layerSizes, h.reference,
        h.loaded⟩
      intro k _
      exact h.represents.save_all k

/-- An access whose assertion fails gives no answer. -/
theorem step_eq_none {s : Session T} {request : Request T}
    (h : ¬ Covered sizeOf draws s request) : s.step sizeOf draws request = none := by
  cases request with
  | access layer =>
      simp only [Covered, Classical.not_imp] at h
      obtain ⟨hany, hfail⟩ := h
      have hevict : CircuitData.evict sizeOf draws
          (CircuitData.updateUsage sizeOf draws s.data) s.data.layers = none := by
        refine Option.eq_none_iff_forall_ne_some.2 fun c hc => hfail ?_
        exact (evict_updateUsage_isSome_iff s.data).1 ⟨c, hc⟩
      have hload : s.data.load sizeOf draws layer = none := by
        rw [CircuitData.load]
        dsimp only
        rw [updateUsage_spec] at hevict ⊢
        rw [hevict]
        rfl
      have haccess : s.data.access sizeOf draws layer = none := by
        rw [CircuitData.access, if_neg (Bool.eq_false_iff.1 hany), hload, ite_self]
      rw [Session.step, haccess]
      rfl
  | get viaConst gate => exact absurd trivial h
  | set gate v => exact absurd trivial h
  | setBudget newBudget => exact absurd trivial h
  | save => exact absurd trivial h

end Requests

/-! ## Whole sessions -/

section Sessions

variable [Zero T] {sizeOf : T → ℕ} {draws : ℕ → ℕ} {sizes : List ℕ}

/-- A run whose evictions are covered answers like the map and can be saved at its end. -/
theorem run_eq_map (memBudget : ℕ) {requests : List (Request T)} {m : GateMap T}
    {answers : List (Option T)}
    (hmap : run (GateMap.step sizes) GateMap.init requests = some (m, answers))
    (hcovered : Along (Session.step sizeOf draws) (Covered sizeOf draws)
      (Session.init memBudget sizes) requests) :
    ∃ s, run (Session.step sizeOf draws) (Session.init memBudget sizes) requests =
        some (s, answers) ∧
      ∀ l ∈ s.data.layers, (LayerData.fresh l.layer).tryLoad s.data.save.dir
        (sizes.getD l.layer 0) = ⟨l.layer, l.gates, false⟩ := by
  have hstep : ∀ (s : Session T) (t : GateMap T) (a : Request T) (t' : GateMap T) (b : Option T),
      s.Refines sizes t → Covered sizeOf draws s a → t.step sizes a = some (t', b) →
        ∃ s', s.step sizeOf draws a = some (s', b) ∧ s'.Refines sizes t' :=
    fun _ _ _ _ _ hR hP hmap => step_refines hR hP hmap
  obtain ⟨s, hs, hrefines⟩ := run_refines hstep (refines_init memBudget) hcovered hmap
  refine ⟨s, hs, fun l hl => ?_⟩
  have hread := hrefines.represents.save_all l.layer
  rw [← hrefines.represents.loaded l hl] at hread
  have hlength : l.gates.length = sizes.getD l.layer 0 := by
    rw [hrefines.represents.loaded l hl, contents_length]
  rw [← hlength]
  exact hread

/-- The store answers every request of a session within the sizes like a map, and leaves every
loaded layer readable after `save`, exactly when at every access that loads a layer the sampled
sizes of the layers in memory are covered. -/
theorem run_eq_map_iff (sizeOf : T → ℕ) (draws : ℕ → ℕ) (sizes : List ℕ) (memBudget : ℕ)
    (requests : List (Request T)) (m : GateMap T) (answers : List (Option T))
    (hmap : run (GateMap.step sizes) GateMap.init requests = some (m, answers)) :
    (∃ s, run (Session.step sizeOf draws) (Session.init memBudget sizes) requests =
        some (s, answers) ∧
      ∀ l ∈ s.data.layers, (LayerData.fresh l.layer).tryLoad s.data.save.dir
        (sizes.getD l.layer 0) = ⟨l.layer, l.gates, false⟩) ↔
    Along (Session.step sizeOf draws) (Covered sizeOf draws) (Session.init memBudget sizes)
      requests := by
  constructor
  · rintro ⟨s, hs, -⟩
    exact along_of_run (fun _ _ hP => step_eq_none hP) hs
  · exact run_eq_map memBudget hmap

end Sessions

/-! ## An eviction whose two samples differ -/

/-- Layer 0 has a large gate 0 and a zero gate 1, and the budget is 0. -/
def mixedRequests : List (Request ℤ) :=
  [.access 0, .set 0 (2 ^ 1000), .access 1, .access 2, .get true 0]

/-- The sample for `usage` ends at gate 1 (number 15), the one for the assertion at gate 0. -/
def mixedDraws (n : ℕ) : ℕ := if n = 15 then 1 else 0

/-- When every sample picks gate 0, the requests are answered and their accesses are covered. -/
theorem run_eq_map_iff_mixed :
    (∃ s, run (Session.step sizeOfMpz fun _ => 0) (Session.init 0 [2, 1, 1]) mixedRequests =
        some (s, [none, none, none, none, some 0]) ∧
      ∀ l ∈ s.data.layers, (LayerData.fresh l.layer).tryLoad s.data.save.dir
        ([2, 1, 1].getD l.layer 0) = ⟨l.layer, l.gates, false⟩) ∧
    Along (Session.step sizeOfMpz fun _ => 0) (Covered sizeOfMpz fun _ => 0)
      (Session.init 0 [2, 1, 1]) mixedRequests := by
  have hanswers : (run (Session.step sizeOfMpz fun _ => 0) (Session.init 0 [2, 1, 1])
      mixedRequests).map (fun r => (r.2, r.1.data.layers.all fun l =>
        decide ((LayerData.fresh l.layer).tryLoad r.1.data.save.dir
          ([2, 1, 1].getD l.layer 0) = ⟨l.layer, l.gates, false⟩))) =
      some ([none, none, none, none, some 0], true) := by
    decide +kernel
  obtain ⟨⟨s, answers⟩, hs, heq⟩ := Option.map_eq_some_iff.1 hanswers
  obtain ⟨rfl, hall⟩ := Prod.mk.inj heq
  have hrun := And.intro hs fun l hl => of_decide_eq_true (List.all_eq_true.1 hall l hl)
  exact ⟨⟨s, hrun⟩, (run_eq_map_iff sizeOfMpz (fun _ => 0) [2, 1, 1] 0 mixedRequests _ _ rfl).1
    ⟨s, hrun⟩⟩

/-- The map answers these requests; the store stops at the access to layer 2. -/
theorem evict_assert_fails :
    (run (GateMap.step [2, 1, 1]) GateMap.init mixedRequests).map Prod.snd =
        some [none, none, none, none, some 0] ∧
      (run (Session.step sizeOfMpz mixedDraws) (Session.init 0 [2, 1, 1]) mixedRequests).isNone =
        true := by
  decide +kernel

end Pepper.Cmtgkr.LayerStore
