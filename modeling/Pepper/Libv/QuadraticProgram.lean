import Pepper.Common.Gmp

/-!
# Compressed quadratic arithmetic programs

The compiler hands both parties the matrices `A`, `B`, `C` as lists of non-zero
entries `(i, j, coefficient)`: wire `i` appears in row `j`. Wire `0` is the constant
one, wires `1`, ..., `nPrime` are the proof's variables, and the inputs and then the
outputs follow. Rows count from `1`; a matrix without entries is written as the
single placeholder `(0, 0, 0)`. `Qap` carries these ranges as fields, and that the
length `chi + 1` of the second proof vector is a C `int`.
-/

set_option autoImplicit false

open Pepper.Common.Gmp

namespace Pepper.Libv.QuadraticProgram

/-- `poly_compressed`: wire, row and coefficient. -/
structure PolyCompressed where
  i : ℕ
  j : ℕ
  coefficient : ℤ
deriving DecidableEq, Repr

/-- Wires up to `n`, rows from `1` to `chi`, or the placeholder. -/
def PolyCompressed.InRange (n chi : ℕ) (e : PolyCompressed) : Prop :=
  (e.i ≤ n ∧ 1 ≤ e.j ∧ e.j ≤ chi) ∨ e = ⟨0, 0, 0⟩

instance (n chi : ℕ) (e : PolyCompressed) : Decidable (e.InRange n chi) :=
  inferInstanceAs (Decidable (_ ∨ _))

/-- A program in compressed form with its dimensions. -/
structure Qap where
  nPrime : ℕ
  sizeInput : ℕ
  sizeOutput : ℕ
  chi : ℕ
  polyA : List PolyCompressed
  polyB : List PolyCompressed
  polyC : List PolyCompressed
  sizeF2_int : chi + 1 < 2 ^ 31
  polyA_inRange : ∀ e ∈ polyA, e.InRange (nPrime + sizeInput + sizeOutput) chi
  polyB_inRange : ∀ e ∈ polyB, e.InRange (nPrime + sizeInput + sizeOutput) chi
  polyC_inRange : ∀ e ∈ polyC, e.InRange (nPrime + sizeInput + sizeOutput) chi

namespace Qap

variable (q : Qap)

/-- Number of wires besides the constant. -/
def n : ℕ := q.nPrime + q.sizeInput + q.sizeOutput

/-- Length of the first proof vector. -/
def sizeF1Vec : ℕ := q.nPrime

/-- Length of the second proof vector. -/
def sizeF2Vec : ℕ := q.chi + 1

/-- Value of every wire under the proof vector `f1` and the contiguous block `io` of
inputs and outputs. -/
def wire (f1 io : Vec) (index : ℕ) : ℤ :=
  if index = 0 then 1
  else if index ≤ q.nPrime then f1 (index - 1)
  else io (index - 1 - q.nPrime)

end Qap

/-- Row `j` of a matrix applied to the wire values `w`. -/
def rowValue (poly : List PolyCompressed) (w : Vec) (j : ℕ) : ℤ :=
  ((poly.filter fun e => e.j = j).map fun e => e.coefficient * w e.i).sum

/-- Row `j` of the program holds modulo `prime`. -/
def Qap.SatisfiesRow (q : Qap) (f1 io : Vec) (prime : ℤ) (j : ℕ) : Prop :=
  (rowValue q.polyA (q.wire f1 io) j * rowValue q.polyB (q.wire f1 io) j +
    rowValue q.polyC (q.wire f1 io) j) % prime = 0

instance (q : Qap) (f1 io : Vec) (prime : ℤ) (j : ℕ) :
    Decidable (q.SatisfiesRow f1 io prime j) :=
  inferInstanceAs (Decidable (_ = _))

theorem PolyCompressed.InRange.row_le {n chi : ℕ} {e : PolyCompressed} (h : e.InRange n chi) :
    e.j ≤ chi := by
  rcases h with ⟨_, _, hle⟩ | rfl
  · exact hle
  · exact Nat.zero_le chi

theorem PolyCompressed.InRange.wire_le {n chi : ℕ} {e : PolyCompressed} (h : e.InRange n chi) :
    e.i ≤ n := by
  rcases h with ⟨hle, _, _⟩ | rfl
  · exact hle
  · exact Nat.zero_le n

theorem satisfiesRow_iff_cast (q : Qap) (f1 io : Vec) (p j : ℕ) :
    q.SatisfiesRow f1 io p j ↔
      (rowValue q.polyA (q.wire f1 io) j : ZMod p) * rowValue q.polyB (q.wire f1 io) j +
        rowValue q.polyC (q.wire f1 io) j = 0 := by
  rw [Qap.SatisfiesRow, ← Int.zero_emod (p : ℤ), emod_eq_emod_iff]
  push_cast
  rfl

end Pepper.Libv.QuadraticProgram
