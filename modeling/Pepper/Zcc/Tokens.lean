import Mathlib.Algebra.MvPolynomial.Eval
import Pepper.Foundations.Bracketed

/-!
# The tokens of a constraint and what they stand for

The constraints of a spec and the polynomials of a worksheet are the same text: constants and
names joined by `+`, `-` and `*`, with round brackets. `Atom` is a token that is not a bracket,
and a balanced piece of text is a `Nest` of atoms.

`meaning` is what such a text stands for, in any commutative ring in which the names have values:
a sum of products, a `+` or a `-` ending the product before it. It is the reference for the two
programs that read the text, the expansion of the back end and the interpreter of the prover. Its
value in the polynomials over the names is `symbolic`, and every other meaning is read off it
(`meaning_eq_aeval`).
-/

set_option autoImplicit false

namespace Pepper.Zcc

open Pepper.Foundations

universe u v w

/-- A token other than a bracket. `blank` is the empty string that splitting a line leaves at its
ends. -/
inductive Atom (ν : Type u) where
  | plus : Atom ν
  | minus : Atom ν
  | times : Atom ν
  | blank : Atom ν
  | const (n : ℤ) : Atom ν
  | name (x : ν) : Atom ν
deriving DecidableEq, Repr

/-- A token of a spec or of a worksheet; `stop` is the `E` that ends a worksheet polynomial. -/
abbrev Token (ν : Type u) := Bracketed (Atom ν)

/-- A piece of text with balanced brackets. -/
abbrev Text (ν : Type u) := Nest (Atom ν)

/-- The sum of the products read so far, whether a minus sign belongs to the next product, and
the factors of that product if there are any. -/
structure Meaning (R : Type v) where
  sum : R
  negate : Bool
  product : Option R

namespace Meaning

variable {R : Type v} [CommRing R]

/-- Nothing read yet. -/
def empty : Meaning R := ⟨0, false, none⟩

/-- The product that is being read ends here. -/
def flush (m : Meaning R) : Meaning R :=
  match m.product with
  | none => m
  | some t => ⟨m.sum + (if m.negate then -t else t), false, none⟩

/-- One more factor of the product that is being read. -/
def factor (m : Meaning R) (r : R) : Meaning R :=
  { m with product := some (match m.product with | none => r | some t => t * r) }

/-- A minus sign. -/
def toggle (m : Meaning R) : Meaning R := { m with negate := !m.negate }

end Meaning

variable {ν : Type u} {R : Type v} [CommRing R]

/-- Reading a text with the values `ρ` of the names. -/
def meaningReader (ρ : ν → R) : BracketReader (Atom ν) (Meaning R) R where
  start _ := some Meaning.empty
  atom m
    | .plus => m.flush
    | .minus => m.flush.toggle
    | .times => m
    | .blank => m
    | .const n => m.factor n
    | .name x => m.factor (ρ x)
  group m r := m.factor r
  finish m := m.flush.sum
  stop m := some m.flush.sum
  exhausted m := some m.flush.sum

/-- What a text stands for under the values `ρ` of the names. -/
def meaning (ρ : ν → R) (n : Text ν) : R :=
  (meaningReader ρ).finish ((meaningReader ρ).run Meaning.empty Meaning.empty n)

/-- The polynomial in the names that a text stands for. -/
noncomputable def symbolic (n : Text ν) : MvPolynomial ν ℤ := meaning MvPolynomial.X n

/-- A token with another name in it. -/
def Atom.rename {μ : Type u} (f : μ → ν) : Atom μ → Atom ν
  | .plus => .plus
  | .minus => .minus
  | .times => .times
  | .blank => .blank
  | .const n => .const n
  | .name x => .name (f x)

/-- Renaming a text moves the renaming into the values. -/
theorem meaning_map_rename {μ : Type u} (f : μ → ν) (ρ : ν → R) (n : Text μ) :
    meaning ρ (n.map (Atom.rename f)) = meaning (fun x => ρ (f x)) n := by
  have hrun := BracketReader.run_map (meaningReader ρ) (meaningReader fun x => ρ (f x))
    (Atom.rename f) (by intro s a; cases a <;> rfl) (fun _ _ => rfl) (fun _ => rfl) Meaning.empty n
    Meaning.empty
  rw [meaning, hrun]
  rfl

section Hom

variable {S : Type w} [CommRing S] (f : R →+* S)

/-- The image of a state of the reader under a ring homomorphism. -/
def Meaning.map (m : Meaning R) : Meaning S := ⟨f m.sum, m.negate, m.product.map f⟩

theorem Meaning.map_flush (m : Meaning R) : m.flush.map f = (m.map f).flush := by
  obtain ⟨sum, negate, product⟩ := m
  cases product with
  | none => rfl
  | some t => cases negate <;> simp [Meaning.flush, Meaning.map]

theorem Meaning.map_factor (m : Meaning R) (r : R) :
    (m.factor r).map f = (m.map f).factor (f r) := by
  obtain ⟨sum, negate, product⟩ := m
  cases product with
  | none => rfl
  | some t => simp [Meaning.factor, Meaning.map]

/-- The meaning of a text commutes with ring homomorphisms. -/
theorem map_meaning (ρ : ν → R) (n : Text ν) :
    f (meaning ρ n) = meaning (fun x => f (ρ x)) n := by
  have hfinish : ∀ m : Meaning R, f m.flush.sum = (m.map f).flush.sum := by
    intro m
    rw [← Meaning.map_flush]
    rfl
  have hrun := BracketReader.run_rel (meaningReader ρ) (meaningReader fun x => f (ρ x))
    (fun m m' => m' = m.map f) (fun r r' => r' = f r) Meaning.empty
    Meaning.empty (by simp [Meaning.map, Meaning.empty])
    (by
      rintro m m' a rfl
      cases a with
      | plus => exact (Meaning.map_flush f m).symm
      | minus =>
          change (m.map f).flush.toggle = m.flush.toggle.map f
          rw [← Meaning.map_flush]
          rfl
      | times => rfl
      | blank => rfl
      | const c =>
          change (m.map f).factor (c : S) = (m.factor (c : R)).map f
          rw [Meaning.map_factor, map_intCast]
      | name x => exact (Meaning.map_factor f m (ρ x)).symm)
    (by
      rintro m m' r r' rfl rfl
      exact (Meaning.map_factor f m r).symm)
    (by
      rintro m m' rfl
      exact (hfinish m).symm)
    n Meaning.empty Meaning.empty (by simp [Meaning.map, Meaning.empty])
  change f ((meaningReader ρ).run Meaning.empty Meaning.empty n).flush.sum = _
  rw [hfinish, ← hrun]
  rfl

end Hom

/-- Every meaning of a text is the value of its polynomial. -/
theorem meaning_eq_aeval (ρ : ν → R) (n : Text ν) :
    meaning ρ n = MvPolynomial.aeval ρ (symbolic n) := by
  have h := map_meaning (MvPolynomial.aeval (R := ℤ) ρ).toRingHom MvPolynomial.X n
  simp only [AlgHom.toRingHom_eq_coe, RingHom.coe_coe, MvPolynomial.aeval_X] at h
  exact h.symm

end Pepper.Zcc
