import Mathlib.Data.List.Lex
import Mathlib.Tactic

/-!
# Comparisons field by field

A `compareTo` method returns a number whose sign is the order, and compares one field
after the other until two of them differ. `Reflects` says that such a number is the
lexicographic order of two keys, whatever follows the keys in a longer one: a field goes in
front of the rest (`Reflects.cons`), and a compared part in front of another one
(`Reflects.append`). A comparison with a key for each value is then a total order
(`Reflects.neg_iff`, `Reflects.zero_iff`, `Reflects.pos_iff`).
-/

set_option autoImplicit false

namespace Pepper.Foundations.LexOrder

universe u

variable {α : Type u} [LinearOrder α]

/-- The sign of `s` is the order of `k` and `l`, also in front of longer keys. -/
structure Reflects (s : ℤ) (k l : List α) : Prop where
  neg : s < 0 → ∀ r r', k ++ r < l ++ r'
  zero : s = 0 → k = l
  pos : 0 < s → ∀ r r', l ++ r < k ++ r'

/-- The sign of `x` is the order of `a` and `b`. -/
structure ReflectsField (x : ℤ) (a b : α) : Prop where
  neg : x < 0 → a < b
  zero : x = 0 → a = b
  pos : 0 < x → b < a

namespace Reflects

variable {s s' x : ℤ} {a b : α} {k l k' l' : List α}

theorem nil : Reflects 0 ([] : List α) [] where
  neg h := absurd h (lt_irrefl 0)
  zero _ := rfl
  pos h := absurd h (lt_irrefl 0)

/-- The first field decides unless it is the same. -/
theorem cons (hx : ReflectsField x a b) (h : x = 0 → Reflects s k l) :
    Reflects (if x ≠ 0 then x else s) (a :: k) (b :: l) := by
  rcases lt_trichotomy x 0 with hneg | hzero | hpos
  · rw [if_pos hneg.ne]
    refine ⟨fun _ r r' => ?_, fun h0 => absurd h0 hneg.ne, fun h0 => absurd h0 hneg.asymm⟩
    exact List.cons_lt_cons_iff.2 (Or.inl (hx.neg hneg))
  · have hab := hx.zero hzero
    obtain ⟨hlt, heq, hgt⟩ := h hzero
    rw [if_neg (not_not.2 hzero), hab]
    refine ⟨fun h0 r r' => ?_, fun h0 => by rw [heq h0], fun h0 r r' => ?_⟩
    · exact List.cons_lt_cons_iff.2 (Or.inr ⟨rfl, hlt h0 r r'⟩)
    · exact List.cons_lt_cons_iff.2 (Or.inr ⟨rfl, hgt h0 r r'⟩)
  · rw [if_pos hpos.ne']
    refine ⟨fun h0 => absurd h0 hpos.asymm, fun h0 => absurd h0 hpos.ne', fun _ r r' => ?_⟩
    exact List.cons_lt_cons_iff.2 (Or.inl (hx.pos hpos))

theorem append_left (r : List α) : ∀ {m m' : List α}, m < m' → r ++ m < r ++ m' := by
  induction r with
  | nil =>
      intro m m' h
      exact h
  | cons c r ih =>
      intro m m' h
      exact List.cons_lt_cons_iff.2 (Or.inr ⟨rfl, ih h⟩)

/-- The first part decides unless it is the same. -/
theorem append (h : Reflects s k l) (h' : s = 0 → Reflects s' k' l') :
    Reflects (if s ≠ 0 then s else s') (k ++ k') (l ++ l') := by
  rcases lt_trichotomy s 0 with hneg | hzero | hpos
  · rw [if_pos hneg.ne]
    refine ⟨fun _ r r' => ?_, fun h0 => absurd h0 hneg.ne, fun h0 => absurd h0 hneg.asymm⟩
    rw [List.append_assoc, List.append_assoc]
    exact h.neg hneg _ _
  · obtain ⟨hlt, heq, hgt⟩ := h' hzero
    rw [if_neg (not_not.2 hzero), h.zero hzero]
    refine ⟨fun h0 r r' => ?_, fun h0 => by rw [heq h0], fun h0 r r' => ?_⟩
    · rw [List.append_assoc, List.append_assoc]
      exact append_left l (hlt h0 r r')
    · rw [List.append_assoc, List.append_assoc]
      exact append_left l (hgt h0 r r')
  · rw [if_pos hpos.ne']
    refine ⟨fun h0 => absurd h0 hpos.asymm, fun h0 => absurd h0 hpos.ne', fun _ r r' => ?_⟩
    rw [List.append_assoc, List.append_assoc]
    exact h.pos hpos _ _

theorem lt_of_neg (h : Reflects s k l) (hs : s < 0) : k < l := by
  simpa using h.neg hs [] []

theorem gt_of_pos (h : Reflects s k l) (hs : 0 < s) : l < k := by
  simpa using h.pos hs [] []

theorem neg_iff (h : Reflects s k l) : s < 0 ↔ k < l := by
  refine ⟨h.lt_of_neg, fun hlt => ?_⟩
  rcases lt_trichotomy s 0 with hs | hs | hs
  · exact hs
  · exact absurd hlt (by rw [h.zero hs]; exact lt_irrefl l)
  · exact absurd hlt (h.gt_of_pos hs).asymm

theorem zero_iff (h : Reflects s k l) : s = 0 ↔ k = l := by
  refine ⟨h.zero, fun heq => ?_⟩
  rcases lt_trichotomy s 0 with hs | hs | hs
  · exact absurd (h.lt_of_neg hs) (by rw [heq]; exact lt_irrefl l)
  · exact hs
  · exact absurd (h.gt_of_pos hs) (by rw [heq]; exact lt_irrefl l)

theorem pos_iff (h : Reflects s k l) : 0 < s ↔ l < k := by
  refine ⟨h.gt_of_pos, fun hlt => ?_⟩
  rcases lt_trichotomy s 0 with hs | hs | hs
  · exact absurd hlt (h.lt_of_neg hs).asymm
  · exact absurd hlt (by rw [h.zero hs]; exact lt_irrefl l)
  · exact hs

end Reflects

end Pepper.Foundations.LexOrder
