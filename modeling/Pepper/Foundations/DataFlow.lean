import Mathlib.Data.List.Pairwise
import Pepper.Foundations.Loop

/-!
# Steps that read and write cells

A system of steps names, for each step, the cells it reads and the cells it writes. What is seen of
the other cells stays the same (`frame`). Steps are in order when no step writes what an earlier one
has read or written, and none what it reads itself (`InOrder`). In such a list every step reads and
leaves what is seen at the end (`InOrder.read_final`, `InOrder.written_final`).
-/

set_option autoImplicit false

open Pepper.Foundations.Loop

namespace Pepper.Foundations.DataFlow

/-- Steps `σ` on states `S`, of which the cells `ι` are seen through `view`. -/
structure System (σ S ι β : Type) where
  reads : σ → List ι
  writes : σ → List ι
  run : σ → S → S
  view : S → ι → β
  frame : ∀ a s i, i ∉ writes a → view (run a s) i = view s i

namespace System

variable {σ S ι β : Type} (M : System σ S ι β)

/-- The steps one after the other. -/
def exec (l : List σ) (s : S) : S := l.foldl (fun s a => M.run a s) s

theorem exec_append (l k : List σ) (s : S) : M.exec (l ++ k) s = M.exec k (M.exec l s) :=
  List.foldl_append

theorem exec_cons (a : σ) (l : List σ) (s : S) : M.exec (a :: l) s = M.exec l (M.run a s) := rfl

/-- A loop whose passes are lists of steps. -/
theorem forLoop_exec (n : ℕ) (f : ℕ → List σ) (s : S) :
    forLoop n (fun i s => M.exec (f i) s) s = M.exec ((List.range n).flatMap f) s := by
  induction n with
  | zero => rfl
  | succ n ih =>
      rw [forLoop_succ, ih, List.range_succ, List.flatMap_append, exec_append]
      simp

/-- Steps that do not write a cell. -/
theorem exec_frame {l : List σ} {i : ι} (h : ∀ a ∈ l, i ∉ M.writes a) (s : S) :
    M.view (M.exec l s) i = M.view s i := by
  induction l generalizing s with
  | nil => rfl
  | cons a l ih =>
      obtain ⟨ha, hl⟩ := List.forall_mem_cons.mp h
      rw [exec_cons, ih hl, M.frame a s i ha]

/-- No step writes what an earlier one reads or writes, or what it reads itself. -/
structure InOrder (l : List σ) : Prop where
  own : ∀ a ∈ l, ∀ i ∈ M.writes a, i ∉ M.reads a
  later : l.Pairwise fun a b => ∀ i ∈ M.writes b, i ∉ M.reads a ∧ i ∉ M.writes a

variable {M}

theorem InOrder.append {l k : List σ} (hl : M.InOrder l) (hk : M.InOrder k)
    (h : ∀ a ∈ l, ∀ b ∈ k, ∀ i ∈ M.writes b, i ∉ M.reads a ∧ i ∉ M.writes a) :
    M.InOrder (l ++ k) where
  own := List.forall_mem_append.mpr ⟨hl.own, hk.own⟩
  later := List.pairwise_append.mpr ⟨hl.later, hk.later, h⟩

section Split

variable {l pre post : List σ} {a : σ} {i : ι}

/-- From a step on, nothing writes what it reads. -/
theorem InOrder.not_written (h : M.InOrder l) (hl : l = pre ++ a :: post) (hi : i ∈ M.reads a) :
    ∀ b ∈ a :: post, i ∉ M.writes b := by
  subst hl
  obtain ⟨-, hcons, -⟩ := List.pairwise_append.mp h.later
  refine List.forall_mem_cons.mpr ⟨fun hw => ?_, fun b hb hw => ?_⟩
  · exact h.own a (List.mem_append_right _ List.mem_cons_self) i hw hi
  · exact (List.rel_of_pairwise_cons hcons hb i hw).1 hi

/-- Up to a step, nothing reads what it writes. -/
theorem InOrder.not_read (h : M.InOrder l) (hl : l = pre ++ a :: post) (hi : i ∈ M.writes a) :
    ∀ b ∈ pre, i ∉ M.reads b := by
  subst hl
  obtain ⟨-, -, hcross⟩ := List.pairwise_append.mp h.later
  exact fun b hb => (hcross b hb a List.mem_cons_self i hi).1

/-- A step reads what is seen at the end. -/
theorem InOrder.read_final (h : M.InOrder l) (hl : l = pre ++ a :: post) (hi : i ∈ M.reads a)
    (s : S) : M.view (M.exec l s) i = M.view (M.exec pre s) i := by
  have hlater := h.not_written hl hi
  rw [hl, exec_append, M.exec_frame hlater]

/-- What a step writes is seen at the end. -/
theorem InOrder.written_final (h : M.InOrder l) (hl : l = pre ++ a :: post)
    (hi : i ∈ M.writes a) (s : S) :
    M.view (M.exec l s) i = M.view (M.run a (M.exec pre s)) i := by
  subst hl
  obtain ⟨-, hcons, -⟩ := List.pairwise_append.mp h.later
  rw [exec_append, exec_cons, M.exec_frame fun b hb hw =>
    (List.rel_of_pairwise_cons hcons hb i hw).2 hi]

/-- A step that writes a cell is the only one. -/
theorem InOrder.unique (h : M.InOrder l) (ha : a ∈ l) (hi : i ∈ M.writes a) :
    ∃! k : ℕ, l[k]? = some a := by
  obtain ⟨k, hk⟩ := List.mem_iff_getElem?.mp ha
  refine ⟨k, hk, fun j hj => ?_⟩
  obtain ⟨hklt, hka⟩ := List.getElem?_eq_some_iff.mp hk
  obtain ⟨hjlt, hja⟩ := List.getElem?_eq_some_iff.mp hj
  have hpairs := List.pairwise_iff_getElem.mp h.later
  rcases Nat.lt_trichotomy j k with hlt | heq | hlt
  · exact absurd (hja ▸ hi) (hpairs j k hjlt hklt hlt i (hka ▸ hi)).2
  · exact heq
  · exact absurd (hka ▸ hi) (hpairs k j hklt hjlt hlt i (hja ▸ hi)).2

end Split

end System

end Pepper.Foundations.DataFlow
