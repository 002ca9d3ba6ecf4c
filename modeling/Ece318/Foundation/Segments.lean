import Mathlib.Algebra.Order.Ring.Int
import Mathlib.Data.List.Basic

/-!
# Segments on a line

A singly linked list of segments, each of which lies before the next one and holds
a link to it.  A path leads from the entry of its first segment to where the link
of its last one goes.  The library splits a path, moves it to other links, sends its
last link elsewhere, and keeps account of the points that the segments cover.
-/

namespace Ece318.Foundation

section

variable {α : Type} (first stop : α → Nat) (link : α → Nat → Prop)

/-- The links lead from `a` over the segments to `c`. -/
def Path : Nat → List α → Nat → Prop
  | a, [], c => a = c
  | a, x :: xs, c => first x = a ∧ ∃ b, link x b ∧ Path b xs c

def Covered (xs : List α) (point : Nat) : Prop :=
  ∃ x ∈ xs, first x ≤ point ∧ point < stop x

structure Forward : Prop where
  nonempty : ∀ x b, link x b → first x < stop x
  forward : ∀ x b, link x b → stop x ≤ b

variable {first stop link} {link' : α → Nat → Prop} {a b c : Nat} {x : α} {xs ys : List α}

/-! ## Paths -/

theorem path_append : Path first link a (xs ++ ys) c ↔
    ∃ b, Path first link a xs b ∧ Path first link b ys c := by
  induction xs generalizing a with
  | nil => simp [Path]
  | cons x xs ih =>
      simp only [List.cons_append, Path, ih]
      constructor
      · rintro ⟨hx, d, hlink, b, hxs, hys⟩
        exact ⟨b, ⟨hx, d, hlink, hxs⟩, hys⟩
      · rintro ⟨b, ⟨hx, d, hlink, hxs⟩, hys⟩
        exact ⟨hx, d, hlink, b, hxs, hys⟩

theorem path_concat : Path first link a (xs ++ [x]) c ↔
    Path first link a xs (first x) ∧ link x c := by
  rw [path_append]
  constructor
  · rintro ⟨b, hxs, hx, c', hlink, rfl⟩
    exact ⟨hx ▸ hxs, hlink⟩
  · rintro ⟨hxs, hlink⟩
    exact ⟨first x, hxs, rfl, c, hlink, rfl⟩

theorem path_middle : Path first link a (xs ++ x :: ys) c ↔
    Path first link a xs (first x) ∧ ∃ b, link x b ∧ Path first link b ys c := by
  rw [path_append]
  constructor
  · rintro ⟨b, hxs, hx, hrest⟩
    exact ⟨hx ▸ hxs, hrest⟩
  · rintro ⟨hxs, hrest⟩
    exact ⟨first x, hxs, rfl, hrest⟩

theorem Path.mono (h : Path first link a xs c)
    (hlink : ∀ x ∈ xs, ∀ b, link x b → link' x b) : Path first link' a xs c := by
  induction xs generalizing a with
  | nil => exact h
  | cons x xs ih =>
      rcases h with ⟨hx, b, hxb, hrest⟩
      refine ⟨hx, b, hlink x List.mem_cons_self b hxb, ih hrest ?_⟩
      intro y hy
      exact hlink y (List.mem_cons_of_mem _ hy)

theorem Path.exists_link (h : Path first link a xs c) (hx : x ∈ xs) : ∃ b, link x b := by
  induction xs generalizing a with
  | nil => contradiction
  | cons y xs ih =>
      rcases h with ⟨-, b, hlink, hrest⟩
      rcases List.mem_cons.mp hx with rfl | hx
      · exact ⟨b, hlink⟩
      · exact ih hrest hx

/-! ## Order -/

theorem Path.le (hf : Forward first stop link) (h : Path first link a xs c) : a ≤ c := by
  induction xs generalizing a with
  | nil => exact Nat.le_of_eq h
  | cons x xs ih =>
      rcases h with ⟨rfl, b, hlink, hrest⟩
      have hlt := hf.nonempty x b hlink
      have hle := hf.forward x b hlink
      have htail := ih hrest
      omega

theorem Path.lt (hf : Forward first stop link) (h : Path first link a xs c) (hne : xs ≠ []) :
    a < c := by
  cases xs with
  | nil => contradiction
  | cons x xs =>
      rcases h with ⟨rfl, b, hlink, hrest⟩
      have hlt := hf.nonempty x b hlink
      have hle := hf.forward x b hlink
      have htail := hrest.le hf
      omega

theorem Path.bounds (hf : Forward first stop link) (h : Path first link a xs c) (hx : x ∈ xs) :
    a ≤ first x ∧ stop x ≤ c := by
  obtain ⟨before, after, rfl⟩ := List.append_of_mem hx
  rcases path_middle.mp h with ⟨hbefore, b, hlink, hafter⟩
  have hle := hbefore.le hf
  have hstop := hf.forward x b hlink
  have htail := hafter.le hf
  omega

/-! ## Points -/

@[simp] theorem covered_nil (point : Nat) : ¬ Covered first stop ([] : List α) point := by
  simp [Covered]

@[simp] theorem covered_cons (point : Nat) : Covered first stop (x :: xs) point ↔
    (first x ≤ point ∧ point < stop x) ∨ Covered first stop xs point := by
  simp [Covered]

@[simp] theorem covered_append (point : Nat) : Covered first stop (xs ++ ys) point ↔
    Covered first stop xs point ∨ Covered first stop ys point := by
  simp [Covered, or_and_right, exists_or]

theorem Path.covered_bounds (hf : Forward first stop link) (h : Path first link a xs c)
    {point : Nat} (hpoint : Covered first stop xs point) : a ≤ point ∧ point < c := by
  rcases hpoint with ⟨x, hx, hfirst, hstop⟩
  have hbounds := h.bounds hf hx
  omega

theorem Path.covered_iff_ne_nil (hf : Forward first stop link) (h : Path first link a xs c) :
    (∃ point, Covered first stop xs point) ↔ xs ≠ [] := by
  cases xs with
  | nil => simp
  | cons x xs =>
      rcases h with ⟨-, b, hlink, -⟩
      have hlt := hf.nonempty x b hlink
      refine iff_of_true ⟨first x, ?_⟩ (List.cons_ne_nil x xs)
      exact (covered_cons _).mpr (Or.inl ⟨Nat.le_refl _, hlt⟩)

theorem Path.sum_le (hf : Forward first stop link) (h : Path first link a xs c) {width : Int}
    {size : α → Int} (hsize : ∀ x ∈ xs, first x + width * size x ≤ stop x) :
    a + width * (xs.map size).sum ≤ c := by
  induction xs generalizing a with
  | nil =>
      obtain rfl : a = c := h
      simp
  | cons x xs ih =>
      rcases h with ⟨rfl, b, hlink, hrest⟩
      have hle := hf.forward x b hlink
      have hx := hsize x List.mem_cons_self
      have htail := ih hrest fun y hy => hsize y (List.mem_cons_of_mem _ hy)
      rw [List.map_cons, List.sum_cons, Int.mul_add]
      omega

end

end Ece318.Foundation
