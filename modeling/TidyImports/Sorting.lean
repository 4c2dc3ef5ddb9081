-- SUMMARY: Stable sorting of short lists by insertion.

/-!
# Sorting

Each element goes in front of the first one it may precede, from the last to
the first, so elements that precede each other keep their order. The lists
sorted here are short, and the recursion is on the list itself.
-/

namespace TidyImports

variable {α : Type}

namespace Sorting

/-- Put an element in front of the first one it may precede. -/
def insert (before : α → α → Bool) (x : α) : List α → List α
  | [] => [x]
  | y :: ys => if before x y then x :: y :: ys else y :: insert before x ys

/-- The list in order; elements that may precede each other keep their order. -/
def sort (before : α → α → Bool) : List α → List α
  | [] => []
  | x :: xs => insert before x (sort before xs)

theorem insert_perm (before : α → α → Bool) (x : α) (ys : List α) :
    (insert before x ys).Perm (x :: ys) := by
  induction ys with
  | nil => exact List.Perm.refl _
  | cons y ys ih =>
    simp only [insert]
    split
    · exact List.Perm.refl _
    · exact (ih.cons y).trans (List.Perm.swap x y ys)

theorem sort_perm (before : α → α → Bool) (xs : List α) : (sort before xs).Perm xs := by
  induction xs with
  | nil => exact List.Perm.refl _
  | cons x xs ih => exact (insert_perm before x _).trans (ih.cons x)

@[simp] theorem mem_sort {before : α → α → Bool} {x : α} {xs : List α} :
    x ∈ sort before xs ↔ x ∈ xs := (sort_perm before xs).mem_iff

/-- A sorted list is in order. -/
theorem pairwise_sort {before : α → α → Bool} {xs : List α}
    (trans : ∀ a b c, before a b → before b c → before a c)
    (total : ∀ a b, before a b ∨ before b a) :
    (sort before xs).Pairwise fun a b => before a b := by
  have hinsert : ∀ (x : α) (ys : List α), (ys.Pairwise fun a b => before a b) →
      (insert before x ys).Pairwise fun a b => before a b := by
    intro x ys h
    induction ys with
    | nil => exact List.pairwise_singleton _ _
    | cons y ys ih =>
      have hy : ∀ z ∈ ys, before y z := fun z hz => List.rel_of_pairwise_cons h hz
      simp only [insert]
      split
      · next hxy =>
        refine List.pairwise_cons.2 ⟨fun z hz => ?_, h⟩
        rcases List.mem_cons.1 hz with rfl | hz
        · exact hxy
        · exact trans x y z hxy (hy z hz)
      · next hxy =>
        refine List.pairwise_cons.2 ⟨fun z hz => ?_, ih h.of_cons⟩
        rcases List.mem_cons.1 ((insert_perm before x ys).mem_iff.1 hz) with rfl | hz
        · exact (total z y).resolve_left hxy
        · exact hy z hz
  induction xs with
  | nil => exact List.Pairwise.nil
  | cons x xs ih => exact hinsert x _ ih

/-- A list in order is left as it is. -/
theorem sort_eq_self {before : α → α → Bool} {xs : List α}
    (h : xs.Pairwise fun a b => before a b) : sort before xs = xs := by
  induction xs with
  | nil => rfl
  | cons x xs ih =>
    rw [sort, ih h.of_cons]
    cases xs with
    | nil => rfl
    | cons y ys => simp only [insert, List.rel_of_pairwise_cons h (List.mem_cons_self ..), if_true]

/-- Elements sorted by what a function makes of them. -/
theorem map_sort {β : Type} (before : β → β → Bool) (f : α → β) (xs : List α) :
    (sort (fun a b => before (f a) (f b)) xs).map f = sort before (xs.map f) := by
  have hinsert : ∀ (x : α) (ys : List α),
      (insert (fun a b => before (f a) (f b)) x ys).map f = insert before (f x) (ys.map f) := by
    intro x ys
    induction ys with
    | nil => rfl
    | cons y ys ih =>
      simp only [insert, List.map_cons]
      split
      · rfl
      · rw [List.map_cons, ih]
  induction xs with
  | nil => rfl
  | cons x xs ih => rw [sort, hinsert, ih, List.map_cons, sort]

end Sorting

end TidyImports
