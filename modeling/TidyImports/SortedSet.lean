-- SUMMARY: Finite sets kept as strictly ascending lists.

/-!
# Sorted sets

A set is the strictly ascending list of its members, so it has one
representation and one order of iteration. `mem_insert` says what insertion
does; that the order survives it is part of the type.
-/

namespace TidyImports

open Std

/-- A finite set as the ascending list of its members. -/
structure SortedSet (α : Type) [Ord α] where
  toList : List α
  ascending : toList.Pairwise fun a b => compare a b = .lt
  deriving DecidableEq

namespace SortedSet

variable {α : Type} [Ord α]

/-- Insert into an ascending list, unless the element is there. -/
def insertInto (x : α) : List α → List α
  | [] => [x]
  | y :: ys =>
    match compare x y with
    | .lt => x :: y :: ys
    | .eq => y :: ys
    | .gt => y :: insertInto x ys

theorem mem_insertInto [LawfulEqOrd α] {x y : α} {ys : List α} :
    y ∈ insertInto x ys ↔ y = x ∨ y ∈ ys := by
  induction ys with
  | nil => simp [insertInto]
  | cons z zs ih =>
    simp only [insertInto]
    split
    · simp
    · rename_i h
      obtain rfl := LawfulEqOrd.eq_of_compare h
      simp
    · simp only [List.mem_cons, ih]
      exact or_left_comm

theorem pairwise_insertInto [TransOrd α] [LawfulEqOrd α] {x : α} {ys : List α}
    (h : ys.Pairwise fun a b => compare a b = .lt) :
    (insertInto x ys).Pairwise fun a b => compare a b = .lt := by
  induction ys with
  | nil => simp [insertInto]
  | cons z zs ih =>
    have hz : ∀ w ∈ zs, compare z w = .lt := fun _ => List.rel_of_pairwise_cons h
    simp only [insertInto]
    split
    · rename_i hxz
      refine List.pairwise_cons.2 ⟨fun w hw => ?_, h⟩
      rcases List.mem_cons.1 hw with rfl | hw
      · exact hxz
      · exact TransCmp.lt_trans hxz (hz w hw)
    · exact h
    · rename_i hxz
      refine List.pairwise_cons.2 ⟨fun w hw => ?_, ih (List.Pairwise.of_cons h)⟩
      rcases mem_insertInto.1 hw with rfl | hw
      · exact OrientedCmp.lt_of_gt hxz
      · exact hz w hw

instance : EmptyCollection (SortedSet α) := ⟨⟨[], List.Pairwise.nil⟩⟩

instance : Inhabited (SortedSet α) := ⟨∅⟩

instance : Membership α (SortedSet α) := ⟨fun s x => x ∈ s.toList⟩

instance [DecidableEq α] (x : α) (s : SortedSet α) : Decidable (x ∈ s) :=
  inferInstanceAs (Decidable (x ∈ s.toList))

@[simp] theorem mem_toList {x : α} {s : SortedSet α} : x ∈ s.toList ↔ x ∈ s := Iff.rfl

@[simp] theorem not_mem_empty (x : α) : ¬ x ∈ (∅ : SortedSet α) := List.not_mem_nil

def isEmpty (s : SortedSet α) : Bool := s.toList.isEmpty

variable [TransOrd α] [LawfulEqOrd α]

def insert (s : SortedSet α) (x : α) : SortedSet α :=
  ⟨insertInto x s.toList, pairwise_insertInto s.ascending⟩

@[simp] theorem mem_insert {s : SortedSet α} {x y : α} : y ∈ s.insert x ↔ y = x ∨ y ∈ s :=
  mem_insertInto

/-- The members of a set and those of a list. -/
def insertMany (s : SortedSet α) (xs : List α) : SortedSet α := xs.foldl insert s

@[simp] theorem mem_insertMany {s : SortedSet α} {xs : List α} {y : α} :
    y ∈ s.insertMany xs ↔ y ∈ s ∨ y ∈ xs := by
  induction xs generalizing s with
  | nil => simp [insertMany]
  | cons x xs ih =>
    rw [insertMany, List.foldl_cons, ← insertMany, ih, mem_insert, List.mem_cons, or_assoc,
      or_left_comm]

def ofList (xs : List α) : SortedSet α := insertMany ∅ xs

@[simp] theorem mem_ofList {xs : List α} {y : α} : y ∈ ofList xs ↔ y ∈ xs := by simp [ofList]

end SortedSet

end TidyImports
