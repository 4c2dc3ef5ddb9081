-- SUMMARY: Lists whose items are told apart by a key.

/-!
# Keyed lists

Putting an item into a list replaces the first item with the same key, and
appends it when there is none. The order of the other items stays, and a list
with distinct keys keeps them distinct.
-/

namespace TidyImports

namespace KeyedList

/-- Replace the first item with the same key, or append. -/
def put [DecidableEq κ] (key : α → κ) (x : α) : List α → List α
  | [] => [x]
  | y :: ys => if key y = key x then x :: ys else y :: put key x ys

/-- Put many items, one after the other. -/
def putAll [DecidableEq κ] (key : α → κ) (xs : List α) (ys : List α) : List α :=
  xs.foldl (fun ys x => put key x ys) ys

@[simp] theorem putAll_nil [DecidableEq κ] (key : α → κ) (ys : List α) :
    putAll key [] ys = ys := rfl

@[simp] theorem putAll_cons [DecidableEq κ] (key : α → κ) (x : α) (xs ys : List α) :
    putAll key (x :: xs) ys = putAll key xs (put key x ys) := rfl

/-- The keys after a put: the same, or one more at the end. -/
theorem map_key_put [DecidableEq κ] (key : α → κ) (x : α) (ys : List α) :
    (put key x ys).map key =
      if key x ∈ ys.map key then ys.map key else ys.map key ++ [key x] := by
  induction ys with
  | nil => simp [put]
  | cons y ys ih =>
    by_cases h : key y = key x
    · simp [put, h]
    · have h' : ¬ key x = key y := fun e => h e.symm
      by_cases hm : key x ∈ ys.map key
      · simp only [put, h, if_false, List.map_cons, ih, if_pos hm]
        rw [if_pos (List.mem_cons_of_mem _ hm)]
      · have hc : key x ∉ key y :: ys.map key := by
          rw [List.mem_cons]
          exact fun e => e.elim h' hm
        simp only [put, h, if_false, List.map_cons, ih, if_neg hm, if_neg hc, List.cons_append]

end KeyedList

end TidyImports
