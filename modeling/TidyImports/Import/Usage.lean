-- SUMMARY: Uses of vocabulary symbols, and the sets they form.
import TidyImports.SortedSet
import TidyImports.Vocabulary

/-!
# Usages

A usage is a symbol of a module found in code. Usages are ordered by module,
then name, then binding with `named` before `default`, so a set of them has one
order.
-/

namespace TidyImports

open Std

instance : Ord Binding where
  compare
    | .named, .default => .lt
    | .default, .named => .gt
    | _, _ => .eq

instance : TransOrd Binding where
  eq_swap {a b} := by cases a <;> cases b <;> rfl
  isLE_trans {a b c} := by cases a <;> cases b <;> cases c <;> decide

instance : LawfulEqOrd Binding where
  eq_of_compare {a b} := by cases a <;> cases b <;> decide

/-- A symbol of a module found in code. -/
structure Usage where
  module : String
  name : String
  binding : Binding
  deriving DecidableEq, Repr, Inhabited

namespace Usage

instance : Ord Usage where
  compare := compareLex (compareOn module) (compareLex (compareOn name) (compareOn binding))

instance : TransOrd Usage :=
  inferInstanceAs (TransCmp (compareLex (compareOn module)
    (compareLex (compareOn name) (compareOn binding))))

instance : LawfulEqOrd Usage where
  eq_of_compare {a b} h := by
    change compareLex (compareOn module) (compareLex (compareOn name) (compareOn binding)) a b
      = .eq at h
    rw [compareLex_eq_eq, compareLex_eq_eq] at h
    obtain ⟨m, n, k⟩ := a
    obtain ⟨m', n', k'⟩ := b
    have hm : m = m' := LawfulEqOrd.eq_of_compare h.1
    have hn : n = n' := LawfulEqOrd.eq_of_compare h.2.1
    have hk : k = k' := LawfulEqOrd.eq_of_compare h.2.2
    rw [hm, hn, hk]

end Usage

abbrev UsageSet := SortedSet Usage

/-- The usages of one module's symbols, in order. -/
def SortedSet.ofModule (s : UsageSet) (specifier : String) : List Usage :=
  s.toList.filter (·.module == specifier)

end TidyImports
