-- SUMMARY: The one import a module should have, and how it is written.
import TidyImports.SortedSet
import TidyImports.Import.Declaration

/-!
# Canonical imports

A canonical import binds a default, a set of items, or both. It is written with
its items in ascending order, so a module's bindings have one written form in
each style. An import that binds nothing has none.
-/

namespace TidyImports

/-- What one module's import should bind. -/
structure Canonical where
  specifier : String
  default? : Option String := none
  named : SortedSet String := ∅
  deriving DecidableEq, Inhabited

namespace Canonical

/-- The items in braces. -/
def braces (c : Canonical) : Text :=
  ['\x7b', ' '] ++ [',', ' '].intercalate (c.named.toList.map String.toList) ++ [' ', '\x7d']

/-- What stands between `import` and `from`. -/
def clause? (c : Canonical) : Option Text :=
  match c.default?, c.named.isEmpty with
  | some d, false => some (d.toList ++ [',', ' '] ++ c.braces)
  | some d, true => some d.toList
  | none, false => some c.braces
  | none, true => none

/-- The declaration in a given style. -/
def render? (c : Canonical) (style : Style) : Option Text :=
  c.clause?.map fun clause =>
    "import ".toList ++ clause ++ " from ".toList ++
      style.quote.char :: (c.specifier.toList ++
        style.quote.char :: (if style.semicolon then [';'] else []))

/-- Does the import bind `name`, as the default or as an item? -/
def binds (c : Canonical) (name : String) : Bool := c.default? == some name || name ∈ c.named

/-- Does the declaration bind the same, in canonical order? -/
def matches? (c : Canonical) (d : Declaration) : Bool :=
  d.default? == c.default? && d.namedAscending && d.named == c.named.toList

end Canonical

end TidyImports
