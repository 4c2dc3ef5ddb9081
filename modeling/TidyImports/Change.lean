-- SUMMARY: The changes that a plan records.

/-!
# Changes
-/

namespace TidyImports

/-- What happened to a file's imports. -/
inductive Change.Kind where
  /-- Several declarations of one module became one. -/
  | merged
  /-- A single declaration was changed in place. -/
  | patched
  /-- A declaration was added, perhaps with the client directive. -/
  | inserted
  /-- A data specifier was pointed at its file. -/
  | retargeted
  deriving DecidableEq, Repr, Inhabited

/-- All kinds, in the order in which they are reported. -/
def Change.Kind.all : List Change.Kind := [.merged, .patched, .inserted, .retargeted]

structure Change where
  kind : Change.Kind
  /-- The module or data specifier the change is about. -/
  module : String
  detail : String
  deriving DecidableEq, Repr, Inhabited

end TidyImports
