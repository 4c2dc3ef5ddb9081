-- SUMMARY: Conditions that a run reports and survives.

/-!
# Warnings
-/

namespace TidyImports

/-- A condition that stops nothing. -/
inductive Warning where
  /-- A data import points at a file that does not exist. -/
  | missingDataFile (specifier target : String)
  /-- Two defaults competed for one module; the discarded one is no longer bound. -/
  | defaultConflict (module kept discarded : String)
  /-- A detected usage that the synthesized import does not bind. -/
  | inconsistency (module symbol : String)
  /-- The file is no UTF-8 text and was skipped. -/
  | notUtf8
  deriving DecidableEq, Repr, Inhabited

def Warning.message : Warning → String
  | .missingDataFile specifier target =>
    s!"data file missing: {specifier} (expected at {target})"
  | .defaultConflict module kept discarded =>
    s!"conflicting default imports from {module}: kept `{kept}`, discarded `{discarded}`"
  | .inconsistency module symbol =>
    s!"`{symbol}` detected but absent from the synthesized import of {module}"
  | .notUtf8 => "not valid UTF-8; file skipped"

end TidyImports
