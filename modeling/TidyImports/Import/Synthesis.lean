-- SUMMARY: Synthesis of a module's canonical import from its declarations and detected usages.
import TidyImports.Import.Canonical
import TidyImports.Import.Usage
import TidyImports.Sorting
import TidyImports.Warning

/-!
# Synthesis

The canonical import of a module binds what its declarations bind and what the
code uses. Items form a union. Of several defaults the first in file order is
kept, and each different one is reported as a conflict. A default usage that
some item binds already claims nothing.
-/

namespace TidyImports

/-- Does some item bind `name`, as its text or as its alias? -/
def Item.anyBinds (named : SortedSet String) (name : String) : Bool :=
  named.toList.any fun item => item == name || alias? item == some name

namespace Synthesis

-- ---------------------------------------------------------------------------
-- Drafts
-- ---------------------------------------------------------------------------

/-- What has been gathered so far. -/
structure Draft where
  default? : Option String := none
  named : SortedSet String := ∅
  conflicts : List Warning := []
  deriving Inhabited

/-- A default is claimed: the first is kept, and a different one is a conflict. -/
def Draft.claim (module : String) (draft : Draft) (name : String) : Draft :=
  match draft.default? with
  | none => { draft with default? := some name }
  | some kept =>
    if kept = name then draft
    else { draft with conflicts := draft.conflicts ++ [.defaultConflict module kept name] }

def Draft.addDeclaration (module : String) (draft : Draft) (d : Declaration) : Draft :=
  let draft := { draft with named := draft.named.insertMany d.named }
  match d.default? with
  | none => draft
  | some name => draft.claim module name

def Draft.addUsage (module : String) (draft : Draft) (u : Usage) : Draft :=
  match u.binding with
  | .named => { draft with named := draft.named.insert u.name }
  | .default => if Item.anyBinds draft.named u.name then draft else draft.claim module u.name

end Synthesis

/-- Declarations by their place in the file. -/
def Declaration.before (a b : Declaration) : Bool :=
  a.span.start < b.span.start || (a.span.start == b.span.start && a.span.stop ≤ b.span.stop)

-- ---------------------------------------------------------------------------
-- Result
-- ---------------------------------------------------------------------------

/-- A module's import, if anything is to be bound, with its punctuation and the defaults it had to
discard. -/
structure Synthesis where
  canonical? : Option Canonical
  style : Style
  conflicts : List Warning
  deriving Inhabited

/-- Merge the declarations of a module with the usages of its symbols. The order in which the
declarations are listed does not matter; the style is that of the first in the file. -/
def synthesize (specifier : String) (declarations : List Declaration) (usages : UsageSet) :
    Synthesis :=
  let own := declarations.filter (·.specifier == specifier)
  let sorted := Sorting.sort Declaration.before own
  let draft := sorted.foldl (Synthesis.Draft.addDeclaration specifier) {}
  let draft := (usages.ofModule specifier).foldl (Synthesis.Draft.addUsage specifier) draft
  { canonical? :=
      if draft.default?.isSome || !draft.named.isEmpty then
        some { specifier, default? := draft.default?, named := draft.named }
      else none
    style := (sorted.head?.map (·.style)).getD {}
    conflicts := draft.conflicts }

namespace Synthesis

/-- The import as it is written. -/
def render? (s : Synthesis) : Option Text := s.canonical?.bind (·.render? s.style)

/-- Does the import bind the name? -/
def binds (s : Synthesis) (name : String) : Bool :=
  s.canonical?.any fun c => c.binds name || Item.anyBinds c.named name

/-- Was the name discarded in a conflict? -/
def discards (s : Synthesis) (name : String) : Bool :=
  s.conflicts.any fun
    | .defaultConflict _ _ discarded => discarded == name
    | _ => false

/-- The usages that the import neither binds nor reports as discarded. -/
def inconsistencies (specifier : String) (s : Synthesis) (usages : UsageSet) : List Warning :=
  ((usages.ofModule specifier).filter fun u => !s.binds u.name && !s.discards u.name).map fun u =>
    .inconsistency specifier u.name

end Synthesis

end TidyImports
