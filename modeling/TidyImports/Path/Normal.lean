-- SUMMARY: Normal paths: no `.`, and `..` only in front.
import TidyImports.Path.Basic

/-!
# Normal paths

Normalizing resolves `.` and `..` by text alone. A `..` takes back the name
before it; where there is none, after the root or in front of a relative path,
it stays.
-/

namespace TidyImports

namespace Component

/-- Add a component to a normal path, given by its components in reverse. -/
def push (stack : List Component) (c : Component) : List Component :=
  match c with
  | .current => stack
  | .parent =>
    match stack with
    | .normal _ :: outer => outer
    | _ => .parent :: stack
  | c => c :: stack

/-- The components of the normal path. -/
def normalize (components : List Component) : List Component :=
  (components.foldl push []).reverse

end Component

namespace Path

def normalize (p : Path) : Path := ofComponents (Component.normalize p.components)

/-- The path without its last component; nothing when it has none, or only the root. -/
def parent? (p : Path) : Option Path :=
  match p.components.reverse with
  | [] | .root :: _ => none
  | _ :: outer => some (ofComponents outer.reverse)

end Path

end TidyImports
