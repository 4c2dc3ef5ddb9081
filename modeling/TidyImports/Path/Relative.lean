-- SUMMARY: The path from one place to another, and the module specifier it makes.
import TidyImports.Path.Basic

/-!
# Relative paths

The way from a directory to a target climbs out of what they do not share and
descends to the target. There is none when the directory climbs by itself, since
it is unknown where it stands. A module specifier that names a file this way
starts with `./` or `../`.
-/

namespace TidyImports

namespace Component

/-- The components that lead from `base` to `target`. Equal components in front are shared as
long as nothing has been written. -/
def difference? (started : Bool) : (target base : List Component) → Option (List Component)
  | [], [] => some []
  | t :: ts, [] => some (t :: ts)
  | [], _ :: bs => (difference? true [] bs).map (.parent :: ·)
  | t :: ts, b :: bs =>
    if !started && t == b then difference? false ts bs
    else if b = .current then (difference? true ts bs).map (t :: ·)
    else if b = .parent then none
    else some (.parent :: (bs.map fun _ => .parent) ++ t :: ts)

end Component

namespace Path

/-- The path from `base` to `target`. When only one of them is absolute, the target must be. -/
def difference? (target base : Path) : Option Path :=
  if target.isAbsolute != base.isAbsolute then
    if target.isAbsolute then some target else none
  else (Component.difference? false target.components base.components).map ofComponents

/-- Does a specifier name a file from where it stands? -/
def isRelativeSpecifier (specifier : String) : Bool :=
  "./".toList.isPrefixOf specifier.toList || "../".toList.isPrefixOf specifier.toList

/-- The module specifier for `target` in a file of the directory `fromDir`. -/
def relativeSpecifier? (target fromDir : Path) : Option String :=
  (difference? target fromDir).map fun way =>
    let joined := ofSlashPieces (way.components.map Component.text)
    if isRelativeSpecifier joined then joined else "./" ++ joined

end Path

end TidyImports
