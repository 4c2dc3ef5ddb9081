-- SUMMARY: The source files below a directory.
import TidyImports.Disk.Resolve

/-!
# Discovery

A directory is walked depth first, its entries in the order of their names.
Links are followed, except to nothing and to a directory that the walk is
inside of. A file counts when its extension is among those asked for.
-/

namespace TidyImports

namespace Disk

/-- Why there are no sources. -/
inductive DiscoveryFailure where
  | noScanRoot (root : Path)
  | notADirectory (root : Path)
  deriving DecidableEq, Repr, Inhabited

def DiscoveryFailure.message : DiscoveryFailure → String
  | .noScanRoot root => "scan root " ++ root.text
  | .notADirectory root => "scan root " ++ root.text ++ " is not a directory"

/-- The files below a directory: `inside` are the directories the walk is in, innermost first. The
walk goes `depth` levels down at most. A link or directory is entered by its whole path, so that
all links on the way to it count. -/
def filesBelow (d : Disk) : (depth : Nat) → (inside : List Location) → (place : Location) →
    (path : Path) → List Path
  | 0, _, _, _ => []
  | depth + 1, inside, place, path =>
    (d.namesIn place).flatMap fun name =>
      let entry := path.join ⟨name⟩
      match d.node? (place ++ [name]) with
      | none => []
      | some (.file _) => [entry]
      | some other =>
        match d.find true entry with
        | .ok (_, .file _) => [entry]
        | .ok (target, .directory) =>
          if other != .directory && inside.contains target then []
          else d.filesBelow depth (target :: inside) target entry
        | _ => []

/-- Levels that a walk can go down: between two links not more than there are nodes, and each link
leads to another directory. -/
def maxDepth (d : Disk) : Nat := (d.nodes.length + 2) * (d.nodes.length + 2)

/-- The files below a directory with one of the extensions, as paths that start with its own. -/
def discover (d : Disk) (root : Path) (extensions : List String) :
    Except DiscoveryFailure (List Path) :=
  match d.find true root with
  | .error _ => .error (.noScanRoot root)
  | .ok (place, .directory) =>
    .ok ((d.filesBelow d.maxDepth [place] place root).filter fun p =>
      p.extension?.any extensions.contains)
  | .ok _ => .error (.notADirectory root)

end Disk

end TidyImports
