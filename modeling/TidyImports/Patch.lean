-- SUMMARY: Proposed replacements of whole files and their unified diffs.
import TidyImports.Change
import TidyImports.Sha256
import TidyImports.Path.Basic
import TidyImports.Diff.Unified

/-!
# Patches

A patch proposes a new text for one file and remembers the text it was planned
from. The digest of that text tells later whether the file still holds it.
-/

namespace TidyImports

/-- A new text for a file, with the changes that lead to it. -/
structure Patch where
  path : Path
  oldText : Text
  newText : Text
  changes : List Change
  deriving DecidableEq, Repr, Inhabited

/-- The bytes of a text. -/
def Text.bytes (t : Text) : ByteArray := (String.ofList t).toUTF8

namespace Patch

/-- Does the patch propose anything new? -/
def changed (p : Patch) : Bool := p.oldText ≠ p.newText

/-- The digest a file must have for the patch to apply. -/
def oldDigest (p : Patch) : String := Sha256.digest p.oldText.bytes

/-- The lines that name the file on both sides. -/
def header (path : Path) : Text :=
  let name := path.text.toList
  "diff --git a/".toList ++ name ++ " b/".toList ++ name ++ "\n--- a/".toList ++ name ++
    "\n+++ b/".toList ++ name ++ ['\n']

/-- The unified diff, empty for a patch that proposes nothing new. -/
def diff (p : Patch) : Text :=
  if p.changed then header p.path ++ Diff.unified p.oldText p.newText else []

end Patch

/-- A backup has the name of its source with a suffix. -/
def Path.backup (p : Path) (suffix : String) : Path := ⟨p.text ++ suffix⟩

end TidyImports
