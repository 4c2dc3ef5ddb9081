-- SUMMARY: What a run needs to know about its project.
import TidyImports.Path.Basic
import TidyImports.Plan

/-!
# Settings

Directories are absolute or relative to the project root. Without any
configuration the sources are below `app` and the data files in `data`.
-/

namespace TidyImports

structure Settings where
  projectRoot : Path := ⟨"."⟩
  scanDir : Path := ⟨"app"⟩
  dataDir : Path := ⟨"data"⟩
  /-- The extensions of source files, without the dot. -/
  extensions : List String := ["js", "jsx", "ts", "tsx"]
  backupSuffix : String := ".bak"
  /-- Report what would change, and write nothing. -/
  dryRun : Bool := false
  vocabulary : Vocabulary := {}
  deriving DecidableEq, Repr, Inhabited

namespace Settings

def scanRoot (s : Settings) : Path := s.scanDir.under s.projectRoot

def dataRoot (s : Settings) : Path := s.dataDir.under s.projectRoot

/-- What a plan needs to know of it. -/
def project (s : Settings) : Project := ⟨s.projectRoot, s.dataDir, s.vocabulary⟩

end Settings

end TidyImports
