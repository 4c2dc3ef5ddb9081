-- SUMMARY: What a run reports while it works.
import TidyImports.Change
import TidyImports.Path.Basic
import TidyImports.Text.Basic
import TidyImports.Timestamp
import TidyImports.Warning

/-!
# Events

A run tells what it does in events: it starts, warns about a file, patches a
file or previews the patch, and completes. Paths in events are relative to the
project root.
-/

namespace TidyImports

/-- The program that runs. -/
structure Tool where
  name : String
  version? : Option String := none
  deriving DecidableEq, Repr, Inhabited

/-- The counters of one run. -/
structure Summary where
  filesScanned : Nat := 0
  filesChanged : Nat := 0
  backupsCreated : Nat := 0
  warnings : Nat := 0
  dryRun : Bool := false
  startedAt? : Option Timestamp := none
  endedAt? : Option Timestamp := none
  deriving DecidableEq, Repr, Inhabited

inductive Event where
  | started (tool : Tool) (scanRoot : Path)
  | filePatched (path : Path) (changes : List Change) (backupCreated : Bool)
  | filePreview (path : Path) (changes : List Change) (diff : Text)
  | warning (path : Path) (warning : Warning)
  | completed (summary : Summary)
  deriving DecidableEq, Repr, Inhabited

namespace Event

/-- The file an event changes or would change, with the changes. -/
def changed? : Event → Option (Path × List Change)
  | .filePatched path changes _ | .filePreview path changes _ => some (path, changes)
  | _ => none

def warning? : Event → Option Warning
  | .warning _ w => some w
  | _ => none

end Event

/-- The files with a change of a kind. -/
def pathsWith (kind : Change.Kind) (events : List Event) : List Path :=
  (events.filterMap Event.changed?).filterMap fun (path, changes) =>
    if changes.any (·.kind == kind) then some path else none

end TidyImports
