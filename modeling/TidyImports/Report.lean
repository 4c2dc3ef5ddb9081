-- SUMMARY: Events as text: lines for people, and lines of JSON for programs.
import TidyImports.Event.Document
import TidyImports.Json.Printer

/-!
# Reports

The console shows a line for each kind of change in a file, diffs of previewed
patches, and a closing line with the counters; warnings go to a stream of their
own. The JSON report is one compact document per line.
-/

namespace TidyImports

/-- The two streams of the console. -/
structure Console where
  out : Text := []
  err : Text := []
  deriving DecidableEq, Repr, Inhabited

instance : Append Console := ⟨fun a b => ⟨a.out ++ b.out, a.err ++ b.err⟩⟩

namespace Report

-- ---------------------------------------------------------------------------
-- Console
-- ---------------------------------------------------------------------------

def label : Change.Kind → String
  | .merged => "Merged imports in:"
  | .patched => "Patched:"
  | .inserted => "Inserted imports in:"
  | .retargeted => "Rewrote data imports in:"

/-- One line for each kind among the changes. -/
def changeLines (path : Path) (changes : List Change) : Text :=
  (Change.Kind.all.filter fun kind => changes.any (·.kind == kind)).flatMap fun kind =>
    (label kind ++ " " ++ path.text ++ "\n").toList

/-- The closing line. -/
def doneLine (s : Summary) : Text :=
  let verb := if s.dryRun then "would change" else "changed"
  s!"Done. {s.filesScanned} file(s) scanned, {s.filesChanged} {verb}, {
    s.backupsCreated} backup(s) created, {s.warnings} warning(s).\n".toList

/-- What the console shows of an event. -/
def console : Event → Console
  | .started _ _ => {}
  | .filePatched path changes _ => { out := changeLines path changes }
  | .filePreview path changes diff => { out := changeLines path changes ++ diff }
  | .warning path w => { err := s!"warning: {path.text}: {w.message}\n".toList }
  | .completed summary => { out := doneLine summary }

/-- What the console shows of a run. -/
def consoleOf (events : List Event) : Console :=
  events.foldr (fun e rest => console e ++ rest) {}

-- ---------------------------------------------------------------------------
-- Lines of JSON
-- ---------------------------------------------------------------------------

/-- The name of the format that the lines are in. -/
def schema : String := "importfix.event.v1"

/-- An event on a line of its own. -/
def jsonLine (e : Event) : Text :=
  Json.compact (.table (("schema", .text schema) :: e.fields)) ++ ['\n']

def jsonLines (events : List Event) : Text := events.flatMap jsonLine

end Report

end TidyImports
