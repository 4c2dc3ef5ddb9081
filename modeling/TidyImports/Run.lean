-- SUMMARY: A run: every source file is planned and patched, and everything is told in events.
import TidyImports.Disk.Discovery
import TidyImports.Event
import TidyImports.Patch.Apply
import TidyImports.Settings

/-!
# Runs

Files are worked on one at a time, in the order in which they were discovered.
Each is read fresh, planned, and patched. Warnings stop nothing; the first
failure ends the run, and what was reported before it stands.
-/

namespace TidyImports

/-- Where a run finds its files: which they are, and how they are read as the disk changes. -/
structure Sources where
  files : Disk → Except Disk.DiscoveryFailure (List Path)
  view : Disk → View

/-- The sources of a project, on the disk itself. -/
def Settings.sources (s : Settings) : Sources where
  files d := d.discover s.scanRoot s.extensions
  view d := d.view s.projectRoot

/-- These files, read from a snapshot. -/
def Snapshot.sources (s : Snapshot) (files : List Path) : Sources where
  files _ := .ok files
  view _ := s.view

namespace Run

/-- Why a run ends early. -/
inductive Failure where
  | discovery (f : Disk.DiscoveryFailure)
  | unreadable (f : ReadFailure)
  /-- A file changed or vanished after it was read. -/
  | precondition (m : Patch.Mismatch)
  | refused (r : Patch.Refusal)
  deriving DecidableEq, Repr, Inhabited

namespace Failure

def ofPatch : Patch.Failure → Failure
  | .precondition m => .precondition m
  | .refused r => .refused r

def message : Failure → String
  | .discovery f => "discover sources: " ++ f.message
  | .unreadable f => f.message
  | .precondition m => m.message
  | .refused r => r.message

def isPrecondition : Failure → Bool
  | .precondition _ => true
  | _ => false

/-- The exit code of a program that fails so. -/
def exitCode (f : Failure) : Nat := if f.isPrecondition then 2 else 1

end Failure

/-- A run under way. -/
structure State where
  disk : Disk
  events : List Event := []
  summary : Summary := {}
  deriving DecidableEq, Inhabited

/-- A run that is over. -/
structure Result where
  state : State
  failure? : Option Failure := none
  deriving DecidableEq, Inhabited

namespace State

def report (s : State) (e : Event) : State := { s with events := s.events ++ [e] }

/-- Report a warning and count it. -/
def warn (s : State) (path : Path) (w : Warning) : State :=
  { s.report (.warning path w) with
    summary := { s.summary with warnings := s.summary.warnings + 1 } }

/-- One more file has been looked at. -/
def countFile (s : State) : State :=
  { s with summary := { s.summary with filesScanned := s.summary.filesScanned + 1 } }

/-- Report and count what became of a patch. -/
def conclude (s : State) (p : Patch) : Patch.Outcome → State
  | .unchanged => s
  | .preview diff =>
    { s.report (.filePreview p.path p.changes diff) with
      summary := { s.summary with filesChanged := s.summary.filesChanged + 1 } }
  | .written backupCreated =>
    { s.report (.filePatched p.path p.changes backupCreated) with
      summary := { s.summary with
        filesChanged := s.summary.filesChanged + 1
        backupsCreated := s.summary.backupsCreated + if backupCreated then 1 else 0 } }

end State

def options (s : Settings) : Patch.Options := ⟨s.dryRun, s.backupSuffix⟩

/-- Plan and patch a text. -/
def processText (s : Settings) (view : Disk → View) (path : Path) (t : Text) (state : State) :
    Except Result State :=
  let plan := s.project.plan (view state.disk).isFile path t
  let warned := plan.warnings.foldl (fun state w => state.warn path w) state
  if plan.isNoop then .ok warned
  else
    let patch : Patch := ⟨path, t, plan.text, plan.changes⟩
    match patch.apply s.projectRoot (options s) warned.disk with
    | (disk, .ok outcome) => .ok ({ warned with disk }.conclude patch outcome)
    | (disk, .error f) => .error ⟨{ warned with disk }, some (.ofPatch f)⟩

/-- One file. It is reported under its path relative to the project root. -/
def processFile (s : Settings) (view : Disk → View) (file : Path) (state : State) :
    Except Result State :=
  let path := file.relativeTo s.projectRoot
  match (view state.disk).read file with
  | .error f => .error ⟨state.countFile, some (.unreadable f)⟩
  | .ok bytes =>
    match String.fromUTF8? bytes with
    | none => .ok (state.countFile.warn path .notUtf8)
    | some text => processText s view path text.toList state.countFile

/-- All files, up to the first failure. -/
def processFiles (s : Settings) (view : Disk → View) (files : List Path) (state : State) :
    Except Result State :=
  files.foldlM (fun state file => processFile s view file state) state

/-- The program that runs. -/
def tool : Tool := ⟨"importfix", some "0.1.0"⟩

/-- The state before the first file. -/
def start (s : Settings) (startedAt : Timestamp) (d : Disk) : State :=
  { disk := d
    events := [.started tool (s.scanRoot.relativeTo s.projectRoot)]
    summary := { dryRun := s.dryRun, startedAt? := some startedAt } }

/-- The last event. -/
def finish (endedAt : Timestamp) (state : State) : State :=
  let summary := { state.summary with endedAt? := some endedAt }
  { state.report (.completed summary) with summary }

end Run

/-- Normalize the source files of a project. -/
def Settings.run (s : Settings) (sources : Sources) (startedAt endedAt : Timestamp) (d : Disk) :
    Run.Result :=
  let state := Run.start s startedAt d
  match sources.files d with
  | .error f => ⟨state, some (.discovery f)⟩
  | .ok files =>
    match Run.processFiles s sources.view files state with
    | .error result => result
    | .ok state => ⟨Run.finish endedAt state, none⟩

end TidyImports
