-- SUMMARY: Events as documents, written and read.
import TidyImports.Document.Basic
import TidyImports.Event

/-!
# Events as documents

A document names the kind of its event or warning in one field; the others
follow in a fixed order. Fields without a value are left out. Reading takes back
what writing produces. Changes are also read outside of events, so their reader is
told where they stand; all that an event holds is part of a document that names
its own kind.
-/

namespace TidyImports

-- ---------------------------------------------------------------------------
-- Changes
-- ---------------------------------------------------------------------------

def Change.Kind.word : Change.Kind → String
  | .merged => "merged"
  | .patched => "patched"
  | .inserted => "inserted"
  | .retargeted => "rewritten"

def Change.Kind.ofWord? : String → Option Change.Kind
  | "merged" => some .merged
  | "patched" => some .patched
  | "inserted" => some .inserted
  | "rewritten" => some .retargeted
  | _ => none

def Change.Kind.ofDocument? (dialect : Document.Dialect) (d : Document) : Option Change.Kind :=
  (d.asWord? dialect).bind ofWord?

def Change.toDocument (c : Change) : Document :=
  .table [("kind", .text c.kind.word), ("module", .text c.module), ("detail", .text c.detail)]

def Change.ofDocument? (dialect : Document.Dialect) (d : Document) : Option Change := do
  let d ← d.asRecord? dialect ["kind", "module", "detail"]
  let kind ← d.required "kind" (Change.Kind.ofDocument? dialect)
  let module ← d.required "module" Document.asText?
  let detail ← d.required "detail" Document.asText?
  return { kind, module, detail }

-- ---------------------------------------------------------------------------
-- Warnings
-- ---------------------------------------------------------------------------

/-- The fields of a warning's document. -/
def Warning.fields : Warning → List (String × Document)
  | .missingDataFile specifier target =>
    [("type", .text "missing_data_file"), ("specifier", .text specifier), ("target", .text target)]
  | .defaultConflict module kept discarded =>
    [("type", .text "default_conflict"), ("module", .text module), ("kept", .text kept),
      ("discarded", .text discarded)]
  | .inconsistency module symbol =>
    [("type", .text "inconsistency"), ("module", .text module), ("symbol", .text symbol)]
  | .notUtf8 => [("type", .text "not_utf8")]

def Warning.toDocument (w : Warning) : Document := .table w.fields

/-- The names of the kinds of warnings, in the order of their numbers. -/
def Warning.kinds : List String :=
  ["missing_data_file", "default_conflict", "inconsistency", "not_utf8"]

/-- The warning in an event's document. -/
def Warning.ofDocument? (d : Document) : Option Warning := do
  let (word, d) ← d.tagged? .taggedJson "type" kinds
  match word with
  | "missing_data_file" =>
    let d ← d.asRecord? .taggedJson ["specifier", "target"]
    return .missingDataFile (← d.required "specifier" Document.asText?)
      (← d.required "target" Document.asText?)
  | "default_conflict" =>
    let d ← d.asRecord? .taggedJson ["module", "kept", "discarded"]
    return .defaultConflict (← d.required "module" Document.asText?)
      (← d.required "kept" Document.asText?) (← d.required "discarded" Document.asText?)
  | "inconsistency" =>
    let d ← d.asRecord? .taggedJson ["module", "symbol"]
    return .inconsistency (← d.required "module" Document.asText?)
      (← d.required "symbol" Document.asText?)
  | "not_utf8" =>
    let _ ← d.asRecord? .taggedJson []
    return .notUtf8
  | _ => none

-- ---------------------------------------------------------------------------
-- Tools and summaries
-- ---------------------------------------------------------------------------

def Tool.toDocument (t : Tool) : Document :=
  .table (Document.present [("name", some (.text t.name)), ("version", t.version?.map .text)])

def Tool.ofDocument? (d : Document) : Option Tool := do
  let d ← d.asRecord? .taggedJson ["name", "version"]
  return ⟨← d.required "name" Document.asText?, ← d.optional "version" Document.asText?⟩

def Summary.toDocument (s : Summary) : Document :=
  .table (Document.present [
    ("files_scanned", some (.ofNat s.filesScanned)),
    ("files_changed", some (.ofNat s.filesChanged)),
    ("backups_created", some (.ofNat s.backupsCreated)),
    ("warnings", some (.ofNat s.warnings)),
    ("dry_run", some (.bool s.dryRun)),
    ("started_at", s.startedAt?.map .text),
    ("ended_at", s.endedAt?.map .text)])

def Summary.ofDocument? (d : Document) : Option Summary := do
  let d ← d.asRecord? .taggedJson ["files_scanned", "files_changed", "backups_created", "warnings",
    "dry_run", "started_at", "ended_at"]
  return {
    filesScanned := ← d.required "files_scanned" Document.asCount?
    filesChanged := ← d.required "files_changed" Document.asCount?
    backupsCreated := ← d.required "backups_created" Document.asCount?
    warnings := ← d.required "warnings" Document.asCount?
    dryRun := ← d.required "dry_run" Document.asBool?
    startedAt? := ← d.optional "started_at" Document.asText?
    endedAt? := ← d.optional "ended_at" Document.asText? }

-- ---------------------------------------------------------------------------
-- Events
-- ---------------------------------------------------------------------------

/-- The fields of an event's document. -/
def Event.fields : Event → List (String × Document)
  | .started tool scanRoot =>
    [("event", .text "started"), ("tool", tool.toDocument), ("scan_root", .text scanRoot.text)]
  | .filePatched path changes backupCreated =>
    [("event", .text "file_patched"), ("path", .text path.text),
      ("changes", .list (changes.map Change.toDocument)), ("backup_created", .bool backupCreated)]
  | .filePreview path changes diff =>
    [("event", .text "file_preview"), ("path", .text path.text),
      ("changes", .list (changes.map Change.toDocument)), ("diff", .text (String.ofList diff))]
  | .warning path w =>
    [("event", .text "warning"), ("path", .text path.text), ("warning", w.toDocument)]
  | .completed summary => [("event", .text "completed"), ("summary", summary.toDocument)]

def Event.toDocument (e : Event) : Document := .table e.fields

/-- A path in a field. -/
def pathIn (d : Document) (name : String) : Option Path :=
  (d.required name Document.asText?).map Path.mk

/-- The names of the kinds of events, in the order of their numbers. -/
def Event.kinds : List String :=
  ["started", "file_patched", "file_preview", "warning", "completed"]

def Event.ofDocument? (d : Document) : Option Event := do
  let (word, d) ← d.tagged? .json "event" kinds
  match word with
  | "started" =>
    let d ← d.asRecord? .taggedJson ["tool", "scan_root"]
    return .started (← d.required "tool" Tool.ofDocument?) (← pathIn d "scan_root")
  | "file_patched" =>
    let d ← d.asRecord? .taggedJson ["path", "changes", "backup_created"]
    return .filePatched (← pathIn d "path")
      (← d.required "changes" (Document.asListOf? (Change.ofDocument? .taggedJson)))
      (← d.required "backup_created" Document.asBool?)
  | "file_preview" =>
    let d ← d.asRecord? .taggedJson ["path", "changes", "diff"]
    return .filePreview (← pathIn d "path")
      (← d.required "changes" (Document.asListOf? (Change.ofDocument? .taggedJson)))
      (← d.required "diff" Document.asText?).toList
  | "warning" =>
    let d ← d.asRecord? .taggedJson ["path", "warning"]
    return .warning (← pathIn d "path") (← d.required "warning" Warning.ofDocument?)
  | "completed" =>
    let d ← d.asRecord? .taggedJson ["summary"]
    return .completed (← d.required "summary" Summary.ofDocument?)
  | _ => none

end TidyImports
