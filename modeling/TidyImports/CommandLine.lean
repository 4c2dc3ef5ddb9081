-- SUMMARY: The command line: its words as a command, and what a command does to a disk.
import TidyImports.Config.Load
import TidyImports.Report
import TidyImports.Run
import TidyImports.Vocabulary.Listing

/-!
# Command line

A command normalizes a project or shows its vocabulary. Options take their value
from the next word or after an equals sign, and none is given twice. A command
maps a disk to a disk, an exit code, and what it writes to its two streams.
-/

namespace TidyImports

inductive Format where
  | text
  | json
  deriving DecidableEq, Repr, Inhabited

/-- Which project a command is about. -/
structure ProjectChoice where
  root : Path := ⟨"."⟩
  config? : Option Path := none
  deriving DecidableEq, Repr, Inhabited

inductive Command where
  | version
  | help
  | normalize (project : ProjectChoice) (flags : Flags) (format : Format)
  | vocabulary (project : ProjectChoice) (format : Format)
  deriving DecidableEq, Repr, Inhabited

-- ---------------------------------------------------------------------------
-- Words
-- ---------------------------------------------------------------------------

/-- The options given so far. -/
structure Arguments where
  projectRoot? : Option String := none
  config? : Option String := none
  scanDir? : Option String := none
  dataDir? : Option String := none
  format? : Option Format := none
  dryRun : Bool := false
  deriving DecidableEq, Repr, Inhabited

namespace Arguments

/-- A value for an option that has none yet. -/
def once (old? : Option α) (value : α) : Option (Option α) :=
  if old?.isSome then none else some (some value)

def readFormat (word : String) : Option Format :=
  if word = "text" then some .text else if word = "json" then some .json else none

/-- Give an option its value. Showing the vocabulary takes fewer options. -/
def set (a : Arguments) (showing : Bool) (name value : String) : Option Arguments := do
  match name with
  | "--project-root" => return { a with projectRoot? := ← once a.projectRoot? value }
  | "--config" => return { a with config? := ← once a.config? value }
  | "--format" => return { a with format? := ← once a.format? (← readFormat value) }
  | "--scan-dir" =>
    if showing then none else return { a with scanDir? := ← once a.scanDir? value }
  | "--data-dir" =>
    if showing then none else return { a with dataDir? := ← once a.dataDir? value }
  | _ => none

def command (a : Arguments) (showing : Bool) : Command :=
  let root : Path := ⟨a.projectRoot?.getD "."⟩
  let project : ProjectChoice := ⟨root, a.config?.map Path.mk⟩
  let format := a.format?.getD .text
  if showing then .vocabulary project format
  else .normalize project ⟨root, a.scanDir?.map Path.mk, a.dataDir?.map Path.mk, a.dryRun⟩ format

/-- The name and value of a word that holds both. -/
def assignment? (word : String) : Option (String × String) :=
  let name := word.toList.takeWhile (· != '=')
  if name.take 2 = ['-', '-'] ∧ name.length < word.toList.length then
    some (String.ofList name, String.ofList (word.toList.drop (name.length + 1)))
  else none

/-- Can the word only be an option, and not the value of one? -/
def isOption (word : String) : Bool := word.toList.head? == some '-' && word != "-"

/-- The letter of a word that begins with one dash. More may follow the letter; the options of one
letter end the reading, so it makes no difference. -/
def letter? (word : String) : Option Char :=
  match word.toList with
  | '-' :: c :: _ => if c = '-' then none else some c
  | _ => none

/-- Read the words that are left. Asking for help or the version ends the reading. -/
def parseFrom (a : Arguments) (showing : Bool) (words : List String) : Option Command :=
  match words with
  | [] => some (a.command showing)
  | word :: rest =>
    match assignment? word with
    | some (name, value) => (a.set showing name value).bind fun a => parseFrom a showing rest
    | none =>
      if word = "--" then if rest.isEmpty then some (a.command showing) else none
      else if word = "--help" ∨ letter? word = some 'h' then some .help
      else if (word = "--version" ∨ letter? word = some 'V') ∧ !showing then some .version
      else if word = "help" ∧ !showing then
        if rest = [] ∨ rest = ["vocab"] ∨ rest = ["help"] then some .help else none
      else if word = "vocab" ∧ !showing then parseFrom {} true rest
      else if word = "--dry-run" ∧ !showing then
        if a.dryRun then none else parseFrom { a with dryRun := true } showing rest
      else
        match rest with
        | [] => none
        | value :: rest =>
          if isOption value then none
          else (a.set showing word value).bind fun a => parseFrom a showing rest

end Arguments

/-- The command that some words give, if they give one. -/
def Command.parse? (words : List String) : Option Command := Arguments.parseFrom {} false words

-- ---------------------------------------------------------------------------
-- Execution
-- ---------------------------------------------------------------------------

/-- What a command leaves behind besides the disk. -/
structure Output where
  exitCode : Nat := 0
  console : Console := {}
  deriving DecidableEq, Repr, Inhabited

def usage : Text :=
  ("Usage: importfix [OPTIONS] [vocab]\n\n" ++
    "  --project-root <DIR>  project root (default: .)\n" ++
    "  --config <FILE>       configuration file\n" ++
    "  --scan-dir <DIR>      directory of the sources, below the root (default: app)\n" ++
    "  --data-dir <DIR>      directory of the data files, below the root (default: data)\n" ++
    "  --dry-run             report what would change, and write nothing\n" ++
    "  --format <FORMAT>     text or json (default: text)\n").toList

/-- A command that fails, with what it has written before. -/
def Output.fail (console : Console) (exitCode : Nat) (message : String) : Output :=
  { exitCode, console := console ++ { err := ("error: " ++ message ++ "\n").toList } }

namespace Command

/-- What the events of a run look like on the console. -/
def display (format : Format) (events : List Event) : Console :=
  match format with
  | .text => Report.consoleOf events
  | .json => { out := Report.jsonLines events }

/-- Normalize a project's files. -/
def normalizeProject (s : Settings) (format : Format) (startedAt endedAt : Timestamp) (d : Disk) :
    Output × Disk :=
  let result := s.run s.sources startedAt endedAt d
  let console := display format result.state.events
  match result.failure? with
  | none => ({ console }, result.state.disk)
  | some f => (.fail console f.exitCode f.message, result.state.disk)

def showVocabulary (v : Vocabulary) : Format → Text
  | .text => v.listing
  | .json => Json.indented 0 v.toDocument ++ ['\n']

/-- The configuration of a project. -/
def configOf (project : ProjectChoice) (d : Disk) : Except Output Config :=
  match Config.loadOrDefault d project.root project.config? with
  | .ok c => .ok c
  | .error f => .error (.fail {} 1 ("load " ++ Config.fileName ++ " config: " ++ f.message))

/-- The settings a command works with, if it works on files. -/
def settings? (c : Command) (d : Disk) : Option Settings :=
  match c with
  | .normalize project flags _ => (configOf project d).toOption.map (·.settings flags)
  | _ => none

/-- The files a command may read its configuration from. -/
def configPaths : Command → List Path
  | .normalize project _ _ | .vocabulary project _ =>
    project.config?.toList ++ [project.root.join ⟨Config.fileName⟩]
  | _ => []

/-- Execute a command between two points in time. -/
def execute (c : Command) (startedAt endedAt : Timestamp) (d : Disk) : Output × Disk :=
  match c with
  | .version =>
    let version := (Run.tool.version?.map (" " ++ ·)).getD ""
    ({ console := { out := (Run.tool.name ++ version ++ "\n").toList } }, d)
  | .help => ({ console := { out := usage } }, d)
  | .vocabulary project format =>
    match configOf project d with
    | .error output => (output, d)
    | .ok config => ({ console := { out := showVocabulary config.vocabulary format } }, d)
  | .normalize project flags format =>
    match configOf project d with
    | .error output => (output, d)
    | .ok config => normalizeProject (config.settings flags) format startedAt endedAt d

/-- Execute the command that some words give. -/
def run (words : List String) (startedAt endedAt : Timestamp) (d : Disk) : Output × Disk :=
  match parse? words with
  | none => ({ exitCode := 2, console := { err := usage } }, d)
  | some c => c.execute startedAt endedAt d

end Command

end TidyImports
