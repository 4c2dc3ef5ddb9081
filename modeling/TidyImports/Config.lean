-- SUMMARY: Configuration of a project: what its file says, and how that becomes settings.
import TidyImports.KeyedList
import TidyImports.Settings
import TidyImports.Toml.Parser
import TidyImports.Vocabulary.Document

/-!
# Configuration

A configuration leaves open what it does not name. Flags win over it, and it
wins over the built-in values. Its rules are laid over the built-in vocabulary:
a rule replaces the one with its key and otherwise comes at the end, so the last
rule with a key counts.
-/

namespace TidyImports

/-- What a configuration file says. -/
structure Config where
  scanDir? : Option Path := none
  extensions? : Option (List String) := none
  dataDir? : Option Path := none
  shorthand? : Option String := none
  dataRules : List DataRule := []
  backupSuffix? : Option String := none
  directive? : Option String := none
  modules : List ModuleRule := []
  deriving DecidableEq, Repr, Inhabited

/-- What the command line says. -/
structure Flags where
  projectRoot : Path := ⟨""⟩
  scanDir? : Option Path := none
  dataDir? : Option Path := none
  dryRun : Bool := false
  deriving DecidableEq, Repr, Inhabited

namespace Config

-- ---------------------------------------------------------------------------
-- Settings
-- ---------------------------------------------------------------------------

/-- Lay the configuration over a vocabulary. -/
def overlay (c : Config) (v : Vocabulary) : Vocabulary where
  clientDirective := c.directive?.getD v.clientDirective
  modules := KeyedList.putAll ModuleRule.specifier c.modules v.modules
  data :=
    { shorthand := c.shorthand?.getD v.data.shorthand
      rules := KeyedList.putAll DataRule.binding c.dataRules v.data.rules }

def vocabulary (c : Config) : Vocabulary := c.overlay {}

/-- Flags win over the configuration, and that wins over what is built in. -/
def settings (c : Config) (flags : Flags) : Settings :=
  let builtIn : Settings := {}
  { projectRoot := flags.projectRoot
    scanDir := (flags.scanDir? <|> c.scanDir?).getD builtIn.scanDir
    dataDir := (flags.dataDir? <|> c.dataDir?).getD builtIn.dataDir
    extensions := c.extensions?.getD builtIn.extensions
    backupSuffix := c.backupSuffix?.getD builtIn.backupSuffix
    dryRun := flags.dryRun
    vocabulary := c.vocabulary }

-- ---------------------------------------------------------------------------
-- Documents
-- ---------------------------------------------------------------------------

/-- A path is written as a text. -/
def asPath? (d : Document) : Option Path := d.asText?.map Path.mk

/-- The parts of a configuration are records, and any part may be missing. -/
def ofDocument? (dialect : Document.Dialect) (d : Document) : Option Config := do
  let d ← d.asRecord? dialect ["scan", "data", "backups", "directive", "modules"]
  let part (name : String) (names : List String) : Option Document :=
    d.defaulted name (Document.asRecord? dialect names) (.table [])
  let scan ← part "scan" ["dir", "extensions"]
  let data ← part "data" ["dir", "alias", "rules"]
  let backups ← part "backups" ["suffix"]
  let directive ← part "directive" ["name"]
  return {
    scanDir? := ← scan.optional "dir" asPath?
    extensions? := ← scan.optional "extensions" (Document.asListOf? Document.asText?)
    dataDir? := ← data.optional "dir" asPath?
    shorthand? := ← data.optional "alias" Document.asText?
    dataRules := ←
      data.defaulted "rules" (Document.asListOf? (DataRule.ofDocument? dialect)) []
    backupSuffix? := ← backups.optional "suffix" Document.asText?
    directive? := ← directive.optional "name" Document.asText?
    modules := ←
      d.defaulted "modules" (Document.asListOf? (ModuleRule.ofDocument? dialect)) [] }

/-- Read the text of a configuration file. -/
def parse? (t : Text) : Option Config := (Toml.parse? t).bind (ofDocument? .toml)

/-- The name of a project's configuration file. -/
def fileName : String := "importfix.toml"

end Config

end TidyImports
