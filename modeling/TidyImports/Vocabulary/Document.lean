-- SUMMARY: The vocabulary as a document, read and written.
import TidyImports.Document.Basic
import TidyImports.Vocabulary

/-!
# Vocabularies as documents

A part that may be missing has the value that its type gives it by default.
-/

namespace TidyImports

def Binding.word : Binding → String
  | .named => "named"
  | .default => "default"

def Binding.ofWord? : String → Option Binding
  | "named" => some .named
  | "default" => some .default
  | _ => none

def Binding.ofDocument? (dialect : Document.Dialect) (d : Document) : Option Binding :=
  (d.asWord? dialect).bind ofWord?

def Pattern.word : Pattern → String
  | .reference => "reference"
  | .call => "call"
  | .element => "element"

def Pattern.ofWord? : String → Option Pattern
  | "reference" => some .reference
  | "call" => some .call
  | "element" => some .element
  | _ => none

def Pattern.ofDocument? (dialect : Document.Dialect) (d : Document) : Option Pattern :=
  (d.asWord? dialect).bind ofWord?

-- ---------------------------------------------------------------------------
-- Symbols
-- ---------------------------------------------------------------------------

def SymbolRule.ofDocument? (dialect : Document.Dialect) (d : Document) : Option SymbolRule := do
  let d ← d.asRecord? dialect ["name", "binding", "pattern"]
  let name ← d.required "name" Document.asText?
  let binding ← d.defaulted "binding" (Binding.ofDocument? dialect) .named
  let pattern ← d.defaulted "pattern" (Pattern.ofDocument? dialect) .reference
  return { name, binding, pattern }

def SymbolRule.toDocument (r : SymbolRule) : Document :=
  .table [("name", .text r.name), ("binding", .text r.binding.word),
    ("pattern", .text r.pattern.word)]

-- ---------------------------------------------------------------------------
-- Modules
-- ---------------------------------------------------------------------------

def ModuleRule.ofDocument? (dialect : Document.Dialect) (d : Document) : Option ModuleRule := do
  let d ← d.asRecord? dialect ["specifier", "requires_directive", "symbols"]
  let specifier ← d.required "specifier" Document.asText?
  let requiresDirective ← d.defaulted "requires_directive" Document.asBool? false
  let symbols ← d.defaulted "symbols" (Document.asListOf? (SymbolRule.ofDocument? dialect)) []
  return { specifier, requiresDirective, symbols }

def ModuleRule.toDocument (r : ModuleRule) : Document :=
  .table [("specifier", .text r.specifier), ("requires_directive", .bool r.requiresDirective),
    ("symbols", .list (r.symbols.map SymbolRule.toDocument))]

-- ---------------------------------------------------------------------------
-- Data rules
-- ---------------------------------------------------------------------------

def DataRule.ofDocument? (dialect : Document.Dialect) (d : Document) : Option DataRule := do
  let d ← d.asRecord? dialect ["keywords", "binding", "file"]
  let keywords ← d.required "keywords" (Document.asListOf? Document.asText?)
  let binding ← d.required "binding" Document.asText?
  let file ← d.required "file" Document.asText?
  return { keywords, binding, file }

def DataRule.toDocument (r : DataRule) : Document :=
  .table [("keywords", .ofTexts r.keywords), ("binding", .text r.binding), ("file", .text r.file)]

def DataRules.ofDocument? (dialect : Document.Dialect) (d : Document) : Option DataRules := do
  let d ← d.asRecord? dialect ["alias", "rules"]
  let builtIn : DataRules := {}
  let shorthand ← d.defaulted "alias" Document.asText? builtIn.shorthand
  let rules ← d.defaulted "rules" (Document.asListOf? (DataRule.ofDocument? dialect)) builtIn.rules
  return { shorthand, rules }

def DataRules.toDocument (r : DataRules) : Document :=
  .table [("alias", .text r.shorthand), ("rules", .list (r.rules.map DataRule.toDocument))]

-- ---------------------------------------------------------------------------
-- The vocabulary
-- ---------------------------------------------------------------------------

def Vocabulary.ofDocument? (dialect : Document.Dialect) (d : Document) : Option Vocabulary := do
  let d ← d.asRecord? dialect ["client_directive", "modules", "data"]
  let builtIn : Vocabulary := {}
  let clientDirective ←
    d.defaulted "client_directive" Document.asText? builtIn.clientDirective
  let modules ←
    d.defaulted "modules" (Document.asListOf? (ModuleRule.ofDocument? dialect)) builtIn.modules
  let data ← d.defaulted "data" (DataRules.ofDocument? dialect) builtIn.data
  return { clientDirective, modules, data }

def Vocabulary.toDocument (v : Vocabulary) : Document :=
  .table [("client_directive", .text v.clientDirective),
    ("modules", .list (v.modules.map ModuleRule.toDocument)), ("data", v.data.toDocument)]

end TidyImports
