-- SUMMARY: The vocabulary: modules and their symbols, data files and the paths that call for them.
import TidyImports.Sorting
import TidyImports.Text.Basic

/-!
# Vocabulary

The vocabulary says which symbols come from which module, and which files, by
a keyword in their path, are expected to import which data file.
-/

namespace TidyImports

/-- How a name is bound by an import. -/
inductive Binding where
  | named
  | default
  deriving DecidableEq, Repr, Inhabited

/-- How a symbol has to appear to count as used. -/
inductive Pattern where
  /-- Any occurrence. -/
  | reference
  /-- Before an opening parenthesis. -/
  | call
  /-- As in a call, or after an opening angle bracket. -/
  | element
  deriving DecidableEq, Repr, Inhabited

structure SymbolRule where
  name : String
  binding : Binding := .named
  pattern : Pattern := .reference
  deriving DecidableEq, Repr, Inhabited

structure ModuleRule where
  specifier : String
  /-- Does a new import of this module call for the client directive? -/
  requiresDirective : Bool := false
  symbols : List SymbolRule := []
  deriving DecidableEq, Repr, Inhabited

/-- Files whose path holds one of the keywords import `file` as `binding`. -/
structure DataRule where
  keywords : List String
  binding : String
  file : String
  deriving DecidableEq, Repr, Inhabited

/-- The path is compared with the keywords without regard to the case of ASCII letters. -/
def DataRule.matchesPath (r : DataRule) (path : String) : Bool :=
  r.keywords.any fun k => Text.hasInfix (path.toList.map Char.toLower) (k.toList.map Char.toLower)

-- ---------------------------------------------------------------------------
-- Built-in rules
-- ---------------------------------------------------------------------------

structure DataRules where
  /-- The prefix of a specifier that stands for the data directory. -/
  shorthand : String := "@/data/"
  rules : List DataRule :=
    [ { keywords := ["vulnerabilities"], binding := "vulnerabilitiesData"
        file := "vulnerabilities.json" },
      { keywords := ["malware"], binding := "malwareData", file := "malware.json" },
      { keywords := ["zero-days", "zerodays", "zero_days"], binding := "zeroDaysData"
        file := "zero-days.json" },
      { keywords := ["jobs"], binding := "jobs", file := "jobs.json" } ]
  deriving DecidableEq, Repr, Inhabited

/-- The hooks of `react`, all imported by name. -/
def reactModule : ModuleRule where
  specifier := "react"
  requiresDirective := true
  symbols :=
    ["useState", "useEffect", "useMemo", "useCallback", "useRef", "useLayoutEffect",
     "useImperativeHandle", "useReducer", "useContext", "useDebugValue"].map ({ name := · })

/-- The link component, a default import. -/
def linkModule : ModuleRule where
  specifier := "next/link"
  symbols := [{ name := "Link", binding := .default, pattern := .element }]

structure Vocabulary where
  clientDirective : String := "use client"
  modules : List ModuleRule := [reactModule, linkModule]
  data : DataRules := {}
  deriving DecidableEq, Repr, Inhabited

namespace Vocabulary

/-- The first rule for a module. -/
def module? (v : Vocabulary) (specifier : String) : Option ModuleRule :=
  v.modules.find? (·.specifier == specifier)

/-- The module rules by specifier; rules for one module keep their order. -/
def sortedModules (v : Vocabulary) : List ModuleRule :=
  Sorting.sort (fun a b => a.specifier ≤ b.specifier) v.modules

end Vocabulary

end TidyImports
