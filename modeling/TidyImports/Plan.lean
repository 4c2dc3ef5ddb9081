-- SUMMARY: The plan for one file: its normalized text, and what was changed to get there.
import TidyImports.Change
import TidyImports.DataFile
import TidyImports.Import.Synthesis
import TidyImports.Source.Detection
import TidyImports.Source.Layout

/-!
# Plans

A plan is made in steps. Each step reads the text the one before it left, and
answers with edits, the changes they make, and warnings. The modules of the
vocabulary come first, in the order of their specifiers; then the data files a
path calls for; then the data specifiers.
-/

namespace TidyImports

/-- What is known about the project a file belongs to. -/
structure Project where
  root : Path
  /-- Absolute, or relative to the root. -/
  dataDir : Path := ⟨"data"⟩
  vocabulary : Vocabulary := {}
  deriving DecidableEq, Repr, Inhabited

def Project.data (p : Project) : DataDirectory := ⟨p.root, p.dataDir, p.vocabulary.data.shorthand⟩

/-- What one step does to a text. -/
structure Step where
  edits : List Edit := []
  changes : List Change := []
  warnings : List Warning := []
  deriving DecidableEq, Repr, Inhabited

-- ---------------------------------------------------------------------------
-- Lines
-- ---------------------------------------------------------------------------

/-- The line break a text uses: a carriage return comes with it if that happens anywhere. -/
def lineBreakOf (t : Text) : Text := if t.hasInfix ['\r', '\n'] then ['\r', '\n'] else ['\n']

/-- A line of its own at `offset`. At the end of an unfinished line it first ends that one. -/
def insertLine (t : Text) (offset : Nat) (line eol : Text) : Edit :=
  let lead := if offset == t.size && !t.isEmpty && t.getLast? != some '\n' then eol else []
  .insertion offset (lead ++ line ++ eol)

/-- Removal of a declaration, with its lines when nothing else is on them. -/
def removeDeclaration (t : Text) (d : Declaration) : Edit :=
  let start := max (t.lineStart d.span.start) t.markSize
  let stop := t.nextLine d.span.stop
  let alone := Text.isBlank (t.slice ⟨start, d.span.start⟩) &&
    Text.isBlank (t.slice ⟨d.span.stop, stop⟩)
  .removal (if alone then ⟨start, stop⟩ else d.span)

-- ---------------------------------------------------------------------------
-- Steps
-- ---------------------------------------------------------------------------

/-- The client directive above everything else, when a module owes it and it is missing. -/
def directiveEdits (v : Vocabulary) (m : ModuleRule) (eol : Text) (s : Script) : List Edit :=
  if m.requiresDirective && !s.hasDirective v.clientDirective then
    [.insertion s.text.directiveOffset
      ('\'' :: v.clientDirective.toList ++ ['\'', ';'] ++ eol ++ eol)]
  else []

/-- Bring a module's declarations to the canonical one: a new line when there is none, a change in
place when there is one, a new line instead of all when there are several. -/
def canonicalStep (v : Vocabulary) (m : ModuleRule) (eol : Text) (s : Script)
    (declarations : List Declaration) (canonical : Canonical) (rendered : Text) : Step :=
  let line := insertLine s.text s.insertionOffset rendered eol
  let change (kind : Change.Kind) (detail : String) : Change := ⟨kind, m.specifier, detail⟩
  match declarations with
  | [] =>
    { edits := directiveEdits v m eol s ++ [line]
      changes := [change .inserted (String.ofList rendered)] }
  | [d] =>
    if canonical.matches? d then {}
    else
      { edits := [⟨d.span, rendered⟩]
        changes := [change .patched (String.ofList rendered)] }
  | many =>
    { edits := line :: many.map (removeDeclaration s.text)
      changes := [change .merged
        (toString many.length ++ " declarations -> " ++ String.ofList rendered)] }

/-- Normalize the imports of one module. -/
def moduleStep (v : Vocabulary) (m : ModuleRule) (eol : Text) (s : Script) : Step :=
  let declarations := s.declarationsOf m.specifier
  let usages := s.usages v
  if declarations.isEmpty && (usages.ofModule m.specifier).isEmpty then {}
  else
    let synthesis := synthesize m.specifier declarations usages
    let step :=
      match synthesis.canonical?, synthesis.render? with
      | some canonical, some rendered => canonicalStep v m eol s declarations canonical rendered
      | _, _ => {}
    { step with
      warnings := synthesis.conflicts ++ synthesis.inconsistencies m.specifier usages }

/-- Import a data file where the path calls for it and the name is used unbound. -/
def dataStep (data : DataDirectory) (isFile : Path → Bool) (path : Path) (r : DataRule)
    (eol : Text) (s : Script) : Step :=
  if !r.matchesPath path.text || !s.hasUnbound r.binding then {}
  else
    let specifier := data.shorthand ++ r.file
    let target := data.root.join ⟨r.file⟩
    if !isFile target then { warnings := [.missingDataFile specifier (data.display target)] }
    else
      let line := "import " ++ r.binding ++ " from \"" ++ specifier ++ "\";"
      { edits := [insertLine s.text s.insertionOffset line.toList eol]
        changes := [⟨.inserted, specifier, line⟩] }

/-- Point the data specifiers at their files. -/
def specifierStep (data : DataDirectory) (isFile : Path → Bool) (file : Path) (s : Script) :
    Step :=
  let r := data.retargetScript isFile file s
  { edits := r.edits
    changes := r.retargeted.map fun (old, new) => ⟨.retargeted, old, new⟩
    warnings := r.warnings }

-- ---------------------------------------------------------------------------
-- Plans
-- ---------------------------------------------------------------------------

/-- A file's text after some steps, with their changes and warnings. -/
structure Plan where
  text : Text
  changes : List Change := []
  warnings : List Warning := []
  deriving DecidableEq, Repr, Inhabited

namespace Plan

/-- One more step. -/
def advance (p : Plan) (step : Script → Step) : Plan :=
  let s := step (Script.parse p.text)
  { text := Edit.applyAll s.edits p.text
    changes := p.changes ++ s.changes
    warnings := p.warnings ++ s.warnings }

/-- Does the plan leave the file as it is? -/
def isNoop (p : Plan) : Bool := p.changes.isEmpty

end Plan

namespace Project

/-- The steps for a file, in order. -/
def steps (p : Project) (isFile : Path → Bool) (file : Path) (eol : Text) : List (Script → Step) :=
  (p.vocabulary.sortedModules.map fun m => moduleStep p.vocabulary m eol) ++
  (p.vocabulary.data.rules.map fun r => dataStep p.data isFile (file.relativeTo p.root) r eol) ++
  [specifierStep p.data isFile file]

/-- The plan for a file, which is absolute or relative to the project root. -/
def plan (p : Project) (isFile : Path → Bool) (file : Path) (t : Text) : Plan :=
  (p.steps isFile file (lineBreakOf t)).foldl Plan.advance { text := t }

end Project

end TidyImports
