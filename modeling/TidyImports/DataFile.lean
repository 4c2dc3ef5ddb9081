-- SUMMARY: Data files: how specifiers address them, and which specifiers are changed to reach them.
import TidyImports.Path.Normal
import TidyImports.Path.Relative
import TidyImports.Source.Statement
import TidyImports.Text.Edit
import TidyImports.Warning

/-!
# Data files

A specifier addresses a data file when it starts with the shorthand of the data
directory, or when it is a relative path that leads to no file but still names
that directory, as after a move of the importing file. It is changed to the
path from the importing file's directory to the data file. A data file that does
not exist leaves the specifier as it is, with a warning.
-/

namespace TidyImports

/-- Where data files live and how they are addressed. -/
structure DataDirectory where
  projectRoot : Path
  /-- Absolute, or relative to the project root. -/
  dir : Path
  /-- The prefix of a specifier that stands for the directory. -/
  shorthand : String
  deriving DecidableEq, Repr, Inhabited

namespace DataDirectory

def root (d : DataDirectory) : Path := (d.projectRoot.join d.dir).normalize

/-- A path as it is shown: relative to the project root when it lies below it. -/
def display (d : DataDirectory) (p : Path) : String := (p.relativeTo d.projectRoot).text

/-- Directory of a file that is absolute or relative to the project root. -/
def directoryOf (d : DataDirectory) (file : Path) : Path :=
  ((d.projectRoot.join file).normalize.parent?).getD d.projectRoot

/-- The pieces after the last one that equals `name`. -/
def afterLastPiece? (name : String) : List String → Option (List String)
  | [] => none
  | piece :: rest =>
    (afterLastPiece? name rest).or (if piece == name then some rest else none)

/-- The part of a specifier below the data directory, when it addresses one. Specifiers without an
extension are left to module resolution. -/
def remainder? (d : DataDirectory) (isFile : Path → Bool) (fileDir : Path) (specifier : String) :
    Option String :=
  match d.shorthand.toList.isPrefixOf? specifier.toList with
  | some rest => some (String.ofList rest)
  | none =>
    if !Path.isRelativeSpecifier specifier then none
    else if (⟨specifier⟩ : Path).extension?.isNone then none
    else if isFile (fileDir.join ⟨specifier⟩).normalize then none
    else do
      let name ← d.root.fileName?
      let below ← afterLastPiece? name (slashPieces specifier)
      some (ofSlashPieces below)

/-- What becomes of a specifier. -/
inductive Verdict where
  | keep
  /-- It addresses a data file that does not exist. -/
  | missing (target : Path)
  | retarget (specifier : String)
  deriving DecidableEq, Repr, Inhabited

/-- What becomes of a specifier in a file of the directory `fileDir`. A remainder that climbs is
left alone. -/
def verdict (d : DataDirectory) (isFile : Path → Bool) (fileDir : Path) (specifier : String) :
    Verdict :=
  match d.remainder? isFile fileDir specifier with
  | none => .keep
  | some remainder =>
    if remainder.isEmpty || (slashPieces remainder).contains ".." then .keep
    else
      let target := (d.root.join ⟨remainder⟩).normalize
      if !isFile target then .missing target
      else match Path.relativeSpecifier? target fileDir with
        | none => .keep
        | some new => if new = specifier then .keep else .retarget new

end DataDirectory

-- ---------------------------------------------------------------------------
-- Specifiers in a script
-- ---------------------------------------------------------------------------

namespace Script

/-- The closed strings among the tokens from `index` on that follow `from`, or that follow the
`import` keyword of the statement they lie in. Comments between do not count. -/
def specifiersFrom (statements : List Statement) (previous? : Option (Nat × Token)) (index : Nat) :
    List Token → List Token
  | [] => []
  | tok :: rest =>
    let isSpecifier := tok.contents?.isSome && previous?.any fun (i, previous) =>
      previous.isWord "from" ||
        statements.any fun st => st.first == i && st.first ≤ index && index < st.past
    let previous? := if tok.isCode then some (index, tok) else previous?
    let found := specifiersFrom statements previous? (index + 1) rest
    if isSpecifier then tok :: found else found

/-- The strings of a script that name modules. -/
def specifiers (s : Script) : List Token := specifiersFrom s.statements none 0 s.tokens

end Script

-- ---------------------------------------------------------------------------
-- Retargeting
-- ---------------------------------------------------------------------------

/-- The edits that change the specifiers of a text, with the specifiers they replace and the
warnings. -/
structure Retargeting where
  edits : List Edit := []
  /-- Old and new specifier, in order. -/
  retargeted : List (String × String) := []
  warnings : List Warning := []
  deriving DecidableEq, Repr, Inhabited

namespace DataDirectory

/-- The specifiers of a script in a file of the directory `fileDir`, each with its verdict. -/
def verdicts (d : DataDirectory) (isFile : Path → Bool) (fileDir : Path) (s : Script) :
    List (Token × String × Verdict) :=
  s.specifiers.map fun tok =>
    let specifier := String.ofList (tok.contents?.getD [])
    (tok, specifier, d.verdict isFile fileDir specifier)

/-- Point the data specifiers of a script, which is the file `file`, at their files. -/
def retargetScript (d : DataDirectory) (isFile : Path → Bool) (file : Path) (s : Script) :
    Retargeting :=
  let verdicts := d.verdicts isFile (d.directoryOf file) s
  let edits := verdicts.filterMap fun (tok, _, verdict) =>
    match verdict with
    | .retarget new => some ⟨⟨tok.start + 1, tok.stop - 1⟩, new.toList⟩
    | _ => none
  { edits
    retargeted := verdicts.filterMap fun (_, old, verdict) =>
      match verdict with
      | .retarget new => some (old, new)
      | _ => none
    warnings := verdicts.filterMap fun (_, old, verdict) =>
      match verdict with
      | .missing target => some (.missingDataFile old (d.display target))
      | _ => none }

end DataDirectory

end TidyImports
