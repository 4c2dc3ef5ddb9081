-- SUMMARY: POSIX paths: texts with components, joined and taken apart without a look at the disk.

/-!
# Paths

A path is a text, and `/` separates its pieces. It denotes a list of
components: empty pieces vanish, and so does every `.` but one in front of a
relative path. Paths are compared by their components, while joining and
stripping work on the text, so that what a path looks like is kept.
-/

namespace TidyImports

structure Path where
  text : String
  deriving DecidableEq, Repr, Inhabited

/-- A component of a path. -/
inductive Component where
  | root
  | current
  | parent
  | normal (name : String)
  deriving DecidableEq, Repr, Inhabited

def Component.text : Component → String
  | .root => "/"
  | .current => "."
  | .parent => ".."
  | .normal name => name

def Component.name? : Component → Option String
  | .normal name => some name
  | _ => none

/-- The pieces of a text between slashes. -/
def slashPieces (s : String) : List String := (s.toList.splitOn '/').map String.ofList

/-- The text whose pieces these are. -/
def ofSlashPieces (pieces : List String) : String := "/".intercalate pieces

namespace Path

-- ---------------------------------------------------------------------------
-- Components
-- ---------------------------------------------------------------------------

def isAbsolute (p : Path) : Bool := p.text.toList.head? == some '/'

/-- Does a piece vanish inside a path? -/
def isVoid (piece : String) : Bool := piece == "" || piece == "."

/-- The component a piece stands for inside a path. -/
def component (piece : String) : Component := if piece == ".." then .parent else .normal piece

/-- The components of pieces inside a path. -/
def inner (pieces : List String) : List Component :=
  (pieces.filter (!isVoid ·)).map component

/-- The first component of a path when it is not made of an ordinary piece. -/
def lead? (p : Path) : Option Component :=
  if p.isAbsolute then some .root
  else if (slashPieces p.text).head? == some "." then some .current
  else none

/-- The pieces after the first component named by `lead?`. -/
def body (p : Path) : List String :=
  if p.lead?.isSome then (slashPieces p.text).tail else slashPieces p.text

def components (p : Path) : List Component := p.lead?.toList ++ inner p.body

-- ---------------------------------------------------------------------------
-- Joining
-- ---------------------------------------------------------------------------

/-- `p` followed by `q`; an absolute `q` stands for itself. -/
def join (p q : Path) : Path :=
  if q.isAbsolute then q
  else if p.text.isEmpty || p.text.toList.getLast? == some '/' then ⟨p.text ++ q.text⟩
  else ⟨p.text ++ "/" ++ q.text⟩

/-- `p` as seen from `base`: itself when it is absolute. -/
def under (p base : Path) : Path := if p.isAbsolute then p else base.join p

/-- The path with these components. -/
def ofComponents (components : List Component) : Path :=
  components.foldl (fun p c => p.join ⟨c.text⟩) ⟨""⟩

-- ---------------------------------------------------------------------------
-- The last component
-- ---------------------------------------------------------------------------

/-- The last component, when it is a name. -/
def fileName? (p : Path) : Option String := p.components.getLast?.bind Component.name?

/-- What follows the last dot of the file name, unless nothing precedes that dot. -/
def extension? (p : Path) : Option String := do
  let name ← p.fileName?
  let pieces := name.toList.splitOn '.'
  let last ← pieces.getLast?
  if pieces.length ≤ 1 || pieces.dropLast == [[]] then none else some (String.ofList last)

-- ---------------------------------------------------------------------------
-- Stripping
-- ---------------------------------------------------------------------------

/-- Pieces without the void ones at the end. -/
def trimEnd (pieces : List String) : List String :=
  (pieces.reverse.dropWhile isVoid).reverse

/-- The pieces that are left when these components have been taken from the front. -/
def dropComponents : List Component → List String → Option (List String)
  | [], pieces => some pieces
  | _ :: _, [] => none
  | c :: cs, piece :: pieces =>
    if isVoid piece then dropComponents (c :: cs) pieces
    else if component piece = c then dropComponents cs pieces
    else none

/-- What is left of `p` after the components of `base`, without void pieces at its ends. -/
def stripPrefix? (p base : Path) : Option Path :=
  match base.components with
  | [] =>
    let kept := trimEnd p.body
    match p.lead? with
    | some .root => some ⟨"/" ++ ofSlashPieces kept⟩
    | some lead => some ⟨ofSlashPieces (lead.text :: kept)⟩
    | none => some ⟨ofSlashPieces kept⟩
  | c :: cs =>
    let rest :=
      match p.lead? with
      | some lead => if lead = c then dropComponents cs p.body else none
      | none => dropComponents (c :: cs) p.body
    rest.map fun pieces => ⟨ofSlashPieces (trimEnd (pieces.dropWhile isVoid))⟩

/-- `p` as seen from `base` when it lies below it, and otherwise `p` itself. -/
def relativeTo (p base : Path) : Path := (p.stripPrefix? base).getD p

end Path

end TidyImports
