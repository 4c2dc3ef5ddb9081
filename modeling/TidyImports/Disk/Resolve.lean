-- SUMMARY: From paths to locations: walking a disk along the pieces of a path, through its links.
import TidyImports.Disk.Basic
import TidyImports.Path.Basic

/-!
# Resolution

A path is followed piece by piece. A link is replaced by its target, at most
forty times; the last piece may be asked to stay a link. Nothing has to be at
the last piece, but everything before it has to be a directory. Names and whole
paths have a limited length.
-/

namespace TidyImports

namespace Disk

/-- Why a disk refuses. -/
inductive Fault where
  | notFound
  | notDirectory
  | isDirectory
  | tooManyLinks
  | exists
  | nameTooLong
  /-- No path holds the character NUL. -/
  | malformed
  deriving DecidableEq, Repr, Inhabited

/-- How many links a path may go through. -/
def maxLinks : Nat := 40

/-- How many bytes a name in a directory may have. -/
def maxName : Nat := 255

/-- How many bytes a path may have. -/
def maxPath : Nat := 4095

/-- Where a link at `here` with this target starts from. -/
def linkStart (here : Location) (target : String) : Location :=
  if (Path.mk target).isAbsolute then [] else here

/-- Follow pieces from a location. What is left at a link goes to `follow`, with where it starts. -/
def walkTo (d : Disk) (followLast : Bool) (follow : Location → List String → Except Fault Location)
    (here : Location) : (pieces : List String) → Except Fault Location
  | [] => .ok here
  | piece :: rest =>
    if d.node? here ≠ some .directory then .error .notDirectory
    else if Path.isVoid piece then d.walkTo followLast follow here rest
    else if piece = ".." then d.walkTo followLast follow here.dropLast rest
    else if maxName < piece.utf8ByteSize then .error .nameTooLong
    else
      match d.node? (here ++ [piece]) with
      | none => if rest.isEmpty then .ok (here ++ [piece]) else .error .notFound
      | some (.link target) =>
        if rest.isEmpty && !followLast then .ok (here ++ [piece])
        else follow (linkStart here target) (slashPieces target ++ rest)
      | some _ => d.walkTo followLast follow (here ++ [piece]) rest

/-- Follow pieces from a location, through so many links at most. -/
def walk (d : Disk) (followLast : Bool) :
    (links : Nat) → Location → List String → Except Fault Location
  | 0 => d.walkTo followLast fun _ _ => .error .tooManyLinks
  | links + 1 => d.walkTo followLast (d.walk followLast links)

/-- The location that a path denotes, or would denote if something were there. -/
def resolve (d : Disk) (followLast : Bool) (p : Path) : Except Fault Location :=
  if p.text.isEmpty then .error .notFound
  else if p.text.toList.contains '\x00' then .error .malformed
  else if maxPath < p.text.utf8ByteSize then .error .nameTooLong
  else walk d followLast maxLinks (if p.isAbsolute then [] else d.workingDir) (slashPieces p.text)

/-- The location a path denotes, with the node there. -/
def find (d : Disk) (followLast : Bool) (p : Path) : Except Fault (Location × Node) :=
  match d.resolve followLast p with
  | .error e => .error e
  | .ok place =>
    match d.node? place with
    | some n => .ok (place, n)
    | none => .error .notFound

end Disk

end TidyImports
