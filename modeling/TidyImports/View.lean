-- SUMMARY: What a run may ask about files: an interface, and snapshots that answer from memory.
import TidyImports.Path.Basic

/-!
# Views

A view answers two questions about a path: is there a file, and what does it
hold. A snapshot answers from a list of files; their paths are compared by
components, after its root has been taken off.
-/

namespace TidyImports

/-- Why a file cannot be read. -/
inductive ReadFailure where
  /-- The disk refuses. -/
  | unreadable (path : Path)
  /-- A snapshot does not hold it. -/
  | noSuchFile (path : Path)
  deriving DecidableEq, Repr, Inhabited

def ReadFailure.message : ReadFailure → String
  | .unreadable path => "read " ++ path.text
  | .noSuchFile path => "no such file: " ++ path.text

structure View where
  isFile : Path → Bool
  read : Path → Except ReadFailure ByteArray

instance : Inhabited View := ⟨⟨fun _ => false, fun p => .error (.noSuchFile p)⟩⟩

/-- Files kept in memory; of two with one path the later counts. -/
structure Snapshot where
  root : Path
  files : List (Path × String)
  deriving DecidableEq, Repr, Inhabited

namespace Snapshot

def contents? (s : Snapshot) (path : Path) : Option String :=
  let wanted := (path.relativeTo s.root).components
  (s.files.findRev? fun (p, _) => p.components == wanted).map (·.2)

def view (s : Snapshot) : View where
  isFile path := (s.contents? path).isSome
  read path :=
    match s.contents? path with
    | some text => .ok text.toUTF8
    | none => .error (.noSuchFile path)

end Snapshot

end TidyImports
