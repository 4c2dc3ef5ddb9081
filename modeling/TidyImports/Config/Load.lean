-- SUMMARY: Finding and reading configuration files on a disk.
import TidyImports.Config
import TidyImports.Disk.Access

/-!
# Loading configuration

A project's own file is used when there is one, unless another file is named. A
file that is named has to be there.
-/

namespace TidyImports

namespace Config

inductive LoadFailure where
  | unreadable (path : Path)
  | invalid (path : Path)
  deriving DecidableEq, Repr, Inhabited

def LoadFailure.message : LoadFailure → String
  | .unreadable path => "read config file " ++ path.text
  | .invalid path => "parse config file " ++ path.text ++ ": invalid TOML"

/-- The project's own file, if it has one. -/
def locate? (d : Disk) (root : Path) : Option Path :=
  let path := root.join ⟨fileName⟩
  if d.isFile path then some path else none

/-- Read a file, which holds text. -/
def load (d : Disk) (path : Path) : Except LoadFailure Config :=
  match d.read path with
  | .error _ => .error (.unreadable path)
  | .ok bytes =>
    match String.fromUTF8? bytes with
    | none => .error (.unreadable path)
    | some text =>
      match parse? text.toList with
      | some c => .ok c
      | none => .error (.invalid path)

/-- The file that is named, or the project's own, or nothing. -/
def loadOrDefault (d : Disk) (root : Path) (named? : Option Path) : Except LoadFailure Config :=
  match named? <|> locate? d root with
  | some path => load d path
  | none => .ok {}

end Config

end TidyImports
