-- SUMMARY: Reading and changing a disk through paths.
import TidyImports.Disk.Resolve
import TidyImports.View

/-!
# Access

What a program does with files: read them, write them, create them where there
is nothing, ask what they are. Writing goes through links, also to a place where
there is nothing yet; creating does not.
-/

namespace TidyImports

namespace Disk

-- ---------------------------------------------------------------------------
-- Reading
-- ---------------------------------------------------------------------------

/-- The bytes of a file. -/
def read (d : Disk) (p : Path) : Except Fault ByteArray :=
  match d.find true p with
  | .ok (_, .file bytes) => .ok bytes
  | .ok (_, .directory) => .error .isDirectory
  | .ok (_, .link _) => .error .tooManyLinks
  | .error e => .error e

/-- Does the path lead to a file? -/
def isFile (d : Disk) (p : Path) : Bool :=
  match d.find true p with
  | .ok (_, .file _) => true
  | _ => false

/-- What the disk answers a run whose relative paths start at a root. -/
def view (d : Disk) (root : Path) : View where
  isFile p := d.isFile (p.under root)
  read p :=
    match d.read (p.under root) with
    | .ok bytes => .ok bytes
    | .error _ => .error (.unreadable (p.under root))

-- ---------------------------------------------------------------------------
-- Writing
-- ---------------------------------------------------------------------------

/-- Write a file, whether or not it is there already. -/
def write (d : Disk) (p : Path) (bytes : ByteArray) : Except Fault Disk :=
  match d.resolve true p with
  | .error e => .error e
  | .ok place =>
    match d.node? place with
    | some .directory => .error .isDirectory
    | _ => .ok (d.put place (.file bytes))

/-- Does the path end with a name and slashes? It then speaks of a directory. -/
def endsInSlash (p : Path) : Bool :=
  let pieces := slashPieces p.text
  pieces.getLast? == some "" &&
    (pieces.filter (· != "")).getLast?.any fun name => name != "." && name != ".."

/-- Put a node where there is nothing, not even a link. A path that speaks of a directory is good
for nothing else. -/
def create (d : Disk) (p : Path) (n : Node) : Except Fault Disk :=
  match d.resolve false p with
  | .error e => .error e
  | .ok place =>
    if endsInSlash p && n != .directory then .error .isDirectory
    else if (d.node? place).isSome then .error .exists
    else .ok (d.put place n)

/-- Create the directories on the way to a path where they are missing. -/
def makeParents (d : Disk) (p : Path) : Disk :=
  let pieces := slashPieces p.text
  (List.range pieces.length).foldl (fun d n =>
    match d.create ⟨ofSlashPieces (pieces.take n)⟩ .directory with
    | .ok made => made
    | .error _ => d) d

/-- Remove what a path denotes; a link itself, and not what it leads to. -/
def remove (d : Disk) (p : Path) : Except Fault Disk :=
  match d.find false p with
  | .ok (place, _) => .ok (d.erase place)
  | .error e => .error e

end Disk

end TidyImports
