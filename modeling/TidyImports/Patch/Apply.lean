-- SUMMARY: Applying a patch to a disk: a check, a backup made once, and the new text.
import TidyImports.Disk.Access
import TidyImports.Patch

/-!
# Applying patches

A patch is applied only to the text it was planned from. The first real
application leaves a backup next to the file; a backup that is there already
stays as it is. What fails before the file is written leaves it untouched.
-/

namespace TidyImports

namespace Patch

structure Options where
  dryRun : Bool := false
  backupSuffix : String := ".bak"
  deriving DecidableEq, Repr, Inhabited

inductive Outcome where
  /-- The patch proposes nothing new. -/
  | unchanged
  /-- What a real run would write. -/
  | preview (diff : Text)
  | written (backupCreated : Bool)
  deriving DecidableEq, Repr, Inhabited

/-- How a file is not what the patch was planned from. -/
inductive Mismatch where
  | missing (path : Path)
  | digest (path : Path) (expected actual : String)
  deriving DecidableEq, Repr, Inhabited

def Mismatch.message : Mismatch → String
  | .missing path => path.text ++ " no longer exists"
  | .digest path expected actual =>
    path.text ++ " changed since it was read (expected sha256 " ++ expected ++ ", found " ++
      actual ++ ")"

/-- What the disk refused to do. -/
inductive Refusal where
  | read (path : Path)
  | create (path : Path)
  | write (path : Path)
  deriving DecidableEq, Repr, Inhabited

def Refusal.message : Refusal → String
  | .read path => "read " ++ path.text
  | .create path => "create " ++ path.text
  | .write path => "write " ++ path.text

inductive Failure where
  | precondition (m : Mismatch)
  | refused (r : Refusal)
  deriving DecidableEq, Repr, Inhabited

def Failure.message : Failure → String
  | .precondition m => "precondition mismatch: " ++ m.message
  | .refused r => "runtime error: " ++ r.message

-- ---------------------------------------------------------------------------
-- Steps
-- ---------------------------------------------------------------------------

/-- The bytes of the file, which must be those the patch was planned from. -/
def check (p : Patch) (target : Path) (d : Disk) : Except Failure ByteArray :=
  match d.read target with
  | .error .notFound => .error (.precondition (.missing p.path))
  | .error _ => .error (.refused (.read target))
  | .ok bytes =>
    if Sha256.digest bytes = p.oldDigest then .ok bytes
    else .error (.precondition (.digest p.path p.oldDigest (Sha256.digest bytes)))

/-- Keep bytes under a backup's name unless something has that name; says whether it did. -/
def backUp (backup : Path) (bytes : ByteArray) (d : Disk) : Except Failure (Disk × Bool) :=
  match d.create backup (.file bytes) with
  | .ok d => .ok (d, true)
  | .error .exists => .ok (d, false)
  | .error _ => .error (.refused (.create backup))

/-- Back up and write. The disk may have changed even where this fails: the backup stays. -/
def write (p : Patch) (target : Path) (suffix : String) (bytes : ByteArray) (d : Disk) :
    Disk × Except Failure Outcome :=
  match backUp (target.backup suffix) bytes d with
  | .error e => (d, .error e)
  | .ok (backed, created) =>
    match backed.write target p.newText.bytes with
    | .ok written => (written, .ok (.written created))
    | .error _ => (backed, .error (.refused (.write target)))

/-- Apply a patch whose path is absolute or relative to a root. -/
def apply (p : Patch) (root : Path) (options : Options) (d : Disk) :
    Disk × Except Failure Outcome :=
  if !p.changed then (d, .ok .unchanged)
  else
    let target := p.path.under root
    match p.check target d with
    | .error e => (d, .error e)
    | .ok bytes =>
      if options.dryRun then (d, .ok (.preview p.diff))
      else p.write target options.backupSuffix bytes d

end Patch

end TidyImports
