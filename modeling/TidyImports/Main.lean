-- SUMMARY: The program: a picture of the disk, a command executed on it, and its changes written back.
import Std.Data.HashMap
import Std.Time.DateTime.Timestamp
import TidyImports.CommandLine

/-!
# The program

The disk is read into a value, the command is executed on that value, and the
files that it has changed are written back: new ones, which are backups, first.
The contents of a file are read only where a run can ask for them.
-/

namespace TidyImports

namespace Main

/-- The location of an absolute path. -/
def locationOf (path : String) : Location := (slashPieces path).filter (!·.isEmpty)

def pathOf (place : Location) : String := "/" ++ "/".intercalate place

/-- What has been read of the disk, by absolute path without links. -/
structure Picture where
  nodes : Std.HashMap String Node := {}
  /-- The paths that were visited, and whether the contents were read. -/
  visited : Std.HashMap String Bool := {}

namespace Picture

def disk (p : Picture) (workingDir : String) : Disk where
  workingDir := locationOf workingDir
  nodes := p.nodes.toList.map fun (path, n) => (locationOf path, n)

def add (p : Picture) (path : String) (n : Node) : Picture :=
  { p with nodes := p.nodes.insert path n }

/-- The directories that hold a path. -/
def addParents (p : Picture) (path : String) : Picture :=
  let place := locationOf path
  (List.range (place.length - 1)).foldl (fun p n =>
    p.add (pathOf (place.take (n + 1))) .directory) p

end Picture

/-- Does the name of a file call for its contents? -/
def isWanted (extensions : List String) (path : String) : Bool :=
  (Path.mk path).extension?.any extensions.contains

/-- Read what is at an absolute path without links, and everything below it. -/
partial def record (extensions : List String) (wanted : Bool) (path : String) (p : Picture) :
    IO Picture := do
  let known := p.visited.get? path
  if known == some true || (known.isSome && !wanted) then return p
  let p := { p with visited := p.visited.insert path wanted }
  let entry : IO.FS.DirEntry := { root := path, fileName := "" }
  match (← entry.root.metadata).type with
  | .dir =>
    let mut p := p.add path .directory
    for child in ← entry.root.readDir do
      let childPath := pathOf (locationOf path ++ [child.fileName])
      let wanted := isWanted extensions childPath
      if (← child.path.symlinkMetadata).type == .symlink then
        try
          let target := (← IO.FS.realPath child.path).toString
          p ← record extensions wanted target (p.addParents target)
          p := p.add childPath (.link target)
        catch _ => p := p.add childPath (.link childPath)
      else p ← record extensions wanted childPath p
    return p
  | .file => return p.add path (.file (← if wanted then IO.FS.readBinFile path else pure .empty))
  | _ => return p

/-- Read what a path leads to, if it leads anywhere. -/
def recordAt (extensions : List String) (wanted : Bool) (path : Path) (p : Picture) :
    IO Picture := do
  try
    let target := (← IO.FS.realPath path.text).toString
    record extensions wanted target (p.addParents target)
  catch _ => return p

/-- The files a command is about. -/
def picture (c : Command) : IO Disk := do
  let workingDir := (← IO.currentDir).toString
  let mut p := (({} : Picture).addParents workingDir).add workingDir .directory
  for path in c.configPaths do
    p ← recordAt [] true path p
  if let some s := c.settings? (p.disk workingDir) then
    for path in [s.projectRoot, s.scanRoot, s.dataRoot] do
      p ← recordAt s.extensions false path p
  return p.disk workingDir

/-- Write the files that are in `after` and not in `before`, new ones first. -/
def writeBack (before after : Disk) : IO Unit := do
  let old : Std.HashMap String Node :=
    before.nodes.foldl (fun m (place, n) => m.insert (pathOf place) n) {}
  let isNew (place : Location) : Bool := !old.contains (pathOf place)
  let (added, others) := after.nodes.partition fun (place, _) => isNew place
  for (place, n) in added ++ others do
    if let .file bytes := n then
      if old.get? (pathOf place) != some n then IO.FS.writeBinFile (pathOf place) bytes

def now : IO Timestamp := do
  let t ← Std.Time.Timestamp.now
  return .ofNanoseconds t.toNanosecondsSinceUnixEpoch.val.toNat

end Main

end TidyImports

open TidyImports in
/-- Execute the command that the words give. -/
def main (words : List String) : IO UInt32 := do
  let startedAt ← Main.now
  let before ← match Command.parse? words with
    | some c => Main.picture c
    | none => pure {}
  let (output, after) := Command.run words startedAt (← Main.now) before
  Main.writeBack before after
  (← IO.getStdout).putStr (String.ofList output.console.out)
  (← IO.getStderr).putStr (String.ofList output.console.err)
  return .ofNat output.exitCode
