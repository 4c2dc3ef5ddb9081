-- SUMMARY: Unified diffs: edits with three lines of context, grouped into hunks and written out.
import TidyImports.Diff.Compaction

/-!
# Unified diffs

A stretch of deletions and insertions with no kept line between them is written
with the kept lines around it. Stretches whose context would touch share a hunk.
A hunk lists context lines, deletions and insertions, under a header with the
ranges it covers on both sides.
-/

namespace TidyImports

namespace Diff

/-- Lines of context around a stretch. -/
def context : Nat := 3

/-- Deletions and insertions with no kept line between: line indices on both sides. -/
structure Stretch where
  oldStart : Nat
  oldStop : Nat
  newStart : Nat
  newStop : Nat
  deriving DecidableEq, Repr, Inhabited

/-- The stretches among runs that start at these lines, after one that ends there. -/
def stretchesFrom (old new : Nat) (current : Option Stretch) : List Run → List Stretch
  | [] => current.toList
  | r :: rs =>
    let n := r.lines.length
    let c := current.getD ⟨old, old, new, new⟩
    match r.kind with
    | .keep => current.toList ++ stretchesFrom (old + n) (new + n) none rs
    | .delete => stretchesFrom (old + n) new (some { c with oldStop := c.oldStop + n }) rs
    | .insert => stretchesFrom old (new + n) (some { c with newStop := c.newStop + n }) rs

def stretches (rs : List Run) : List Stretch := stretchesFrom 0 0 none rs

-- ---------------------------------------------------------------------------
-- Hunks
-- ---------------------------------------------------------------------------

/-- Stretches that share a hunk, in order. -/
structure Hunk where
  first : Stretch
  others : List Stretch
  deriving DecidableEq, Repr, Inhabited

def Hunk.last (h : Hunk) : Stretch := h.others.getLast?.getD h.first

/-- Lines of context after a stretch. -/
def trailing (oldSize newSize : Nat) (c : Stretch) : Nat :=
  min context (min (oldSize - c.oldStop) (newSize - c.newStop))

/-- Does the context of `next` touch that of `c`? -/
def touches (oldSize newSize : Nat) (c next : Stretch) : Bool :=
  min next.oldStart (oldSize - 1) - context < c.oldStop + trailing oldSize newSize c

/-- Group stretches into hunks. -/
def hunks (oldSize newSize : Nat) : List Stretch → List Hunk
  | [] => []
  | c :: cs =>
    match hunks oldSize newSize cs with
    | h :: hs =>
      if touches oldSize newSize c h.first then ⟨c, h.first :: h.others⟩ :: hs
      else ⟨c, []⟩ :: h :: hs
    | [] => [⟨c, []⟩]

-- ---------------------------------------------------------------------------
-- Text
-- ---------------------------------------------------------------------------

def number (n : Nat) : Text := (toString n).toList

/-- A range of lines: its first line and its length, which is left out when it is one. -/
def range (start stop : Nat) : Text :=
  let length := stop - start
  number (if length = 0 then start else start + 1) ++
    if length = 1 then [] else ',' :: number length

/-- A line after its mark. A line without a line feed is followed by a note. -/
def marked (mark : Text) (line : Text) : Text :=
  mark ++ line ++
    if line.getLast? = some '\n' then []
    else '\n' :: "\\ No newline at end of file\n".toList

/-- A context line; an empty one has no mark. -/
def contextLine (line : Text) : Text := if line = ['\n'] then line else marked [' '] line

def between (lines : List Text) (start stop : Nat) : List Text :=
  (lines.drop start).take (stop - start)

/-- The lines of stretches in one hunk, with the context between them. -/
def body (old new : List Text) (c : Stretch) : List Stretch → Text
  | [] =>
    (between old c.oldStart c.oldStop).flatMap (marked ['-']) ++
    (between new c.newStart c.newStop).flatMap (marked ['+'])
  | next :: cs =>
    (between old c.oldStart c.oldStop).flatMap (marked ['-']) ++
    (between new c.newStart c.newStop).flatMap (marked ['+']) ++
    (between new c.newStop next.newStart).flatMap contextLine ++ body old new next cs

def Hunk.render (old new : List Text) (h : Hunk) : Text :=
  let oldStart := h.first.oldStart - context
  let newStart := h.first.newStart - context
  let n := trailing old.length new.length h.last
  "@@ -".toList ++ range oldStart (h.last.oldStop + n) ++ " +".toList ++
    range newStart (h.last.newStop + n) ++ " @@\n".toList ++
    (between new newStart h.first.newStart).flatMap contextLine ++
    body old new h.first h.others ++
    (between new h.last.newStop (h.last.newStop + n)).flatMap contextLine

/-- The hunks that lead from one text to another. -/
def unified (old new : Text) : Text :=
  let oldLines := old.lines
  let newLines := new.lines
  (hunks oldLines.length newLines.length (stretches (compact (runs oldLines newLines)))).flatMap
    (Hunk.render oldLines newLines)

end Diff

end TidyImports
