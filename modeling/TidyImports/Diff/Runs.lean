-- SUMMARY: Differences of two line sequences as runs, found by a search for the shortest edit.
import TidyImports.Text.Basic

/-!
# Runs

A difference is a list of runs: lines that are kept, deleted or inserted. Kept
and deleted lines make up the old side, kept and inserted lines the new one. The
search strips what the sides share at their ends, finds a point on a shortest
path in the middle, and goes on with both halves.
-/

namespace TidyImports

namespace Diff

inductive Kind where
  | keep
  | delete
  | insert
  deriving DecidableEq, Repr, Inhabited

/-- Adjacent lines with one fate. -/
structure Run where
  kind : Kind
  lines : List Text
  deriving DecidableEq, Repr, Inhabited

-- ---------------------------------------------------------------------------
-- Common ends
-- ---------------------------------------------------------------------------

/-- Length of the common front. -/
def commonFront [DecidableEq α] : List α → List α → Nat
  | a :: as, b :: bs => if a = b then commonFront as bs + 1 else 0
  | _, _ => 0

/-- Length of the common end. -/
def commonEnd [DecidableEq α] (as bs : List α) : Nat := commonFront as.reverse bs.reverse

-- ---------------------------------------------------------------------------
-- A point in the middle
-- ---------------------------------------------------------------------------

/-- How far a search has come on each diagonal; a diagonal not reached yet counts as zero. -/
structure Frontier where
  /-- The index of diagonal zero. -/
  origin : Nat
  reach : Array Nat
  deriving Repr, Inhabited

namespace Frontier

def empty (origin : Nat) : Frontier := ⟨origin, Array.replicate (2 * origin + 1) 0⟩

def get (f : Frontier) (k : Int) : Nat := f.reach.getD (k + f.origin).toNat 0

def set (f : Frontier) (k : Int) (x : Nat) : Frontier :=
  { f with reach := f.reach.setIfInBounds (k + f.origin).toNat x }

/-- The best start on diagonal `k` after `d` edits. -/
def start (f : Frontier) (d : Nat) (k : Int) : Nat :=
  if k = -d ∨ (k ≠ d ∧ f.get (k - 1) < f.get (k + 1)) then f.get (k + 1) else f.get (k - 1) + 1

end Frontier

/-- The diagonals of `d` edits, from the highest down. -/
def diagonals (d : Nat) : List Int :=
  (List.range (d + 1)).map fun (i : Nat) => (d : Int) - 2 * (i : Int)

/-- Number of equal lines from `x` in the old and `y` in the new side on. -/
def matchForward (old new : Array Text) (x y : Nat) : Nat :=
  if x ≤ old.size ∧ y ≤ new.size then commonFront (old.toList.drop x) (new.toList.drop y) else 0

/-- Number of equal lines before the last `x` of the old and the last `y` of the new side. -/
def matchBackward (old new : Array Text) (x y : Nat) : Nat :=
  if x < old.size ∧ y < new.size then
    commonFront (old.toList.reverse.drop x) (new.toList.reverse.drop y)
  else 0

/-- One round of the forward search; it ends early with a point where the searches meet. -/
def forwardRound (old new : Array Text) (d : Nat) (back : Frontier) :
    List Int → Frontier → Except (Nat × Nat) Frontier
  | [], f => .ok f
  | k :: ks, f =>
    let delta : Int := old.size - new.size
    let x := f.start d k
    let y := (x - k).toNat
    let reached := x + matchForward old new x y
    let f := f.set k reached
    if delta % 2 ≠ 0 ∧ (k - delta).natAbs + 1 ≤ d ∧ reached + back.get (delta - k) ≥ old.size then
      .error (x, y)
    else forwardRound old new d back ks f

/-- One round of the backward search. -/
def backwardRound (old new : Array Text) (d : Nat) (front : Frontier) :
    List Int → Frontier → Except (Nat × Nat) Frontier
  | [], f => .ok f
  | k :: ks, f =>
    let delta : Int := old.size - new.size
    let x := f.start d k
    let y := (x - k).toNat
    let matched := matchBackward old new x y
    let reached := x + matched
    let f := f.set k reached
    if delta % 2 = 0 ∧ (k - delta).natAbs ≤ d ∧ reached + front.get (delta - k) ≥ old.size then
      .error (old.size - reached, new.size - (y + matched))
    else backwardRound old new d front ks f

/-- Search with `d` edits from either side, then with one more, for `rounds` rounds. -/
def searchMiddle (old new : Array Text) : (rounds d : Nat) → (front back : Frontier) →
    Option (Nat × Nat)
  | 0, _, _, _ => none
  | rounds + 1, d, front, back =>
    match forwardRound old new d back (diagonals d) front with
    | .error point => some point
    | .ok front =>
      match backwardRound old new d front (diagonals d) back with
      | .error point => some point
      | .ok back => searchMiddle old new rounds (d + 1) front back

/-- A point on a shortest path from the old to the new side, as lines taken from each. -/
def middle (old new : List Text) : Option (Nat × Nat) :=
  let size := old.length + new.length
  searchMiddle old.toArray new.toArray (size + 1) 0 (.empty (size + 2)) (.empty (size + 2))

-- ---------------------------------------------------------------------------
-- All runs
-- ---------------------------------------------------------------------------

/-- A run, unless it is empty. -/
def run (kind : Kind) (lines : List Text) : List Run :=
  if lines.isEmpty then [] else [⟨kind, lines⟩]

/-- Two sides without the lines they share at their ends. -/
structure Ends where
  front : List Text
  old : List Text
  new : List Text
  back : List Text
  deriving Repr, Inhabited

def ends (old new : List Text) : Ends :=
  let p := commonFront old new
  let old' := old.drop p
  let new' := new.drop p
  let s := commonEnd old' new'
  { front := old.take p
    old := old'.take (old'.length - s)
    new := new'.take (new'.length - s)
    back := old'.drop (old'.length - s) }

theorem ends_length_le (old new : List Text) :
    (ends old new).old.length ≤ old.length ∧ (ends old new).new.length ≤ new.length := by
  simp only [ends, List.length_take, List.length_drop]
  omega

/-- A point between the corners: neither half is all there is. -/
def cut? (old new : List Text) :
    Option { p : Nat × Nat // p.1 ≤ old.length ∧ p.2 ≤ new.length ∧ 0 < p.1 + p.2 ∧
      p.1 + p.2 < old.length + new.length } :=
  (middle old new).bind fun p =>
    if h : p.1 ≤ old.length ∧ p.2 ≤ new.length ∧ 0 < p.1 + p.2 ∧
        p.1 + p.2 < old.length + new.length then
      some ⟨p, h⟩
    else none

/-- The runs that lead from the old to the new lines. -/
def runs (old new : List Text) : List Run :=
  run .keep (ends old new).front ++
  (if (ends old new).old.isEmpty ∨ (ends old new).new.isEmpty then
    run .delete (ends old new).old ++ run .insert (ends old new).new
  else
    match cut? (ends old new).old (ends old new).new with
    | some ⟨(x, y), _⟩ =>
      runs ((ends old new).old.take x) ((ends old new).new.take y) ++
        runs ((ends old new).old.drop x) ((ends old new).new.drop y)
    | none => run .delete (ends old new).old ++ run .insert (ends old new).new) ++
  run .keep (ends old new).back
termination_by old.length + new.length
decreasing_by
  all_goals
    have := ends_length_le old new
    simp only [List.length_take, List.length_drop]
    omega

end Diff

end TidyImports
