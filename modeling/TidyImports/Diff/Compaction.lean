-- SUMMARY: Compaction of runs: edits slide past kept lines to meet and merge.
import TidyImports.Diff.Runs

/-!
# Compaction

A deleted or inserted run can slide over kept lines that read the same, and
change places with a run of the other sort. Each run slides up as far as it can
and then down as far as it can, and merges with what it meets of its own kind:
first every deletion, then every insertion.
-/

namespace TidyImports

namespace Diff

/-- Lines and runs in a list of runs; it shrinks with every slide. -/
def weight : List Run → Nat
  | [] => 0
  | r :: rs => r.lines.length + 1 + weight rs

/-- Kept lines in front of runs; they join a kept run that is already there. -/
def keepBefore (lines : List Text) : List Run → List Run
  | ⟨.keep, more⟩ :: rs => ⟨.keep, lines ++ more⟩ :: rs
  | rs => ⟨.keep, lines⟩ :: rs

/-- The same at the end of runs that are listed in reverse. -/
def keepAfter (lines : List Text) : List Run → List Run
  | ⟨.keep, more⟩ :: rs => ⟨.keep, more ++ lines⟩ :: rs
  | rs => ⟨.keep, lines⟩ :: rs

/-- A run between those before it, in reverse, and those after it. -/
structure Position where
  before : List Run
  this : Run
  after : List Run
  deriving Repr, Inhabited

/-- Slide up as far as possible. -/
def slideUp (before : List Run) (this : Run) (after : List Run) : Position :=
  match before with
  | [] => ⟨[], this, after⟩
  | previous :: rest =>
    if previous.kind = .keep then
      let n := previous.lines.length
      let s := min (commonEnd this.lines previous.lines) n
      if s = 0 then
        if n = 0 then slideUp rest this after else ⟨previous :: rest, this, after⟩
      else
        let moved := previous.lines.drop (n - s)
        let this := { this with lines := moved ++ this.lines.take (this.lines.length - s) }
        let after := keepBefore moved after
        if n = s then slideUp rest this after
        else slideUp (⟨.keep, previous.lines.take (n - s)⟩ :: rest) this after
    else if previous.kind = this.kind then
      slideUp rest ⟨this.kind, previous.lines ++ this.lines⟩ after
    else slideUp rest this (previous :: after)
termination_by weight before
decreasing_by
  all_goals
    simp only [weight, List.length_take]
    omega

/-- Slide down as far as possible. -/
def slideDown (before : List Run) (this : Run) (after : List Run) : Position :=
  match after with
  | [] => ⟨before, this, []⟩
  | next :: rest =>
    if next.kind = .keep then
      let n := next.lines.length
      let s := min (commonFront this.lines next.lines) n
      if s = 0 then
        if n = 0 then slideDown before this rest else ⟨before, this, next :: rest⟩
      else
        let moved := next.lines.take s
        let this := { this with lines := this.lines.drop s ++ moved }
        let before := keepAfter moved before
        if n = s then slideDown before this rest
        else slideDown before this (⟨.keep, next.lines.drop s⟩ :: rest)
    else if next.kind = this.kind then
      slideDown before ⟨this.kind, this.lines ++ next.lines⟩ rest
    else slideDown (next :: before) this rest
termination_by weight after
decreasing_by
  all_goals
    simp only [weight, List.length_drop]
    omega

/-- Slide every run of a kind, walking on for `steps` steps at most. -/
def compactFrom (kind : Kind) : (steps : Nat) → (before after : List Run) → List Run
  | 0, before, after => before.reverse ++ after
  | _ + 1, before, [] => before.reverse
  | steps + 1, before, r :: rest =>
    if r.kind = kind then
      let up := slideUp before r rest
      let down := slideDown up.before up.this up.after
      compactFrom kind steps (down.this :: down.before) down.after
    else compactFrom kind steps (r :: before) rest

/-- Slide every run of a kind. A walk step merges runs or passes lines, so there are enough. -/
def compactKind (kind : Kind) (rs : List Run) : List Run :=
  compactFrom kind ((rs.length + 1) * (weight rs + 1)) [] rs

/-- Slide every deletion, then every insertion. -/
def compact (rs : List Run) : List Run := compactKind .insert (compactKind .delete rs)

end Diff

end TidyImports
