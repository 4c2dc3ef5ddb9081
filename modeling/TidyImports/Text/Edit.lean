-- SUMMARY: Edits of a text: spans with their replacements, applied together.
import TidyImports.Sorting
import TidyImports.Text.Basic

/-!
# Edits

An edit replaces a span of the text. Edits are applied together, by their
place: an insertion comes before a replacement that starts where it stands, and
insertions at one place keep their order. An edit that reaches into the span of
an earlier one takes what is left of its own.
-/

namespace TidyImports

/-- A span and what it is replaced by. -/
structure Edit where
  span : Span
  replacement : Text
  deriving DecidableEq, Repr, Inhabited

namespace Edit

def insertion (offset : Nat) (text : Text) : Edit := ⟨⟨offset, offset⟩, text⟩

def removal (span : Span) : Edit := ⟨span, []⟩

/-- The order in which edits are applied: by start, then by end. -/
def before (a b : Edit) : Bool :=
  a.span.start < b.span.start || (a.span.start == b.span.start && a.span.stop ≤ b.span.stop)

/-- Apply edits in the order given to the rest of a text that starts at `offset`. -/
def applyInOrder (offset : Nat) : List Edit → Text → Text
  | [], rest => rest
  | e :: es, rest =>
    let start := max e.span.start offset
    let stop := max e.span.stop start
    rest.takeBytes (start - offset) ++ e.replacement ++
      applyInOrder stop es (rest.dropBytes (stop - offset))

/-- Apply edits to a text. -/
def applyAll (edits : List Edit) (t : Text) : Text := applyInOrder 0 (Sorting.sort before edits) t

end Edit

end TidyImports
