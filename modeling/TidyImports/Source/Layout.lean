-- SUMMARY: Where new lines go: the directive prologue, the import block, and the points after them.
import TidyImports.Source.Statement

/-!
# Layout

A script opens with its prologue: blank lines, comments, and directives, which
are lone string statements. Import statements that follow at once, with at most
blank lines between them, form the import block. New declarations go after the
block, or after the prologue when there is none; a new directive goes to the
top, below a `#!` line.
-/

namespace TidyImports

/-- What a line of the prologue can be. -/
inductive LineKind where
  /-- Blank, or nothing but comments. -/
  | trivia
  /-- A string statement on its own; the value is the string's contents. -/
  | directive (value : Text)
  | code
  deriving DecidableEq, Repr, Inhabited

namespace Script

-- ---------------------------------------------------------------------------
-- Prologue
-- ---------------------------------------------------------------------------

/-- The tokens that reach into a range of the text. -/
def tokensWithin (s : Script) (range : Span) : List Token :=
  (s.tokens.dropWhile (·.stop ≤ range.start)).takeWhile (·.start < range.stop)

/-- The kind of a line, told by its code tokens. A string that began on an earlier line makes no
directive. -/
def lineKind (s : Script) (line : Span) : LineKind :=
  match (s.tokensWithin line).filter Token.isCode with
  | [] => .trivia
  | tok :: rest =>
    let ended : Bool := match rest with
      | [] => true
      | [next] => next.isPunct ';'
      | _ => false
    match tok.contents? with
    | some value => if line.start ≤ tok.start ∧ ended = true then .directive value else .code
    | none => .code

/-- End of the prologue, and its directives, when the rest of the text from `offset` has these
lines. -/
def prologueFrom (s : Script) (offset : Nat) : List Text → Nat × List Text
  | [] => (offset, [])
  | line :: more =>
    match s.lineKind ⟨offset, offset + line.size⟩ with
    | .trivia => s.prologueFrom (offset + line.size) more
    | .directive value =>
      let (stop, values) := s.prologueFrom (offset + line.size) more
      (stop, value :: values)
    | .code => (offset, [])

/-- End of the prologue, and its directives. -/
def prologue (s : Script) : Nat × List Text := s.prologueFrom 0 s.text.lines

/-- Is the directive among those of the prologue? -/
def hasDirective (s : Script) (directive : String) : Bool :=
  s.prologue.2.contains directive.toList

-- ---------------------------------------------------------------------------
-- Import block
-- ---------------------------------------------------------------------------

/-- Start of the line a statement starts on. -/
def lineOf (s : Script) (st : Statement) : Nat := s.text.lineStart st.span.start

/-- The first line at or after `offset`, a line's start, that is not blank. -/
def skipBlankLines (t : Text) (offset : Nat) : Nat :=
  offset + Text.size ((Text.lines (t.dropBytes offset)).takeWhile Text.isWhite).flatten

/-- End of the import block that starts at line `offset`. -/
def blockEnd (s : Script) (offset : Nat) : List Statement → Nat
  | [] => offset
  | st :: more =>
    if s.lineOf st = offset then
      let next := s.text.nextLine (max st.span.stop offset)
      let ahead := skipBlankLines s.text next
      if more.any (s.lineOf · == ahead) then s.blockEnd ahead more else next
    else s.blockEnd offset more

/-- Where a new declaration goes: the start of a line after the byte order mark, or the end of
the text. Blank lines after the last import stay below it. -/
def insertionOffset (s : Script) : Nat :=
  max (s.blockEnd s.prologue.1 s.statements) s.text.markSize

end Script

/-- Where a new directive goes: the top of the text, or the line after `#!`. -/
def Text.directiveOffset (t : Text) : Nat :=
  if ['#', '!'].isPrefixOf (t.dropBytes t.markSize) then t.nextLine t.markSize else t.markSize

end TidyImports
