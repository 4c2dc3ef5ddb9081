-- SUMMARY: White space as Unicode defines it, and blank text.
import TidyImports.Text.Basic

/-!
# Blank text

Blank means Unicode's `White_Space` property. A byte order mark counts as blank
when a line is tested for holding nothing else, and not when text is trimmed.
-/

namespace TidyImports

/-- The characters with the property `White_Space`. -/
def isWhite (c : Char) : Bool :=
  (0x09 ≤ c.val && c.val ≤ 0x0D) || c.val == 0x20 || c.val == 0x85 || c.val == 0xA0 ||
  c.val == 0x1680 || (0x2000 ≤ c.val && c.val ≤ 0x200A) || c.val == 0x2028 || c.val == 0x2029 ||
  c.val == 0x202F || c.val == 0x205F || c.val == 0x3000

namespace Text

/-- White space only. -/
def isWhite (t : Text) : Bool := t.all TidyImports.isWhite

/-- White space and byte order marks only. -/
def isBlank (t : Text) : Bool := t.all fun c => TidyImports.isWhite c || c == byteOrderMark

/-- Is everything between the start of its line and `offset` blank? -/
def firstOnLine (t : Text) (offset : Nat) : Bool := isBlank (lastLine (t.takeBytes offset))

end Text

end TidyImports
