-- SUMMARY: Documents as JSON text, compact or indented.
import TidyImports.Document.Basic

/-!
# JSON text

Strings are escaped as little as JSON allows: the quote, the backslash and the
control characters. The compact form has no white space at all, so a document
on a line of its own is one line. The indented form puts each item and each
field on its own line, two blanks deeper than its container.
-/

namespace TidyImports

namespace Json

-- ---------------------------------------------------------------------------
-- Scalars
-- ---------------------------------------------------------------------------

/-- A hexadecimal digit, in lower case. -/
def hexDigit (n : Nat) : Char := if n < 10 then Char.ofNat (48 + n) else Char.ofNat (87 + n)

/-- A character inside quotes. -/
def escape (c : Char) : Text :=
  if c = '"' then ['\\', '"']
  else if c = '\\' then ['\\', '\\']
  else if c = '\x08' then ['\\', 'b']
  else if c = '\x0c' then ['\\', 'f']
  else if c = '\n' then ['\\', 'n']
  else if c = '\r' then ['\\', 'r']
  else if c = '\t' then ['\\', 't']
  else if c.toNat < 0x20 then
    ['\\', 'u', '0', '0', hexDigit (c.toNat / 16), hexDigit (c.toNat % 16)]
  else [c]

/-- A quoted string. -/
def quote (s : String) : Text := '"' :: (s.toList.flatMap escape ++ ['"'])

/-- A document that holds no other, if it is one. -/
def scalar? : Document → Option Text
  | .null => some "null".toList
  | .bool b => some (if b then "true".toList else "false".toList)
  | .integer n => some (toString n).toList
  | .decimal literal | .moment literal => some literal.toList
  | .text s => some (quote s)
  | .list _ | .table _ => none

-- ---------------------------------------------------------------------------
-- Compact form
-- ---------------------------------------------------------------------------

mutual

/-- The compact form of a document. -/
def compact : Document → Text
  | .list items => '[' :: compactItems items
  | .table fields => '\x7b' :: compactFields fields
  | .null => "null".toList
  | .bool b => if b then "true".toList else "false".toList
  | .integer n => (toString n).toList
  | .decimal literal | .moment literal => literal.toList
  | .text s => quote s

/-- Items separated by commas, and the closing bracket. -/
def compactItems : List Document → Text
  | [] => [']']
  | [d] => compact d ++ [']']
  | d :: ds => compact d ++ ',' :: compactItems ds

/-- Fields separated by commas, and the closing brace. -/
def compactFields : List (String × Document) → Text
  | [] => ['\x7d']
  | [(k, d)] => quote k ++ ':' :: compact d ++ ['\x7d']
  | (k, d) :: fs => quote k ++ ':' :: compact d ++ ',' :: compactFields fs

end

-- ---------------------------------------------------------------------------
-- Indented form
-- ---------------------------------------------------------------------------

/-- A line break and the indentation of a nesting depth. -/
def lineBreak (depth : Nat) : Text := '\n' :: List.replicate (2 * depth) ' '

mutual

/-- The indented form of a document at a nesting depth. -/
def indented (depth : Nat) : Document → Text
  | .list [] => ['[', ']']
  | .list items => '[' :: indentedItems depth items
  | .table [] => ['\x7b', '\x7d']
  | .table fields => '\x7b' :: indentedFields depth fields
  | .null => "null".toList
  | .bool b => if b then "true".toList else "false".toList
  | .integer n => (toString n).toList
  | .decimal literal | .moment literal => literal.toList
  | .text s => quote s

def indentedItems (depth : Nat) : List Document → Text
  | [] => lineBreak depth ++ [']']
  | [d] => lineBreak (depth + 1) ++ indented (depth + 1) d ++ lineBreak depth ++ [']']
  | d :: ds => lineBreak (depth + 1) ++ indented (depth + 1) d ++ ',' :: indentedItems depth ds

def indentedFields (depth : Nat) : List (String × Document) → Text
  | [] => lineBreak depth ++ ['\x7d']
  | [(k, d)] =>
    lineBreak (depth + 1) ++ quote k ++ ':' :: ' ' :: indented (depth + 1) d ++
      lineBreak depth ++ ['\x7d']
  | (k, d) :: fs =>
    lineBreak (depth + 1) ++ quote k ++ ':' :: ' ' :: indented (depth + 1) d ++
      ',' :: indentedFields depth fs

end

end Json

end TidyImports
