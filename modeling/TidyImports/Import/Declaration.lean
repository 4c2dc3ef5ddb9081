-- SUMMARY: Import declarations in one of the forms the program edits: clause, punctuation, place.
import TidyImports.Text.Basic

/-!
# Import declarations

A declaration binds names of one module: a default, and items in braces, each
`name` or `name as alias`. An item is kept as its text. Beside what it binds, a
declaration has the punctuation it was written with and its place in the text.
-/

namespace TidyImports

/-- The quote around a module specifier. -/
inductive Quote where
  | single
  | double
  deriving DecidableEq, Repr, Inhabited

def Quote.char : Quote → Char
  | .single => '\''
  | .double => '"'

def Quote.ofChar? (c : Char) : Option Quote :=
  if c = '\'' then some .single else if c = '"' then some .double else none

/-- How a declaration is punctuated. -/
structure Style where
  quote : Quote := .double
  semicolon : Bool := true
  deriving DecidableEq, Repr, Inhabited

/-- A recognized declaration. Its span runs from the `import` keyword through the semicolon, or
through the closing quote when there is none. -/
structure Declaration where
  specifier : String
  span : Span
  default? : Option String := none
  /-- The items in braces, in source order. -/
  named : List String := []
  style : Style := {}
  deriving DecidableEq, Repr, Inhabited

namespace Declaration

/-- Are the items strictly ascending? -/
def namedAscending (d : Declaration) : Bool :=
  (d.named.zip d.named.tail).all fun (a, b) => a < b

end Declaration

namespace Item

/-- The text between an item's name and its alias. -/
def asWord : String := " as "

/-- The alias of an item, if it has one. -/
def alias? (item : String) : Option String :=
  (Text.afterLast? item.toList asWord.toList).map String.ofList

/-- The name an item binds in the file: `a as b` binds `b`. -/
def localName (item : String) : String := (alias? item).getD item

end Item

/-- The names a declaration binds in the file. -/
def Declaration.localNames (d : Declaration) : List String :=
  d.default?.toList ++ d.named.map Item.localName

end TidyImports
