-- SUMMARY: Import statements of a script, found in its tokens, and the declarations among them.
import TidyImports.Text.Blank
import TidyImports.Source.Lexer
import TidyImports.Import.Declaration

/-!
# Import statements

Every statement outside braces that starts with the `import` keyword is one.
Only those that read

* `import Default from "m"`
* `import { a, b as c } from "m"`
* `import Default, { a } from "m"`

with no comment inside and nothing before them on their line are declarations.
All others are known to be imports and are never changed.

The scan takes the tokens one by one. At an `import` it looks ahead for the
statement's extent, and goes on after it.
-/

namespace TidyImports

/-- An import statement: its place in the text, the tokens it is made of as a range of indices,
and what it says. -/
structure Statement where
  span : Span
  first : Nat
  /-- Index just past the last token. -/
  past : Nat
  /-- The module named by a closed string. -/
  specifier? : Option String
  declaration? : Option Declaration
  deriving DecidableEq, Repr, Inhabited

-- ---------------------------------------------------------------------------
-- Looking ahead in tokens
-- ---------------------------------------------------------------------------

namespace Token

/-- The first token that is no comment, with its index. -/
def nextCode? (tokens : List Token) : Option (Nat × Token) :=
  (tokens.findIdx? isCode).bind fun i => tokens[i]?.map (i, ·)

/-- The last token that is no comment. -/
def lastCode? (tokens : List Token) : Option Token := tokens.findRev? isCode

end Token

namespace Statement

open Token

/-- Index of the string after the next `from`. The search stops at a `;`, and at an `import` that
is first on its line. -/
def fromIndex? (t : Text) : List Token → Option Nat
  | [] => none
  | tok :: rest =>
    if tok.isPunct ';' then none
    else if tok.isWord "import" && t.firstOnLine tok.start then none
    else if tok.isWord "from" then
      match nextCode? rest with
      | some (i, s) => if s.isString then some (i + 1) else none
      | none => none
    else (fromIndex? t rest).map (· + 1)

/-- Index of the specifier string in the tokens after the `import` keyword. -/
def specifierIndex? (t : Text) (rest : List Token) : Option Nat :=
  match nextCode? rest with
  | none => none
  | some (i, next) => if next.isString then some i else fromIndex? t rest

/-- Index of a `;` that ends a statement after its specifier: the next token that is no comment,
on the line where the specifier ends. -/
def semicolonIndex? (t : Text) (specifier : Token) (rest : List Token) : Option Nat :=
  match nextCode? rest with
  | none => none
  | some (i, next) =>
    if next.isPunct ';' && !(t.slice ⟨specifier.stop, next.start⟩).contains '\n' then some i
    else none

-- ---------------------------------------------------------------------------
-- The clause
-- ---------------------------------------------------------------------------

/-- An item in braces: `name`, or `name as alias`. -/
def item? : List Token → Option String
  | [name] => if name.isIdent then some name.name else none
  | [name, word, other] =>
    if name.isIdent && word.isWord "as" && other.isIdent then
      some (name.name ++ Item.asWord ++ other.name)
    else none
  | _ => none

/-- The items between braces, separated by commas; one comma may follow the last. -/
def items? (inner : List Token) : Option (List String) :=
  if inner.isEmpty then some []
  else
    let pieces := inner.splitOnP (·.isPunct ',')
    let trailing := pieces.length > 1 && pieces.getLast?.any List.isEmpty
    (if trailing then pieces.dropLast else pieces).mapM item?

/-- Items in braces. -/
def braced? : List Token → Option (List String)
  | [] => none
  | opening :: rest =>
    match rest.getLast? with
    | none => none
    | some closing =>
      if opening.isPunct '\x7b' && closing.isPunct '\x7d' then items? rest.dropLast else none

/-- What a clause binds: a default, items in braces, or both with a comma between. -/
def clause? : List Token → Option (Option String × List String)
  | [] => none
  | tok :: rest =>
    if tok.isIdent then
      match rest with
      | [] => some (some tok.name, [])
      | comma :: more =>
        if comma.isPunct ',' then (braced? more).map (some tok.name, ·) else none
    else (braced? (tok :: rest)).map (none, ·)

-- ---------------------------------------------------------------------------
-- One statement
-- ---------------------------------------------------------------------------

/-- The declaration made of an `import` keyword, the tokens before the specifier, and the
specifier. The last of those before must be `from`. -/
def readDeclaration? (span : Span) (before : List Token) (specifier : Token) (semicolon : Bool) :
    Option Declaration := do
  let value ← specifier.contents?
  let word ← before.getLast?
  if !word.isWord "from" then none
  else do
    let (default?, named) ← clause? before.dropLast
    let quote ← specifier.text.head?.bind Quote.ofChar?
    some { specifier := String.ofList value, span, default?, named, style := { quote, semicolon } }

/-- The statement that starts with the `import` keyword `head` at token index `index`. Calls of
`import` and its properties are expressions. A statement without a specifier ends with its line. -/
def ofHead? (t : Text) (index : Nat) (head : Token) (rest : List Token) (recognize : Bool) :
    Option Statement :=
  match nextCode? rest with
  | none => none
  | some (_, next) =>
    if next.isPunct '(' || next.isPunct '.' then none
    else
      match (specifierIndex? t rest).bind fun i => rest[i]?.map (i, ·) with
      | none =>
        let line := rest.takeWhile (·.start < t.lineEnd head.start)
        let last := line.getLast?.getD head
        some {
          span := ⟨head.start, max last.stop head.stop⟩
          first := index, past := index + 1 + line.length
          specifier? := none, declaration? := none }
      | some (i, specifier) =>
        let semicolon := semicolonIndex? t specifier (rest.drop (i + 1))
        let length := match semicolon with
          | some j => i + 1 + j + 1
          | none => i + 1
        let body := rest.take length
        let span := ⟨head.start, (body.getLast?.getD head).stop⟩
        some {
          span, first := index, past := index + 1 + length
          specifier? := specifier.contents?.map String.ofList
          declaration? :=
            if recognize && body.all isCode then
              readDeclaration? span (rest.take i) specifier semicolon.isSome
            else none }

-- ---------------------------------------------------------------------------
-- All statements
-- ---------------------------------------------------------------------------

/-- Brace depth after a token. A brace too many closes nothing. -/
def depthAfter (depth : Nat) (tok : Token) : Nat :=
  if tok.isPunct '\x7b' then depth + 1
  else if tok.isPunct '\x7d' then depth - 1
  else depth

/-- The statement that starts at a token, if one does: an `import` outside braces that is first on
its line or follows a `;`. Only the former is recognized as a declaration. -/
def at? (t : Text) (depth : Nat) (previous : Option Token) (index : Nat) (tok : Token)
    (rest : List Token) : Option Statement :=
  if depth = 0 ∧ tok.isWord "import" then
    let leading := t.firstOnLine tok.start
    if leading || previous.any (·.isPunct ';') then ofHead? t index tok rest leading else none
  else none

/-- The statements among tokens, given the brace depth before them, the last token before them
that is no comment, and the index of the first. -/
def scan (t : Text) (depth : Nat) (previous : Option Token) (index : Nat)
    (tokens : List Token) : List Statement :=
  match tokens with
  | [] => []
  | tok :: rest =>
    match at? t depth previous index tok rest with
    | some s =>
      let n := s.past - (index + 1)
      s :: scan t depth ((lastCode? (tok :: rest.take n)).or previous) (index + 1 + n) (rest.drop n)
    | none =>
      scan t (depthAfter depth tok) (if tok.isCode then some tok else previous) (index + 1) rest
termination_by tokens.length
decreasing_by
  all_goals simp only [List.length_cons, List.length_drop]; omega

end Statement

-- ---------------------------------------------------------------------------
-- Scripts
-- ---------------------------------------------------------------------------

/-- A text together with its tokens and import statements. -/
structure Script where
  text : Text
  tokens : List Token
  statements : List Statement
  deriving Repr, Inhabited

namespace Script

def parse (t : Text) : Script :=
  let tokens := tokenize t
  ⟨t, tokens, Statement.scan t 0 none 0 tokens⟩

/-- The recognized declarations, in order. -/
def declarations (s : Script) : List Declaration := s.statements.filterMap (·.declaration?)

/-- The recognized declarations of one module, in order. -/
def declarationsOf (s : Script) (specifier : String) : List Declaration :=
  s.declarations.filter (·.specifier == specifier)

/-- The tokens a statement is made of. -/
def tokensOf (s : Script) (st : Statement) : List Token :=
  (s.tokens.drop st.first).take (st.past - st.first)

end Script

end TidyImports
