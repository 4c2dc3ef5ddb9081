-- SUMMARY: The lexer: which token starts at a character, how long it is, and what state it leaves.
import TidyImports.Source.Token

/-!
# Lexer

Just enough of the script's lexical grammar to tell code from strings, template
text, regular expressions and comments. A scanner looks at the characters that
follow the first one of a token and answers how many of them belong to it; the
lexer then cuts the text there. What one token needs to know of those before it
is a `Lexer.State`: may a `/` open a regular expression here, and how deep are
the braces inside each open template substitution. Every step leaves a strictly
shorter rest, so lexing ends on all texts.

A quoted string ends at a line break, but for one that a backslash takes into it.
So an apostrophe in running text swallows the rest of its line, and the next line
only where a backslash ends this one.
-/

namespace TidyImports

namespace Lexer

-- ---------------------------------------------------------------------------
-- Character classes
-- ---------------------------------------------------------------------------

/-- White space between tokens. -/
def isSpace (c : Char) : Bool :=
  c == ' ' || c == '\t' || c == '\r' || c == '\n' || c == '\x0b' || c == '\x0c'

/-- Letters, `_`, `$` and everything outside ASCII start an identifier. -/
def isIdentStart (c : Char) : Bool := c.isAlpha || c == '_' || c == '$' || 0x80 ≤ c.val

def isIdentChar (c : Char) : Bool := isIdentStart c || c.isDigit

def isNumberChar (c : Char) : Bool := isIdentChar c || c == '.'

/-- Words after which a `/` opens a regular expression. -/
def regexWords : List String :=
  ["return", "typeof", "instanceof", "in", "of", "new", "delete", "void", "throw", "case", "do",
   "else", "yield", "await"]

-- ---------------------------------------------------------------------------
-- Scanners
-- ---------------------------------------------------------------------------

/-- Length of the part of a line before its line feed. -/
def lineLength (t : Text) : Nat := (t.takeWhile (· != '\n')).length

/-- Length of a block comment's body with the closing mark. -/
def commentLength : Text → Nat
  | [] => 0
  | '*' :: '/' :: _ => 2
  | _ :: cs => commentLength cs + 1

/-- Length of a string's body with the closing quote, and whether there is one. A backslash
takes the next character with it, even a line feed. -/
def stringLength (quote : Char) : Text → Nat × Bool
  | [] => (0, false)
  | [c] => if c = '\n' then (0, false) else (1, c != '\\' && c == quote)
  | c :: d :: cs =>
    if c = '\\' then
      let (n, closed) := stringLength quote cs
      (n + 2, closed)
    else if c = '\n' then (0, false)
    else if c = quote then (1, true)
    else
      let (n, closed) := stringLength quote (d :: cs)
      (n + 1, closed)

/-- Length of template text through its closing backtick or the `${` that opens a substitution,
and whether it is the latter. -/
def templateLength : Text → Nat × Bool
  | [] => (0, false)
  | [_] => (1, false)
  | c :: d :: cs =>
    if c = '\\' then
      let (n, opens) := templateLength cs
      (n + 2, opens)
    else if c = '`' then (1, false)
    else if c = '$' ∧ d = '{' then (2, true)
    else
      let (n, opens) := templateLength (d :: cs)
      (n + 1, opens)

/-- Length of a regular expression's body with the closing `/` and the flags. A `/` inside a
class does not close it, and a backslash takes the next character with it, even a line feed. There
is none when the line or the text ends first. -/
def regexLength? (inClass : Bool) : Text → Option Nat
  | [] => none
  | [c] => if c = '/' ∧ !inClass then some 1 else none
  | c :: d :: cs =>
    if c = '\\' then (regexLength? inClass cs).map (· + 2)
    else if c = '\n' then none
    else if c = '/' ∧ !inClass then some (((d :: cs).takeWhile isIdentChar).length + 1)
    else (regexLength? (c == '[' || (inClass && c != ']')) (d :: cs)).map (· + 1)

-- ---------------------------------------------------------------------------
-- State
-- ---------------------------------------------------------------------------

/-- What the tokens so far leave for the next one. -/
structure State where
  /-- May a `/` open a regular expression here? -/
  regexAllowed : Bool := true
  /-- Brace depth inside each open template substitution, innermost first. -/
  depths : List Nat := []
  deriving DecidableEq, Repr, Inhabited

/-- Does a `}` here close a substitution? -/
def State.closesSubstitution (s : State) : Bool := s.depths.head? == some 0

/-- The kind of the token that starts with `c`, and how many of the characters after `c` belong
to it. -/
def State.scan (s : State) (c : Char) (rest : Text) : Token.Kind × Nat :=
  if c = '/' then
    match rest with
    | '/' :: _ => (.lineComment, lineLength rest)
    | '*' :: body => (.blockComment, commentLength body + 1)
    | _ =>
      match if s.regexAllowed then regexLength? false rest else none with
      | some n => (.regex, n)
      | none => (.punct c, 0)
  else if c = '\'' ∨ c = '"' then
    let (n, closed) := stringLength c rest
    (.string closed, n)
  else if c = '`' ∨ (c = '}' ∧ s.closesSubstitution) then
    let (n, opens) := templateLength rest
    (.template opens, n)
  else if c.isDigit then (.number, (rest.takeWhile isNumberChar).length)
  else if isIdentStart c then (.ident, (rest.takeWhile isIdentChar).length)
  else (.punct c, 0)

/-- Depths after a `{`. -/
def deepen : List Nat → List Nat
  | [] => []
  | d :: ds => (d + 1) :: ds

/-- Depths after a `}` that closes no substitution. -/
def lighten : List Nat → List Nat
  | [] => []
  | d :: ds => (d - 1) :: ds

/-- The state after a token. -/
def State.after (s : State) (kind : Token.Kind) (text : Text) : State :=
  match kind with
  | .lineComment | .blockComment => s
  | .ident => { s with regexAllowed := regexWords.any (·.toList == text) }
  | .number | .string _ | .regex => { s with regexAllowed := false }
  | .template opens =>
    let outer := if text.head? = some '}' then s.depths.tail else s.depths
    { regexAllowed := opens, depths := if opens then 0 :: outer else outer }
  | .punct c =>
    { regexAllowed := !(c == ')' || c == ']' || c == '}' || c == '<')
      depths :=
        if c = '{' then deepen s.depths
        else if c = '}' then lighten s.depths
        else s.depths }

-- ---------------------------------------------------------------------------
-- Tokens of a text
-- ---------------------------------------------------------------------------

/-- The tokens of a text that starts at `offset`, from a given state. -/
def run (s : State) (offset : Nat) (t : Text) : List Token :=
  match t with
  | [] => []
  | c :: cs =>
    if isSpace c then run s (offset + c.utf8Size) cs
    else
      let (kind, n) := s.scan c cs
      let text := c :: cs.take n
      ⟨kind, offset, text⟩ :: run (s.after kind text) (offset + Text.size text) (cs.drop n)
termination_by t.length
decreasing_by
  all_goals simp only [List.length_cons, List.length_drop]; omega

/-- The tokens of a text that starts at `offset` and may open with a `#!` line, which is a
comment. -/
def runFromTop (offset : Nat) (t : Text) : List Token :=
  match t with
  | '#' :: '!' :: _ =>
    let text := t.takeWhile (· != '\n')
    ⟨.lineComment, offset, text⟩ :: run {} (offset + Text.size text) (t.dropWhile (· != '\n'))
  | _ => run {} offset t

end Lexer

/-- The tokens of a text. A leading byte order mark belongs to none. -/
def tokenize (t : Text) : List Token :=
  Lexer.runFromTop t.markSize (t.dropBytes t.markSize)

end TidyImports
