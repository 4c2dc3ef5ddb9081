-- SUMMARY: The lexemes of TOML text.
import TidyImports.Json.Parser

/-!
# TOML lexemes

A TOML text is cut into marks, strings, atoms, blanks, line breaks and comments
without regard to what they stand for. Whether an atom is a key or a number is
for the reader of lexemes to say.
-/

namespace TidyImports

namespace Toml

inductive Lexeme where
  | mark (c : Char)
  | blank (c : Char)
  | newline
  | comment
  | text (s : String) (multiline : Bool)
  /-- A run of other characters: a bare key with its dots, a number, a date or a word. -/
  | atom (t : Text)
  deriving DecidableEq, Repr, Inhabited

-- ---------------------------------------------------------------------------
-- Characters
-- ---------------------------------------------------------------------------

/-- A blank inside a line. A carriage return only ever stands before a line feed. -/
def isBlank (c : Char) : Bool := c == ' ' || c == '\t' || c == '\r'

def isMark (c : Char) : Bool :=
  c == '[' || c == ']' || c == '\x7b' || c == '\x7d' || c == ',' || c == '='

/-- A character that comments and strings may hold as it is. -/
def isPlain (c : Char) : Bool := c == '\t' || (0x20 ≤ c.toNat && c.toNat != 0x7f)

def isAtomChar (c : Char) : Bool :=
  !(isBlank c || isMark c || c == '\n' || c == '#' || c == '"' || c == '\'')

/-- Is there a line feed after every carriage return? -/
def returnsPaired : Text → Bool
  | [] => true
  | '\r' :: '\n' :: rest => returnsPaired rest
  | c :: rest => c != '\r' && returnsPaired rest

-- ---------------------------------------------------------------------------
-- Strings
-- ---------------------------------------------------------------------------

/-- The character with a code point given in hexadecimal digits. -/
def codePoint? (digits : Text) : Option Char :=
  (Json.hexNumber? digits).bind fun n => if n.isValidChar then some (Char.ofNat n) else none

/-- An escape whose letter is followed by this many digits of a code point. -/
def codeEscape? (count : Nat) (digits : Text) : Option (Char × Nat) :=
  if count ≤ digits.length then (codePoint? (digits.take count)).map (·, count + 1) else none

/-- The character that an escape stands for, given what follows the backslash, and how many
characters it takes. -/
def escape? (t : Text) : Option (Char × Nat) :=
  match t with
  | 'b' :: _ => some ('\x08', 1)
  | 't' :: _ => some ('\t', 1)
  | 'n' :: _ => some ('\n', 1)
  | 'e' :: _ => some ('\x1b', 1)
  | 'f' :: _ => some ('\x0c', 1)
  | 'r' :: _ => some ('\r', 1)
  | '"' :: _ => some ('"', 1)
  | '\\' :: _ => some ('\\', 1)
  | 'x' :: digits => codeEscape? 2 digits
  | 'u' :: digits => codeEscape? 4 digits
  | 'U' :: digits => codeEscape? 8 digits
  | _ => none

/-- The characters of a string after its opening quotes, and how many characters of the text they
take with the closing ones. Double quotes allow escapes. In a string of several lines a backslash at
a line's end swallows the white space that follows, and up to two quotes may precede the closing
three. -/
def stringBody? (quote : Char) (multiline : Bool) (t : Text) : Option (Text × Nat) :=
  match t with
  | [] => none
  | c :: cs =>
    if c = quote then
      let quotes := (cs.takeWhile (· == quote)).length + 1
      if !multiline then some ([], 1)
      else if quotes < 3 then
        (stringBody? quote multiline cs).map fun (s, n) => (c :: s, n + 1)
      else if quotes ≤ 5 then some (List.replicate (quotes - 3) quote, quotes)
      else none
    else if c = '\\' ∧ quote = '"' then
      let gap := cs.takeWhile fun c => isBlank c || c == '\n'
      if multiline && gap.contains '\n' then
        (stringBody? quote multiline (cs.drop gap.length)).map fun (s, n) =>
          (s, n + gap.length + 1)
      else do
        let (e, k) ← escape? cs
        (stringBody? quote multiline (cs.drop k)).map fun (s, n) => (e :: s, n + k + 1)
    else if isPlain c || (multiline && (c == '\n' || c == '\r')) then
      (stringBody? quote multiline cs).map fun (s, n) => (c :: s, n + 1)
    else none
termination_by t.length
decreasing_by
  all_goals simp only [List.length_cons, List.length_drop]; omega

/-- A string after its first quote, and how many characters it takes. A line break right after three
opening quotes is no part of it. -/
def string? (quote : Char) (t : Text) : Option (Lexeme × Nat) :=
  let done (multiline : Bool) (k : Nat) (body : Text × Nat) : Lexeme × Nat :=
    (.text (String.ofList body.1) multiline, body.2 + k)
  if t.take 2 = [quote, quote] then
    match t.drop 2 with
    | '\n' :: rest => (stringBody? quote true rest).map (done true 3)
    | '\r' :: '\n' :: rest => (stringBody? quote true rest).map (done true 4)
    | rest => (stringBody? quote true rest).map (done true 2)
  else (stringBody? quote false t).map (done false 0)

-- ---------------------------------------------------------------------------
-- Lexemes
-- ---------------------------------------------------------------------------

/-- The lexemes of a text whose carriage returns are paired. -/
def lexemes? (t : Text) : Option (List Lexeme) :=
  match t with
  | [] => some []
  | c :: cs =>
    if c = '\n' then (lexemes? cs).map (.newline :: ·)
    else if isBlank c then (lexemes? cs).map (.blank c :: ·)
    else if isMark c then (lexemes? cs).map (.mark c :: ·)
    else if c = '#' then
      let comment := cs.takeWhile (· != '\n')
      if comment.all fun c => isPlain c || c == '\r' then
        (lexemes? (cs.drop comment.length)).map (.comment :: ·)
      else none
    else if c = '"' ∨ c = '\'' then do
      let (l, n) ← string? c cs
      (lexemes? (cs.drop n)).map (l :: ·)
    else
      let more := cs.takeWhile isAtomChar
      (lexemes? (cs.drop more.length)).map (.atom (c :: more) :: ·)
termination_by t.length
decreasing_by
  all_goals simp only [List.length_cons, List.length_drop]; omega

end Toml

end TidyImports
