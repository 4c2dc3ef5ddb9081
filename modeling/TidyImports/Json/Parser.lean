-- SUMMARY: Reading JSON text: lexemes, and a stack machine that assembles documents from them.
import TidyImports.Document.Basic

/-!
# Reading JSON

Reading has two stages. The text is first cut into lexemes, and then a machine
with one frame per open list or table takes them one at a time. Lists and tables
are nested to a limited depth, and a number that no double can hold is refused.
-/

namespace TidyImports

namespace Json

-- ---------------------------------------------------------------------------
-- Lexemes
-- ---------------------------------------------------------------------------

inductive Lexeme where
  | mark (c : Char)
  | text (s : String)
  | literal (d : Document)
  deriving Repr, Inhabited

def isBlank (c : Char) : Bool := c == ' ' || c == '\t' || c == '\n' || c == '\r'

def isMark (c : Char) : Bool :=
  c == '[' || c == ']' || c == '\x7b' || c == '\x7d' || c == ',' || c == ':'

def hexValue? (c : Char) : Option Nat :=
  if c.isDigit then some (c.toNat - 48)
  else if 'a' ≤ c ∧ c ≤ 'f' then some (c.toNat - 87)
  else if 'A' ≤ c ∧ c ≤ 'F' then some (c.toNat - 55)
  else none

/-- The value of a run of hexadecimal digits. -/
def hexNumber? (digits : Text) : Option Nat :=
  digits.foldlM (fun n c => (hexValue? c).map (16 * n + ·)) 0

/-- The character a one-letter escape stands for. -/
def unescape? (c : Char) : Option Char :=
  if c = '"' ∨ c = '\\' ∨ c = '/' then some c
  else if c = 'b' then some '\x08'
  else if c = 'f' then some '\x0c'
  else if c = 'n' then some '\n'
  else if c = 'r' then some '\r'
  else if c = 't' then some '\t'
  else none

/-- The characters of a string after its opening quote, and how many characters of the text they
take with the closing quote. Surrogates must come in pairs. -/
def stringBody? : Text → Option (Text × Nat)
  | [] => none
  | '"' :: _ => some ([], 1)
  | '\\' :: 'u' :: a :: b :: c :: d :: rest => do
    let unit ← hexNumber? [a, b, c, d]
    if 0xD800 ≤ unit ∧ unit < 0xDC00 then
      match rest with
      | '\\' :: 'u' :: e :: f :: g :: h :: rest' =>
        let low ← hexNumber? [e, f, g, h]
        if 0xDC00 ≤ low ∧ low < 0xE000 then
          let (text, n) ← stringBody? rest'
          some (Char.ofNat (0x10000 + (unit - 0xD800) * 0x400 + (low - 0xDC00)) :: text, n + 12)
        else none
      | _ => none
    else if 0xDC00 ≤ unit ∧ unit < 0xE000 then none
    else
      let (text, n) ← stringBody? rest
      some (Char.ofNat unit :: text, n + 6)
  | '\\' :: e :: rest => do
    let c ← unescape? e
    let (text, n) ← stringBody? rest
    some (c :: text, n + 2)
  | c :: rest =>
    if c = '\\' ∨ c.toNat < 0x20 then none
    else do
      let (text, n) ← stringBody? rest
      some (c :: text, n + 1)

/-- Is the text a run of digits, and not empty? -/
def isDigits (t : Text) : Bool := !t.isEmpty && t.all Char.isDigit

/-- A whole number without a superfluous zero in front. -/
def isWhole (t : Text) : Bool := isDigits t && (t.length == 1 || t.head? != some '0')

/-- Is the text an exponent's sign and digits? -/
def isExponent : Text → Bool
  | '+' :: t | '-' :: t => isDigits t
  | t => isDigits t

/-- Is the text the rest of a number after its whole part? -/
def isFraction (t : Text) : Bool :=
  let afterPoint (u : Text) : Bool := u.isEmpty ||
    ((u.head? == some 'e' || u.head? == some 'E') && isExponent u.tail)
  match t with
  | '.' :: u => isDigits (u.takeWhile Char.isDigit) && afterPoint (u.dropWhile Char.isDigit)
  | u => afterPoint u

/-- A number: an integer of 64 bits when it is written as one, and otherwise a decimal that a double
can hold. -/
def number? (t : Text) : Option Document :=
  let negative := t.head? == some '-'
  let digits := if negative then t.tail else t
  let whole := digits.takeWhile Char.isDigit
  let rest := digits.dropWhile Char.isDigit
  let n : Int := Decimal.digitsValue whole
  if !isWhole whole || !isFraction rest then none
  else if rest.isEmpty && !negative && n ≤ 0xFFFFFFFFFFFFFFFF then some (.integer n)
  else if rest.isEmpty && negative && 0 < n && n ≤ 0x8000000000000000 then some (.integer (-n))
  else if (Decimal.ofText t).fitsDouble then some (.decimal (String.ofList t))
  else none

def literal? (t : Text) : Option Document :=
  if t = "null".toList then some .null
  else if t = "true".toList then some (.bool true)
  else if t = "false".toList then some (.bool false)
  else number? t

/-- Does the character belong to a word or number? -/
def isLiteralChar (c : Char) : Bool := c.isAlphanum || c == '+' || c == '-' || c == '.'

/-- The lexemes of a text. -/
def lexemes? (t : Text) : Option (List Lexeme) :=
  match t with
  | [] => some []
  | c :: cs =>
    if isBlank c then lexemes? cs
    else if isMark c then (lexemes? cs).map (.mark c :: ·)
    else if c = '"' then do
      let (text, n) ← stringBody? cs
      (lexemes? (cs.drop n)).map (.text (String.ofList text) :: ·)
    else do
      let more := cs.takeWhile isLiteralChar
      let d ← literal? (c :: more)
      (lexemes? (cs.drop more.length)).map (.literal d :: ·)
termination_by t.length
decreasing_by
  all_goals simp only [List.length_cons, List.length_drop]; omega

-- ---------------------------------------------------------------------------
-- Assembly
-- ---------------------------------------------------------------------------

/-- An open container, with what it holds so far in reverse. -/
inductive Frame where
  | list (items : List Document)
  | table (fields : List (String × Document))
  /-- A table whose last key still lacks its value. -/
  | entry (fields : List (String × Document)) (key : String)
  deriving Repr, Inhabited

/-- What may come next. -/
inductive Due where
  | value
  | valueOrEnd
  | key
  | keyOrEnd
  | colon
  | commaOrEnd
  deriving DecidableEq, Repr, Inhabited

/-- The machine: open containers, innermost first, and what is due; or the finished document. -/
inductive Machine where
  | reading (frames : List Frame) (due : Due)
  | finished (d : Document)
  deriving Repr, Inhabited

/-- A complete value has been read inside these containers. -/
def complete (d : Document) : List Frame → Option Machine
  | [] => some (.finished d)
  | .list items :: frames => some (.reading (.list (d :: items) :: frames) .commaOrEnd)
  | .entry fields key :: frames =>
    some (.reading (.table ((key, d) :: fields) :: frames) .commaOrEnd)
  | .table _ :: _ => none

/-- The innermost container is closed. -/
def close (c : Char) : List Frame → Option Machine
  | .list items :: frames => if c = ']' then complete (.list items.reverse) frames else none
  | .table fields :: frames => if c = '\x7d' then complete (.table fields.reverse) frames else none
  | _ => none

/-- How many lists and tables can be open at a time. -/
def maxDepth : Nat := 127

/-- Open a container inside others. -/
def openFrame (frame : Frame) (due : Due) (frames : List Frame) : Option Machine :=
  if frames.length < maxDepth then some (.reading (frame :: frames) due) else none

/-- One lexeme. -/
def Machine.step (m : Machine) (l : Lexeme) : Option Machine :=
  match m with
  | .finished _ => none
  | .reading frames due =>
    match due, l with
    | .value, .mark '[' | .valueOrEnd, .mark '[' => openFrame (.list []) .valueOrEnd frames
    | .value, .mark '\x7b' | .valueOrEnd, .mark '\x7b' => openFrame (.table []) .keyOrEnd frames
    | .value, .text s | .valueOrEnd, .text s => complete (.text s) frames
    | .value, .literal d | .valueOrEnd, .literal d => complete d frames
    | .valueOrEnd, .mark c | .keyOrEnd, .mark c => close c frames
    | .key, .text k | .keyOrEnd, .text k =>
      match frames with
      | .table fields :: outer => some (.reading (.entry fields k :: outer) .colon)
      | _ => none
    | .colon, .mark ':' => some (.reading frames .value)
    | .commaOrEnd, .mark ',' =>
      match frames with
      | .list _ :: _ => some (.reading frames .value)
      | .table _ :: _ => some (.reading frames .key)
      | _ => none
    | .commaOrEnd, .mark c => close c frames
    | _, _ => none

/-- The document a text holds. -/
def parse? (t : Text) : Option Document := do
  let ls ← lexemes? t
  match ← ls.foldlM Machine.step (.reading [] .value) with
  | .finished d => some d
  | .reading _ _ => none

end Json

end TidyImports
