-- SUMMARY: Numbers, dates, times and words of TOML.
import TidyImports.Json.Parser

/-!
# TOML scalars

What an atom stands for in the place of a value: a word, an integer of any size,
or a float, date or time, which are kept as they are written.
-/

namespace TidyImports

namespace Toml

-- ---------------------------------------------------------------------------
-- Numbers
-- ---------------------------------------------------------------------------

/-- Digits of some sort, with single underscores between them. -/
def isRun (isDigit : Char → Bool) (t : Text) : Bool :=
  (t.splitOn '_').all fun piece => !piece.isEmpty && piece.all isDigit

/-- A decimal run without a superfluous zero in front. -/
def isWhole (t : Text) : Bool :=
  isRun Char.isDigit t && (t.length == 1 || t.head? != some '0')

/-- The text without a sign in front. -/
def unsigned : Text → Text
  | '+' :: t | '-' :: t => t
  | t => t

/-- The value of a run of digits. -/
def runValue (base : Nat) (t : Text) : Nat :=
  (t.filterMap Json.hexValue?).foldl (base * · + ·) 0

/-- A digit of a base up to sixteen. -/
def isDigitOf (base : Nat) (c : Char) : Bool := (Json.hexValue? c).any (· < base)

/-- An integer with a base mark in front. -/
def based? (base : Nat) (digits : Text) : Option Document :=
  if isRun (isDigitOf base) digits then some (.integer (runValue base digits)) else none

def integer? (t : Text) : Option Document :=
  match t with
  | '0' :: 'x' :: digits => based? 16 digits
  | '0' :: 'o' :: digits => based? 8 digits
  | '0' :: 'b' :: digits => based? 2 digits
  | _ =>
    if isWhole (unsigned t) then
      let n : Int := runValue 10 (unsigned t)
      some (.integer (if t.head? = some '-' then -n else n))
    else none

/-- Is the text the exponent of a float, if it is anything? -/
def isExponent : Text → Bool
  | [] => true
  | e :: t => (e == 'e' || e == 'E') && isRun Char.isDigit (unsigned t)

/-- Is the text a float: a whole part with a fraction, an exponent or both, or a special value? -/
def isFloat (t : Text) : Bool :=
  let isPart (c : Char) : Bool := c.isDigit || c == '_'
  let whole := (unsigned t).takeWhile isPart
  let rest := (unsigned t).dropWhile isPart
  unsigned t == "inf".toList || unsigned t == "nan".toList ||
    (isWhole whole && !rest.isEmpty &&
      match rest with
      | '.' :: t => isRun Char.isDigit (t.takeWhile isPart) && isExponent (t.dropWhile isPart)
      | t => isExponent t)

-- ---------------------------------------------------------------------------
-- Dates and times
-- ---------------------------------------------------------------------------

/-- The number two digits make. -/
def twoDigits? (a b : Char) : Option Nat :=
  if a.isDigit && b.isDigit then some (runValue 10 [a, b]) else none

def daysIn (year month : Nat) : Nat :=
  if month = 2 then
    if year % 4 = 0 ∧ (year % 100 ≠ 0 ∨ year % 400 = 0) then 29 else 28
  else if month = 4 ∨ month = 6 ∨ month = 9 ∨ month = 11 then 30
  else 31

/-- Is the text a day of the calendar? -/
def isDate : Text → Bool
  | [a, b, c, d, '-', e, f, '-', g, h] =>
    [a, b, c, d].all Char.isDigit &&
      match twoDigits? e f, twoDigits? g h with
      | some month, some day =>
        1 ≤ month && month ≤ 12 && 1 ≤ day && day ≤ daysIn (runValue 10 [a, b, c, d]) month
      | _, _ => false
  | _ => false

/-- Are these hours and minutes? -/
def isClock (a b c d : Char) : Bool :=
  (twoDigits? a b).any (· ≤ 23) && (twoDigits? c d).any (· ≤ 59)

/-- Is the text a difference from universal time? -/
def isOffset : Text → Bool
  | ['Z'] | ['z'] => true
  | [s, a, b, ':', c, d] => (s == '+' || s == '-') && isClock a b c d
  | _ => false

/-- Are these seconds? A leap second is allowed. -/
def isSecond (a b : Char) : Bool := (twoDigits? a b).any (· ≤ 60)

/-- Is the text a time of day? Seconds may be left out, and with seconds there may be a fraction.
After a date an offset may follow. -/
def isTime (dated : Bool) : Text → Bool
  | a :: b :: ':' :: c :: d :: rest =>
    let isOver (t : Text) : Bool := t.isEmpty || (dated && isOffset t)
    isClock a b c d &&
      match rest with
      | ':' :: e :: f :: '.' :: t =>
        isSecond e f && !(t.takeWhile Char.isDigit).isEmpty && isOver (t.dropWhile Char.isDigit)
      | ':' :: e :: f :: t => isSecond e f && isOver t
      | t => isOver t
  | _ => false

/-- Is the text a date, a time, or both? -/
def isDateTime (t : Text) : Bool :=
  match t.drop 10 with
  | [] => isDate t || isTime false t
  | s :: time =>
    (isDate (t.take 10) && (s == 'T' || s == 't' || s == ' ') && isTime true time) ||
      isTime false t

-- ---------------------------------------------------------------------------
-- Scalars
-- ---------------------------------------------------------------------------

def scalar? (t : Text) : Option Document :=
  if t = "true".toList then some (.bool true)
  else if t = "false".toList then some (.bool false)
  else if isFloat t then some (.decimal (String.ofList t))
  else if isDateTime t then some (.moment (String.ofList t))
  else integer? t

end Toml

end TidyImports
