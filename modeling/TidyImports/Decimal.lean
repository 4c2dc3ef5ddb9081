-- SUMMARY: Decimal numbers, and which of them lie in the range of a double.
import TidyImports.Text.Basic

/-!
# Decimal numbers

A decimal is a whole number of digits scaled by a power of ten. A double rounds
to the nearest value it can hold, so it is exhausted halfway between its largest
value and the power of two above.
-/

namespace TidyImports

/-- The value of `digits` times ten to the power of `exponent`, without a sign. -/
structure Decimal where
  digits : Nat
  exponent : Int
  deriving DecidableEq, Repr, Inhabited

namespace Decimal

/-- The number that the digits of a text make; other characters count for nothing. -/
def digitsValue (t : Text) : Nat :=
  (t.filter Char.isDigit).foldl (fun n c => 10 * n + (c.toNat - 48)) 0

/-- The decimal a text spells: digits with an optional point, and an optional exponent after `e`.
Signs in front and underscores are skipped. -/
def ofText (t : Text) : Decimal :=
  let isMark (c : Char) : Bool := c == 'e' || c == 'E'
  let significand := t.takeWhile (!isMark ·)
  let scale := (t.dropWhile (!isMark ·)).tail
  let places := ((significand.dropWhile (· != '.')).filter Char.isDigit).length
  let power : Int := digitsValue scale
  { digits := digitsValue significand
    exponent := (if scale.head? = some '-' then -power else power) - places }

/-- Where doubles end: everything from here on rounds to infinity. -/
def doubleLimit : Nat := Nat.pow 2 1024 - Nat.pow 2 970

/-- How many digits a number has. -/
def width (n : Nat) : Nat := (Nat.toDigits 10 n).length

/-- Does the decimal round to a finite double? Ten to the power of 308 does, and ten to the power
of 309 does not, so the exact comparison is made between them only. -/
def fitsDouble (d : Decimal) : Bool :=
  let magnitude := width d.digits + d.exponent
  if d.digits = 0 ∨ magnitude ≤ 308 then true
  else if 309 < magnitude then false
  else if 0 ≤ d.exponent then d.digits * Nat.pow 10 d.exponent.toNat < doubleLimit
  else d.digits < doubleLimit * Nat.pow 10 (-d.exponent).toNat

end Decimal

end TidyImports
