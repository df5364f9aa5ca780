import Schemata.Text.Basic

/-!
# Numbers in texts

Decimal digits of any script count.  A whole number may carry a sign, white space around it and
single underscores between its digits; it has at most 4300 digits, zeros in front included.

## Main definitions

* `digitValue?` — the value of a decimal digit.
* `Text.toNat?`, `Text.toInt?` — reading a row of digits, and a whole number.
-/

namespace Schemata

/-- The zeros of the decimal digits outside ASCII; the nine digits above zero follow each. -/
def digitZeros : List Nat :=
  [0x660, 0x6F0, 0x7C0, 0x966, 0x9E6, 0xA66, 0xAE6, 0xB66, 0xBE6, 0xC66, 0xCE6, 0xD66, 0xDE6, 0xE50,
    0xED0, 0xF20, 0x1040, 0x1090, 0x17E0, 0x1810, 0x1946, 0x19D0, 0x1A80, 0x1A90, 0x1B50, 0x1BB0,
    0x1C40, 0x1C50, 0xA620, 0xA8D0, 0xA900, 0xA9D0, 0xA9F0, 0xAA50, 0xABF0, 0xFF10, 0x104A0,
    0x10D30, 0x11066, 0x110F0, 0x11136, 0x111D0, 0x112F0, 0x11450, 0x114D0, 0x11650, 0x116C0,
    0x11730, 0x118E0, 0x11950, 0x11C50, 0x11D50, 0x11DA0, 0x16A60, 0x16AC0, 0x16B50, 0x1D7CE,
    0x1D7D8, 0x1D7E2, 0x1D7EC, 0x1D7F6, 0x1E140, 0x1E2F0, 0x1E950, 0x1FBF0]

def digitValue? (c : Char) : Option Nat :=
  if c.isDigit then some (c.toNat - 0x30)
  else (digitZeros.find? fun z => z ≤ c.toNat && c.toNat ≤ z + 9).map fun z => c.toNat - z

namespace Text

/-- The number that a row of digits denotes, read on from the value of the digits before it. -/
def readDigits (value : Nat) : Text → Option Nat
  | [] => some value
  | c :: cs => (digitValue? c).bind fun d => readDigits (10 * value + d) cs

/-- The number denoted by a non-empty row of digits. -/
def toNat? (t : Text) : Option Nat :=
  if t.isEmpty then none else readDigits 0 t

/-- The digits of a number in which single underscores may stand between digits. -/
def dropUnderscores : Text → Option Text
  | [] => none
  | [c] => if c == '_' then none else some [c]
  | c :: '_' :: cs => if c == '_' then none else (dropUnderscores cs).map (c :: ·)
  | c :: cs => if c == '_' then none else (dropUnderscores cs).map (c :: ·)

/-- The white space that may stand around a number: the separators U+001C to U+001F may not. -/
def isNumberBlank (c : Char) : Bool :=
  isBlank c && !(0x1C ≤ c.toNat && c.toNat ≤ 0x1F)

/-- The largest number of digits of a whole number. -/
def digitLimit : Nat :=
  4300

/-- The number denoted by digits with single underscores between them. -/
def toMagnitude? (t : Text) : Option Nat :=
  (dropUnderscores t).bind fun digits => if digits.length ≤ digitLimit then toNat? digits else none

def toInt? (t : Text) : Option Int :=
  match dropEndWhile isNumberBlank (t.dropWhile isNumberBlank) with
  | '-' :: cs => (toMagnitude? cs).map fun n => -(n : Int)
  | '+' :: cs => (toMagnitude? cs).map fun n => (n : Int)
  | cs => (toMagnitude? cs).map fun n => (n : Int)

end Text

end Schemata
