/-!
# Texts

A schema is read, cut and written as a `Text`, the list of its characters.  Every position, length
and excerpt of this library counts characters.

## Main definitions

* `Text.trim`, `Text.squeeze` — white space removed around a text, and inside it.
-/

namespace Schemata

abbrev Text := List Char

/-- The code points of white space, as inclusive ranges. -/
def blankRanges : List (Nat × Nat) :=
  [(0x09, 0x0D), (0x1C, 0x20), (0x85, 0x85), (0xA0, 0xA0), (0x1680, 0x1680), (0x2000, 0x200A),
    (0x2028, 0x2029), (0x202F, 0x202F), (0x205F, 0x205F), (0x3000, 0x3000)]

/-- The inclusive ranges that lengths stand for, from `start` on: so many code points are left out,
so many are in, and so on in turn. -/
def rangesFrom (start : Nat) : List Nat → List (Nat × Nat)
  | out :: inside :: rest =>
      (start + out, start + out + inside - 1) :: rangesFrom (start + out + inside) rest
  | _ => []

/-- Membership of a code point in a list of inclusive ranges. -/
def inRanges (ranges : List (Nat × Nat)) (n : Nat) : Bool :=
  ranges.any fun r => r.1 ≤ n && n ≤ r.2

/-- White space: the characters that separate tokens and that trimming removes. -/
def isBlank (c : Char) : Bool :=
  inRanges blankRanges c.toNat

namespace Text

/-- The text without the longest run of characters satisfying `p` at its end. -/
def dropEndWhile (p : Char → Bool) (t : Text) : Text :=
  (t.reverse.dropWhile p).reverse

/-- The text without white space at its start. -/
def trimStart (t : Text) : Text :=
  t.dropWhile isBlank

def trimEnd (t : Text) : Text :=
  dropEndWhile isBlank t

/-- The text without white space at either end. -/
def trim (t : Text) : Text :=
  trimEnd (trimStart t)

def squeeze (t : Text) : Text :=
  t.filter fun c => !isBlank c

/-- Whether the text starts with a character satisfying `p`. -/
def startsWith (p : Char → Bool) (t : Text) : Bool :=
  t.head?.any p

/-- Whether the text ends with a character satisfying `p`. -/
def endsWith (p : Char → Bool) (t : Text) : Bool :=
  t.getLast?.any p

/-- What follows a word at the start of a text. -/
def after? : Text → Text → Option Text
  | [], t => some t
  | _ :: _, [] => none
  | w :: word, c :: cs => if w == c then after? word cs else none

/-- The pieces of a text between the characters satisfying `p`; there is always at least one. -/
def splitBy (p : Char → Bool) : Text → List Text
  | [] => [[]]
  | c :: cs =>
      if p c then [] :: splitBy p cs
      else
        match splitBy p cs with
        | [] => [[c]]
        | piece :: pieces => (c :: piece) :: pieces

/-- The pieces joined with a separator between each two neighbours. -/
def joinWith (separator : Text) : List Text → Text
  | [] => []
  | [t] => t
  | t :: ts => t ++ separator ++ joinWith separator ts

/-- The lines of a text: a line break separates two lines. -/
def lines (t : Text) : List Text :=
  splitBy (· == '\n') t

def ofLines (ts : List Text) : Text :=
  joinWith ['\n'] ts

/-- The rest of the first line and what follows it, the line break included. -/
def spanLine (t : Text) : Text × Text :=
  t.span (· != '\n')

/-- The text between two single quotes, as names appear in messages. -/
def inQuotes (t : Text) : Text :=
  "'".toList ++ t ++ "'".toList

def ofInt (n : Int) : Text :=
  (toString n).toList

end Text

end Schemata
