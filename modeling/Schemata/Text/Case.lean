import Schemata.Text.Cased

/-!
# Lower case

A character has one form in lower case wherever it stands, except for the capital sigma: at the end
of a word it becomes the final sigma.

## Main definitions

* `Text.lower` — a text in lower case.
-/

namespace Schemata

/-- The ranges in which a capital letter and its small letter stand in turn. -/
def pairedRanges : List (Nat × Nat) :=
  rangesFrom 0x100 [0,48, 2,6, 1,16, 1,46, 1,6, 3,4, 1,2, 2,2, 4,2, 5,2, 6,6, 1,2, 3,2, 1,2, 2,4,
    1,2, 2,2, 7,2, 1,2, 1,18, 1,18, 2,4, 2,40, 2,18, 7,2, 4,2, 3,10, 288,4, 2,2, 96,24, 7,2, 1,2,
    100,34, 8,54, 1,14, 1,96, 6352,150, 10,96, 643,2, 2779,2, 5,6, 5,2, 1,2, 9,100, 7,4, 3,2,
    31052,46, 18,28, 134,14, 2,62, 9,4, 1,10, 3,2, 3,4, 2,20, 10,16, 3,4, 5,2, 4,4, 27,2]

/-- The other capital letters outside ASCII, in runs: how many code points are left out before the
run, how many letters it has, and the distance to the small letters. -/
def capitalRuns : List (Nat × Nat × Int) :=
  [(192, 23, 32), (1, 7, 32), (153, 1, -121), (8, 1, 210), (4, 1, 206), (2, 2, 205), (3, 1, 79),
    (0, 1, 202), (0, 1, 203), (2, 1, 205), (0, 1, 207), (1, 1, 211), (0, 1, 209), (4, 1, 211),
    (0, 1, 213), (1, 1, 214), (6, 1, 218), (2, 1, 218), (4, 1, 218), (2, 2, 217), (4, 1, 219),
    (12, 1, 2), (2, 1, 2), (2, 1, 2), (38, 1, 2), (4, 1, -97), (0, 1, -56), (40, 1, -130),
    (25, 1, 10795), (2, 1, -163), (0, 1, 10792), (4, 1, -195), (0, 1, 69), (0, 1, 71),
    (313, 1, 116), (6, 1, 38), (1, 3, 37), (1, 1, 64), (1, 2, 63), (1, 17, 32), (1, 9, 32),
    (35, 1, 8), (36, 1, -60), (4, 1, -7), (3, 3, -130), (0, 16, 80), (0, 32, 32), (144, 1, 15),
    (112, 38, 48), (2889, 38, 7264), (1, 1, 7264), (5, 1, 7264), (722, 80, 38864), (0, 6, 8),
    (2202, 43, -3008), (2, 3, -3008), (478, 1, -7615), (105, 8, -8), (8, 6, -8), (10, 8, -8),
    (8, 8, -8), (8, 6, -8), (11, 1, -8), (1, 1, -8), (1, 1, -8), (1, 1, -8), (8, 8, -8),
    (24, 8, -8), (8, 8, -8), (8, 8, -8), (8, 2, -8), (0, 2, -74), (0, 1, -9), (11, 4, -86),
    (0, 1, -9), (11, 2, -8), (0, 2, -100), (12, 2, -8), (0, 2, -112), (0, 1, -7), (11, 2, -128),
    (0, 2, -126), (0, 1, -9), (297, 1, -7517), (3, 1, -8383), (0, 1, -8262), (6, 1, 28),
    (45, 16, 16), (838, 26, 26), (1840, 48, 48), (50, 1, -10743), (0, 1, -3814), (0, 1, -10727),
    (8, 1, -10780), (0, 1, -10749), (0, 1, -10783), (0, 1, -10782), (13, 2, -10815),
    (31485, 1, -35332), (15, 1, -42280), (28, 1, -42308), (0, 1, -42319), (0, 1, -42315),
    (0, 1, -42305), (0, 1, -42308), (1, 1, -42258), (0, 1, -42282), (0, 1, -42261), (0, 1, 928),
    (16, 1, -48), (0, 1, -42307), (0, 1, -35384), (22362, 26, 32), (1221, 40, 40), (136, 36, 40),
    (156, 11, 39), (1, 15, 39), (1, 7, 39), (1, 2, 39), (1770, 51, 64), (3053, 32, 32),
    (21888, 32, 32), (31392, 34, 34)]

/-- The distance from a code point, counted from the start of the runs, to its small letter. -/
def distanceIn : List (Nat × Nat × Int) → Nat → Int
  | [], _ => 0
  | (out, inside, distance) :: runs, n =>
      if n < out then 0
      else if n < out + inside then distance
      else distanceIn runs (n - (out + inside))

/-- A character in lower case; the dotted capital I needs two characters. -/
def lowerChar (c : Char) : Text :=
  if c.toNat < 0x80 then [c.toLower]
  else if c.toNat == 0x130 then ['i', Char.ofNat 0x307]
  else if pairedRanges.any fun r => r.1 ≤ c.toNat && c.toNat ≤ r.2 && (c.toNat - r.1) % 2 == 0 then
    [Char.ofNat (c.toNat + 1)]
  else [Char.ofNat (c.toNat + distanceIn capitalRuns c.toNat).toNat]

/-- Whether a letter between two texts ends a word: the one before it, which is given backwards,
leads to a cased character, and the one after it does not. -/
def endsWord (before after : Text) : Bool :=
  before.meetsCased && !after.meetsCased

/-- A text in lower case, `before` being what precedes it, backwards. -/
def lowerAfter (before : Text) : Text → Text
  | [] => []
  | c :: cs =>
      (if c == 'Σ' && endsWord before cs then ['ς'] else lowerChar c) ++ lowerAfter (c :: before) cs

def Text.lower (t : Text) : Text :=
  lowerAfter [] t

end Schemata
