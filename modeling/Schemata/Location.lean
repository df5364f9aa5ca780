import Schemata.Text.Basic

/-!
# Locations of files

A location is written as parts with slashes between them.  Empty parts and single dots say nothing
and are dropped; two dots lead to the directory above and are kept, since what they mean depends on
the files.

## Main definitions

* `Location.ofText`, `Location.text` — reading and writing a location.
* `Location.parent` — the directory of a location.
-/

namespace Schemata

/-- The location of a file or directory. -/
structure Location where
  /-- The slashes in front: none for a relative location, otherwise one, or exactly two. -/
  root : Text := []
  /-- The names on the way, none of them empty or a single dot. -/
  parts : List Text := []
  deriving DecidableEq

namespace Location

/-- Whether a character separates the parts of a location. -/
def isSlash (c : Char) : Bool :=
  c == '/'

def upwards : Text :=
  "..".toList

/-- Two slashes in front stay two; any other number of them counts as one. -/
def rootOf (t : Text) : Text :=
  match t.takeWhile isSlash with
  | [] => []
  | ['/', '/'] => ['/', '/']
  | _ => ['/']

def ofText (t : Text) : Location :=
  { root := rootOf t
    parts := (Text.splitBy isSlash t).filter fun p => p != [] && p != ['.'] }

/-- A location in writing; the place where one stands is a dot. -/
def text (l : Location) : Text :=
  match l.root ++ Text.joinWith ['/'] l.parts with
  | [] => ['.']
  | t => t

def parent (l : Location) : Location :=
  { l with parts := l.parts.dropLast }

/-- One more part of a way; a step upwards takes the last part back. -/
def step (way : List Text) (part : Text) : List Text :=
  if part == upwards then way.dropLast else way ++ [part]

/-- The parts of a location with every step upwards carried out. -/
def climbed (l : Location) : List Text :=
  l.parts.foldl step []

/-- Whether a file can have the location: no name has a null character in it. -/
def isNameable (l : Location) : Bool :=
  l.parts.all fun part => !part.contains '\x00'

end Location

end Schemata
