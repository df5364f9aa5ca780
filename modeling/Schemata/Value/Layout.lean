import Schemata.Value.Basic

/-!
# Values laid out over lines

Exported data is written in the JSON format, one element or entry per line, indented by two spaces
per level.

## Main definitions

* `Value.layout` — the lines of a value.
-/

namespace Schemata

namespace Text

/-- One character of a JSON string: quote, backslash and the controls are escaped, all else stands
for itself. -/
def jsonChar (c : Char) : Text :=
  if c == '"' || c == '\\' then ['\\', c]
  else if c == '\n' then ['\\', 'n']
  else if c == '\r' then ['\\', 'r']
  else if c == '\t' then ['\\', 't']
  else if c == '\x08' then ['\\', 'b']
  else if c == '\x0c' then ['\\', 'f']
  else if c.toNat < 0x20 then ['\\', 'u'] ++ hex 4 c.toNat
  else [c]

def jsonString (t : Text) : Text :=
  '"' :: t.flatMap jsonChar ++ ['"']

end Text

namespace Value

/-- A line break, and the indentation of a level. -/
def newLine (level : Nat) : Text :=
  '\n' :: List.replicate (2 * level) ' '

/-- Items between brackets, one per line, one level deeper than the brackets. -/
def bracketed (opening closing : Text) (level : Nat) (items : List Text) : Text :=
  if items.isEmpty then opening ++ closing
  else
    opening ++ newLine (level + 1) ++ Text.joinWith (',' :: newLine (level + 1)) items
      ++ newLine level ++ closing

mutual

/-- A value that starts on a line of a given level. -/
def layoutAt (level : Nat) : Value → Text
  | null => "null".toList
  | bool true => "true".toList
  | bool false => "false".toList
  | int n => Text.ofInt n
  | text t => t.jsonString
  | list vs => bracketed "[".toList "]".toList level (layoutAll (level + 1) vs)
  | mapping es => bracketed "\x7b".toList "\x7d".toList level (layoutEntries (level + 1) es)

def layoutAll (level : Nat) : List Value → List Text
  | [] => []
  | v :: vs => layoutAt level v :: layoutAll level vs

def layoutEntries (level : Nat) : List (Text × Value) → List Text
  | [] => []
  | (k, v) :: es => (k.jsonString ++ ": ".toList ++ layoutAt level v) :: layoutEntries level es

end

def layout (v : Value) : Text :=
  layoutAt 0 v

end Value

end Schemata
