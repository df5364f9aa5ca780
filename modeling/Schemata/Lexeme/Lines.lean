import Schemata.Lexeme.Basic

/-!
# Lines and where they start

The parts of a schema that are found line by line have to know, for each line, how many braces are
open at its start and whether it starts inside a string literal.
-/

namespace Schemata

/-- What is open at the start of a line. -/
structure LineState where
  depth : Nat := 0
  /-- Whether the line starts inside a string literal. -/
  inString : Bool := false
  deriving DecidableEq

/-- The number of open braces after a character; it does not fall below zero. -/
def bracesAfter (depth : Nat) (c : Char) : Nat :=
  if c == '{' then depth + 1 else if c == '}' then depth - 1 else depth

/-- The states of the lines that start after the first one, from the lexemes of a text. -/
def Lexeme.lineStates (depth : Nat) : List Lexeme → Except SchemaError (List LineState)
  | [] => .ok []
  | .unclosed t :: _ => .error (unclosedLiteral t)
  | .comment _ :: ls => lineStates depth ls
  | .literal t :: ls =>
      (List.replicate (t.count '\n') ⟨depth, true⟩ ++ ·) <$> lineStates depth ls
  | .char c :: ls =>
      if c == '\n' then (⟨depth, false⟩ :: ·) <$> lineStates depth ls
      else lineStates (bracesAfter depth c) ls

def lineStates (t : Text) : Except SchemaError (List LineState) :=
  ({} :: ·) <$> Lexeme.lineStates 0 (lex true t)

/-- Each line with its state; a line without one starts at depth zero, outside strings. -/
def attachStates : List Text → List LineState → List (Text × LineState)
  | [], _ => []
  | line :: lines, [] => (line, {}) :: attachStates lines []
  | line :: lines, s :: states => (line, s) :: attachStates lines states

/-- The lines of a text, each with its state. -/
def linesWithStates (t : Text) : Except SchemaError (List (Text × LineState)) :=
  attachStates t.lines <$> lineStates t

end Schemata
