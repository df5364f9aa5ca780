import Schemata.Lexeme.TopLevel
import Schemata.Text.Word

/-!
# Bodies

The body of a declaration is a row of *items*: fields or enum values, and comment lines and
descriptions between them.  Items are separated by line breaks and commas, and two of them may also
stand side by side, separated by white space alone: any white space ends an enum value, and it ends
a field if the field has got its type and another field starts after it.

A line that starts with `@`, `(`, `:` or `=` goes on with the item before it.  A comment after an
item on the same line stays with that item, and a comment inside brackets is left out.
-/

namespace Schemata

/-- The characters that continue the item on the line before. -/
def isContinuation (c : Char) : Bool :=
  c == '@' || c == '(' || c == ':' || c == '='

/-- The name at the start of lexemes, without its first character, and what follows it. -/
def Lexeme.dropName : List Lexeme → List Lexeme
  | .char c :: ls => if isNameChar c then dropName ls else .char c :: ls
  | ls => ls

/-- Lexemes without white space at their start. -/
def Lexeme.dropBlank : List Lexeme → List Lexeme
  | .char c :: ls => if isBlank c then dropBlank ls else .char c :: ls
  | ls => ls

/-- Whether the first lexeme is a character satisfying `p`. -/
def Lexeme.startsWith (p : Char → Bool) : List Lexeme → Bool
  | .char c :: _ => p c
  | _ => false

/-- Whether a field starts here: a name, and a colon or an opening parenthesis after it. -/
def startsField (ls : List Lexeme) : Bool :=
  Lexeme.startsWith isNameStart ls &&
    Lexeme.startsWith (fun c => c == ':' || c == '(') (Lexeme.dropBlank (Lexeme.dropName ls))

/-- Whether an item has got its type, with no sign that announces more at its end. -/
def isCompleteField (item : Text) : Except SchemaError Bool := do
  let item := item.trim
  match ← cutAt (· == ':') item with
  | none => return false
  | some (_, rest) =>
      return !(Text.trim rest.tail).isEmpty &&
        !item.endsWith fun c => c == ':' || c == '=' || c == '|'

/-- Whether white space after an item separates it, as a complete field, from another field. -/
def endsField (item : Text) (rest : List Lexeme) : Except SchemaError Bool := do
  if ← isCompleteField item then return startsField (Lexeme.dropBlank rest) else return false

/-- The reading of a body. -/
structure Body where
  items : List Text := []
  item : Text := []
  depth : Nat := 0
  /-- The number of items read before the current line. -/
  lineStart : Nat := 0
  deriving DecidableEq

namespace Body

/-- Finish the item being read, if it is not blank. -/
def flush (b : Body) : Except SchemaError Body := do
  let item := (Text.dropEndWhile (· == ',') (← collapse b.item).trim).trim
  return { b with items := if item.isEmpty then b.items else b.items ++ [item], item := [] }

def push (b : Body) (t : Text) : Body :=
  { b with item := b.item ++ t }

/-- A literal is a description, unless it stands inside an item. -/
def literal (b : Body) (t : Text) : Body :=
  if b.depth == 0 && b.item.trim.isEmpty then { b with items := b.items ++ [t] } else b.push t

/-- Put a comment on the item that ends the current line, or make it an item of its own. -/
def attach (b : Body) (comment : Text) : Body :=
  match b.items.getLast? with
  | some item =>
      if b.lineStart < b.items.length && !item.startsWith fun c => c == '"' || c == '#' then
        { b with items := b.items.dropLast ++ [item ++ ' ' :: comment] }
      else { b with items := b.items ++ [comment] }
  | none => { b with items := b.items ++ [comment] }

/-- A comment ends the item before it; inside brackets it is left out. -/
def comment (b : Body) (t : Text) : Except SchemaError Body := do
  if b.depth == 0 then return (← b.flush).attach t.trim else return b

/-- Whether a character separates items, `rest` being what follows it. -/
def isBreak (b : Body) (enum : Bool) (c : Char) (rest : List Lexeme) : Except SchemaError Bool := do
  if b.depth != 0 then return false
  else if c == '\n' || c == ',' then return true
  else if isBlank c && !b.item.trim.isEmpty then
    if enum then return true else endsField b.item (.char c :: rest)
  else return false

/-- One character of a body, `rest` being what follows it. -/
def char (b : Body) (enum : Bool) (c : Char) (rest : List Lexeme) : Except SchemaError Body := do
  let b := { b with depth := depthAfter b.depth c }
  if ← b.isBreak enum c rest then
    if c != ',' && Lexeme.startsWith isContinuation (Lexeme.dropBlank (.char c :: rest)) then
      return b.push [' ']
    else
      let b ← b.flush
      return if c == '\n' then { b with lineStart := b.items.length } else b
  else return b.push [c]

def read (enum : Bool) (b : Body) : List Lexeme → Except SchemaError Body
  | [] => b.flush
  | .unclosed t :: _ => .error (unclosedLiteral t)
  | .literal t :: ls => read enum (b.literal t) ls
  | .comment t :: ls => do read enum (← b.comment t) ls
  | .char c :: ls => do read enum (← b.char enum c ls) ls

end Body

/-- The items of a body; `enum` says whether any white space separates them. -/
def bodyItems (enum : Bool) (ls : List Lexeme) : Except SchemaError (List Text) :=
  Body.items <$> Body.read enum {} ls

end Schemata
