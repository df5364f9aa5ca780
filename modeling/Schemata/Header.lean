import Schemata.Lexeme.TopLevel
import Schemata.Text.Word

/-!
# Headers

The header of a declaration starts with a keyword, `extend` before it if the declaration extends
another, and a name, which for a template carries type parameters.  The root schema has no name of
its own.
-/

namespace Schemata

/-- A name as it is declared. -/
structure DeclaredName where
  /-- The name, with its type parameters in canonical spacing. -/
  name : Text
  parameters : Option (List Text)
  rest : Text
  deriving DecidableEq

/-- Read a name, and type parameters after it, from the start of a text. -/
def DeclaredName.read (t : Text) : Except SchemaError (Option DeclaredName) :=
  let t := t.trimStart
  match t.takeName with
  | none => return none
  | some (base, rest) =>
      let after := rest.trimStart
      if after.startsWith (· == '<') then do
        match ← takeBalanced '<' '>' after with
        | none => throw (.unbalancedParameters t.trim base)
        | some (inside, rest) =>
            let parameters := (← splitAt (· == ',') inside.tail.dropLast).filter (!·.isEmpty)
            let name := base ++ "<".toList ++ Text.joinWith ", ".toList parameters ++ ">".toList
            return some ⟨name, if parameters.isEmpty then none else some parameters, rest⟩
      else return some ⟨base, none, rest⟩

/-- The start of a header. -/
structure Header where
  kind : Kind
  isExtend : Bool
  name : Text
  parameters : Option (List Text)
  rest : Text
  deriving DecidableEq

/-- The keyword at the start of a text, and what follows it: no word may go on after a keyword. -/
def takeKeyword (t : Text) : Option (Kind × Text) :=
  Kind.declared.findSome? fun k =>
    (Text.after? k.keyword t).bind fun rest =>
      if Text.startsWith isWordChar rest then none else some (k, rest)

/-- The text after a leading `extend`, if white space separates the two. -/
def dropExtend? (t : Text) : Option Text :=
  (Text.after? "extend".toList t).bind fun rest =>
    if Text.startsWith isBlank rest then some (Text.trimStart rest) else none

/-- Whether a header extends a declaration, its kind, and what follows the keyword. -/
def takeKind (t : Text) : Option (Bool × Kind × Text) :=
  let t := t.trimStart
  match (dropExtend? t).bind takeKeyword with
  | some (k, rest) => some (true, k, rest)
  | none => (takeKeyword t).map fun (k, rest) => (false, k, rest)

/-- Read the start of a header; a text that does not start with a keyword and a name is none. -/
def Header.read (t : Text) : Except SchemaError (Option Header) :=
  match takeKind t with
  | none => return none
  | some (isExtend, kind, rest) =>
      if kind == .schema then return some ⟨kind, isExtend, "schema".toList, none, rest⟩
      else do
        match ← DeclaredName.read rest with
        | none => return none
        | some n => return some ⟨kind, isExtend, n.name, n.parameters, n.rest⟩

end Schemata
