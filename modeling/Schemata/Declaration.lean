import Schemata.Kind

/-!
# Declarations

What a schema declares, as records: declarations with their fields, the arguments of the fields, and
the types that all of them use.
-/

namespace Schemata

/-- A type expression such as `[Paged<Product>]!` where a declaration uses it. -/
structure TypeUse where
  /-- The expression as written, without directives. -/
  origin : Text
  /-- Whether the core of the expression has type arguments. -/
  isGeneric : Bool
  resolved : Text
  /-- Whether the type arguments use type parameters of the declaration around, so that the use has
  to wait for an instance of it. -/
  isDeferred : Bool := false
  directive : Option Text := none
  /-- The type parameters of the declaration around. -/
  letters : Option (List Text) := none
  deriving DecidableEq

/-- An argument of a field, such as `first: Int = 10`. -/
structure Argument where
  name : Text
  type : TypeUse
  default : Option Text := none
  deriving DecidableEq

/-- Metadata written above a declaration or a field, and what it targets. -/
structure Annotation where
  name : Text
  /-- The text between the parentheses, if there are any. -/
  body : Option Text
  kind : Kind
  target : Text
  /-- The kind and name of the declaration around a field. -/
  parent : Option (Kind × Text) := none
  deriving DecidableEq

/-- A field, an input field or an enum value. -/
structure Field where
  name : Text
  comments : Text := []
  /-- The arguments, if there are parentheses after the name. -/
  arguments : Option (List Argument) := none
  /-- The type of the field; an enum value has none. -/
  type : Option TypeUse := none
  default : Option Text := none
  directive : Option Text := none
  /-- The description above the field, quotes included. -/
  description : Option Text := none
  metadata : Option Annotation := none
  inlineComment : Option Text := none
  deriving DecidableEq

/-- A declaration of a schema. -/
structure Declaration where
  kind : Kind
  /-- The name, with the type parameters of a template, such as `Paged<T>`. -/
  name : Text
  /-- Whether the declaration extends one that is made elsewhere. -/
  isExtend : Bool := false
  parameters : Option (List Text) := none
  directive : Option Text := none
  fields : List Field := []
  inherits : Option (List Text) := none
  implements : Option (List Text) := none
  comments : Option Text := none
  /-- The description above the declaration, quotes included. -/
  description : Option Text := none
  metadata : Option Annotation := none
  members : Option (List TypeUse) := none
  closingComments : Option Text := none
  raw : Option Text := none
  /-- The fields before those of the ancestors were put in front. -/
  ownFields : Option (List Field) := none
  deriving DecidableEq

namespace Declaration

/-- What identifies a declaration. -/
structure Key where
  kind : Kind
  name : Text
  parameters : List Text
  deriving DecidableEq

def key (d : Declaration) : Key :=
  ⟨d.kind, d.name, d.parameters.getD []⟩

def baseName (d : Declaration) : Text :=
  Text.trim (d.name.takeWhile (· != '<'))

/-- Whether the declaration is a template, that is, has type parameters. -/
def isTemplate (d : Declaration) : Bool :=
  !(d.parameters.getD []).isEmpty

end Declaration

end Schemata
