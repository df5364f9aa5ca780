import Schemata.Text.Case

/-!
# Kinds of declarations

## Main definitions

* `Kind.keyword`, `Kind.ofKeyword?` — the word that declares a kind.
-/

namespace Schemata

/-- The kind of a declaration.  `property` is the kind of a field, which an annotation may target,
and `other` leaves room for kinds that no keyword declares. -/
inductive Kind where
  | type
  | input
  | enum
  | interface
  | abstract
  | scalar
  | union
  | schema
  | directive
  | property
  | other (label : Text)
  deriving DecidableEq

namespace Kind

/-- The label under which a kind is exported. -/
def label : Kind → Text
  | type => "TYPE".toList
  | input => "INPUT".toList
  | enum => "ENUM".toList
  | interface => "INTERFACE".toList
  | abstract => "ABSTRACT".toList
  | scalar => "SCALAR".toList
  | union => "UNION".toList
  | schema => "SCHEMA".toList
  | directive => "DIRECTIVE".toList
  | property => "PROPERTY".toList
  | other l => l

def declared : List Kind :=
  [type, input, enum, interface, abstract, scalar, union, schema]

def ofLabel (l : Text) : Kind :=
  ((declared ++ [directive, property]).find? fun k => k.label == l).getD (other l)

/-- The word for a kind in schemas and messages: its label in lower case. -/
def keyword : Kind → Text
  | type => "type".toList
  | input => "input".toList
  | enum => "enum".toList
  | interface => "interface".toList
  | abstract => "abstract".toList
  | scalar => "scalar".toList
  | union => "union".toList
  | schema => "schema".toList
  | directive => "directive".toList
  | property => "property".toList
  | other l => l.lower

def ofKeyword? (word : Text) : Option Kind :=
  declared.find? fun k => k.keyword == word

/-- Whether declarations of the kind have a body in braces. -/
def isBlock : Kind → Bool
  | type | input | enum | interface | abstract | schema => true
  | _ => false

/-- The order in which kinds are written; declarations of one kind keep their order. -/
def emission : List Kind :=
  [schema, interface, abstract, type, input, enum, scalar, union]

/-- A type may inherit from a type or an interface, every other kind only from its own kind. -/
def mayInheritFrom (child parent : Kind) : Bool :=
  match child with
  | type => parent == type || parent == interface
  | _ => child == parent

end Kind

end Schemata
