import Schemata.Text.Number

/-!
# Subjects of a template

A field of an alias template refers to a name, and may go on to what the name is and what can be
done with it: `{0.__class__.__name__}` is the name of the category of texts.  What a field refers to
on its way is a *subject*.

Every subject belongs to a *category*, and categories provide *features*.  A feature that is reached
from a subject is bound to it; one that is reached from a category stands for itself.

## Main definitions

* `Subject.home` — the category of a subject.
-/

namespace Schemata

namespace Template

/-- The categories of subjects. -/
inductive Category where
  | thing
  | text
  | number
  | nothing
  | row
  | category
  /-- The features that a category itself provides, by name. -/
  | register
  | operation
  | action
  | operationRule
  | actionRule
  | sharedRule
  | propertyRule
  | fieldRule
  deriving DecidableEq

/-- The ways in which a category provides a feature. -/
inductive Form where
  | operation
  /-- Something that a sign or a built-in word asks a subject to do. -/
  | action
  /-- Something that the category of a subject can be asked to do. -/
  | shared
  | property
  | field
  /-- What makes new subjects; it belongs to the category that provides it. -/
  | maker
  | free
  | about
  | absent
  deriving DecidableEq

/-- Whether a feature gives a value of the subject itself and so goes before everything that a
category provides for others. -/
def Form.isValue : Form → Bool
  | property | field => true
  | _ => false

/-- A feature that a category provides. -/
structure Feature where
  name : String
  form : Form
  signature : Option String
  /-- The lines of its description; none if it has no description. -/
  description : List String
  deriving DecidableEq

namespace Feature

/-- A value worked out from a subject, without a description. -/
def property (name : String) : Feature := ⟨name, .property, none, []⟩

/-- A value kept with a subject, without a description. -/
def field (name : String) : Feature := ⟨name, .field, none, []⟩

/-- An operation that is called with nothing but the subject. -/
def method (name : String) (description : List String) : Feature :=
  ⟨name, .operation, some "($self, /)", description⟩

/-- An operation of which it is not said what it is called with. -/
def plain (name : String) (description : List String) : Feature :=
  ⟨name, .operation, none, description⟩

def unary (name description : String) : Feature :=
  ⟨name, .action, some "($self, /)", [description]⟩

/-- An action on a subject and a value that gives `result`. -/
def binary (name result : String) : Feature :=
  ⟨name, .action, some "($self, value, /)", ["Return " ++ result ++ "."]⟩

def comparisons : List Feature :=
  [binary "__lt__" "self<value", binary "__le__" "self<=value", binary "__eq__" "self==value",
    binary "__ne__" "self!=value", binary "__gt__" "self>value", binary "__ge__" "self>=value"]

def creation : Feature :=
  ⟨"__new__", .maker, some "($type, *args, **kwargs)",
    ["Create and return a new object.  See help(type) for accurate signature."]⟩

def display : Feature := unary "__repr__" "Return repr(self)."

/-- The action that looks up a feature of a subject. -/
def access : Feature :=
  ⟨"__getattribute__", .action, some "($self, name, /)", ["Return getattr(self, name)."]⟩

def about : Feature := ⟨"__doc__", .about, none, []⟩

end Feature

/-- The numbers kept with a category. -/
structure Measures where
  basic : Nat
  item : Nat
  flags : Nat
  referrers : Nat
  extras : Nat
  deriving DecidableEq

/-- What is known of a category. -/
structure Profile where
  label : String
  signature : Option String
  /-- The lines of its description; none if it has no description. -/
  description : List String
  measures : Measures
  /-- The features that it provides itself, in order. -/
  features : List Feature
  deriving DecidableEq

/-- What a field refers to. -/
inductive Subject where
  | text (t : Text)
  | number (n : Nat)
  | nothing
  | row (items : List Category)
  | category (c : Category)
  | register (c : Category)
  /-- A feature for itself, and the category that provides it. -/
  | rule (owner : Category) (feature : Feature)
  /-- A feature of a subject, and the category that provides it. -/
  | bound (self : Subject) (owner : Category) (feature : Feature)
  deriving DecidableEq

def Form.ruleCategory : Form → Category
  | operation | maker | free | about | absent => .operationRule
  | action => .actionRule
  | shared => .sharedRule
  | property => .propertyRule
  | field => .fieldRule

/-- The category of a feature that is bound to a subject. -/
def Form.boundCategory : Form → Category
  | action => .action
  | _ => .operation

def Subject.home : Subject → Category
  | text _ => .text
  | number _ => .number
  | nothing => .nothing
  | row _ => .row
  | category _ => .category
  | register _ => .register
  | rule _ f => f.form.ruleCategory
  | bound _ _ f => f.form.boundCategory

end Template

end Schemata
