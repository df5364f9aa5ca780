import Schemata.Alias.Template
import Schemata.Text.Word

/-!
# Aliases

The instance of a template gets a name of its own, its *alias*.  By default it is the base name of
the template followed by the names of the type arguments; a rule may form it in another way, and a
template may ask for the rule registered under a key.
-/

namespace Schemata

/-- A way to form an alias from the names of type arguments, and from nothing else: that the same
arguments always give the same alias is part of the type.  Whatever a rule gives is checked
afterwards, so it may be any value. -/
abbrev AliasRule := List Text → Except Failure Value

/-- The alias of an application by default: `PagedProduct` for `Paged<Product>`. -/
def defaultAlias (base : Text) (arguments : List Text) : Text :=
  base ++ arguments.flatten

/-- The rule that a template denotes; what is no text can be registered, but not used. -/
def AliasRule.ofTemplate (template : Value) : AliasRule := fun arguments =>
  match template with
  | .text t => Value.text <$> Template.expand t arguments
  | _ => .error .templateNotText

/-- Whether a text is a type name; one line break after it is let pass. -/
def isAliasName (t : Text) : Bool :=
  t.isName || (t.getLast? == some '\n' && Text.isName t.dropLast)

/-- The alias that a rule formed for a core, if it is a type name. -/
def checkAlias (formed : Value) (core : Text) : Except SchemaError Text :=
  match formed with
  | .text t => if isAliasName t then .ok t else .error (.invalidAlias t.quoted core)
  | v => .error (.invalidAlias v.shown core)

/-- The rules of a run. -/
structure Naming where
  general : Option AliasRule := none
  named : Table Text AliasRule := {}
  /-- The keys that templates ask for, by base name. -/
  chosen : Table Text Text := {}

/-- Register a rule under a key, or take back what is registered there. -/
def Naming.register (n : Naming) (key : Text) (rule : Option AliasRule) : Naming :=
  match rule with
  | some r => { n with named := n.named.insert key r }
  | none => { n with named := n.named.erase key }

/-- The rule for a template, none being the default. -/
def Naming.ruleFor (n : Naming) (base : Text) : Except SchemaError (Option AliasRule) :=
  match n.chosen.get? base with
  | none => .ok n.general
  | some key =>
      match n.named.get? key with
      | some rule => .ok (some rule)
      | none => .error (.unknownAlias key base)

/-- Form the alias of an application from the names of its type arguments. -/
def Naming.form (n : Naming) (base : Text) (arguments : List Text) : Except Failure Value :=
  match n.ruleFor base with
  | .error e => .error (.schema e)
  | .ok none => .ok (.text (defaultAlias base arguments))
  | .ok (some rule) => rule arguments

end Schemata
