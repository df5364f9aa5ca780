import Schemata.Kind
import Schemata.Text.Printable

/-!
# Errors

A schema that cannot be read or resolved is refused with a `SchemaError`, which names the cause and
carries what a reader needs to find the place: the kind and name of the declaration concerned, and
the text at fault.  The wider `Failure` adds the ways in which the set-up around a schema (alias
templates, settings, files) can be at fault.

## Main definitions

* `SchemaError.message` — the wording of each cause.
* `SchemaError.category`, `SchemaError.kind?`, `SchemaError.name?`, `SchemaError.reference?` — what
  an error is about.
-/

namespace Schemata

/-- The family a schema error belongs to. -/
inductive ErrorCategory where
  | malformed
  | missingAncestor
  | invalidInheritance
  | cyclicInheritance
  | missingInterface
  | notAnInterface
  | cyclicInterface
  | missingTemplate
  | notGeneric
  /-- The number of type arguments is not the number of type parameters. -/
  | arity
  | parameterMismatch
  | cyclicGeneric
  | invalidAlias
  deriving DecidableEq

/-- Why a schema is refused. -/
inductive SchemaError where
  | unclosedString (excerpt : Text)
  | unclosedBlockString (excerpt : Text)
  | unbalancedArguments (expression : Text)
  | textAfterType (rest expression : Text)
  | substitutionArity (parameters arguments : List Text) (expression : Text)
  | unexpectedText (excerpt : Text)
  | danglingExtend (excerpt : Text)
  | missingBlock (kind : Kind) (header : Text)
  | missingBrace (kind : Kind) (header : Text)
  | unnamedScalar (excerpt : Text)
  | unbalancedParameters (header base : Text)
  | unnamedDeclaration (kind : Kind) (header : Text)
  | duplicateParameter (kind : Kind) (name : Text)
  | unexpectedClause (text : Text) (kind : Kind) (name : Text)
  | invalidField (field : Text) (kind : Kind) (name : Text)
  | unclosedArguments (field : Text) (kind : Kind) (name : Text)
  /-- Something that is neither a type nor a directive follows the name of a field. -/
  | unexpectedAfterField (rest fieldName field : Text) (kind : Kind) (name : Text)
  | invalidArgument (argument : Text) (kind : Kind) (name : Text)
  | appliedParameter (parameter expression : Text)
  | emptyArgument (base core : Text)
  | unknownAlias (key base : Text)
  | unfitTemplate (template : Text) (arguments : List Text)
  | invalidAlias (shown core : Text)
  | notAnInterface (name : Text) (found : Kind) (owner : Option (Kind × Text))
  | missingInterface (name : Text) (owner : Option (Kind × Text))
  /-- An interface implements itself through the interfaces on the path. -/
  | cyclicInterface (path : List Text) (name : Text)
  /-- A declaration inherits from itself through the declarations on the path. -/
  | cyclicInheritance (path : List Text) (kind : Kind) (name : Text)
  | missingAncestor (kind : Kind) (name ancestor : Text)
  /-- An inherited declaration is of a kind that may not be inherited from. -/
  | forbiddenAncestor (kind : Kind) (name : Text) (found : Kind) (ancestor : Text)
  | templateAncestor (kind : Kind) (name template ancestor : Text)
  /-- Instances nest deeper than the limit; the path starts with the outermost alias. -/
  | nestedTooDeep (limit : Int) (outermost : Text) (path : List Text) (core : Text)
  | templateArity (template : Text) (kind : Kind) (expected given : Nat) (core : Text)
  /-- A declaration without type parameters is given type arguments. -/
  | notGeneric (base : Text) (kind : Kind) (core : Text)
  | missingTemplate (base core : Text)
  deriving DecidableEq

namespace SchemaError

open Text

/-- The names on a path, as messages show it. -/
def arrows (path : List Text) : Text :=
  joinWith " -> ".toList path

/-- The names of a list, as messages show it. -/
def commas (names : List Text) : Text :=
  joinWith ", ".toList names

/-- The texts of a list between brackets, each between quotes. -/
def quotedList (ts : List Text) : Text :=
  "[".toList ++ commas (ts.map quoted) ++ "]".toList

def description : SchemaError → Text
  | unclosedString e => "Unterminated string starting with ".toList ++ quoted e
  | unclosedBlockString e => "Unterminated block string starting with ".toList ++ quoted e
  | unbalancedArguments e => "Unbalanced generic arguments in ".toList ++ inQuotes e
  | textAfterType r e =>
      "Unexpected ".toList ++ inQuotes r ++ " after type in ".toList ++ inQuotes e
  | substitutionArity ps as _ =>
      "Mismatch between type parameters (".toList ++ commas ps ++ ") and arguments (".toList
        ++ commas as ++ ")".toList
  | unexpectedText e => "Unexpected text near ".toList ++ quoted e
  | danglingExtend e => "Dangling 'extend' near ".toList ++ quoted e
  | missingBlock _ h => "Missing block in ".toList ++ inQuotes h
  | missingBrace _ h => "Missing closing brace for ".toList ++ inQuotes h
  | unnamedScalar e => "scalar with missing name near ".toList ++ quoted e
  | unbalancedParameters h _ => "Unbalanced generic parameters in ".toList ++ inQuotes h
  | unnamedDeclaration k h => k.keyword ++ " with missing name in ".toList ++ inQuotes h
  | duplicateParameter _ n => "Duplicate type parameter in ".toList ++ inQuotes n
  | unexpectedClause t k n =>
      "Unexpected ".toList ++ inQuotes t ++ " in ".toList ++ k.keyword ++ " ".toList ++ n
  | invalidField f k n =>
      "Invalid property ".toList ++ inQuotes f ++ " in ".toList ++ k.keyword ++ " ".toList ++ n
  | unclosedArguments f _ _ => "Unclosed parameter list in ".toList ++ inQuotes f
  | unexpectedAfterField r f _ _ n =>
      "Unexpected ".toList ++ inQuotes r ++ " after ".toList ++ inQuotes f ++ " in ".toList ++ n
  | invalidArgument a _ n => "Invalid parameter ".toList ++ inQuotes a ++ " in ".toList ++ n
  | appliedParameter p e =>
      "Type parameter ".toList ++ inQuotes p ++ " cannot take type arguments in ".toList
        ++ inQuotes e
  | emptyArgument _ c => "Empty type argument in ".toList ++ inQuotes c
  | unknownAlias k b =>
      "No alias registered under ".toList ++ inQuotes k ++ " for generic template ".toList
        ++ inQuotes b
  | unfitTemplate t as =>
      "Alias format ".toList ++ inQuotes t ++ " does not fit arguments ".toList ++ quotedList as
  | invalidAlias s c =>
      "Alias ".toList ++ s ++ " generated for ".toList ++ inQuotes c
        ++ " is not a valid type name".toList
  | notAnInterface n k _ => inQuotes n ++ " is a ".toList ++ k.keyword ++
      ", not an interface".toList
  | missingInterface n _ => "Interface ".toList ++ inQuotes n ++ " does not exist".toList
  | cyclicInterface p _ => "Cyclic implements: ".toList ++ arrows p
  | cyclicInheritance p _ _ => "Cyclic inheritance: ".toList ++ arrows p
  | missingAncestor k n a =>
      k.keyword ++ " ".toList ++ n ++ " inherits from unknown ".toList ++ inQuotes a
  | forbiddenAncestor k n f a =>
      k.keyword ++ " ".toList ++ n ++ " cannot inherit from ".toList ++ f.keyword ++ " ".toList ++ a
  | templateAncestor k n t _ =>
      k.keyword ++ " ".toList ++ n ++ " cannot inherit from generic template ".toList ++ t
  | nestedTooDeep l _ p _ =>
      "Generic nesting exceeds depth ".toList ++ ofInt l ++ ": ".toList ++ arrows p
  | templateArity t _ e g c =>
      t ++ " takes ".toList ++ ofInt e ++ " type argument(s), got ".toList ++ ofInt g
        ++ " in ".toList ++ inQuotes c
  | notGeneric b _ c => inQuotes b ++ " is not generic but is used as ".toList ++ inQuotes c
  | missingTemplate b c => "No generic template ".toList ++ inQuotes b ++ " for ".toList ++
      inQuotes c

def message (e : SchemaError) : Text :=
  "Schema error: ".toList ++ e.description

def category : SchemaError → ErrorCategory
  | substitutionArity .. | emptyArgument .. | templateArity .. => .arity
  | appliedParameter .. => .parameterMismatch
  | unknownAlias .. | unfitTemplate .. | invalidAlias .. => .invalidAlias
  | notAnInterface .. => .notAnInterface
  | missingInterface .. => .missingInterface
  | cyclicInterface .. => .cyclicInterface
  | cyclicInheritance .. => .cyclicInheritance
  | missingAncestor .. => .missingAncestor
  | forbiddenAncestor .. | templateAncestor .. => .invalidInheritance
  | nestedTooDeep .. => .cyclicGeneric
  | notGeneric .. => .notGeneric
  | missingTemplate .. => .missingTemplate
  | _ => .malformed

/-- The kind of the declaration an error is about. -/
def kind? : SchemaError → Option Kind
  | missingBlock k _ | missingBrace k _ | unnamedDeclaration k _ => some k
  | unnamedScalar _ => some .scalar
  | duplicateParameter k _ | unexpectedClause _ k _ | invalidField _ k _ => some k
  | unclosedArguments _ k _ | unexpectedAfterField _ _ _ k _ | invalidArgument _ k _ => some k
  | notAnInterface _ _ o | missingInterface _ o => o.map Prod.fst
  | cyclicInterface _ _ => some .interface
  | cyclicInheritance _ k _ | missingAncestor k _ _ => some k
  | forbiddenAncestor k _ _ _ | templateAncestor k _ _ _ => some k
  | templateArity _ k _ _ _ | notGeneric _ k _ => some k
  | _ => none

/-- The name of the declaration an error is about. -/
def name? : SchemaError → Option Text
  | unbalancedParameters _ n | duplicateParameter _ n | unexpectedClause _ _ n => some n
  | invalidField _ _ n | unclosedArguments _ _ n | unexpectedAfterField _ _ _ _ n => some n
  | invalidArgument _ _ n => some n
  | emptyArgument b _ | unknownAlias _ b => some b
  | notAnInterface _ _ o | missingInterface _ o => o.map Prod.snd
  | cyclicInterface _ n | cyclicInheritance _ _ n => some n
  | missingAncestor _ n _ | forbiddenAncestor _ n _ _ | templateAncestor _ n _ _ => some n
  | nestedTooDeep _ n _ _ => some n
  | templateArity t _ _ _ _ => some t
  | notGeneric b _ _ | missingTemplate b _ => some b
  | _ => none

def reference? : SchemaError → Option Text
  | unbalancedArguments e | textAfterType _ e | substitutionArity _ _ e => some e
  | missingBlock _ h | missingBrace _ h | unnamedDeclaration _ h => some h
  | invalidField f _ _ | unclosedArguments f _ _ | unexpectedAfterField _ _ f _ _ => some f
  | invalidArgument a _ _ => some a
  | appliedParameter _ e => some e
  | emptyArgument _ c => some c
  | unknownAlias k _ => some k
  | unfitTemplate t _ => some t
  | invalidAlias _ c => some c
  | notAnInterface n _ _ | missingInterface n _ => some n
  | cyclicInterface p _ | cyclicInheritance p _ _ => some (arrows p)
  | missingAncestor _ _ a | forbiddenAncestor _ _ _ a | templateAncestor _ _ _ a => some a
  | nestedTooDeep _ _ _ c => some c
  | templateArity _ _ _ _ c | notGeneric _ _ c | missingTemplate _ c => some c
  | _ => none

end SchemaError

/-- Everything that can stop a run. -/
inductive Failure where
  | schema (error : SchemaError)
  | malformedTemplate
  /-- An alias template picks an item by something that gives none. -/
  | templateIndex
  | templatePart
  /-- An alias template fits something into a field that can only be written. -/
  | templateFit
  | templateNotText
  | beforeText
  | noDepth
  | notAMapping
  | notANumber
  /-- A value that cannot denote a number stands where one is expected. -/
  | noNumber
  | undecodable
  | unreadable
  | unnameable
  deriving DecidableEq

/-! ### Computations that may fail -/

/-- A chain of computations succeeds if all its parts do. -/
theorem bind_eq_ok {ε α β : Type} {x : Except ε α} {f : α → Except ε β} {b : β} :
    x >>= f = .ok b ↔ ∃ a, x = .ok a ∧ f a = .ok b := by
  cases x with
  | error e => simp [bind, Except.bind]
  | ok a => simp [bind, Except.bind]

theorem map_eq_ok {ε α β : Type} {f : α → β} {x : Except ε α} {b : β}
    (h : f <$> x = .ok b) : ∃ a, x = .ok a ∧ f a = b := by
  cases x with
  | error e => simp [Functor.map, Except.map] at h
  | ok a => exact ⟨a, rfl, by simpa [Functor.map, Except.map] using h⟩

theorem ok_unique {ε α : Type} {x : Except ε α} {a b : α} (h : x = .ok a) (h' : x = .ok b) :
    a = b :=
  Except.ok.inj (h.symm.trans h')

end Schemata
