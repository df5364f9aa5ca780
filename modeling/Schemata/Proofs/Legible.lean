import Schemata.Proofs.Nesting
import Schemata.Render

/-!
# Legible declarations

A declaration is written as text whatever its parts are, but not every text can be read back: a type
with a bracket too many, a value with a comma in it or a name that is a keyword make something else
of the line they stand in.  A *legible* declaration has none of these: its types, values,
directives, comments and descriptions are what the schema language calls so.
-/

namespace Schemata

/-! ### The texts in a declaration -/

/-- The characters of a type outside of brackets. -/
def isTypeChar (c : Char) : Bool :=
  isNameChar c || c == '[' || c == '!'

/-- The characters of a value outside of brackets and literals. -/
def isValueChar (c : Char) : Bool :=
  !isBlank c && !(c == ',' || c == ':' || c == '@' || c == '=' || c == '<')

/-- A directive as it is written: its name, and its arguments in parentheses. -/
structure DirectiveUse where
  name : Text
  arguments : Option Text := none

def DirectiveUse.text (u : DirectiveUse) : Text :=
  match u.arguments with
  | none => '@' :: u.name
  | some t => '@' :: (u.name ++ '(' :: (t ++ [')']))

/-- The name is one, and the arguments leave no bracket open and no white space to be collapsed. -/
structure DirectiveUse.Legible (u : DirectiveUse) : Prop where
  name : u.name.isName = true
  nested : ∀ t ∈ u.arguments, Nested (fun _ => true) [] (lex false t)
  spaced : ∀ t ∈ u.arguments, Spaced true (lex false t ++ [.char ')'])

namespace Text

/-- A type without type arguments, such as `[Product!]!`. -/
structure IsType (t : Text) : Prop where
  /-- There is nothing in it but a name, brackets, bangs and spaces. -/
  chars : ∀ c ∈ t, isTypeChar c = true ∨ c = ']' ∨ c = ' '
  /-- Its brackets are nested, with no space outside of them. -/
  nested : Nested isTypeChar [] (lex false t)
  spaced : Spaced false (lex false t)
  decorated : ∃ d, Decorated.ofText t = .ok d

/-- A value, such as `"none"`, `10` or `[1, 2]`. -/
structure IsValue (t : Text) : Prop where
  /-- Its brackets are nested, with no white space and no punctuation outside of them. -/
  nested : Nested isValueChar [] (lex false t)
  spaced : Spaced false (lex false t)

/-- One or more directives with spaces between them. -/
def IsDirectives (t : Text) : Prop :=
  ∃ us : List DirectiveUse, us ≠ [] ∧ t = joinWith [' '] (us.map DirectiveUse.text) ∧
    ∀ u ∈ us, u.Legible

/-- A comment on a line of its own, or at the end of one. -/
structure IsComment (t : Text) : Prop where
  hash : t.startsWith (· == '#') = true
  trimmed : t.trim = t
  line : '\n' ∉ t

def IsComments (t : Text) : Prop :=
  ∃ cs : List Text, cs ≠ [] ∧ t = ofLines cs ∧ ∀ c ∈ cs, IsComment c

/-- A string literal, quotes included. -/
structure IsLiteral (t : Text) : Prop where
  quote : t.startsWith (· == '"') = true
  closed : takeLiteral t = some (t, [])

end Text

/-! ### Declarations -/

/-- The type of a use is one, and so are its directives. -/
structure TypeUse.Legible (u : TypeUse) : Prop where
  resolved : u.resolved.IsType
  directive : ∀ t ∈ u.directive, t.IsDirectives

/-- All parts of the argument are what they are called. -/
structure Argument.Legible (a : Argument) : Prop where
  name : a.name.isName = true
  type : a.type.Legible
  default : ∀ t ∈ a.default, t.IsValue

/-- All parts of the field are what they are called.  Only a field with a type has a default value,
and only one without has directives of its own; the values of an enum have no type. -/
structure Field.Legible (enum : Bool) (f : Field) : Prop where
  name : f.name.isName = true
  comments : f.comments = [] ∨ f.comments.IsComments
  description : ∀ t ∈ f.description, t.IsLiteral
  arguments : ∀ as ∈ f.arguments, ∀ a ∈ as, a.Legible
  type : ∀ u ∈ f.type, enum = false ∧ u.Legible
  default : ∀ t ∈ f.default, f.type ≠ none ∧ t.IsValue
  directive : ∀ t ∈ f.directive, f.type = none ∧ t.IsDirectives
  inlineComment : ∀ t ∈ f.inlineComment, t.IsComment

/-- The words that start a clause in a header. -/
def clauseWords : List Text :=
  ["inherits".toList, "implements".toList]

/-- All parts of the declaration are what they are called, and stand only where its kind allows.  A
header is one line, and no line of comments is hidden at the end of a description. -/
structure Declaration.Legible (d : Declaration) : Prop where
  kind : d.kind ∈ Kind.declared
  /-- The name is a name, and that of a root schema says so. -/
  name : d.name.isName = true ∧ (d.kind = .schema → d.name = "schema".toList)
  description : ∀ t ∈ d.description, t.IsLiteral ∧
    ∀ line ∈ t.lines.getLast?, line.trim.startsWith (· == '#') = false
  comments : ∀ t ∈ d.comments, t.IsComments
  implements : ∀ ns ∈ d.implements, d.kind.isBlock = true ∧
    ∀ n ∈ ns, n.isName = true ∧ n ∉ clauseWords
  directive : ∀ t ∈ d.directive, t.IsDirectives ∧ '\n' ∉ t
  members : ∀ us ∈ d.members, d.kind = .union ∧
    ∀ u ∈ us, u.Legible ∧ ∀ t ∈ u.directive, '\n' ∉ t
  fields : ∀ f ∈ d.fields, d.kind.isBlock = true ∧ f.Legible (d.kind == .enum)
  closingComments : ∀ t ∈ d.closingComments, d.kind.isBlock = true ∧ t.IsComments

namespace Declaration.Legible

variable {d : Declaration}

theorem mem_implements (h : d.Legible) {n : Text} (hn : n ∈ d.implements.getD []) :
    n.isName ∧ n ∉ clauseWords := by
  cases hi : d.implements with
  | none => rw [hi] at hn; cases hn
  | some ns =>
    rw [hi] at hn
    exact (h.implements ns hi).2 n hn

theorem mem_members (h : d.Legible) {u : TypeUse} (hu : u ∈ d.members.getD []) :
    u.Legible ∧ ∀ t ∈ u.directive, '\n' ∉ t := by
  cases hm : d.members with
  | none => rw [hm] at hu; cases hu
  | some us =>
    rw [hm] at hu
    exact (h.members us hm).2 u hu

theorem of_not_isBlock (h : d.Legible) (hk : d.kind.isBlock = false) :
    d.implements = none ∧ d.fields = [] ∧ d.closingComments = none := by
  refine ⟨?_, ?_, ?_⟩
  · rw [Option.eq_none_iff_forall_ne_some]
    intro ns hi
    have := (h.implements ns hi).1
    rw [hk] at this
    cases this
  · rw [List.eq_nil_iff_forall_not_mem]
    intro f hf
    have := (h.fields f hf).1
    rw [hk] at this
    cases this
  · rw [Option.eq_none_iff_forall_ne_some]
    intro t hc
    have := (h.closingComments t hc).1
    rw [hk] at this
    cases this

theorem members_eq_none (h : d.Legible) (hk : d.kind ≠ .union) : d.members = none := by
  rw [Option.eq_none_iff_forall_ne_some]
  intro us hm
  exact hk (h.members us hm).1

end Declaration.Legible

/-! ### What is left in writing

Written down, a generic use is the name of its instance, a list of no interfaces or no members is
left out, and what a declaration inherits from, its metadata and its type parameters are gone. -/

/-- A use as it is read back: of a type without type arguments. -/
def TypeUse.plain (u : TypeUse) : TypeUse :=
  { origin := u.resolved, isGeneric := false, resolved := u.resolved, directive := u.directive }

def Argument.plain (a : Argument) : Argument :=
  { a with type := a.type.plain }

def Field.plain (f : Field) : Field :=
  { f with
    arguments := f.arguments.map (List.map Argument.plain)
    type := f.type.map TypeUse.plain
    metadata := none }

def Declaration.plain (d : Declaration) : Declaration :=
  { kind := d.kind
    name := d.name
    isExtend := d.isExtend
    directive := d.directive
    fields := d.fields.map Field.plain
    implements := d.implements.filter (!·.isEmpty)
    comments := d.comments
    description := d.description
    members := (d.members.filter (!·.isEmpty)).map (List.map TypeUse.plain)
    closingComments := d.closingComments }

end Schemata
