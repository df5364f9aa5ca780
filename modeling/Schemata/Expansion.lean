import Schemata.Annotation.Extract
import Schemata.CommentBlock
import Schemata.Declaration.Export
import Schemata.Declaration.Parse
import Schemata.Fragment.Scan
import Schemata.Inheritance
import Schemata.Instance

/-!
# Expanding schemas

A schema with templates, inheritance and annotations is expanded into a plain one: annotations are
taken out, declarations are read and resolved, and every generic use gets its instance.

## Main definitions

* `Expander.read` — the declarations of a schema as they are written.
* `Expander.expand`, `Expander.declarations` — the plain schema as text, and as declarations.
-/

namespace Schemata

/-! ### What annotations and definitions of directives add -/

/-- The declarations of the directives whose definitions were extracted. -/
def directiveDeclarations (annotations : List Annotation) : List Declaration :=
  (annotations.filter fun a => a.name == definitionMark).map fun a =>
    { kind := .directive, name := a.target, raw := a.body }

def unquoted (t : Text) : Text :=
  let isQuote := fun c => c == '\x22' || c == '\x27'
  Text.dropEndWhile isQuote (t.dropWhile isQuote)

/-- The key that an annotation `@alias(key)` chooses, and the base name of the template it stands
above. -/
def chosenAlias (a : Annotation) : Except SchemaError (Option (Text × Text)) := do
  let body := a.body.getD []
  if a.name == "alias".toList && !body.isEmpty then
    match ← DeclaredName.read a.target with
    | some ⟨name, some _, _⟩ =>
        return some (name.takeWhile (· != '<'), unquoted body.trim)
    | _ => return none
  else return none

/-- The keys that templates choose by annotations; the last choice counts. -/
def chosenAliases (annotations : List Annotation) : Except SchemaError (Table Text Text) := do
  let choices ← annotations.mapM chosenAlias
  return (choices.filterMap id).foldl (fun t (base, key) => t.insert base key) Table.empty

/-! ### The text of a schema -/

/-- Declarations grouped by kind in the order of emission, kinds outside that order last. -/
def emissionOrder (ds : List Declaration) : List Declaration :=
  Kind.emission.flatMap (fun k => ds.filter fun d => d.kind == k) ++
    ds.filter fun d => !Kind.emission.contains d.kind

/-- The declarations that are written: neither templates nor abstract, and no directives. -/
def emitted (ds : List Declaration) : List Declaration :=
  emissionOrder (ds.filter fun d => !d.isTemplate && d.kind != .abstract && d.kind != .directive)

def definitions (ds : List Declaration) : List Text :=
  (ds.filter fun d => d.kind == .directive).flatMap fun d => given d.raw

/-- The blocks of a schema: definitions of directives, declarations, instances. -/
def blocks (layout : Layout) (ds : List Declaration) (instances : List Instance) : List Text :=
  definitions ds ++ (emitted ds).map (Declaration.render layout) ++ instances.map Instance.text

/-- A schema as text: its blocks with a blank line between each two. -/
def schemaText (layout : Layout) (ds : List Declaration) (instances : List Instance) : Text :=
  match blocks layout ds instances with
  | [] => []
  | bs => Text.joinWith "\n\n".toList bs ++ ['\n']

/-- All declarations of a schema, those of its instances last. -/
def allDeclarations (ds : List Declaration) (instances : List Instance) : List Declaration :=
  ds ++ instances.map Instance.declaration

/-! ### The stages together -/

/-- What is read from a schema. -/
structure Reading where
  /-- How instances are named, with the choices of the templates. -/
  naming : Naming
  /-- The annotations, and the definitions of directives among them. -/
  annotations : List Annotation
  declarations : List Declaration

/-- How schemas are expanded. -/
structure Expander where
  /-- The rule for the aliases of all templates that choose none. -/
  general : Option AliasRule := none
  named : Table Text AliasRule := {}
  layout : Layout := {}
  limit : Int := 64

namespace Expander

/-- Take a rule for the aliases of all templates, or go back to the default. -/
def setGeneral (e : Expander) (rule : Option AliasRule) : Expander :=
  { e with general := rule }

/-- The rules of a run, with the choices of its templates. -/
def naming (e : Expander) (chosen : Table Text Text) : Naming :=
  { general := e.general, named := e.named, chosen }

/-- Register a rule that templates can choose, or take back what is registered. -/
def register (e : Expander) (key : Text) (rule : Option AliasRule) : Expander :=
  { e with named := ((e.naming {}).register key rule).named }

/-- The workshop for the instances of a schema. -/
def workshop (e : Expander) (naming : Naming) (ds : List Declaration) : Workshop :=
  { declarations := ds, naming, limit := e.limit, layout := e.layout }

def read (e : Expander) (t : Text) : Resolve Reading := do
  let extraction ← Resolve.ofReport (extract t)
  let naming := e.naming (← Resolve.ofExcept (chosenAliases extraction.annotations))
  let fragments ← Resolve.ofReport (readFragments extraction.plain)
  let parsed ← parseFragments naming extraction.annotations fragments
  let comments ← Resolve.ofReport (locateComments extraction.plain)
  return ⟨naming, extraction.annotations, attachComments comments parsed⟩

/-- The resolved declarations of a schema and its instances. -/
def run (e : Expander) (t : Text) : Resolve (List Declaration × List Instance) := do
  let reading ← e.read t
  let resolved ← resolveAll reading.declarations
  let resolved := resolved ++ directiveDeclarations reading.annotations
  let instances ← (e.workshop reading.naming resolved).buildPending
  Resolve.tell (.schemaExpanded resolved.length instances.length)
  return (resolved, instances)

def declarations (e : Expander) (t : Text) : Resolve (List Declaration) := do
  let (ds, instances) ← e.run t
  return allDeclarations ds instances

def expand (e : Expander) (t : Text) : Resolve Text := do
  let (ds, instances) ← e.run t
  Resolve.tell (.schemaRendered (emitted ds).length instances.length)
  return schemaText e.layout ds instances

end Expander

end Schemata
