import Schemata.TypeUse
import Schemata.Interface

/-!
# Instances of templates

Every generic use that depends on no type parameter gets an instance of its template: the
declaration of the template with type arguments in the place of type parameters.  The uses in an
instance may need further instances.  One that is being built already is only referred to, so that
templates may use themselves; how deep instances nest is limited.

## Main definitions

* `Workshop.build` — the instance of a core.
-/

namespace Schemata

/-- What instances are built from. -/
structure Workshop where
  declarations : List Declaration
  naming : Naming := {}
  limit : Int := 64
  layout : Layout := {}

/-- The template that a base name stands for: the first declaration of the name with type
parameters. -/
def templateFor (ds : List Declaration) (base core : Text) : Except SchemaError Declaration :=
  match (candidates ds base).find? Declaration.isTemplate with
  | some t => .ok t
  | none =>
      match candidates ds base with
      | d :: _ => .error (.notGeneric base d.kind core)
      | [] => .error (.missingTemplate base core)

/-- A field with its uses of types replaced, those of its arguments first. -/
def Field.mapUses (visit : TypeUse → Resolve TypeUse) (f : Field) : Resolve Field := do
  let arguments ← f.arguments.mapM fun as => as.mapM fun a => do
    return { a with type := ← visit a.type }
  let type ← f.type.mapM visit
  return { f with arguments, type }

/-- The instance of a template under an alias, `visit` giving its uses of types. -/
def Declaration.specialize (template : Declaration) (name : Text)
    (visit : TypeUse → Resolve TypeUse) : Resolve Declaration := do
  let fields ← template.fields.mapM (Field.mapUses visit)
  let members ← template.members.mapM fun ms => ms.mapM visit
  return { template with
    name := name
    parameters := none
    inherits := none
    fields
    ownFields := some fields
    members }

namespace Workshop

/-- The core of a generic use that depends on no type parameter. -/
def concreteCore (u : TypeUse) : Except SchemaError (Option Text) :=
  if u.isGeneric && !u.isDeferred then some <$> coreOf u.origin else .ok none

/-- The use of a type in a template with type arguments in the place of type parameters. -/
def substituteUse (w : Workshop) (parameters arguments : List Text) (u : TypeUse) :
    Resolve TypeUse := do
  if mentions u.origin parameters then
    let expression ← Resolve.ofExcept (substitute u.origin parameters arguments)
    useType w.naming expression none u.directive
  else return u

/-- The canonical form of a core, its alias, and whether its instance is there or being built. -/
def lookUp (w : Workshop) (path : List Text) (core : Text) : Resolve (Text × Text × Bool) := do
  let core ← Resolve.ofExcept (normalize core)
  let name ← aliasName w.naming core
  return (core, name, (← get).instances.contains name || path.contains name)

def refuseDepth (w : Workshop) (path : List Text) (core name : Text) : Resolve Text :=
  match path with
  | [] => throw .noDepth
  | outermost :: _ => Resolve.refuse (.nestedTooDeep w.limit outermost (path ++ [name]) core)

/-- The template of a core with as many type parameters as the core has type arguments, and the
type arguments. -/
def templateOf (w : Workshop) (core : Text) : Except SchemaError (Declaration × List Text) := do
  let a ← Application.ofText core
  let template ← templateFor w.declarations a.base core
  let expected := (template.parameters.getD []).length
  if a.arguments.length == expected then return (template, a.arguments)
  else throw (.templateArity template.name template.kind expected a.arguments.length core)

def record (w : Workshop) (core name : Text) (d : Declaration) : Resolve Unit := do
  let i : Instance := ⟨name, d, d.render w.layout⟩
  modify fun c => { c with instances := c.instances.insert name i }
  Resolve.tell (.instanceBuilt core name)

/-- Put type arguments into a use of a type, and build the instance that it needs. -/
def visit (w : Workshop) (build : Text → Resolve Text) (parameters arguments : List Text)
    (u : TypeUse) : Resolve TypeUse := do
  let u ← w.substituteUse parameters arguments u
  match ← Resolve.ofExcept (concreteCore u) with
  | none => return u
  | some core =>
      let _ ← build core
      return u

/-- Build the instance of a core and those it needs, `room` more being allowed to nest.  The path
has the aliases being built, those of the stack; a watcher is told it whenever an alias is pushed.
The result is the alias of the core. -/
def buildWatched (w : Workshop) (watch : List Text → Resolve Unit) :
    Nat → List Text → Text → Resolve Text
  | 0, path, core => do
      let (core, name, known) ← w.lookUp path core
      if known then return name else w.refuseDepth path core name
  | room + 1, path, core => do
      let (core, name, known) ← w.lookUp path core
      if known then return name
      else
        let (template, arguments) ← Resolve.ofExcept (w.templateOf core)
        let d ← Resolve.during .building [name] do
          watch (path ++ [name])
          template.specialize name <|
            w.visit (w.buildWatched watch room (path ++ [name]))
              (template.parameters.getD []) arguments
        w.record core name d
        return name

/-- Build the instance of a core and those it needs, with nobody watching. -/
def buildFrom (w : Workshop) : Nat → List Text → Text → Resolve Text :=
  w.buildWatched fun _ => pure ()

def build (w : Workshop) (core : Text) : Resolve Text := do
  let path := (← get).building
  w.buildFrom (w.limit - path.length).toNat path core

/-- Build the instance of a use by `build`, if it is generic and depends on no type parameter. -/
def buildUseBy (build : Text → Resolve Text) (u : TypeUse) : Resolve (Option Text) := do
  match ← Resolve.ofExcept (concreteCore u) with
  | none => return none
  | some core => some <$> build core

def buildUse (w : Workshop) : TypeUse → Resolve (Option Text) :=
  buildUseBy w.build

/-- Build the instances of all generic uses that wait for one.  The uses that an instance adds are
built together with it, so that it is enough to go once through those that are there. -/
def buildPending (w : Workshop) : Resolve (List Instance) := do
  let _ ← (← get).pending.values.mapM w.buildUse
  let instances := (← get).instances.values
  Resolve.tell (.instancesBuilt instances.length)
  return instances

end Workshop

end Schemata
