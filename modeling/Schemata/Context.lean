import Schemata.Alias.Basic
import Schemata.Log
import Schemata.Render

/-!
# The context of a run

Resolving a schema remembers what has been found out: the aliases of generic uses, the uses that
wait for an instance, the declarations resolved, the interfaces closed and the instances built.  All
of it belongs to one run and survives a failure, so that a run may be asked again.
-/

namespace Schemata

/-- A declaration built from a template, such as `PagedProduct` from `Paged<T>` and `Product`. -/
structure Instance where
  name : Text
  declaration : Declaration
  text : Text
  deriving DecidableEq

/-- What a run remembers, with three stacks that name what it is in the middle of. -/
structure Context where
  aliasNames : Table Text Text := {}
  pending : Table Text TypeUse := {}
  resolved : Table Declaration.Key Declaration := {}
  resolving : List Declaration.Key := []
  /-- The interfaces that each interface stands for. -/
  closures : Table Text (List Text) := {}
  closing : List Text := []
  instances : Table Text Instance := {}
  building : List Text := []
  log : Log := []

/-- The stacks of a context, by what is on them. -/
inductive Stack : Type → Type where
  | resolving : Stack Declaration.Key
  | closing : Stack Text
  | building : Stack Text

namespace Stack

variable {κ : Type}

def read : Stack κ → Context → List κ
  | .resolving, c => c.resolving
  | .closing, c => c.closing
  | .building, c => c.building

def write : Stack κ → List κ → Context → Context
  | .resolving, keys, c => { c with resolving := keys }
  | .closing, names, c => { c with closing := names }
  | .building, names, c => { c with building := names }

def push (s : Stack κ) (entries : List κ) (c : Context) : Context :=
  s.write (s.read c ++ entries) c

/-- The context without the last `n` entries of a stack. -/
def pop (s : Stack κ) (n : Nat) (c : Context) : Context :=
  s.write ((s.read c).take ((s.read c).length - n)) c

end Stack

/-- A computation in a context; what it has written stays if it fails. -/
abbrev Resolve := ExceptT Failure (StateM Context)

namespace Resolve

def tell (e : Event) : Resolve Unit :=
  modify fun c => { c with log := c.log ++ [e] }

def refuse {α : Type} (e : SchemaError) : Resolve α :=
  throw (.schema e)

def ofOutcome {α : Type} : Except Failure α → Resolve α
  | .ok a => return a
  | .error e => throw e

/-- A computation that needs no context and can only refuse the schema. -/
def ofExcept {α : Type} : Except SchemaError α → Resolve α
  | .ok a => return a
  | .error e => refuse e

/-- A computation of which only the events reach the context. -/
def ofReport {α : Type} (r : Report α) : Resolve α := do
  modify fun c => { c with log := c.log ++ r.log }
  match r.outcome with
  | .ok a => return a
  | .error e => throw e

/-- A computation with entries pushed on a stack, which are popped whether it succeeds or fails. -/
def during {κ α : Type} (s : Stack κ) (entries : List κ) (x : Resolve α) : Resolve α := do
  modify (s.push entries)
  try x finally modify (s.pop entries.length)

/-- The outcome of a computation, and the context after it. -/
def outcome {α : Type} (x : Resolve α) (c : Context) : Except Failure α × Context :=
  StateT.run (ExceptT.run x) c

end Resolve

end Schemata
