import Schemata.Context
import Schemata.Path

/-!
# Implemented interfaces

A declaration that implements an interface implements every interface that this one implements.  The
*closure* of an interface is the interface itself followed by the closures of the interfaces it
implements, each name once.

## Main definitions

* `candidates`, `interfaceNamed?` — the declarations of a name.
* `closureFrom`, `closure` — the closure of an interface.
-/

namespace Schemata

/-- The declarations of a name that extend no other, in order. -/
def candidates (ds : List Declaration) (name : Text) : List Declaration :=
  ds.filter fun d => !d.isExtend && d.baseName == name

def interfaceNamed? (ds : List Declaration) (name : Text) : Option Declaration :=
  (candidates ds name).find? fun d => d.kind == .interface

/-- The names of a list in the order of their first occurrence, those in `seen` left out. -/
def uniqueFrom (seen : List Text) : List Text → List Text
  | [] => []
  | n :: ns => if n ∈ seen then uniqueFrom seen ns else n :: uniqueFrom (n :: seen) ns

/-- The names of a list, each once, in the order of their first occurrence. -/
def unique (ns : List Text) : List Text :=
  uniqueFrom [] ns

theorem mem_baseNames_of_interfaceNamed? {ds : List Declaration} {name : Text} {d : Declaration}
    (h : interfaceNamed? ds name = some d) : name ∈ ds.map Declaration.baseName := by
  have hm := List.mem_of_find?_eq_some h
  simp only [candidates, List.mem_filter, Bool.and_eq_true, beq_iff_eq] at hm
  exact List.mem_map.mpr ⟨d, hm.1, hm.2.2⟩

/-- Why a name that is no interface cannot be implemented. -/
def notInterface (ds : List Declaration) (name : Text) (owner : Option (Kind × Text)) :
    SchemaError :=
  match candidates ds name with
  | d :: _ => .notAnInterface name d.kind owner
  | [] => .missingInterface name owner

/-- The closure of an interface that `owner` names.  The path has the interfaces being closed, those
of the stack; it is an argument because the recursion ends by it. -/
def closureFrom (ds : List Declaration) (path : List Text) (owner : Option (Kind × Text))
    (name : Text) : Resolve (List Text) := do
  match (← get).closures.get? name with
  | some names => return names
  | none =>
      match _hi : interfaceNamed? ds name with
      | none => Resolve.refuse (notInterface ds name owner)
      | some i =>
          if _hp : name ∈ path then
            Resolve.refuse (.cyclicInterface (path.dropWhile (· != name) ++ [name]) name)
          else
            let found ← Resolve.during .closing [name] <| (i.implements.getD []).mapM
              (closureFrom ds (path ++ [name]) (some (i.kind, i.name)))
            let names := unique (name :: found.flatten)
            modify fun c => { c with closures := c.closures.insert name names }
            return names
termination_by unvisited (ds.map Declaration.baseName) path
decreasing_by exact unvisited_append_lt (mem_baseNames_of_interfaceNamed? _hi) _hp

def closure (ds : List Declaration) (owner : Option (Kind × Text)) (name : Text) :
    Resolve (List Text) := do
  closureFrom ds (← get).closing owner name

/-- What is pushed while the interfaces of a declaration are closed: an interface itself. -/
def ownPath (d : Declaration) : List Text :=
  if d.kind == .interface && !d.isExtend then [d.baseName] else []

/-- The interfaces that a declaration stands for if it implements `names`; none if there are
none. -/
def closeInterfaces (ds : List Declaration) (d : Declaration) (names : List Text) :
    Resolve (Option (List Text)) := do
  if names.isEmpty then return none
  else
    let found ← Resolve.during .closing (ownPath d) <|
      names.mapM (closure ds (some (d.kind, d.name)))
    Resolve.tell (.interfacesClosed d.name found.flatten)
    return some (unique found.flatten)

end Schemata
