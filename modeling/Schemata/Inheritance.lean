import Schemata.Interface

/-!
# Inheritance

A declaration gets the fields of the declarations it inherits from in front of its own, their
interfaces after its own, and the metadata of the last of them that has any if it has none itself.

## Main definitions

* `resolveFrom`, `resolve`, `resolveAll` — a declaration resolved, and all of them.
-/

namespace Schemata

/-- The declaration that `d` inherits from by a name: one of its own kind before any other that it
may inherit from. -/
def ancestor (ds : List Declaration) (d : Declaration) (name : Text) :
    Except SchemaError Declaration :=
  match candidates ds name with
  | [] => .error (.missingAncestor d.kind d.name name)
  | first :: rest =>
      let found := ((first :: rest).find? fun c => c.kind == d.kind).or
        ((first :: rest).find? fun c => d.kind.mayInheritFrom c.kind)
      match found with
      | none => .error (.forbiddenAncestor d.kind d.name first.kind name)
      | some a =>
          if a.isTemplate then .error (.templateAncestor d.kind d.name a.name name) else .ok a

theorem mem_candidates_of_ancestor {ds : List Declaration} {d a : Declaration} {name : Text}
    (h : ancestor ds d name = .ok a) : a ∈ candidates ds name := by
  unfold ancestor at h
  split at h
  · simp at h
  · rename_i first rest hc
    rw [hc]
    simp only at h
    split at h
    · simp at h
    · rename_i found hf
      split at h
      · simp at h
      · simp only [Except.ok.injEq] at h
        subst h
        rcases Option.or_eq_some_iff.mp hf with h1 | ⟨-, h2⟩
        · exact List.mem_of_find?_eq_some h1
        · exact List.mem_of_find?_eq_some h2

/-- A declaration put together with its resolved ancestors. -/
def flatten (ds : List Declaration) (d : Declaration) (ancestors : List Declaration) :
    Resolve Declaration := do
  let names := d.implements.getD [] ++ ancestors.flatMap fun a => a.implements.getD []
  let implements ← closeInterfaces ds d names
  return { d with
    fields := ancestors.flatMap Declaration.fields ++ d.fields
    ownFields := some d.fields
    implements
    metadata := d.metadata.or (ancestors.reverse.findSome? Declaration.metadata) }

/-- The identities of the declarations that can be inherited from. -/
def inheritable (ds : List Declaration) : List Declaration.Key :=
  (ds.filter fun d => !d.isExtend).map Declaration.key

/-- How far the resolution of a declaration can go on a path. -/
def inheritanceMeasure (ds : List Declaration) (path : List Declaration.Key) (d : Declaration) :
    Nat :=
  2 * unvisited (inheritable ds) path +
    if d.isExtend || d.key ∉ inheritable ds then 1 else 0

theorem inheritanceMeasure_candidate {ds : List Declaration} {a : Declaration} {name : Text}
    (h : a ∈ candidates ds name) (path : List Declaration.Key) :
    inheritanceMeasure ds path a = 2 * unvisited (inheritable ds) path := by
  simp only [candidates, List.mem_filter, Bool.and_eq_true, Bool.not_eq_true', beq_iff_eq] at h
  have hk : a.key ∈ inheritable ds :=
    List.mem_map.mpr ⟨a, List.mem_filter.mpr ⟨h.1, by simp [h.2.1]⟩, rfl⟩
  simp [inheritanceMeasure, h.2.1, hk]

theorem inheritanceMeasure_extend_lt {ds : List Declaration} {d a : Declaration} {name : Text}
    (hd : d.isExtend = true) (h : a ∈ candidates ds name) (path : List Declaration.Key) :
    inheritanceMeasure ds path a < inheritanceMeasure ds path d := by
  rw [inheritanceMeasure_candidate h]
  simp [inheritanceMeasure, hd]

theorem inheritanceMeasure_append_lt {ds : List Declaration} {d a : Declaration} {name : Text}
    {path : List Declaration.Key} (hp : d.key ∉ path) (h : a ∈ candidates ds name) :
    inheritanceMeasure ds (path ++ [d.key]) a < inheritanceMeasure ds path d := by
  rw [inheritanceMeasure_candidate h]
  by_cases hk : d.key ∈ inheritable ds
  · have := unvisited_append_lt hk hp
    simp only [inheritanceMeasure]
    omega
  · have := unvisited_append_le (inheritable ds) path [d.key]
    simp only [inheritanceMeasure, hk, not_false_eq_true, decide_true, Bool.or_true, if_true]
    omega

/-- The declarations that `d` inherits from, each resolved by `visit`. -/
def visitAncestors (ds : List Declaration) (d : Declaration)
    (visit : (a : Declaration) → (∃ name, ancestor ds d name = .ok a) → Resolve Declaration) :
    Resolve (List Declaration) :=
  (d.inherits.getD []).mapM fun name =>
    match ha : ancestor ds d name with
    | .error e => Resolve.refuse e
    | .ok a => visit a ⟨name, ha⟩

/-- A declaration resolved.  The path has the declarations being resolved, those of the stack.  What
extends a declaration is never inherited from, so it is neither remembered nor pushed. -/
def resolveFrom (ds : List Declaration) (path : List Declaration.Key) (d : Declaration) :
    Resolve Declaration := do
  if _he : d.isExtend then
    let ancestors ← visitAncestors ds d fun a _ha => resolveFrom ds path a
    flatten ds d ancestors
  else
    match (← get).resolved.get? d.key with
    | some r => return r
    | none =>
        if _hp : d.key ∈ path then
          let names := (path.dropWhile (· != d.key)).map Declaration.Key.name ++ [d.name]
          Resolve.refuse (.cyclicInheritance names d.kind d.name)
        else
          let ancestors ← Resolve.during .resolving [d.key] <|
            visitAncestors ds d fun a _ha => resolveFrom ds (path ++ [d.key]) a
          let r ← flatten ds d ancestors
          modify fun c => { c with resolved := c.resolved.insert d.key r }
          return r
termination_by inheritanceMeasure ds path d
decreasing_by
  · obtain ⟨name, ha⟩ := _ha
    exact inheritanceMeasure_extend_lt _he (mem_candidates_of_ancestor ha) path
  · obtain ⟨name, ha⟩ := _ha
    exact inheritanceMeasure_append_lt _hp (mem_candidates_of_ancestor ha)

def resolve (ds : List Declaration) (d : Declaration) : Resolve Declaration := do
  resolveFrom ds (← get).resolving d

def resolveAll (ds : List Declaration) : Resolve (List Declaration) := do
  let resolved ← ds.mapM (resolve ds)
  Resolve.tell (.declarationsResolved resolved.length)
  return resolved

end Schemata
