import Schemata.Context
import Schemata.TypeExpr.Angles

/-!
# Uses of types

A type expression inside a declaration becomes a `TypeUse`.  A generic use gets the alias of its
core and waits for an instance, unless its type arguments depend on the type parameters of the
declaration around it: then it waits for an instance of that declaration.
-/

namespace Schemata

/-- The alias of a generic core.  A type argument contributes its core, or the alias of its core if
that is generic too. -/
def aliasName (naming : Naming) (core : Text) : Resolve Text :=
  match _hn : normalize core with
  | .error e => Resolve.refuse e
  | .ok normal => do
      match (← get).aliasNames.get? normal with
      | some name => return name
      | none =>
          match _ha : Application.ofText normal with
          | .error e => Resolve.refuse e
          | .ok a =>
              if a.arguments.any List.isEmpty then Resolve.refuse (.emptyArgument a.base normal)
              else
                let names ← a.arguments.attach.mapM fun ⟨argument, _hm⟩ =>
                  match _hd : Decorated.ofText argument with
                  | .error e => Resolve.refuse e
                  | .ok d =>
                      if isGenericCore d.core then aliasName naming d.core else pure d.core
                let formed ← Resolve.ofOutcome (naming.form a.base names)
                let name ← Resolve.ofExcept (checkAlias formed normal)
                modify fun c => { c with aliasNames := c.aliasNames.insert normal name }
                return name
termination_by angles core
decreasing_by exact angles_core_lt _hn _ha _hm _hd

/-- A text before its directives, and the directives. -/
def cutDirectives (t : Text) : Except SchemaError (Text × Option Text) := do
  match ← cutAt (· == '@') t with
  | none => return (t, none)
  | some (before, rest) => return (before, some rest.trim)

/-- The use of a type expression inside a declaration with type parameters `letters`; directives in
the expression take precedence over `directive`. -/
def useType (naming : Naming) (expression : Text) (letters : Option (List Text))
    (directive : Option Text := none) : Resolve TypeUse := do
  let (expression, written) ← Resolve.ofExcept (cutDirectives expression)
  let directive := written.or directive
  let origin := expression.trim
  let letters := letters.filter (!·.isEmpty)
  let decorated ← Resolve.ofExcept (Decorated.ofText origin)
  if !isGenericCore decorated.core then
    return { origin, isGeneric := false, resolved := origin, directive, letters }
  else
    let a ← Resolve.ofExcept (Application.ofText decorated.core)
    let parameters := letters.getD []
    if parameters.contains a.base then Resolve.refuse (.appliedParameter a.base origin)
    else if a.arguments.any fun argument => mentions argument parameters then
      return {
        origin, isGeneric := true, resolved := origin, isDeferred := true, directive, letters }
    else
      let name ← aliasName naming decorated.core
      let resolved := decorated.opening ++ name ++ decorated.closing
      let use : TypeUse := { origin, isGeneric := true, resolved, directive, letters }
      modify fun c => { c with pending := c.pending.insertIfNew name use }
      return use

end Schemata
