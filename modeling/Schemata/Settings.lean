import Schemata.Content
import Schemata.Expansion
import Schemata.Location

/-!
# Settings

What a user may choose about an expansion is a nested mapping.  A file of settings says only what
differs from the defaults.

## Main definitions

* `Settings.expander` — the expander that settings describe.
-/

namespace Schemata

namespace Settings

/-- The section about the text that is written. -/
def outputKey : Text := "output".toList

def genericsKey : Text := "generics".toList

/-- The key for the spaces in front of a field. -/
def indentKey : Text := "indent".toList

/-- The key for what stands between two implemented interfaces. -/
def separatorKey : Text := "implements_separator".toList

/-- The key for the format of exported declarations. -/
def formatKey : Text := "ast_format".toList

/-- The key for the depth to which instances may nest. -/
def depthKey : Text := "max_depth".toList

def aliasesKey : Text := "aliases".toList

/-- The settings of a user who chooses nothing. -/
def defaults : Value :=
  .mapping
    [(outputKey, .mapping
        [(indentKey, .int 4), (separatorKey, .text ", ".toList), (formatKey, .text "json".toList)]),
      (genericsKey, .mapping [(depthKey, .int 64), (aliasesKey, .mapping [])])]

/-- The defaults with what a document says in their place; an empty document says nothing. -/
def overlay (document : Value) : Except Failure Value :=
  if document.isGiven then defaults.merge document else .ok defaults

/-- The settings of a file, if one is named; a file that does not exist leaves the defaults. -/
def load (path : Option Text) (read : Location → Option Content) : Report Value :=
  match path with
  | none | some [] => pure defaults
  | some path =>
      match read (Location.ofText path) with
      | none => do
          Report.tell (.settingsMissing path)
          return defaults
      | some content => Report.ofOutcome (content.asDocument.bind overlay)

/-- A section of the settings; one that is missing is empty. -/
def sectionOf (settings : Value) (key : Text) : Except Failure Value :=
  (·.getD (.mapping [])) <$> settings.get? key

def intOf (part : Value) (key : Text) (fallback : Int) : Except Failure Int := do
  match ← part.get? key with
  | none => return fallback
  | some v => v.toInt

/-- The rules of the alias templates in the settings. -/
def aliasRules (generics : Value) : Except Failure (Table Text AliasRule) := do
  match ← generics.get? aliasesKey with
  | none => return {}
  | some v =>
      if v.isGiven then
        return ⟨(← v.entries).map fun (key, template) => (key, AliasRule.ofTemplate template)⟩
      else return {}

/-- The format of exported declarations; what is no text names no format of its own. -/
def format (settings : Value) : Except Failure Text := do
  match ← (← sectionOf settings outputKey).get? formatKey with
  | some (.text t) => return t
  | _ => return "json".toList

def expander (settings : Value) : Except Failure Expander := do
  let output ← sectionOf settings outputKey
  let generics ← sectionOf settings genericsKey
  let named ← aliasRules generics
  let indent ← intOf output indentKey 4
  let separator := ((← output.get? separatorKey).map Value.display).getD ", ".toList
  let limit ← intOf generics depthKey 64
  return { named, layout := { indent, separator }, limit }

end Settings

end Schemata
