import Schemata.Alias.Catalogue.Feature
import Schemata.Alias.Catalogue.Number
import Schemata.Alias.Catalogue.Text

/-!
# The catalogue

What is known of each category.  Every category but the one of everything stands directly below it,
so that a feature is looked up in at most two places.

## Main definitions

* `Category.profile` — what is known of a category.
* `Category.line` — a category and those above it.
-/

namespace Schemata

namespace Template

namespace Category

def profile : Category → Profile
  | .thing =>
      ⟨"object", some "()", thingDescription,
        ⟨16, 0, 529664, 0, 0⟩, thingFeatures⟩
  | .text =>
      ⟨"str", none, textDescription,
        ⟨80, 0, 273159424, 0, 0⟩, textFeatures⟩
  | .number =>
      ⟨"int", none, numberDescription,
        ⟨24, 4, 21501184, 0, 0⟩, numberFeatures⟩
  | .nothing =>
      ⟨"NoneType", none, [],
        ⟨16, 0, 528640, 0, 0⟩, nothingFeatures⟩
  | .row =>
      ⟨"tuple", some "(iterable=(), /)", rowDescription,
        ⟨24, 8, 71849248, 0, 0⟩, rowFeatures⟩
  | .category =>
      ⟨"type", none, categoryDescription,
        ⟨904, 40, 2148031744, 368, 264⟩, categoryFeatures⟩
  | .register =>
      ⟨"mappingproxy", none, [],
        ⟨24, 0, 545088, 0, 0⟩, registerFeatures⟩
  | .operation =>
      ⟨"builtin_function_or_method", none, [],
        ⟨56, 0, 547200, 40, 0⟩, operationFeatures⟩
  | .action =>
      ⟨"method-wrapper", none, [],
        ⟨32, 0, 20864, 0, 0⟩, actionFeatures⟩
  | .operationRule =>
      ⟨"method_descriptor", none, [],
        ⟨56, 0, 678272, 0, 0⟩, operationRuleFeatures⟩
  | .actionRule =>
      ⟨"wrapper_descriptor", none, [],
        ⟨56, 0, 676224, 0, 0⟩, actionRuleFeatures⟩
  | .sharedRule =>
      ⟨"classmethod_descriptor", none, [],
        ⟨56, 0, 545152, 0, 0⟩, sharedRuleFeatures⟩
  | .propertyRule =>
      ⟨"getset_descriptor", none, [],
        ⟨48, 0, 545152, 0, 0⟩, propertyRuleFeatures⟩
  | .fieldRule =>
      ⟨"member_descriptor", none, [],
        ⟨48, 0, 545152, 0, 0⟩, fieldRuleFeatures⟩

def label (c : Category) : Text :=
  c.profile.label.toList

/-- The categories directly above a category. -/
def above : Category → List Category
  | thing => []
  | _ => [thing]

def line (c : Category) : List Category :=
  c :: c.above

/-- The feature that a category itself provides under a name. -/
def ownFeature? (c : Category) (name : Text) : Option Feature :=
  c.profile.features.find? fun f => f.name.toList == name

/-- The feature that things of a category have under a name, and the category that provides it. -/
def feature? (c : Category) (name : Text) : Option (Category × Feature) :=
  c.line.findSome? fun owner => (owner.ownFeature? name).map fun f => (owner, f)

end Category

end Template

end Schemata
