import Schemata.Declaration
import Schemata.Value.Layout

/-!
# Declarations as data

## Main definitions

* `Declaration.toValue` — a declaration as a mapping of its parts.
-/

namespace Schemata

def TypeUse.toValue (u : TypeUse) : Value :=
  .mapping
    [("origin_name".toList, .text u.origin),
      ("is_generic".toList, .bool u.isGeneric),
      ("resolved_name".toList, .text u.resolved),
      ("depends_on_parent_generics".toList, .bool u.isDeferred),
      ("directive".toList, .ofOption u.directive),
      ("generic_parent_letters".toList, .ofTexts u.letters)]

def Argument.toValue (a : Argument) : Value :=
  .mapping
    [("name".toList, .text a.name),
      ("type".toList, a.type.toValue),
      ("default_value".toList, .ofOption a.default)]

def pairToValue (p : Kind × Text) : Value :=
  .list [.text p.1.label, .text p.2]

def Annotation.toValue (a : Annotation) : Value :=
  .mapping
    [("name".toList, .text a.name),
      ("body".toList, .ofOption a.body),
      ("declaration_kind".toList, .text a.kind.label),
      ("declaration_name".toList, .text a.target),
      ("parent".toList, (a.parent.map pairToValue).getD .null)]

def Field.toValue (f : Field) : Value :=
  .mapping
    [("name".toList, .text f.name),
      ("comments".toList, .text f.comments),
      ("parameters".toList, (f.arguments.map fun as => .list (as.map Argument.toValue)).getD .null),
      ("result".toList, (f.type.map TypeUse.toValue).getD .null),
      ("default_value".toList, .ofOption f.default),
      ("directive".toList, .ofOption f.directive),
      ("description".toList, .ofOption f.description),
      ("metadata".toList, (f.metadata.map Annotation.toValue).getD .null),
      ("inline_comment".toList, .ofOption f.inlineComment)]

def Declaration.toValue (d : Declaration) : Value :=
  .mapping
    [("kind".toList, .text d.kind.label),
      ("name".toList, .text d.name),
      ("is_extend".toList, .bool d.isExtend),
      ("generic_parameters".toList, .ofTexts d.parameters),
      ("directive".toList, .ofOption d.directive),
      ("properties".toList, .list (d.fields.map Field.toValue)),
      ("inherits".toList, .ofTexts d.inherits),
      ("implements".toList, .ofTexts d.implements),
      ("comments".toList, .ofOption d.comments),
      ("description".toList, .ofOption d.description),
      ("metadata".toList, (d.metadata.map Annotation.toValue).getD .null),
      ("members".toList, (d.members.map fun ms => .list (ms.map TypeUse.toValue)).getD .null),
      ("closing_comments".toList, .ofOption d.closingComments),
      ("raw".toList, .ofOption d.raw),
      ("original_properties".toList,
        (d.ownFields.map fun fs => .list (fs.map Field.toValue)).getD .null)]

/-- What an export gives: a text, or data for a writer of another format. -/
inductive Output where
  | text (t : Text)
  | data (v : Value)

/-- Declarations as data: YAML is left to a writer of that format, every other format is JSON. -/
def exportDeclarations (format : Text) (ds : List Declaration) : Output :=
  let data := Value.list (ds.map Declaration.toValue)
  if format == "yaml".toList then .data data else .text (data.layout ++ ['\n'])

end Schemata
