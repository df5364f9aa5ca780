import Schemata.Declaration

/-!
# Writing schemas
-/

namespace Schemata

/-- How a schema is laid out. -/
structure Layout where
  /-- The number of spaces before a field; there are none if it is not positive. -/
  indent : Int := 4
  /-- What separates the names of implemented interfaces. -/
  separator : Text := ", ".toList
  deriving DecidableEq

def Layout.pad (l : Layout) : Text :=
  List.replicate l.indent.toNat ' '

/-- A text after a space, if it is given and not empty. -/
def spaced : Option Text → Text
  | none | some [] => []
  | some t => ' ' :: t

/-- A default value after an equals sign, if it is given. -/
def defaulted : Option Text → Text
  | none => []
  | some t => " = ".toList ++ t

/-- A text as lines of its own, if it is given and not empty. -/
def given : Option Text → List Text
  | none | some [] => []
  | some t => [t]

def TypeUse.render (u : TypeUse) : Text :=
  u.resolved ++ spaced u.directive

def Argument.render (a : Argument) : Text :=
  a.name ++ ": ".toList ++ a.type.resolved ++ defaulted a.default ++ spaced a.type.directive

/-- The line of a field, without indentation. -/
def Field.line (f : Field) : Text :=
  let arguments := match f.arguments with
    | none => []
    | some as => "(".toList ++ Text.joinWith ", ".toList (as.map Argument.render) ++ ")".toList
  let rest := match f.type with
    | some u => ": ".toList ++ u.resolved ++ defaulted f.default ++ spaced u.directive
    | none => spaced f.directive
  f.name ++ arguments ++ rest ++ spaced f.inlineComment

/-- A field, with its description and its comments above it. -/
def Field.render (l : Layout) (f : Field) : Text :=
  let comments := if f.comments.isEmpty then [] else Text.lines f.comments
  Text.ofLines ((given f.description ++ comments ++ [f.line]).map (l.pad ++ ·))

def Declaration.header (l : Layout) (d : Declaration) : Text :=
  let keyword := if d.isExtend then "extend ".toList ++ d.kind.keyword else d.kind.keyword
  let name := if d.kind == .schema then [] else ' ' :: d.name
  let implements := match d.implements with
    | some (i :: is) =>
        if d.kind == .union then []
        else " implements ".toList ++ Text.joinWith l.separator (i :: is)
    | _ => []
  let members := match d.members with
    | some (m :: ms) =>
        if d.kind == .union then
          " = ".toList ++ Text.joinWith " | ".toList ((m :: ms).map TypeUse.render)
        else []
    | _ => []
  keyword ++ name ++ implements ++ spaced d.directive ++ members

def Declaration.bodyLines (l : Layout) (d : Declaration) : List Text :=
  d.fields.map (Field.render l) ++
    (given d.closingComments).flatMap fun t => (Text.lines t).map (l.pad ++ ·)

/-- A declaration.  A block has a body in braces, unless it extends a declaration by its header
alone. -/
def Declaration.render (l : Layout) (d : Declaration) : Text :=
  let above := given d.description ++ given d.comments
  let header := d.header l
  let body := d.bodyLines l
  let lines :=
    if !d.kind.isBlock || (d.isExtend && body.isEmpty) then [header]
    else if body.isEmpty then [header ++ " \x7b\x7d".toList]
    else [header ++ " \x7b".toList] ++ body ++ ["\x7d".toList]
  Text.ofLines (above ++ lines)

end Schemata
