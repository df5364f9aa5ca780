import Schemata.Declaration
import Schemata.Header
import Schemata.Lexeme.Lines
import Schemata.Log

/-!
# Annotations in a schema

An annotation is an `@name` or `@name(body)` alone on a line above a declaration or a field.  It is
not part of the schema proper and is taken out, as is every definition of a directive, which may run
over several lines and becomes an annotation named `directive`.

The lines of a schema are first sorted into *sections* (`sections`), which needs nothing but the
lines and where they start; then the annotations are given to what follows them (`collect`).

## Main definitions

* `Section`, `sections` — the lines of a schema by their role.
* `Extraction`, `extract` — a schema without its annotations, and the annotations.
-/

namespace Schemata

/-- An annotation that has not found its target yet. -/
structure Mark where
  name : Text
  /-- The text between the parentheses, if there are any. -/
  body : Option Text
  deriving DecidableEq

/-- The annotation that a trimmed line consists of. -/
def Mark.ofLine? : Text → Option Mark
  | '@' :: cs =>
      (Text.takeName cs).bind fun (name, rest) =>
        match Text.trimStart rest with
        | [] => some ⟨name, none⟩
        | '(' :: inside =>
            if Text.endsWith (· == ')') inside then some ⟨name, inside.dropLast⟩ else none
        | _ => none
  | _ => none

/-- The name of the directive that a trimmed line starts to define. -/
def directiveName? (line : Text) : Option Text :=
  (Text.after? "directive".toList line).bind fun rest =>
    match rest.takeWhile isBlank, rest.dropWhile isBlank with
    | _ :: _, '@' :: cs => (Text.takeName cs).map Prod.fst
    | _, _ => none

def isLocationChar (c : Char) : Bool :=
  c.isUpper || c == '_' || c == '|' || isBlank c

/-- Whether a text names the locations of a directive: the word `on`, white space and a location.
`boundary` says whether a word may start here. -/
def namesLocations (boundary : Bool) : Text → Bool
  | [] => false
  | c :: cs =>
      (boundary && c == 'o' &&
        match cs with
        | 'n' :: b :: l :: _ => isBlank b && isLocationChar l
        | _ => false) ||
      namesLocations (c == ')' || isBlank c) cs

/-- Whether a definition is complete with the lines `taken`, the lines `rest` following: its
parentheses are closed, it names its locations, and no location is still to come. -/
def isCompleteDefinition (taken rest : List Text) : Bool :=
  let text := Text.ofLines taken
  let next := ((rest.map Text.trim).find? fun l => !l.isEmpty).getD []
  text.count '(' ≤ text.count ')' && namesLocations true text &&
    !(Text.trimEnd text).endsWith (· == '|') && !next.startsWith (· == '|')

/-- The lines of a definition of which `taken` have been read, and how many follow. -/
def takeDefinition (taken : List Text) : List Text → List Text
  | [] => taken
  | line :: rest =>
      if isCompleteDefinition taken (line :: rest) then taken
      else takeDefinition (taken ++ [line]) rest

/-- The role of the lines of a schema. -/
inductive Section where
  /-- A line that stands between an annotation and its target: blank, a comment, or part of a string
  literal. -/
  | passive (line : Text)
  | definition (name : Text) (lines : List Text)
  | mark (line : Text) (mark : Mark)
  /-- Any other line, with the number of braces open at its start. -/
  | code (line : Text) (depth : Nat)
  deriving DecidableEq

def Section.lines : Section → List Text
  | .passive line | .mark line _ | .code line _ => [line]
  | .definition _ lines => lines

/-- The section that a line starts, the lines `rest` following it. -/
def Section.start (line : Text) (state : LineState) (rest : List Text) : Section :=
  let trimmed := line.trim
  if state.inString || trimmed.isEmpty || trimmed.startsWith fun c => c == '#' || c == '"' then
    .passive line
  else
    match if state.depth == 0 then directiveName? trimmed else none with
    | some name => .definition name (takeDefinition [line] rest)
    | none =>
        match Mark.ofLine? trimmed with
        | some m => .mark line m
        | none => .code line state.depth

/-- The sections of lines of which the first `skip` belong to the section before. -/
def sectionsFrom (skip : Nat) : List (Text × LineState) → List Section
  | [] => []
  | (line, state) :: rest =>
      match skip with
      | n + 1 => sectionsFrom n rest
      | 0 =>
          let s := Section.start line state (rest.map Prod.fst)
          s :: sectionsFrom (s.lines.length - 1) rest

def sections (lines : List (Text × LineState)) : List Section :=
  sectionsFrom 0 lines

/-- A schema without its annotations. -/
structure Extraction where
  kept : List Text := []
  annotations : List Annotation := []
  deriving DecidableEq

def Extraction.plain (e : Extraction) : Text :=
  Text.ofLines e.kept

/-- The name under which definitions of directives are extracted. -/
def definitionMark : Text :=
  "directive".toList

/-- The annotations that a line gives its marks: the declaration whose header it holds is their
target, or inside a block the field that it starts. -/
def annotate (marks : List Mark) (parent : Option (Kind × Text)) (line : Text) (depth : Nat)
    (header : Option Header) : Report (List Annotation) :=
  if marks.isEmpty then return []
  else
    match header, if depth == 0 then none else line.trim.takeName with
    | some h, _ => return marks.map fun m => ⟨m.name, m.body, h.kind, h.name, none⟩
    | none, some (field, _) =>
        return marks.map fun m => ⟨m.name, m.body, .property, field, parent⟩
    | none, none => do
        Report.tell (.annotationsDropped (marks.map Mark.name))
        return []

/-- Tell that marks at the end of a schema have no target. -/
def tellDropped : List Mark → Report Unit
  | [] => return ()
  | m :: ms => do
      Report.tell (.annotationAtEnd m.name)
      tellDropped ms

/-- Give annotations to what follows them; `marks` wait for their target, and `parent` is the last
declaration passed. -/
def collect (marks : List Mark) (parent : Option (Kind × Text)) : List Section → Report Extraction
  | [] => do
      tellDropped marks
      return {}
  | .passive line :: rest => do
      let e ← collect marks parent rest
      return { e with kept := line :: e.kept }
  | .definition name lines :: rest => do
      let e ← collect marks parent rest
      let body := (Text.ofLines lines).trim
      return { e with
        annotations := ⟨definitionMark, some body, .directive, name, none⟩ :: e.annotations }
  | .mark _ m :: rest => collect (marks ++ [m]) parent rest
  | .code line depth :: rest => do
      let header ← if depth == 0 then Report.ofExcept (Header.read line) else pure none
      let parent := (header.map fun h => (h.kind, h.name)).or parent
      let annotations ← annotate marks parent line depth header
      let e ← collect [] parent rest
      return ⟨line :: e.kept, annotations ++ e.annotations⟩

def extract (t : Text) : Report Extraction := do
  let lines ← Report.ofExcept (linesWithStates t)
  let e ← collect [] none (sections lines)
  Report.tell (.annotationsExtracted e.annotations.length)
  return e

end Schemata
