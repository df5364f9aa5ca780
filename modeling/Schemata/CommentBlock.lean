import Schemata.Declaration
import Schemata.Header
import Schemata.Lexeme.Lines
import Schemata.Log

/-!
# Comments above declarations

The comment of a declaration is the run of `#` lines right above its header; blank lines do not end
the run.

## Main definitions

* `CommentBlock`, `locateComments` — the comment blocks of a schema.
* `attachComments` — comment blocks given to their declarations.
-/

namespace Schemata

/-- The comment lines above a declaration. -/
structure CommentBlock where
  text : Text
  kind : Kind
  name : Text
  /-- Whether the declaration below extends another. -/
  isExtend : Bool := false
  deriving DecidableEq

/-- The comment lines at the head of a list of lines, blank lines passed over. -/
def takeComments : List Text → List Text
  | [] => []
  | line :: rest =>
      let line := line.trim
      if line.startsWith (· == '#') then line :: takeComments rest
      else if line.isEmpty then takeComments rest
      else []

/-- The comment block above a header; `above` are the lines before it, the nearest first. -/
def commentBlock? (above : List Text) (h : Header) : Option CommentBlock :=
  match takeComments above with
  | [] => none
  | block => some ⟨Text.ofLines block.reverse, h.kind, h.name, h.isExtend⟩

/-- The comment blocks of lines; `above` are the lines before them, the nearest first. -/
def commentBlocks (above : List Text) : List (Text × LineState) →
    Except SchemaError (List CommentBlock)
  | [] => .ok []
  | (line, state) :: rest => do
      let header ← if state.depth == 0 && !state.inString then Header.read line else pure none
      let blocks ← commentBlocks (line :: above) rest
      return (header.bind (commentBlock? above)).toList ++ blocks

def locateComments (t : Text) : Report (List CommentBlock) := do
  let blocks ← Report.ofExcept (linesWithStates t >>= commentBlocks [])
  Report.tell (.commentsLocated blocks.length)
  return blocks

/-- Whether a comment block stands above a declaration of this kind and name. -/
def CommentBlock.isFor (b : CommentBlock) (d : Declaration) : Bool :=
  b.kind == d.kind && b.name == d.name && b.isExtend == d.isExtend

/-- The declaration with the comments of the first block for it. -/
def attachComment (blocks : List CommentBlock) (d : Declaration) : Declaration :=
  match blocks.find? (·.isFor d) with
  | some b => { d with comments := some b.text }
  | none => d

def attachComments (blocks : List CommentBlock) (ds : List Declaration) : List Declaration :=
  ds.map (attachComment blocks)

end Schemata
