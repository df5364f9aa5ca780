import Schemata.Fragment.Basic
import Schemata.TypeUse

/-!
# Fragments as declarations

A fragment becomes a declaration when its header is read for clauses and directives and its items
for fields.  On the way every type expression becomes a use of a type.

## Main definitions

* `parseField`, `parseFragment`, `parseFragments` — fields, declarations, and all of them.
-/

namespace Schemata

/-! ### Arguments -/

/-- Whether an argument starts here: a name and a colon. -/
def startsArgument (ls : List Lexeme) : Bool :=
  Lexeme.startsWith isNameStart ls &&
    Lexeme.startsWith (· == ':') (Lexeme.dropBlank (Lexeme.dropName ls))

/-- The characters after which an argument may start. -/
def isArgumentGap (c : Char) : Bool :=
  c == ' ' || c == ',' || c == '\t' || c == '\n'

/-- The number of open brackets after a character; angle brackets do not count here. -/
def argumentDepthAfter (depth : Int) (c : Char) : Int :=
  if c == '(' || c == '[' || c == '{' then depth + 1
  else if c == ')' || c == ']' || c == '}' then depth - 1
  else depth

/-- The pieces of an argument list: what stands before the first argument, and then one piece for
each argument.  `boundary` says whether an argument may start here. -/
def argumentPieces (boundary : Bool) (depth : Int) : List Lexeme → Except SchemaError (List Text)
  | [] => .ok [[]]
  | .unclosed t :: _ => .error (unclosedLiteral t)
  | .literal t :: ls | .comment t :: ls => prependHead t <$> argumentPieces false depth ls
  | .char c :: ls => do
      let pieces ← argumentPieces (isArgumentGap c) (argumentDepthAfter depth c) ls
      let pieces := prependHead [c] pieces
      if depth == 0 && boundary && startsArgument (.char c :: ls) then return [] :: pieces
      else return pieces

/-- A piece without white space around it and commas after it. -/
def cleanArgument (t : Text) : Text :=
  (Text.dropEndWhile (· == ',') t.trim).trim

/-- The arguments of an argument list.  A new one starts at every name with a colon that is not part
of a value, so that commas are optional.  A list in which no argument starts is one piece. -/
def splitArguments (t : Text) : Except SchemaError (List Text) := do
  match ← argumentPieces true 0 (lex false t) with
  | _ :: piece :: pieces => return (piece :: pieces).map cleanArgument
  | _ => return if t.trim.isEmpty then [] else [t.trim]

/-! ### Clauses -/

/-- What a clause of a header says about the names in it. -/
inductive Clause where
  | inherits
  | implements
  deriving DecidableEq

/-- The clause that starts at the start of a text, and what follows its keyword. -/
def takeClause (t : Text) : Option (Clause × Text) :=
  [(Clause.inherits, "inherits".toList), (Clause.implements, "implements".toList)].findSome?
    fun (clause, word) =>
      (Text.after? word t).bind fun rest =>
        if Text.startsWith isWordChar rest then none else some (clause, rest)

theorem Text.after?_length {word t rest : Text} (h : Text.after? word t = some rest) :
    t.length = word.length + rest.length := by
  induction word generalizing t with
  | nil => simp only [Text.after?, Option.some.injEq] at h; simp [h]
  | cons w word ih =>
      cases t with
      | nil => simp [Text.after?] at h
      | cons c cs =>
          simp only [Text.after?] at h
          split at h
          · simp [ih h]; omega
          · simp at h

theorem takeClause_length {t rest : Text} {clause : Clause}
    (h : takeClause t = some (clause, rest)) : rest.length < t.length := by
  unfold takeClause at h
  obtain ⟨⟨k, word⟩, hm, h⟩ := List.exists_of_findSome?_eq_some h
  have hw : word ≠ [] := by
    simp only [List.mem_cons, Prod.mk.injEq, List.not_mem_nil, or_false] at hm
    rcases hm with ⟨-, rfl⟩ | ⟨-, rfl⟩ <;> decide
  obtain ⟨r, hr, h⟩ := Option.bind_eq_some_iff.mp h
  split at h
  · simp at h
  · simp only [Option.some.injEq, Prod.mk.injEq] at h
    obtain ⟨-, rfl⟩ := h
    have := Text.after?_length hr
    have := List.length_pos_iff.mpr hw
    omega

/-- What stands before the first clause of a header, and each clause with the text after its
keyword.  `boundary` says whether a word may start here. -/
def splitClauses (boundary : Bool) : Text → Text × List (Clause × Text)
  | [] => ([], [])
  | c :: cs =>
      match _h : if boundary then takeClause (c :: cs) else none with
      | some (clause, rest) =>
          let (text, clauses) := splitClauses false rest
          ([], (clause, text) :: clauses)
      | none =>
          let (text, clauses) := splitClauses (!isWordChar c) cs
          (c :: text, clauses)
termination_by t => t.length
decreasing_by
  · split at _h
    · exact takeClause_length _h
    · simp at _h
  · simp

/-- The names that a clause lists: each stands at the start of a part between commas or
ampersands. -/
def clauseNames (t : Text) : List Text :=
  (t.splitBy fun c => c == ',' || c == '&').filterMap fun part =>
    (Text.takeName part.trim).map Prod.fst

/-- The names of all clauses of one kind, if there is such a clause. -/
def namesIn (clause : Clause) (clauses : List (Clause × Text)) : Option (List Text) :=
  match clauses.filter (·.1 == clause) with
  | [] => none
  | cs => some (cs.flatMap fun (_, t) => clauseNames t)

def nonEmpty (t : Text) : Option Text :=
  if t.isEmpty then none else some t

/-- The clauses and directives of a header after its name. -/
def parseClauses (d : Declaration) (rest : Text) : Except SchemaError Declaration := do
  let (rest, directive) ← cutDirectives rest
  let (leading, clauses) := splitClauses true rest
  if leading.trim.isEmpty then
    return { d with
      directive
      inherits := namesIn .inherits clauses
      implements := namesIn .implements clauses }
  else throw (.unexpectedClause leading.trim d.kind d.name)

/-! ### Fields -/

/-- The first annotation for a declaration or field. -/
def annotationFor (annotations : List Annotation) (kind : Kind) (name : Text)
    (parent : Option (Kind × Text)) : Option Annotation :=
  annotations.find? fun a => a.kind == kind && a.target == name && a.parent == parent

/-- A type with what may follow it: the type, the default value and the directives. -/
def splitValue (t : Text) : Except SchemaError (Text × Option Text × Option Text) := do
  let (t, directive) ← cutDirectives t
  match ← cutAt (· == '=') t with
  | none => return (t.trim, none, directive)
  | some (before, rest) => return (before.trim, some (Text.trim rest.tail), directive)

def parseArgument (naming : Naming) (d : Declaration) (t : Text) : Resolve Argument := do
  match t.dropWhile (· != ':') with
  | [] => Resolve.refuse (.invalidArgument t d.kind d.name)
  | _ :: value =>
      let name := Text.trim (t.takeWhile (· != ':'))
      if name.isName then
        let (type, default, directive) ← Resolve.ofExcept (splitValue value)
        let type ← useType naming type d.parameters directive
        return { name, type, default }
      else Resolve.refuse (.invalidArgument t d.kind d.name)

/-- A field without the comment after it, and the comment. -/
def cutInlineComment (t : Text) : Except SchemaError (Text × Option Text) := do
  match ← cutAt (· == '#') t with
  | none => return (t, none)
  | some (before, rest) => return (before.trimEnd, some rest.trim)

/-- The arguments of a field, if `rest` starts with a parenthesis, and what follows them. -/
def parseArguments (naming : Naming) (d : Declaration) (t rest : Text) :
    Resolve (Option (List Argument) × Text) := do
  if rest.startsWith (· == '(') then
    match ← Resolve.ofExcept (takeBalanced '(' ')' rest) with
    | none => Resolve.refuse (.unclosedArguments t d.kind d.name)
    | some (inside, rest) =>
        let pieces ← Resolve.ofExcept (splitArguments (innerText inside))
        let arguments ← pieces.mapM (parseArgument naming d)
        return (some arguments, rest.trim)
  else return (none, rest)

/-- Read a field of `d`: `name[(arguments)][: Type[ = default][ @directive]]`. -/
def parseField (naming : Naming) (annotations : List Annotation) (d : Declaration) (t : Text) :
    Resolve Field := do
  let (t, inlineComment) ← Resolve.ofExcept (cutInlineComment t)
  match t.takeName with
  | none => Resolve.refuse (.invalidField t d.kind d.name)
  | some (name, rest) =>
      let (arguments, rest) ← parseArguments naming d t rest.trimStart
      let metadata := annotationFor annotations .property name (some (d.kind, d.name))
      let field : Field := { name, arguments, inlineComment, metadata }
      match rest with
      | [] => return field
      | ':' :: value =>
          let (type, default, directive) ← Resolve.ofExcept (splitValue value)
          let type ← useType naming type d.parameters directive
          return { field with type := some type, default }
      | '@' :: _ => return { field with directive := some rest }
      | _ => Resolve.refuse (.unexpectedAfterField rest name t d.kind d.name)

/-- Read the items of a body: comments and a description belong to the field after them, and
comments after the last field close the body. -/
def parseItems (naming : Naming) (annotations : List Annotation) (d : Declaration)
    (comments : List Text) (description : Option Text) : List Text →
    Resolve (List Field × Option Text)
  | [] => return ([], nonEmpty (Text.ofLines comments))
  | item :: items =>
      if item.startsWith (· == '#') then
        parseItems naming annotations d (comments ++ [item]) description items
      else if item.startsWith (· == '"') then
        parseItems naming annotations d comments (some item) items
      else do
        let field ← parseField naming annotations d item
        let (fields, closing) ← parseItems naming annotations d [] none items
        return ({ field with comments := Text.ofLines comments, description } :: fields, closing)

/-! ### Declarations -/

def parseUnion (naming : Naming) (d : Declaration) (rest : Text) : Resolve Declaration := do
  match ← Resolve.ofExcept (cutAt (· == '=') rest) with
  | none => return { d with directive := nonEmpty rest.trim }
  | some (head, rest) =>
      let parts ← Resolve.ofExcept (splitAt (· == '|') rest.tail)
      let members ← (parts.filter (!·.isEmpty)).mapM fun m => useType naming m d.parameters
      return { d with directive := nonEmpty head.trim, members := some members }

/-- Whether a type parameter is declared twice. -/
def hasDuplicate (parameters : Option (List Text)) : Bool :=
  match parameters with
  | none => false
  | some ps => !decide ps.Nodup

def parseFragment (naming : Naming) (annotations : List Annotation) (f : Fragment) :
    Resolve Declaration := do
  match ← Resolve.ofExcept (Header.read f.header) with
  | none => Resolve.refuse (.unnamedDeclaration f.kind f.header)
  | some h =>
      if hasDuplicate h.parameters then Resolve.refuse (.duplicateParameter h.kind h.name)
      else
        let d : Declaration := {
          kind := h.kind
          name := h.name
          isExtend := f.isExtend
          parameters := h.parameters
          description := f.description
          metadata := annotationFor annotations h.kind h.name none }
        if d.kind == .union then parseUnion naming d h.rest
        else if d.kind == .scalar then return { d with directive := nonEmpty h.rest.trim }
        else
          let d ← Resolve.ofExcept (parseClauses d h.rest)
          let (fields, closingComments) ← parseItems naming annotations d [] none f.items
          return { d with fields, closingComments }

def parseFragments (naming : Naming) (annotations : List Annotation) (fs : List Fragment) :
    Resolve (List Declaration) := do
  let ds ← fs.mapM (parseFragment naming annotations)
  Resolve.tell (.declarationsParsed ds.length)
  return ds

end Schemata
