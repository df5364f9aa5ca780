import Schemata.Fragment.Body
import Schemata.Header
import Schemata.Log

/-!
# Fragments

A schema is cut into *fragments*, one per declaration: its header with white space and comments
reduced, and the items of its body.  Between declarations stand white space, commas, comments and
descriptions, and a description belongs to the declaration after it.

A statement that starts with no keyword is passed over up to the end of its line.

## Main definitions

* `Scan`, `scan` — all fragments of a schema, the statements passed over, and what stopped the
  reading, if anything did.
-/

namespace Schemata

/-- A declaration as cut out of a schema. -/
structure Fragment where
  kind : Kind
  /-- The header, without `extend`, such as `type Paged<T> implements Node`. -/
  header : Text
  items : List Text := []
  isExtend : Bool := false
  /-- The description above the declaration, quotes included. -/
  description : Option Text := none
  deriving DecidableEq

/-- A statement of a schema. -/
inductive Statement where
  | declared (fragment : Fragment)
  | skipped (line : Text)
  deriving DecidableEq

/-- A header in canonical form: no comments, single spaces, and no `extend`. -/
def canonicalHeader (t : Text) : Except SchemaError Text := do
  let header ← collapse (← stripComments t)
  return (Text.after? "extend ".toList header).getD header

def isStatementWord (word : Text) : Bool :=
  (Kind.ofKeyword? word).isSome || word == "extend".toList || word == "directive".toList

/-! ### Blocks -/

def Lexeme.leadingName (ls : List Lexeme) : Option Text :=
  (Text.takeName (raw (ls.takeWhile fun
    | .char c => isNameChar c
    | _ => false))).map Prod.fst

/-- Whether a header ends at a line break: a statement or a description starts after it, or, if the
header extends a declaration, a comment. -/
def endsHeader (isExtend : Bool) (rest : List Lexeme) : Bool :=
  match Lexeme.dropBlank rest with
  | .literal _ :: _ | .unclosed _ :: _ => true
  | .comment _ :: _ => isExtend
  | ls => (Lexeme.leadingName ls).any isStatementWord

/-- The rest of the header of a block, and what follows it: the lexemes after the opening brace of
its body, or those after a header without a body. -/
def takeHeader (isExtend : Bool) (depth : Nat) : List Lexeme →
    Except SchemaError (Text × Bool × List Lexeme)
  | [] => .ok ([], false, [])
  | .unclosed t :: _ => .error (unclosedLiteral t)
  | .literal t :: ls | .comment t :: ls =>
      (fun (header, rest) => (t ++ header, rest)) <$> takeHeader isExtend depth ls
  | .char c :: ls =>
      if depth == 0 && c == '{' then .ok ([], true, ls)
      else if depth == 0 && c == '\n' && endsHeader isExtend ls then .ok ([], false, .char c :: ls)
      else
        let depth :=
          if c == '(' || c == '[' then depth + 1
          else if c == ')' || c == ']' then depth - 1
          else depth
        (fun (header, rest) => (c :: header, rest)) <$> takeHeader isExtend depth ls

/-- The lexemes of a body up to the brace that closes it, `depth` further braces being open, and
those that follow the brace. -/
def takeBody (depth : Nat) : List Lexeme →
    Except SchemaError (Option (List Lexeme × List Lexeme))
  | [] => .ok none
  | .unclosed t :: _ => .error (unclosedLiteral t)
  | .char c :: ls =>
      if c == '}' && depth == 0 then .ok (some ([], ls))
      else
        let depth := if c == '{' then depth + 1 else if c == '}' then depth - 1 else depth
        Option.map (fun (body, rest) => (.char c :: body, rest)) <$> takeBody depth ls
  | l :: ls => Option.map (fun (body, rest) => (l :: body, rest)) <$> takeBody depth ls

/-- Read a declaration with a body; `opening` is the text up to its keyword, `t` what follows.  Only
an extension may go without a body. -/
def readBlock (kind : Kind) (isExtend : Bool) (opening t : Text) :
    Except SchemaError (Fragment × Text) := do
  let (header, hasBody, rest) ← takeHeader isExtend 0 (lex true t)
  let full ← collapse (← stripComments (opening ++ header))
  let header := (Text.after? "extend ".toList full).getD full
  if hasBody then
    match ← takeBody 0 rest with
    | none => throw (.missingBrace kind full)
    | some (body, rest) =>
        let items ← bodyItems (kind == .enum) body
        return ({ kind, header, items, isExtend }, raw rest)
  else if isExtend then return ({ kind, header, isExtend }, raw rest)
  else throw (.missingBlock kind full)

/-! ### Unions and scalars -/

/-- The lines of a union, `taken` having been read, and the text from the line break after them: the
union goes on if a line ends with `=` or `|`, or if the next one starts with either. -/
def takeUnion (taken : Text) : Text → Except SchemaError (Text × Text)
  | [] => .ok (taken, [])
  | c :: cs => do
      let announced := Text.endsWith (fun c => c == '=' || c == '|') (← stripComments taken).trimEnd
      let continued := Text.startsWith (fun c => c == '=' || c == '|') (Text.trimStart (c :: cs))
      if announced || continued then
        takeUnion (taken ++ c :: cs.takeWhile (· != '\n')) (cs.dropWhile (· != '\n'))
      else .ok (taken, c :: cs)
termination_by t => t.length
decreasing_by
  have := (cs.dropWhile_sublist (· != '\n')).length_le
  simp only [List.length_cons]
  omega

def readUnion (isExtend : Bool) (t : Text) : Except SchemaError (Fragment × Text) := do
  let (taken, rest) ← takeUnion (t.takeWhile (· != '\n')) (t.dropWhile (· != '\n'))
  return ({ kind := .union, header := ← canonicalHeader taken, isExtend }, rest)

/-- The directive at the start of a text, blanks before it included, and what follows: an argument
list that does not close runs to the end of the text. -/
def takeDirective (t : Text) : Except SchemaError (Option (Text × Text)) :=
  let gap := t.takeWhile fun c => c == ' ' || c == '\t'
  match t.dropWhile fun c => c == ' ' || c == '\t' with
  | '@' :: cs =>
      match Text.takeName cs with
      | none => return none
      | some (name, rest) =>
          if Text.startsWith (· == '(') rest then do
            match ← takeBalanced '(' ')' rest with
            | some (inside, rest) => return some (gap ++ '@' :: name ++ inside, rest)
            | none => return some (gap ++ '@' :: name ++ rest, [])
          else return some (gap ++ '@' :: name, rest)
  | _ => return none

theorem yields_takeDirective (t : Text) :
    Yields (fun o => ∀ directive rest, o = some (directive, rest) → t = directive ++ rest ∧
      directive ≠ []) (takeDirective t) := by
  have ht := (List.takeWhile_append_dropWhile (l := t) (p := fun c => c == ' ' || c == '\t')).symm
  unfold takeDirective
  split
  · rename_i cs hcs
    rw [hcs] at ht
    split
    · simp [Yields, pure, Except.pure]
    · rename_i name after hname
      rw [(Text.takeName_append hname).1] at ht
      split
      · refine (Lexeme.yields_takeBalanced '(' ')' 0 (lex false after)).bind fun o ho => ?_
        cases o with
        | none =>
          rintro directive rest ⟨⟩
          exact ⟨by simpa using ht, by simp⟩
        | some p =>
          obtain ⟨inside, r⟩ := p
          rintro directive rest ⟨⟩
          rw [← raw_lex false after, (ho inside r rfl).1] at ht
          exact ⟨by simpa using ht, by simp⟩
      · rintro directive rest ⟨⟩
        exact ⟨by simpa using ht, by simp⟩
  · simp [Yields, pure, Except.pure]

theorem takeDirective_append {t directive rest : Text}
    (h : takeDirective t = .ok (some (directive, rest))) : t = directive ++ rest ∧ directive ≠ [] :=
  (yields_takeDirective t).of_eq_ok h directive rest rfl

/-- The directives at the start of a text, and what follows them. -/
def takeDirectives (t : Text) : Except SchemaError (Text × Text) :=
  match _h : takeDirective t with
  | .error e => .error e
  | .ok none => .ok ([], t)
  | .ok (some (directive, rest)) =>
      (fun (directives, rest) => (directive ++ directives, rest)) <$> takeDirectives rest
termination_by t.length
decreasing_by
  obtain ⟨ht, hne⟩ := takeDirective_append _h
  have := List.length_pos_iff.mpr hne
  rw [ht, List.length_append]
  omega

/-- Read a scalar; `start` is the text of the statement, `opening` the part of it up to the keyword
and `t` what follows. -/
def readScalar (isExtend : Bool) (start opening t : Text) :
    Except SchemaError (Fragment × Text) := do
  match t.trimStart.takeName with
  | none => throw (.unnamedScalar (start.take 30))
  | some (name, rest) =>
      let (directives, rest) ← takeDirectives rest
      let header ← collapse (opening ++ t.takeWhile isBlank ++ name ++ directives)
      let header := (Text.after? "extend ".toList header).getD header
      return ({ kind := .scalar, header, isExtend }, rest)

/-! ### Statements -/

/-- The first word of a statement, `extend` left aside: whether `extend` stands before it, the text
up to its end, the word, and what follows. -/
def takeWord (t : Text) : Except SchemaError (Bool × Text × Text × Text) :=
  match t.takeName with
  | none => throw (.unexpectedText (t.take 30))
  | some (word, rest) =>
      if word == "extend".toList then
        match rest.trimStart.takeName with
        | none => throw (.danglingExtend (t.take 30))
        | some (next, after) =>
            return (true, word ++ rest.takeWhile isBlank ++ next, next, after)
      else return (false, word, word, rest)

/-- Read the statement at the start of a text, and what follows it. -/
def Statement.read (t : Text) : Except SchemaError (Statement × Text) := do
  let (isExtend, opening, word, rest) ← takeWord t
  match Kind.ofKeyword? word with
  | none => return (.skipped (Text.trim (t.takeWhile (· != '\n'))), t.dropWhile (· != '\n'))
  | some .union => do
      let (fragment, rest) ← readUnion isExtend t
      return (.declared fragment, rest)
  | some .scalar => do
      let (fragment, rest) ← readScalar isExtend t opening rest
      return (.declared fragment, rest)
  | some kind => do
      let (fragment, rest) ← readBlock kind isExtend opening rest
      return (.declared fragment, rest)

end Schemata
