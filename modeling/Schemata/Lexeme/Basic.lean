import Schemata.Error

/-!
# Lexemes

A text is read from left to right as a list of lexemes: string literals, comments where comments
count, and single characters.  Everything that has to tell the inside of a string from the outside
recurses over this list.

A literal is either a plain one, `"…"`, in which a backslash takes the next character along and
which does not run over a line break, or a block string, `"""…"""`, which ends at the first three
quotes that no backslash precedes.  A quote that opens no closed literal turns the whole rest of the
text into one `unclosed` lexeme, so that the lexemes of a text always add up to it; whoever comes
across that lexeme refuses the text with `unclosedLiteral`.

## Main definitions

* `raw` — the text that lexemes add up to.
-/

namespace Schemata

namespace Text

/-- The rest of a block string up to its closing quotes, and what follows them; `previous` is the
character before. -/
def takeBlock (previous : Char) : Text → Option (Text × Text)
  | '"' :: '"' :: '"' :: cs =>
      if previous == '\\' then
        (takeBlock '"' cs).map fun (body, rest) => ('"' :: '"' :: '"' :: body, rest)
      else some (['"', '"', '"'], cs)
  | c :: cs => (takeBlock c cs).map fun (body, rest) => (c :: body, rest)
  | [] => none

/-- The rest of a plain string up to its closing quote, and what follows it. -/
def takePlain : Text → Option (Text × Text)
  | '\\' :: c :: cs => (takePlain cs).map fun (body, rest) => ('\\' :: c :: body, rest)
  | ['\\'] => none
  | '"' :: cs => some (['"'], cs)
  | '\n' :: _ => none
  | c :: cs => (takePlain cs).map fun (body, rest) => (c :: body, rest)
  | [] => none

/-- Whether three quotes stand at the start of a text. -/
def startsBlock : Text → Bool
  | '"' :: '"' :: '"' :: _ => true
  | _ => false

/-- The literal that the first character of a text opens, and what follows it. -/
def takeLiteral : Text → Option (Text × Text)
  | '"' :: '"' :: '"' :: cs =>
      (takeBlock '"' cs).map fun (body, rest) => ('"' :: '"' :: '"' :: body, rest)
  | c :: cs => (takePlain cs).map fun (body, rest) => (c :: body, rest)
  | [] => none

theorem takeBlock_append {previous : Char} {t body rest : Text}
    (h : takeBlock previous t = some (body, rest)) : t = body ++ rest := by
  fun_induction takeBlock previous t generalizing body rest with
  | case1 previous cs hp ih =>
      obtain ⟨⟨b, _⟩, hb, ⟨⟩⟩ := Option.map_eq_some_iff.mp h
      simp [ih hb]
  | case2 => simp_all; simp [← h.1]
  | case3 previous c cs _ ih =>
      obtain ⟨⟨b, _⟩, hb, ⟨⟩⟩ := Option.map_eq_some_iff.mp h
      simp [ih hb]
  | case4 => simp at h

theorem takePlain_append {t body rest : Text} (h : takePlain t = some (body, rest)) :
    t = body ++ rest := by
  fun_induction takePlain t generalizing body rest with
  | case1 c cs ih =>
      obtain ⟨⟨b, _⟩, hb, ⟨⟩⟩ := Option.map_eq_some_iff.mp h
      simp [ih hb]
  | case3 cs => simp_all; simp [← h.1]
  | case5 c cs _ _ _ _ ih =>
      obtain ⟨⟨b, _⟩, hb, ⟨⟩⟩ := Option.map_eq_some_iff.mp h
      simp [ih hb]
  | _ => simp at h

/-- A literal and what follows it are the text, and the literal is not empty. -/
theorem takeLiteral_append {t literal rest : Text} (h : takeLiteral t = some (literal, rest)) :
    t = literal ++ rest ∧ literal ≠ [] := by
  fun_cases takeLiteral t with
  | case1 cs =>
      obtain ⟨⟨b, _⟩, hb, ⟨⟩⟩ := Option.map_eq_some_iff.mp h
      simp [takeBlock_append hb]
  | case2 c cs hc =>
      rw [takeLiteral] at h
      · obtain ⟨⟨b, _⟩, hb, ⟨⟩⟩ := Option.map_eq_some_iff.mp h
        simp [takePlain_append hb]
      · exact hc
  | case3 => simp [takeLiteral] at h

theorem takeLiteral_length {t literal rest : Text} (h : takeLiteral t = some (literal, rest)) :
    rest.length < t.length := by
  obtain ⟨rfl, hne⟩ := takeLiteral_append h
  have := List.length_pos_iff.mpr hne
  simp only [List.length_append]
  omega

end Text

/-- The refusal of a text that starts with a literal without end: the first twenty characters are
shown. -/
def unclosedLiteral (t : Text) : SchemaError :=
  if t.startsBlock then .unclosedBlockString (t.take 20) else .unclosedString (t.take 20)

theorem category_unclosedLiteral (t : Text) : (unclosedLiteral t).category = .malformed := by
  unfold unclosedLiteral
  split
  · rfl
  · rfl

/-- A stretch of a text. -/
inductive Lexeme where
  | char (c : Char)
  | literal (text : Text)
  /-- A comment, from its `#` up to the end of the line. -/
  | comment (text : Text)
  /-- A quote that opens no closed literal, with all that follows. -/
  | unclosed (text : Text)
  deriving DecidableEq

def Lexeme.text : Lexeme → Text
  | .char c => [c]
  | .literal t | .comment t | .unclosed t => t

def raw (ls : List Lexeme) : Text :=
  ls.flatMap Lexeme.text

/-- The lexemes of a text.  Comments are lexemes of their own only where `comments` says so;
elsewhere a `#` is a character like any other. -/
def lex (comments : Bool) : Text → List Lexeme
  | [] => []
  | c :: cs =>
      if c == '"' then
        match _h : Text.takeLiteral (c :: cs) with
        | some (literal, rest) => .literal literal :: lex comments rest
        | none => [.unclosed (c :: cs)]
      else if comments && c == '#' then
        .comment (c :: cs.takeWhile (· != '\n')) :: lex comments (cs.dropWhile (· != '\n'))
      else .char c :: lex comments cs
termination_by t => t.length
decreasing_by
  · exact Text.takeLiteral_length _h
  · have := (cs.dropWhile_sublist (· != '\n')).length_le
    simp only [List.length_cons]
    omega
  · simp

@[simp] theorem raw_nil : raw [] = [] := rfl

@[simp] theorem raw_cons (l : Lexeme) (ls : List Lexeme) : raw (l :: ls) = l.text ++ raw ls := rfl

theorem raw_char (c : Char) (ls : List Lexeme) : raw (.char c :: ls) = c :: raw ls := rfl

@[simp] theorem raw_append (ls ms : List Lexeme) : raw (ls ++ ms) = raw ls ++ raw ms := by
  simp [raw]

/-- No character of a text is lost or invented by reading its lexemes. -/
@[simp] theorem raw_lex (comments : Bool) (t : Text) : raw (lex comments t) = t := by
  fun_induction lex comments t with
  | case1 => rfl
  | case2 c cs hc literal rest h ih => simp [Lexeme.text, ih, ← (Text.takeLiteral_append h).1]
  | case3 c cs hc h => simp [Lexeme.text]
  | case4 c cs hc hh ih => simp [Lexeme.text, ih]
  | case5 c cs hc hh ih => simp [Lexeme.text, ih]

end Schemata
