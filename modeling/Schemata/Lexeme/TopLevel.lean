import Schemata.Lexeme.Basic

/-!
# Top-level scanning

A character stands at the *top level* of a text if it lies outside string literals and outside the
brackets `(…)`, `[…]`, `{…}` and `<…>`.  The kinds of brackets are not told apart, and a closing
bracket without an opening one counts for nothing.
-/

namespace Schemata

def isOpener (c : Char) : Bool :=
  c == '(' || c == '[' || c == '{' || c == '<'

def isCloser (c : Char) : Bool :=
  c == ')' || c == ']' || c == '}' || c == '>'

/-- The number of open brackets after a character; it does not fall below zero. -/
def depthAfter (depth : Nat) (c : Char) : Nat :=
  if isOpener c then depth + 1 else if isCloser c then depth - 1 else depth

/-- Put a text in front of the first part of a cut. -/
def prepend (t : Text) : Option (Text × Text) → Option (Text × Text) :=
  Option.map fun (before, rest) => (t ++ before, rest)

def prependHead (t : Text) : List Text → List Text
  | [] => [t]
  | piece :: pieces => (t ++ piece) :: pieces

namespace Lexeme

/-- Lexemes cut before the first character satisfying `target` at bracket depth zero. -/
def cutAt (target : Char → Bool) (depth : Nat) : List Lexeme →
    Except SchemaError (Option (Text × Text))
  | [] => .ok none
  | .unclosed t :: _ => .error (unclosedLiteral t)
  | .char c :: ls =>
      if depth == 0 && target c then .ok (some ([], c :: raw ls))
      else prepend [c] <$> cutAt target (depthAfter depth c) ls
  | .literal t :: ls | .comment t :: ls => prepend t <$> cutAt target depth ls

/-- Lexemes split at the characters satisfying `separator` at bracket depth zero. -/
def splitAt (separator : Char → Bool) (depth : Nat) : List Lexeme → Except SchemaError (List Text)
  | [] => .ok [[]]
  | .unclosed t :: _ => .error (unclosedLiteral t)
  | .char c :: ls =>
      if depth == 0 && separator c then ([] :: ·) <$> splitAt separator 0 ls
      else prependHead [c] <$> splitAt separator (depthAfter depth c) ls
  | .literal t :: ls | .comment t :: ls => prependHead t <$> splitAt separator depth ls

/-- Lexemes cut after the first `closer` that brings the count of open brackets back to zero.  Only
the two given characters count, and the count starts at `depth`. -/
def takeBalanced (opener closer : Char) (depth : Int) : List Lexeme →
    Except SchemaError (Option (Text × Text))
  | [] => .ok none
  | .unclosed t :: _ => .error (unclosedLiteral t)
  | .char c :: ls =>
      if c == opener then prepend [c] <$> takeBalanced opener closer (depth + 1) ls
      else if c == closer then
        if depth == 1 then .ok (some ([c], raw ls))
        else prepend [c] <$> takeBalanced opener closer (depth - 1) ls
      else prepend [c] <$> takeBalanced opener closer depth ls
  | .literal t :: ls | .comment t :: ls => prepend t <$> takeBalanced opener closer depth ls

/-- Lexemes written with single spaces for white space between them; `started` says whether anything
has been written yet, `spaced` whether white space has been passed since. -/
def collapse (started spaced : Bool) : List Lexeme → Except SchemaError Text
  | [] => .ok []
  | .unclosed t :: _ => .error (unclosedLiteral t)
  | .char c :: ls =>
      if isBlank c then collapse started true ls
      else (fun out => (if started && spaced then [' ', c] else [c]) ++ out) <$>
        collapse true false ls
  | .literal t :: ls | .comment t :: ls =>
      (fun out => (if started && spaced then ' ' :: t else t) ++ out) <$> collapse true false ls

/-- The text of lexemes without their comments. -/
def stripComments : List Lexeme → Except SchemaError Text
  | [] => .ok []
  | .unclosed t :: _ => .error (unclosedLiteral t)
  | .comment _ :: ls => stripComments ls
  | .char c :: ls => (c :: ·) <$> stripComments ls
  | .literal t :: ls => (t ++ ·) <$> stripComments ls

end Lexeme

/-- The part of a text before the first top-level character satisfying `target`, and the part from
that character on. -/
def cutAt (target : Char → Bool) (t : Text) : Except SchemaError (Option (Text × Text)) :=
  Lexeme.cutAt target 0 (lex false t)

/-- The pieces of a text between its top-level characters satisfying `separator`, trimmed. -/
def splitAt (separator : Char → Bool) (t : Text) : Except SchemaError (List Text) :=
  List.map Text.trim <$> Lexeme.splitAt separator 0 (lex false t)

/-- The part of a text up to the `closer` that matches the first `opener`, and what follows. -/
def takeBalanced (opener closer : Char) (t : Text) : Except SchemaError (Option (Text × Text)) :=
  Lexeme.takeBalanced opener closer 0 (lex false t)

/-- The text with every run of white space outside literals made one space, and none at the ends. -/
def collapse (t : Text) : Except SchemaError Text :=
  Lexeme.collapse false false (lex false t)

/-- The text without the comments outside its literals. -/
def stripComments (t : Text) : Except SchemaError Text :=
  Lexeme.stripComments (lex true t)

/-! ### What a reader gives -/

/-- The reader gives a result that satisfies `p`, or refuses the text as malformed. -/
def Yields {α : Type} (p : α → Prop) : Except SchemaError α → Prop
  | .ok a => p a
  | .error e => e.category = .malformed

namespace Yields

variable {α β : Type} {p q : α → Prop} {x : Except SchemaError α}

theorem of_eq_ok (h : Yields p x) {a : α} (hx : x = .ok a) : p a := by
  rwa [hx] at h

theorem of_eq_error (h : Yields p x) {e : SchemaError} (hx : x = .error e) :
    e.category = .malformed := by
  rwa [hx] at h

theorem imp (h : Yields p x) (hpq : ∀ a, p a → q a) : Yields q x := by
  cases x with
  | error e => exact h
  | ok a => exact hpq a h

theorem bind {r : β → Prop} {f : α → Except SchemaError β} (h : Yields p x)
    (hf : ∀ a, p a → Yields r (f a)) : Yields r (x >>= f) := by
  cases x with
  | error e => exact h
  | ok a => exact hf a h

theorem map {r : β → Prop} (f : α → β) (h : Yields p x) (hf : ∀ a, p a → r (f a)) :
    Yields r (f <$> x) := by
  cases x with
  | error e => exact h
  | ok a => exact hf a h

end Yields

/-! ### The parts of a cut -/

theorem prepend_eq_some {t before rest : Text} {o : Option (Text × Text)}
    (h : prepend t o = some (before, rest)) : ∃ b, o = some (b, rest) ∧ before = t ++ b := by
  obtain ⟨⟨b, r⟩, rfl, hb⟩ := Option.map_eq_some_iff.mp h
  obtain ⟨rfl, rfl⟩ := Prod.mk.inj hb
  exact ⟨b, rfl, rfl⟩

theorem prepend_eq_ok {ε : Type} {t before rest : Text} {x : Except ε (Option (Text × Text))}
    (h : prepend t <$> x = .ok (some (before, rest))) :
    ∃ b, x = .ok (some (b, rest)) ∧ before = t ++ b := by
  obtain ⟨o, ho, hp⟩ := map_eq_ok h
  obtain ⟨b, rfl, hb⟩ := prepend_eq_some hp
  exact ⟨b, ho, hb⟩

theorem Lexeme.yields_cutAt (target : Char → Bool) (depth : Nat) (ls : List Lexeme) :
    Yields (fun o => ∀ before rest, o = some (before, rest) → raw ls = before ++ rest ∧ rest ≠ [])
      (Lexeme.cutAt target depth ls) := by
  fun_induction Lexeme.cutAt target depth ls with
  | case1 => simp [Yields]
  | case2 => exact category_unclosedLiteral _
  | case3 depth c ls hc => simp [Yields, Lexeme.text]
  | case4 depth c ls hc ih | case5 depth t ls ih | case6 depth t ls ih =>
      refine ih.map _ fun o ho before rest hp => ?_
      obtain ⟨b, rfl, rfl⟩ := prepend_eq_some hp
      simp [Lexeme.text, ho b rest rfl]

/-- The two parts of a cut are the text. -/
theorem cutAt_append {target : Char → Bool} {t before rest : Text}
    (h : cutAt target t = .ok (some (before, rest))) : t = before ++ rest ∧ rest ≠ [] := by
  simpa using (Lexeme.yields_cutAt target 0 _).of_eq_ok h before rest rfl

theorem Lexeme.yields_takeBalanced (opener closer : Char) (depth : Int) (ls : List Lexeme) :
    Yields (fun o => ∀ inside rest, o = some (inside, rest) → raw ls = inside ++ rest ∧ inside ≠ [])
      (Lexeme.takeBalanced opener closer depth ls) := by
  fun_induction Lexeme.takeBalanced opener closer depth ls with
  | case1 => simp [Yields]
  | case2 => exact category_unclosedLiteral _
  | case4 c ls hc hd => simp [Yields, Lexeme.text]
  | case3 depth c ls hc ih | case5 depth c ls hc hcl hd ih | case6 depth c ls hc hcl ih
  | case7 depth t ls ih | case8 depth t ls ih =>
      refine ih.map _ fun o ho inside rest hp => ?_
      obtain ⟨b, rfl, rfl⟩ := prepend_eq_some hp
      simp [Lexeme.text, ho b rest rfl]

/-- A bracketed text and what follows it are the text. -/
theorem takeBalanced_append {opener closer : Char} {t inside rest : Text}
    (h : takeBalanced opener closer t = .ok (some (inside, rest))) :
    t = inside ++ rest ∧ inside ≠ [] := by
  simpa using (Lexeme.yields_takeBalanced opener closer 0 _).of_eq_ok h inside rest rfl

end Schemata
