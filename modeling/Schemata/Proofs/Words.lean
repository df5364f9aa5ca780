import Schemata.Proofs.Legible

/-!
# Words of a line

A line of a declaration is made of words with single spaces between them: the name with its
arguments, the type, the sign before a default value, the value, each directive.  A word has no
white space and no comma outside of brackets and literals, so that neither a line nor the text
around it can be cut inside of one.

## Main definitions

* `IsLine`, `spread` — words with single spaces between them.

## Main results

* `isWord_of_isName`, `Text.IsType.isWord`, `Text.IsValue.isWord`, `Text.IsDirectives.words` — the
  parts of a declaration are words.
* `lex_spread_append` — the lexemes of words with spaces between them.
-/

namespace Schemata

open List

variable {rest t w : Text}

/-! ### Names -/

theorem isOpener_of_isNameChar {c : Char} (h : isNameChar c) : isOpener c = false := by
  rw [Bool.eq_false_iff]
  intro ho
  rcases isOpener_iff.mp ho with rfl | rfl | rfl | rfl <;> exact absurd h (by decide)

theorem isCloser_of_isNameChar {c : Char} (h : isNameChar c) : isCloser c = false := by
  rw [Bool.eq_false_iff]
  intro ho
  rcases isCloser_iff.mp ho with rfl | rfl | rfl | rfl <;> exact absurd h (by decide)

theorem isName_iff : t.isName ↔ ∃ c cs, t = c :: cs ∧ isNameStart c ∧ ∀ d ∈ cs, isNameChar d := by
  cases t with
  | nil => simp [Text.isName]
  | cons c cs => simp [Text.isName]

theorem isNameChar_of_isName (h : t.isName) : ∀ c ∈ t, isNameChar c := by
  obtain ⟨c, cs, rfl, hc, hcs⟩ := isName_iff.mp h
  exact forall_mem_cons.mpr ⟨isNameChar_of_isNameStart hc, hcs⟩

theorem takeName_append_of_isName (h : t.isName) (hrest : rest.startsWith isNameChar = false) :
    Text.takeName (t ++ rest) = some (t, rest) := by
  obtain ⟨c, cs, rfl, hc, hcs⟩ := isName_iff.mp h
  have hstop : rest.takeWhile isNameChar = [] ∧ rest.dropWhile isNameChar = rest := by
    cases rest with
    | nil => exact ⟨rfl, rfl⟩
    | cons d rest =>
      have hd : isNameChar d = false := by simpa [Text.startsWith] using hrest
      simp [hd]
  rw [cons_append, Text.takeName, if_pos hc, takeWhile_append_of_pos hcs,
    dropWhile_append_of_pos hcs, hstop.1, hstop.2, append_nil]

theorem lex_name (h : ∀ c ∈ t, isNameChar c) : lex false t = t.map .char :=
  lex_of_not_quote fun hq => absurd (h _ hq) (by decide)

/-! ### Words -/

/-- The characters of a word outside of brackets and literals. -/
def isItemChar (c : Char) : Bool :=
  !isBlank c && c != ','

/-- A text without white space and commas outside of brackets and literals. -/
structure IsWord (w : Text) : Prop where
  nested : Nested isItemChar [] (lex false w)
  spaced : Spaced false (lex false w)

theorem IsWord.closed (h : IsWord w) : Closed w :=
  h.nested.isQuiet

theorem isItemChar_of_isNameChar {c : Char} (h : isNameChar c) : isItemChar c := by
  simp [isItemChar, not_isBlank_of_isNameChar h, ne_of_class h (d := ',') (by decide)]

theorem nested_name {top : Char → Bool} (h : ∀ c ∈ t, isNameChar c)
    (htop : ∀ c, isNameChar c → top c) : Nested top [] (t.map .char) :=
  Nested.ofChars fun c hc => ⟨isOpener_of_isNameChar (h c hc), isCloser_of_isNameChar (h c hc),
    ne_of_class (h c hc) (by decide), htop c (h c hc)⟩

theorem spaced_name (h : ∀ c ∈ t, isNameChar c) : Spaced true (t.map .char) :=
  Spaced.ofChars fun c hc => not_isBlank_of_isNameChar (h c hc)

/-- Characters that are neither white space nor brackets, quotes, commas or comment marks are a
word. -/
theorem isWord_ofChars (hne : t ≠ [])
    (h : ∀ c ∈ t, isOpener c = false ∧ isCloser c = false ∧ c ≠ '#' ∧ c ≠ '"' ∧ isItemChar c) :
    IsWord t := by
  have hlex : lex false t = t.map .char := lex_of_not_quote fun hq => (h _ hq).2.2.2.1 rfl
  have hblank : ∀ c ∈ t, isBlank c = false := by
    intro c hc
    have := (h c hc).2.2.2.2
    simp only [isItemChar, Bool.and_eq_true, Bool.not_eq_true'] at this
    exact this.1
  constructor
  · rw [hlex]
    exact Nested.ofChars fun c hc => ⟨(h c hc).1, (h c hc).2.1, (h c hc).2.2.1, (h c hc).2.2.2.2⟩
  · rw [hlex]
    cases t with
    | nil => exact absurd rfl hne
    | cons c t =>
      obtain ⟨hc, ht⟩ := forall_mem_cons.mp hblank
      exact .char hc (Spaced.ofChars ht)

theorem plain_of_isName (h : t.isName) : ∀ c ∈ t, c ≠ '"' ∧ c ≠ '#' := fun c hc =>
  ⟨ne_of_class (isNameChar_of_isName h c hc) rfl, ne_of_class (isNameChar_of_isName h c hc) rfl⟩

theorem name_facts {c : Char} (h : isNameChar c) :
    isOpener c = false ∧ isCloser c = false ∧ c ≠ '#' ∧ c ≠ '"' ∧ isItemChar c :=
  ⟨isOpener_of_isNameChar h, isCloser_of_isNameChar h, ne_of_class h (by decide),
    ne_of_class h (by decide), isItemChar_of_isNameChar h⟩

theorem isName_ne_nil (h : t.isName) : t ≠ [] := by
  rintro rfl
  cases h

theorem isWord_of_isName (h : t.isName) : IsWord t :=
  isWord_ofChars (isName_ne_nil h) fun c hc => name_facts (isNameChar_of_isName h c hc)

theorem IsWord.colon (h : IsWord w) : IsWord (w ++ [':']) := by
  have hlex : lex false (w ++ [':']) = lex false w ++ [.char ':'] := by
    rw [lex_append h.closed rfl, lex_cons_of_ne_quote (by decide), lex_nil]
  constructor
  · rw [hlex]
    exact h.nested.append (.char rfl rfl (by decide) (fun _ => rfl) .nil)
  · rw [hlex]
    exact h.spaced.append (.char rfl .nil)

theorem Text.IsType.isWord (h : t.IsType) : IsWord t := by
  refine ⟨h.nested.mono ?_, h.spaced⟩
  intro c hc
  simp only [isTypeChar, Bool.or_eq_true, beq_iff_eq] at hc
  rcases hc with (hc | rfl) | rfl
  · exact isItemChar_of_isNameChar hc
  · decide
  · decide

theorem Text.IsValue.isWord (h : t.IsValue) : IsWord t := by
  refine ⟨h.nested.mono ?_, h.spaced⟩
  intro c hc
  simp only [isValueChar, Bool.and_eq_true, Bool.not_eq_true', Bool.or_eq_false_iff] at hc
  simp [isItemChar, hc.1, bne, hc.2.1.1.1.1]

/-! ### Directives -/

/-- The characters of directives outside of parentheses. -/
def isDirectiveChar (c : Char) : Bool :=
  isNameChar c || c == '@' || c == '('

theorem DirectiveUse.Legible.lex {u : DirectiveUse} (h : u.Legible) :
    lex false u.text = .char '@' :: (u.name.map .char ++ match u.arguments with
      | none => []
      | some t => .char '(' :: (Schemata.lex false t ++ [.char ')'])) := by
  have hname := isNameChar_of_isName h.name
  have hchars := plain_of_isName h.name
  unfold DirectiveUse.text
  cases ha : u.arguments with
  | none =>
    simp only
    rw [lex_cons_of_ne_quote (by decide), lex_name hname, append_nil]
  | some t =>
    simp only
    rw [lex_cons_of_ne_quote (by decide), lex_append_chars hchars, lex_cons_of_ne_quote (by decide),
      lex_append (h.nested t ha).isQuiet rfl, lex_cons_of_ne_quote (by decide), lex_nil]

theorem DirectiveUse.Legible.nested_text {u : DirectiveUse} (h : u.Legible) :
    Nested isDirectiveChar [] (Schemata.lex false u.text) := by
  have hname := isNameChar_of_isName h.name
  have hn : Nested isDirectiveChar [] (u.name.map .char) :=
    nested_name hname fun c hc => by simp [isDirectiveChar, hc]
  rw [h.lex]
  refine .char rfl rfl (by decide) (fun _ => rfl) ?_
  cases ha : u.arguments with
  | none => simpa using hn
  | some t => exact hn.append ((h.nested t ha).bracketed (c := '(') rfl rfl .nil)

theorem DirectiveUse.Legible.isWord {u : DirectiveUse} (h : u.Legible) : IsWord u.text := by
  have hname := isNameChar_of_isName h.name
  refine ⟨h.nested_text.mono ?_, ?_⟩
  · intro c hc
    simp only [isDirectiveChar, Bool.or_eq_true, beq_iff_eq] at hc
    rcases hc with (hc | rfl) | rfl
    · exact isItemChar_of_isNameChar hc
    · decide
    · decide
  · rw [h.lex]
    refine .char rfl ?_
    cases ha : u.arguments with
    | none => simpa using spaced_name hname
    | some t => exact (spaced_name hname).append (.char rfl (h.spaced t ha))

theorem DirectiveUse.text_eq_cons (u : DirectiveUse) : ∃ t, u.text = '@' :: t := by
  unfold DirectiveUse.text
  cases u.arguments with
  | none => exact ⟨_, rfl⟩
  | some t => exact ⟨_, rfl⟩

/-! ### No white space at the ends -/

theorem takePlain_getLast {body : Text} (h : Text.takePlain t = some (body, rest)) :
    body.getLast? = some '"' := by
  fun_induction Text.takePlain t generalizing body rest with
  | case1 c cs ih =>
    obtain ⟨⟨b, _⟩, hb, ⟨⟩⟩ := Option.map_eq_some_iff.mp h
    simp [getLast?_cons, ih hb]
  | case3 cs =>
    simp only [Option.some.injEq, Prod.mk.injEq] at h
    obtain ⟨rfl, rfl⟩ := h
    rfl
  | case5 c cs _ _ _ _ ih =>
    obtain ⟨⟨b, _⟩, hb, ⟨⟩⟩ := Option.map_eq_some_iff.mp h
    simp [getLast?_cons, ih hb]
  | _ => cases h

theorem takeLiteral_getLast {literal : Text} (h : Text.takeLiteral t = some (literal, rest)) :
    literal.getLast? = some '"' := by
  fun_cases Text.takeLiteral t with
  | case1 cs =>
    obtain ⟨⟨b, _⟩, hb, ⟨⟩⟩ := Option.map_eq_some_iff.mp h
    obtain ⟨b, rfl⟩ := Text.takeBlock_eq_append hb
    simp [getLast?_cons]
  | case2 c cs hc =>
    rw [Text.takeLiteral] at h
    · obtain ⟨⟨b, _⟩, hb, ⟨⟩⟩ := Option.map_eq_some_iff.mp h
      simp [getLast?_cons, takePlain_getLast hb]
    · exact hc
  | case3 => cases h

theorem getLast_of_lex {p : List Lexeme → Prop} {q : Char → Prop} (hopen : ∀ s, ¬ p [.unclosed s])
    (hlast : ∀ c, p [.char c] → q c) (hquote : q '"') (hstep : ∀ l ls, p (l :: ls) → p ls)
    (h : p (lex false t)) (hne : t ≠ []) : ∃ c, t.getLast? = some c ∧ q c := by
  induction t using lex_induction false with
  | nil => exact absurd rfl hne
  | char c u _ _ step ih =>
    rw [step] at h
    rcases eq_or_ne u [] with rfl | hu
    · rw [lex_nil] at h
      exact ⟨c, rfl, hlast c h⟩
    · obtain ⟨e, he, hq⟩ := ih (hstep _ _ h) hu
      exact ⟨e, by rw [getLast?_cons, he]; rfl, hq⟩
  | literal s u taken now _ ih =>
    rw [now] at h
    rcases eq_or_ne u [] with rfl | hu
    · rw [append_nil]
      exact ⟨'"', takeLiteral_getLast taken, hquote⟩
    · obtain ⟨e, he, hq⟩ := ih (hstep _ _ h) hu
      exact ⟨e, by rw [← cons_append, getLast?_append, he]; rfl, hq⟩
  | comment s u hcomments _ _ _ _ _ => cases hcomments
  | unclosed u now =>
    rw [now] at h
    exact absurd h (hopen _)

theorem Spaced.getLast {before : Bool} (h : Spaced before (lex false t)) (hne : t ≠ []) :
    ∃ c, t.getLast? = some c ∧ isBlank c = false := by
  refine @getLast_of_lex t (fun ls => ∃ b, Spaced b ls) _ ?_ ?_ rfl ?_ ⟨before, h⟩ hne
  · rintro s ⟨b, ⟨⟩⟩
  · rintro c ⟨b, hc⟩
    cases hc with
    | space hrest => cases hrest
    | char blank _ => exact blank
  · rintro l ls ⟨b, hl⟩
    cases hl with
    | space hrest | char _ hrest | literal _ hrest => exact ⟨_, hrest⟩

/-- A nested text ends with a character that may stand outside of brackets, a closing bracket or a
quote. -/
theorem Nested.getLast {top : Char → Bool} {pending : List Char}
    (h : Nested top pending (lex false t)) (hne : t ≠ []) :
    ∃ c, t.getLast? = some c ∧ (top c ∨ isCloser c ∨ c = '"') := by
  refine @getLast_of_lex t (fun ls => ∃ p,
    Nested top p ls) _ ?_ ?_ (.inr (.inr rfl)) ?_ ⟨pending, h⟩ hne
  · rintro s ⟨p, ⟨⟩⟩
  · rintro c ⟨p, hc⟩
    cases hc with
    | opening _ _ hrest => cases hrest
    | closing bracket _ => exact .inr (.inl bracket)
    | char _ _ _ outside hrest =>
      cases hrest
      exact .inl (outside rfl)
  · rintro l ls ⟨p, hl⟩
    cases hl with
    | opening _ _ hrest | closing _ hrest | char _ _ _ _ hrest | literal _ hrest => exact ⟨_, hrest⟩

theorem Spaced.head (h : Spaced false (lex false t)) : ∃ c cs, t = c :: cs ∧ isBlank c = false := by
  cases t with
  | nil =>
    rw [lex_nil] at h
    cases h
  | cons c cs =>
    refine ⟨c, cs, rfl, ?_⟩
    by_cases hc : c = '"'
    · rw [hc]
      rfl
    · rw [lex_cons_of_ne_quote hc] at h
      cases h with
      | char blank _ => exact blank

theorem Spaced.trim_eq (h : Spaced false (lex false t)) : t.trim = t := by
  obtain ⟨c, cs, rfl, hc⟩ := h.head
  obtain ⟨e, he, hblank⟩ := h.getLast (cons_ne_nil _ _)
  obtain ⟨s, hs⟩ := getLast?_eq_some_iff.mp he
  rw [Text.trim, trimStart_cons hc, hs, trimEnd_append_singleton hblank]

/-! ### Lines -/

/-- The characters of a line outside of brackets and literals. -/
def isLineChar (c : Char) : Bool :=
  isItemChar c || c == ' '

/-- A row of words with single spaces between them. -/
structure IsLine (t : Text) : Prop where
  nested : Nested isLineChar [] (lex false t)
  spaced : Spaced false (lex false t)

theorem IsLine.closed (h : IsLine t) : Closed t :=
  h.nested.isQuiet

theorem IsWord.isLine (h : IsWord w) : IsLine w :=
  ⟨h.nested.mono fun c hc => by simp [isLineChar, hc], h.spaced⟩

theorem IsLine.snoc (h : IsLine t) (hw : IsWord w) : IsLine (t ++ ' ' :: w) := by
  constructor
  · rw [lex_append h.closed rfl, lex_cons_of_ne_quote (by decide)]
    exact h.nested.append (.char rfl rfl (by decide) (fun _ => rfl) hw.isLine.nested)
  · rw [lex_append h.closed rfl, lex_cons_of_ne_quote (by decide)]
    exact h.spaced.append (.space hw.spaced)

def spread (ws : List Text) : Text :=
  ws.flatMap fun w => ' ' :: w

@[simp] theorem spread_nil : spread [] = [] := rfl

@[simp] theorem spread_cons (w : Text) (ws : List Text) :
    spread (w :: ws) = ' ' :: (w ++ spread ws) :=
  rfl

@[simp] theorem spread_append (ws vs : List Text) : spread (ws ++ vs) = spread ws ++ spread vs :=
  flatMap_append

theorem startsWith_spread (ws : List Text) {p : Char → Bool} (hp : p ' ' = false) {u : Text}
    (hu : u.startsWith p = false) : Text.startsWith p (spread ws ++ u) = false := by
  cases ws with
  | nil => exact hu
  | cons w ws => simpa [Text.startsWith] using hp

theorem IsLine.append_spread {ws : List Text} (h : IsLine t) (hws : ∀ w ∈ ws, IsWord w) :
    IsLine (t ++ spread ws) := by
  induction ws generalizing t with
  | nil => rwa [spread_nil, append_nil]
  | cons w ws ih =>
    obtain ⟨hw, hws⟩ := forall_mem_cons.mp hws
    rw [spread_cons, ← cons_append, ← append_assoc]
    exact ih (h.snoc hw) hws

/-- The lexemes of words, each after a space. -/
def lexSpread (ws : List Text) : List Lexeme :=
  ws.flatMap fun w => .char ' ' :: lex false w

@[simp] theorem lexSpread_nil : lexSpread [] = [] := rfl

@[simp] theorem lexSpread_cons (w : Text) (ws : List Text) :
    lexSpread (w :: ws) = .char ' ' :: (lex false w ++ lexSpread ws) :=
  rfl

theorem lex_spread_append {ws : List Text} (h : ∀ w ∈ ws, IsWord w) {u : Text}
    (hu : u.startsWith (· == '"') = false) (comments : Bool) :
    lex comments (spread ws ++ u) = lexSpread ws ++ lex comments u := by
  induction ws with
  | nil => rfl
  | cons w ws ih =>
    obtain ⟨hw, hws⟩ := forall_mem_cons.mp h
    rw [spread_cons, cons_append, append_assoc, lex_cons (by decide) (by decide),
      lex_append hw.closed (startsWith_spread ws rfl hu), ih hws, lexSpread_cons, cons_append,
      append_assoc]

theorem joinWith_space_cons (w : Text) (ws : List Text) :
    Text.joinWith [' '] (w :: ws) = w ++ spread ws := by
  induction ws generalizing w with
  | nil => rw [joinWith_singleton, spread_nil, append_nil]
  | cons v ws ih => rw [joinWith_cons_cons, ih, spread_cons, append_assoc, singleton_append]

/-- **Directives are words**, each of which starts with its mark. -/
theorem Text.IsDirectives.words (h : t.IsDirectives) :
    ∃ ws : List Text, ws ≠ [] ∧ ' ' :: t = spread ws ∧
      ∀ w ∈ ws, IsWord w ∧ Nested isDirectiveChar [] (lex false w) ∧ ∃ s, w = '@' :: s := by
  obtain ⟨us, hne, rfl, hus⟩ := h
  refine ⟨us.map DirectiveUse.text, by simpa using hne, ?_, ?_⟩
  · cases us with
    | nil => exact absurd rfl hne
    | cons u us => rw [map_cons, joinWith_space_cons, spread_cons]
  · intro w hw
    obtain ⟨u, hu, rfl⟩ := mem_map.mp hw
    exact ⟨(hus u hu).isWord, (hus u hu).nested_text, u.text_eq_cons⟩

theorem Text.IsDirectives.isLine (h : t.IsDirectives) : IsLine t := by
  obtain ⟨us, hne, rfl, hus⟩ := h
  cases us with
  | nil => exact absurd rfl hne
  | cons u us =>
    obtain ⟨hu, hus⟩ := forall_mem_cons.mp hus
    rw [map_cons, joinWith_space_cons]
    refine hu.isWord.isLine.append_spread ?_
    intro w hw
    obtain ⟨v, hv, rfl⟩ := mem_map.mp hw
    exact (hus v hv).isWord

theorem Text.IsDirectives.eq_cons (h : t.IsDirectives) : ∃ s, t = '@' :: s := by
  obtain ⟨us, hne, rfl, hus⟩ := h
  cases us with
  | nil => exact absurd rfl hne
  | cons u us =>
    obtain ⟨s, hs⟩ := u.text_eq_cons
    rw [map_cons, joinWith_space_cons, hs]
    exact ⟨s ++ spread (us.map DirectiveUse.text), rfl⟩

end Schemata
