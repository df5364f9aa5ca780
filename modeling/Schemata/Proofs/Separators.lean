import Schemata.Proofs.Bodies

/-!
# What separates fields

The fields of a body may be separated by line breaks, by commas or by spaces, with any white space
around them; which of these is chosen between two fields makes no difference.  A line break or a
comma ends the item before it in any case.  White space ends it if it is complete and a field
follows, and if a comma is still to come, then the comma ends it.  The values of an enum are ended
by any white space.

## Main definitions

* `IsSeparator`, `interleave` — what may stand between two items, and items with separators between
  them.
-/

namespace Schemata

open List
open Text (startsWith endsWith trim)
open Lexeme (dropBlank)

variable {s t : Text}

/-! ### Items in writing -/

/-- A field or an enum value as it is written in a body. -/
structure Item where
  name : Text
  /-- The text between the parentheses after the name, if there are any. -/
  arguments : Option Text := none
  type : Option Text := none
  default : Option Text := none
  directives : List DirectiveUse := []

namespace Item

def call (i : Item) : Text :=
  match i.arguments with
  | none => i.name
  | some t => i.name ++ '(' :: (t ++ [')'])

/-- The words of a default value: its sign and the value. -/
def defaultWords (i : Item) : List Text :=
  match i.default with
  | none => []
  | some v => [['='], v]

def trail (i : Item) : List Text :=
  i.defaultWords ++ i.directives.map DirectiveUse.text

/-- The item with single spaces between its words. -/
def text (i : Item) : Text :=
  match i.type with
  | none => i.call ++ spread i.trail
  | some t => i.call ++ [':'] ++ spread (t :: i.trail)

end Item

/-- The characters of a type, with or without type arguments, outside of brackets. -/
def isGenericTypeChar (c : Char) : Bool :=
  isTypeChar c || c == '<'

/-- The characters of a value literal outside of brackets and string literals. -/
def isLiteralChar (c : Char) : Bool :=
  isValueChar c && c != '|'

/-- All parts of the item are what they are called, and collapsed.  A field has a type, and the
values of an `enum` have nothing but directives. -/
structure Item.Canonical (enum : Bool) (i : Item) : Prop where
  name : i.name.isName = true
  arguments : ∀ t ∈ i.arguments, Nested (fun _ => true) [] (lex false t) ∧
    Spaced true (lex false t ++ [.char ')'])
  type : ∀ t ∈ i.type, Nested isGenericTypeChar [] (lex false t) ∧ Spaced false (lex false t)
  /-- The default value is a literal: a number, a name, a string, or anything in brackets. -/
  default : ∀ t ∈ i.default, Nested isLiteralChar [] (lex false t) ∧ Spaced false (lex false t)
  directives : ∀ u ∈ i.directives, u.Legible
  kind : if enum = true then i.arguments = none ∧ i.type = none ∧
    i.default = none else i.type ≠ none

/-- A line break, a comma or a space, with any white space around it. -/
def IsSeparator (s : Text) : Prop :=
  ∃ before c after, s = before ++ c :: after ∧ (c = '\n' ∨ c = ',' ∨ c = ' ') ∧
    (∀ d ∈ before, isBlank d = true) ∧ ∀ d ∈ after, isBlank d = true

def interleave : List Text → List Text → Text
  | [], _ => []
  | t :: ts, [] => t ++ interleave ts []
  | t :: ts, s :: ss => t ++ (s ++ interleave ts ss)

/-! ### The text of an item -/

section Item

variable {enum : Bool} {i : Item}

theorem Text.endsWith_append (h : t ≠ []) (s : Text) (p : Char → Bool) :
    endsWith p (s ++ t) = t.endsWith p := by
  obtain ⟨c, hc⟩ := Option.ne_none_iff_exists'.mp (mt getLast?_eq_none_iff.mp h)
  rw [endsWith, endsWith, getLast?_append, hc]
  rfl

/-- The signs at the end of an item that announce more. -/
def isAnnouncing (c : Char) : Bool :=
  c == ':' || c == '=' || c == '|'

/-- Nested lexemes end with an announcing sign only if this may stand outside of brackets. -/
theorem Nested.endsWith_isAnnouncing {top : Char → Bool} (h : Nested top [] (lex false t))
    (hne : t ≠ []) (htop : ∀ c, top c → isAnnouncing c = false) :
    t.endsWith isAnnouncing = false := by
  obtain ⟨c, hc, hcase⟩ := h.getLast hne
  rw [Text.endsWith, hc, Option.any_some]
  rcases hcase with hc | hc | rfl
  · exact htop c hc
  · rcases isCloser_iff.mp hc with rfl | rfl | rfl | rfl <;> rfl
  · rfl

namespace Item.Canonical

theorem isWord_call (h : i.Canonical enum) : IsWord i.call := by
  unfold Item.call
  cases ha : i.arguments with
  | none => exact isWord_of_isName h.name
  | some t => exact Schemata.isWord_call h.name (h.arguments t ha).1 (h.arguments t ha).2

theorem isWord_type (h : i.Canonical enum) (ht : i.type = some t) : IsWord t := by
  obtain ⟨hnested, hspaced⟩ := h.type t ht
  refine ⟨hnested.mono fun c hc => ?_, hspaced⟩
  simp only [isGenericTypeChar, isTypeChar, Bool.or_eq_true, beq_iff_eq] at hc
  rcases hc with ((hc | rfl) | rfl) | rfl
  · exact isItemChar_of_isNameChar hc
  · rfl
  · rfl
  · rfl

theorem isValue_default (h : i.Canonical enum) (ht : i.default = some t) : t.IsValue := by
  obtain ⟨hnested, hspaced⟩ := h.default t ht
  refine ⟨hnested.mono fun c hc => ?_, hspaced⟩
  rw [isLiteralChar, Bool.and_eq_true] at hc
  exact hc.1

/-- The words after the type trail; without a default value they do so after a name, too. -/
theorem trails (h : i.Canonical enum) {values : Bool} (hvalues : i.default ≠ none → values) :
    Trails values i.trail := by
  have hdirectives : Trails values (i.directives.map DirectiveUse.text) := by
    have hall := h.directives
    generalize i.directives = us at hall
    induction us with
    | nil => exact .nil
    | cons u us ih =>
      obtain ⟨hu, hus⟩ := forall_mem_cons.mp hall
      exact .directive hu.isWord hu.nested_text u.text_eq_cons (ih hus)
  unfold Item.trail Item.defaultWords
  cases hd : i.default with
  | none => exact hdirectives
  | some v => exact .value (hvalues (by simp [hd])) (h.isValue_default hd) hdirectives

theorem exists_call_eq_cons (h : i.Canonical enum) : ∃ c cs, i.call = c :: cs ∧ isNameStart c := by
  obtain ⟨c, cs, hname, hc, -⟩ := isName_iff.mp h.name
  unfold Item.call
  rw [hname]
  cases i.arguments with
  | none => exact ⟨c, cs, rfl, hc⟩
  | some t => exact ⟨c, _, rfl, hc⟩

theorem exists_row (h : i.Canonical enum) : ∃ head ws, i.text = head ++ spread ws ∧ IsWord head ∧
    head.startsWith (· == '"') = false ∧ (Trails false ws ∨ enum = false ∧
      head.endsWith (· == ':') ∧ ∃ w vs, ws = w :: vs ∧ IsWord w ∧ Trails true vs) := by
  obtain ⟨c, cs, hcall, hc⟩ := h.exists_call_eq_cons
  have hq : ∀ u : Text, startsWith (· == '"') (i.call ++ u) = false := by
    intro u
    simpa [hcall, startsWith] using ne_of_class (isNameChar_of_isNameStart hc) (d := '"') rfl
  have hkind := h.kind
  unfold Item.text
  cases ht : i.type with
  | none =>
    have henum : enum := by
      cases enum with
      | true => rfl
      | false => exact absurd ht (by simpa using hkind)
    rw [if_pos henum] at hkind
    refine ⟨i.call, i.trail, rfl, h.isWord_call, ?_, .inl (h.trails fun hd => absurd hkind.2.2 hd)⟩
    have := hq []
    rwa [append_nil] at this
  | some t =>
    have henum : enum = false := by
      cases enum with
      | true => simp [ht] at hkind
      | false => rfl
    refine ⟨i.call ++ [':'], t :: i.trail, rfl, h.isWord_call.colon, hq _, .inr ⟨henum, ?_,
      t, i.trail, rfl, h.isWord_type ht, h.trails fun _ => rfl⟩⟩
    rw [Text.endsWith_append (cons_ne_nil _ _)]
    rfl

theorem isLine (h : i.Canonical enum) : IsLine i.text := by
  obtain ⟨head, ws, htext, hhead, -, hws⟩ := h.exists_row
  rw [htext]
  refine hhead.isLine.append_spread ?_
  rcases hws with hws | ⟨-, -, w, vs, rfl, hw, hvs⟩
  · exact hws.isWord
  · exact forall_mem_cons.mpr ⟨hw, hvs.isWord⟩

theorem endsWith_text (h : i.Canonical false) : i.text.endsWith isAnnouncing = false := by
  have hdirectives : ∀ (us : List DirectiveUse) (t : Text), (∀ u ∈ us, u.Legible) →
      t.endsWith isAnnouncing = false →
      endsWith isAnnouncing (t ++ spread (us.map DirectiveUse.text)) = false := by
    intro us
    induction us with
    | nil =>
      intro t _ ht
      rwa [map_nil, spread_nil, append_nil]
    | cons u us ih =>
      intro t hus ht
      obtain ⟨hu, hus⟩ := forall_mem_cons.mp hus
      have hend : u.text.endsWith isAnnouncing = false := by
        refine hu.nested_text.endsWith_isAnnouncing hu.isWord.spaced.ne_nil fun c hc => ?_
        simp only [isDirectiveChar, Bool.or_eq_true, beq_iff_eq] at hc
        rcases hc with (hc | rfl) | rfl
        · simp [isAnnouncing, ne_of_class hc (d := ':') rfl, ne_of_class hc (d := '=') rfl,
            ne_of_class hc (d := '|') rfl]
        · rfl
        · rfl
      rw [map_cons, spread_cons, ← cons_append, ← append_assoc]
      refine ih (t ++ ' ' :: u.text) hus ?_
      rw [show ' ' :: u.text = [' '] ++ u.text from rfl, ← append_assoc,
        Text.endsWith_append hu.isWord.spaced.ne_nil]
      exact hend
  obtain ⟨t, ht⟩ := Option.ne_none_iff_exists'.mp (show i.type ≠ none by simpa using h.kind)
  have htype : t.endsWith isAnnouncing = false := by
    refine (h.type t ht).1.endsWith_isAnnouncing (h.isWord_type ht).spaced.ne_nil fun c hc => ?_
    simp only [isGenericTypeChar, isTypeChar, Bool.or_eq_true, beq_iff_eq] at hc
    rcases hc with ((hc | rfl) | rfl) | rfl
    · simp [isAnnouncing, ne_of_class hc (d := ':') rfl, ne_of_class hc (d := '=') rfl,
        ne_of_class hc (d := '|') rfl]
    · rfl
    · rfl
    · rfl
  have hdefault : endsWith isAnnouncing (t ++ spread i.defaultWords) = false := by
    unfold Item.defaultWords
    cases hd : i.default with
    | none => rwa [spread_nil, append_nil]
    | some v =>
      have hv := h.default v hd
      have hsplit : t ++ spread [['='], v] = t ++ [' ', '=', ' '] ++ v := by simp
      rw [hsplit, Text.endsWith_append hv.2.ne_nil]
      refine hv.1.endsWith_isAnnouncing hv.2.ne_nil fun c hc => ?_
      simp only [isLiteralChar, isValueChar, Bool.and_eq_true, Bool.not_eq_true',
        Bool.or_eq_false_iff, bne_iff_ne] at hc
      simp [isAnnouncing, hc]
  have hall := hdirectives i.directives _ h.directives hdefault
  have hsplit : i.text = i.call ++ [':', ' '] ++
      (t ++ spread i.defaultWords ++ spread (i.directives.map DirectiveUse.text)) := by
    simp [Item.text, ht, Item.trail]
  have hne : t ++ spread i.defaultWords ++ spread (i.directives.map DirectiveUse.text) ≠ [] := by
    simp [(h.isWord_type ht).spaced.ne_nil]
  rw [hsplit, Text.endsWith_append hne]
  exact hall

theorem isCompleteField_text (h : i.Canonical false) : isCompleteField i.text = .ok true := by
  obtain ⟨t, ht⟩ := Option.ne_none_iff_exists'.mp (show i.type ≠ none by simpa using h.kind)
  have hsplit : i.text = i.call ++ ':' :: spread (t :: i.trail) := by
    simp [Item.text, ht]
  have hnested : Nested (· != ':') [] (lex false i.call) := by
    have hname : ∀ c, isNameChar c → (c != ':') := fun _ hc => bne_of_class hc rfl
    unfold Item.call
    cases ha : i.arguments with
    | none =>
      simp only
      rw [lex_name (isNameChar_of_isName h.name)]
      exact nested_name (isNameChar_of_isName h.name) hname
    | some inner => exact nested_call h.name (h.arguments inner ha).1 hname rfl
  have hcut : cutAt (· == ':') i.text = .ok (some (i.call, ':' :: spread (t :: i.trail))) := by
    rw [hsplit]
    exact cutAt_eq_some hnested (fun c hc => by simpa using hc) rfl (by decide) _
  have hbegun : (trim (spread (t :: i.trail))).isEmpty = false :=
    isEmpty_trim_append (h.isWord_type ht).spaced [' '] (spread i.trail)
  have hend := h.endsWith_text
  unfold isAnnouncing at hend
  rw [isCompleteField, h.isLine.spaced.trim_eq]
  simp only [hcut, bind, Except.bind, tail_cons, hbegun, hend]
  rfl

/-- An item is its name and what follows, which is a colon or a parenthesis if there is a type. -/
theorem exists_text_eq (i : Item) : ∃ u, i.text = i.name ++ u ∧
    (i.type ≠ none → ∃ d v, (d = ':' ∨ d = '(') ∧ u = d :: v) := by
  unfold Item.text Item.call
  cases i.arguments with
  | none =>
    cases i.type with
    | none => exact ⟨_, rfl, fun h => absurd rfl h⟩
    | some t => exact ⟨_, append_assoc _ _ _, fun _ => ⟨':', _, .inl rfl, rfl⟩⟩
  | some inner =>
    cases i.type with
    | none => exact ⟨_, append_assoc _ _ _, fun h => absurd rfl h⟩
    | some t =>
      exact ⟨_, (append_assoc _ _ _).trans (append_assoc _ _ _), fun _ => ⟨'(', _, .inr rfl, rfl⟩⟩

theorem startsField_text (h : i.Canonical enum) (ms : List Lexeme) :
    Lexeme.startsWith isNameStart (lex false i.text ++ ms) ∧
      (enum = false → startsField (lex false i.text ++ ms)) := by
  have hname := isNameChar_of_isName h.name
  have hchars := plain_of_isName h.name
  obtain ⟨u, hu, hsign⟩ := exists_text_eq i
  have hstart : Lexeme.startsWith isNameStart (lex false i.text ++ ms) := by
    obtain ⟨c, cs, hcs, hc, -⟩ := isName_iff.mp h.name
    rw [hu, lex_append_chars hchars, hcs]
    exact hc
  refine ⟨hstart, ?_⟩
  rintro rfl
  obtain ⟨d, v, hd, rfl⟩ := hsign (by simpa using h.kind)
  have hq : d ≠ '"' ∧ isNameChar d = false := by
    rcases hd with rfl | rfl <;> decide
  rw [startsField, hstart, hu, lex_append_chars hchars, lex_cons_of_ne_quote hq.1, append_assoc,
    cons_append, dropName_chars hname hq.2]
  rcases hd with rfl | rfl <;> rfl

end Item.Canonical

end Item

/-! ### Separators -/

theorem isSeparator_chars (h : IsSeparator s) : s ≠ [] ∧ ∀ c ∈ s, isBlank c ∨ c = ',' := by
  obtain ⟨before, c, after, rfl, hc, hbefore, hafter⟩ := h
  refine ⟨by simp, fun d hd => ?_⟩
  rcases mem_append.mp hd with hd | hd
  · exact .inl (hbefore d hd)
  · rcases mem_cons.mp hd with rfl | hd
    · rcases hc with rfl | rfl | rfl
      · exact .inl rfl
      · exact .inr rfl
      · exact .inl rfl
    · exact .inl (hafter d hd)

/-- No item goes on after white space and commas if it does not go on after the white space
alone. -/
theorem not_continued (hs : ∀ c ∈ s, isBlank c ∨ c = ',') {ms : List Lexeme}
    (hms : Lexeme.startsWith isContinuation (dropBlank ms) = false) :
    Lexeme.startsWith isContinuation (dropBlank (s.map .char ++ ms)) = false := by
  induction s with
  | nil => exact hms
  | cons c s ih =>
    obtain ⟨hc, hs⟩ := forall_mem_cons.mp hs
    rcases hc with hc | rfl
    · rw [map_cons, cons_append, dropBlank, if_pos hc]
      exact ih hs
    · rfl

theorem ne_of_separates {c : Char} (h : isBlank c ∨ c = ',') :
    isOpener c = false ∧ isCloser c = false ∧ c ≠ '"' ∧ c ≠ '#' := by
  have hcases : ∀ d, isBlank d = false → d ≠ ',' → c ≠ d := by
    rintro d hd hne rfl
    rcases h with h | h
    · rw [hd] at h
      cases h
    · exact hne h
  have hopener : isOpener c = false := by
    rw [Bool.eq_false_iff]
    intro ho
    rcases isOpener_iff.mp ho with rfl | rfl | rfl | rfl <;>
      exact absurd rfl (hcases _ rfl (by decide))
  have hcloser : isCloser c = false := by
    rw [Bool.eq_false_iff]
    intro ho
    rcases isCloser_iff.mp ho with rfl | rfl | rfl | rfl <;>
      exact absurd rfl (hcases _ rfl (by decide))
  exact ⟨hopener, hcloser, hcases _ rfl (by decide), hcases _ rfl (by decide)⟩

namespace Body

variable {enum : Bool} {items : List Text} {pad t : Text} {start : Nat}

theorem isBreak_of_sign {item : Text} {c : Char} (hc : c = '\n' ∨ c = ',') (ls : List Lexeme) :
    isBreak ⟨items, item, depthAfter 0 c, start⟩ enum c ls = .ok true := by
  rcases hc with rfl | rfl <;> rfl

theorem read_gap (hs : ∀ c ∈ s, isBlank c ∨ c = ',') (hpad : ∀ c ∈ pad, isBlank c)
    {ms : List Lexeme} (hms : Lexeme.startsWith isContinuation (dropBlank ms) = false) :
    ∃ pad' start', (∀ c ∈ pad', isBlank c) ∧
      read enum ⟨items, pad, 0, start⟩ (s.map .char ++ ms) =
        read enum ⟨items, pad', 0, start'⟩ ms := by
  induction s generalizing pad start with
  | nil => exact ⟨pad, start, hpad, rfl⟩
  | cons c s ih =>
    have hnext := not_continued hs hms
    obtain ⟨hc, hs⟩ := forall_mem_cons.mp hs
    obtain ⟨ho, hcl, -, -⟩ := ne_of_separates hc
    rw [map_cons, cons_append] at hnext ⊢
    by_cases hsign : c = '\n' ∨ c = ','
    · have hflush := @flush_blank items pad (depthAfter 0 c) start hpad
      rw [read_break (isBreak_of_sign hsign _) hnext hflush, depthAfter_of_neither ho hcl]
      split
      · exact ih hs (forall_mem_nil _)
      · exact ih hs (forall_mem_nil _)
    · have hblank : isBlank c := hc.resolve_right fun h => hsign (.inr h)
      have hbreak : isBreak ⟨items, pad, depthAfter 0 c, start⟩ enum c (s.map .char ++ ms) =
          .ok false := by
        have hsign' : (c == '\n' || c == ',') = false := by simpa using hsign
        simp only [isBreak, hsign', isEmpty_trim hpad, depthAfter_of_neither ho hcl, Bool.not_true,
          Bool.and_false]
        rfl
      rw [read_char hbreak, depthAfter_of_neither ho hcl]
      refine ih hs fun d hd => ?_
      rcases mem_append.mp hd with hd | hd
      · exact hpad d hd
      · rw [mem_singleton.mp hd]
        exact hblank

/-- **A separator ends the item before it.**  White space after which a comma comes leaves it to the
comma to end a field; by then nothing but white space has been added to it. -/
theorem read_separator (hne : s ≠ []) (hs : ∀ c ∈ s, isBlank c ∨ c = ',')
    (hpad : ∀ c ∈ pad, isBlank c) (h : IsLine t) {gap : Text} (hgap : ∀ c ∈ gap, isBlank c)
    {ms : List Lexeme} (hms : Lexeme.startsWith isNameStart ms)
    (hfield : enum = false → isCompleteField t = .ok true ∧ startsField ms) :
    ∃ pad' start', (∀ c ∈ pad', isBlank c) ∧
      read enum ⟨items, pad ++ (t ++ gap), 0, start⟩ (s.map .char ++ ms) =
        read enum ⟨items ++ [t], pad', 0, start'⟩ ms := by
  -- the next item starts with a name, so it does not continue this one
  have hdrop : dropBlank ms = ms ∧ Lexeme.startsWith isContinuation (dropBlank ms) = false := by
    cases ms with
    | nil => cases hms
    | cons m ms =>
      cases m with
      | char d =>
        have hd : isNameChar d := isNameChar_of_isNameStart hms
        have hsame : dropBlank (.char d :: ms) = .char d :: ms := by
          rw [dropBlank, not_isBlank_of_isNameChar hd, if_neg Bool.false_ne_true]
        refine ⟨hsame, ?_⟩
        rw [hsame]
        simp [Lexeme.startsWith, isContinuation, ne_of_class hd (d := '@') rfl,
          ne_of_class hd (d := '(') rfl, ne_of_class hd (d := ':') rfl,
          ne_of_class hd (d := '=') rfl]
      | literal u => cases hms
      | comment u => cases hms
      | unclosed u => cases hms
  induction s generalizing gap with
  | nil => exact absurd rfl hne
  | cons c s ih =>
    have hnext := not_continued hs hdrop.2
    obtain ⟨hc, hs⟩ := forall_mem_cons.mp hs
    obtain ⟨ho, hcl, -, -⟩ := ne_of_separates hc
    have hdepth : depthAfter 0 c = 0 := depthAfter_of_neither ho hcl 0
    have hbegun : (trim (pad ++ (t ++ gap))).isEmpty = false := isEmpty_trim_append h.spaced pad gap
    rw [map_cons, cons_append] at hnext ⊢
    -- wherever the item is ended, the rest of the separator is white space before the next one
    have hended : isBreak ⟨items, pad ++ (t ++ gap), depthAfter 0 c,
      start⟩ enum c (s.map .char ++ ms) =
        .ok true → ∃ pad' start', (∀ c ∈ pad', isBlank c) ∧
          read enum ⟨items, pad ++ (t ++ gap), 0, start⟩ (.char c :: (s.map .char ++ ms)) =
            read enum ⟨items ++ [t], pad', 0, start'⟩ ms := by
      intro hbreak
      rw [read_break hbreak hnext (flush_line hpad h hgap), hdepth]
      split
      · exact read_gap hs (forall_mem_nil _) hdrop.2
      · exact read_gap hs (forall_mem_nil _) hdrop.2
    by_cases hsign : c = '\n' ∨ c = ','
    · exact hended (isBreak_of_sign hsign _)
    · have hblank : isBlank c := hc.resolve_right fun h => hsign (.inr h)
      have hsign' : (c == '\n' || c == ',') = false := by simpa using hsign
      cases enum with
      | true =>
        refine hended ?_
        simp only [isBreak, hsign', hbegun, hblank, hdepth]
        rfl
      | false =>
        obtain ⟨hcomplete, hstarts⟩ := hfield rfl
        have hitem : isCompleteField (pad ++ (t ++ gap)) = .ok true := by
          rw [← hcomplete, isCompleteField, isCompleteField, trim_between hpad hgap]
        have hbreak : isBreak ⟨items, pad ++ (t ++ gap), depthAfter 0 c, start⟩ false c
            (s.map .char ++ ms) = .ok (startsField (dropBlank (s.map .char ++ ms))) := by
          have hskip : dropBlank (.char c :: (s.map .char ++ ms)) =
              dropBlank (s.map .char ++ ms) := by
            rw [dropBlank, if_pos hblank]
          simp only [isBreak, hsign', hbegun, hblank, hdepth, endsField, hitem, hskip]
          rfl
        cases hfollows : startsField (dropBlank (s.map .char ++ ms)) with
        | true => exact hended (hbreak.trans (by rw [hfollows]))
        | false =>
          have hmore : s ≠ [] := by
            rintro rfl
            rw [map_nil, nil_append, hdrop.1, hstarts] at hfollows
            cases hfollows
          rw [hfollows] at hbreak
          rw [read_char hbreak, hdepth, append_assoc, append_assoc]
          refine ih hmore hs fun d hd => ?_
          rcases mem_append.mp hd with hd | hd
          · exact hgap d hd
          · rw [mem_singleton.mp hd]
            exact hblank

end Body

/-! ### Bodies -/

/-- Items with separators between them start with the first item, and no quote follows it. -/
theorem exists_interleave_cons (t : Text) (ts : List Text) {ss : List Text}
    (hlen : ss.length = ts.length) (hss : ∀ s ∈ ss, IsSeparator s) :
    ∃ u, interleave (t :: ts) ss = t ++ u ∧ u.startsWith (· == '"') = false := by
  cases ss with
  | nil =>
    obtain rfl : ts = [] := length_eq_zero_iff.mp hlen.symm
    exact ⟨[], by simp [interleave], rfl⟩
  | cons s ss =>
    obtain ⟨hne, hchars⟩ := isSeparator_chars (hss s mem_cons_self)
    obtain ⟨c, cs, rfl⟩ := exists_cons_of_ne_nil hne
    refine ⟨_, rfl, ?_⟩
    simpa [startsWith] using (ne_of_separates (hchars c mem_cons_self)).2.2.1

theorem read_interleave {enum : Bool} {is : List Item} {i : Item} (hi : i.Canonical enum)
    (h : ∀ j ∈ is, j.Canonical enum) {ss : List Text} (hlen : ss.length = is.length)
    (hss : ∀ s ∈ ss, IsSeparator s) (items : List Text) {pad : Text} (hpad : ∀ c ∈ pad, isBlank c)
    (start : Nat) :
    ∃ b, Body.read enum ⟨items, pad, 0, start⟩
      (lex true (interleave (i.text :: is.map Item.text) ss)) =
      .ok b ∧ b.items = items ++ i.text :: is.map Item.text := by
  have hitem : ∀ {i : Item}, i.Canonical enum → ∀ (items : List Text) {pad : Text},
    (∀ c ∈ pad, isBlank c) →
      ∀ (start : Nat) (ms : List Lexeme),
        Body.read enum ⟨items, pad, 0, start⟩ (lex false i.text ++ ms) =
        Body.read enum ⟨items, pad ++ i.text, 0, start⟩ ms := by
    intro i hi items pad hpad start ms
    obtain ⟨head, ws, htext, hhead, hq, hws⟩ := hi.exists_row
    rw [htext]
    exact Body.read_row hhead hq hws hpad ms
  induction is generalizing i ss items pad start with
  | nil =>
    obtain rfl : ss = [] := length_eq_zero_iff.mp hlen
    have hflush := @Body.flush_line items pad i.text 0 start hpad hi.isLine [] (forall_mem_nil _)
    have hread := hitem hi items hpad start []
    rw [append_nil] at hflush hread
    refine ⟨⟨items ++ [i.text], [], 0, start⟩, ?_, rfl⟩
    rw [map_nil, interleave, interleave, append_nil, lex_true_of_closed hi.isLine.closed, hread]
    exact hflush
  | cons j is ih =>
    obtain ⟨hj, his⟩ := forall_mem_cons.mp h
    obtain ⟨s, ss, rfl⟩ := exists_cons_of_length_eq_add_one hlen
    obtain ⟨hs, hss⟩ := forall_mem_cons.mp hss
    obtain ⟨hne, hchars⟩ := isSeparator_chars hs
    have hlen' : ss.length = is.length := by simpa using hlen
    have hq : startsWith (· == '"') (s ++ interleave (j.text :: is.map Item.text) ss) = false := by
      obtain ⟨c, cs, rfl⟩ := exists_cons_of_ne_nil hne
      simpa [startsWith] using (ne_of_separates (hchars c mem_cons_self)).2.2.1
    obtain ⟨u, hu, hquote⟩ := exists_interleave_cons j.text (is.map Item.text)
      (by simpa using hlen') hss
    have hrest : lex true (interleave (j.text :: is.map Item.text) ss) =
        lex false j.text ++ lex true u := by
      rw [hu, lex_append hj.isLine.closed hquote]
    have hstart := hj.startsField_text (lex true u)
    rw [← hrest] at hstart
    obtain ⟨pad', start', hpad', hread⟩ :=
      @Body.read_separator s enum items pad i.text start hne hchars hpad
      hi.isLine [] (forall_mem_nil _) _ hstart.1
      fun henum => ⟨(henum ▸ hi).isCompleteField_text, hstart.2 henum⟩
    rw [append_nil] at hread
    obtain ⟨b, hb, hitems⟩ := ih hj his hlen' hss (items ++ [i.text]) hpad' start'
    refine ⟨b, ?_, by rw [hitems, append_assoc]; rfl⟩
    rw [map_cons, interleave, lex_append hi.isLine.closed hq, hitem hi items hpad,
      lex_append_chars fun c hc => (ne_of_separates (hchars c hc)).2.2, hread, hb]

/-- **A body is split into the items it was put together from**, whatever separators stand between
them. -/
theorem bodyItems_interleave {kind : Kind} {is : List Item}
    (h : ∀ i ∈ is, i.Canonical (kind == .enum)) {ss : List Text} (hlen : ss.length = is.length - 1)
    (hss : ∀ s ∈ ss, IsSeparator s) :
    bodyItems (kind == .enum) (lex true (interleave (is.map Item.text) ss)) =
      .ok (is.map Item.text) := by
  cases is with
  | nil =>
    have hflush := @Body.flush_blank [] [] 0 0 (List.forall_mem_nil _)
    rw [List.map_nil, interleave, lex_nil, bodyItems, show ({} : Body) = ⟨[], [], 0, 0⟩ from rfl,
      Body.read, hflush]
    rfl
  | cons i is =>
    obtain ⟨hi, his⟩ := List.forall_mem_cons.mp h
    obtain ⟨b, hb, hitems⟩ := read_interleave hi his (by simpa using hlen) hss []
      (List.forall_mem_nil _) 0
    rw [List.map_cons, bodyItems, show ({} : Body) = ⟨[], [], 0, 0⟩ from rfl, hb]
    simp only [Functor.map, Except.map, hitems]
    rfl

/-- A field with all parts, one of a generic type, and one with little in it. -/
def separatedItems : List Item :=
  [{ name := "find".toList, arguments := some "by: [Key!] = [\"a, b: c\"], n: Int".toList,
     type := some "[Row!]!".toList, default := some "\x7bk: [1, -2.5]\x7d".toList,
     directives := [⟨"cost".toList, some "of: 1".toList⟩, ⟨"audit".toList, none⟩] },
    { name := "pairs".toList, type := some "Pair<A, [B!]>".toList },
    { name := "id".toList, type := some "ID".toList }]

/-- The theorem on these fields, with a comma behind a line break and a space between them. -/
theorem bodyItems_interleave_separatedItems :
    (∀ i ∈ separatedItems, i.Canonical false) ∧
      bodyItems false (lex true ("find(by: [Key!] = [\"a, b: c\"], n: Int): [Row!]! = ".toList ++
        "\x7bk: [1, -2.5]\x7d @cost(of: 1) @audit \n,\tpairs: Pair<A, [B!]>  id: ID".toList)) =
        .ok ["find(by: [Key!] = [\"a, b: c\"], n: Int): [Row!]! = ".toList ++
          "\x7bk: [1, -2.5]\x7d @cost(of: 1) @audit".toList, "pairs: Pair<A, [B!]>".toList,
          "id: ID".toList] := by
  have hnone : ∀ {P : Text → Prop}, ∀ t ∈ (none : Option Text), P t := by
    intro P t ht
    cases ht
  have hcanonical : ∀ i ∈ separatedItems, i.Canonical false := by
    refine List.forall_mem_cons.mpr ⟨⟨by decide, ?_, ?_, ?_, ?_, by decide⟩,
      List.forall_mem_cons.mpr
      ⟨⟨by decide, hnone, ?_, hnone, List.forall_mem_nil _, by decide⟩,
        List.forall_mem_singleton.mpr
      ⟨by decide, hnone, ?_, hnone, List.forall_mem_nil _, by decide⟩⟩⟩
    · rintro t ⟨⟩
      exact ⟨by decide +kernel, by decide +kernel⟩
    · rintro t ⟨⟩
      exact ⟨by decide +kernel, by decide +kernel⟩
    · rintro t ⟨⟩
      exact ⟨by decide +kernel, by decide +kernel⟩
    · refine List.forall_mem_cons.mpr ⟨⟨by decide, ?_, ?_⟩, List.forall_mem_singleton.mpr
        ⟨by decide, hnone, hnone⟩⟩
      · rintro t ⟨⟩
        decide +kernel
      · rintro t ⟨⟩
        decide +kernel
    · rintro t ⟨⟩
      exact ⟨by decide +kernel, by decide +kernel⟩
    · rintro t ⟨⟩
      exact ⟨by decide +kernel, by decide +kernel⟩
  refine ⟨hcanonical, @bodyItems_interleave .type _ hcanonical [" \n,\t".toList, "  ".toList] rfl
    (List.forall_mem_cons.mpr ⟨?_, List.forall_mem_singleton.mpr ?_⟩)⟩
  · exact ⟨" \n".toList, ',', "\t".toList, rfl, .inr (.inl rfl), forall_mem_of_all rfl,
      forall_mem_of_all rfl⟩
  · exact ⟨[], ' ', " ".toList, rfl, .inr (.inr rfl), forall_mem_of_all rfl, forall_mem_of_all rfl⟩

end Schemata
