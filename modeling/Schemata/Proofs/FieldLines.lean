import Schemata.Declaration.Parse
import Schemata.Proofs.Words

/-!
# Fields on a line

A field is written on one line: its name, its arguments in parentheses, its type, its default value,
its directives, and a comment.  All that reading the line back takes is that each of these parts is
a *phrase*: its brackets are nested, there is no white space around it, and outside of brackets it
has none of the signs that the parts are told apart by.  White space inside of a phrase is left as
it is.

No argument starts inside of another one, since an argument starts with a name and a colon, and
there is no further colon outside of brackets.

## Main results

* `splitValue_eq` — a type with what follows it is taken apart into what it was put together from.
* `splitArguments_render` — the arguments of a field are found where they were written.
* `parseField_of_readable` — the line of a field is read as the field.
* `parseField_render` — so is the field in writing, if nothing stands above its line.
-/

namespace Schemata

open Resolve List

variable {d : Declaration} {default : Option Text}
open Lexeme (dropBlank dropName)
open Text (startsWith dropEndWhile trimStart trim joinWith trimEnd)

variable {c : Char} {cs t u : Text} {ls : List Lexeme} {p top : Char → Bool}

/-! ### Cutting -/

theorem cutAt_eq_none {target : Char → Bool} (h : Nested top [] (lex false t))
    (htop : ∀ c, top c → target c = false) : cutAt target t = .ok none := by
  have := h.cutAt htop []
  rw [append_nil] at this
  exact this

theorem cutAt_eq_some {target : Char → Bool} (h : Nested top [] (lex false t))
    (htop : ∀ c, top c → target c = false) (hc : target c) (hq : c ≠ '"') (u : Text) :
    cutAt target (t ++ c :: u) = .ok (some (t, c :: u)) := by
  have := h.cutAt htop (.char c :: lex false u)
  unfold Schemata.cutAt
  rw [lex_append h.isQuiet (by simp [startsWith, hq]), lex_cons_of_ne_quote hq]
  refine this.trans ?_
  simp [Lexeme.cutAt, hc, Functor.map, Except.map, prepend]

theorem dropEndWhile_eq_self (h : t.getLast? = some c) (hc : p c = false) :
    t.dropEndWhile p = t := by
  obtain ⟨s, rfl⟩ := getLast?_eq_some_iff.mp h
  rw [dropEndWhile, reverse_append, reverse_singleton, singleton_append,
    dropWhile_cons_of_neg (by simp [hc]), reverse_cons, reverse_reverse]

theorem dropEndWhile_append (hu : ∀ c ∈ u, p c) (t : Text) :
    dropEndWhile p (t ++ u) = t.dropEndWhile p := by
  rw [dropEndWhile, reverse_append, dropWhile_append_of_pos (fun c hc => hu c (mem_reverse.mp hc))]
  rfl

theorem trim_append_blank (hu : ∀ c ∈ u, isBlank c) (t : Text) : trim (t ++ u) = t.trim := by
  rw [trim, trim, trimStart_eq_dropWhile, trimStart_eq_dropWhile, dropWhile_append]
  cases hd : t.dropWhile isBlank with
  | nil =>
    rw [if_pos isEmpty_nil, dropWhile_eq_nil_iff.mpr hu]
  | cons c cs =>
    rw [if_neg (by simp), trimEnd, dropEndWhile_append hu]
    rfl

theorem trim_between {s : Text} (hs : ∀ c ∈ s, isBlank c) (hu : ∀ c ∈ u, isBlank c) (t : Text) :
    trim (s ++ (t ++ u)) = t.trim := by
  rw [trim, trimStart_blank_append hs]
  exact trim_append_blank hu t

/-! ### Phrases -/

/-- A text with no white space around it and with nested brackets.  Outside of its brackets and
literals there are only characters that satisfy `top`. -/
structure IsPhrase (top : Char → Bool) (t : Text) : Prop where
  nested : Nested top [] (lex false t)
  trimmed : t.trim = t
  nonempty : t ≠ []

instance (top : Char → Bool) (t : Text) : Decidable (IsPhrase top t) :=
  decidable_of_iff (Nested top [] (lex false t) ∧ t.trim = t ∧ t ≠ [])
    ⟨fun h => ⟨h.1, h.2.1, h.2.2⟩, fun h => ⟨h.nested, h.trimmed, h.nonempty⟩⟩

theorem Nested.space (htop : top ' ') (h : Nested top [] ls) : Nested top [] (.char ' ' :: ls) :=
  .char rfl rfl (by decide) (fun _ => htop) h

theorem Nested.noHash {pending : List Char} (h : Nested top pending ls) :
    Nested (· != '#') pending ls :=
  h.mono_of_ne fun c hc _ => by simpa using hc

namespace IsPhrase

variable {top : Char → Bool} {s t : Text}

theorem closed (h : IsPhrase top t) : Closed t :=
  h.nested.isQuiet

theorem mono {top' : Char → Bool} (h : IsPhrase top t) (htop : ∀ c, top c → top' c) :
    IsPhrase top' t :=
  ⟨h.nested.mono htop, h.trimmed, h.nonempty⟩

theorem trimStart_eq (h : IsPhrase top t) : t.trimStart = t := by
  have := trimStart_trim t
  rwa [h.trimmed] at this

theorem head (h : IsPhrase top t) : ∃ c cs, t = c :: cs ∧ isBlank c = false := by
  obtain ⟨c, cs, rfl⟩ := exists_cons_of_ne_nil h.nonempty
  refine ⟨c, cs, rfl, ?_⟩
  rw [Bool.eq_false_iff]
  intro hblank
  have hstart := h.trimStart_eq
  rw [trimStart_eq_dropWhile, dropWhile_cons_of_pos hblank] at hstart
  have hlen := (cs.dropWhile_sublist isBlank).length_le
  rw [hstart, length_cons] at hlen
  omega

/-- A phrase does not end with white space, and what it ends with may stand outside of brackets,
closes a bracket, or is a quote. -/
theorem getLast (h : IsPhrase top t) : ∃ c, t.getLast? = some c ∧ isBlank c = false ∧
    (top c ∨ isCloser c ∨ c = '"') := by
  obtain ⟨c, hc, htop⟩ := h.nested.getLast h.nonempty
  refine ⟨c, hc, ?_, htop⟩
  rw [Bool.eq_false_iff]
  intro hblank
  exact getLast?_ne_of_trim h.trimmed hblank hc

theorem join (h : IsPhrase top s) (h' : IsPhrase top t) (gap : Text) (hne : gap ≠ [])
    (hgap : ∀ c ∈ gap, isOpener c = false ∧ isCloser c = false ∧ c ≠ '#' ∧ top c)
    (hq : ∀ c ∈ gap, c ≠ '"') : IsPhrase top (s ++ (gap ++ t)) := by
  obtain ⟨c, cs, rfl, hc⟩ := h.head
  obtain ⟨d, hd, hblank, -⟩ := h'.getLast
  obtain ⟨u, rfl⟩ := getLast?_eq_some_iff.mp hd
  have hlex : lex false (c :: cs ++ (gap ++ (u ++ [d]))) =
      lex false (c :: cs) ++ (gap.map .char ++ lex false (u ++ [d])) := by
    have hstart : startsWith (· == '"') (gap ++ (u ++ [d])) = false := by
      cases gap with
      | nil => exact absurd rfl hne
      | cons g gap => simpa [startsWith] using hq g mem_cons_self
    rw [lex_append h.closed hstart, lex_append_chars fun g hg => ⟨hq g hg, (hgap g hg).2.2.1⟩]
  refine ⟨?_, ?_, by simp⟩
  · rw [hlex]
    exact h.nested.append ((Nested.ofChars hgap).append h'.nested)
  · rw [trim, trimStart_eq_dropWhile, cons_append, dropWhile_cons_of_neg (by simp [hc]),
      ← append_assoc, ← append_assoc, ← cons_append, trimEnd_append_singleton hblank]

theorem defaulted (h : IsPhrase top t) (hd : ∀ v ∈ default, IsPhrase top v) (hspace : top ' ')
    (heq : top '=') : IsPhrase top (t ++ defaulted default) := by
  cases default with
  | none => rwa [Schemata.defaulted, append_nil]
  | some v =>
    refine h.join (hd v rfl) [' ', '=', ' '] (by decide) ?_ (by simp)
    simp [hspace, heq, isOpener, isCloser]

theorem spaced {o : Option Text} (h : IsPhrase top t) (ho : ∀ u ∈ o, IsPhrase top u)
    (hspace : top ' ') : IsPhrase top (t ++ spaced o) := by
  cases o with
  | none => rwa [Schemata.spaced, append_nil]
  | some u =>
    obtain ⟨c, cs, rfl, -⟩ := (ho u rfl).head
    refine h.join (ho _ rfl) [' '] (by decide) ?_ (by simp)
    simp [hspace, isOpener, isCloser]

end IsPhrase

theorem isPhrase_of_isName (h : t.isName) (htop : ∀ c, isNameChar c → top c) : IsPhrase top t := by
  have hchars := isNameChar_of_isName h
  refine ⟨?_, trim_eq_self fun c hc => not_isBlank_of_isNameChar (hchars c hc), isName_ne_nil h⟩
  rw [lex_name hchars]
  exact nested_name hchars htop

/-! ### The parts of a field -/

/-- The characters of types and values outside of brackets: all but the signs that tell the parts of
a field apart. -/
def isPhraseChar (c : Char) : Bool :=
  !(c == ',' || c == ':' || c == '@' || c == '=' || c == '<')

/-- The characters from a type on, with what follows it, outside of brackets. -/
def isRowChar (c : Char) : Bool :=
  !(c == ',' || c == ':' || c == '<')

theorem isRowChar_of_isPhraseChar (c : Char) (h : isPhraseChar c) : isRowChar c := by
  simp only [isPhraseChar, Bool.not_eq_true', Bool.or_eq_false_iff] at h
  simp [isRowChar, h]

namespace Text

/-- A type without type arguments, such as `[Product!]!`. -/
structure IsPlainType (t : Text) : Prop where
  phrase : IsPhrase isPhraseChar t
  angle : '<' ∉ t
  decorated : ∃ d, Decorated.ofText t = .ok d

/-- Directives, with or without arguments in parentheses. -/
structure IsDirectiveRow (t : Text) : Prop where
  phrase : IsPhrase isRowChar t
  mark : t.startsWith (· == '@') = true

end Text

theorem Text.IsDirectiveRow.eq_cons (h : t.IsDirectiveRow) : ∃ s, t = '@' :: s :=
  eq_cons_of_startsWith h.mark

theorem Text.IsDirectiveRow.spaced_eq (h : t.IsDirectiveRow) : spaced (some t) = ' ' :: t := by
  obtain ⟨s, rfl⟩ := h.eq_cons
  rfl

/-- The type of a use and its directives are what they are called. -/
structure TypeUse.Readable (u : TypeUse) : Prop where
  resolved : u.resolved.IsPlainType
  directive : ∀ t ∈ u.directive, t.IsDirectiveRow

/-- The parts of an argument are what they are called. -/
structure Argument.Readable (a : Argument) : Prop where
  name : a.name.isName = true
  type : a.type.Readable
  /-- The default value: a number, a name, a literal, or anything in brackets that are nested. -/
  default : ∀ t ∈ a.default, IsPhrase isPhraseChar t

/-- The parts of a field are what they are called.  Only a field with a type has a default value,
and only one without has directives of its own. -/
structure Field.Readable (f : Field) : Prop where
  name : f.name.isName = true
  arguments : ∀ as ∈ f.arguments, ∀ a ∈ as, a.Readable
  type : ∀ u ∈ f.type, u.Readable
  /-- The default value: a number, a name, a literal, or anything in brackets that are nested. -/
  default : ∀ t ∈ f.default, f.type ≠ none ∧ IsPhrase isPhraseChar t
  directive : ∀ t ∈ f.directive, f.type = none ∧ t.IsDirectiveRow
  inlineComment : ∀ t ∈ f.inlineComment, t.IsComment

/-! ### Types -/

@[simp] theorem ofExcept_ok {α : Type} (a : α) : Resolve.ofExcept (.ok a) = pure a := rfl

/-- Outside of a template a type without type arguments is used as it is written, with the
directives that are cut off before any others. -/
theorem useType_of_cutDirectives {expression gap : Text} (h : t.IsPlainType)
    (hgap : ∀ c ∈ gap, isBlank c) {written : Option Text}
    (hcut : cutDirectives expression = .ok (t ++ gap, written)) (naming : Naming)
    {letters : Option (List Text)} (hletters : letters.getD [] = []) (directive : Option Text) :
    useType naming expression letters directive =
      pure {
        origin := t, isGeneric := false, resolved := t, directive := written.or directive } := by
  obtain ⟨d, hd⟩ := h.decorated
  have htrim : trim (t ++ gap) = t := by
    rw [trim_append_blank hgap, h.phrase.trimmed]
  have hcore : isGenericCore d.core = false := by
    have hangle := h.angle
    rw [Decorated.mem_core_of_mem hd rfl] at hangle
    simpa [isGenericCore] using hangle
  have hnone : letters.filter (!·.isEmpty) = none := by
    cases letters with
    | none => rfl
    | some ls =>
      obtain rfl : ls = [] := hletters
      rfl
  unfold useType
  simp only [hcut, ofExcept_ok, pure_bind, htrim, hd, hcore, hnone]
  rfl

theorem useType_plain (h : t.IsPlainType) (naming : Naming) {letters : Option (List Text)}
    (hletters : letters.getD [] = []) (directive : Option Text) :
    useType naming t letters directive =
      pure { origin := t, isGeneric := false, resolved := t, directive } := by
  have htop : ∀ c, isPhraseChar c → (c == '@') = false := fun _ hc => beq_of_class hc rfl
  have hcut : cutDirectives t = .ok (t ++ [], none) := by
    rw [cutDirectives, cutAt_eq_none h.phrase.nested htop, append_nil]
    rfl
  rw [useType_of_cutDirectives h (forall_mem_of_all rfl) hcut naming hletters, Option.none_or]

/-! ### What follows a type -/

theorem cutDirectives_append (ht : Nested (· != '@') [] (lex false t)) {directive : Option Text}
    (h : ∀ s ∈ directive, s.IsDirectiveRow) :
    ∃ gap : Text, (gap = [] ∨ gap = [' ']) ∧
      cutDirectives (t ++ spaced directive) = .ok (t ++ gap, directive) := by
  have htop : ∀ c : Char, (c != '@') → (c == '@') = false := by
    intro c hc
    simpa using hc
  cases directive with
  | none =>
    refine ⟨[], .inl rfl, ?_⟩
    rw [spaced, append_nil, cutDirectives, cutAt_eq_none ht htop]
    rfl
  | some s =>
    obtain ⟨u, rfl⟩ := (h s rfl).eq_cons
    have hgap : Nested (· != '@') [] (lex false (t ++ [' '])) := by
      rw [lex_append ht.isQuiet rfl, lex_cons_of_ne_quote (by decide), lex_nil]
      exact ht.append (.space rfl .nil)
    have hsplit : t ++ spaced (some ('@' :: u)) = t ++ [' '] ++ '@' :: u := by
      simp [spaced]
    refine ⟨[' '], .inr rfl, ?_⟩
    rw [cutDirectives, hsplit, cutAt_eq_some hgap htop rfl (by decide)]
    simp only [bind, Except.bind, pure, Except.pure]
    rw [(h _ rfl).phrase.trimmed]

/-- **A type with what follows it** is taken apart into what it was put together from. -/
theorem splitValue_eq {r : Text} (hr : IsPhrase isPhraseChar r) {directive : Option Text}
    (hd : ∀ t ∈ default, IsPhrase isPhraseChar t) (h : ∀ t ∈ directive, t.IsDirectiveRow) :
    splitValue (' ' :: (r ++ (defaulted default ++ spaced directive))) =
      .ok (r, default, directive) := by
  have hmark : ∀ c, isPhraseChar c → (c != '@') := fun _ hc => bne_of_class hc rfl
  have hvalue : Nested (· != '@') [] (lex false (' ' :: (r ++ defaulted default))) := by
    have := (hr.mono hmark).defaulted (fun v hv => (hd v hv).mono hmark) rfl rfl
    rw [lex_cons_of_ne_quote (by decide)]
    exact .space rfl this.nested
  obtain ⟨gap, hgap, hcut⟩ := cutDirectives_append hvalue h
  rw [cons_append, append_assoc, cons_append, append_assoc] at hcut
  have hspaces : ∀ gap : Text, gap = [] ∨ gap = [' '] → ∀ c ∈ gap, isBlank c := by
    rintro gap (rfl | rfl) <;> exact forall_mem_of_all rfl
  have hspace := hspaces [' '] (.inr rfl)
  have htop : ∀ c : Char, isPhraseChar c → (c == '=') = false := fun _ hc => beq_of_class hc rfl
  have hnested : ∀ gap : Text, gap = [] ∨ gap = [' '] →
      Nested isPhraseChar [] (lex false (' ' :: (r ++ gap))) := by
    rintro gap (rfl | rfl)
    · rw [append_nil, lex_cons_of_ne_quote (by decide)]
      exact .space rfl hr.nested
    · rw [lex_cons_of_ne_quote (by decide), lex_append hr.closed rfl,
        lex_cons_of_ne_quote (by decide), lex_nil]
      exact .space rfl (hr.nested.append (.space rfl .nil))
  unfold splitValue
  rw [hcut]
  simp only [bind, Except.bind]
  cases default with
  | none =>
    rw [show defaulted none = [] from rfl, nil_append, cutAt_eq_none (hnested gap hgap) htop]
    have htrim := trim_between hspace (hspaces gap hgap) r
    rw [singleton_append, hr.trimmed] at htrim
    simp only [pure, Except.pure, htrim]
  | some v =>
    have hsplit : ' ' :: (r ++ (defaulted (some v) ++ gap)) =
        ' ' :: (r ++ [' ']) ++ '=' :: ' ' :: (v ++ gap) := by
      simp [defaulted]
    have htrim := trim_between hspace hspace r
    have htrim' := trim_between hspace (hspaces gap hgap) v
    rw [singleton_append, hr.trimmed] at htrim
    rw [singleton_append, (hd v rfl).trimmed] at htrim'
    rw [hsplit, cutAt_eq_some (hnested [' '] (.inr rfl)) htop rfl (by decide)]
    simp only [pure, Except.pure, tail_cons, htrim, htrim']

/-! ### Where arguments start -/

/-- The closing brackets that count among arguments. -/
def closesArgument (c : Char) : Bool :=
  c == ')' || c == ']' || c == '}'

theorem argumentPieces_ne_nil {boundary : Bool} {depth : Int} {ps : List Text}
    (h : argumentPieces boundary depth ls = .ok ps) : ps ≠ [] := by
  cases ls with
  | nil =>
    cases h
    exact cons_ne_nil _ _
  | cons l ls =>
    cases l with
    | unclosed t => cases h
    | literal t =>
      obtain ⟨qs, -, rfl⟩ := map_eq_ok h
      exact prependHead_ne_nil t qs
    | comment t =>
      obtain ⟨qs, -, rfl⟩ := map_eq_ok h
      exact prependHead_ne_nil t qs
    | char c =>
      obtain ⟨qs, -, hps⟩ := bind_eq_ok.mp h
      split_ifs at hps
      · cases hps
        exact cons_ne_nil _ _
      · cases hps
        exact prependHead_ne_nil [c] qs

theorem prependHead_nil_argumentPieces (boundary : Bool) (depth : Int) (ls : List Lexeme) :
    prependHead [] <$> argumentPieces boundary depth ls = argumentPieces boundary depth ls := by
  cases hps : argumentPieces boundary depth ls with
  | error e => rfl
  | ok ps =>
    cases ps with
    | nil => exact absurd rfl (argumentPieces_ne_nil hps)
    | cons p ps => rfl

theorem argumentPieces_char {boundary : Bool} {depth : Int}
    (h : (depth == 0 && boundary && startsArgument (.char c :: ls)) = false) :
    argumentPieces boundary depth (.char c :: ls) =
      prependHead [c] <$> argumentPieces (isArgumentGap c) (argumentDepthAfter depth c) ls := by
  rw [argumentPieces]
  simp only [h]
  cases argumentPieces (isArgumentGap c) (argumentDepthAfter depth c) ls <;> rfl

theorem argumentDepthAfter_of_neither (ho : isOpener c = false) (hc : isCloser c = false)
    (depth : Int) : argumentDepthAfter depth c = depth := by
  simp only [isOpener, isCloser, Bool.or_eq_false_iff] at ho hc
  simp [argumentDepthAfter, ho, hc]

/-- After these lexemes a name before them has no colon: neither does the name go on, nor does a
colon follow. -/
structure EndsArgument (ms : List Lexeme) : Prop where
  name : Lexeme.startsWith isNameChar ms = false
  colon : Lexeme.startsWith (· == ':') (Lexeme.dropBlank ms) = false

namespace EndsArgument

variable {ms : List Lexeme}

theorem dropName_eq (h : EndsArgument ms) : dropName ms = ms := by
  cases ms with
  | nil => rfl
  | cons m ms =>
    cases m with
    | char c =>
      have hc : isNameChar c = false := h.name
      simp [dropName, hc]
    | literal t => rfl
    | comment t => rfl
    | unclosed t => rfl

theorem startsArgument_eq (h : EndsArgument ms) : startsArgument ms = false := by
  rw [startsArgument, h.dropName_eq, h.colon, Bool.and_false]

theorem argumentPieces_eq (h : EndsArgument ms) (boundary : Bool) :
    argumentPieces boundary 0 ms = argumentPieces false 0 ms := by
  cases ms with
  | nil => rfl
  | cons m ms =>
    cases m with
    | char c =>
      rw [argumentPieces_char (by simp [h.startsArgument_eq]), argumentPieces_char (by simp)]
    | literal t => rfl
    | comment t => rfl
    | unclosed t => rfl

end EndsArgument

/-- The characters of an argument after its colon, outside of brackets. -/
def isArgumentChar (c : Char) : Bool :=
  c != ':' && c != '<'

theorem isArgumentChar_of_isRowChar (c : Char) (h : isRowChar c) : isArgumentChar c := by
  simp only [isRowChar, Bool.not_eq_true', Bool.or_eq_false_iff] at h
  simp [isArgumentChar, bne, h]

namespace Nested

variable {ls ms : List Lexeme}

theorem startsWith_colon_dropBlank (h : Nested isArgumentChar [] ls) (hms : EndsArgument ms) :
    Lexeme.startsWith (· == ':') (dropBlank (ls ++ ms)) = false := by
  generalize hp : ([] : List Char) = pending at h
  induction h with
  | nil => exact hms.colon
  | literal t _ _ => rfl
  | @opening c pending ls bracket outside _ _ =>
    have hblank : isBlank c = false := by
      rcases isOpener_iff.mp bracket with rfl | rfl | rfl | rfl <;> rfl
    rw [cons_append, dropBlank, hblank]
    exact beq_of_class (outside hp.symm) rfl
  | closing bracket _ _ => cases hp
  | @char c pending ls _ _ _ outside _ ih =>
    by_cases hblank : isBlank c
    · rw [cons_append, dropBlank, if_pos hblank]
      exact ih hp
    · rw [cons_append, dropBlank, if_neg hblank]
      exact beq_of_class (outside hp.symm) rfl

theorem startsArgument (h : Nested isArgumentChar [] ls) (hms : EndsArgument ms) :
    Schemata.startsArgument (ls ++ ms) = false := by
  suffices hcolon : Lexeme.startsWith (· == ':') (dropBlank (dropName (ls ++ ms))) = false by
    rw [Schemata.startsArgument, hcolon, Bool.and_false]
  -- the name ends at the first lexeme that does not belong to it, and no colon follows from there
  have hstop : ∀ {c : Char} {ks : List Lexeme}, isNameChar c = false →
      Nested isArgumentChar [] (.char c :: ks) →
      Lexeme.startsWith (· == ':') (dropBlank (dropName (.char c :: (ks ++ ms)))) = false := by
    intro c ks hc hks
    rw [dropName, hc, if_neg Bool.false_ne_true]
    exact hks.startsWith_colon_dropBlank hms
  generalize hp : ([] : List Char) = pending at h
  induction h with
  | nil =>
    rw [nil_append, hms.dropName_eq]
    exact hms.colon
  | literal t _ _ => rfl
  | @opening c pending ls bracket outside rest _ =>
    subst hp
    refine hstop ?_ (.opening bracket outside rest)
    rcases isOpener_iff.mp bracket with rfl | rfl | rfl | rfl <;> rfl
  | closing bracket _ _ => cases hp
  | @char c pending ls opener closer hash outside rest ih =>
    subst hp
    by_cases hn : isNameChar c
    · rw [cons_append, dropName, if_pos hn]
      exact ih rfl
    · exact hstop (by simpa using hn) (.char opener closer hash outside rest)

/-- **No argument starts inside of nested lexemes without a colon**, so they go to one piece. -/
theorem argumentPieces {pending : List Char} (h : Nested isArgumentChar pending ls)
    (hg : Grounded closesArgument pending) (hms : EndsArgument ms) (boundary : Bool) :
    Schemata.argumentPieces boundary (pending.countP closesArgument : Nat) (ls ++ ms) =
      prependHead (raw ls) <$> Schemata.argumentPieces false 0 ms := by
  -- inside of brackets the count is positive, and outside no argument starts
  have hstop : ∀ {pending : List Char} {boundary : Bool} {c : Char} {ks : List Lexeme},
      Grounded closesArgument pending → Nested isArgumentChar pending (.char c :: ks) →
      (((pending.countP closesArgument : Nat) : Int) == 0 && boundary &&
        Schemata.startsArgument (.char c :: (ks ++ ms))) = false := by
    intro pending boundary c ks hg hks
    cases pending with
    | nil =>
      have := hks.startsArgument hms
      rw [cons_append] at this
      rw [this, Bool.and_false]
    | cons d pending =>
      have hpos := hg.countP_pos (cons_ne_nil _ _)
      have hdepth : (((d :: pending).countP closesArgument : Nat) : Int) ≠ 0 := by omega
      rw [beq_eq_false_iff_ne.mpr hdepth]
      rfl
  induction h generalizing boundary with
  | nil =>
    rw [nil_append, raw_nil, countP_nil, prependHead_nil_argumentPieces]
    exact hms.argumentPieces_eq boundary
  | literal t _ ih =>
    rw [cons_append, Schemata.argumentPieces, ih hg false, prependHead_prependHead, raw_cons,
      Lexeme.text]
  | @opening c pending ls bracket outside rest ih =>
    have hgc : Grounded closesArgument (closerOf c :: pending) := by
      refine hg.cons fun hp => ?_
      have htop := outside hp
      rcases isOpener_iff.mp bracket with rfl | rfl | rfl | rfl <;> first | rfl | cases htop
    have hdepth : argumentDepthAfter (pending.countP closesArgument : Nat) c =
        ((closerOf c :: pending).countP closesArgument : Nat) := by
      rcases isOpener_iff.mp bracket with rfl | rfl | rfl | rfl <;>
        simp [argumentDepthAfter, closesArgument, closerOf]
    rw [cons_append, argumentPieces_char (hstop hg (.opening bracket outside rest)), hdepth,
      ih hgc, prependHead_prependHead, raw_cons, Lexeme.text]
  | @closing c pending ls bracket rest ih =>
    have hdepth : argumentDepthAfter ((c :: pending).countP closesArgument : Nat) c =
        (pending.countP closesArgument : Nat) := by
      rcases isCloser_iff.mp bracket with rfl | rfl | rfl | rfl <;>
        simp [argumentDepthAfter, closesArgument]
    rw [cons_append, argumentPieces_char (hstop hg (.closing bracket rest)), hdepth, ih hg.tail,
      prependHead_prependHead, raw_cons, Lexeme.text]
  | @char c pending ls opener closer hash outside rest ih =>
    rw [cons_append, argumentPieces_char (hstop hg (.char opener closer hash outside rest)),
      argumentDepthAfter_of_neither opener closer, ih hg, prependHead_prependHead, raw_cons,
      Lexeme.text]

end Nested

/-! ### Arguments -/

/-- What follows the name and the colon of an argument. -/
def Argument.value (a : Argument) : Text :=
  a.type.resolved ++ (defaulted a.default ++ spaced a.type.directive)

theorem Argument.render_eq (a : Argument) : a.render = a.name ++ ([':', ' '] ++ a.value) := by
  simp [Argument.render, Argument.value]

section Arguments

variable {a : Argument} {as : List Argument}

theorem TypeUse.Readable.phrase {u : TypeUse} (h : u.Readable)
    (hd : ∀ t ∈ default, IsPhrase isPhraseChar t) :
    IsPhrase isRowChar (u.resolved ++ (defaulted default ++ spaced u.directive)) := by
  rw [← append_assoc]
  exact ((h.resolved.phrase.mono isRowChar_of_isPhraseChar).defaulted
    (fun v hv => (hd v hv).mono isRowChar_of_isPhraseChar) rfl rfl).spaced
    (fun t ht => (h.directive t ht).phrase) rfl

theorem Argument.Readable.phrase_value (h : a.Readable) : IsPhrase isRowChar a.value :=
  h.type.phrase h.default

theorem Argument.Readable.phrase_render (h : a.Readable) : IsPhrase (· != ',') a.render := by
  rw [a.render_eq]
  refine (isPhrase_of_isName h.name fun _ hc => bne_of_class hc rfl).join
    (h.phrase_value.mono fun _ hc => bne_of_class hc rfl) [':', ' '] (by decide) ?_ (by simp)
  simp [isOpener, isCloser]

theorem parseArgument_render (h : a.Readable) (naming : Naming) (hd : d.parameters.getD [] = []) :
    parseArgument naming d a.render = pure a.plain := by
  have hname := isNameChar_of_isName h.name
  have hcolon : ∀ c ∈ a.name, (c != ':') := fun c hc => bne_of_class (hname c hc) rfl
  have htrim : a.name.trim = a.name :=
    trim_eq_self fun c hc => not_isBlank_of_isNameChar (hname c hc)
  have hsplit : splitValue (' ' :: a.value) = .ok (a.type.resolved, a.default, a.type.directive) :=
    splitValue_eq h.type.resolved.phrase h.default h.type.directive
  unfold parseArgument
  rw [a.render_eq, dropWhile_append_of_pos hcolon, takeWhile_append_of_pos hcolon]
  simp only [cons_append, nil_append,
    dropWhile_cons_of_neg (p := (· != ':')) (a := ':') (by decide),
    takeWhile_cons_of_neg (p := (· != ':')) (a := ':') (by decide), append_nil, htrim, h.name,
    if_true, hsplit, ofExcept_ok, pure_bind, useType_plain h.type.resolved naming hd]
  rfl

theorem dropName_chars (hcs : ∀ c ∈ cs, isNameChar c) {d : Char} (hd : isNameChar d = false)
    (ks : List Lexeme) : dropName (cs.map .char ++ .char d :: ks) = .char d :: ks := by
  induction cs with
  | nil => rw [map_nil, nil_append, dropName, hd, if_neg Bool.false_ne_true]
  | cons c cs ih =>
    obtain ⟨hc, hcs⟩ := forall_mem_cons.mp hcs
    rw [map_cons, cons_append, dropName, if_pos hc, ih hcs]

theorem startsArgument_name (hc : isNameStart c) (hcs : ∀ d ∈ cs, isNameChar d) (ks : List Lexeme) :
    startsArgument (.char c :: (cs.map .char ++ .char ':' :: ks)) := by
  rw [startsArgument, dropName, if_pos (isNameChar_of_isNameStart hc), dropName_chars hcs rfl]
  simp [Lexeme.startsWith, dropBlank, hc, show isBlank ':' = false from rfl]

theorem isArgumentGap_of_isNameChar (h : isNameChar c) : isArgumentGap c = false := by
  simp [isArgumentGap, ne_of_class h (d := ' ') rfl, ne_of_class h (d := ',') rfl,
    ne_of_class h (d := '\t') rfl, ne_of_class h (d := '\n') rfl]

theorem argumentPieces_name (hcs : ∀ c ∈ cs, isNameChar c) (ms : List Lexeme) :
    argumentPieces false 0 (cs.map .char ++ ms) = prependHead cs <$> argumentPieces false 0 ms := by
  induction cs with
  | nil => rw [prependHead_nil_argumentPieces]; rfl
  | cons c cs ih =>
    obtain ⟨hc, hcs⟩ := forall_mem_cons.mp hcs
    rw [map_cons, cons_append, argumentPieces_char (by simp), isArgumentGap_of_isNameChar hc,
      argumentDepthAfter_of_neither (isOpener_of_isNameChar hc) (isCloser_of_isNameChar hc), ih hcs,
      prependHead_prependHead, singleton_append]

/-- **An argument is a piece of its own.** -/
theorem Argument.Readable.argumentPieces (h : a.Readable) (hu : u.startsWith (· == '"') = false)
    (hends : EndsArgument (lex false u)) :
    Schemata.argumentPieces true 0 (lex false (a.render ++ u)) =
      (fun ps => [] :: prependHead a.render ps) <$>
        Schemata.argumentPieces false 0 (lex false u) := by
  obtain ⟨c, cs, hname, hc, hcs⟩ := isName_iff.mp h.name
  have hchar := isNameChar_of_isNameStart hc
  have hchars := plain_of_isName h.name
  have hlex : lex false (a.render ++ u) = .char c :: (cs.map .char ++ .char ':' :: .char ' ' ::
      (lex false a.value ++ lex false u)) := by
    rw [a.render_eq]
    simp only [append_assoc, cons_append, nil_append]
    rw [lex_append_chars hchars, lex_cons_of_ne_quote (by decide), lex_cons_of_ne_quote (by decide),
      lex_append h.phrase_value.closed hu, hname, map_cons, cons_append]
  -- the name starts a piece, and all that follows goes to the same one
  have hvalue : Schemata.argumentPieces true 0 (lex false a.value ++ lex false u) =
      prependHead a.value <$> Schemata.argumentPieces false 0 (lex false u) := by
    have :=
      (h.phrase_value.nested.mono isArgumentChar_of_isRowChar).argumentPieces (.inl rfl) hends true
    rwa [raw_lex] at this
  have hrest : Schemata.argumentPieces false 0 (cs.map .char ++ .char ':' :: .char ' ' ::
      (lex false a.value ++ lex false u)) =
      prependHead (cs ++ ':' :: ' ' :: a.value) <$>
        Schemata.argumentPieces false 0 (lex false u) := by
    rw [argumentPieces_name hcs, argumentPieces_char (by simp),
      show isArgumentGap ':' = false from rfl, show argumentDepthAfter 0 ':' = 0 from rfl,
      argumentPieces_char (by simp), show isArgumentGap ' ' = true from rfl,
      show argumentDepthAfter 0 ' ' = 0 from rfl, hvalue, prependHead_prependHead,
      prependHead_prependHead, prependHead_prependHead, append_assoc, append_assoc]
    rfl
  have hrender : a.render = c :: (cs ++ ':' :: ' ' :: a.value) := by
    rw [a.render_eq, hname]
    rfl
  rw [hlex, Schemata.argumentPieces, isArgumentGap_of_isNameChar hchar,
    argumentDepthAfter_of_neither (isOpener_of_isNameChar hchar) (isCloser_of_isNameChar hchar),
    hrest, hrender]
  simp only [startsArgument_name hc hcs]
  cases Schemata.argumentPieces false 0 (lex false u) with
  | error e => rfl
  | ok ps =>
    cases ps <;> simp [Functor.map, Except.map, bind, Except.bind, pure, Except.pure, prependHead]

/-- The pieces of an argument list: each argument with the comma after it. -/
def argumentParts : List Text → List Text
  | [] => []
  | [t] => [t]
  | t :: ts => (t ++ ", ".toList) :: argumentParts ts

theorem argumentPieces_joinWith (h : ∀ a ∈ as, a.Readable) (hne : as ≠ []) :
    argumentPieces true 0 (lex false (joinWith ", ".toList (as.map Argument.render))) =
      .ok ([] :: argumentParts (as.map Argument.render)) := by
  induction as with
  | nil => exact absurd rfl hne
  | cons a as ih =>
    obtain ⟨ha, has⟩ := forall_mem_cons.mp h
    cases as with
    | nil =>
      have := ha.argumentPieces (u := []) rfl ⟨by rw [lex_nil]; rfl, by rw [lex_nil]; rfl⟩
      rw [append_nil, lex_nil] at this
      rw [map_cons, map_nil, joinWith_singleton, this]
      simp [argumentPieces, Functor.map, Except.map, prependHead, argumentParts]
    | cons b as =>
      have hsep : ∀ t : Text, lex false (", ".toList ++ t) =
          .char ',' :: .char ' ' :: lex false t :=
        fun t => lex_append_chars (forall_mem_of_all rfl) false t
      rw [map_cons, map_cons, joinWith_cons_cons, append_assoc,
        ha.argumentPieces rfl (by rw [hsep]; exact ⟨rfl, rfl⟩), hsep, argumentPieces_char (by simp),
        show isArgumentGap ',' = true from rfl]
      have hspace : argumentPieces true 0 (.char ' ' ::
          lex false (joinWith ", ".toList (b.render :: as.map Argument.render))) =
          .ok ([' '] :: argumentParts (b.render :: as.map Argument.render)) := by
        rw [argumentPieces_char (by simp [startsArgument, Lexeme.startsWith,
          show isNameStart ' ' = false from rfl]), show isArgumentGap ' ' = true from rfl,
          show argumentDepthAfter 0 ' ' = 0 from rfl, ← map_cons, ih has (cons_ne_nil _ _)]
        rfl
      rw [show argumentDepthAfter 0 ',' = 0 from rfl, hspace]
      simp [Functor.map, Except.map, prependHead, argumentParts]

/-- A phrase that does not end with a comma is clean, and a comma after it is cleaned away. -/
theorem cleanArgument_eq (h : IsPhrase (· != ',') t) :
    cleanArgument t = t ∧ cleanArgument (t ++ ", ".toList) = t := by
  obtain ⟨c, hc, -, htop⟩ := h.getLast
  have hne : (c == ',') = false := by
    rw [beq_eq_false_iff_ne]
    rintro rfl
    exact absurd htop (by decide)
  have hdrop : t.dropEndWhile (· == ',') = t := dropEndWhile_eq_self hc hne
  constructor
  · rw [cleanArgument, h.trimmed, hdrop, h.trimmed]
  · have htrim : trim (t ++ ", ".toList) = t ++ [','] := by
      obtain ⟨d, ds, rfl, hd⟩ := h.head
      rw [trim, trimStart_eq_dropWhile, cons_append,
        dropWhile_cons_of_neg (by simp [hd]), ← cons_append,
        show ", ".toList = [','] ++ [' '] from rfl, ← append_assoc, trimEnd,
        dropEndWhile_append (forall_mem_of_all rfl)]
      exact trimEnd_append_singleton rfl _
    rw [cleanArgument, htrim, dropEndWhile_append (forall_mem_of_all rfl), hdrop, h.trimmed]

theorem map_cleanArgument {ts : List Text} (h : ∀ t ∈ ts, IsPhrase (· != ',') t) :
    (argumentParts ts).map cleanArgument = ts := by
  induction ts with
  | nil => rfl
  | cons t ts ih =>
    obtain ⟨ht, hts⟩ := forall_mem_cons.mp h
    cases ts with
    | nil => simp [argumentParts, (cleanArgument_eq ht).1]
    | cons s ts =>
      rw [argumentParts, map_cons, (cleanArgument_eq ht).2, ih hts]
      exact cons_ne_nil _ _

/-- **The arguments of a field** are found where they were written. -/
theorem splitArguments_render (h : ∀ a ∈ as, a.Readable) :
    splitArguments (joinWith ", ".toList (as.map Argument.render)) =
      .ok (as.map Argument.render) := by
  by_cases hne : as = []
  · subst hne
    rw [map_nil, joinWith_nil, splitArguments, lex_nil]
    rfl
  · have hclean : (argumentParts (as.map Argument.render)).map cleanArgument =
        as.map Argument.render := by
      refine map_cleanArgument fun t ht => ?_
      obtain ⟨a, ha, rfl⟩ := mem_map.mp ht
      exact (h a ha).phrase_render
    rw [splitArguments, argumentPieces_joinWith h hne]
    cases hparts : argumentParts (as.map Argument.render) with
    | nil =>
      rw [hparts] at hclean
      simp [hne] at hclean
    | cons p ps =>
      rw [hparts] at hclean
      simp only [bind, Except.bind, hclean, pure, Except.pure]

/-- The arguments of a field in parentheses, if there are any. -/
def argumentsText : Option (List Argument) → Text
  | none => []
  | some as => '(' :: (Text.joinWith ", ".toList (as.map Argument.render) ++ [')'])

theorem nested_arguments (h : ∀ a ∈ as, a.Readable) :
    Nested (fun _ => true) [] (lex false (joinWith ", ".toList (as.map Argument.render))) := by
  induction as with
  | nil =>
    rw [map_nil, joinWith_nil, lex_nil]
    exact .nil
  | cons a as ih =>
    obtain ⟨ha, has⟩ := forall_mem_cons.mp h
    have hline := ha.phrase_render
    cases as with
    | nil => exact hline.nested.mono fun _ _ => rfl
    | cons b as =>
      rw [map_cons, map_cons, joinWith_cons_cons, append_assoc,
        lex_append hline.closed rfl, lex_append_chars (forall_mem_of_all rfl), ← map_cons]
      exact (hline.nested.mono fun _ _ => rfl).append
        (.char rfl rfl (by decide) (fun _ => rfl) (.space rfl (ih has)))

theorem parseArguments_eq {arguments : Option (List Argument)}
    (h : ∀ as ∈ arguments, ∀ a ∈ as, a.Readable) (naming : Naming) (hd : d.parameters.getD [] = [])
    (t : Text) {rest : Text} (hrest : arguments = none → rest.trim = rest ∧
      rest.startsWith (· == '(') = false) :
    parseArguments naming d t (argumentsText arguments ++ rest) =
      pure (arguments.map (List.map Argument.plain), rest.trim) := by
  cases arguments with
  | none =>
    obtain ⟨htrim, hparen⟩ := hrest rfl
    rw [argumentsText, nil_append, parseArguments, hparen, htrim]
    rfl
  | some as =>
    have has := h as rfl
    have hbal := takeBalanced_bracketed (show isOpener '(' = true from rfl)
      (nested_arguments has) rest
    have hparse : (as.map Argument.render).mapM (parseArgument naming d) =
        pure (as.map Argument.plain) := by
      clear h hrest hbal
      induction as with
      | nil => rfl
      | cons a as ih =>
        obtain ⟨ha, has⟩ := forall_mem_cons.mp has
        rw [map_cons, mapM_cons, parseArgument_render ha naming hd, pure_bind, ih has, pure_bind]
        rfl
    have hparen : startsWith (· == '(') (argumentsText (some as) ++ rest) := rfl
    rw [parseArguments, if_pos hparen, argumentsText]
    simp only [cons_append, append_assoc, nil_append]
    rw [show closerOf '(' = ')' from rfl] at hbal
    rw [hbal]
    simp only [ofExcept_ok, pure_bind, innerText, tail_cons, dropLast_concat,
      splitArguments_render has, hparse]
    rfl

end Arguments

/-! ### Fields -/

def Field.head (f : Field) : Text :=
  f.name ++ argumentsText f.arguments

/-- The field from its type on, without the comment after it. -/
def Field.tail (f : Field) : Text :=
  match f.type with
  | some u => ':' :: ' ' :: (u.resolved ++ (defaulted f.default ++ spaced u.directive))
  | none => spaced f.directive

theorem Field.line_eq (f : Field) : f.line = f.head ++ f.tail ++ spaced f.inlineComment := by
  unfold Field.line Field.head Field.tail argumentsText
  cases f.arguments <;> cases f.type <;> simp

/-- What follows the arguments of a field, without the space before it. -/
def Field.rest (f : Field) : Text :=
  match f.type with
  | some _ => f.tail
  | none => f.directive.getD []

theorem spaced_of_isComment (h : t.IsComment) : spaced (some t) = ' ' :: t := by
  cases t with
  | nil => cases h.hash
  | cons c cs => rfl

theorem cutInlineComment_eq (h : IsPhrase top t) {comment : Option Text}
    (hc : ∀ c ∈ comment, c.IsComment) :
    cutInlineComment (t ++ spaced comment) = .ok (t, comment) := by
  have htop : ∀ c : Char, (c != '#') → (c == '#') = false := by
    intro c hc
    simpa using hc
  unfold cutInlineComment
  cases comment with
  | none =>
    rw [show spaced none = [] from rfl, append_nil, cutAt_eq_none h.nested.noHash htop]
    rfl
  | some c =>
    have hcomment := hc c rfl
    rw [spaced_of_isComment hcomment]
    cases c with
    | nil => cases hcomment.hash
    | cons d c =>
      obtain rfl : d = '#' := by simpa [startsWith] using hcomment.hash
      have hnested : Nested (· != '#') [] (lex false (t ++ [' '])) := by
        rw [lex_append h.closed rfl, lex_cons_of_ne_quote (by decide), lex_nil]
        exact h.nested.noHash.append (.space rfl .nil)
      have hsplit : t ++ ' ' :: '#' :: c = t ++ [' '] ++ '#' :: c := by simp
      have htrim : trimEnd (t ++ [' ']) = t := by
        obtain ⟨e, he, hblank, -⟩ := h.getLast
        rw [trimEnd, dropEndWhile_append (forall_mem_of_all rfl), dropEndWhile_eq_self he hblank]
      rw [hsplit, cutAt_eq_some hnested htop rfl (by decide)]
      simp only [bind, Except.bind, pure, Except.pure, htrim, hcomment.trimmed]

theorem annotationFor_eq_none {annotations : List Annotation} {kind : Kind}
    (h : ∀ a ∈ annotations, a.kind ≠ kind) (name : Text) (parent : Option (Kind × Text)) :
    annotationFor annotations kind name parent = none := by
  rw [annotationFor, find?_eq_none]
  intro a ha
  simp [h a ha]

theorem Field.startsWith_tail (f : Field) (hp : p ' ' = false ∧ p ':' = false) :
    f.tail.startsWith p = false := by
  unfold Field.tail
  cases f.type with
  | some u => exact hp.2
  | none =>
    cases f.directive with
    | none => rfl
    | some t =>
      cases t with
      | nil => rfl
      | cons c t => exact hp.1

namespace Field.Readable

variable {f : Field}

theorem phrase_head (h : f.Readable) : IsPhrase (fun _ => true) f.head := by
  have hname := isNameChar_of_isName h.name
  have hphrase : IsPhrase (fun _ => true) f.name := isPhrase_of_isName h.name fun _ _ => rfl
  unfold Field.head
  cases ha : f.arguments with
  | none => rwa [argumentsText, append_nil]
  | some as =>
    have hnested := nested_arguments (h.arguments as ha)
    have hchars := plain_of_isName h.name
    obtain ⟨c, cs, hcs, hc⟩ := hphrase.head
    refine ⟨?_, ?_, by simp [argumentsText]⟩
    · rw [argumentsText, lex_append_chars hchars, lex_cons_of_ne_quote (by decide),
        lex_append hnested.isQuiet rfl, lex_cons_of_ne_quote (by decide), lex_nil]
      exact (nested_name hname fun _ _ => rfl).append (hnested.bracketed (c := '(') rfl rfl .nil)
    · rw [argumentsText, hcs, trim, trimStart_eq_dropWhile, cons_append,
        dropWhile_cons_of_neg (by simp [hc]), ← cons_append, ← cons_append,
        ← append_assoc, trimEnd_append_singleton rfl]

theorem phrase (h : f.Readable) : IsPhrase (fun _ => true) (f.head ++ f.tail) := by
  unfold Field.tail
  cases ht : f.type with
  | none =>
    exact h.phrase_head.spaced (fun t ht => (h.directive t ht).2.phrase.mono fun _ _ => rfl) rfl
  | some u =>
    have hvalue := (h.type u ht).phrase fun t ht => (h.default t ht).2
    exact h.phrase_head.join (hvalue.mono fun _ _ => rfl) [':', ' '] (by decide)
      (by simp [isOpener, isCloser]) (by simp)

theorem trim_tail (h : f.Readable) :
    f.tail.trimStart = f.rest ∧ f.tail.trim = f.rest ∧ f.rest.trim = f.rest := by
  unfold Field.rest
  cases ht : f.type with
  | some u =>
    have hcolon : IsPhrase (fun _ => true) [':'] := by
      refine ⟨?_, rfl, by simp⟩
      rw [lex_of_not_quote (by decide)]
      exact Nested.ofChars (forall_mem_of_all rfl)
    have htail : f.tail =
        [':'] ++ ([' '] ++ (u.resolved ++ (defaulted f.default ++ spaced u.directive))) := by
      simp [Field.tail, ht]
    have hvalue := (h.type u ht).phrase fun t ht => (h.default t ht).2
    have hphrase := hcolon.join (hvalue.mono fun _ _ => rfl) [' '] (by decide)
      (by simp [isOpener, isCloser]) (by simp)
    rw [← htail] at hphrase
    exact ⟨hphrase.trimStart_eq, hphrase.trimmed, hphrase.trimmed⟩
  | none =>
    cases hd : f.directive with
    | none => simp [Field.tail, ht, hd, spaced, trimStart, trim, trimEnd, dropEndWhile]
    | some t =>
      have hdir := (h.directive t hd).2
      have htail : f.tail = ' ' :: t := by
        simp [Field.tail, ht, hd, hdir.spaced_eq]
      refine ⟨?_, ?_, hdir.phrase.trimmed⟩
      · rw [htail, trimStart_eq_dropWhile, dropWhile_cons_of_pos (by decide)]
        exact hdir.phrase.trimStart_eq
      · rw [htail, trim_cons_of_isBlank (by decide)]
        exact hdir.phrase.trimmed

end Field.Readable

/-- **The line of a field is read as the field**, its description and the comments above it
apart. -/
theorem parseField_of_readable {f : Field} (h : f.Readable) (naming : Naming)
    {annotations : List Annotation} (hann : ∀ a ∈ annotations, a.kind ≠ .property)
    (hd : d.parameters.getD [] = []) :
    parseField naming annotations d f.line =
      pure { f.plain with comments := [], description := none } := by
  have htake : Text.takeName (f.head ++ f.tail) =
      some (f.name, argumentsText f.arguments ++ f.tail) := by
    rw [Field.head, append_assoc]
    refine takeName_append_of_isName h.name ?_
    cases f.arguments with
    | none => exact f.startsWith_tail (by decide)
    | some as => rfl
  obtain ⟨hstart, htrim, hrest⟩ := h.trim_tail
  have harguments : parseArguments naming d (f.head ++ f.tail)
      (argumentsText f.arguments ++ f.tail).trimStart =
      pure (f.arguments.map (List.map Argument.plain), f.rest) := by
    cases ha : f.arguments with
    | none =>
      have hparen : f.rest.startsWith (· == '(') = false := by
        unfold Field.rest Field.tail
        cases ht : f.type with
        | some u => rfl
        | none =>
          cases hdir : f.directive with
          | none => rfl
          | some t =>
            obtain ⟨s, rfl⟩ := (h.directive t hdir).2.eq_cons
            rfl
      have := @parseArguments_eq _ none (by simp) naming hd (f.head ++ f.tail) f.rest
        (fun _ => ⟨hrest, hparen⟩)
      rw [argumentsText, nil_append, hrest] at this
      rw [argumentsText, nil_append, hstart]
      exact this
    | some as =>
      have := @parseArguments_eq _ (some as) (fun bs hb => h.arguments bs (ha.trans hb)) naming hd
        (f.head ++ f.tail) f.tail (by simp)
      rw [htrim] at this
      exact this
  rw [parseField, f.line_eq, cutInlineComment_eq h.phrase h.inlineComment]
  simp only [ofExcept_ok, pure_bind, htake, harguments, annotationFor_eq_none hann]
  unfold Field.rest
  cases ht : f.type with
  | some u =>
    have hu := h.type u ht
    have htail : f.tail = ':' :: ' ' ::
        (u.resolved ++ (defaulted f.default ++ spaced u.directive)) := by
      simp [Field.tail, ht]
    simp only [htail,
      splitValue_eq hu.resolved.phrase (fun t ht => (h.default t ht).2) hu.directive, ofExcept_ok,
      pure_bind, useType_plain hu.resolved naming hd]
    have hdir : f.directive = none := by
      cases hdir : f.directive with
      | none => rfl
      | some t =>
        have := (h.directive t hdir).1
        rw [ht] at this
        cases this
    simp only [Field.plain, ht, hdir, Option.map_some, TypeUse.plain]
  | none =>
    have hdefault : f.default = none := by
      cases hdef : f.default with
      | none => rfl
      | some t => exact absurd ht (h.default t hdef).1
    cases hdir : f.directive with
    | none => simp only [Option.getD_none, Field.plain, ht, hdir, hdefault, Option.map_none]
    | some t =>
      obtain ⟨s, rfl⟩ := (h.directive t hdir).2.eq_cons
      simp only [Option.getD_some, Field.plain, ht, hdir, hdefault, Option.map_none]

/-- **A field in writing is read back**, whatever white space, literals and brackets its types,
values and directives have inside.  Nothing stands above its line, its uses are of types without
type arguments, and the declaration it is read for is no template. -/
theorem parseField_render {f : Field} (h : f.Readable) (hplain : f.plain = f)
    (hbare : f.comments = [] ∧ f.description = none) {l : Layout} (hl : l.indent = 0)
    (naming : Naming) {d : Declaration} (hd : d.isTemplate = false) :
    parseField naming [] d (f.render l) = pure f := by
  have hparameters : d.parameters.getD [] = [] := by
    simpa [Declaration.isTemplate] using hd
  have hrender : f.render l = f.line := by
    simp [Field.render, hbare, given, Layout.pad, hl, Text.ofLines]
  have hfield : { f.plain with comments := [], description := none } = f := by
    rw [hplain, ← hbare.1, ← hbare.2]
  rw [hrender, parseField_of_readable h naming (List.forall_mem_nil _) hparameters, hfield]

/-- A field with arguments, values of all kinds, directives and a comment. -/
def reportField : Field :=
  { name := "report".toList
    arguments := some [
      { name := "where".toList
        type := ⟨"[ Filter ! ]".toList, false, "[ Filter ! ]".toList, false, none, none⟩
        default := some "\x7bany: [1, -2.5e3,  \x7b\x7d], not: \"a, (b: # c\"\x7d".toList },
      { name := "order".toList
        type := ⟨"Order!".toList, false, "Order!".toList, false,
          some "@deprecated(since: \"2\")".toList, none⟩
        default := some "ASC".toList }]
    type := some
      ⟨"[Row!]!".toList, false, "[Row!]!".toList, false,
        some "@cost(of: [rows(1)])  @audit".toList, none⟩
    default := some "[ ]".toList
    inlineComment := some "# all \"of them".toList }

theorem readable_reportField : reportField.Readable where
  name := by decide
  arguments := by
    rintro as ⟨⟩
    refine forall_mem_cons.mpr ⟨⟨by decide,
      ⟨⟨by decide +kernel, by decide, ⟨_, rfl⟩⟩, by simp⟩, ?_⟩,
      forall_mem_singleton.mpr ⟨by decide, ⟨⟨by decide +kernel, by decide, ⟨_, rfl⟩⟩, ?_⟩, ?_⟩⟩
    · rintro t ⟨⟩
      decide +kernel
    · rintro t ⟨⟩
      exact ⟨by decide +kernel, by decide⟩
    · rintro t ⟨⟩
      decide +kernel
  type := by
    rintro u ⟨⟩
    refine ⟨⟨by decide +kernel, by decide, ⟨_, rfl⟩⟩, ?_⟩
    rintro t ⟨⟩
    exact ⟨by decide +kernel, by decide⟩
  default := by
    rintro t ⟨⟩
    exact ⟨by decide, by decide +kernel⟩
  directive := by
    intro t ht
    cases ht
  inlineComment := by
    rintro t ⟨⟩
    exact ⟨by decide, by decide, by decide⟩

/-- The theorem on this field, with the line written out. -/
theorem parseField_render_reportField :
    reportField.Readable ∧ parseField {} [] { kind := .type, name := "Query".toList }
      ("report(where: [ Filter ! ] = \x7bany: [1, -2.5e3,  \x7b\x7d], ".toList ++
        "not: \"a, (b: # c\"\x7d, order: Order! = ASC @deprecated(since: \"2\")): ".toList ++
        "[Row!]! = [ ] @cost(of: [rows(1)])  @audit # all \"of them".toList) =
          pure reportField := by
  have hline : reportField.render { indent := 0 } =
      "report(where: [ Filter ! ] = \x7bany: [1, -2.5e3,  \x7b\x7d], ".toList ++
        "not: \"a, (b: # c\"\x7d, order: Order! = ASC @deprecated(since: \"2\")): ".toList ++
        "[Row!]! = [ ] @cost(of: [rows(1)])  @audit # all \"of them".toList := by
    decide +kernel
  refine ⟨readable_reportField, ?_⟩
  rw [← hline]
  exact parseField_render readable_reportField (by decide +kernel) ⟨rfl, rfl⟩ rfl {} rfl

end Schemata
