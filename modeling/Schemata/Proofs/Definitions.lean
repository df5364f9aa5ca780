import Schemata.Proofs.Neighbours

/-!
# Definitions of directives as they are written

A definition of a directive gives its name, the arguments it takes in parentheses, whether it may be
repeated, and after the word `on` the locations it may stand at, with bars between them.  It may be
laid out over several lines.  A line ends it when its parentheses are closed, its locations are
named and no bar stands on either side of the line break.  So a definition that is laid out in the
usual ways is read to its end, and adds its directive to a schema wherever it stands.
-/

namespace Schemata

open Resolve List

variable {c : Char} {g p q r t : Text}

/-! ### Where locations are named -/

/-- Whether a text goes on after an `o` with `n`, white space and a location. -/
def endsOn : Text → Bool
  | 'n' :: b :: l :: _ => isBlank b && isLocationChar l
  | _ => false

theorem namesLocations_cons (boundary : Bool) (c : Char) (t : Text) :
    namesLocations boundary (c :: t) =
      (boundary && c == 'o' && endsOn t || namesLocations (c == ')' || isBlank c) t) :=
  rfl

theorem endsOn_paren (s t : Text) : endsOn (s ++ ')' :: t) = endsOn s := by
  rcases s with _ | ⟨c, _ | ⟨b, _ | ⟨l, s⟩⟩⟩
  · rfl
  all_goals by_cases hc : c = 'n'
  · subst hc
    cases t <;> rfl
  · simp [endsOn, hc]
  · subst hc
    exact Bool.and_false (isBlank b)
  · simp [endsOn, hc]
  · subst hc
    rfl
  · simp [endsOn, hc]

/-- Whether a word may start after a text, `boundary` saying so for the empty one. -/
def boundaryAfter (boundary : Bool) (t : Text) : Bool :=
  (t.getLast?.map fun c => c == ')' || isBlank c).getD boundary

theorem boundaryAfter_cons (boundary : Bool) (c : Char) (t : Text) :
    boundaryAfter boundary (c :: t) = boundaryAfter (c == ')' || isBlank c) t := by
  unfold boundaryAfter
  cases t with
  | nil => rfl
  | cons d t => simp [getLast?_cons]

theorem namesLocations_append {s : Text} (hs : 'o' ∉ s) (boundary : Bool) (t : Text) :
    namesLocations boundary (s ++ t) = namesLocations (boundaryAfter boundary s) t := by
  induction s generalizing boundary with
  | nil => rfl
  | cons c s ih =>
    obtain ⟨hc, hs⟩ : 'o' ≠ c ∧ 'o' ∉ s := by simpa using hs
    have hne : (c == 'o') = false := by simpa using hc.symm
    rw [cons_append, namesLocations_cons, hne, Bool.and_false, Bool.false_and, Bool.false_or, ih hs,
      boundaryAfter_cons]

theorem namesLocations_word {s : Text} (hs : ∀ c ∈ s, (c == ')' || isBlank c) = false) (t : Text) :
    namesLocations false (s ++ t) = namesLocations false t := by
  induction s with
  | nil => rfl
  | cons c s ih =>
    obtain ⟨hc, hs⟩ := forall_mem_cons.mp hs
    rw [cons_append, namesLocations_cons, hc, ih hs, Bool.false_and, Bool.false_and, Bool.false_or]

theorem namesLocations_paren (boundary : Bool) (s t : Text) :
    namesLocations boundary (s ++ ')' :: t) =
      (namesLocations boundary s || namesLocations true t) := by
  induction s generalizing boundary with
  | nil =>
    rw [nil_append, namesLocations_cons]
    simp [namesLocations]
  | cons c s ih =>
    rw [cons_append, namesLocations_cons, namesLocations_cons, ih, endsOn_paren, Bool.or_assoc]

/-! ### The lines of a definition -/

theorem append_eq_append_cons {α : Type} {s t p q : List α} {c : α} (h : s ++ t = p ++ c :: q) :
    (∃ r, s = p ++ c :: r ∧ q = r ++ t) ∨ ∃ r, p = s ++ r ∧ t = r ++ c :: q := by
  rcases append_eq_append_iff.mp h with ⟨r, hp, ht⟩ | ⟨r, hs, hq⟩
  · exact .inr ⟨r, hp, ht⟩
  · cases r with
    | nil =>
      rw [append_nil] at hs
      rw [nil_append] at hq
      exact .inr ⟨[], by rw [hs, append_nil], by rw [← hq, nil_append]⟩
    | cons d r =>
      rw [cons_append, List.cons.injEq] at hq
      obtain ⟨rfl, rfl⟩ := hq
      exact .inl ⟨r, hs, rfl⟩

theorem exists_tail_of_cons {α : Type} {d c : α} {t p q : List α} (hne : d ≠ c)
    (h : d :: t = p ++ c :: q) : ∃ r, p = d :: r ∧ t = r ++ c :: q := by
  cases p with
  | nil =>
    rw [nil_append, List.cons.injEq] at h
    exact absurd h.1 hne
  | cons e r =>
    rw [cons_append, List.cons.injEq] at h
    obtain ⟨rfl, h⟩ := h
    exact ⟨r, rfl, h⟩

theorem newline_not_mem_of_mem_lines {line : Text} (h : line ∈ t.lines) : '\n' ∉ line := by
  induction t generalizing line with
  | nil =>
    obtain rfl : line = [] := by simpa [Text.lines, Text.splitBy] using h
    exact not_mem_nil
  | cons c t ih =>
    by_cases hc : c = '\n'
    · subst hc
      have hlines : Text.lines ('\n' :: t) = [] :: Text.lines t := lines_append [] t
      rw [hlines] at h
      rcases mem_cons.mp h with rfl | h
      · exact not_mem_nil
      · exact ih h
    · obtain ⟨first, rest, hlines⟩ := exists_cons_of_ne_nil (lines_ne_nil t)
      have hcons : Text.lines ([c] ++ t) = ([c] ++ first) :: rest :=
        lines_append_cons (by simpa using Ne.symm hc) hlines
      rw [singleton_append] at hcons
      rw [hcons] at h
      rcases mem_cons.mp h with rfl | h
      · have := ih (hlines ▸ mem_cons_self)
        simpa [Ne.symm hc] using this
      · exact ih (hlines ▸ mem_cons_of_mem _ h)

theorem nextLine_blank (hg : ∀ c ∈ g, isBlank c) (t : Text) :
    nextLine (Text.lines (g ++ t)) = nextLine t.lines := by
  induction g with
  | nil => rfl
  | cons c g ih =>
    obtain ⟨hc, hg⟩ := forall_mem_cons.mp hg
    rw [← ih hg]
    by_cases hn : c = '\n'
    · subst hn
      have hlines : Text.lines ('\n' :: (g ++ t)) = [] :: Text.lines (g ++ t) :=
        lines_append [] (g ++ t)
      rw [cons_append, hlines]
      rfl
    · obtain ⟨first, rest, hlines⟩ := exists_cons_of_ne_nil (lines_ne_nil (g ++ t))
      have hcons : Text.lines ([c] ++ (g ++ t)) = ([c] ++ first) :: rest :=
        lines_append_cons (by simpa using Ne.symm hn) hlines
      rw [singleton_append] at hcons
      rw [cons_append, hcons, hlines, nextLine, nextLine, map_cons, map_cons, singleton_append,
        trim_cons_of_isBlank hc]

theorem startsWith_nextLine (hg : ∀ c ∈ g, isBlank c) (t : Text) :
    (nextLine (Text.lines (g ++ '|' :: t))).startsWith (· == '|') := by
  rw [nextLine_blank hg]
  obtain ⟨u, hu⟩ := nextLine_lines (rfl : isBlank '|' = false) t
  rw [hu]
  rfl

theorem nextLine_append_nil (lines : List Text) : nextLine (lines ++ [[]]) = nextLine lines := by
  unfold nextLine
  rw [map_append, List.find?_append]
  cases (lines.map Text.trim).find? fun l => !l.isEmpty with
  | some l => rfl
  | none => rfl

theorem isCompleteDefinition_eq_false {taken rest : List Text}
    (h : (Text.ofLines taken).count ')' < (Text.ofLines taken).count '(' ∨
      namesLocations true (Text.ofLines taken) = false ∨
      (Text.ofLines taken).trimEnd.endsWith (· == '|') ∨
      (nextLine rest).startsWith (· == '|')) : isCompleteDefinition taken rest = false := by
  unfold nextLine at h
  rcases h with h | h | h | h
  · have hcount : decide ((Text.ofLines taken).count '(' ≤ (Text.ofLines taken).count ')') =
        false :=
      decide_eq_false (by omega)
    simp only [isCompleteDefinition, hcount, Bool.false_and]
  · simp only [isCompleteDefinition, h, Bool.and_false, Bool.false_and]
  · simp only [isCompleteDefinition, h, Bool.not_true, Bool.and_false, Bool.false_and]
  · simp only [isCompleteDefinition, h, Bool.not_true, Bool.and_false]

/-- A line break between `p` and `q` does not end a definition. -/
def GoesOn (p q : Text) : Prop :=
  p.count ')' < p.count '(' ∨ namesLocations true p = false ∨
    p.trimEnd.endsWith (· == '|') = true ∨ (nextLine q.lines).startsWith (· == '|') = true

/-- A definition that goes on at each of its line breaks, and is complete, is read to its end. -/
theorem takeDefinition_of_goesOn (hopen : ∀ p q, t = p ++ '\n' :: q → GoesOn p q)
    (hdone : isCompleteDefinition t.lines [[]]) {taken more : List Text} (hne : taken ≠ [])
    (hlines : t.lines = taken ++ more) : takeDefinition taken (more ++ [[]]) = t.lines := by
  induction more generalizing taken with
  | nil =>
    rw [append_nil] at hlines
    rw [nil_append, takeDefinition, ← hlines, hdone, if_pos rfl]
  | cons line more ih =>
    have hbreak : t = Text.ofLines taken ++ '\n' :: Text.ofLines (line :: more) := by
      rw [← ofLines_lines t, hlines, ofLines_append (cons_ne_nil _ _), ← ofLines_append_newline hne,
        append_assoc, singleton_append]
    have hrest : (Text.ofLines (line :: more)).lines = line :: more := by
      refine lines_ofLines (cons_ne_nil _ _) fun l hl => newline_not_mem_of_mem_lines (t := t) ?_
      rw [hlines]
      exact mem_append_right _ hl
    have hnot : isCompleteDefinition taken (line :: more ++ [[]]) = false := by
      have hgoes := hopen _ _ hbreak
      rw [GoesOn, hrest, ← nextLine_append_nil] at hgoes
      exact isCompleteDefinition_eq_false hgoes
    rw [cons_append] at hnot ⊢
    rw [takeDefinition, hnot, if_neg Bool.false_ne_true, ih (by simp) (by rw [hlines]; simp)]

/-! ### The parts of a definition -/

def Text.IsGap (t : Text) : Prop :=
  ∀ c ∈ t, isBlank c = true

/-- The arguments of a definition: none, or a text in parentheses whose own parentheses are
nested. -/
inductive IsArguments : Text → Prop
  | none : IsArguments []
  | some {gap inner : Text} (blank : gap.IsGap)
      (opened : ∀ p q, inner = p ++ q → p.count ')' ≤ p.count '(')
      (closed : inner.count '(' = inner.count ')') : IsArguments (gap ++ '(' :: (inner ++ [')']))

/-- What may stand between the arguments and the word `on`. -/
inductive IsModifier : Text → Prop
  | plain {gap : Text} (blank : gap.IsGap) : IsModifier gap
  | repeatable {gap after : Text} (blank : gap.IsGap) (blank' : after.IsGap) (apart : after ≠ []) :
      IsModifier (gap ++ ("repeatable".toList ++ after))

/-- The characters of the name of a location. -/
def isLocationNameChar (c : Char) : Bool :=
  c.isUpper || c == '_'

/-- Names of locations with bars between them. -/
inductive IsLocations : Text → Prop
  | one {name : Text} (ne : name ≠ []) (chars : ∀ c ∈ name, isLocationNameChar c = true) :
      IsLocations name
  | more {locations gap gap' name : Text} (before : IsLocations locations) (blank : gap.IsGap)
      (blank' : gap'.IsGap) (ne : name ≠ []) (chars : ∀ c ∈ name, isLocationNameChar c = true) :
      IsLocations (locations ++ (gap ++ '|' :: (gap' ++ name)))

/-- The definition of a directive in its parts. -/
structure DirectiveDefinition where
  gap : Text
  name : Text
  arguments : Text
  /-- White space, with the word `repeatable` if there is one. -/
  modifier : Text
  space : Text
  /-- A bar before the first location, with white space after it, or nothing. -/
  lead : Text
  locations : Text
  deriving DecidableEq

namespace DirectiveDefinition

def opening (x : DirectiveDefinition) : Text :=
  ("directive".toList ++ x.gap ++ ['@']) ++ x.name

def head (x : DirectiveDefinition) : Text :=
  x.opening ++ x.arguments

def text (x : DirectiveDefinition) : Text :=
  x.opening ++ (x.arguments ++ (x.modifier ++ ('o' :: 'n' :: (x.space ++ (x.lead ++ x.locations)))))

/-- The parts are what they should be, literals and braces are closed, and no line ends the
definition before its locations: it does not break right after its keyword, nor after more than one
character of white space behind the word `on`, and arguments that seem to name locations stand on
one line with the first location.  A line that starts with the first bar never ends it.  The three
layouts left out are definitions as well, but are not read to their end. -/
structure WellFormed (x : DirectiveDefinition) : Prop where
  /-- White space separates the keyword from the name, on one line. -/
  gap : x.gap ≠ [] ∧ ∀ c ∈ x.gap, isBlank c = true ∧ c ≠ '\n'
  name : x.name.isName = true
  arguments : IsArguments x.arguments
  modifier : IsModifier x.modifier
  /-- Without arguments, white space separates the name from what follows. -/
  apart : x.arguments = [] → x.modifier.startsWith isBlank = true
  space : x.space ≠ [] ∧ x.space.IsGap
  lead : x.lead = [] ∨ ∃ gap : Text, gap.IsGap ∧ x.lead = '|' :: gap
  locations : IsLocations x.locations
  closed : finalDepth 0 (lex true x.text) = some 0
  /-- A line breaks close to the word `on`, or before a bar. -/
  breaks : x.lead ≠ [] ∨ '\n' ∉ x.space.drop 2
  /-- No line but one that goes on to the locations seems to name them. -/
  unnamed : namesLocations true x.head = false ∨ '\n' ∉ x.modifier ∧ (x.lead ≠ [] ∨ '\n' ∉ x.space)

end DirectiveDefinition

/-! ### No line ends a definition early -/

theorem Text.IsGap.not_mem (h : g.IsGap) (hc : isBlank c = false) : c ∉ g := by
  intro hm
  rw [h c hm] at hc
  cases hc

theorem isNameChar_of_isLocationNameChar (h : isLocationNameChar c) : isNameChar c := by
  unfold isLocationNameChar at h
  unfold isNameChar Char.isAlphanum Char.isAlpha
  rcases Bool.or_eq_true_iff.mp h with h | h
  · simp [h]
  · simp [h]

theorem IsModifier.not_mem (h : IsModifier t) (hc : isBlank c = false)
    (hword : c ∉ "repeatable".toList) : c ∉ t := by
  cases h with
  | plain blank => exact blank.not_mem hc
  | repeatable blank blank' _ =>
    rw [mem_append, mem_append]
    rintro (hm | hm | hm)
    · exact blank.not_mem hc hm
    · exact hword hm
    · exact blank'.not_mem hc hm

theorem not_mem_of_isLocationNameChar (h : ∀ c ∈ t, isLocationNameChar c)
    (hc : isLocationNameChar c = false) : c ∉ t := by
  intro hm
  rw [h c hm] at hc
  cases hc

theorem IsLocations.bar_of_newline (h : IsLocations t) (hbreak : t = p ++ '\n' :: q) :
    (∃ u g : Text, g.IsGap ∧ p = u ++ '|' :: g) ∨ ∃ g v : Text, g.IsGap ∧ q = g ++ '|' :: v := by
  induction h generalizing p q with
  | one _ chars =>
    refine absurd ?_ (not_mem_of_isLocationNameChar chars (rfl : isLocationNameChar '\n' = false))
    rw [hbreak]
    simp
  | @more locations gap gap' name _ blank blank' _ chars ih =>
    rcases append_eq_append_cons hbreak with ⟨r, hbefore, rfl⟩ | ⟨p₁, rfl, hbreak₁⟩
    · rcases ih hbefore with hleft | ⟨g, v, hg, rfl⟩
      · exact .inl hleft
      · exact .inr ⟨g, v ++ (gap ++ '|' :: (gap' ++ name)), hg, by simp⟩
    rcases append_eq_append_cons hbreak₁ with ⟨r, hgap, rfl⟩ | ⟨p₂, rfl, hbreak₂⟩
    · refine .inr ⟨r, gap' ++ name, fun c hc => blank c ?_, rfl⟩
      rw [hgap]
      simp [hc]
    obtain ⟨p₃, rfl, hbreak₃⟩ := exists_tail_of_cons (by decide) hbreak₂
    rcases append_eq_append_cons hbreak₃ with ⟨r, hgap', rfl⟩ | ⟨p₄, rfl, hbreak₄⟩
    · refine .inl ⟨locations ++ gap, p₃, fun c hc => blank' c ?_, by simp⟩
      rw [hgap']
      simp [hc]
    · refine absurd ?_ (not_mem_of_isLocationNameChar chars (rfl : isLocationNameChar '\n' = false))
      rw [hbreak₄]
      simp

theorem endsWith_trimEnd_bar (u : Text) (hg : g.IsGap) :
    (Text.trimEnd (u ++ '|' :: g)).endsWith (· == '|') := by
  have htrim : Text.trimEnd (u ++ '|' :: g) = u ++ ['|'] := by
    have hcut : u ++ '|' :: g = (u ++ ['|']) ++ g := by simp
    rw [hcut, Text.trimEnd, dropEndWhile_append hg]
    exact dropEndWhile_eq_self getLast?_concat (rfl : isBlank '|' = false)
  rw [htrim, Text.endsWith, getLast?_concat]
  rfl

namespace DirectiveDefinition.WellFormed

variable {x : DirectiveDefinition} (h : x.WellFormed)

include h

theorem of_mem_opening (hc : c ∈ x.opening) : isNameChar c ∨ c = '@' ∨ isBlank c ∧ c ≠ '\n' := by
  rcases mem_append.mp hc with hc | hc
  · rcases mem_append.mp hc with hc | hc
    · rcases mem_append.mp hc with hc | hc
      · have hkeyword : ∀ d ∈ "directive".toList, isNameChar d := forall_mem_of_all rfl
        exact .inl (hkeyword c hc)
      · exact .inr (.inr (h.gap.2 c hc))
    · exact .inr (.inl (mem_singleton.mp hc))
  · exact .inl (isNameChar_of_isName h.name c hc)

theorem namesLocations_opening (t : Text) :
    namesLocations true (x.opening ++ t) = namesLocations false t := by
  have hkeyword : 'o' ∉ "directive".toList ++ x.gap ++ ['@'] := by
    intro hm
    rcases mem_append.mp hm with hm | hm
    · rcases mem_append.mp hm with hm | hm
      · exact absurd hm (by decide)
      · have := (h.gap.2 _ hm).1
        exact absurd this (by decide)
    · exact absurd hm (by decide)
  have hboundary : boundaryAfter true ("directive".toList ++ x.gap ++ ['@']) = false := by
    rw [boundaryAfter, getLast?_concat]
    rfl
  have hword : ∀ c ∈ x.name, (c == ')' || isBlank c) = false := by
    intro c hc
    have hname := isNameChar_of_isName h.name c hc
    rw [not_isBlank_of_isNameChar hname, Bool.or_false, beq_eq_false_iff_ne]
    exact ne_of_class hname rfl
  have hcut : x.opening ++ t = ("directive".toList ++ x.gap ++ ['@']) ++ (x.name ++ t) :=
    append_assoc _ _ _
  rw [hcut, namesLocations_append hkeyword, hboundary, namesLocations_word hword]

end DirectiveDefinition.WellFormed

theorem IsArguments.namesLocations (h : IsArguments t) (u : Text) :
    namesLocations false (t ++ u) = (namesLocations false t || namesLocations (!t.isEmpty) u) := by
  cases h with
  | none => rfl
  | @some gap inner _ _ _ =>
    have hcut : ∀ u : Text, gap ++ '(' :: (inner ++ [')']) ++ u =
        (gap ++ '(' :: inner) ++ ')' :: u := by
      simp
    have hnone := hcut []
    have hne : (gap ++ '(' :: (inner ++ [')'])).isEmpty = false := by simp
    rw [append_nil] at hnone
    rw [hcut, hne, hnone, namesLocations_paren, namesLocations_paren]
    simp [Schemata.namesLocations]

namespace DirectiveDefinition.WellFormed

variable {x : DirectiveDefinition} (h : x.WellFormed)

include h

theorem namesLocations_head (t : Text) :
    namesLocations true (x.head ++ t) =
      (namesLocations true x.head || namesLocations (!x.arguments.isEmpty) t) := by
  rw [head, append_assoc, h.namesLocations_opening, h.namesLocations_opening,
    h.arguments.namesLocations]

theorem parens_not_mem_opening : '(' ∉ x.opening ∧ ')' ∉ x.opening := by
  constructor
  · intro hm
    rcases h.of_mem_opening hm with hc | hc | ⟨hc, -⟩ <;> exact absurd hc (by decide)
  · intro hm
    rcases h.of_mem_opening hm with hc | hc | ⟨hc, -⟩ <;> exact absurd hc (by decide)

theorem newline_not_mem_opening : '\n' ∉ x.opening := by
  intro hm
  rcases h.of_mem_opening hm with hc | hc | ⟨-, hc⟩
  · exact absurd hc (by decide)
  · exact absurd hc (by decide)
  · exact hc rfl

theorem goesOn_arguments (hbreak : x.arguments = p ++ '\n' :: r) : GoesOn (x.opening ++ p) q := by
  generalize harguments : x.arguments = t at hbreak
  have hargs := h.arguments
  rw [harguments] at hargs
  cases hargs with
  | none => simp at hbreak
  | @some gap inner blank opened _ =>
    rcases append_eq_append_cons hbreak with ⟨r', hgap, -⟩ | ⟨p₁, rfl, hbreak₁⟩
    · -- nothing but white space stands between the name and the parenthesis
      refine .inr (.inl ?_)
      have hnone : 'o' ∉ p := by
        intro hm
        refine blank.not_mem (rfl : isBlank 'o' = false) ?_
        rw [hgap]
        simp [hm]
      have hempty := namesLocations_append hnone false []
      rw [append_nil] at hempty
      rw [h.namesLocations_opening, hempty]
      rfl
    · -- the first parenthesis is open
      obtain ⟨p₂, rfl, hbreak₂⟩ := exists_tail_of_cons (by decide) hbreak₁
      rcases append_eq_append_cons hbreak₂ with ⟨r', hinner, -⟩ | ⟨p₃, -, hbreak₃⟩
      · refine .inl ?_
        have hle := opened _ _ hinner
        have hleft : gap.count '(' = 0 := count_eq_zero.mpr (blank.not_mem rfl)
        have hright : gap.count ')' = 0 := count_eq_zero.mpr (blank.not_mem rfl)
        have hleft' : x.opening.count '(' = 0 := count_eq_zero.mpr h.parens_not_mem_opening.1
        have hright' : x.opening.count ')' = 0 := count_eq_zero.mpr h.parens_not_mem_opening.2
        simp only [count_append, hleft, hright, hleft', hright', count_cons_self,
          count_cons_of_ne (by decide : '(' ≠ ')')]
        omega
      · have hm : '\n' ∈ [')'] := by
          rw [hbreak₃]
          simp
        exact absurd hm (by decide)

theorem goesOn_modifier (hbreak : x.modifier = p ++ '\n' :: r) : GoesOn (x.head ++ p) q := by
  have hhead : namesLocations true x.head = false := by
    refine h.unnamed.resolve_right fun hnone => hnone.1 ?_
    rw [hbreak]
    simp
  have hnone : 'o' ∉ p := by
    intro hm
    refine h.modifier.not_mem (rfl : isBlank 'o' = false) (by decide) ?_
    rw [hbreak]
    simp [hm]
  have hempty := namesLocations_append hnone (!x.arguments.isEmpty) []
  rw [append_nil] at hempty
  refine .inr (.inl ?_)
  rw [h.namesLocations_head, hhead, hempty]
  rfl

theorem goesOn_space (hbreak : x.space = p ++ '\n' :: r) :
    GoesOn (x.head ++ (x.modifier ++ 'o' :: 'n' :: p)) (r ++ (x.lead ++ x.locations)) := by
  have hgap : ∀ c ∈ p ++ '\n' :: r, isBlank c := hbreak ▸ h.space.2
  rcases h.lead with hlead | ⟨g, hg, hlead⟩
  · -- with no first bar the line break is too close to the word for a location to follow it
    have hshort : '\n' ∉ x.space.drop 2 := h.breaks.resolve_left (fun hne => hne hlead)
    have hnewline : '\n' ∈ x.space := by
      rw [hbreak]
      simp
    have hhead : namesLocations true x.head = false := by
      rcases h.unnamed with hhead | ⟨-, hne | hnone⟩
      · exact hhead
      · exact absurd hlead hne
      · exact absurd hnewline hnone
    have hmodifier : 'o' ∉ x.modifier := h.modifier.not_mem rfl (by decide)
    refine .inr (.inl ?_)
    rw [h.namesLocations_head, hhead, Bool.false_or, namesLocations_append hmodifier,
      namesLocations_cons]
    rcases p with _ | ⟨b, _ | ⟨l, p⟩⟩
    · simp [endsOn, namesLocations]
    · simp [endsOn, namesLocations]
    · refine absurd ?_ hshort
      rw [hbreak]
      simp
  · refine .inr (.inr (.inr ?_))
    have hr : ∀ c ∈ r, isBlank c := fun c hc => hgap c (by simp [hc])
    rw [hlead, cons_append]
    exact startsWith_nextLine hr _

theorem goesOn (hbreak : x.text = p ++ '\n' :: q) : GoesOn p q := by
  -- by the part that the line break is in
  rcases append_eq_append_cons hbreak with ⟨r, hopening, -⟩ | ⟨p₁, rfl, hbreak₁⟩
  · refine absurd ?_ h.newline_not_mem_opening
    rw [hopening]
    simp
  rcases append_eq_append_cons hbreak₁ with ⟨r, harguments, -⟩ | ⟨p₂, rfl, hbreak₂⟩
  · exact h.goesOn_arguments harguments
  rcases append_eq_append_cons hbreak₂ with ⟨r, hmodifier, -⟩ | ⟨p₃, rfl, hbreak₃⟩
  · rw [← append_assoc]
    exact h.goesOn_modifier hmodifier
  obtain ⟨p₄, rfl, hbreak₄⟩ := exists_tail_of_cons (by decide) hbreak₃
  obtain ⟨p₅, rfl, hbreak₅⟩ := exists_tail_of_cons (by decide) hbreak₄
  rcases append_eq_append_cons hbreak₅ with ⟨r, hspace, rfl⟩ | ⟨p₆, rfl, hbreak₆⟩
  · rw [← append_assoc]
    exact h.goesOn_space hspace
  rcases append_eq_append_cons hbreak₆ with ⟨r, hlead, -⟩ | ⟨p₇, rfl, hbreak₇⟩
  · -- a first bar stands before the line break
    rcases h.lead with hnone | ⟨g, hg, hbar⟩
    · rw [hnone] at hlead
      simp at hlead
    · rw [hbar] at hlead
      obtain ⟨g', rfl, hgap⟩ := exists_tail_of_cons (by decide) hlead
      have hg' : Text.IsGap g' := fun c hc => hg c (by rw [hgap]; simp [hc])
      refine .inr (.inr (.inl ?_))
      have := endsWith_trimEnd_bar (x.opening ++
        (x.arguments ++ (x.modifier ++ 'o' :: 'n' :: x.space))) hg'
      simpa using this
  · rcases h.locations.bar_of_newline hbreak₇ with ⟨u, g, hg, rfl⟩ | ⟨g, v, hg, rfl⟩
    · refine .inr (.inr (.inl ?_))
      have := endsWith_trimEnd_bar
        (x.opening ++ (x.arguments ++ (x.modifier ++ 'o' :: 'n' :: (x.space ++ (x.lead ++ u))))) hg
      simpa using this
    · exact .inr (.inr (.inr (startsWith_nextLine hg v)))

end DirectiveDefinition.WellFormed

/-! ### A definition is complete at its end -/

theorem IsLocations.not_mem (h : IsLocations t) (hblank : isBlank c = false) (hbar : c ≠ '|')
    (hname : isLocationNameChar c = false) : c ∉ t := by
  induction h with
  | one _ chars => exact not_mem_of_isLocationNameChar chars hname
  | more _ blank blank' _ chars ih =>
    intro hm
    rcases mem_append.mp hm with hm | hm
    · exact ih hm
    · rcases mem_append.mp hm with hm | hm
      · exact blank.not_mem hblank hm
      · rcases mem_cons.mp hm with hm | hm
        · exact hbar hm
        · rcases mem_append.mp hm with hm | hm
          · exact blank'.not_mem hblank hm
          · exact not_mem_of_isLocationNameChar chars hname hm

theorem IsLocations.exists_cons (h : IsLocations t) : ∃ c u, t = c :: u ∧ isLocationNameChar c := by
  induction h with
  | one ne chars =>
    obtain ⟨c, u, rfl⟩ := exists_cons_of_ne_nil ne
    exact ⟨c, u, rfl, chars c mem_cons_self⟩
  | more _ _ _ _ _ ih =>
    obtain ⟨c, u, rfl, hc⟩ := ih
    exact ⟨c, _, cons_append, hc⟩

theorem IsLocations.exists_concat (h : IsLocations t) :
    ∃ u c, t = u ++ [c] ∧ isLocationNameChar c := by
  cases h with
  | one ne chars =>
    obtain ⟨u, c, rfl⟩ := (eq_nil_or_concat' _).resolve_left ne
    exact ⟨u, c, rfl, chars c (by simp)⟩
  | @more locations gap gap' _ _ _ _ ne chars =>
    obtain ⟨u, c, rfl⟩ := (eq_nil_or_concat' _).resolve_left ne
    exact ⟨locations ++ (gap ++ '|' :: (gap' ++ u)), c, by simp, chars c (by simp)⟩

theorem IsArguments.count_eq (h : IsArguments t) : t.count '(' = t.count ')' := by
  cases h with
  | none => rfl
  | some blank _ closed =>
    simp [count_eq_zero.mpr (blank.not_mem (rfl : isBlank '(' = false)),
      count_eq_zero.mpr (blank.not_mem (rfl : isBlank ')' = false)), closed]

theorem IsModifier.boundaryAfter (h : IsModifier t) {boundary : Bool} (hnil : t = [] → boundary) :
    boundaryAfter boundary t := by
  have hblank : ∀ (u : Text) {g : Text}, g.IsGap → g ≠ [] →
      Schemata.boundaryAfter boundary (u ++ g) := by
    intro u g hg hne
    obtain ⟨g, c, rfl⟩ := (eq_nil_or_concat' _).resolve_left hne
    rw [Schemata.boundaryAfter, ← append_assoc, getLast?_concat]
    simp [hg c (by simp)]
  cases h with
  | plain blank =>
    cases t with
    | nil => exact hnil rfl
    | cons c t => exact hblank [] blank (cons_ne_nil c t)
  | @repeatable gap after _ blank' apart =>
    rw [← append_assoc]
    exact hblank _ blank' apart

theorem trimEnd_append_cons (hc : isBlank c = false) (s t : Text) :
    Text.trimEnd (s ++ c :: t) = s ++ c :: t.trimEnd := by
  have hreverse : (s ++ c :: t).reverse = t.reverse ++ c :: s.reverse := by simp
  have hstart := trimStart_append_cons hc t.reverse s.reverse
  rw [trimStart_eq_dropWhile, trimStart_eq_dropWhile] at hstart
  rw [Text.trimEnd, Text.dropEndWhile, hreverse, hstart, Text.trimEnd, Text.dropEndWhile]
  simp

namespace DirectiveDefinition.WellFormed

variable {x : DirectiveDefinition} (h : x.WellFormed)

include h

theorem count_text (hopening : c ∉ x.opening) (hblank : isBlank c = false) (hbar : c ≠ '|')
    (hname : isLocationNameChar c = false) (hword : c ∉ "repeatableon".toList) :
    x.text.count c = x.arguments.count c := by
  have hmodifier : c ∉ x.modifier := by
    refine h.modifier.not_mem hblank fun hm => hword ?_
    exact mem_append_left _ hm
  have hon : c ∉ ['o', 'n'] := fun hm => hword (mem_append_right "repeatable".toList hm)
  have hlead : c ∉ x.lead := by
    rcases h.lead with hlead | ⟨g, hg, hlead⟩
    · simp [hlead]
    · rw [hlead, mem_cons, not_or]
      exact ⟨hbar, hg.not_mem hblank⟩
  have hrest : c ∉ x.modifier ++ (['o', 'n'] ++ (x.space ++ (x.lead ++ x.locations))) := by
    simp only [mem_append, not_or]
    exact ⟨hmodifier, hon, h.space.2.not_mem hblank, hlead, h.locations.not_mem hblank hbar hname⟩
  have hcut : x.text =
      x.opening ++
        (x.arguments ++ (x.modifier ++ (['o', 'n'] ++ (x.space ++ (x.lead ++ x.locations))))) := rfl
  rw [hcut, count_append, count_append, count_eq_zero.mpr hopening, count_eq_zero.mpr hrest]
  omega

theorem namesLocations_text : namesLocations true x.text := by
  have hcut : x.text =
      x.head ++ (x.modifier ++ ('o' :: 'n' :: (x.space ++ (x.lead ++ x.locations)))) :=
    (append_assoc _ _ _).symm
  have hends : endsOn ('n' :: (x.space ++ (x.lead ++ x.locations))) := by
    obtain ⟨hne, hgap⟩ := h.space
    obtain ⟨c, u, hlocations, hc⟩ := h.locations.exists_cons
    have hc : isLocationChar c := by
      unfold isLocationNameChar at hc
      simp [isLocationChar, hc]
    -- only the two characters after the word are looked at
    rcases hspace : x.space with _ | ⟨b, _ | ⟨l, space⟩⟩
    · exact absurd hspace hne
    · have hb : isBlank b := hgap b (by simp [hspace])
      rcases h.lead with hlead | ⟨g, -, hlead⟩
      · simp [endsOn, hlead, hlocations, hb, hc]
      · simp [endsOn, hlead, hb, isLocationChar]
    · have hb : isBlank b := hgap b (by simp [hspace])
      have hl : isBlank l := hgap l (by simp [hspace])
      simp [endsOn, hb, hl, isLocationChar]
  have hboundary : boundaryAfter (!x.arguments.isEmpty) x.modifier := by
    refine h.modifier.boundaryAfter fun hnil => ?_
    cases harguments : x.arguments with
    | nil =>
      have := h.apart harguments
      rw [hnil] at this
      cases this
    | cons c u => rfl
  rw [hcut, h.namesLocations_head, namesLocations_append (h.modifier.not_mem rfl (by decide)),
    hboundary, namesLocations_cons, hends]
  simp

theorem exists_concat : ∃ u c, x.text = u ++ [c] ∧ isBlank c = false ∧ c ≠ '|' := by
  obtain ⟨u, c, hlocations, hc⟩ := h.locations.exists_concat
  refine ⟨x.opening ++ (x.arguments ++ (x.modifier ++ ('o' :: 'n' :: (x.space ++ (x.lead ++ u))))),
    c, ?_, not_isBlank_of_isNameChar (isNameChar_of_isLocationNameChar hc), ?_⟩
  · rw [text, hlocations]
    simp
  · rintro rfl
    cases hc

theorem isCompleteDefinition_text : isCompleteDefinition x.text.lines [[]] := by
  have hcount : x.text.count '(' = x.text.count ')' := by
    rw [h.count_text h.parens_not_mem_opening.1 rfl (by decide) rfl (by decide),
      h.count_text h.parens_not_mem_opening.2 rfl (by decide) rfl (by decide), h.arguments.count_eq]
  have hbar : x.text.trimEnd.endsWith (· == '|') = false := by
    obtain ⟨u, c, htext, hblank, hbar⟩ := h.exists_concat
    rw [htext, trimEnd_append_singleton hblank, Text.endsWith, getLast?_concat]
    simpa using hbar
  rw [isCompleteDefinition, ofLines_lines, hcount, h.namesLocations_text, hbar]
  simp [Text.trim, Text.trimStart, Text.trimEnd, Text.dropEndWhile, Text.startsWith]

theorem startsWith_tail (t : Text) :
    Text.startsWith isNameChar (x.arguments ++ (x.modifier ++ t)) = false := by
  have hblank : ∀ {c : Char}, isBlank c → isNameChar c = false := by
    intro c hc
    cases hname : isNameChar c with
    | false => rfl
    | true => rw [not_isBlank_of_isNameChar hname] at hc; cases hc
  generalize harguments : x.arguments = u
  have hargs := h.arguments
  rw [harguments] at hargs
  cases hargs with
  | none =>
    have hmodifier := h.apart harguments
    cases hcases : x.modifier with
    | nil =>
      rw [hcases] at hmodifier
      cases hmodifier
    | cons c m =>
      rw [hcases] at hmodifier
      exact hblank hmodifier
  | @some gap inner blank _ _ =>
    cases gap with
    | nil => rfl
    | cons c gap => exact hblank (blank c mem_cons_self)

theorem trim_opening (t : Text) :
    Text.trim (x.opening ++ t) = "directive".toList ++ (x.gap ++ '@' :: (x.name ++ t.trimEnd)) := by
  obtain ⟨n, c, hn⟩ := (eq_nil_or_concat' x.name).resolve_left (isName_ne_nil h.name)
  have hc : isBlank c = false :=
    not_isBlank_of_isNameChar (isNameChar_of_isName h.name c (by simp [hn]))
  have hregroup : ∀ s u : Text, (s ++ (n ++ [c])) ++ u = (s ++ n) ++ c :: u := by simp
  have hstart : Text.trimStart (x.opening ++ t) = x.opening ++ t := rfl
  have hopening : x.opening = ("directive".toList ++ x.gap ++ ['@']) ++ (n ++ [c]) :=
    congrArg (("directive".toList ++ x.gap ++ ['@']) ++ ·) hn
  have hcut : ∀ u : Text, x.opening ++ u =
      (("directive".toList ++ x.gap ++ ['@']) ++ n) ++ c :: u :=
    fun u => (congrArg (· ++ u) hopening).trans (hregroup _ u)
  have hflat : ∀ k g m u : Text, ((k ++ g ++ ['@']) ++ m) ++ u = k ++ (g ++ '@' :: (m ++ u)) := by
    simp
  rewrite [Text.trim, hstart, hcut, trimEnd_append_cons hc, ← hcut]
  exact hflat _ _ _ _

theorem exists_lines :
    ∃ first more, x.text.lines = first :: more ∧ directiveName? first.trim = some x.name := by
  obtain ⟨line, more, hlines⟩ := exists_cons_of_ne_nil
    (lines_ne_nil
      (x.arguments ++ (x.modifier ++ ('o' :: 'n' :: (x.space ++ (x.lead ++ x.locations))))))
  refine ⟨x.opening ++ line, more, lines_append_cons h.newline_not_mem_opening hlines, ?_⟩
  have hline : line <+: x.arguments ++
      (x.modifier ++ ('o' :: 'n' :: (x.space ++ (x.lead ++ x.locations)))) := by
    rw [← ofLines_lines (x.arguments ++ _), hlines]
    cases more with
    | nil => exact prefix_rfl
    | cons l more => exact ofLines_cons (cons_ne_nil l more) line ▸ prefix_append _ _
  have hstop : line.trimEnd.startsWith isNameChar = false :=
    startsWith_of_isPrefix (IsPrefix.trans (dropEndWhile_isPrefix isBlank line) hline)
      (h.startsWith_tail _)
  have htrim := h.trim_opening line
  have hgap : ∀ c ∈ x.gap, isBlank c := fun c hc => (h.gap.2 c hc).1
  obtain ⟨b, gap, hb⟩ := exists_cons_of_ne_nil h.gap.1
  have htake : (x.gap ++ '@' :: (x.name ++ line.trimEnd)).takeWhile isBlank = b :: gap := by
    rw [takeWhile_append_of_pos hgap, takeWhile_cons_of_neg (by decide), append_nil, hb]
  have hdrop : (x.gap ++ '@' :: (x.name ++ line.trimEnd)).dropWhile isBlank =
      '@' :: (x.name ++ line.trimEnd) := by
    rw [dropWhile_append_of_pos hgap, dropWhile_cons_of_neg (by decide)]
  rw [htrim, directiveName?, after?_append, Option.bind_some, htake, hdrop]
  simp only [takeName_append_of_isName h.name hstop, Option.map_some]

/-- **A definition is read to its end.** -/
theorem isDefinition : x.text.IsDefinition := by
  obtain ⟨first, more, hlines, hname⟩ := h.exists_lines
  refine ⟨?_, h.closed, first, more, x.name, hlines, hname, ?_⟩
  · obtain ⟨u, c, htext, hblank, -⟩ := h.exists_concat
    have hstart : x.text.trimStart = x.text := rfl
    rw [Text.trim, hstart, htext, trimEnd_append_singleton hblank]
  · exact takeDefinition_of_goesOn (fun _ _ => h.goesOn) h.isCompleteDefinition_text
      (cons_ne_nil first []) hlines

end DirectiveDefinition.WellFormed

/-! ### Definitions between declarations -/

/-- **A definition of a directive leaves its neighbours alone.**  Between texts that leave nothing
open it adds its directive to the declarations of the schema, written as it stands there, and every
other declaration stays as it is. -/
theorem declarations_add_directive {e : Expander} {x : DirectiveDefinition} (hx : x.WellFormed)
    {a b : Text} (ha : a.IsSelfContained) (hb : b.StartsNoBar) {ds : List Declaration} {c : Context}
    (h : Gives (e.declarations (a ++ '\n' :: b)) {} ds c) :
    ∃ before after c', ds = before ++ after ∧
      Gives (e.declarations (a ++ '\n' :: (x.text ++ '\n' :: b))) {}
        (before ++ { kind := .directive, name := x.name, raw := some x.text } :: after) c' := by
  obtain ⟨first, more, hlines, hname⟩ := hx.exists_lines
  exact gives_declarations_insert ha hx.isDefinition hlines hname hb h

def cacheDefinition : DirectiveDefinition where
  gap := " ".toList
  name := "cache".toList
  arguments := "(\n  ttl: Int = 60\n)".toList
  modifier := " repeatable ".toList
  space := "\n  ".toList
  lead := "| ".toList
  locations := "OBJECT\n  | FIELD_DEFINITION".toList

theorem wellFormed_cacheDefinition : cacheDefinition.WellFormed where
  gap := ⟨by decide, forall_mem_of_all rfl⟩
  name := rfl
  arguments := by
    have hopened : ')' ∉ "\n  ttl: Int = 60\n".toList := by decide
    refine @IsArguments.some [] "\n  ttl: Int = 60\n".toList (forall_mem_nil _) ?_ (by decide)
    intro p q hinner
    have hp : p.count ')' = 0 := by
      refine count_eq_zero.mpr fun hm => hopened ?_
      rw [hinner]
      exact mem_append_left q hm
    omega
  modifier := @IsModifier.repeatable " ".toList " ".toList (forall_mem_of_all rfl)
    (forall_mem_of_all rfl) (by decide)
  apart := fun h => absurd h (by decide)
  space := ⟨by decide, forall_mem_of_all rfl⟩
  lead := .inr ⟨" ".toList, forall_mem_of_all rfl, rfl⟩
  locations := @IsLocations.more "OBJECT".toList "\n  ".toList " ".toList "FIELD_DEFINITION".toList
    (.one (by decide) (forall_mem_of_all rfl)) (forall_mem_of_all rfl) (forall_mem_of_all rfl)
      (by decide)
    (forall_mem_of_all rfl)
  closed := by decide +kernel
  breaks := .inl (by decide)
  unnamed := .inl (by decide)

def beforeDefinition : Text :=
  "type A \x7b a: A \x7d".toList

def afterDefinition : Text :=
  "type B \x7b b: B \x7d".toList

theorem isSelfContained_beforeDefinition : beforeDefinition.IsSelfContained where
  closed := by decide +kernel
  definitions := by
    have hrows : linesWithStates beforeDefinition = .ok [(beforeDefinition, ⟨0, false⟩)] := by
      decide +kernel
    intro rows h r hr
    rw [hrows] at h
    obtain rfl := Except.ok.inj h
    obtain rfl := mem_singleton.mp hr
    exact .inr fun _ => by decide

theorem declarations_around :
    ((({} : Expander).declarations (beforeDefinition ++ '\n' :: afterDefinition)).outcome
      {}).1.toOption.map (·.map Declaration.description) = some [none, none] := by
  decide +kernel

/-- The theorem on a definition over several lines. -/
theorem declarations_add_directive_cache :
    cacheDefinition.WellFormed ∧ beforeDefinition.IsSelfContained ∧ afterDefinition.StartsNoBar ∧
      ∃ before after c c',
        Gives (({} : Expander).declarations (beforeDefinition ++ '\n' :: afterDefinition)) {}
          (before ++ after) c ∧
        Gives (({} : Expander).declarations
          (beforeDefinition ++ '\n' :: (cacheDefinition.text ++ '\n' :: afterDefinition))) {}
          (before ++ {
            kind := .directive, name := "cache".toList, raw := some cacheDefinition.text } :: after)
          c' := by
  obtain ⟨ds, c, h, -⟩ := exists_gives_of_outcome declarations_around
  have hb : afterDefinition.StartsNoBar := rfl
  obtain ⟨before, after, c', rfl, hadded⟩ :=
    declarations_add_directive wellFormed_cacheDefinition isSelfContained_beforeDefinition hb h
  exact ⟨wellFormed_cacheDefinition, isSelfContained_beforeDefinition, hb, before, after, c, c',
    h, hadded⟩

/-- The same definition with a description before it. -/
def describedDefinition : Text :=
  "\"Caches.\"\n".toList ++ cacheDefinition.text

theorem declarations_describedDefinition :
    ((({} : Expander).declarations
      (beforeDefinition ++ '\n' :: (describedDefinition ++ '\n' :: afterDefinition))).outcome
        {}).1.toOption.map (·.map Declaration.description) =
      some [none, some "\"Caches.\"".toList, none] := by
  decide +kernel

/-- The description of a definition is taken for that of the next declaration. -/
theorem not_add_describedDefinition :
    ∃ ds c ds' c',
      Gives (({} : Expander).declarations (beforeDefinition ++ '\n' :: afterDefinition)) {} ds c ∧
      Gives (({} : Expander).declarations
        (beforeDefinition ++ '\n' :: (describedDefinition ++ '\n' :: afterDefinition))) {} ds' c' ∧
      ¬ ∃ before after, ds = before ++ after ∧ ds' = before ++
        { kind := .directive, name := "cache".toList, raw := some cacheDefinition.text } ::
          after := by
  obtain ⟨ds, c, h, hds⟩ := exists_gives_of_outcome declarations_around
  obtain ⟨ds', c', h', hds'⟩ := exists_gives_of_outcome declarations_describedDefinition
  refine ⟨ds, c, ds', c', h, h', ?_⟩
  rintro ⟨before, after, rfl, rfl⟩
  have hnone : ∀ d ∈ before ++ after, d.description = none := by
    intro d hd
    have hm := List.mem_map_of_mem (f := Declaration.description) hd
    rw [hds] at hm
    simpa using hm
  have hsome : some "\"Caches.\"".toList ∈
      (before ++ ({ kind := .directive, name := "cache".toList, raw := some cacheDefinition.text } :
        Declaration) :: after).map Declaration.description := by
    rw [hds']
    exact List.mem_cons_of_mem none List.mem_cons_self
  obtain ⟨d, hd, hdescription⟩ := List.mem_map.mp hsome
  rcases List.mem_append.mp hd with hd | hd
  · rw [hnone d (List.mem_append_left after hd)] at hdescription
    cases hdescription
  · rcases List.mem_cons.mp hd with rfl | hd
    · cases hdescription
    · rw [hnone d (List.mem_append_right before hd)] at hdescription
      cases hdescription

end Schemata
