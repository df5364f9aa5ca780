import Schemata.Proofs.FieldLines

/-!
# Legible fields

The line of a legible field is a row of words, and its parts are phrases, so that the line is read
as the field itself.

## Main results

* `Field.Legible.exists_words`, `Field.Legible.isLine` — the line of a field is a row of words.
* `parseField_line` — the line of a field is read as the field.
-/

namespace Schemata

open Resolve List

variable {enum : Bool} {inner name t : Text}

/-! ### Legible texts are phrases -/

theorem Spaced.ne_nil (h : Spaced false (lex false t)) : t ≠ [] := by
  obtain ⟨c, cs, rfl, -⟩ := h.head
  exact cons_ne_nil c cs

theorem trim_around {s u : Text} (hs : ∀ c ∈ s, isBlank c) (hu : ∀ c ∈ u, isBlank c)
    (h : Spaced false (lex false t)) : Text.trim (s ++ (t ++ u)) = t := by
  rw [trim_between hs hu, h.trim_eq]

theorem IsLine.phrase (h : IsLine t) : IsPhrase (· != ',') t := by
  exact ⟨h.nested.mono fun _ hc => bne_of_class hc rfl, h.spaced.trim_eq, h.spaced.ne_nil⟩

theorem Text.IsType.not_mem (h : t.IsType) {c : Char} (hc : isTypeChar c = false)
    (h' : c ≠ ']' ∧ c ≠ ' ') : c ∉ t := by
  intro hm
  rcases h.chars c hm with hc' | hc'
  · rw [hc] at hc'
    cases hc'
  · exact hc'.elim h'.1 h'.2

theorem Text.IsType.plain (h : t.IsType) : t.IsPlainType where
  phrase := by
    refine ⟨h.nested.mono fun c hc => ?_, h.spaced.trim_eq, h.spaced.ne_nil⟩
    simp only [isTypeChar, Bool.or_eq_true, beq_iff_eq] at hc
    rcases hc with (hc | rfl) | rfl
    · simp [isPhraseChar, ne_of_class hc (d := ',') rfl, ne_of_class hc (d := ':') rfl,
        ne_of_class hc (d := '@') rfl, ne_of_class hc (d := '=') rfl, ne_of_class hc (d := '<') rfl]
    · rfl
    · rfl
  angle := h.not_mem rfl (by decide)
  decorated := h.decorated

theorem Text.IsValue.phrase (h : t.IsValue) : IsPhrase isPhraseChar t := by
  refine ⟨h.nested.mono fun c hc => ?_, h.spaced.trim_eq, h.spaced.ne_nil⟩
  rw [isValueChar, Bool.and_eq_true] at hc
  exact hc.2

theorem Text.IsDirectives.nested (h : t.IsDirectives) :
    Nested (fun c => isDirectiveChar c || c == ' ') [] (lex false t) := by
  obtain ⟨ws, hne, hspread, hws⟩ := h.words
  have hall : Nested (fun c => isDirectiveChar c || c == ' ') [] (lex false (spread ws)) := by
    clear hspread hne
    induction ws with
    | nil =>
      rw [spread_nil, lex_nil]
      exact .nil
    | cons w ws ih =>
      obtain ⟨⟨hw, hn, -⟩, hws⟩ := forall_mem_cons.mp hws
      have hq : Text.startsWith (· == '"') (spread ws) = false := by
        simpa using startsWith_spread ws (p := (· == '"')) rfl (u := []) rfl
      rw [spread_cons, lex_cons_of_ne_quote (by decide), lex_append hw.closed hq]
      exact .space rfl ((hn.mono fun c hc => by simp [hc]).append (ih hws))
  rw [← hspread, lex_cons_of_ne_quote (by decide)] at hall
  cases hall with
  | opening bracket _ _ => cases bracket
  | char _ _ _ _ rest => exact rest

theorem Text.IsDirectives.row (h : t.IsDirectives) : t.IsDirectiveRow where
  phrase := by
    refine ⟨h.nested.mono fun c hc => ?_, h.isLine.spaced.trim_eq, h.isLine.spaced.ne_nil⟩
    simp only [isDirectiveChar, Bool.or_eq_true, beq_iff_eq] at hc
    rcases hc with ((hc | rfl) | rfl) | rfl
    · simp [isRowChar, ne_of_class hc (d := ',') rfl, ne_of_class hc (d := ':') rfl,
        ne_of_class hc (d := '<') rfl]
    · rfl
    · rfl
    · rfl
  mark := by
    obtain ⟨s, rfl⟩ := h.eq_cons
    rfl

theorem TypeUse.Legible.readable {u : TypeUse} (h : u.Legible) : u.Readable :=
  ⟨h.resolved.plain, fun t ht => (h.directive t ht).row⟩

theorem Argument.Legible.readable {a : Argument} (h : a.Legible) : a.Readable :=
  ⟨h.name, h.type.readable, fun t ht => (h.default t ht).phrase⟩

theorem Field.Legible.readable {f : Field} (h : f.Legible enum) : f.Readable where
  name := h.name
  arguments := fun as ha a hm => (h.arguments as ha a hm).readable
  type := fun u hu => (h.type u hu).2.readable
  default := fun t ht => ⟨(h.default t ht).1, (h.default t ht).2.phrase⟩
  directive := fun t ht => ⟨(h.directive t ht).1, (h.directive t ht).2.row⟩
  inlineComment := h.inlineComment

/-! ### What follows a type -/

/-- The words that may follow a name or a type: directives, and before them, where `values` says so,
a default value after its sign. -/
inductive Trails (values : Bool) : List Text → Prop
  | nil : Trails values []
  | value {v : Text} {ws : List Text} (allowed : values = true) (value : v.IsValue)
      (rest : Trails values ws) : Trails values (['='] :: v :: ws)
  | directive {w : Text} {ws : List Text} (word : IsWord w)
      (nested : Nested isDirectiveChar [] (lex false w)) (mark : ∃ s, w = '@' :: s)
      (rest : Trails values ws) : Trails values (w :: ws)

theorem isWord_equals : IsWord ['='] := by
  constructor
  · rw [lex_of_not_quote (by decide)]
    exact Nested.ofChars (forall_mem_of_all rfl)
  · rw [lex_of_not_quote (by decide)]
    exact .char rfl .nil

theorem Trails.isWord {values : Bool} {ws : List Text} (h : Trails values ws) :
    ∀ w ∈ ws, IsWord w := by
  induction h with
  | nil => exact fun w hw => nomatch hw
  | value _ value _ ih =>
    exact forall_mem_cons.mpr ⟨isWord_equals, forall_mem_cons.mpr ⟨value.isWord, ih⟩⟩
  | directive word _ _ _ ih => exact forall_mem_cons.mpr ⟨word, ih⟩

theorem exists_trails_spaced (values : Bool) {directive : Option Text}
    (h : ∀ t ∈ directive, t.IsDirectives) :
    ∃ ws, Trails values ws ∧ spaced directive = spread ws := by
  cases directive with
  | none => exact ⟨[], .nil, rfl⟩
  | some t =>
    obtain ⟨ws, -, hspread, hws⟩ := (h t rfl).words
    refine ⟨ws, ?_, (h t rfl).row.spaced_eq.trans hspread⟩
    clear hspread
    induction ws with
    | nil => exact .nil
    | cons w ws ih =>
      obtain ⟨⟨hword, hnested, hmark⟩, hws⟩ := forall_mem_cons.mp hws
      exact .directive hword hnested hmark (ih hws)

theorem exists_trails {default directive : Option Text} (hd : ∀ t ∈ default, t.IsValue)
    (h : ∀ t ∈ directive, t.IsDirectives) :
    ∃ ws, Trails true ws ∧ defaulted default ++ spaced directive = spread ws := by
  obtain ⟨ws, hws, hspread⟩ := exists_trails_spaced true h
  cases default with
  | none => exact ⟨ws, hws, hspread⟩
  | some v =>
    refine ⟨['='] :: v :: ws, .value rfl (hd v rfl) hws, ?_⟩
    rw [hspread]
    simp [defaulted]

/-! ### The line of a field -/

theorem Argument.Legible.isLine_render {a : Argument} (h : a.Legible) : IsLine a.render := by
  obtain ⟨ws, hws, hspread⟩ := exists_trails h.default h.type.directive
  have hrender : a.render = a.name ++ [':'] ++ spread (a.type.resolved :: ws) := by
    rw [a.render_eq, Argument.value, hspread]
    simp
  rw [hrender]
  exact (isWord_of_isName h.name).colon.isLine.append_spread
    (forall_mem_cons.mpr ⟨h.type.resolved.isWord, hws.isWord⟩)

theorem spaced_arguments {as : List Argument} (h : ∀ a ∈ as, a.Legible) (hne : as ≠ []) :
    Spaced false (lex false (Text.joinWith ", ".toList (as.map Argument.render))) := by
  induction as with
  | nil => exact absurd rfl hne
  | cons a as ih =>
    obtain ⟨ha, has⟩ := forall_mem_cons.mp h
    have hline := ha.isLine_render
    cases as with
    | nil => exact hline.spaced
    | cons b as =>
      rw [map_cons, map_cons, joinWith_cons_cons, append_assoc,
        lex_append hline.closed rfl, lex_append_chars (forall_mem_of_all rfl), ← map_cons]
      exact hline.spaced.append (.char rfl (.space (ih has (cons_ne_nil _ _))))

theorem lex_call (hname : name.isName) (hinner : Closed inner) :
    lex false (name ++ '(' :: (inner ++ [')'])) =
      name.map .char ++ .char '(' :: (lex false inner ++ [.char ')']) := by
  rw [lex_append_chars (plain_of_isName hname), lex_cons_of_ne_quote (by decide),
    lex_append hinner rfl, lex_cons_of_ne_quote (by decide), lex_nil]

theorem nested_call {top : Char → Bool} (hname : name.isName)
    (hinner : Nested (fun _ => true) [] (lex false inner)) (htop : ∀ c, isNameChar c → top c)
    (hparen : top '(') : Nested top [] (lex false (name ++ '(' :: (inner ++ [')']))) := by
  rw [lex_call hname hinner.isQuiet]
  exact (nested_name (isNameChar_of_isName hname) htop).append
    (hinner.bracketed (c := '(') rfl hparen .nil)

theorem isWord_call (hname : name.isName) (hinner : Nested (fun _ => true) [] (lex false inner))
    (hspaced : Spaced true (lex false inner ++ [.char ')'])) :
    IsWord (name ++ '(' :: (inner ++ [')'])) := by
  refine ⟨nested_call hname hinner (fun c hc => isItemChar_of_isNameChar hc) rfl, ?_⟩
  have hs := (isWord_of_isName hname).spaced
  rw [lex_name (isNameChar_of_isName hname)] at hs
  rw [lex_call hname hinner.isQuiet]
  exact hs.append (.char rfl hspaced)

theorem Field.Legible.isWord_head {f : Field} (h : f.Legible enum) : IsWord f.head := by
  unfold Field.head
  cases ha : f.arguments with
  | none =>
    rw [argumentsText, append_nil]
    exact isWord_of_isName h.name
  | some as =>
    have has := h.arguments as ha
    refine isWord_call h.name (nested_arguments fun a ha => (has a ha).readable) ?_
    by_cases hne : as = []
    · subst hne
      rw [map_nil, joinWith_nil, lex_nil]
      exact .char rfl .nil
    · exact (spaced_arguments has hne).after.append (.char rfl .nil)

theorem Field.Legible.exists_words {f : Field} (h : f.Legible enum) :
    (∃ ws, f.type = none ∧ Trails false ws ∧ f.tail = spread ws) ∨
      ∃ u ws, f.type = some u ∧ enum = false ∧ u.Legible ∧ Trails true ws ∧
        f.tail = ':' :: spread (u.resolved :: ws) ∧
        defaulted f.default ++ spaced u.directive = spread ws := by
  unfold Field.tail
  cases ht : f.type with
  | none =>
    obtain ⟨ws, hws, hspread⟩ := exists_trails_spaced false fun t ht => (h.directive t ht).2
    exact .inl ⟨ws, rfl, hws, hspread⟩
  | some u =>
    obtain ⟨henum, hu⟩ := h.type u ht
    obtain ⟨ws, hws, hspread⟩ := exists_trails (fun t ht => (h.default t ht).2) hu.directive
    exact .inr ⟨u, ws, rfl, henum, hu, hws, by simp [hspread], hspread⟩

theorem Field.Legible.isLine {f : Field} (h : f.Legible enum) : IsLine (f.head ++ f.tail) := by
  rcases h.exists_words with ⟨ws, -, hws, htail⟩ | ⟨u, ws, -, -, hu, hws, htail, -⟩
  · rw [htail]
    exact h.isWord_head.isLine.append_spread hws.isWord
  · have hsplit : f.head ++ f.tail = f.head ++ [':'] ++ spread (u.resolved :: ws) := by
      rw [htail]
      simp
    rw [hsplit]
    exact h.isWord_head.colon.isLine.append_spread
      (forall_mem_cons.mpr ⟨hu.resolved.isWord, hws.isWord⟩)

/-- **The line of a field is read as the field**, its description and the comments above it
apart. -/
theorem parseField_line {f : Field} (h : f.Legible enum) (naming : Naming)
    {annotations : List Annotation} (hann : ∀ a ∈ annotations, a.kind ≠ .property) {d : Declaration}
    (hd : d.parameters = none) :
    parseField naming annotations d f.line =
      pure { f.plain with comments := [], description := none } :=
  parseField_of_readable h.readable naming hann (by rw [hd]; rfl)

end Schemata
