import Schemata.Proofs.Decoration
import Schemata.Proofs.FieldLines
import Schemata.Proofs.Substitution

/-!
# Trees of type expressions

A type is a name, a name with type arguments in angle brackets, or a list of a type in square
brackets; bangs may follow it.  Here type expressions are written down together with the white space
between their signs, so that every way of writing one is a value of its own.  Taking a type
expression apart gives the brackets and bangs around its core without their white space, and the
core as it was written; taking the core apart gives its name and its type arguments as they were
written.  Doing both again and again gives the whole tree back.

Two scanners take part in this.  One counts angle brackets only, the other takes all brackets for
one kind and does not let the count fall below zero.  Type expressions are nested properly, so they
agree.

## Main results

* `Decorated.ofText_padded`, `Application.ofText_core` — a type expression is taken apart as it was
  written.
* `Padded.ofText_text` — its tree is read back.
* `typeExpr_read_as_written` — type expressions are read as they are written.
-/

namespace Schemata

open List

/-! ### Type expressions and their white space -/

/-- White space. -/
structure Gap where
  text : Text
  blank : text.all isBlank = true := by decide +kernel
  deriving DecidableEq

/-- A name. -/
structure Name where
  text : Text
  isName : text.isName = true := by decide +kernel
  deriving DecidableEq

theorem Gap.isBlank_of_mem (g : Gap) : ∀ c ∈ g.text, isBlank c :=
  all_eq_true.mp g.blank

def Gap.empty : Gap := ⟨[], rfl⟩

@[simp] theorem Gap.text_empty : empty.text = [] := rfl

/-- Two stretches of white space, one after the other. -/
def Gap.append (g h : Gap) : Gap where
  text := g.text ++ h.text
  blank := by rw [all_append, g.blank, h.blank]; rfl

theorem Name.isNameChar_of_mem (n : Name) : ∀ c ∈ n.text, isNameChar c :=
  isNameChar_of_isName n.isName

mutual

/-- A type expression, with the white space between its signs. -/
inductive TypeExpr where
  | name (n : Name)
  | apply (base : Name) (gap : Gap) (arguments : TypeArguments)
  | list (before : Gap) (item : TypeExpr) (after : Gap)
  | bang (item : TypeExpr) (gap : Gap)

/-- One or more type arguments, with the white space around each of them. -/
inductive TypeArguments where
  | last (before : Gap) (item : TypeExpr) (after : Gap)
  | more (before : Gap) (item : TypeExpr) (after : Gap) (rest : TypeArguments)

end

mutual

def TypeExpr.text : TypeExpr → Text
  | .name n => n.text
  | .apply base gap arguments => base.text ++ (gap.text ++ '<' :: (arguments.text ++ ['>']))
  | .list before item after => '[' :: (before.text ++ (item.text ++ (after.text ++ [']'])))
  | .bang item gap => item.text ++ (gap.text ++ ['!'])

def TypeArguments.text : TypeArguments → Text
  | .last before item after => before.text ++ (item.text ++ after.text)
  | .more before item after rest => before.text ++ (item.text ++ after.text) ++ ',' :: rest.text

end

/-- A type expression with white space around it. -/
structure Padded where
  before : Gap := .empty
  item : TypeExpr
  after : Gap := .empty

/-- A type expression with the white space around it, as it is written. -/
def Padded.text (p : Padded) : Text :=
  p.before.text ++ (p.item.text ++ p.after.text)

def TypeArguments.toList : TypeArguments → List Padded
  | .last before item after => [⟨before, item, after⟩]
  | .more before item after rest => ⟨before, item, after⟩ :: rest.toList

namespace TypeExpr

def opening : TypeExpr → Text
  | name _ | apply .. => []
  | list _ item _ => '[' :: item.opening
  | bang item _ => item.opening

def closing : TypeExpr → Text
  | name _ | apply .. => []
  | list _ item _ => item.closing ++ [']']
  | bang item _ => item.closing ++ ['!']

/-- The core: the type expression inside of all lists and before all bangs. -/
def core : TypeExpr → TypeExpr
  | name n => name n
  | apply base gap arguments => apply base gap arguments
  | list _ item _ | bang item _ => item.core

def base : TypeExpr → Name
  | name n => n
  | apply base _ _ => base
  | list _ item _ | bang item _ => item.base

def arguments : TypeExpr → List TypeExpr
  | name _ => []
  | apply _ _ arguments => arguments.toList.map Padded.item
  | list _ item _ | bang item _ => item.arguments

theorem core_cases : (e : TypeExpr) → (e.core = name e.base ∧ e.arguments = []) ∨
    ∃ gap arguments, e.core = apply e.base gap arguments ∧
      e.arguments = arguments.toList.map Padded.item
  | name _ => .inl ⟨rfl, rfl⟩
  | apply _ gap arguments => .inr ⟨gap, arguments, rfl, rfl⟩
  | list _ item _ => item.core_cases
  | bang item _ => item.core_cases

/-! ### The characters of a type expression -/

theorem head_text : (e : TypeExpr) → ∃ c s, e.text = c :: s ∧ isBlank c = false
  | name n | apply n _ _ => by
    obtain ⟨c, cs, hn, hc, -⟩ := isName_iff.mp n.isName
    have hblank := not_isBlank_of_isNameChar (isNameChar_of_isNameStart hc)
    simp only [text, hn, cons_append]
    exact ⟨c, _, rfl, hblank⟩
  | list _ _ _ => ⟨'[', _, rfl, by decide⟩
  | bang item gap => by
    obtain ⟨c, s, hitem, hc⟩ := item.head_text
    exact ⟨c, s ++ (gap.text ++ ['!']), by rw [text, hitem]; rfl, hc⟩

theorem last_text (e : TypeExpr) : ∃ s c, e.text = s ++ [c] ∧ isBlank c = false := by
  cases e with
  | name n =>
    obtain ⟨c, cs, hn, -⟩ := isName_iff.mp n.isName
    have hne : n.text ≠ [] := by rw [hn]; exact cons_ne_nil _ _
    refine ⟨n.text.dropLast, n.text.getLast hne, (dropLast_append_getLast hne).symm, ?_⟩
    exact not_isBlank_of_isNameChar (n.isNameChar_of_mem _ (getLast_mem hne))
  | apply base gap arguments =>
    exact ⟨base.text ++ (gap.text ++ '<' :: arguments.text), '>', by simp [text], by decide⟩
  | list before item after =>
    exact ⟨'[' :: (before.text ++ (item.text ++ after.text)), ']', by simp [text], by decide⟩
  | bang item gap => exact ⟨item.text ++ gap.text, '!', by simp [text], by decide⟩

theorem trim_text (e : TypeExpr) : e.text.trim = e.text := by
  obtain ⟨c, s, hstart, hc⟩ := e.head_text
  obtain ⟨u, d, hend, hd⟩ := e.last_text
  rw [Text.trim, hstart, trimStart_cons hc, ← hstart, hend, trimEnd_append_singleton hd]

end TypeExpr

theorem Padded.trim_text (p : Padded) : p.text.trim = p.item.text := by
  rw [Padded.text, trim_between p.before.isBlank_of_mem p.after.isBlank_of_mem, p.item.trim_text]

theorem Gap.isExpressionChar_of_mem (g : Gap) : ∀ c ∈ g.text, isExpressionChar c :=
  fun c hc => isExpressionChar_of_isBlank (g.isBlank_of_mem c hc)

mutual

theorem TypeExpr.isExpressionChar_of_mem : (e : TypeExpr) → ∀ c ∈ e.text, isExpressionChar c
  | .name n => fun c hc => isExpressionChar_of_isNameChar (n.isNameChar_of_mem c hc)
  | .apply base gap arguments => by
    simp only [TypeExpr.text, forall_mem_append, forall_mem_cons]
    exact ⟨fun c hc => isExpressionChar_of_isNameChar (base.isNameChar_of_mem c hc),
      gap.isExpressionChar_of_mem, by decide, arguments.isExpressionChar_of_mem, by decide, by simp⟩
  | .list before item after => by
    simp only [TypeExpr.text, forall_mem_append, forall_mem_cons]
    exact ⟨by decide, before.isExpressionChar_of_mem, item.isExpressionChar_of_mem,
      after.isExpressionChar_of_mem, by decide, by simp⟩
  | .bang item gap => by
    simp only [TypeExpr.text, forall_mem_append, forall_mem_cons]
    exact ⟨item.isExpressionChar_of_mem, gap.isExpressionChar_of_mem, by decide, by simp⟩

theorem TypeArguments.isExpressionChar_of_mem :
    (as : TypeArguments) → ∀ c ∈ as.text, isExpressionChar c
  | .last before item after => by
    simp only [TypeArguments.text, forall_mem_append]
    exact ⟨before.isExpressionChar_of_mem, item.isExpressionChar_of_mem,
      after.isExpressionChar_of_mem⟩
  | .more before item after rest => by
    simp only [TypeArguments.text, forall_mem_append, forall_mem_cons]
    exact ⟨⟨before.isExpressionChar_of_mem, item.isExpressionChar_of_mem,
      after.isExpressionChar_of_mem⟩, by decide, rest.isExpressionChar_of_mem⟩

end

theorem lex_of_isExpressionChar {t : Text} (h : ∀ c ∈ t, isExpressionChar c) :
    lex false t = t.map .char :=
  lex_of_not_quote fun hq => absurd (h _ hq) (by decide)

/-! ### Nested brackets -/

theorem Gap.nested {top : Char → Bool} (htop : ∀ c, isBlank c → top c) (g : Gap) :
    Nested top [] (g.text.map .char) := by
  refine .ofChars fun c hc => ?_
  have hblank := g.isBlank_of_mem c hc
  have hne : ∀ d, isBlank d = false → c ≠ d := by
    rintro d hd rfl
    rw [hblank] at hd
    cases hd
  refine ⟨?_, ?_, hne _ (by decide), htop c hblank⟩
  · simp [isOpener, hne '(' (by decide), hne '[' (by decide), hne '{' (by decide),
      hne '<' (by decide)]
  · simp [isCloser, hne ')' (by decide), hne ']' (by decide), hne '}' (by decide),
      hne '>' (by decide)]

theorem isBlank_ne_comma {c : Char} (h : isBlank c) : (c != ',') :=
  bne_of_class h rfl

theorem Name.nested (n : Name) : Nested (· != ',') [] (n.text.map .char) :=
  nested_name n.isNameChar_of_mem fun _ hc => bne_of_class hc rfl

mutual

/-- The brackets of a type expression are nested, with no comma outside of them. -/
theorem TypeExpr.nested : (e : TypeExpr) → Nested (· != ',') [] (e.text.map .char)
  | .name n => n.nested
  | .apply base gap arguments => by
    simp only [TypeExpr.text, map_append, map_cons, map_nil]
    refine base.nested.append ((Gap.nested (fun _ => isBlank_ne_comma) gap).append ?_)
    exact arguments.nested.bracketed rfl rfl .nil
  | .list before item after => by
    have hinside := (Gap.nested (fun _ => isBlank_ne_comma) before).append
      (item.nested.append (Gap.nested (fun _ => isBlank_ne_comma) after))
    rw [← map_append, ← map_append] at hinside
    have htext : '[' :: (before.text ++ (item.text ++ (after.text ++ [']']))) =
        '[' :: (before.text ++ (item.text ++ after.text) ++ [']']) := by simp
    rw [TypeExpr.text, htext, map_cons, map_append]
    exact hinside.bracketed rfl rfl .nil
  | .bang item gap => by
    simp only [TypeExpr.text, map_append, map_cons, map_nil]
    refine item.nested.append ((Gap.nested (fun _ => isBlank_ne_comma) gap).append ?_)
    exact .char rfl rfl (by decide) (fun _ => rfl) .nil

theorem TypeArguments.nested : (as : TypeArguments) → Nested (fun _ => true) [] (as.text.map .char)
  | .last before item after => by
    simp only [TypeArguments.text, map_append]
    exact (Gap.nested (fun _ _ => rfl) before).append
      ((item.nested.mono fun _ _ => rfl).append (Gap.nested (fun _ _ => rfl) after))
  | .more before item after rest => by
    simp only [TypeArguments.text, map_append, map_cons]
    refine ((Gap.nested (fun _ _ => rfl) before).append
      ((item.nested.mono fun _ _ => rfl).append (Gap.nested (fun _ _ => rfl) after))).append ?_
    exact .char rfl rfl (by decide) (fun _ => rfl) rest.nested

end

/-! ### Taking a type expression apart -/

theorem Gap.squeeze_text (g : Gap) : g.text.squeeze = [] :=
  filter_eq_nil_iff.mpr fun c hc => by simp [g.isBlank_of_mem c hc]

/-- A type expression is its core with brackets before it and brackets and bangs after it, and with
white space among them. -/
theorem TypeExpr.text_eq : (e : TypeExpr) → ∃ lead trail, e.text = lead ++ (e.core.text ++ trail) ∧
    ((∀ c ∈ lead, isOpening c) ∧ lead.squeeze = e.opening) ∧
    (∀ c ∈ trail, isTrailing c) ∧ trail.squeeze = e.closing
  | .name _ | .apply .. => ⟨[], [], by simp [core], ⟨by simp, rfl⟩, by simp, rfl⟩
  | .list before item after => by
    obtain ⟨lead, trail, htext, ⟨hlead, hopening⟩, htrail, hclosing⟩ := item.text_eq
    refine ⟨'[' :: (before.text ++ lead),
      trail ++ (after.text ++ [']']), by simp [text, core, htext], ⟨?_, ?_⟩, ?_, ?_⟩
    · simp only [forall_mem_cons, forall_mem_append]
      exact ⟨by decide, fun c hc => by simp [isOpening, before.isBlank_of_mem c hc], hlead⟩
    · rw [← singleton_append, squeeze_append, squeeze_append, before.squeeze_text, hopening]
      rfl
    · simp only [forall_mem_cons, forall_mem_append]
      exact ⟨htrail, fun c hc => by simp [isTrailing,
        after.isBlank_of_mem c hc], by decide, by simp⟩
    · rw [squeeze_append, squeeze_append, after.squeeze_text, hclosing]
      rfl
  | .bang item gap => by
    obtain ⟨lead, trail, htext, hlead, htrail, hclosing⟩ := item.text_eq
    refine ⟨lead, trail ++ (gap.text ++ ['!']), by simp [text, core, htext], hlead, ?_, ?_⟩
    · simp only [forall_mem_cons, forall_mem_append]
      exact ⟨htrail, fun c hc => by simp [isTrailing, gap.isBlank_of_mem c hc], by decide, by simp⟩
    · rw [squeeze_append, squeeze_append, gap.squeeze_text, hclosing]
      rfl

theorem TypeArguments.takeBalanced_text (arguments : TypeArguments) (rest : Text) :
    takeBalanced '<' '>' ('<' :: (arguments.text ++ '>' :: rest)) =
      .ok (some ('<' :: (arguments.text ++ ['>']), rest)) := by
  have hnested : Nested (fun _ => true) [] (lex false arguments.text) := by
    rw [lex_of_isExpressionChar arguments.isExpressionChar_of_mem]
    exact arguments.nested
  have hopener : isOpener '<' := rfl
  exact takeBalanced_bracketed hopener hnested rest

theorem takeCore_core (e : TypeExpr) (expression : Text) {trail : Text}
    (htrail : ∀ c ∈ trail, isTrailing c) :
    takeCore expression (e.core.text ++ trail) = .ok (e.core.text, trail) := by
  rcases e.core_cases with ⟨hcore, -⟩ | ⟨gap, arguments, hcore, -⟩
  · rw [hcore]
    exact takeCore_name (.inr e.base.isName) htrail expression
  · have hangled := takeCore_angled (.inr e.base.isName) gap.isBlank_of_mem
      (arguments.takeBalanced_text trail) expression
    simpa [hcore, TypeExpr.text] using hangled

/-- **A type expression is taken apart** into the brackets before its core, the core as it is
written, and the brackets and bangs after it. -/
theorem Decorated.ofText_padded (p : Padded) :
    Decorated.ofText p.text = .ok ⟨p.item.opening, p.item.core.text, p.item.closing⟩ := by
  obtain ⟨lead, trail, htext, ⟨hlead, hopening⟩, htrail, hclosing⟩ := p.item.text_eq
  -- the core starts with a name, which is no part of the brackets before it
  obtain ⟨c, s, hcore, hc⟩ : ∃ c s, p.item.core.text = c :: s ∧ isOpening c = false := by
    obtain ⟨c, cs, hbase, hc, -⟩ := isName_iff.mp p.item.base.isName
    have hopen : isOpening c = false := by
      have hname := isNameChar_of_isNameStart hc
      simp [isOpening, ne_of_class hname (d := '[') (by decide), not_isBlank_of_isNameChar hname]
    rcases p.item.core_cases with ⟨hcore, -⟩ | ⟨gap, arguments, hcore, -⟩
    · exact ⟨c, cs, by rw [hcore, TypeExpr.text, hbase], hopen⟩
    · exact ⟨c, _, by rw [hcore, TypeExpr.text, hbase]; rfl, hopen⟩
  rw [Decorated.ofText_of_trim (p.trim_text.trans htext) hlead (by rw [hcore]; exact hc)
    (takeCore_core p.item _ htrail) htrail, hopening, hclosing, TypeExpr.trim_text]

theorem Padded.nested (p : Padded) : Nested (· != ',') [] (p.text.map .char) := by
  rw [Padded.text, map_append, map_append]
  exact (Gap.nested (fun _ => isBlank_ne_comma) p.before).append
    (p.item.nested.append (Gap.nested (fun _ => isBlank_ne_comma) p.after))

theorem Padded.splitAt_text (p : Padded) (ls : List Lexeme) :
    Lexeme.splitAt (· == ',') 0 (p.text.map .char ++ ls) =
      prependHead p.text <$> Lexeme.splitAt (· == ',') 0 ls := by
  have hraw : raw (p.text.map .char) = p.text := by
    simp [raw, Lexeme.text, flatMap_map]
  have hcomma : ∀ c : Char, (c != ',') → (c == ',') = false := by simp
  have hsplit := p.nested.splitAt hcomma ls
  rw [hraw] at hsplit
  exact hsplit

theorem TypeArguments.splitAt_text : (arguments : TypeArguments) →
    Lexeme.splitAt (· == ',') 0 (arguments.text.map .char) = .ok (arguments.toList.map Padded.text)
  | .last before item after => by
    have hsplit := Padded.splitAt_text ⟨before, item, after⟩ []
    rw [append_nil] at hsplit
    rw [text, ← Padded.text.eq_1 ⟨before, item, after⟩, hsplit]
    simp [Lexeme.splitAt, toList, prependHead, Functor.map, Except.map]
  | .more before item after rest => by
    rw [text, ← Padded.text.eq_1 ⟨before, item, after⟩, map_append, Padded.splitAt_text,
      map_cons, Lexeme.splitAt, if_pos (by simp), rest.splitAt_text]
    simp [toList, prependHead, Functor.map, Except.map]

/-- **A core is taken apart** into its name and its type arguments, as they are written. -/
theorem Application.ofText_core (e : TypeExpr) :
    Application.ofText e.core.text = .ok ⟨e.base.text, e.arguments.map TypeExpr.text⟩ := by
  have hbase : ∀ c ∈ e.base.text, (c != '<') := fun c hc =>
    bne_of_class (e.base.isNameChar_of_mem c hc) rfl
  have htrim : e.base.text.trim = e.base.text := (TypeExpr.name e.base).trim_text
  rcases e.core_cases with ⟨hcore, harguments⟩ | ⟨gap, arguments, hcore, harguments⟩
  · have hdrop : e.base.text.dropWhile (· != '<') = [] := dropWhile_eq_nil_iff.mpr hbase
    rw [hcore, harguments, TypeExpr.text, Application.ofText, hdrop, htrim]
    rfl
  · have hgap : ∀ c ∈ gap.text, (c != '<') := fun c hc =>
      bne_of_class (gap.isBlank_of_mem c hc) rfl
    have htext : e.core.text = e.base.text ++ gap.text ++ '<' :: (arguments.text ++ ['>']) := by
      rw [hcore, TypeExpr.text, append_assoc]
    have hall := forall_mem_append.mpr ⟨hbase, hgap⟩
    have hangled : angled e.core.text = '<' :: (arguments.text ++ ['>']) := by
      rw [angled, htext, dropWhile_append_of_pos hall]
      rfl
    have htake : e.core.text.takeWhile (· != '<') = e.base.text ++ gap.text := by
      rw [htext, takeWhile_append_of_pos hall, takeWhile_cons_of_neg (by decide), append_nil]
    refine (Application.ofText_generic (by simp [isGenericCore, htext])).mpr
      ⟨arguments.text, [], ?_, ?_, ?_⟩
    · rw [hangled, cons_append]
      exact arguments.takeBalanced_text []
    · rw [htake, trim_append_blank gap.isBlank_of_mem, htrim]
    · rw [splitAt, lex_of_isExpressionChar arguments.isExpressionChar_of_mem,
        arguments.splitAt_text, harguments]
      simp [Functor.map, Except.map, Padded.trim_text]

/-! ### Trees -/

/-- A type, without the white space that it is written with. -/
inductive TypeTree where
  | name (n : Text)
  | apply (base : Text) (arguments : List TypeTree)
  | list (item : TypeTree)
  | bang (item : TypeTree)

mutual

def TypeExpr.tree : TypeExpr → TypeTree
  | .name n => .name n.text
  | .apply base _ arguments => .apply base.text arguments.trees
  | .list _ item _ => .list item.tree
  | .bang item _ => .bang item.tree

def TypeArguments.trees : TypeArguments → List TypeTree
  | .last _ item _ => [item.tree]
  | .more _ item _ rest => item.tree :: rest.trees

end

namespace TypeTree

/-- Put a type between brackets and bangs.  From the inside out, a bang is put after the type, and a
closing bracket makes a list of it if there is an opening one. -/
def decorate : Text → Text → TypeTree → Option TypeTree
  | opening, [], tree => if opening.isEmpty then some tree else none
  | opening, c :: closing, tree =>
      if c == '!' then decorate opening closing (bang tree)
      else if c == ']' && opening.startsWith (· == '[')
        then decorate opening.tail closing (list tree)
      else none

/-- Read a type: take the type expression apart, then its core, then the type arguments in the same
way. -/
def ofText (t : Text) : Option TypeTree :=
  match _hd : Decorated.ofText t with
  | .error _ => none
  | .ok d =>
      match _ha : Application.ofText d.core with
      | .error _ => none
      | .ok a => do
          let arguments ← a.arguments.attach.mapM fun ⟨x, _hx⟩ => ofText x
          decorate d.opening d.closing (if arguments.isEmpty then name a.base
            else apply a.base arguments)
termination_by angles t
decreasing_by
  have h1 := Decorated.angles_core_le _hd
  have h2 := Application.angles_argument_lt _ha _hx
  omega

theorem ofText_eq {t : Text} {d : Decorated} {a : Application} (hd : Decorated.ofText t = .ok d)
    (ha : Application.ofText d.core = .ok a) :
    ofText t = (a.arguments.mapM ofText).bind fun arguments =>
      decorate d.opening d.closing (if arguments.isEmpty then name a.base
        else apply a.base arguments) := by
  rw [ofText]
  split
  · rename_i e he
    rw [hd] at he
    cases he
  · rename_i d' hd'
    obtain rfl := ok_unique hd hd'
    split
    · rename_i e he
      rw [ha] at he
      cases he
    · rename_i a' ha'
      obtain rfl := ok_unique ha ha'
      rw [mapM_subtype (g := ofText), unattach_attach]
      · rfl
      · intro x _
        rfl

end TypeTree

theorem TypeExpr.cons_opening : (e : TypeExpr) → '[' :: e.opening = e.opening ++ ['[']
  | .name _ | .apply .. => rfl
  | .list _ item _ => by rw [opening, cons_append, ← item.cons_opening]
  | .bang item _ => item.cons_opening

/-- The brackets and bangs of a type expression make its tree out of that of its core. -/
theorem TypeExpr.decorate_core : (e : TypeExpr) → ∀ o c : Text,
    TypeTree.decorate (e.opening ++ o) (e.closing ++ c) e.core.tree = TypeTree.decorate o c e.tree
  | .name _ | .apply .. => fun _ _ => rfl
  | .list _ item _ => by
    intro o c
    rw [opening, closing, core, item.cons_opening, append_assoc, append_assoc,
      singleton_append, singleton_append, item.decorate_core, TypeTree.decorate, tree]
    rfl
  | .bang item _ => by
    intro o c
    rw [opening, closing, core, append_assoc, singleton_append, item.decorate_core,
      TypeTree.decorate, tree]
    rfl

theorem TypeArguments.map_tree : (arguments : TypeArguments) →
    (arguments.toList.map Padded.item).map TypeExpr.tree = arguments.trees
  | .last .. => rfl
  | .more _ item _ rest => by
    rw [toList, map_cons, map_cons, rest.map_tree]
    rfl

theorem TypeArguments.trees_ne_nil (arguments : TypeArguments) : arguments.trees ≠ [] := by
  cases arguments <;> exact cons_ne_nil _ _

theorem TypeExpr.tree_core (e : TypeExpr) : e.core.tree =
    if (e.arguments.map tree).isEmpty then .name e.base.text
    else .apply e.base.text (e.arguments.map tree) := by
  rcases e.core_cases with ⟨hcore, harguments⟩ | ⟨gap, arguments, hcore, harguments⟩
  · rw [hcore, harguments]
    rfl
  · rw [hcore, harguments, arguments.map_tree, if_neg (by simp [arguments.trees_ne_nil])]
    rfl

/-- The tree of a type expression is read back if those of its type arguments are. -/
theorem Padded.ofText_of_arguments (p : Padded)
    (h : (p.item.arguments.map TypeExpr.text).mapM TypeTree.ofText =
      some (p.item.arguments.map TypeExpr.tree)) : TypeTree.ofText p.text = some p.item.tree := by
  rw [TypeTree.ofText_eq (Decorated.ofText_padded p) (Application.ofText_core p.item), h,
    Option.bind_some, ← TypeExpr.tree_core]
  have hdecorate := p.item.decorate_core [] []
  rw [append_nil, append_nil] at hdecorate
  exact hdecorate

theorem TypeExpr.ofText_text (e : TypeExpr) (h : (e.arguments.map text).mapM TypeTree.ofText =
    some (e.arguments.map tree)) : TypeTree.ofText e.text = some e.tree := by
  have hpadded := Padded.ofText_of_arguments ⟨.empty, e, .empty⟩ h
  rwa [Padded.text, Gap.text_empty, nil_append, append_nil] at hpadded

mutual

theorem TypeExpr.mapM_ofText : (e : TypeExpr) →
    (e.arguments.map TypeExpr.text).mapM TypeTree.ofText = some (e.arguments.map TypeExpr.tree)
  | .name _ => rfl
  | .apply _ _ arguments => arguments.mapM_ofText
  | .list _ item _ | .bang item _ => item.mapM_ofText

theorem TypeArguments.mapM_ofText : (arguments : TypeArguments) →
    ((arguments.toList.map Padded.item).map TypeExpr.text).mapM TypeTree.ofText =
      some ((arguments.toList.map Padded.item).map TypeExpr.tree)
  | .last _ item _ => by
    have hitem := item.ofText_text item.mapM_ofText
    simp [TypeArguments.toList, hitem]
  | .more _ item _ rest => by
    have hitem := item.ofText_text item.mapM_ofText
    simp only [TypeArguments.toList, map_cons, mapM_cons, hitem, rest.mapM_ofText]
    rfl

end

theorem Padded.ofText_text (p : Padded) : TypeTree.ofText p.text = some p.item.tree :=
  p.ofText_of_arguments p.item.mapM_ofText

/-- **Type expressions are read as they are written**, with any white space between their signs and
around them.  Such an expression is taken apart into the opening brackets, the core, and the closing
brackets and bangs; the core is taken apart into its name and its type arguments as they are
written, in order; and doing so for the type arguments too gives the whole tree. -/
theorem typeExpr_read_as_written (p : Padded) :
    Decorated.ofText p.text = .ok ⟨p.item.opening, p.item.core.text, p.item.closing⟩ ∧
    Application.ofText p.item.core.text =
      .ok ⟨p.item.base.text, p.item.arguments.map TypeExpr.text⟩ ∧
    TypeTree.ofText p.text = some p.item.tree :=
  ⟨Decorated.ofText_padded p, Application.ofText_core p.item, p.ofText_text⟩

end Schemata
