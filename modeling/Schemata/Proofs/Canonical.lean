import Mathlib.Tactic.Common
import Schemata.Proofs.Lexemes

/-!
# Canonical cores

A core is looked up in its canonical form, and looking up a canonical form brings it into canonical
form again.  The two agree for every core that can be named, because a core that can be named has no
quotes between its angle brackets: a quote would end up in the name of a type argument, which it
cannot be part of.  Without quotes the brackets of a core and its commas are not moved by spacing.
-/

namespace Schemata

open List

variable {depth : Int} {s : Text}
open Text (takeName trim squeeze joinWith)

variable {a : Application} {c : Char} {core expression inside normal rest t : Text} {d : Decorated}
    {p : Char → Bool}

/-! ### Closing brackets -/

/-- Whether a text without quotes closes its angle brackets with its last character and no earlier,
`depth` being open before it. -/
def closes (depth : Int) : Text → Bool
  | [] => false
  | c :: cs =>
      if c == '"' then false
      else if c == '<' then closes (depth + 1) cs
      else if c == '>' then if depth == 1 then cs.isEmpty else closes (depth - 1) cs
      else closes depth cs

/-- Whether a text closes its angle brackets before any quote, `depth` being open before it. -/
def closesEarly (depth : Int) : Text → Bool
  | [] => false
  | c :: cs =>
      if c == '"' then false
      else if c == '<' then closesEarly (depth + 1) cs
      else if c == '>' then if depth == 1 then true else closesEarly (depth - 1) cs
      else closesEarly depth cs

/-- The characters that decide how angle brackets close. -/
def isAngleOrQuote (c : Char) : Bool :=
  c == '<' || c == '>' || c == '"'

theorem isAngleOrQuote_of_isBlank (h : isBlank c) : isAngleOrQuote c = false := by
  unfold isAngleOrQuote
  by_contra hne
  simp only [Bool.not_eq_false, Bool.or_eq_true, beq_iff_eq] at hne
  rcases hne with (rfl | rfl) | rfl <;> exact absurd h (by decide)

theorem closesEarly_filter (depth : Int) (t : Text) :
    closesEarly depth (t.filter isAngleOrQuote) = closesEarly depth t := by
  induction t generalizing depth with
  | nil => rfl
  | cons c cs ih =>
    by_cases hc : isAngleOrQuote c
    · rw [filter_cons_of_pos hc]
      simp only [closesEarly, ih]
    · rw [filter_cons_of_neg hc, ih]
      simp only [isAngleOrQuote, Bool.or_eq_true, beq_iff_eq, not_or] at hc
      simp [closesEarly, hc]

theorem closesEarly_append (h : closesEarly depth t) (s : Text) : closesEarly depth (t ++ s) := by
  induction t generalizing depth with
  | nil => cases h
  | cons c cs ih =>
    rw [closesEarly] at h
    rw [cons_append, closesEarly]
    split_ifs at h ⊢ <;> first | exact ih h | rfl

/-- Brackets that close with the last character of a text close the same way if characters other
than brackets and quotes are taken out before it. -/
theorem closes_filter (depth : Int) (t : Text) :
    closes depth (t.filter isAngleOrQuote ++ ['>']) = closes depth (t ++ ['>']) := by
  induction t generalizing depth with
  | nil => rfl
  | cons c cs ih =>
    by_cases hc : isAngleOrQuote c
    · rw [filter_cons_of_pos hc]
      have hne : ∀ t : Text, (t ++ ['>']).isEmpty = false := by simp
      simp only [cons_append, closes, ih, hne]
    · rw [filter_cons_of_neg hc, ih]
      simp only [isAngleOrQuote, Bool.or_eq_true, beq_iff_eq, not_or] at hc
      simp [closes, hc]

/-! ### Balanced brackets -/

/-- What a bracketed text closes like: with its last character if it has no quotes, and not before
its first quote otherwise. -/
theorem takeBalanced_closes
    (h : Lexeme.takeBalanced '<' '>' depth (lex false t) = .ok (some (inside, rest))) :
    closes depth inside = decide ('"' ∉ inside) ∧
      closesEarly depth inside = decide ('"' ∉ inside) := by
  induction t generalizing depth inside with
  | nil =>
    rw [lex_nil] at h
    cases h
  | cons c cs ih =>
    by_cases hq : c = '"'
    · -- the quote opens a literal, which is part of what is inside
      subst hq
      rcases lex_quote_cases false cs with ⟨literal, r, hl, hlex⟩ | hlex
      · rw [hlex] at h
        obtain ⟨o, -, hp⟩ := map_eq_ok h
        obtain ⟨b, rfl, rfl⟩ := prepend_eq_some hp
        obtain ⟨body, rfl⟩ := takeLiteral_eq_cons hl
        simp [closes, closesEarly]
      · rw [hlex] at h
        cases h
    rw [lex_cons_of_ne_quote hq, Lexeme.takeBalanced] at h
    split_ifs at h with hlt hgt hd
    · obtain ⟨b, ho, rfl⟩ := prepend_eq_ok h
      have := ih ho
      simp_all [closes, closesEarly]
    · cases h
      simp_all [closes, closesEarly]
    · obtain ⟨b, ho, rfl⟩ := prepend_eq_ok h
      have := ih ho
      simp_all [closes, closesEarly]
    · obtain ⟨b, ho, rfl⟩ := prepend_eq_ok h
      have := ih ho
      simp_all [closes, closesEarly, Ne.symm hq]

theorem takeBalanced_eq_append {opener closer : Char} {ls : List Lexeme}
    (h : Lexeme.takeBalanced opener closer depth ls = .ok (some (inside, rest))) :
    ∃ before, inside = before ++ [closer] := by
  fun_induction Lexeme.takeBalanced opener closer depth ls generalizing inside with
  | case1 => cases h
  | case2 => cases h
  | case4 depth c ls hc hcl =>
    cases h
    exact ⟨[], by simpa using hcl⟩
  | case3 depth c ls hc ih | case5 depth c ls hc hcl hd ih | case6 depth c ls hc hcl ih =>
    obtain ⟨b, ho, rfl⟩ := prepend_eq_ok h
    obtain ⟨before, rfl⟩ := ih ho
    exact ⟨[c] ++ before, by rw [append_assoc]⟩
  | case7 depth t ls ih | case8 depth t ls ih =>
    obtain ⟨b, ho, rfl⟩ := prepend_eq_ok h
    obtain ⟨before, rfl⟩ := ih ho
    exact ⟨t ++ before, by rw [append_assoc]⟩

theorem takeBalanced_of_closes (h : closes depth t) :
    Lexeme.takeBalanced '<' '>' depth (lex false t) = .ok (some (t, [])) := by
  induction t generalizing depth with
  | nil => cases h
  | cons c cs ih =>
    rw [closes] at h
    split_ifs at h with hq hlt hgt hd
    · rw [lex_cons_of_ne_quote (by simpa using hq), Lexeme.takeBalanced, if_pos hlt, ih h]
      rfl
    · rw [List.isEmpty_iff] at h
      subst h
      rw [lex_cons_of_ne_quote (by simpa using hq), Lexeme.takeBalanced, if_neg hlt, if_pos hgt,
        if_pos hd, lex_nil, raw_nil]
    · rw [lex_cons_of_ne_quote (by simpa using hq), Lexeme.takeBalanced, if_neg hlt, if_pos hgt,
        if_neg hd, ih h]
      rfl
    · rw [lex_cons_of_ne_quote (by simpa using hq), Lexeme.takeBalanced, if_neg hlt,
        if_neg hgt, ih h]
      rfl

/-! ### Splitting what was joined -/

theorem depthAfter_of_isBlank (h : isBlank c) (depth : Nat) : depthAfter depth c = depth := by
  have hne : ∀ d : Char, isBlank d = false → (c == d) = false := fun _ => beq_of_class h
  simp [depthAfter, isOpener, isCloser, hne '(' (by decide), hne '[' (by decide),
    hne '{' (by decide), hne '<' (by decide), hne ')' (by decide), hne ']' (by decide),
    hne '}' (by decide), hne '>' (by decide)]

/-- Pieces as they stand after splitting at commas that a space follows. -/
def afterCommas : List Text → List Text
  | [] => []
  | q :: qs => q :: qs.map (' ' :: ·)

theorem map_trim_afterCommas (qs : List Text) :
    (afterCommas (qs.map squeeze)).map trim = qs.map squeeze := by
  have hspace : ∀ q : Text, trim (' ' :: q.squeeze) = q.squeeze := by
    intro q
    rw [trim_cons_of_isBlank (by decide), trim_squeeze]
  cases qs with
  | nil => rfl
  | cons q qs => simp [afterCommas, trim_squeeze, hspace, Function.comp_def]

theorem prependHead_ne_nil (t : Text) (ps : List Text) : prependHead t ps ≠ [] := by
  cases ps <;> simp [prependHead]

theorem Lexeme.splitAt_ne_nil {separator : Char → Bool} {depth : Nat} {ls : List Lexeme}
    {ps : List Text} (h : Lexeme.splitAt separator depth ls = .ok ps) : ps ≠ [] := by
  obtain ⟨q, qs, rfl, -⟩ := Lexeme.splitAt_induction (motive := fun _ _ _ => True) ⟨⟩
    (fun _ _ _ _ _ _ => ⟨⟩) (fun _ _ _ _ _ => ⟨⟩) h
  exact cons_ne_nil q qs

/-- Pieces that were split at commas outside brackets, squeezed and joined again, are split at the
same places. -/
theorem splitAt_joinWith {depth : Nat} {qs : List Text}
    (h : Lexeme.splitAt (· == ',') depth (t.map .char) = .ok qs) : Lexeme.splitAt (· == ',') depth
      ((joinWith ", ".toList (qs.map squeeze)).map .char) = .ok (afterCommas (qs.map squeeze)) := by
  induction t generalizing depth qs with
  | nil =>
    cases h
    rfl
  | cons c cs ih =>
    rw [map_cons, Lexeme.splitAt] at h
    split_ifs at h with hc
    · obtain ⟨ps, hp, rfl⟩ := map_eq_ok h
      obtain ⟨p, ps, rfl⟩ := exists_cons_of_ne_nil (Lexeme.splitAt_ne_nil hp)
      rw [Bool.and_eq_true, beq_iff_eq] at hc
      have hrest := ih hp
      have hjoin : joinWith ", ".toList (([] :: p :: ps).map squeeze) =
          ',' :: ' ' :: joinWith ", ".toList ((p :: ps).map squeeze) := rfl
      rw [hjoin, map_cons, map_cons, Lexeme.splitAt, if_pos (by simp [hc.1]), Lexeme.splitAt,
        if_neg (by decide)]
      change ([] :: ·) <$> prependHead [' '] <$> Lexeme.splitAt _ 0 _ = _
      rw [hrest]
      rfl
    · obtain ⟨ps, hp, rfl⟩ := map_eq_ok h
      obtain ⟨p, ps, rfl⟩ := exists_cons_of_ne_nil (Lexeme.splitAt_ne_nil hp)
      have hrest := ih hp
      have hhead : (prependHead [c] (p :: ps)).map squeeze =
          prependHead (squeeze [c]) ((p :: ps).map squeeze) := by
        simp [prependHead, squeeze, filter_cons]
        split_ifs <;> rfl
      have hjoin : ∀ t : Text, joinWith ", ".toList (prependHead t ((p :: ps).map squeeze)) =
          t ++ joinWith ", ".toList ((p :: ps).map squeeze) := by
        intro t
        cases ps <;> simp [prependHead]
      rw [hhead, hjoin]
      by_cases hb : isBlank c
      · have hd : depthAfter depth c = depth := depthAfter_of_isBlank hb _
        rw [hd] at hrest
        have hs : squeeze [c] = [] := by simp [squeeze, hb]
        rw [hs, nil_append, hrest]
        rfl
      · have hs : squeeze [c] = [c] := by simp [squeeze, hb]
        rw [hs, singleton_append, map_cons, Lexeme.splitAt, if_neg hc, hrest]
        rfl

/-! ### Applications -/

/-- The part of a core from its first angle bracket on. -/
def angled (core : Text) : Text :=
  core.dropWhile (· != '<')

theorem angled_eq_cons (hg : isGenericCore core) : ∃ t, angled core = '<' :: t := by
  have hmem : '<' ∈ core := by simpa [isGenericCore] using hg
  have hne : angled core ≠ [] := by
    rw [angled, ne_eq, dropWhile_eq_nil_iff]
    intro hall
    simpa using hall '<' hmem
  obtain ⟨c, t, ht⟩ := exists_cons_of_ne_nil hne
  have hhead := head?_dropWhile_not (· != '<') core
  rw [← angled, ht] at hhead
  exact ⟨t, by rw [ht, show c = '<' by simpa using hhead]⟩

theorem takeBalanced_angled (hg : isGenericCore core)
    (h : takeBalanced '<' '>' (angled core) = .ok (some (inside, rest))) :
    inside = '<' :: innerText inside ++ ['>'] := by
  obtain ⟨t, ht⟩ := angled_eq_cons hg
  obtain ⟨happ, -⟩ := takeBalanced_append h
  obtain ⟨before, rfl⟩ := takeBalanced_eq_append h
  cases before with
  | nil =>
    rw [ht] at happ
    simp at happ
  | cons c before =>
    rw [ht, cons_append, cons_append, List.cons.injEq] at happ
    rw [← happ.1]
    simp [innerText]

/-- Taking a generic core apart: the base name stands before the angle brackets, and the type
arguments are split out of them. -/
theorem Application.ofText_generic (hg : isGenericCore core) :
    Application.ofText core = .ok a ↔ ∃ inner rest,
      takeBalanced '<' '>' (angled core) = .ok (some ('<' :: inner ++ ['>'], rest)) ∧
        a.base = trim (core.takeWhile (· != '<')) ∧
        splitAt (· == ',') inner = .ok a.arguments := by
  have hinner : ∀ t : Text, innerText ('<' :: t ++ ['>']) = t := by simp [innerText]
  obtain ⟨t, ht⟩ := angled_eq_cons hg
  rw [Application.ofText, ← angled]
  constructor
  · intro h
    rw [ht] at h
    obtain ⟨o, hb, h⟩ := bind_eq_ok.mp h
    rw [← ht] at hb
    cases o with
    | none => cases h
    | some p =>
      obtain ⟨inside, rest⟩ := p
      obtain ⟨arguments, hs, h⟩ := bind_eq_ok.mp h
      cases h
      refine ⟨innerText inside, rest, ?_, rfl, hs⟩
      rw [← takeBalanced_angled hg hb, hb]
  · rintro ⟨inner, rest, hb, hbase, hs⟩
    rw [ht] at hb ⊢
    refine bind_eq_ok.mpr ⟨_, hb, bind_eq_ok.mpr ⟨a.arguments, by rw [hinner, hs], ?_⟩⟩
    rw [← hbase]
    rfl

theorem Application.not_mem_base (hg : isGenericCore core) (h : Application.ofText core = .ok a) :
    '<' ∉ a.base := by
  obtain ⟨_, _, -, hbase, -⟩ := (Application.ofText_generic hg).mp h
  rw [hbase]
  intro hmem
  simpa using mem_takeWhile_imp ((Text.trim_sublist _).subset hmem)

theorem Application.arguments_ne_nil (hg : isGenericCore core)
    (h : Application.ofText core = .ok a) : a.arguments ≠ [] := by
  obtain ⟨_, _, -, -, hs⟩ := (Application.ofText_generic hg).mp h
  obtain ⟨qs, hq, hqs⟩ := map_eq_ok hs
  rw [← hqs, ne_eq, map_eq_nil_iff]
  exact Lexeme.splitAt_ne_nil hq

/-- The type arguments of an application as they are written between its brackets. -/
def Application.inner (a : Application) : Text :=
  Text.joinWith ", ".toList (a.arguments.map Text.squeeze)

theorem Application.text_eq (h : a.arguments ≠ []) :
    a.text = a.base ++ '<' :: (a.inner ++ ['>']) := by
  simp [Application.text, Application.inner, h]

theorem Application.isGenericCore_text (h : a.arguments ≠ []) : isGenericCore a.text := by
  simp [isGenericCore, Application.text_eq h]

theorem Application.takeWhile_text (hb : '<' ∉ a.base) (h : a.arguments ≠ []) :
    a.text.takeWhile (· != '<') = a.base := by
  have hall : ∀ c ∈ a.base, (c != '<') := by
    intro c hc
    simpa using ne_of_mem_of_not_mem hc hb
  rw [Application.text_eq h, takeWhile_append_of_pos hall]
  simp

theorem Application.angled_text (hb : '<' ∉ a.base) (h : a.arguments ≠ []) :
    angled a.text = '<' :: a.inner ++ ['>'] := by
  have hall : ∀ c ∈ a.base, (c != '<') := by
    intro c hc
    simpa using ne_of_mem_of_not_mem hc hb
  rw [angled, Application.text_eq h, dropWhile_append_of_pos hall]
  simp

/-! ### Canonical form -/

/-- A core in canonical form, without quotes between its angle brackets. -/
def Canonical (core : Text) : Prop :=
  normalize core = .ok core ∧ '"' ∉ angled core

theorem not_quote_of_closesEarly (h : takeBalanced '<' '>' t = .ok (some (inside, rest)))
    (hc : closesEarly 0 inside) : '"' ∉ inside := by
  rw [(takeBalanced_closes h).2, decide_eq_true_eq] at hc
  exact hc

theorem Application.closesEarly_angled (hg : isGenericCore core)
    (h : Application.ofText core = .ok a) (ha : ∀ x ∈ a.arguments, '"' ∉ x) :
    closesEarly 0 (angled core) := by
  obtain ⟨inner, rest, hb, -, hs⟩ := (Application.ofText_generic hg).mp h
  have hinner : '"' ∉ inner := by
    intro hmem
    have hfilter := filter_splitAt (p := (· == '"')) ?_ ?_ hs
    · have hmem' : '"' ∈ inner.filter (· == '"') := mem_filter.mpr ⟨hmem, rfl⟩
      rw [← hfilter, mem_filter, mem_flatten] at hmem'
      obtain ⟨⟨x, hx, hq⟩, -⟩ := hmem'
      exact ha x hx hq
    · intro c hc
      exact Bool.eq_false_iff.mpr fun hq => by
        rw [beq_iff_eq.mp hq] at hc
        exact absurd hc (by decide)
    · intro c hc
      rw [beq_iff_eq.mp hc]
      decide
  rw [(takeBalanced_append hb).1]
  refine closesEarly_append ?_ rest
  rw [(takeBalanced_closes hb).2, decide_eq_true_eq]
  simpa using hinner

/-- Between the brackets of a core and of its canonical form stand the same brackets and quotes. -/
theorem Application.filter_inner {inner : Text} (h : splitAt (· == ',') inner = .ok a.arguments) :
    a.inner.filter isAngleOrQuote = inner.filter isAngleOrQuote := by
  rw [Application.inner, filter_joinWith (by decide),
    filter_flatten_map (filter_squeeze fun c => isAngleOrQuote_of_isBlank),
    filter_splitAt (fun c => isAngleOrQuote_of_isBlank) _ h]
  intro c hc
  rw [beq_iff_eq.mp hc]
  decide

theorem mem_iff_of_filter_eq (h : s.filter p = t.filter p) (hc : p c) : c ∈ s ↔ c ∈ t := by
  have hs : c ∈ s.filter p ↔ c ∈ s := by simp [hc]
  have ht : c ∈ t.filter p ↔ c ∈ t := by simp [hc]
  rw [← hs, ← ht, h]

/-- The canonical form of a core has no quotes between its brackets if the type arguments read off
it have none. -/
theorem Application.not_quote_angled_text (hg : isGenericCore core) {b : Application}
    (h : Application.ofText core = .ok a) (hb : Application.ofText a.text = .ok b)
    (hq : ∀ x ∈ b.arguments, '"' ∉ x) : '"' ∉ angled a.text := by
  have hne := Application.arguments_ne_nil hg h
  have hbase := Application.not_mem_base hg h
  obtain ⟨inner, rest, htake, -, hs⟩ := (Application.ofText_generic hg).mp h
  have hfilter := Application.filter_inner hs
  have hclose := Application.closesEarly_angled (Application.isGenericCore_text hne) hb hq
  rw [Application.angled_text hbase hne] at hclose ⊢
  have hinner : '"' ∉ '<' :: inner ++ ['>'] := by
    refine not_quote_of_closesEarly htake ?_
    rw [← closesEarly_filter] at hclose ⊢
    simpa [hfilter, filter_cons] using hclose
  simpa [mem_iff_of_filter_eq (c := '"') hfilter rfl] using hinner

/-- **Canonical form is kept**: if the canonical form of a core has no quotes between its brackets,
it is read as the same base name with the type arguments squeezed. -/
theorem Application.ofText_text (hg : isGenericCore core) (h : Application.ofText core = .ok a)
    (hq : '"' ∉ angled a.text) :
    Application.ofText a.text = .ok ⟨a.base, a.arguments.map squeeze⟩ := by
  have hne := Application.arguments_ne_nil hg h
  have hbase := Application.not_mem_base hg h
  obtain ⟨inner, rest, htake, hab, hs⟩ := (Application.ofText_generic hg).mp h
  have hfilter := Application.filter_inner hs
  rw [Application.ofText_generic (Application.isGenericCore_text hne)]
  rw [Application.angled_text hbase hne] at hq ⊢
  have hqa : '"' ∉ a.inner := by simpa using hq
  have hqi : '"' ∉ inner := by rwa [mem_iff_of_filter_eq hfilter rfl] at hqa
  refine ⟨a.inner, [], takeBalanced_of_closes ?_, ?_, ?_⟩
  · -- the brackets close where they closed before
    have hclose : closes 0 ('<' :: inner ++ ['>']) := by
      rw [(takeBalanced_closes htake).1, decide_eq_true_eq]
      simpa using hqi
    rw [← closes_filter] at hclose ⊢
    simpa [hfilter, filter_cons] using hclose
  · rw [Application.takeWhile_text hbase hne, hab, trim_trim]
  · obtain ⟨qs, hqs, hargs⟩ := map_eq_ok hs
    rw [lex_of_not_quote hqi] at hqs
    have hsq : a.arguments.map squeeze = qs.map squeeze := by
      rw [← hargs, map_map]
      exact map_congr_left fun q _ => squeeze_trim q
    rw [splitAt, lex_of_not_quote hqa, Application.inner, hsq, splitAt_joinWith hqs]
    exact congrArg Except.ok (map_trim_afterCommas qs)

/-! ### Taking a type expression apart -/

theorem takeName_getD (t : Text) :
    ∃ name after, t.takeName.getD ([], t) = (name, after) ∧ t = name ++ after ∧
    (∀ c ∈ name, isNameChar c) ∧ (name = [] ∨ name.isName) := by
  cases t with
  | nil => exact ⟨[], [], rfl, rfl, by simp, .inl rfl⟩
  | cons c cs =>
    by_cases hc : isNameStart c
    · refine ⟨c :: cs.takeWhile isNameChar,
        cs.dropWhile isNameChar, by simp [takeName, hc], by simp, ?_, .inr ?_⟩
      · intro d hd
        rcases mem_cons.mp hd with rfl | hd
        · exact isNameChar_of_isNameStart hc
        · exact mem_takeWhile_imp hd
      · simp [Text.isName, hc, all_takeWhile]
    · exact ⟨[], c :: cs, by simp [takeName, hc], rfl, by simp, .inl rfl⟩

theorem trim_append_angled (h : s.startsWith isBlank = false) (inner : Text) :
    trim (s ++ ('<' :: inner ++ ['>'])) = s ++ ('<' :: inner ++ ['>']) := by
  have hstart : Text.trimStart (s ++ ('<' :: inner ++ ['>'])) = s ++ ('<' :: inner ++ ['>']) := by
    cases s with
    | nil => rfl
    | cons c s => exact trimStart_cons (h : isBlank c = false) _
  rw [trim, hstart, ← append_assoc, trimEnd_append_singleton (by decide)]

/-- What taking a type expression apart comes to: a name, or a name with a bracketed text, between
decorations. -/
theorem Decorated.ofText_cases (h : Decorated.ofText expression = .ok d) :
    ∃ opening name after rest, (expression.trim = opening ++ (name ++ after ++ rest) ∧
        Text.startsWith isOpening (name ++ after ++ rest) = false ∧ (name = [] ∨ name.isName) ∧
        trim (name ++ after) = name ++ after) ∧
      (∀ c ∈ opening, isOpening c) ∧ (∀ c ∈ name, isNameChar c) ∧
      (∀ c ∈ rest.squeeze, isClosing c) ∧ d = ⟨opening.squeeze, name ++ after, rest.squeeze⟩ ∧
      (after = [] ∨ ∃ blanks inner, after = blanks ++ ('<' :: inner ++ ['>']) ∧
        (∀ c ∈ blanks, isBlank c) ∧
        takeBalanced '<' '>' ('<' :: inner ++ ['>'] ++ rest) =
          .ok (some ('<' :: inner ++ ['>'], rest))) := by
  obtain ⟨⟨core, rest⟩, hcore, h⟩ := bind_eq_ok.mp h
  simp only at h
  split_ifs at h with hclosing
  cases h
  obtain ⟨name, after, hname, happ, hchars, hisName⟩ :=
    takeName_getD (expression.trim.dropWhile isOpening)
  have hsplit := takeWhile_append_dropWhile (p := isOpening) (l := expression.trim)
  have hstop : Text.startsWith isOpening (name ++ after) = false := by
    have hhead := head?_dropWhile_not isOpening expression.trim
    rw [happ] at hhead
    cases hs : name ++ after with
    | nil => rfl
    | cons c s => simpa [hs, Text.startsWith] using hhead
  simp only [takeCore, hname] at hcore
  have hopening : ∀ c ∈ expression.trim.takeWhile isOpening, isOpening c :=
    fun c hc => mem_takeWhile_imp hc
  have hrest : ∀ c ∈ rest.squeeze, isClosing c := by simpa using hclosing
  split_ifs at hcore with hangle
  · obtain ⟨o, hb, hcore⟩ := bind_eq_ok.mp hcore
    cases o with
    | none => cases hcore
    | some p =>
      obtain ⟨inside, rest'⟩ := p
      cases hcore
      obtain ⟨hafter, -⟩ := takeBalanced_append hb
      obtain ⟨before, rfl⟩ := takeBalanced_eq_append hb
      obtain ⟨u, hu⟩ := eq_cons_of_startsWith hangle
      cases before with
      | nil =>
        rw [hafter] at hu
        cases hu
      | cons c inner =>
        obtain rfl : c = '<' := (List.cons.inj (hafter.symm.trans hu)).1
        have hblank : after.takeWhile isBlank ++ ('<' :: inner ++ ['>'] ++ rest) = after := by
          rw [← hafter, trimStart_eq_dropWhile, takeWhile_append_dropWhile]
        have hwhole : name ++ (after.takeWhile isBlank ++ ('<' :: inner ++ ['>'])) ++ rest =
            name ++ after := by
          rw [append_assoc, append_assoc, hblank]
        have hpre : Text.startsWith isBlank (name ++ after.takeWhile isBlank) = false := by
          have hprefix : name ++ after.takeWhile isBlank <+: name ++ after := by
            rw [prefix_append_right_inj]
            exact takeWhile_prefix _
          have hstart := startsWith_of_isPrefix hprefix hstop
          cases hs : name ++ after.takeWhile isBlank with
          | nil => rfl
          | cons c s => simp_all [Text.startsWith, isOpening]
        have htrim := trim_append_angled hpre inner
        refine ⟨_, name, after.takeWhile isBlank ++ ('<' :: inner ++ ['>']), rest,
          ⟨by rw [hwhole, ← happ, hsplit], hwhole ▸ hstop, hisName, by rw [← append_assoc, htrim]⟩,
          hopening, hchars, hrest, by rw [htrim, append_assoc name],
          .inr ⟨_, inner, rfl, fun c hc => mem_takeWhile_imp hc, ?_⟩⟩
        rw [← hafter, hb]
  · cases hcore
    have htrim : core.trim = core := trim_eq_self fun c hc =>
      not_isBlank_of_isNameChar (hchars c hc)
    refine ⟨_, core, [], rest, ⟨?_, ?_, hisName, ?_⟩, hopening, hchars, hrest, ?_, .inl rfl⟩
    · rw [append_nil, ← happ, hsplit]
    · rw [append_nil, hstop]
    · rw [append_nil, htrim]
    · rw [append_nil, htrim]

theorem not_isAngleOrQuote (hp : p '<' = false ∧ p '>' = false ∧ p '"' = false) (hc : p c) :
    isAngleOrQuote c = false := by
  rw [Bool.eq_false_iff]
  intro h
  simp only [isAngleOrQuote, Bool.or_eq_true, beq_iff_eq] at h
  rcases h with (rfl | rfl) | rfl <;> simp_all

theorem not_mem_of_isAngleOrQuote (hs : ∀ c ∈ s, isNameChar c ∨ isBlank c) (hc : isAngleOrQuote c) :
    c ∉ s := by
  intro hmem
  rcases hs c hmem with hname | hblank
  · rw [not_isAngleOrQuote (p := isNameChar) (by decide) hname] at hc
    cases hc
  · rw [isAngleOrQuote_of_isBlank hblank] at hc
    cases hc

theorem Decorated.ofText_generic (h : Decorated.ofText expression = .ok d)
    (hg : isGenericCore d.core) :
    ∃ opening name inner rest, expression.trim =
      opening ++ (name ++ ('<' :: inner ++ ['>']) ++ rest) ∧
      (∀ c ∈ opening, isOpening c) ∧ (∀ c ∈ name, isNameChar c ∨ isBlank c) ∧
      d.core = name ++ ('<' :: inner ++ ['>']) ∧ angled d.core = '<' :: inner ++ ['>'] ∧
      takeBalanced '<' '>' ('<' :: inner ++ ['>'] ++ rest) =
        .ok (some ('<' :: inner ++ ['>'], rest)) := by
  obtain ⟨opening, name, after, rest, ⟨htrim, -⟩, hopening, hname, -, rfl,
      rfl | ⟨blanks, inner, rfl, hb, htake⟩⟩ :=
    Decorated.ofText_cases h
  · rw [append_nil, isGenericCore, contains_iff_mem] at hg
    exact absurd (hname _ hg) (by decide)
  have hchars : ∀ c ∈ name ++ blanks, isNameChar c ∨ isBlank c :=
    fun c hc => (mem_append.mp hc).imp (hname c) (hb c)
  have hne : ∀ c ∈ name ++ blanks, c != '<' := by
    intro c hc
    rw [bne_iff_ne]
    rintro rfl
    exact not_mem_of_isAngleOrQuote hchars rfl hc
  rw [← append_assoc name] at htrim ⊢
  refine ⟨opening, name ++ blanks, inner, rest, htrim, hopening, hchars, rfl, ?_, htake⟩
  rw [angled, dropWhile_append_of_pos hne]
  simp

theorem mem_trim_iff (hc : isAngleOrQuote c) : c ∈ t.trim ↔ c ∈ t :=
  mem_iff_of_filter_eq (filter_trim (fun _ => isAngleOrQuote_of_isBlank) t) hc

theorem mem_squeeze_iff (hc : isAngleOrQuote c) : c ∈ t.squeeze ↔ c ∈ t :=
  mem_iff_of_filter_eq (filter_squeeze (fun _ => isAngleOrQuote_of_isBlank) t) hc

/-- Decoration is made of brackets, bangs and white space: a type expression has all other
characters in its core. -/
theorem Decorated.filter_core (h : Decorated.ofText expression = .ok d)
    (hb : ∀ c, isBlank c → p c = false) (hp : p '[' = false ∧ p ']' = false ∧ p '!' = false) :
    expression.filter p = d.core.filter p := by
  obtain ⟨opening, name, after, rest, ⟨htrim, -⟩, hopening, -, hrest, rfl, -⟩ :=
    Decorated.ofText_cases h
  have ho : opening.filter p = [] := by
    rw [filter_eq_nil_iff]
    intro c hc
    have := hopening c hc
    simp only [isOpening, Bool.or_eq_true, beq_iff_eq] at this
    rcases this with rfl | hblank
    · simp [hp.1]
    · simp [hb c hblank]
  have hr : rest.filter p = [] := by
    rw [← filter_squeeze hb, filter_eq_nil_iff]
    intro c hc
    have := hrest c hc
    simp only [isClosing, Bool.or_eq_true, beq_iff_eq] at this
    rcases this with rfl | rfl
    · simp [hp.2.1]
    · simp [hp.2.2]
  rw [← filter_trim hb, htrim, filter_append, filter_append, ho, hr, nil_append, append_nil]

theorem Decorated.mem_core_of_mem (h : Decorated.ofText expression = .ok d)
    (hc : isAngleOrQuote c) : c ∈ expression ↔ c ∈ d.core :=
  mem_iff_of_filter_eq
    (Decorated.filter_core h (fun _ => isAngleOrQuote_of_isBlank) (by decide)) hc

theorem Decorated.isNameChar_of_mem_core (h : Decorated.ofText expression = .ok d)
    (hg : isGenericCore d.core = false) : ∀ c ∈ d.core, isNameChar c := by
  obtain ⟨opening, name, after, rest, -, -, hname, -, rfl, rfl | ⟨blanks, inner, rfl, -, -⟩⟩ :=
    Decorated.ofText_cases h
  · intro c hc
    exact hname c (append_nil name ▸ hc)
  · refine absurd hg ?_
    simp [isGenericCore]

theorem Decorated.not_mem_core (h : Decorated.ofText expression = .ok d)
    (hg : isGenericCore d.core = false) (hc : isAngleOrQuote c) : c ∉ d.core := by
  intro hmem
  rw [not_isAngleOrQuote (p := isNameChar) (by decide)
    (Decorated.isNameChar_of_mem_core h hg c hmem)] at hc
  cases hc

theorem Decorated.not_quote_core (h : Decorated.ofText expression = .ok d)
    (hg : isGenericCore d.core) (hc : closesEarly 0 (angled d.core)) : '"' ∉ d.core := by
  obtain ⟨-, name, inner, rest, -, -, hname, hcore, hangled, htake⟩ := Decorated.ofText_generic h hg
  rw [hangled] at hc
  rw [hcore, mem_append, not_or]
  exact ⟨not_mem_of_isAngleOrQuote hname rfl, not_quote_of_closesEarly htake hc⟩

theorem angled_of_not_generic (hg : isGenericCore core = false) : angled core = [] := by
  rw [angled, dropWhile_eq_nil_iff]
  intro c hc
  rw [bne_iff_ne]
  rintro rfl
  simp [isGenericCore, hc] at hg

theorem normalize_of_not_generic (hg : isGenericCore core = false) :
    normalize core = .ok core.trim := by
  rw [normalize, Application.ofText, ← angled, angled_of_not_generic hg]
  rfl

theorem isGenericCore_trim (core : Text) : isGenericCore core.trim = isGenericCore core := by
  rw [isGenericCore, isGenericCore, Bool.eq_iff_iff, contains_iff_mem, contains_iff_mem,
    mem_trim_iff rfl]

/-- **The canonical form of a core is canonical** if no quote stands between its brackets. -/
theorem normalize_canonical (h : normalize core = .ok normal) (hq : '"' ∉ angled normal) :
    Canonical normal := by
  refine ⟨?_, hq⟩
  cases hg : isGenericCore core with
  | false =>
    rw [normalize_of_not_generic hg] at h
    cases h
    rw [normalize_of_not_generic (by rw [isGenericCore_trim, hg]), trim_trim]
  | true =>
    obtain ⟨a, ha, rfl⟩ := map_eq_ok h
    have hne := Application.arguments_ne_nil hg ha
    rw [normalize, Application.ofText_text hg ha hq]
    refine congrArg Except.ok ?_
    rw [Application.text_eq hne, Application.text_eq (by simpa using hne), Application.inner,
      Application.inner, map_map]
    simp [Function.comp_def]

/-- A core closes before any quote if its canonical form has no quotes between its brackets. -/
theorem closesEarly_of_canonical (hg : isGenericCore core) (h : normalize core = .ok normal)
    (hq : '"' ∉ angled normal) : closesEarly 0 (angled core) := by
  obtain ⟨a, ha, rfl⟩ := map_eq_ok h
  refine Application.closesEarly_angled hg ha ?_
  intro x hx hmem
  rw [Application.angled_text (Application.not_mem_base hg ha) (ne_nil_of_mem hx)] at hq
  have hinner : '"' ∈ a.inner := by
    rw [Application.inner]
    have hfilter := filter_joinWith (p := isAngleOrQuote) (by decide) (a.arguments.map squeeze)
    rw [mem_iff_of_filter_eq hfilter rfl, mem_flatten]
    exact ⟨x.squeeze, mem_map_of_mem hx, (mem_squeeze_iff rfl).mpr hmem⟩
  exact hq (by simp [hinner])

/-! ### The characters of a core -/

/-- An application is written with the characters of its base name and of its type arguments, apart
from brackets, commas and white space. -/
theorem Application.filter_text (hb : ∀ c, isBlank c → p c = false)
    (hp : p '<' = false ∧ p '>' = false ∧ p ',' = false) (a : Application) :
    a.text.filter p = a.base.filter p ++ a.arguments.flatten.filter p := by
  by_cases hne : a.arguments = []
  · simp [Application.text, hne]
  · have hcomma : (", ".toList).filter p = [] := by simp [hp.2.2, hb ' ' (by decide)]
    rw [Application.text_eq hne, Application.inner, filter_append,
      filter_cons_of_neg (by simp [hp.1]), filter_append, filter_joinWith hcomma,
      filter_flatten_map (filter_squeeze hb), filter_cons_of_neg (by simp [hp.2.1]), filter_nil,
      append_nil]

theorem Decorated.takeBalanced_core (h : Decorated.ofText expression = .ok d)
    (hg : isGenericCore d.core) (hq : '"' ∉ d.core) :
    takeBalanced '<' '>' (angled d.core) = .ok (some (angled d.core, [])) := by
  obtain ⟨-, name, inner, rest, -, -, -, hcore, hangled, htake⟩ := Decorated.ofText_generic h hg
  rw [hangled]
  refine takeBalanced_of_closes ?_
  rw [(takeBalanced_closes htake).1, decide_eq_true_eq]
  rw [hcore] at hq
  exact fun hmem => hq (mem_append_right _ hmem)

/-- The canonical form of the core of a type expression keeps all characters other than brackets,
commas and white space, if there are no quotes. -/
theorem Decorated.filter_normalize (h : Decorated.ofText expression = .ok d)
    (hg : isGenericCore d.core) (hn : normalize d.core = .ok normal) (hq : '"' ∉ angled normal)
    (hb : ∀ c, isBlank c → p c = false) (hp : p '<' = false ∧ p '>' = false ∧ p ',' = false) :
    normal.filter p = d.core.filter p := by
  have hquote := Decorated.not_quote_core h hg (closesEarly_of_canonical hg hn hq)
  obtain ⟨a, ha, rfl⟩ := map_eq_ok hn
  obtain ⟨inner, rest, htake, hbase, hs⟩ := (Application.ofText_generic hg).mp ha
  obtain ⟨happ, -⟩ := takeBalanced_append htake
  -- nothing follows the type arguments
  have hrest : rest = [] := by
    rw [Decorated.takeBalanced_core h hg hquote] at htake
    exact (Prod.mk.inj (Option.some.inj (Except.ok.inj htake))).2.symm
  have hcore : d.core = d.core.takeWhile (· != '<') ++ '<' :: (inner ++ ['>']) := by
    rw [hrest, append_nil] at happ
    rw [← cons_append, ← happ, angled, takeWhile_append_dropWhile]
  rw [Application.filter_text hb hp, hbase, filter_trim hb,
    filter_splitAt hb (fun c hc => by rw [beq_iff_eq.mp hc]; exact hp.2.2) hs]
  conv_rhs => rw [hcore]
  rw [filter_append, filter_cons_of_neg (by simp [hp.1]), filter_append,
    filter_cons_of_neg (by simp [hp.2.1]), filter_nil, append_nil]

end Schemata
