import Schemata.Proofs.Words

/-!
# Decorations of types

A type expression is a core between brackets and bangs, and white space may stand anywhere among
these.  The core is a name, which may be missing, with or without a bracketed text.  Where it ends
does not depend on what follows it, so the parts of a type expression can be put together again, and
are then found again.
-/

namespace Schemata

open List

variable {name rest t x : Text} {p : Char → Bool}

/-! ### Bracketed texts -/

theorem startsWith_append (ht : t ≠ []) (x : Text) :
    Text.startsWith p (t ++ x) = t.startsWith p := by
  cases t with
  | nil => exact absurd rfl ht
  | cons c t => rfl

/-- **Brackets are read whatever follows** the one that closes them. -/
theorem Lexeme.takeBalanced_congr {opener closer : Char} {depth : Int} {inside : Text}
    (h : Lexeme.takeBalanced opener closer depth (lex false t) = .ok (some (inside, rest)))
    (x : Text) :
    Lexeme.takeBalanced opener closer depth (lex false (inside ++ x)) = .ok (some (inside, x)) := by
  induction t using lex_induction false generalizing depth inside with
  | nil =>
    rw [lex_nil] at h
    cases h
  | char c u _ _ step ih =>
    -- a character that does not close the brackets
    have hstep : ∀ d, prepend [c] <$> Lexeme.takeBalanced opener closer d (lex false u) =
      .ok (some (inside, rest)) →
        ∃ b, inside = c :: b ∧
          prepend [c] <$> Lexeme.takeBalanced opener closer d (lex false (b ++ x)) =
            .ok (some (inside, x)) := by
      intro d hd
      obtain ⟨b, ho, rfl⟩ := prepend_eq_ok hd
      exact ⟨b, rfl, by rw [ih ho]; rfl⟩
    rw [step, Lexeme.takeBalanced] at h
    split_ifs at h with hopen hclose hdepth
    · obtain ⟨b, rfl, hb⟩ := hstep _ h
      rw [cons_append, step, Lexeme.takeBalanced, if_pos hopen, hb]
    · cases h
      rw [singleton_append, step, Lexeme.takeBalanced, if_neg hopen, if_pos hclose, if_pos hdepth,
        raw_lex]
    · obtain ⟨b, rfl, hb⟩ := hstep _ h
      rw [cons_append, step, Lexeme.takeBalanced, if_neg hopen, if_pos hclose, if_neg hdepth, hb]
    · obtain ⟨b, rfl, hb⟩ := hstep _ h
      rw [cons_append, step, Lexeme.takeBalanced, if_neg hopen, if_neg hclose, hb]
  | literal s u taken now _ ih =>
    rw [now, Lexeme.takeBalanced] at h
    obtain ⟨b, ho, rfl⟩ := prepend_eq_ok h
    -- the closing bracket is still to come, so what follows the literal starts as before
    obtain ⟨hu, hb⟩ := (Lexeme.yields_takeBalanced _ _ _ _).of_eq_ok ho b rest rfl
    rw [raw_lex] at hu
    have htaken : Text.takeLiteral ('"' :: (s ++ (b ++ x))) = some ('"' :: s, b ++ x) := by
      refine Text.takeLiteral_congr taken fun hq => ?_
      rwa [hu, startsWith_append hb, ← startsWith_append hb]
    rw [append_assoc, cons_append, lex_literal htaken, Lexeme.takeBalanced, ih ho]
    rfl
  | comment s u hcomments _ _ _ _ _ => cases hcomments
  | unclosed u now =>
    rw [now, Lexeme.takeBalanced] at h
    cases h

theorem takeBalanced_lex_append {opener closer : Char} {inside : Text}
    (h : takeBalanced opener closer t = .ok (some (inside, rest))) (x : Text) :
    takeBalanced opener closer (t ++ x) = .ok (some (inside, rest ++ x)) := by
  rw [(takeBalanced_append h).1, append_assoc]
  exact Lexeme.takeBalanced_congr h (rest ++ x)

/-! ### Cores -/

def isTrailing (c : Char) : Bool :=
  isClosing c || isBlank c

theorem squeeze_append (s t : Text) : Text.squeeze (s ++ t) = s.squeeze ++ t.squeeze :=
  filter_append ..

theorem startsWith_of_forall (h : ∀ c ∈ t, p c = false) : t.startsWith p = false := by
  cases t with
  | nil => rfl
  | cons c t => exact h c mem_cons_self

theorem isNameChar_of_isTrailing {c : Char} (h : isTrailing c) : isNameChar c = false := by
  simp only [isTrailing, isClosing, Bool.or_eq_true, beq_iff_eq] at h
  rcases h with (rfl | rfl) | h
  · decide
  · decide
  · exact isNameChar_of_isBlank h

theorem takeName_getD_append (h : name = [] ∨ name.isName)
    (hrest : rest.startsWith isNameChar = false) :
    (Text.takeName (name ++ rest)).getD ([], name ++ rest) = (name, rest) := by
  rcases h with rfl | h
  · cases rest with
    | nil => rfl
    | cons c rest =>
      have hc : ¬ isNameStart c := fun hc =>
        Bool.eq_false_iff.mp hrest (isNameChar_of_isNameStart hc)
      rw [nil_append, Text.takeName, if_neg hc]
      rfl
  · rw [takeName_append_of_isName h hrest]
    rfl

theorem takeCore_name (h : name = [] ∨ name.isName) (hrest : ∀ c ∈ rest, isTrailing c)
    (expression : Text) : takeCore expression (name ++ rest) = .ok (name, rest) := by
  have hstart : rest.startsWith isNameChar = false :=
    startsWith_of_forall fun c hc => isNameChar_of_isTrailing (hrest c hc)
  have hangle : rest.trimStart.startsWith (· == '<') = false :=
    startsWith_of_forall fun c hc => beq_of_class (hrest c ((dropWhile_sublist _).subset hc)) rfl
  simp only [takeCore, takeName_getD_append h hstart, hangle]
  rfl

theorem takeCore_angled {blanks inner inside : Text} (h : name = [] ∨ name.isName)
    (hblanks : ∀ c ∈ blanks, isBlank c)
    (hinside : takeBalanced '<' '>' ('<' :: inner) = .ok (some (inside, rest)))
    (expression : Text) :
    takeCore expression (name ++ (blanks ++ '<' :: inner)) =
      .ok (name ++ (blanks ++ inside), rest) := by
  have hstart : Text.startsWith isNameChar (blanks ++ '<' :: inner) = false := by
    cases blanks with
    | nil => rfl
    | cons c cs => exact isNameChar_of_isBlank (hblanks c mem_cons_self)
  have htrim : Text.trimStart (blanks ++ '<' :: inner) = '<' :: inner := by
    rewrite [trimStart_blank_append hblanks]
    rfl
  have htake : (blanks ++ '<' :: inner).takeWhile isBlank = blanks := by
    rw [takeWhile_append_of_pos hblanks, takeWhile_cons_of_neg (by decide), append_nil]
  simp only [takeCore, takeName_getD_append h hstart, htrim, htake, hinside]
  rw [← append_assoc]
  rfl

/-! ### Type expressions -/

/-- **A type expression put together is taken apart** where its brackets end and where its core
ends. -/
theorem Decorated.ofText_of_trim {opening core : Text} (htrim : t.trim = opening ++ (core ++ rest))
    (hopening : ∀ c ∈ opening, isOpening c)
    (hstop : Text.startsWith isOpening (core ++ rest) = false)
    (hcore : takeCore t.trim (core ++ rest) = .ok (core, rest)) (hrest : ∀ c ∈ rest, isTrailing c) :
    Decorated.ofText t = .ok ⟨opening.squeeze, core.trim, rest.squeeze⟩ := by
  obtain ⟨htake, hdrop⟩ : (core ++ rest).takeWhile isOpening = [] ∧
      (core ++ rest).dropWhile isOpening = core ++ rest := by
    cases hs : core ++ rest with
    | nil => exact ⟨rfl, rfl⟩
    | cons c s =>
      rw [hs] at hstop
      have hc : ¬ isOpening c := Bool.eq_false_iff.mp hstop
      exact ⟨takeWhile_cons_of_neg hc, dropWhile_cons_of_neg hc⟩
  have hall : rest.squeeze.all isClosing := by
    rw [all_eq_true]
    intro c hc
    obtain ⟨hmem, hblank⟩ := mem_filter.mp hc
    have := hrest c hmem
    rw [isTrailing, Bool.or_eq_true] at this
    exact this.resolve_right (by simpa using hblank)
  rw [Decorated.ofText, htrim, dropWhile_append_of_pos hopening, takeWhile_append_of_pos hopening,
    hdrop, htake, append_nil, ← htrim, hcore]
  exact if_pos hall

theorem trim_append (ht : t.trim = t) (hx : x.trim = x) : Text.trim (t ++ x) = t ++ x := by
  cases t with
  | nil => exact hx
  | cons c t =>
    have hc : ¬ isBlank c := by
      have hhead := head?_dropWhile_not isBlank (c :: t)
      have hstart := trimStart_trim (c :: t)
      rw [ht, trimStart_eq_dropWhile] at hstart
      simpa [hstart] using hhead
    cases hlast : x.getLast? with
    | none => rwa [getLast?_eq_none_iff.mp hlast, append_nil]
    | some d =>
      have hd : isBlank d = false := Bool.eq_false_iff.mpr fun hd => getLast?_ne_of_trim hx hd hlast
      obtain ⟨u, rfl⟩ := getLast?_eq_some_iff.mp hlast
      rw [Text.trim, cons_append, trimStart_eq_dropWhile,
        dropWhile_cons_of_neg hc, ← cons_append, ← append_assoc, trimEnd_append_singleton hd]

/-- **Taking a type expression apart loses nothing but white space.**  What stands before the core
are opening brackets and what stands after it closing brackets and bangs; the core is trimmed; the
three have all characters of the text that are not white space, in order; put together, they are
taken apart in the same way. -/
theorem Decorated.ofText_loses_nothing {t : Text} {d : Decorated} (h : Decorated.ofText t = .ok d) :
    (∀ c ∈ d.opening, c = '[') ∧ (∀ c ∈ d.closing, c = ']' ∨ c = '!') ∧ d.core.trim = d.core ∧
      t.squeeze = d.opening ++ (d.core.squeeze ++ d.closing) ∧
      Decorated.ofText (d.opening ++ (d.core ++ d.closing)) = .ok d := by
  obtain ⟨opening, name, after, rest, ⟨htrim, hstop, hname, hcore⟩, hopening, -, hrest, rfl,
      hafter⟩ :=
    Decorated.ofText_cases h
  have hbrackets : ∀ c ∈ opening.squeeze, c = '[' := by
    intro c hc
    obtain ⟨hmem, hblank⟩ := mem_filter.mp hc
    simpa [isOpening, Bool.eq_false_iff.mpr (by simpa using hblank)] using hopening c hmem
  have hclosing : ∀ c ∈ rest.squeeze, c = ']' ∨ c = '!' :=
    fun c hc => by simpa [isClosing] using hrest c hc
  refine ⟨hbrackets, hclosing, hcore, ?_, ?_⟩
  · rw [← squeeze_trim, htrim, squeeze_append, squeeze_append]
  have hends : ∀ c ∈ rest.squeeze, isTrailing c := fun c hc => by simp [isTrailing, hrest c hc]
  -- the parts are trimmed, and so is the text that they make
  have hwhole := trim_append (trim_squeeze opening) (trim_append hcore (trim_squeeze rest))
  have hagain : ∀ e, takeCore e (name ++ after ++ rest.squeeze) =
      .ok (name ++ after, rest.squeeze) := by
    intro e
    rcases hafter with rfl | ⟨blanks, inner, rfl, hblanks, htake⟩
    · rw [append_nil]
      exact takeCore_name hname hends e
    · rw [append_assoc, append_assoc]
      exact takeCore_angled hname hblanks (Lexeme.takeBalanced_congr htake rest.squeeze) e
  have hfirst : Text.startsWith isOpening (name ++ after ++ rest.squeeze) = false := by
    by_cases hne : name ++ after = []
    · rw [hne]
      refine startsWith_of_forall fun c hc => ?_
      rcases hclosing c hc with rfl | rfl <;> rfl
    · rw [startsWith_append hne, ← startsWith_append hne, hstop]
  have hofText := Decorated.ofText_of_trim hwhole (fun c hc => by rw [hbrackets c hc]; rfl)
    hfirst (hagain _) hends
  rwa [squeeze_squeeze, squeeze_squeeze, hcore] at hofText

/-- A bracket in a literal closes nothing, and white space in it stays. -/
theorem Decorated.ofText_loses_nothing_literal :
    Decorated.ofText " [ Paged <\"> >\", [A]> ! ]".toList =
        .ok ⟨"[".toList, "Paged <\"> >\", [A]>".toList, "!]".toList⟩ ∧
      Decorated.ofText "[Paged <\"> >\", [A]>!]".toList =
        .ok ⟨"[".toList, "Paged <\"> >\", [A]>".toList, "!]".toList⟩ := by
  have h : Decorated.ofText " [ Paged <\"> >\", [A]> ! ]".toList =
    .ok ⟨"[".toList, "Paged <\"> >\", [A]>".toList, "!]".toList⟩ := by decide +kernel
  exact ⟨h, (Decorated.ofText_loses_nothing h).2.2.2.2⟩

end Schemata
