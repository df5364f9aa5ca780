import Schemata.Proofs.Appending
import Schemata.Proofs.Neighbours

/-!
# Headers on one line

A schema is read twice: statement by statement, where a header may run over several lines, and line
by line, where annotations and the comments above declarations are found.  A schema that is read
statement by statement closes its literals, unless it has a line that is passed over and does not,
or a comment in the directives of a scalar.  Then it is read line by line too, exactly if no line
breaks off the type parameters of a header.
-/

namespace Schemata

open List

variable {f : Fragment} {ls : List Lexeme}
  {comments isExtend : Bool} {rest s t x : Text} {rows : List (Text × LineState)}

/-! ### Lexemes without open literals -/

section AllClosed

variable {ls ms : List Lexeme}

theorem AllClosed.exists_lineStates (h : AllClosed (lex true t)) (depth : Nat) :
    ∃ states, Lexeme.lineStates depth (lex true t) = .ok states := by
  obtain ⟨after, hafter⟩ := exists_finalDepth_iff.mpr h
  obtain ⟨ss, -, -, hss⟩ :=
    passesLines_of_finalDepth (fun c hc => newline_not_mem_comment hc) hafter
  exact ⟨ss, lineStates_of_forall hss⟩

theorem allClosed_of_stripComments (h : stripComments t = .ok s) : AllClosed (lex true t) := by
  have hlexed := lexed_of_stripComments h
  generalize lex true t = ls at hlexed
  induction hlexed with
  | nil => exact .nil
  | char _ _ _ ih => exact .cons (by simp) ih
  | literal _ _ ih => exact .cons (by simp) ih
  | comment _ _ _ ih => exact .cons (by simp) ih

end AllClosed

/-! ### Texts one after the other -/

theorem lex_tail {l : Lexeme} (h : lex comments t = l :: ls) : lex comments (raw ls) = ls := by
  induction t using lex_induction comments with
  | nil =>
    rw [lex_nil] at h
    cases h
  | char c u _ _ step _ =>
    rw [step] at h
    cases h
    rw [raw_lex]
  | literal s u _ now _ _ | comment s u _ _ _ now _ _ =>
    rw [now] at h
    cases h
    rw [raw_lex]
  | unclosed u now =>
    rw [now] at h
    cases h
    rw [raw_nil, lex_nil]

theorem lex_raw_right {p q : List Lexeme} (h : lex comments t = p ++ q) :
    lex comments (raw q) = q := by
  induction p generalizing t with
  | nil =>
    obtain rfl : lex comments t = q := h
    rw [raw_lex]
  | cons l p ih => exact ih (lex_tail h)

theorem lex_raw_left {p q : List Lexeme} (h : lex false t = p ++ q) (hp : AllClosed p) :
    lex false (raw p) = p := by
  induction t using lex_induction false generalizing p with
  | nil =>
    rw [lex_nil] at h
    rw [(append_eq_nil_iff.mp h.symm).1, raw_nil, lex_nil]
  | char c u _ _ step ih =>
    cases p with
    | nil => rw [raw_nil, lex_nil]
    | cons l p =>
      rw [step, cons_append, List.cons.injEq] at h
      obtain ⟨rfl, hu⟩ := h
      rw [raw_char, step, ih hu (allClosed_cons.mp hp).2]
  | literal s u taken now _ ih =>
    cases p with
    | nil => rw [raw_nil, lex_nil]
    | cons l p =>
      rw [now, cons_append, List.cons.injEq] at h
      obtain ⟨rfl, hu⟩ := h
      have hraw : u = raw p ++ raw q := by rw [← raw_append, ← hu, raw_lex]
      have hlit : Text.takeLiteral ('"' :: (s ++ raw p)) = some ('"' :: s, raw p) := by
        refine Text.takeLiteral_congr taken fun hq => ?_
        rw [hraw]
        cases hp : raw p with
        | nil =>
          rw [hp] at hq
          cases hq
        | cons d v => rwa [hp] at hq
      rw [raw_cons, Lexeme.text, cons_append, lex_literal hlit, ih hu (allClosed_cons.mp hp).2]
  | comment s u hcomments _ _ _ _ _ => cases hcomments
  | unclosed u now =>
    rw [now] at h
    cases p with
    | nil => rw [raw_nil, lex_nil]
    | cons l p =>
      rw [cons_append, List.cons.injEq] at h
      exact absurd h.1.symm ((allClosed_cons.mp hp).1 _)

theorem lex_append_of_getLast (hs : Closed s) (hlast : s.getLast? ≠ some '"' ∨ x = []) :
    lex true (s ++ x) = lex true s ++ lex true x := by
  unfold Closed at hs
  rw [← lex_true_of_closed hs] at hs
  have hrest : ∀ {p u : Text}, (p ++ u).getLast? ≠ some '"' ∨ x = [] → u.getLast? ≠ some '"' ∨
      x = [] := by
    intro p u
    refine Or.imp_left (mt fun hu => ?_)
    rw [getLast?_append, hu, Option.some_or]
  induction s using lex_induction true with
  | nil => rw [lex_nil, nil_append, nil_append]
  | char c u _ _ step ih =>
    rw [step, all_cons, Bool.and_eq_true] at hs
    rw [cons_append, step, step, cons_append, ih hs.2 (hrest (p := [c]) hlast)]
  | literal s u taken now more ih =>
    rw [now, all_cons, Bool.and_eq_true] at hs
    have hopen : u ≠ [] ∨ Text.startsWith (· == '"') x = false := by
      rcases eq_or_ne u [] with rfl | hu
      · rw [append_nil, takeLiteral_getLast taken] at hlast
        rw [hlast.resolve_left fun hne => hne rfl]
        exact .inr rfl
      · exact .inl hu
    rw [cons_append, append_assoc, more _ hopen, now, cons_append,
      ih hs.2 (hrest (p := '"' :: s) hlast)]
  | comment s u _ _ _ now more ih =>
    rw [now] at hs
    cases hs
  | unclosed u now =>
    rw [now] at hs
    cases hs

/-! ### Statements and their literals -/

theorem takeBody_closed {depth : Nat} {body rest : List Lexeme}
    (h : takeBody depth ls = .ok (some (body, rest))) : ∃ p, ls = p ++ rest ∧ AllClosed p := by
  fun_induction takeBody depth ls generalizing body with
  | case1 => cases h
  | case2 => cases h
  | case3 depth c ls hc =>
    cases h
    exact ⟨[.char c], rfl, allClosed_map_char [c]⟩
  | case4 =>
    rename_i ih
    obtain ⟨o, ho, hp⟩ := map_eq_ok h
    obtain ⟨⟨body', rest'⟩, rfl, hq⟩ := Option.map_eq_some_iff.mp hp
    cases hq
    obtain ⟨p, rfl, hp⟩ := ih ho
    exact ⟨_ :: p, rfl, .cons (by simp) hp⟩
  | case5 depth l ls hopen _ ih =>
    obtain ⟨o, ho, hp⟩ := map_eq_ok h
    obtain ⟨⟨body', rest'⟩, rfl, hq⟩ := Option.map_eq_some_iff.mp hp
    cases hq
    obtain ⟨p, rfl, hp⟩ := ih ho
    exact ⟨l :: p, rfl, .cons (fun s hs => hopen s hs) hp⟩

theorem allClosed_of_readBlock {kind : Kind} {opening : Text}
    (h : readBlock kind isExtend opening t = .ok (f, rest)) (hrest : AllClosed (lex true rest)) :
    AllClosed (lex true t) := by
  unfold readBlock at h
  obtain ⟨⟨header, hasBody, after⟩, hh, h⟩ := bind_eq_ok.mp h
  obtain ⟨stripped, -, h⟩ := bind_eq_ok.mp h
  obtain ⟨full, -, h⟩ := bind_eq_ok.mp h
  obtain ⟨p, hlex, hp, -⟩ := takeHeader_closed hh
  have hafter : AllClosed after := by
    cases hasBody with
    | true =>
      obtain ⟨o, ho, h⟩ := bind_eq_ok.mp h
      cases o with
      | none => cases h
      | some b =>
        obtain ⟨body, last⟩ := b
        obtain ⟨items, -, h⟩ := bind_eq_ok.mp h
        cases h
        obtain ⟨p', rfl, hp'⟩ := takeBody_closed ho
        rw [← append_assoc] at hlex
        rw [lex_raw_right hlex] at hrest
        exact allClosed_append.mpr ⟨hp', hrest⟩
    | false =>
      cases isExtend with
      | true =>
        cases h
        rwa [lex_raw_right hlex] at hrest
      | false => cases h
  rw [hlex]
  exact allClosed_append.mpr ⟨hp, hafter⟩

/-- The lines of a union are the text, and the last one ends where the rest starts. -/
theorem takeUnion_append {taken header : Text} (h : takeUnion taken t = .ok (header, rest))
    (ht : t = [] ∨ ∃ v, t = '\n' :: v) :
    taken ++ t = header ++ rest ∧ (rest = [] ∨ ∃ v, rest = '\n' :: v) := by
  fun_induction takeUnion taken t with
  | case1 taken =>
    cases h
    exact ⟨rfl, .inl rfl⟩
  | case2 taken c cs ih =>
    have htaken : takeUnion taken (c :: cs) = .ok (header, rest) := by
      rw [takeUnion]
      exact h
    cases hs : stripComments taken with
    | error e =>
      rw [hs] at h
      cases h
    | ok s =>
      rw [takeUnion_cons hs] at htaken
      split_ifs at htaken
      · obtain ⟨happend, hends⟩ := ih htaken (dropWhile_line cs)
        rw [← happend, append_assoc, cons_append, takeWhile_append_dropWhile]
        exact ⟨rfl, hends⟩
      · cases htaken
        exact ⟨rfl, ht⟩

theorem allClosed_of_readUnion (h : readUnion isExtend t = .ok (f, rest))
    (hrest : AllClosed (lex true rest)) : AllClosed (lex true t) := by
  unfold readUnion at h
  obtain ⟨⟨taken, after⟩, hu, h⟩ := bind_eq_ok.mp h
  obtain ⟨header, hh, h⟩ := bind_eq_ok.mp h
  cases h
  obtain ⟨stripped, hs, -⟩ := bind_eq_ok.mp hh
  obtain ⟨happend, hends⟩ := takeUnion_append hu (dropWhile_line t)
  rw [takeWhile_append_dropWhile] at happend
  have htaken := allClosed_of_stripComments hs
  rw [happend, lex_append_line htaken hends]
  exact allClosed_append.mpr ⟨htaken, hrest⟩

/-- Brackets end with the one that closes them, and close the literals between them. -/
theorem Lexeme.takeBalanced_lexemes {opener closer : Char} {depth : Int} {inside : Text}
    (h : Lexeme.takeBalanced opener closer depth ls = .ok (some (inside, rest))) :
    ∃ p q, ls = p ++ .char closer :: q ∧ inside = raw p ++ [closer] ∧ AllClosed p := by
  fun_induction Lexeme.takeBalanced opener closer depth ls generalizing inside with
  | case1 => cases h
  | case2 => cases h
  | case4 depth c ls hopen hclose hdepth =>
    cases h
    rw [beq_iff_eq.mp hclose]
    exact ⟨[], ls, rfl, rfl, .nil⟩
  | case3 | case5 | case6 | case7 | case8 =>
    rename_i ih
    obtain ⟨b, ho, rfl⟩ := prepend_eq_ok h
    obtain ⟨p, q, rfl, rfl, hclosed⟩ := ih ho
    refine ⟨_ :: p, q, rfl, ?_, .cons (by simp) hclosed⟩
    rw [raw_cons, append_assoc]
    rfl

/-- What is taken as a directive: its name, and its arguments or all of the text if they are not
closed. -/
theorem takeDirective_cases {directive : Text}
    (h : takeDirective t = .ok (some (directive, rest))) :
    ∃ cs name after inside, Text.takeName cs = some (name, after) ∧
      directive = t.takeWhile isGapChar ++ '@' :: (name ++ inside) ∧
      (inside = [] ∨ takeBalanced '(' ')' after = .ok (some (inside, rest)) ∨ rest = []) := by
  by_cases hat : Text.startsWith (· == '@') (t.dropWhile isGapChar)
  · obtain ⟨cs, hcs⟩ := eq_cons_of_startsWith hat
    rw [takeDirective_eq rfl hcs] at h
    cases hname : Text.takeName cs with
    | none =>
      rw [hname] at h
      cases h
    | some n =>
      obtain ⟨name, after⟩ := n
      rw [hname] at h
      simp only at h
      split_ifs at h with hparen
      · obtain ⟨o, ho, hp⟩ := map_eq_ok h
        cases o with
        | none =>
          cases hp
          exact ⟨cs, name, after, after, hname, append_assoc _ _ _, .inr (.inr rfl)⟩
        | some b =>
          obtain ⟨inside, last⟩ := b
          cases hp
          exact ⟨cs, name, after, inside, hname, append_assoc _ _ _, .inr (.inl ho)⟩
      · cases h
        exact ⟨cs, name, rest, [], hname, by rw [append_nil], .inl rfl⟩
  · rw [Bool.not_eq_true] at hat
    rw [takeDirective_eq_none hat] at h
    cases h

/-- A directive does not end with a quote, unless it runs to the end of the text. -/
theorem takeDirective_getLast {directive : Text}
    (h : takeDirective t = .ok (some (directive, rest))) :
    directive.getLast? ≠ some '"' ∨ rest = [] := by
  obtain ⟨cs, name, after, inside, hname, rfl, rfl | hinside | rfl⟩ := takeDirective_cases h
  · left
    obtain ⟨-, hne⟩ := Text.takeName_append hname
    rw [append_nil, append_cons, getLast?_append_of_ne_nil _ hne]
    intro hlast
    exact absurd (isNameChar_of_mem_takeName hname _ (mem_of_getLast? hlast)) (by decide)
  · left
    obtain ⟨p, -, -, rfl, -⟩ := Lexeme.takeBalanced_lexemes hinside
    rw [append_cons, ← append_assoc, ← append_assoc, getLast?_concat]
    decide
  · exact .inr rfl

theorem takeDirectives_getLast {directives : Text} (h : takeDirectives t = .ok (directives, rest)) :
    directives.getLast? ≠ some '"' ∨ rest = [] := by
  fun_induction takeDirectives t generalizing directives with
  | case1 => cases h
  | case2 =>
    cases h
    left
    decide
  | case3 t directive after hd ih =>
    obtain ⟨⟨more, rest'⟩, hmore, hp⟩ := map_eq_ok h
    cases hp
    rcases eq_or_ne more [] with rfl | hne
    · obtain rfl : after = rest := takeDirectives_append hmore
      rw [append_nil]
      exact takeDirective_getLast hd
    · rw [getLast?_append_of_ne_nil _ hne]
      exact ih hmore

theorem ne_quote_hash {p : Char → Bool} (hquote : p '"' = false) (hhash : p '#' = false) {c : Char}
    (h : p c) : c ≠ '"' ∧ c ≠ '#' := by
  constructor
  · rintro rfl
    rw [hquote] at h
    cases h
  · rintro rfl
    rw [hhash] at h
    cases h

theorem allClosed_append_chars (h : ∀ c ∈ s, c ≠ '"' ∧ c ≠ '#') :
    AllClosed (lex true (s ++ t)) ↔ AllClosed (lex true t) := by
  rw [lex_append_chars h, allClosed_append, and_iff_right (allClosed_map_char s)]

/-- A scalar closes its literals, if no comment stands in its directives and what follows it
does. -/
theorem allClosed_of_readScalar {start opening : Text}
    (h : readScalar isExtend start opening t = .ok (f, rest))
    (hclosed : ∀ n ∈ t.trimStart.takeName, ∀ r, takeDirectives n.2 = .ok r → Closed r.1)
    (hrest : AllClosed (lex true rest)) : AllClosed (lex true t) := by
  unfold readScalar at h
  split at h
  · cases h
  · rename_i name after hname
    obtain ⟨⟨directives, last⟩, hd, h⟩ := bind_eq_ok.mp h
    obtain ⟨header, -, h⟩ := bind_eq_ok.mp h
    cases h
    have hds : Closed directives := hclosed _ hname _ hd
    have hlex : AllClosed (lex true directives) := by
      rw [lex_true_of_closed hds]
      intro s hs
      cases all_eq_true.mp hds _ hs
    rw [← takeWhile_append_dropWhile (p := isBlank) (l := t),
      allClosed_append_chars fun c hc => ne_quote_hash rfl rfl (mem_takeWhile_imp hc)]
    change AllClosed (lex true t.trimStart)
    rw [(Text.takeName_append hname).1,
      allClosed_append_chars fun c hc => ne_quote_hash rfl rfl
        (isNameChar_of_mem_takeName hname c hc),
      takeDirectives_append hd, lex_append_of_getLast hds (takeDirectives_getLast hd)]
    exact allClosed_append.mpr ⟨hlex, hrest⟩

/-- The statement that `t` starts with is read with the literals that its text has: a line that is
passed over closes its literals, and no comment stands in the directives of a scalar. -/
def ReadsLiterals (t : Text) : Prop :=
  ∀ w, takeWord t = .ok w →
    (Kind.ofKeyword? w.2.2.1 = none → (stripComments (t.takeWhile (· != '\n'))).isOk = true) ∧
    (Kind.ofKeyword? w.2.2.1 = some .scalar →
      ∀ n ∈ w.2.2.2.trimStart.takeName, ∀ r, takeDirectives n.2 = .ok r → Closed r.1)

instance (t : Text) : Decidable (ReadsLiterals t) :=
  inferInstanceAs (Decidable (∀ _, _ → _))

/-- **A statement closes its literals**, if what follows it does. -/
theorem allClosed_of_read {s : Statement} (h : Statement.read t = .ok (s, rest))
    (hreads : ReadsLiterals t) (hrest : AllClosed (lex true rest)) : AllClosed (lex true t) := by
  unfold Statement.read at h
  obtain ⟨⟨isExtend, opening, word, after⟩, hw, h⟩ := bind_eq_ok.mp h
  obtain ⟨hskipped, hscalar⟩ := hreads _ hw
  have happend : AllClosed (lex true t) ↔ AllClosed (lex true after) := by
    rw [(takeWord_append hw).1]
    refine allClosed_append_chars fun c hc => ?_
    rcases takeWord_chars hw c hc with hc | hc
    · exact ne_quote_hash (p := isNameChar) rfl rfl hc
    · exact ne_quote_hash (p := isBlank) rfl rfl hc
  cases hk : Kind.ofKeyword? word with
  | none =>
    simp only [hk] at h
    cases h
    have hok := hskipped hk
    cases hs : stripComments (t.takeWhile (· != '\n')) with
    | error e =>
      rw [hs] at hok
      cases hok
    | ok u =>
      have hline := allClosed_of_stripComments hs
      rw [← takeWhile_append_dropWhile (p := (· != '\n')) (l := t),
        lex_append_line hline (dropWhile_line t)]
      exact allClosed_append.mpr ⟨hline, hrest⟩
  | some kind =>
    simp only [hk] at h
    split at h
    · rename_i hnone
      cases hnone
    · obtain ⟨⟨f, last⟩, hf, h⟩ := bind_eq_ok.mp h
      cases h
      exact allClosed_of_readUnion hf hrest
    · rename_i heq
      cases heq
      obtain ⟨⟨f, last⟩, hf, h⟩ := bind_eq_ok.mp h
      cases h
      exact happend.mpr (allClosed_of_readScalar hf (hscalar hk) hrest)
    · obtain ⟨⟨f, last⟩, hf, h⟩ := bind_eq_ok.mp h
      cases h
      exact happend.mpr (allClosed_of_readBlock hf hrest)

theorem Scan.failure_add (d : Option Text) (s : Statement) (x : Scan) :
    (x.add d s).failure = x.failure := by
  cases s <;> rfl

/-- **A schema that is read statement by statement closes its literals.** -/
theorem allClosed_of_scanFrom {d : Option Text} (h : (scanFrom d t).failure = none)
    (hreads : ∀ u ∈ statementTexts t, ReadsLiterals u) : AllClosed (lex true t) := by
  fun_induction scanFrom d t with
  | case1 =>
    rw [lex_nil]
    exact .nil
  | case2 d c cs hc ih =>
    rw [statementTexts_blank hc] at hreads
    have hchar : c ≠ '"' ∧ c ≠ '#' := by
      rw [Bool.or_eq_true, beq_iff_eq] at hc
      rcases hc with hc | rfl
      · exact ne_quote_hash (p := isBlank) rfl rfl hc
      · decide
    rw [lex_cons hchar.1 hchar.2]
    exact .cons (by simp) (ih h hreads)
  | case3 d c cs hc hh ih =>
    obtain rfl : c = '#' := by simpa using hh
    rw [statementTexts_hash] at hreads
    rw [lex_hash]
    exact .cons (by simp) (ih h hreads)
  | case4 d c cs hc hh hq literal rest hl ih =>
    obtain rfl : c = '"' := by simpa using hq
    rw [statementTexts_quote hl] at hreads
    obtain ⟨happ, -⟩ := Text.takeLiteral_append hl
    obtain ⟨body, rfl⟩ := takeLiteral_eq_cons hl
    rw [happ, cons_append] at hl ⊢
    rw [lex_literal hl]
    exact .cons (by simp) (ih h hreads)
  | case5 => cases h
  | case6 d c cs hc hh hq s rest hs ih =>
    have hstart := startsStatement_of_not hc hh hq
    rw [statementTexts_statement hstart, hs, forall_mem_cons] at hreads
    rw [Scan.failure_add] at h
    exact allClosed_of_read hs hreads.1 (ih h hreads.2)
  | case7 => cases h

/-! ### Headers on one line -/

/-- If a header starts with the line, and type parameters after its name, then they end on the
line. -/
def ClosesParameters (line : Text) : Prop :=
  ∀ k ∈ takeKind line, k.2.1 ≠ .schema → ∀ n ∈ k.2.2.trimStart.takeName,
    n.2.trimStart.startsWith (· == '<') = true →
      ∃ o, takeBalanced '<' '>' n.2.trimStart = .ok o ∧ o.isSome = true

instance (line : Text) : Decidable (ClosesParameters line) :=
  inferInstanceAs (Decidable (∀ _ ∈ _, _))

theorem AllClosed.exists_splitAt (h : AllClosed ls) (separator : Char → Bool) (depth : Nat) :
    ∃ ps, Lexeme.splitAt separator depth ls = .ok ps := by
  have hmap : ∀ {f : List Text → List Text} {x : Except SchemaError (List Text)},
      (∃ ps, x = .ok ps) → ∃ ps, f <$> x = .ok ps := by
    rintro f x ⟨ps, rfl⟩
    exact ⟨f ps, rfl⟩
  fun_induction Lexeme.splitAt separator depth ls with
  | case1 => exact ⟨_, rfl⟩
  | case2 => exact absurd rfl ((allClosed_cons.mp h).1 _)
  | case3 | case4 | case5 | case6 =>
    rename_i ih
    exact hmap (ih (allClosed_cons.mp h).2)

theorem exists_splitAt_of_takeBalanced {inside : Text} (ht : t.startsWith (· == '<'))
    (h : takeBalanced '<' '>' t = .ok (some (inside, rest))) (separator : Char → Bool) :
    ∃ ps, splitAt separator inside.tail.dropLast = .ok ps := by
  cases t with
  | nil => cases ht
  | cons c u =>
    rw [startsWith_cons, beq_iff_eq] at ht
    subst ht
    obtain ⟨p, q, hlex, rfl, hp⟩ := Lexeme.takeBalanced_lexemes h
    rw [lex_cons_of_ne_quote (by decide)] at hlex
    cases p with
    | nil => cases hlex
    | cons l p =>
      rw [cons_append, List.cons.injEq] at hlex
      obtain ⟨rfl, hu⟩ := hlex
      have hclosed := (allClosed_cons.mp hp).2
      obtain ⟨ps, hps⟩ := hclosed.exists_splitAt separator 0
      have hinside : (raw (.char '<' :: p) ++ ['>']).tail.dropLast = raw p := by
        rw [raw_char, cons_append, tail_cons, dropLast_concat]
      rw [hinside, splitAt, lex_raw_left hu hclosed, hps]
      exact ⟨_, rfl⟩

theorem DeclaredName.exists_read_iff :
    (∃ n, DeclaredName.read t = .ok n) ↔ ∀ n ∈ t.trimStart.takeName,
      n.2.trimStart.startsWith (· == '<') → ∃ o, takeBalanced '<' '>' n.2.trimStart = .ok o ∧
        o.isSome := by
  unfold DeclaredName.read
  cases hname : t.trimStart.takeName with
  | none => simp [hname, pure, Except.pure]
  | some r =>
    obtain ⟨base, rest⟩ := r
    simp only [hname, Option.mem_def, Option.some.injEq, forall_eq']
    by_cases hangle : rest.trimStart.startsWith (· == '<')
    · rw [if_pos hangle]
      cases hb : takeBalanced '<' '>' rest.trimStart with
      | error e => simp [hangle, bind, Except.bind]
      | ok o =>
        cases o with
        | none => simp [hangle, bind, Except.bind, throw, throwThe, MonadExceptOf.throw]
        | some b =>
          obtain ⟨ps, hps⟩ := exists_splitAt_of_takeBalanced hangle hb (· == ',')
          simp [hps, bind, Except.bind, pure, Except.pure]
    · simp [hangle, pure, Except.pure]

/-- **A line can be read as a header** exactly if its type parameters are whole. -/
theorem Header.exists_read_iff {line : Text} :
    (∃ h, Header.read line = .ok h) ↔ ClosesParameters line := by
  unfold Header.read ClosesParameters
  cases hk : takeKind line with
  | none => simp [pure, Except.pure]
  | some k =>
    obtain ⟨isExtend, kind, rest⟩ := k
    simp only [Option.mem_def, Option.some.injEq, forall_eq']
    by_cases hs : kind = .schema
    · simp [hs, pure, Except.pure]
    · rw [if_neg (mt beq_iff_eq.mp hs), forall_prop_of_true hs]
      refine Iff.trans ?_ DeclaredName.exists_read_iff
      constructor
      · rintro ⟨h, hh⟩
        obtain ⟨n, hn, -⟩ := bind_eq_ok.mp hh
        exact ⟨n, hn⟩
      · rintro ⟨n, hn⟩
        rw [hn]
        cases n with
        | none => exact ⟨none, rfl⟩
        | some n => exact ⟨some _, rfl⟩

/-! ### Rows of a schema -/

/-- The line, if it is outside of blocks and literals, can be read as a header. -/
def HasWholeHeader (r : Text × LineState) : Prop :=
  r.2.depth = 0 → r.2.inString = false → ClosesParameters r.1

instance (r : Text × LineState) : Decidable (HasWholeHeader r) :=
  inferInstanceAs (Decidable (_ → _))

theorem exists_rowHeader_iff {r : Text × LineState} :
    (∃ h, rowHeader r = .ok h) ↔ HasWholeHeader r := by
  unfold rowHeader HasWholeHeader
  by_cases hstart : (r.2.depth == 0 && !r.2.inString)
  · rw [if_pos hstart, Header.exists_read_iff]
    rw [Bool.and_eq_true, beq_iff_eq, Bool.not_eq_true'] at hstart
    simp [hstart]
  · rw [if_neg hstart]
    rw [Bool.and_eq_true, beq_iff_eq, Bool.not_eq_true', not_and] at hstart
    exact iff_of_true ⟨none, rfl⟩ fun hdepth hout => absurd hout (hstart hdepth)

/-- The line, if it is outside of literals, starts neither with the sign of an annotation nor with
`directive`. -/
def StartsNoMark (r : Text × LineState) : Prop :=
  r.2.inString = false → r.1.trim.startsWith (· == '@') = false ∧
    Text.after? "directive".toList r.1.trim = none

instance (r : Text × LineState) : Decidable (StartsNoMark r) :=
  inferInstanceAs (Decidable (_ → _))

theorem StartsNoMark.unmarked {r : Text × LineState} (h : StartsNoMark r) : Unmarked r := by
  unfold Unmarked
  cases hin : r.2.inString with
  | true => exact .inl rfl
  | false =>
    obtain ⟨hat, hdirective⟩ := h hin
    refine .inr ⟨fun _ => ?_, ?_⟩
    · rw [directiveName?, hdirective]
      rfl
    · unfold Mark.ofLine?
      split
      · rename_i heq
        rw [heq] at hat
        cases hat
      · rfl

/-- What is collected from rows without annotations has read all of their headers. -/
theorem exists_rowHeader_of_collect (h : ∀ r ∈ rows, Unmarked r) {marks : List Mark}
    {parent : Option (Kind × Text)} {x : Extraction}
    (hx : (collect marks parent (sectionsFrom 0 rows)).outcome = .ok x) :
    ∀ r ∈ rows, ∃ header, rowHeader r = .ok header := by
  induction rows generalizing marks parent x with
  | nil => exact forall_mem_nil _
  | cons r rows ih =>
    obtain ⟨line, state⟩ := r
    obtain ⟨hr, hrows⟩ := forall_mem_cons.mp h
    refine forall_mem_cons.mpr ?_
    rcases hr.start (rows.map Prod.fst) with ⟨hstart, hheader⟩ | ⟨hstart, hcode⟩
    · rw [sectionsFrom_cons hstart rfl, collect] at hx
      obtain ⟨e, he, -⟩ := Report.bind_eq_ok.mp hx
      exact ⟨⟨none, hheader⟩, ih hrows he⟩
    · rw [sectionsFrom_cons hstart rfl, collect_code_eq_ok] at hx
      obtain ⟨header, own, e, hheader, -, he, -⟩ := hx
      exact ⟨⟨header, hcode.trans hheader⟩, ih hrows he⟩

theorem exists_commentBlocks_iff {above : List Text} :
    (∃ blocks, commentBlocks above rows = .ok blocks) ↔ ∀ r ∈ rows, ∃ header,
      rowHeader r = .ok header := by
  induction rows generalizing above with
  | nil => exact iff_of_true ⟨[], rfl⟩ (forall_mem_nil _)
  | cons r rows ih =>
    rw [forall_mem_cons]
    constructor
    · rintro ⟨blocks, hblocks⟩
      cases hheader : rowHeader r with
      | ok header =>
        rw [commentBlocks_cons hheader] at hblocks
        obtain ⟨more, hmore, -⟩ := map_eq_ok hblocks
        exact ⟨⟨header, rfl⟩, ih.mp ⟨more, hmore⟩⟩
      | error e =>
        obtain ⟨line, state⟩ := r
        unfold rowHeader at hheader
        rw [commentBlocks] at hblocks
        split_ifs at hheader with hstart
        · rw [if_pos hstart, hheader] at hblocks
          cases hblocks
        · cases hheader
    · rintro ⟨⟨header, hheader⟩, hrows⟩
      obtain ⟨blocks, hblocks⟩ := ih.mpr hrows
      rw [commentBlocks_cons hheader, hblocks]
      exact ⟨_, rfl⟩

theorem extract_eq_ok_iff (hrows : linesWithStates t = .ok rows) {x : Extraction} :
    (extract t).outcome = .ok x ↔ (collect [] none (sectionsFrom 0 rows)).outcome = .ok x := by
  unfold extract
  rw [Report.outcome_bind (Report.ofExcept_eq_ok.mpr hrows), Report.bind_eq_ok]
  constructor
  · rintro ⟨e, he, hx⟩
    cases hx
    exact he
  · intro hx
    exact ⟨x, hx, rfl⟩

theorem locateComments_eq_ok_iff (hrows : linesWithStates t = .ok rows)
    {blocks : List CommentBlock} :
    (locateComments t).outcome = .ok blocks ↔ commentBlocks [] rows = .ok blocks := by
  unfold locateComments
  rw [hrows, Report.bind_eq_ok]
  constructor
  · rintro ⟨found, hfound, h⟩
    cases h
    exact Report.ofExcept_eq_ok.mp hfound
  · intro h
    exact ⟨blocks, Report.ofExcept_eq_ok.mpr h, rfl⟩

theorem exists_error_of_not_exists_ok {ε α : Type} {x : Except ε α} (h : ¬∃ a, x = .ok a) :
    ∃ e, x = .error e := by
  cases x with
  | ok a => exact absurd ⟨a, rfl⟩ h
  | error e => exact ⟨e, rfl⟩

/-- **Reading by statements and reading by lines.**  A schema that is read statement by statement,
with the literals that its text has, and that has no annotations and no definitions of directives,
has lines.  If every header is whole on its line, nothing is extracted from the schema and its
comments are found.  Otherwise both fail. -/
theorem lines_read_iff_headers_whole {t : Text} {fs : List Fragment}
    (h : (readFragments t).outcome = .ok fs) (hreads : ∀ u ∈ statementTexts t, ReadsLiterals u)
    (hmarks : ∀ rows, linesWithStates t = .ok rows → ∀ r ∈ rows, StartsNoMark r) :
    ∃ rows, linesWithStates t = .ok rows ∧ rows.map Prod.fst = t.lines ∧
      if ∀ r ∈ rows, HasWholeHeader r then
        (∃ x, (extract t).outcome = .ok x ∧ x.plain = t ∧ x.annotations = []) ∧
          ∃ blocks, (locateComments t).outcome = .ok blocks
      else (∃ e, (extract t).outcome = .error e) ∧ ∃ e, (locateComments t).outcome = .error e := by
  have hclosed : AllClosed (lex true t) := allClosed_of_scanFrom (scan_of_readFragments h).1 hreads
  obtain ⟨states, hstates⟩ := hclosed.exists_lineStates 0
  obtain ⟨rows, hrows⟩ : ∃ rows, linesWithStates t = .ok rows := by
    rw [linesWithStates_eq, linesFrom, hstates]
    exact ⟨_, rfl⟩
  have hlines : rows.map Prod.fst = t.lines := map_fst_of_linesFrom (linesWithStates_eq t ▸ hrows)
  have hunmarked : ∀ r ∈ rows, Unmarked r := fun r hr => (hmarks rows hrows r hr).unmarked
  refine ⟨rows, hrows, hlines, ?_⟩
  split_ifs with hwhole
  · have hheaders := fun r hr => exists_rowHeader_iff.mpr (hwhole r hr)
    refine ⟨⟨⟨rows.map Prod.fst, []⟩, (extract_eq_ok_iff hrows).mpr ?_, ?_, rfl⟩, ?_⟩
    · exact collect_rows (fun r hr => ⟨hunmarked r hr, hheaders r hr⟩) none
    · rw [Extraction.plain, hlines, ofLines_lines]
    · exact (exists_congr fun _ => locateComments_eq_ok_iff hrows).mpr
        (exists_commentBlocks_iff.mpr hheaders)
  · have hnone : ¬∀ r ∈ rows, ∃ header, rowHeader r = .ok header :=
      fun hall => hwhole fun r hr => exists_rowHeader_iff.mp (hall r hr)
    refine ⟨exists_error_of_not_exists_ok ?_, exists_error_of_not_exists_ok ?_⟩
    · rintro ⟨x, hx⟩
      exact hnone (exists_rowHeader_of_collect hunmarked ((extract_eq_ok_iff hrows).mp hx))
    · intro hblocks
      exact hnone (exists_commentBlocks_iff.mp
        ((exists_congr fun _ => locateComments_eq_ok_iff hrows).mp hblocks))

/-- A schema with headers over several lines, and a line of a literal that would break one off. -/
def wholeHeaders : Text :=
  ("\"\"\"\n" ++
    "type P<\n" ++
    "\"\"\"\n" ++
    "type P<T>\n" ++
    "  implements N \x7b a: T = \"\x7b\" \x7d # <\n" ++
    "union U =\n" ++
    "  | A\n" ++
    "scalar D @a(x: \"\")").toList

theorem lines_read_wholeHeaders :
    (∃ fs, (readFragments wholeHeaders).outcome = .ok fs ∧ fs.length = 3) ∧
      (∀ u ∈ statementTexts wholeHeaders, ReadsLiterals u) ∧
      (∀ rows, linesWithStates wholeHeaders = .ok rows → ∀ r ∈ rows, StartsNoMark r) ∧
      (∃ x, (extract wholeHeaders).outcome = .ok x ∧ x.plain = wholeHeaders ∧ x.annotations = []) ∧
      ∃ blocks, (locateComments wholeHeaders).outcome = .ok blocks := by
  have hlength : (readFragments wholeHeaders).outcome.toOption.map List.length = some 3 := by
    decide +kernel
  obtain ⟨fs, hfs, hthree⟩ := Option.map_eq_some_iff.mp hlength
  have hok := eq_ok_of_toOption hfs
  have hreads : ∀ u ∈ statementTexts wholeHeaders, ReadsLiterals u := by decide +kernel
  have hlines : ∀ rows, linesWithStates wholeHeaders = .ok rows → ∀ r ∈ rows, StartsNoMark r ∧
      HasWholeHeader r := by
    decide +kernel
  have hmarks := fun rows hrows r hr => (hlines rows hrows r hr).1
  obtain ⟨rows, hrows, -, hread⟩ := lines_read_iff_headers_whole hok hreads hmarks
  rw [if_pos fun r hr => (hlines rows hrows r hr).2] at hread
  exact ⟨⟨fs, hok, hthree⟩, hreads, hmarks, hread⟩

/-- A declaration with its type parameters on a line of their own. -/
def spreadHeader : Text :=
  "type Paged<\n  T\n> \x7b items: [T] \x7d".toList

/-- A header over several lines is read by statements, and refused line by line. -/
theorem not_lines_read_spreadHeader :
    (readFragments spreadHeader).outcome.toOption.map
        (fun fs => ((parseFragments {} [] fs).outcome {}).1.toOption.map (·.map Declaration.name)) =
      some (some ["Paged<T>".toList]) ∧
    (∀ rows, linesWithStates spreadHeader = .ok rows → ∀ r ∈ rows, StartsNoMark r) ∧
    (extract spreadHeader).outcome = .error
      (.schema (.unbalancedParameters "Paged<".toList "Paged".toList)) ∧
    (locateComments spreadHeader).outcome =
      .error (.schema (.unbalancedParameters "Paged<".toList "Paged".toList)) := by
  refine ⟨?_, ?_, ?_, ?_⟩
  · decide +kernel
  · decide +kernel
  · decide +kernel
  · decide +kernel

end Schemata
