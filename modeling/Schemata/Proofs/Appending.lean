import Schemata.Proofs.BareSchemas
import Schemata.Proofs.Decoration
import Schemata.Proofs.Run

/-!
# Schemas one after the other

Reading a schema looks ahead in many places: a name goes on as long as its characters do, an empty
string may turn out to open a block string, a comment runs to the end of its line, a union goes on
if the next line says so, and a header ends where the next statement starts.  None of this looks
past a brace.  So a schema that ends with a body may be followed by any text on a new line, and is
read as if it stood alone.
-/

namespace Schemata

open List

variable {depth : Nat} {f : Fragment} {hasBody : Bool} {header opening rest t word : Text}
    {isExtend : Bool}

/-! ### Texts that go on -/

section Spans

variable {p : Char → Bool} {t : Text}

/-- Characters of a class end before the first one that is not of the class, whatever follows. -/
theorem takeWhile_append_of_dropWhile_ne_nil (h : t.dropWhile p ≠ []) (x : Text) :
    (t ++ x).takeWhile p = t.takeWhile p ∧ (t ++ x).dropWhile p = t.dropWhile p ++ x := by
  induction t with
  | nil => exact absurd rfl h
  | cons c t ih =>
    by_cases hc : p c
    · rw [dropWhile_cons_of_pos hc] at h
      rw [cons_append, takeWhile_cons_of_pos hc, takeWhile_cons_of_pos hc,
        dropWhile_cons_of_pos hc, dropWhile_cons_of_pos hc, (ih h).1]
      exact ⟨rfl, (ih h).2⟩
    · rw [cons_append, takeWhile_cons_of_neg hc, takeWhile_cons_of_neg hc,
        dropWhile_cons_of_neg hc, dropWhile_cons_of_neg hc]
      exact ⟨rfl, rfl⟩

theorem mem_dropWhile {c : Char} (hc : p c = false) (h : c ∈ t) : c ∈ t.dropWhile p := by
  rw [← takeWhile_append_dropWhile (p := p) (l := t), mem_append] at h
  refine h.resolve_left fun hm => ?_
  have := mem_takeWhile_imp hm
  rw [hc] at this
  cases this

theorem takeName_append_right {name : Text} (h : t.takeName = some (name, rest)) (hrest : rest ≠ [])
    (x : Text) : Text.takeName (t ++ x) = some (name, rest ++ x) := by
  cases t with
  | nil => cases h
  | cons c t =>
    rw [Text.takeName] at h
    split_ifs at h with hc
    simp only [Option.some.injEq, Prod.mk.injEq] at h
    obtain ⟨rfl, rfl⟩ := h
    obtain ⟨htake, hdrop⟩ := takeWhile_append_of_dropWhile_ne_nil hrest x
    rw [cons_append, Text.takeName, if_pos hc, htake, hdrop]

theorem takeName_append_of_eq_none (h : t.takeName = none) (ht : t ≠ []) (x : Text) :
    Text.takeName (t ++ x) = none := by
  cases t with
  | nil => exact absurd rfl ht
  | cons c t =>
    rw [Text.takeName] at h
    split_ifs at h with hc
    rw [cons_append, Text.takeName, if_neg hc]

end Spans

/-! ### Headers and bodies -/

theorem endsHeader_quote (isExtend : Bool) (cs : Text) :
    endsHeader isExtend (lex true ('"' :: cs)) := by
  rcases lex_quote_cases true cs with ⟨s, u, -, hlex⟩ | hlex
  · rw [hlex]
    rfl
  · rw [hlex]
    rfl

theorem endsHeader_hash (isExtend : Bool) (cs : Text) :
    endsHeader isExtend (lex true ('#' :: cs)) = isExtend := by
  rw [lex_hash]
  rfl

theorem takeWhile_lex_append {f : Lexeme → Bool} (hbrace : f (.char '{') = false)
    (hother : ∀ s, f (.literal s) = false ∧ f (.comment s) = false ∧ f (.unclosed s) = false)
    {v : Text} (h : '{' ∈ v) (x : Text) :
    (lex true (v ++ x)).takeWhile f = (lex true v).takeWhile f := by
  have hquote : ∀ cs, (lex true ('"' :: cs)).takeWhile f = [] := by
    intro cs
    rcases lex_quote_cases true cs with ⟨s, u, -, hlex⟩ | hlex
    · rw [hlex, takeWhile_cons_of_neg (by simp [hother])]
    · rw [hlex, takeWhile_cons_of_neg (by simp [hother])]
  induction v using lex_induction true with
  | nil => cases h
  | char c u _ _ step ih =>
    rw [cons_append, step, step]
    by_cases hc : f (.char c)
    · rw [takeWhile_cons_of_pos hc, takeWhile_cons_of_pos hc, ih]
      refine (mem_cons.mp h).resolve_left ?_
      rintro rfl
      rw [hbrace] at hc
      cases hc
    · rw [takeWhile_cons_of_neg hc, takeWhile_cons_of_neg hc]
  | literal _ _ _ _ _ _ | unclosed _ _ => rw [cons_append, hquote, hquote]
  | comment _ _ _ _ _ _ _ _ =>
    rw [cons_append, lex_hash, lex_hash, takeWhile_cons_of_neg (by simp [hother]),
      takeWhile_cons_of_neg (by simp [hother])]

theorem endsHeader_append {v : Text} (h : '{' ∈ v) (x : Text) :
    endsHeader isExtend (lex true (v ++ x)) = endsHeader isExtend (lex true v) := by
  induction v using lex_induction true with
  | nil => cases h
  | char c u _ _ step ih =>
    by_cases hc : isBlank c
    · have hu : '{' ∈ u := by
        refine (mem_cons.mp h).resolve_left ?_
        rintro rfl
        exact absurd hc (by decide)
      have hskip : ∀ ls, endsHeader isExtend (.char c :: ls) = endsHeader isExtend ls := by
        intro ls
        rw [endsHeader, endsHeader, Lexeme.dropBlank, if_pos hc]
      rw [cons_append, step, step, hskip, hskip, ih hu]
    · have hname : ∀ ls, endsHeader isExtend (.char c :: ls) =
          (Lexeme.leadingName (.char c :: ls)).any isStatementWord := by
        intro ls
        rw [endsHeader, Lexeme.dropBlank, if_neg hc]
      have hspan : Lexeme.leadingName (lex true (c :: u ++ x)) =
          Lexeme.leadingName (lex true (c :: u)) := by
        unfold Lexeme.leadingName
        rw [takeWhile_lex_append (by decide) (fun _ => ⟨rfl, rfl, rfl⟩) h x]
      rw [cons_append, step, step] at hspan
      rw [cons_append, step, step, hname, hname, hspan]
  | literal _ _ _ _ _ _ | unclosed _ _ => rw [cons_append, endsHeader_quote, endsHeader_quote]
  | comment _ _ _ _ _ _ _ _ => rw [cons_append, endsHeader_hash, endsHeader_hash]

/-- A header is the start of the text and closes its literals.  A body after it is opened by a
brace. -/
theorem takeHeader_closed {ls rest : List Lexeme}
    (h : takeHeader isExtend depth ls = .ok (header, hasBody, rest)) :
    ∃ p, ls = p ++ rest ∧ AllClosed p ∧ header <+: raw p ∧ (hasBody → '{' ∈ raw p) := by
  fun_induction takeHeader isExtend depth ls generalizing header with
  | case1 | case6 =>
    cases h
    exact ⟨[], rfl, .nil, nil_prefix, Bool.noConfusion⟩
  | case2 => cases h
  | case3 depth t ls ih | case4 depth t ls ih =>
    obtain ⟨⟨header', hasBody', rest'⟩, hr, hp⟩ := map_eq_ok h
    cases hp
    obtain ⟨p, rfl, hp, hstart, hbrace⟩ := ih hr
    exact ⟨_ :: p, rfl, .cons (by simp) hp, (prefix_append_right_inj t).mpr hstart,
      fun hb => mem_append_right _ (hbrace hb)⟩
  | case5 depth c ls hc =>
    cases h
    rw [Bool.and_eq_true, beq_iff_eq, beq_iff_eq] at hc
    exact ⟨[.char c], rfl, allClosed_map_char [c], nil_prefix, fun _ => hc.2 ▸ mem_cons_self⟩
  | case7 =>
    rename_i ih
    obtain ⟨⟨header', hasBody', rest'⟩, hr, hp⟩ := map_eq_ok h
    cases hp
    obtain ⟨p, rfl, hp, hstart, hbrace⟩ := ih hr
    exact ⟨_ :: p, rfl, .cons (by simp) hp, (prefix_append_right_inj [_]).mpr hstart,
      fun hb => mem_append_right _ (hbrace hb)⟩

theorem brace_mem_of_takeHeader {ls rest : List Lexeme}
    (h : takeHeader isExtend depth ls = .ok (header, hasBody, rest))
    (hbrace : hasBody ∨ '{' ∈ raw rest) : '{' ∈ raw ls := by
  obtain ⟨p, rfl, -, -, hp⟩ := takeHeader_closed h
  rw [raw_append, mem_append]
  exact hbrace.imp_left hp

/-- **A header is read whatever follows**, if it opens a body or a brace follows. -/
theorem takeHeader_lex_append {rest : List Lexeme}
    (h : takeHeader isExtend depth (lex true t) = .ok (header, hasBody, rest))
    (hbrace : hasBody ∨ '{' ∈ raw rest) (x : Text) :
    ∃ r, rest = lex true r ∧
      takeHeader isExtend depth (lex true (t ++ x)) = .ok (header, hasBody, lex true (r ++ x)) := by
  have hmem := brace_mem_of_takeHeader h hbrace
  rw [raw_lex] at hmem
  induction t using lex_induction true generalizing depth header with
  | nil => cases hmem
  | char c u _ _ step ih =>
    -- the next line is looked at only after a line break
    have hline : (depth == 0 && c == '\n' && endsHeader isExtend (lex true (u ++ x))) =
        (depth == 0 && c == '\n' && endsHeader isExtend (lex true u)) := by
      by_cases hc : c = '\n'
      · subst hc
        rw [endsHeader_append ((mem_cons.mp hmem).resolve_left (by decide))]
      · rw [beq_eq_false_iff_ne.mpr hc, Bool.and_false, Bool.false_and, Bool.false_and]
    rw [step, takeHeader] at h
    rw [cons_append, step, takeHeader, hline]
    by_cases hopen : (depth == 0 && c == '{')
    · rw [if_pos hopen] at h ⊢
      cases h
      exact ⟨u, rfl, rfl⟩
    by_cases hends : (depth == 0 && c == '\n' && endsHeader isExtend (lex true u))
    · rw [if_neg hopen, if_pos hends] at h ⊢
      cases h
      exact ⟨c :: u, (step u).symm, by rw [cons_append, step]⟩
    · rw [if_neg hopen, if_neg hends] at h ⊢
      obtain ⟨⟨header', hasBody', rest'⟩, hr, hp⟩ := map_eq_ok h
      cases hp
      have hu := brace_mem_of_takeHeader hr hbrace
      rw [raw_lex] at hu
      obtain ⟨r, rfl, hagain⟩ := ih hr hu
      refine ⟨r, rfl, ?_⟩
      simp only [hagain]
      rfl
  | literal s u taken now more ih | comment s u _ line ends now more ih =>
    rw [now, takeHeader] at h
    obtain ⟨⟨header', hasBody', rest'⟩, hr, hp⟩ := map_eq_ok h
    cases hp
    have hu := brace_mem_of_takeHeader hr hbrace
    rw [raw_lex] at hu
    obtain ⟨r, rfl, hagain⟩ := ih hr hu
    refine ⟨r, rfl, ?_⟩
    rw [cons_append, append_assoc, more _ (.inl (ne_nil_of_mem hu)), takeHeader, hagain]
    rfl
  | unclosed u now =>
    rw [now, takeHeader] at h
    cases h

theorem ne_nil_of_takeBody {body rest : List Lexeme}
    (h : takeBody depth (lex true t) = .ok (some (body, rest))) : t ≠ [] := by
  rintro rfl
  rw [lex_nil] at h
  cases h

/-- **A body is read whatever follows** the brace that closes it. -/
theorem takeBody_lex_append {body rest : List Lexeme}
    (h : takeBody depth (lex true t) = .ok (some (body, rest))) (x : Text) :
    ∃ r, rest = lex true r ∧ takeBody depth (lex true (t ++ x)) =
      .ok (some (body, lex true (r ++ x))) := by
  induction t using lex_induction true generalizing depth body with
  | nil => exact absurd rfl (ne_nil_of_takeBody h)
  | char c u _ _ step ih =>
    rw [step, takeBody] at h
    rw [cons_append, step, takeBody]
    by_cases hclose : (c == '}' && depth == 0)
    · rw [if_pos hclose] at h ⊢
      cases h
      exact ⟨u, rfl, rfl⟩
    · rw [if_neg hclose] at h ⊢
      obtain ⟨o, ho, hp⟩ := map_eq_ok h
      obtain ⟨⟨body', rest'⟩, rfl, hq⟩ := Option.map_eq_some_iff.mp hp
      cases hq
      obtain ⟨r, rfl, hagain⟩ := ih ho
      refine ⟨r, rfl, ?_⟩
      simp only [hagain]
      rfl
  | literal s u taken now more ih | comment s u _ line ends now more ih =>
    rw [now, takeBody] at h
    · obtain ⟨o, ho, hp⟩ := map_eq_ok h
      obtain ⟨⟨body', rest'⟩, rfl, hq⟩ := Option.map_eq_some_iff.mp hp
      cases hq
      obtain ⟨r, rfl, hagain⟩ := ih ho
      refine ⟨r, rfl, ?_⟩
      rw [cons_append, append_assoc, more _ (.inl (ne_nil_of_takeBody ho)), takeBody, hagain]
      · rfl
      all_goals simp
    all_goals simp
  | unclosed u now =>
    rw [now, takeBody] at h
    cases h

/-! ### Unions and scalars -/

theorem takeDirective_append_right {o : Option (Text × Text)} (h : takeDirective t = .ok o)
    (hbrace : '{' ∈ (o.map Prod.snd).getD t) (x : Text) :
    takeDirective (t ++ x) = .ok (o.map fun r => (r.1, r.2 ++ x)) := by
  have hmem : '{' ∈ t := by
    cases o with
    | none => exact hbrace
    | some r =>
      rw [(takeDirective_append h).1]
      exact mem_append_right _ hbrace
  have hafter : '{' ∈ t.dropWhile isGapChar := mem_dropWhile (by decide) hmem
  obtain ⟨htake, hdrop⟩ := takeWhile_append_of_dropWhile_ne_nil (ne_nil_of_mem hafter) x
  by_cases hat : Text.startsWith (· == '@') (t.dropWhile isGapChar)
  · obtain ⟨cs, hcs⟩ := eq_cons_of_startsWith hat
    rw [hcs] at hafter
    rw [hcs, cons_append] at hdrop
    have hne : cs ≠ [] := ne_nil_of_mem ((mem_cons.mp hafter).resolve_left (by decide))
    rw [takeDirective_eq rfl hcs] at h
    rw [takeDirective_eq htake hdrop]
    cases hname : Text.takeName cs with
    | none =>
      rw [hname] at h
      cases h
      rw [takeName_append_of_eq_none hname hne]
      rfl
    | some r =>
      obtain ⟨name, rest⟩ := r
      simp only [hname] at h
      by_cases hopen : Text.startsWith (· == '(') rest
      · have hrest : rest ≠ [] := by
          rintro rfl
          cases hopen
        rw [takeName_append_right hname hrest]
        simp only [startsWith_append hrest, hopen, if_true] at h ⊢
        cases hb : takeBalanced '(' ')' rest with
        | error e =>
          rw [hb] at h
          cases h
        | ok b =>
          rw [hb] at h
          cases b with
          | none =>
            -- an argument list that does not close runs to the end of the text
            cases h
            cases hbrace
          | some r =>
            obtain ⟨inside, after⟩ := r
            cases h
            rw [takeBalanced_lex_append hb]
            rfl
      · rw [if_neg hopen] at h
        cases h
        have hrest : rest ≠ [] := ne_nil_of_mem hbrace
        rw [takeName_append_right hname hrest]
        simp only [startsWith_append hrest, hopen]
        rfl
  · rw [Bool.not_eq_true] at hat
    rw [takeDirective_eq_none hat] at h
    cases h
    refine takeDirective_eq_none ?_
    rw [hdrop, startsWith_append (ne_nil_of_mem hafter), hat]

/-- **Directives are read whatever follows**, if a brace follows. -/
theorem takeDirectives_append_right {directives : Text}
    (h : takeDirectives t = .ok (directives, rest)) (hbrace : '{' ∈ rest) (x : Text) :
    takeDirectives (t ++ x) = .ok (directives, rest ++ x) := by
  fun_induction takeDirectives t generalizing directives with
  | case1 t e he => cases h
  | case2 t ht =>
    cases h
    rw [takeDirectives_eq, takeDirective_append_right ht hbrace]
    rfl
  | case3 t directive after ht ih =>
    obtain ⟨⟨directives', rest'⟩, hr, hp⟩ := map_eq_ok h
    cases hp
    have hafter : '{' ∈ after := (takeDirectives_suffix hr).subset hbrace
    rw [takeDirectives_eq, takeDirective_append_right ht hafter]
    change (fun r : Text × Text => (directive ++ r.1, r.2)) <$> takeDirectives (after ++ x) = _
    rw [ih hr]
    rfl

/-- **The lines of a union are read whatever follows**, if a brace follows. -/
theorem takeUnion_append_right {taken : Text} (h : takeUnion taken t = .ok (header, rest))
    (hbrace : '{' ∈ rest) (x : Text) : takeUnion taken (t ++ x) = .ok (header, rest ++ x) := by
  fun_induction takeUnion taken t with
  | case1 taken =>
    cases h
    cases hbrace
  | case2 taken c cs ih =>
    have htaken : takeUnion taken (c :: cs) = .ok (header, rest) := by
      rw [takeUnion]
      exact h
    have hmem : '{' ∈ c :: cs := (takeUnion_suffix htaken).subset hbrace
    cases hs : stripComments taken with
    | error e =>
      rw [hs] at h
      cases h
    | ok s =>
      have hstarts : Text.startsWith isUnionSign (Text.trimStart (c :: (cs ++ x))) =
          Text.startsWith isUnionSign (Text.trimStart (c :: cs)) := by
        have hne := ne_nil_of_mem (mem_dropWhile (p := isBlank) (by decide) hmem)
        change Text.startsWith isUnionSign (((c :: cs) ++ x).dropWhile isBlank) = _
        rw [(takeWhile_append_of_dropWhile_ne_nil hne x).2, startsWith_append hne]
        rfl
      rw [cons_append, takeUnion_cons hs, hstarts]
      have hstep := takeUnion_cons hs c cs
      rw [htaken] at hstep
      split_ifs at hstep ⊢ with hgoes
      · have hline : cs.dropWhile (· != '\n') ≠ [] :=
          ne_nil_of_mem ((takeUnion_suffix hstep.symm).subset hbrace)
        obtain ⟨htake, hdrop⟩ := takeWhile_append_of_dropWhile_ne_nil hline x
        rw [htake, hdrop]
        exact ih hstep.symm
      · cases hstep
        rfl

/-! ### Statements -/

/-- The first word of a statement is read whatever follows, if something follows it already. -/
theorem takeWord_append_right (h : takeWord t = .ok (isExtend, opening, word, rest))
    (hrest : rest ≠ []) (x : Text) :
    takeWord (t ++ x) = .ok (isExtend, opening, word, rest ++ x) := by
  unfold takeWord at h ⊢
  cases hname : t.takeName with
  | none =>
    rw [hname] at h
    cases h
  | some r =>
    obtain ⟨first, after⟩ := r
    simp only [hname] at h
    split_ifs at h with hextend
    · cases hnext : after.trimStart.takeName with
      | none =>
        rw [hnext] at h
        cases h
      | some r =>
        obtain ⟨next, last⟩ := r
        rw [hnext] at h
        cases h
        have hblank : after.dropWhile isBlank ≠ [] := by
          intro hnil
          rw [Text.trimStart, hnil] at hnext
          cases hnext
        have hafter : after ≠ [] := by
          rintro rfl
          exact hblank rfl
        obtain ⟨htake, hdrop⟩ := takeWhile_append_of_dropWhile_ne_nil hblank x
        have htrim : Text.trimStart (after ++ x) = after.trimStart ++ x := hdrop
        rw [takeName_append_right hname hafter]
        simp only [hextend, if_true, htrim, takeName_append_right hnext hrest, htake]
        rfl
    · cases h
      rw [takeName_append_right hname hrest]
      simp only [hextend]
      rfl

theorem isNameChar_of_mem_takeName {name : Text} (h : t.takeName = some (name, rest)) :
    ∀ c ∈ name, isNameChar c := by
  cases t with
  | nil => cases h
  | cons c t =>
    rw [Text.takeName] at h
    split_ifs at h with hc
    cases h
    exact forall_mem_cons.mpr ⟨isNameChar_of_isNameStart hc, fun d hd => mem_takeWhile_imp hd⟩

theorem takeWord_chars (h : takeWord t = .ok (isExtend, opening, word, rest)) :
    ∀ c ∈ opening, isNameChar c ∨ isBlank c := by
  unfold takeWord at h
  split at h
  · cases h
  · rename_i first after hfirst
    split at h
    · split at h
      · cases h
      · rename_i next last hnext
        cases h
        intro c hc
        rcases mem_append.mp hc with hc | hc
        · rcases mem_append.mp hc with hc | hc
          · exact .inl (isNameChar_of_mem_takeName hfirst c hc)
          · exact .inr (mem_takeWhile_imp hc)
        · exact .inl (isNameChar_of_mem_takeName hnext c hc)
    · cases h
      exact fun c hc => .inl (isNameChar_of_mem_takeName hfirst c hc)

theorem brace_mem_of_takeWord (h : takeWord t = .ok (isExtend, opening, word, rest))
    (hbrace : '{' ∈ t) : '{' ∈ rest := by
  rw [(takeWord_append h).1, mem_append] at hbrace
  exact hbrace.resolve_left fun hm => absurd (takeWord_chars h _ hm) (by decide)

/-- Whether the statement at the start of a text is a declaration with a body. -/
def opensBody (t : Text) : Bool :=
  match takeWord t with
  | .error _ => false
  | .ok (isExtend, _, word, rest) =>
      match Kind.ofKeyword? word with
      | none | some .union | some .scalar => false
      | some _ =>
          match takeHeader isExtend 0 (lex true rest) with
          | .error _ => false
          | .ok (_, hasBody, _) => hasBody

theorem readBlock_append_right {kind : Kind} (h : readBlock kind isExtend opening t = .ok (f, rest))
    (hbrace : (∃ header ls, takeHeader isExtend 0 (lex true t) = .ok (header, true, ls)) ∨
      '{' ∈ rest) (x : Text) :
    readBlock kind isExtend opening (t ++ x) = .ok (f, rest ++ x) := by
  unfold readBlock at h ⊢
  obtain ⟨⟨header, hasBody, after⟩, hh, h⟩ := bind_eq_ok.mp h
  obtain ⟨stripped, hs, h⟩ := bind_eq_ok.mp h
  obtain ⟨full, hf, h⟩ := bind_eq_ok.mp h
  cases hasBody with
  | true =>
    obtain ⟨r, rfl, hagain⟩ := takeHeader_lex_append hh (.inl rfl) x
    obtain ⟨o, ho, h⟩ := bind_eq_ok.mp h
    cases o with
    | none => cases h
    | some b =>
      obtain ⟨body, last⟩ := b
      obtain ⟨r', rfl, hbody⟩ := takeBody_lex_append ho x
      obtain ⟨items, hi, h⟩ := bind_eq_ok.mp h
      cases h
      refine bind_eq_ok.mpr ⟨_, hagain, bind_eq_ok.mpr ⟨_, hs, bind_eq_ok.mpr ⟨_, hf, ?_⟩⟩⟩
      refine bind_eq_ok.mpr ⟨_, hbody, bind_eq_ok.mpr ⟨_, hi, ?_⟩⟩
      rw [raw_lex, raw_lex]
      rfl
  | false =>
    have hrest : rest = raw after ∧ isExtend := by
      cases isExtend with
      | true =>
        cases h
        exact ⟨rfl, rfl⟩
      | false => cases h
    obtain ⟨rfl, rfl⟩ := hrest
    have hmem : '{' ∈ raw after := by
      rcases hbrace with ⟨_, _, hbody⟩ | hmem
      · rw [hh] at hbody
        cases hbody
      · exact hmem
    obtain ⟨r, rfl, hagain⟩ := takeHeader_lex_append hh (.inr hmem) x
    cases h
    refine bind_eq_ok.mpr ⟨_, hagain, bind_eq_ok.mpr ⟨_, hs, bind_eq_ok.mpr ⟨_, hf, ?_⟩⟩⟩
    rw [raw_lex, raw_lex]
    rfl

theorem readUnion_append_right (h : readUnion isExtend t = .ok (f, rest)) (hbrace : '{' ∈ rest)
    (x : Text) : readUnion isExtend (t ++ x) = .ok (f, rest ++ x) := by
  have hline := ne_nil_of_mem ((readUnion_suffix h).subset hbrace)
  obtain ⟨htake, hdrop⟩ := takeWhile_append_of_dropWhile_ne_nil hline x
  unfold readUnion at h ⊢
  obtain ⟨⟨taken, after⟩, hu, h⟩ := bind_eq_ok.mp h
  obtain ⟨header, hh, h⟩ := bind_eq_ok.mp h
  cases h
  rw [htake, hdrop]
  exact bind_eq_ok.mpr ⟨_, takeUnion_append_right hu hbrace x, bind_eq_ok.mpr ⟨_, hh, rfl⟩⟩

theorem readScalar_append_right {start : Text}
    (h : readScalar isExtend start opening t = .ok (f, rest)) (hbrace : '{' ∈ rest)
    (x start' : Text) : readScalar isExtend start' opening (t ++ x) = .ok (f, rest ++ x) := by
  unfold readScalar at h ⊢
  cases hname : t.trimStart.takeName with
  | none =>
    rw [hname] at h
    cases h
  | some r =>
    obtain ⟨name, after⟩ := r
    rw [hname] at h
    obtain ⟨⟨directives, last⟩, hd, h⟩ := bind_eq_ok.mp h
    obtain ⟨header, hh, h⟩ := bind_eq_ok.mp h
    cases h
    have hafter : after ≠ [] := ne_nil_of_mem ((takeDirectives_suffix hd).subset hbrace)
    have hblank : t.dropWhile isBlank ≠ [] := by
      intro hnil
      rw [Text.trimStart, hnil] at hname
      cases hname
    obtain ⟨htake, hdrop⟩ := takeWhile_append_of_dropWhile_ne_nil hblank x
    have htrim : Text.trimStart (t ++ x) = t.trimStart ++ x := hdrop
    rw [htrim, takeName_append_right hname hafter, htake]
    exact bind_eq_ok.mpr ⟨_, takeDirectives_append_right hd hbrace x, bind_eq_ok.mpr ⟨_, hh, rfl⟩⟩

theorem takeHeader_of_opensBody (hw : takeWord t = .ok (isExtend, opening, word, rest))
    (h : opensBody t) :
    ∃ header ls, takeHeader isExtend 0 (lex true rest) = .ok (header, true, ls) := by
  rw [opensBody, hw] at h
  simp only at h
  split at h
  · cases h
  · cases h
  · cases h
  · split at h
    · cases h
    · rename_i header hasBody ls hh
      subst h
      exact ⟨header, ls, hh⟩

theorem brace_mem_of_opensBody (h : opensBody t) : '{' ∈ t := by
  cases hw : takeWord t with
  | error e =>
    rw [opensBody, hw] at h
    cases h
  | ok r =>
    obtain ⟨isExtend, opening, word, rest⟩ := r
    obtain ⟨header, ls, hh⟩ := takeHeader_of_opensBody hw h
    have hmem := brace_mem_of_takeHeader hh (.inl rfl)
    rw [raw_lex] at hmem
    rw [(takeWord_append hw).1]
    exact mem_append_right _ hmem

/-- **A statement is read whatever follows**, if it has a body or a brace follows. -/
theorem Statement.read_append {s : Statement} (h : Statement.read t = .ok (s, rest))
    (hbrace : opensBody t ∨ '{' ∈ rest) (x : Text) :
    Statement.read (t ++ x) = .ok (s, rest ++ x) := by
  have hmem : '{' ∈ t := hbrace.elim brace_mem_of_opensBody fun hm =>
    (Statement.read_suffix h).1.subset hm
  unfold Statement.read at h ⊢
  obtain ⟨⟨isExtend, opening, word, after⟩, hw, h⟩ := bind_eq_ok.mp h
  have hafter := ne_nil_of_mem (brace_mem_of_takeWord hw hmem)
  have hbody := hbrace.imp_left (takeHeader_of_opensBody hw)
  refine bind_eq_ok.mpr ⟨_, takeWord_append_right hw hafter x, ?_⟩
  rw [opensBody, hw] at hbrace
  cases hk : Kind.ofKeyword? word with
  | none =>
    simp only [hk, Bool.false_eq_true, false_or] at h hbrace ⊢
    cases h
    have hline := takeWhile_append_of_dropWhile_ne_nil (ne_nil_of_mem hbrace) x
    rw [hline.1, hline.2]
    rfl
  | some kind =>
    simp only [hk] at h hbrace ⊢
    cases kind with
    | union =>
      simp only [Bool.false_eq_true, false_or] at hbrace
      obtain ⟨⟨f, last⟩, hf, h⟩ := bind_eq_ok.mp h
      cases h
      exact bind_eq_ok.mpr ⟨_, readUnion_append_right hf hbrace x, rfl⟩
    | scalar =>
      simp only [Bool.false_eq_true, false_or] at hbrace
      obtain ⟨⟨f, last⟩, hf, h⟩ := bind_eq_ok.mp h
      cases h
      exact bind_eq_ok.mpr ⟨_, readScalar_append_right hf hbrace x _, rfl⟩
    | _ =>
      obtain ⟨⟨f, last⟩, hf, h⟩ := bind_eq_ok.mp h
      cases h
      exact bind_eq_ok.mpr ⟨_, readBlock_append_right hf hbody x, rfl⟩

/-! ### Schemas -/

/-- Whether a text has nothing but white space, commas and comments. -/
def isFiller (t : Text) : Bool :=
  (lex true t).all fun
    | .char c => isBlank c || c == ','
    | .comment _ => true
    | _ => false

/-- Whether the last statement of a schema is a declaration with a body, with nothing but white
space, commas and comments after it. -/
def endsWithBlock (t : Text) : Bool :=
  (statementTexts t).getLast?.any fun u =>
    opensBody u && (Statement.read u).toOption.any fun r => isFiller r.2

/-- What two schemas declare, the second one read after the first. -/
def Scan.followedBy (x y : Scan) : Scan :=
  ⟨x.fragments ++ y.fragments, x.skipped ++ y.skipped, y.failure⟩

theorem Scan.add_followedBy (x y : Scan) (d : Option Text) (s : Statement) :
    (x.add d s).followedBy y = (x.followedBy y).add d s := by
  cases s <;> rfl

/-- White space, commas and comments declare nothing, and a line break ends the last comment. -/
theorem scanFrom_filler (h : isFiller t) (d : Option Text) (b : Text) :
    scanFrom d (t ++ '\n' :: b) = scanFrom d b ∧ scanFrom d t = {} := by
  unfold isFiller at h
  induction t using lex_induction true with
  | nil => exact ⟨scanFrom_blank (by decide) d b, by rw [scanFrom]⟩
  | char c u _ _ step ih =>
    rw [step, all_cons, Bool.and_eq_true] at h
    rw [cons_append, scanFrom_blank h.1, scanFrom_blank h.1]
    exact ih h.2
  | literal s u taken now more ih =>
    rw [now] at h
    cases h
  | comment s u _ line ends now more ih =>
    rw [now, all_cons, Bool.true_and] at h
    have hdrop := (takeWhile_line line ends).2
    have hdrop' : (s ++ (u ++ '\n' :: b)).dropWhile (· != '\n') = u ++ '\n' :: b := by
      refine (takeWhile_line line ?_).2
      rcases ends with rfl | ⟨v, rfl⟩
      · exact .inr ⟨b, rfl⟩
      · exact .inr ⟨_, rfl⟩
    rw [cons_append, append_assoc, scanFrom_hash, scanFrom_hash, hdrop, hdrop']
    exact ih h
  | unclosed u now =>
    rw [now] at h
    cases h

theorem of_mem_statementTexts {u : Text} (h : u ∈ statementTexts t) :
    u <:+ t ∧ ∃ c cs, u = c :: cs ∧ isBlank c = false := by
  fun_induction statementTexts t with
  | case1 => cases h
  | case2 c cs hc ih => exact (ih h).imp_left fun hu => hu.trans (suffix_cons c cs)
  | case3 c cs hc hh ih =>
    exact (ih h).imp_left fun hu => (hu.trans (dropWhile_suffix _)).trans (suffix_cons c cs)
  | case4 c cs hc hh hq literal rest hl ih =>
    rw [(Text.takeLiteral_append hl).1]
    exact (ih h).imp_left fun hu => hu.trans (suffix_append _ _)
  | case5 => cases h
  | case6 c cs hc hh hq ih =>
    rcases mem_cons.mp h with rfl | h
    · rw [Bool.or_eq_true, not_or] at hc
      exact ⟨suffix_rfl, c, cs, rfl, by simpa using hc.1⟩
    · split at h
      · rename_i s rest hs
        exact (ih s rest hs h).imp_left fun hu => hu.trans (Statement.read_suffix hs).1
      · cases h

theorem brace_mem_of_endsWithBlock (h : endsWithBlock t) : '{' ∈ t := by
  obtain ⟨u, hu, hblock⟩ := (Option.any_eq_true _ _).mp h
  rw [Bool.and_eq_true] at hblock
  exact (of_mem_statementTexts (mem_of_getLast? hu)).1.subset (brace_mem_of_opensBody hblock.1)

/-- **A schema that ends with a body** is read as if it stood alone, and so is what follows it. -/
theorem scanFrom_append {a : Text} (h : endsWithBlock a) (d : Option Text) (b : Text) :
    scanFrom d (a ++ '\n' :: b) = (scanFrom d a).followedBy (scanFrom none b) ∧
      (scanFrom d a).failure = none := by
  have hbrace := brace_mem_of_endsWithBlock h
  fun_induction scanFrom d a with
  | case1 => cases hbrace
  | case2 d c cs hc ih =>
    have hcs : endsWithBlock cs := by rwa [endsWithBlock, statementTexts_blank hc] at h
    rw [cons_append, scanFrom_blank hc]
    exact ih hcs (brace_mem_of_endsWithBlock hcs)
  | case3 d c cs hc hh ih =>
    obtain rfl : c = '#' := by simpa using hh
    have hcs : endsWithBlock (cs.dropWhile (· != '\n')) := by
      rwa [endsWithBlock, statementTexts_hash] at h
    have hmem := brace_mem_of_endsWithBlock hcs
    rw [cons_append, scanFrom_hash, (takeWhile_append_of_dropWhile_ne_nil (ne_nil_of_mem hmem) _).2]
    exact ih hcs hmem
  | case4 d c cs hc hh hq literal rest hl ih =>
    obtain rfl : c = '"' := by simpa using hq
    have hrest : endsWithBlock rest := by rwa [endsWithBlock, statementTexts_quote hl] at h
    have hmem := brace_mem_of_endsWithBlock hrest
    have hl' : Text.takeLiteral ('"' :: (cs ++ '\n' :: b)) = some (literal, rest ++ '\n' :: b) := by
      rw [← cons_append, (Text.takeLiteral_append hl).1, append_assoc]
      refine Text.takeLiteral_congr hl fun hquote => ?_
      rwa [startsWith_append (ne_nil_of_mem hmem)] at hquote
    rw [cons_append, scanFrom_quote d hl']
    exact ih hrest hmem
  | case5 d c cs hc hh hq hl =>
    rw [endsWithBlock, statementTexts, if_neg hc, if_neg hh, if_pos hq] at h
    split at h
    · rename_i hsome
      rw [hl] at hsome
      cases hsome
    · cases h
  | case6 d c cs hc hh hq s rest hs ih =>
    have hstart := startsStatement_of_not hc hh hq
    rw [endsWithBlock, statementTexts_statement hstart, hs] at h
    rw [cons_append, scanFrom_statement d hstart, ← cons_append, Scan.add_followedBy]
    cases hlast : statementTexts rest with
    | nil =>
      -- this is the last statement
      simp only [hlast, getLast?_singleton, Option.any_some, hs, Except.toOption,
        Bool.and_eq_true] at h
      obtain ⟨hfiller, hnone⟩ := scanFrom_filler h.2 none b
      rw [Statement.read_append hs (.inl h.1)]
      simp only
      rw [hfiller, hnone]
      refine ⟨rfl, ?_⟩
      cases s <;> rfl
    | cons u us =>
      have hrest : endsWithBlock rest := by
        simp only [hlast, getLast?_cons_cons] at h
        rw [endsWithBlock, hlast]
        exact h
      have hmem := brace_mem_of_endsWithBlock hrest
      obtain ⟨happend, hnone⟩ := ih hrest hmem
      rw [Statement.read_append hs (.inr hmem)]
      simp only
      rw [happend]
      refine ⟨rfl, ?_⟩
      cases s <;> exact hnone
  | case7 d c cs hc hh hq e he =>
    have hstart := startsStatement_of_not hc hh hq
    rw [endsWithBlock, statementTexts_statement hstart, he] at h
    simp [he, Except.toOption] at h

theorem outcome_readFragments (t : Text) : (readFragments t).outcome = match (scan t).failure with
    | none => .ok (scan t).fragments
    | some e => .error (.schema e) := by
  unfold readFragments
  cases h : (scan t).failure <;> simp only [h]

theorem scan_of_readFragments {fs : List Fragment} (h : (readFragments t).outcome = .ok fs) :
    (scan t).failure = none ∧ (scan t).fragments = fs := by
  rw [outcome_readFragments] at h
  cases hfailure : (scan t).failure with
  | none =>
    simp only [hfailure] at h
    exact ⟨rfl, Except.ok.inj h⟩
  | some e =>
    simp only [hfailure] at h
    cases h

/-- The warnings of the reading of a schema are about the statements passed over. -/
theorem warnings_readFragments (t : Text) : Log.warnings (readFragments t).log =
    (scan t).skipped.map fun line => (Event.statementSkipped line).message := by
  have hskipped : ∀ lines : List Text, Log.warnings (lines.map .statementSkipped) =
      lines.map fun line => (Event.statementSkipped line).message := by
    intro lines
    induction lines with
    | nil => rfl
    | cons line lines ih =>
      rw [map_cons, map_cons, ← ih]
      rfl
  have hread : ∀ log count, Log.warnings (log ++ [.fragmentsRead count]) = Log.warnings log := by
    intro log count
    rw [Log.warnings, filter_append, map_append]
    exact append_nil _
  unfold readFragments
  cases h : (scan t).failure with
  | none =>
    simp only [h]
    exact (hread _ _).trans (hskipped _)
  | some e =>
    simp only [h]
    exact hskipped _

/-- **The fragments of two schemas one after the other.**  If the last statement of the first schema
is a declaration with a body, then the second schema is read as if it stood alone: with its
fragments after those of the first one, its warnings after those of the first one, and with its
error if it is refused. -/
theorem readFragments_append {a : Text} {fs : List Fragment}
    (ha : (readFragments a).outcome = .ok fs) (hend : endsWithBlock a = true) (b : Text) :
    (readFragments (a ++ '\n' :: b)).outcome = (readFragments b).outcome.map (fs ++ ·) ∧
      Log.warnings (readFragments (a ++ '\n' :: b)).log =
        Log.warnings (readFragments a).log ++ Log.warnings (readFragments b).log := by
  obtain ⟨happend, hnone⟩ := scanFrom_append hend none b
  change scan (a ++ '\n' :: b) = (scan a).followedBy (scan b) at happend
  change (scan a).failure = none at hnone
  constructor
  · rw [outcome_readFragments, hnone] at ha
    cases ha
    rw [outcome_readFragments, outcome_readFragments, happend, Scan.followedBy]
    cases (scan b).failure <;> rfl
  · rw [warnings_readFragments, warnings_readFragments, warnings_readFragments, happend,
      Scan.followedBy, List.map_append]

/-- A schema with something to look ahead for at the end of each statement. -/
def lookingAhead : Text :=
  ("\"Both.\" union U = A\n" ++
    "  | B\n" ++
    "passed over\n" ++
    "scalar D @a(x: \"\")\n" ++
    "extend type T @b\n" ++
    "type A \x7b s: String = \"\" \x7d, # last").toList

theorem readFragments_append_lookingAhead :
    endsWithBlock lookingAhead = true ∧ ∃ fs, (readFragments lookingAhead).outcome = .ok fs ∧
      fs.length = 4 ∧ (readFragments (lookingAhead ++ '\n' :: "\"open".toList)).outcome =
        (readFragments "\"open".toList).outcome.map (fs ++ ·) ∧
      Log.warnings (readFragments (lookingAhead ++ '\n' :: "\"open".toList)).log =
        Log.warnings (readFragments lookingAhead).log ++
          Log.warnings (readFragments "\"open".toList).log := by
  have hend : endsWithBlock lookingAhead = true := by decide +kernel
  have hlength : (readFragments lookingAhead).outcome.toOption.map List.length = some 4 := by
    decide +kernel
  obtain ⟨fs, hfs, hfour⟩ := Option.map_eq_some_iff.mp hlength
  have hok := eq_ok_of_toOption hfs
  exact ⟨hend, fs, hok, hfour, readFragments_append hok hend _⟩

end Schemata
