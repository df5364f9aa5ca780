import Schemata.Fragment.Scan
import Schemata.Proofs.Bodies
import Schemata.Proofs.Headers

/-!
# Reading declarations back

A schema in writing is a row of blocks with a blank line between each two.  Every block is cut out
as one fragment, and the fragment is read as the declaration that was written, as far as it shows in
writing.
-/

namespace Schemata

open List

variable {k : Kind} {l : Layout} {rest t u : Text}

/-! ### Where a block starts and ends -/

/-- A block starts with a literal, a comment, or a keyword. -/
def StartsBlock (t : Text) : Prop :=
  t.startsWith (fun c => c == '"' || c == '#') = true ∨
    ∃ (b : Bool) (k : Kind) (rest : Text), k ∈ Kind.declared ∧ t = opening b k ++ rest ∧
      rest.startsWith isNameChar = false

/-- After a block the text ends, or another block follows a blank line. -/
def Separated (t : Text) : Prop :=
  t = [] ∨ t = ['\n'] ∨ ∃ u, t = '\n' :: '\n' :: u ∧ StartsBlock u

theorem Separated.start (h : Separated t) {p : Char → Bool} (hp : p '\n' = false) :
    t.startsWith p = false := by
  rcases h with rfl | rfl | ⟨u, rfl, -⟩
  · rfl
  · exact hp
  · exact hp

theorem ofKeyword?_keyword : ∀ k ∈ Kind.declared, Kind.ofKeyword? k.keyword = some k := by decide

theorem keyword_ne_extend : ∀ k ∈ Kind.declared, (k.keyword == "extend".toList) = false := by decide

theorem takeWord_opening (b : Bool) (hk : k ∈ Kind.declared)
    (h : rest.startsWith isNameChar = false) :
    takeWord (opening b k ++ rest) = .ok (b, opening b k, k.keyword, rest) := by
  have htake := takeName_append_of_isName (isName_keyword k hk) h
  unfold takeWord opening
  cases b with
  | false =>
    simp only [Bool.false_eq_true, if_false, htake, keyword_ne_extend k hk]
    rfl
  | true =>
    have hextend : Text.takeName ("extend".toList ++ ' ' :: (k.keyword ++ rest)) =
        some ("extend".toList, ' ' :: (k.keyword ++ rest)) := takeName_append_of_isName rfl rfl
    have hsplit : "extend ".toList ++ k.keyword ++ rest =
      "extend".toList ++ ' ' :: (k.keyword ++ rest) := rfl
    obtain ⟨hdrop, hgap⟩ := trimStart_space_name (isName_keyword k hk) rest
    simp only [if_true, hsplit, hextend, beq_self_eq_true, hdrop, htake, hgap]
    rfl

theorem takeWhile_lex {p : Lexeme → Bool} (hp : ∀ l, p l → ∃ c, l = .char c ∧ isNameChar c)
    (h : t.startsWith isNameChar = false) (comments : Bool) :
    (lex comments t).takeWhile p = [] := by
  cases t with
  | nil =>
    rw [lex]
    rfl
  | cons c t =>
    have hc : isNameChar c = false := h
    cases hlex : lex comments (c :: t) with
    | nil => rfl
    | cons l ls =>
      refine takeWhile_cons_of_neg ?_
      intro hl
      obtain ⟨d, rfl, hd⟩ := hp l hl
      -- the first lexeme is the first character
      have hraw := raw_lex comments (c :: t)
      rw [hlex, raw_char, List.cons.injEq] at hraw
      rw [hraw.1, hc] at hd
      cases hd

theorem leadingName_append {w : Text} (hw : w.isName) (h : rest.startsWith isNameChar = false) :
    Lexeme.leadingName (lex true (w ++ rest)) = some w := by
  have hchars := isNameChar_of_isName hw
  have hlex : lex true (w ++ rest) = w.map .char ++ lex true rest := by
    exact lex_append_chars (plain_of_isName hw) true rest
  have htake := @takeName_append_of_isName [] w hw rfl
  rw [append_nil] at htake
  rw [Lexeme.leadingName, hlex, takeWhile_append_of_pos, takeWhile_lex _ h, append_nil,
    raw_map_char, htake]
  · rfl
  · intro l hl
    cases l with
    | char c => exact ⟨c, rfl, hl⟩
    | literal t => cases hl
    | comment t => cases hl
    | unclosed t => cases hl
  · intro l hl
    obtain ⟨c, hc, rfl⟩ := mem_map.mp hl
    exact hchars c hc

theorem isStatementWord_keyword : ∀ k ∈ Kind.declared, isStatementWord k.keyword := by decide

theorem StartsBlock.endsHeader (h : StartsBlock u) :
    endsHeader true (.char '\n' :: lex true u) := by
  have hdrop : Lexeme.dropBlank (.char '\n' :: lex true u) = Lexeme.dropBlank (lex true u) := rfl
  rw [Schemata.endsHeader, hdrop]
  rcases h with h | ⟨b, k, rest, hk, rfl, hrest⟩
  · cases u with
    | nil => cases h
    | cons c u =>
      obtain rfl | rfl : c = '"' ∨ c = '#' := by simpa [startsWith_cons] using h
      · cases hl : Text.takeLiteral ('"' :: u) with
        | none =>
          have hlex : lex true ('"' :: u) = [.unclosed ('"' :: u)] := by
            rw [lex]
            simp only [beq_self_eq_true, if_true]
            split
            · rename_i heq
              rw [hl] at heq
              cases heq
            · rfl
          rw [hlex]
          rfl
        | some p =>
          rw [lex_literal hl]
          rfl
      · rw [lex]
        rfl
  · -- the first word is a keyword, or `extend`
    obtain ⟨w, v, hw, hword, hv, hsplit⟩ : ∃ w v : Text, w.isName ∧ isStatementWord w ∧
        v.startsWith isNameChar = false ∧ opening b k ++ rest = w ++ v := by
      cases b with
      | false =>
        exact ⟨k.keyword, rest, isName_keyword k hk, isStatementWord_keyword k hk, hrest, rfl⟩
      | true => exact ⟨"extend".toList, ' ' :: (k.keyword ++ rest), rfl, rfl, rfl, rfl⟩
    have hname := leadingName_append hw hv
    rw [hsplit]
    obtain ⟨c, cs, rfl, hc, -⟩ := isName_iff.mp hw
    have hchar := isNameChar_of_isNameStart hc
    have hlex : lex true (c :: cs ++ v) = .char c :: lex true (cs ++ v) := by
      rw [cons_append]
      exact lex_cons (ne_of_class hchar (by decide)) (ne_of_class hchar (by decide)) true _
    rw [hlex] at hname ⊢
    rw [Lexeme.dropBlank, if_neg (by simp [not_isBlank_of_isNameChar hchar])]
    simp only [hname, Option.any_some, hword]

/-! ### Headers in canonical form -/

def Declaration.canonical (d : Declaration) : Text :=
  opening false d.kind ++ (nameText d ++ d.clauses)

theorem dropExtend_opening (hk : k ∈ Kind.declared) (b : Bool) (rest : Text) :
    (Text.after? "extend ".toList (opening b k ++ rest)).getD (opening b k ++ rest) =
      opening false k ++ rest := by
  cases b with
  | true =>
    have : opening true k ++ rest = "extend ".toList ++ (opening false k ++ rest) :=
      append_assoc _ _ _
    rw [this, after?_append]
    rfl
  | false =>
    have hnone : ∀ k ∈ Kind.declared, Text.after? "extend ".toList k.keyword = none ∧
        Text.after? k.keyword "extend ".toList = none := by decide
    have : opening false k = k.keyword := rfl
    rw [this, after?_append_eq_none (hnone k hk).1 (hnone k hk).2]
    rfl

theorem stripComments_eq (h : Closed t) : stripComments t = .ok t := by
  have := stripComments_append h []
  rw [append_nil, raw_lex] at this
  rw [stripComments, lex_true_of_closed h, this]
  simp [Lexeme.stripComments, Functor.map, Except.map]

theorem Closed.append_blank (h : Closed t) (hu : ∀ c ∈ u, isBlank c) : Closed (t ++ u) := by
  unfold Closed at h ⊢
  rw [lex_append_blank h hu, all_append, h, Bool.true_and, all_eq_true]
  intro l hl
  obtain ⟨c, hc, rfl⟩ := mem_map.mp hl
  simpa [Lexeme.isQuiet] using (ne_of_blank hu c hc).2

theorem collapse_header {gap : Text} (h : Closed t) (hs : Spaced false (lex false t))
    (hgap : ∀ c ∈ gap, isBlank c) :
    stripComments (t ++ gap) = .ok (t ++ gap) ∧ collapse (t ++ gap) = .ok t := by
  have hnil : ∀ c ∈ ([] : Text), isBlank c := fun _ hc => nomatch hc
  exact ⟨stripComments_eq (h.append_blank hgap), collapse_around hnil h hs hgap⟩

/-! ### Blocks -/

theorem isHeaderChar_ne {c : Char} (h : isHeaderChar c) : c ≠ '\x7b' ∧ c ≠ '<' ∧ c ≠ '\n' := by
  simp only [isHeaderChar, Bool.and_eq_true, bne_iff_ne] at h
  exact ⟨h.1.2, h.2, h.1.1⟩

section Blocks

variable {d : Declaration}

theorem takeHeader_clauses (h : d.Legible) (b : Bool) (ms : List Lexeme) :
    takeHeader b 0 (lex false (nameText d ++ d.clauses) ++ ms) =
      keepHeader (nameText d ++ d.clauses) (takeHeader b 0 ms) := by
  have hnested := ((continues_nameText h).append (continues_clauses h)).nested
  have := hnested.takeHeader (fun c hc => isHeaderChar_ne hc) (.inl rfl) b ms
  rwa [raw_lex] at this

/-- The text of a header, with white space after it, is canonical but for `extend`. -/
theorem header_forms (h : d.Legible) (b : Bool) {gap : Text} (hgap : ∀ c ∈ gap, isBlank c) :
    stripComments (opening b d.kind ++ (nameText d ++ d.clauses ++ gap)) =
        .ok (opening b d.kind ++ (nameText d ++ d.clauses ++ gap)) ∧
      collapse (opening b d.kind ++ (nameText d ++ d.clauses ++ gap)) =
        .ok (opening b d.kind ++ (nameText d ++ d.clauses)) := by
  obtain ⟨hnested, hspaced⟩ := nested_header h b
  have := collapse_header hnested.isQuiet hspaced hgap
  rwa [append_assoc] at this

/-- **A block with a body** is cut out up to its closing brace. -/
theorem readBlock_body (h : d.Legible) {inner : Text} {ls : List Lexeme} {items : List Text}
    (hlex : lex true (inner ++ '\x7d' :: u) = ls ++ .char '\x7d' :: lex true u)
    (hbody : PassesBody ls) (hitems : bodyItems (d.kind == .enum) ls = .ok items) (b : Bool) :
    readBlock d.kind b (opening b d.kind)
        (nameText d ++ d.clauses ++ ' ' :: '\x7b' :: (inner ++ '\x7d' :: u)) =
      .ok ({ kind := d.kind, header := d.canonical, items, isExtend := b }, u) := by
  have hcont := (continues_nameText h).append (continues_clauses h)
  have hspace : ∀ c ∈ ([' '] : Text), isBlank c := forall_mem_of_all rfl
  have hhead : takeHeader b 0 (lex true
      (nameText d ++ d.clauses ++ ' ' :: '\x7b' :: (inner ++ '\x7d' :: u))) =
      .ok (nameText d ++ d.clauses ++ [' '], true, ls ++ .char '\x7d' :: lex true u) := by
    rw [lex_append hcont.nested.isQuiet rfl, lex_cons (by decide) (by decide),
      lex_cons (by decide) (by decide), hlex, takeHeader_clauses h]
    rfl
  have htake : takeBody 0 (ls ++ .char '\x7d' :: lex true u) = .ok (some (ls, lex true u)) := by
    rw [hbody, takeBody]
    simp [keepBody, Functor.map, Except.map]
  obtain ⟨hstrip, hcollapse⟩ := header_forms h b hspace
  have hcanonical := dropExtend_opening h.kind b (nameText d ++ d.clauses)
  rw [readBlock, hhead]
  simp only [bind, Except.bind, hstrip, hcollapse, hcanonical, htake, hitems, if_true, raw_lex]
  rfl

theorem scanFrom_newline (description : Option Text) (u : Text) :
    scanFrom description ('\n' :: u) = scanFrom description u := by
  rw [scanFrom, if_pos (by decide)]

/-- **An extension without a body** is cut out up to the end of its line. -/
theorem readBlock_bare (h : d.Legible) (hu : Separated u) :
    ∃ v, readBlock d.kind true (opening true d.kind) (nameText d ++ d.clauses ++ u) =
        .ok ({ kind := d.kind, header := d.canonical, isExtend := true }, v) ∧
      scanFrom none v = scanFrom none u := by
  have hcont := (continues_nameText h).append (continues_clauses h)
  have hq : Text.startsWith (· == '"') u = false := hu.start rfl
  obtain ⟨gap, v, hend, hgap, hscan⟩ : ∃ (gap v : Text),
      takeHeader true 0 (lex true u) = .ok (gap, false, lex true v) ∧
        (∀ c ∈ gap, isBlank c) ∧ scanFrom none v = scanFrom none u := by
    rcases hu with rfl | rfl | ⟨v, rfl, hv⟩
    · refine ⟨[], [], ?_, forall_mem_nil _, rfl⟩
      rw [lex]
      rfl
    · refine ⟨['\n'], [], ?_, forall_mem_of_all rfl, (scanFrom_newline none []).symm⟩
      rw [lex_cons (by decide) (by decide), lex]
      rfl
    · refine ⟨[], '\n' :: '\n' :: v, ?_, forall_mem_nil _, rfl⟩
      have hends := hv.endsHeader
      rw [lex_cons (by decide) (by decide), lex_cons (by decide) (by decide), takeHeader,
        if_neg (by decide), hends, if_pos (by decide)]
  have hhead : takeHeader true 0 (lex true (nameText d ++ d.clauses ++ u)) =
      .ok (nameText d ++ d.clauses ++ gap, false, lex true v) := by
    rw [lex_append hcont.nested.isQuiet hq, takeHeader_clauses h, hend]
    rfl
  obtain ⟨hstrip, hcollapse⟩ := header_forms h true hgap
  have hcanonical := dropExtend_opening h.kind true (nameText d ++ d.clauses)
  refine ⟨v, ?_, hscan⟩
  rw [readBlock, hhead]
  simp only [bind, Except.bind, hstrip, hcollapse, hcanonical, raw_lex, Bool.false_eq_true,
    if_false, if_true]
  rfl

/-! ### Unions -/

theorem StartsBlock.head (h : StartsBlock u) :
    ∃ c cs, u = c :: cs ∧ isBlank c = false ∧ c ≠ '=' ∧ c ≠ '|' := by
  rcases h with h | ⟨b, k, rest, hk, rfl, -⟩
  · cases u with
    | nil => cases h
    | cons c u =>
      refine ⟨c, u, rfl, ?_⟩
      obtain rfl | rfl : c = '"' ∨ c = '#' := by simpa [startsWith_cons] using h
      · decide
      · decide
  · have hall : ∀ b : Bool, ∀ k ∈ Kind.declared, (opening b k).head?.any isNameChar := by decide
    have hany := hall b k hk
    cases ho : opening b k with
    | nil => rw [ho] at hany; cases hany
    | cons e cs =>
      have hchar : isNameChar e := by simpa [ho] using hany
      exact ⟨e, cs ++ rest, rfl, not_isBlank_of_isNameChar hchar, ne_of_class hchar (by decide),
        ne_of_class hchar (by decide)⟩

/-- **A union** is cut out up to the end of its line. -/
theorem readUnion_header (h : d.Legible) (hk : d.kind = .union) (b : Bool) (hu : Separated u) :
    readUnion b (opening b d.kind ++ (nameText d ++ d.clauses) ++ u) =
      .ok ({ kind := .union, header := d.canonical, isExtend := b }, u) := by
  have hline : ∀ c ∈ opening b d.kind ++ (nameText d ++ d.clauses), (c != '\n') := by
    intro c hc
    rw [bne_iff_ne]
    rintro rfl
    exact newline_not_mem_header h b hc
  have hstop : u.takeWhile (· != '\n') = [] ∧ u.dropWhile (· != '\n') = u := by
    rcases hu with rfl | rfl | ⟨v, rfl, -⟩ <;> exact ⟨rfl, rfl⟩
  obtain ⟨hnested, hspaced⟩ := nested_header h b
  have hstrip := stripComments_eq hnested.isQuiet
  have htrim : Text.trimEnd (opening b d.kind ++ (nameText d ++ d.clauses)) =
      opening b d.kind ++ (nameText d ++ d.clauses) := by
    obtain ⟨c, hc, hblank⟩ := hspaced.getLast hspaced.ne_nil
    exact dropEndWhile_eq_self hc hblank
  have hends := endsWith_header h (by rw [hk]; rfl) b
  have hcont : ∀ c cs, u = c :: cs →
      Text.startsWith (fun c => c == '=' || c == '|') (Text.trimStart (c :: cs)) = false := by
    rintro c cs rfl
    rcases hu with hu | hu | ⟨v, hu, hv⟩
    · cases hu
    · rw [hu]
      rfl
    · obtain ⟨e, es, rfl, hblank, hne⟩ := hv.head
      rw [hu, trimStart_eq_dropWhile, dropWhile_cons_of_pos (by decide),
        dropWhile_cons_of_pos (by decide), dropWhile_cons_of_neg (by simp [hblank])]
      simpa [startsWith_cons] using hne
  have htake : takeUnion (opening b d.kind ++ (nameText d ++ d.clauses)) u =
      .ok (opening b d.kind ++ (nameText d ++ d.clauses), u) := by
    cases u with
    | nil => rw [takeUnion]
    | cons c cs =>
      rw [takeUnion]
      simp only [hstrip, bind, Except.bind, htrim, hends, hcont c cs rfl, Bool.or_false,
        Bool.false_eq_true, if_false]
  have hcanonical : canonicalHeader (opening b d.kind ++ (nameText d ++ d.clauses)) =
      .ok d.canonical := by
    have := dropExtend_opening h.kind b (nameText d ++ d.clauses)
    simp only [canonicalHeader, hstrip, collapse_eq hspaced, bind, Except.bind, pure,
      Except.pure, this]
    rfl
  rw [readUnion, takeWhile_append_of_pos hline, dropWhile_append_of_pos hline, hstop.1, hstop.2,
    append_nil, htake]
  simp only [bind, Except.bind, hcanonical, pure, Except.pure]

/-! ### Scalars -/

theorem takeDirective_text {u : DirectiveUse} (h : u.Legible)
    (hrest : rest.startsWith (fun c => isNameChar c || c == '(') = false) :
    takeDirective (' ' :: (u.text ++ rest)) = .ok (some (' ' :: u.text, rest)) := by
  have hstop : ∀ p : Char → Bool, (∀ c, p c → (isNameChar c || c == '(')) →
      rest.startsWith p = false := by
    intro p hp
    cases rest with
    | nil => rfl
    | cons c rest =>
      rw [startsWith_cons] at hrest ⊢
      rw [Bool.eq_false_iff]
      intro hc
      rw [hp c hc] at hrest
      cases hrest
  unfold takeDirective
  cases ha : u.arguments with
  | none =>
    have htext : u.text = '@' :: u.name := by simp [DirectiveUse.text, ha]
    have hname := takeName_append_of_isName h.name (hstop isNameChar fun c hc => by simp [hc])
    have hparen := hstop (· == '(') fun c hc => by simp [hc]
    rw [htext]
    simp [hname, hparen, pure, Except.pure]
  | some t =>
    have htext : u.text = '@' :: (u.name ++ '(' :: (t ++ [')'])) := by simp [DirectiveUse.text, ha]
    have hname : Text.takeName (u.name ++ '(' :: (t ++ ')' :: rest)) =
        some (u.name, '(' :: (t ++ ')' :: rest)) := takeName_append_of_isName h.name rfl
    have hbalanced := takeBalanced_bracketed (show isOpener '(' = true from rfl)
      (h.nested t ha) rest
    rw [show closerOf '(' = ')' from rfl] at hbalanced
    have hsplit : ' ' :: (u.text ++ rest) =
        ' ' :: '@' :: (u.name ++ '(' :: (t ++ ')' :: rest)) := by
      simp [htext]
    rw [hsplit]
    simp [hname, hbalanced, startsWith_cons, bind, Except.bind, pure, Except.pure, htext]

theorem takeDirectives_spaced {directive : Option Text} (h : ∀ t ∈ directive, t.IsDirectives)
    (hu : Separated u) : takeDirectives (spaced directive ++ u) = .ok (spaced directive, u) := by
  have hend : takeDirectives u = .ok ([], u) := by
    have hnone : takeDirective u = .ok none := by
      rcases hu with rfl | rfl | ⟨v, rfl, -⟩ <;> rfl
    rw [takeDirectives]
    split
    · rename_i heq
      rw [hnone] at heq
      cases heq
    · rfl
    · rename_i heq
      rw [hnone] at heq
      cases heq
  cases directive with
  | none => exact hend
  | some t =>
    rw [(h t rfl).row.spaced_eq]
    obtain ⟨us, hne, rfl, hus⟩ := h t rfl
    have hspread : ' ' :: Text.joinWith [' '] (us.map DirectiveUse.text) =
        spread (us.map DirectiveUse.text) := by
      cases us with
      | nil => exact absurd rfl hne
      | cons v us => rw [map_cons, joinWith_space_cons, spread_cons]
    rw [hspread]
    clear hspread hne h
    induction us with
    | nil => exact hend
    | cons v us ih =>
      obtain ⟨hv, hus⟩ := forall_mem_cons.mp hus
      have hstart : Text.startsWith (fun c => isNameChar c || c == '(')
          (spread (us.map DirectiveUse.text) ++ u) = false :=
        startsWith_spread _ rfl (hu.start rfl)
      have htake := takeDirective_text hv hstart
      rw [map_cons, spread_cons, cons_append, append_assoc, takeDirectives]
      split
      · rename_i heq
        rw [htake] at heq
        cases heq
      · rename_i heq
        rw [htake] at heq
        cases heq
      · rename_i heq
        rw [htake] at heq
        cases heq
        rw [ih hus]
        simp [Functor.map, Except.map]

/-- **A scalar** is cut out up to its last directive. -/
theorem readScalar_header (h : d.Legible) (hk : d.kind = .scalar) (b : Bool) (start : Text)
    (hu : Separated u) : readScalar b start (opening b d.kind) (nameText d ++ d.clauses ++ u) =
      .ok ({ kind := .scalar, header := d.canonical, isExtend := b }, u) := by
  have hmembers := h.members_eq_none (by rw [hk]; decide)
  have hname : nameText d = ' ' :: d.name := by simp [nameText, hk]
  have hclauses : d.clauses = spaced d.directive := by
    rw [Declaration.clauses, hk, hmembers]
    simp [Kind.isBlock, membersText]
  have hsplit : nameText d ++ d.clauses ++ u = ' ' :: (d.name ++ (spaced d.directive ++ u)) := by
    rw [hname, hclauses]
    simp
  obtain ⟨hstart, hgap⟩ := trimStart_space_name h.name.1 (spaced d.directive ++ u)
  have hafter : Text.startsWith isNameChar (spaced d.directive ++ u) = false := by
    rcases afterName_spaced fun t ht => (h.directive t ht).1 with hnil | ⟨e, v, hv, -, -⟩
    · rw [hnil]
      exact hu.start rfl
    · rw [hv]
      rfl
  have htake := takeName_append_of_isName h.name.1 hafter
  obtain ⟨-, hspaced⟩ := nested_header h b
  have hcollapse : collapse (opening b d.kind ++ [' '] ++ d.name ++ spaced d.directive) =
      .ok (opening b d.kind ++ (nameText d ++ d.clauses)) := by
    have := collapse_eq hspaced
    rw [← this]
    congr 1
    rw [hname, hclauses]
    simp
  have hcanonical := dropExtend_opening h.kind b (nameText d ++ d.clauses)
  rw [readScalar, hsplit]
  simp only [hstart, htake, takeDirectives_spaced (fun t ht => (h.directive t ht).1) hu, bind,
    Except.bind, hgap, hcollapse, hcanonical]
  rfl

/-! ### Statements -/

/-- The fragment that a declaration in writing is cut out as. -/
def Declaration.fragment (d : Declaration) : Fragment :=
  { kind := d.kind
    header := d.canonical
    items := d.entries.map Entry.text
    isExtend := d.isExtend
    description := d.description }

/-- A declaration without what stands above it. -/
def Declaration.core (l : Layout) (d : Declaration) : Text :=
  let header := opening d.isExtend d.kind ++ (nameText d ++ d.clauses)
  if d.kind.isBlock then
    if d.entries.isEmpty then
      if d.isExtend then header else header ++ " \x7b\x7d".toList
    else header ++ " \x7b\n".toList ++ entryLines l.pad d.entries ++ "\x7d".toList
  else header

theorem Declaration.Legible.entries_eq_nil (h : d.Legible) (hk : d.kind.isBlock = false) :
    d.entries = [] := by
  obtain ⟨-, hfields, hclosing⟩ := h.of_not_isBlock hk
  rw [Declaration.entries, hfields, hclosing]
  rfl

theorem Layout.mem_pad (l : Layout) : ∀ c ∈ l.pad, c = ' ' := by
  intro c hc
  exact eq_of_mem_replicate hc

theorem Statement.read_block (hk : k ∈ Kind.declared) (hblock : k.isBlock) (b : Bool) {v : Text}
    (hrest : rest.startsWith isNameChar = false) {f : Fragment}
    (hread : readBlock k b (opening b k) rest = .ok (f, v)) :
    Statement.read (opening b k ++ rest) = .ok (.declared f, v) := by
  rw [Statement.read, takeWord_opening b hk hrest]
  simp only [bind, Except.bind, ofKeyword?_keyword k hk]
  cases k <;> first | (simp only [hread]; rfl) | cases hblock

theorem startsWith_clauses (h : d.Legible) (hu : u.startsWith isNameChar = false) :
    Text.startsWith isNameChar (nameText d ++ d.clauses ++ u) = false := by
  unfold nameText
  split
  · rcases afterName_clauses h with hnil | ⟨e, v, hv, -, -⟩
    · rw [hnil]
      exact hu
    · rw [hv]
      rfl
  · rfl

theorem exists_inner (h : d.Legible) (l : Layout) (u : Text) :
    ∃ (inner : Text) (ls : List Lexeme),
      (if d.entries.isEmpty then "\x7d".toList ++ u
        else '\n' :: (entryLines l.pad d.entries ++ "\x7d".toList ++ u)) = inner ++ '\x7d' :: u ∧
      lex true (inner ++ '\x7d' :: u) = ls ++ .char '\x7d' :: lex true u ∧ PassesBody ls ∧
      bodyItems (d.kind == .enum) ls = .ok (d.entries.map Entry.text) := by
  have hclose : lex true ('\x7d' :: u) = .char '\x7d' :: lex true u :=
    lex_cons (by decide) (by decide) _ _
  by_cases hne : d.entries = []
  · refine ⟨[], [], ?_, hclose, .nil, ?_⟩
    · rw [hne]
      rfl
    · rw [hne]
      have hflush := @Body.flush_blank [] [] 0 0 (forall_mem_nil _)
      exact congrArg (Body.items <$> ·) hflush
  · refine ⟨'\n' :: entryLines l.pad d.entries, .char '\n' :: entryLexemes l.pad d.entries,
      ?_, ?_, ?_, bodyItems_entryLexemes l.mem_pad h.entries⟩
    · rw [if_neg (by simpa using hne)]
      simp
    · rw [cons_append, lex_cons (by decide) (by decide), lex_entryLines l.mem_pad h.entries, hclose]
      rfl
    · exact PassesBody.append (PassesBody.chars (s := ['\n']) (forall_mem_of_all rfl))
        (passesBody_entryLexemes l.mem_pad h.entries)

/-- **A declaration without what stands above it** is cut out as its fragment. -/
theorem Statement.read_core (h : d.Legible) (l : Layout) (hu : Separated u) :
    ∃ v, Statement.read (d.core l ++ u) =
      .ok (.declared { d.fragment with description := none }, v) ∧
      scanFrom none v = scanFrom none u := by
  cases hblock : d.kind.isBlock with
  | true =>
    by_cases hbare : d.entries = [] ∧ d.isExtend
    · obtain ⟨hnil, hextend⟩ := hbare
      obtain ⟨v, hread, hscan⟩ := readBlock_bare h hu
      refine ⟨v, ?_, hscan⟩
      have hcore : d.core l ++ u = opening true d.kind ++ (nameText d ++ d.clauses ++ u) := by
        simp [Declaration.core, hblock, hnil, hextend]
      rw [hcore,
        Statement.read_block h.kind hblock true (startsWith_clauses h (hu.start rfl)) hread]
      simp [Declaration.fragment, hnil, hextend]
    · obtain ⟨inner, ls, hinner, hlex, hpass, hitems⟩ := exists_inner h l u
      refine ⟨u, ?_, rfl⟩
      have hcore : d.core l ++ u = opening d.isExtend d.kind ++
          (nameText d ++ d.clauses ++ ' ' :: '\x7b' :: (inner ++ '\x7d' :: u)) := by
        rw [← hinner]
        by_cases hnil : d.entries = []
        · have hextend : d.isExtend = false := by
            cases he : d.isExtend with
            | false => rfl
            | true => exact absurd ⟨hnil, he⟩ hbare
          simp [Declaration.core, hblock, hnil, hextend]
        · simp [Declaration.core, hblock, hnil]
      have hstart := startsWith_clauses h
        (show Text.startsWith isNameChar (' ' :: '\x7b' :: (inner ++ '\x7d' :: u)) = false from rfl)
      rw [hcore, Statement.read_block h.kind hblock d.isExtend hstart
        (readBlock_body h hlex hpass hitems d.isExtend)]
      rfl
  | false =>
    have hnil := h.entries_eq_nil hblock
    have hcore : d.core l ++ u = opening d.isExtend d.kind ++ (nameText d ++ d.clauses ++ u) := by
      simp [Declaration.core, hblock]
    refine ⟨u, ?_, rfl⟩
    have hstart := startsWith_clauses h (hu.start (p := isNameChar) rfl)
    have hkind : d.kind = .scalar ∨ d.kind = .union := by
      have := h.kind
      cases hk : d.kind <;> simp_all [Kind.declared, Kind.isBlock]
    rw [hcore, Statement.read, takeWord_opening d.isExtend h.kind hstart]
    simp only [bind, Except.bind, ofKeyword?_keyword _ h.kind]
    rcases hkind with hk | hk
    · have hread := readScalar_header h hk d.isExtend
        (opening d.isExtend d.kind ++ (nameText d ++ d.clauses ++ u)) hu
      rw [hk] at hread ⊢
      simp only [hread, Declaration.fragment, hnil, hk]
      rfl
    · have hread := readUnion_header h hk d.isExtend hu
      rw [append_assoc] at hread
      rw [hk] at hread ⊢
      simp only [hread, Declaration.fragment, hnil, hk]
      rfl

/-! ### Whole declarations -/

theorem ofLines_cons {ts : List Text} (hne : ts ≠ []) (t : Text) :
    Text.ofLines (t :: ts) = t ++ '\n' :: Text.ofLines ts := by
  cases ts with
  | nil => exact absurd rfl hne
  | cons s ts =>
    rw [Text.ofLines, joinWith_cons_cons]
    simp [Text.ofLines]

theorem ofLines_append {ss ts : List Text} (hne : ts ≠ []) :
    Text.ofLines (ss ++ ts) = ss.flatMap (· ++ ['\n']) ++ Text.ofLines ts := by
  induction ss with
  | nil => rfl
  | cons s ss ih =>
    rw [cons_append, ofLines_cons (by simp [hne]), ih]
    simp

theorem Declaration.Legible.render_eq (h : d.Legible) (hl : l.separator = ", ".toList) :
    d.render l = (given d.description).flatMap (· ++ ['\n']) ++
      ((given d.comments).flatMap (· ++ ['\n']) ++ d.core l) := by
  have hempty : (d.bodyLines l).isEmpty = d.entries.isEmpty := by
    have hlines := bodyLines_eq l d
    cases hb : d.bodyLines l with
    | nil =>
      cases he : d.entries with
      | nil => rfl
      | cons e es => simp [hb, he, entryLines_cons] at hlines
    | cons t ts =>
      cases he : d.entries with
      | nil => simp [hb, he, entryLines] at hlines
      | cons e es => rfl
  have hcore : Text.ofLines
      (if !d.kind.isBlock || (d.isExtend && (d.bodyLines l).isEmpty) then [d.header l]
      else if (d.bodyLines l).isEmpty then [d.header l ++ " \x7b\x7d".toList]
      else [d.header l ++ " \x7b".toList] ++ d.bodyLines l ++ ["\x7d".toList]) = d.core l := by
    rw [hempty, h.header_eq hl, Declaration.core]
    cases hblock : d.kind.isBlock with
    | false => rfl
    | true =>
      cases hnil : d.entries.isEmpty with
      | true => cases hextend : d.isExtend <;> rfl
      | false =>
        simp only [Bool.not_true, Bool.and_false, Bool.or_false, Bool.false_eq_true, if_false,
          if_true]
        rw [ofLines_append (cons_ne_nil _ _), flatMap_append, bodyLines_eq, flatMap_singleton]
        simp [Text.ofLines]
  rw [Declaration.render, ofLines_append, hcore, flatMap_append, append_assoc]
  split
  · exact cons_ne_nil _ _
  · split
    · exact cons_ne_nil _ _
    · simp

theorem scanFrom_comment (h : t.IsComment) (description : Option Text) (u : Text) :
    scanFrom description (t ++ '\n' :: u) = scanFrom description u := by
  obtain ⟨cs, rfl⟩ : ∃ cs, t = '#' :: cs := by
    have := h.hash
    cases t with
    | nil => cases this
    | cons c cs =>
      obtain rfl : c = '#' := by simpa [startsWith_cons] using this
      exact ⟨cs, rfl⟩
  have hline : ∀ c ∈ cs, (c != '\n') := by
    intro c hc
    rw [bne_iff_ne]
    rintro rfl
    exact h.line (mem_cons_of_mem _ hc)
  rw [cons_append, scanFrom, if_neg (by decide), if_pos (by decide),
    dropWhile_append_of_pos hline, dropWhile_cons_of_neg (by decide), scanFrom_newline]

theorem scanFrom_comments {t : Option Text} (h : ∀ s ∈ t, s.IsComments) (description : Option Text)
    (u : Text) :
    scanFrom description ((given t).flatMap (· ++ ['\n']) ++ u) = scanFrom description u := by
  cases t with
  | none => rfl
  | some s =>
    obtain ⟨hcs, hof, hne⟩ := (h s rfl).lines
    have hlines : s ++ ['\n'] = s.lines.flatMap (· ++ ['\n']) := by
      have hnil : s.lines ≠ [] := by
        intro heq
        rw [heq] at hof
        exact hne hof.symm
      rw [← ofLines_append_newline hnil, hof]
    rw [given_of_ne_nil hne, flatMap_singleton, hlines]
    clear hlines hof
    generalize s.lines = cs at hcs
    induction cs with
    | nil => rfl
    | cons c cs ih =>
      obtain ⟨hc, hcs⟩ := forall_mem_cons.mp hcs
      rw [flatMap_cons, append_assoc, append_assoc, singleton_append, scanFrom_comment hc, ih hcs]

theorem scanFrom_literal (h : t.IsLiteral) (description : Option Text) (u : Text) :
    scanFrom description (t ++ '\n' :: u) = scanFrom (some t) u := by
  have htake := Text.takeLiteral_congr h.closed (u := '\n' :: u) (fun hq => by cases hq)
  obtain ⟨cs, rfl⟩ : ∃ cs, t = '"' :: cs := by
    have := h.quote
    cases t with
    | nil => cases this
    | cons c cs =>
      obtain rfl : c = '"' := by simpa [startsWith_cons] using this
      exact ⟨cs, rfl⟩
  rw [cons_append] at htake ⊢
  rw [scanFrom, if_neg (by decide), if_neg (by decide), if_pos (by decide)]
  split
  · rename_i heq
    rw [htake] at heq
    cases heq
    exact scanFrom_newline _ _
  · rename_i heq
    rw [htake] at heq
    cases heq

theorem core_eq_cons (h : d.Legible) (l : Layout) : ∃ c cs, d.core l = c :: cs ∧ isNameChar c := by
  have hall : ∀ b : Bool, ∀ k ∈ Kind.declared, (opening b k).startsWith isNameChar := by decide
  have hstart := hall d.isExtend d.kind h.kind
  obtain ⟨rest, hrest⟩ : ∃ rest, d.core l = opening d.isExtend d.kind ++ rest := by
    unfold Declaration.core
    split
    · split
      · split
        · exact ⟨_, rfl⟩
        · exact ⟨_, append_assoc _ _ _⟩
      · simp only [append_assoc]
        exact ⟨_, rfl⟩
    · exact ⟨_, rfl⟩
  cases ho : opening d.isExtend d.kind with
  | nil => rw [ho] at hstart; cases hstart
  | cons c cs =>
    rw [ho, startsWith_cons] at hstart
    exact ⟨c, cs ++ rest, by rw [hrest, ho, cons_append], hstart⟩

/-- **A declaration in writing is cut out as its fragment**, and the reading goes on after it. -/
theorem scanFrom_render (h : d.Legible) (hl : l.separator = ", ".toList) (hu : Separated u) :
    scanFrom none (d.render l ++ u) =
      { scanFrom none u with fragments := d.fragment :: (scanFrom none u).fragments } := by
  have hcore : ∀ description : Option Text, scanFrom description (d.core l ++ u) =
      (scanFrom none u).add description (.declared { d.fragment with description := none }) := by
    intro description
    obtain ⟨v, hread, hscan⟩ := Statement.read_core h l hu
    obtain ⟨c, cs, hcs, hc⟩ := core_eq_cons h l
    have hblank : (isBlank c || c == ',') = false := by
      simp [not_isBlank_of_isNameChar hc, ne_of_class hc (d := ',') rfl]
    have hhash : (c == '#') = false := by simpa using ne_of_class hc (d := '#') rfl
    have hquote : (c == '"') = false := by simpa using ne_of_class hc (d := '"') rfl
    rw [hcs, cons_append] at hread ⊢
    rw [scanFrom, hblank, hhash, hquote]
    simp only [Bool.false_eq_true, if_false]
    split
    · rename_i heq
      rw [hread] at heq
      cases heq
      rw [hscan]
    · rename_i heq
      rw [hread] at heq
      cases heq
  rw [h.render_eq hl, append_assoc, append_assoc]
  cases hdesc : d.description with
  | none =>
    rw [given, flatMap_nil, nil_append, scanFrom_comments h.comments, hcore]
    simp [Scan.add, Declaration.fragment, hdesc]
  | some t =>
    have ht := (h.description t hdesc).1
    rw [given_of_ne_nil ht.ne_nil, flatMap_singleton, append_assoc, singleton_append,
      scanFrom_literal ht, scanFrom_comments h.comments, hcore]
    simp [Scan.add, Declaration.fragment, hdesc]

theorem startsBlock_render (h : d.Legible) (hl : l.separator = ", ".toList) (hu : Separated u) :
    StartsBlock (d.render l ++ u) := by
  rw [h.render_eq hl, append_assoc, append_assoc]
  cases hdesc : d.description with
  | some t =>
    have ht := (h.description t hdesc).1
    left
    rw [given_of_ne_nil ht.ne_nil, flatMap_singleton]
    have hq := ht.quote
    cases t with
    | nil => cases hq
    | cons c cs =>
      obtain rfl : c = '"' := by simpa [startsWith_cons] using hq
      rfl
  | none =>
    rw [given, flatMap_nil, nil_append]
    cases hc : d.comments with
    | some t =>
      obtain ⟨cs, hne, rfl, hcs⟩ := h.comments t hc
      left
      rw [given_of_ne_nil (h.comments _ hc).lines.2.2, flatMap_singleton]
      cases cs with
      | nil => exact absurd rfl hne
      | cons c cs =>
        have hash := (hcs c mem_cons_self).hash
        cases c with
        | nil => cases hash
        | cons e c =>
          obtain rfl : e = '#' := by simpa [startsWith_cons] using hash
          cases cs <;> rfl
    | none =>
      right
      rw [given, flatMap_nil, nil_append]
      obtain ⟨tail, htail, hstart⟩ : ∃ tail, d.core l =
          opening d.isExtend d.kind ++ (nameText d ++ d.clauses ++ tail) ∧
            Text.startsWith isNameChar (tail ++ u) = false := by
        have hsep : Text.startsWith isNameChar u = false := hu.start rfl
        unfold Declaration.core
        split
        · split
          · split
            · exact ⟨[], by simp, hsep⟩
            · exact ⟨" \x7b\x7d".toList, by simp, rfl⟩
          · exact ⟨" \x7b\n".toList ++ entryLines l.pad d.entries ++ "\x7d".toList, by simp, rfl⟩
        · exact ⟨[], by simp, hsep⟩
      refine ⟨d.isExtend, d.kind, nameText d ++ d.clauses ++ (tail ++ u), h.kind, ?_,
        startsWith_clauses h hstart⟩
      rw [htail]
      simp

end Blocks

/-- The blocks of a schema, with a blank line between each two. -/
def blocksText (ts : List Text) : Text :=
  Text.joinWith "\n\n".toList ts ++ ['\n']

theorem blocksText_cons_cons (s t : Text) (ts : List Text) :
    blocksText (s :: t :: ts) = s ++ '\n' :: '\n' :: blocksText (t :: ts) := by
  simp [blocksText]

theorem startsBlock_blocksText (hl : l.separator = ", ".toList) {d : Declaration}
    {ds : List Declaration} (h : ∀ e ∈ d :: ds, e.Legible) :
    StartsBlock (blocksText ((d :: ds).map (Declaration.render l))) := by
  induction ds generalizing d with
  | nil => exact startsBlock_render (h d mem_cons_self) hl (.inr (.inl rfl))
  | cons e ds ih =>
    obtain ⟨hd, hds⟩ := forall_mem_cons.mp h
    rw [map_cons, map_cons, blocksText_cons_cons, ← map_cons]
    exact startsBlock_render hd hl (.inr (.inr ⟨_, rfl, ih hds⟩))

/-- **The fragments of a schema in writing** are those of its declarations. -/
theorem scanFrom_blocksText (hl : l.separator = ", ".toList) {ds : List Declaration}
    (h : ∀ d ∈ ds, d.Legible) :
    scanFrom none (blocksText (ds.map (Declaration.render l))) =
      { fragments := ds.map Declaration.fragment } := by
  induction ds with
  | nil =>
    change scanFrom none ['\n'] = _
    rw [scanFrom_newline, scanFrom]
    rfl
  | cons d ds ih =>
    obtain ⟨hd, hds⟩ := forall_mem_cons.mp h
    have hrest := ih hds
    cases ds with
    | nil =>
      have hend : scanFrom none ['\n'] = {} := by rw [scanFrom_newline, scanFrom]
      change scanFrom none (d.render l ++ ['\n']) = _
      rw [scanFrom_render hd hl (.inr (.inl rfl)), hend]
      rfl
    | cons e ds =>
      have hstart := startsBlock_blocksText hl hds
      rw [map_cons, map_cons, blocksText_cons_cons, ← map_cons,
        scanFrom_render hd hl (.inr (.inr ⟨_, rfl, hstart⟩)), scanFrom_newline,
        scanFrom_newline, hrest]
      rfl

/-! ### Fragments as declarations -/

/-- **The fragment of a declaration is read as the declaration**, the comments above it apart. -/
theorem parseFragment_fragment {d : Declaration} (h : d.Legible) (naming : Naming)
    {annotations : List Annotation} (hann : ∀ a ∈ annotations, a.kind = .directive) :
    parseFragment naming annotations d.fragment = pure { d.plain with comments := none } := by
  have hread := Header.read_opening h false (afterName_clauses h)
  have hfield : ∀ a ∈ annotations, a.kind ≠ .property := by
    intro a ha
    rw [hann a ha]
    decide
  have hkind : ∀ a ∈ annotations, a.kind ≠ d.kind := by
    intro a ha heq
    have := h.kind
    rw [← heq, hann a ha] at this
    exact absurd this (by decide)
  have hdir : ∀ t ∈ d.directive, t.IsDirectives := fun t ht => (h.directive t ht).1
  rw [parseFragment]
  change (Resolve.ofExcept (Header.read (opening false d.kind ++ (nameText d ++ d.clauses))) >>=
    _) = _
  rw [hread, ofExcept_ok, pure_bind]
  simp only [hasDuplicate, Bool.false_eq_true, if_false, annotationFor_eq_none hkind, beq_iff_eq]
  by_cases hu : d.kind = .union
  · have hblock : d.kind.isBlock = false := by rw [hu]; rfl
    obtain ⟨himplements, hfields, hclosing⟩ := h.of_not_isBlock hblock
    have hmembers : ∀ u ∈ d.members.getD [], u.Legible := fun u hu => (h.mem_members hu).1
    have hclauses : d.clauses = spaced d.directive ++ membersText (d.members.getD []) := by
      rw [Declaration.clauses, hblock, if_neg Bool.false_ne_true]
    rw [if_pos hu, hclauses, parseUnion_clauses hmembers hdir naming rfl rfl]
    have hplain : ((some (d.members.getD [])).filter (!·.isEmpty)) =
        d.members.filter (!·.isEmpty) := by
      cases d.members <;> rfl
    simp only [Declaration.fragment, Declaration.plain, himplements, hfields, hclosing, hplain]
    rfl
  · rw [if_neg hu]
    have hmembers := h.members_eq_none hu
    by_cases hs : d.kind = .scalar
    · have hblock : d.kind.isBlock = false := by rw [hs]; rfl
      obtain ⟨himplements, hfields, hclosing⟩ := h.of_not_isBlock hblock
      have hclauses : d.clauses = spaced d.directive ++ [] := by
        rw [Declaration.clauses, hblock, if_neg Bool.false_ne_true, hmembers]
        rfl
      rw [if_pos hs, hclauses, nonEmpty_trim_spaced hdir (.inl rfl)]
      simp only [Declaration.fragment, Declaration.plain, himplements, hfields, hclosing, hmembers]
      rfl
    · have hblock : d.kind.isBlock := by
        have := h.kind
        cases hk : d.kind <;> simp_all [Kind.declared, Kind.isBlock]
      have hnames : ∀ n ∈ d.implements.getD [], n.isName ∧ n ∉ clauseWords :=
        fun n hn => h.mem_implements hn
      have hclauses : d.clauses = clausesText (d.implements.getD []) d.directive := by
        rw [Declaration.clauses, hblock, if_pos rfl]
      have hitems : d.fragment.items = d.entries.map Entry.text := rfl
      rw [if_neg hs, hclauses, parseClauses_clausesText hnames hdir, ofExcept_ok, pure_bind, hitems,
        parseItems_entries h hfield rfl, pure_bind]
      have hplain : ((some (d.implements.getD [])).filter (!·.isEmpty)) =
          d.implements.filter (!·.isEmpty) := by
        cases d.implements <;> rfl
      simp only [Declaration.fragment, Declaration.plain, hmembers, hplain]
      rfl

end Schemata
