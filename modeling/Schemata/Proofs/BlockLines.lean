import Schemata.Proofs.Writing

/-!
# The lines of a declaration in writing

Between the header of a declaration and its closing brace no line is taken for an annotation, for
the definition of a directive or for a header.  Above the header stand the description and the
comments, and the comments are found there again, if no others stand above them.
-/

namespace Schemata

open List

variable {depth after last : Nat} {pad t u : Text} {c : Char} {ls : List Lexeme}
  {found more : List Text → List CommentBlock}

/-! ### Lexemes that close their braces -/

theorem PassesLines.chars {p : LineState → Prop} {s : Text}
    (h : ∀ c ∈ s, c ≠ '{' ∧ c ≠ '}' ∧ c ≠ '\n') : PassesLines p depth depth (s.map .char) := by
  induction s with
  | nil => exact .nil
  | cons c s ih =>
    obtain ⟨hc, hs⟩ := forall_mem_cons.mp h
    have hfirst := @PassesLines.char c p depth hc.2.2
    have hbraces : bracesAfter depth c = depth := by simp [bracesAfter, hc.1, hc.2.1]
    rw [hbraces] at hfirst
    exact hfirst.append (ih hs)

/-- Braces are closed again in nested lexemes, and lines start only inside of their literals. -/
theorem Nested.passesLines {top : Char → Bool} {pending : List Char} (h : Nested top pending ls)
    (hbreak : .char '\n' ∉ ls) (depth : Nat) :
    PassesLines (·.inString) (depth + pending.count '}') depth ls := by
  induction h with
  | nil => exact .nil
  | @literal pending ls t _ ih =>
    have hliteral := @PassesLines.literal (·.inString) (depth + pending.count '}') rfl t
    exact hliteral.append (ih fun hm => hbreak (mem_cons_of_mem _ hm))
  | @opening c pending ls bracket _ _ ih =>
    have hdepth : bracesAfter (depth + pending.count '}') c =
        depth + (closerOf c :: pending).count '}' := by
      rcases isOpener_iff.mp bracket with rfl | rfl | rfl | rfl <;>
        simp [bracesAfter, closerOf, Nat.add_assoc]
    have hrest := ih fun hm => hbreak (mem_cons_of_mem _ hm)
    rw [← hdepth] at hrest
    exact (PassesLines.char (by rintro rfl; exact hbreak mem_cons_self)).append hrest
  | @closing c pending ls bracket _ ih =>
    have hdepth : bracesAfter (depth + (c :: pending).count '}') c = depth + pending.count '}' := by
      rcases isCloser_iff.mp bracket with rfl | rfl | rfl | rfl <;> simp [bracesAfter]
    have hrest := ih fun hm => hbreak (mem_cons_of_mem _ hm)
    rw [← hdepth] at hrest
    exact (PassesLines.char (by rintro rfl; exact hbreak mem_cons_self)).append hrest
  | @char c pending ls opener closer _ _ _ ih =>
    have hdepth : bracesAfter (depth + pending.count '}') c = depth + pending.count '}' := by
      have hopen : c ≠ '{' := by rintro rfl; cases opener
      have hclose : c ≠ '}' := by rintro rfl; cases closer
      simp [bracesAfter, hopen, hclose]
    have hrest := ih fun hm => hbreak (mem_cons_of_mem _ hm)
    rw [← hdepth] at hrest
    exact (PassesLines.char (by rintro rfl; exact hbreak mem_cons_self)).append hrest

/-- There are no line breaks outside of literals where there are only single spaces. -/
theorem Spaced.newline_not_mem {before : Bool} (h : Spaced before ls) : .char '\n' ∉ ls := by
  induction h with
  | nil => exact not_mem_nil
  | space _ ih => simpa using ih
  | @char before c ls blank _ ih =>
    have hc : '\n' ≠ c := by
      rintro rfl
      cases blank
    simpa [hc] using ih
  | literal t _ ih => simpa using ih

/-! ### Rows -/

/-- The text is made of whole lines, which lead from a depth to another and are kept.  The comments
found above the headers among them depend on the lines above, the nearest first. -/
def Rows (depth after : Nat) (t : Text) (found : List Text → List CommentBlock) : Prop :=
  ∃ rows, LinesOf depth after (t ++ ['\n']) rows ∧ (∀ r ∈ rows, Kept r) ∧
    ∀ above rest, commentBlocks above (rows ++ rest) =
      (found above ++ ·) <$> commentBlocks (t.lines.reverse ++ above) rest

/-- **Lines one after the other.** -/
theorem Rows.append (h : Rows depth after t found) (h' : Rows after last u more) :
    Rows depth last (t ++ '\n' :: u) fun above =>
      found above ++ more (t.lines.reverse ++ above) := by
  obtain ⟨rows, hlines, hkept, hfound⟩ := h
  obtain ⟨rows', hlines', hkept', hfound'⟩ := h'
  refine ⟨rows ++ rows', fun v => ?_, fun r hr => (mem_append.mp hr).elim (hkept r) (hkept' r), ?_⟩
  · have hsplit : t ++ '\n' :: u ++ ['\n'] ++ v = t ++ ['\n'] ++ (u ++ ['\n'] ++ v) := by simp
    rw [hsplit, hlines, hlines']
    cases linesFrom last v <;> simp [Functor.map, Except.map]
  · intro above rest
    rw [append_assoc, hfound, hfound', lines_append, reverse_append, append_assoc]
    cases commentBlocks (u.lines.reverse ++ (t.lines.reverse ++ above)) rest <;>
      simp [Functor.map, Except.map]

theorem Rows.below {ts : List Text} (hts : ∀ t ∈ ts, Rows depth depth t fun _ => [])
    (h : Rows depth after u found) :
    Rows depth after (ts.flatMap (· ++ ['\n']) ++ u) fun above =>
      found ((ts.flatMap Text.lines).reverse ++ above) := by
  induction ts with
  | nil => exact h
  | cons t ts ih =>
    obtain ⟨ht, hts⟩ := forall_mem_cons.mp hts
    simpa using ht.append (ih hts)

theorem linesOf_newline : LinesOf 0 0 ['\n'] [([], ⟨0, false⟩)] := by
  intro u
  have hlex : lex true ('\n' :: u) = .char '\n' :: lex true u :=
    lex_cons (by decide) (by decide) true u
  have hlines : Text.lines ('\n' :: u) = [] :: Text.lines u := lines_append [] u
  rw [singleton_append, linesFrom, hlex, Lexeme.lineStates, if_pos (beq_self_eq_true _),
    linesFrom, hlines]
  cases Lexeme.lineStates 0 (lex true u) <;> rfl

theorem kept_blank : Kept ([], ⟨0, false⟩) :=
  ⟨.inr ⟨fun _ => rfl, rfl⟩, none, rfl⟩

theorem rows_nil : Rows 0 0 [] fun _ => [] :=
  ⟨_, linesOf_newline, forall_mem_singleton.mpr kept_blank,
    commentBlocks_cons (rfl : rowHeader ([], ⟨0, false⟩) = .ok none)⟩

theorem commentBlocks_append {rows : List (Text × LineState)}
    (h : ∀ r ∈ rows, rowHeader r = .ok none) (above : List Text) (rest : List (Text × LineState)) :
    commentBlocks above (rows ++ rest) =
      commentBlocks ((rows.map Prod.fst).reverse ++ above) rest := by
  induction rows generalizing above with
  | nil => rfl
  | cons r rows ih =>
    obtain ⟨hr, hrows⟩ := forall_mem_cons.mp h
    rw [cons_append, commentBlocks_cons hr, ih hrows, map_cons, reverse_cons, append_assoc,
      singleton_append]
    cases commentBlocks ((rows.map Prod.fst).reverse ++ r.1 :: above) rest <;> rfl

/-- **The rows of a text**: its first line may hold a header, and its other lines start inside of
literals. -/
theorem rows_of_passesLines {first : Text} {rest : List Text} {header : Option Header}
    (hpad : ∀ c ∈ pad, c = ' ') (hblank : isBlank c = false) (hat : c ≠ '@')
    (hd : depth = 0 → c ≠ 'd') (h : PassesLines (·.inString) depth after ls)
    (hlex : ∀ u, lex true (pad ++ c :: t ++ '\n' :: u) = ls ++ .char '\n' :: lex true u)
    (hlines : t.lines = first :: rest)
    (hheader : rowHeader (pad ++ c :: first, ⟨depth, false⟩) = .ok header) :
    Rows depth after (pad ++ c :: t) fun above => (header.bind (commentBlock? above)).toList := by
  obtain ⟨line, more, hall, hmore, hof⟩ := linesFrom_append h hlex
  have hprefix : '\n' ∉ pad ++ [c] := by
    simp only [mem_append, mem_singleton, not_or]
    refine ⟨fun hm => absurd (hpad _ hm) (by decide), ?_⟩
    rintro rfl
    cases hblank
  have hfirst := lines_append_cons hprefix hlines
  rw [append_assoc, singleton_append, append_assoc, singleton_append] at hfirst
  obtain ⟨rfl, hrest⟩ := List.cons.inj (hfirst.symm.trans hall)
  refine ⟨(pad ++ c :: first, ⟨depth, false⟩) :: more, fun u => ?_,
    forall_mem_cons.mpr ⟨⟨.inr ?_, _, hheader⟩, ?_⟩, ?_⟩
  · rw [append_assoc, singleton_append]
    exact hof u
  · -- the first character shows that the line is no annotation
    obtain ⟨v, hv⟩ := trim_append_cons (fun e he => by rw [hpad e he]; rfl) hblank first
    rw [hv]
    refine ⟨fun hdepth => ?_, ?_⟩
    · cases hname : directiveName? (c :: v) with
      | none => rfl
      | some name =>
        obtain ⟨w, hw⟩ := directiveName?_eq_cons hname
        exact absurd (List.cons.inj hw).1 (hd hdepth)
    · unfold Mark.ofLine?
      split
      · rename_i heq
        exact absurd (List.cons.inj heq).1 hat
      · rfl
  · exact fun r hr => ⟨.inl (hmore r hr), none, rowHeader_of_inString (hmore r hr)⟩
  · intro above rest
    rw [cons_append, commentBlocks_cons hheader,
      commentBlocks_append fun r hr => rowHeader_of_inString (hmore r hr), hall]
    simp

/-- A text that starts with no name holds no header outside of blocks, and no text does inside of
them. -/
theorem rows_of_passive (hpad : ∀ c ∈ pad, c = ' ') (hblank : isBlank c = false) (hat : c ≠ '@')
    (hc : depth = 0 → isNameChar c = false) (h : PassesLines (·.inString) depth after ls)
    (hlex : ∀ u, lex true (pad ++ c :: t ++ '\n' :: u) = ls ++ .char '\n' :: lex true u) :
    Rows depth after (pad ++ c :: t) fun _ => [] := by
  obtain ⟨first, rest, hlines⟩ := exists_cons_of_ne_nil (lines_ne_nil t)
  refine @rows_of_passesLines _ _ _ _ _ _ _ _ none hpad hblank hat ?_ h hlex hlines ?_
  · rintro hdepth rfl
    exact absurd (hc hdepth) (by decide)
  · unfold rowHeader
    split
    · rename_i hdepth
      have hzero : depth = 0 := by simpa using hdepth
      exact Header.read_eq_none (fun e he => by rw [hpad e he]; rfl) hblank (hc hzero) first
    · rfl

/-! ### The lines of a body -/

namespace Entry

variable {enum : Bool} {e : Entry}

theorem text_eq_cons (h : e.Legible enum) : ∃ c t, e.text = c :: t ∧ isBlank c = false ∧ c ≠ '@' ∧
    ((∀ f, e ≠ .field f) → isNameChar c = false) := by
  cases e with
  | literal t =>
    obtain ⟨s, rfl⟩ := eq_cons_of_startsWith (Text.IsLiteral.quote h)
    exact ⟨_, s, rfl, rfl, by decide, fun _ => rfl⟩
  | comment t =>
    obtain ⟨s, rfl⟩ := eq_cons_of_startsWith (Text.IsComment.hash h)
    exact ⟨_, s, rfl, rfl, by decide, fun _ => rfl⟩
  | field f =>
    have hf : f.Legible enum := h
    obtain ⟨c, cs, hcs, hc, -⟩ := isName_iff.mp hf.name
    have hchar := isNameChar_of_isNameStart hc
    refine ⟨c, cs ++ argumentsText f.arguments ++ f.tail ++ spaced f.inlineComment, ?_,
      not_isBlank_of_isNameChar hchar, ne_of_class hchar (by decide), fun hne => absurd rfl (hne f)⟩
    simp [Entry.text, f.line_eq, Field.head, hcs]

theorem passesLines (h : e.Legible enum) (depth : Nat) :
    PassesLines (·.inString) depth depth e.lexemes := by
  cases e with
  | literal t => exact @PassesLines.literal (·.inString) depth rfl t
  | comment t => exact .comment (Text.IsComment.line h)
  | field f =>
    have hf : f.Legible enum := h
    refine (hf.isLine.nested.passesLines hf.isLine.spaced.newline_not_mem depth).append ?_
    cases hi : f.inlineComment with
    | none => exact .nil
    | some c =>
      have hspace : PassesLines (·.inString) depth depth (([' '] : Text).map .char) :=
        .chars (forall_mem_of_all rfl)
      exact hspace.append (.comment (hf.inlineComment c hi).line)

/-- **The lines of an entry** hold no header, those of a field inside of a block. -/
theorem rows (h : e.Legible enum) (hpad : ∀ c ∈ pad, c = ' ')
    (hfield : depth = 0 → ∀ f, e ≠ .field f) : Rows depth depth (pad ++ e.text) fun _ => [] := by
  have hspaces : ∀ c ∈ pad, c ≠ '{' ∧ c ≠ '}' ∧ c ≠ '\n' := by
    intro c hc
    rw [hpad c hc]
    decide
  have hchars : ∀ c ∈ pad, c ≠ '"' ∧ c ≠ '#' := by
    intro c hc
    rw [hpad c hc]
    decide
  have hlex : ∀ u, lex true (pad ++ e.text ++ '\n' :: u) =
      pad.map .char ++ e.lexemes ++ .char '\n' :: lex true u := by
    intro u
    rw [append_assoc, lex_append_chars hchars, e.lex_text h, append_assoc]
  have hpass := (PassesLines.chars hspaces).append (e.passesLines h depth)
  obtain ⟨c, t, htext, hblank, hat, hname⟩ := e.text_eq_cons h
  rw [htext] at hlex ⊢
  exact rows_of_passive hpad hblank hat (fun hd => hname (hfield hd)) hpass hlex

end Entry

/-! ### The lines of a declaration -/

section Declarations

variable {d : Declaration} {l : Layout}

theorem opening_eq_cons (b : Bool) {k : Kind} (hk : k ∈ Kind.declared) :
    ∃ c t, opening b k = c :: t ∧ isBlank c = false ∧ c ≠ '@' ∧ c ≠ 'd' ∧ c ≠ '#' := by
  have hall : ∀ b : Bool, ∀ k ∈ Kind.declared,
      (opening b k).head?.any (fun c => isBlank c = false ∧ c ≠ '@' ∧ c ≠ 'd' ∧ c ≠ '#') =
        true := by
    decide
  have hany := hall b k hk
  cases ho : opening b k with
  | nil => rw [ho] at hany; cases hany
  | cons c t =>
    rw [ho] at hany
    exact ⟨c, t, rfl, of_decide_eq_true hany⟩

theorem takeComments_cons (hblank : isBlank c = false) (hash : c ≠ '#') (t : Text)
    (above : List Text) : takeComments ((c :: t) :: above) = [] := by
  obtain ⟨u, hu⟩ := @trim_append_cons c [] (forall_mem_nil _) hblank t
  rw [nil_append] at hu
  have hstart : Text.startsWith (· == '#') (c :: u) = false := by simpa [startsWith_cons] using hash
  simp only [takeComments, hu, hstart, isEmpty_cons, Bool.false_eq_true, if_false]

/-- The comments that are found at the header of a declaration. -/
def Declaration.foundBelow (d : Declaration) (above : List Text) : List CommentBlock :=
  (commentBlock? above ⟨d.kind, d.isExtend, d.name, none, []⟩).toList

/-- **The line of a header**, with what stands behind it. -/
theorem rows_header (h : d.Legible) {tail : Text} (htail : AfterName tail)
    (hchars : ∀ c ∈ tail, c ≠ '"' ∧ c ≠ '#' ∧ c ≠ '\n')
    (hpass : PassesLines (·.inString) 0 after (tail.map .char)) :
    Rows 0 after (opening d.isExtend d.kind ++ (nameText d ++ d.clauses) ++ tail) d.foundBelow ∧
      ∀ above, takeComments
        ((opening d.isExtend d.kind ++ (nameText d ++ d.clauses) ++ tail).lines.reverse ++ above) =
          [] := by
  obtain ⟨hnested, hspaced⟩ := nested_header h d.isExtend
  have hread := Header.read_opening h d.isExtend ((afterName_clauses h).append htail)
  rw [← append_assoc (nameText d), ← append_assoc (opening d.isExtend d.kind)] at hread
  have hline : '\n' ∉ opening d.isExtend d.kind ++ (nameText d ++ d.clauses) ++ tail := by
    rw [mem_append, not_or]
    exact ⟨newline_not_mem_header h d.isExtend, fun hm => (hchars _ hm).2.2 rfl⟩
  have hq : ∀ u, Text.startsWith (· == '"') (tail ++ '\n' :: u) = false := by
    intro u
    cases tail with
    | nil => rfl
    | cons c tail => simpa [startsWith_cons] using (hchars c mem_cons_self).1
  have hlex : ∀ u,
    lex true (opening d.isExtend d.kind ++ (nameText d ++ d.clauses) ++ tail ++ '\n' :: u) =
      lex false (opening d.isExtend d.kind ++ (nameText d ++ d.clauses)) ++ tail.map .char ++
        .char '\n' :: lex true u := by
    intro u
    rw [append_assoc, lex_append hnested.isQuiet (hq u),
      lex_append_chars (fun c hc => ⟨(hchars c hc).1, (hchars c hc).2.1⟩),
      lex_cons (by decide) (by decide), append_assoc]
  have hall := (hnested.passesLines hspaced.newline_not_mem 0).append hpass
  obtain ⟨c, t, ho, hblank, hat, hd, hash⟩ := opening_eq_cons d.isExtend h.kind
  obtain ⟨v, hv⟩ : ∃ v, opening d.isExtend d.kind ++ (nameText d ++ d.clauses) ++ tail = c :: v :=
    ⟨_, by rw [ho]; rfl⟩
  rw [hv] at hlex hline hread ⊢
  have hlines : Text.lines v = [v] := lines_of_not_mem fun hm => hline (mem_cons_of_mem _ hm)
  refine ⟨?_,
    fun above => by rw [lines_of_not_mem hline]; exact takeComments_cons hblank hash v above⟩
  exact @rows_of_passesLines _ _ [] _ _ _ _ _ _ (forall_mem_nil _) hblank hat (fun _ => hd)
    hall hlex hlines hread

theorem lines_flatMap (ts : List Text) (u : Text) :
    Text.lines (ts.flatMap (· ++ ['\n']) ++ u) = ts.flatMap Text.lines ++ u.lines := by
  induction ts with
  | nil => rfl
  | cons t ts ih =>
    rw [flatMap_cons, flatMap_cons, append_assoc, append_assoc, singleton_append, lines_append, ih,
      append_assoc]

theorem rows_brace : Rows 1 0 "\x7d".toList fun _ => [] := by
  refine @rows_of_passive 1 0 [] [] '\x7d' [.char '\x7d'] (forall_mem_nil _) rfl (by decide)
    (by rintro ⟨⟩) (@PassesLines.char '\x7d' (·.inString) 1 (by decide)) fun u => ?_
  change lex true ('\x7d' :: '\n' :: u) = _
  rw [lex_cons (by decide) (by decide), lex_cons (by decide) (by decide)]
  rfl

/-- **The lines of a declaration** from its header on; the last of them is no comment. -/
theorem rows_core (h : d.Legible) (l : Layout) : Rows 0 0 (d.core l) d.foundBelow ∧
    ∀ above, takeComments ((d.core l).lines.reverse ++ above) = [] := by
  have hspace : ∀ depth, PassesLines (·.inString) depth depth [.char ' '] := fun depth =>
    .chars (s := [' ']) (forall_mem_of_all rfl)
  by_cases hbody : d.kind.isBlock ∧ d.entries ≠ []
  · have hcore : d.core l = opening d.isExtend d.kind ++ (nameText d ++ d.clauses) ++
      " \x7b".toList ++
        '\n' :: ((d.entries.map fun e => l.pad ++ e.text).flatMap (· ++ ['\n']) ++
          "\x7d".toList) := by
      simp [Declaration.core, hbody, entryLines, flatMap_map]
    have hopen : PassesLines (·.inString) 0 1 ((" \x7b".toList).map .char) :=
      (hspace 0).append (@PassesLines.char '\x7b' (·.inString) 0 (by decide))
    obtain ⟨hheader, -⟩ := rows_header h (.inr ⟨'\x7b', [], rfl, rfl, by decide⟩)
      (forall_mem_of_all rfl) hopen
    have hentries : ∀ t ∈ d.entries.map fun e => l.pad ++ e.text, Rows 1 1 t fun _ => [] := by
      intro t ht
      obtain ⟨e, he, rfl⟩ := mem_map.mp ht
      exact e.rows (h.entries e he) l.mem_pad fun h => absurd h Nat.one_ne_zero
    rw [hcore]
    refine ⟨by simpa using hheader.append (rows_brace.below hentries), fun above => ?_⟩
    have hbrace : Text.lines "\x7d".toList = ["\x7d".toList] := by decide
    rw [lines_append, lines_flatMap, hbrace, reverse_append, reverse_append]
    exact takeComments_cons rfl (by decide) [] _
  · -- a header alone, or with empty braces
    obtain ⟨tail, hcore, htail⟩ : ∃ tail,
      d.core l = opening d.isExtend d.kind ++ (nameText d ++ d.clauses) ++ tail ∧
        (tail = [] ∨ tail = " \x7b\x7d".toList) := by
      by_cases hempty : d.kind.isBlock ∧ d.isExtend = false
      · refine ⟨" \x7b\x7d".toList, ?_, .inr rfl⟩
        simp_all [Declaration.core]
      · refine ⟨[], ?_, .inl rfl⟩
        cases hk : d.kind.isBlock <;> simp_all [Declaration.core]
    rw [hcore]
    rcases htail with rfl | rfl
    · exact rows_header h (.inl rfl) (forall_mem_nil _) .nil
    · exact rows_header h (.inr ⟨'\x7b', _, rfl, rfl, by decide⟩) (forall_mem_of_all rfl)
        ((hspace 0).append ((@PassesLines.char '\x7b' (·.inString) 0 (by decide)).append
          (@PassesLines.char '\x7d' (·.inString) 1 (by decide))))

/-! ### Comments above a declaration -/

theorem takeComments_append {cs : List Text} (h : ∀ c ∈ cs, c.IsComment) (above : List Text) :
    takeComments (cs ++ above) = cs ++ takeComments above := by
  induction cs with
  | nil => rfl
  | cons c cs ih =>
    obtain ⟨hc, hcs⟩ := forall_mem_cons.mp h
    rw [cons_append, takeComments, hc.trimmed, if_pos hc.hash, ih hcs]
    rfl

theorem takeComments_description (h : t.IsLiteral)
    (hlast : ∀ line ∈ t.lines.getLast?, line.trim.startsWith (· == '#') = false)
    (above : List Text) : takeComments (t.lines.reverse ++ above) = [] := by
  obtain ⟨line, hline, hquote⟩ := exists_getLast_lines (takeLiteral_getLast h.closed) (by decide)
  obtain ⟨before, hbefore⟩ := getLast?_eq_some_iff.mp hline
  have hne : line.trim.isEmpty = false := by
    rw [isEmpty_eq_false_iff, ne_eq, trim_eq_nil_iff]
    intro hall
    exact absurd (hall '"' (mem_of_getLast? hquote)) (by decide)
  rw [hbefore, reverse_append, reverse_singleton, append_assoc, singleton_append, takeComments]
  simp only [hlast line hline, hne, Bool.false_eq_true, if_false]

/-- The comments of a declaration, as they are found above its header. -/
def Declaration.commentBlocks (d : Declaration) : List CommentBlock :=
  d.comments.toList.map fun t => ⟨t, d.kind, d.name, d.isExtend⟩

theorem Declaration.Legible.exists_commentLines (h : d.Legible) :
    ∃ cs : List Text, (∀ c ∈ cs, c.IsComment) ∧
      (given d.comments).flatMap (· ++ ['\n']) = cs.flatMap (· ++ ['\n']) ∧
      ∀ above, takeComments above = cs.reverse → d.foundBelow above = d.commentBlocks := by
  cases hd : d.comments with
  | none =>
    refine ⟨[], forall_mem_nil _, rfl, fun above htake => ?_⟩
    rw [Declaration.foundBelow, commentBlock?, htake, Declaration.commentBlocks, hd]
    rfl
  | some t =>
    obtain ⟨hcs, hjoin, hne⟩ := (h.comments t hd).lines
    refine ⟨t.lines, hcs, ?_, fun above htake => ?_⟩
    · rw [given_of_ne_nil hne, flatMap_singleton, ← ofLines_append_newline (lines_ne_nil t),
        ofLines_lines]
    · obtain ⟨c, cs, hrev⟩ := exists_cons_of_ne_nil (mt reverse_eq_nil_iff.mp (lines_ne_nil t))
      rw [Declaration.foundBelow, commentBlock?, htake, hrev, Declaration.commentBlocks, hd]
      change [CommentBlock.mk (Text.ofLines (c :: cs).reverse) d.kind d.name d.isExtend] = _
      rw [← hrev, reverse_reverse, hjoin]
      rfl

/-- **The lines of a declaration in writing.**  If no comments stand above them, those found are the
comments of the declaration, and the last line is no comment. -/
theorem exists_rows_render (h : d.Legible) (hl : l.separator = ", ".toList) :
    ∃ found, Rows 0 0 (d.render l) found ∧
      (∀ above, takeComments above = [] → found above = d.commentBlocks) ∧
      ∀ above, takeComments ((d.render l).lines.reverse ++ above) = [] := by
  obtain ⟨cs, hcs, hgiven, hfound⟩ := h.exists_commentLines
  obtain ⟨hcore, hlast⟩ := rows_core h l
  have hdescription : given d.description = d.description.toList := by
    cases hd : d.description with
    | none => rfl
    | some t => exact given_of_ne_nil (h.description t hd).1.ne_nil
  have hrender : d.render l = (d.description.toList ++ cs).flatMap (· ++ ['\n']) ++ d.core l := by
    rw [h.render_eq hl, hgiven, hdescription, flatMap_append, append_assoc]
  have habove : ∀ t ∈ d.description.toList ++ cs, Rows 0 0 t fun _ => [] := by
    intro t ht
    rcases mem_append.mp ht with ht | ht
    · have ht := (h.description t (Option.mem_toList.mp ht)).1
      exact @Entry.rows 0 [] false (.literal t) ht (forall_mem_nil _) (by rintro - f ⟨⟩)
    · exact @Entry.rows 0 [] false (.comment t) (hcs t ht) (forall_mem_nil _) (by rintro - f ⟨⟩)
  have hlines : cs.flatMap Text.lines = cs := by
    rw [flatMap_congr fun c hc => lines_of_not_mem (hcs c hc).line]
    simp
  refine ⟨_, hrender ▸ hcore.below habove, fun above hnil => hfound _ ?_, fun above => ?_⟩
  · rw [flatMap_append, hlines, reverse_append, append_assoc,
      takeComments_append fun c hc => hcs c (mem_reverse.mp hc)]
    refine (congrArg _ ?_).trans (append_nil _)
    cases hd : d.description with
    | none => exact hnil
    | some t =>
      obtain ⟨ht, hend⟩ := h.description t hd
      simpa using takeComments_description ht hend above
  · rw [hrender, lines_flatMap, reverse_append, append_assoc]
    exact hlast _

end Declarations

end Schemata
