import Schemata.Annotation.Extract
import Schemata.CommentBlock
import Schemata.Proofs.Fragments

/-!
# Lines of a schema in writing

Annotations, definitions of directives and comments are found line by line, each line with the
number of braces that are open at its start and whether it starts inside of a literal.  A schema in
writing is a row of lines, literals of several lines counted as one; what is open at the start of
each follows from what stands before it.

## Main results

* `linesFrom_append` — a text and what follows its line break are cut into lines one by one.
* `commentBlocks_cons` — the comments above headers, from row to row.
-/

namespace Schemata

open List

variable {c : Char} {r : Text × LineState} {ss : List LineState} {t : Text}

/-! ### Lines and their states -/

/-- The lines of a text at the start of which `depth` braces are open, each with its state. -/
def linesFrom (depth : Nat) (t : Text) : Except SchemaError (List (Text × LineState)) :=
  (fun states => attachStates t.lines (⟨depth, false⟩ :: states)) <$>
    Lexeme.lineStates depth (lex true t)

theorem linesWithStates_eq (t : Text) : linesWithStates t = linesFrom 0 t := by
  unfold linesWithStates lineStates linesFrom
  cases Lexeme.lineStates 0 (lex true t) <;> rfl

/-- The lexemes come with the states of the lines that start inside of them, all of which satisfy
`p`, and lead from a depth to another. -/
def PassesLines (p : LineState → Prop) (depth after : Nat) (ls : List Lexeme) : Prop :=
  ∃ states : List LineState, (∀ s ∈ states, p s) ∧ states.length = (raw ls).count '\n' ∧
    ∀ ms, Lexeme.lineStates depth (ls ++ ms) = (states ++ ·) <$> Lexeme.lineStates after ms

namespace PassesLines

variable {p : LineState → Prop} {depth after last : Nat} {ls ms : List Lexeme}

theorem nil : PassesLines p depth depth [] := by
  refine ⟨[], forall_mem_nil _, rfl, ?_⟩
  intro ms
  rw [nil_append]
  cases Lexeme.lineStates depth ms <;> rfl

theorem append (h : PassesLines p depth after ls) (h' : PassesLines p after last ms) :
    PassesLines p depth last (ls ++ ms) := by
  obtain ⟨ss, hp, hlen, hss⟩ := h
  obtain ⟨ss', hp', hlen', hss'⟩ := h'
  refine ⟨ss ++ ss', ?_, ?_, ?_⟩
  · intro s hs
    rcases mem_append.mp hs with hs | hs
    · exact hp s hs
    · exact hp' s hs
  · rw [length_append, hlen, hlen', raw_append, count_append]
  · intro ns
    rw [append_assoc, hss, hss']
    cases Lexeme.lineStates last ns <;> simp [Functor.map, Except.map]

theorem literal (hp : p ⟨depth, true⟩) (t : Text) : PassesLines p depth depth [.literal t] := by
  refine ⟨List.replicate (t.count '\n') ⟨depth, true⟩, ?_, ?_, fun ms => rfl⟩
  · intro s hs
    rw [eq_of_mem_replicate hs]
    exact hp
  · rw [length_replicate, raw_cons, raw_nil, append_nil, Lexeme.text]

theorem comment (h : '\n' ∉ t) : PassesLines p depth depth [.comment t] := by
  refine ⟨[], forall_mem_nil _, ?_, ?_⟩
  · rw [raw_cons, raw_nil, append_nil, Lexeme.text, count_eq_zero_of_not_mem h]
    rfl
  · intro ms
    rw [singleton_append, Lexeme.lineStates]
    cases Lexeme.lineStates depth ms <;> rfl

theorem char (h : c ≠ '\n') : PassesLines p depth (bracesAfter depth c) [.char c] := by
  refine ⟨[], forall_mem_nil _, ?_, ?_⟩
  · rw [raw_cons, raw_nil, append_nil, Lexeme.text]
    simp [h]
  · intro ms
    rw [singleton_append, Lexeme.lineStates, if_neg (by simpa using h)]
    cases Lexeme.lineStates (bracesAfter depth c) ms <;> rfl

theorem newline (hp : p ⟨depth, false⟩) : PassesLines p depth depth [.char '\n'] := by
  refine ⟨[⟨depth, false⟩], forall_mem_cons.mpr ⟨hp, forall_mem_nil _⟩, rfl, ?_⟩
  intro ms
  rw [singleton_append, Lexeme.lineStates, if_pos (beq_self_eq_true _)]
  rfl

end PassesLines

theorem lineStates_of_forall {depth after : Nat} {ls : List Lexeme}
    (h : ∀ ms, Lexeme.lineStates depth (ls ++ ms) = (ss ++ ·) <$> Lexeme.lineStates after ms) :
    Lexeme.lineStates depth ls = .ok ss := by
  have hnil := h []
  rw [append_nil] at hnil
  rw [hnil]
  exact congrArg Except.ok (append_nil ss)

/-! ### One line after another -/

theorem attachStates_append {ts us : List Text} {ss' : List LineState} (h : ts.length = ss.length) :
    attachStates (ts ++ us) (ss ++ ss') = attachStates ts ss ++ attachStates us ss' := by
  induction ts generalizing ss with
  | nil =>
    cases ss with
    | nil => rfl
    | cons s ss => cases h
  | cons t ts ih =>
    cases ss with
    | nil => cases h
    | cons s ss =>
      rw [cons_append, cons_append, attachStates, attachStates, ih (Nat.succ.inj h), cons_append]

theorem map_fst_attachStates (ts : List Text) (ss : List LineState) :
    (attachStates ts ss).map Prod.fst = ts := by
  fun_induction attachStates ts ss with
  | case1 => rfl
  | case2 t ts ih => rw [map_cons, ih]
  | case3 t ts s ss ih => rw [map_cons, ih]

theorem attachStates_eq_zip {ts : List Text} (h : ts.length ≤ ss.length) :
    attachStates ts ss = ts.zip ss := by
  fun_induction attachStates ts ss with
  | case1 => rfl
  | case2 => cases h
  | case3 t ts s ss ih => rw [zip_cons_cons, ih (Nat.le_of_succ_le_succ h)]

theorem mem_attachStates {ts : List Text} (h : ts.length ≤ ss.length)
    (hr : r ∈ attachStates ts ss) : r.2 ∈ ss := by
  rw [attachStates_eq_zip h] at hr
  exact (of_mem_zip hr).2

theorem lines_append (t u : Text) : Text.lines (t ++ '\n' :: u) = t.lines ++ Text.lines u := by
  induction t with
  | nil => rfl
  | cons c t ih =>
    have hrest : Text.splitBy (· == '\n') (t ++ '\n' :: u) =
        Text.splitBy (· == '\n') t ++ Text.splitBy (· == '\n') u := ih
    obtain ⟨l, ls, hls⟩ := exists_cons_of_ne_nil (splitBy_ne_nil (· == '\n') t)
    simp only [Text.lines, cons_append, Text.splitBy, hrest, hls]
    split <;> rfl

theorem length_lines (t : Text) : t.lines.length = t.count '\n' + 1 := by
  induction t with
  | nil => rfl
  | cons c t ih =>
    obtain ⟨l, ls, hls⟩ := exists_cons_of_ne_nil (splitBy_ne_nil (· == '\n') t)
    simp only [Text.lines, Text.splitBy, hls] at ih ⊢
    split
    · rename_i hc
      rw [length_cons, ih, beq_iff_eq.mp hc, count_cons_self]
    · rename_i hc
      have hne : c ≠ '\n' := by simpa using hc
      rw [count_cons_of_ne hne, ← ih]
      rfl

/-- **A text and what follows its line break** are cut into lines one after the other.  The first
line of the text starts outside of literals, and each further one in a state that satisfies `p`. -/
theorem linesFrom_append {p : LineState → Prop} {depth after : Nat} {ls : List Lexeme}
    (h : PassesLines p depth after ls) (hlex : ∀ u,
      lex true (t ++ '\n' :: u) = ls ++ .char '\n' :: lex true u) :
    ∃ (first : Text) (more : List (Text × LineState)), t.lines = first :: more.map Prod.fst ∧
      (∀ r ∈ more, p r.2) ∧ ∀ u, linesFrom depth (t ++ '\n' :: u) =
        (fun rows => (first, ⟨depth, false⟩) :: more ++ rows) <$> linesFrom after u := by
  obtain ⟨ss, hp, hlen, hss⟩ := h
  have hraw : raw ls = t := by
    have := raw_lex true (t ++ ['\n'])
    rw [hlex [], raw_append, lex] at this
    exact append_cancel_right this
  obtain ⟨first, rest, hlines⟩ := exists_cons_of_ne_nil (splitBy_ne_nil (· == '\n') t)
  have hlines : t.lines = first :: rest := hlines
  have hcount : rest.length = ss.length := by
    have := length_lines t
    rw [hlines, length_cons, ← hraw, ← hlen] at this
    omega
  refine ⟨first, attachStates rest ss, ?_, ?_, ?_⟩
  · rw [hlines, map_fst_attachStates]
  · intro r hr
    exact hp _ (mem_attachStates hcount.le hr)
  · intro u
    rw [linesFrom, hlex u, hss, Lexeme.lineStates, if_pos (beq_self_eq_true _), linesFrom,
      lines_append, hlines]
    cases Lexeme.lineStates after (lex true u) with
    | error e => rfl
    | ok states =>
      have hsplit := @attachStates_append ss rest (Text.lines u) (⟨after, false⟩ :: states) hcount
      simp only [Functor.map, Except.map, cons_append, attachStates, hsplit]

/-- The text is made of whole lines: these rows, and the depth after them is `after`. -/
def LinesOf (depth after : Nat) (t : Text) (rows : List (Text × LineState)) : Prop :=
  ∀ u, linesFrom depth (t ++ u) = (rows ++ ·) <$> linesFrom after u

/-! ### Rows without annotations -/

/-- The row is neither an annotation nor the definition of a directive. -/
def Unmarked (r : Text × LineState) : Prop :=
  r.2.inString = true ∨
    ((r.2.depth = 0 → directiveName? r.1.trim = none) ∧ Mark.ofLine? r.1.trim = none)

/-- The header that a row holds, if it is outside of blocks and literals. -/
def rowHeader (r : Text × LineState) : Except SchemaError (Option Header) :=
  if r.2.depth == 0 && !r.2.inString then Header.read r.1 else pure none

theorem takeKeyword_eq_none (hc : isNameChar c = false) (t : Text) :
    takeKeyword (c :: t) = none := by
  rw [takeKeyword, findSome?_eq_none_iff]
  intro k hk
  obtain ⟨d, ds, hds, hd, -⟩ := isName_iff.mp (isName_keyword k hk)
  have hne : (d == c) = false := beq_of_class (isNameChar_of_isNameStart hd) hc
  rw [hds, Text.after?, hne]
  rfl

theorem Header.read_eq_none {pad : Text} (hpad : ∀ c ∈ pad, isBlank c) (hblank : isBlank c = false)
    (hc : isNameChar c = false) (t : Text) : Header.read (pad ++ c :: t) = .ok none := by
  have hstart : Text.trimStart (pad ++ c :: t) = c :: t := by
    rw [trimStart_blank_append hpad, trimStart_cons hblank]
  have hdrop : dropExtend? (c :: t) = none := by
    have hne : ('e' == c) = false := @beq_of_class isNameChar 'e' c rfl hc
    have : Text.after? "extend".toList (c :: t) = none := by
      change Text.after? ('e' :: "xtend".toList) (c :: t) = none
      rw [Text.after?, hne]
      rfl
    rw [dropExtend?, this]
    rfl
  have htake : takeKind (pad ++ c :: t) = none := by
    simp only [takeKind, hstart, hdrop, Option.bind_none, takeKeyword_eq_none hc, Option.map_none]
  rw [Header.read, htake]
  rfl

theorem trim_append_cons {pad : Text} (hpad : ∀ c ∈ pad, isBlank c) (hblank : isBlank c = false)
    (t : Text) : ∃ u, Text.trim (pad ++ c :: t) = c :: u := by
  have hstart : Text.trimStart (pad ++ c :: t) = c :: t := by
    rw [trimStart_blank_append hpad, trimStart_cons hblank]
  obtain ⟨v, hv⟩ := dropEndWhile_isPrefix isBlank (c :: t)
  have htrim : Text.trim (pad ++ c :: t) = Text.dropEndWhile isBlank (c :: t) := by
    rw [Text.trim, hstart]
    rfl
  cases hd : Text.dropEndWhile isBlank (c :: t) with
  | nil =>
    rw [hd, trim_eq_nil_iff] at htrim
    rw [htrim c (by simp)] at hblank
    cases hblank
  | cons e u =>
    rw [hd, cons_append, List.cons.injEq] at hv
    exact ⟨u, by rw [htrim, hd, hv.1]⟩

theorem rowHeader_of_inString (h : r.2.inString) : rowHeader r = .ok none := by
  simp only [rowHeader, h, Bool.not_true, Bool.and_false, Bool.false_eq_true, if_false]
  rfl

theorem lines_append_cons {s : Text} (hs : '\n' ∉ s) {first : Text} {rest : List Text}
    (h : t.lines = first :: rest) : Text.lines (s ++ t) = (s ++ first) :: rest := by
  induction s with
  | nil => exact h
  | cons c s ih =>
    obtain ⟨hc, hs⟩ : '\n' ≠ c ∧ '\n' ∉ s := by simpa using hs
    have hne : (c == '\n') = false := by simpa using hc.symm
    have hrest : Text.splitBy (· == '\n') (s ++ t) = (s ++ first) :: rest := ih hs
    rw [Text.lines, cons_append, Text.splitBy, hne, if_neg Bool.false_ne_true, hrest]
    rfl

/-! ### Lines put together -/

theorem ofLines_lines (t : Text) : Text.ofLines t.lines = t := by
  induction t with
  | nil => rfl
  | cons c t ih =>
    obtain ⟨l, ls, hls⟩ := exists_cons_of_ne_nil (splitBy_ne_nil (· == '\n') t)
    have hrest : Text.ofLines (l :: ls) = t := by
      rw [← hls]
      exact ih
    simp only [Text.lines, Text.splitBy, hls]
    split
    · rename_i hc
      rw [ofLines_cons (cons_ne_nil _ _), hrest, beq_iff_eq.mp hc]
      rfl
    · rw [← hrest]
      cases ls <;> simp [Text.ofLines]

theorem lines_ne_nil (t : Text) : t.lines ≠ [] :=
  splitBy_ne_nil _ t

/-! ### Comments above a header -/

theorem commentBlocks_cons {header : Option Header} (h : rowHeader r = .ok header)
    (above : List Text) (rest : List (Text × LineState)) :
    commentBlocks above (r :: rest) =
      ((header.bind (commentBlock? above)).toList ++ ·) <$> commentBlocks (r.1 :: above) rest := by
  obtain ⟨line, state⟩ := r
  rw [commentBlocks]
  by_cases hstart : (state.depth == 0 && !state.inString)
  · have hread : Header.read line = .ok header := by
      rw [← h, rowHeader, if_pos hstart]
    rw [if_pos hstart, hread]
    rfl
  · have hnone : header = none := by
      rw [rowHeader, if_neg hstart] at h
      exact (Except.ok.inj h).symm
    rw [if_neg hstart, hnone]
    rfl

theorem exists_getLast_lines (h : t.getLast? = some c) (hc : c ≠ '\n') :
    ∃ line, t.lines.getLast? = some line ∧ line.getLast? = some c := by
  induction t with
  | nil => cases h
  | cons x t ih =>
    cases t with
    | nil =>
      obtain rfl : x = c := by simpa using h
      exact ⟨[x], by rw [lines_of_not_mem (by simpa using hc.symm)]; rfl, rfl⟩
    | cons y t =>
      obtain ⟨line, hline, hend⟩ := ih (by simpa using h)
      by_cases hx : x = '\n'
      · have hlines : Text.lines (x :: y :: t) = [] :: Text.lines (y :: t) := by
          rw [hx]
          exact lines_append [] (y :: t)
        exact ⟨line, by rw [hlines, getLast?_cons, hline]; rfl, hend⟩
      · obtain ⟨l, ls, hls⟩ := exists_cons_of_ne_nil (lines_ne_nil (y :: t))
        have hlines : Text.lines ([x] ++ y :: t) = ([x] ++ l) :: ls :=
          lines_append_cons (by simpa using Ne.symm hx) hls
        -- the character joins the last line only if there is no other
        cases ls with
        | nil =>
          obtain rfl : l = line := by simpa [hls] using hline
          rw [singleton_append] at hlines
          exact ⟨[x] ++ l, by rw [hlines]; rfl, by rw [getLast?_append, hend]; rfl⟩
        | cons l' ls =>
          rw [hls, getLast?_cons_cons] at hline
          rw [singleton_append] at hlines
          exact ⟨line, by rw [hlines, getLast?_cons_cons, hline], hend⟩

end Schemata
