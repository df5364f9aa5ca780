import Schemata.Proofs.Writing

/-!
# Every line has its state

The states of lines are counted on the way through the lexemes of a text, the lines themselves at
its line breaks.  The two agree: each line break stands in one lexeme, which is a literal or the
line break itself, and the line after it starts in the state that this lexeme and those before it
leave.

## Main results

* `exists_lexeme` — every character of a text belongs to a lexeme.
* `lineStates_at_breaks` — **each line has one state, which is that of the line break before it.**
-/

namespace Schemata

open List

variable {depth : Nat} {before rest t : Text} {ls : List Lexeme} {states : List LineState}

theorem allClosed_of_lineStates (h : Lexeme.lineStates depth ls = .ok states) : AllClosed ls := by
  fun_induction Lexeme.lineStates depth ls generalizing states with
  | case1 => exact .nil
  | case2 => cases h
  | case3 _ _ _ ih | case6 _ _ _ _ ih => exact .cons (by simp) (ih h)
  | case4 _ _ _ ih | case5 _ _ _ _ ih =>
    obtain ⟨ss, hs, -⟩ := map_eq_ok h
    exact .cons (by simp) (ih hs)

theorem exists_lexeme {c : Char} (h : raw ls = before ++ c :: rest) :
    ∃ p l q u v, ls = p ++ l :: q ∧ l.text = u ++ c :: v ∧ before = raw p ++ u := by
  induction ls generalizing before with
  | nil => simp at h
  | cons l ls ih =>
    rw [raw_cons] at h
    -- the character stands after the first lexeme or in it
    rcases append_eq_append_iff.mp h with ⟨b, rfl, hb⟩ | ⟨_ | ⟨d, v⟩, hl, hv⟩
    · obtain ⟨p, m, q, u, v, rfl, hm, rfl⟩ := ih hb
      exact ⟨l :: p, m, q, u, v, rfl, hm, by rw [raw_cons, append_assoc]⟩
    · obtain ⟨p, m, q, u, v, rfl, hm, hu⟩ := @ih [] hv.symm
      refine ⟨l :: p, m, q, u, v, rfl, hm, ?_⟩
      rw [raw_cons, append_assoc, ← hu, hl, append_nil, append_nil]
    · cases hv
      exact ⟨[], l, ls, before, v, rfl, hl, rfl⟩

/-- The lines that start in a lexeme start at the depth before it, and in a literal if it is one. -/
theorem exists_passesLines {l : Lexeme} {u v : Text} (hl : l.text = u ++ '\n' :: v)
    (hclosed : ∀ s, l ≠ .unclosed s) (hcomment : ∀ s, l = .comment s → '\n' ∉ s) (depth : Nat) :
    ∃ after, PassesLines (fun s => s.depth = depth ∧
      (s.inString = true ↔ ∃ x, l = .literal x)) depth after [l] := by
  cases l with
  | unclosed s => exact absurd rfl (hclosed s)
  | comment s =>
    refine absurd ?_ (hcomment s rfl)
    rw [show s = _ from hl]
    simp
  | literal s => exact ⟨depth, .literal (by simp) s⟩
  | char c =>
    obtain rfl : c = '\n' := by
      cases u with
      | nil => exact (List.cons.inj hl).1
      | cons d u => simp [Lexeme.text] at hl
    exact ⟨depth, .newline (by simp)⟩

/-- The line after a line break of `t`, with `before` in front of the break, starts in the state
`s`: it says whether the lexeme of the break is a literal, and how many braces are open after the
lexemes before that one.  Braces in literals and comments do not count, and the number does not fall
below zero. -/
def StartsIn (t before : Text) (s : LineState) : Prop :=
  ∃ p l q u v, lex true t = p ++ l :: q ∧ l.text = u ++ '\n' :: v ∧ before = raw p ++ u ∧
    finalDepth 0 p = some s.depth ∧ (s.inString = true ↔ ∃ x, l = .literal x)

theorem length_of_lineStates (h : lineStates t = .ok states) : states.length = t.lines.length := by
  obtain ⟨ss, hss, rfl⟩ := map_eq_ok h
  obtain ⟨after, hafter⟩ := exists_finalDepth_iff.mpr (allClosed_of_lineStates hss)
  obtain ⟨ss', -, hlen, hpass⟩ :=
    passesLines_of_finalDepth (fun c hc => newline_not_mem_comment hc) hafter
  obtain rfl := ok_unique hss (lineStates_of_forall hpass)
  rw [length_lines, length_cons, hlen, raw_lex]

theorem exists_startsIn (h : lineStates t = .ok states) (ht : t = before ++ '\n' :: rest) :
    ∃ s, states[before.lines.length]? = some s ∧ StartsIn t before s := by
  obtain ⟨ss, hss, rfl⟩ := map_eq_ok h
  have hclosed := allClosed_of_lineStates hss
  have hcomments : ∀ c, Lexeme.comment c ∈ lex true t → '\n' ∉ c :=
    fun c hc => newline_not_mem_comment hc
  obtain ⟨p, l, q, u, v, hlex, htext, hbefore⟩ := exists_lexeme ((raw_lex true t).trans ht)
  rw [hlex] at hclosed hcomments hss
  obtain ⟨hp, hl⟩ := allClosed_append.mp hclosed
  obtain ⟨d, hd⟩ := exists_finalDepth_iff.mpr hp
  -- the states are those of the lexemes before the one with the break, its own, and those after it
  obtain ⟨sp, -, hlen, hpass⟩ :=
    passesLines_of_finalDepth (fun c hc => hcomments c (mem_append_left _ hc)) hd
  obtain ⟨e, sl, hstate, hlen', hpass'⟩ := exists_passesLines htext (allClosed_cons.mp hl).1
    (fun c hc => hcomments c (by simp [hc])) d
  rw [hpass, ← singleton_append, hpass'] at hss
  obtain ⟨_, hq, rfl⟩ := map_eq_ok hss
  obtain ⟨sq, -, rfl⟩ := map_eq_ok hq
  have hu : u.count '\n' < sl.length := by
    rw [hlen', raw_cons, raw_nil, append_nil, htext, count_append, count_cons_self]
    omega
  obtain ⟨hdepth, hstring⟩ := hstate _ (getElem_mem hu)
  refine ⟨_, ?_, p, l, q, u, v, hlex, htext, hbefore, hdepth ▸ hd, hstring⟩
  rw [length_lines, getElem?_cons_succ, hbefore, count_append, ← hlen,
    getElem?_append_right (Nat.le_add_right _ _), Nat.add_sub_cancel_left, getElem?_append_left hu,
    getElem?_eq_getElem hu]

/-- **Each line has one state, which is that of the line break before it.**  The first line starts
with nothing open.  So no state is made up where annotations are taken out and where comments are
found. -/
theorem lineStates_at_breaks (h : lineStates t = .ok states) :
    states.length = t.lines.length ∧ states.head? = some ⟨0, false⟩ ∧
    (∀ before rest, t = before ++ '\n' :: rest →
      ∃ s, states[before.lines.length]? = some s ∧ StartsIn t before s) ∧
    linesWithStates t = .ok (t.lines.zip states) ∧
    extract t = (do
      let e ← collect [] none (sections (t.lines.zip states))
      Report.tell (.annotationsExtracted e.annotations.length)
      return e) ∧
    locateComments t = (do
      let blocks ← Report.ofExcept (commentBlocks [] (t.lines.zip states))
      Report.tell (.commentsLocated blocks.length)
      return blocks) := by
  have hlength := length_of_lineStates h
  have hrows : linesWithStates t = .ok (t.lines.zip states) := by
    rewrite [linesWithStates, h, ← attachStates_eq_zip hlength.ge]
    rfl
  refine ⟨hlength, ?_, fun before rest ht => exists_startsIn h ht, hrows, ?_, ?_⟩
  · obtain ⟨ss, -, rfl⟩ := map_eq_ok h
    rfl
  · rewrite [extract, hrows]
    rfl
  · rewrite [locateComments, hrows]
    rfl

/-- A description over two lines, a comment, and a text with a line break behind a backslash; each
has a brace. -/
def brokenLiterals : Text :=
  Text.ofLines ["type A \x7b".toList, "\"\"\"\x7b".toList, "\"\"\" # \x7d".toList,
    "b: \"\x7d\\".toList, "\" \x7d\x7d".toList, "\x7d".toList]

theorem lineStates_at_breaks_brokenLiterals :
    lineStates brokenLiterals = .ok [⟨0, false⟩, ⟨1, false⟩, ⟨1, true⟩, ⟨1, false⟩, ⟨1, true⟩,
      ⟨0, false⟩] ∧
      ∃ p x q, lex true brokenLiterals = p ++ .literal x :: q ∧ finalDepth 0 p = some 1 := by
  have h : lineStates brokenLiterals =
      .ok [⟨0, false⟩, ⟨1, false⟩, ⟨1, true⟩, ⟨1, false⟩, ⟨1, true⟩, ⟨0, false⟩] := by
    decide +kernel
  -- the line break in the description
  have ht : brokenLiterals = brokenLiterals.take 13 ++ '\n' :: brokenLiterals.drop 14 := by
    decide +kernel
  obtain ⟨s, hs, p, l, q, u, v, hlex, -, -, hdepth, hstring⟩ :=
    (lineStates_at_breaks h).2.2.1 _ _ ht
  cases hs
  obtain ⟨x, rfl⟩ := hstring.mp rfl
  exact ⟨h, p, x, q, hlex, hdepth⟩

end Schemata
