import Schemata.Proofs.BareStatements

/-!
# Schemas without their comments
-/

namespace Schemata

open List

/-! ### The statements of a schema -/

/-- The texts that the reading of a schema reads statements from, each up to the end of the
schema. -/
def statementTexts : Text → List Text
  | [] => []
  | c :: cs =>
      if isBlank c || c == ',' then statementTexts cs
      else if c == '#' then statementTexts (cs.dropWhile (· != '\n'))
      else if c == '"' then
        match _h : Text.takeLiteral (c :: cs) with
        | some (_, rest) => statementTexts rest
        | none => []
      else
        (c :: cs) :: match _h : Statement.read (c :: cs) with
        | .ok (_, rest) => statementTexts rest
        | .error _ => []
termination_by t => t.length
decreasing_by
  · simp
  · have := (cs.dropWhile_sublist (· != '\n')).length_le
    simp only [length_cons]
    omega
  · exact Text.takeLiteral_length _h
  · exact (Statement.read_suffix _h).2

theorem scanFrom_blank {c : Char} (h : (isBlank c || c == ',')) (d : Option Text) (cs : Text) :
    scanFrom d (c :: cs) = scanFrom d cs := by
  rw [scanFrom, if_pos h]

theorem scanFrom_blanks {t : Text} (h : ∀ c ∈ t, isBlank c) (d : Option Text) :
    scanFrom d t = {} := by
  induction t with
  | nil => rw [scanFrom]
  | cons c cs ih =>
    obtain ⟨hc, hcs⟩ := forall_mem_cons.mp h
    rw [scanFrom_blank (by rw [hc, Bool.true_or]), ih hcs]

/-- What a schema declares, with its comments and without them. -/
structure SameScan (x y : Scan) : Prop where
  fragments : y.fragments = x.fragments.map Fragment.withoutComments
  failure : y.failure.isSome = x.failure.isSome

theorem SameScan.add {x y : Scan} (h : SameScan x y) (d : Option Text) {a b : Statement}
    {t u : Text} (hs : SameStatement (a, t) (b, u)) : SameScan (x.add d a) (y.add d b) := by
  cases hs with
  | declared _ => exact ⟨by simp [Scan.add, h.fragments, Fragment.withoutComments], h.failure⟩
  | skipped _ _ _ => exact ⟨h.fragments, h.failure⟩

/-- A character that a statement may start with. -/
def startsStatement (c : Char) : Bool :=
  !(isBlank c || c == ',' || c == '#' || c == '"')

section Steps

variable {c : Char} {cs rest : Text} (d : Option Text)

theorem startsStatement_of_not (hc : ¬(isBlank c || c == ',')) (hhash : ¬(c == '#'))
    (hquote : ¬(c == '"')) : startsStatement c := by
  rw [Bool.not_eq_true] at hc hhash hquote
  rw [startsStatement, hc, hhash, hquote]
  rfl

theorem scanFrom_hash : scanFrom d ('#' :: cs) = scanFrom d (cs.dropWhile (· != '\n')) := by
  rw [scanFrom, if_neg (by decide), if_pos (by decide)]

theorem scanFrom_quote {literal : Text} (h : Text.takeLiteral ('"' :: cs) = some (literal, rest)) :
    scanFrom d ('"' :: cs) = scanFrom (some literal) rest := by
  rw [scanFrom, if_neg (by decide), if_neg (by decide), if_pos (by decide)]
  split
  · rename_i heq
    rw [h] at heq
    cases heq
    rfl
  · rename_i heq
    rw [h] at heq
    cases heq

theorem scanFrom_statement (hc : startsStatement c) :
    scanFrom d (c :: cs) = match Statement.read (c :: cs) with
      | .ok (s, rest) => (scanFrom none rest).add d s
      | .error e => { failure := some e } := by
  simp only [startsStatement, Bool.not_eq_true', Bool.or_eq_false_iff] at hc
  obtain ⟨⟨⟨hblank, hcomma⟩, hhash⟩, hquote⟩ := hc
  rw [scanFrom, hblank, hcomma, hhash, hquote, if_neg (by decide), if_neg (by decide),
    if_neg (by decide)]
  split
  · rename_i heq
    rw [heq]
  · rename_i heq
    rw [heq]

theorem statementTexts_blank (h : (isBlank c || c == ',')) :
    statementTexts (c :: cs) = statementTexts cs := by
  rw [statementTexts, if_pos h]

theorem statementTexts_hash :
    statementTexts ('#' :: cs) = statementTexts (cs.dropWhile (· != '\n')) := by
  rw [statementTexts, if_neg (by decide), if_pos (by decide)]

theorem statementTexts_quote {literal : Text}
    (h : Text.takeLiteral ('"' :: cs) = some (literal, rest)) :
    statementTexts ('"' :: cs) = statementTexts rest := by
  rw [statementTexts, if_neg (by decide), if_neg (by decide), if_pos (by decide)]
  split
  · rename_i heq
    rw [h] at heq
    cases heq
    rfl
  · rename_i heq
    rw [h] at heq
    cases heq

theorem statementTexts_statement (hc : startsStatement c) :
    statementTexts (c :: cs) = (c :: cs) :: match Statement.read (c :: cs) with
      | .ok (_, rest) => statementTexts rest
      | .error _ => [] := by
  simp only [startsStatement, Bool.not_eq_true', Bool.or_eq_false_iff] at hc
  obtain ⟨⟨⟨hblank, hcomma⟩, hhash⟩, hquote⟩ := hc
  rw [statementTexts, hblank, hcomma, hhash, hquote, if_neg (by decide), if_neg (by decide),
    if_neg (by decide)]
  congr 1
  split
  · rename_i heq
    rw [heq]
  · rename_i heq
    rw [heq]

end Steps

/-- A statement of a schema, if what follows it declares the same without comments. -/
theorem SameScan.statement {c : Char} {cs cs' : Text} (hc : startsStatement c)
    (hread : Alike SameStatement (Statement.read (c :: cs)) (Statement.read (c :: cs')))
    (hrest : ∀ s ms, Statement.read (c :: cs) = .ok (s, raw ms) → Lexed ms →
      SameScan (scanFrom none (raw ms)) (scanFrom none (raw (bare ms)))) (d : Option Text) :
    SameScan (scanFrom d (c :: cs)) (scanFrom d (c :: cs')) := by
  rw [scanFrom_statement d hc, scanFrom_statement d hc]
  generalize Statement.read (c :: cs) = x at hread hrest
  generalize Statement.read (c :: cs') = y at hread
  cases hread with
  | error e e' => exact ⟨rfl, rfl⟩
  | @ok a b related =>
    obtain ⟨a, t⟩ := a
    obtain ⟨b, u⟩ := b
    obtain ⟨ms, hms, rfl, hu⟩ := related.rests
    -- white space at the end of a schema declares nothing
    have hsame : scanFrom none u = scanFrom none (raw (bare ms)) := by
      rcases hu with rfl | ⟨rfl, hblank⟩
      · rfl
      · rw [scanFrom_blanks hblank, scanFrom]
    dsimp only
    rw [hsame]
    exact (hrest a ms rfl hms).add d related

/-- **A schema without comments** has the same fragments, without the comments in their bodies. -/
theorem Lexed.scanFrom_bare {ls : List Lexeme} (h : Lexed ls)
    (hapart : ∀ u ∈ statementTexts (raw ls), CommentsApart u) (d : Option Text) :
    SameScan (scanFrom d (raw ls)) (scanFrom d (raw (bare ls))) := by
  -- on the length of the text, since a statement may end anywhere
  induction hn : (raw ls).length using Nat.strong_induction_on generalizing ls d with
  | _ n ih =>
    have hbare := h.lexed_bare
    cases h with
    | nil =>
      rw [bare_nil, raw_nil, scanFrom]
      exact ⟨rfl, rfl⟩
    | @char c ls quote hash rest =>
      have hread := (Lexed.char quote hash rest).read_bare
      rw [bare_char, raw_char, raw_char] at hread ⊢
      rw [raw_char] at hapart hn
      by_cases hc : (isBlank c || c == ',')
      · rw [statementTexts_blank hc] at hapart
        rw [scanFrom_blank hc, scanFrom_blank hc]
        exact ih _ (by rw [← hn]; exact Nat.lt_succ_self _) rest hapart d rfl
      have hstart := startsStatement_of_not hc (mt beq_iff_eq.mp hash) (mt beq_iff_eq.mp quote)
      rw [statementTexts_statement hstart, forall_mem_cons] at hapart
      obtain ⟨hfirst, hlater⟩ := hapart
      refine .statement hstart (hread hfirst) (fun s ms hs hms => ?_) d
      rw [hs] at hlater
      exact ih _ (by rw [← hn]; exact (Statement.read_suffix hs).2) hms hlater none rfl
    | @literal body ls taken rest =>
      have htaken : Text.takeLiteral ('"' :: (body ++ raw (bare ls))) =
          some ('"' :: body, raw (bare ls)) := by
        rw [bare_literal] at hbare
        cases hbare with
        | literal taken _ => exact taken
      have hlength := Text.takeLiteral_length taken
      rw [bare_literal, raw_cons, raw_cons, Lexeme.text, cons_append, cons_append]
      rw [raw_cons, Lexeme.text, cons_append] at hapart hn
      rw [statementTexts_quote taken] at hapart
      rw [scanFrom_quote d taken, scanFrom_quote d htaken]
      exact ih _ (by rw [← hn]; exact hlength) rest hapart _ rfl
    | @comment t ls line ends rest =>
      have hdrop : (t ++ raw ls).dropWhile (· != '\n') = raw ls :=
        (@EndsLine.takeWhile [.comment t] ls (by simpa [Lexeme.text] using line) ends).2
      rw [bare_comment, raw_cons, Lexeme.text, cons_append, scanFrom_hash, hdrop]
      rw [raw_cons, Lexeme.text, cons_append] at hapart hn
      rw [statementTexts_hash, hdrop] at hapart
      refine ih _ ?_ rest hapart d rfl
      rw [← hn, length_cons, length_append]
      omega

theorem SameScan.readFragments {t s : Text} (h : SameScan (scan t) (scan s)) :
    (readFragments s).outcome.toOption =
      (readFragments t).outcome.toOption.map (List.map Fragment.withoutComments) := by
  obtain ⟨hfragments, hfailure⟩ := h
  unfold Schemata.readFragments
  cases ht : (scan t).failure with
  | none =>
    rw [ht, Option.isSome_none, Option.isSome_eq_false_iff, Option.isNone_iff_eq_none] at hfailure
    simp only [ht, hfailure, hfragments]
    rfl
  | some e =>
    rw [ht, Option.isSome_some, Option.isSome_iff_exists] at hfailure
    obtain ⟨e', he'⟩ := hfailure
    simp only [ht, he']
    rfl

/-- **Comments do not change what a schema declares.** -/
theorem readFragments_stripComments {t s : Text} (hs : stripComments t = .ok s)
    (hapart : ∀ u ∈ statementTexts t, CommentsApart u) :
    (readFragments s).outcome.toOption =
        (readFragments t).outcome.toOption.map (List.map Fragment.withoutComments) ∧
      ∀ fs, (readFragments s).outcome = .ok fs → fs.map Fragment.withoutComments = fs := by
  obtain ⟨hlexed, rfl⟩ := stripComments_eq_ok_iff.mp hs
  have hread : (readFragments (raw (bare (lex true t)))).outcome.toOption =
      (readFragments t).outcome.toOption.map (List.map Fragment.withoutComments) := by
    rw [← raw_lex true t] at hapart
    have hsame := hlexed.scanFrom_bare hapart none
    rw [raw_lex] at hsame
    exact hsame.readFragments
  refine ⟨hread, ?_⟩
  intro fs hfs
  rw [hfs] at hread
  obtain ⟨gs, -, rfl⟩ := Option.map_eq_some_iff.mp hread.symm
  rw [List.map_map]
  exact List.map_congr_left fun f _ => f.withoutComments_withoutComments

/-- A schema with comments before its declarations, inside of them and behind them. -/
def commented : Text :=
  ("type User \x7b # \"open\n" ++
    "  id: ID # key\n" ++
    "  # more\n" ++
    "\x7d\n" ++
    "extend type User @a\n" ++
    "# days\n" ++
    "scalar Date # UTC").toList

theorem readFragments_stripComments_commented :
    (∀ u ∈ statementTexts commented, CommentsApart u) ∧
      (readFragments commented).outcome.toOption.map (List.map Fragment.items) =
        some [["# \"open".toList, "id: ID # key".toList, "# more".toList], [], []] ∧
      ∃ s, stripComments commented = .ok s ∧
        (readFragments s).outcome.toOption =
          (readFragments commented).outcome.toOption.map (List.map Fragment.withoutComments) ∧
        ∀ fs, (readFragments s).outcome = .ok fs → fs.map Fragment.withoutComments = fs := by
  have hapart : ∀ u ∈ statementTexts commented, CommentsApart u := by decide +kernel
  have hok : (stripComments commented).isOk = true := by decide +kernel
  refine ⟨hapart, by decide +kernel, ?_⟩
  cases hs : stripComments commented with
  | error e =>
    rw [hs] at hok
    cases hok
  | ok s => exact ⟨s, rfl, readFragments_stripComments hs hapart⟩

/-- An extension without a body, with a comment between its directives. -/
def commentedExtension : Text :=
  "extend type Foo @a\n# note\n@b".toList

/-- An extension without a body ends at a comment, and goes on over the line break that is left of
it. -/
theorem not_declares_commentedExtension :
    ∃ s, stripComments commentedExtension = .ok s ∧
      (readFragments commentedExtension).outcome.toOption = none ∧
      (readFragments s).outcome.toOption =
        some [{ kind := .type, header := "type Foo @a @b".toList, isExtend := true }] := by
  refine ⟨"extend type Foo @a\n\n@b".toList, ?_, ?_, ?_⟩
  · decide +kernel
  · decide +kernel
  · decide +kernel

end Schemata
