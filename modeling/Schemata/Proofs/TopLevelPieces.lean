import Schemata.Proofs.Nesting

/-!
# The pieces of a text

A text is split at the separators that stand outside of its literals and brackets.  The count of
open brackets starts anew after every separator, and yet the pieces are those of one count that runs
through the whole text.  Only an opening bracket that is a separator itself makes a difference:
where the text is cut at it, it opens nothing.

## Main results

* `splitAt_joinWith_of_isPiece` — pieces that are joined are split again.
* `splitAt_marked` — splitting cuts at the separators outside of brackets and literals, and nowhere
  else.
* `splitAt_top_level` — **splitting undoes joining, and is one count of brackets.**
* `not_piecesAt_bracket` — the brackets that a text is cut at do not count.
-/

namespace Schemata

open List

/-! ### Pieces put together -/

theorem allClosed_of_isPiece {top : Char → Bool} {pending : List Char} {ls : List Lexeme}
    (h : isPiece top pending ls) : AllClosed ls := by
  fun_induction isPiece top pending ls with
  | case1 => exact .nil
  | case2 pending c ls hclose ih | case3 pending c ls hclose ih =>
    rw [Bool.and_eq_true] at h
    exact .cons (by simp) (ih h.2)
  | case4 pending t ls ih => exact .cons (by simp) (ih h)
  | case5 => cases h

/-- **Splitting undoes joining.** -/
theorem splitAt_joinWith_of_isPiece {ts : List Text} (hne : ts ≠ [])
    (h : ∀ t ∈ ts, t.trim = t ∧ isPiece (· != ',') [] (lex false t)) :
    splitAt (· == ',') (Text.joinWith ", ".toList ts) = .ok ts := by
  induction ts with
  | nil => exact absurd rfl hne
  | cons t ts ih =>
    obtain ⟨⟨htrim, hpiece⟩, hts⟩ := forall_mem_cons.mp h
    have htop : ∀ c, c != ',' → (c == ',') = false := by simp
    have hsplit := splitAt_of_isPiece htop hpiece
    rw [raw_lex, length_nil] at hsplit
    cases ts with
    | nil =>
      have hlast := hsplit []
      rw [append_nil] at hlast
      rw [joinWith_singleton, splitAt, hlast]
      simp [Lexeme.splitAt, Functor.map, Except.map, prependHead, htrim]
    | cons s ts =>
      obtain ⟨qs, hqs, hmap⟩ := map_eq_ok (ih (cons_ne_nil _ _) hts)
      obtain ⟨q, qs, rfl⟩ := exists_cons_of_ne_nil (Lexeme.splitAt_ne_nil hqs)
      have hcomma : Lexeme.splitAt (· == ',') 0 (.char ',' :: .char ' ' ::
          lex false (Text.joinWith ", ".toList (s :: ts))) = .ok ([] :: (' ' :: q) :: qs) := by
        rw [Lexeme.splitAt, if_pos (by decide), Lexeme.splitAt, if_neg (by decide),
          depthAfter_of_neither rfl rfl, hqs]
        rfl
      have hlex := lex_append_of_allClosed (allClosed_of_isPiece hpiece)
        (x := ", ".toList ++ Text.joinWith ", ".toList (s :: ts)) rfl (fun h => by cases h)
      rw [joinWith_cons_cons, append_assoc, splitAt, hlex,
        lex_append_chars (forall_mem_of_all rfl), hsplit]
      change List.map Text.trim <$> prependHead t <$>
        Lexeme.splitAt (· == ',') 0 (.char ',' :: .char ' ' ::
        lex false (Text.joinWith ", ".toList (s :: ts))) = _
      rw [hcomma, ← hmap]
      simp [Functor.map, Except.map, prependHead, htrim,
        trim_cons_of_isBlank (rfl : isBlank ' ' = true)]

/-! ### Levels -/

/-- The characters of lexemes, each with the number of brackets open before it, as `count` counts
them from `depth` on, and whether it belongs to a literal or a comment. -/
def marked (count : Nat → Char → Nat) : Nat → List Lexeme → List (Char × Nat × Bool)
  | _, [] => []
  | depth, .char c :: ls => (c, depth, false) :: marked count (count depth c) ls
  | depth, .literal t :: ls | depth, .comment t :: ls | depth, .unclosed t :: ls =>
      t.map (·, depth, true) ++ marked count depth ls

/-- What stands between the separators outside of brackets and literals, trimmed. -/
def piecesAt (count : Nat → Char → Nat) (separator : Char → Bool) (t : Text) : List Text :=
  ((marked count 0 (lex false t)).splitOnP fun p => separator p.1 && p.2 == (0, false)).map
    fun piece => Text.trim (piece.map Prod.fst)

/-- The number of open brackets after a character, where a separator outside of all brackets opens
none. -/
def depthBetween (separator : Char → Bool) (depth : Nat) (c : Char) : Nat :=
  if depth == 0 && separator c then 0 else depthAfter depth c

theorem map_fst_marked (count : Nat → Char → Nat) (depth : Nat) (ls : List Lexeme) :
    (marked count depth ls).map Prod.fst = raw ls := by
  fun_induction marked count depth ls with
  | case1 => rfl
  | case2 depth c ls ih => rw [map_cons, ih, raw_char]
  | case3 _ t _ ih | case4 _ t _ ih | case5 _ t _ ih => simp [ih, Lexeme.text, Function.comp_def]

theorem splitOnP_append {p : Char × Nat × Bool → Bool} {xs : List (Char × Nat × Bool)}
    (h : ∀ x ∈ xs, p x = false) (ys : List (Char × Nat × Bool)) :
    ((xs ++ ys).splitOnP p).map (map Prod.fst) =
      prependHead (xs.map Prod.fst) ((ys.splitOnP p).map (map Prod.fst)) := by
  obtain ⟨q, qs, hq⟩ := exists_cons_of_ne_nil (splitOnP_ne_nil p ys)
  suffices hsplit : (xs ++ ys).splitOnP p = (xs ++ q) :: qs by rw [hsplit, hq]; simp [prependHead]
  induction xs with
  | nil => exact hq
  | cons x xs ih =>
    obtain ⟨hx, hxs⟩ := forall_mem_cons.mp h
    rw [cons_append, splitOnP_cons_eq_if_modifyHead, if_neg (by simp [hx]), ih hxs]
    rfl

/-- **Splitting cuts at the separators outside of brackets and literals**, and nowhere else. -/
theorem splitAt_marked {separator : Char → Bool} {depth : Nat} {ls : List Lexeme} {ps : List Text}
    (h : Lexeme.splitAt separator depth ls = .ok ps) :
    ps = ((marked (depthBetween separator) depth ls).splitOnP
      fun p => separator p.1 && p.2 == (0, false)).map (map Prod.fst) := by
  fun_induction Lexeme.splitAt separator depth ls generalizing ps with
  | case1 =>
    cases h
    rw [marked, splitOnP_nil]
    rfl
  | case2 => cases h
  | case3 depth c ls hc ih =>
    obtain ⟨qs, hq, rfl⟩ := map_eq_ok h
    obtain ⟨rfl, hsep⟩ : depth = 0 ∧ separator c := by simpa using hc
    rw [marked, splitOnP_cons_eq_if_modifyHead, if_pos (by simp [hsep]), map_cons, depthBetween,
      if_pos hc, ← ih hq]
    rfl
  | case4 depth c ls hc ih =>
    obtain ⟨qs, hq, rfl⟩ := map_eq_ok h
    have hmark : ∀ x ∈ [(c, depth, false)], (separator x.1 && x.2 == (0, false)) = false := by
      simpa [and_comm] using hc
    rw [marked, depthBetween, if_neg hc, ih hq]
    exact (splitOnP_append hmark _).symm
  | case5 depth t ls ih | case6 depth t ls ih =>
    obtain ⟨qs, hq, rfl⟩ := map_eq_ok h
    rw [marked, splitOnP_append (by simp), ← ih hq]
    simp [Function.comp_def]

theorem depthBetween_eq {separator : Char → Bool} (h : ∀ c, isOpener c → separator c = false) :
    depthBetween separator = depthAfter := by
  funext depth c
  unfold depthBetween
  split_ifs with hc
  · obtain ⟨rfl, hsep⟩ : depth = 0 ∧ separator c := by simpa using hc
    have hopen : isOpener c = false := Bool.eq_false_iff.mpr fun ho => by simp [h c ho] at hsep
    simp [depthAfter, hopen]
  · rfl

/-- **Splitting undoes joining, and is one count of brackets.**  Trimmed texts with closed literals,
nested brackets and no comma outside of them are joined with commas and split again.  Every text
that is split is split at all of its separators outside of literals at depth zero, and nowhere else,
where the depth is counted through the whole text, does not fall below zero, and leaves out the
brackets that the text is cut at: none if no opening bracket is a separator. -/
theorem splitAt_top_level :
    (∀ ts : List Text, ts ≠ [] → (∀ t ∈ ts, t.trim = t ∧
      isPiece (· != ',') [] (lex false t) = true) →
      splitAt (· == ',') (Text.joinWith ", ".toList ts) = .ok ts) ∧
    ∀ (separator : Char → Bool) (t : Text) (ps : List Text), splitAt separator t = .ok ps →
      (marked (depthBetween separator) 0 (lex false t)).map Prod.fst = t ∧
      ps = piecesAt (depthBetween separator) separator t ∧
      ((∀ c, isOpener c = true → separator c = false) → ps = piecesAt depthAfter separator t) := by
  refine ⟨fun ts hne h => splitAt_joinWith_of_isPiece hne h, fun separator t ps h => ?_⟩
  obtain ⟨qs, hqs, rfl⟩ := map_eq_ok h
  have hpieces : qs.map Text.trim = piecesAt (depthBetween separator) separator t := by
    rw [splitAt_marked hqs, map_map]
    rfl
  refine ⟨?_, hpieces, fun hopen => ?_⟩
  · rw [map_fst_marked, raw_lex]
  · rw [hpieces, depthBetween_eq hopen]

/-- Commas in brackets and literals stay where they are. -/
theorem splitAt_top_level_nested :
    splitAt (· == ',')
      (Text.joinWith ", ".toList ["a#".toList, "b(c, [d])".toList, "\"e, f\"".toList]) =
      .ok ["a#".toList, "b(c, [d])".toList, "\"e, f\"".toList] :=
  splitAt_top_level.1 _ (cons_ne_nil _ _) (by decide +kernel)

/-- The second bracket would be inside of the first. -/
theorem not_piecesAt_bracket : ¬ ∀ (separator : Char → Bool) (t : Text) (ps : List Text),
    splitAt separator t = .ok ps → ps = piecesAt depthAfter separator t := by
  intro hall
  have hsplit : splitAt (· == '(') "(a(b".toList = .ok ["".toList, "a".toList, "b".toList] := by
    decide +kernel
  exact absurd (hall _ _ _ hsplit) (by decide +kernel)

end Schemata
