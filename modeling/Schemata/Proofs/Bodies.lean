import Schemata.Proofs.Fields

/-!
# Reading bodies back

The body of a declaration in writing has one entry to a line: a description, a comment, or a field.
Read again, every entry is an item, since white space inside of an entry separates no items and the
line break after it does.
-/

namespace Schemata

open List

variable {c : Char} {f : Field}
open Text (startsWith ofLines endsWith trim)
open Lexeme (isQuiet dropBlank)

variable {enum : Bool} {ls : List Lexeme} {pad t u : Text}

/-! ### White space alone -/

theorem trim_eq_nil_iff : t.trim = [] ↔ ∀ c ∈ t, isBlank c := by
  constructor
  · intro h c hc
    have hsq := squeeze_trim t
    rw [h] at hsq
    have hfilter : t.filter (fun c => !isBlank c) = [] := hsq.symm
    simpa using filter_eq_nil_iff.mp hfilter c hc
  · intro h
    have hdrop : t.trimStart = [] := by
      rw [trimStart_eq_dropWhile, dropWhile_eq_nil_iff]
      exact h
    rw [trim, hdrop]
    rfl

theorem isEmpty_trim (h : ∀ c ∈ t, isBlank c) : t.trim.isEmpty := by
  rw [List.isEmpty_iff, trim_eq_nil_iff]
  exact h

theorem isEmpty_trim_append (h : Spaced false (lex false t)) (s u : Text) :
    (trim (s ++ (t ++ u))).isEmpty = false := by
  obtain ⟨c, cs, rfl, hc⟩ := h.head
  rw [isEmpty_eq_false_iff, ne_eq, trim_eq_nil_iff]
  intro hall
  rw [hall c (by simp)] at hc
  cases hc

theorem isEmpty_trim_snoc (h : t.trim.isEmpty = false) (u : Text) :
    (trim (t ++ u)).isEmpty = false := by
  rw [isEmpty_eq_false_iff, ne_eq, trim_eq_nil_iff] at h ⊢
  intro hall
  exact h fun c hc => hall c (mem_append_left u hc)

/-! ### Going on with an item -/

namespace Body

variable {enum : Bool} {items : List Text} {item pad t : Text} {depth start : Nat}

theorem read_char (h : isBreak ⟨items, item, depthAfter depth c, start⟩ enum c ls = .ok false) :
    read enum ⟨items, item, depth, start⟩ (.char c :: ls) =
      read enum ⟨items, item ++ [c], depthAfter depth c, start⟩ ls := by
  rw [read, char]
  simp only [h, bind, Except.bind]
  rfl

theorem read_continued (h : isBreak ⟨items, item, depthAfter depth c, start⟩ enum c ls = .ok true)
    (hc : c ≠ ',') (hnext : Lexeme.startsWith isContinuation (dropBlank (.char c :: ls))) :
    read enum ⟨items, item, depth, start⟩ (.char c :: ls) =
      read enum ⟨items, item ++ [' '], depthAfter depth c, start⟩ ls := by
  have hcond : (c != ',' && Lexeme.startsWith isContinuation (dropBlank (.char c :: ls))) =
      true := by
    rw [hnext, Bool.and_true, bne_iff_ne]
    exact hc
  rw [read, char]
  simp only [h, hcond, bind, Except.bind, if_true]
  rfl

theorem read_break {b : Body}
    (h : isBreak ⟨items, item, depthAfter depth c, start⟩ enum c ls = .ok true)
    (hnext : Lexeme.startsWith isContinuation (dropBlank (.char c :: ls)) = false)
    (hflush : flush ⟨items, item, depthAfter depth c, start⟩ = .ok b) :
    read enum ⟨items, item, depth, start⟩ (.char c :: ls) =
      read enum (if c == '\n' then { b with lineStart := b.items.length } else b) ls := by
  rw [read, char]
  simp only [h, hnext, hflush, bind, Except.bind, if_true, Bool.and_false, Bool.false_eq_true,
    if_false]
  rfl

theorem isBreak_of_depth (h : depth ≠ 0) (c : Char) (ls : List Lexeme) :
    isBreak ⟨items, item, depth, start⟩ enum c ls = .ok false := by
  simp only [isBreak, bne_iff_ne, ne_eq, h, not_false_eq_true, if_true]
  rfl

theorem isBreak_of_isItemChar (h : isItemChar c) (ls : List Lexeme) :
    isBreak ⟨items, item, depth, start⟩ enum c ls = .ok false := by
  simp only [isItemChar, Bool.and_eq_true, Bool.not_eq_true', bne_iff_ne] at h
  have hc : c ≠ '\n' := by
    rintro rfl
    exact absurd h.1 (by decide)
  unfold isBreak
  simp only [h.1, Bool.false_and, beq_iff_eq, hc, h.2, or_self, Bool.or_eq_true]
  split <;> rfl

theorem read_pad (hitem : ∀ c ∈ item, isBlank c) (hpad : ∀ c ∈ pad, c = ' ') (ls : List Lexeme) :
    read enum ⟨items, item, 0, start⟩ (pad.map .char ++ ls) =
      read enum ⟨items, item ++ pad, 0, start⟩ ls := by
  induction pad generalizing item with
  | nil => rw [append_nil]; rfl
  | cons c pad ih =>
    obtain ⟨rfl, hrest⟩ := forall_mem_cons.mp hpad
    have hbreak : isBreak ⟨items, item, depthAfter 0 ' ', start⟩ enum ' ' (pad.map .char ++ ls) =
        .ok false := by
      simp only [isBreak, isEmpty_trim hitem]
      rfl
    have hitem' : ∀ c ∈ item ++ [' '], isBlank c := by
      intro c hc
      rcases mem_append.mp hc with hc | hc
      · exact hitem c hc
      · rw [mem_singleton.mp hc]
        rfl
    rw [map_cons, cons_append, read_char hbreak, depthAfter_of_neither rfl rfl, ih hitem' hrest,
      append_assoc, singleton_append]

/-- Nested lexemes without white space and commas outside of their brackets go to the item that is
begun. -/
theorem read_nested {pending : List Char} (h : Nested isItemChar pending ls)
    (hitem : item.trim.isEmpty = false) (ms : List Lexeme) :
    read enum ⟨items, item, pending.length, start⟩ (ls ++ ms) =
      read enum ⟨items, item ++ raw ls, 0, start⟩ ms := by
  induction h generalizing item with
  | nil => rw [raw_nil, append_nil]; rfl
  | @literal pending ls t _ ih =>
    have hlit : (literal ⟨items, item, pending.length, start⟩ t : Body) =
        ⟨items, item ++ t, pending.length, start⟩ := by
      simp only [literal, hitem, Bool.and_false, Bool.false_eq_true, if_false, push]
    rw [cons_append, read, hlit, ih (isEmpty_trim_snoc hitem t), raw_cons, Lexeme.text,
      append_assoc]
  | @opening c pending ls bracket _ _ ih =>
    rw [cons_append, read_char, depthAfter_of_isOpener bracket, ← length_cons,
      ih (isEmpty_trim_snoc hitem [c]), raw_cons, Lexeme.text, append_assoc]
    rw [depthAfter_of_isOpener bracket]
    exact isBreak_of_depth (Nat.succ_ne_zero _) c _
  | @closing c pending ls bracket _ ih =>
    have hc : isItemChar c := by
      rcases isCloser_iff.mp bracket with rfl | rfl | rfl | rfl <;> rfl
    rw [cons_append, read_char (isBreak_of_isItemChar hc _), depthAfter_of_isCloser bracket,
      length_cons, Nat.add_sub_cancel, ih (isEmpty_trim_snoc hitem [c]), raw_cons, Lexeme.text,
      append_assoc]
  | @char c pending ls opener closer _ outside _ ih =>
    rw [cons_append, read_char, depthAfter_of_neither opener closer,
      ih (isEmpty_trim_snoc hitem [c]), raw_cons, Lexeme.text, append_assoc]
    rw [depthAfter_of_neither opener closer]
    cases pending with
    | nil => exact isBreak_of_isItemChar (outside rfl) _
    | cons d pending => exact isBreak_of_depth (Nat.succ_ne_zero _) c _

theorem read_word {w : Text} (h : IsWord w) (hq : w.startsWith (· == '"') = false)
    (ms : List Lexeme) :
    read enum ⟨items, pad, 0, start⟩ (lex false w ++ ms) =
      read enum ⟨items, pad ++ w, 0, start⟩ ms := by
  obtain ⟨c, cs, rfl, hc⟩ := h.spaced.head
  have hne : c ≠ '"' := by simpa [startsWith] using hq
  have hbegun : (trim (pad ++ [c])).isEmpty = false := by
    rw [isEmpty_eq_false_iff, ne_eq, trim_eq_nil_iff]
    intro hall
    rw [hall c (by simp)] at hc
    cases hc
  have hn := h.nested
  rw [lex_cons_of_ne_quote hne] at hn ⊢
  have hraw : pad ++ [c] ++ raw (lex false cs) = pad ++ c :: cs := by
    rw [raw_lex, append_assoc, singleton_append]
  rw [cons_append, ← hraw]
  cases hn with
  | opening bracket outside rest =>
    rw [read_char (isBreak_of_isItemChar (outside rfl) _), depthAfter_of_isOpener bracket]
    exact read_nested rest hbegun ms
  | char opener closer _ outside rest =>
    rw [read_char (isBreak_of_isItemChar (outside rfl) _), depthAfter_of_neither opener closer]
    exact read_nested rest hbegun ms

/-! ### Spaces inside of an item -/

theorem exists_cutAt_eq_ok {target : Char → Bool} (h : ls.all isQuiet) (depth : Nat) :
    ∃ o, Lexeme.cutAt target depth ls = .ok o := by
  induction ls generalizing depth with
  | nil => exact ⟨none, rfl⟩
  | cons l ls ih =>
    rw [all_cons, Bool.and_eq_true] at h
    cases l with
    | char c =>
      obtain ⟨o, ho⟩ := ih h.2 (depthAfter depth c)
      rw [Lexeme.cutAt]
      split
      · exact ⟨_, rfl⟩
      · rw [ho]
        exact ⟨_, rfl⟩
    | literal t =>
      obtain ⟨o, ho⟩ := ih h.2 depth
      rw [Lexeme.cutAt, ho]
      exact ⟨_, rfl⟩
    | comment t => simp [isQuiet] at h
    | unclosed t => simp [isQuiet] at h

theorem trim_pad (hpad : ∀ c ∈ pad, isBlank c) (h : IsLine t) : trim (pad ++ t) = t := by
  have := trim_around hpad (u := []) (fun _ hc => nomatch hc) h.spaced
  rwa [append_nil] at this

theorem exists_isCompleteField_eq (hpad : ∀ c ∈ pad, isBlank c) (h : IsLine t) :
    ∃ b, isCompleteField (pad ++ t) = .ok b ∧
      (t.endsWith (fun c => c == ':' || c == '=') → b = false) := by
  obtain ⟨o, hcut⟩ : ∃ o, cutAt (· == ':') t = .ok o := exists_cutAt_eq_ok h.closed 0
  simp only [isCompleteField, trim_pad hpad h, hcut, bind, Except.bind]
  cases o with
  | none => exact ⟨false, rfl, fun _ => rfl⟩
  | some p =>
    refine ⟨_, rfl, ?_⟩
    intro hend
    have : t.endsWith (fun c => c == ':' || c == '=' || c == '|') := by
      simp only [endsWith, Option.any_eq_true] at hend ⊢
      obtain ⟨c, hc, hcolon⟩ := hend
      exact ⟨c, hc, by rw [hcolon]; rfl⟩
    simp [this]

theorem read_space (hpad : ∀ c ∈ pad, isBlank c) (h : IsLine t)
    (henum : enum → Lexeme.startsWith isContinuation (dropBlank ls))
    (hfield : enum = false → t.endsWith (fun c => c == ':' || c == '=') ∨
      startsField (dropBlank ls) = false) :
    read enum ⟨items, pad ++ t, 0, start⟩ (.char ' ' :: ls) =
      read enum ⟨items, pad ++ (t ++ [' ']), 0, start⟩ ls := by
  have hbegun : (trim (pad ++ t)).isEmpty = false := by
    rw [trim_pad hpad h, isEmpty_eq_false_iff]
    exact h.spaced.ne_nil
  have hdrop : dropBlank (.char ' ' :: ls) = dropBlank ls := rfl
  cases enum with
  | true =>
    have hbreak : isBreak ⟨items, pad ++ t, depthAfter 0 ' ', start⟩ true ' ' ls = .ok true := by
      simp only [isBreak, hbegun]
      rfl
    rw [read_continued hbreak (by decide) (henum rfl), append_assoc]
    rfl
  | false =>
    have hends : endsField (pad ++ t) (.char ' ' :: ls) = .ok false := by
      obtain ⟨b, hb, hfalse⟩ := exists_isCompleteField_eq hpad h
      simp only [endsField, hb, hdrop, bind, Except.bind]
      rcases hfield rfl with hend | hstart
      · rw [hfalse hend]
        rfl
      · rw [hstart]
        cases b <;> rfl
    have hbreak : isBreak ⟨items, pad ++ t, depthAfter 0 ' ', start⟩ false ' ' ls = .ok false := by
      simp only [isBreak, hbegun, hends]
      rfl
    rw [read_char hbreak, append_assoc]
    rfl

theorem read_spaced_word (hpad : ∀ c ∈ pad, isBlank c) (h : IsLine t) {w : Text} (hw : IsWord w)
    (henum : enum → Lexeme.startsWith isContinuation (dropBlank (lex false w ++ ls)))
    (hfield : enum = false → t.endsWith (fun c => c == ':' || c == '=') ∨
      startsField (dropBlank (lex false w ++ ls)) = false) :
    read enum ⟨items, pad ++ t, 0, start⟩ (.char ' ' :: (lex false w ++ ls)) =
      read enum ⟨items, pad ++ (t ++ ' ' :: w), 0, start⟩ ls := by
  have hbegun := isEmpty_trim_append h.spaced pad [' ']
  have hitem : pad ++ (t ++ ' ' :: w) = pad ++ (t ++ [' ']) ++ raw (lex false w) := by
    rw [raw_lex]
    simp
  rw [read_space hpad h henum hfield, hitem]
  exact read_nested hw.nested hbegun ls

theorem not_startsField (hc : isNameStart c = false) (hb : isBlank c = false) (hq : c ≠ '"')
    (w : Text) (ls : List Lexeme) : startsField (dropBlank (lex false (c :: w) ++ ls)) = false := by
  rw [lex_cons_of_ne_quote hq, cons_append, dropBlank, if_neg (by simp [hb]), startsField,
    Lexeme.startsWith, hc, Bool.false_and]

theorem read_trails {values : Bool} {ws : List Text} (h : Trails values ws)
    (hvalues : values → enum = false) (hpad : ∀ c ∈ pad, isBlank c) (ht : IsLine t)
    (ms : List Lexeme) : read enum ⟨items, pad ++ t, 0, start⟩ (lexSpread ws ++ ms) =
      read enum ⟨items, pad ++ (t ++ spread ws), 0, start⟩ ms := by
  induction h generalizing t with
  | nil => rw [spread_nil, append_nil]; rfl
  | @value v ws allowed value rest ih =>
    have henum : enum → False := by
      rw [hvalues allowed]
      exact fun h => nomatch h
    have hsign : IsLine (t ++ [' ', '=']) := ht.snoc isWord_equals
    have hend : endsWith (fun c => c == ':' || c == '=') (t ++ [' ', '=']) := by
      rw [endsWith, getLast?_append]
      rfl
    rw [lexSpread_cons, cons_append, append_assoc,
      read_spaced_word hpad ht isWord_equals (fun h => absurd h henum)
        (fun _ => .inr (not_startsField rfl rfl (by decide) [] _)), lexSpread_cons, cons_append,
        append_assoc,
      read_spaced_word hpad hsign value.isWord (fun h => absurd h henum) (fun _ => .inl hend),
      ih (hsign.snoc value.isWord)]
    simp
  | @directive w ws word nested mark rest ih =>
    obtain ⟨s, rfl⟩ := mark
    have hcont : Lexeme.startsWith isContinuation
        (dropBlank (lex false ('@' :: s) ++ (lexSpread ws ++ ms))) := by
      rw [lex_cons_of_ne_quote (by decide)]
      rfl
    rw [lexSpread_cons, cons_append, append_assoc, read_spaced_word hpad ht word (fun _ => hcont)
        (fun _ => .inr (not_startsField rfl rfl (by decide) s _)), ih (ht.snoc word)]
    simp

/-- **A head with the words after it goes to one item.**  If the head ends with a colon, the first
word is a type, and otherwise all of them trail. -/
theorem read_row {head : Text} {ws : List Text} (hhead : IsWord head)
    (hq : head.startsWith (· == '"') = false)
    (hws : Trails false ws ∨ enum = false ∧ head.endsWith (· == ':') ∧
      ∃ w vs, ws = w :: vs ∧ IsWord w ∧ Trails true vs)
    (hpad : ∀ c ∈ pad, isBlank c) (ms : List Lexeme) :
    read enum ⟨items, pad, 0, start⟩ (lex false (head ++ spread ws) ++ ms) =
      read enum ⟨items, pad ++ (head ++ spread ws), 0, start⟩ ms := by
  have hlex : (∀ w ∈ ws, IsWord w) → lex false (head ++ spread ws) =
      lex false head ++ lexSpread ws := by
    intro hwords
    have := lex_spread_append hwords (u := []) rfl false
    rw [append_nil, lex_nil, append_nil] at this
    rw [lex_append hhead.closed, this]
    simpa using startsWith_spread ws (p := (· == '"')) rfl (u := []) rfl
  rcases hws with hws | ⟨rfl, hcolon, w, vs, rfl, hw, hvs⟩
  · rw [hlex hws.isWord, append_assoc, read_word hhead hq,
      read_trails hws (fun h => absurd h Bool.false_ne_true) hpad hhead.isLine]
  · have hend : head.endsWith (fun c => c == ':' || c == '=') := by
      simp only [endsWith, Option.any_eq_true] at hcolon ⊢
      obtain ⟨c, hc, hcolon⟩ := hcolon
      exact ⟨c, hc, by rw [hcolon]; rfl⟩
    rw [hlex (forall_mem_cons.mpr ⟨hw, hvs.isWord⟩), append_assoc, read_word hhead hq,
      lexSpread_cons, cons_append, append_assoc, read_spaced_word hpad hhead.isLine hw
        (fun h => absurd h Bool.false_ne_true) (fun _ => .inl hend),
      read_trails hvs (fun _ => rfl) hpad (hhead.isLine.snoc hw)]
    simp

theorem read_field (h : f.Legible enum) (hpad : ∀ c ∈ pad, isBlank c) (ms : List Lexeme) :
    read enum ⟨items, pad, 0, start⟩ (lex false (f.head ++ f.tail) ++ ms) =
      read enum ⟨items, pad ++ (f.head ++ f.tail), 0, start⟩ ms := by
  have hq : ∀ u : Text, startsWith (· == '"') (f.head ++ u) = false := by
    intro u
    obtain ⟨c, cs, hcs, hc, -⟩ := isName_iff.mp h.name
    have hne : c ≠ '"' := ne_of_class (isNameChar_of_isNameStart hc) (by decide)
    simp [Field.head, hcs, startsWith, hne]
  rcases h.exists_words with ⟨ws, -, hws, htail⟩ | ⟨u, ws, -, henum, hu, hws, htail, -⟩
  · have := hq []
    rw [append_nil] at this
    rw [htail]
    exact read_row h.isWord_head this (.inl hws) hpad ms
  · have hsplit : f.head ++ f.tail = f.head ++ [':'] ++ spread (u.resolved :: ws) := by
      rw [htail]
      simp
    have hcolon : endsWith (· == ':') (f.head ++ [':']) := by
      rw [endsWith, getLast?_append]
      rfl
    rw [hsplit]
    exact read_row h.isWord_head.colon (hq _)
      (.inr ⟨henum, hcolon, u.resolved, ws, rfl, hu.resolved.isWord, hws⟩) hpad ms

end Body

/-! ### The end of an item -/

theorem ne_of_blank {s : Text} (hs : ∀ c ∈ s, isBlank c) : ∀ c ∈ s, c ≠ '"' ∧ c ≠ '#' := by
  intro c hc
  constructor <;> rintro rfl <;> exact absurd (hs _ hc) (by decide)

theorem lex_append_blank (h : Closed t) (hu : ∀ c ∈ u, isBlank c) :
    lex false (t ++ u) = lex false t ++ u.map .char := by
  have hq : startsWith (· == '"') u = false := by
    cases u with
    | nil => rfl
    | cons c u => simpa [startsWith] using (ne_of_blank hu c (by simp)).1
  rw [lex_append h hq, lex_of_not_quote fun hm => (ne_of_blank hu _ hm).1 rfl]

theorem collapse_blank {v : Text} (hv : ∀ c ∈ v, isBlank c) (started spaced : Bool)
    (ls : List Lexeme) :
    Lexeme.collapse started spaced (v.map .char ++ ls) =
      Lexeme.collapse started (spaced || !v.isEmpty) ls := by
  induction v generalizing spaced with
  | nil => simp
  | cons c v ih =>
    obtain ⟨hc, hv⟩ := forall_mem_cons.mp hv
    rw [map_cons, cons_append, Lexeme.collapse, if_pos hc, ih hv true]
    simp

theorem collapse_around {s : Text} (hs : ∀ c ∈ s, isBlank c) (hclosed : Closed t)
    (h : Spaced false (lex false t)) (hu : ∀ c ∈ u, isBlank c) :
    collapse (s ++ (t ++ u)) = .ok t := by
  have hend := collapse_blank hu true false []
  rw [append_nil] at hend
  rw [collapse, lex_append_chars (ne_of_blank hs), lex_append_blank hclosed hu, collapse_blank hs,
    h.collapse (fun h => absurd h Bool.false_ne_true), hend]
  simp [Lexeme.collapse, Functor.map, Except.map]

namespace Body

variable {enum : Bool} {items : List Text} {item pad t : Text} {depth start : Nat}

theorem flush_line (hpad : ∀ c ∈ pad, isBlank c) (h : IsLine t) {gap : Text}
    (hgap : ∀ c ∈ gap, isBlank c) :
    flush ⟨items, pad ++ (t ++ gap), depth, start⟩ = .ok ⟨items ++ [t], [], depth, start⟩ := by
  have hclean : trim (Text.dropEndWhile (· == ',') t.trim) = t := (cleanArgument_eq h.phrase).1
  have hne : t.isEmpty = false := by
    rw [isEmpty_eq_false_iff]
    exact h.spaced.ne_nil
  simp only [flush, collapse_around hpad h.closed h.spaced hgap, bind, Except.bind, hclean, hne]
  rfl

theorem flush_blank (hitem : ∀ c ∈ item, isBlank c) :
    flush ⟨items, item, depth, start⟩ = .ok ⟨items, [], depth, start⟩ := by
  have hcollapse : ∀ spaced, Lexeme.collapse false spaced (item.map .char) = .ok [] := by
    induction item with
    | nil => exact fun _ => rfl
    | cons c item ih =>
      obtain ⟨hc, hrest⟩ := forall_mem_cons.mp hitem
      intro spaced
      rw [map_cons, Lexeme.collapse, if_pos hc]
      exact ih hrest true
  have hlex : lex false item = item.map .char := by
    refine lex_of_not_quote fun hq => ?_
    exact absurd (hitem _ hq) (by decide)
  simp only [flush, collapse, hlex, hcollapse, bind, Except.bind]
  rfl

theorem isBreak_newline (ls : List Lexeme) :
    isBreak ⟨items, item, depthAfter 0 '\n', start⟩ enum '\n' ls = .ok true :=
  rfl

theorem read_newline (hpad : ∀ c ∈ pad, isBlank c) (h : IsLine t)
    (hnext : Lexeme.startsWith isContinuation (dropBlank ls) = false) :
    read enum ⟨items, pad ++ t, 0, start⟩ (.char '\n' :: ls) =
      read enum ⟨items ++ [t], [], 0, items.length + 1⟩ ls := by
  have hflush := @flush_line items pad t (depthAfter 0 '\n') start hpad h []
    (fun _ hc => nomatch hc)
  rw [append_nil] at hflush
  rw [read_break (isBreak_newline ls) hnext hflush]
  simp [depthAfter_of_neither (show isOpener '\n' = false from rfl) rfl]

theorem read_empty_line (hitem : ∀ c ∈ item, isBlank c)
    (hnext : Lexeme.startsWith isContinuation (dropBlank ls) = false) :
    read enum ⟨items, item, 0, start⟩ (.char '\n' :: ls) =
      read enum ⟨items, [], 0, items.length⟩ ls := by
  have hflush := @flush_blank items item (depthAfter 0 '\n') start hitem
  rw [read_break (isBreak_newline ls) hnext hflush]
  rfl

theorem read_comment (hitem : ∀ c ∈ item, isBlank c) {c : Text} (hc : c.IsComment)
    (ls : List Lexeme) : read enum ⟨items, item, 0, items.length⟩ (.comment c :: ls) =
      read enum ⟨items ++ [c], [], 0, items.length⟩ ls := by
  have hattach : (attach ⟨items, [], 0, items.length⟩ c : Body) =
      ⟨items ++ [c], [], 0, items.length⟩ := by
    unfold attach
    cases hlast : items.getLast? with
    | none => rfl
    | some i => simp
  rw [read, comment]
  simp only [beq_self_eq_true, if_true, flush_blank hitem, bind, Except.bind, pure, Except.pure,
    hc.trimmed, hattach]

theorem attach_inline (ht : t.startsWith (fun c => c == '"' || c == '#') = false) (c : Text) :
    (attach ⟨items ++ [t], [], 0, items.length⟩ c : Body) =
      ⟨items ++ [t ++ ' ' :: c], [], 0, items.length⟩ := by
  unfold attach
  simp [ht]

/-- **A comment after a line** is part of the item that the line is. -/
theorem read_inline (hpad : ∀ c ∈ pad, isBlank c) (h : IsLine t)
    (ht : t.startsWith (fun c => c == '"' || c == '#') = false) {c : Text} (hc : c.IsComment)
    (ls : List Lexeme) :
    read enum ⟨items, pad ++ t, 0, items.length⟩ (.char ' ' :: .comment c :: ls) =
      read enum ⟨items ++ [t ++ ' ' :: c], [], 0, items.length⟩ ls := by
  have hspace : ∀ c ∈ ([' '] : Text), isBlank c := forall_mem_of_all rfl
  cases enum with
  | true =>
    -- the space ends the value of an enum, and the comment finds it finished
    have hbreak : isBreak ⟨items, pad ++ t, depthAfter 0 ' ',
      items.length⟩ true ' ' (.comment c :: ls) =
        .ok true := by
      have hbegun : (trim (pad ++ t)).isEmpty = false := by
        rw [trim_pad hpad h, isEmpty_eq_false_iff]
        exact h.spaced.ne_nil
      simp only [isBreak, hbegun]
      rfl
    have hflush := @flush_line items pad t (depthAfter 0 ' ') items.length hpad h []
      (fun _ hc => nomatch hc)
    rw [append_nil] at hflush
    have hagain := @flush_blank (items ++ [t]) [] 0 items.length (fun _ hc => nomatch hc)
    rw [read_break hbreak rfl hflush]
    simp only [show ((' ' : Char) == '\n') = false from rfl, Bool.false_eq_true, if_false,
      depthAfter_of_neither (show isOpener ' ' = false from rfl) rfl]
    rw [read, comment]
    simp only [beq_self_eq_true, if_true, hagain, bind, Except.bind, pure, Except.pure, hc.trimmed,
      attach_inline ht]
  | false =>
    -- the space goes to the item, and the comment finishes it
    have hflush := @flush_line items pad t 0 items.length hpad h [' '] hspace
    have hgo := @read_space (.comment c :: ls) false items pad t items.length hpad h
      (fun h => nomatch h) (fun _ => .inr rfl)
    rw [hgo, read, comment]
    simp only [beq_self_eq_true, if_true, hflush, bind, Except.bind, pure, Except.pure, hc.trimmed,
      attach_inline ht]

end Body

/-! ### Entries -/

/-- What stands on a line of a body, a description of several lines being counted as one. -/
inductive Entry where
  | literal (t : Text)
  | comment (t : Text)
  | field (f : Field)

namespace Entry

/-- An entry in writing, without indentation. -/
def text : Entry → Text
  | literal t | comment t => t
  | field f => f.line

def Legible (enum : Bool) : Entry → Prop
  | literal t => t.IsLiteral
  | comment t => t.IsComment
  | field f => f.Legible enum

def lexemes : Entry → List Lexeme
  | literal t => [.literal t]
  | comment t => [.comment t]
  | field f => lex false (f.head ++ f.tail) ++ match f.inlineComment with
      | none => []
      | some c => [.char ' ', .comment c]

end Entry

/-- The lines of entries, each with its line break. -/
def entryLines (pad : Text) (es : List Entry) : Text :=
  es.flatMap fun e => pad ++ e.text ++ ['\n']

/-- The lexemes of entries, each with its line break. -/
def entryLexemes (pad : Text) (es : List Entry) : List Lexeme :=
  es.flatMap fun e => pad.map .char ++ e.lexemes ++ [.char '\n']

theorem entryLexemes_cons (pad : Text) (e : Entry) (es : List Entry) :
    entryLexemes pad (e :: es) = pad.map .char ++
      (e.lexemes ++ .char '\n' :: entryLexemes pad es) := by
  simp [entryLexemes]

theorem entryLines_cons (pad : Text) (e : Entry) (es : List Entry) :
    entryLines pad (e :: es) = pad ++ (e.text ++ '\n' :: entryLines pad es) := by
  simp [entryLines]

theorem Text.IsLiteral.lex_append (h : t.IsLiteral) (hu : u.startsWith (· == '"') = false)
    (comments : Bool) : lex comments (t ++ u) = .literal t :: lex comments u := by
  have htake := Text.takeLiteral_congr h.closed (u := u) (fun hq => by rw [hu] at hq; cases hq)
  obtain ⟨s, rfl⟩ := eq_cons_of_startsWith h.quote
  exact lex_literal htake comments

namespace Entry

variable {enum : Bool} {e : Entry} {pad : Text}

theorem lex_text (h : e.Legible enum) (u : Text) :
    lex true (e.text ++ '\n' :: u) = e.lexemes ++ .char '\n' :: lex true u := by
  have hbreak : lex true ('\n' :: u) = .char '\n' :: lex true u :=
    lex_cons (by decide) (by decide) _ _
  cases e with
  | literal t => rw [text, Text.IsLiteral.lex_append h rfl, hbreak]; rfl
  | comment t =>
    have hc : t.IsComment := h
    rw [text, lex_comment_append hc.hash hc.line (.inr rfl), hbreak]
    rfl
  | field f =>
    have hf : f.Legible enum := h
    rw [text, f.line_eq, lexemes]
    cases hi : f.inlineComment with
    | none =>
      rw [spaced, append_nil, lex_append hf.isLine.closed rfl, hbreak, append_nil]
    | some c =>
      have hc := hf.inlineComment c hi
      rw [spaced_of_isComment hc, append_assoc, lex_append hf.isLine.closed rfl, cons_append,
        lex_cons (by decide) (by decide), lex_comment_append hc.hash hc.line (.inr rfl), hbreak]
      simp

theorem not_isContinuation (h : e.Legible enum) (hpad : ∀ c ∈ pad, c = ' ') (ms : List Lexeme) :
    Lexeme.startsWith isContinuation (dropBlank (pad.map .char ++ (e.lexemes ++ ms))) = false := by
  have hdrop : dropBlank (pad.map .char ++ (e.lexemes ++ ms)) = dropBlank (e.lexemes ++ ms) := by
    induction pad with
    | nil => rfl
    | cons c pad ih =>
      obtain ⟨rfl, hrest⟩ := forall_mem_cons.mp hpad
      exact ih hrest
  rw [hdrop]
  cases e with
  | literal t => rfl
  | comment t => rfl
  | field f =>
    have hf : f.Legible enum := h
    obtain ⟨c, cs, hcs, hc, -⟩ := isName_iff.mp hf.name
    have hchar := isNameChar_of_isNameStart hc
    have hne : c ≠ '"' := ne_of_class hchar (by decide)
    have hcont : isContinuation c = false := by
      simp [isContinuation, ne_of_class hchar (d := '@') rfl, ne_of_class hchar (d := '(') rfl,
        ne_of_class hchar (d := ':') rfl, ne_of_class hchar (d := '=') rfl]
    rw [lexemes, Field.head, hcs, cons_append, cons_append, lex_cons_of_ne_quote hne,
      cons_append, cons_append, dropBlank, if_neg (by simp [not_isBlank_of_isNameChar hchar])]
    exact hcont

/-- **The line of an entry is read as one item.** -/
theorem read_lexemes (h : e.Legible enum) (hpad : ∀ c ∈ pad, c = ' ') (items : List Text)
    {ms : List Lexeme} (hnext : Lexeme.startsWith isContinuation (dropBlank ms) = false) :
    Body.read enum ⟨items, [], 0, items.length⟩
        (pad.map .char ++ (e.lexemes ++ .char '\n' :: ms)) =
      Body.read enum ⟨items ++ [e.text], [], 0, (items ++ [e.text]).length⟩ ms := by
  have hblank : ∀ c ∈ pad, isBlank c := by
    intro c hc
    rw [hpad c hc]
    rfl
  have hbegin : ∀ c ∈ ([] : Text), isBlank c := fun _ hc => nomatch hc
  rw [Body.read_pad hbegin hpad, nil_append]
  cases e with
  | literal t =>
    have hlit : (Body.literal ⟨items, pad, 0, items.length⟩ t : Body) =
        ⟨items ++ [t], pad, 0, items.length⟩ := by
      simp [Body.literal, isEmpty_trim hblank]
    rw [lexemes, singleton_append, Body.read, hlit, Body.read_empty_line hblank hnext]
    rfl
  | comment t =>
    rw [lexemes, singleton_append, Body.read_comment hblank h, Body.read_empty_line hbegin hnext]
    rfl
  | field f =>
    have hf : f.Legible enum := h
    have hstart : startsWith (fun c => c == '"' || c == '#') (f.head ++ f.tail) = false := by
      obtain ⟨c, cs, hcs, hc, -⟩ := isName_iff.mp hf.name
      have hchar := isNameChar_of_isNameStart hc
      simp [Field.head, hcs, startsWith, ne_of_class hchar (d := '"') rfl,
        ne_of_class hchar (d := '#') rfl]
    rw [lexemes, append_assoc, Body.read_field hf hblank, text, f.line_eq]
    cases hi : f.inlineComment with
    | none =>
      rw [nil_append, Body.read_newline hblank hf.isLine hnext, spaced, append_nil, length_append,
        length_singleton]
    | some c =>
      have hc := hf.inlineComment c hi
      rw [spaced_of_isComment hc]
      simp only [cons_append, nil_append]
      rw [Body.read_inline hblank hf.isLine hstart hc, Body.read_empty_line hbegin hnext]

end Entry

theorem lex_entryLines (hpad : ∀ c ∈ pad, c = ' ') {es : List Entry} (h : ∀ e ∈ es, e.Legible enum)
    (u : Text) : lex true (entryLines pad es ++ u) = entryLexemes pad es ++ lex true u := by
  have hchars : ∀ c ∈ pad, c ≠ '"' ∧ c ≠ '#' := by
    intro c hc
    rw [hpad c hc]
    decide
  induction es with
  | nil => rfl
  | cons e es ih =>
    obtain ⟨he, hes⟩ := forall_mem_cons.mp h
    rw [entryLines_cons, entryLexemes_cons, append_assoc, append_assoc, cons_append,
      lex_append_chars hchars, e.lex_text he, ih hes]
    simp

theorem passesBody_entryLexemes (hpad : ∀ c ∈ pad, c = ' ') {es : List Entry}
    (h : ∀ e ∈ es, e.Legible enum) : PassesBody (entryLexemes pad es) := by
  have hentry : ∀ e : Entry, e.Legible enum → PassesBody e.lexemes := by
    intro e he
    cases e with
    | literal t => exact .literal t
    | comment t => exact .comment t
    | field f =>
      have hf : f.Legible enum := he
      rw [Entry.lexemes]
      refine hf.isLine.nested.passesBody.append ?_
      cases f.inlineComment with
      | none => exact .nil
      | some c =>
        exact PassesBody.append (PassesBody.chars (s := [' ']) (forall_mem_of_all rfl)) (.comment c)
  induction es with
  | nil => exact .nil
  | cons e es ih =>
    obtain ⟨he, hes⟩ := forall_mem_cons.mp h
    have hspaces : ∀ c ∈ pad, c ≠ '\x7b' ∧ c ≠ '\x7d' := by
      intro c hc
      rw [hpad c hc]
      decide
    have hbreak : PassesBody [.char '\n'] := PassesBody.chars (s := ['\n']) (forall_mem_of_all rfl)
    rw [entryLexemes_cons]
    exact (PassesBody.chars hspaces).append ((hentry e he).append (hbreak.append (ih hes)))

/-- **The items of a body in writing are its entries.** -/
theorem bodyItems_entryLexemes (hpad : ∀ c ∈ pad, c = ' ') {es : List Entry}
    (h : ∀ e ∈ es, e.Legible enum) :
    bodyItems enum (.char '\n' :: entryLexemes pad es) = .ok (es.map Entry.text) := by
  have hnext : ∀ es : List Entry, (∀ e ∈ es, e.Legible enum) →
      Lexeme.startsWith isContinuation (dropBlank (entryLexemes pad es)) = false := by
    intro es hes
    cases es with
    | nil => rfl
    | cons e es =>
      rw [entryLexemes_cons]
      exact e.not_isContinuation (hes e mem_cons_self) hpad _
  have hread : ∀ (es : List Entry) (items : List Text), (∀ e ∈ es, e.Legible enum) →
      Body.read enum ⟨items, [], 0, items.length⟩ (entryLexemes pad es) =
        .ok ⟨items ++ es.map Entry.text, [], 0, (items ++ es.map Entry.text).length⟩ := by
    intro es
    induction es with
    | nil =>
      intro items _
      rw [map_nil, append_nil]
      exact Body.flush_blank fun _ hc => nomatch hc
    | cons e es ih =>
      intro items hes
      obtain ⟨he, hes⟩ := forall_mem_cons.mp hes
      rw [entryLexemes_cons, e.read_lexemes he hpad items (hnext es hes), ih _ hes]
      simp
  have hnil : ∀ c ∈ ([] : Text), isBlank c := fun _ hc => nomatch hc
  have hall := hread es [] h
  rw [bodyItems, Body.read_empty_line hnil (hnext es h), hall]
  rfl

/-! ### The entries of a declaration -/

/-- The entries of a field: its description, its comments and its line. -/
def Field.entries (f : Field) : List Entry :=
  (given f.description).map .literal ++
    ((if f.comments.isEmpty then [] else f.comments.lines).map .comment ++ [.field f])

def Declaration.entries (d : Declaration) : List Entry :=
  d.fields.flatMap Field.entries ++
    (given d.closingComments).flatMap fun t => t.lines.map .comment

theorem ofLines_append_newline {ts : List Text} (h : ts ≠ []) :
    ofLines ts ++ ['\n'] = ts.flatMap (· ++ ['\n']) := by
  induction ts with
  | nil => exact absurd rfl h
  | cons t ts ih =>
    cases ts with
    | nil => simp [ofLines]
    | cons s ts =>
      have := ih (cons_ne_nil _ _)
      rw [ofLines, joinWith_cons_cons, flatMap_cons, ← this, ofLines]
      simp

theorem bodyLines_eq (l : Layout) (d : Declaration) :
    (d.bodyLines l).flatMap (· ++ ['\n']) = entryLines l.pad d.entries := by
  have hfield : ∀ f : Field, f.render l ++ ['\n'] = entryLines l.pad f.entries := by
    intro f
    rw [Field.render, ofLines_append_newline (by simp), entryLines, Field.entries]
    simp [flatMap_append, flatMap_map, Entry.text]
  have hfields : ∀ fs : List Field, (fs.map (Field.render l)).flatMap (· ++ ['\n']) =
      entryLines l.pad (fs.flatMap Field.entries) := by
    intro fs
    induction fs with
    | nil => rfl
    | cons f fs ih =>
      rw [map_cons, flatMap_cons, ih, hfield, flatMap_cons]
      simp [entryLines]
  rw [Declaration.bodyLines, flatMap_append, hfields, Declaration.entries]
  simp [entryLines, flatMap_map, flatMap_assoc, Entry.text]

theorem not_newline (h : '\n' ∉ t) : ∀ c ∈ t, (c == '\n') = false := by
  intro c hc
  rw [beq_eq_false_iff_ne]
  rintro rfl
  exact h hc

theorem lines_append_newline (h : '\n' ∉ t) (u : Text) :
    Text.lines (t ++ '\n' :: u) = t :: Text.lines u :=
  splitBy_append (not_newline h) rfl u

theorem lines_of_not_mem (h : '\n' ∉ t) : t.lines = [t] :=
  splitBy_eq_singleton (not_newline h)

theorem lines_ofLines {ts : List Text} (hne : ts ≠ []) (h : ∀ t ∈ ts, '\n' ∉ t) :
    (ofLines ts).lines = ts := by
  induction ts with
  | nil => exact absurd rfl hne
  | cons t ts ih =>
    obtain ⟨ht, hts⟩ := forall_mem_cons.mp h
    cases ts with
    | nil => exact lines_of_not_mem ht
    | cons s ts =>
      have hrest := ih (cons_ne_nil _ _) hts
      rw [ofLines] at hrest
      rw [ofLines, joinWith_cons_cons, append_assoc, singleton_append,
        lines_append_newline ht, hrest]

theorem Text.IsComments.lines (h : t.IsComments) :
    (∀ c ∈ t.lines, c.IsComment) ∧ ofLines t.lines = t ∧ t ≠ [] := by
  obtain ⟨cs, hne, rfl, hcs⟩ := h
  have hlines := lines_ofLines hne fun c hc => (hcs c hc).line
  refine ⟨by rwa [hlines], by rw [hlines], ?_⟩
  cases cs with
  | nil => exact absurd rfl hne
  | cons c cs =>
    have hc := (hcs c mem_cons_self).hash
    cases c with
    | nil => cases hc
    | cons d c => cases cs <;> simp [ofLines]

theorem given_of_ne_nil (h : t ≠ []) : given (some t) = [t] := by
  cases t with
  | nil => exact absurd rfl h
  | cons c t => rfl

theorem Text.IsLiteral.ne_nil (h : t.IsLiteral) : t ≠ [] := by
  rintro rfl
  cases h.quote

theorem Field.Legible.entries (h : f.Legible enum) : ∀ e ∈ f.entries, e.Legible enum := by
  intro e he
  simp only [Field.entries, mem_append, mem_map, mem_singleton] at he
  rcases he with ⟨t, ht, rfl⟩ | ⟨c, hc, rfl⟩ | rfl
  · cases hd : f.description with
    | none => rw [hd] at ht; cases ht
    | some s =>
      have hs := h.description s hd
      rw [hd, given_of_ne_nil hs.ne_nil, mem_singleton] at ht
      rw [ht]
      exact hs
  · rcases h.comments with hnil | hcomments
    · rw [hnil] at hc
      cases hc
    · split at hc
      · cases hc
      · exact hcomments.lines.1 c hc
  · exact h

/-- **The entries of a legible declaration are legible.** -/
theorem Declaration.Legible.entries {d : Declaration} (h : d.Legible) :
    ∀ e ∈ d.entries, e.Legible (d.kind == .enum) := by
  intro e he
  rcases mem_append.mp he with he | he
  · obtain ⟨f, hf, he⟩ := mem_flatMap.mp he
    exact (h.fields f hf).2.entries e he
  · obtain ⟨t, ht, he⟩ := mem_flatMap.mp he
    obtain ⟨c, hc, rfl⟩ := mem_map.mp he
    cases hd : d.closingComments with
    | none => rw [hd] at ht; cases ht
    | some s =>
      have hs := (h.closingComments s hd).2
      rw [hd, given_of_ne_nil hs.lines.2.2, mem_singleton] at ht
      rw [ht] at hc
      exact hs.lines.1 c hc

/-! ### From items to fields -/

section Items

variable {naming : Naming} {annotations : List Annotation} {d : Declaration}

theorem parseItems_comments {cs : List Text} (h : ∀ c ∈ cs, c.IsComment) (comments : List Text)
    (description : Option Text) (items : List Text) :
    parseItems naming annotations d comments description (cs ++ items) =
      parseItems naming annotations d (comments ++ cs) description items := by
  induction cs generalizing comments with
  | nil => rw [append_nil]; rfl
  | cons c cs ih =>
    obtain ⟨hc, hcs⟩ := forall_mem_cons.mp h
    rw [cons_append, parseItems, if_pos hc.hash, ih hcs, append_assoc, singleton_append]

theorem parseItems_field (h : f.Legible enum) (hann : ∀ a ∈ annotations, a.kind ≠ .property)
    (hd : d.parameters = none) (items : List Text) :
    parseItems naming annotations d [] none (f.entries.map Entry.text ++ items) = (do
      let (fields, closing) ← parseItems naming annotations d [] none items
      return (f.plain :: fields, closing)) := by
  obtain ⟨c, cs, hcs, hc, -⟩ := isName_iff.mp h.name
  have hchar := isNameChar_of_isNameStart hc
  have hstart : f.line.startsWith (· == '#') = false ∧ f.line.startsWith (· == '"') = false := by
    simp [f.line_eq, Field.head, hcs, startsWith, ne_of_class hchar (d := '"') rfl,
      ne_of_class hchar (d := '#') rfl]
  -- the comments above the field, and then its line
  have hrest : ∀ description : Option Text,
      parseItems naming annotations d [] description
        ((if f.comments.isEmpty then [] else f.comments.lines) ++ f.line :: items) = (do
      let (fields, closing) ← parseItems naming annotations d [] none items
      return ({ f.plain with description } :: fields, closing)) := by
    intro description
    have hcomments : (∀ c ∈ (if f.comments.isEmpty then [] else f.comments.lines), c.IsComment) ∧
        ofLines (if f.comments.isEmpty then [] else f.comments.lines) = f.comments := by
      rcases h.comments with hnil | hcomments
      · rw [hnil]
        exact ⟨fun c hc => absurd hc not_mem_nil, rfl⟩
      · rw [if_neg (by simpa using hcomments.lines.2.2)]
        exact ⟨hcomments.lines.1, hcomments.lines.2.1⟩
    rw [parseItems_comments hcomments.1, nil_append, parseItems, hstart.1, hstart.2,
      parseField_line h naming hann hd, pure_bind, hcomments.2]
    rfl
  unfold Field.entries
  simp only [map_append, map_map, map_cons, map_nil, append_assoc, singleton_append]
  have hmap : ∀ ts : List Text, ts.map (Entry.text ∘ Entry.comment) = ts := map_id
  have hmap' : ∀ ts : List Text, ts.map (Entry.text ∘ Entry.literal) = ts := map_id
  rw [hmap, hmap']
  cases hdesc : f.description with
  | none =>
    rw [given, nil_append]
    have := hrest none
    have hplain : { f.plain with description := none } = f.plain := by
      rw [← hdesc]
      rfl
    rw [hplain] at this
    exact this
  | some t =>
    have ht := h.description t hdesc
    have hhash : t.startsWith (· == '#') = false := by
      obtain ⟨s, rfl⟩ := eq_cons_of_startsWith ht.quote
      rfl
    have hplain : { f.plain with description := some t } = f.plain := by
      rw [← hdesc]
      rfl
    have := hrest (some t)
    rw [hplain] at this
    rw [given_of_ne_nil ht.ne_nil, singleton_append, parseItems, hhash, ht.quote]
    exact this

/-- **The entries of a declaration are read as its fields and the comments after them.** -/
theorem parseItems_entries {e : Declaration} (h : e.Legible)
    (hann : ∀ a ∈ annotations, a.kind ≠ .property) (hd : d.parameters = none) :
    parseItems naming annotations d [] none (e.entries.map Entry.text) =
      pure (e.fields.map Field.plain, e.closingComments) := by
  have hfields : ∀ fs : List Field, (∀ f ∈ fs, f.Legible (e.kind == .enum)) → ∀ items,
      parseItems naming annotations d []
          none ((fs.flatMap Field.entries).map Entry.text ++ items) = (do
        let (fields, closing) ← parseItems naming annotations d [] none items
        return (fs.map Field.plain ++ fields, closing)) := by
    intro fs
    induction fs with
    | nil => intro _ items; simp
    | cons f fs ih =>
      intro hfs items
      obtain ⟨hf, hfs⟩ := forall_mem_cons.mp hfs
      rw [flatMap_cons, map_append, append_assoc, parseItems_field hf hann hd, ih hfs]
      simp
  have hclosing : parseItems naming annotations d [] none
      (((given e.closingComments).flatMap fun t => t.lines.map .comment).map Entry.text) =
        pure ([], e.closingComments) := by
    cases hc : e.closingComments with
    | none => rfl
    | some t =>
      obtain ⟨hlines, hof, hne⟩ := (h.closingComments t hc).2.lines
      have hmap : ∀ ts : List Text, ts.map (Entry.text ∘ Entry.comment) = ts := map_id
      have := @parseItems_comments naming annotations d _ hlines [] none []
      rw [append_nil, nil_append] at this
      rw [given_of_ne_nil hne, flatMap_singleton, map_map, hmap, this, parseItems, hof, nonEmpty,
        if_neg (by simpa using hne)]
  rw [Declaration.entries, map_append, hfields _ (fun f hf => (h.fields f hf).2), hclosing,
    pure_bind]
  simp only [append_nil]

end Items

end Schemata
