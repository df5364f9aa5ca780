import Mathlib.Data.List.TakeWhile
import Schemata.TypeExpr.Angles

/-!
# Texts without quotes

A text without quotes is read as its characters, so that scanning it is a recursion over the
characters.  What splitting, trimming and joining make of a text can be said by filtering it: none
of them touches a character that is neither white space nor a comma.

## Main results

* `lex_of_not_quote` — a text without quotes is its characters.
* `filter_splitAt`, `filter_joinWith` — what splitting and joining keep.
-/

namespace Schemata

open List
open Text (dropEndWhile trim squeeze joinWith trimEnd)

variable {c : Char} {p q : Char → Bool} {t : Text}

theorem map_eq_error {ε α β : Type} {f : α → β} {x : Except ε α} {e : ε} (h : f <$> x = .error e) :
    x = .error e := by
  cases x with
  | ok a => cases h
  | error e' =>
    cases h
    rfl

theorem ne_of_class {c d : Char} (h : p c) (hd : p d = false) : c ≠ d := by
  rintro rfl
  rw [h] at hd
  cases hd

theorem bne_of_class {c d : Char} (h : p c) (hd : p d = false) : (c != d) :=
  bne_iff_ne.mpr (ne_of_class h hd)

theorem beq_of_class {c d : Char} (h : p c) (hd : p d = false) : (c == d) = false :=
  beq_eq_false_iff_ne.mpr (ne_of_class h hd)

theorem eq_cons_of_startsWith {c : Char} (h : t.startsWith (· == c)) : ∃ cs, t = c :: cs := by
  cases t with
  | nil => cases h
  | cons d cs =>
    obtain rfl := beq_iff_eq.mp h
    exact ⟨cs, rfl⟩

theorem startsWith_of_isPrefix {s : Text} (hs : s <+: t) (h : t.startsWith p = false) :
    s.startsWith p = false := by
  obtain ⟨u, rfl⟩ := hs
  cases s with
  | nil => rfl
  | cons c s => exact h

theorem forall_mem_of_all {α : Type} {p : α → Prop} [DecidablePred p] {l : List α}
    (h : l.all (fun a => decide (p a))) : ∀ a ∈ l, p a :=
  fun a ha => of_decide_eq_true (all_eq_true.mp h a ha)

/-! ### Characters of names -/

theorem isNameChar_of_isNameStart (h : isNameStart c) : isNameChar c := by
  simp only [isNameStart, Bool.or_eq_true] at h
  rcases h with h | h <;> simp [isNameChar, Char.isAlphanum, h]

theorem isNameChar_of_isBlank (h : isBlank c) : isNameChar c = false := by
  simp only [isBlank, inRanges, blankRanges, any_cons, any_nil, Bool.or_eq_true,
    Bool.and_eq_true, decide_eq_true_eq, Bool.or_false] at h
  rw [Bool.eq_false_iff]
  intro hn
  unfold isNameChar Char.isAlphanum Char.isAlpha Char.isUpper Char.isLower Char.isDigit at hn
  simp only [Bool.or_eq_true, Bool.and_eq_true, decide_eq_true_eq, beq_iff_eq,
    UInt32.le_iff_toNat_le, ge_iff_le] at hn
  have hval : c.val.toNat = c.toNat := rfl
  rw [hval] at hn
  rcases hn with hn | rfl
  · simp at hn
    omega
  · revert h
    decide

theorem not_isBlank_of_isNameChar (h : isNameChar c) : isBlank c = false := by
  rw [Bool.eq_false_iff]
  intro hb
  rw [isNameChar_of_isBlank hb] at h
  cases h

/-! ### Reading characters -/

@[simp] theorem lex_nil (comments : Bool) : lex comments [] = [] := by
  rw [lex]

/-- A character that opens no literal is a lexeme of its own, where comments do not count. -/
theorem lex_cons_of_ne_quote (hc : c ≠ '"') (cs : Text) :
    lex false (c :: cs) = .char c :: lex false cs := by
  rw [lex]
  simp [hc]

theorem lex_of_not_quote (h : '"' ∉ t) : lex false t = t.map .char := by
  induction t with
  | nil => rw [lex_nil, map_nil]
  | cons c cs ih =>
    rw [mem_cons, not_or] at h
    rw [lex_cons_of_ne_quote (Ne.symm h.1), ih h.2, map_cons]

/-- What a text that starts with a quote is read as: a literal and the rest, or one unclosed
lexeme. -/
theorem lex_quote_cases (comments : Bool) (cs : Text) :
    (∃ literal rest, Text.takeLiteral ('"' :: cs) = some (literal, rest) ∧
        lex comments ('"' :: cs) = .literal literal :: lex comments rest) ∨
      lex comments ('"' :: cs) = [.unclosed ('"' :: cs)] := by
  rw [lex]
  simp only [beq_self_eq_true, if_true]
  split
  · rename_i literal rest h
    exact .inl ⟨literal, rest, h, rfl⟩
  · exact .inr rfl

theorem takeLiteral_eq_cons {cs literal rest : Text}
    (h : Text.takeLiteral (c :: cs) = some (literal, rest)) : ∃ body, literal = c :: body := by
  obtain ⟨happ, hne⟩ := Text.takeLiteral_append h
  cases literal with
  | nil => exact absurd rfl hne
  | cons d body =>
    rw [cons_append, List.cons.injEq] at happ
    exact ⟨body, by rw [happ.1]⟩

/-! ### What trimming, splitting and joining keep -/

theorem trimStart_eq_dropWhile (t : Text) : t.trimStart = t.dropWhile isBlank :=
  rfl

theorem filter_dropWhile (hq : ∀ c, q c → p c = false) (t : Text) :
    (t.dropWhile q).filter p = t.filter p := by
  induction t with
  | nil => rfl
  | cons c cs ih =>
    by_cases hc : q c
    · rw [dropWhile_cons_of_pos hc, ih, filter_cons_of_neg (by simp [hq c hc])]
    · rw [dropWhile_cons_of_neg hc]

theorem filter_dropEndWhile (hq : ∀ c, q c → p c = false) (t : Text) :
    (t.dropEndWhile q).filter p = t.filter p := by
  rw [dropEndWhile, filter_reverse, filter_dropWhile hq, filter_reverse, reverse_reverse]

theorem filter_trim (hp : ∀ c, isBlank c → p c = false) (t : Text) :
    t.trim.filter p = t.filter p := by
  rw [trim, trimEnd, filter_dropEndWhile hp, trimStart_eq_dropWhile, filter_dropWhile hp]

theorem filter_squeeze (hp : ∀ c, isBlank c → p c = false) (t : Text) :
    t.squeeze.filter p = t.filter p := by
  rw [squeeze, filter_filter]
  refine filter_congr ?_
  intro c _
  cases hb : isBlank c with
  | true => simp [hp c hb]
  | false => simp

theorem squeeze_trim (t : Text) : t.trim.squeeze = t.squeeze :=
  filter_trim (fun c hc => by simp [hc]) t

@[simp] theorem squeeze_squeeze (t : Text) : t.squeeze.squeeze = t.squeeze := by
  rw [squeeze, squeeze, filter_filter]
  simp

theorem dropWhile_eq_self (h : ∀ c ∈ t, q c = false) : t.dropWhile q = t := by
  cases t with
  | nil => rfl
  | cons c cs => rw [dropWhile_cons_of_neg (by simp [h c])]

theorem trim_eq_self (h : ∀ c ∈ t, isBlank c = false) : t.trim = t := by
  rw [trim, trimEnd, trimStart_eq_dropWhile, dropWhile_eq_self h, dropEndWhile,
    dropWhile_eq_self (fun c hc => h c (mem_reverse.mp hc)), reverse_reverse]

theorem trim_squeeze (t : Text) : t.squeeze.trim = t.squeeze := by
  refine trim_eq_self ?_
  intro c hc
  simpa using (mem_filter.mp hc).2

theorem dropEndWhile_isPrefix (q : Char → Bool) (t : Text) : t.dropEndWhile q <+: t := by
  rw [dropEndWhile, ← reverse_suffix, reverse_reverse]
  exact dropWhile_suffix q

theorem dropWhile_dropWhile (q : Char → Bool) (t : Text) :
    (t.dropWhile q).dropWhile q = t.dropWhile q := by
  rw [dropWhile_eq_self_iff]
  exact dropWhile_get_zero_not q t

theorem trimStart_trim (t : Text) : t.trim.trimStart = t.trim := by
  obtain ⟨after, ht⟩ := dropEndWhile_isPrefix isBlank t.trimStart
  have htrim : t.trim ++ after = t.dropWhile isBlank := ht
  cases hcs : t.trim with
  | nil => rfl
  | cons c cs =>
    have hhead := head?_dropWhile_not isBlank t
    rw [← htrim, hcs] at hhead
    rw [trimStart_eq_dropWhile, dropWhile_cons_of_neg (by simpa using hhead)]

@[simp] theorem trim_trim (t : Text) : t.trim.trim = t.trim := by
  rw [trim, trimStart_trim]
  rw [trim, trimEnd, trimEnd, dropEndWhile, dropEndWhile, reverse_reverse, dropWhile_dropWhile]

theorem getLast?_ne_of_trim (h : t.trim = t) (hc : isBlank c) : t.getLast? ≠ some c := by
  intro hlast
  have hhead := head?_dropWhile_not isBlank t.trimStart.reverse
  rw [← h, trim, trimEnd, dropEndWhile, getLast?_reverse] at hlast
  rw [hlast] at hhead
  simp [hc] at hhead

theorem trimStart_cons (hc : isBlank c = false) (t : Text) : Text.trimStart (c :: t) = c :: t := by
  rw [trimStart_eq_dropWhile, dropWhile_cons_of_neg (by simp [hc])]

theorem trimStart_blank_append {s : Text} (h : ∀ c ∈ s, isBlank c) (t : Text) :
    Text.trimStart (s ++ t) = t.trimStart := by
  rw [trimStart_eq_dropWhile, trimStart_eq_dropWhile, dropWhile_append_of_pos h]

theorem trim_cons_of_isBlank (hc : isBlank c) (t : Text) : trim (c :: t) = t.trim := by
  rw [trim, trim, trimStart_eq_dropWhile, dropWhile_cons_of_pos hc, ← trimStart_eq_dropWhile]

/-- A text that ends with a character other than white space is trimmed at its end. -/
theorem trimEnd_append_singleton (hc : isBlank c = false) (t : Text) :
    trimEnd (t ++ [c]) = t ++ [c] := by
  rw [trimEnd, dropEndWhile, reverse_append, reverse_singleton,
    singleton_append, dropWhile_cons_of_neg (by simp [hc]), reverse_cons, reverse_reverse]

theorem trimStart_append_cons (hc : isBlank c = false) (s t : Text) :
    Text.trimStart (s ++ c :: t) = s.trimStart ++ c :: t := by
  induction s with
  | nil => exact trimStart_cons hc t
  | cons d s ih =>
    by_cases hd : isBlank d
    · rw [cons_append, trimStart_eq_dropWhile, trimStart_eq_dropWhile,
        dropWhile_cons_of_pos hd, dropWhile_cons_of_pos hd]
      exact ih
    · rw [cons_append, trimStart_eq_dropWhile, trimStart_eq_dropWhile,
        dropWhile_cons_of_neg hd, dropWhile_cons_of_neg hd, cons_append]

theorem filter_flatten_map {f : Text → Text} (hf : ∀ t, (f t).filter p = t.filter p)
    (ts : List Text) : (ts.map f).flatten.filter p = ts.flatten.filter p := by
  induction ts with
  | nil => rfl
  | cons t ts ih =>
    rw [map_cons, flatten_cons, flatten_cons, filter_append, filter_append, hf, ih]

/-- Splitting keeps every character that is neither white space nor a separator. -/
theorem filter_splitAt {separator : Char → Bool} (hb : ∀ c, isBlank c → p c = false)
    (hp : ∀ c, separator c → p c = false) {ps : List Text} (h : splitAt separator t = .ok ps) :
    ps.flatten.filter p = t.filter p := by
  obtain ⟨qs, hq, rfl⟩ := map_eq_ok h
  obtain ⟨q, qs, rfl, hfilter⟩ := Lexeme.splitAt_induction
    (motive := fun ls q qs => (q :: qs).flatten.filter p = (raw ls).filter p) rfl
    (fun c _ _ _ hc h => h.trans (by rw [raw_char, filter_cons_of_neg (by simp [hp c hc])]))
      (fun l _ _ _ h => by simp_all) hq
  rw [filter_flatten_map (filter_trim hb), hfilter, raw_lex]

theorem splitBy_ne_nil (p : Char → Bool) (t : Text) : Text.splitBy p t ≠ [] := by
  cases t with
  | nil => exact cons_ne_nil _ _
  | cons c t =>
    rw [Text.splitBy]
    split
    · exact cons_ne_nil _ _
    · cases Text.splitBy p t <;> exact cons_ne_nil _ _

theorem splitBy_append (h : ∀ c ∈ t, p c = false) (hc : p c) (u : Text) :
    Text.splitBy p (t ++ c :: u) = t :: Text.splitBy p u := by
  induction t with
  | nil => rw [nil_append, Text.splitBy, if_pos hc]
  | cons d t ih =>
    obtain ⟨hd, ht⟩ := forall_mem_cons.mp h
    rw [cons_append, Text.splitBy, hd, if_neg Bool.false_ne_true, ih ht]

theorem splitBy_eq_singleton (h : ∀ c ∈ t, p c = false) : Text.splitBy p t = [t] := by
  induction t with
  | nil => rfl
  | cons c t ih =>
    obtain ⟨hc, ht⟩ := forall_mem_cons.mp h
    rw [Text.splitBy, hc, if_neg Bool.false_ne_true, ih ht]

@[simp] theorem joinWith_nil (separator : Text) : joinWith separator [] = [] := rfl

@[simp] theorem joinWith_singleton (separator t : Text) : joinWith separator [t] = t := rfl

@[simp] theorem joinWith_cons_cons (separator t s : Text) (ts : List Text) :
    joinWith separator (t :: s :: ts) = t ++ separator ++ joinWith separator (s :: ts) := rfl

theorem filter_joinWith (hp : (", ".toList).filter p = []) (ts : List Text) :
    (joinWith ", ".toList ts).filter p = ts.flatten.filter p := by
  induction ts with
  | nil => rfl
  | cons t ts ih =>
    cases ts with
    | nil => rw [joinWith_singleton, flatten_cons, flatten_nil, append_nil]
    | cons s ss =>
      rw [joinWith_cons_cons, filter_append, filter_append, hp, ih,
        append_nil, ← filter_append, ← flatten_cons]

end Schemata
