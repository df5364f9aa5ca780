import Mathlib.Data.List.Induction
import Schemata.Proofs.Fragments

/-!
# Texts without their comments

A comment runs to the end of its line, so taking the comments out of a text never joins two of its
lexemes: what follows a comment is a line break or the end of the text.  The lexemes of the text
without comments are those of the text itself, less the comments.

## Main definitions

* `bare` — lexemes without the comments among them.

## Main results

* `stripComments_eq_ok_iff` — stripping comments is writing the bare lexemes.
* `Lexed.lexed_bare` — bare lexemes are read from their own text.
* `Lexed.exists_span`, `Lexed.exists_line` — a text and its bare text start with the same characters
  of a class, and have the same lines.
-/

namespace Schemata

open List

variable {ls : List Lexeme}

/-! ### Bare lexemes -/

def Lexeme.isComment : Lexeme → Bool
  | .comment _ => true
  | _ => false

def bare (ls : List Lexeme) : List Lexeme :=
  ls.filter (!·.isComment)

@[simp] theorem bare_nil : bare [] = [] := rfl

@[simp] theorem bare_char (c : Char) (ls : List Lexeme) :
    bare (.char c :: ls) = .char c :: bare ls := rfl

@[simp] theorem bare_literal (t : Text) (ls : List Lexeme) :
    bare (.literal t :: ls) = .literal t :: bare ls :=
  rfl

@[simp] theorem bare_comment (t : Text) (ls : List Lexeme) :
    bare (.comment t :: ls) = bare ls := rfl

@[simp] theorem bare_append (ls ms : List Lexeme) : bare (ls ++ ms) = bare ls ++ bare ms :=
  filter_append ls ms

@[simp] theorem bare_map_char (t : Text) : bare (t.map .char) = t.map .char := by
  induction t with
  | nil => rfl
  | cons c t ih => rw [map_cons, bare_char, ih]

theorem mem_raw_of_mem_bare {c : Char} (h : c ∈ raw (bare ls)) : c ∈ raw ls := by
  obtain ⟨l, hl, hc⟩ := mem_flatMap.mp h
  exact mem_flatMap.mpr ⟨l, (mem_filter.mp hl).1, hc⟩

/-! ### Readings -/

/-- Lexemes as they are read from a text that closes its literals.  A comment ends its line. -/
inductive Lexed : List Lexeme → Prop
  | nil : Lexed []
  | char {c : Char} {ls : List Lexeme} (quote : c ≠ '"') (hash : c ≠ '#') (rest : Lexed ls) :
      Lexed (.char c :: ls)
  | literal {body : Text} {ls : List Lexeme}
      (taken : Text.takeLiteral ('"' :: (body ++ raw ls)) = some ('"' :: body, raw ls))
      (rest : Lexed ls) :
      Lexed (.literal ('"' :: body) :: ls)
  | comment {t : Text} {ls : List Lexeme} (line : '\n' ∉ t)
      (ends : ls = [] ∨ ∃ ms, ls = .char '\n' :: ms)
      (rest : Lexed ls) : Lexed (.comment ('#' :: t) :: ls)

theorem Lexed.lex_raw (h : Lexed ls) : lex true (raw ls) = ls := by
  induction h with
  | nil => rw [raw_nil, lex_nil]
  | char quote hash _ ih => rw [raw_char, lex_cons quote hash, ih]
  | literal taken _ ih => rw [raw_cons, Lexeme.text, cons_append, lex_literal taken, ih]
  | @comment t ls line ends _ ih =>
    have hends : raw ls = [] ∨ (raw ls).startsWith (· == '\n') := by
      rcases ends with rfl | ⟨ms, rfl⟩
      · exact .inl rfl
      · exact .inr rfl
    rw [raw_cons, Lexeme.text, lex_comment_append rfl (by simpa using line) hends, ih]

theorem Lexed.stripComments_raw (h : Lexed ls) : stripComments (raw ls) = .ok (raw (bare ls)) := by
  rw [stripComments, h.lex_raw]
  induction h with
  | nil => rfl
  | char _ _ _ ih =>
    rw [Lexeme.stripComments, ih]
    rfl
  | literal _ _ ih =>
    rw [Lexeme.stripComments, ih]
    rfl
  | comment _ _ _ ih => rw [Lexeme.stripComments, ih, bare_comment]

theorem lexed_of_stripComments {t s : Text} (h : stripComments t = .ok s) : Lexed (lex true t) := by
  unfold stripComments at h
  induction t using lex_induction true generalizing s with
  | nil =>
    rw [lex_nil]
    exact .nil
  | char c u quote hash step ih =>
    rw [step] at h ⊢
    obtain ⟨s', hs', -⟩ := map_eq_ok h
    exact .char quote (hash rfl) (ih hs')
  | literal body u taken now _ ih =>
    rw [now] at h ⊢
    obtain ⟨s', hs', -⟩ := map_eq_ok h
    exact .literal (by rwa [raw_lex]) (ih hs')
  | comment body u _ line ends now _ ih =>
    rw [now] at h ⊢
    refine .comment line ?_ (ih h)
    rcases ends with rfl | ⟨v, rfl⟩
    · exact .inl (lex_nil true)
    · exact .inr ⟨lex true v, lex_cons (by decide) (by decide) true v⟩
  | unclosed u now =>
    rw [now] at h
    cases h

/-- **Stripping comments** is writing the bare lexemes of a text that closes its literals. -/
theorem stripComments_eq_ok_iff {t s : Text} :
    stripComments t = .ok s ↔ Lexed (lex true t) ∧ s = raw (bare (lex true t)) := by
  constructor
  · intro h
    have hlexed := lexed_of_stripComments h
    have hraw := hlexed.stripComments_raw
    rw [raw_lex, h] at hraw
    exact ⟨hlexed, Except.ok.inj hraw⟩
  · rintro ⟨hlexed, rfl⟩
    have hraw := hlexed.stripComments_raw
    rwa [raw_lex] at hraw

namespace Lexed

variable {ls ms : List Lexeme}

theorem append_right (h : Lexed (ls ++ ms)) : Lexed ms := by
  induction ls with
  | nil => exact h
  | cons l ls ih =>
    cases h with
    | char _ _ rest => exact ih rest
    | literal _ rest => exact ih rest
    | comment _ _ rest => exact ih rest

theorem append_left (h : Lexed (ls ++ ms)) : Lexed ls := by
  induction ls with
  | nil => exact .nil
  | cons l ls ih =>
    cases h with
    | char quote hash rest => exact .char quote hash (ih rest)
    | literal taken rest =>
      refine .literal (Text.takeLiteral_congr taken fun hq => ?_) (ih rest)
      change (raw (ls ++ ms)).startsWith (· == '"') = true
      rw [raw_append]
      cases hraw : raw ls with
      | nil => simp [hraw, Text.startsWith] at hq
      | cons c t => rwa [hraw] at hq
    | comment line ends rest =>
      refine .comment line ?_ (ih rest)
      cases ls with
      | nil => exact .inl rfl
      | cons l ls =>
        rcases ends with hnil | ⟨ms', hcons⟩
        · cases hnil
        · obtain ⟨rfl, -⟩ := List.cons.inj hcons
          exact .inr ⟨ls, rfl⟩

theorem startsWith_quote (h : Lexed ls) (hq : (raw (bare ls)).startsWith (· == '"')) :
    (raw ls).startsWith (· == '"') := by
  cases h with
  | nil => exact hq
  | char _ _ _ => exact hq
  | literal _ _ => exact hq
  | comment _ ends _ =>
    rcases ends with rfl | ⟨ms, rfl⟩
    · cases hq
    · cases hq

/-- **Bare lexemes are read from their own text.** -/
theorem lexed_bare (h : Lexed ls) : Lexed (bare ls) := by
  induction h with
  | nil => exact .nil
  | char quote hash _ ih => exact .char quote hash ih
  | literal taken rest ih => exact .literal (Text.takeLiteral_congr taken rest.startsWith_quote) ih
  | comment _ _ _ ih => exact ih

/-- **A text and its bare text start with the same characters of a class** that neither a literal
nor a comment starts with.  If line breaks are of the class, no comment may follow. -/
theorem exists_span {p : Char → Bool} (hquote : p '"' = false) (hhash : p '#' = false)
    (h : Lexed ls) (hstop : p '\n' → Text.startsWith (· == '#') ((raw ls).dropWhile p) = false) :
    ∃ w ms, ls = w.map .char ++ ms ∧ (raw ls).takeWhile p = w ∧ (raw ls).dropWhile p = raw ms ∧
      (raw (bare ls)).takeWhile p = w ∧ (raw (bare ls)).dropWhile p = raw (bare ms) := by
  induction h with
  | nil => exact ⟨[], [], rfl, rfl, rfl, rfl, rfl⟩
  | @char c ls _ _ _ ih =>
    by_cases hc : p c
    · have hdrop : (raw (.char c :: ls)).dropWhile p = (raw ls).dropWhile p :=
        dropWhile_cons_of_pos hc
      obtain ⟨w, ms, rfl, htake, hrest, htake', hrest'⟩ := ih (by rwa [hdrop] at hstop)
      refine ⟨c :: w, ms, rfl, ?_, ?_, ?_, ?_⟩
      · rw [raw_char, takeWhile_cons_of_pos hc, htake]
      · rw [hdrop, hrest]
      · rw [bare_char, raw_char, takeWhile_cons_of_pos hc, htake']
      · rw [bare_char, raw_char, dropWhile_cons_of_pos hc, hrest']
    · exact ⟨[], .char c :: ls, rfl, takeWhile_cons_of_neg hc, dropWhile_cons_of_neg hc,
        takeWhile_cons_of_neg hc, dropWhile_cons_of_neg hc⟩
  | @literal body ls _ _ _ =>
    have hc : ¬ p '"' := by simp [hquote]
    exact ⟨[], _, rfl, takeWhile_cons_of_neg hc, dropWhile_cons_of_neg hc,
      takeWhile_cons_of_neg hc, dropWhile_cons_of_neg hc⟩
  | comment _ ends _ _ =>
    have hc : ¬ p '#' := by simp [hhash]
    -- what stands after the comment is not of the class either
    have hn : ¬ p '\n' := by
      intro hn
      have := hstop hn
      rw [raw_cons, Lexeme.text, cons_append, dropWhile_cons_of_neg hc] at this
      cases this
    refine ⟨[], _, rfl, takeWhile_cons_of_neg hc, dropWhile_cons_of_neg hc, ?_, ?_⟩
    · rcases ends with rfl | ⟨ms, rfl⟩
      · rfl
      · exact takeWhile_cons_of_neg hn
    · rcases ends with rfl | ⟨ms, rfl⟩
      · rfl
      · exact dropWhile_cons_of_neg hn

end Lexed

/-! ### Characters at the ends of a text -/

/-- Every lexeme is a character or stands between quotes. -/
def Enclosed (ls : List Lexeme) : Prop :=
  ∀ l ∈ ls, (∃ c, l = .char c) ∨ (∃ t, l.text = '"' :: t) ∧ l.text.getLast? = some '"'

namespace Enclosed

variable {p : Char → Bool} {ls ms : List Lexeme}

theorem mono (h : Enclosed ls) (hms : ms ⊆ ls) : Enclosed ms :=
  fun l hl => h l (hms hl)

theorem exists_dropWhile (hp : p '"' = false) (h : Enclosed ls) :
    ∃ (w : Text) (ms : List Lexeme), ls = w.map .char ++ ms ∧ (∀ c ∈ w, p c) ∧
      (raw ls).dropWhile p = raw ms := by
  induction ls with
  | nil => exact ⟨[], [], rfl, forall_mem_nil _, rfl⟩
  | cons l ls ih =>
    rcases h l mem_cons_self with ⟨c, rfl⟩ | ⟨⟨t, ht⟩, -⟩
    · by_cases hc : p c
      · obtain ⟨w, ms, rfl, hw, hdrop⟩ := ih (h.mono (subset_cons_self _ _))
        exact ⟨c :: w, ms, rfl, forall_mem_cons.mpr ⟨hc, hw⟩,
          (dropWhile_cons_of_pos hc).trans hdrop⟩
      · exact ⟨[], .char c :: ls, rfl, forall_mem_nil _, dropWhile_cons_of_neg hc⟩
    · refine ⟨[], l :: ls, rfl, forall_mem_nil _, ?_⟩
      rw [raw_cons, ht, cons_append, dropWhile_cons_of_neg (by simp [hp])]

theorem exists_dropEndWhile (hp : p '"' = false) (h : Enclosed ls) :
    ∃ (ms : List Lexeme) (w : Text), ls = ms ++ w.map .char ∧ (∀ c ∈ w, p c) ∧
      (raw ls).dropEndWhile p = raw ms := by
  induction ls using List.reverseRecOn with
  | nil => exact ⟨[], [], rfl, forall_mem_nil _, rfl⟩
  | append_singleton ls l ih =>
    rw [raw_append, raw_cons, raw_nil, append_nil]
    -- a lexeme that does not end with such a character ends the text
    have hstop : ∀ {c}, l.text.getLast? = some c → p c = false →
        ∃ (ms : List Lexeme) (w : Text), ls ++ [l] = ms ++ w.map .char ∧ (∀ c ∈ w, p c) ∧
          Text.dropEndWhile p (raw ls ++ l.text) = raw ms := by
      intro c hlast hc
      refine ⟨ls ++ [l], [], (append_nil _).symm, forall_mem_nil _, ?_⟩
      rw [dropEndWhile_eq_self (c := c) (by rw [getLast?_append, hlast]; rfl) hc, raw_append,
        raw_cons, raw_nil, append_nil]
    rcases h l (by simp) with ⟨c, rfl⟩ | ⟨-, hlast⟩
    · by_cases hc : p c
      · obtain ⟨ms, w, rfl, hw, hdrop⟩ := ih (h.mono (subset_append_left _ _))
        refine ⟨ms, w ++ [c], by simp, by simpa [or_imp, forall_and] using ⟨hw, hc⟩, ?_⟩
        rw [← hdrop]
        exact dropEndWhile_append (by simpa [Lexeme.text] using hc) _
      · exact hstop rfl (by simpa using hc)
    · exact hstop hlast hp

end Enclosed

/-! ### Lexemes without comments -/

/-- Lexemes as they are read from a text that closes its literals and has no comments. -/
structure IsBare (ls : List Lexeme) : Prop where
  lexed : Lexed ls
  quiet : ls.all Lexeme.isQuiet = true

theorem Lexed.isBare (h : Lexed ls) : IsBare (bare ls) := by
  refine ⟨h.lexed_bare, ?_⟩
  induction h with
  | nil => rfl
  | char _ hash _ ih => simpa [Lexeme.isQuiet, hash] using ih
  | literal _ _ ih => simpa [Lexeme.isQuiet] using ih
  | comment _ _ _ ih => exact ih

namespace IsBare

variable {ls ms : List Lexeme}

theorem nil : IsBare [] := ⟨.nil, rfl⟩

theorem append_left (h : IsBare (ls ++ ms)) : IsBare ls := by
  have hquiet := h.quiet
  rw [all_append, Bool.and_eq_true] at hquiet
  exact ⟨h.lexed.append_left, hquiet.1⟩

theorem append_right (h : IsBare (ls ++ ms)) : IsBare ms := by
  have hquiet := h.quiet
  rw [all_append, Bool.and_eq_true] at hquiet
  exact ⟨h.lexed.append_right, hquiet.2⟩

theorem lex_raw (h : IsBare ls) (comments : Bool) : lex comments (raw ls) = ls := by
  obtain ⟨hlexed, hquiet⟩ := h
  induction hlexed with
  | nil => rw [raw_nil, lex_nil]
  | char quote hash _ ih =>
    rw [all_cons, Bool.and_eq_true] at hquiet
    rw [raw_char, lex_cons quote hash, ih hquiet.2]
  | literal taken _ ih =>
    rw [all_cons, Bool.and_eq_true] at hquiet
    rw [raw_cons, Lexeme.text, cons_append, lex_literal taken, ih hquiet.2]
  | comment _ _ _ _ => simp [Lexeme.isQuiet] at hquiet

theorem closed (h : IsBare ls) : Closed (raw ls) := by
  rw [Closed, h.lex_raw]
  exact h.quiet

theorem enclosed (h : IsBare ls) : Enclosed ls := by
  obtain ⟨hlexed, hquiet⟩ := h
  induction hlexed with
  | nil => exact fun l hl => absurd hl not_mem_nil
  | @char c _ _ _ _ ih =>
    rw [all_cons, Bool.and_eq_true] at hquiet
    exact forall_mem_cons.mpr ⟨.inl ⟨c, rfl⟩, ih hquiet.2⟩
  | @literal body _ taken _ ih =>
    rw [all_cons, Bool.and_eq_true] at hquiet
    exact forall_mem_cons.mpr ⟨.inr ⟨⟨body, rfl⟩, takeLiteral_getLast taken⟩, ih hquiet.2⟩
  | comment _ _ _ _ => cases hquiet

/-- One character that starts neither a literal nor a comment may stand for another. -/
theorem replace {c d : Char} (h : IsBare (ls ++ .char c :: ms)) (quote : d ≠ '"') (hash : d ≠ '#') :
    IsBare (ls ++ .char d :: ms) := by
  induction ls with
  | nil =>
    have hrest : IsBare ms := @append_right [.char c] ms h
    refine ⟨.char quote hash hrest.lexed, ?_⟩
    simpa [Lexeme.isQuiet, hash] using hrest.quiet
  | cons l ls ih =>
    obtain ⟨hlexed, hquiet⟩ := ih (@append_right [l] _ h)
    have hl : l.isQuiet := by
      have := h.quiet
      rw [cons_append, all_cons, Bool.and_eq_true] at this
      exact this.1
    have hall : ((l :: ls) ++ .char d :: ms).all Lexeme.isQuiet := by
      rw [cons_append, all_cons, hl, hquiet]
      rfl
    obtain ⟨hwhole, -⟩ := h
    cases hwhole with
    | char quote hash _ => exact ⟨.char quote hash hlexed, hall⟩
    | literal taken _ =>
      refine ⟨.literal (Text.takeLiteral_congr taken fun hq => ?_) hlexed, hall⟩
      cases ls with
      | nil => simp [Text.startsWith, Lexeme.text, quote] at hq
      | cons k ls =>
        -- both texts start with the lexeme `k`
        have hk : ∀ us : List Lexeme, raw (k :: us) = k.text ++ raw us := raw_cons k
        have hne : k.text ≠ [] := by
          cases hlexed with
          | char _ _ _ => exact cons_ne_nil _ _
          | literal _ _ => exact cons_ne_nil _ _
          | comment _ _ _ => simp [Lexeme.isQuiet] at hquiet
        obtain ⟨e, v, he⟩ := exists_cons_of_ne_nil hne
        change (raw (k :: (ls ++ .char d :: ms))).startsWith (· == '"') = true at hq
        change (raw (k :: (ls ++ .char c :: ms))).startsWith (· == '"') = true
        rw [hk, he] at hq ⊢
        exact hq
    | comment _ _ _ => cases hl

end IsBare

/-! ### Lines -/

def EndsLine (ls : List Lexeme) : Prop :=
  ls = [] ∨ ∃ ms, ls = .char '\n' :: ms

theorem EndsLine.endsLine_bare (h : EndsLine ls) : EndsLine (bare ls) := by
  rcases h with rfl | ⟨ms, rfl⟩
  · exact .inl rfl
  · exact .inr ⟨bare ms, rfl⟩

theorem EndsLine.takeWhile {p q : List Lexeme} (hp : '\n' ∉ raw p) (hq : EndsLine q) :
    (raw (p ++ q)).takeWhile (· != '\n') = raw p ∧
      (raw (p ++ q)).dropWhile (· != '\n') = raw q := by
  rw [raw_append]
  refine takeWhile_line hp ?_
  rcases hq with rfl | ⟨ms, rfl⟩
  · exact .inl rfl
  · exact .inr ⟨raw ms, rfl⟩

namespace Lexed

variable {ls p q : List Lexeme}

theorem exists_line (h : Lexed ls) :
    (∃ p q, ls = p ++ q ∧ '\n' ∉ raw p ∧ EndsLine q) ∨
      ∃ p s t q, ls = p ++ .literal (s ++ '\n' :: t) :: q ∧ '\n' ∉ raw p ∧ '\n' ∉ s := by
  induction h with
  | nil => exact .inl ⟨[], [], rfl, not_mem_nil, .inl rfl⟩
  | @char c ls _ _ _ ih =>
    by_cases hc : c = '\n'
    · subst hc
      exact .inl ⟨[], _, rfl, not_mem_nil, .inr ⟨ls, rfl⟩⟩
    · have hcons : ∀ p, '\n' ∉ raw p → '\n' ∉ raw (.char c :: p) := by
        intro p hp
        simpa [Lexeme.text, Ne.symm hc] using hp
      rcases ih with ⟨p, q, rfl, hp, hq⟩ | ⟨p, s, t, q, rfl, hp, hs⟩
      · exact .inl ⟨.char c :: p, q, rfl, hcons p hp, hq⟩
      · exact .inr ⟨.char c :: p, s, t, q, rfl, hcons p hp, hs⟩
  | @literal body ls _ _ ih =>
    by_cases hm : '\n' ∈ '"' :: body
    · obtain ⟨s, t, hst, hs⟩ := eq_append_cons_of_mem hm
      exact .inr ⟨[], s, t, ls, by rw [hst, nil_append], not_mem_nil, hs⟩
    · have hcons : ∀ p, '\n' ∉ raw p → '\n' ∉ raw (.literal ('"' :: body) :: p) := by
        intro p hp
        simpa [Lexeme.text, hp] using hm
      rcases ih with ⟨p, q, rfl, hp, hq⟩ | ⟨p, s, t, q, rfl, hp, hs⟩
      · exact .inl ⟨.literal ('"' :: body) :: p, q, rfl, hcons p hp, hq⟩
      · exact .inr ⟨.literal ('"' :: body) :: p, s, t, q, rfl, hcons p hp, hs⟩
  | @comment t ls line ends _ _ =>
    exact .inl ⟨[.comment ('#' :: t)], ls, rfl, by simpa [Lexeme.text] using line, ends⟩

theorem takeLiteral_eq_none {s t rest : Text}
    (h : Text.takeLiteral (s ++ '\n' :: t ++ rest) = some (s ++ '\n' :: t, rest)) :
    Text.takeLiteral s = none := by
  cases hs : Text.takeLiteral s with
  | none => rfl
  | some r =>
    obtain ⟨m, r⟩ := r
    obtain ⟨rfl, -⟩ := Text.takeLiteral_append hs
    -- it would end as early in the whole text
    have hlonger : Text.takeLiteral (m ++ (r ++ '\n' :: (t ++ rest))) =
        some (m, r ++ '\n' :: (t ++ rest)) := by
      refine Text.takeLiteral_congr hs fun hq => ?_
      cases r with
      | nil => cases hq
      | cons c r => exact hq
    have hsame : m ++ r ++ '\n' :: t ++ rest = m ++ (r ++ '\n' :: (t ++ rest)) := by simp
    rw [hsame, hlonger] at h
    have hlength := congrArg List.length (Prod.mk.inj (Option.some.inj h)).1
    simp only [length_append, length_cons] at hlength
    omega

theorem not_stripComments {s t : Text} (h : Lexed (p ++ .literal (s ++ '\n' :: t) :: q))
    (u : Text) : stripComments (raw p ++ s) ≠ .ok u := by
  unfold stripComments
  obtain ⟨s', hs⟩ : ∃ s', s = '"' :: s' := by
    have hlast := h.append_right
    generalize hl : s ++ '\n' :: t = l at hlast
    cases hlast with
    | literal _ _ =>
      cases s with
      | nil => cases hl
      | cons c s' => exact ⟨s', by rw [(List.cons.inj hl).1]⟩
  -- up to the literal the lexemes are the same
  induction p generalizing u with
  | nil =>
    have hnone : Text.takeLiteral s = none := by
      generalize hl : s ++ '\n' :: t = l at h
      cases h with
      | literal taken _ =>
        rw [← cons_append, ← hl] at taken
        exact takeLiteral_eq_none taken
    rw [raw_nil, nil_append, hs]
    rcases lex_quote_cases true s' with ⟨literal, rest, hl, -⟩ | hlex
    · rw [← hs, hnone] at hl
      cases hl
    · rw [hlex]
      intro hu
      cases hu
  | cons l p ih =>
    cases h with
    | char quote hash rest =>
      rw [raw_cons, Lexeme.text, append_assoc, singleton_append, lex_cons quote hash]
      intro hu
      obtain ⟨u', hu', -⟩ := map_eq_ok hu
      exact ih rest u' hu'
    | @literal body _ taken rest =>
      have hlit : Text.takeLiteral ('"' :: (body ++ (raw p ++ s))) =
          some ('"' :: body, raw p ++ s) := by
        refine Text.takeLiteral_congr taken fun hq => ?_
        change (raw (p ++ .literal (s ++ '\n' :: t) :: q)).startsWith (· == '"') = true
        rw [raw_append, raw_cons, Lexeme.text, hs]
        rw [hs] at hq
        cases hraw : raw p with
        | nil => rfl
        | cons c r => rwa [hraw] at hq
      rw [raw_cons, Lexeme.text, append_assoc, cons_append, lex_literal hlit]
      intro hu
      obtain ⟨u', hu', -⟩ := map_eq_ok hu
      exact ih rest u' hu'
    | comment line ends rest =>
      have hends : raw p ++ s = [] ∨ (raw p ++ s).startsWith (· == '\n') := by
        rcases ends with hnil | ⟨ms, hcons⟩
        · exact absurd hnil (by simp)
        · cases p with
          | nil => cases hcons
          | cons l p =>
            obtain ⟨rfl, -⟩ := List.cons.inj hcons
            exact .inr rfl
      rw [raw_cons, Lexeme.text, append_assoc, lex_comment_append rfl (by simpa using line) hends]
      exact ih rest u

end Lexed

end Schemata
