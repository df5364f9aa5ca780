import Schemata.Proofs.Bare
import Schemata.Proofs.Lines

/-!
# Bodies without their comments

A comment in a body is an item of its own, or it trails the item before it on its line.  Otherwise a
body has the same items with its comments and without them, as long as no item goes on after a
comment.  The two readings do not finish every item at the same time: a comment finishes the item
before it, and without the comment the item may end before, at white space with another field after
it, or later, at the line break.
-/

namespace Schemata

open List

variable {c : Char} {depth start start' : Nat} {is js : List Text} {it item t u : Text}
    {ls r : List Lexeme}

/-! ### Items and comments -/

/-- An item without the comment behind it; a comment is no item. -/
def uncommented? (item : Text) : Option Text :=
  match stripComments item with
  | .ok t => if t.trim.isEmpty then none else some t.trim
  | .error _ => some item

/-- Items without the comments among them and behind them. -/
def withoutComments (items : List Text) : List Text :=
  items.filterMap uncommented?

/-- An item as it stands in a body: closed, trimmed, and not empty. -/
structure IsTidy (t : Text) : Prop where
  closed : Closed t
  trimmed : t.trim = t
  ne : t ≠ []

theorem IsTidy.uncommented? (h : IsTidy t) : uncommented? t = some t := by
  rw [Schemata.uncommented?, stripComments_eq h.closed]
  simp [h.trimmed, h.ne]

theorem uncommented?_comment {c : Text} (hc : '\n' ∉ c) : uncommented? ('#' :: c) = none := by
  have hlex := lex_comment_append (t := '#' :: c) rfl (by simpa using hc) (u := []) (.inl rfl)
  rw [append_nil, lex_nil] at hlex
  rw [uncommented?, stripComments, hlex]
  rfl

theorem IsTidy.uncommented?_trailed {c : Text} (h : IsTidy t) (hc : '\n' ∉ c) :
    Schemata.uncommented? (t ++ ' ' :: '#' :: c) = some t := by
  have hcomment := lex_comment_append (t := '#' :: c) rfl (by simpa using hc) (u := []) (.inl rfl)
  rw [append_nil, lex_nil] at hcomment
  have hlex : lex true (t ++ ' ' :: '#' :: c) =
      lex false t ++ [.char ' ', .comment ('#' :: c)] := by
    rw [lex_append h.closed rfl, lex_cons (by decide) (by decide), hcomment]
  have hstrip : stripComments (t ++ ' ' :: '#' :: c) = .ok (t ++ [' ']) := by
    rw [stripComments, hlex, stripComments_append h.closed, raw_lex]
    rfl
  have htrim : Text.trim (t ++ [' ']) = t := by
    rw [trim_append_blank (forall_mem_of_all rfl), h.trimmed]
  rw [Schemata.uncommented?, hstrip]
  simp [htrim, h.ne]

/-- Items with comments among them and behind them, and the items alone. -/
inductive Mixed : List Text → List Text → Prop
  | nil : Mixed [] []
  | comment {is js : List Text} {c : Text} (before : Mixed is js) (line : '\n' ∉ c) :
      Mixed (is ++ ['#' :: c]) js
  | item {is js : List Text} {t : Text} (before : Mixed is js) (tidy : IsTidy t) :
      Mixed (is ++ [t]) (js ++ [t])
  | trailed {is js : List Text} {t c : Text} (before : Mixed is js) (tidy : IsTidy t)
      (line : '\n' ∉ c) : Mixed (is ++ [t ++ ' ' :: '#' :: c]) (js ++ [t])

theorem Mixed.withoutComments (h : Mixed is js) : withoutComments is = js := by
  unfold Schemata.withoutComments
  induction h with
  | nil => rfl
  | comment _ line ih => simp [filterMap_append, ih, uncommented?_comment line]
  | item _ tidy ih => simp [filterMap_append, ih, tidy.uncommented?]
  | trailed _ tidy line ih => simp [filterMap_append, ih, tidy.uncommented?_trailed line]

theorem Mixed.attach {b : Body} (h : Mixed b.items js) {c : Text} (hc : '\n' ∉ c) :
    Mixed (b.attach ('#' :: c)).items js := by
  unfold Body.attach
  generalize hitems : b.items = is at h
  cases h with
  | nil => exact .comment .nil hc
  | comment before line =>
    rw [getLast?_concat]
    simp only [Text.startsWith, head?_cons, Option.any_some, beq_self_eq_true, Bool.or_true,
      Bool.not_true, Bool.and_false, Bool.false_eq_true, if_false]
    exact .comment (.comment before line) hc
  | item before tidy =>
    rw [getLast?_concat]
    dsimp only
    split
    · rw [dropLast_concat]
      exact .trailed before tidy hc
    · exact .comment (.item before tidy) hc
  | @trailed _ _ t d before tidy line =>
    rw [getLast?_concat]
    dsimp only
    split
    · rw [dropLast_concat]
      have hline : '\n' ∉ d ++ ' ' :: '#' :: c := by simp [line, hc]
      simpa using Mixed.trailed before tidy hline
    · exact .comment (.trailed before tidy line) hc

/-! ### Items being read -/

def literals (ls : List Lexeme) : List Text :=
  ls.filterMap fun
    | .literal t => some t
    | _ => none

theorem literals_bare (ls : List Lexeme) : literals (bare ls) = literals ls := by
  unfold literals bare
  rw [filterMap_filter]
  congr 1
  funext l
  cases l <;> rfl

namespace IsBare

variable {r : List Lexeme}

theorem exists_chars (h : IsBare r) (hr : ∀ c ∈ raw r, isBlank c) :
    ∃ w : Text, (∀ c ∈ w, isBlank c) ∧ r = w.map .char := by
  obtain ⟨hlexed, hquiet⟩ := h
  induction hlexed with
  | nil => exact ⟨[], forall_mem_nil _, rfl⟩
  | @char c ls _ _ _ ih =>
    rw [all_cons, Bool.and_eq_true] at hquiet
    obtain ⟨hc, hls⟩ := forall_mem_cons.mp (hr : ∀ d ∈ c :: raw ls, isBlank d)
    obtain ⟨w, hw, rfl⟩ := ih hls hquiet.2
    exact ⟨c :: w, forall_mem_cons.mpr ⟨hc, hw⟩, rfl⟩
  | literal _ _ _ => exact absurd (hr '"' mem_cons_self) (by decide)
  | comment _ _ _ _ => cases hquiet

theorem chars_append {w : Text} (hw : ∀ c ∈ w, isBlank c) (h : IsBare r) :
    IsBare (w.map .char ++ r) := by
  induction w with
  | nil => exact h
  | cons c w ih =>
    obtain ⟨hc, hw'⟩ := forall_mem_cons.mp hw
    obtain ⟨hlexed, hquiet⟩ := ih hw'
    obtain ⟨hquote, hhash⟩ := ne_of_blank hw c mem_cons_self
    refine ⟨.char hquote hhash hlexed, ?_⟩
    rw [map_cons, cons_append, all_cons, hquiet]
    simpa [Lexeme.isQuiet] using hhash

theorem isTidy (h : IsBare (.literal t :: r)) : IsTidy t := by
  have hclosed := (@append_left [.literal t] r h).closed
  obtain ⟨hlexed, -⟩ := h
  cases hlexed with
  | literal taken _ =>
    refine ⟨by simpa [Lexeme.text] using hclosed, ?_, cons_ne_nil _ _⟩
    exact dropEndWhile_eq_self (takeLiteral_getLast taken) (rfl : isBlank '"' = false)

theorem exists_trim (h : IsBare r) : ∃ m, IsBare m ∧ (raw r).trim = raw m := by
  obtain ⟨w, m, rfl, -, hm⟩ := h.enclosed.exists_dropWhile (rfl : isBlank '"' = false)
  obtain ⟨m', w', rfl, -, hm'⟩ :=
    h.append_right.enclosed.exists_dropEndWhile (rfl : isBlank '"' = false)
  refine ⟨m', h.append_right.append_left, ?_⟩
  rw [Text.trim, trimStart_eq_dropWhile, hm]
  exact hm'

/-- A lexeme that follows white space has one space before it, unless it is the first. -/
theorem exists_spaced {l : Lexeme} (h : IsBare (l :: r)) (hs : Spaced false (l :: r))
    (started spaced : Bool) :
    ∃ m, IsBare m ∧ (if started && spaced then [' '] else []) ++ raw (l :: r) = raw m ∧
      (started → (raw m).startsWith (· == '"') → spaced = false ∧
        (raw (l :: r)).startsWith (· == '"')) ∧
      Spaced started m ∧ literals m = literals (l :: r) := by
  by_cases hspace : started && spaced
  · obtain ⟨rfl, rfl⟩ := (Bool.and_eq_true _ _).mp hspace
    refine ⟨.char ' ' :: l :: r, ⟨.char (by decide) (by decide) h.lexed, h.quiet⟩, rfl, ?_,
      .space hs, rfl⟩
    intro _ hq
    cases hq
  · rw [if_neg hspace]
    refine ⟨l :: r, h, rfl, ?_, hs.after, rfl⟩
    rintro rfl hq
    exact ⟨by simpa using hspace, hq⟩

theorem exists_collapse (h : IsBare r) (started spaced : Bool) :
    ∃ m, IsBare m ∧ Lexeme.collapse started spaced r = .ok (raw m) ∧
      (started → (raw m).startsWith (· == '"') → spaced = false ∧ (raw r).startsWith (· == '"')) ∧
      (m = [] ∨ Spaced started m) ∧ literals m = literals r := by
  obtain ⟨hlexed, hquiet⟩ := h
  -- a literal must not come to stand before a quote, so what follows it is looked at
  induction hlexed generalizing started spaced with
  | nil => exact ⟨[], .nil, rfl, fun _ hq => (by cases hq), .inl rfl, rfl⟩
  | @char c ls quote hash _ ih =>
    rw [all_cons, Bool.and_eq_true] at hquiet
    rw [Lexeme.collapse]
    by_cases hc : isBlank c
    · obtain ⟨m, hm, hcollapse, hstart, hspaced, hliterals⟩ := ih started true hquiet.2
      rw [if_pos hc, hcollapse]
      refine ⟨m, hm, rfl, fun hs hq => ?_, hspaced, hliterals⟩
      cases (hstart hs hq).1
    · obtain ⟨m, hm, hcollapse, -, hspaced, hliterals⟩ := ih true false hquiet.2
      have hcons : IsBare (.char c :: m) := ⟨.char quote hash hm.lexed, by
        simpa [Lexeme.isQuiet, hash] using hm.quiet⟩
      obtain ⟨m', hm', hraw, hstart, hspaced', hliterals'⟩ :=
        hcons.exists_spaced
          (.char (by simpa using hc) (hspaced.elim (fun hm => hm ▸ .nil) id)) started spaced
      rw [if_neg hc, hcollapse]
      refine ⟨m', hm', ?_, hstart, .inr hspaced', hliterals'.trans hliterals⟩
      rw [← hraw]
      split <;> rfl
  | @literal body ls taken _ ih =>
    rw [all_cons, Bool.and_eq_true] at hquiet
    obtain ⟨m, hm, hcollapse, hstart, hspaced, hliterals⟩ := ih true false hquiet.2
    have hcons : IsBare (.literal ('"' :: body) :: m) :=
      ⟨.literal (Text.takeLiteral_congr taken fun hq => (hstart rfl hq).2) hm.lexed, by
        simpa [Lexeme.isQuiet] using hm.quiet⟩
    obtain ⟨m', hm', hraw, hstart', hspaced', hliterals'⟩ :=
      hcons.exists_spaced (.literal _ (hspaced.elim (fun hm => hm ▸ .nil) id)) started spaced
    rw [Lexeme.collapse, hcollapse]
    refine ⟨m', hm', ?_, hstart', .inr hspaced',
      hliterals'.trans (congrArg (('"' :: body) :: ·) hliterals)⟩
    rw [← hraw]
    split <;> rfl
  | comment _ _ _ _ => cases hquiet

end IsBare

/-- **A header is normal** once its comments are stripped and its white space is collapsed: doing so
again changes nothing, outside of its literals there are no `#` and only single spaces, none of them
at its ends, and its literals are those of the text. -/
theorem header_normal {header : Text} (h : (stripComments t >>= collapse) = .ok header) :
    (stripComments header >>= collapse) = .ok header ∧ (lex true header).all Lexeme.isQuiet ∧
      (header = [] ∨ Spaced false (lex true header)) ∧
        literals (lex true header) = literals (lex true t) := by
  obtain ⟨s, hs, hcollapsed⟩ := bind_eq_ok.mp h
  obtain ⟨hlexed, rfl⟩ := stripComments_eq_ok_iff.mp hs
  obtain ⟨m, hm, hcollapse, -, hspaced, hliterals⟩ := hlexed.isBare.exists_collapse false false
  rw [Schemata.collapse, hlexed.isBare.lex_raw, hcollapse] at hcollapsed
  cases hcollapsed
  refine ⟨bind_eq_ok.mpr ⟨raw m, stripComments_eq hm.closed, ?_⟩, ?_, ?_, ?_⟩
  · rcases hspaced with rfl | hspaced
    · rw [Schemata.collapse, raw_nil, lex_nil]
      rfl
    · exact collapse_eq (by rwa [hm.lex_raw])
  · rw [hm.lex_raw]
    exact hm.quiet
  · rw [hm.lex_raw]
    exact hspaced.imp_left fun hnil => by rw [hnil, raw_nil]
  · rw [hm.lex_raw, hliterals, literals_bare]

/-- An empty literal before a comment, and a `#` in a block string. -/
theorem header_normal_quotes :
    (stripComments "type A @d(a: \"\"# \"\n  b: \"\"\"#\"\"\")".toList >>= collapse) =
        .ok "type A @d(a: \"\" b: \"\"\"#\"\"\")".toList ∧
      literals (lex true "type A @d(a: \"\" b: \"\"\"#\"\"\")".toList) =
        ["\"\"".toList, "\"\"\"#\"\"\"".toList] := by
  have hheader : (stripComments "type A @d(a: \"\"# \"\n  b: \"\"\"#\"\"\")".toList >>= collapse) =
      .ok "type A @d(a: \"\" b: \"\"\"#\"\"\")".toList := by decide +kernel
  refine ⟨hheader, ?_⟩
  rw [(header_normal hheader).2.2.2]
  decide +kernel

theorem uncommented?_uncommented? (item : Text) :
    (uncommented? item).bind uncommented? = uncommented? item := by
  cases hs : stripComments item with
  | error e =>
    have hself : uncommented? item = some item := by rw [uncommented?, hs]
    rw [hself, Option.bind_some, hself]
  | ok t =>
    obtain ⟨hlexed, rfl⟩ := stripComments_eq_ok_iff.mp hs
    obtain ⟨m, hm, htrim⟩ := hlexed.isBare.exists_trim
    rw [uncommented?, hs]
    dsimp only
    split
    · rfl
    · rename_i hne
      refine IsTidy.uncommented? ⟨?_, trim_trim _, by simpa using hne⟩
      rw [htrim]
      exact hm.closed

theorem withoutComments_withoutComments (items : List Text) :
    withoutComments (withoutComments items) = withoutComments items := by
  unfold withoutComments
  rw [filterMap_filterMap]
  simp only [uncommented?_uncommented?]

def Finishes (item it : Text) : Prop :=
  ∃ t, collapse item = .ok t ∧ (Text.dropEndWhile (· == ',') t.trim).trim = it

theorem IsBare.exists_finishes (h : IsBare r) :
    ∃ it, Finishes (raw r) it ∧ (it ≠ [] → IsTidy it) := by
  obtain ⟨m, hm, hcollapse, -⟩ := h.exists_collapse false false
  obtain ⟨m₁, hm₁, htrim₁⟩ := hm.exists_trim
  obtain ⟨m₂, w, rfl, -, hdrop⟩ := hm₁.enclosed.exists_dropEndWhile (p := (· == ',')) rfl
  obtain ⟨m₃, hm₃, htrim₃⟩ := hm₁.append_left.exists_trim
  refine ⟨raw m₃, ⟨raw m, ?_, ?_⟩, fun hne => ⟨hm₃.closed, ?_, hne⟩⟩
  · rw [collapse, h.lex_raw, hcollapse]
  · rw [htrim₁, hdrop, htrim₃]
  · rw [← htrim₃, trim_trim]

theorem collapse_append_blank (hu : ∀ c ∈ u, isBlank c) (ls : List Lexeme) (started spaced : Bool) :
    Lexeme.collapse started spaced (ls ++ u.map .char) = Lexeme.collapse started spaced ls := by
  induction ls generalizing started spaced with
  | nil =>
    induction u generalizing spaced with
    | nil => rfl
    | cons c u ih =>
      obtain ⟨hc, hu⟩ := forall_mem_cons.mp hu
      have hcons : Lexeme.collapse started spaced (.char c :: u.map .char) =
          Lexeme.collapse started true (u.map .char) := by
        rw [Lexeme.collapse, if_pos hc]
      exact hcons.trans (ih hu true)
  | cons l ls ih =>
    rw [cons_append]
    cases l with
    | char c => rw [Lexeme.collapse, Lexeme.collapse, ih, ih]
    | literal t => rw [Lexeme.collapse, Lexeme.collapse, ih]
    | comment t => rw [Lexeme.collapse, Lexeme.collapse, ih]
    | unclosed t => rfl

theorem IsBare.collapse_append_blank (h : IsBare r) (hu : ∀ c ∈ u, isBlank c) :
    collapse (raw r ++ u) = collapse (raw r) := by
  rw [collapse, collapse, lex_append_blank h.closed hu, h.lex_raw,
    Schemata.collapse_append_blank hu]

theorem Finishes.append_blank (hr : IsBare r) (h : Finishes (raw r) it) (hu : ∀ c ∈ u, isBlank c) :
    Finishes (raw r ++ u) it := by
  obtain ⟨t, ht, hit⟩ := h
  exact ⟨t, by rw [hr.collapse_append_blank hu, ht], hit⟩

theorem finishes_blank (hu : ∀ c ∈ u, isBlank c) : Finishes u [] := by
  have hnil : Finishes (raw []) [] := ⟨[], by rw [collapse, raw_nil, lex_nil]; rfl, rfl⟩
  have := hnil.append_blank .nil hu
  rwa [raw_nil, nil_append] at this

def withItem (items : List Text) (it : Text) : List Text :=
  if it.isEmpty then items else items ++ [it]

theorem Finishes.flush {b : Body} (h : Finishes b.item it) :
    b.flush = .ok { b with items := withItem b.items it, item := [] } := by
  obtain ⟨t, ht, hit⟩ := h
  simp only [Body.flush, ht, bind, Except.bind, hit]
  rfl

theorem Mixed.withItem (h : Mixed is js) (hit : it ≠ [] → IsTidy it) :
    Mixed (withItem is it) (withItem js it) := by
  unfold Schemata.withItem
  cases it with
  | nil => exact h
  | cons c t => exact .item h (hit (cons_ne_nil c t))

theorem isCompleteField_append_blank (hu : ∀ c ∈ u, isBlank c) (t : Text) :
    isCompleteField (t ++ u) = isCompleteField t := by
  rw [isCompleteField, isCompleteField, trim_append_blank hu]

theorem IsBare.exists_isCompleteField (h : IsBare r) : ∃ k, isCompleteField (raw r) = .ok k := by
  obtain ⟨m, hm, htrim⟩ := h.exists_trim
  obtain ⟨o, ho⟩ : ∃ o, cutAt (· == ':') (raw m) = .ok o := Body.exists_cutAt_eq_ok hm.closed 0
  rw [isCompleteField, htrim]
  simp only [ho, bind, Except.bind]
  cases o with
  | none => exact ⟨_, rfl⟩
  | some p => exact ⟨_, rfl⟩

theorem isEmpty_trim_of_isCompleteField (h : isCompleteField t = .ok true) :
    t.trim.isEmpty = false := by
  cases ht : t.trim with
  | cons c u => rfl
  | nil =>
    rw [isCompleteField, ht, cutAt, lex_nil] at h
    cases h

/-! ### What follows a character -/

/-- No item goes on after a comment: what follows the comments after it is no character that
continues an item.  Comments inside of brackets do not count. -/
def ItemsEndAtComments (depth : Nat) : List Lexeme → Prop
  | [] => True
  | .comment _ :: ls =>
      (depth = 0 → Lexeme.startsWith isContinuation (Lexeme.dropBlank (bare ls)) = false) ∧
        ItemsEndAtComments depth ls
  | .char c :: ls => ItemsEndAtComments (depthAfter depth c) ls
  | _ :: ls => ItemsEndAtComments depth ls

namespace ItemsEndAtComments

variable {ls : List Lexeme}

instance decidable : (depth : Nat) → (ls : List Lexeme) → Decidable (ItemsEndAtComments depth ls)
  | _, [] => isTrue trivial
  | depth, .comment _ :: ls =>
      have := decidable depth ls
      inferInstanceAs (Decidable (_ ∧ _))
  | depth, .char c :: ls => decidable (depthAfter depth c) ls
  | depth, .literal _ :: ls => decidable depth ls
  | depth, .unclosed _ :: ls => decidable depth ls

theorem dropBlank (h : ItemsEndAtComments 0 ls) : ItemsEndAtComments 0 (Lexeme.dropBlank ls) := by
  fun_induction Lexeme.dropBlank ls with
  | case1 c ls hc ih =>
    rw [ItemsEndAtComments, depthAfter_of_isBlank hc] at h
    exact ih h
  | case2 c ls hc => exact h
  | case3 ls hls => exact h

theorem dropName (h : ItemsEndAtComments 0 ls) : ItemsEndAtComments 0 (Lexeme.dropName ls) := by
  fun_induction Lexeme.dropName ls with
  | case1 c ls hc ih =>
    have hdepth : depthAfter 0 c = 0 := by
      simp [depthAfter, isOpener_of_isNameChar hc, isCloser_of_isNameChar hc]
    rw [ItemsEndAtComments, hdepth] at h
    exact ih h
  | case2 c ls hc => exact h
  | case3 ls hls => exact h

/-- A character that continues an item is seen with the comments and without them. -/
theorem startsWith_dropBlank {p : Char → Bool} (hp : ∀ c, p c → isContinuation c)
    (h : ItemsEndAtComments 0 ls) :
    Lexeme.startsWith p (Lexeme.dropBlank (bare ls)) =
      Lexeme.startsWith p (Lexeme.dropBlank ls) := by
  induction ls with
  | nil => rfl
  | cons l ls ih =>
    cases l with
    | char c =>
      rw [bare_char, Lexeme.dropBlank, Lexeme.dropBlank]
      by_cases hc : isBlank c
      · rw [ItemsEndAtComments, depthAfter_of_isBlank hc] at h
        rw [if_pos hc, if_pos hc, ih h]
      · rw [if_neg hc, if_neg hc]
        rfl
    | literal t => rfl
    | unclosed t => rfl
    | comment t =>
      have hnot := h.1 rfl
      change Lexeme.startsWith p (Lexeme.dropBlank (bare ls)) = false
      generalize Lexeme.dropBlank (bare ls) = ms at hnot
      cases ms with
      | nil => rfl
      | cons m ms =>
        cases m with
        | char c =>
          change p c = false
          change isContinuation c = false at hnot
          cases hpc : p c with
          | false => rfl
          | true => rw [hp c hpc] at hnot; cases hnot
        | literal t => rfl
        | unclosed t => rfl
        | comment t => rfl

end ItemsEndAtComments

namespace Lexed

variable {ls : List Lexeme}

theorem dropBlank (h : Lexed ls) : Lexed (Lexeme.dropBlank ls) := by
  fun_induction Lexeme.dropBlank ls with
  | case1 c ls hc ih =>
    cases h with
    | char _ _ rest => exact ih rest
  | case2 c ls hc => exact h
  | case3 ls hls => exact h

theorem dropName_bare (h : Lexed ls) : Lexeme.dropName (bare ls) = bare (Lexeme.dropName ls) := by
  induction h with
  | nil => rfl
  | @char c ls _ _ _ ih =>
    rw [bare_char, Lexeme.dropName, Lexeme.dropName]
    split
    · exact ih
    · rfl
  | literal _ _ _ => rfl
  | comment _ ends _ _ =>
    rcases ends with rfl | ⟨ms, rfl⟩
    · rfl
    · rfl

end Lexed

open Lexeme (dropBlank startsWith)

theorem dropBlank_cons (hc : isBlank c) (ms : List Lexeme) :
    dropBlank (.char c :: ms) = dropBlank ms := by
  rw [dropBlank, if_pos hc]

/-- White space ends at the same place without the comments, unless a comment follows. -/
theorem dropBlank_bare (h : ∀ t ms, dropBlank ls ≠ .comment t :: ms) :
    dropBlank (bare ls) = bare (dropBlank ls) := by
  fun_induction dropBlank ls with
  | case1 c ls hc ih =>
    rw [bare_char, dropBlank_cons hc]
    exact ih h
  | case2 c ls hc => rw [bare_char, dropBlank, if_neg hc]
  | case3 ls hls =>
    cases ls with
    | nil => rfl
    | cons l ls =>
      cases l with
      | char c => exact absurd rfl (hls c ls)
      | literal t => rfl
      | unclosed t => rfl
      | comment t => exact absurd rfl (h t ls)

/-- Whether a field starts is seen with the comments and without them, unless a comment comes
first. -/
theorem ItemsEndAtComments.startsField_bare (h : ItemsEndAtComments 0 ls) (hlexed : Lexed ls)
    (hfirst : ∀ t ms, Lexeme.dropBlank ls ≠ .comment t :: ms) :
    startsField (Lexeme.dropBlank (bare ls)) = startsField (Lexeme.dropBlank ls) := by
  have hrest := h.dropBlank
  have hrestLexed := hlexed.dropBlank
  rw [dropBlank_bare hfirst]
  generalize Lexeme.dropBlank ls = ms at hrest hrestLexed hfirst
  have hname : startsWith isNameStart (bare ms) = startsWith isNameStart ms := by
    cases hrestLexed with
    | nil => rfl
    | char _ _ _ => rfl
    | literal _ _ => rfl
    | comment _ _ _ => exact absurd rfl (hfirst _ _)
  have hcolon : ∀ c : Char, (c == ':' || c == '(') → isContinuation c := by
    intro c hc
    rcases Bool.or_eq_true_iff.mp hc with hc | hc <;> simp [isContinuation, hc]
  rw [startsField, startsField, hname, hrestLexed.dropName_bare,
    hrest.dropName.startsWith_dropBlank hcolon]

/-! ### Two readings of a body -/

namespace Body

/-- Lexemes that come to a comment after white space. -/
def ComesToComment (ls : List Lexeme) : Prop :=
  ∃ t ms, dropBlank ls = .comment t :: ms

/-- The reading of a body and that of the bare body, before the lexemes `ls`. -/
inductive Abreast (enum : Bool) (ls : List Lexeme) : Body → Body → Prop
  | level {is js : List Text} {r : List Lexeme} {depth start start' : Nat} (items : Mixed is js)
      (item : IsBare (r ++ bare ls)) :
      Abreast enum ls ⟨is, raw r, depth, start⟩ ⟨js, raw r, depth, start'⟩
  /-- The bare one has finished a field already: another follows it, after comments. -/
  | behind {is js : List Text} {r : List Lexeme} {gap gap' it : Text} {start start' : Nat}
      (items : Mixed is js)
      (field : enum = false) (item : IsBare r) (complete : isCompleteField (raw r) = .ok true)
      (finishes : Finishes (raw r) it) (tidy : it ≠ [] → IsTidy it)
      (blank : ∀ c ∈ gap, isBlank c = true)
      (blank' : ∀ c ∈ gap', isBlank c = true) (comes : ComesToComment ls) (rest : Lexed ls) :
      Abreast enum ls ⟨is, raw r ++ gap, 0, start⟩ ⟨withItem js it, gap', 0, start'⟩
  /-- A comment has finished the item, and the bare one finishes it with the line. -/
  | ahead {is js : List Text} {item it : Text} {start start' : Nat}
      (items : Mixed is (withItem js it)) (finishes : Finishes item it) (ends : EndsLine ls)
      (stops : startsWith isContinuation (dropBlank (bare ls)) = false) (rest : Lexed ls) :
      Abreast enum ls ⟨is, [], 0, start⟩ ⟨js, item, 0, start'⟩

variable {enum : Bool} {ls : List Lexeme} {b b' : Body}

theorem Abreast.nil (h : Abreast enum [] b b') :
    ∃ f f', b.flush = .ok f ∧ b'.flush = .ok f' ∧ Mixed f.items f'.items := by
  cases h with
  | level items item =>
    obtain ⟨it, hit, htidy⟩ := item.append_left.exists_finishes
    exact ⟨_, _, Finishes.flush hit, Finishes.flush hit, items.withItem htidy⟩
  | behind _ _ _ _ _ _ _ _ comes _ =>
    obtain ⟨t, ms, hcomes⟩ := comes
    cases hcomes
  | ahead items finishes _ _ _ =>
    have hnil : Finishes [] [] := finishes_blank (forall_mem_nil _)
    exact ⟨_, _, Finishes.flush hnil, Finishes.flush finishes, items⟩

theorem Abreast.literal (h : Abreast enum (.literal t :: ls) b b') :
    Abreast enum ls (b.literal t) (b'.literal t) ∧ (b.literal t).depth = b.depth := by
  cases h with
  | @level is js r depth start start' items item =>
    unfold Body.literal
    by_cases hdescription : (depth == 0 && (raw r).trim.isEmpty)
    · have hblank :=
        trim_eq_nil_iff.mp (List.isEmpty_iff.mp (Bool.and_eq_true_iff.mp hdescription).2)
      obtain ⟨w, hw, hr⟩ := item.append_left.exists_chars hblank
      have htidy : IsTidy t := item.append_right.isTidy
      have hbare : IsBare (r ++ bare ls) := by
        have hrest : IsBare (bare ls) := @IsBare.append_right [.literal t] _ item.append_right
        rw [hr]
        exact hrest.chars_append hw
      simp only [hdescription, if_true]
      exact ⟨.level (.item items htidy) hbare, trivial⟩
    · have hraw : raw r ++ t = raw (r ++ [.literal t]) := by simp [Lexeme.text]
      simp only [hdescription, Bool.false_eq_true, if_false, push, hraw]
      refine ⟨.level items ?_, trivial⟩
      rwa [append_assoc, singleton_append]
  | behind _ _ _ _ _ _ _ _ comes _ =>
    obtain ⟨t, ms, hcomes⟩ := comes
    cases hcomes
  | ahead _ _ ends _ _ =>
    rcases ends with hends | ⟨ms, hends⟩
    · cases hends
    · cases hends

theorem attach_eq (b : Body) (t : Text) : b.attach t = { b with items := (b.attach t).items } := by
  unfold attach
  split
  · split <;> rfl
  · rfl

theorem comment_top (start : Nat) (hline : '\n' ∉ t) (hit : Finishes item it)
    (hmixed : Mixed (withItem is it) js) :
    ∃ is', Body.comment ⟨is, item, 0, start⟩ ('#' :: t) = .ok ⟨is', [], 0, start⟩ ∧
      Mixed is' js := by
  obtain ⟨c, hc⟩ := @trim_append_cons '#' [] (forall_mem_nil _) rfl t
  rw [nil_append] at hc
  have hcline : '\n' ∉ c := by
    intro hm
    have hmem : '\n' ∈ '#' :: t := by
      refine (Text.trim_sublist ('#' :: t)).subset ?_
      rw [hc]
      exact mem_cons_of_mem _ hm
    exact hline (mem_of_ne_of_mem (by decide) hmem)
  refine ⟨_, ?_, Mixed.attach (b := ⟨withItem is it, [], 0, start⟩) hmixed hcline⟩
  have htop : ((⟨is, item, 0, start⟩ : Body).depth == 0) := rfl
  rw [Body.comment, if_pos htop, hc, Finishes.flush (b := ⟨is, item, 0, start⟩) hit]
  exact congrArg Except.ok (attach_eq ⟨withItem is it, [], 0, start⟩ ('#' :: c))

theorem Abreast.comment (h : Abreast enum (.comment ('#' :: t) :: ls) b b') (line : '\n' ∉ t)
    (ends : EndsLine ls) (rest : Lexed ls)
    (hends : ItemsEndAtComments b.depth (.comment ('#' :: t) :: ls)) :
    ∃ b₁, b.comment ('#' :: t) = .ok b₁ ∧ b₁.depth = b.depth ∧ Abreast enum ls b₁ b' := by
  cases h with
  | @level is js r depth start start' items item =>
    cases depth with
    | zero =>
      obtain ⟨it, hit, htidy⟩ := item.append_left.exists_finishes
      obtain ⟨is', hcomment, hmixed⟩ := comment_top start line hit (items.withItem htidy)
      exact ⟨_, hcomment, rfl, .ahead hmixed hit ends (hends.1 rfl) rest⟩
    | succ depth => exact ⟨_, rfl, rfl, .level items item⟩
  | @behind is js r gap gap' it start start' items field item complete finishes tidy
      blank blank' comes _ =>
    obtain ⟨is', hcomment, hmixed⟩ :=
      comment_top start line (finishes.append_blank item blank) (items.withItem tidy)
    have hmixed : Mixed is' (withItem (withItem js it) []) := hmixed
    exact ⟨_, hcomment, rfl, .ahead hmixed (finishes_blank blank') ends (hends.1 rfl) rest⟩
  | ahead _ _ ends _ _ =>
    rcases ends with hends | ⟨ms, hends⟩
    · cases hends
    · cases hends

/-- Where an item breaks is seen with the comments and without them, or the bare reading breaks
before a comment that the other one comes to. -/
theorem exists_isBreak (hr : IsBare r) (hends : depth = 0 → ItemsEndAtComments 0 ls)
    (hlexed : Lexed ls) : ∃ k k', isBreak ⟨is, raw r, depth, start⟩ enum c ls = .ok k ∧
      isBreak ⟨js, raw r, depth, start'⟩ enum c (bare ls) = .ok k' ∧
      (k = k' ∨ k = false ∧ k' ∧ depth = 0 ∧ enum = false ∧ isBlank c ∧
        isCompleteField (raw r) = .ok true ∧ ComesToComment ls) := by
  by_cases hdepth : depth = 0
  · subst hdepth
    by_cases hline : (c == '\n' || c == ',')
    · refine ⟨true, true, ?_, ?_, .inl rfl⟩ <;> simp only [isBreak, hline] <;> rfl
    by_cases hblank : (isBlank c && !(raw r).trim.isEmpty)
    · cases henum : enum with
      | true => refine ⟨true, true, ?_, ?_, .inl rfl⟩ <;> simp only [isBreak, hline, hblank] <;> rfl
      | false =>
        obtain ⟨k, hk⟩ := hr.exists_isCompleteField
        have hc : isBlank c := (Bool.and_eq_true_iff.mp hblank).1
        have hbreak : ∀ (items : List Text) (s : Nat) (ms : List Lexeme),
            isBreak ⟨items, raw r, 0, s⟩ false c ms = .ok (k && startsField (dropBlank ms)) := by
          intro items s ms
          simp only [isBreak, hline, hblank, endsField, hk, dropBlank_cons hc]
          cases k <;> rfl
        refine ⟨_, _, hbreak is start ls, hbreak js start' (bare ls), ?_⟩
        cases k with
        | false => exact .inl rfl
        | true =>
          -- a field after comments is seen by the bare reading alone
          by_cases hcomes : ComesToComment ls
          · obtain ⟨t, ms, hcomes'⟩ := hcomes
            cases hstarts : startsField (dropBlank (bare ls)) with
            | false =>
              rw [hcomes']
              exact .inl rfl
            | true =>
              refine .inr ⟨?_, rfl, rfl, rfl, hc, hk, t, ms, hcomes'⟩
              rw [hcomes']
              rfl
          · rw [(hends rfl).startsField_bare hlexed fun t ms h => hcomes ⟨t, ms, h⟩]
            exact .inl rfl
    · refine ⟨false, false, ?_, ?_, .inl rfl⟩ <;> simp only [isBreak, hline, hblank] <;> rfl
  · exact ⟨false, false, isBreak_of_depth hdepth c ls, isBreak_of_depth hdepth c (bare ls),
      .inl rfl⟩

theorem of_isBreak {ms : List Lexeme} (h : b.isBreak enum c ms = .ok true) :
    b.depth = 0 ∧ (c = ',' ∨ isBlank c) := by
  unfold isBreak at h
  split at h
  · cases h
  · rename_i hdepth
    refine ⟨by simpa using hdepth, ?_⟩
    split at h
    · rename_i hline
      rcases Bool.or_eq_true_iff.mp hline with hc | hc
      · obtain rfl : c = '\n' := by simpa using hc
        exact .inr rfl
      · exact .inl (by simpa using hc)
    · split at h
      · rename_i hblank
        exact .inr (Bool.and_eq_true_iff.mp hblank).1
      · cases h

theorem read_flush {items : List Text} {ms : List Lexeme}
    (h : isBreak ⟨items, item, depthAfter depth c, start⟩ enum c ms = .ok true)
    (hnext : startsWith isContinuation (dropBlank (.char c :: ms)) = false)
    (hit : Finishes item it) :
    ∃ start', Body.read enum ⟨items, item, depth, start⟩ (.char c :: ms) =
      Body.read enum ⟨withItem items it, [], depthAfter depth c, start'⟩ ms := by
  have hread :=
    read_break h hnext (Finishes.flush (b := ⟨items, item, depthAfter depth c, start⟩) hit)
  cases hc : c == '\n' with
  | true =>
    rw [hc, if_pos rfl] at hread
    exact ⟨_, hread⟩
  | false =>
    rw [hc, if_neg Bool.false_ne_true] at hread
    exact ⟨_, hread⟩

theorem isBlank_of_comesToComment (h : ComesToComment (.char c :: ls)) :
    isBlank c ∧ ComesToComment ls := by
  obtain ⟨t, ms, h⟩ := h
  by_cases hc : isBlank c
  · rw [dropBlank_cons hc] at h
    exact ⟨hc, t, ms, h⟩
  · rw [dropBlank, if_neg hc] at h
    cases h

theorem Abreast.char_level (items : Mixed is js) (item : IsBare (r ++ bare (.char c :: ls)))
    (hlexed : Lexed ls) (hends : ItemsEndAtComments depth (.char c :: ls)) :
    ∃ b₁ b₁', Body.read enum ⟨is, raw r, depth, start⟩ (.char c :: ls) = Body.read enum b₁ ls ∧
      Body.read enum ⟨js, raw r, depth, start'⟩ (.char c :: bare ls) =
        Body.read enum b₁' (bare ls) ∧
      b₁.depth = depthAfter depth c ∧ Abreast enum ls b₁ b₁' := by
  have hr := item.append_left
  have hends' : depthAfter depth c = 0 → ItemsEndAtComments 0 ls := fun hzero => by
    rwa [ItemsEndAtComments, hzero] at hends
  have hpush : raw r ++ [c] = raw (r ++ [.char c]) := by simp [Lexeme.text]
  obtain ⟨it, hit, htidy⟩ := hr.exists_finishes
  obtain ⟨k, k', hk, hk', hcases⟩ :=
    @exists_isBreak c (depthAfter depth c) start start' is js r enum ls hr hends' hlexed
  have hrest : IsBare (bare ls) := hlexed.isBare
  rcases hcases with rfl | ⟨rfl, rfl, hzero, henum, hblank, hcomplete, hcomes⟩
  · cases k with
    | false =>
      -- no break: both take the character
      refine ⟨_, _, read_char hk, read_char hk', rfl, ?_⟩
      rw [hpush]
      refine .level items ?_
      rwa [append_assoc, singleton_append]
    | true =>
      -- a break for both: the item goes on for both, or is finished by both
      obtain ⟨hzero, hc⟩ := of_isBreak hk
      have hsame : startsWith isContinuation (dropBlank (.char c :: bare ls)) =
          startsWith isContinuation (dropBlank (.char c :: ls)) := by
        rcases hc with rfl | hc
        · rfl
        · rw [dropBlank_cons hc, dropBlank_cons hc,
            (hends' hzero).startsWith_dropBlank fun _ h => h]
      cases hnext : startsWith isContinuation (dropBlank (.char c :: ls)) with
      | true =>
        have hcomma : c ≠ ',' := by
          rintro rfl
          cases hnext
        have hspace : raw r ++ [' '] = raw (r ++ [.char ' ']) := by simp [Lexeme.text]
        refine ⟨_, _, read_continued hk hcomma hnext, read_continued hk' hcomma (hsame.trans hnext),
          rfl, ?_⟩
        rw [hspace]
        refine .level items ?_
        rw [append_assoc, singleton_append]
        exact item.replace (by decide) (by decide)
      | false =>
        obtain ⟨s, hs⟩ := read_flush hk hnext hit
        obtain ⟨s', hs'⟩ := read_flush hk' (hsame.trans hnext) hit
        exact ⟨_, _, hs, hs', rfl, .level (r := []) (items.withItem htidy) hrest⟩
  · -- the bare reading sees the field after the comments
    have hnext : startsWith isContinuation (dropBlank (.char c :: bare ls)) = false := by
      rw [dropBlank_cons hblank, (hends' hzero).startsWith_dropBlank fun _ h => h]
      obtain ⟨t, ms, hcomes⟩ := hcomes
      rw [hcomes]
      rfl
    obtain ⟨s', hs'⟩ := read_flush hk' hnext hit
    rw [hzero] at hs'
    refine ⟨_, _, read_char hk, hs', rfl, ?_⟩
    rw [hzero]
    exact .behind items henum hr hcomplete hit htidy (by simpa using hblank)
      (forall_mem_nil _) hcomes hlexed

theorem Abreast.char_newline {item' it' : Text} (items : Mixed (withItem is it) (withItem js it'))
    (hit : Finishes item it) (hit' : Finishes item' it') (hends : ItemsEndAtComments 0 ls)
    (hstops : startsWith isContinuation (dropBlank ls) = false) (hlexed : Lexed ls) :
    ∃ b₁ b₁', Body.read enum ⟨is, item, 0, start⟩ (.char '\n' :: ls) = Body.read enum b₁ ls ∧
      Body.read enum ⟨js, item', 0, start'⟩ (.char '\n' :: bare ls) = Body.read enum b₁' (bare ls) ∧
      b₁.depth = 0 ∧ Abreast enum ls b₁ b₁' := by
  have hstops' : startsWith isContinuation (dropBlank (bare ls)) = false := by
    rw [hends.startsWith_dropBlank fun _ h => h, hstops]
  obtain ⟨s, hs⟩ := read_flush (isBreak_newline ls) hstops hit
  obtain ⟨s', hs'⟩ := read_flush (isBreak_newline (bare ls)) hstops' hit'
  exact ⟨_, _, hs, hs', rfl, .level (r := []) items hlexed.isBare⟩

/-- **A character keeps the readings abreast.** -/
theorem Abreast.char (h : Abreast enum (.char c :: ls) b b') (hlexed : Lexed ls)
    (hends : ItemsEndAtComments b.depth (.char c :: ls)) :
    ∃ b₁ b₁', Body.read enum b (.char c :: ls) = Body.read enum b₁ ls ∧
      Body.read enum b' (.char c :: bare ls) = Body.read enum b₁' (bare ls) ∧
      b₁.depth = depthAfter b.depth c ∧ Abreast enum ls b₁ b₁' := by
  cases h with
  | level items item => exact char_level items item hlexed hends
  | @behind is js r gap gap' it start start' items field item complete finishes tidy
      blank blank' comes _ =>
    obtain ⟨hc, hcomes⟩ := isBlank_of_comesToComment comes
    have hdepth : depthAfter 0 c = 0 := depthAfter_of_isBlank hc 0
    have hfinishes : Finishes (raw r ++ gap) it := finishes.append_blank item blank
    have hends' : ItemsEndAtComments 0 ls := by rwa [ItemsEndAtComments, hdepth] at hends
    by_cases hline : c = '\n'
    · subst hline
      have hstops : startsWith isContinuation (dropBlank ls) = false := by
        obtain ⟨t, ms, hcomes⟩ := hcomes
        rw [hcomes]
        rfl
      have hitems : Mixed (withItem is it) (withItem (withItem js it) []) := items.withItem tidy
      exact char_newline hitems hfinishes (finishes_blank blank') hends' hstops hlexed
    · -- the field is complete, but none follows before the comment
      have hsign : (c == '\n' || c == ',') = false := by
        have hcomma : c ≠ ',' := by
          rintro rfl
          exact absurd hc (by decide)
        simp [hline, hcomma]
      have hitem : (Text.trim (raw r ++ gap)).isEmpty = false := by
        rw [trim_append_blank blank]
        exact isEmpty_trim_of_isCompleteField complete
      have hbreak : isBreak ⟨is, raw r ++ gap, depthAfter 0 c, start⟩ enum c ls = .ok false := by
        obtain ⟨t, ms, hcomes⟩ := hcomes
        simp only [isBreak, hdepth, hsign, hc, hitem, field, endsField,
          isCompleteField_append_blank blank, complete, dropBlank_cons hc, hcomes]
        rfl
      have hbreak' : isBreak ⟨withItem js it, gap', depthAfter 0 c, start'⟩ enum c (bare ls) =
          .ok false := by
        simp only [isBreak, hdepth, hsign, isEmpty_trim blank', Bool.not_true, Bool.and_false]
        rfl
      have hsnoc : ∀ {u : Text}, (∀ d ∈ u, isBlank d) → ∀ d ∈ u ++ [c], isBlank d := by
        intro u hu
        simpa [or_imp, forall_and, hc] using hu
      refine ⟨_, _, read_char hbreak, read_char hbreak', rfl, ?_⟩
      rw [hdepth, append_assoc]
      exact .behind items field item complete finishes tidy (hsnoc blank)
        (hsnoc blank') hcomes hlexed
  | @ahead is js item it start start' items finishes ends stops _ =>
    rcases ends with hends' | ⟨ms, hends'⟩
    · cases hends'
    · obtain ⟨rfl, rfl⟩ : c = '\n' ∧ ls = ms := by simpa using hends'
      have hstops : startsWith isContinuation (dropBlank ls) = false := by
        have := hends.startsWith_dropBlank (p := isContinuation) fun _ h => h
        rw [stops] at this
        exact this.symm
      have hitems : Mixed (withItem is []) (withItem js it) := items
      exact char_newline hitems (finishes_blank (forall_mem_nil _)) finishes hends hstops hlexed

/-- **Two readings of a body** come to the same items. -/
theorem Abreast.read (h : Abreast enum ls b b') (hlexed : Lexed ls)
    (hends : ItemsEndAtComments b.depth ls) :
    ∃ f f', Body.read enum b ls = .ok f ∧ Body.read enum b' (bare ls) = .ok f' ∧
      Mixed f.items f'.items := by
  induction hlexed generalizing b b' with
  | nil => exact h.nil
  | char _ _ rest ih =>
    obtain ⟨b₁, b₁', hb, hb', hdepth, hnext⟩ := h.char rest hends
    rw [bare_char, hb, hb']
    exact ih hnext (hdepth ▸ hends)
  | literal _ _ ih =>
    obtain ⟨hnext, hdepth⟩ := h.literal
    exact ih hnext (hdepth ▸ hends)
  | comment line ends rest ih =>
    -- the bare reading stays where it is
    obtain ⟨b₁, hb, hdepth, hnext⟩ := h.comment line ends rest hends
    obtain ⟨f, f', hf, hf', hmixed⟩ := ih hnext (hdepth ▸ hends.2)
    refine ⟨f, f', ?_, hf', hmixed⟩
    rw [Body.read, hb]
    exact hf

end Body

/-- **A body has the items of the bare body**, and comments. -/
theorem bodyItems_bare (hlexed : Lexed ls) (hends : ItemsEndAtComments 0 ls) (enum : Bool) :
    ∃ items, bodyItems enum ls = .ok items ∧
      bodyItems enum (bare ls) = .ok (withoutComments items) := by
  have hstart : Body.Abreast enum ls {} {} :=
    @Body.Abreast.level enum ls [] [] [] 0 0 0 .nil hlexed.isBare
  obtain ⟨f, f', hf, hf', hmixed⟩ := hstart.read hlexed hends
  refine ⟨f.items, ?_, ?_⟩
  · rw [bodyItems, hf]
    rfl
  · rw [bodyItems, hf', hmixed.withoutComments]
    rfl

end Schemata
