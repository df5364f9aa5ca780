import Schemata.Proofs.Lexemes

/-!
# Texts put together from readable parts

A text is read from left to right, so what a part of it is read as may depend on what follows: an
open literal runs on, and two quotes at the end of a part make three with the quote after them.  A
*closed* text is one that this cannot happen to.  Its lexemes are characters and finished literals,
and they stay the same whatever follows, unless that is a quote.

## Main definitions

* `Closed` — a text all of whose lexemes are quiet.

## Main results

* `lex_induction` — a text is read lexeme by lexeme, whatever follows it.
* `lex_append_chars`, `lex_append`, `lex_comment_append`, `lex_append_line` — the lexemes of a text
  put together.
-/

namespace Schemata

open List

variable {body rest s t u x : Text} {comments : Bool}

/-! ### Literals -/

namespace Text

theorem takeBlock_eq_append {previous : Char} (h : takeBlock previous t = some (body, rest)) :
    ∃ b, body = b ++ ['"', '"', '"'] := by
  fun_induction takeBlock previous t generalizing body rest with
  | case1 _ _ _ ih =>
    obtain ⟨⟨_, _⟩, hb, ⟨⟩⟩ := Option.map_eq_some_iff.mp h
    obtain ⟨b, rfl⟩ := ih hb
    exact ⟨'"' :: '"' :: '"' :: b, rfl⟩
  | case2 =>
    cases h
    exact ⟨[], rfl⟩
  | case3 _ c _ _ ih =>
    obtain ⟨⟨_, _⟩, hb, ⟨⟩⟩ := Option.map_eq_some_iff.mp h
    obtain ⟨b, rfl⟩ := ih hb
    exact ⟨c :: b, rfl⟩
  | case4 => cases h

theorem takeBlock_congr {previous : Char} (h : takeBlock previous t = some (body, rest))
    (u : Text) : takeBlock previous (body ++ u) = some (body, u) := by
  fun_induction takeBlock previous t generalizing body rest with
  | case1 previous cs hp ih =>
    obtain ⟨⟨b, _⟩, hb, ⟨⟩⟩ := Option.map_eq_some_iff.mp h
    simp [takeBlock, hp, ih hb]
  | case2 previous cs hp =>
    simp only [Option.some.injEq, Prod.mk.injEq] at h
    obtain ⟨rfl, rfl⟩ := h
    simp [takeBlock, hp]
  | case3 previous c cs hne ih =>
    obtain ⟨⟨b, _⟩, hb, ⟨⟩⟩ := Option.map_eq_some_iff.mp h
    rw [cons_append, takeBlock]
    · rw [ih hb]
      rfl
    · -- three quotes would have stood in the text itself
      intro x hc hx
      have hlen : 3 ≤ b.length := by
        obtain ⟨b, rfl⟩ := takeBlock_eq_append hb
        simp
      match b, hlen with
      | d :: e :: b, _ =>
        rw [cons_append, cons_append, List.cons.injEq, List.cons.injEq] at hx
        obtain ⟨rfl, rfl, -⟩ := hx
        exact hne (b ++ rest) hc (takeBlock_append hb)
  | case4 => cases h

theorem takePlain_congr (h : takePlain t = some (body, rest)) (u : Text) :
    takePlain (body ++ u) = some (body, u) := by
  fun_induction takePlain t generalizing body rest with
  | case1 c cs ih =>
    obtain ⟨⟨b, _⟩, hb, ⟨⟩⟩ := Option.map_eq_some_iff.mp h
    simp [takePlain, ih hb]
  | case3 cs =>
    simp only [Option.some.injEq, Prod.mk.injEq] at h
    obtain ⟨rfl, rfl⟩ := h
    simp [takePlain]
  | case5 c cs h1 h2 h3 h4 ih =>
    obtain ⟨⟨b, _⟩, hb, ⟨⟩⟩ := Option.map_eq_some_iff.mp h
    have hc : c ≠ '\\' := by
      rintro rfl
      cases cs with
      | nil => exact h2 rfl rfl
      | cons d ds => exact h1 d ds rfl rfl
    rw [cons_append, takePlain]
    · rw [ih hb]
      rfl
    · exact fun _ _ h => absurd h hc
    · exact fun h => absurd h hc
    · exact h3
    · exact h4
  | _ => cases h

theorem takeLiteral_congr {literal : Text} (h : takeLiteral t = some (literal, rest))
    (hu : u.startsWith (· == '"') → rest.startsWith (· == '"')) :
    takeLiteral (literal ++ u) = some (literal, u) := by
  fun_cases takeLiteral t with
  | case1 cs =>
    obtain ⟨⟨b, _⟩, hb, ⟨⟩⟩ := Option.map_eq_some_iff.mp h
    simp [takeLiteral, takeBlock_congr hb]
  | case2 c cs hne =>
    rw [takeLiteral] at h
    · obtain ⟨⟨b, _⟩, hb, ⟨⟩⟩ := Option.map_eq_some_iff.mp h
      rw [cons_append, takeLiteral]
      · rw [takePlain_congr hb]
        rfl
      · intro x hc hx
        -- three quotes can only come from an empty string with a quote after it
        have hcs := takePlain_append hb
        cases b with
        | nil =>
          have := takePlain_congr hb []
          simp [takePlain] at this
        | cons d b =>
          rw [cons_append, List.cons.injEq] at hx
          obtain ⟨rfl, hx⟩ := hx
          rw [hcs, cons_append, takePlain, Option.some.injEq, Prod.mk.injEq] at hb
          obtain ⟨hb, -⟩ := hb
          rw [List.cons.injEq] at hb
          obtain ⟨-, rfl⟩ := hb
          rw [nil_append] at hx
          have hr : rest.startsWith (· == '"') := hu (by simp [hx, Text.startsWith])
          cases rest with
          | nil => cases hr
          | cons e rest =>
            have he : e = '"' := by simpa [Text.startsWith] using hr
            subst he
            exact hne rest hc hcs
    · exact hne
  | case3 => cases h

end Text

/-! ### Closed texts -/

/-- Characters other than `#`, and finished literals. -/
def Lexeme.isQuiet : Lexeme → Bool
  | .char c => c != '#'
  | .literal _ => true
  | _ => false

def Closed (t : Text) : Prop :=
  (lex false t).all Lexeme.isQuiet = true

instance (t : Text) : Decidable (Closed t) :=
  inferInstanceAs (Decidable (_ = true))

@[simp] theorem raw_map_char (t : Text) : raw (t.map .char) = t := by
  induction t with
  | nil => rfl
  | cons c t ih => rw [map_cons, raw_cons, ih, Lexeme.text, singleton_append]

/-- A character that opens neither a literal nor a comment is a lexeme of its own. -/
theorem lex_cons {c : Char} (hq : c ≠ '"') (hh : c ≠ '#') (comments : Bool) (cs : Text) :
    lex comments (c :: cs) = .char c :: lex comments cs := by
  rw [lex]
  simp [hq, hh]

theorem lex_literal {cs literal : Text} (h : Text.takeLiteral ('"' :: cs) = some (literal, rest))
    (comments : Bool) : lex comments ('"' :: cs) = .literal literal :: lex comments rest := by
  rw [lex]
  simp only [beq_self_eq_true, if_true]
  split
  · rename_i literal' rest' h'
    rw [h] at h'
    cases h'
    rfl
  · rename_i h'
    rw [h] at h'
    cases h'

theorem lex_append_chars (h : ∀ c ∈ s, c ≠ '"' ∧ c ≠ '#') (comments : Bool) (t : Text) :
    lex comments (s ++ t) = s.map .char ++ lex comments t := by
  induction s with
  | nil => rfl
  | cons c s ih =>
    obtain ⟨hc, hs⟩ := forall_mem_cons.mp h
    rw [cons_append, lex_cons hc.1 hc.2, ih hs, map_cons, cons_append]

/-! ### Comments -/

theorem takeWhile_line (hs : '\n' ∉ s) (hu : u = [] ∨ ∃ v, u = '\n' :: v) :
    (s ++ u).takeWhile (· != '\n') = s ∧ (s ++ u).dropWhile (· != '\n') = u := by
  have hpos : ∀ c ∈ s, (c != '\n') := by
    intro c hc
    simp only [bne_iff_ne, ne_eq]
    rintro rfl
    exact hs hc
  rw [takeWhile_append_of_pos hpos, dropWhile_append_of_pos hpos]
  rcases hu with rfl | ⟨v, rfl⟩
  · exact ⟨append_nil s, rfl⟩
  · exact ⟨append_nil s, rfl⟩

theorem dropWhile_line (t : Text) :
    t.dropWhile (· != '\n') = [] ∨ ∃ v, t.dropWhile (· != '\n') = '\n' :: v := by
  cases hd : t.dropWhile (· != '\n') with
  | nil => exact .inl rfl
  | cons d ds =>
    have hhead := head?_dropWhile_not (· != '\n') t
    rw [hd] at hhead
    exact .inr ⟨ds, by simpa using hhead⟩

theorem lex_hash (cs : Text) :
    lex true ('#' :: cs) = .comment ('#' :: cs.takeWhile (· != '\n')) ::
      lex true (cs.dropWhile (· != '\n')) := by
  rw [lex, if_neg (by decide), if_pos (by decide)]

theorem lex_comment_append (ht : t.startsWith (· == '#')) (hn : '\n' ∉ t)
    (hu : u = [] ∨ u.startsWith (· == '\n')) : lex true (t ++ u) = .comment t :: lex true u := by
  cases t with
  | nil => cases ht
  | cons c cs =>
    obtain rfl : c = '#' := by simpa [Text.startsWith] using ht
    have hends : u = [] ∨ ∃ v, u = '\n' :: v := by
      cases u with
      | nil => exact .inl rfl
      | cons d u => exact .inr ⟨u, by simpa [Text.startsWith] using hu⟩
    obtain ⟨htake, hdrop⟩ := takeWhile_line (mt (mem_cons_of_mem _) hn) hends
    rw [cons_append, lex_hash, htake, hdrop]

/-! ### Lexeme by lexeme -/

/-- **A text is read lexeme by lexeme.**  A character is read as it stands whatever follows it, a
literal unless a quote follows it directly, and a comment if its line ends. -/
@[elab_as_elim]
theorem lex_induction (comments : Bool) {motive : Text → Prop} (nil : motive [])
    (char : ∀ c u, c ≠ '"' → (comments → c ≠ '#') →
      (∀ x, lex comments (c :: x) = .char c :: lex comments x) → motive u → motive (c :: u))
    (literal : ∀ s u, Text.takeLiteral ('"' :: (s ++ u)) = some ('"' :: s, u) →
      lex comments ('"' :: (s ++ u)) = .literal ('"' :: s) :: lex comments u →
      (∀ x, u ≠ [] ∨ Text.startsWith (· == '"') x = false →
        lex comments ('"' :: (s ++ (u ++ x))) = .literal ('"' :: s) :: lex comments (u ++ x)) →
      motive u → motive ('"' :: (s ++ u)))
    (comment : ∀ s u, comments → '\n' ∉ s → (u = [] ∨ ∃ v, u = '\n' :: v) →
      lex comments ('#' :: (s ++ u)) = .comment ('#' :: s) :: lex comments u →
      (∀ x, u ≠ [] ∨ x = [] ∨ (∃ v, x = '\n' :: v) →
        lex comments ('#' :: (s ++ (u ++ x))) = .comment ('#' :: s) :: lex comments (u ++ x)) →
      motive u → motive ('#' :: (s ++ u)))
    (unclosed : ∀ u, lex comments ('"' :: u) = [.unclosed ('"' :: u)] → motive ('"' :: u))
    (t : Text) : motive t := by
  fun_induction lex comments t with
  | case1 => exact nil
  | case2 c cs hc s u h ih =>
    obtain rfl : c = '"' := by simpa using hc
    obtain ⟨happ, -⟩ := Text.takeLiteral_append h
    obtain ⟨body, rfl⟩ := takeLiteral_eq_cons h
    rw [happ]
    rw [happ] at h
    refine literal body u h (lex_literal h comments) (fun x hx => lex_literal ?_ comments) ih
    refine Text.takeLiteral_congr h fun hq => ?_
    cases u with
    | nil =>
      rw [nil_append, hx.resolve_left fun hne => hne rfl] at hq
      cases hq
    | cons d u => exact hq
  | case3 c cs hc h =>
    obtain rfl : c = '"' := by simpa using hc
    rcases lex_quote_cases comments cs with ⟨s, u, hl, -⟩ | hlex
    · rw [h] at hl
      cases hl
    · exact unclosed cs hlex
  | case4 c cs hc hh ih =>
    simp only [Bool.and_eq_true, beq_iff_eq] at hh
    obtain ⟨rfl, rfl⟩ := hh
    have hcs := takeWhile_append_dropWhile (p := (· != '\n')) (l := cs)
    have hline : '\n' ∉ cs.takeWhile (· != '\n') :=
      fun hm => absurd (mem_takeWhile_imp hm) (by decide)
    have hends := dropWhile_line cs
    rw [← hcs]
    refine comment _ _ rfl hline hends ?_ (fun x hx => ?_) ih
    · rw [hcs, lex_hash]
    · obtain ⟨htake, hdrop⟩ := takeWhile_line hline (u := cs.dropWhile (· != '\n') ++ x) <| by
        rcases hends with hnil | ⟨v, hv⟩
        · rw [hnil]
          exact hx.resolve_left fun hne => hne hnil
        · rw [hv]
          exact .inr ⟨v ++ x, rfl⟩
      rw [lex_hash, htake, hdrop]
  | case5 c cs hc hh ih =>
    refine char c cs (by simpa using hc) (by simpa using hh) (fun x => ?_) ih
    rw [lex, if_neg hc, if_neg hh]

/-! ### Texts one after the other -/

/-- **What follows a closed text** does not change how the text is read, unless it is a quote. -/
theorem lex_append (h : Closed t) (hu : u.startsWith (· == '"') = false) (comments : Bool) :
    lex comments (t ++ u) = lex false t ++ lex comments u := by
  unfold Closed at h
  induction t using lex_induction comments with
  | nil => rw [lex_nil, nil_append, nil_append]
  | char c v quote _ step ih =>
    rw [lex_cons_of_ne_quote quote, all_cons, Bool.and_eq_true] at h
    rw [cons_append, step, ih h.2, lex_cons_of_ne_quote quote, cons_append]
  | literal s v taken _ more ih =>
    rw [lex_literal taken, all_cons, Bool.and_eq_true] at h
    rw [cons_append, append_assoc, more _ (.inr hu), ih h.2, lex_literal taken, cons_append]
  | comment s v _ _ _ _ _ _ =>
    rw [lex_cons_of_ne_quote (by decide)] at h
    cases h
  | unclosed v now =>
    rcases lex_quote_cases false v with ⟨s, w, taken, -⟩ | hlex
    · rw [lex_literal taken] at now
      cases now
    · rw [hlex] at h
      cases h

theorem lex_true_of_closed (h : Closed t) : lex true t = lex false t := by
  have := lex_append h (u := []) rfl true
  simpa using this

/-! ### Lexemes without open literals -/

/-- No literal among the lexemes is left open. -/
def AllClosed (ls : List Lexeme) : Prop :=
  ∀ s, .unclosed s ∉ ls

section AllClosed

variable {ls ms : List Lexeme}

theorem AllClosed.nil : AllClosed [] :=
  fun _ => not_mem_nil

theorem allClosed_append : AllClosed (ls ++ ms) ↔ AllClosed ls ∧ AllClosed ms := by
  simp only [AllClosed, mem_append, not_or, forall_and]

theorem allClosed_cons {l : Lexeme} :
    AllClosed (l :: ls) ↔ (∀ s, l ≠ .unclosed s) ∧ AllClosed ls := by
  simp only [AllClosed, mem_cons, not_or, forall_and, ne_comm, ne_eq]

theorem AllClosed.cons {l : Lexeme} (hl : ∀ s, l ≠ .unclosed s) (h : AllClosed ls) :
    AllClosed (l :: ls) :=
  allClosed_cons.mpr ⟨hl, h⟩

theorem allClosed_map_char (t : Text) : AllClosed (t.map .char) := by
  intro s hs
  obtain ⟨c, -, hc⟩ := mem_map.mp hs
  cases hc

end AllClosed

/-- A text that closes its literals, and what follows it: no quote, and no more of a comment. -/
theorem lex_append_of_allClosed (hs : AllClosed (lex comments s))
    (hquote : x.startsWith (· == '"') = false) (hline : comments → x = [] ∨ ∃ v, x = '\n' :: v) :
    lex comments (s ++ x) = lex comments s ++ lex comments x := by
  induction s using lex_induction comments with
  | nil => rw [lex_nil, nil_append, nil_append]
  | char c u _ _ step ih =>
    rw [step, allClosed_cons] at hs
    rw [cons_append, step, step, ih hs.2, cons_append]
  | literal s u _ now more ih =>
    rw [now, allClosed_cons] at hs
    rw [cons_append, append_assoc, more _ (.inr hquote), now, ih hs.2, cons_append]
  | comment s u hcomments _ _ now more ih =>
    rw [now, allClosed_cons] at hs
    rw [cons_append, append_assoc, more _ (.inr (hline hcomments)), now, ih hs.2, cons_append]
  | unclosed u now =>
    rw [now, allClosed_cons] at hs
    exact absurd rfl (hs.1 _)

/-- A text that closes its literals, and what follows at the end of its last line. -/
theorem lex_append_line (hs : AllClosed (lex true s)) (hx : x = [] ∨ ∃ v, x = '\n' :: v) :
    lex true (s ++ x) = lex true s ++ lex true x := by
  refine lex_append_of_allClosed hs ?_ fun _ => hx
  rcases hx with rfl | ⟨v, rfl⟩
  · rfl
  · rfl

end Schemata
