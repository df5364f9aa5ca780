import Schemata.Fragment.Basic

/-!
# Reading a statement makes progress

Whatever follows a statement is a part of the text after its first word, so that reading one
statement after the other comes to an end.  A text that holds no statement is refused as malformed.
-/

namespace Schemata

open List (IsSuffix)

/-! ### Readers of lexemes -/

theorem Lexeme.yields_collapse (started spaced : Bool) (ls : List Lexeme) :
    Yields (fun _ => True) (Lexeme.collapse started spaced ls) := by
  fun_induction Lexeme.collapse started spaced ls with
  | case1 => trivial
  | case2 => exact category_unclosedLiteral _
  | case3 _ _ _ _ _ ih => exact ih
  | case4 _ _ _ _ _ ih | case5 _ _ _ _ ih | case6 _ _ _ _ ih => exact ih.map _ fun _ _ => ⟨⟩

theorem Lexeme.yields_stripComments (ls : List Lexeme) :
    Yields (fun _ => True) (Lexeme.stripComments ls) := by
  fun_induction Lexeme.stripComments ls with
  | case1 => trivial
  | case2 => exact category_unclosedLiteral _
  | case3 _ _ ih => exact ih
  | case4 _ _ ih | case5 _ _ ih => exact ih.map _ fun _ _ => ⟨⟩

theorem yields_takeHeader (isExtend : Bool) (depth : Nat) (ls : List Lexeme) :
    Yields (fun r => raw r.2.2 <:+ raw ls) (takeHeader isExtend depth ls) := by
  fun_induction takeHeader isExtend depth ls with
  | case1 => exact List.suffix_rfl
  | case2 => exact category_unclosedLiteral _
  | case5 => exact List.suffix_append _ _
  | case6 => exact List.suffix_rfl
  | case3 | case4 | case7 =>
      rename_i ih
      exact ih.map _ fun _ h => h.trans (List.suffix_append _ _)

theorem yields_takeBody (depth : Nat) (ls : List Lexeme) :
    Yields (fun o => ∀ r ∈ o, raw r.2 <:+ raw ls) (takeBody depth ls) := by
  fun_induction takeBody depth ls with
  | case1 => simp [Yields]
  | case2 => exact category_unclosedLiteral _
  | case3 => simp [Yields]
  | case4 | case5 =>
      rename_i ih
      refine ih.map _ fun o ho r hr => ?_
      obtain ⟨q, hq, rfl⟩ := Option.map_eq_some_iff.mp hr
      exact (ho q hq).trans (List.suffix_append _ _)

/-! ### Bodies -/

theorem yields_isCompleteField (item : Text) : Yields (fun _ => True) (isCompleteField item) := by
  refine (Lexeme.yields_cutAt (· == ':') 0 (lex false item.trim)).bind fun o _ => ?_
  cases o with
  | none => trivial
  | some r => trivial

theorem Body.yields_flush (b : Body) : Yields (fun _ => True) b.flush :=
  (Lexeme.yields_collapse false false (lex false b.item)).bind fun _ _ => ⟨⟩

theorem Body.yields_isBreak (b : Body) (enum : Bool) (c : Char) (rest : List Lexeme) :
    Yields (fun _ => True) (b.isBreak enum c rest) := by
  unfold Body.isBreak
  split
  · trivial
  split
  · trivial
  split
  · split
    · trivial
    · refine (yields_isCompleteField b.item).bind fun complete _ => ?_
      split <;> trivial
  · trivial

theorem Body.yields_char (b : Body) (enum : Bool) (c : Char) (rest : List Lexeme) :
    Yields (fun _ => True) (b.char enum c rest) := by
  refine (Body.yields_isBreak _ enum c rest).bind fun isBreak _ => ?_
  split
  · split
    · trivial
    · exact (Body.yields_flush _).bind fun _ _ => ⟨⟩
  · trivial

theorem Body.yields_read (enum : Bool) (b : Body) (ls : List Lexeme) :
    Yields (fun _ => True) (b.read enum ls) := by
  fun_induction Body.read enum b ls with
  | case1 b => exact b.yields_flush
  | case2 => exact category_unclosedLiteral _
  | case3 _ _ _ ih => exact ih
  | case4 b t ls ih =>
      refine Yields.bind (p := fun _ => True) ?_ fun b' _ => ih b'
      unfold Body.comment
      split
      · exact b.yields_flush.bind fun _ _ => ⟨⟩
      · trivial
  | case5 b c ls ih => exact (b.yields_char enum c ls).bind fun b' _ => ih b'

/-! ### Unions and scalars -/

theorem yields_takeUnion (taken t : Text) : Yields (fun r => r.2 <:+ t) (takeUnion taken t) := by
  fun_induction takeUnion taken t with
  | case1 taken => exact List.suffix_rfl
  | case2 taken c cs ih =>
      refine (Lexeme.yields_stripComments (lex true taken)).bind fun current _ => ?_
      dsimp only
      split
      · exact ih.imp fun _ h => (h.trans (List.dropWhile_suffix _)).trans (List.suffix_cons _ _)
      · exact List.suffix_rfl

theorem takeUnion_suffix {taken t header rest : Text} (h : takeUnion taken t = .ok (header, rest)) :
    rest <:+ t :=
  (yields_takeUnion taken t).of_eq_ok h

theorem yields_takeDirectives (t : Text) : Yields (fun r => r.2 <:+ t) (takeDirectives t) := by
  fun_induction takeDirectives t with
  | case1 t e he =>
      have h := yields_takeDirective t
      rwa [he] at h
  | case2 t ht => exact List.suffix_rfl
  | case3 t directive after ht ih =>
      refine ih.map _ fun _ h => ?_
      rw [(takeDirective_append ht).1]
      exact h.trans (List.suffix_append _ _)

theorem takeDirectives_suffix {t directives rest : Text}
    (h : takeDirectives t = .ok (directives, rest)) : rest <:+ t :=
  (yields_takeDirectives t).of_eq_ok h

/-! ### Statements -/

theorem yields_readBlock (kind : Kind) (isExtend : Bool) (opening t : Text) :
    Yields (fun r => r.2 <:+ t) (readBlock kind isExtend opening t) := by
  refine (yields_takeHeader isExtend 0 (lex true t)).bind fun r hr => ?_
  obtain ⟨header, hasBody, after⟩ := r
  have hafter : raw after <:+ t := by simpa using hr
  refine (Lexeme.yields_stripComments _).bind fun stripped _ => ?_
  refine (Lexeme.yields_collapse false false _).bind fun full _ => ?_
  split
  · refine (yields_takeBody 0 after).bind fun o ho => ?_
    cases o with
    | none => rfl
    | some q =>
      refine Yields.bind (p := fun _ => True) ?_ fun items _ => (ho q rfl).trans hafter
      exact (Body.yields_read _ {} q.1).map _ fun _ _ => ⟨⟩
  · split
    · exact hafter
    · rfl

theorem yields_readUnion (isExtend : Bool) (t : Text) :
    Yields (fun r => r.2 <:+ t.dropWhile (· != '\n')) (readUnion isExtend t) := by
  refine (yields_takeUnion _ _).bind fun r hr => ?_
  refine Yields.bind (p := fun _ => True) ?_ fun _ _ => hr
  refine (Lexeme.yields_stripComments _).bind fun stripped _ => ?_
  exact (Lexeme.yields_collapse false false _).bind fun _ _ => ⟨⟩

theorem readUnion_suffix {isExtend : Bool} {t rest : Text} {fragment : Fragment}
    (h : readUnion isExtend t = .ok (fragment, rest)) : rest <:+ t.dropWhile (· != '\n') :=
  (yields_readUnion isExtend t).of_eq_ok h

theorem yields_readScalar (isExtend : Bool) (start opening t : Text) :
    Yields (fun r => r.2 <:+ t) (readScalar isExtend start opening t) := by
  unfold readScalar
  split
  · rfl
  · rename_i name after hname
    refine (yields_takeDirectives after).bind fun r hr => ?_
    have hafter : after <:+ t.trimStart := by
      rw [(Text.takeName_append hname).1]
      exact List.suffix_append _ _
    refine (Lexeme.yields_collapse false false _).bind fun _ _ => ?_
    exact hr.trans (hafter.trans (List.dropWhile_suffix _))

theorem yields_takeWord (t : Text) :
    Yields (fun r => t = r.2.1 ++ r.2.2.2 ∧ r.2.1 ≠ [] ∧ t.takeName.isSome = true)
      (takeWord t) := by
  unfold takeWord
  split
  · rfl
  · rename_i first after hfirst
    obtain ⟨ht, hne⟩ := Text.takeName_append hfirst
    split
    · split
      · rfl
      · rename_i next last hnext
        have hafter : after = after.takeWhile isBlank ++ (next ++ last) := by
          rw [← (Text.takeName_append hnext).1, Text.trimStart, List.takeWhile_append_dropWhile]
        refine ⟨?_, by simp [hne], by simp [hfirst]⟩
        rw [ht]
        simpa using hafter
    · exact ⟨ht, hne, by simp [hfirst]⟩

theorem takeWord_append {t opening word rest : Text} {isExtend : Bool}
    (h : takeWord t = .ok (isExtend, opening, word, rest)) :
    t = opening ++ rest ∧ opening ≠ [] := by
  obtain ⟨ht, hne, -⟩ := (yields_takeWord t).of_eq_ok h
  exact ⟨ht, hne⟩

/-- A text that starts with a name has more than its first line break. -/
theorem length_dropWhile_lt {t : Text} (h : t.takeName.isSome = true) :
    (t.dropWhile (· != '\n')).length < t.length := by
  cases t with
  | nil => cases h
  | cons c cs =>
    have hc : (c != '\n') = true := by
      by_cases hc : c = '\n'
      · subst hc
        cases h
      · simpa using hc
    have := (List.dropWhile_suffix (· != '\n') (l := cs)).length_le
    rw [List.dropWhile_cons, if_pos hc, List.length_cons]
    omega

/-- **What follows a statement is an end part of the text, and a proper one.**  A text without one
is malformed. -/
theorem Statement.yields_read (t : Text) :
    Yields (fun r => r.2 <:+ t ∧ r.2.length < t.length) (Statement.read t) := by
  refine (yields_takeWord t).bind fun r hr => ?_
  obtain ⟨isExtend, opening, word, after⟩ := r
  obtain ⟨ht, hne, hname⟩ : t = opening ++ after ∧ opening ≠ [] ∧ t.takeName.isSome = true := hr
  have hline := length_dropWhile_lt hname
  have hafter : ∀ {rest : Text}, rest <:+ after → rest <:+ t ∧ rest.length < t.length := by
    intro rest h
    have := List.length_pos_iff.mpr hne
    have := h.length_le
    refine ⟨h.trans (ht ▸ List.suffix_append _ _), ?_⟩
    rw [ht, List.length_append]
    omega
  dsimp only
  split
  · exact ⟨List.dropWhile_suffix _, hline⟩
  · exact (yields_readUnion isExtend t).bind fun r h =>
      ⟨h.trans (List.dropWhile_suffix _), Nat.lt_of_le_of_lt h.length_le hline⟩
  · exact (yields_readScalar isExtend t opening after).bind fun r h => hafter h
  · exact (yields_readBlock _ isExtend opening after).bind fun r h => hafter h

theorem Statement.read_suffix {t rest : Text} {s : Statement}
    (h : Statement.read t = .ok (s, rest)) : rest <:+ t ∧ rest.length < t.length :=
  (Statement.yields_read t).of_eq_ok h

end Schemata
