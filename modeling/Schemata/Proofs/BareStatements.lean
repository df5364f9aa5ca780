import Schemata.Proofs.BareBlocks

/-!
# Statements without their comments

Comments do not change what a statement declares, as long as they stand apart from the places where
the reading looks for what comes next past white space alone.  Besides those of a block, such places
are the word after `extend` and the name of a scalar, the directives of a scalar, and the next line
of a union.

A union is read line by line, and comments are taken out of what was read so far.  The directives of
a scalar are read as they stand, so they must end before the first comment, and then they end there
whatever follows.

## Main definitions

* `UnionApart`, `ScalarApart` — the comments of a union and of a scalar stand apart from where it
  goes on.
-/

namespace Schemata

open List

variable {directives rest t x : Text} {f : Char → Bool} {ls p : List Lexeme}
    {o : Option (Text × Text)}

/-! ### Unions -/

def isUnionSign (c : Char) : Bool :=
  c == '=' || c == '|'

def UnionApart (t : Text) : Prop :=
  ∀ r, takeUnion (t.takeWhile (· != '\n')) (t.dropWhile (· != '\n')) = .ok r →
    ∀ s, stripComments r.2 = .ok s → s.trimStart.startsWith isUnionSign = false

instance (t : Text) : Decidable (UnionApart t) :=
  inferInstanceAs (Decidable (∀ _, _ → _))

theorem takeUnion_cons {taken s : Text} (hs : stripComments taken = .ok s) (c : Char) (cs : Text) :
    takeUnion taken (c :: cs) =
      if s.trimEnd.endsWith isUnionSign ||
          Text.startsWith isUnionSign (Text.trimStart (c :: cs)) then
        takeUnion (taken ++ c :: cs.takeWhile (· != '\n')) (cs.dropWhile (· != '\n'))
      else .ok (taken, c :: cs) := by
  rw [takeUnion, hs]
  rfl

theorem exists_takeUnion_error {taken : Text} (h : ∀ u, stripComments taken ≠ .ok u) (c : Char) :
    ∃ e, takeUnion taken (c :: t) = .error e := by
  rw [takeUnion]
  cases hs : stripComments taken with
  | error e => exact ⟨e, rfl⟩
  | ok u => exact absurd hs (h u)

namespace Lexed

variable {ls p q : List Lexeme}

theorem takeWhile_bare (hp : '\n' ∉ raw p) (hq : EndsLine q) :
    (raw (bare (p ++ q))).takeWhile (· != '\n') = raw (bare p) ∧
      (raw (bare (p ++ q))).dropWhile (· != '\n') = raw (bare q) := by
  rw [bare_append]
  exact hq.endsLine_bare.takeWhile fun hm => hp (mem_raw_of_mem_bare hm)

/-- The next line of a union, after `p`: it ends between two lexemes, or the union is refused. -/
theorem exists_union_line (h : Lexed (p ++ ls)) :
    (∃ p' q, ls = p' ++ q ∧ '\n' ∉ raw p' ∧ EndsLine q) ∨
      (∃ e, takeUnion (raw p ++ (raw ls).takeWhile (· != '\n'))
        ((raw ls).dropWhile (· != '\n')) = .error e) ∧
      ∃ e, takeUnion (raw (bare p) ++ (raw (bare ls)).takeWhile (· != '\n'))
        ((raw (bare ls)).dropWhile (· != '\n')) = .error e := by
  rcases h.append_right.exists_line with hline | ⟨p', s, t, q, rfl, hp', hs⟩
  · exact .inl hline
  -- both texts are cut inside of the literal
  have hcut : ∀ P P' Q : List Lexeme, '\n' ∉ raw P' →
    Lexed (P ++ (P' ++ .literal (s ++ '\n' :: t) :: Q)) →
      ∃ e, takeUnion (raw P ++ (raw (P' ++ .literal (s ++ '\n' :: t) :: Q)).takeWhile (· != '\n'))
        ((raw (P' ++ .literal (s ++ '\n' :: t) :: Q)).dropWhile (· != '\n')) = .error e := by
    intro P P' Q hP' hlexed
    have hraw : raw (P' ++ .literal (s ++ '\n' :: t) :: Q) =
        (raw P' ++ s) ++ '\n' :: (t ++ raw Q) := by
      simp [Lexeme.text]
    have hnone : '\n' ∉ raw P' ++ s := by simp [hP', hs]
    obtain ⟨htake, hdrop⟩ := takeWhile_line hnone (.inr ⟨t ++ raw Q, rfl⟩)
    rw [← append_assoc] at hlexed
    rw [hraw, htake, hdrop, ← append_assoc, ← raw_append]
    exact exists_takeUnion_error hlexed.not_stripComments '\n'
  refine .inr ⟨hcut p p' q hp' h, ?_⟩
  have hbare := h.lexed_bare
  rw [bare_append, bare_append, bare_literal] at hbare
  rw [bare_append, bare_literal]
  exact hcut (bare p) (bare p') (bare q) (fun hm => hp' (mem_raw_of_mem_bare hm)) hbare

theorem startsWith_bare (hf : f '#' = false) (h : Lexed ls) (hstarts : (raw ls).startsWith f) :
    (raw (bare ls)).startsWith f := by
  cases h with
  | nil => exact hstarts
  | char _ _ _ => exact hstarts
  | literal _ _ => exact hstarts
  | comment _ _ _ =>
    rw [raw_cons, Lexeme.text, cons_append, startsWith_cons, hf] at hstarts
    cases hstarts

theorem startsWith_trimStart_bare (hf : f '#' = false) (h : Lexed ls)
    (hstarts : (raw ls).trimStart.startsWith f) : (raw (bare ls)).trimStart.startsWith f := by
  have hstop : (raw ls).trimStart.startsWith (· == '#') = false := by
    cases ht : (raw ls).trimStart with
    | nil => rfl
    | cons c t =>
      rw [ht, startsWith_cons] at hstarts
      rw [startsWith_cons, beq_eq_false_iff_ne]
      rintro rfl
      rw [hf] at hstarts
      cases hstarts
  obtain ⟨w, ms, hls, -, htrim, -, htrim'⟩ := h.trimStart_bare hstop
  rw [htrim] at hstarts
  rw [htrim']
  exact (hls ▸ h).append_right.startsWith_bare hf hstarts

/-- **Unions without their comments.** -/
theorem takeUnion_bare (h : Lexed (p ++ q)) (hq : EndsLine q)
    (hapart : ∀ r, takeUnion (raw p) (raw q) = .ok r → ∀ s, stripComments r.2 = .ok s →
      s.trimStart.startsWith isUnionSign = false) :
    Alike (fun x y => ∃ p' q', p ++ q = p' ++ q' ∧ x = (raw p', raw q') ∧
      y = (raw (bare p'), raw (bare q')))
      (takeUnion (raw p) (raw q)) (takeUnion (raw (bare p)) (raw (bare q))) := by
  -- `p` is the part read so far, which ends with a line
  induction hn : q.length using Nat.strong_induction_on generalizing p q with
  | _ n ih =>
    rcases hq with rfl | ⟨ms, rfl⟩
    · rw [bare_nil, raw_nil, takeUnion, takeUnion]
      exact .ok ⟨p, [], rfl, rfl, rfl⟩
    have hp : stripComments (raw p) = .ok (raw (bare p)) := h.append_left.stripComments_raw
    have hp' : stripComments (raw (bare p)) = .ok (raw (bare p)) :=
      stripComments_eq h.append_left.isBare.closed
    have hstep := takeUnion_cons hp '\n' (raw ms)
    have hstep' := takeUnion_cons hp' '\n' (raw (bare ms))
    have hrest : Lexed (.char '\n' :: ms) := h.append_right
    change Alike _ (takeUnion (raw p) ('\n' :: raw ms))
      (takeUnion (raw (bare p)) ('\n' :: raw (bare ms)))
    by_cases hgoes : ((raw (bare p)).trimEnd.endsWith isUnionSign ||
        Text.startsWith isUnionSign (Text.trimStart ('\n' :: raw ms)))
    · have hgoes' : ((raw (bare p)).trimEnd.endsWith isUnionSign ||
          Text.startsWith isUnionSign (Text.trimStart ('\n' :: raw (bare ms)))) := by
        rw [Bool.or_eq_true] at hgoes ⊢
        exact hgoes.imp_right (@startsWith_trimStart_bare isUnionSign (.char '\n' :: ms) rfl hrest)
      rw [if_pos hgoes] at hstep
      rw [if_pos hgoes'] at hstep'
      have hregroup : p ++ .char '\n' :: ms = (p ++ [.char '\n']) ++ ms := by simp
      have hraw : ∀ t : Text, raw p ++ '\n' :: t = raw (p ++ [.char '\n']) ++ t := by
        simp [Lexeme.text]
      have hraw' : ∀ t : Text, raw (bare p) ++ '\n' :: t = raw (bare (p ++ [.char '\n'])) ++ t := by
        simp [Lexeme.text]
      rw [hregroup] at h
      rw [hraw] at hstep
      rw [hraw'] at hstep'
      rcases h.exists_union_line with ⟨p₁, q₁, rfl, hp₁, hq₁⟩ | ⟨⟨e, he⟩, e', he'⟩
      · -- both go on with the next line
        obtain ⟨htake, hdrop⟩ := hq₁.takeWhile hp₁
        obtain ⟨htake', hdrop'⟩ := takeWhile_bare hp₁ hq₁
        rw [htake, hdrop, ← raw_append] at hstep
        rw [htake', hdrop', ← raw_append, ← bare_append] at hstep'
        have hall : (p ++ [.char '\n'] ++ p₁) ++ q₁ = p ++ .char '\n' :: (p₁ ++ q₁) := by simp
        rw [← hall, hstep, hstep']
        refine ih q₁.length ?_ ?_ hq₁ ?_ rfl
        · rw [← hn, length_cons, length_append]
          omega
        · rw [append_assoc]
          exact h
        · intro r hr
          exact hapart r (hstep.trans hr)
      · rw [hstep, hstep', he, he']
        exact .error e e'
    · -- the union ends here, and no line of it follows after comments
      rw [Bool.not_eq_true] at hgoes
      rw [hgoes, if_neg Bool.false_ne_true] at hstep
      have hsigns := hapart _ hstep _ hrest.stripComments_raw
      rw [Bool.or_eq_false_iff] at hgoes
      have hgoes' : ((raw (bare p)).trimEnd.endsWith isUnionSign ||
          Text.startsWith isUnionSign (Text.trimStart ('\n' :: raw (bare ms)))) = false := by
        rw [Bool.or_eq_false_iff]
        exact ⟨hgoes.1, hsigns⟩
      rw [hgoes', if_neg Bool.false_ne_true] at hstep'
      rw [hstep, hstep']
      exact .ok ⟨p, .char '\n' :: ms, rfl, rfl, rfl⟩

end Lexed

/-- **A union without its comments.** -/
theorem Lexed.readUnion_bare {isExtend : Bool} (h : Lexed ls) (hapart : UnionApart (raw ls)) :
    Alike Reads (readUnion isExtend (raw ls)) (readUnion isExtend (raw (bare ls))) := by
  have htaken : Alike (fun x y => ∃ p q, ls = p ++ q ∧ x = (raw p, raw q) ∧
    y = (raw (bare p), raw (bare q)))
      (takeUnion ((raw ls).takeWhile (· != '\n')) ((raw ls).dropWhile (· != '\n')))
      (takeUnion ((raw (bare ls)).takeWhile (· != '\n'))
        ((raw (bare ls)).dropWhile (· != '\n'))) := by
    rcases @Lexed.exists_union_line ls [] h with ⟨p, q, rfl, hp, hq⟩ | ⟨⟨e, he⟩, e', he'⟩
    · rw [UnionApart] at hapart
      obtain ⟨htake, hdrop⟩ := hq.takeWhile hp
      obtain ⟨htake', hdrop'⟩ := takeWhile_bare hp hq
      rw [htake, hdrop] at hapart ⊢
      rw [htake', hdrop']
      exact h.takeUnion_bare hq hapart
    · rw [raw_nil, nil_append] at he
      rw [bare_nil, raw_nil, nil_append] at he'
      rw [he, he']
      exact .error e e'
  refine htaken.bind ?_
  rintro _ _ ⟨p, q, rfl, rfl, rfl⟩
  have hheader : canonicalHeader (raw p) = canonicalHeader (raw (bare p)) := by
    have hp := h.append_left
    rw [canonicalHeader, canonicalHeader, hp.stripComments_raw, stripComments_eq hp.isBare.closed]
  dsimp only
  rw [hheader]
  cases canonicalHeader (raw (bare p)) with
  | error e => exact .error e e
  | ok header => exact .ok ⟨rfl, h.append_right.rests⟩

/-! ### Scalars -/

/-- No comment stands before the name of a scalar, or inside of its directives. -/
def ScalarApart (t : Text) : Prop :=
  t.trimStart.startsWith (· == '#') = false ∧
    ∀ n ∈ t.trimStart.takeName, ∃ r, takeDirectives n.2 = .ok r ∧ Closed r.1

instance (t : Text) : Decidable (ScalarApart t) :=
  inferInstanceAs (Decidable (_ ∧ _))

def Stops (t : Text) : Prop :=
  t = [] ∨ ∃ c u, t = c :: u ∧ (c = '#' ∨ c = '\n')

theorem Stops.head (h : Stops t) {p : Char → Bool} (hhash : p '#' = false)
    (hline : p '\n' = false) : t.takeWhile p = [] ∧ t.dropWhile p = t ∧ t.startsWith p = false := by
  rcases h with rfl | ⟨c, u, rfl, rfl | rfl⟩
  · exact ⟨rfl, rfl, rfl⟩
  · exact ⟨takeWhile_cons_of_neg (by simp [hhash]), dropWhile_cons_of_neg (by simp [hhash]), hhash⟩
  · exact ⟨takeWhile_cons_of_neg (by simp [hline]), dropWhile_cons_of_neg (by simp [hline]), hline⟩

theorem takeName_eq_none (h : t.startsWith isNameStart = false) : t.takeName = none := by
  cases t with
  | nil => rfl
  | cons c t =>
    rw [startsWith_cons] at h
    rw [Text.takeName, h, if_neg Bool.false_ne_true]

namespace IsBare

variable {p : List Lexeme}

theorem exists_span_stops (hquote : f '"' = false) (hhash : f '#' = false) (hline : f '\n' = false)
    (h : IsBare p) : ∃ (w : Text) (q : List Lexeme), p = w.map .char ++ q ∧ ∀ t, Stops t →
      (raw p ++ t).takeWhile f = w ∧ (raw p ++ t).dropWhile f = raw q ++ t := by
  obtain ⟨hlexed, hquiet⟩ := h
  induction hlexed with
  | nil =>
    refine ⟨[], [], rfl, fun t ht => ?_⟩
    obtain ⟨htake, hdrop, -⟩ := ht.head hhash hline
    exact ⟨htake, hdrop⟩
  | @char c ls _ _ _ ih =>
    rw [all_cons, Bool.and_eq_true] at hquiet
    by_cases hc : f c
    · obtain ⟨w, q, rfl, hspan⟩ := ih hquiet.2
      refine ⟨c :: w, q, rfl, fun t ht => ?_⟩
      obtain ⟨htake, hdrop⟩ := hspan t ht
      constructor
      · rw [raw_char, cons_append, takeWhile_cons_of_pos hc, htake]
      · rw [raw_char, cons_append, dropWhile_cons_of_pos hc, hdrop]
    · exact ⟨[], .char c :: ls, rfl, fun t _ =>
        ⟨takeWhile_cons_of_neg hc, dropWhile_cons_of_neg hc⟩⟩
  | @literal body ls _ _ _ =>
    have hc : ¬ f '"' := by simp [hquote]
    exact ⟨[], .literal ('"' :: body) :: ls, rfl, fun t _ =>
      ⟨takeWhile_cons_of_neg hc, dropWhile_cons_of_neg hc⟩⟩
  | comment _ _ _ _ => cases hquiet

/-- Whether a text starts with a character of a class is settled before its first comment. -/
theorem startsWith_stops (hquote : f '"' = false) (hhash : f '#' = false) (hline : f '\n' = false)
    (h : IsBare p) :
    (∀ t, Stops t → (raw p ++ t).startsWith f = false) ∨ ∃ c q, p = .char c :: q ∧ f c := by
  obtain ⟨hlexed, hquiet⟩ := h
  cases hlexed with
  | nil => exact .inl fun t ht => (ht.head hhash hline).2.2
  | @char c q _ _ _ =>
    cases hc : f c with
    | true => exact .inr ⟨c, q, rfl, hc⟩
    | false => exact .inl fun _ _ => hc
  | literal _ _ => exact .inl fun _ _ => hquote
  | comment _ _ _ => cases hquiet

theorem takeName_stops (h : IsBare p) :
    (∀ t, Stops t → Text.takeName (raw p ++ t) = none) ∨
      ∃ (w : Text) (q : List Lexeme), p = w.map .char ++ q ∧
        ∀ t, Stops t → Text.takeName (raw p ++ t) = some (w, raw q ++ t) := by
  rcases h.startsWith_stops (f := isNameStart) rfl rfl rfl with hstart | ⟨c, q, rfl, hc⟩
  · exact .inl fun t ht => takeName_eq_none (hstart t ht)
  · have hq : IsBare q := @append_right [.char c] q h
    obtain ⟨w, q, rfl, hspan⟩ := hq.exists_span_stops (f := isNameChar) rfl rfl rfl
    refine .inr ⟨c :: w, q, rfl, fun t ht => ?_⟩
    obtain ⟨htake, hdrop⟩ := hspan t ht
    rw [raw_char, cons_append, Text.takeName, if_pos hc, htake, hdrop]

end IsBare

theorem takeBalanced_local {opener closer : Char} {depth : Int} {q : List Lexeme}
    (h : Lexeme.takeBalanced opener closer depth (p ++ q) = .ok o) :
    (∃ p₁ p₂, p = p₁ ++ p₂ ∧ o = some (raw p₁, raw p₂ ++ raw q) ∧
      ∀ q', Lexeme.takeBalanced opener closer depth (p ++ q') =
        .ok (some (raw p₁, raw p₂ ++ raw q'))) ∨
    o = none ∨ ∃ u rest, o = some (raw p ++ u, rest) ∧ u ≠ [] := by
  induction p generalizing depth o with
  | nil =>
    cases o with
    | none => exact .inr (.inl rfl)
    | some r =>
      obtain ⟨inside, rest⟩ := r
      exact .inr (.inr ⟨inside, rest, rfl,
        ((Lexeme.yields_takeBalanced _ _ _ _).of_eq_ok h inside rest rfl).2⟩)
  | cons l p ih =>
    -- a lexeme that does not close the parentheses
    have hcons : ∀ d : Int, (∀ ms, Lexeme.takeBalanced opener closer depth (l :: ms) =
          prepend l.text <$> Lexeme.takeBalanced opener closer d ms) →
        (∃ p₁ p₂, l :: p = p₁ ++ p₂ ∧ o = some (raw p₁, raw p₂ ++ raw q) ∧
          ∀ q', Lexeme.takeBalanced opener closer depth (l :: p ++ q') =
            .ok (some (raw p₁, raw p₂ ++ raw q'))) ∨
        o = none ∨ ∃ u rest, o = some (raw (l :: p) ++ u, rest) ∧ u ≠ [] := by
      intro d hstep
      rw [cons_append, hstep] at h
      obtain ⟨o', ho', rfl⟩ := map_eq_ok h
      rcases ih ho' with ⟨p₁, p₂, rfl, rfl, hall⟩ | rfl | ⟨u, rest, rfl, hu⟩
      · refine .inl ⟨l :: p₁, p₂, rfl, rfl, fun q' => ?_⟩
        rw [cons_append, hstep, hall]
        rfl
      · exact .inr (.inl rfl)
      · refine .inr (.inr ⟨u, rest, ?_, hu⟩)
        rw [raw_cons, append_assoc]
        rfl
    cases l with
    | char c =>
      by_cases hopen : (c == opener)
      · exact hcons (depth + 1) fun ms => by rw [Lexeme.takeBalanced, if_pos hopen]; rfl
      · by_cases hclose : (c == closer)
        · by_cases hdepth : (depth == 1)
          · have hstop : ∀ ms, Lexeme.takeBalanced opener closer depth (.char c :: ms) =
                .ok (some ([c], raw ms)) :=
              fun ms => by rw [Lexeme.takeBalanced, if_neg hopen, if_pos hclose, if_pos hdepth]
            rw [cons_append, hstop] at h
            refine .inl ⟨[.char c], p, rfl, ?_, fun q' => ?_⟩
            · rw [← Except.ok.inj h, raw_append]
              rfl
            · rw [cons_append, hstop, raw_append]
              rfl
          · exact hcons (depth - 1) fun ms => by
              rw [Lexeme.takeBalanced, if_neg hopen, if_pos hclose, if_neg hdepth]
              rfl
        · exact hcons depth fun ms => by rw [Lexeme.takeBalanced, if_neg hopen, if_neg hclose]; rfl
    | literal t => exact hcons depth fun _ => rfl
    | comment t => exact hcons depth fun _ => rfl
    | unclosed t => cases h

def isGapChar (c : Char) : Bool :=
  c == ' ' || c == '\t'

theorem takeDirective_eq {gap cs : Text} (hgap : t.takeWhile isGapChar = gap)
    (hcs : t.dropWhile isGapChar = '@' :: cs) :
    takeDirective t = match Text.takeName cs with
      | none => .ok none
      | some (name, rest) =>
          if Text.startsWith (· == '(') rest then
            (takeBalanced '(' ')' rest).map fun
              | some (inside, after) => some (gap ++ '@' :: name ++ inside, after)
              | none => some (gap ++ '@' :: name ++ rest, [])
          else .ok (some (gap ++ '@' :: name, rest)) := by
  unfold takeDirective
  unfold isGapChar at hgap hcs
  rw [hcs, hgap]
  cases hname : Text.takeName cs with
  | none =>
    simp only [hname]
    rfl
  | some r =>
    obtain ⟨name, rest⟩ := r
    simp only [hname]
    split
    · cases takeBalanced '(' ')' rest with
      | error e => rfl
      | ok o => cases o <;> rfl
    · rfl

theorem takeDirective_eq_none (h : Text.startsWith (· == '@') (t.dropWhile isGapChar) = false) :
    takeDirective t = .ok none := by
  unfold takeDirective
  unfold isGapChar at h
  split
  · rename_i cs hcs
    rw [hcs] at h
    cases h
  · rfl

/-- An argument list that ends before the first comment does so whatever follows. -/
theorem IsBare.takeBalanced_stops (h : IsBare p) (hx : Stops x)
    (ho : takeBalanced '(' ')' (raw p ++ x) = .ok o) :
    (∃ p₁ p₂, p = p₁ ++ p₂ ∧ o = some (raw p₁, raw p₂ ++ x) ∧
      ∀ t, Stops t → takeBalanced '(' ')' (raw p ++ t) = .ok (some (raw p₁, raw p₂ ++ t))) ∨
    o = none ∨ ∃ v rest, o = some (raw p ++ v, rest) ∧ v ≠ [] ∧ v ++ rest = x := by
  have hlex : ∀ t, Stops t → lex false (raw p ++ t) = p ++ lex false t := by
    intro t ht
    rw [lex_append h.closed (ht.head (p := (· == '"')) rfl rfl).2.2, h.lex_raw]
  have happend := @takeBalanced_append '(' ')' (raw p ++ x)
  unfold takeBalanced at ho
  rw [hlex _ hx] at ho
  rcases takeBalanced_local ho with ⟨p₁, p₂, rfl, rfl, hall⟩ | rfl | ⟨v, rest, rfl, hv⟩
  · refine .inl ⟨p₁, p₂, rfl, by rw [raw_lex], fun t ht => ?_⟩
    rw [takeBalanced, hlex t ht, hall, raw_lex]
  · exact .inr (.inl rfl)
  · -- the list goes on over what follows
    refine .inr (.inr ⟨v, rest, rfl, hv, ?_⟩)
    have hcut : raw p ++ x = (raw p ++ v) ++ rest := by
      refine (happend ?_).1
      unfold takeBalanced
      rw [hlex _ hx, ho]
    rw [append_assoc, append_cancel_left_eq] at hcut
    exact hcut.symm

/-- A directive ends before the first comment, and does so whatever follows, or it goes on over the
comment. -/
theorem IsBare.takeDirective_stops (h : IsBare p) (hx : Stops x)
    (ho : takeDirective (raw p ++ x) = .ok o) :
    (o = none ∧ ∀ t, Stops t → takeDirective (raw p ++ t) = .ok none) ∨
      (∃ p₁ p₂, p = p₁ ++ p₂ ∧ o = some (raw p₁, raw p₂ ++ x) ∧
        ∀ t, Stops t → takeDirective (raw p ++ t) = .ok (some (raw p₁, raw p₂ ++ t))) ∨
      ∃ v rest, o = some (raw p ++ v, rest) ∧ (v = [] → x = []) ∧ v ++ rest = x := by
  obtain ⟨gap, q, rfl, hspan⟩ := h.exists_span_stops (f := isGapChar) rfl rfl rfl
  have hnone : (∀ t, Stops t → takeDirective (raw (gap.map .char ++ q) ++ t) = .ok none) →
      o = none ∧ ∀ t, Stops t → takeDirective (raw (gap.map .char ++ q) ++ t) = .ok none := by
    intro hall
    rw [hall _ hx] at ho
    exact ⟨(Except.ok.inj ho).symm, hall⟩
  rcases h.append_right.startsWith_stops (f := (· == '@')) rfl rfl rfl with hat | ⟨c, q, rfl, hc⟩
  · refine .inl (hnone fun t ht => takeDirective_eq_none ?_)
    rw [(hspan t ht).2]
    exact hat t ht
  obtain rfl : c = '@' := by simpa using hc
  have hdrop : ∀ t, Stops t →
      (raw (gap.map .char ++ .char '@' :: q) ++ t).dropWhile isGapChar = '@' :: (raw q ++ t) :=
    fun t ht => (hspan t ht).2
  have hstep := fun t ht => takeDirective_eq (hspan t ht).1 (hdrop t ht)
  have hq : IsBare q := @append_right [.char '@'] q h.append_right
  rcases hq.takeName_stops with hname | ⟨name, r, rfl, hname⟩
  · refine .inl (hnone fun t ht => ?_)
    rw [hstep t ht, hname t ht]
  have hraw : raw (gap.map .char ++ .char '@' :: (name.map .char ++ r)) =
      gap ++ '@' :: name ++ raw r := by
    simp [Lexeme.text]
  have hr : IsBare r := hq.append_right
  rcases hr.startsWith_stops (f := (· == '(')) rfl rfl rfl with hparen | ⟨c, r, rfl, hc⟩
  · -- a name alone
    have hall : ∀ t, Stops t →
      takeDirective (raw (gap.map .char ++ .char '@' :: (name.map .char ++ r)) ++ t) =
        .ok (some (raw (gap.map .char ++ .char '@' :: name.map .char), raw r ++ t)) := by
      intro t ht
      rw [hstep t ht, hname t ht]
      simp [hparen t ht, Lexeme.text]
    rw [hall _ hx] at ho
    exact .inr (.inl ⟨_, r, by simp, (Except.ok.inj ho).symm, hall⟩)
  · -- a name with arguments
    obtain rfl : c = '(' := by simpa using hc
    have hlist : ∀ t, Stops t →
        takeDirective
          (raw (gap.map .char ++ .char '@' :: (name.map .char ++ .char '(' :: r)) ++ t) =
        (takeBalanced '(' ')' (raw (.char '(' :: r) ++ t)).map fun
          | some (inside, after) => some (gap ++ '@' :: name ++ inside, after)
          | none => some (gap ++ '@' :: name ++ (raw (.char '(' :: r) ++ t), []) := by
      intro t ht
      rw [hstep t ht, hname t ht]
      rfl
    rw [hlist _ hx] at ho
    obtain ⟨o', ho', rfl⟩ := map_eq_ok ho
    rcases hr.takeBalanced_stops hx ho' with
      ⟨r₁, r₂, hcut, rfl, hall⟩ | rfl | ⟨v, after, rfl, hv, hcut⟩
    · refine .inr (.inl ⟨gap.map .char ++ .char '@' :: (name.map .char ++ r₁), r₂, ?_, ?_, ?_⟩)
      · simp [hcut]
      · simp [Lexeme.text]
      · intro t ht
        rw [hlist t ht, hall t ht]
        simp [Except.map, Lexeme.text]
    · -- arguments that are not closed go on to the end of the text
      refine .inr (.inr ⟨x, [], ?_, id, append_nil x⟩)
      rw [hraw]
      simp
    · refine .inr (.inr ⟨v, after, ?_, fun hnil => absurd hnil hv, hcut⟩)
      rw [hraw]
      simp

theorem takeDirectives_eq (t : Text) :
    takeDirectives t = takeDirective t >>= fun
      | none => .ok ([], t)
      | some (directive, rest) => (fun (directives, rest) => (directive ++ directives, rest)) <$>
          takeDirectives rest := by
  rw [takeDirectives]
  split
  · rename_i heq
    rw [heq]
    rfl
  · rename_i heq
    rw [heq]
    rfl
  · rename_i heq
    rw [heq]
    rfl

theorem takeDirectives_append (h : takeDirectives t = .ok (directives, rest)) :
    t = directives ++ rest := by
  fun_induction takeDirectives t generalizing directives with
  | case1 t e he => cases h
  | case2 t ht =>
    obtain ⟨rfl, rfl⟩ := Prod.mk.inj (Except.ok.inj h)
    rfl
  | case3 t directive after ht ih =>
    obtain ⟨⟨ds, rest'⟩, hds, heq⟩ := map_eq_ok h
    obtain ⟨rfl, rfl⟩ := Prod.mk.inj heq
    rw [(takeDirective_append ht).1, ih hds, append_assoc]

/-- Directives end before the first comment, and do so whatever follows, or they go on over the
comment. -/
theorem IsBare.takeDirectives_stops (h : IsBare p) (hx : Stops x)
    (hd : takeDirectives (raw p ++ x) = .ok (directives, rest)) :
    (∃ p₁ p₂, p = p₁ ++ p₂ ∧ directives = raw p₁ ∧ rest = raw p₂ ++ x ∧
      ∀ t, Stops t → takeDirectives (raw p ++ t) = .ok (raw p₁, raw p₂ ++ t)) ∨
    ∃ v, directives = raw p ++ v ∧ (v = [] → x = []) ∧ v ++ rest = x := by
  induction hn : p.length using Nat.strong_induction_on generalizing p directives with
  | _ n ih =>
    cases ho : takeDirective (raw p ++ x) with
    | error e =>
      rw [takeDirectives_eq, ho] at hd
      cases hd
    | ok o =>
      rcases h.takeDirective_stops hx ho with
        ⟨rfl, hall⟩ | ⟨p₁, p₂, rfl, rfl, hall⟩ | ⟨v, after, rfl, hv, hcut⟩
      · rw [takeDirectives_eq, ho] at hd
        obtain ⟨rfl, rfl⟩ := Prod.mk.inj (Except.ok.inj hd)
        refine .inl ⟨[], p, rfl, rfl, rfl, fun t ht => ?_⟩
        rw [takeDirectives_eq, hall t ht]
        rfl
      · rw [takeDirectives_eq, ho] at hd
        obtain ⟨⟨ds, after⟩, hds, heq⟩ := map_eq_ok hd
        obtain ⟨rfl, rfl⟩ := Prod.mk.inj heq
        have hshorter : p₂.length < n := by
          have hne : p₁ ≠ [] := by
            rintro rfl
            exact (takeDirective_append ho).2 rfl
          have := length_pos_iff.mpr hne
          rw [← hn, length_append]
          omega
        rcases ih p₂.length hshorter h.append_right hds rfl with
          ⟨q₁, q₂, rfl, rfl, rfl, hrest⟩ | ⟨v, rfl, hv, hcut⟩
        · refine .inl ⟨p₁ ++ q₁, q₂, by simp, by simp, rfl, fun t ht => ?_⟩
          rw [takeDirectives_eq, hall t ht]
          simp only [bind, Except.bind]
          rw [hrest t ht, raw_append]
          rfl
        · exact .inr ⟨v, by simp, hv, hcut⟩
      · -- a directive that goes on over what follows
        rw [takeDirectives_eq, ho] at hd
        obtain ⟨⟨ds, after'⟩, hds, heq⟩ := map_eq_ok hd
        obtain ⟨rfl, rfl⟩ := Prod.mk.inj heq
        refine .inr ⟨v ++ ds, by simp, fun hnil => hv (append_eq_nil_iff.mp hnil).1, ?_⟩
        rw [← hcut, append_assoc, ← takeDirectives_append hds]

theorem IsBare.bare_eq (h : IsBare p) : bare p = p := by
  rw [bare, filter_eq_self]
  intro l hl
  have hquiet := all_eq_true.mp h.quiet l hl
  cases l with
  | comment t => cases hquiet
  | _ => rfl

theorem Lexed.exists_comment (h : Lexed ls) :
    IsBare ls ∨ ∃ p t q, ls = p ++ .comment ('#' :: t) :: q ∧ IsBare p ∧ EndsLine q := by
  induction h with
  | nil => exact .inl .nil
  | @char c ls quote hash rest ih =>
    have hcons : ∀ {p}, IsBare p → IsBare (.char c :: p) := fun hp =>
      ⟨.char quote hash hp.lexed, by simpa [Lexeme.isQuiet, hash] using hp.quiet⟩
    rcases ih with hls | ⟨p, t, q, rfl, hp, hq⟩
    · exact .inl (hcons hls)
    · exact .inr ⟨.char c :: p, t, q, rfl, hcons hp, hq⟩
  | @literal body ls taken rest ih =>
    rcases ih with hls | ⟨p, t, q, rfl, hp, hq⟩
    · exact .inl ⟨.literal taken rest, by simpa [Lexeme.isQuiet] using hls.quiet⟩
    · refine .inr ⟨.literal ('"' :: body) :: p, t, q, rfl, ⟨?_, ?_⟩, hq⟩
      · exact @append_left (.literal ('"' :: body) :: p) _ (.literal taken rest)
      · simpa [Lexeme.isQuiet] using hp.quiet
  | @comment t ls _ ends _ _ => exact .inr ⟨[], t, ls, rfl, .nil, ends⟩

/-- **Directives without the comments after them.** -/
theorem Lexed.takeDirectives_bare (h : Lexed ls)
    (hd : takeDirectives (raw ls) = .ok (directives, rest)) (hclosed : Closed directives) :
    ∃ ms, Lexed ms ∧ rest = raw ms ∧ takeDirectives (raw (bare ls)) =
      .ok (directives, raw (bare ms)) := by
  -- up to the first comment nothing changes
  rcases h.exists_comment with hbare | ⟨p, t, q, rfl, hp, hq⟩
  · rw [hbare.bare_eq]
    rw [← append_nil (raw ls)] at hd
    rcases hbare.takeDirectives_stops (.inl rfl) hd with ⟨p₁, p₂, rfl, -, rfl, -⟩ | ⟨v, -, -, hcut⟩
    · rw [append_nil, append_nil] at hd
      exact ⟨p₂, h.append_right, append_nil _, by rw [hd, hbare.append_right.bare_eq]⟩
    · obtain ⟨rfl, rfl⟩ := append_eq_nil_iff.mp hcut
      rw [append_nil] at hd
      exact ⟨[], .nil, rfl, hd⟩
  · have hraw : raw (p ++ .comment ('#' :: t) :: q) = raw p ++ '#' :: (t ++ raw q) := by
      simp [Lexeme.text]
    rw [hraw] at hd
    rcases hp.takeDirectives_stops (.inr ⟨'#', _, rfl, .inl rfl⟩) hd with
      ⟨p₁, p₂, rfl, rfl, rfl, hall⟩ | ⟨v, rfl, hv, hcut⟩
    · have hbare : raw (bare (p₁ ++ p₂ ++ .comment ('#' :: t) :: q)) =
          raw (p₁ ++ p₂) ++ raw (bare q) := by
        rw [bare_append, hp.bare_eq, bare_comment, raw_append]
      have hstops : Stops (raw (bare q)) := by
        rcases hq.endsLine_bare with hnil | ⟨ms, hms⟩
        · exact .inl (by rw [hnil, raw_nil])
        · exact .inr ⟨'\n', raw ms, by rw [hms]; rfl, .inr rfl⟩
      rw [append_assoc] at h
      refine ⟨p₂ ++ .comment ('#' :: t) :: q, h.append_right, by simp [Lexeme.text], ?_⟩
      rw [hbare, hall _ hstops, bare_append, hp.append_right.bare_eq, bare_comment, raw_append]
    · -- a comment inside of the directives
      cases v with
      | nil => cases hv rfl
      | cons c v =>
        obtain ⟨rfl, -⟩ := List.cons.inj hcut
        rw [Closed, lex_append hp.closed rfl, all_append, Bool.and_eq_true] at hclosed
        exact absurd hclosed.2 (by simp [lex, Lexeme.isQuiet])

/-- **A scalar without the comments after it.** -/
theorem Lexed.readScalar_bare {isExtend : Bool} {start start' opening : Text} (h : Lexed ls)
    (hapart : ScalarApart (raw ls)) :
    Alike Reads (readScalar isExtend start opening (raw ls))
      (readScalar isExtend start' opening (raw (bare ls))) := by
  obtain ⟨hstop, hdirectives⟩ := hapart
  obtain ⟨gap, ms, rfl, htake, htrim, htake', htrim'⟩ := h.trimStart_bare hstop
  have hms : Lexed ms := h.append_right
  unfold readScalar
  rw [htrim, htrim', htake, htake']
  rw [htrim] at hdirectives
  rcases hms.takeName_bare with ⟨hnone, hnone'⟩ | ⟨name, ns, rfl, hsome, hsome'⟩
  · rw [hnone, hnone']
    exact .error _ _
  · rw [hsome, hsome']
    obtain ⟨⟨directives, after⟩, hd, hclosed⟩ := hdirectives _ hsome
    obtain ⟨os, hos, rfl, hd'⟩ := hms.append_right.takeDirectives_bare hd hclosed
    simp only [hd, hd', bind, Except.bind]
    cases collapse (opening ++ gap ++ name ++ directives) with
    | error e => exact .error e e
    | ok header => exact .ok ⟨rfl, hos.rests⟩

/-! ### Statements -/

/-- The comments of a statement stand apart from the places where its reading looks past white
space, by the kind that its first word names.  A line that is passed over closes its literals. -/
def KindApart (t : Text) (isExtend : Bool) (rest : Text) : Option Kind → Prop
  | none => (stripComments (t.takeWhile (· != '\n'))).isOk = true
  | some .union => UnionApart t
  | some .scalar => ScalarApart rest
  | some _ => BlockApart isExtend rest

instance (t : Text) (isExtend : Bool) (rest : Text) (kind : Option Kind) :
    Decidable (KindApart t isExtend rest kind) := by
  unfold KindApart
  split <;> infer_instance

/-- The comments of the statement that `t` starts with stand apart from the places where its reading
looks past white space.  At such a place a comment hides what goes on behind it: a member of a union
after a comment line, the name of a scalar, the type of a field. -/
structure CommentsApart (t : Text) : Prop where
  extend : ∀ n ∈ t.takeName, n.1 = "extend".toList → n.2.trimStart.startsWith (· == '#') = false
  declaration : ∀ w, takeWord t = .ok w → KindApart t w.1 w.2.2.2 (Kind.ofKeyword? w.2.2.1)

instance (t : Text) : Decidable (CommentsApart t) :=
  decidable_of_iff (_ ∧ _) ⟨fun h => ⟨h.1, h.2⟩, fun h => ⟨h.extend, h.declaration⟩⟩

/-- What a statement reads as without its comments: declarations correspond, and so do lines passed
over. -/
inductive SameStatement : Statement × Text → Statement × Text → Prop
  | declared {f : Fragment} {t u : Text} (rests : Rests t u) :
      SameStatement (.declared f, t) (.declared f.withoutComments, u)
  | skipped (line line' : Text) {t u : Text} (rests : Rests t u) :
      SameStatement (.skipped line, t) (.skipped line', u)

theorem SameStatement.rests {x y : Statement × Text} (h : SameStatement x y) : Rests x.2 y.2 := by
  cases h with
  | declared rests => exact rests
  | skipped _ _ rests => exact rests

/-- **A statement without its comments.** -/
theorem Lexed.read_bare (h : Lexed ls) (hapart : CommentsApart (raw ls)) :
    Alike SameStatement (Statement.read (raw ls)) (Statement.read (raw (bare ls))) := by
  have hword := h.takeWord_bare fun rest hname => hapart.extend _ hname rfl
  have hkind := hapart.declaration
  unfold Statement.read
  generalize hx : takeWord (raw ls) = x at hword hkind
  generalize hy : takeWord (raw (bare ls)) = y at hword
  cases hword with
  | error e e' => exact .error e e'
  | ok related =>
    obtain ⟨isExtend, opening, word, ms, hls, rfl, rfl⟩ := related
    replace hkind := hkind _ rfl
    simp only [bind, Except.bind]
    have hdeclared : ∀ {x y : Except SchemaError (Fragment × Text)}, Alike Reads x y →
        Alike SameStatement (x >>= fun r => .ok (.declared r.1, r.2))
          (y >>= fun r => .ok (.declared r.1, r.2)) := by
      intro x y hxy
      refine hxy.bind ?_
      rintro ⟨f, t⟩ ⟨g, u⟩ ⟨hg, hrests⟩
      obtain rfl : g = f.withoutComments := hg
      exact .ok (.declared hrests)
    cases hk : Kind.ofKeyword? word with
    | none =>
      rw [hk] at hkind
      rcases h.exists_line with ⟨p, q, rfl, hp, hq⟩ | ⟨p, s, t, q, rfl, hp, hs⟩
      · obtain ⟨-, hdrop⟩ := hq.takeWhile hp
        obtain ⟨-, hdrop'⟩ := takeWhile_bare hp hq
        refine .ok ?_
        rw [hdrop, hdrop']
        exact .skipped _ _ h.append_right.rests
      · -- a line that ends inside of a literal is not closed
        have hraw : raw (p ++ .literal (s ++ '\n' :: t) :: q) =
            (raw p ++ s) ++ '\n' :: (t ++ raw q) := by
          simp [Lexeme.text]
        have hnone : '\n' ∉ raw p ++ s := by simp [hp, hs]
        obtain ⟨htake, -⟩ := takeWhile_line hnone (.inr ⟨t ++ raw q, rfl⟩)
        rw [KindApart, hraw, htake] at hkind
        cases hstrip : stripComments (raw p ++ s) with
        | error e =>
          rw [hstrip] at hkind
          cases hkind
        | ok u => exact absurd hstrip (h.not_stripComments u)
    | some kind =>
      rw [hk] at hkind
      cases kind with
      | union => exact hdeclared (h.readUnion_bare hkind)
      | scalar => exact hdeclared ((hls ▸ h).append_right.readScalar_bare hkind)
      | _ => exact hdeclared ((hls ▸ h).readBlock_bare hkind)

end Schemata
