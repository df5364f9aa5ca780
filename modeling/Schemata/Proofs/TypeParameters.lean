import Schemata.Proofs.HeaderLines

/-!
# Names and type parameters

A name is declared with type parameters between angle brackets, which commas tell apart.  White
space may stand around each of them: reducing it leaves the name as it is read.

## Main results

* `DeclaredName.read_cases`, `DeclaredName.read_parameters` — what is read as a name.
* `collapse_angled` — reducing white space keeps the type parameters.
-/

namespace Schemata

open List
open Text (takeName trimStart trim joinWith)

variable {base gap name out r rest t z : Text} {ps : List Text}

/-! ### Names -/

theorem startsWith_of_takeName (h : t.takeName = some (name, rest)) :
    rest.startsWith isNameChar = false := by
  cases t with
  | nil => cases h
  | cons c t =>
    rw [takeName] at h
    split_ifs at h
    cases h
    cases hd : t.dropWhile isNameChar with
    | nil => rfl
    | cons d u =>
      have hhead := head?_dropWhile_not isNameChar t
      rw [hd] at hhead
      simpa [startsWith_cons] using hhead

theorem isName_of_takeName (h : t.takeName = some (name, rest)) : name.isName := by
  cases t with
  | nil => cases h
  | cons c t =>
    rw [takeName] at h
    split_ifs at h with hc
    cases h
    exact isName_iff.mpr ⟨c, _, rfl, hc, fun d hd => mem_takeWhile_imp hd⟩

theorem eq_append_of_takeName (h : t.trimStart.takeName = some (name, rest)) :
    t = t.takeWhile isBlank ++ (name ++ rest) := by
  rw [← (Text.takeName_append h).1, trimStart_eq_dropWhile, takeWhile_append_dropWhile]

theorem takeName_trimStart (hgap : ∀ c ∈ gap, isBlank c) (hbase : base.isName)
    (hr : r.startsWith isNameChar = false) :
    takeName (trimStart (gap ++ (base ++ r))) = some (base, r) := by
  rw [trimStart_blank_append hgap, trimStart_name hbase]
  exact takeName_append_of_isName hbase hr

/-- A name that does not go on with the word before it stands after white space. -/
theorem gap_ne_nil (hbase : base.isName)
    (h : Text.startsWith isNameChar (gap ++ (base ++ r)) = false) : gap ≠ [] := by
  rintro rfl
  obtain ⟨c, cs, rfl, hc, -⟩ := isName_iff.mp hbase
  rw [nil_append, cons_append, startsWith_cons, isNameChar_of_isNameStart hc] at h
  cases h

theorem not_mem_of_isName (h : base.isName) : '<' ∉ base := fun hm =>
  absurd (isNameChar_of_isName h _ hm) (by decide)

theorem collapse_name (h : name.isName) (started spaced : Bool) (ls : List Lexeme) :
    Lexeme.collapse started spaced (name.map .char ++ ls) =
      (fun out => (if started && spaced then [' '] else []) ++ name ++ out) <$>
        Lexeme.collapse true false ls := by
  have hblank : ∀ c ∈ name, isBlank c = false := fun c hc =>
    not_isBlank_of_isNameChar (isNameChar_of_isName h c hc)
  obtain ⟨c, cs, rfl, -, -⟩ := isName_iff.mp h
  obtain ⟨hc, hcs⟩ := forall_mem_cons.mp hblank
  have hspaced : Spaced false ((c :: cs).map .char) := .char hc (.ofChars hcs)
  rw [hspaced.collapse (fun h => absurd h Bool.false_ne_true), raw_map_char]

theorem collapse_gap_name (hne : gap ≠ []) (hgap : ∀ c ∈ gap, isBlank c) (hbase : base.isName)
    (h : Lexeme.collapse true false (lex false (gap ++ (base ++ z))) = .ok out) :
    ∃ u : Text, out = ' ' :: (base ++ u) ∧ Lexeme.collapse true false (lex false z) = .ok u := by
  have hname : ∀ c ∈ base, c ≠ '"' ∧ c ≠ '#' := fun c hc =>
    ne_quote_hash rfl rfl (isNameChar_of_isName hbase c hc)
  obtain ⟨c, cs, rfl⟩ := exists_cons_of_ne_nil hne
  rw [lex_append_chars (ne_of_blank hgap), lex_append_chars hname, collapse_blank hgap,
    collapse_name hbase] at h
  obtain ⟨u, hu, rfl⟩ := map_eq_ok h
  exact ⟨u, rfl, hu⟩

theorem startsWith_stripComments {s : Text} (h : stripComments z = .ok s) {p : Char → Bool}
    (hp : p '\n' = false) (hz : z.startsWith p = false) : s.startsWith p = false := by
  obtain ⟨hlexed, rfl⟩ := stripComments_eq_ok_iff.mp h
  rw [← raw_lex true z] at hz
  generalize lex true z = ls at hlexed hz
  cases hlexed with
  | nil => rfl
  | char quote hash rest => exact hz
  | literal taken rest => exact hz
  | comment line ends rest =>
    rcases ends with rfl | ⟨ms, rfl⟩
    · rfl
    · exact hp

theorem collapse_spaced {ls : List Lexeme} (h : Lexeme.collapse true true ls = .ok out) :
    out = [] ∨ ∃ u, out = ' ' :: u := by
  induction ls with
  | nil =>
    cases h
    exact .inl rfl
  | cons l ls ih =>
    cases l with
    | char c =>
      rw [Lexeme.collapse] at h
      by_cases hc : isBlank c
      · rw [if_pos hc] at h
        exact ih h
      · rw [if_neg hc] at h
        obtain ⟨u, -, rfl⟩ := map_eq_ok h
        exact .inr ⟨c :: u, rfl⟩
    | literal t =>
      obtain ⟨u, -, rfl⟩ := map_eq_ok h
      exact .inr ⟨t ++ u, rfl⟩
    | comment t =>
      obtain ⟨u, -, rfl⟩ := map_eq_ok h
      exact .inr ⟨t ++ u, rfl⟩
    | unclosed t => cases h

theorem startsWith_collapse (h : Lexeme.collapse true false (lex false z) = .ok out)
    {p : Char → Bool} (hp : p ' ' = false) (hz : z.startsWith p = false) :
    out.startsWith p = false := by
  cases z with
  | nil =>
    rw [lex_nil] at h
    cases h
    rfl
  | cons c z =>
    by_cases hquote : c = '"'
    · subst hquote
      rcases lex_quote_cases false z with ⟨literal, rest, hl, hlex⟩ | hlex
      · rw [hlex] at h
        obtain ⟨u, -, rfl⟩ := map_eq_ok h
        obtain ⟨body, rfl⟩ := takeLiteral_eq_cons hl
        exact hz
      · rw [hlex] at h
        cases h
    · rw [lex_cons_of_ne_quote hquote, Lexeme.collapse] at h
      by_cases hc : isBlank c
      · rw [if_pos hc] at h
        rcases collapse_spaced h with rfl | ⟨u, rfl⟩
        · rfl
        · exact hp
      · rw [if_neg hc] at h
        obtain ⟨u, -, rfl⟩ := map_eq_ok h
        exact hz

/-! ### Between commas -/

/-- The characters of names and of white space. -/
def isNamePart (c : Char) : Bool :=
  isNameChar c || isBlank c

theorem isNamePart_iff {c : Char} : isNamePart c ↔ isNameChar c ∨ isBlank c := by
  rw [isNamePart, Bool.or_eq_true]

theorem exists_eq_append_trim (t : Text) : ∃ s u : Text, t = s ++ (t.trim ++ u) ∧
    (∀ c ∈ s, isBlank c) ∧ ∀ c ∈ u, isBlank c := by
  have hend : t.trimStart = t.trim ++ (t.trimStart.reverse.takeWhile isBlank).reverse := by
    rw [trim, Text.trimEnd, Text.dropEndWhile, ← reverse_append, takeWhile_append_dropWhile,
      reverse_reverse]
  refine ⟨t.takeWhile isBlank, (t.trimStart.reverse.takeWhile isBlank).reverse, ?_,
    fun c hc => mem_takeWhile_imp hc, fun c hc => mem_takeWhile_imp (mem_reverse.mp hc)⟩
  rw [← hend, trimStart_eq_dropWhile, takeWhile_append_dropWhile]

theorem isNamePart_of_trim {p : Text} (h : p.trim = [] ∨ p.trim.isName) :
    ∀ c ∈ p, isNamePart c := by
  intro c hc
  obtain ⟨s, u, hsu, hs, hu⟩ := exists_eq_append_trim p
  rw [hsu, mem_append, mem_append] at hc
  rcases hc with hc | hc | hc
  · exact isNamePart_iff.mpr (.inr (hs c hc))
  · rcases h with h | h
    · rw [h] at hc
      cases hc
    · exact isNamePart_iff.mpr (.inl (isNameChar_of_isName h c hc))
  · exact isNamePart_iff.mpr (.inr (hu c hc))

theorem nested_nameParts {top : Char → Bool} (h : ∀ c ∈ t, isNamePart c ∨ c = ',')
    (htop : ∀ c ∈ t, top c) : Nested top [] (t.map .char) := by
  refine .ofChars fun c hc => ?_
  have hne : ∀ d, isNamePart d = false → d ≠ ',' → c ≠ d := by
    rintro d hd hcomma rfl
    rcases h c hc with hpart | rfl
    · rw [hd] at hpart
      cases hpart
    · exact hcomma rfl
  refine ⟨?_, ?_, hne '#' rfl (by decide), htop c hc⟩
  · rw [Bool.eq_false_iff]
    intro ho
    rcases isOpener_iff.mp ho with rfl | rfl | rfl | rfl <;> exact hne _ rfl (by decide) rfl
  · rw [Bool.eq_false_iff]
    intro ho
    rcases isCloser_iff.mp ho with rfl | rfl | rfl | rfl <;> exact hne _ rfl (by decide) rfl

theorem mem_joinWith_comma (h : ∀ p ∈ ps, ∀ c ∈ p, isNamePart c) :
    ∀ c ∈ joinWith [','] ps, isNamePart c ∨ c = ',' := by
  induction ps with
  | nil => exact forall_mem_nil _
  | cons p ps ih =>
    obtain ⟨hp, hps⟩ := forall_mem_cons.mp h
    cases ps with
    | nil => exact fun c hc => .inl (hp c hc)
    | cons q ps =>
      intro c hc
      rw [joinWith_cons_cons, append_assoc, mem_append, singleton_append, mem_cons] at hc
      rcases hc with hc | rfl | hc
      · exact .inl (hp c hc)
      · exact .inr rfl
      · exact ih hps c hc

theorem lex_nameParts (h : ∀ c ∈ t, isNamePart c ∨ c = ',') (comments : Bool) (u : Text) :
    lex comments (t ++ u) = t.map .char ++ lex comments u := by
  refine lex_append_chars (fun c hc => ?_) comments u
  rcases h c hc with hpart | rfl
  · exact ⟨ne_of_class hpart rfl, ne_of_class hpart rfl⟩
  · decide

theorem splitAt_nameParts (hne : ps ≠ []) (h : ∀ p ∈ ps, ∀ c ∈ p, isNamePart c) :
    splitAt (· == ',') (joinWith [','] ps) = .ok (ps.map trim) := by
  have htop : ∀ c, isNamePart c → (c == ',') = false := fun _ hc => beq_of_class hc rfl
  have hpieces : Lexeme.splitAt (· == ',') 0 (lex false (joinWith [','] ps)) = .ok ps := by
    induction ps with
    | nil => exact absurd rfl hne
    | cons p ps ih =>
      obtain ⟨hp, hps⟩ := forall_mem_cons.mp h
      have hpass := (nested_nameParts (fun c hc => .inl (hp c hc)) hp).splitAt htop
      simp only [raw_map_char, length_nil] at hpass
      cases ps with
      | nil =>
        have hlex := lex_nameParts (fun c hc => .inl (hp c hc)) false []
        rw [append_nil, lex_nil] at hlex
        rw [joinWith_singleton, hlex, hpass]
        simp [Lexeme.splitAt, Functor.map, Except.map, prependHead]
      | cons q ps =>
        rw [joinWith_cons_cons, append_assoc, lex_nameParts (fun c hc => .inl (hp c hc)),
          singleton_append, lex_cons_of_ne_quote (by decide), hpass, Lexeme.splitAt,
          if_pos (by decide), ih (cons_ne_nil q ps) hps]
        simp [Functor.map, Except.map, prependHead]
  rw [splitAt, hpieces]
  rfl

/-! ### Reading names -/

/-- The type parameters that stand between commas. -/
def parameterNames (ps : List Text) : List Text :=
  (ps.map Text.trim).filter (!·.isEmpty)

theorem trim_of_parameterNames (h : ∀ p ∈ parameterNames ps, p.isName) :
    ∀ p ∈ ps, p.trim = [] ∨ p.trim.isName := by
  intro p hp
  by_cases hnil : p.trim = []
  · exact .inl hnil
  · exact .inr (h _ (mem_filter.mpr ⟨mem_map_of_mem hp, by simpa using hnil⟩))

/-- A name with type parameters, in canonical spacing. -/
def withParameters (base : Text) (ps : List Text) : Text :=
  base ++ "<".toList ++ Text.joinWith ", ".toList (parameterNames ps) ++ ">".toList

/-- **A name with type parameters is read**, whatever white space there is. -/
theorem DeclaredName.read_parameters {g : Text} (hgap : ∀ c ∈ gap, isBlank c) (hbase : base.isName)
    (hg : ∀ c ∈ g, isBlank c) (hne : ps ≠ []) (h : ∀ p ∈ ps, ∀ c ∈ p, isNamePart c) :
    DeclaredName.read (gap ++ (base ++ (g ++ '<' :: (joinWith [','] ps ++ '>' :: rest)))) =
      .ok (some ⟨withParameters base ps,
        if (parameterNames ps).isEmpty then none else some (parameterNames ps), rest⟩) := by
  have hbalanced : takeBalanced '<' '>' ('<' :: (joinWith [','] ps ++ '>' :: rest)) =
      .ok (some ('<' :: (joinWith [','] ps ++ ['>']), rest)) := by
    have hparts := mem_joinWith_comma h
    have hlex := lex_nameParts hparts false []
    rw [append_nil, lex_nil, append_nil] at hlex
    have hnested := @nested_nameParts _ (fun _ => true) hparts fun _ _ => rfl
    rw [← hlex] at hnested
    exact @takeBalanced_bracketed (fun _ => true) '<' rfl _ hnested rest
  have hstop : Text.startsWith isNameChar (g ++ '<' :: (joinWith [','] ps ++ '>' :: rest)) =
      false := by
    cases g with
    | nil => rfl
    | cons c g =>
      have hblank := hg c mem_cons_self
      rw [cons_append, startsWith_cons, Bool.eq_false_iff]
      intro hc
      rw [not_isBlank_of_isNameChar hc] at hblank
      cases hblank
  have hangle : trimStart (g ++ '<' :: (joinWith [','] ps ++ '>' :: rest)) =
      '<' :: (joinWith [','] ps ++ '>' :: rest) := trimStart_blank_append hg _
  have hinside : ('<' :: (joinWith [','] ps ++ ['>'])).tail.dropLast = joinWith [','] ps := by
    rw [tail_cons, dropLast_concat]
  unfold DeclaredName.read
  simp only [takeName_trimStart hgap hbase hstop, hangle, startsWith_cons, beq_self_eq_true,
    if_true, hbalanced, bind, Except.bind, hinside, splitAt_nameParts hne h]
  rfl

/-- What is read as a name: white space and a name, and type parameters between commas and
brackets. -/
theorem DeclaredName.read_cases {n : DeclaredName} (h : DeclaredName.read t = .ok (some n)) :
    ∃ gap base r, t = gap ++ (base ++ r) ∧ (∀ c ∈ gap, isBlank c) ∧ base.isName ∧
      r.startsWith isNameChar = false ∧
      (n.name = base ∨ ∃ g ps rest, r = g ++ '<' :: (joinWith [','] ps ++ '>' :: rest) ∧
        (∀ c ∈ g, isBlank c) ∧ ps ≠ [] ∧ n.name = withParameters base ps ∧
        n.parameters = if (parameterNames ps).isEmpty then none else some (parameterNames ps)) := by
  unfold DeclaredName.read at h
  dsimp only at h
  split at h
  · cases h
  · rename_i base r hname
    refine ⟨_, base, r, eq_append_of_takeName hname, fun c hc => mem_takeWhile_imp hc,
      isName_of_takeName hname, startsWith_of_takeName hname, ?_⟩
    split at h
    · rename_i hangle
      obtain ⟨o, hb, h⟩ := bind_eq_ok.mp h
      cases o with
      | none => cases h
      | some b =>
        obtain ⟨inside, rest⟩ := b
        obtain ⟨pieces, hpieces, h⟩ := bind_eq_ok.mp h
        cases h
        obtain ⟨ps, hps, rfl⟩ := map_eq_ok hpieces
        obtain ⟨happend, -⟩ := takeBalanced_append hb
        obtain ⟨before, rfl⟩ := takeBalanced_eq_append hb
        refine .inr ⟨r.takeWhile isBlank, ps, rest, ?_, fun c hc => mem_takeWhile_imp hc,
          Lexeme.splitAt_ne_nil hps, rfl, rfl⟩
        -- what stands in brackets starts with one and ends with the other
        cases before with
        | nil =>
          rw [happend] at hangle
          cases hangle
        | cons c before =>
          rw [happend, cons_append, cons_append, startsWith_cons, beq_iff_eq] at hangle
          subst hangle
          rw [cons_append, tail_cons, dropLast_concat] at hps
          rw [joinWith_splitAt hps, raw_lex]
          have hr := (takeWhile_append_dropWhile (l := r) (p := isBlank)).symm
          rw [← trimStart_eq_dropWhile, happend] at hr
          simpa using hr
    · cases h
      exact .inl rfl

theorem DeclaredName.name_cases {n : DeclaredName} (hgap : ∀ c ∈ gap, isBlank c)
    (hbase : base.isName) (hr : r.startsWith isNameChar = false)
    (h : DeclaredName.read (gap ++ (base ++ r)) = .ok (some n)) :
    n.name = base ∨ '<' ∈ n.name ∧ r.trimStart.startsWith (· == '<') := by
  obtain ⟨gap', base', r', ht, hgap', hbase', hr', hname⟩ := DeclaredName.read_cases h
  have htake := takeName_trimStart hgap hbase hr
  rw [ht, takeName_trimStart hgap' hbase' hr', Option.some.injEq, Prod.mk.injEq] at htake
  obtain ⟨rfl, rfl⟩ := htake
  rcases hname with hname | ⟨g, ps, rest, rfl, hg, -, hname, -⟩
  · exact .inl hname
  · refine .inr ⟨by simp [hname, withParameters], ?_⟩
    rw [trimStart_blank_append hg]
    rfl

/-! ### Reducing white space -/

theorem exists_collapse_piece {p : Text} (hp : p.trim = [] ∨ p.trim.isName) (spaced : Bool) :
    ∃ q : Text, q.trim = p.trim ∧ (∀ c ∈ q, isNamePart c) ∧
      ∀ {d : Char}, isBlank d = false → ∀ ls : List Lexeme,
        Lexeme.collapse true spaced (p.map .char ++ .char d :: ls) =
          (fun out => q ++ d :: out) <$> Lexeme.collapse true false ls := by
  have hchar : ∀ {d : Char} (s : Bool), isBlank d = false → ∀ ls : List Lexeme,
      Lexeme.collapse true s (.char d :: ls) =
        (fun out => (if s then [' '] else []) ++ d :: out) <$> Lexeme.collapse true false ls := by
    intro d s hd ls
    rw [Lexeme.collapse, if_neg (by simp [hd])]
    cases s <;> rfl
  have hspaces : ∀ s : Bool, ∀ c ∈ (if s then [' '] else [] : Text), isBlank c := by
    intro s c hc
    cases s with
    | false => cases hc
    | true => rw [mem_singleton.mp hc]; rfl
  rcases hp with hp | hp
  · refine ⟨if spaced || !p.isEmpty then [' '] else [], ?_, ?_, ?_⟩
    · rw [hp]
      exact trim_eq_nil_iff.mpr (hspaces _)
    · exact fun c hc => isNamePart_iff.mpr (.inr (hspaces _ c hc))
    · intro d hd ls
      rw [collapse_blank (trim_eq_nil_iff.mp hp), hchar _ hd]
  · obtain ⟨s, u, hsu, hs, hu⟩ := exists_eq_append_trim p
    have hblank : ∀ c ∈ p.trim, isBlank c = false := fun c hc =>
      not_isBlank_of_isNameChar (isNameChar_of_isName hp c hc)
    refine ⟨(if spaced || !s.isEmpty then [' '] else []) ++
      (p.trim ++ if !u.isEmpty then [' '] else []), ?_, ?_, ?_⟩
    · rw [trim_between (hspaces _) (hspaces _), trim_trim]
    · intro c hc
      rw [mem_append, mem_append] at hc
      rcases hc with hc | hc | hc
      · exact isNamePart_iff.mpr (.inr (hspaces _ c hc))
      · exact isNamePart_iff.mpr (.inl (isNameChar_of_isName hp c hc))
      · exact isNamePart_iff.mpr (.inr (hspaces _ c hc))
    · intro d hd ls
      conv_lhs => rw [hsu]
      rw [map_append, map_append, append_assoc, append_assoc, collapse_blank hs,
        collapse_name hp, collapse_blank hu, hchar _ hd, Functor.map_map]
      simp

theorem exists_collapse_parameters (hne : ps ≠ []) (h : ∀ p ∈ ps, p.trim = [] ∨ p.trim.isName)
    (spaced : Bool) : ∃ qs : List Text, qs ≠ [] ∧ qs.map trim = ps.map trim ∧
      (∀ q ∈ qs, ∀ c ∈ q, isNamePart c) ∧ ∀ ls : List Lexeme,
        Lexeme.collapse true spaced ((joinWith [','] ps).map .char ++ .char '>' :: ls) =
          (fun out => joinWith [','] qs ++ '>' :: out) <$> Lexeme.collapse true false ls := by
  induction ps generalizing spaced with
  | nil => exact absurd rfl hne
  | cons p ps ih =>
    obtain ⟨hp, hps⟩ := forall_mem_cons.mp h
    obtain ⟨q, hq, hparts, hcollapse⟩ := exists_collapse_piece hp spaced
    cases ps with
    | nil =>
      refine ⟨[q], cons_ne_nil _ _, by rw [map_singleton, map_singleton, hq], ?_, ?_⟩
      · exact forall_mem_singleton.mpr hparts
      · exact hcollapse rfl
    | cons p' ps =>
      obtain ⟨qs, hqs, htrim, hmore, hrest⟩ := ih (cons_ne_nil _ _) hps false
      obtain ⟨q', qs, rfl⟩ := exists_cons_of_ne_nil hqs
      refine ⟨q :: q' :: qs, cons_ne_nil _ _, congrArg₂ List.cons hq htrim,
        forall_mem_cons.mpr ⟨hparts, hmore⟩, ?_⟩
      intro ls
      rw [joinWith_cons_cons, append_assoc, singleton_append, map_append, map_cons,
        append_assoc, cons_append, hcollapse rfl, hrest, Functor.map_map]
      simp

theorem collapse_angled {g u : Text} (hg : ∀ c ∈ g, isBlank c) (hne : ps ≠ [])
    (h : ∀ p ∈ ps, p.trim = [] ∨ p.trim.isName)
    (hu : Lexeme.collapse true false (lex false (g ++ '<' :: (joinWith [','] ps ++ '>' :: z))) =
      .ok u) :
    ∃ (g' : Text) (qs : List Text) (v : Text), u = g' ++ '<' :: (joinWith [','] qs ++ '>' :: v) ∧
      (∀ c ∈ g', isBlank c) ∧ qs ≠ [] ∧ qs.map trim = ps.map trim ∧
      ∀ q ∈ qs, ∀ c ∈ q, isNamePart c := by
  obtain ⟨qs, hqs, htrim, hparts, hcollapse⟩ := exists_collapse_parameters hne h false
  have hinside := mem_joinWith_comma fun p hp => isNamePart_of_trim (h p hp)
  rw [lex_append_chars (ne_of_blank hg), lex_cons_of_ne_quote (by decide), lex_nameParts hinside,
    lex_cons_of_ne_quote (by decide), collapse_blank hg, Lexeme.collapse, if_neg (by decide),
    hcollapse, Functor.map_map] at hu
  obtain ⟨v, -, rfl⟩ := map_eq_ok hu
  cases g with
  | nil => exact ⟨[], qs, v, rfl, forall_mem_nil _, hqs, htrim, hparts⟩
  | cons c g => exact ⟨[' '], qs, v, rfl, forall_mem_of_all rfl, hqs, htrim, hparts⟩

end Schemata
