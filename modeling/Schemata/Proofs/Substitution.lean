import Schemata.Proofs.Generics

/-!
# Substituting type arguments

A use in a template that mentions no type parameter is kept as it is in an instance; any other is
written anew, with type arguments in the place of type parameters, and read.  Both come to the same:
the use in an instance is the one that the substituted expression has outside of any template, and
it has the directives of the use in the template.

What stands in the way are directives, since one written in the expression would replace those of
the use.  A type expression whose core has an alias is written with a few characters only, none of
them an at sign, and has as many closing angle brackets as opening ones.  So have the type
arguments.  An at sign could stand only between the brackets of a type expression in a template; if
the substituted expression were cut there, the part before it would have a bracket too many.

## Main definitions

* `replaceNames` — a text with its names replaced.
-/

namespace Schemata

open Resolve List

variable {d : Decorated} {naming : Naming} {parameters : List Text} {c : Char}
    {e expression n rest s t : Text}

/-! ### The characters of a type expression -/

/-- The characters that type expressions are written with. -/
def isExpressionChar (c : Char) : Bool :=
  isNameChar c || isOpening c || isClosing c || c == '<' || c == '>' || c == ','

theorem isExpressionChar_of_isNameChar (h : isNameChar c) : isExpressionChar c := by
  simp [isExpressionChar, h]

theorem isExpressionChar_of_isBlank (h : isBlank c) : isExpressionChar c := by
  simp [isExpressionChar, isOpening, h]

theorem Application.isExpressionChar_of_mem_base (h : Decorated.ofText expression = .ok d)
    (hg : isGenericCore d.core) {a : Application} (ha : Application.ofText d.core = .ok a) :
    ∀ c ∈ a.base, isExpressionChar c := by
  obtain ⟨-, name, inner, -, -, -, hname, hcore, -⟩ := Decorated.ofText_generic h hg
  obtain ⟨_, _, -, hbase, -⟩ := (Application.ofText_generic hg).mp ha
  have hne : ∀ c ∈ name, (c != '<') := by
    intro c hc
    rw [bne_iff_ne]
    rintro rfl
    exact not_mem_of_isAngleOrQuote hname rfl hc
  have htake : d.core.takeWhile (· != '<') = name := by
    rw [hcore, takeWhile_append_of_pos hne]
    simp
  intro c hc
  rw [hbase, htake] at hc
  rcases hname c ((Text.trim_sublist _).subset hc) with hc | hc
  · exact isExpressionChar_of_isNameChar hc
  · exact isExpressionChar_of_isBlank hc

/-- **A type expression with an alias** has no characters but those of types. -/
theorem isExpressionChar_of_argumentAlias {x : Text} (h : argumentAlias naming x = .ok n) :
    ∀ c ∈ x, isExpressionChar c := by
  induction hk : angles x using Nat.strongRecOn generalizing x n with
  | _ k ih =>
    subst hk
    -- it is enough that nothing is left when the characters of types are taken out
    have hb : ∀ c, isBlank c → (!isExpressionChar c) = false := by
      intro c hc
      rw [isExpressionChar_of_isBlank hc]
      rfl
    suffices hnil : x.filter (!isExpressionChar ·) = [] by
      intro c hc
      have := filter_eq_nil_iff.mp hnil c hc
      simpa using this
    obtain ⟨d, hd, hcases⟩ := argumentAlias_eq_ok.mp h
    rw [Decorated.filter_core hd hb (by decide)]
    rcases hcases with ⟨hg, -⟩ | ⟨hg, halias⟩
    · refine filter_eq_nil_iff.mpr ?_
      intro c hc
      simp [isExpressionChar_of_isNameChar (Decorated.isNameChar_of_mem_core hd hg c hc)]
    · -- in the canonical form there are the base name and the type arguments, which have aliases
      obtain ⟨normal, hn, hcanon, a, names, formed, ha, -, hargs, -, -⟩ :=
        canonical_of_aliasOf halias
      obtain ⟨a₀, ha₀, rfl⟩ := map_eq_ok hn
      have heq := Application.ofText_text hg ha₀ hcanon.2
      obtain rfl := ok_unique heq ha
      rw [← Decorated.filter_normalize hd hg hn hcanon.2 hb (by decide),
        Application.filter_text hb (by decide), append_eq_nil_iff]
      refine ⟨filter_eq_nil_iff.mpr ?_, filter_eq_nil_iff.mpr ?_⟩
      · intro c hc
        simp [Application.isExpressionChar_of_mem_base hd hg ha₀ c hc]
      · intro c hc
        obtain ⟨y, hy, hc⟩ := mem_flatten.mp hc
        have hy' : Text.squeeze y ∈ a₀.arguments.map Text.squeeze := mem_map_of_mem hy
        obtain ⟨m, -, hm⟩ := exists_right_of_forall₂ hargs hy'
        have hlt : angles (Text.squeeze y) < angles x := by
          have h1 := Application.angles_argument_lt ha hy'
          have h2 := angles_normalize_le hn
          have h3 := Decorated.angles_core_le hd
          omega
        by_cases hblank : isBlank c
        · simp [isExpressionChar_of_isBlank hblank]
        · have hsqueeze : c ∈ Text.squeeze y := by
            rw [Text.squeeze, mem_filter]
            exact ⟨hc, by simpa using hblank⟩
          simp [ih _ hlt hm rfl c hsqueeze]

theorem canonical_of_normalize {core k : Text} (hk : normalize core = .ok k)
    (hn : aliasOf naming k = .ok n) : Canonical k := by
  cases hg : isGenericCore core with
  | false =>
    refine normalize_canonical hk ?_
    rw [normalize_of_not_generic hg] at hk
    cases hk
    rw [angled_of_not_generic (by rw [isGenericCore_trim, hg])]
    exact not_mem_nil
  | true =>
    obtain ⟨a, ha, rfl⟩ := map_eq_ok hk
    obtain ⟨normal, hn', hcanon, b', names, formed, hb', -, harguments, -, -⟩ :=
      canonical_of_aliasOf hn
    obtain ⟨b, hb, rfl⟩ := map_eq_ok hn'
    have hgk : isGenericCore a.text :=
      Application.isGenericCore_text (Application.arguments_ne_nil hg ha)
    obtain rfl := ok_unique (Application.ofText_text hgk hb hcanon.2) hb'
    refine normalize_canonical hk (Application.not_quote_angled_text hg ha hb ?_)
    intro x hx hquote
    -- a quote in a type argument would be left when the argument is squeezed
    obtain ⟨m, -, hm⟩ := exists_right_of_forall₂ harguments (mem_map_of_mem hx)
    exact absurd (isExpressionChar_of_argumentAlias hm _ ((mem_squeeze_iff rfl).mpr hquote))
      (by decide)

/-! ### Angle brackets -/

theorem count_of_closes {depth : Int} (h : closes depth t) : depth + t.count '<' = t.count '>' := by
  induction t generalizing depth with
  | nil => cases h
  | cons c cs ih =>
    rw [closes] at h
    -- a quote, a bracket that opens, the last one that closes, another that closes, or none of
    -- these
    split_ifs at h with hq hlt hgt hd
    · obtain rfl := beq_iff_eq.mp hlt
      have := ih h
      simp
      omega
    · obtain rfl := beq_iff_eq.mp hgt
      rw [List.isEmpty_iff] at h
      subst h
      simpa using hd
    · obtain rfl := beq_iff_eq.mp hgt
      have := ih h
      simp
      omega
    · have := ih h
      simp only [beq_iff_eq] at hlt hgt
      rwa [count_cons_of_ne hlt, count_cons_of_ne hgt]

theorem count_eq_of_filter_eq {p : Char → Bool} (h : s.filter p = t.filter p) (hc : p c) :
    s.count c = t.count c := by
  rw [← count_filter hc, h, count_filter hc]

theorem count_append_of_not_mem (hs : c ∉ s) (t : Text) : (s ++ t).count c = t.count c := by
  rw [count_append, count_eq_zero_of_not_mem hs, Nat.zero_add]

/-- **A type expression with an alias** has as many closing angle brackets as opening ones. -/
theorem count_of_argumentAlias {x : Text} (h : argumentAlias naming x = .ok n) :
    x.count '<' = x.count '>' := by
  obtain ⟨d, hd, hcases⟩ := argumentAlias_eq_ok.mp h
  have hfilter := Decorated.filter_core hd (p := isAngleOrQuote)
    (fun _ => isAngleOrQuote_of_isBlank) (by decide)
  rw [count_eq_of_filter_eq hfilter rfl, count_eq_of_filter_eq hfilter rfl]
  rcases hcases with ⟨hg, -⟩ | ⟨hg, halias⟩
  · rw [count_eq_zero_of_not_mem (Decorated.not_mem_core hd hg rfl),
      count_eq_zero_of_not_mem (Decorated.not_mem_core hd hg rfl)]
  · obtain ⟨normal, hn, hcanon, -⟩ := canonical_of_aliasOf halias
    have hquote := Decorated.not_quote_core hd hg (closesEarly_of_canonical hg hn hcanon.2)
    obtain ⟨-, name, inner, -, -, -, hname, hcore, hangled, -⟩ := Decorated.ofText_generic hd hg
    have hcloses : closes 0 (angled d.core) := by
      rw [(takeBalanced_closes (Decorated.takeBalanced_core hd hg hquote)).1, decide_eq_true_eq]
      exact fun hmem => hquote ((dropWhile_sublist _).subset hmem)
    have hcount := count_of_closes hcloses
    -- before the first bracket there is none
    have hcount_core : ∀ c, isAngleOrQuote c → d.core.count c = (angled d.core).count c := by
      intro c hc
      rw [hangled]
      conv_lhs => rw [hcore, count_append_of_not_mem (not_mem_of_isAngleOrQuote hname hc)]
    rw [hcount_core '<' rfl, hcount_core '>' rfl]
    omega

theorem one_le_of_takeBalanced {depth : Int} (hd : 1 ≤ depth) {p inside : Text} (hq : '"' ∉ p)
    (hne : inside ≠ []) (h : Lexeme.takeBalanced '<' '>' depth (lex false (p ++ t)) =
      .ok (some (p ++ inside, rest))) :
    1 + (p.count '>' : Int) ≤ depth + p.count '<' := by
  induction p generalizing depth with
  | nil => simpa using hd
  | cons c p ih =>
    rw [mem_cons, not_or] at hq
    rw [cons_append, lex_cons_of_ne_quote (Ne.symm hq.1), Lexeme.takeBalanced] at h
    split_ifs at h with hlt hgt hone
    · obtain rfl := beq_iff_eq.mp hlt
      obtain ⟨b, ho, hb⟩ := prepend_eq_ok h
      obtain rfl : p ++ inside = b := by simpa using hb
      have := ih (by omega) hq.2 ho
      simp
      omega
    · -- the bracket that closes the text would be its last character
      simp only [Except.ok.injEq, Option.some.injEq, Prod.mk.injEq, List.cons.injEq,
        cons_append] at h
      exact absurd (append_eq_nil_iff.mp h.1.2.symm).2 hne
    · obtain rfl := beq_iff_eq.mp hgt
      have hone' : depth ≠ 1 := by simpa using hone
      obtain ⟨b, ho, hb⟩ := prepend_eq_ok h
      obtain rfl : p ++ inside = b := by simpa using hb
      have := ih (by omega) hq.2 ho
      simp
      omega
    · simp only [beq_iff_eq] at hlt hgt
      obtain ⟨b, ho, hb⟩ := prepend_eq_ok h
      obtain rfl : p ++ inside = b := by simpa using hb
      rw [count_cons_of_ne hlt, count_cons_of_ne hgt]
      exact ih hd hq.2 ho

theorem count_le_of_takeBalanced {p inside : Text} (hq : '"' ∉ p) (hne : inside ≠ [])
    (h : takeBalanced '<' '>' ('<' :: (p ++ t)) = .ok (some ('<' :: (p ++ inside), rest))) :
    p.count '>' ≤ p.count '<' := by
  rw [takeBalanced, lex_cons_of_ne_quote (by decide), Lexeme.takeBalanced, if_pos (by decide)] at h
  obtain ⟨b, ho, hb⟩ := prepend_eq_ok h
  obtain rfl : p ++ inside = b := by simpa using hb
  have := one_le_of_takeBalanced (Int.le_refl 1) hq hne ho
  omega

/-! ### Directives -/

theorem Lexeme.cutAt_map_char {target : Char → Bool} (h : ∀ c ∈ t, target c = false) (depth : Nat) :
    Lexeme.cutAt target depth (t.map .char) = .ok none := by
  induction t generalizing depth with
  | nil => rfl
  | cons c t ih =>
    rw [map_cons, Lexeme.cutAt, h c mem_cons_self, Bool.and_false, if_neg Bool.false_ne_true,
      ih fun d hd => h d (mem_cons_of_mem _ hd)]
    rfl

theorem Lexeme.cutAt_eq_cons {target : Char → Bool} {depth : Nat} {ls : List Lexeme} {before : Text}
    (h : Lexeme.cutAt target depth ls = .ok (some (before, rest))) :
    ∃ c t, rest = c :: t ∧ target c := by
  fun_induction Lexeme.cutAt target depth ls generalizing before with
  | case1 => cases h
  | case2 => cases h
  | case3 depth c ls hc =>
    cases h
    rw [Bool.and_eq_true] at hc
    exact ⟨c, raw ls, rfl, hc.2⟩
  | case4 depth c ls hc ih =>
    obtain ⟨b, ho, -⟩ := prepend_eq_ok h
    exact ih ho
  | case5 depth t ls ih | case6 depth t ls ih =>
    obtain ⟨b, ho, -⟩ := prepend_eq_ok h
    exact ih ho

theorem cutDirectives_of_isExpressionChar (h : ∀ c ∈ t, isExpressionChar c) :
    cutDirectives t = .ok (t, none) := by
  have hnot : ∀ c, isExpressionChar c = false → c ∉ t := by
    intro c hc hmem
    rw [h c hmem] at hc
    cases hc
  have hcut : cutAt (· == '@') t = .ok none := by
    rw [cutAt, lex_of_not_quote (hnot _ (by decide))]
    refine Lexeme.cutAt_map_char ?_ 0
    intro c hc
    rw [beq_eq_false_iff_ne]
    rintro rfl
    exact hnot _ (by decide) hc
  rw [cutDirectives, hcut]
  rfl

theorem eq_of_append_cons_eq {s' t' : Text} (hs : c ∉ s) (hs' : c ∉ s')
    (h : s ++ c :: t = s' ++ c :: t') : s = s' := by
  have htake : ∀ {s t : Text}, c ∉ s → (s ++ c :: t).takeWhile (· != c) = s := by
    intro s t hs
    have hne : ∀ d ∈ s, (d != c) := by
      intro d hd
      rw [bne_iff_ne]
      rintro rfl
      exact hs hd
    rw [takeWhile_append_of_pos hne]
    simp
  rw [← htake hs (t := t), h, htake hs']

theorem cutDirectives_cases {written : Option Text} (h : cutDirectives t = .ok (e, written)) :
    e = t ∧ written = none ∨ ∃ rest, t = e ++ '@' :: rest := by
  unfold cutDirectives at h
  obtain ⟨o, hcut, h⟩ := bind_eq_ok.mp h
  cases o with
  | none =>
    cases h
    exact .inl ⟨rfl, rfl⟩
  | some p =>
    obtain ⟨before, rest⟩ := p
    cases h
    obtain ⟨c, r, rfl, hc⟩ := Lexeme.cutAt_eq_cons hcut
    obtain rfl : c = '@' := beq_iff_eq.mp hc
    exact .inr ⟨r, (cutAt_append hcut).1⟩

/-! ### Replacing names -/

def replaceNames (f : Text → Text) (t : Text) : Text :=
  t.pieces.flatMap fun
    | .name n => f n
    | .other c => [c]

theorem substitute_eq_ok {arguments : List Text} :
    substitute t parameters arguments = .ok e ↔ parameters.length = arguments.length ∧
      replaceNames (replacement (parameters.zip arguments)) t = e := by
  unfold substitute
  split_ifs with h
  · rw [beq_iff_eq] at h
    rw [Except.ok.injEq]
    exact ⟨fun he => ⟨h, he⟩, fun he => he.2⟩
  · rw [beq_iff_eq] at h
    simp [h]

theorem flatMap_text_pieces (t : Text) : t.pieces.flatMap Text.Piece.text = t := by
  fun_induction Text.pieces t with
  | case1 => rfl
  | case2 c cs hc ih =>
    rw [flatMap_cons, ih, Text.Piece.text, cons_append, takeWhile_append_dropWhile]
  | case3 c cs hc ih => rw [flatMap_cons, ih, Text.Piece.text, singleton_append]

theorem mem_names : n ∈ t.names ↔ .name n ∈ t.pieces := by
  rw [Text.names, mem_filterMap]
  constructor
  · rintro ⟨p, hp, hn⟩
    cases p with
    | name m =>
      cases hn
      exact hp
    | other c => cases hn
  · intro h
    exact ⟨_, h, rfl⟩

theorem isName_of_mem_names (h : n ∈ t.names) : n.isName := by
  rw [mem_names] at h
  fun_induction Text.pieces t with
  | case1 => exact absurd h not_mem_nil
  | case2 c cs hc ih =>
    rcases mem_cons.mp h with heq | h
    · cases heq
      rw [Text.isName, hc, Bool.true_and, all_eq_true]
      exact fun d hd => mem_takeWhile_imp hd
    · exact ih h
  | case3 c cs hc ih =>
    rcases mem_cons.mp h with heq | h
    · cases heq
    · exact ih h

theorem isNameChar_of_mem_names (h : n ∈ t.names) : n ≠ [] ∧ ∀ c ∈ n, isNameChar c := by
  have hn := isName_of_mem_names h
  cases n with
  | nil => cases hn
  | cons c cs =>
    rw [Text.isName, Bool.and_eq_true, all_eq_true] at hn
    exact ⟨cons_ne_nil _ _, forall_mem_cons.mpr ⟨isNameChar_of_isNameStart hn.1, hn.2⟩⟩

theorem other_mem_pieces (hc : isNameChar c = false) : .other c ∈ t.pieces ↔ c ∈ t := by
  constructor
  · intro h
    rw [← flatMap_text_pieces t]
    exact mem_flatMap.mpr ⟨_, h, mem_singleton.mpr rfl⟩
  · intro h
    rw [← flatMap_text_pieces t, mem_flatMap] at h
    obtain ⟨p, hp, hcp⟩ := h
    cases p with
    | name n =>
      have := (isNameChar_of_mem_names (mem_names.mpr hp)).2 c hcp
      rw [hc] at this
      cases this
    | other d => rwa [mem_singleton.mp hcp]

section Replace

variable {f : Text → Text} {t : Text}

theorem replaceNames_eq_self (h : ∀ n ∈ t.names, f n = n) : replaceNames f t = t := by
  conv_rhs => rw [← flatMap_text_pieces t]
  refine flatMap_congr fun p hp => ?_
  cases p with
  | name n => exact h n (mem_names.mpr hp)
  | other c => rfl

/-- A character outside of names separates what is replaced before it and after it. -/
theorem replaceNames_append_cons (hc : isNameChar c = false) (s t : Text) :
    replaceNames f (s ++ c :: t) = replaceNames f s ++ c :: replaceNames f t := by
  rw [replaceNames, pieces_append_cons hc, flatMap_append]
  rfl

theorem mem_replaceNames (hc : isNameChar c = false) (h : c ∈ t) : c ∈ replaceNames f t :=
  mem_flatMap.mpr ⟨.other c, (other_mem_pieces hc).mpr h, mem_singleton.mpr rfl⟩

theorem not_mem_replaceNames (hc : isNameChar c = false) (ht : c ∉ t)
    (hf : ∀ n ∈ t.names, c ∉ f n) : c ∉ replaceNames f t := by
  intro h
  obtain ⟨p, hp, hcp⟩ := mem_flatMap.mp h
  cases p with
  | name n => exact hf n (mem_names.mpr hp) hcp
  | other d =>
    obtain rfl := mem_singleton.mp hcp
    exact ht ((other_mem_pieces hc).mp hp)

/-- What is replaced has as many characters of one kind more than of another as the text has, if no
replacement has more of one than of the other. -/
theorem count_replaceNames {a b : Char} (ha : isNameChar a = false) (hb : isNameChar b = false)
    (hf : ∀ n ∈ t.names, (f n).count a = (f n).count b) :
    (replaceNames f t).count a + t.count b = (replaceNames f t).count b + t.count a := by
  have hnone : ∀ c, isNameChar c = false → ∀ n ∈ t.names, n.count c = 0 := by
    intro c hc n hn
    refine count_eq_zero_of_not_mem fun hmem => ?_
    rw [(isNameChar_of_mem_names hn).2 c hmem] at hc
    cases hc
  -- piece by piece: a name has none of the characters, and its replacement as many of one as of the
  -- other
  have hpieces : ∀ ps : List Text.Piece, (∀ n, .name n ∈ ps → n ∈ t.names) →
      (ps.flatMap fun
        | .name n => f n
        | .other c => [c]).count a + (ps.flatMap Text.Piece.text).count b =
      (ps.flatMap fun
        | .name n => f n
        | .other c => [c]).count b + (ps.flatMap Text.Piece.text).count a := by
    intro ps hps
    induction ps with
    | nil => rfl
    | cons p ps ih =>
      have ih := ih fun n hn => hps n (mem_cons_of_mem _ hn)
      simp only [flatMap_cons, count_append]
      cases p with
      | name n =>
        have hn := hps n mem_cons_self
        have := hf n hn
        have := hnone a ha n hn
        have := hnone b hb n hn
        simp only [Text.Piece.text]
        omega
      | other c =>
        simp only [Text.Piece.text]
        omega
  have h := hpieces t.pieces fun n hn => mem_names.mpr hn
  rwa [flatMap_text_pieces] at h

end Replace

/-! ### Type arguments in the place of type parameters -/

theorem replacement_cases (parameters arguments : List Text) (n : Text) :
    replacement (parameters.zip arguments) n ∈ arguments ∨
      replacement (parameters.zip arguments) n = n := by
  unfold replacement
  cases h : Table.find? n (parameters.zip arguments).reverse with
  | none => exact .inr rfl
  | some x => exact .inl (of_mem_zip (mem_reverse.mp (Table.mem_of_find? h))).2

theorem replacement_of_not_mem (h : n ∉ parameters) (arguments : List Text) :
    replacement (parameters.zip arguments) n = n := by
  unfold replacement
  cases hfind : Table.find? n (parameters.zip arguments).reverse with
  | none => rfl
  | some x => exact absurd (of_mem_zip (mem_reverse.mp (Table.mem_of_find? hfind))).1 h

section Replacement

variable {naming : Naming} {arguments : List Text}
  (harguments : ∀ x ∈ arguments, ∃ n, argumentAlias naming x = .ok n) (parameters : List Text)
  {n : Text} (hn : ∀ c ∈ n, isNameChar c)
include harguments hn

theorem count_replacement : (replacement (parameters.zip arguments) n).count '<' =
    (replacement (parameters.zip arguments) n).count '>' := by
  rcases replacement_cases parameters arguments n with hx | hx
  · obtain ⟨m, hm⟩ := harguments _ hx
    exact count_of_argumentAlias hm
  · rw [hx, count_eq_zero_of_not_mem fun hmem => absurd (hn _ hmem) (by decide),
      count_eq_zero_of_not_mem fun hmem => absurd (hn _ hmem) (by decide)]

theorem not_mem_replacement : '@' ∉ replacement (parameters.zip arguments) n := by
  intro hmem
  rcases replacement_cases parameters arguments n with hx | hx
  · obtain ⟨m, hm⟩ := harguments _ hx
    exact absurd (isExpressionChar_of_argumentAlias hm _ hmem) (by decide)
  · rw [hx] at hmem
    exact absurd (hn _ hmem) (by decide)

end Replacement

theorem mentions_of_mem_names {letters : List Text} (hn : n ∈ t.names) (hmem : n ∈ letters) :
    mentions t letters := by
  obtain ⟨hne, hchars⟩ := isNameChar_of_mem_names hn
  have htrim : n.trim = n := by
    refine trim_eq_self fun c hc => Bool.eq_false_iff.mpr fun hblank => ?_
    exact absurd (hchars c hc) (by simp [isNameChar_of_isBlank hblank])
  have hproper : n ∈ properLetters letters :=
    mem_filter.mpr ⟨mem_map.mpr ⟨n, hmem, htrim⟩, by simpa using hne⟩
  exact any_eq_true.mpr ⟨n, hn, contains_iff_mem.mpr hproper⟩

theorem substitute_of_not_mentions {arguments : List Text}
    (hlength : parameters.length = arguments.length) (h : mentions t parameters = false) :
    substitute t parameters arguments = .ok t := by
  refine substitute_eq_ok.mpr ⟨hlength, replaceNames_eq_self fun n hn => ?_⟩
  refine replacement_of_not_mem (fun hmem => ?_) arguments
  rw [mentions_of_mem_names hn hmem] at h
  cases h

/-- A character that no type is written with stands between the brackets of a type expression. -/
theorem Decorated.exists_inner (h : Decorated.ofText expression = .ok d)
    (hc : isExpressionChar c = false) (hmem : c ∈ expression.trim) :
    ∃ opening name inner rest, expression.trim =
      opening ++ (name ++ ('<' :: inner ++ ['>'] ++ rest)) ∧
      (∀ x ∈ opening, isOpening x) ∧ (∀ x ∈ name, isNameChar x ∨ isBlank x) ∧
      c ∉ opening ∧ c ∉ name ∧ c ∈ inner ∧
      takeBalanced '<' '>' ('<' :: inner ++ ['>'] ++ rest) =
        .ok (some ('<' :: inner ++ ['>'], rest)) := by
  have hnot : ∀ {t : Text}, (∀ x ∈ t, isExpressionChar x) → c ∉ t := by
    intro t ht hmem
    rw [ht c hmem] at hc
    cases hc
  obtain ⟨opening, name, after, rest, ⟨htrim, -⟩, hopening, hname, hrest, -, hafter⟩ :=
    Decorated.ofText_cases h
  have hopening' : c ∉ opening := hnot fun x hx => by simp [isExpressionChar, hopening x hx]
  have hname' : c ∉ name := hnot fun x hx => isExpressionChar_of_isNameChar (hname x hx)
  have hrest' : c ∉ rest := hnot fun x hx => by
    by_cases hblank : isBlank x
    · exact isExpressionChar_of_isBlank hblank
    · have hx' : x ∈ rest.squeeze := by
        rw [Text.squeeze, mem_filter]
        exact ⟨hx, by simpa using hblank⟩
      simp [isExpressionChar, hrest x hx']
  rcases hafter with rfl | ⟨blanks, inner, rfl, hblanks, hbalanced⟩
  · rw [htrim] at hmem
    simp [hopening', hname', hrest'] at hmem
  · have hblanks' : c ∉ blanks := hnot fun x hx => isExpressionChar_of_isBlank (hblanks x hx)
    have hangle : c ≠ '<' ∧ c ≠ '>' := by
      constructor <;> rintro rfl <;> exact absurd hc (by decide)
    have hinner : c ∈ inner := by
      rw [htrim] at hmem
      simpa [hopening', hname', hrest', hblanks', hangle] using hmem
    refine ⟨opening, name ++ blanks, inner, rest, ?_, hopening, ?_, hopening', ?_, hinner,
      hbalanced⟩
    · rw [htrim]
      simp
    · intro x hx
      exact (mem_append.mp hx).imp (hname x) (hblanks x)
    · simp [hname', hblanks']

/-- The part of a type expression before a character that no type is written with has a bracket
open. -/
theorem Decorated.exists_open (h : Decorated.ofText expression = .ok d)
    (hc : isExpressionChar c = false) (hmem : c ∈ expression.trim) :
    ∃ p q, expression.trim = p ++ c :: q ∧ c ∉ p ∧ ('"' ∉ p → 1 + p.count '>' ≤ p.count '<') := by
  obtain ⟨opening, name, inner, rest, htrim, hopening, hname, hopening', hname', hinner,
      hbalanced⟩ :=
    Decorated.exists_inner h hc hmem
  obtain ⟨p, q, rfl, hp⟩ := eq_append_cons_of_mem hinner
  have hlt : c ≠ '<' := by
    rintro rfl
    exact absurd hc (by decide)
  refine ⟨opening ++ (name ++ '<' :: p), q ++ '>' :: rest, ?_, ?_, ?_⟩
  · rw [htrim]
    simp
  · simp [hopening', hname', hlt, hp]
  · intro hq
    simp only [mem_append, mem_cons, not_or] at hq
    -- all that is between the first bracket and the character is inside of the bracket
    have hinside : p.count '>' ≤ p.count '<' := by
      have hinner' : takeBalanced '<' '>' ('<' :: (p ++ (c :: q ++ '>' :: rest))) =
          .ok (some ('<' :: (p ++ (c :: q ++ ['>'])), rest)) := by
        simpa using hbalanced
      exact count_le_of_takeBalanced hq.2.2.2 (cons_ne_nil _ _) hinner'
    have hbefore : ∀ x, isAngleOrQuote x →
        (opening ++ (name ++ '<' :: p)).count x = ('<' :: p).count x := by
      intro x hx
      have hno : x ∉ opening := by
        intro hmem
        rw [not_isAngleOrQuote (p := isOpening) (by decide) (hopening x hmem)] at hx
        cases hx
      rw [count_append_of_not_mem hno, count_append_of_not_mem (not_mem_of_isAngleOrQuote hname hx)]
    rw [hbefore '<' rfl, hbefore '>' rfl]
    simp
    omega

section Use

variable {naming : Naming} {expression : Text} {letters : Option (List Text)}
  {directive : Option Text} {u u' : TypeUse} {parameters arguments : List Text}

theorem UseOf.argumentAlias (h : UseOf naming expression letters directive u)
    (hu : u.isDeferred = false) : ∃ n, argumentAlias naming u.origin = .ok n := by
  cases h with
  | plain written e d cut apart core =>
      exact ⟨_, argumentAlias_eq_ok.mpr ⟨d, apart, .inl ⟨core, rfl⟩⟩⟩
  | deferred => cases hu
  | named written e d a name cut apart core application free formed =>
    exact ⟨name, argumentAlias_eq_ok.mpr ⟨d, apart, .inr ⟨core, formed⟩⟩⟩

theorem UseOf.exists_cut (h : UseOf naming expression letters directive u) :
    ∃ e written d, cutDirectives expression = .ok (e, written) ∧ u.origin = e.trim ∧
      u.directive = written.or directive ∧ Decorated.ofText u.origin = .ok d := by
  cases h with
  | plain written e d cut apart => exact ⟨e, written, d, cut, rfl, rfl, apart⟩
  | deferred written e d a x cut apart => exact ⟨e, written, d, cut, rfl, rfl, apart⟩
  | named written e d a name cut apart => exact ⟨e, written, d, cut, rfl, rfl, apart⟩

/-- The expression of a use that does not wait has the same use outside of any template. -/
theorem UseOf.useOf_origin (h : UseOf naming expression letters directive u)
    (hu : u.isDeferred = false) :
    useOf naming u.origin none u.directive = .ok { u with letters := none } := by
  obtain ⟨n, hn⟩ := h.argumentAlias hu
  have hcut := cutDirectives_of_isExpressionChar (isExpressionChar_of_argumentAlias hn)
  rw [useOf_none_eq_ok]
  cases h with
  | plain written e d cut apart core =>
    have huse : UseOf naming e.trim none (written.or directive) _ :=
      .plain none e.trim d hcut (by rwa [trim_trim]) core
    rwa [trim_trim] at huse
  | deferred => cases hu
  | named written e d a name cut apart core application free formed =>
    have huse : UseOf naming e.trim none (written.or directive) _ :=
      .named none e.trim d a name hcut (by rwa [trim_trim]) core application
        (fun x _ => mentions_nil x) formed
    rwa [trim_trim] at huse

/-- What is read outside of any template, up to blanks around it, has balanced angle brackets and no
other characters than types are written with. -/
theorem UseOf.count_eq (h : UseOf naming expression none directive u) (he : u.origin = e.trim) :
    e.count '<' = e.count '>' ∧ ∀ c, isExpressionChar c = false → c ∉ e := by
  obtain ⟨n, hn⟩ := h.argumentAlias (IsUse.isDeferred_eq_false ⟨_, _, h⟩ rfl)
  rw [he] at hn
  constructor
  · have htrim := filter_trim (p := isAngleOrQuote) (fun _ => isAngleOrQuote_of_isBlank) e
    rw [← count_eq_of_filter_eq htrim rfl, ← count_eq_of_filter_eq htrim rfl]
    exact count_of_argumentAlias hn
  · intro c hc hmem
    have hmem' : c ∈ e.trim := by
      refine (mem_iff_of_filter_eq (p := (!isExpressionChar ·)) (filter_trim ?_ e)
        (by simp [hc])).mpr hmem
      intro x hx
      rw [isExpressionChar_of_isBlank hx]
      rfl
    rw [isExpressionChar_of_argumentAlias hn c hmem'] at hc
    cases hc

/-- **Substitution does not bring in directives**: the use of a substituted expression has the
directives that it is given. -/
theorem UseOf.directive_eq (hu : ∃ e directive, UseOf naming e letters directive u)
    (harguments : ∀ x ∈ arguments, ∃ n, Schemata.argumentAlias naming x = .ok n)
    (hsubst : substitute u.origin parameters arguments = .ok expression)
    (h : UseOf naming expression none directive u') : u'.directive = directive := by
  obtain ⟨e, written, -, hcut, horigin, hdirective, -⟩ := h.exists_cut
  rcases cutDirectives_cases hcut with ⟨-, rfl⟩ | ⟨rest, hrest⟩
  · exact hdirective
  exfalso
  obtain ⟨hcount, hchars⟩ := h.count_eq horigin
  obtain ⟨-, hreplace⟩ := substitute_eq_ok.mp hsubst
  obtain ⟨_, _, hu⟩ := hu
  obtain ⟨e₀, -, d, -, horigin₀, -, hd⟩ := hu.exists_cut
  have htrim₀ : u.origin.trim = u.origin := by rw [horigin₀, trim_trim]
  -- no at sign comes in by a replacement
  have hclean : ∀ {t : Text}, '@' ∉ t →
      '@' ∉ replaceNames (replacement (parameters.zip arguments)) t :=
    fun ht => not_mem_replaceNames rfl ht fun n hn =>
      not_mem_replacement harguments parameters (isNameChar_of_mem_names hn).2
  by_cases hmem : '@' ∈ u.origin
  · obtain ⟨p, q, hpq, hp, hopen⟩ := Decorated.exists_open hd (c := '@') (by decide)
      (by rwa [htrim₀])
    rw [htrim₀] at hpq
    rw [hpq, replaceNames_append_cons (by decide)] at hreplace
    -- the part before the directives is the substituted part of `u` before its first at sign
    have hbefore : replaceNames (replacement (parameters.zip arguments)) p = e :=
      eq_of_append_cons_eq (hclean hp) (hchars _ (by decide)) (hreplace.trans hrest)
    have hquote : '"' ∉ p := by
      intro hq
      refine hchars '"' (by decide) ?_
      rw [← hbefore]
      exact mem_replaceNames rfl hq
    -- it has a bracket open, but what is read has none
    have hdiff := count_replaceNames (f := replacement (parameters.zip arguments)) (t := p)
      (a := '<') (b := '>') rfl rfl fun n hn =>
        count_replacement harguments parameters (isNameChar_of_mem_names hn).2
    have hle := hopen hquote
    rw [hbefore] at hdiff
    omega
  · have hnone := hclean hmem
    rw [hreplace, hrest] at hnone
    exact hnone (by simp)

/-- The use `u'` is the use that the expression of `u` has outside of any template, with type
arguments in the place of type parameters.  It has the directives of `u`; a use that is kept also
keeps the type parameters that it carries. -/
def Substitutes (naming : Naming) (parameters arguments : List Text) (u u' : TypeUse) : Prop :=
  (∃ e, substitute u.origin parameters arguments = .ok e ∧
    useOf naming e none u.directive = .ok { u' with letters := none }) ∧
  u'.directive = u.directive

/-- **Substitution is uniform**: a use that mentions no type parameter is the one that its
expression has outside of any template, as one that is written anew. -/
theorem SubstitutedUse.substitutes (h : SubstitutedUse naming parameters arguments u u')
    (hu : IsUse naming letters u) (hletters : letters.getD [] = [] ∨ letters.getD [] = parameters)
    (hlength : parameters.length = arguments.length)
    (harguments : ∀ x ∈ arguments, ∃ n, argumentAlias naming x = .ok n) :
    Substitutes naming parameters arguments u u' := by
  have hdeferred := h.isDeferred_eq_false hu hletters
  rcases h with ⟨-, e, hsubst, huse⟩ | ⟨hm, rfl⟩
  · refine ⟨⟨e, hsubst, ?_⟩, UseOf.directive_eq hu harguments hsubst huse⟩
    rw [useOf_none_eq_ok.mpr huse]
    have hnone : u'.letters = none := huse.letters_eq
    rw [← hnone]
  · obtain ⟨_, _, huse⟩ := hu
    exact ⟨⟨u'.origin, substitute_of_not_mentions hlength hm, huse.useOf_origin hdeferred⟩, rfl⟩

end Use

end Schemata
