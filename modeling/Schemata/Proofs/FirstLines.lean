import Schemata.Proofs.TypeParameters

/-!
# The first line of a declaration

The start of a header is read twice: from the line on which the declaration starts, to find the
comments above it, and from the header with its comments dropped and its white space reduced, to
find out what is declared.  Both readings give the same kind, name and `extend` if the type
parameters are names and stand on the first line.
-/

namespace Schemata

open List

variable {f : Fragment} {g h : Header} {header line o out p r rest s t : Text} {isExtend : Bool}
    {k : Kind}

/-! ### Keywords -/

/-- How a declaration of a kind opens. -/
inductive Opens (k : Kind) : Bool → Text → Prop
  | keyword : Opens k false k.keyword
  | extend {gap : Text} (ne : gap ≠ []) (blank : ∀ c ∈ gap, isBlank c = true) :
      Opens k true ("extend".toList ++ (gap ++ k.keyword))

theorem ofKeyword?_eq_some {word : Text} (h : Kind.ofKeyword? word = some k) :
    k ∈ Kind.declared ∧ k.keyword = word :=
  ⟨mem_of_find?_eq_some h, by simpa using find?_some h⟩

theorem opens_of_takeWord {word : Text} (h : takeWord t = .ok (isExtend, o, word, rest))
    (hk : Kind.ofKeyword? word = some k) :
    Opens k isExtend o ∧ rest.startsWith isNameChar = false := by
  obtain ⟨-, rfl⟩ := ofKeyword?_eq_some hk
  unfold takeWord at h
  split at h
  · cases h
  · rename_i first after hfirst
    split at h
    · rename_i hextend
      rw [beq_iff_eq] at hextend
      subst hextend
      split at h
      · cases h
      · rename_i next last hnext
        cases h
        have hstart := startsWith_of_takeName hfirst
        rw [eq_append_of_takeName hnext] at hstart
        rw [append_assoc]
        refine ⟨.extend (gap_ne_nil (isName_of_takeName hnext) hstart) ?_,
          startsWith_of_takeName hnext⟩
        exact fun c hc => mem_takeWhile_imp hc
    · cases h
      exact ⟨.keyword, startsWith_of_takeName hfirst⟩

theorem takeKeyword_eq_some {j : Kind} (hk : k ∈ Kind.declared) {y : Text}
    (h : takeKeyword (k.keyword ++ y) = some (j, r)) : j = k ∧ r = y := by
  obtain ⟨i, hi, hfound⟩ := exists_of_findSome?_eq_some h
  obtain ⟨rest, hrest, hend⟩ := Option.bind_eq_some_iff.mp hfound
  have hik : i = k := by
    by_contra hne
    rw [after?_append_eq_none (after?_keyword i hi k hk hne)
      (after?_keyword k hk i hi (Ne.symm hne))] at hrest
    cases hrest
  subst hik
  rw [after?_append, Option.some.injEq] at hrest
  split_ifs at hend
  cases hend
  exact ⟨rfl, hrest.symm⟩

theorem takeKeyword_extend (y : Text) : takeKeyword ("extend".toList ++ y) = none := by
  rw [takeKeyword, findSome?_eq_none_iff]
  intro k hk
  obtain ⟨h, h'⟩ := after?_extend_keyword k hk
  rw [after?_append_eq_none h' h]
  rfl

theorem dropExtend?_blank {gap : Text} (hne : gap ≠ []) (h : ∀ c ∈ gap, isBlank c) (y : Text) :
    dropExtend? ("extend".toList ++ (gap ++ y)) = some (Text.trimStart y) := by
  obtain ⟨c, cs, rfl⟩ := exists_cons_of_ne_nil hne
  have hstart : Text.startsWith isBlank (c :: cs ++ y) := h c mem_cons_self
  rw [dropExtend?, after?_append, Option.bind_some, if_pos hstart, trimStart_blank_append h]

theorem takeKind_extend (y : Text) : takeKind ("extend".toList ++ y) =
    ((dropExtend? ("extend".toList ++ y)).bind takeKeyword).map fun r => (true, r.1, r.2) := by
  have htrim : Text.trimStart ("extend".toList ++ y) = "extend".toList ++ y := rfl
  unfold takeKind
  simp only [htrim, takeKeyword_extend]
  cases (dropExtend? ("extend".toList ++ y)).bind takeKeyword <;> rfl

namespace Opens

variable {k : Kind} {isExtend : Bool} {o : Text}

theorem takeKind_eq_some (h : Opens k isExtend o) (hk : k ∈ Kind.declared) {y : Text}
    {r : Bool × Kind × Text} (hr : takeKind (o ++ y) = some r) : r = (isExtend, k, y) := by
  obtain ⟨e, j, rest⟩ := r
  cases h with
  | keyword =>
    unfold takeKind at hr
    simp only [trimStart_name (isName_keyword k hk), dropExtend?_keyword hk, Option.bind_none] at hr
    obtain ⟨p, hp, hpr⟩ := Option.map_eq_some_iff.mp hr
    obtain ⟨rfl, rfl⟩ := takeKeyword_eq_some hk hp
    exact hpr.symm
  | @extend gap ne blank =>
    rw [append_assoc, append_assoc, takeKind_extend, dropExtend?_blank ne blank,
      trimStart_name (isName_keyword k hk), Option.bind_some] at hr
    obtain ⟨p, hp, hpr⟩ := Option.map_eq_some_iff.mp hr
    obtain ⟨rfl, rfl⟩ := takeKeyword_eq_some hk hp
    exact hpr.symm

theorem takeWhile_append (h : Opens k isExtend o) (hk : k ∈ Kind.declared)
    (hline : takeKind ((o ++ rest).takeWhile (· != '\n')) ≠ none) :
    (o ++ rest).takeWhile (· != '\n') = o ++ rest.takeWhile (· != '\n') := by
  have hkeyword : ∀ c ∈ k.keyword, (c != '\n') := fun c hc =>
    bne_of_class (isNameChar_of_isName (isName_keyword k hk) c hc) rfl
  cases h with
  | keyword => exact takeWhile_append_of_pos hkeyword
  | @extend gap ne blank =>
    have hextend : ∀ c ∈ "extend".toList, (c != '\n') := forall_mem_of_all rfl
    by_cases hgap : ∀ c ∈ gap, (c != '\n')
    · refine takeWhile_append_of_pos fun c hc => ?_
      rcases mem_append.mp hc with hc | hc
      · exact hextend c hc
      · exact (mem_append.mp hc).elim (hgap c) (hkeyword c)
    · -- the line ends after `extend`, and there is no keyword on it
      exfalso
      apply hline
      have hstop : (gap ++ (k.keyword ++ rest)).takeWhile (· != '\n') =
          gap.takeWhile (· != '\n') := by
        rw [List.takeWhile_append, if_neg]
        intro hlen
        refine hgap (takeWhile_eq_self_iff.mp (IsPrefix.eq_of_length ?_ hlen))
        exact takeWhile_prefix _
      rw [append_assoc, append_assoc, takeWhile_append_of_pos hextend, hstop, takeKind_extend]
      cases hg : gap.takeWhile (· != '\n') with
      | nil => rfl
      | cons c cs =>
        have hblank : ∀ d ∈ c :: cs, isBlank d := by
          intro d hd
          rw [← hg] at hd
          exact blank d ((takeWhile_sublist _).subset hd)
        have := dropExtend?_blank (cons_ne_nil c cs) hblank []
        rw [append_nil] at this
        rw [this]
        rfl

theorem collapse (h : Opens k isExtend o) (hk : k ∈ Kind.declared) (ls : List Lexeme) :
    Lexeme.collapse false false (o.map .char ++ ls) =
      (opening isExtend k ++ ·) <$> Lexeme.collapse true false ls := by
  have hname := isName_keyword k hk
  cases h with
  | keyword => exact collapse_name hname false false ls
  | @extend gap ne blank =>
    obtain ⟨c, cs, rfl⟩ := exists_cons_of_ne_nil ne
    rw [map_append, map_append, append_assoc, append_assoc,
      collapse_name (by decide), collapse_blank blank, collapse_name hname, Functor.map_map]
    simp [opening]

end Opens

/-! ### Names in headers -/

/-- The characters of a name with its type parameters. -/
def isDeclaredChar (c : Char) : Bool :=
  isNamePart c || c == '<' || c == ',' || c == '>'

theorem isDeclaredChar_of_isNamePart {c : Char} (h : isNamePart c) : isDeclaredChar c := by
  rw [isDeclaredChar, h]
  rfl

/-- The header goes on as the line does, as far as the name and its type parameters go. -/
def Carries (line header : Text) : Prop :=
  ∀ p r : Text, line = p ++ r → (∀ c ∈ p, isDeclaredChar c = true) →
    ∃ z, header = p ++ z ∧
      ∀ q : Char → Bool, q '\n' = false → r.startsWith q = false → z.startsWith q = false

theorem startsWith_append_line {more : Text} (hmore : more = [] ∨ ∃ v, more = '\n' :: v)
    {q : Char → Bool} (hq : q '\n' = false) (hr : r.startsWith q = false) :
    Text.startsWith q (r ++ more) = false := by
  cases r with
  | cons c r => exact hr
  | nil =>
    rcases hmore with rfl | ⟨v, rfl⟩
    · rfl
    · exact hq

theorem takeHeader_declared (hp : ∀ c ∈ p, isDeclaredChar c) (hplain : '\n' ∉ p)
    (ls : List Lexeme) :
    takeHeader isExtend 0 (p.map .char ++ ls) = keepHeader p (takeHeader isExtend 0 ls) := by
  induction p with
  | nil => simp [keepHeader]
  | cons c p ih =>
    obtain ⟨hc, hp⟩ := forall_mem_cons.mp hp
    rw [mem_cons, not_or] at hplain
    have hne : ∀ d, isDeclaredChar d = false → (c == d) = false := fun _ => beq_of_class hc
    have hdepth : headerDepth 0 c = 0 := by
      simp [headerDepth, hne '(' rfl, hne '[' rfl, hne ')' rfl, hne ']' rfl]
    rw [map_cons, cons_append, takeHeader_char (by simp [hne '\x7b' rfl])
      (by simp [Ne.symm hplain.1]), hdepth, ih hp hplain.2]
    exact keepHeader_keepHeader [c] p _

theorem carries_of_takeHeader {hasBody : Bool} {rest : List Lexeme}
    (h : takeHeader isExtend 0 (lex true t) = .ok (header, hasBody, rest)) :
    Carries (t.takeWhile (· != '\n')) header := by
  intro p r hline hp
  have ht : t = p ++ (r ++ t.dropWhile (· != '\n')) := by
    rw [← append_assoc, ← hline, takeWhile_append_dropWhile]
  have hplain : '\n' ∉ p := by
    intro hm
    have hmem : '\n' ∈ t.takeWhile (· != '\n') := by
      rw [hline]
      exact mem_append_left r hm
    exact absurd (mem_takeWhile_imp hmem) (by decide)
  rw [ht, lex_append_chars fun c hc => ne_quote_hash rfl rfl (hp c hc),
    takeHeader_declared hp hplain] at h
  obtain ⟨⟨z, b, rest'⟩, hz, hx⟩ := map_eq_ok h
  cases hx
  refine ⟨z, rfl, fun q hq hr => ?_⟩
  obtain ⟨ls, hls, -, hstart, -⟩ := takeHeader_closed hz
  have hwhole : z <+: r ++ t.dropWhile (· != '\n') := by
    rw [← raw_lex true (r ++ _), hls, raw_append]
    exact hstart.trans (prefix_append _ _)
  exact startsWith_of_isPrefix hwhole (startsWith_append_line (dropWhile_line t) hq hr)

theorem carries_append (line : Text) {more : Text} (h : more = [] ∨ ∃ v, more = '\n' :: v) :
    Carries line (line ++ more) := by
  rintro p r rfl -
  exact ⟨r ++ more, append_assoc p r more, fun q hq hr => startsWith_append_line h hq hr⟩

theorem stripComments_chars {z : Text} (hp : ∀ c ∈ p, c ≠ '"' ∧ c ≠ '#')
    (h : stripComments (p ++ z) = .ok s) : ∃ s', s = p ++ s' ∧ stripComments z = .ok s' := by
  have hquiet : (p.map Lexeme.char).all Lexeme.isQuiet := by
    rw [all_eq_true]
    intro l hl
    obtain ⟨c, hc, rfl⟩ := mem_map.mp hl
    simpa [Lexeme.isQuiet] using (hp c hc).2
  rw [stripComments, lex_append_chars hp, stripComments_append hquiet, raw_map_char] at h
  obtain ⟨s', hs', rfl⟩ := map_eq_ok h
  exact ⟨s', rfl, hs'⟩

/-- What the line has of a name and its type parameters stays where it is when comments are
dropped. -/
theorem Carries.exists_stripComments (h : Carries line header) (hs : stripComments header = .ok s)
    (hline : line = p ++ r) (hp : ∀ c ∈ p, isDeclaredChar c) :
    ∃ z, s = p ++ z ∧ (r.startsWith isNameChar = false → z.startsWith isNameChar = false) := by
  obtain ⟨z, rfl, hz⟩ := h p r hline hp
  obtain ⟨s', rfl, hs'⟩ := stripComments_chars (fun c hc => ne_quote_hash rfl rfl (hp c hc)) hs
  exact ⟨s', rfl, fun hr => startsWith_stripComments hs' rfl (hz _ rfl hr)⟩

section Names

variable {line header s out gap base : Text} {m : DeclaredName}

/-- A name on the first line is the name in the header, if that has no type parameters. -/
theorem Carries.name_eq_base (h : Carries line header) (hs : stripComments header = .ok s)
    (hout : Lexeme.collapse true false (lex false s) = .ok out)
    (hm : DeclaredName.read out = .ok (some m)) (hline : line = gap ++ (base ++ r)) (hne : gap ≠ [])
    (hgap : ∀ c ∈ gap, isBlank c) (hbase : base.isName) (hr : r.startsWith isNameChar = false)
    (hangle : '<' ∉ m.name) : m.name = base := by
  have hp : ∀ c ∈ gap ++ base, isDeclaredChar c := by
    intro c hc
    rcases mem_append.mp hc with hc | hc
    · exact isDeclaredChar_of_isNamePart (isNamePart_iff.mpr (.inr (hgap c hc)))
    · exact isDeclaredChar_of_isNamePart
        (isNamePart_iff.mpr (.inl (isNameChar_of_isName hbase c hc)))
  obtain ⟨z, rfl, hz⟩ := h.exists_stripComments hs (by rw [hline, append_assoc]) hp
  rw [append_assoc] at hout
  obtain ⟨u, rfl, hu⟩ := collapse_gap_name hne hgap hbase hout
  have hstop : u.startsWith isNameChar = false := startsWith_collapse hu rfl (hz hr)
  have hspace : ∀ c ∈ [' '], isBlank c := forall_mem_singleton.mpr rfl
  exact (DeclaredName.name_cases hspace hbase hstop hm).resolve_right fun hparameters =>
    hangle hparameters.1

theorem Carries.name_eq_withParameters (h : Carries line header) (hs : stripComments header = .ok s)
    (hout : Lexeme.collapse true false (lex false s) = .ok out)
    (hm : DeclaredName.read out = .ok (some m)) {g : Text} {ps : List Text}
    (hline : line = gap ++ (base ++ (g ++ '<' :: (Text.joinWith [','] ps ++ '>' :: rest))))
    (hne : gap ≠ []) (hgap : ∀ c ∈ gap, isBlank c) (hbase : base.isName) (hg : ∀ c ∈ g, isBlank c)
    (hps : ps ≠ []) (htrim : ∀ p ∈ ps, p.trim = [] ∨ p.trim.isName) :
    m.name = withParameters base ps := by
  have hp : ∀ c ∈ gap ++ (base ++ (g ++ '<' :: (Text.joinWith [','] ps ++ ['>']))),
      isDeclaredChar c := by
    intro c hc
    simp only [mem_append, mem_cons, not_mem_nil, or_false] at hc
    rcases hc with hc | hc | hc | rfl | hc | rfl
    · exact isDeclaredChar_of_isNamePart (isNamePart_iff.mpr (.inr (hgap c hc)))
    · exact isDeclaredChar_of_isNamePart
        (isNamePart_iff.mpr (.inl (isNameChar_of_isName hbase c hc)))
    · exact isDeclaredChar_of_isNamePart (isNamePart_iff.mpr (.inr (hg c hc)))
    · rfl
    · rcases mem_joinWith_comma (fun p hp => isNamePart_of_trim (htrim p hp)) c hc with hc | rfl
      · exact isDeclaredChar_of_isNamePart hc
      · rfl
    · rfl
  obtain ⟨z, rfl, -⟩ := h.exists_stripComments hs (r := rest) (by rw [hline]; simp) hp
  have hsplit : gap ++ (base ++ (g ++ '<' :: (Text.joinWith [','] ps ++ ['>']))) ++ z =
      gap ++ (base ++ (g ++ '<' :: (Text.joinWith [','] ps ++ '>' :: z))) := by simp
  rw [hsplit] at hout
  obtain ⟨u, rfl, hu⟩ := collapse_gap_name hne hgap hbase hout
  obtain ⟨g', qs, v, rfl, hg', hqs, hmap, hparts⟩ := collapse_angled hg hps htrim hu
  have hspace : ∀ c ∈ [' '], isBlank c := forall_mem_singleton.mpr rfl
  have hread := @DeclaredName.read_parameters base [' '] v qs g' hspace hbase hg' hqs hparts
  rw [singleton_append, hm] at hread
  cases hread
  rw [withParameters, withParameters, parameterNames, parameterNames, hmap]

end Names

/-- **The name on the first line is the name in the header**, if the header has no type parameters
that the line lacks. -/
theorem DeclaredName.name_eq {n m : DeclaredName} (hcarries : Carries line header)
    (hstart : line.startsWith isNameChar = false) (hs : stripComments header = .ok s)
    (hout : Lexeme.collapse true false (lex false s) = .ok out)
    (hn : DeclaredName.read line = .ok (some n)) (hm : DeclaredName.read out = .ok (some m))
    (hnames : ∀ ps ∈ n.parameters, ∀ p ∈ ps, p.isName) (hangle : '<' ∈ m.name → '<' ∈ n.name) :
    m.name = n.name := by
  obtain ⟨gap, base, r, hline, hgap, hbase, hr, hname⟩ := DeclaredName.read_cases hn
  have hne : gap ≠ [] := gap_ne_nil hbase (hline ▸ hstart)
  rcases hname with rfl | ⟨g, ps, rest, rfl, hg, hps, hname, hparameters⟩
  · exact hcarries.name_eq_base hs hout hm hline hne hgap hbase hr fun hmem =>
      not_mem_of_isName hbase (hangle hmem)
  · have hisName : ∀ p ∈ parameterNames ps, p.isName := by
      intro p hp
      refine hnames (parameterNames ps) ?_ p hp
      rw [hparameters, if_neg (by simpa using ne_nil_of_mem hp)]
      rfl
    rw [hname]
    exact hcarries.name_eq_withParameters hs hout hm hline hne hgap hbase hg hps
      (trim_of_parameterNames hisName)

/-! ### Statements and their first lines -/

theorem Header.read_cases (hread : Header.read t = .ok (some h)) :
    ∃ r, takeKind t = some (h.isExtend, h.kind, r) ∧
      (h.kind = .schema ∧ h.name = "schema".toList ∨
        h.kind ≠ .schema ∧ ∃ n, DeclaredName.read r = .ok (some n) ∧ n.name = h.name ∧
          n.parameters = h.parameters) := by
  unfold Header.read at hread
  split at hread
  · cases hread
  · rename_i isExtend kind r hkind
    by_cases hschema : kind = .schema
    · rw [if_pos (beq_iff_eq.mpr hschema)] at hread
      cases hread
      exact ⟨r, hkind, .inl ⟨hschema, rfl⟩⟩
    · rw [if_neg (mt beq_iff_eq.mp hschema)] at hread
      obtain ⟨o, ho, hread⟩ := bind_eq_ok.mp hread
      cases o with
      | none => cases hread
      | some n =>
        cases hread
        exact ⟨r, hkind, .inr ⟨hschema, n, ho, rfl, rfl⟩⟩

/-- Two headers that open with the same keyword have the same kind, and the same name if it is read
from what follows the keyword. -/
theorem Opens.header_eq (ho : Opens k isExtend o) (hk : k ∈ Kind.declared)
    (hline : Header.read (o ++ line) = .ok (some h))
    (hheader : Header.read (opening false k ++ out) = .ok (some g))
    (hname : ∀ n m, DeclaredName.read line = .ok (some n) → DeclaredName.read out = .ok (some m) →
      n.parameters = h.parameters → n.name = h.name → m.name = g.name → m.name = n.name) :
    g.kind = h.kind ∧ g.name = h.name ∧ isExtend = h.isExtend := by
  have hopening : Opens k false (opening false k) := .keyword
  obtain ⟨r, hr, hcases⟩ := Header.read_cases hline
  obtain ⟨s, hs, hcases'⟩ := Header.read_cases hheader
  have hfirst := ho.takeKind_eq_some hk hr
  have hsecond := hopening.takeKind_eq_some hk hs
  simp only [Prod.mk.injEq] at hfirst hsecond
  obtain ⟨hextend, hkind, rfl⟩ := hfirst
  obtain ⟨-, hkind', rfl⟩ := hsecond
  refine ⟨hkind'.trans hkind.symm, ?_, hextend.symm⟩
  rcases hcases with ⟨hschema, hname₁⟩ | ⟨hschema, n, hn, hn', hp⟩
  · rcases hcases' with ⟨-, hname₂⟩ | ⟨hschema', -⟩
    · rw [hname₁, hname₂]
    · exact absurd (hkind'.trans (hkind.symm.trans hschema)) hschema'
  · rcases hcases' with ⟨hschema', -⟩ | ⟨-, m, hm, hm', -⟩
    · exact absurd (hkind.trans (hkind'.symm.trans hschema')) hschema
    · rw [← hm', ← hn', hname n m hn hm hp hn' hm']

theorem Opens.canonicalHeader {full : Text} (ho : Opens k isExtend o) (hk : k ∈ Kind.declared)
    (hplain : ∀ c ∈ o, c ≠ '"' ∧ c ≠ '#') (h : canonicalHeader (o ++ header) = .ok full) :
    ∃ s out, stripComments header = .ok s ∧ Lexeme.collapse true false (lex false s) = .ok out ∧
      full = opening false k ++ out := by
  unfold Schemata.canonicalHeader at h
  obtain ⟨s₀, hs₀, h⟩ := bind_eq_ok.mp h
  obtain ⟨c, hc, h⟩ := bind_eq_ok.mp h
  cases h
  obtain ⟨s, rfl, hs⟩ := stripComments_chars hplain hs₀
  rw [Schemata.collapse, lex_append_chars hplain, ho.collapse hk] at hc
  obtain ⟨out, hout, rfl⟩ := map_eq_ok hc
  exact ⟨s, out, hs, hout, dropExtend_opening hk isExtend out⟩

theorem Carries.header_eq {full : Text} (hcarries : Carries line header) (ho : Opens k isExtend o)
    (hk : k ∈ Kind.declared) (hplain : ∀ c ∈ o, c ≠ '"' ∧ c ≠ '#')
    (hstart : line.startsWith isNameChar = false) (hfull : canonicalHeader (o ++ header) = .ok full)
    (hline : Header.read (o ++ line) = .ok (some h))
    (hnames : ∀ ps ∈ h.parameters, ∀ p ∈ ps, p.isName) (hheader : Header.read full = .ok (some g))
    (hangle : '<' ∈ g.name → '<' ∈ h.name) :
    g.kind = h.kind ∧ g.name = h.name ∧ isExtend = h.isExtend := by
  obtain ⟨s, out, hs, hout, rfl⟩ := ho.canonicalHeader hk hplain hfull
  refine ho.header_eq hk hline hheader fun n m hn hm hp hn' hm' => ?_
  rw [← hp] at hnames
  rw [← hn', ← hm'] at hangle
  exact DeclaredName.name_eq hcarries hstart hs hout hn hm hnames hangle

theorem readBlock_eq_ok (h : readBlock k isExtend o t = .ok (f, rest)) :
    ∃ header, Carries (t.takeWhile (· != '\n')) header ∧
      canonicalHeader (o ++ header) = .ok f.header ∧ f.isExtend = isExtend := by
  unfold readBlock at h
  obtain ⟨⟨header, hasBody, ls⟩, hh, h⟩ := bind_eq_ok.mp h
  obtain ⟨s, hs, h⟩ := bind_eq_ok.mp h
  obtain ⟨full, hfull, h⟩ := bind_eq_ok.mp h
  have hcanonical : canonicalHeader (o ++ header) =
      .ok ((Text.after? "extend ".toList full).getD full) := by
    rw [canonicalHeader, hs]
    simp only [bind, Except.bind, hfull]
    rfl
  refine ⟨header, carries_of_takeHeader hh, ?_⟩
  dsimp only at h
  split at h
  · obtain ⟨body, -, h⟩ := bind_eq_ok.mp h
    cases body with
    | none => cases h
    | some b =>
      obtain ⟨items, -, h⟩ := bind_eq_ok.mp h
      cases h
      exact ⟨hcanonical, rfl⟩
  · split at h
    · cases h
      exact ⟨hcanonical, rfl⟩
    · cases h

theorem exists_takeUnion_eq {taken : Text} (h : takeUnion taken t = .ok (header, rest))
    (ht : t = [] ∨ ∃ v, t = '\n' :: v) :
    ∃ more, header = taken ++ more ∧ (more = [] ∨ ∃ v, more = '\n' :: v) := by
  obtain ⟨happend, -⟩ := takeUnion_append h ht
  obtain ⟨more, rfl⟩ := takeUnion_suffix h
  rw [← append_assoc] at happend
  refine ⟨more, (append_cancel_right happend).symm, ?_⟩
  cases more with
  | nil => exact .inl rfl
  | cons c more =>
    obtain ⟨v, hv⟩ := ht.resolve_left (cons_ne_nil c (more ++ rest))
    exact .inr ⟨more, by rw [(List.cons.inj hv).1]⟩

theorem readUnion_eq_ok (h : readUnion isExtend t = .ok (f, rest)) :
    ∃ more, (more = [] ∨ ∃ v, more = '\n' :: v) ∧
      canonicalHeader (t.takeWhile (· != '\n') ++ more) = .ok f.header ∧ f.isExtend = isExtend := by
  unfold readUnion at h
  obtain ⟨⟨taken, after⟩, hu, h⟩ := bind_eq_ok.mp h
  obtain ⟨header, hh, h⟩ := bind_eq_ok.mp h
  cases h
  obtain ⟨more, rfl, hmore⟩ := exists_takeUnion_eq hu (dropWhile_line t)
  exact ⟨more, hmore, hh, rfl⟩

theorem takeDirectives_cases {directives : Text} (h : takeDirectives t = .ok (directives, rest)) :
    directives = [] ∨ ∃ gap u, directives = gap ++ '@' :: u ∧ ∀ c ∈ gap, isBlank c := by
  rw [takeDirectives] at h
  split at h
  · cases h
  · cases h
    exact .inl rfl
  · rename_i directive after hd
    obtain ⟨⟨more, rest'⟩, -, hx⟩ := map_eq_ok h
    cases hx
    obtain ⟨cs, name, after', inside, -, rfl, -⟩ := takeDirective_cases hd
    refine .inr ⟨t.takeWhile isGapChar, name ++ inside ++ more, by simp, fun c hc => ?_⟩
    have hgap := mem_takeWhile_imp hc
    rw [isGapChar, Bool.or_eq_true, beq_iff_eq, beq_iff_eq] at hgap
    rcases hgap with rfl | rfl <;> rfl

theorem Opens.readScalar_eq_ok {start : Text} (ho : Opens k isExtend o) (hk : k ∈ Kind.declared)
    (hplain : ∀ c ∈ o, c ≠ '"' ∧ c ≠ '#') (h : readScalar isExtend start o t = .ok (f, rest)) :
    ∃ name after directives out, t.trimStart.takeName = some (name, after) ∧
      takeDirectives after = .ok (directives, rest) ∧
      Lexeme.collapse true false (lex false (t.takeWhile isBlank ++ (name ++ directives))) =
        .ok out ∧
      f.header = opening false k ++ out ∧ f.isExtend = isExtend := by
  unfold readScalar at h
  split at h
  · cases h
  · rename_i name after hname
    obtain ⟨⟨directives, rest'⟩, hd, h⟩ := bind_eq_ok.mp h
    obtain ⟨full, hfull, h⟩ := bind_eq_ok.mp h
    cases h
    rw [append_assoc, append_assoc, Schemata.collapse, lex_append_chars hplain,
      ho.collapse hk] at hfull
    obtain ⟨out, hout, rfl⟩ := map_eq_ok hfull
    exact ⟨name, after, directives, out, hname, hd, hout, dropExtend_opening hk isExtend out, rfl⟩

theorem DeclaredName.name_eq_scalar {after name rest' directives : Text} {n m : DeclaredName}
    (hstart : after.startsWith isNameChar = false)
    (hname : after.trimStart.takeName = some (name, rest))
    (hdirectives : takeDirectives rest = .ok (directives, rest'))
    (hout :
      Lexeme.collapse true false (lex false (after.takeWhile isBlank ++ (name ++ directives))) =
        .ok out) (hn : DeclaredName.read (after.takeWhile (· != '\n')) = .ok (some n)) (hm :
          DeclaredName.read out = .ok (some m))
    (hangle : '<' ∈ n.name → '<' ∈ m.name) : m.name = n.name := by
  have hbase := isName_of_takeName hname
  have hgap : ∀ c ∈ after.takeWhile isBlank, isBlank c := fun c hc => mem_takeWhile_imp hc
  rw [eq_append_of_takeName hname] at hstart
  have hne : after.takeWhile isBlank ≠ [] := gap_ne_nil hbase hstart
  obtain ⟨u, rfl, hu⟩ := collapse_gap_name hne hgap hbase hout
  -- after the name come directives or nothing
  have hstop : u.startsWith isNameChar = false ∧ u.trimStart.startsWith (· == '<') = false := by
    rcases takeDirectives_cases hdirectives with rfl | ⟨gap, v, rfl, hblank⟩
    · rw [lex_nil] at hu
      cases hu
      exact ⟨rfl, rfl⟩
    · rw [lex_append_chars (ne_of_blank hblank), lex_cons_of_ne_quote (by decide),
        collapse_blank hblank, Lexeme.collapse, if_neg (by decide)] at hu
      obtain ⟨w, -, rfl⟩ := map_eq_ok hu
      cases gap with
      | nil => exact ⟨rfl, rfl⟩
      | cons c gap => exact ⟨rfl, rfl⟩
  have hspace : ∀ c ∈ [' '], isBlank c := forall_mem_singleton.mpr rfl
  have hmname : m.name = name := by
    refine (DeclaredName.name_cases hspace hbase hstop.1 hm).resolve_right fun hm' => ?_
    rw [hstop.2] at hm'
    exact Bool.false_ne_true hm'.2
  have hnot : '<' ∉ n.name := by
    intro hmem
    have := hangle hmem
    rw [hmname] at this
    exact not_mem_of_isName hbase this
  -- the line has the same name
  obtain ⟨gap, base, r, hline, hgap', hbase', hr, -⟩ := DeclaredName.read_cases hn
  rw [hline] at hn
  have hnname := (DeclaredName.name_cases hgap' hbase' hr hn).resolve_right fun hn' => hnot hn'.1
  have hwhole : after = gap ++ (base ++ (r ++ after.dropWhile (· != '\n'))) := by
    rw [← append_assoc, ← append_assoc, append_assoc gap, ← hline, takeWhile_append_dropWhile]
  have hends : Text.startsWith isNameChar (r ++ after.dropWhile (· != '\n')) = false :=
    startsWith_append_line (dropWhile_line after) rfl hr
  have htake := takeName_trimStart hgap' hbase' hends
  rw [← hwhole, hname, Option.some.injEq, Prod.mk.injEq] at htake
  rw [hmname, hnname, htake.1]

/-- **The first line of a declaration** has its kind, its name and its `extend`, if its type
parameters are names and stand on the line. -/
theorem Statement.read_line (hread : Statement.read t = .ok (.declared f, rest))
    (hline : Header.read (t.takeWhile (· != '\n')) = .ok (some h))
    (hnames : ∀ ps ∈ h.parameters, ∀ p ∈ ps, p.isName)
    (hheader : Header.read f.header = .ok (some g)) (hangle : '<' ∈ g.name ↔ '<' ∈ h.name) :
    g.kind = h.kind ∧ g.name = h.name ∧ f.isExtend = h.isExtend := by
  unfold Statement.read at hread
  obtain ⟨⟨isExtend, o, word, after⟩, hw, hread⟩ := bind_eq_ok.mp hread
  dsimp only at hread
  obtain ⟨rfl, -⟩ := takeWord_append hw
  have hplain : ∀ c ∈ o, c ≠ '"' ∧ c ≠ '#' := by
    intro c hc
    rcases takeWord_chars hw c hc with hc | hc
    · exact ne_quote_hash (p := isNameChar) rfl rfl hc
    · exact ne_quote_hash (p := isBlank) rfl rfl hc
  cases hkind : Kind.ofKeyword? word with
  | none =>
    rw [hkind] at hread
    cases hread
  | some k =>
    obtain ⟨hk, -⟩ := ofKeyword?_eq_some hkind
    obtain ⟨ho, hstart⟩ := opens_of_takeWord hw hkind
    obtain ⟨r, hr, -⟩ := Header.read_cases hline
    have hfirst := ho.takeWhile_append hk (by rw [hr]; exact Option.some_ne_none _)
    rw [hfirst] at hline
    have hword : Text.startsWith isNameChar (after.takeWhile (· != '\n')) = false := by
      refine startsWith_of_isPrefix ?_ hstart
      exact takeWhile_prefix _
    simp only [hkind] at hread
    split at hread
    · rename_i hnone
      cases hnone
    · rename_i heq
      cases heq
      obtain ⟨⟨f', last⟩, hf, hread⟩ := bind_eq_ok.mp hread
      cases hread
      obtain ⟨more, hmore, hfull, hextend⟩ := readUnion_eq_ok hf
      rw [hfirst, append_assoc] at hfull
      rw [hextend]
      exact (carries_append _ hmore).header_eq ho hk hplain hword hfull hline hnames
        hheader hangle.mp
    · rename_i heq
      cases heq
      obtain ⟨⟨f', last⟩, hf, hread⟩ := bind_eq_ok.mp hread
      cases hread
      obtain ⟨name, rest', directives, out, hname, hdirectives, hout, hfull, hextend⟩ :=
        ho.readScalar_eq_ok hk hplain hf
      rw [hfull] at hheader
      rw [hextend]
      refine ho.header_eq hk hline hheader fun n m hn hm _ hn' hm' => ?_
      rw [← hn', ← hm'] at hangle
      exact DeclaredName.name_eq_scalar hstart hname hdirectives hout hn hm hangle.mpr
    · rename_i heq
      cases heq
      obtain ⟨⟨f', last⟩, hf, hread⟩ := bind_eq_ok.mp hread
      cases hread
      obtain ⟨header, hcarries, hfull, hextend⟩ := readBlock_eq_ok hf
      rw [hextend]
      exact hcarries.header_eq ho hk hplain hword hfull hline hnames hheader hangle.mp

end Schemata
