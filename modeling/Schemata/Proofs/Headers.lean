import Schemata.Proofs.Fields

/-!
# Reading headers back

The header of a declaration in writing is its keyword, its name, the interfaces of a block, the
directives, and the members of a union.  Each is found again where it was written.

## Main definitions

* `Declaration.opening`, `Declaration.clauses` — the header up to its name, and from there on.

## Main results

* `Header.read_line` — the kind, name and rest of a header, whatever follows on its line.
* `parseClauses_clausesText`, `parseUnion_clauses` — the rest of a header is read as what it was
  written from.
-/

namespace Schemata

open List

variable {c : Char} {d : Declaration} {k : Kind}
open Text (startsWith trimStart endsWith trim joinWith)

variable {directive : Option Text} {gap name rest t : Text} {ns ts : List Text}
    {p top : Char → Bool}

/-! ### Keywords -/

theorem after?_append (w rest : Text) : Text.after? w (w ++ rest) = some rest := by
  induction w with
  | nil => rfl
  | cons c w ih => rw [cons_append, Text.after?, if_pos (beq_self_eq_true c), ih]

/-- Of two words that differ before either ends, neither is found where the other stands. -/
theorem after?_append_eq_none {v w : Text} (hvw : Text.after? v w = none)
    (hwv : Text.after? w v = none) (rest : Text) : Text.after? v (w ++ rest) = none := by
  induction v generalizing w with
  | nil => cases hvw
  | cons c v ih =>
    cases w with
    | nil => cases hwv
    | cons d w =>
      rw [Text.after?] at hvw hwv
      rw [cons_append, Text.after?]
      split at hvw
      · rename_i heq
        rw [if_pos heq]
        rw [beq_iff_eq] at heq
        rw [heq, if_pos (beq_self_eq_true d)] at hwv
        exact ih hvw hwv
      · rename_i hne
        rw [if_neg hne]

theorem findSome?_eq_of_unique {α β : Type} {f : α → Option β} {l : List α} {a : α} {b : β}
    (ha : a ∈ l) (hf : f a = some b) (hne : ∀ x ∈ l, x ≠ a → f x = none) :
    l.findSome? f = some b := by
  induction l with
  | nil => cases ha
  | cons x l ih =>
    obtain ⟨hx, hl⟩ := forall_mem_cons.mp hne
    by_cases hxa : x = a
    · rw [findSome?_cons, hxa, hf]
    · rw [findSome?_cons, hx hxa]
      exact ih ((mem_cons.mp ha).resolve_left (Ne.symm hxa)) hl

theorem after?_keyword : ∀ j ∈ Kind.declared, ∀ k ∈ Kind.declared, j ≠ k →
    Text.after? j.keyword k.keyword = none := by
  decide

theorem after?_extend_keyword : ∀ k ∈ Kind.declared,
    Text.after? "extend".toList k.keyword = none ∧
      Text.after? k.keyword "extend".toList = none := by
  decide

theorem takeKeyword_append (hk : k ∈ Kind.declared) (h : rest.startsWith isWordChar = false) :
    takeKeyword (k.keyword ++ rest) = some (k, rest) := by
  refine findSome?_eq_of_unique hk ?_ ?_
  · rw [after?_append, Option.bind_some, h]
    rfl
  · intro j hj hne
    rw [after?_append_eq_none (after?_keyword j hj k hk hne) (after?_keyword k hk j hj hne.symm)]
    rfl

theorem dropExtend?_keyword (hk : k ∈ Kind.declared) (rest : Text) :
    dropExtend? (k.keyword ++ rest) = none := by
  obtain ⟨h, h'⟩ := after?_extend_keyword k hk
  rw [dropExtend?, after?_append_eq_none h h']
  rfl

theorem isName_keyword : ∀ k ∈ Kind.declared, k.keyword.isName := by decide

theorem trimStart_name (h : name.isName) (t : Text) : trimStart (name ++ t) = name ++ t := by
  obtain ⟨c, cs, rfl, hc, -⟩ := isName_iff.mp h
  exact trimStart_cons (not_isBlank_of_isNameChar (isNameChar_of_isNameStart hc)) _

theorem trimStart_space_name (h : name.isName) (t : Text) :
    trimStart (' ' :: (name ++ t)) = name ++ t ∧
      (' ' :: (name ++ t)).takeWhile isBlank = [' '] := by
  refine ⟨trimStart_name h t, ?_⟩
  have hsplit := takeWhile_append_dropWhile (p := isBlank) (l := name ++ t)
  rw [← trimStart_eq_dropWhile, trimStart_name h t, append_left_eq_self] at hsplit
  rw [takeWhile_cons_of_pos (by decide), hsplit]

def opening (isExtend : Bool) (k : Kind) : Text :=
  if isExtend then "extend ".toList ++ k.keyword else k.keyword

theorem takeKind_opening (isExtend : Bool) (hk : k ∈ Kind.declared)
    (h : rest.startsWith isWordChar = false) :
    takeKind (opening isExtend k ++ rest) = some (isExtend, k, rest) := by
  have htrim := trimStart_name (isName_keyword k hk) rest
  unfold takeKind opening
  cases isExtend with
  | true =>
    have hsplit : "extend ".toList ++ k.keyword ++ rest =
      "extend".toList ++ ' ' :: (k.keyword ++ rest) := rfl
    have hstart : trimStart ("extend".toList ++ ' ' :: (k.keyword ++ rest)) =
        "extend".toList ++ ' ' :: (k.keyword ++ rest) := rfl
    have hdrop : dropExtend? ("extend".toList ++ ' ' :: (k.keyword ++ rest)) =
        some (k.keyword ++ rest) := by
      have hblank : startsWith isBlank (' ' :: (k.keyword ++ rest)) := rfl
      rw [dropExtend?, after?_append, Option.bind_some, hblank, if_pos rfl, trimStart_eq_dropWhile,
        dropWhile_cons_of_pos (by decide), ← trimStart_eq_dropWhile, htrim]
    simp only [if_true, hsplit, hstart, hdrop, Option.bind_some, takeKeyword_append hk h]
  | false =>
    simp only [Bool.false_eq_true, if_false, htrim, dropExtend?_keyword hk, Option.bind_none,
      takeKeyword_append hk h, Option.map_some]

/-! ### Names -/

/-- What may follow a name in a header: nothing, or a space and something that is no type
parameter. -/
def AfterName (t : Text) : Prop :=
  t = [] ∨ ∃ c u, t = ' ' :: c :: u ∧ isBlank c = false ∧ c ≠ '<'

theorem AfterName.startsWith (h : AfterName t) (hp : p ' ' = false) : t.startsWith p = false := by
  rcases h with rfl | ⟨c, u, rfl, -, -⟩
  · rfl
  · exact hp

theorem AfterName.trimStart (h : AfterName t) : t.trimStart.startsWith (· == '<') = false := by
  rcases h with rfl | ⟨c, u, rfl, hc, hne⟩
  · rfl
  · change Text.startsWith _ (Text.trimStart (c :: u)) = false
    rw [trimStart_cons hc]
    simpa [Text.startsWith] using hne

theorem AfterName.append {u : Text} (h : AfterName t) (hu : AfterName u) : AfterName (t ++ u) := by
  rcases h with rfl | ⟨c, v, rfl, hc, hne⟩
  · exact hu
  · exact .inr ⟨c, v ++ u, rfl, hc, hne⟩

theorem DeclaredName.read_name (h : name.isName) (hrest : AfterName rest) :
    DeclaredName.read (' ' :: (name ++ rest)) = .ok (some ⟨name, none, rest⟩) := by
  have htake := takeName_append_of_isName h (hrest.startsWith rfl)
  simp only [DeclaredName.read, trimStart_space_name h, htake, hrest.trimStart, Bool.false_eq_true,
    if_false]
  rfl

theorem startsWith_cons (p : Char → Bool) (c : Char) (t : Text) : startsWith p (c :: t) = p c := rfl

theorem isWordChar_space : isWordChar ' ' = false := by decide +kernel

/-- The name in a header: the root schema has none. -/
def nameText (d : Declaration) : Text :=
  if d.kind == .schema then [] else ' ' :: d.name

/-- **The start of a header is read back**, whatever follows its name. -/
theorem Header.read_opening (h : d.Legible) (isExtend : Bool) (hrest : AfterName rest) :
    Header.read (opening isExtend d.kind ++ (nameText d ++ rest)) =
      .ok (some ⟨d.kind, isExtend, d.name, none, rest⟩) := by
  have hword : startsWith isWordChar (nameText d ++ rest) = false := by
    unfold nameText
    split
    · exact hrest.startsWith isWordChar_space
    · rw [cons_append, startsWith_cons, isWordChar_space]
  rw [Header.read, takeKind_opening isExtend h.kind hword]
  simp only
  by_cases hs : d.kind = .schema
  · have hname := h.name.2 hs
    rw [hs, hname]
    simp [nameText, hs, pure, Except.pure]
  · have hread := DeclaredName.read_name h.name.1 hrest
    simp only [beq_iff_eq, hs, if_false, nameText, cons_append, hread, bind, Except.bind, pure,
      Except.pure]

/-! ### Clauses -/

theorem isWordChar_of_isNameChar (h : isNameChar c) : isWordChar c := by
  rw [isWordChar, h, Bool.true_or]

theorem after?_eq_some {word : Text} (h : Text.after? word t = some rest) : t = word ++ rest := by
  induction word generalizing t with
  | nil =>
    cases h
    rfl
  | cons w word ih =>
    cases t with
    | nil => cases h
    | cons c cs =>
      rw [Text.after?] at h
      split at h
      · rename_i heq
        rw [beq_iff_eq] at heq
        rw [heq, ih h, cons_append]
      · cases h

theorem startsWith_of_after? {word after : Text} (hword : ∀ c ∈ word, isWordChar c)
    (hname : ∀ c ∈ name, isWordChar c) (hrest : rest.startsWith isWordChar = false)
    (hne : name ≠ word) (h : Text.after? word (name ++ rest) = some after) :
    after.startsWith isWordChar := by
  rcases append_eq_append_iff.mp (after?_eq_some h) with ⟨s, hs, ht⟩ | ⟨s, hs, ht⟩
  · -- the word would go on where the name has ended
    cases s with
    | nil => exact absurd (by simpa using hs.symm) hne
    | cons c s =>
      rw [ht, cons_append, startsWith_cons, hword c (by simp [hs])] at hrest
      cases hrest
  · cases s with
    | nil => exact absurd (by simpa using hs) hne
    | cons c s => rw [ht, cons_append, startsWith_cons, hname c (by simp [hs])]

theorem takeClause_name (h : ∀ c ∈ name, isNameChar c) (hw : name ∉ clauseWords)
    (hrest : rest.startsWith isWordChar = false) : takeClause (name ++ rest) = none := by
  have hwords : ∀ p ∈ [(Clause.inherits, "inherits".toList),
    (Clause.implements, "implements".toList)],
      p.2 ∈ clauseWords ∧ p.2.all isNameChar := by decide
  rw [takeClause, findSome?_eq_none_iff]
  rintro ⟨clause, word⟩ hm
  obtain ⟨hword, hchars⟩ := hwords _ hm
  cases hafter : Text.after? word (name ++ rest) with
  | none => simp only [hafter, Option.bind_none]
  | some after =>
    have hne : name ≠ word := fun heq => hw (heq ▸ hword)
    have hgo := startsWith_of_after?
      (fun c hc => isWordChar_of_isNameChar (all_eq_true.mp hchars c hc))
      (fun c hc => isWordChar_of_isNameChar (h c hc)) hrest hne hafter
    simp only [hafter, Option.bind_some, hgo, if_true]

theorem splitClauses_cons {boundary : Bool} {cs : Text}
    (h : boundary → takeClause (c :: cs) = none) : splitClauses boundary (c :: cs) =
      (c :: (splitClauses (!isWordChar c) cs).1, (splitClauses (!isWordChar c) cs).2) := by
  have hnone : (if boundary then takeClause (c :: cs) else none) = none := by
    cases boundary with
    | true => exact h rfl
    | false => rfl
  rw [splitClauses]
  split
  · rename_i clause rest heq
    rw [hnone] at heq
    cases heq
  · rfl

theorem splitClauses_of_takeClause {clause : Clause} (h : takeClause t = some (clause, rest)) :
    splitClauses true t =
      ([], (clause, (splitClauses false rest).1) :: (splitClauses false rest).2) := by
  cases t with
  | nil => cases h
  | cons c cs =>
    rw [splitClauses]
    split
    · rename_i clause' rest' heq
      rw [if_pos rfl, h] at heq
      cases heq
      rfl
    · rename_i heq
      rw [if_pos rfl, h] at heq
      cases heq

theorem takeClause_blank (cs : Text) : takeClause (' ' :: cs) = none := rfl

theorem splitClauses_space (boundary : Bool) (cs : Text) :
    splitClauses boundary (' ' :: cs) =
      (' ' :: (splitClauses true cs).1, (splitClauses true cs).2) := by
  rw [splitClauses_cons (fun _ => takeClause_blank cs), isWordChar_space]
  rfl

theorem splitClauses_word {w : Text} (h : ∀ c ∈ w, isNameChar c) (rest : Text) :
    splitClauses false (w ++ rest) = (w ++ (splitClauses false rest).1,
      (splitClauses false rest).2) := by
  induction w with
  | nil => rfl
  | cons c w ih =>
    obtain ⟨hc, hw⟩ := forall_mem_cons.mp h
    rw [cons_append, splitClauses_cons (fun h => absurd h Bool.false_ne_true),
      isWordChar_of_isNameChar hc, Bool.not_true, ih hw]
    rfl

theorem splitClauses_name (h : name.isName) (hw : name ∉ clauseWords)
    (hrest : rest.startsWith isWordChar = false) :
    splitClauses true (name ++ rest) = (name ++ (splitClauses false rest).1,
      (splitClauses false rest).2) := by
  have hchars := isNameChar_of_isName h
  have hnone := takeClause_name hchars hw hrest
  obtain ⟨c, cs, rfl, hc, hcs⟩ := isName_iff.mp h
  rw [cons_append] at hnone ⊢
  rw [splitClauses_cons (fun _ => hnone), isWordChar_of_isNameChar (isNameChar_of_isNameStart hc),
    Bool.not_true, splitClauses_word hcs]
  rfl

theorem splitClauses_names (h : ∀ n ∈ ns, n.isName ∧ n ∉ clauseWords) (hne : ns ≠ [])
    (hgap : gap = [] ∨ gap = [' ']) :
    splitClauses true (joinWith ", ".toList ns ++ gap) = (joinWith ", ".toList ns ++ gap, []) := by
  have hcomma : isWordChar ',' = false := by decide +kernel
  induction ns with
  | nil => exact absurd rfl hne
  | cons n ns ih =>
    obtain ⟨hn, hns⟩ := forall_mem_cons.mp h
    cases ns with
    | nil =>
      rcases hgap with rfl | rfl
      · rw [joinWith_singleton, splitClauses_name hn.1 hn.2 rfl, splitClauses]
      · rw [joinWith_singleton,
          splitClauses_name hn.1 hn.2 (by rw [startsWith_cons, isWordChar_space]),
          splitClauses_space, splitClauses]
    | cons m ns =>
      have hrest : startsWith isWordChar
          (", ".toList ++ (joinWith ", ".toList (m :: ns) ++ gap)) = false := by
        change startsWith isWordChar (',' :: _) = false
        rw [startsWith_cons, hcomma]
      have hstep : splitClauses false (", ".toList ++ (joinWith ", ".toList (m :: ns) ++ gap)) =
          (", ".toList ++ (joinWith ", ".toList (m :: ns) ++ gap), []) := by
        change splitClauses false (',' :: ' ' :: (joinWith ", ".toList (m :: ns) ++ gap)) = _
        rw [splitClauses_cons (fun h => absurd h Bool.false_ne_true), hcomma, Bool.not_false,
          splitClauses_space, ih hns (cons_ne_nil _ _)]
        rfl
      rw [joinWith_cons_cons, append_assoc, append_assoc, splitClauses_name hn.1 hn.2 hrest, hstep]

theorem clauseNames_joinWith (h : ∀ n ∈ ns, n.isName) (hne : ns ≠ [])
    (hgap : gap = [] ∨ gap = [' ']) :
    clauseNames (' ' :: (joinWith ", ".toList ns ++ gap)) = ns := by
  -- a name between blanks is a part of its own
  have hpart : ∀ {n gap : Text}, n.isName → (gap = [] ∨ gap = [' ']) →
      (Text.takeName (trim (' ' :: (n ++ gap)))).map Prod.fst = some n ∧
        ∀ c ∈ ' ' :: (n ++ gap), (c == ',' || c == '&') = false := by
    intro n gap hn hgap
    have hspaces : ∀ s : Text, s = [] ∨ s = [' '] → ∀ c ∈ s, isBlank c := by
      rintro s (rfl | rfl) <;> exact forall_mem_of_all rfl
    have htrim := trim_around (hspaces [' '] (.inr rfl)) (hspaces gap hgap)
      (isWord_of_isName hn).spaced
    have htake := @takeName_append_of_isName [] n hn rfl
    rw [append_nil] at htake
    rw [singleton_append] at htrim
    refine ⟨by rw [htrim, htake]; rfl, ?_⟩
    intro c hc
    have hcase : c = ' ' ∨ isNameChar c := by
      rcases mem_cons.mp hc with hc | hc
      · exact .inl hc
      · rcases mem_append.mp hc with hc | hc
        · exact .inr (isNameChar_of_isName hn c hc)
        · rcases hgap with rfl | rfl
          · cases hc
          · exact .inl (mem_singleton.mp hc)
    rcases hcase with rfl | hc
    · rfl
    · simp [ne_of_class hc (d := ',') rfl, ne_of_class hc (d := '&') rfl]
  induction ns with
  | nil => exact absurd rfl hne
  | cons n ns ih =>
    obtain ⟨hn, hns⟩ := forall_mem_cons.mp h
    cases ns with
    | nil =>
      obtain ⟨hname, hsep⟩ := hpart hn hgap
      rw [joinWith_singleton, clauseNames, splitBy_eq_singleton hsep, filterMap_cons, hname]
      rfl
    | cons m ns =>
      obtain ⟨hname, hsep⟩ := hpart hn (.inl rfl)
      have hsplit : ' ' :: (joinWith ", ".toList (n :: m :: ns) ++ gap) =
          ' ' :: (n ++ []) ++ ',' :: ' ' :: (joinWith ", ".toList (m :: ns) ++ gap) := by
        simp
      have hrest := ih hns (cons_ne_nil _ _)
      rw [clauseNames] at hrest
      rw [clauseNames, hsplit, splitBy_append hsep rfl, filterMap_cons, hname]
      simp only [hrest]

def implementsText (ns : List Text) : Text :=
  if ns.isEmpty then [] else " implements ".toList ++ Text.joinWith ", ".toList ns

theorem implementsText_of_ne_nil (h : ns ≠ []) :
    implementsText ns = ' ' :: ("implements".toList ++ ' ' :: joinWith ", ".toList ns) := by
  rw [implementsText, if_neg (by simpa using h)]
  rfl

def clausesText (ns : List Text) (directive : Option Text) : Text :=
  implementsText ns ++ spaced directive

theorem takeClause_implements (rest : Text) (h : rest.startsWith isWordChar = false) :
    takeClause ("implements".toList ++ rest) = some (.implements, rest) := by
  have hother : Text.after? "inherits".toList ("implements".toList ++ rest) = none :=
    after?_append_eq_none (by decide) (by decide) rest
  have hfound : ((Text.after? "implements".toList ("implements".toList ++ rest)).bind fun rest =>
      if startsWith isWordChar rest then none else some (Clause.implements, rest)) =
      some (.implements, rest) := by
    rw [after?_append, Option.bind_some, h]
    rfl
  rw [takeClause, findSome?_cons_of_isNone, findSome?_cons_of_isSome]
  · exact hfound
  · exact Option.isSome_iff_exists.mpr ⟨_, hfound⟩
  · simp only [hother, Option.bind_none, Option.isNone_none]

theorem splitClauses_implementsText (h : ∀ n ∈ ns, n.isName ∧ n ∉ clauseWords)
    (hgap : gap = [] ∨ gap = [' ']) : (splitClauses true (implementsText ns ++ gap)).1.trim = [] ∧
      namesIn .inherits (splitClauses true (implementsText ns ++ gap)).2 = none ∧
      namesIn .implements (splitClauses true (implementsText ns ++ gap)).2 =
        (some ns).filter (!·.isEmpty) := by
  by_cases hne : ns = []
  · subst hne
    have hsplit : splitClauses true (implementsText [] ++ gap) = (gap, []) := by
      rw [show implementsText [] = [] from rfl, nil_append]
      rcases hgap with rfl | rfl
      · rw [splitClauses]
      · rw [splitClauses_space, splitClauses]
    rw [hsplit]
    rcases hgap with rfl | rfl <;> exact ⟨rfl, rfl, rfl⟩
  · have hspace : startsWith isWordChar (' ' :: (joinWith ", ".toList ns ++ gap)) = false := by
      rw [startsWith_cons, isWordChar_space]
    have hsplit : splitClauses true (implementsText ns ++ gap) =
        ([' '], [(.implements, ' ' :: (joinWith ", ".toList ns ++ gap))]) := by
      rw [implementsText_of_ne_nil hne, cons_append, append_assoc, cons_append,
        splitClauses_space, splitClauses_of_takeClause (takeClause_implements _ hspace),
        splitClauses_space, splitClauses_names h hne hgap]
    have hnames := clauseNames_joinWith (fun n hn => (h n hn).1) hne hgap
    rw [hsplit]
    refine ⟨rfl, rfl, ?_⟩
    have hfilter : (some ns).filter (!·.isEmpty) = some ns := by
      simp [Option.filter, hne]
    rw [hfilter]
    change some (List.flatMap (fun p : Clause × Text => clauseNames p.2) [_]) = some ns
    rw [flatMap_singleton, hnames]

/-! ### The parts of a header -/

/-- The text goes on with a header: it is nested and collapsed, and may start with a space. -/
structure Continues (top : Char → Bool) (t : Text) : Prop where
  nested : Nested top [] (lex false t)
  spaced : Spaced true (lex false t)
  start : t.startsWith (· == '"') = false

namespace Continues

variable {top : Char → Bool} {t u : Text}

theorem nil : Continues top [] := by
  refine ⟨?_, ?_, rfl⟩ <;> rw [lex_nil]
  · exact .nil
  · exact .nil

theorem append (h : Continues top t) (hu : Continues top u) : Continues top (t ++ u) := by
  have hlex : lex false (t ++ u) = lex false t ++ lex false u :=
    lex_append h.nested.isQuiet hu.start false
  refine ⟨?_, ?_, ?_⟩
  · rw [hlex]
    exact h.nested.append hu.nested
  · rw [hlex]
    exact h.spaced.append hu.spaced
  · cases t with
    | nil => exact hu.start
    | cons c t => exact h.start

theorem ofSpace (hspace : top ' ') (h : Nested top [] (lex false t))
    (hs : Spaced false (lex false t)) : Continues top (' ' :: t) := by
  refine ⟨?_, ?_, rfl⟩ <;> rw [lex_cons_of_ne_quote (by decide)]
  · exact .space hspace h
  · exact .space hs

theorem ofName (htop : ∀ c, isNameChar c → top c) (h : name.isName) : Continues top name := by
  have hchars := isNameChar_of_isName h
  refine ⟨?_, ?_, ?_⟩
  · rw [lex_name hchars]
    exact nested_name hchars htop
  · rw [lex_name hchars]
    exact spaced_name hchars
  · obtain ⟨c, cs, rfl, hc, -⟩ := isName_iff.mp h
    simpa [startsWith] using ne_of_class (isNameChar_of_isNameStart hc) (d := '"') rfl

theorem spaceName (htop : ∀ c, isNameChar c → top c) (hspace : top ' ') (h : name.isName) :
    Continues top (' ' :: name) := by
  have hchars := isNameChar_of_isName h
  refine ofSpace hspace ?_ (isWord_of_isName h).spaced
  rw [lex_name hchars]
  exact nested_name hchars htop

end Continues

theorem continues_implementsText (htop : ∀ c, isNameChar c → top c) (hspace : top ' ')
    (hcomma : top ',') (h : ∀ n ∈ ns, n.isName) : Continues top (implementsText ns) := by
  have hjoin : ns ≠ [] → Continues top (' ' :: joinWith ", ".toList ns) := by
    intro hne
    induction ns with
    | nil => exact absurd rfl hne
    | cons n ns ih =>
      obtain ⟨hn, hns⟩ := forall_mem_cons.mp h
      cases ns with
      | nil => exact .spaceName htop hspace hn
      | cons m ns =>
        have hcom : Continues top [','] := by
          refine ⟨?_, ?_, rfl⟩ <;> rw [lex_cons_of_ne_quote (by decide), lex_nil]
          · exact .char rfl rfl (by decide) (fun _ => hcomma) .nil
          · exact .char rfl .nil
        have hall := ((Continues.spaceName htop hspace hn).append hcom).append
          (ih hns (cons_ne_nil _ _))
        simpa using hall
  by_cases hne : ns = []
  · subst hne
    exact .nil
  · rw [implementsText_of_ne_nil hne, ← cons_append]
    exact (Continues.spaceName htop hspace (by decide)).append (hjoin hne)

theorem continues_spaced (htop : ∀ c, isDirectiveChar c → top c) (hspace : top ' ')
    (h : ∀ t ∈ directive, t.IsDirectives) : Continues top (Schemata.spaced directive) := by
  cases directive with
  | none => exact .nil
  | some t =>
    have ht := h t rfl
    rw [ht.row.spaced_eq]
    refine .ofSpace hspace (ht.nested.mono ?_) ht.isLine.spaced
    intro c hc
    rcases Bool.or_eq_true _ _ |>.mp hc with hc | hc
    · exact htop c hc
    · rw [beq_iff_eq.mp hc]
      exact hspace

/-- **The clauses of a block** are read back: its interfaces and its directives. -/
theorem parseClauses_clausesText (h : ∀ n ∈ ns, n.isName ∧ n ∉ clauseWords)
    (hdir : ∀ t ∈ directive, t.IsDirectives) (d : Declaration) :
    parseClauses d (clausesText ns directive) =
      .ok { d with directive, inherits := none, implements := (some ns).filter (!·.isEmpty) } := by
  have htop : ∀ c, isNameChar c → (c != '@') := fun _ hc => bne_of_class hc rfl
  have hnested := (continues_implementsText htop rfl rfl fun n hn => (h n hn).1).nested
  obtain ⟨gap, hgap, hcut⟩ := cutDirectives_append hnested fun t ht => (hdir t ht).row
  obtain ⟨hleading, hinherits, himplements⟩ := splitClauses_implementsText h hgap
  simp only [parseClauses, clausesText, hcut, bind, Except.bind, hleading, hinherits, himplements]
  rfl

/-! ### Unions -/

/-- The characters of the members of a union outside of brackets. -/
def isMemberChar (c : Char) : Bool :=
  isTypeChar c || isDirectiveChar c || c == ' '

def membersText (us : List TypeUse) : Text :=
  if us.isEmpty then [] else " = ".toList ++ Text.joinWith " | ".toList (us.map TypeUse.render)

theorem TypeUse.Legible.render {u : TypeUse} (h : u.Legible) :
    Nested isMemberChar [] (lex false u.render) ∧ Spaced false (lex false u.render) := by
  have hdir : Continues isMemberChar (spaced u.directive) :=
    continues_spaced (fun c hc => by simp [isMemberChar, hc]) rfl h.directive
  rw [TypeUse.render, lex_append h.resolved.nested.isQuiet hdir.start]
  exact ⟨(h.resolved.nested.mono fun c hc => by simp [isMemberChar, hc]).append hdir.nested,
    h.resolved.spaced.append hdir.spaced⟩

theorem useType_render {u : TypeUse} (h : u.Legible) (naming : Naming) :
    useType naming u.render none = pure u.plain := by
  have hnested : Nested (· != '@') [] (lex false u.resolved) :=
    h.resolved.nested.mono fun _ hc => bne_of_class hc rfl
  obtain ⟨gap, hgap, hcut⟩ := cutDirectives_append hnested h.readable.directive
  have hblank : ∀ c ∈ gap, isBlank c := by
    rcases hgap with rfl | rfl <;> exact forall_mem_of_all rfl
  refine (useType_of_cutDirectives h.resolved.plain hblank hcut naming rfl none).trans ?_
  rw [Option.or_none]
  rfl

theorem splitAt_members (hne : ts ≠ [])
    (h : ∀ t ∈ ts, Nested isMemberChar [] (lex false t) ∧ Spaced false (lex false t)) :
    splitAt (· == '|') (' ' :: joinWith " | ".toList ts) = .ok ts := by
  have htop : ∀ c, isMemberChar c → (c == '|') = false := fun _ hc => beq_of_class hc rfl
  have hspaces : ∀ s : Text, s = [] ∨ s = [' '] → ∀ c ∈ s, isBlank c := by
    rintro s (rfl | rfl) <;> exact forall_mem_of_all rfl
  -- one member after a space
  have hstep : ∀ {t : Text} (ms : List Lexeme), Nested isMemberChar [] (lex false t) →
      Lexeme.splitAt (· == '|') 0 (.char ' ' :: (lex false t ++ ms)) =
        prependHead (' ' :: t) <$> Lexeme.splitAt (· == '|') 0 ms := by
    intro t ms ht
    have := (@Nested.space _ isMemberChar rfl ht).splitAt htop ms
    rwa [raw_cons, raw_lex] at this
  induction ts with
  | nil => exact absurd rfl hne
  | cons t ts ih =>
    obtain ⟨⟨hn, hs⟩, hts⟩ := forall_mem_cons.mp h
    cases ts with
    | nil =>
      have hlast := hstep [] hn
      have htrim := trim_around (hspaces [' '] (.inr rfl)) (hspaces [] (.inl rfl)) hs
      rw [append_nil] at hlast
      rw [append_nil, singleton_append] at htrim
      rw [joinWith_singleton, splitAt, lex_cons_of_ne_quote (by decide), hlast]
      simp [Lexeme.splitAt, Functor.map, Except.map, prependHead, htrim]
    | cons s ts =>
      have hrest := ih (cons_ne_nil _ _) hts
      have htrim := trim_around (hspaces [' '] (.inr rfl)) (hspaces [' '] (.inr rfl)) hs
      rw [splitAt, lex_cons_of_ne_quote (by decide)] at hrest
      obtain ⟨qs, hq, hqs⟩ := map_eq_ok hrest
      have hbar : Lexeme.splitAt (· == '|') 0 (.char ' ' :: .char '|' :: .char ' ' ::
          lex false (joinWith " | ".toList (s :: ts))) = .ok ([' '] :: qs) := by
        rw [Lexeme.splitAt, if_neg (by decide), depthAfter_of_neither rfl rfl, Lexeme.splitAt,
          if_pos (by decide), hq]
        rfl
      rw [joinWith_cons_cons, splitAt, lex_cons_of_ne_quote (by decide), append_assoc,
        lex_append hn.isQuiet rfl, lex_append_chars (forall_mem_of_all rfl), hstep _ hn]
      change List.map trim <$> prependHead (' ' :: t) <$> Lexeme.splitAt (· == '|') 0
        (.char ' ' :: .char '|' :: .char ' ' :: lex false (joinWith " | ".toList (s :: ts))) = _
      rw [hbar]
      simp only [singleton_append] at htrim
      simp [Functor.map, Except.map, prependHead, htrim, hqs]

theorem nonEmpty_trim_spaced (h : ∀ t ∈ directive, t.IsDirectives) (hgap : gap = [] ∨ gap = [' ']) :
    nonEmpty (trim (spaced directive ++ gap)) = directive := by
  have hspaces : ∀ s : Text, s = [] ∨ s = [' '] → ∀ c ∈ s, isBlank c := by
    rintro s (rfl | rfl) <;> exact forall_mem_of_all rfl
  cases directive with
  | none => rcases hgap with rfl | rfl <;> rfl
  | some t =>
    have ht := h t rfl
    have htrim := trim_around (hspaces [' '] (.inr rfl)) (hspaces gap hgap) ht.isLine.spaced
    rw [singleton_append] at htrim
    rw [ht.row.spaced_eq, cons_append, htrim, nonEmpty,
      if_neg (by simpa using ht.isLine.spaced.ne_nil)]

/-- **The directives and members of a union** are read back. -/
theorem parseUnion_clauses {us : List TypeUse} (h : ∀ u ∈ us, u.Legible)
    (hdir : ∀ t ∈ directive, t.IsDirectives) (naming : Naming) (hd : d.parameters = none)
    (hm : d.members = none) : parseUnion naming d (spaced directive ++ membersText us) =
      pure { d with
        directive
        members := ((some us).filter (!·.isEmpty)).map (List.map TypeUse.plain) } := by
  have hcont : Continues (· != '=') (spaced directive) :=
    continues_spaced (fun _ hc => bne_of_class hc rfl) rfl hdir
  have htop : ∀ c : Char, (c != '=') → (c == '=') = false := by
    intro c hc
    simpa using hc
  by_cases hne : us = []
  · subst hne
    have htrim := nonEmpty_trim_spaced hdir (.inl rfl)
    rw [append_nil] at htrim
    rw [show membersText [] = [] from rfl, append_nil, parseUnion, cutAt_eq_none hcont.nested htop,
      ofExcept_ok, pure_bind]
    simp only [htrim]
    rw [show (Option.filter (fun us : List TypeUse => !us.isEmpty) (some [])).map
      (List.map TypeUse.plain) = none from rfl, ← hm]
  · have hgap : Nested (· != '=') [] (lex false (spaced directive ++ [' '])) := by
      rw [lex_append hcont.nested.isQuiet rfl, lex_cons_of_ne_quote (by decide), lex_nil]
      exact hcont.nested.append (.space rfl .nil)
    have hsplit : spaced directive ++ membersText us = spaced directive ++ [' '] ++
        '=' :: ' ' :: joinWith " | ".toList (us.map TypeUse.render) := by
      rw [membersText, if_neg (by simpa using hne)]
      simp
    have hparts : splitAt (· == '|') (' ' :: joinWith " | ".toList (us.map TypeUse.render)) =
        .ok (us.map TypeUse.render) := by
      refine splitAt_members (by simpa using hne) ?_
      intro t ht
      obtain ⟨u, hu, rfl⟩ := mem_map.mp ht
      exact (h u hu).render
    have hfilter : (us.map TypeUse.render).filter (!·.isEmpty) = us.map TypeUse.render := by
      rw [filter_eq_self]
      intro t ht
      obtain ⟨u, hu, rfl⟩ := mem_map.mp ht
      simpa using (h u hu).render.2.ne_nil
    have hmap : (us.map TypeUse.render).mapM (fun m => useType naming m none) =
        pure (us.map TypeUse.plain) := by
      clear hfilter hparts hsplit hgap hne
      induction us with
      | nil => rfl
      | cons u us ih =>
        obtain ⟨hu, hus⟩ := forall_mem_cons.mp h
        rw [map_cons, mapM_cons, useType_render hu, pure_bind, ih hus, pure_bind]
        rfl
    rw [parseUnion, hsplit, cutAt_eq_some hgap htop rfl (by decide), ofExcept_ok, pure_bind]
    simp only [tail_cons, hparts, ofExcept_ok, pure_bind, hfilter, hd, hmap,
      nonEmpty_trim_spaced hdir (.inr rfl)]
    simp [Option.filter, hne]

/-! ### Whole headers -/

/-- The characters of a header outside of brackets. -/
def isHeaderChar (c : Char) : Bool :=
  c != '\n' && c != '\x7b' && c != '<'

theorem isHeaderChar_of_isNameChar (h : isNameChar c) : isHeaderChar c := by
  simp [isHeaderChar, ne_of_class h (d := '\n') rfl, ne_of_class h (d := '\x7b') rfl,
    ne_of_class h (d := '<') rfl]

def Declaration.clauses (d : Declaration) : Text :=
  if d.kind.isBlock then clausesText (d.implements.getD []) d.directive
  else spaced d.directive ++ membersText (d.members.getD [])

theorem Declaration.Legible.header_eq (h : d.Legible) {l : Layout}
    (hl : l.separator = ", ".toList) :
    d.header l = opening d.isExtend d.kind ++ (nameText d ++ d.clauses) := by
  have hblock : ∀ ns ∈ d.implements, (d.kind == .union) = false := by
    intro ns hi
    rw [beq_eq_false_iff_ne]
    intro hk
    have := (h.implements ns hi).1
    rw [hk] at this
    cases this
  have hunion : ∀ us ∈ d.members, (d.kind == .union) := by
    intro us hm
    rw [beq_iff_eq]
    exact (h.members us hm).1
  have hparts : d.header l = opening d.isExtend d.kind ++ (nameText d ++
      (implementsText (d.implements.getD []) ++ spaced d.directive ++
        membersText (d.members.getD []))) := by
    unfold Declaration.header opening nameText
    rcases hi : d.implements with _ | _ | ⟨n, ns⟩ <;> rcases hm : d.members with _ | _ | ⟨u, us⟩ <;>
      simp only [implementsText, membersText, hl, Option.getD_none, Option.getD_some, isEmpty_nil,
        isEmpty_cons, Bool.false_eq_true, if_true, if_false, append_nil, nil_append, append_assoc]
    · simp only [hunion _ hm, if_true]
    · simp only [hunion _ hm, if_true]
    · simp only [hblock _ hi, Bool.false_eq_true, if_false, append_assoc]
    · simp only [hblock _ hi, Bool.false_eq_true, if_false, append_assoc]
    · have := hblock _ hi
      rw [hunion _ hm] at this
      cases this
  -- only a block has interfaces, and only a union has members
  have hclauses : implementsText (d.implements.getD []) ++ spaced d.directive ++
      membersText (d.members.getD []) = d.clauses := by
    rw [Declaration.clauses]
    split
    · rename_i hblock
      have hnone := h.members_eq_none (by rintro hk; rw [hk] at hblock; cases hblock)
      rw [hnone, clausesText]
      exact append_nil _
    · rename_i hblock
      rw [(h.of_not_isBlock ((Bool.not_eq_true _).mp hblock)).1]
      rfl
  rw [hparts, hclauses]

section Clauses

variable {d : Declaration}

theorem continues_nameText (h : d.Legible) : Continues isHeaderChar (nameText d) := by
  unfold nameText
  split
  · exact .nil
  · exact .spaceName (fun _ => isHeaderChar_of_isNameChar) rfl h.name.1

theorem isHeaderChar_of_isMemberChar (h : isMemberChar c) : isHeaderChar c := by
  simp only [isMemberChar, isTypeChar, isDirectiveChar, Bool.or_eq_true, beq_iff_eq] at h
  rcases h with (((h | rfl) | rfl) | (h | rfl) | rfl) | rfl
  · exact isHeaderChar_of_isNameChar h
  · rfl
  · rfl
  · exact isHeaderChar_of_isNameChar h
  · rfl
  · rfl
  · rfl

theorem continues_membersText {us : List TypeUse} (h : ∀ u ∈ us, u.Legible) :
    Continues isHeaderChar (membersText us) := by
  have hsign : ∀ c : Char, c = '=' ∨ c = '|' → Continues isHeaderChar [' ', c] := by
    intro c hc
    have hword : IsWord [c] := isWord_ofChars (by simp)
      (by rcases hc with rfl | rfl <;> exact forall_mem_of_all rfl)
    refine .ofSpace rfl ?_ hword.spaced
    rw [lex_of_not_quote (by rcases hc with rfl | rfl <;> decide)]
    exact Nested.ofChars (by rcases hc with rfl | rfl <;> exact forall_mem_of_all rfl)
  have hjoin : us ≠ [] →
      Continues isHeaderChar (' ' :: joinWith " | ".toList (us.map TypeUse.render)) := by
    intro hne
    induction us with
    | nil => exact absurd rfl hne
    | cons u us ih =>
      obtain ⟨hu, hus⟩ := forall_mem_cons.mp h
      have hmember : Continues isHeaderChar (' ' :: u.render) :=
        .ofSpace rfl (hu.render.1.mono fun _ => isHeaderChar_of_isMemberChar) hu.render.2
      cases us with
      | nil => exact hmember
      | cons v us =>
        have hall := (hmember.append (hsign '|' (.inr rfl))).append (ih hus (cons_ne_nil _ _))
        simpa using hall
  by_cases hne : us = []
  · subst hne
    exact .nil
  · have hall := (hsign '=' (.inl rfl)).append (hjoin hne)
    rw [membersText, if_neg (by simpa using hne)]
    simpa using hall

theorem continues_clauses (h : d.Legible) : Continues isHeaderChar d.clauses := by
  have hdir : Continues isHeaderChar (spaced d.directive) := by
    refine continues_spaced ?_ rfl fun t ht => (h.directive t ht).1
    intro c hc
    simp only [isDirectiveChar, Bool.or_eq_true, beq_iff_eq] at hc
    rcases hc with (hc | rfl) | rfl
    · exact isHeaderChar_of_isNameChar hc
    · rfl
    · rfl
  unfold Declaration.clauses
  split
  · refine Continues.append ?_ hdir
    exact continues_implementsText (fun _ => isHeaderChar_of_isNameChar) rfl rfl fun n hn =>
      (h.mem_implements hn).1
  · exact hdir.append (continues_membersText fun u hu => (h.mem_members hu).1)

theorem afterName_spaced (h : ∀ t ∈ directive, t.IsDirectives) : AfterName (spaced directive) := by
  cases directive with
  | none => exact .inl rfl
  | some t =>
    obtain ⟨s, rfl⟩ := (h t rfl).eq_cons
    exact .inr ⟨'@', s, rfl, rfl, by decide⟩

theorem afterName_clauses (h : d.Legible) : AfterName d.clauses := by
  have hdir := afterName_spaced fun t ht => (h.directive t ht).1
  unfold Declaration.clauses
  split
  · refine AfterName.append ?_ hdir
    by_cases hne : d.implements.getD [] = []
    · rw [hne]
      exact .inl rfl
    · rw [implementsText_of_ne_nil hne]
      exact .inr ⟨'i', _, rfl, rfl, by decide⟩
  · refine hdir.append ?_
    by_cases hne : d.members.getD [] = []
    · rw [hne]
      exact .inl rfl
    · rw [membersText, if_neg (by simpa using hne)]
      exact .inr ⟨'=', _, rfl, rfl, by decide⟩

theorem nested_header (h : d.Legible) (isExtend : Bool) :
    Nested isHeaderChar [] (lex false (opening isExtend d.kind ++ (nameText d ++ d.clauses))) ∧
      Spaced false (lex false (opening isExtend d.kind ++ (nameText d ++ d.clauses))) := by
  have hrest := (continues_nameText h).append (continues_clauses h)
  have hkeyword : d.kind.keyword.isName := by
    have : ∀ k ∈ Kind.declared, k.keyword.isName := by decide
    exact this _ h.kind
  have hopening : Continues isHeaderChar (opening isExtend d.kind) ∧
      Spaced false (lex false (opening isExtend d.kind)) := by
    unfold opening
    cases isExtend with
    | false =>
      exact ⟨.ofName (fun _ => isHeaderChar_of_isNameChar) hkeyword,
        (isWord_of_isName hkeyword).spaced⟩
    | true =>
      have hextend : Text.isName "extend".toList := rfl
      have hword : Continues isHeaderChar (' ' :: d.kind.keyword) :=
        .spaceName (fun _ => isHeaderChar_of_isNameChar) rfl hkeyword
      have hfirst : Continues isHeaderChar "extend".toList :=
        .ofName (fun _ => isHeaderChar_of_isNameChar) hextend
      change Continues isHeaderChar ("extend".toList ++ ' ' :: d.kind.keyword) ∧
        Spaced false (lex false ("extend".toList ++ ' ' :: d.kind.keyword))
      refine ⟨hfirst.append hword, ?_⟩
      rw [lex_append hfirst.nested.isQuiet rfl]
      exact (isWord_of_isName hextend).spaced.append hword.spaced
  rw [lex_append hopening.1.nested.isQuiet hrest.start]
  exact ⟨hopening.1.nested.append hrest.nested, hopening.2.append hrest.spaced⟩

theorem newline_not_mem_joinWith {separator : Text} (hs : '\n' ∉ separator)
    (h : ∀ t ∈ ts, '\n' ∉ t) : '\n' ∉ joinWith separator ts := by
  induction ts with
  | nil => exact not_mem_nil
  | cons t ts ih =>
    obtain ⟨ht, hts⟩ := forall_mem_cons.mp h
    cases ts with
    | nil => exact ht
    | cons s ts =>
      rw [joinWith_cons_cons]
      simp only [mem_append, not_or]
      exact ⟨⟨ht, hs⟩, ih hts⟩

theorem newline_not_mem_name (h : name.isName) : '\n' ∉ name :=
  fun hm => absurd (isNameChar_of_isName h _ hm) (by decide)

theorem newline_not_mem_spaced {t : Option Text} (h : ∀ s ∈ t, '\n' ∉ s) : '\n' ∉ spaced t := by
  rcases t with _ | _ | ⟨c, t⟩
  · exact not_mem_nil
  · exact not_mem_nil
  · simpa [spaced] using h _ rfl

theorem newline_not_mem_header (h : d.Legible) (isExtend : Bool) :
    '\n' ∉ opening isExtend d.kind ++ (nameText d ++ d.clauses) := by
  have hopening : ∀ b : Bool, ∀ k ∈ Kind.declared, '\n' ∉ opening b k := by decide
  have hname : '\n' ∉ nameText d := by
    unfold nameText
    split
    · exact not_mem_nil
    · simpa using newline_not_mem_name h.name.1
  have hdir := newline_not_mem_spaced fun t ht => (h.directive t ht).2
  have hclauses : '\n' ∉ d.clauses := by
    unfold Declaration.clauses clausesText implementsText membersText
    split
    · rw [mem_append, not_or]
      refine ⟨?_, hdir⟩
      split
      · exact not_mem_nil
      · rw [mem_append, not_or]
        refine ⟨by decide, newline_not_mem_joinWith (by decide) ?_⟩
        exact fun n hn => newline_not_mem_name (h.mem_implements hn).1
    · rw [mem_append, not_or]
      refine ⟨hdir, ?_⟩
      split
      · exact not_mem_nil
      · rw [mem_append, not_or]
        refine ⟨by decide, newline_not_mem_joinWith (by decide) ?_⟩
        intro t ht
        obtain ⟨u, hu, rfl⟩ := mem_map.mp ht
        obtain ⟨hlegible, hline⟩ := h.mem_members hu
        rw [TypeUse.render, mem_append, not_or]
        exact ⟨hlegible.resolved.not_mem rfl (by decide), newline_not_mem_spaced hline⟩
  simp only [mem_append, not_or]
  exact ⟨hopening isExtend _ h.kind, hname, hclauses⟩

/-! ### The last character of a union -/

theorem endsWith_append {u : Text} (ht : t.endsWith p = false) (hu : u.endsWith p = false) :
    endsWith p (t ++ u) = false := by
  unfold endsWith at ht hu ⊢
  rw [getLast?_append]
  cases hl : u.getLast? with
  | none => simpa [hl] using ht
  | some c => simpa [hl] using hu

theorem endsWith_joinWith {separator : Text} (hs : separator.endsWith p = false)
    (h : ∀ t ∈ ts, t.endsWith p = false) : endsWith p (joinWith separator ts) = false := by
  induction ts with
  | nil => rfl
  | cons t ts ih =>
    obtain ⟨ht, hts⟩ := forall_mem_cons.mp h
    cases ts with
    | nil => exact ht
    | cons s ts =>
      rw [joinWith_cons_cons]
      exact endsWith_append (endsWith_append ht hs) (ih hts)

/-- No sign that announces more stands at the end of a text that has none outside of brackets. -/
theorem Nested.endsWith (h : Nested top [] (lex false t)) (hp : ∀ c, top c → p c = false)
    (hother : ∀ c, isCloser c ∨ c = '"' → p c = false) : t.endsWith p = false := by
  by_cases hne : t = []
  · rw [hne]
    rfl
  · obtain ⟨c, hc, htop⟩ := h.getLast hne
    rw [Text.endsWith, hc]
    rcases htop with htop | hcloser
    · exact hp c htop
    · exact hother c hcloser

theorem endsWith_header (h : d.Legible) (hblock : d.kind.isBlock = false) (isExtend : Bool) :
    endsWith (fun c => c == '=' || c == '|')
      (opening isExtend d.kind ++ (nameText d ++ d.clauses)) = false := by
  have hother : ∀ c, isCloser c ∨ c = '"' → (c == '=' || c == '|') = false := by
    rintro c (hc | rfl)
    · rcases isCloser_iff.mp hc with rfl | rfl | rfl | rfl <;> rfl
    · rfl
  have hmember : ∀ c, isMemberChar c → (c == '=' || c == '|') = false := by
    intro c hc
    rw [Bool.or_eq_false_iff, beq_eq_false_iff_ne, beq_eq_false_iff_ne]
    constructor <;> rintro rfl <;> cases hc
  have hopening : ∀ b : Bool, ∀ k ∈ Kind.declared,
      endsWith (fun c => c == '=' || c == '|') (opening b k) = false := by decide
  have hname : endsWith (fun c => c == '=' || c == '|') (nameText d) = false := by
    unfold nameText
    split
    · rfl
    · have hchars : ∀ c, isNameChar c → isMemberChar c := by
        intro c hc
        simp [isMemberChar, isTypeChar, hc]
      exact (Continues.spaceName hchars rfl h.name.1).nested.endsWith hmember hother
  have hdir : endsWith (fun c => c == '=' || c == '|') (spaced d.directive) = false := by
    refine (continues_spaced ?_ rfl fun t ht => (h.directive t ht).1).nested.endsWith hmember hother
    exact fun c hc => by simp [isMemberChar, hc]
  have hmembers : endsWith (fun c => c == '=' || c == '|') (membersText (d.members.getD [])) =
      false := by
    unfold membersText
    split
    · rfl
    · refine endsWith_append rfl (endsWith_joinWith rfl ?_)
      intro t ht
      obtain ⟨u, hu, rfl⟩ := mem_map.mp ht
      exact (h.mem_members hu).1.render.1.endsWith hmember hother
  rw [Declaration.clauses, hblock, if_neg Bool.false_ne_true]
  exact endsWith_append (hopening _ _ h.kind)
    (endsWith_append hname (endsWith_append hdir hmembers))

end Clauses

end Schemata
