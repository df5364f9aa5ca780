import Mathlib.Data.List.Flatten
import Schemata.Proofs.HeaderLines

/-!
# The parts of lists

A header lists names in its clauses, and a field lists its arguments.  Neither list is read with all
that stands in it.  Of a part of a clause, between commas and ampersands, only a name at its start
is recorded: `B` of `implements B C`.  Of an argument list everything is kept that stands in an
argument, but nothing that stands before the first one: the description of the first argument is
lost.
-/

namespace Schemata

open List

/-! ### The names of clauses -/

def Clause.word : Clause → Text
  | .inherits => "inherits".toList
  | .implements => "implements".toList

/-- The names that a declaration has from the clauses of one kind. -/
def Declaration.named (d : Declaration) : Clause → Option (List Text)
  | .inherits => d.inherits
  | .implements => d.implements

def isClauseSeparator (c : Char) : Bool :=
  c == ',' || c == '&'

def clauseParts (k : Clause) (clauses : List (Clause × Text)) : List Text :=
  (clauses.filter (·.1 == k)).flatMap fun p => p.2.splitBy isClauseSeparator

/-- The names in the clauses of one kind, wherever they stand. -/
def writtenNames (k : Clause) (clauses : List (Clause × Text)) : List Text :=
  (clauses.filter (·.1 == k)).flatMap (·.2.names)

/-- There is at most one name in a part of a clause, and it stands at the start. -/
def IsOneName (part : Text) : Prop :=
  part.names = [] ∨ part.names.length = 1 ∧ part.trim.startsWith isNameStart = true

/-- The name at the start of a part of a clause. -/
def leadingName (part : Text) : List Text :=
  ((Text.takeName part.trim).map Prod.fst).toList

theorem takeClause_eq_some {t rest : Text} {k : Clause} (h : takeClause t = some (k, rest)) :
    t = k.word ++ rest := by
  obtain ⟨⟨j, word⟩, hm, h⟩ := exists_of_findSome?_eq_some h
  obtain ⟨r, hr, h⟩ := Option.bind_eq_some_iff.mp h
  have hword : word = j.word := by
    rcases mem_pair.mp hm with heq | heq
    · cases heq
      rfl
    · cases heq
      rfl
  split_ifs at h
  cases h
  rw [after?_eq_some hr, hword]

/-- The clauses of a header, with their keywords and what stands before them, are the header. -/
theorem splitClauses_append (boundary : Bool) (t : Text) :
    t = (splitClauses boundary t).1 ++ (splitClauses boundary t).2.flatMap fun p =>
      p.1.word ++ p.2 := by
  fun_induction splitClauses boundary t with
  | case1 => rfl
  | case2 boundary c cs k rest htake text clauses hsplit ih =>
    rw [hsplit] at ih
    have htake : takeClause (c :: cs) = some (k, rest) := by
      split_ifs at htake
      exact htake
    rw [takeClause_eq_some htake, nil_append, flatMap_cons, append_assoc, ← ih]
  | case3 boundary c cs htake text clauses hsplit ih =>
    rw [hsplit] at ih
    rw [cons_append, ← ih]

theorem names_splitBy {p : Char → Bool} (hp : ∀ c, p c → isNameChar c = false) (t : Text) :
    t.names = (t.splitBy p).flatMap Text.names := by
  suffices h : ∀ (u : Text) {q : Text} {qs : List Text}, t.splitBy p = q :: qs →
      (u ++ t).names = (u ++ q).names ++ qs.flatMap Text.names by
    obtain ⟨q, qs, hq⟩ := exists_cons_of_ne_nil (splitBy_ne_nil p t)
    rw [hq]
    exact h [] hq
  induction t with
  | nil =>
    rintro u q qs ⟨⟩
    rw [flatMap_nil, append_nil, append_nil]
  | cons c t ih =>
    intro u q qs h
    obtain ⟨r, rs, hr⟩ := exists_cons_of_ne_nil (splitBy_ne_nil p t)
    rw [Text.splitBy, hr] at h
    split_ifs at h with hc
    · cases h
      rw [names_append_cons (hp c hc), append_nil, flatMap_cons]
      exact congrArg _ (ih [] hr)
    · cases h
      rw [append_cons u c t, append_cons u c r]
      exact ih (u ++ [c]) hr

theorem leadingName_eq (part : Text) :
    leadingName part = if part.trim.startsWith isNameStart then part.names.take 1 else [] := by
  rw [leadingName, ← names_trim]
  cases part.trim with
  | nil => rfl
  | cons c t =>
    rw [startsWith_cons, Text.takeName]
    split_ifs with hc
    · rw [Text.names, Text.pieces, if_pos hc]
      rfl
    · rfl

theorem leadingName_sublist (part : Text) : (leadingName part).Sublist part.names := by
  rw [leadingName_eq]
  split_ifs
  · exact take_sublist _ _
  · exact nil_sublist _

theorem leadingName_eq_names_iff (part : Text) :
    leadingName part = part.names ↔ IsOneName part := by
  rw [leadingName_eq, IsOneName]
  cases part.names with
  | nil => simp
  | cons n ns => split_ifs with h <;> simp [h, eq_comm]

theorem flatMap_eq_iff_of_sublist {α β : Type} {f g : α → List β} (h : ∀ a, (f a).Sublist (g a))
    {l : List α} : l.flatMap f = l.flatMap g ↔ ∀ a ∈ l, f a = g a := by
  induction l with
  | nil => simp
  | cons a l ih =>
    have hsub : (l.flatMap f).Sublist (l.flatMap g) := .flatMap_right l fun a _ => h a
    rw [flatMap_cons, flatMap_cons, forall_mem_cons, ← ih]
    refine ⟨fun heq => ?_, fun heq => by rw [heq.1, heq.2]⟩
    have hlength := congrArg List.length heq
    rw [length_append, length_append] at hlength
    have := (h a).length_le
    have := hsub.length_le
    exact ⟨(h a).eq_of_length (by omega), hsub.eq_of_length (by omega)⟩

theorem writtenNames_eq (k : Clause) (clauses : List (Clause × Text)) :
    writtenNames k clauses = (clauseParts k clauses).flatMap Text.names := by
  have hseparator : ∀ c, isClauseSeparator c → isNameChar c = false := by
    intro c hc
    rcases (by simpa [isClauseSeparator] using hc : c = ',' ∨ c = '&') with rfl | rfl
    · rfl
    · rfl
  rw [writtenNames, clauseParts, flatMap_assoc]
  exact flatMap_congr fun p _ => names_splitBy hseparator p.2

theorem namesIn_getD (k : Clause) (clauses : List (Clause × Text)) :
    (namesIn k clauses).getD [] = (clauseParts k clauses).flatMap leadingName := by
  have hnames : ∀ t, clauseNames t = (t.splitBy isClauseSeparator).flatMap leadingName := fun t =>
    filterMap_eq_flatMap_toList ..
  rw [clauseParts, flatMap_assoc, namesIn]
  split
  · rename_i hnil
    rw [hnil]
    rfl
  · exact flatMap_congr fun p _ => hnames p.2

/-- The names of clauses are among those in them, and all of them if every part has at most one. -/
theorem namesIn_writtenNames (k : Clause) (clauses : List (Clause × Text)) :
    ((namesIn k clauses).getD []).Sublist (writtenNames k clauses) ∧
      ((namesIn k clauses).getD [] = writtenNames k clauses ↔ ∀ part ∈ clauseParts k clauses,
        IsOneName part) := by
  rw [namesIn_getD, writtenNames_eq, flatMap_eq_iff_of_sublist leadingName_sublist]
  exact ⟨.flatMap_right _ fun part _ => leadingName_sublist part,
    forall₂_congr fun part _ => leadingName_eq_names_iff part⟩

/-- **The names of clauses are those at the start of their parts.**  A header with clauses is read
if only white space stands before them.  The names recorded for one kind of clause are among the
names in these clauses, in order, and they are all of them exactly if every part between commas and
ampersands has at most one name, at its start. -/
theorem parseClauses_names {d d' : Declaration} {rest : Text} (h : parseClauses d rest = .ok d') :
    ∃ header leading clauses, cutDirectives rest = .ok (header, d'.directive) ∧
      splitClauses true header = (leading, clauses) ∧ Text.trim leading = [] ∧
      header = leading ++ clauses.flatMap (fun p => p.1.word ++ p.2) ∧
      ∀ k, ((d'.named k).getD []).Sublist (writtenNames k clauses) ∧
        ((d'.named k).getD [] = writtenNames k clauses ↔ ∀ part ∈ clauseParts k clauses,
          IsOneName part) := by
  unfold parseClauses at h
  obtain ⟨⟨header, directive⟩, hcut, h⟩ := bind_eq_ok.mp h
  have happend := splitClauses_append true header
  rcases hsplit : splitClauses true header with ⟨leading, clauses⟩
  simp only [hsplit] at h happend
  split_ifs at h with hblank
  cases h
  refine ⟨header, leading, clauses, hcut, hsplit, List.isEmpty_iff.mp hblank, happend, fun k => ?_⟩
  have hnames := namesIn_writtenNames k clauses
  cases k with
  | inherits => exact hnames
  | implements => exact hnames

/-- A clause in which a name follows another one. -/
def twoNames : Text :=
  " implements B C".toList

theorem exists_parseClauses_twoNames :
    ∃ d', parseClauses { kind := .type, name := "A".toList } twoNames = .ok d' ∧
      d'.named .implements = some ["B".toList] := by
  have hmap : (parseClauses { kind := .type, name := "A".toList } twoNames).map
      (·.named .implements) = .ok (some ["B".toList]) := by decide +kernel
  exact map_eq_ok hmap

theorem parseClauses_names_twoNames : ∃ d' leading clauses,
    parseClauses { kind := .type, name := "A".toList } twoNames = .ok d' ∧
      splitClauses true twoNames = (leading, clauses) ∧
        ((d'.named .implements).getD []).Sublist (writtenNames .implements clauses) := by
  obtain ⟨d', hd', -⟩ := exists_parseClauses_twoNames
  obtain ⟨header, leading, clauses, hcut, hsplit, -, -, hnames⟩ := parseClauses_names hd'
  have hheader : (cutDirectives twoNames).map Prod.fst = .ok twoNames := by decide +kernel
  rw [hcut] at hheader
  cases hheader
  exact ⟨d', leading, clauses, hd', hsplit, (hnames .implements).1⟩

/-- The second name is lost. -/
theorem not_recorded_secondName : ¬ ∀ d d' rest, parseClauses d rest = .ok d' → '@' ∉ rest →
    (d'.named .implements).getD [] = writtenNames .implements (splitClauses true rest).2 := by
  intro hall
  obtain ⟨d', hd', hnamed⟩ := exists_parseClauses_twoNames
  have hwritten : writtenNames .implements (splitClauses true twoNames).2 =
      ["B".toList, "C".toList] := by
    decide +kernel
  have hlost := hall _ _ _ hd' (by decide)
  rw [hnamed, hwritten] at hlost
  cases hlost

/-! ### The pieces of argument lists -/

theorem enclosed_lex {t : Text} (h : AllClosed (lex false t)) : Enclosed (lex false t) := by
  induction t using lex_induction false with
  | nil =>
    rw [lex_nil]
    exact fun l hl => absurd hl not_mem_nil
  | char c u _ _ step ih =>
    rw [step, allClosed_cons] at h
    rw [step]
    exact forall_mem_cons.mpr ⟨.inl ⟨c, rfl⟩, ih h.2⟩
  | literal s u taken now _ ih =>
    rw [now, allClosed_cons] at h
    rw [now]
    exact forall_mem_cons.mpr ⟨.inr ⟨⟨s, rfl⟩, takeLiteral_getLast taken⟩, ih h.2⟩
  | comment s u hcomments _ _ _ _ _ => cases hcomments
  | unclosed u now =>
    rw [now, allClosed_cons] at h
    exact absurd rfl (h.1 _)

/-- Whether a lexeme is more than white space or a comma between arguments. -/
def Lexeme.isSolid : Lexeme → Bool
  | .char c => !(isBlank c || c == ',')
  | _ => true

/-- A text without the white space and commas outside of its literals. -/
def solid (t : Text) : Text :=
  raw ((lex false t).filter Lexeme.isSolid)

/-- What stands before the first argument of an argument list. -/
def leadingText (t : Text) : Text :=
  match argumentPieces true 0 (lex false t) with
  | .ok (leading :: _ :: _) => leading
  | _ => []

/-- The pieces are stretches of the lexemes, and all but the first start with a name. -/
def IsStretched (ls : List Lexeme) (ps : List Text) : Prop :=
  AllClosed ls ∧ ∃ (first : List Lexeme) (later : List (List Lexeme)), first ++ later.flatten = ls ∧
    ps = raw first :: later.map raw ∧ ∀ ms ∈ later, ∃ c ms', ms = .char c :: ms' ∧
      isNameStart c = true

theorem IsStretched.cons {ls : List Lexeme} {ps : List Text} (h : IsStretched ls ps) {l : Lexeme}
    (hl : ∀ s, l ≠ .unclosed s) : IsStretched (l :: ls) (prependHead l.text ps) := by
  obtain ⟨hclosed, first, later, rfl, rfl, hlater⟩ := h
  exact ⟨.cons hl hclosed, l :: first, later, rfl, rfl, hlater⟩

theorem isStretched_argumentPieces {boundary : Bool} {depth : Int} {ls : List Lexeme}
    {ps : List Text} (h : argumentPieces boundary depth ls = .ok ps) : IsStretched ls ps := by
  induction ls generalizing boundary depth ps with
  | nil =>
    cases h
    exact ⟨.nil, [], [], rfl, rfl, forall_mem_nil _⟩
  | cons l ls ih =>
    cases l with
    | unclosed s => cases h
    | literal s | comment s =>
      obtain ⟨qs, hqs, rfl⟩ := map_eq_ok h
      exact (ih hqs).cons (by simp)
    | char c =>
      obtain ⟨qs, hqs, h⟩ := bind_eq_ok.mp h
      split_ifs at h with hstart
      · cases h
        obtain ⟨hclosed, first, later, rfl, rfl, hlater⟩ := ih hqs
        simp only [startsArgument, Bool.and_eq_true] at hstart
        exact ⟨.cons (by simp) hclosed, [], (.char c :: first) :: later, rfl, rfl,
          forall_mem_cons.mpr ⟨⟨c, first, rfl, hstart.2.1⟩, hlater⟩⟩
      · cases h
        exact (ih hqs).cons (by simp)

theorem filter_isSolid_map_char {w : Text} (h : ∀ c ∈ w, isBlank c ∨ c = ',') :
    (w.map .char).filter Lexeme.isSolid = [] := by
  rw [filter_eq_nil_iff]
  rintro l hl
  obtain ⟨c, hc, rfl⟩ := mem_map.mp hl
  rcases h c hc with hb | rfl
  · simp [Lexeme.isSolid, hb]
  · decide

namespace Enclosed

variable {ls : List Lexeme}

theorem exists_trim (h : Enclosed ls) : ∃ ms, ms <:+: ls ∧
    ms.filter Lexeme.isSolid = ls.filter Lexeme.isSolid ∧ (raw ls).trim = raw ms := by
  obtain ⟨w, ms, rfl, hw, hstart⟩ := h.exists_dropWhile (rfl : isBlank '"' = false)
  obtain ⟨ks, v, rfl, hv, hend⟩ :=
    (h.mono (subset_append_right _ _)).exists_dropEndWhile (rfl : isBlank '"' = false)
  refine ⟨ks, ⟨_, _, append_assoc ..⟩, ?_, ?_⟩
  · rw [filter_append, filter_append, filter_isSolid_map_char fun c hc => .inl (hw c hc),
      filter_isSolid_map_char fun c hc => .inl (hv c hc), nil_append, append_nil]
  · rw [Text.trim, trimStart_eq_dropWhile, hstart]
    exact hend

theorem exists_cleanArgument (h : Enclosed ls) : ∃ ms, ms <:+: ls ∧
    ms.filter Lexeme.isSolid = ls.filter Lexeme.isSolid ∧ cleanArgument (raw ls) = raw ms := by
  obtain ⟨ms, hms, hfilter, htrim⟩ := h.exists_trim
  have hms' := h.mono hms.subset
  obtain ⟨ks, w, rfl, hw, hdrop⟩ := hms'.exists_dropEndWhile (p := (· == ',')) rfl
  obtain ⟨js, hjs, hfilter', htrim'⟩ := (hms'.mono (subset_append_left _ _)).exists_trim
  refine ⟨js, (hjs.trans (prefix_append _ _).isInfix).trans hms, ?_, ?_⟩
  · rw [hfilter', ← hfilter, filter_append,
      filter_isSolid_map_char fun c hc => .inr (beq_iff_eq.mp (hw c hc)), append_nil]
  · rw [cleanArgument, htrim, hdrop, htrim']

end Enclosed

theorem lex_raw_infix {t : Text} {ms : List Lexeme} (h : AllClosed (lex false t))
    (hms : ms <:+: lex false t) : lex false (raw ms) = ms := by
  obtain ⟨p, q, hpq⟩ := hms
  rw [append_assoc] at hpq
  refine lex_raw_left (lex_raw_right hpq.symm) fun s hs => h s ?_
  rw [← hpq]
  simp [hs]

theorem solid_trim {t : Text} (h : AllClosed (lex false t)) : solid t.trim = solid t := by
  obtain ⟨ms, hms, hfilter, htrim⟩ := (enclosed_lex h).exists_trim
  rw [raw_lex] at htrim
  rw [solid, solid, htrim, lex_raw_infix h hms, hfilter]

theorem startsWith_quote_of_filter {c : Char} (hc : isNameStart c) {ks ms : List Lexeme}
    (h : ks.filter Lexeme.isSolid = (.char c :: ms).filter Lexeme.isSolid) (t : Text) :
    Text.startsWith (· == '"') (raw ks ++ t) = false := by
  have hchar := isNameChar_of_isNameStart hc
  have hblank : isBlank c = false := by
    rw [Bool.eq_false_iff]
    intro hb
    rw [isNameChar_of_isBlank hb] at hchar
    cases hchar
  have hsolid : Lexeme.isSolid (.char c) := by
    simp [Lexeme.isSolid, hblank, ne_of_class hchar (d := ',') rfl]
  rw [filter_cons_of_pos hsolid] at h
  cases ks with
  | nil => cases h
  | cons l ks =>
    by_cases hl : l.isSolid
    · rw [filter_cons_of_pos hl] at h
      obtain ⟨rfl, -⟩ := List.cons.inj h
      simp [Lexeme.text, Text.startsWith, ne_of_class hchar (d := '"') rfl]
    · cases l with
      | char d =>
        have hd : d ≠ '"' := by
          rintro rfl
          exact hl (by decide)
        simp [Lexeme.text, Text.startsWith, hd]
      | _ => exact absurd rfl hl

theorem solid_flatten_cleanArgument {t : Text} (h : AllClosed (lex false t))
    {later : List (List Lexeme)} (hlater : later.flatten <:+: lex false t)
    (hname : ∀ ms ∈ later, ∃ c ms', ms = .char c :: ms' ∧ isNameStart c) :
    Text.startsWith (· == '"') ((later.map raw).map cleanArgument).flatten = false ∧
      solid ((later.map raw).map cleanArgument).flatten =
        raw (later.flatten.filter Lexeme.isSolid) := by
  induction later with
  | nil => exact ⟨rfl, by rw [solid, map_nil, map_nil, flatten_nil, lex_nil]; rfl⟩
  | cons ms later ih =>
    obtain ⟨⟨c, ms', rfl, hc⟩, htail⟩ := forall_mem_cons.mp hname
    rw [flatten_cons] at hlater
    obtain ⟨hquote, hsolid⟩ := ih ((suffix_append _ _).isInfix.trans hlater) htail
    have hms := (prefix_append _ _).isInfix.trans hlater
    obtain ⟨ks, hks, hfilter, hclean⟩ := ((enclosed_lex h).mono hms.subset).exists_cleanArgument
    have hlex := lex_raw_infix h (hks.trans hms)
    have hclosed : AllClosed (lex false (raw ks)) := by
      rw [hlex]
      exact fun s hs => h s ((hks.trans hms).subset hs)
    rw [map_cons, map_cons, flatten_cons, hclean]
    refine ⟨startsWith_quote_of_filter hc hfilter _, ?_⟩
    rw [solid] at hsolid ⊢
    rw [lex_append_of_allClosed hclosed hquote (by simp), filter_append, raw_append, hsolid, hlex,
      hfilter, flatten_cons, filter_append, raw_append]

/-- **The arguments of a list are the list without what stands before the first one**, up to white
space and commas outside of literals.  So nothing else is lost, and nothing at all exactly if only
white space and commas stand there. -/
theorem splitArguments_solid {t : Text} {ps : List Text} (h : splitArguments t = .ok ps) :
    solid t = solid (leadingText t) ++ solid ps.flatten ∧
      (solid ps.flatten = solid t ↔ solid (leadingText t) = []) := by
  suffices hsolid : solid t = solid (leadingText t) ++ solid ps.flatten by
    rw [hsolid, List.self_eq_append_left]
    exact ⟨rfl, Iff.rfl⟩
  unfold splitArguments at h
  obtain ⟨qs, hqs, h⟩ := bind_eq_ok.mp h
  obtain ⟨hclosed, first, later, happend, rfl, hname⟩ := isStretched_argumentPieces hqs
  cases later with
  | nil =>
    have hleading : leadingText t = [] := by
      rw [leadingText, hqs]
      rfl
    have hflatten : ps.flatten = t.trim := by
      cases h
      split_ifs with hempty
      · exact (List.isEmpty_iff.mp hempty).symm
      · simp
    rw [hleading, hflatten, solid_trim hclosed, solid, solid, lex_nil]
    rfl
  | cons ms later =>
    have hleading : leadingText t = raw first := by
      rw [leadingText, hqs]
      rfl
    cases h
    have hsuffix : (ms :: later).flatten <:+: lex false t :=
      ⟨first, [], by rw [List.append_nil, happend]⟩
    have hfirst : lex false (raw first) = first :=
      lex_raw_infix hclosed ⟨[], (ms :: later).flatten, happend⟩
    rw [hleading, ← List.map_cons (f := raw), (solid_flatten_cleanArgument hclosed hsuffix hname).2,
      solid, solid, hfirst, ← raw_append, ← List.filter_append, happend]

/-- A description before the first argument of a list. -/
def describedArgument : Text :=
  "\"The id.\" id: ID".toList

theorem splitArguments_solid_described :
    solid describedArgument = solid (leadingText describedArgument) ++
      solid ["id: ID".toList].flatten := by
  have hsplit : splitArguments describedArgument = .ok ["id: ID".toList] := by decide +kernel
  exact (splitArguments_solid hsplit).1

/-- The description is lost. -/
theorem not_kept_described : ¬ ∀ t ps, splitArguments t = .ok ps → solid ps.flatten = solid t := by
  intro hall
  have hsplit : splitArguments describedArgument = .ok ["id: ID".toList] := by decide +kernel
  have hlost : solid ["id: ID".toList].flatten ≠ solid describedArgument := by decide +kernel
  exact hlost (hall _ _ hsplit)

end Schemata
