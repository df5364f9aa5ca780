import Schemata.Expansion
import Schemata.Proofs.Lines
import Schemata.Proofs.Run

/-!
# Schemas in writing

A schema in writing is a row of blocks with blank lines between them: definitions of directives,
then declarations.  Read again, the definitions are taken out whole, and what is left are the
fragments of the declarations.
-/

namespace Schemata

open Resolve List

variable {c : Char} {depth : Nat} {line t : Text}

/-! ### Reports -/

namespace Report

variable {α β : Type}

theorem outcome_bind {x : Report α} {a : α} (h : x.outcome = .ok a) (f : α → Report β) :
    (x >>= f).outcome = (f a).outcome := by
  change (andThen x f).outcome = _
  rw [andThen, h]

theorem log_bind {x : Report α} {a : α} (h : x.outcome = .ok a) (f : α → Report β) :
    (x >>= f).log = x.log ++ (f a).log := by
  change (andThen x f).log = _
  rw [andThen, h]

theorem log_bind_pure {x : Report α} {a : α} (h : x.outcome = .ok a) (f : α → β) :
    (x >>= fun a => pure (f a)).log = x.log :=
  (log_bind h _).trans (append_nil _)

theorem bind_eq_ok {x : Report α} {f : α → Report β} {b : β} :
    (x >>= f).outcome = .ok b ↔ ∃ a, x.outcome = .ok a ∧ (f a).outcome = .ok b := by
  change (andThen x f).outcome = .ok b ↔ _
  unfold andThen
  cases x.outcome with
  | ok a => simp
  | error e => simp

theorem ofExcept_eq_ok {r : Except SchemaError α} {a : α} :
    (ofExcept r).outcome = .ok a ↔ r = .ok a := by
  cases r with
  | ok b => simp [ofExcept]
  | error e => simp [ofExcept]

end Report

/-! ### Rows that are kept -/

/-- The row is no annotation, and its header can be read. -/
def Kept (r : Text × LineState) : Prop :=
  Unmarked r ∧ ∃ header, rowHeader r = .ok header

theorem trimStart_of_trim (h : line.trim = c :: t) :
    isBlank c = false ∧ ∃ u, line.trimStart = c :: u := by
  cases hd : line.dropWhile isBlank with
  | nil =>
    have hstart : line.trimStart = [] := hd
    rw [Text.trim, hstart] at h
    cases h
  | cons d u =>
    have hblank : isBlank d = false := by
      have hhead := head?_dropWhile_not isBlank line
      rw [hd] at hhead
      simpa using hhead
    obtain ⟨v, hv⟩ :=
      trim_append_cons (fun c hc => mem_takeWhile_imp hc : ∀ c ∈ line.takeWhile isBlank, _) hblank u
    rw [← hd, takeWhile_append_dropWhile, h] at hv
    cases hv
    exact ⟨hblank, u, hd⟩

theorem Header.read_of_trim (h : line.trim = c :: t) (hc : isNameChar c = false) :
    Header.read line = .ok none := by
  obtain ⟨hblank, u, hu⟩ := trimStart_of_trim h
  have hline := takeWhile_append_dropWhile (p := isBlank) (l := line)
  rw [← trimStart_eq_dropWhile, hu] at hline
  rw [← hline]
  exact Header.read_eq_none (fun c hc => mem_takeWhile_imp hc) hblank hc u

theorem Header.read_of_blank (h : line.trim = []) : Header.read line = .ok none := by
  have hstart : line.trimStart = [] := by
    rw [trim_eq_nil_iff] at h
    exact dropWhile_eq_nil_iff.mpr h
  have hkind : takeKind line = none := by
    simp only [takeKind, hstart]
    rfl
  rw [Header.read, hkind]
  rfl

theorem Header.read_of_passive
    (h : (line.trim.isEmpty || line.trim.startsWith fun c => c == '#' || c == '"')) :
    Header.read line = .ok none := by
  cases ht : line.trim with
  | nil => exact Header.read_of_blank ht
  | cons c t =>
    rw [ht, isEmpty_cons, Bool.false_or, startsWith_cons, Bool.or_eq_true, beq_iff_eq,
      beq_iff_eq] at h
    refine Header.read_of_trim ht ?_
    rcases h with rfl | rfl
    · rfl
    · rfl

/-- **The role of a line**: it is passive, a definition of a directive starts with it, it is an
annotation, or it is code. -/
theorem Section.start_cases (line : Text) (state : LineState) :
    ((state.inString || (line.trim.isEmpty || line.trim.startsWith fun c => c == '#' || c == '"')) ∧
      ∀ rest, Section.start line state rest = .passive line) ∨
    (state.inString = false ∧ state.depth = 0 ∧ ∃ name, directiveName? line.trim = some name ∧
      ∀ rest, Section.start line state rest = .definition name (takeDefinition [line] rest)) ∨
    (state.inString = false ∧ (state.depth = 0 → directiveName? line.trim = none) ∧
      ((∃ m, Mark.ofLine? line.trim = some m ∧ ∀ rest,
        Section.start line state rest = .mark line m) ∨
        (Mark.ofLine? line.trim = none ∧ ∀ rest,
          Section.start line state rest = .code line state.depth))) := by
  unfold Section.start
  by_cases hpassive : (state.inString || line.trim.isEmpty ||
      line.trim.startsWith fun c => c == '#' || c == '"')
  · exact .inl ⟨Bool.or_assoc _ _ _ ▸ hpassive, fun rest => if_pos hpassive⟩
  right
  have hout : state.inString = false := by
    cases hs : state.inString with
    | true => simp [hs] at hpassive
    | false => rfl
  simp only [if_neg hpassive]
  cases hname : if state.depth == 0 then directiveName? line.trim else none with
  | some name =>
    split_ifs at hname with hdepth
    exact .inl ⟨hout, beq_iff_eq.mp hdepth, name, hname, fun rest => rfl⟩
  | none =>
    have hnone : state.depth = 0 → directiveName? line.trim = none := by
      intro hdepth
      rwa [if_pos (beq_iff_eq.mpr hdepth)] at hname
    refine .inr ⟨hout, hnone, ?_⟩
    cases hmark : Mark.ofLine? line.trim with
    | some m => exact .inl ⟨m, rfl, fun rest => rfl⟩
    | none => exact .inr ⟨rfl, fun rest => rfl⟩

theorem Unmarked.start {state : LineState} (h : Unmarked (line, state)) (rest : List Text) :
    (Section.start line state rest = .passive line ∧ rowHeader (line, state) = .ok none) ∨
      (Section.start line state rest = .code line state.depth ∧
        rowHeader (line, state) = if state.depth == 0 then Header.read line else pure none) := by
  have hactive : state.inString = false → (state.depth = 0 → directiveName? line.trim = none) ∧
      Mark.ofLine? line.trim = none := by
    intro hout
    refine h.resolve_left fun hin => ?_
    rw [hout] at hin
    cases hin
  rcases Section.start_cases line state with ⟨hpassive, hstart⟩ | ⟨hout, hdepth, name, hname, -⟩ |
    ⟨hout, -, ⟨m, hmark, -⟩ | ⟨-, hstart⟩⟩
  · refine .inl ⟨hstart rest, ?_⟩
    rcases Bool.or_eq_true_iff.mp hpassive with hin | hline
    · exact rowHeader_of_inString hin
    · rw [rowHeader, Header.read_of_passive hline]
      exact ite_self _
  · rw [(hactive hout).1 hdepth] at hname
    cases hname
  · rw [(hactive hout).2] at hmark
    cases hmark
  · refine .inr ⟨hstart rest, ?_⟩
    rw [rowHeader, hout, Bool.not_false, Bool.and_true]

theorem sectionsFrom_cons {state : LineState} {rest : List (Text × LineState)} {s : Section}
    (h : Section.start line state (rest.map Prod.fst) = s) (hs : s.lines.length = 1) :
    sectionsFrom 0 ((line, state) :: rest) = s :: sectionsFrom 0 rest := by
  rw [sectionsFrom, h, hs]

theorem collect_code_eq (marks : List Mark) (parent : Option (Kind × Text)) (line : Text)
    (depth : Nat) (ss : List Section) : collect marks parent (.code line depth :: ss) = (do
      let header ← Report.ofExcept (if depth == 0 then Header.read line else pure none)
      let parent := (header.map fun h => (h.kind, h.name)).or parent
      let own ← annotate marks parent line depth header
      let e ← collect [] parent ss
      return ⟨line :: e.kept, own ++ e.annotations⟩) := by
  rw [collect]
  split
  · rfl
  · rfl

theorem collect_code_eq_ok {marks : List Mark} {parent : Option (Kind × Text)} {ss : List Section}
    {x : Extraction} :
    (collect marks parent (.code line depth :: ss)).outcome = .ok x ↔ ∃ header own e,
      (if depth == 0 then Header.read line else pure none) = .ok header ∧
      (annotate marks ((header.map fun h => (h.kind, h.name)).or parent) line depth
        header).outcome = .ok own ∧
      (collect [] ((header.map fun h => (h.kind, h.name)).or parent) ss).outcome = .ok e ∧
      ⟨line :: e.kept, own ++ e.annotations⟩ = x := by
  rw [collect_code_eq]
  constructor
  · intro h
    obtain ⟨header, hheader, h⟩ := Report.bind_eq_ok.mp h
    obtain ⟨own, hown, h⟩ := Report.bind_eq_ok.mp h
    obtain ⟨e, he, hx⟩ := Report.bind_eq_ok.mp h
    exact ⟨header, own, e, Report.ofExcept_eq_ok.mp hheader, hown, he, Except.ok.inj hx⟩
  · rintro ⟨header, own, e, hheader, hown, he, rfl⟩
    refine Report.bind_eq_ok.mpr ⟨header, Report.ofExcept_eq_ok.mpr hheader, ?_⟩
    exact Report.bind_eq_ok.mpr ⟨own, hown, Report.bind_eq_ok.mpr ⟨e, he, rfl⟩⟩

theorem collect_code {header : Option Header}
    (hread : (if depth == 0 then Header.read line else pure none) = .ok header) {e : Extraction}
    {ss : List Section} (h : ∀ parent, (collect [] parent ss).outcome = .ok e)
    (parent : Option (Kind × Text)) :
    (collect [] parent (.code line depth :: ss)).outcome = .ok { e with kept := line :: e.kept } :=
  collect_code_eq_ok.mpr ⟨header, [], e, hread, rfl, h _, rfl⟩

/-- **Rows without annotations are kept**, and nothing is extracted from them. -/
theorem collect_rows {rows : List (Text × LineState)} (h : ∀ r ∈ rows, Kept r)
    (parent : Option (Kind × Text)) :
    (collect [] parent (sectionsFrom 0 rows)).outcome = .ok ⟨rows.map Prod.fst, []⟩ := by
  induction rows generalizing parent with
  | nil => rfl
  | cons r rows ih =>
    obtain ⟨line, state⟩ := r
    obtain ⟨hr, hrows⟩ := forall_mem_cons.mp h
    obtain ⟨hunmarked, header, hheader⟩ := hr
    rcases hunmarked.start (rows.map Prod.fst) with ⟨hstart, -⟩ | ⟨hstart, hcode⟩
    · rw [sectionsFrom_cons hstart rfl, collect, Report.outcome_bind (ih hrows parent)]
      rfl
    · rw [sectionsFrom_cons hstart rfl, collect_code (hcode.symm.trans hheader) (ih hrows)]
      rfl

/-! ### Definitions of directives -/

/-- The number of braces that are open after lexemes, unless a literal is. -/
def finalDepth (depth : Nat) : List Lexeme → Option Nat
  | [] => some depth
  | .unclosed _ :: _ => none
  | .char c :: ls => finalDepth (bracesAfter depth c) ls
  | .literal _ :: ls | .comment _ :: ls => finalDepth depth ls

/-- The definition of a directive: its first line names the directive, it is complete with its last
line and not before, and it closes its literals and braces. -/
structure Text.IsDefinition (t : Text) : Prop where
  trimmed : t.trim = t
  closed : finalDepth 0 (lex true t) = some 0
  complete : ∃ first rest name, t.lines = first :: rest ∧ directiveName? first.trim = some name ∧
    takeDefinition [first] (rest ++ [[]]) = t.lines

theorem exists_finalDepth_iff {ls : List Lexeme} :
    (∃ after, finalDepth depth ls = some after) ↔ AllClosed ls := by
  fun_induction finalDepth depth ls with
  | case1 => simp [AllClosed.nil]
  | case2 => simp [allClosed_cons]
  | case3 _ _ _ ih | case4 _ _ _ ih | case5 _ _ _ ih => rw [ih, allClosed_cons]; simp

/-- A line break ends a line, and what follows it does not change how the text before it is read. -/
theorem lex_append_newline {after : Nat} (h : finalDepth depth (lex true t) = some after)
    (u : Text) : lex true (t ++ '\n' :: u) = lex true t ++ .char '\n' :: lex true u := by
  rw [lex_append_line (exists_finalDepth_iff.mp ⟨after, h⟩) (.inr ⟨u, rfl⟩),
    lex_cons (by decide) (by decide)]

theorem newline_not_mem_comment {c : Text} (h : Lexeme.comment c ∈ lex true t) : '\n' ∉ c := by
  induction t using lex_induction true with
  | nil => simp at h
  | char d u _ _ step ih =>
    rw [step] at h
    exact ih (by simpa using h)
  | literal s u _ now _ ih =>
    rw [now] at h
    exact ih (by simpa using h)
  | comment s u _ line _ now _ ih =>
    rw [now] at h
    rcases mem_cons.mp h with heq | h
    · cases heq
      simpa using line
    · exact ih h
  | unclosed u now =>
    rw [now] at h
    simp at h

theorem passesLines_of_finalDepth {ls : List Lexeme}
    (hcomments : ∀ c, Lexeme.comment c ∈ ls → '\n' ∉ c) {after : Nat}
    (h : finalDepth depth ls = some after) : PassesLines (fun _ => True) depth after ls := by
  fun_induction finalDepth depth ls with
  | case1 depth =>
    obtain rfl : depth = after := by simpa using h
    exact .nil
  | case2 => cases h
  | case3 depth c ls ih =>
    have hrest := ih (fun e he => hcomments e (mem_cons_of_mem _ he)) h
    by_cases hc : c = '\n'
    · subst hc
      exact (PassesLines.newline trivial).append hrest
    · exact (PassesLines.char hc).append hrest
  | case4 depth t ls ih =>
    exact (@PassesLines.literal (fun _ => True) depth trivial t).append
      (ih (fun e he => hcomments e (mem_cons_of_mem _ he)) h)
  | case5 depth t ls ih =>
    exact (PassesLines.comment (hcomments t mem_cons_self)).append
      (ih (fun e he => hcomments e (mem_cons_of_mem _ he)) h)

def nextLine (lines : List Text) : Text :=
  ((lines.map Text.trim).find? fun l => !l.isEmpty).getD []

theorem nextLine_append {lines : List Text} (h : line ∈ lines) (hline : line.trim ≠ [])
    (rest : List Text) : nextLine (lines ++ rest) = nextLine lines := by
  have hfind : ((lines.map Text.trim).find? fun l => !l.isEmpty).isSome := by
    rw [find?_isSome]
    refine ⟨line.trim, mem_map_of_mem h, ?_⟩
    simpa using hline
  obtain ⟨next, hnext⟩ := Option.isSome_iff_exists.mp hfind
  rw [nextLine, nextLine, map_append, List.find?_append, hnext, Option.some_or]

/-- Where a definition ends depends on what follows it only through a bar at the start of the next
line that is not blank. -/
theorem takeDefinition_append {taken more after : List Text}
    (h : takeDefinition taken (more ++ [[]]) = taken ++ more)
    (hlast : ∀ line ∈ more.getLast?, line.trim ≠ [])
    (hnext : (nextLine after).startsWith (· == '|') = false) :
    takeDefinition taken (more ++ after) = taken ++ more := by
  have hcomplete : ∀ taken rest rest', (nextLine rest).startsWith (· == '|') =
      (nextLine rest').startsWith (· == '|') → isCompleteDefinition taken rest =
        isCompleteDefinition taken rest' := by
    intro taken rest rest' heq
    simp only [nextLine] at heq
    simp only [isCompleteDefinition, heq]
  induction more generalizing taken with
  | nil =>
    have hdone : isCompleteDefinition taken [[]] := by
      cases hc : isCompleteDefinition taken [[]] with
      | true => rfl
      | false =>
        rw [nil_append, takeDefinition, hc, if_neg Bool.false_ne_true, takeDefinition] at h
        simp at h
    cases after with
    | nil => rw [append_nil, takeDefinition, append_nil]
    | cons a after =>
      rw [nil_append, takeDefinition, hcomplete taken (a :: after) [[]] hnext, hdone, if_pos rfl,
        append_nil]
  | cons line more ih =>
    -- a line that is not blank comes before what follows
    have hsome : ∀ rest, nextLine (line :: more ++ rest) = nextLine (line :: more) := by
      intro rest
      obtain ⟨l, hl⟩ : ∃ l, (line :: more).getLast? = some l := ⟨_, getLast?_cons⟩
      exact nextLine_append (mem_of_getLast? hl) (hlast l hl) rest
    have hopen : isCompleteDefinition taken (line :: more ++ [[]]) = false := by
      cases hc : isCompleteDefinition taken (line :: more ++ [[]]) with
      | false => rfl
      | true =>
        rw [cons_append] at hc h
        rw [takeDefinition, hc, if_pos rfl] at h
        simp at h
    have hopen' : isCompleteDefinition taken (line :: more ++ after) = false := by
      rw [← hopen]
      exact hcomplete _ _ _ (by rw [hsome, hsome])
    rw [cons_append] at h hopen hopen' ⊢
    rw [takeDefinition, hopen, if_neg Bool.false_ne_true] at h
    rw [takeDefinition, hopen', if_neg Bool.false_ne_true, ih (by rw [h]; simp) ?_]
    · simp
    · intro l hl
      refine hlast l ?_
      rw [getLast?_cons, hl]
      rfl

theorem nextLine_lines (hc : isBlank c = false) (t : Text) :
    ∃ u, nextLine (Text.lines (c :: t)) = c :: u := by
  obtain ⟨first, rest, hlines⟩ := exists_cons_of_ne_nil (lines_ne_nil t)
  have hcons : Text.lines ([c] ++ t) = ([c] ++ first) :: rest := by
    refine lines_append_cons ?_ hlines
    rintro hn
    obtain rfl : '\n' = c := by simpa using hn
    exact absurd hc (by decide)
  obtain ⟨u, hu⟩ := @trim_append_cons c [] (forall_mem_nil _) hc first
  rw [nil_append] at hu
  refine ⟨u, ?_⟩
  rw [singleton_append] at hcons
  rw [hcons, nextLine, map_cons, singleton_append, hu]
  rfl

theorem directiveName?_eq_cons {name : Text} (h : directiveName? t = some name) :
    ∃ u, t = 'd' :: u := by
  unfold directiveName? at h
  cases t with
  | nil => cases h
  | cons c t =>
    refine ⟨t, ?_⟩
    cases hc : ('d' == c) with
    | true => rw [beq_iff_eq.mp hc]
    | false =>
      have hafter : Text.after? "directive".toList (c :: t) = none := by
        change Text.after? ('d' :: "irective".toList) (c :: t) = none
        rw [Text.after?, hc]
        rfl
      rw [hafter] at h
      cases h

theorem sectionsFrom_skip (more rest : List (Text × LineState)) :
    sectionsFrom more.length (more ++ rest) = sectionsFrom 0 rest := by
  induction more with
  | nil => rfl
  | cons r more ih =>
    obtain ⟨line, state⟩ := r
    rw [length_cons, cons_append, sectionsFrom, ih]

namespace Text.IsDefinition

variable {t : Text}

theorem eq_cons (h : t.IsDefinition) : ∃ u, t = 'd' :: u := by
  obtain ⟨first, rest, name, hlines, hname, -⟩ := h.complete
  obtain ⟨u, hu⟩ := directiveName?_eq_cons hname
  have hnext : nextLine t.lines = 'd' :: u := by
    rw [hlines, nextLine, map_cons, hu]
    rfl
  cases t with
  | nil => cases hnext
  | cons c t =>
    have hblank : isBlank c = false := by
      have hhead := head?_dropWhile_not isBlank (c :: t)
      have hstart : Text.trimStart (c :: t) = c :: t := by
        have := trimStart_trim (c :: t)
        rwa [h.trimmed] at this
      rw [← trimStart_eq_dropWhile, hstart] at hhead
      simpa using hhead
    obtain ⟨v, hv⟩ := nextLine_lines hblank t
    rw [hnext, List.cons.injEq] at hv
    exact ⟨t, by rw [hv.1]⟩

theorem last_ne_nil (h : t.IsDefinition) : ∀ line ∈ t.lines.getLast?, line.trim ≠ [] := by
  obtain ⟨u, hu⟩ := h.eq_cons
  obtain ⟨c, hc⟩ : ∃ c, t.getLast? = some c := by
    rw [hu]
    exact ⟨_, getLast?_cons⟩
  have hblank : isBlank c = false := by
    cases hb : isBlank c with
    | false => rfl
    | true => exact absurd hc (getLast?_ne_of_trim h.trimmed hb)
  obtain ⟨last, hlast, hend⟩ :=
    exists_getLast_lines hc (by rintro rfl; exact absurd hblank (by decide))
  intro line hline hnil
  obtain rfl : last = line := by simpa [hlast] using hline
  rw [trim_eq_nil_iff] at hnil
  rw [hnil c (mem_of_getLast? hend)] at hblank
  cases hblank

/-- **A definition is a section of its own**, unless a bar follows it.  Its first line names it. -/
theorem sections_named (h : t.IsDefinition) {first name : Text} {rest : List Text}
    (hlines : t.lines = first :: rest) (hname : directiveName? first.trim = some name) :
    ∃ rows, LinesOf 0 0 (t ++ ['\n']) rows ∧
      ∀ rest, (nextLine (rest.map Prod.fst)).startsWith (· == '|') = false →
        sectionsFrom 0 (rows ++ rest) = .definition name t.lines :: sectionsFrom 0 rest := by
  obtain ⟨_, _, _, hlines', -, htake⟩ := h.complete
  obtain ⟨rfl, rfl⟩ := List.cons.inj (hlines.symm.trans hlines')
  have hpass := passesLines_of_finalDepth (fun c hc => newline_not_mem_comment hc) h.closed
  obtain ⟨line, more, hrows, -, hof⟩ := linesFrom_append hpass (lex_append_newline h.closed)
  rw [hlines, List.cons.injEq] at hrows
  obtain ⟨rfl, rfl⟩ := hrows
  refine ⟨(first, ⟨0, false⟩) :: more, fun u => by rw [append_assoc]; exact hof u, ?_⟩
  intro after hafter
  have hstart : Section.start first ⟨0, false⟩ ((more ++ after).map Prod.fst) =
      .definition name t.lines := by
    obtain ⟨u, hu⟩ := directiveName?_eq_cons hname
    have hrest : ∀ l ∈ (more.map Prod.fst).getLast?, l.trim ≠ [] := by
      intro l hl
      refine h.last_ne_nil l ?_
      rw [hlines, getLast?_cons, hl]
      rfl
    have htaken := takeDefinition_append (htake.trans hlines) hrest hafter
    have hactive : (false || first.trim.isEmpty ||
        first.trim.startsWith fun c => c == '#' || c == '"') = false := by
      rw [hu]
      rfl
    simp only [Section.start, hactive, Bool.false_eq_true, if_false, beq_self_eq_true,
      if_true, hname]
    rw [map_append, htaken, hlines]
    rfl
  rw [cons_append, sectionsFrom, hstart, Section.lines, hlines, length_cons, Nat.add_sub_cancel,
    length_map, sectionsFrom_skip]

end Text.IsDefinition

/-! ### Declarations -/

theorem map_fst_of_linesFrom {rows : List (Text × LineState)} (h : linesFrom depth t = .ok rows) :
    rows.map Prod.fst = t.lines := by
  unfold linesFrom at h
  cases hs : Lexeme.lineStates depth (lex true t) with
  | error e => rw [hs] at h; cases h
  | ok states =>
    rw [hs] at h
    obtain rfl := Except.ok.inj h
    exact map_fst_attachStates _ _

/-- The fragments of declarations are read as the declarations, and nothing is left but an event. -/
theorem gives_parseFragments {ds : List Declaration} (hds : ∀ d ∈ ds, d.Legible) (naming : Naming)
    {annotations : List Annotation} (hann : ∀ a ∈ annotations, a.kind = .directive) (c : Context) :
    Gives (parseFragments naming annotations (ds.map Declaration.fragment)) c
      (ds.map fun d => { d.plain with comments := none })
      { c with log := c.log ++ [.declarationsParsed ds.length] } := by
  have hparse : (ds.map Declaration.fragment).mapM (parseFragment naming annotations) =
      pure (ds.map fun d => { d.plain with comments := none }) := by
    induction ds with
    | nil => rfl
    | cons d ds ih =>
      obtain ⟨hd, hds⟩ := forall_mem_cons.mp hds
      rw [map_cons, mapM_cons, parseFragment_fragment hd naming hann, pure_bind, ih hds, pure_bind]
      rfl
  rw [parseFragments, hparse, pure_bind, length_map]
  simp

end Schemata
