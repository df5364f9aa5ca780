import Schemata.Proofs.Definitions
import Schemata.Proofs.HeaderLines

/-!
# Headers among definitions of directives

Definitions of directives are taken out of a schema line by line.  A definition ends with the first
line at which its parentheses are closed, its locations are named and no bar says that more of them
follow.  For this its text is looked at as it stands, literals and comments included.  A definition
that is whole when they are left aside ends before the next header, unless one of them leaves a
parenthesis open or puts a bar at the end; and then every header of the schema is kept.

## Main results

* `isCompleteDefinition_of_isWhole` — a whole definition that hides nothing is complete.
* `divides_sectionsFrom` — the rows of a schema fall into its sections.
* `headers_sublist_sections` — definitions that end before the next header take none of them with
  them.
* `definitions_take_no_header` — **every header of a schema is kept** when its definitions are taken
  out.
-/

namespace Schemata

open List

variable {rows : List (Text × LineState)} {ss : List Section}

/-! ### Literals and comments left aside -/

/-- What is left of a lexeme when literals and comments are not looked into. -/
def Lexeme.sign : Lexeme → Char
  | .char c => c
  | .literal _ | .unclosed _ => '"'
  | .comment _ => '#'

/-- A literal or comment opens no more parentheses than it closes. -/
def Lexeme.ClosesOwn : Lexeme → Prop
  | .char _ => True
  | .literal s | .unclosed s | .comment s => s.count '(' ≤ s.count ')'

instance (l : Lexeme) : Decidable l.ClosesOwn := by
  unfold Lexeme.ClosesOwn
  split <;> infer_instance

theorem Lexeme.eq_char_of_sign {l : Lexeme} {c : Char} (h : l.sign = c) (hquote : c ≠ '"')
    (hhash : c ≠ '#') : l = .char c := by
  cases l with
  | char d => exact congrArg Lexeme.char h
  | literal s => exact absurd h.symm hquote
  | unclosed s => exact absurd h.symm hquote
  | comment s => exact absurd h.symm hhash

theorem count_raw_le {ls : List Lexeme} (h : ∀ l ∈ ls, l.ClosesOwn) :
    (raw ls).count '(' + (ls.map Lexeme.sign).count ')' ≤
      (raw ls).count ')' + (ls.map Lexeme.sign).count '(' := by
  induction ls with
  | nil => exact le_rfl
  | cons l ls ih =>
    obtain ⟨hl, hls⟩ := forall_mem_cons.mp h
    have hrest := ih hls
    rw [raw_cons, map_cons, count_append, count_append, count_cons, count_cons]
    cases l with
    | char c =>
      rw [Lexeme.text, Lexeme.sign, count_singleton, count_singleton]
      omega
    | literal s | unclosed s | comment s =>
      have hown : s.count '(' ≤ s.count ')' := hl
      rw [Lexeme.text, Lexeme.sign, if_neg (by decide), if_neg (by decide)]
      omega

/-! ### Where locations are named -/

theorem namesLocations_append_right {t : Text} (h : namesLocations false t) (boundary : Bool)
    (s : Text) : namesLocations boundary (s ++ t) := by
  induction s generalizing boundary with
  | nil =>
    cases t with
    | nil => cases h
    | cons c t =>
      rw [namesLocations_cons, Bool.false_and, Bool.false_and, Bool.false_or] at h
      rw [nil_append, namesLocations_cons, h, Bool.or_true]
  | cons c s ih => rw [cons_append, namesLocations_cons, ih, Bool.or_true]

theorem endsOn_raw {ls : List Lexeme} (h : endsOn (ls.map Lexeme.sign)) : endsOn (raw ls) := by
  unfold endsOn at h
  split at h
  · rename_i b l _ heq
    rw [Bool.and_eq_true] at h
    obtain ⟨l₁, ls₁, rfl, h₁, heq⟩ := map_eq_cons_iff.mp heq
    obtain ⟨l₂, ls₂, rfl, h₂, heq⟩ := map_eq_cons_iff.mp heq
    obtain ⟨l₃, ls₃, rfl, h₃, -⟩ := map_eq_cons_iff.mp heq
    have hb := ne_quote_hash (p := isBlank) rfl rfl h.1
    have hl := ne_quote_hash (p := isLocationChar) rfl rfl h.2
    rw [Lexeme.eq_char_of_sign h₁ (by decide) (by decide), Lexeme.eq_char_of_sign h₂ hb.1 hb.2,
      Lexeme.eq_char_of_sign h₃ hl.1 hl.2]
    exact Bool.and_eq_true _ _ ▸ h
  · cases h

theorem namesLocations_sign {c : Char} (hc : c = '"' ∨ c = '#') (boundary : Bool) (t : Text) :
    namesLocations boundary (c :: t) = namesLocations false t := by
  have hword : (c == 'o') = false ∧ (c == ')' || isBlank c) = false := by
    rcases hc with rfl | rfl
    · exact ⟨rfl, rfl⟩
    · exact ⟨rfl, rfl⟩
  rw [namesLocations_cons, hword.1, hword.2, Bool.and_false, Bool.false_and, Bool.false_or]

/-- Locations that are named outside of literals and comments are named in the text. -/
theorem namesLocations_raw {boundary : Bool} {ls : List Lexeme}
    (h : namesLocations boundary (ls.map Lexeme.sign)) : namesLocations boundary (raw ls) := by
  induction ls generalizing boundary with
  | nil => cases h
  | cons l ls ih =>
    rw [map_cons] at h
    rw [raw_cons]
    cases l with
    | char c =>
      rw [Lexeme.sign, namesLocations_cons, Bool.or_eq_true, Bool.and_eq_true] at h
      rw [Lexeme.text, singleton_append, namesLocations_cons, Bool.or_eq_true, Bool.and_eq_true]
      exact h.imp (And.imp_right endsOn_raw) ih
    | literal s | unclosed s =>
      rw [Lexeme.sign, namesLocations_sign (.inl rfl)] at h
      exact namesLocations_append_right (ih h) boundary s
    | comment s =>
      rw [Lexeme.sign, namesLocations_sign (.inr rfl)] at h
      exact namesLocations_append_right (ih h) boundary s

/-! ### Definitions that are whole -/

/-- The lines are a definition with all its parts, the lines `rest` following it.  Literals and
comments are not looked into. -/
structure IsWholeDefinition (lines rest : List Text) : Prop where
  parentheses : ((lex true (Text.ofLines lines)).map Lexeme.sign).count '(' ≤
    ((lex true (Text.ofLines lines)).map Lexeme.sign).count ')'
  locations : namesLocations true ((lex true (Text.ofLines lines)).map Lexeme.sign) = true
  bar : Text.endsWith (· == '|')
    (Text.trimEnd ((lex true (Text.ofLines lines)).map Lexeme.sign)) = false
  next : (nextLine rest).startsWith (· == '|') = false

instance (lines rest : List Text) : Decidable (IsWholeDefinition lines rest) :=
  decidable_of_iff (_ ∧ _ ∧ _ ∧ _)
    ⟨fun h => ⟨h.1, h.2.1, h.2.2.1, h.2.2.2⟩, fun h => ⟨h.parentheses, h.locations, h.bar, h.next⟩⟩

/-- Literals and comments do not change where the definition ends: none opens more parentheses than
it closes, and no bar stands at the end of the last comment. -/
structure HidesNothing (lines : List Text) : Prop where
  parentheses : ∀ l ∈ lex true (Text.ofLines lines), l.ClosesOwn
  bar : (Text.ofLines lines).trimEnd.endsWith (· == '|') = false

instance (lines : List Text) : Decidable (HidesNothing lines) :=
  decidable_of_iff (_ ∧ _) ⟨fun h => ⟨h.1, h.2⟩, fun h => ⟨h.parentheses, h.bar⟩⟩

/-- **A whole definition that hides nothing is complete.** -/
theorem isCompleteDefinition_of_isWhole {lines rest : List Text} (h : IsWholeDefinition lines rest)
    (hhides : HidesNothing lines) : isCompleteDefinition lines rest := by
  have hcount := count_raw_le hhides.parentheses
  have hnames := namesLocations_raw h.locations
  have hnext := h.next
  have hsigns := h.parentheses
  rw [raw_lex] at hcount hnames
  unfold nextLine at hnext
  have hle : decide ((Text.ofLines lines).count '(' ≤ (Text.ofLines lines).count ')') :=
    decide_eq_true (by omega)
  simp only [isCompleteDefinition, hle, hnames, hhides.bar, hnext, Bool.not_false, Bool.and_self]

/-! ### The roles of lines -/

def holdsHeader (r : Text × LineState) : Bool :=
  (rowHeader r).toOption.join.isSome

theorem holdsHeader_eq_false {r : Text × LineState} (h : Header.read r.1 = .ok none) :
    holdsHeader r = false := by
  rw [holdsHeader, rowHeader, h]
  split
  · rfl
  · rfl

/-- A definition of a directive starts with the row. -/
def OpensDefinition (r : Text × LineState) : Prop :=
  r.2.depth = 0 ∧ r.2.inString = false ∧ (directiveName? r.1.trim).isSome = true

instance (r : Text × LineState) : Decidable (OpensDefinition r) :=
  inferInstanceAs (Decidable (_ ∧ _))

theorem Header.read_of_directiveName? {line name : Text}
    (h : directiveName? line.trim = some name) : Header.read line = .ok none := by
  obtain ⟨t, ht⟩ := directiveName?_eq_cons h
  obtain ⟨-, u, hu⟩ := trimStart_of_trim ht
  have hkind : takeKind line = none := by
    simp only [takeKind, hu]
    rfl
  rw [Header.read, hkind]
  rfl

theorem Header.read_of_mark {line : Text} {m : Mark} (h : Mark.ofLine? line.trim = some m) :
    Header.read line = .ok none := by
  unfold Mark.ofLine? at h
  split at h
  · rename_i hline
    exact Header.read_of_trim hline rfl
  · cases h

def Section.keptLines : Section → List Text
  | .passive line | .code line _ => [line]
  | .definition _ _ | .mark _ _ => []

theorem kept_of_collect {marks : List Mark} {parent : Option (Kind × Text)} {x : Extraction}
    (h : (collect marks parent ss).outcome = .ok x) : x.kept = ss.flatMap Section.keptLines := by
  induction ss generalizing marks parent x with
  | nil =>
    rw [collect] at h
    obtain ⟨_, -, h⟩ := Report.bind_eq_ok.mp h
    cases h
    rfl
  | cons s ss ih =>
    rw [flatMap_cons]
    cases s with
    | passive line | definition name lines =>
      rw [collect] at h
      obtain ⟨e, he, h⟩ := Report.bind_eq_ok.mp h
      cases h
      rw [← ih he]
      rfl
    | mark line m =>
      rw [collect] at h
      exact ih h
    | code line depth =>
      obtain ⟨header, own, e, -, -, he, rfl⟩ := collect_code_eq_ok.mp h
      rw [← ih he]
      rfl

/-! ### The rows of a section -/

/-- The row stands between an annotation and its target: it starts inside a literal or with one, or
it is blank, or a comment. -/
def IsPassive (line : Text) (state : LineState) : Prop :=
  state.inString = true ∨ line.trim = [] ∨ ∃ c t, line.trim = c :: t ∧ (c = '#' ∨ c = '"')

/-- A definition of which `taken` has been read goes on with `more`, up to the first line with which
it is complete, or to the last line of all. -/
def EndsDefinition (taken more rest : List Text) : Prop :=
  (∀ n < more.length, isCompleteDefinition (taken ++ more.take n) (more.drop n ++ rest) = false) ∧
    (isCompleteDefinition (taken ++ more) rest = true ∨ rest = [])

/-- Rows fall into sections, one after the other and each of its own kind. -/
inductive Divides : List (Text × LineState) → List Section → Prop where
  | nil : Divides [] []
  | passive {line state rows ss} (h : IsPassive line state) (hrest : Divides rows ss) :
      Divides ((line, state) :: rows) (.passive line :: ss)
  | definition {line state name more rows ss} (h : ¬IsPassive line state) (hdepth : state.depth = 0)
      (hname : directiveName? line.trim = some name)
      (hend : EndsDefinition [line] (more.map Prod.fst) (rows.map Prod.fst))
      (hrest : Divides rows ss) :
      Divides ((line, state) :: (more ++ rows)) (.definition name (line :: more.map Prod.fst) :: ss)
  | mark {line state m rows ss} (h : ¬IsPassive line state)
      (hname : state.depth = 0 → directiveName? line.trim = none)
      (hmark : Mark.ofLine? line.trim = some m)
      (hrest : Divides rows ss) : Divides ((line, state) :: rows) (.mark line m :: ss)
  | code {line state rows ss} (h : ¬IsPassive line state)
      (hname : state.depth = 0 → directiveName? line.trim = none)
      (hmark : Mark.ofLine? line.trim = none)
      (hrest : Divides rows ss) : Divides ((line, state) :: rows) (.code line state.depth :: ss)

theorem Divides.flatMap_lines (h : Divides rows ss) :
    ss.flatMap Section.lines = rows.map Prod.fst := by
  induction h with
  | nil => rfl
  | passive _ _ ih | mark _ _ _ _ ih | code _ _ _ _ ih =>
    rw [flatMap_cons, ih]
    rfl
  | definition _ _ _ _ _ ih =>
    rw [flatMap_cons, ih, map_cons, map_append]
    rfl

theorem isPassive_iff {line : Text} {state : LineState} : IsPassive line state ↔
    (state.inString ||
      (line.trim.isEmpty || line.trim.startsWith fun c => c == '#' || c == '"')) := by
  unfold IsPassive
  cases line.trim with
  | nil => simp
  | cons c t => simp [Text.startsWith]

theorem inString_eq_false {line : Text} {state : LineState} (h : ¬IsPassive line state) :
    state.inString = false := by
  simpa using fun hin => h (.inl hin)

theorem not_isPassive {line : Text} {state : LineState} {rest : List Text} {s : Section}
    (h : Section.start line state rest = s) (hs : s ≠ .passive line) : ¬IsPassive line state := by
  intro hp
  refine hs (h.symm.trans (if_pos ?_))
  rw [Bool.or_assoc]
  exact isPassive_iff.mp hp

theorem exists_takeDefinition (taken lines : List Text) :
    ∃ more rest, lines = more ++ rest ∧ takeDefinition taken lines = taken ++ more ∧
      EndsDefinition taken more rest := by
  induction lines generalizing taken with
  | nil => exact ⟨[], [], rfl, (append_nil taken).symm, fun n hn => absurd hn (Nat.not_lt_zero n),
      .inr rfl⟩
  | cons line lines ih =>
    rw [takeDefinition]
    split
    · rename_i hcomplete
      refine ⟨[], line :: lines, rfl, (append_nil taken).symm,
        fun n hn => absurd hn (Nat.not_lt_zero n), .inl ?_⟩
      rwa [append_nil]
    · rename_i hopen
      obtain ⟨more, rest, rfl, htaken, hopens, hends⟩ := ih (taken ++ [line])
      rw [append_assoc] at htaken hends
      refine ⟨line :: more, rest, rfl, htaken, fun n hn => ?_, hends⟩
      cases n with
      | zero => simpa using hopen
      | succ n => simpa using hopens n (Nat.lt_of_succ_lt_succ hn)

/-- **The rows of a schema fall into its sections.** -/
theorem divides_sectionsFrom (rows : List (Text × LineState)) :
    Divides rows (sectionsFrom 0 rows) := by
  -- on the number of rows, since a definition passes over several of them
  induction hn : rows.length using Nat.strong_induction_on generalizing rows with
  | _ n ih =>
    subst hn
    cases rows with
    | nil => exact .nil
    | cons r rows =>
      obtain ⟨line, state⟩ := r
      have hrest := ih rows.length (Nat.lt_succ_self _) rows rfl
      rcases Section.start_cases line state with ⟨hpassive, hstart⟩ | ⟨-, hdepth, name, hname,
        hstart⟩ | ⟨-, hname, ⟨m, hmark, hstart⟩ | ⟨hmark, hstart⟩⟩
      · rw [sectionsFrom_cons (hstart _) rfl]
        exact .passive (isPassive_iff.mpr hpassive) hrest
      · obtain ⟨taken, lines, hlines, htaken, hend⟩ :=
          exists_takeDefinition [line] (rows.map Prod.fst)
        obtain ⟨more, rest, rfl, rfl, rfl⟩ := map_eq_append_iff.mp hlines
        have hsections : sectionsFrom 0 ((line, state) :: (more ++ rest)) =
            .definition name (line :: more.map Prod.fst) :: sectionsFrom 0 rest := by
          rw [sectionsFrom, hstart, htaken, ← sectionsFrom_skip more rest]
          simp [Section.lines]
        rw [hsections]
        exact .definition (not_isPassive (hstart []) (by simp)) hdepth hname hend
          (ih rest.length (by simp only [length_cons, length_append]; omega) rest rfl)
      · rw [sectionsFrom_cons (hstart _) rfl]
        exact .mark (not_isPassive (hstart []) (by simp)) hname hmark hrest
      · rw [sectionsFrom_cons (hstart _) rfl]
        exact .code (not_isPassive (hstart []) (by simp)) hname hmark hrest

theorem Divides.kept_sublist (h : Divides rows ss) :
    (ss.flatMap Section.keptLines).Sublist (rows.map Prod.fst) := by
  induction h with
  | nil => exact Sublist.refl []
  | passive _ _ ih | code _ _ _ _ ih => exact ih.cons_cons _
  | mark _ _ _ _ ih => exact ih.cons _
  | definition _ _ _ _ _ ih =>
    rw [map_cons, map_append]
    exact (ih.trans (sublist_append_right _ _)).cons _

/-! ### Definitions and the headers after them -/

/-- Every definition of a directive ends before the next header: the lines up to there satisfy `p`,
with the lines that follow them. -/
def DefinitionsEnd (p : List Text → List Text → Prop) : List (Text × LineState) → Prop
  | [] => True
  | r :: rest =>
      (OpensDefinition r → ∃ n ≤ rest.length, (∀ m ∈ rest.take n, holdsHeader m = false) ∧
        p (r.1 :: (rest.take n).map Prod.fst) ((rest.drop n).map Prod.fst)) ∧
      DefinitionsEnd p rest

instance DefinitionsEnd.decidable (p : List Text → List Text → Prop)
    [∀ lines rest, Decidable (p lines rest)] :
    (rows : List (Text × LineState)) → Decidable (DefinitionsEnd p rows)
  | [] => isTrue trivial
  | _ :: rest =>
      have := DefinitionsEnd.decidable p rest
      inferInstanceAs (Decidable (_ ∧ _))

namespace DefinitionsEnd

variable {p q : List Text → List Text → Prop} {rows : List (Text × LineState)}

theorem imp (hpq : ∀ lines rest, p lines rest → q lines rest) (h : DefinitionsEnd p rows) :
    DefinitionsEnd q rows := by
  induction rows with
  | nil => trivial
  | cons r rows ih =>
    refine ⟨fun hopens => ?_, ih h.2⟩
    obtain ⟨n, hn, hheaders, hp⟩ := h.1 hopens
    exact ⟨n, hn, hheaders, hpq _ _ hp⟩

theorem drop (h : DefinitionsEnd p rows) (n : Nat) : DefinitionsEnd p (rows.drop n) := by
  induction n generalizing rows with
  | zero => exact h
  | succ n ih =>
    cases rows with
    | nil => exact h
    | cons r rows => exact ih h.2

end DefinitionsEnd

/-- **Definitions that end before the next header take none with them.** -/
theorem headers_sublist_sections (hss : Divides rows ss)
    (h : DefinitionsEnd (fun lines rest => isCompleteDefinition lines rest) rows) :
    ((rows.filter holdsHeader).map Prod.fst).Sublist (ss.flatMap Section.keptLines) := by
  induction hss with
  | nil => exact nil_sublist _
  | passive _ _ ih | code _ _ _ _ ih =>
    rw [flatMap_cons, filter_cons]
    split
    · exact (ih h.2).cons_cons _
    · exact (ih h.2).cons _
  | @mark line state m rows ss _ _ hmark _ ih =>
    have hnone := holdsHeader_eq_false (r := (line, state)) (Header.read_of_mark hmark)
    rw [filter_cons_of_neg (by simpa using hnone)]
    exact ih h.2
  | @definition line state name more rows ss hactive hdepth hname hend _ ih =>
    have hnone := holdsHeader_eq_false (r := (line, state)) (Header.read_of_directiveName? hname)
    obtain ⟨n, hn, hheaders, hcomplete⟩ :=
      h.1 ⟨hdepth, inString_eq_false hactive, by simp [hname]⟩
    -- the definition was not complete before its last line
    have hmore : more.length ≤ n := by
      by_contra hlt
      have hopen := hend.1 n (by simpa using hlt)
      simp [take_append_of_le_length, drop_append_of_le_length,
        Nat.le_of_not_le hlt] at hcomplete hopen
      rw [hcomplete] at hopen
      cases hopen
    have hfilter : more.filter holdsHeader = [] := by
      rw [filter_eq_nil_iff]
      intro r hr
      rw [hheaders r ?_]
      · exact Bool.false_ne_true
      · rw [take_append, take_of_length_le hmore]
        exact mem_append_left _ hr
    have hrest := h.2.drop more.length
    rw [drop_left] at hrest
    rw [filter_cons_of_neg (by simpa using hnone), filter_append, hfilter]
    exact ih hrest

/-- **Taking out definitions takes out no header.**  If every definition of a directive is whole
before the next header, and its literals and comments hide nothing, then the lines of all headers
are lines of what is left, in their order.  What is left are lines of the schema. -/
theorem definitions_take_no_header {t : Text} {rows : List (Text × LineState)} {x : Extraction}
    (hrows : linesWithStates t = .ok rows) (hx : (extract t).outcome = .ok x)
    (h : DefinitionsEnd (fun lines rest => IsWholeDefinition lines rest ∧
      HidesNothing lines) rows) :
    ((rows.filter holdsHeader).map Prod.fst).Sublist x.plain.lines ∧ x.kept.Sublist t.lines := by
  have hkept := kept_of_collect ((extract_eq_ok_iff hrows).mp hx)
  have hdivides := divides_sectionsFrom rows
  have hheaders := headers_sublist_sections hdivides
    (h.imp fun _ _ hp => isCompleteDefinition_of_isWhole hp.1 hp.2)
  have hlines := hdivides.kept_sublist
  rw [← hkept] at hheaders hlines
  rw [map_fst_of_linesFrom (linesWithStates_eq t ▸ hrows)] at hlines
  refine ⟨?_, hlines⟩
  rcases eq_or_ne x.kept [] with hnil | hne
  · rw [hnil] at hheaders
    rw [List.sublist_nil.mp hheaders]
    exact List.nil_sublist _
  · rw [Extraction.plain, lines_ofLines hne fun line hline =>
      newline_not_mem_of_mem_lines (hlines.subset hline)]
    exact hheaders

/-- A schema with two definitions, one of them over several lines with parentheses in a literal and
a comment. -/
def definitionsAndHeaders : Text :=
  ("directive @a(x: Int = \"()\" # (1)\n" ++
    ") on OBJECT\n" ++
    "  | ENUM\n" ++
    "@b\n" ++
    "enum E \x7b A \x7d\n" ++
    "directive @c on FIELD\n" ++
    "scalar D").toList

theorem definitions_take_no_header_definitionsAndHeaders :
    ∃ rows x, linesWithStates definitionsAndHeaders = .ok rows ∧
      (extract definitionsAndHeaders).outcome = .ok x ∧
      DefinitionsEnd (fun lines rest => IsWholeDefinition lines rest ∧ HidesNothing lines) rows ∧
      (rows.filter holdsHeader).map Prod.fst = ["enum E \x7b A \x7d".toList, "scalar D".toList] ∧
      x.annotations.length = 3 ∧ ((rows.filter holdsHeader).map Prod.fst).Sublist x.plain.lines ∧
      x.kept.Sublist definitionsAndHeaders.lines := by
  have hlines : ∃ rows, linesWithStates definitionsAndHeaders = .ok rows ∧
      DefinitionsEnd (fun lines rest => IsWholeDefinition lines rest ∧ HidesNothing lines) rows ∧
      (rows.filter holdsHeader).map Prod.fst =
        ["enum E \x7b A \x7d".toList, "scalar D".toList] := by
    decide +kernel
  have hextract : ∃ x, (extract definitionsAndHeaders).outcome = .ok x ∧
      x.annotations.length = 3 := by
    decide +kernel
  obtain ⟨rows, hrows, hends, hheaders⟩ := hlines
  obtain ⟨x, hx, hlength⟩ := hextract
  exact ⟨rows, x, hrows, hx, hends, hheaders, hlength, definitions_take_no_header hrows hx hends⟩

/-- A definition with a parenthesis in the default of its argument. -/
def hidingDefinition : Text :=
  "directive @a(x: String = \"(\") on OBJECT\ntype A \x7b a: A \x7d".toList

/-- A definition that is whole before the next header, and takes the header with it. -/
theorem not_keeps_hidingDefinition :
    ∃ rows x, linesWithStates hidingDefinition = .ok rows ∧
      (extract hidingDefinition).outcome = .ok x ∧ DefinitionsEnd IsWholeDefinition rows ∧
      (rows.filter holdsHeader).map Prod.fst = ["type A \x7b a: A \x7d".toList] ∧
      "type A \x7b a: A \x7d".toList ∉ x.plain.lines := by
  have hlines : ∃ rows, linesWithStates hidingDefinition = .ok rows ∧
    DefinitionsEnd IsWholeDefinition rows ∧
      (rows.filter holdsHeader).map Prod.fst = ["type A \x7b a: A \x7d".toList] := by
    decide +kernel
  have hextract : ∃ x, (extract hidingDefinition).outcome = .ok x ∧
      "type A \x7b a: A \x7d".toList ∉ x.plain.lines := by
    decide +kernel
  obtain ⟨rows, hrows, hends, hheaders⟩ := hlines
  obtain ⟨x, hx, hlost⟩ := hextract
  exact ⟨rows, x, hrows, hx, hends, hheaders, hlost⟩

end Schemata
