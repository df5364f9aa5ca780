import Schemata.Proofs.HeaderRows

/-!
# Comments and their declarations

The comments of a declaration are the run of comment lines right above it.  They are found by its
line and given to it by its kind, name and `extend`, which several extensions may share: all of them
get the comments of the first one that has any.
-/

namespace Schemata

open List
open Resolve (Gives)
open Declaration (heading)

variable {rows : List (Text × LineState)}

/-! ### Runs of comments -/

/-- Whether a row is a comment, outside of literals. -/
def isCommentRow (r : Text × LineState) : Bool :=
  !r.2.inString && r.1.trim.startsWith (· == '#')

def isBlankRow (r : Text × LineState) : Bool :=
  r.1.trim.isEmpty

/-- The comment lines right above a line, from the nearest to the farthest; `above` are the rows
above it, the nearest first.  Blank lines do not end the run. -/
def commentRun (above : List (Text × LineState)) : List Text :=
  ((above.takeWhile fun r => isCommentRow r || isBlankRow r).filter isCommentRow).map (·.1.trim)

def runText : List Text → Option Text
  | [] => none
  | run => some (Text.ofLines run.reverse)

/-- The comments right above the row with a number. -/
def commentsAbove (rows : List (Text × LineState)) (k : Nat) : Option Text :=
  runText (commentRun (rows.take k).reverse)

/-- The comments right above each declaration. -/
def ownComments (t : Text) (rows : List (Text × LineState)) : List (Option Text) :=
  (declaredTexts t).map fun u => commentsAbove rows (rowOf t u)

/-- The rows that start in a literal do not look like comments: one that does is taken for a comment
of the header below it, though it is a line of a description. -/
def NoCommentInLiterals (rows : List (Text × LineState)) : Prop :=
  ∀ r ∈ rows, r.2.inString = true → r.1.trim.startsWith (· == '#') = false

instance (rows : List (Text × LineState)) : Decidable (NoCommentInLiterals rows) :=
  inferInstanceAs (Decidable (∀ _ ∈ _, _))

theorem takeComments_eq_commentRun {above : List (Text × LineState)}
    (h : NoCommentInLiterals above) : takeComments (above.map Prod.fst) = commentRun above := by
  induction above with
  | nil => rfl
  | cons r above ih =>
    obtain ⟨hr, habove⟩ := forall_mem_cons.mp h
    have hcomment : isCommentRow r = r.1.trim.startsWith (· == '#') := by
      unfold isCommentRow
      cases hin : r.2.inString with
      | true => rw [hr hin]; rfl
      | false => rfl
    have hrest := ih habove
    unfold commentRun at hrest ⊢
    rw [map_cons, takeComments, takeWhile_cons]
    cases hhash : r.1.trim.startsWith (· == '#') with
    | true =>
      rw [hhash] at hcomment
      simp only [hcomment, Bool.true_or, if_true, filter_cons_of_pos, map_cons, hrest]
    | false =>
      rw [hhash] at hcomment
      have hempty : isBlankRow r = r.1.trim.isEmpty := rfl
      rw [hcomment, hempty, Bool.false_or, if_neg Bool.false_ne_true]
      by_cases hblank : r.1.trim.isEmpty
      · rw [if_pos hblank, if_pos hblank,
          filter_cons_of_neg (by rw [hcomment]; exact Bool.false_ne_true), hrest]
      · rw [if_neg hblank, if_neg hblank]
        rfl

/-- The comment block of a text and a header. -/
def Header.block (h : Header) (text : Text) : CommentBlock :=
  ⟨text, h.kind, h.name, h.isExtend⟩

theorem commentBlock?_eq (h : NoCommentInLiterals rows) (k : Nat) (g : Header) :
    commentBlock? ((rows.take k).map Prod.fst).reverse g = (commentsAbove rows k).map g.block := by
  have habove : NoCommentInLiterals (rows.take k).reverse := fun r hr =>
    h r (mem_of_mem_take (mem_reverse.mp hr))
  unfold commentBlock? commentsAbove
  rw [← map_reverse, takeComments_eq_commentRun habove]
  cases commentRun (rows.take k).reverse <;> rfl

theorem commentBlocks_eq_filterMap {front : List (Text × LineState)} {blocks : List CommentBlock}
    (h : commentBlocks (front.map Prod.fst).reverse rows = .ok blocks) :
    blocks = (headersFrom front.length rows).filterMap fun p =>
      commentBlock? (((front ++ rows).take p.1).map Prod.fst).reverse p.2 := by
  induction rows generalizing front blocks with
  | nil =>
    cases h
    rfl
  | cons r rows ih =>
    have hsplit : front ++ r :: rows = (front ++ [r]) ++ rows := by simp
    have hfront : r.1 :: (front.map Prod.fst).reverse = ((front ++ [r]).map Prod.fst).reverse := by
      simp
    have hlength : (front ++ [r]).length = front.length + 1 := by simp
    obtain ⟨header, hheader⟩ := exists_commentBlocks_iff.mp ⟨blocks, h⟩ r mem_cons_self
    rw [commentBlocks_cons hheader, hfront] at h
    obtain ⟨more, hmore, rfl⟩ := map_eq_ok h
    have hrest := ih hmore
    rw [hlength, ← hsplit] at hrest
    cases header with
    | none =>
      rw [headersFrom_none (by rw [hheader]; simp), ← hrest]
      rfl
    | some g =>
      rw [headersFrom_some hheader, filterMap_cons, ← hrest, take_left, Option.bind_some]
      cases commentBlock? (front.map Prod.fst).reverse g <;> rfl

/-! ### Schemas from which nothing is taken out -/

theorem exists_rowHeader_of_kept {ss : List Section} (hss : Divides rows ss) {marks : List Mark}
    {parent : Option (Kind × Text)} {x : Extraction}
    (hx : (collect marks parent ss).outcome = .ok x) (hlength : x.kept.length = rows.length) :
    ∀ r ∈ rows, ∃ header, rowHeader r = .ok header := by
  induction hss generalizing marks parent x with
  | nil => exact forall_mem_nil _
  | @passive line state rows ss hpassive _ ih =>
    have hnone : rowHeader (line, state) = .ok none := by
      rcases Bool.or_eq_true_iff.mp (isPassive_iff.mp hpassive) with hin | hline
      · exact rowHeader_of_inString hin
      · rw [rowHeader, Header.read_of_passive hline]
        exact ite_self _
    rw [collect] at hx
    obtain ⟨e, he, hx⟩ := Report.bind_eq_ok.mp hx
    cases hx
    exact forall_mem_cons.mpr ⟨⟨none, hnone⟩, ih he (Nat.succ.inj hlength)⟩
  | definition _ _ _ _ hrest _ | mark _ _ _ hrest _ =>
    -- a section that is not kept leaves fewer lines than there are rows
    have hle := hrest.kept_sublist.length_le
    rw [kept_of_collect hx] at hlength
    simp [Section.keptLines] at hlength hle
    omega
  | code hactive _ _ _ ih =>
    obtain ⟨header, own, e, hheader, -, he, rfl⟩ := collect_code_eq_ok.mp hx
    refine forall_mem_cons.mpr ⟨⟨header, ?_⟩, ih he (Nat.succ.inj hlength)⟩
    rw [rowHeader, inString_eq_false hactive, Bool.not_false, Bool.and_true]
    exact hheader

theorem exists_rowHeader_of_plain {t : Text} {x : Extraction} (h : (extract t).outcome = .ok x)
    (hx : x.plain = t) :
    ∃ rows, linesWithStates t = .ok rows ∧ ∀ r ∈ rows, ∃ header, rowHeader r = .ok header := by
  obtain ⟨rows, hrows⟩ : ∃ rows, linesWithStates t = .ok rows := by
    obtain ⟨rows, hrows, -⟩ := Report.bind_eq_ok.mp h
    exact ⟨rows, Report.ofExcept_eq_ok.mp hrows⟩
  have hcollect := (extract_eq_ok_iff hrows).mp h
  have hkept := kept_of_collect hcollect
  have hlines := map_fst_of_linesFrom (linesWithStates_eq t ▸ hrows)
  have hdivides := divides_sectionsFrom rows
  have hsublist := hdivides.kept_sublist
  rw [← hkept, hlines] at hsublist
  have hne : x.kept ≠ [] := by
    intro hnil
    rw [Extraction.plain, hnil] at hx
    subst hx
    have hlex : linesFrom 0 (Text.ofLines []) = .ok [([], ⟨0, false⟩)] := by
      have hempty : Text.ofLines [] = [] := rfl
      rw [linesFrom, hempty, lex_nil]
      rfl
    rw [linesWithStates_eq, hlex] at hrows
    cases hrows
    rw [hnil] at hkept
    cases hkept
  have hlength : rows.length = t.lines.length := by rw [← hlines, length_map]
  refine ⟨rows, hrows, exists_rowHeader_of_kept hdivides hcollect ?_⟩
  rw [hlength, ← hx, Extraction.plain,
    lines_ofLines hne fun line hline => newline_not_mem_of_mem_lines (hsublist.subset hline)]

/-! ### Comments given to declarations -/

/-- The heading of a declaration below a comment block. -/
def CommentBlock.heading (b : CommentBlock) : Heading :=
  ⟨b.kind, b.name, b.isExtend⟩

theorem CommentBlock.isFor_iff {b : CommentBlock} {d : Declaration} :
    b.isFor d ↔ b.heading = d.heading := by
  simp only [CommentBlock.isFor, Bool.and_eq_true, beq_iff_eq, CommentBlock.heading,
    Declaration.heading, Heading.mk.injEq, and_assoc]

theorem comments_attachComment {d : Declaration} (h : d.comments = none)
    (blocks : List CommentBlock) :
    (attachComment blocks d).comments = (blocks.find? (·.isFor d)).map CommentBlock.text := by
  unfold attachComment
  cases blocks.find? (·.isFor d) with
  | none => exact h
  | some b => rfl

/-- The first block for a declaration is the one above the first header with its heading that has
comments. -/
theorem find?_filterMap_eq (f : Nat → Option Text) (d : Declaration) (hs : List (Nat × Header)) :
    ((hs.filterMap fun p => (f p.1).map p.2.block).find? (·.isFor d)).map CommentBlock.text =
      hs.findSome? fun p => if p.2.heading = d.heading then f p.1 else none := by
  induction hs with
  | nil => rfl
  | cons p hs ih =>
    rw [filterMap_cons, findSome?_cons]
    cases hf : f p.1 with
    | none => simpa using ih
    | some text =>
      by_cases hp : p.2.heading = d.heading
      · have hfor : (p.2.block text).isFor d := CommentBlock.isFor_iff.mpr hp
        rw [if_pos hp]
        exact congrArg (Option.map CommentBlock.text) (find?_cons_of_pos (p := (·.isFor d)) hfor)
      · have hfor : ¬ (p.2.block text).isFor d := mt CommentBlock.isFor_iff.mp hp
        rw [if_neg hp, ← ih]
        exact congrArg _ (find?_cons_of_neg hfor)

theorem findSome?_eq_of_forall₂ {α β γ : Type} {R : α → β → Prop} {as : List α} {bs : List β}
    (h : Forall₂ R as bs) {f : α → Option γ} {g : β → Option γ} (hfg : ∀ a b, R a b → f a = g b) :
    as.findSome? f = bs.findSome? g := by
  induction h with
  | nil => rfl
  | cons hab _ ih => rw [findSome?_cons, findSome?_cons, hfg _ _ hab, ih]

/-- **The lines of a schema say what its declarations are called**, and which comments stand above
them. -/
theorem forall₂_heading {t : Text} (hrows : linesWithStates t = .ok rows) {fs : List Fragment}
    {ds : List Declaration} (hread : Forall₂ IsReadFrom (declaredTexts t) fs)
    (hheads : Forall₂ Fragment.Heads fs ds) (hstart : ∀ u ∈ declaredTexts t, StartsLine t u)
    (hfirst : Forall₂ HasFirstLine (declaredTexts t) (ds.map Declaration.name))
    (hother : HeadersStart t rows) :
    Forall₂ (fun p q => p.2.heading = q.1 ∧ commentsAbove rows p.1 = q.2) (headersFrom 0 rows)
      ((ds.map heading).zip (ownComments t rows)) := by
  have hboth : Forall₂ (fun u d => ∃ g, lineHeader? u = some g ∧ g.heading = d.heading)
      (declaredTexts t) ds := by
    refine Forall₂.mp ?_ (forall₂_map_right_iff.mp hfirst) (forall₂_comp hread hheads)
    rintro u d hline ⟨f, hf, hd⟩
    exact hline.heading_eq hf hd
  have hheaders := forall₂_headersFrom hrows hstart (fun u hu => by
    obtain ⟨d, -, g, hg, -⟩ := exists_right_of_forall₂ hboth hu
    exact ⟨g, hg⟩) hother
  refine forall₂_zip (P := fun (p : Nat × Header) (h : Heading) => p.2.heading = h)
    (R := fun (p : Nat × Header) (o : Option Text) => commentsAbove rows p.1 = o) ?_ ?_
  · refine forall₂_map_right_iff.mpr ((forall₂_comp hheaders hboth).imp ?_)
    rintro p d ⟨u, ⟨-, hp⟩, g, hg, hheading⟩
    rw [hp, Option.some.injEq] at hg
    rw [hg, hheading]
  · refine forall₂_map_right_iff.mpr (hheaders.imp ?_)
    rintro p u ⟨hpu, -⟩
    rw [hpu]

theorem findSome?_of_getElem? {α β : Type} {f : α → Option β} {l : List α} {i : Nat} {a : α}
    (hi : l[i]? = some a) (h : ∀ j b, l[j]? = some b → j ≠ i → f b = none) :
    l.findSome? f = f a := by
  induction l generalizing i with
  | nil => cases hi
  | cons b l ih =>
    rw [findSome?_cons]
    cases i with
    | zero =>
      obtain rfl : b = a := by simpa using hi
      cases hb : f b with
      | some y => rfl
      | none =>
        rw [findSome?_eq_none_iff]
        intro c hc
        obtain ⟨j, hj⟩ := mem_iff_getElem?.mp hc
        exact h (j + 1) c (by simpa using hj) (by omega)
    | succ i =>
      rw [h 0 b rfl (by omega)]
      exact ih (by simpa using hi) fun j c hj hne => h (j + 1) c (by simpa using hj) (by omega)

/-- The comments of the first of declarations with a heading that has any. -/
def commentsOf (headings : List Heading) (own : List (Option Text)) (h : Heading) : Option Text :=
  (headings.zip own).findSome? fun p => if p.1 = h then p.2 else none

def IsOwnHeading (headings : List Heading) (i : Nat) : Prop :=
  ∀ j h, headings[i]? = some h → headings[j]? = some h → j = i

theorem IsOwnHeading.commentsOf_eq {headings : List Heading} {i : Nat}
    (hown : IsOwnHeading headings i) {own : List (Option Text)} {h : Heading} {o : Option Text}
    (hi : headings[i]? = some h) (ho : own[i]? = some o) : commentsOf headings own h = o := by
  have hpair : (headings.zip own)[i]? = some (h, o) := getElem?_zip_eq_some.mpr ⟨hi, ho⟩
  refine (findSome?_of_getElem? hpair fun j q hj hne => if_neg fun heq => ?_).trans (if_pos rfl)
  obtain ⟨hq, -⟩ := getElem?_zip_eq_some.mp hj
  rw [heq] at hq
  exact hne (hown j h hi hq)

/-- **The comments of declarations.**  Let every declaration of a schema start a line, outside of
braces and literals, and have its name and type parameters there.  Let no other line outside of
braces and literals be a header, and no line that starts in a literal look like a comment.  If
nothing is taken out of the schema and it can be read, then its comments are found, and every
declaration is given the comments right above the first declaration with its heading that has any.
These are its own if no other declaration has its heading. -/
theorem attachComments_run {t : Text} {x : Extraction} {fs : List Fragment} {naming : Naming}
    {annotations : List Annotation} {ds : List Declaration} {c c' : Context}
    (hextract : (extract t).outcome = .ok x) (hplain : x.plain = t)
    (hread : (readFragments t).outcome = .ok fs)
    (hparse : Gives (parseFragments naming annotations fs) c ds c')
    (hstart : ∀ u ∈ declaredTexts t, StartsLine t u)
    (hfirst : List.Forall₂ HasFirstLine (declaredTexts t) (ds.map Declaration.name))
    (hrows : ∀ rows, linesWithStates t = .ok rows → HeadersStart t rows ∧
      NoCommentInLiterals rows) :
    ∃ rows blocks, linesWithStates t = .ok rows ∧ (locateComments t).outcome = .ok blocks ∧
      (attachComments blocks ds).map Declaration.comments =
        (ds.map heading).map (commentsOf (ds.map heading) (ownComments t rows)) ∧
      ∀ i, IsOwnHeading (ds.map heading) i →
        ((attachComments blocks ds).map Declaration.comments)[i]? = (ownComments t rows)[i]? := by
  obtain ⟨rows, hlines, hheaders⟩ := exists_rowHeader_of_plain hextract hplain
  obtain ⟨blocks, hblocks⟩ := exists_commentBlocks_iff.mpr hheaders
  obtain ⟨hother, hliterals⟩ := hrows rows hlines
  have hheads := forall₂_heads hparse
  obtain ⟨hfailure, hfragments⟩ := scan_of_readFragments hread
  have hscan : List.Forall₂ IsReadFrom (declaredTexts t) (scan t).fragments :=
    forall₂_isReadFrom hfailure
  rw [hfragments] at hscan
  have hown : (ownComments t rows).length = (ds.map heading).length := by
    rw [ownComments, List.length_map, hscan.length_eq, hheads.length_eq, List.length_map]
  have hpairs := forall₂_heading hlines hscan hheads hstart hfirst hother
  have hcomments : (attachComments blocks ds).map Declaration.comments =
      (ds.map heading).map (commentsOf (ds.map heading) (ownComments t rows)) := by
    rw [attachComments, List.map_map, List.map_map]
    refine List.map_congr_left fun d hd => ?_
    obtain ⟨f, -, hnone, -⟩ := exists_left_of_forall₂ hheads hd
    have heq := @commentBlocks_eq_filterMap rows [] blocks hblocks
    simp only [List.nil_append, List.length_nil, commentBlock?_eq hliterals] at heq
    rw [Function.comp_apply, comments_attachComment hnone, heq, find?_filterMap_eq]
    refine findSome?_eq_of_forall₂ hpairs ?_
    rintro p q ⟨hheading, hcomments⟩
    rw [hheading, hcomments]
  refine ⟨rows, blocks, hlines, (locateComments_eq_ok_iff hlines).mpr hblocks, hcomments,
    fun i hi => ?_⟩
  rw [hcomments, List.getElem?_map]
  cases hh : (ds.map heading)[i]? with
  | none =>
    rw [List.getElem?_eq_none_iff, ← hown] at hh
    rw [Option.map_none, List.getElem?_eq_none hh]
  | some h =>
    obtain ⟨hlt, -⟩ := List.getElem?_eq_some_iff.mp hh
    rw [← hown] at hlt
    obtain ⟨o, ho⟩ : ∃ o, (ownComments t rows)[i]? = some o := ⟨_, List.getElem?_eq_getElem hlt⟩
    rw [ho, Option.map_some, hi.commentsOf_eq hh ho]

/-- A schema with comments above a template and two extensions, and a literal that holds a
header. -/
def commentedSchema : Text :=
  Text.ofLines
    ["# one".toList,
      "".toList,
      "# more".toList,
      "type P< T ,U > @d(x: \"\x7b\")".toList,
      "\x7b a: T \x7d".toList,
      "# first".toList,
      "extend type A \x7b a: A \x7d".toList,
      "# second".toList,
      "extend  type A \x7b b: B \x7d".toList,
      "\"\"\"".toList,
      "type X".toList,
      "\"\"\"".toList,
      "scalar S".toList]

theorem attachComments_run_commentedSchema :
    (∃ x, (extract commentedSchema).outcome = .ok x ∧ x.plain = commentedSchema) ∧
      ∃ fs ds c rows blocks, (readFragments commentedSchema).outcome = .ok fs ∧
        Gives (parseFragments {} [] fs) {} ds c ∧
          (∀ u ∈ declaredTexts commentedSchema, StartsLine commentedSchema u) ∧
        List.Forall₂ HasFirstLine (declaredTexts commentedSchema) (ds.map Declaration.name) ∧
        HeadersStart commentedSchema rows ∧ NoCommentInLiterals rows ∧
        linesWithStates commentedSchema = .ok rows ∧
          (locateComments commentedSchema).outcome = .ok blocks ∧
        (attachComments blocks ds).map Declaration.comments =
          [some "# one\n# more".toList, some "# first".toList, some "# first".toList, none] := by
  have hextract : (extract commentedSchema).outcome.toOption.map Extraction.plain =
      some commentedSchema := by
    decide +kernel
  obtain ⟨x, hx, hplain⟩ := Option.map_eq_some_iff.mp hextract
  have hread : (scan commentedSchema).failure = none := by decide +kernel
  have hfs : (readFragments commentedSchema).outcome = .ok (scan commentedSchema).fragments := by
    rw [outcome_readFragments, hread]
  have hparsed : ((parseFragments {} [] (scan commentedSchema).fragments).outcome {}).1.toOption.map
      (·.map heading) =
      some [⟨.type, "P<T, U>".toList, false⟩, ⟨.type, "A".toList, true⟩, ⟨.type, "A".toList, true⟩,
        ⟨.scalar, "S".toList, false⟩] := by
    decide +kernel
  obtain ⟨ds, c, hparse, hheadings⟩ := Resolve.exists_gives_of_outcome hparsed
  have hstart : ∀ u ∈ declaredTexts commentedSchema, StartsLine commentedSchema u := by
    decide +kernel
  have hnames : ds.map Declaration.name = (ds.map heading).map Heading.name := by
    rw [List.map_map]
    rfl
  have hfirst : List.Forall₂ HasFirstLine (declaredTexts commentedSchema)
      (ds.map Declaration.name) := by
    rw [hnames, hheadings]
    decide +kernel
  have hrows : ∀ rows, linesWithStates commentedSchema = .ok rows →
      HeadersStart commentedSchema rows ∧ NoCommentInLiterals rows := by
    decide +kernel
  have hown : ∀ rows, linesWithStates commentedSchema = .ok rows →
    ownComments commentedSchema rows =
      [some "# one\n# more".toList, some "# first".toList, some "# second".toList, none] := by
    decide +kernel
  obtain ⟨rows, blocks, hlines, hblocks, hcomments, -⟩ :=
    attachComments_run (eq_ok_of_toOption hx) hplain hfs hparse hstart hfirst hrows
  refine ⟨⟨x, eq_ok_of_toOption hx, hplain⟩, _, ds, c, rows, blocks, hfs, hparse, hstart, hfirst,
    (hrows rows hlines).1, (hrows rows hlines).2, hlines, hblocks, ?_⟩
  rw [hcomments, hheadings, hown rows hlines]
  decide +kernel

/-- Two extensions of one type, each with a comment above it. -/
def repeatedExtension : Text :=
  Text.ofLines
    ["# one".toList,
      "extend type A \x7b a: A \x7d".toList,
      "# two".toList,
      "extend type A \x7b b: B \x7d".toList]

/-- **An extension of what has been extended before** is given the comments of the first extension,
though it starts a line below comments of its own. -/
theorem not_ownComments_repeatedExtension :
    (∀ u ∈ declaredTexts repeatedExtension, StartsLine repeatedExtension u) ∧
      (extract repeatedExtension).outcome.toOption.map Extraction.plain = some repeatedExtension ∧
      (linesWithStates repeatedExtension).toOption.map (ownComments repeatedExtension) =
        some [some "# one".toList, some "# two".toList] ∧
      (do
        let fs ← (readFragments repeatedExtension).outcome.toOption
        let ds ← ((parseFragments {} [] fs).outcome {}).1.toOption
        let blocks ← (locateComments repeatedExtension).outcome.toOption
        return (attachComments blocks ds).map Declaration.comments) =
        some [some "# one".toList, some "# one".toList] := by
  decide +kernel

end Schemata
