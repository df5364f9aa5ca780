import Schemata.Proofs.AttachedComments
import Schemata.Proofs.BlockLines

/-!
# Schemas in writing are read back

A schema in writing is a row of blocks with blank lines between them: definitions of directives,
then declarations.  Read again, the definitions are taken out whole and leave blank lines behind,
the declarations come back one by one, and the comments above them are given back to them.
-/

namespace Schemata

open Resolve List
open Declaration (render)

variable {annotations : List Annotation} {defs : List Text} {ds : List Declaration} {l : Layout}

/-! ### Declarations one after another -/

/-- Blocks as a schema. -/
def document (ts : List Text) : Text :=
  if ts.isEmpty then [] else blocksText ts

theorem schemaText_eq (l : Layout) (ds : List Declaration) (is : List Instance) :
    schemaText l ds is = document (blocks l ds is) := by
  rw [schemaText, document]
  cases blocks l ds is <;> rfl

theorem document_cons_cons (s t : Text) (ts : List Text) :
    document (s :: t :: ts) = s ++ '\n' :: '\n' :: document (t :: ts) :=
  blocksText_cons_cons s t ts

theorem linesFrom_nil : linesFrom 0 [] = .ok [([], ⟨0, false⟩)] := by
  rw [linesFrom, lex]
  rfl

theorem exists_rows_blocks (hl : l.separator = ", ".toList) {d : Declaration}
    (h : ∀ e ∈ d :: ds, e.Legible) :
    ∃ found, Rows 0 0 (Text.joinWith "\n\n".toList ((d :: ds).map (render l))) found ∧
      ∀ above, takeComments above = [] → found above =
        (d :: ds).flatMap Declaration.commentBlocks := by
  induction ds generalizing d with
  | nil =>
    obtain ⟨found, hrows, hfound, -⟩ := exists_rows_render (h d mem_cons_self) hl
    exact ⟨found, hrows, by simpa using hfound⟩
  | cons e ds ih =>
    obtain ⟨hd, hds⟩ := forall_mem_cons.mp h
    obtain ⟨found, hrows, hfound, hlast⟩ := exists_rows_render hd hl
    obtain ⟨more, hmore, hrest⟩ := ih hds
    have hjoin : Text.joinWith "\n\n".toList ((d :: e :: ds).map (render l)) =
        d.render l ++ '\n' :: ([] ++ '\n' ::
          Text.joinWith "\n\n".toList ((e :: ds).map (render l))) := by
      simp
    refine ⟨_, hjoin ▸ hrows.append (rows_nil.append hmore), fun above habove => ?_⟩
    -- the blank line does not end the comments above, but the block before it does
    have hblank : takeComments ([] :: ((d.render l).lines.reverse ++ above)) = [] := hlast above
    rw [hfound above habove, flatMap_cons]
    exact congrArg _ (hrest _ hblank)

/-- **The rows of a schema without definitions**: all of them are kept, and the comments are those
of the declarations. -/
theorem exists_rows_document (hl : l.separator = ", ".toList) (hds : ∀ d ∈ ds, d.Legible) :
    ∃ rows, linesFrom 0 (document (ds.map (render l))) = .ok rows ∧ (∀ r ∈ rows, Kept r) ∧
      ∀ above, takeComments above = [] → commentBlocks above rows =
        .ok (ds.flatMap Declaration.commentBlocks) := by
  have hend : ∀ above, commentBlocks above [([], ⟨0, false⟩)] = .ok [] := fun above =>
    commentBlocks_cons (rfl : rowHeader ([], ⟨0, false⟩) = .ok none) above []
  cases ds with
  | nil => exact ⟨_, linesFrom_nil, forall_mem_singleton.mpr kept_blank, fun above _ => hend above⟩
  | cons d ds =>
    obtain ⟨found, ⟨rows, hlines, hkept, hcomments⟩, hfound⟩ := exists_rows_blocks hl hds
    refine ⟨rows ++ [([], ⟨0, false⟩)], ?_, ?_, fun above habove => ?_⟩
    · have hall := hlines []
      rw [linesFrom_nil, append_nil] at hall
      exact hall
    · exact forall_mem_append.mpr ⟨hkept, forall_mem_singleton.mpr kept_blank⟩
    · rw [hcomments, hend, hfound above habove]
      exact congrArg Except.ok (append_nil _)

/-! ### Definitions before declarations -/

/-- What a schema in writing is without its definitions: blank lines in their place, and the
declarations. -/
structure IsExtraction (defs : List Text) (t : Text) (x : Extraction) : Prop where
  kept : x.kept ≠ []
  plain : ∃ k, x.plain = List.replicate k '\n' ++ t
  annotations : Forall₂ (fun a t => ∃ name, a = definitionOf name t) x.annotations defs

theorem startsNoBar_document (hl : l.separator = ", ".toList) (hdefs : ∀ t ∈ defs, t.IsDefinition)
    (hds : ∀ d ∈ ds, d.Legible) : (document (defs ++ ds.map (render l))).StartsNoBar := by
  have hcons : ∀ {c : Char} {t : Text}, isBlank c = false → c ≠ '|' →
      Text.StartsNoBar (c :: t) := by
    intro c t hblank hbar
    obtain ⟨u, hu⟩ := nextLine_lines hblank t
    rw [Text.StartsNoBar, hu]
    simpa [startsWith_cons] using hbar
  cases defs with
  | cons t defs =>
    obtain ⟨u, rfl⟩ := (hdefs t mem_cons_self).eq_cons
    rw [cons_append]
    cases hrest : defs ++ ds.map (render l) with
    | nil => exact hcons rfl (by decide)
    | cons s ts =>
      rw [document_cons_cons]
      exact hcons rfl (by decide)
  | nil =>
    cases ds with
    | nil => rfl
    | cons d ds =>
      obtain ⟨c, u, hu, hblank, -, hbar⟩ := (startsBlock_blocksText hl hds).head
      change Text.StartsNoBar (blocksText ((d :: ds).map (render l)))
      rw [hu]
      exact hcons hblank hbar

theorem exists_extract_definition {t u : Text} {rest : List (Text × LineState)}
    (ht : t.IsDefinition) (hrest : linesFrom 0 u = .ok rest) (hbar : u.StartsNoBar) {x : Extraction}
    (h : (collect [] none (sectionsFrom 0 rest)).outcome = .ok x) :
    ∃ rows name, linesFrom 0 (t ++ '\n' :: u) = .ok rows ∧
      (collect [] none (sectionsFrom 0 rows)).outcome =
        .ok ⟨x.kept, definitionOf name t :: x.annotations⟩ := by
  obtain ⟨first, more, name, hlines, hname, -⟩ := ht.complete
  obtain ⟨own, hown, hsections⟩ := ht.sections_named hlines hname
  refine ⟨own ++ rest, name, ?_, ?_⟩
  · have hall := hown u
    rw [hrest, append_assoc, singleton_append] at hall
    exact hall
  · rw [hsections rest (by rw [map_fst_of_linesFrom hrest]; exact hbar), collect,
      Report.outcome_bind h, ofLines_lines, ht.trimmed]
    rfl

theorem exists_extract_blank {u : Text} {rest : List (Text × LineState)}
    (hrest : linesFrom 0 u = .ok rest) {x : Extraction}
    (h : (collect [] none (sectionsFrom 0 rest)).outcome = .ok x) :
    ∃ rows, linesFrom 0 ('\n' :: u) = .ok rows ∧
      (collect [] none (sectionsFrom 0 rows)).outcome = .ok ⟨[] :: x.kept, x.annotations⟩ := by
  refine ⟨([], ⟨0, false⟩) :: rest, ?_, ?_⟩
  · have hall := linesOf_newline u
    rw [hrest] at hall
    exact hall
  · have hstart : Section.start [] ⟨0, false⟩ (rest.map Prod.fst) = .passive [] := rfl
    rw [sectionsFrom_cons hstart rfl, collect, Report.outcome_bind h]
    rfl

/-- **The definitions are taken out of a schema**, and nothing else is. -/
theorem exists_extraction (hl : l.separator = ", ".toList) (hdefs : ∀ t ∈ defs, t.IsDefinition)
    (hds : ∀ d ∈ ds, d.Legible) :
    ∃ rows x, linesFrom 0 (document (defs ++ ds.map (render l))) = .ok rows ∧
      (collect [] none (sectionsFrom 0 rows)).outcome = .ok x ∧
      IsExtraction defs (document (ds.map (render l))) x := by
  induction defs with
  | nil =>
    obtain ⟨rows, hrows, hkept, -⟩ := exists_rows_document hl hds
    have hfst := map_fst_of_linesFrom hrows
    refine ⟨rows, _, hrows, collect_rows hkept none, ?_, ⟨0, ?_⟩, .nil⟩
    · rw [hfst]
      exact lines_ne_nil _
    · rw [Extraction.plain, hfst, ofLines_lines]
      rfl
  | cons t defs ih =>
    obtain ⟨ht, hdefs⟩ := forall_mem_cons.mp hdefs
    obtain ⟨rows, x, hrows, hx, hex⟩ := ih hdefs
    obtain ⟨k, hk⟩ := hex.plain
    have hbar := startsNoBar_document hl hdefs hds
    cases hrest : defs ++ ds.map (render l) with
    | nil =>
      rw [hrest] at hrows hbar
      obtain ⟨rows', name, hrows', hx'⟩ := exists_extract_definition ht hrows hbar hx
      rw [cons_append, hrest]
      exact ⟨rows', _, hrows', hx', hex.kept, ⟨k, hk⟩, .cons ⟨name, rfl⟩ hex.annotations⟩
    | cons s ts =>
      rw [hrest] at hrows hbar
      obtain ⟨rows₁, hrows₁, hx₁⟩ := exists_extract_blank hrows hx
      have hbar₁ : Text.StartsNoBar ('\n' :: document (s :: ts)) := hbar
      obtain ⟨rows', name, hrows', hx'⟩ := exists_extract_definition ht hrows₁ hbar₁ hx₁
      rw [cons_append, hrest, document_cons_cons]
      refine ⟨rows', _, hrows', hx', cons_ne_nil _ _, ⟨k + 1, ?_⟩,
        .cons ⟨name, rfl⟩ hex.annotations⟩
      rw [replicate_succ, cons_append, ← hk]
      exact ofLines_cons hex.kept []

/-! ### Reading a schema back -/

theorem chosenAliases_definitions
    (h : Forall₂ (fun a t => ∃ name, a = definitionOf name t) annotations defs) :
    chosenAliases annotations = .ok Table.empty := by
  induction h with
  | nil => rfl
  | @cons a t annotations defs ha _ ih =>
    obtain ⟨name, rfl⟩ := ha
    have hadds : AddsDirective name t annotations (definitionOf name t :: annotations) :=
      ⟨[], _, rfl, rfl⟩
    rw [hadds.chosenAliases, ih]

theorem scan_document (hl : l.separator = ", ".toList) (hds : ∀ d ∈ ds, d.Legible) (k : Nat) :
    scan (List.replicate k '\n' ++ document (ds.map (render l))) =
      { fragments := ds.map Declaration.fragment } := by
  rw [scan]
  induction k with
  | zero =>
    cases ds with
    | nil => exact scanFrom.eq_1 none
    | cons d ds => exact scanFrom_blocksText hl hds
  | succ k ih => rw [replicate_succ, cons_append, scanFrom_newline, ih]

theorem locateComments_document (hl : l.separator = ", ".toList) (hds : ∀ d ∈ ds, d.Legible)
    (k : Nat) : (locateComments (List.replicate k '\n' ++ document (ds.map (render l)))).outcome =
      .ok (ds.flatMap Declaration.commentBlocks) := by
  -- blank lines above leave no comments above
  have hrows : ∃ rows, linesFrom 0 (List.replicate k '\n' ++ document (ds.map (render l))) =
    .ok rows ∧
      ∀ above, takeComments above = [] → commentBlocks above rows =
        .ok (ds.flatMap Declaration.commentBlocks) := by
    induction k with
    | zero =>
      obtain ⟨rows, hrows, -, hcomments⟩ := exists_rows_document hl hds
      exact ⟨rows, hrows, hcomments⟩
    | succ k ih =>
      obtain ⟨rows, hrows, hcomments⟩ := ih
      have hall := linesOf_newline (List.replicate k '\n' ++ document (ds.map (render l)))
      rw [hrows] at hall
      refine ⟨_, hall, fun above habove => ?_⟩
      have hblank : takeComments ([] :: above) = [] := habove
      refine (commentBlocks_cons (rfl : rowHeader ([], ⟨0, false⟩) = .ok none) above rows).trans ?_
      rw [hcomments _ hblank]
      rfl
  obtain ⟨rows, hrows, hcomments⟩ := hrows
  have hblocks : (linesWithStates (List.replicate k '\n' ++ document (ds.map (render l))) >>=
      commentBlocks []) = .ok (ds.flatMap Declaration.commentBlocks) := by
    rw [linesWithStates_eq, hrows]
    exact hcomments [] rfl
  rw [locateComments, hblocks]
  rfl

/-- Declarations with one heading have the same comments. -/
def CommentsAgree (ds : List Declaration) : Prop :=
  ∀ d ∈ ds, ∀ e ∈ ds, e.heading = d.heading → e.comments = d.comments

theorem attachComments_plain (h : CommentsAgree ds) :
    attachComments (ds.flatMap Declaration.commentBlocks)
      (ds.map fun d => { d.plain with comments := none }) = ds.map Declaration.plain := by
  rw [attachComments, map_map]
  refine map_congr_left fun d hd => ?_
  have hmem : ∀ {b : CommentBlock}, b ∈ ds.flatMap Declaration.commentBlocks ↔
      ∃ e ∈ ds, ∃ t, e.comments = some t ∧ ⟨t, e.kind, e.name, e.isExtend⟩ = b := by
    simp [Declaration.commentBlocks]
  rw [Function.comp_apply, attachComment]
  cases hf : (ds.flatMap Declaration.commentBlocks).find?
    (·.isFor { d.plain with comments := none }) with
  | some b =>
    -- the first block for it has the comments of a declaration with its heading
    obtain ⟨e, he, t, ht, rfl⟩ := hmem.mp (mem_of_find?_eq_some hf)
    have hfor := find?_some hf
    have hplain : d.plain.comments = some t :=
      (h d hd e he (CommentBlock.isFor_iff.mp hfor)).symm.trans ht
    simp only [← hplain]
  | none =>
    have hplain : d.plain.comments = none := by
      refine Option.eq_none_iff_forall_ne_some.mpr fun t ht => ?_
      exact find?_eq_none.mp hf _ (hmem.mpr ⟨d, hd, t, ht, rfl⟩) (CommentBlock.isFor_iff.mpr rfl)
    simp only [← hplain]

/-- **A schema in writing is read as it was written**: the definitions of its directives, and its
declarations as they are in writing. -/
theorem gives_read_document (e : Expander) (hl : l.separator = ", ".toList)
    (hdefs : ∀ t ∈ defs, t.IsDefinition) (hds : ∀ d ∈ ds, d.Legible)
    (hcomments : CommentsAgree ds) :
    ∃ annotations log, Forall₂ (fun a t => ∃ name, a = definitionOf name t) annotations defs ∧
      Gives (e.read (document (defs ++ ds.map (render l)))) {}
        ⟨e.naming Table.empty, annotations, ds.map Declaration.plain⟩ { log } := by
  obtain ⟨rows, x, hrows, hcollect, hex⟩ := exists_extraction hl hdefs hds
  obtain ⟨k, hplain⟩ := hex.plain
  have hextract : (extract (document (defs ++ ds.map (render l)))).outcome = .ok x := by
    rw [extract, linesWithStates_eq, hrows]
    exact Report.bind_eq_ok.mpr ⟨rows, rfl, Report.bind_eq_ok.mpr ⟨x, hcollect, rfl⟩⟩
  have hfragments : (readFragments x.plain).outcome = .ok (ds.map Declaration.fragment) := by
    rw [hplain, readFragments, scan_document hl hds k]
  have hlocate : (locateComments x.plain).outcome = .ok (ds.flatMap Declaration.commentBlocks) := by
    rw [hplain]
    exact locateComments_document hl hds k
  have hann : ∀ a ∈ x.annotations, a.kind = .directive := by
    intro a ha
    obtain ⟨t, -, name, rfl⟩ := exists_right_of_forall₂ hex.annotations ha
    rfl
  refine ⟨x.annotations, (extract (document (defs ++ ds.map (render l)))).log ++
    (readFragments x.plain).log ++ [.declarationsParsed ds.length] ++ (locateComments x.plain).log,
    hex.annotations, ?_⟩
  unfold Expander.read
  simp only [gives_bind, gives_ofReport, gives_ofExcept, gives_pure]
  refine ⟨x, _, ⟨hextract, rfl⟩, _, _, ⟨chosenAliases_definitions hex.annotations, rfl⟩, _, _,
    ⟨hfragments, rfl⟩, _, _, gives_parseFragments hds _ hann _, _, _, ⟨hlocate, rfl⟩, ?_, rfl⟩
  rw [attachComments_plain hcomments]

end Schemata
