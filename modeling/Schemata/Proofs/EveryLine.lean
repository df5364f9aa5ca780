import Schemata.Proofs.KeptHeaders

/-!
# Every line of a schema is accounted for

When annotations are taken out of a schema, no line is lost and none is used twice.  A line is kept,
or is an annotation, or belongs to the definition of a directive.  An annotation waits, over blank
lines, comments, literals and definitions, for the next line of code.  It is given to what that line
declares, or a warning names it; nothing else is told, and nothing else becomes an annotation.
-/

namespace Schemata

open List

/-! ### What becomes of an annotation -/

/-- The declaration whose header a line of code holds. -/
def headerAt (line : Text) (depth : Nat) : Option (Kind × Text) :=
  if depth = 0 then (Header.read line).toOption.join.map fun h => (h.kind, h.name) else none

/-- What an annotation becomes above a line of code: it is given to the declaration whose header the
line holds, or inside a block to the field with which the line starts, in the declaration
`parent`. -/
def Mark.above (m : Mark) (parent : Option (Kind × Text)) (line : Text) (depth : Nat) :
    Option Annotation :=
  if depth = 0 then (headerAt line depth).map fun h => ⟨m.name, m.body, h.1, h.2, none⟩
  else line.trim.takeName.map fun field => ⟨m.name, m.body, .property, field.1, parent⟩

/-- The line of a section of code, with the number of braces open at its start. -/
def Section.code? : Section → Option (Text × Nat)
  | .code line depth => some (line, depth)
  | .passive _ | .definition _ _ | .mark _ _ => none

/-- What an annotation becomes above sections: the next line of code decides. -/
def Mark.before (m : Mark) (parent : Option (Kind × Text)) (ss : List Section) :
    Option Annotation :=
  (ss.findSome? Section.code?).bind fun next => m.above parent next.1 next.2

/-- What becomes of the annotations and definitions among sections, each by name and in order.  The
last header before them is that of `parent`. -/
def fates (parent : Option (Kind × Text)) : List Section → List (Text × Option Annotation)
  | [] => []
  | .passive _ :: ss => fates parent ss
  | .definition name lines :: ss =>
      (definitionMark, some (definitionOf name (Text.ofLines lines).trim)) :: fates parent ss
  | .mark _ m :: ss => (m.name, m.before parent ss) :: fates parent ss
  | .code line depth :: ss => fates ((headerAt line depth).or parent) ss

def Event.unplaced : Event → List Text
  | .annotationsDropped names => names
  | .annotationAtEnd name => [name]
  | _ => []

/-- The annotations and the warnings leave no fate open, and there are no others: each annotation
that found its target is there once, and each that did not is named in one warning. -/
structure Settles (log : Log) (given : List Annotation) (fs : List (Text × Option Annotation)) :
    Prop where
  given : given.Perm (fs.filterMap Prod.snd)
  warns : ∀ w ∈ log, w.unplaced ≠ []
  named : log.flatMap Event.unplaced = (fs.filter (·.2.isNone)).map Prod.fst

namespace Settles

variable {log log' : Log} {given given' : List Annotation}
    {fs fs' : List (Text × Option Annotation)}

theorem nil : Settles [] [] [] :=
  ⟨.refl [], forall_mem_nil _, rfl⟩

theorem append (h : Settles log given fs) (h' : Settles log' given' fs') :
    Settles (log ++ log') (given ++ given') (fs ++ fs') where
  given := by
    rw [filterMap_append]
    exact h.given.append h'.given
  warns := forall_mem_append.mpr ⟨h.warns, h'.warns⟩
  named := by rw [flatMap_append, h.named, h'.named, filter_append, map_append]

theorem insert (h : Settles log given (fs ++ fs')) (name : Text) (a : Annotation) :
    Settles log (a :: given) (fs ++ (name, some a) :: fs') where
  given := by
    have hperm := h.given.cons a
    rw [filterMap_append] at hperm
    rw [filterMap_append]
    exact hperm.trans perm_middle.symm
  warns := h.warns
  named := by
    rw [h.named, filter_append, filter_append]
    rfl

theorem placed (marks : List Mark) (f : Mark → Annotation) :
    Settles [] (marks.map f) (marks.map fun m => (m.name, some (f m))) where
  given := by simp [filterMap_map]
  warns := forall_mem_nil _
  named := by simp [filter_map, Function.comp_def]

theorem unplaced {marks : List Mark} (hwarns : ∀ w ∈ log, w.unplaced ≠ [])
    (hnamed : log.flatMap Event.unplaced = marks.map Mark.name) :
    Settles log [] (marks.map fun m => (m.name, none)) where
  given := by simp [filterMap_map]
  warns := hwarns
  named := by simp [hnamed, filter_map, Function.comp_def]

end Settles

/-! ### Collecting -/

theorem tellDropped_eq (marks : List Mark) :
    tellDropped marks = ⟨marks.map fun m => .annotationAtEnd m.name, .ok ()⟩ := by
  induction marks with
  | nil => rfl
  | cons m marks ih =>
    rw [tellDropped, ih]
    rfl

theorem headerAt_eq {line : Text} {depth : Nat} {header : Option Header}
    (h : (if depth == 0 then Header.read line else pure none) = .ok header) :
    headerAt line depth = header.map fun h => (h.kind, h.name) := by
  by_cases hdepth : depth = 0
  · rw [if_pos (beq_iff_eq.mpr hdepth)] at h
    rw [headerAt, if_pos hdepth, h]
    rfl
  · rw [if_neg (mt beq_iff_eq.mp hdepth)] at h
    cases h
    exact if_neg hdepth

theorem settles_annotate {marks : List Mark} {parent : Option (Kind × Text)} {line : Text}
    {depth : Nat} {header : Option Header} {own : List Annotation}
    (hheader : (if depth == 0 then Header.read line else pure none) = .ok header)
    (hown : (annotate marks ((headerAt line depth).or parent) line depth header).outcome =
      .ok own) :
    Settles (annotate marks ((headerAt line depth).or parent) line depth header).log own
      (marks.map fun m => (m.name, m.above parent line depth)) := by
  cases marks with
  | nil =>
    cases hown
    exact .nil
  | cons m marks =>
    have hdropped : Settles [.annotationsDropped ((m :: marks).map Mark.name)] []
        ((m :: marks).map fun m => (m.name, none)) :=
      .unplaced (forall_mem_singleton.mpr (cons_ne_nil _ _)) (append_nil _)
    unfold annotate at hown ⊢
    rw [isEmpty_cons, if_neg Bool.false_ne_true] at hown ⊢
    by_cases hdepth : depth = 0
    · have hat := headerAt_eq hheader
      simp only [Mark.above, if_pos hdepth, hat]
      cases header with
      | some h =>
        cases hown
        exact .placed (m :: marks) _
      | none =>
        rw [if_pos (beq_iff_eq.mpr hdepth)] at hown ⊢
        cases hown
        exact hdropped
    · rw [if_neg (mt beq_iff_eq.mp hdepth)] at hheader hown ⊢
      cases hheader
      simp only [Mark.above, headerAt, if_neg hdepth] at hown ⊢
      cases hfield : line.trim.takeName with
      | some field =>
        rw [hfield] at hown
        cases hown
        exact .placed (m :: marks) _
      | none =>
        rw [hfield] at hown
        cases hown
        exact hdropped

/-- **What is collected settles every annotation**: those that wait, and those among the
sections. -/
theorem settles_collect {marks : List Mark} {parent : Option (Kind × Text)} {ss : List Section}
    {e : Extraction} (h : (collect marks parent ss).outcome = .ok e) :
    Settles (collect marks parent ss).log e.annotations
      (marks.map (fun m => (m.name, m.before parent ss)) ++ fates parent ss) := by
  -- the marks that wait are those of the sections passed since the last line of code
  induction ss generalizing marks parent e with
  | nil =>
    rw [collect, tellDropped_eq] at h ⊢
    cases h
    rw [fates, append_nil, Report.log_bind_pure rfl]
    refine .unplaced ?_ ?_
    · intro w hw
      obtain ⟨m, -, rfl⟩ := mem_map.mp hw
      exact cons_ne_nil _ _
    · rw [flatMap_map]
      exact map_eq_flatMap.symm
  | cons s ss ih =>
    cases s with
    | passive line =>
      rw [collect] at h ⊢
      obtain ⟨e', he, h⟩ := Report.bind_eq_ok.mp h
      cases h
      rw [Report.log_bind_pure he]
      exact @ih _ _ e' he
    | definition name lines =>
      rw [collect] at h ⊢
      obtain ⟨e', he, h⟩ := Report.bind_eq_ok.mp h
      cases h
      rw [Report.log_bind_pure he]
      exact (ih he).insert _ _
    | mark line m =>
      rw [collect] at h ⊢
      have hsettles := ih h
      rw [map_append, append_assoc] at hsettles
      exact hsettles
    | code line depth =>
      rw [collect_code_eq] at h ⊢
      obtain ⟨header, hread, h⟩ := Report.bind_eq_ok.mp h
      have hheader := Report.ofExcept_eq_ok.mp hread
      rw [Report.log_bind hread, hheader]
      rw [← headerAt_eq hheader] at h ⊢
      obtain ⟨own, hown, h⟩ := Report.bind_eq_ok.mp h
      obtain ⟨e', he, h⟩ := Report.bind_eq_ok.mp h
      cases h
      rw [Report.log_bind hown, Report.log_bind_pure he]
      exact (settles_annotate hheader hown).append (ih he)

/-! ### The lines of a schema -/

/-- What was extracted from a schema, and told of it, accounts for the schema: for its rows, for the
sections that they fall into, and for the warnings. -/
structure Accounts (t : Text) (e : Extraction) (rows : List (Text × LineState)) (ss : List Section)
    (log : Log) : Prop where
  read : linesWithStates t = .ok rows
  /-- The rows fall into sections, of whose kind each of them is. -/
  divides : Divides rows ss
  /-- So the lines fall into them: none is lost, none is used twice, and their order stays. -/
  lines : ss.flatMap Section.lines = t.lines
  /-- What is kept are the lines of no annotation and of no definition. -/
  kept : e.kept = ss.flatMap Section.keptLines
  /-- They are the lines of the schema proper; if there are none, it is empty. -/
  plain : e.plain.lines = if e.kept = [] then [[]] else e.kept
  /-- Each annotation is given or named in a warning, and each definition is given. -/
  settles : Settles log e.annotations (fates none ss)
  told : (extract t).log = log ++ [.annotationsExtracted e.annotations.length]

/-- **Every line of a schema is accounted for.** -/
theorem every_line_accounted {t : Text} {e : Extraction} (h : (extract t).outcome = .ok e) :
    ∃ rows ss log, Accounts t e rows ss log := by
  obtain ⟨rows, hread, -⟩ := Report.bind_eq_ok.mp h
  have hrows := Report.ofExcept_eq_ok.mp hread
  have hlines : rows.map Prod.fst = t.lines := map_fst_of_linesFrom (linesWithStates_eq t ▸ hrows)
  have hcollect := (extract_eq_ok_iff hrows).mp h
  have hkept := kept_of_collect hcollect
  have hdivides := divides_sectionsFrom rows
  refine ⟨rows, sectionsFrom 0 rows, (collect [] none (sectionsFrom 0 rows)).log, hrows, hdivides,
    hdivides.flatMap_lines.trans hlines, hkept, ?_, settles_collect hcollect, ?_⟩
  · split_ifs with hnil
    · rw [Extraction.plain, hnil]
      rfl
    · refine lines_ofLines hnil fun line hline => ?_
      have hsublist := hlines ▸ hdivides.kept_sublist
      exact newline_not_mem_of_mem_lines (hsublist.subset (hkept ▸ hline))
  · rw [extract, Report.log_bind hread, hrows, sections, Report.log_bind hcollect]
    rfl

/-- A schema in which annotations wait over a comment, a definition and a literal, and two have no
target. -/
def waitingAnnotations : Text :=
  Text.ofLines ["@a".toList, "# note".toList, "directive @d(x: Int".toList, ") on OBJECT".toList,
    "@b(1)".toList, "type T \x7b".toList, "  @c".toList, "  \"text\"".toList, "  f: Int".toList,
    "  @lost".toList, "\x7d".toList, "@last".toList]

theorem every_line_accounted_waitingAnnotations :
    ∃ e, (extract waitingAnnotations).outcome = .ok e ∧
      e.annotations.map (fun a => (a.name, a.target)) =
        [("directive".toList, "d".toList), ("a".toList, "T".toList), ("b".toList, "T".toList),
          ("c".toList, "f".toList)] ∧
      Log.warnings (extract waitingAnnotations).log =
        ["Dropping metadata @lost: no declaration or property follows it".toList,
          "Dropping metadata @last at the end of the schema".toList] ∧
      ∃ rows ss log, Accounts waitingAnnotations e rows ss log := by
  have hextract : ∃ e, (extract waitingAnnotations).outcome = .ok e ∧
      e.annotations.map (fun a => (a.name, a.target)) =
        [("directive".toList, "d".toList), ("a".toList, "T".toList), ("b".toList, "T".toList),
          ("c".toList, "f".toList)] := by
    decide +kernel
  obtain ⟨e, he, hgiven⟩ := hextract
  exact ⟨e, he, hgiven, by decide +kernel, every_line_accounted he⟩

end Schemata
