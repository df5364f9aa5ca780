import Schemata.Proofs.Following
import Schemata.Proofs.Writing

/-!
# Definitions of directives and their neighbours

A definition of a directive is taken out of a schema before anything else is read.  What is left are
the lines around it, and the annotation that it becomes is of a kind that nothing but the list of
directives looks for.  So a schema with a further definition is read like the schema without it, and
what it declares is the same with one directive added.
-/

namespace Schemata

open Resolve List

variable {as as' : List Annotation} {name t : Text}

/-! ### The lines around a definition -/

/-- No definition of a directive starts with the row. -/
def OpensNoDefinition (r : Text × LineState) : Prop :=
  r.2.inString = true ∨ (r.2.depth = 0 → directiveName? r.1.trim = none)

/-- A text after which nothing is open: no literal, no brace and no definition of a directive. -/
structure Text.IsSelfContained (t : Text) : Prop where
  closed : finalDepth 0 (lex true t) = some 0
  definitions : ∀ rows, linesWithStates t = .ok rows → ∀ r ∈ rows, OpensNoDefinition r

/-- The rows of a text in which nothing is left open, whatever follows its line break. -/
theorem exists_linesOf (h : finalDepth 0 (lex true t) = some 0) :
    ∃ rows, linesWithStates t = .ok rows ∧ LinesOf 0 0 (t ++ ['\n']) rows := by
  obtain ⟨ss, -, hlen, hss⟩ := passesLines_of_finalDepth (fun c hc => newline_not_mem_comment hc) h
  have hcount : t.lines.length = (⟨0, false⟩ :: ss : List LineState).length := by
    rw [length_lines, length_cons, hlen, raw_lex]
  refine ⟨attachStates t.lines (⟨0, false⟩ :: ss), ?_, fun u => ?_⟩
  · rw [linesWithStates_eq, linesFrom, lineStates_of_forall hss]
    rfl
  · rw [append_assoc, singleton_append, linesFrom, lex_append_newline h, hss, Lexeme.lineStates,
      if_pos (beq_self_eq_true _), linesFrom, lines_append]
    cases Lexeme.lineStates 0 (lex true u) with
    | error e => rfl
    | ok states =>
      simp only [Functor.map, Except.map, ← attachStates_append hcount, cons_append]

/-- A row with which no definition starts is a section of its own, whatever follows it. -/
theorem OpensNoDefinition.exists_section {r : Text × LineState} (h : OpensNoDefinition r) :
    ∃ s : Section, s.lines.length = 1 ∧ ∀ rest, Section.start r.1 r.2 rest = s := by
  obtain ⟨line, state⟩ := r
  rcases Section.start_cases line state with ⟨-, hstart⟩ | ⟨hout, hdepth, name, hname, -⟩ |
    ⟨-, -, ⟨m, -, hstart⟩ | ⟨-, hstart⟩⟩
  · exact ⟨.passive line, rfl, hstart⟩
  · rw [h.resolve_left (by simp [hout]) hdepth] at hname
    cases hname
  · exact ⟨.mark line m, rfl, hstart⟩
  · exact ⟨.code line state.depth, rfl, hstart⟩

/-- The sections of rows with which no definition starts do not depend on what follows them. -/
theorem exists_sectionsFrom_append {rows : List (Text × LineState)}
    (h : ∀ r ∈ rows, OpensNoDefinition r) :
    ∃ ss, ∀ rest, sectionsFrom 0 (rows ++ rest) = ss ++ sectionsFrom 0 rest := by
  induction rows with
  | nil => exact ⟨[], fun rest => rfl⟩
  | cons r rows ih =>
    obtain ⟨hr, hrows⟩ := forall_mem_cons.mp h
    obtain ⟨s, hlength, hstart⟩ := hr.exists_section
    obtain ⟨ss, hss⟩ := ih hrows
    refine ⟨s :: ss, fun rest => ?_⟩
    rw [cons_append, sectionsFrom_cons (hstart _) hlength, hss, cons_append]

/-! ### What a definition adds -/

/-- The annotation that the definition `t` of a directive becomes. -/
def definitionOf (name t : Text) : Annotation :=
  ⟨definitionMark, some t, .directive, name, none⟩

/-- The annotations `as'` are `as` with the definition `t` of a directive added. -/
def AddsDirective (name t : Text) (as as' : List Annotation) : Prop :=
  ∃ before after, as = before ++ after ∧ as' = before ++ definitionOf name t :: after

theorem AddsDirective.append (h : AddsDirective name t as as') (more : List Annotation) :
    AddsDirective name t (more ++ as) (more ++ as') := by
  obtain ⟨before, after, rfl, rfl⟩ := h
  exact ⟨more ++ before, after, by rw [append_assoc], by rw [append_assoc]⟩

/-- A definition among sections adds its annotation, and what is kept stays the same. -/
theorem collect_insert (ht : t.trim = t) {ss rest : List Section} {marks : List Mark}
    {parent : Option (Kind × Text)} {x : Extraction}
    (h : (collect marks parent (ss ++ rest)).outcome = .ok x) :
    ∃ as', AddsDirective name t x.annotations as' ∧
      (collect marks parent (ss ++ .definition name t.lines :: rest)).outcome =
        .ok ⟨x.kept, as'⟩ := by
  -- a definition leaves the marks that wait and the parent as they are
  induction ss generalizing marks parent x with
  | nil =>
    refine ⟨definitionOf name t :: x.annotations, ⟨[], x.annotations, rfl, rfl⟩, ?_⟩
    rw [nil_append] at h ⊢
    rw [collect, Report.outcome_bind h, ofLines_lines, ht]
    rfl
  | cons s ss ih =>
    rw [cons_append] at h ⊢
    cases s with
    | passive line =>
      rw [collect] at h ⊢
      obtain ⟨x₁, h₁, hx⟩ := Report.bind_eq_ok.mp h
      obtain ⟨as', hadds, hcollect⟩ := ih h₁
      cases hx
      exact ⟨as', hadds, Report.bind_eq_ok.mpr ⟨_, hcollect, rfl⟩⟩
    | definition name' lines =>
      rw [collect] at h ⊢
      obtain ⟨x₁, h₁, hx⟩ := Report.bind_eq_ok.mp h
      obtain ⟨as', hadds, hcollect⟩ := ih h₁
      cases hx
      exact ⟨_, hadds.append [_], Report.bind_eq_ok.mpr ⟨_, hcollect, rfl⟩⟩
    | mark line m =>
      rw [collect] at h ⊢
      exact ih h
    | code line depth =>
      obtain ⟨header, own, x₁, hheader, hown, h₁, rfl⟩ := collect_code_eq_ok.mp h
      obtain ⟨as', hadds, hcollect⟩ := ih h₁
      exact ⟨_, hadds.append own, collect_code_eq_ok.mpr ⟨header, own, _, hheader, hown,
        hcollect, rfl⟩⟩

/-- The next line after a definition does not go on with its locations. -/
def Text.StartsNoBar (t : Text) : Prop :=
  (nextLine t.lines).startsWith (· == '|') = false

/-- **A definition adds an annotation** and changes no line around it. -/
theorem exists_extract_insert {a b first : Text} {more : List Text} (ha : a.IsSelfContained)
    (ht : t.IsDefinition) (hlines : t.lines = first :: more)
    (hname : directiveName? first.trim = some name) (hb : b.StartsNoBar) {x : Extraction}
    (h : (extract (a ++ '\n' :: b)).outcome = .ok x) :
    ∃ as', AddsDirective name t x.annotations as' ∧
      (extract (a ++ '\n' :: (t ++ '\n' :: b))).outcome = .ok ⟨x.kept, as'⟩ := by
  -- the rows of the three texts follow each other, and so do their sections
  obtain ⟨rows, hrows, hown⟩ := exists_linesOf ha.closed
  obtain ⟨ss, hss⟩ := exists_sectionsFrom_append (ha.definitions rows hrows)
  obtain ⟨rowsOf, hdefinition, hsections⟩ := ht.sections_named hlines hname
  have happend : ∀ u v : Text, u ++ '\n' :: v = (u ++ ['\n']) ++ v := by simp
  rw [extract, linesWithStates_eq, happend, hown] at h
  obtain ⟨all, hall, h⟩ := Report.bind_eq_ok.mp h
  obtain ⟨x₁, hcollect, h⟩ := Report.bind_eq_ok.mp h
  obtain rfl : x₁ = x := by
    obtain ⟨_, -, hx⟩ := Report.bind_eq_ok.mp h
    exact Except.ok.inj hx
  cases hrest : linesFrom 0 b with
  | error e =>
    rw [hrest] at hall
    cases hall
  | ok rest =>
    rw [hrest] at hall
    obtain rfl : rows ++ rest = all := Except.ok.inj hall
    have hbar : (nextLine (rest.map Prod.fst)).startsWith (· == '|') = false := by
      rw [map_fst_of_linesFrom hrest]
      exact hb
    rw [sections, hss] at hcollect
    obtain ⟨as', hadds, hcollect'⟩ := @collect_insert name t ht.trimmed _ _ _ _ _ hcollect
    refine ⟨as', hadds, ?_⟩
    rw [extract, linesWithStates_eq, happend, hown, happend t, hdefinition, hrest]
    refine Report.bind_eq_ok.mpr ⟨rows ++ (rowsOf ++ rest), rfl, ?_⟩
    refine Report.bind_eq_ok.mpr ⟨⟨x₁.kept, as'⟩, ?_, Report.bind_eq_ok.mpr ⟨(), rfl, rfl⟩⟩
    rw [sections, hss, hsections rest hbar]
    exact hcollect'

/-! ### What a directive changes -/

theorem AddsDirective.annotationFor (h : AddsDirective name t as as') {k : Kind}
    (hk : k ≠ .directive) (n : Text) (parent : Option (Kind × Text)) :
    annotationFor as' k n parent = annotationFor as k n parent := by
  obtain ⟨before, after, rfl, rfl⟩ := h
  have hnot : ¬ (((definitionOf name t).kind == k && (definitionOf name t).target == n &&
      (definitionOf name t).parent == parent)) := by
    have hkind : (Kind.directive == k) = false := by
      rw [beq_eq_false_iff_ne]
      exact hk.symm
    simp [definitionOf, hkind]
  unfold Schemata.annotationFor
  rw [List.find?_append, List.find?_append, find?_cons, Bool.eq_false_iff.mpr hnot]

theorem AddsDirective.chosenAliases (h : AddsDirective name t as as') :
    chosenAliases as' = chosenAliases as := by
  obtain ⟨before, after, rfl, rfl⟩ := h
  have hone : chosenAlias (definitionOf name t) = .ok none := rfl
  unfold Schemata.chosenAliases
  rw [mapM_append, mapM_append, mapM_cons, hone]
  cases before.mapM chosenAlias with
  | error e => rfl
  | ok ls =>
    cases after.mapM chosenAlias with
    | error e => rfl
    | ok rs =>
      change Except.ok _ = Except.ok _
      simp [filterMap_append]

theorem AddsDirective.directiveDeclarations (h : AddsDirective name t as as') :
    ∃ before after, directiveDeclarations as = before ++ after ∧
      directiveDeclarations as' =
        before ++ { kind := .directive, name, raw := some t } :: after := by
  obtain ⟨before, after, rfl, rfl⟩ := h
  refine ⟨Schemata.directiveDeclarations before, Schemata.directiveDeclarations after, ?_, ?_⟩
  · simp [Schemata.directiveDeclarations]
  · simp [Schemata.directiveDeclarations, definitionOf]

theorem takeKeyword_ne_directive {rest : Text} {k : Kind} (h : takeKeyword t = some (k, rest)) :
    k ≠ .directive := by
  obtain ⟨k', hk', h⟩ := exists_of_findSome?_eq_some h
  obtain ⟨rest', -, h⟩ := Option.bind_eq_some_iff.mp h
  split at h
  · cases h
  · cases h
    rintro rfl
    exact absurd hk' (by decide)

theorem Header.kind_ne_directive {h : Header} (hread : Header.read t = .ok (some h)) :
    h.kind ≠ .directive := by
  unfold Header.read at hread
  split at hread
  · cases hread
  · rename_i isExtend kind rest hkind
    have hne : kind ≠ .directive := by
      unfold takeKind at hkind
      simp only at hkind
      split at hkind
      · rename_i hextend
        obtain ⟨_, -, hkeyword⟩ := Option.bind_eq_some_iff.mp hextend
        cases hkind
        exact takeKeyword_ne_directive hkeyword
      · obtain ⟨⟨k, rest⟩, hkeyword, hk⟩ := Option.map_eq_some_iff.mp hkind
        cases hk
        exact takeKeyword_ne_directive hkeyword
    split at hread
    · cases hread
      exact hne
    · obtain ⟨name, -, hread⟩ := bind_eq_ok.mp hread
      split at hread
      · cases hread
      · cases hread
        exact hne

theorem ofExcept_bind_congr {α β : Type} {r : Except SchemaError α} {f g : α → Resolve β}
    (h : ∀ a, r = .ok a → f a = g a) : Resolve.ofExcept r >>= f = Resolve.ofExcept r >>= g := by
  cases r with
  | error e => rfl
  | ok a => rw [ofExcept_ok, pure_bind, pure_bind, h a rfl]

section Parse

variable {as as' : List Annotation}
  (h : ∀ k, k ≠ .directive → ∀ n parent, annotationFor as' k n parent = annotationFor as k n parent)
  (naming : Naming)

include h

theorem parseItems_congr (d : Declaration) (comments : List Text) (description : Option Text)
    (items : List Text) :
    parseItems naming as' d comments description items =
      parseItems naming as d comments description items := by
  have hfield : parseField naming as' d = parseField naming as d := by
    funext t
    unfold parseField
    simp only [h .property (by decide)]
  induction items generalizing comments description with
  | nil => rfl
  | cons item items ih => simp only [parseItems, ih, hfield]

theorem parseFragments_congr (fs : List Fragment) :
    parseFragments naming as' fs = parseFragments naming as fs := by
  have hfragment : parseFragment naming as' = parseFragment naming as := by
    funext f
    unfold parseFragment
    refine ofExcept_bind_congr fun header hread => ?_
    cases header with
    | none => rfl
    | some header =>
      simp only [h header.kind (Header.kind_ne_directive hread), parseItems_congr h]
  rw [parseFragments, parseFragments, hfragment]

end Parse

/-- A declaration without type parameters is no template, and makes no difference to the others. -/
theorem templateFor_insert {before after : List Declaration} {d : Declaration}
    (hd : d.isTemplate = false) {base core : Text} {t : Declaration}
    (h : templateFor (before ++ after) base core = .ok t) :
    templateFor (before ++ d :: after) base core = .ok t := by
  have hfind : (candidates (before ++ d :: after) base).find? Declaration.isTemplate =
      (candidates (before ++ after) base).find? Declaration.isTemplate := by
    simp [candidates, find?_filter, List.find?_append, hd]
  unfold templateFor at h ⊢
  rw [hfind]
  split at h
  · exact h
  · split at h
    · cases h
    · cases h

/-- The stages in which the declarations `ds` are found in the schema `t`, each without regard to
what was told before. -/
structure Expander.Stages (e : Expander) (t : Text) (ds : List Declaration) (x : Extraction)
    (chosen : Table Text Text) (fs : List Fragment) (blocks : List CommentBlock)
    (rs : List Declaration) (is : List Instance) (c : Context) : Prop where
  extracted : (extract t).outcome = .ok x
  aliases : chosenAliases x.annotations = .ok chosen
  fragments : (readFragments x.plain).outcome = .ok fs
  comments : (locateComments x.plain).outcome = .ok blocks
  /-- The fragments are read as declarations, and these are resolved. -/
  resolved : ∃ parsed c₁, Gives (parseFragments (e.naming chosen) x.annotations fs) {} parsed c₁ ∧
    Gives (resolveAll (attachComments blocks parsed)) c₁ rs c
  built : ∃ c',
    Gives (e.workshop (e.naming chosen) (rs ++ directiveDeclarations x.annotations)).buildPending
    c is c'
  all : ds = allDeclarations (rs ++ directiveDeclarations x.annotations) is

/-- **The declarations of a schema are found stage by stage**, and no stage listens to what was
told. -/
theorem exists_gives_declarations {e : Expander} {ds : List Declaration} :
    (∃ c, Gives (e.declarations t) {} ds c) ↔
      ∃ x chosen fs blocks rs is c, e.Stages t ds x chosen fs blocks rs is c := by
  unfold Expander.declarations Expander.run Expander.read
  simp only [gives_bind, gives_ofReport, gives_ofExcept, gives_tell, gives_pure]
  constructor
  · rintro ⟨_, ⟨_, is⟩, _,
      ⟨_, _, ⟨x, _, ⟨hextract, rfl⟩, chosen, _, ⟨hchosen, rfl⟩, fs, _, ⟨hfs, rfl⟩, parsed, c₁,
        hparsed, blocks, _, ⟨hblocks, rfl⟩, rfl, rfl⟩, rs, c₂, hresolve, _, c₃, hbuild, _, _, rfl,
      heq, rfl⟩, rfl, rfl⟩
    obtain ⟨rfl, rfl⟩ := Prod.mk.inj heq
    obtain ⟨log₁, hparsed⟩ := parseFragments_unheard _ _ _ hparsed []
    obtain ⟨log₂, hresolve⟩ := resolveAll_unheard _ hresolve log₁
    obtain ⟨log₃, hbuild⟩ := buildPending_follows (.refl _) hbuild log₂
    exact ⟨x, chosen, fs, blocks, rs, _, _, hextract, hchosen, hfs, hblocks,
      ⟨parsed, _, hparsed, hresolve⟩, ⟨_, hbuild⟩, rfl⟩
  · rintro ⟨x, chosen, fs, blocks, rs, is, c, hextract, hchosen, hfs, hblocks,
      ⟨parsed, c₁, hparsed, hresolve⟩, ⟨c', hbuild⟩, rfl⟩
    obtain ⟨log₁, hparsed⟩ := parseFragments_unheard _ _ _ hparsed
      ([] ++ (extract t).log ++ (readFragments x.plain).log)
    obtain ⟨log₂, hresolve⟩ := resolveAll_unheard _ hresolve (log₁ ++ (locateComments x.plain).log)
    obtain ⟨log₃, hbuild⟩ := buildPending_follows (.refl _) hbuild log₂
    exact ⟨_, (_, is), _,
      ⟨_, _, ⟨x, _, ⟨hextract, rfl⟩, chosen, _, ⟨hchosen, rfl⟩, fs, _, ⟨hfs, rfl⟩, parsed, _,
        hparsed, blocks, _, ⟨hblocks, rfl⟩, rfl, rfl⟩, rs, _, hresolve, is, _, hbuild, (), _,
        rfl, rfl, rfl⟩, rfl, rfl⟩

/-- **What a definition adds to the declarations of a schema** is its directive, and it changes no
other declaration. -/
theorem gives_declarations_insert {e : Expander} {a b first : Text} {more : List Text}
    (ha : a.IsSelfContained) (ht : t.IsDefinition) (hlines : t.lines = first :: more)
    (hname : directiveName? first.trim = some name) (hb : b.StartsNoBar) {ds : List Declaration}
    {c : Context} (h : Gives (e.declarations (a ++ '\n' :: b)) {} ds c) :
    ∃ before after c', ds = before ++ after ∧
      Gives (e.declarations (a ++ '\n' :: (t ++ '\n' :: b))) {}
        (before ++ { kind := .directive, name, raw := some t } :: after) c' := by
  obtain ⟨x, chosen, fs, blocks, rs, is, c₂, hstages⟩ := exists_gives_declarations.mp ⟨c, h⟩
  obtain ⟨as', hadds, hextract⟩ := exists_extract_insert ha ht hlines hname hb hstages.extracted
  obtain ⟨before, after, hbefore, hafter⟩ := hadds.directiveDeclarations
  obtain ⟨parsed, c₁, hparsed, hresolve⟩ := hstages.resolved
  obtain ⟨c₃, hbuild⟩ := hstages.built
  -- a directive is no template, and no declaration is annotated by it
  have hextends : (e.workshop (e.naming chosen) (rs ++ directiveDeclarations as')).Extends
      (e.workshop (e.naming chosen) (rs ++ directiveDeclarations x.annotations)) := by
    refine ⟨rfl, fun base core template htemplate => ?_⟩
    change templateFor (rs ++ directiveDeclarations x.annotations) base core =
      .ok template at htemplate
    change templateFor (rs ++ directiveDeclarations as') base core = .ok template
    rw [hbefore, ← append_assoc] at htemplate
    rw [hafter, ← append_assoc]
    exact templateFor_insert rfl htemplate
  obtain ⟨log, hbuild'⟩ := buildPending_follows hextends hbuild c₂.log
  have hparsed' : Gives (parseFragments (e.naming chosen) as' fs) {} parsed c₁ := by
    rw [parseFragments_congr (fun k hk => hadds.annotationFor hk)]
    exact hparsed
  obtain ⟨c', hdeclarations⟩ := exists_gives_declarations.mpr ⟨⟨x.kept, as'⟩, chosen, fs, blocks,
    rs, is, c₂, hextract, hadds.chosenAliases.trans hstages.aliases, hstages.fragments,
    hstages.comments, ⟨parsed, c₁, hparsed', hresolve⟩, ⟨_, hbuild'⟩, rfl⟩
  refine ⟨rs ++ before, after ++ is.map Instance.declaration, c', ?_, ?_⟩
  · rw [hstages.all, allDeclarations, hbefore]
    simp
  · rw [allDeclarations, hafter] at hdeclarations
    simpa using hdeclarations

end Schemata
