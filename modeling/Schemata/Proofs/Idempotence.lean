import Schemata.Proofs.Documents
import Schemata.Proofs.EmittedNames
import Schemata.Proofs.Preorder
import Schemata.Proofs.Remembering
import Schemata.Proofs.RoundTrip

/-!
# Expanding a schema twice

An expanded schema is a schema itself: a row of blocks, which are read back as they were written.
Expanded again, it has nothing to inherit and nothing to build, so all that can change are the lists
of interfaces.  They are closed already, but over the clauses of the source.  Where an interface has
taken over the list of another by inheritance, it is written with that list, and what implements it
is closed over the longer list the second time.  Where no interface has, closing a closed list adds
nothing, and the blocks are the same.
-/

namespace Schemata

open Resolve List
open Declaration (plain render)

variable {p w : List Declaration} {n : Text} {names ns seen : List Text}
    {closed : Option (List Text)}

/-! ### Names, each once -/

/-- **Closing a closed list adds nothing.**  The closure of a name starts with the name, and holds
the closure of every name in it. -/
theorem unique_flatMap_closed {C : Text → List Text} (hself : ∀ n ∈ names, n ∈ C n)
    (hC : ∀ n ∈ names, ∀ m ∈ C n, (∃ ms, C m = m :: ms) ∧ C m ⊆ C n)
    (hseen : ∀ m ∈ seen, C m ⊆ seen) :
    uniqueFrom seen ((uniqueFrom seen (names.flatMap C)).flatMap C) =
      uniqueFrom seen (names.flatMap C) := by
  induction names generalizing seen with
  | nil => rfl
  | cons n names ih =>
    obtain ⟨hn, hnames⟩ := forall_mem_cons.mp hself
    obtain ⟨hCn, hCnames⟩ := forall_mem_cons.mp hC
    have hsub : (uniqueFrom seen (C n)).flatMap C ⊆ C n := by
      intro m hm
      obtain ⟨k, hk, hm⟩ := mem_flatMap.mp hm
      exact (hCn k (mem_uniqueFrom.mp hk).1).2 hm
    have hfirst : uniqueFrom seen ((uniqueFrom seen (C n)).flatMap C) = uniqueFrom seen (C n) := by
      by_cases hmem : n ∈ seen
      · rw [uniqueFrom_eq_nil (hseen n hmem)]
        rfl
      · obtain ⟨ms, hms⟩ := (hCn n hn).1
        have hcons : uniqueFrom seen (C n) = n :: uniqueFrom (n :: seen) ms := by
          rw [hms, uniqueFrom, if_neg hmem]
        rw [hcons, flatMap_cons] at hsub
        rw [hcons, flatMap_cons, uniqueFrom_append, hcons, uniqueFrom_eq_nil (s := C n ++ seen),
          append_nil]
        exact fun m hm => mem_append_left _ (hsub (mem_append_right _ hm))
    have hsame : ∀ m, m ∈ (uniqueFrom seen (C n)).flatMap C ++ seen ↔ m ∈ C n ++ seen := by
      intro m
      rw [mem_append, mem_append]
      refine ⟨Or.imp_left (@hsub m), ?_⟩
      rintro (hm | hm)
      · by_cases hs : m ∈ seen
        · exact .inr hs
        · obtain ⟨ms, hms⟩ := (hCn m hm).1
          exact .inl
            (mem_flatMap.mpr ⟨m, mem_uniqueFrom.mpr ⟨hm, hs⟩, by rw [hms]; exact mem_cons_self⟩)
      · exact .inr hm
    have hmore : ∀ m ∈ C n ++ seen, C m ⊆ C n ++ seen := by
      intro m hm
      rcases mem_append.mp hm with hm | hm
      · exact fun k hk => mem_append_left _ ((hCn m hm).2 hk)
      · exact fun k hk => mem_append_right _ (hseen m hm hk)
    rw [flatMap_cons, uniqueFrom_append, flatMap_append, uniqueFrom_append, hfirst,
      uniqueFrom_congr hsame, ih hnames hCnames hmore]

/-! ### Closing interfaces again -/

theorem ClosesTo.exists_cons (h : ClosesTo p n ns) : ∃ ms, ns = n :: ms := by
  obtain ⟨i, found, -, -, rfl⟩ := h.cases_parents
  exact ⟨_, rfl⟩

/-- What a name closes to, found in a fresh context. -/
def closureOf (ds : List Declaration) (n : Text) : List Text :=
  ((closureFrom ds [] none n).outcome {}).1.toOption.getD []

theorem closesTo_closureOf (h : Closable p n) : ClosesTo p n (closureOf p n) := by
  obtain ⟨ns, c, hgives, hns⟩ :=
    @exists_gives_closureFrom n {} p [] none (Context.closuresSound_empty p) h (forall_mem_nil _)
  rw [closureOf, hgives]
  exact hns

/-- The closures of the names in a closed list are parts of it, so that closing it again adds
nothing. -/
theorem unique_closureOf (hnames : ∀ n ∈ names, Closable p n) :
    unique ((unique (names.flatMap (closureOf p))).flatMap (closureOf p)) =
      unique (names.flatMap (closureOf p)) := by
  refine unique_flatMap_closed (fun n hn => ?_) (fun n hn m hm => ?_) (forall_mem_nil _)
  · exact ((closesTo_closureOf (hnames n hn)).mem_iff n).mpr .refl
  · have hreach := ((closesTo_closureOf (hnames n hn)).mem_iff m).mp hm
    have hcloses := closesTo_closureOf fun k hk => hnames n hn k (hreach.trans hk)
    refine ⟨hcloses.exists_cons, fun k hk => ?_⟩
    exact ((closesTo_closureOf (hnames n hn)).mem_iff k).mpr
      (hreach.trans ((hcloses.mem_iff k).mp hk))

theorem eq_map_closureOf {found : List (List Text)} (h : Forall₂ (ClosesTo p) names found) :
    found = names.map (closureOf p) := by
  rw [← forall₂_eq_eq_eq, forall₂_map_right_iff]
  exact h.flip.imp fun ns n hn => hn.eq (closesTo_closureOf hn.closable)

theorem ClosesAllTo.getD_eq (h : ClosesAllTo p names closed) :
    closed.getD [] = unique (names.flatMap (closureOf p)) := by
  obtain ⟨found, hfound, rfl⟩ := h
  rw [eq_map_closureOf hfound, ← flatMap_def]
  cases names with
  | nil => rfl
  | cons n names => rfl

/-- The interface of the name lists in `w` what its names close to in `p`. -/
def ListsClosure (p w : List Declaration) (n : Text) : Prop :=
  ∃ i j closed, interfaceNamed? p n = some i ∧ interfaceNamed? w n = some j ∧
    ClosesAllTo p (i.implements.getD []) closed ∧ j.implements.getD [] = closed.getD []

theorem unique_cons_unique (n : Text) (ns : List Text) :
    unique (n :: unique ns) = unique (n :: ns) :=
  congrArg (n :: ·) (uniqueFrom_uniqueFrom (forall_mem_nil _) ns)

/-- A name closes to the same names where every interface lists what its names close to. -/
theorem ClosesTo.again (h : ClosesTo p n ns) (hw : ∀ m ∈ ns, ListsClosure p w m) :
    ∀ m ∈ ns, ClosesTo w m (closureOf p m) := by
  induction h with
  | intro n i found isInterface length parents ih =>
    have hbelow : ∀ m ∈ found.flatten, ClosesTo w m (closureOf p m) := by
      have hpairs : Forall₂ (fun _ qs => (∀ m ∈ qs, ListsClosure p w m) → ∀ m ∈ qs,
        ClosesTo w m (closureOf p m))
          (i.implements.getD []) found :=
        forall₂_iff_zip.mpr ⟨length, fun {q qs} hq => ih (q, qs) hq⟩
      intro m hm
      obtain ⟨qs, hqs, hm⟩ := mem_flatten.mp hm
      obtain ⟨q, -, hq⟩ := exists_left_of_forall₂ hpairs hqs
      exact hq
        (fun k hk => hw k (mem_unique.mpr (mem_cons_of_mem _ (mem_flatten.mpr ⟨qs, hqs, hk⟩)))) m hm
    intro m hm
    rcases mem_cons.mp (mem_unique.mp hm) with rfl | hm
    · obtain ⟨i', j, closed, hi', hj, hclosed, hlist⟩ := hw m hm
      rw [isInterface] at hi'
      cases hi'
      have hparents : Forall₂ (ClosesTo p) (i.implements.getD []) found :=
        forall₂_iff_zip.mpr ⟨length, fun {q qs} hq => parents (q, qs) hq⟩
      rw [eq_map_closureOf hparents, ← flatMap_def] at hbelow
      rw [hclosed.getD_eq] at hlist
      have hparents' : Forall₂ (ClosesTo w) (j.implements.getD [])
          ((j.implements.getD []).map (closureOf p)) := by
        rw [forall₂_map_right_iff, forall₂_same, hlist]
        exact fun q hq => hbelow q (mem_unique.mp hq)
      have hagain := ClosesTo.of_parents hj hparents'
      rw [← flatMap_def, ← unique_cons_unique, hlist, unique_closureOf hclosed.closable,
        unique_cons_unique] at hagain
      have hself := ClosesTo.of_parents isInterface hparents
      rw [eq_map_closureOf hparents, ← flatMap_def] at hself
      rwa [(closesTo_closureOf hself.closable).eq hself]
    · exact hbelow m hm

/-- **A closed list closes to itself** where every interface in it lists what its names close to. -/
theorem ClosesAllTo.again (h : ClosesAllTo p names closed)
    (hw : ∀ m ∈ closed.getD [], ListsClosure p w m) :
    ClosesAllTo w (closed.getD []) (closed.filter (!·.isEmpty)) := by
  have hlist := h.getD_eq
  have hcloses : ∀ m ∈ closed.getD [], ClosesTo w m (closureOf p m) := by
    intro m hm
    obtain ⟨k, hk, hm'⟩ := mem_flatMap.mp (mem_unique.mp (hlist ▸ hm))
    have hkc := closesTo_closureOf (h.closable k hk)
    refine hkc.again (fun q hq => hw q ?_) m hm'
    rw [hlist]
    exact mem_unique.mpr (mem_flatMap.mpr ⟨k, hk, hq⟩)
  refine ⟨(closed.getD []).map (closureOf p), ?_, ?_⟩
  · rw [forall₂_map_right_iff, forall₂_same]
    exact hcloses
  · rw [← flatMap_def, hlist, unique_closureOf h.closable, ← hlist]
    rcases closed with _ | _ | _ <;> rfl

/-! ### Paragraphs -/

/-- The paragraphs of a text: what stands between blank lines, without white space around it. -/
def Text.paragraphs (t : Text) : List Text :=
  ((t.lines.splitOnP List.isEmpty).map fun ls => (Text.ofLines ls).trim).filter (!·.isEmpty)

theorem paragraphs_append (s t : Text) :
    Text.paragraphs (s ++ '\n' :: '\n' :: t) = s.paragraphs ++ t.paragraphs := by
  have hlines : Text.lines ('\n' :: t) = [] :: t.lines := lines_append [] t
  rw [Text.paragraphs, lines_append, hlines, splitOnP_append_cons _ _ rfl, map_append,
    filter_append]
  rfl

theorem paragraphs_newline (t : Text) : Text.paragraphs (t ++ ['\n']) = t.paragraphs := by
  have hlines : Text.lines (t ++ ['\n']) = t.lines ++ [] :: [] := lines_append t []
  rw [Text.paragraphs, hlines, splitOnP_append_cons _ _ rfl, map_append, filter_append]
  exact append_nil _

theorem mem_paragraphs_document {b : Text} {ts : List Text} :
    b ∈ (document ts).paragraphs ↔ ∃ t ∈ ts, b ∈ t.paragraphs := by
  induction ts with
  | nil => simp [show (document []).paragraphs = [] from rfl]
  | cons t ts ih =>
    rw [exists_mem_cons_iff]
    cases ts with
    | nil =>
      have hone : document [t] = t ++ ['\n'] := rfl
      simp [hone, paragraphs_newline]
    | cons u ts => rw [document_cons_cons, paragraphs_append, mem_append, ih]

/-! ### Declarations as they are read back -/

theorem Field.render_plain (l : Layout) (f : Field) : f.plain.render l = f.render l := by
  have harguments : ∀ as : List Argument,
      (as.map Argument.plain).map Argument.render = as.map Argument.render :=
    fun as => by rw [map_map]; rfl
  have hline : f.plain.line = f.line := by
    unfold Field.line Field.plain
    cases f.arguments <;> cases f.type <;>
      simp only [Option.map_none, Option.map_some, harguments, TypeUse.plain]
  unfold Field.render
  rw [hline]
  rfl

theorem Declaration.header_plain (l : Layout) (d : Declaration) :
    d.plain.header l = d.header l := by
  have hmembers : ∀ us : List TypeUse,
      (us.map TypeUse.plain).map TypeUse.render = us.map TypeUse.render :=
    fun us => by rw [map_map]; rfl
  unfold Declaration.header
  refine congrArg₂ (· ++ ·) (congrArg (· ++ _) (congrArg₂ (· ++ ·) rfl ?_)) ?_
  · unfold plain
    rcases d.implements with _ | _ | _ <;> rfl
  · unfold plain
    rcases d.members with _ | _ | ⟨m, ms⟩
    · rfl
    · rfl
    · exact congrArg (fun ts => if d.kind == .union
        then " = ".toList ++ Text.joinWith " | ".toList ts else []) (hmembers (m :: ms))

theorem Declaration.render_plain (l : Layout) (d : Declaration) :
    d.plain.render l = d.render l := by
  have hbody : d.plain.bodyLines l = d.bodyLines l := by
    simp only [Declaration.bodyLines, plain, map_map, Function.comp_def, Field.render_plain]
  unfold render
  rw [hbody, header_plain]
  rfl

/-! ### Expanding what is written -/

variable {ds : List Declaration} {e : Expander} {defs : List Text}

theorem definitions_append_directiveDeclarations {annotations : List Annotation}
    (hds : ∀ d ∈ ds, d.kind ≠ .directive) (hdefs : ∀ t ∈ defs, t.IsDefinition)
    (h : Forall₂ (fun a t => ∃ name, a = definitionOf name t) annotations defs) :
    definitions (ds ++ directiveDeclarations annotations) = defs := by
  have hnone : ds.filter (fun d => d.kind == .directive) = [] :=
    filter_eq_nil_iff.mpr fun d hd => by simpa using hds d hd
  unfold definitions
  rw [filter_append, hnone, nil_append]
  induction h with
  | nil => rfl
  | @cons a t annotations defs ha _ ih =>
    obtain ⟨name, rfl⟩ := ha
    obtain ⟨ht, hrest⟩ := forall_mem_cons.mp hdefs
    obtain ⟨u, rfl⟩ := ht.eq_cons
    rw [← ih hrest]
    rfl

theorem emitted_perm (h : ∀ d ∈ ds, d.isTemplate = false ∧ d.kind ≠ .abstract ∧
    d.kind ≠ .directive) : (emitted ds).Perm ds := by
  have hall : ds.filter (fun d => !d.isTemplate && d.kind != .abstract && d.kind != .directive) =
      ds := by
    refine filter_eq_self.mpr fun d hd => ?_
    obtain ⟨htemplate, habstract, hdirective⟩ := h d hd
    simp [htemplate, habstract, hdirective]
  rw [emitted, hall]
  exact emissionOrder_perm ds

theorem DistinctNames.plain (h : DistinctNames ds) : DistinctNames (ds.map plain) := by
  rw [DistinctNames, filter_map, map_map]
  exact h

theorem exists_gives_buildPending {w : Workshop} {c : Context} (hpending : c.pending = {})
    (hinstances : c.instances = {}) : ∃ c', Gives w.buildPending c [] c' := by
  unfold Workshop.buildPending
  simp only [gives_bind, gives_get, gives_tell, gives_pure]
  refine ⟨_, c, c, ⟨rfl, rfl⟩, [], c, ?_, c, c, ⟨rfl, rfl⟩, (), _, rfl, ?_, rfl⟩
  · rw [hpending]
    rfl
  · rw [hinstances]
    rfl

theorem Declaration.Legible.kind_ne_directive {d : Declaration} (h : d.Legible) :
    d.kind ≠ .directive := by
  intro hk
  have hkind := h.kind
  rw [hk] at hkind
  exact absurd hkind (by decide)

theorem Declaration.getD_implements_plain (d : Declaration) :
    d.plain.implements.getD [] = d.implements.getD [] := by
  unfold plain
  rcases d.implements with _ | _ | _ <;> rfl

/-- What is read back inherits nothing, and is resolved to itself if its list of interfaces is
closed. -/
theorem Resolved.plain {d : Declaration}
    (h : ClosesAllTo w (d.implements.getD []) d.plain.implements) :
    Resolved w d.plain (merged d.plain [] d.plain.implements) := by
  refine .intro d.plain [] [] d.plain.implements .nil rfl (forall_mem_nil _) ?_
  rwa [namesToClose, flatMap_nil, append_nil, d.getD_implements_plain]

/-- Where reading finds no generic use, the declarations resolved are all there is. -/
theorem exists_gives_expand_of_read {t : Text} {reading : Reading} {log : Log}
    {f : Declaration → Declaration} (hread : Gives (e.read t) {} reading { log })
    (hdistinct : DistinctNames reading.declarations)
    (hf : ∀ d ∈ reading.declarations, Resolved reading.declarations d (f d)) :
    ∃ c, Gives (e.expand t) {}
      (schemaText e.layout (reading.declarations.map f ++ directiveDeclarations reading.annotations)
        []) c := by
  have hsound : Context.ResolutionSound reading.declarations { log } :=
    ⟨(Context.resolutionSound_empty _).closures, (Context.resolutionSound_empty _).resolved, rfl⟩
  have hfresh : Forall₂ (fun d r => freshOutcome reading.declarations d = .ok r)
    reading.declarations
      (reading.declarations.map f) := by
    rw [forall₂_map_right_iff, forall₂_same]
    exact fun d hd => (freshOutcome_eq_ok_iff hdistinct hd).mpr (hf d hd)
  obtain ⟨c, hresolve⟩ := (gives_resolveAll_of_sound hdistinct ⟨hsound, rfl⟩).mpr hfresh
  have hframe := (resolveAll_spec hsound hresolve).1.frame
  have hpending : c.pending = {} := by rw [hframe]
  have hinstances : c.instances = {} := by rw [hframe]
  obtain ⟨c', hbuild⟩ := exists_gives_buildPending (w := e.workshop reading.naming
    (reading.declarations.map f ++ directiveDeclarations reading.annotations)) hpending hinstances
  have hrun : ∃ c, Gives (e.run t) {}
      (reading.declarations.map f ++ directiveDeclarations reading.annotations, []) c := by
    unfold Expander.run
    simp only [gives_bind, gives_tell, gives_pure]
    exact ⟨_, reading, _, hread, _, c, hresolve, [], c', hbuild, (), _, rfl, rfl, rfl⟩
  obtain ⟨c'', hrun⟩ := hrun
  exact exists_gives_expand.mpr ⟨_, _, c'', hrun, rfl⟩

/-- **A schema in writing is expanded to its blocks**, in the order of emission, if the lists of
interfaces are closed in it. -/
theorem exists_gives_expand_document (hl : e.layout.separator = ", ".toList)
    (hdefs : ∀ t ∈ defs, t.IsDefinition) (hds : ∀ d ∈ ds, d.Legible ∧ d.kind ≠ .abstract)
    (hcomments : CommentsAgree ds) (hdistinct : DistinctNames ds)
    (hclosed : ∀ d ∈ ds, ClosesAllTo (ds.map plain) (d.implements.getD []) d.plain.implements) :
    ∃ ts c, ts.Perm (defs ++ ds.map (render e.layout)) ∧
      Gives (e.expand (document (defs ++ ds.map (render e.layout)))) {} (document ts) c := by
  obtain ⟨annotations, log, hannotations, hread⟩ :=
    gives_read_document e hl hdefs (fun d hd => (hds d hd).1) hcomments
  obtain ⟨c, hexpand⟩ := exists_gives_expand_of_read
    (f := fun d => merged d [] d.implements) hread hdistinct.plain (by
    intro x hx
    obtain ⟨d, hd, rfl⟩ := mem_map.mp hx
    exact .plain (hclosed d hd))
  rw [schemaText_eq, map_map] at hexpand
  refine ⟨_, c, ?_, hexpand⟩
  have hkinds : ∀ x ∈ ds.map ((fun d => merged d [] d.implements) ∘ plain),
      x.isTemplate = false ∧ x.kind ≠ .abstract ∧ x.kind ≠ .directive := by
    intro x hx
    obtain ⟨d, hd, rfl⟩ := mem_map.mp hx
    exact ⟨rfl, (hds d hd).2, (hds d hd).1.kind_ne_directive⟩
  rw [blocks,
    definitions_append_directiveDeclarations (fun x hx => (hkinds x hx).2.2) hdefs hannotations,
    emitted_append_directiveDeclarations, map_nil, append_nil, perm_append_left_iff]
  have hrender : ds.map (render e.layout) =
      (ds.map ((fun d => merged d [] d.implements) ∘ plain)).map (render e.layout) := by
    rw [map_map]
    exact map_congr_left fun d _ => (d.render_plain e.layout).symm
  rw [hrender]
  exact (emitted_perm hkinds).map _

/-! ### What a run writes -/

/-- The declarations that are written, those of instances last. -/
def printed (ds : List Declaration) (is : List Instance) : List Declaration :=
  emitted ds ++ is.map Instance.declaration

section Run

variable {t : Text} {is : List Instance} {c c₀ : Context} {reading : Reading} {d x : Declaration}

theorem mem_emitted :
    x ∈ emitted ds ↔ x ∈ ds ∧ x.isTemplate = false ∧ x.kind ≠ .abstract ∧ x.kind ≠ .directive := by
  simp only [emitted, (emissionOrder_perm _).mem_iff, mem_filter, Bool.and_eq_true,
    Bool.not_eq_true', bne_iff_ne, and_assoc]

theorem Expanded.exists_template (h : Expanded e reading ds is) {i : Instance} (hi : i ∈ is) :
    i.text = i.declaration.render e.layout ∧
      ∃ template ∈ ds, i.declaration.isExtend = false ∧
        i.declaration.implements = template.implements := by
  obtain ⟨u, k, -, -, hinst⟩ := h.built i hi
  obtain ⟨template, arguments, htemplate, hspec⟩ := hinst.declaration
  obtain ⟨a, -, ha, -⟩ := templateOf_eq_ok.mp htemplate
  have hext := (mem_filter.mp (mem_of_find?_eq_some ha)).2
  rw [Bool.and_eq_true, Bool.not_eq_true'] at hext
  refine ⟨hinst.text, template, templateOf_mem htemplate, ?_, ?_⟩
  · rw [hspec.eq]
    exact hext.1
  · rw [hspec.eq]

/-- The text of a run has a block for every definition and for every declaration that is written. -/
theorem Expanded.blocks_eq (h : Expanded e reading ds is) :
    blocks e.layout ds is = definitions ds ++ (printed ds is).map (render e.layout) := by
  have htexts : is.map Instance.text = (is.map Instance.declaration).map (render e.layout) := by
    rw [map_map]
    exact map_congr_left fun i hi => (h.exists_template hi).1
  rw [blocks, printed, map_append, ← append_assoc, htexts]

variable (h : Gives (e.run t) {} (ds, is) c) (hread : Gives (e.read t) {} reading c₀)
include h hread

/-- The declarations of a run are those of the source, resolved, and the definitions of
directives. -/
theorem resolved_of_run :
    (∀ r ∈ ds, r ∈ directiveDeclarations reading.annotations ∨
      ∃ d ∈ reading.declarations, Resolved reading.declarations d r) ∧
    (DistinctNames reading.declarations → ∀ d ∈ reading.declarations, ∃ r ∈ ds,
      Resolved reading.declarations d r) := by
  obtain ⟨rs, c₁, hresolve, rfl⟩ := exists_resolveAll_of_run h hread
  obtain ⟨blocks, fs, hreadFrom⟩ := readFrom_of_read hread
  obtain ⟨-, hall⟩ := resolveAll_spec hreadFrom.resolutionSound hresolve
  constructor
  · intro r hr
    refine (mem_append.mp hr).symm.imp_right fun hr => ?_
    obtain ⟨-, -, d, hd, -, hres⟩ := exists_left_of_forall₂ hall hr
    exact ⟨d, hd, hres⟩
  · intro hdistinct d hd
    obtain ⟨r, hr, d', hd', hstands, hres⟩ := exists_right_of_forall₂ hall hd
    rw [hstands.eq hdistinct hd hd'] at hres
    exact ⟨r, mem_append_left _ hr, hres⟩

theorem exists_closesAllTo_of_mem (hx : x ∈ printed ds is) :
    ∃ names, ClosesAllTo reading.declarations names x.implements := by
  have hds : ∀ r ∈ ds, ∃ names, ClosesAllTo reading.declarations names r.implements := by
    intro r hr
    rcases (resolved_of_run h hread).1 r hr with hr | ⟨d, -, hres⟩
    · obtain ⟨a, -, rfl⟩ := mem_map.mp hr
      exact ⟨[], [], .nil, rfl⟩
    · obtain ⟨d, as, rs, implements, -, -, -, closed⟩ := hres
      exact ⟨_, closed⟩
  obtain ⟨_, _, _, -, hexp⟩ := run_spec h
  rcases mem_append.mp hx with hx | hx
  · exact hds x (mem_emitted.mp hx).1
  · obtain ⟨i, hi, rfl⟩ := mem_map.mp hx
    obtain ⟨-, template, htemplate, -, himplements⟩ := hexp.exists_template hi
    rw [himplements]
    exact hds template htemplate

omit h in
theorem commentsAgree_of_read : CommentsAgree reading.declarations := by
  obtain ⟨blocks, fs, log, parsed, c₁, hparsed, -, hds⟩ := readFrom_of_read hread
  rw [hds]
  have hcomments : ∀ d ∈ parsed, (attachComment blocks d).comments =
      (blocks.find? fun b => decide (b.heading = (attachComment blocks d).heading)).map
        CommentBlock.text := by
    intro d hd
    obtain ⟨f, -, hnone, -⟩ := exists_left_of_forall₂ (forall₂_heads hparsed) hd
    have hheading : (attachComment blocks d).heading = d.heading := by
      unfold attachComment
      split <;> rfl
    rw [comments_attachComment hnone, hheading]
    congr
    funext b
    rw [Bool.eq_iff_iff, CommentBlock.isFor_iff, decide_eq_true_iff]
  intro d hd r hr heq
  obtain ⟨d', hd', rfl⟩ := mem_map.mp hd
  obtain ⟨r', hr', rfl⟩ := mem_map.mp hr
  rw [hcomments d' hd', hcomments r' hr', heq]

theorem exists_heading_of_isExtend (hx : x ∈ printed ds is) (hext : x.isExtend) :
    ∃ d ∈ reading.declarations, d.heading = x.heading ∧ d.comments = x.comments := by
  obtain ⟨_, _, _, -, hexp⟩ := run_spec h
  rcases mem_append.mp hx with hx | hx
  · rcases (resolved_of_run h hread).1 x (mem_emitted.mp hx).1 with hx | ⟨d, hd, hres⟩
    · obtain ⟨a, -, rfl⟩ := mem_map.mp hx
      cases hext
    · obtain ⟨d, as, rs, implements, -, -, -, closed⟩ := hres
      exact ⟨d, hd, rfl, rfl⟩
  · obtain ⟨i, hi, rfl⟩ := mem_map.mp hx
    obtain ⟨-, -, -, hnot, -⟩ := hexp.exists_template hi
    rw [hnot] at hext
    cases hext

theorem commentsAgree_printed (hdistinct : DistinctNames (printed ds is)) :
    CommentsAgree (printed ds is) := by
  intro x hx y hy heq
  have hname : y.name = x.name := congrArg Heading.name heq
  have hextend : y.isExtend = x.isExtend := congrArg Heading.isExtend heq
  cases hext : x.isExtend with
  | false =>
    have hbase : y.baseName = x.baseName := by
      rw [Declaration.baseName, Declaration.baseName, hname]
    rw [hdistinct.eq hy hx (hextend.trans hext) hext hbase]
  | true =>
    obtain ⟨d, hd, hdx, hcx⟩ := exists_heading_of_isExtend h hread hx hext
    obtain ⟨r, hr, hry, hcy⟩ := exists_heading_of_isExtend h hread hy (hextend.trans hext)
    rw [← hcx, ← hcy]
    exact commentsAgree_of_read hread d hd r hr (hry.trans (heq.trans hdx.symm))

end Run

/-- What a schema with the declarations `p` is expanded to can be read again as it is meant.  Names
are distinct, all parts are what they are called, and nothing that is written is abstract.  An
interface that is named in a list is written itself, and inherits nothing that its own list does not
close to. -/
structure Rereads (p ds : List Declaration) (is : List Instance) : Prop where
  source : DistinctNames p
  distinct : DistinctNames (printed ds is)
  /-- The declarations written are legible, and none is abstract. -/
  legible : ∀ d ∈ printed ds is, d.Legible ∧ d.kind ≠ .abstract
  definitions : ∀ t ∈ definitions ds, t.IsDefinition
  /-- The interfaces named are no templates, and list what their own names close to. -/
  interfaces : ∀ i ∈ p, i.kind = .interface → i.isExtend = false →
    (∃ d ∈ printed ds is, i.baseName ∈ d.implements.getD []) →
    i.isTemplate = false ∧ ∀ r, Resolved p i r → ClosesAllTo p (i.implements.getD []) r.implements

section Again

variable {t : Text} {is : List Instance} {c c₀ : Context} {reading : Reading} {x : Declaration}

theorem Rereads.listsClosure (hs : Rereads reading.declarations ds is)
    (h : Gives (e.run t) {} (ds, is) c) (hread : Gives (e.read t) {} reading c₀)
    (hx : x ∈ printed ds is) (hn : n ∈ x.implements.getD []) :
    ListsClosure reading.declarations ((printed ds is).map plain) n := by
  obtain ⟨names, hclosed⟩ := exists_closesAllTo_of_mem h hread hx
  obtain ⟨k, hk, hreach⟩ := (hclosed.mem_iff n).mp hn
  obtain ⟨⟨i, hi⟩, -⟩ := hclosed.closable k hk n hreach
  have hkind : i.kind = .interface := by simpa using find?_some hi
  obtain ⟨himem, hcand⟩ := mem_filter.mp (mem_of_find?_eq_some hi)
  simp only [Bool.and_eq_true, Bool.not_eq_true', beq_iff_eq] at hcand
  obtain ⟨hext, rfl⟩ := hcand
  obtain ⟨htemplate, hlist⟩ := hs.interfaces i himem hkind hext ⟨x, hx, hn⟩
  obtain ⟨r, hr, hres⟩ := (resolved_of_run h hread).2 hs.source i himem
  have hcloses := hlist r hres
  obtain ⟨hrext, hrkey⟩ := hres.key_eq (.inl rfl)
  have hrkind : r.kind = .interface := (congrArg Declaration.Key.kind hrkey).trans hkind
  have hrtemplate : r.isTemplate = false := by
    rw [← htemplate, Declaration.isTemplate, Declaration.isTemplate]
    exact congrArg (fun k : Declaration.Key => !k.parameters.isEmpty) hrkey
  have hwritten : r ∈ printed ds is :=
    mem_append_left _ (mem_emitted.mpr ⟨hr,
      hrtemplate, by rw [hrkind]; decide, by rw [hrkind]; decide⟩)
  have hnamed : interfaceNamed? _ r.baseName = some r.plain :=
    interfaceNamed?_eq hs.distinct.plain (mem_map_of_mem hwritten) (hrext.trans hext) hrkind
  rw [baseName_eq_of_key_eq hrkey] at hnamed
  exact ⟨i, r.plain, r.implements, hi, hnamed, hcloses, r.getD_implements_plain⟩

/-- **Expanding a schema again changes nothing but the order of its blocks**, if what it is expanded
to can be read again as it is meant: the schema expanded once is expanded again, and has the same
paragraphs as before. -/
theorem expand_again (hl : e.layout.separator = ", ".toList)
    (hread : Gives (e.read t) {} reading c₀) (h : Gives (e.run t) {} (ds, is) c)
    (hs : Rereads reading.declarations ds is) :
    ∃ once twice c₁ c₂, Gives (e.expand t) {} once c₁ ∧ Gives (e.expand once) {} twice c₂ ∧
      ∀ b, b ∈ once.paragraphs ↔ b ∈ twice.paragraphs := by
  obtain ⟨c₁, honce⟩ := exists_gives_expand.mpr ⟨ds, is, c, h, rfl⟩
  obtain ⟨_, _, _, -, hexp⟩ := run_spec h
  rw [schemaText_eq, hexp.blocks_eq] at honce
  have hclosed : ∀ x ∈ printed ds is,
      ClosesAllTo ((printed ds is).map plain) (x.implements.getD []) x.plain.implements := by
    intro x hx
    obtain ⟨names, hclosed⟩ := exists_closesAllTo_of_mem h hread hx
    exact hclosed.again fun n hn => hs.listsClosure h hread hx hn
  obtain ⟨ts, c₂, hperm, htwice⟩ := exists_gives_expand_document hl hs.definitions hs.legible
    (commentsAgree_printed h hread hs.distinct) hs.distinct hclosed
  refine ⟨_, _, c₁, c₂, honce, htwice, fun b => ?_⟩
  simp only [mem_paragraphs_document, hperm.mem_iff]

end Again

/-! ### A schema that is expanded again -/

theorem Resolved.closesAllTo_implements {i r : Declaration} (h : Resolved p i r)
    (hi : i.inherits.getD [] = []) : ClosesAllTo p (i.implements.getD []) r.implements := by
  obtain ⟨i, as, rs, implements, inherits, hlength, -, closed⟩ := h
  rw [hi, forall₂_nil_left_iff] at inherits
  obtain rfl : rs = [] := length_eq_zero_iff.mp (by rw [← hlength, inherits, length_nil])
  rwa [namesToClose, flatMap_nil, append_nil] at closed

/-- A field with a name and the name of a type, and no more. -/
def Field.IsSimple (f : Field) : Prop :=
  f.name.isName ∧ (∀ u ∈ f.type, u.resolved.isName ∧ u.directive = none) ∧ f.comments = [] ∧
    f.description = none ∧
    f.arguments = none ∧ f.default = none ∧ f.directive = none ∧ f.inlineComment = none

instance (f : Field) : Decidable f.IsSimple :=
  inferInstanceAs (Decidable (_ ∧ _))

/-- A type or an interface of simple fields, with at most one line of comments above it. -/
def Declaration.IsSimple (d : Declaration) : Prop :=
  (d.kind = .type ∨ d.kind = .interface) ∧ d.name.isName ∧
    (∀ t ∈ d.comments, t.startsWith (· == '#') ∧ t.trim = t ∧ '\n' ∉ t) ∧
      (∀ n ∈ d.implements.getD [], n.isName ∧ n ∉ clauseWords) ∧ (∀ f ∈ d.fields, f.IsSimple) ∧
    d.description = none ∧ d.directive = none ∧ d.members = none ∧ d.closingComments = none

instance (d : Declaration) : Decidable d.IsSimple :=
  inferInstanceAs (Decidable (_ ∧ _))

theorem Field.IsSimple.legible {f : Field} (h : f.IsSimple) : f.Legible false := by
  obtain ⟨name, type, comments, description, arguments, default, directive, inlineComment⟩ := h
  refine ⟨name, .inl comments, ?_, ?_, fun u hu => ⟨rfl, ?_, ?_⟩, ?_, ?_, ?_⟩
  · simp [description]
  · simp [arguments]
  · exact Text.IsDecorated.isType ⟨0, u.resolved, [], by simp, (type u hu).1, forall_mem_nil _, rfl⟩
  · simp [(type u hu).2]
  · simp [default]
  · simp [directive]
  · simp [inlineComment]

theorem Declaration.IsSimple.legible {d : Declaration} (h : d.IsSimple) :
    d.Legible ∧ d.kind ≠ .abstract := by
  obtain ⟨kind, name, comments, implements, fields, description, directive, members,
    closingComments⟩ := h
  have hkind : d.kind ∈ Kind.declared ∧ d.kind.isBlock ∧ (d.kind == .enum) = false ∧
    d.kind ≠ .schema ∧
      d.kind ≠ .abstract := by
    rcases kind with h | h <;> rw [h] <;> decide
  obtain ⟨hdeclared, hblock, henum, hschema, habstract⟩ := hkind
  refine ⟨⟨hdeclared, ⟨name, fun h => absurd h hschema⟩, ?_, ?_, ?_, ?_, ?_, ?_, ?_⟩, habstract⟩
  · simp [description]
  · intro t ht
    obtain ⟨hash, trimmed, line⟩ := comments t ht
    exact isComments_singleton ⟨hash, trimmed, line⟩
  · intro ns hns
    refine ⟨hblock, fun n hn => implements n ?_⟩
    rwa [Option.mem_def.mp hns]
  · simp [directive]
  · simp [members]
  · intro f hf
    rw [henum]
    exact ⟨hblock, (fields f hf).legible⟩
  · simp [closingComments]

/-- A directive, interfaces of which one implements the other, a template and a type that
inherits. -/
def namedPages : Text :=
  Text.ofLines ["directive @cache on OBJECT".toList, "# Things with an id.".toList,
    "interface Node \x7b id: ID \x7d".toList,
    "interface Named implements Node \x7b name: Text \x7d".toList,
    "type Paged<T> implements Named \x7b items: T \x7d".toList, "type Root \x7b id: ID \x7d".toList,
    "type Query inherits Root \x7b page: Paged<Item> \x7d".toList]

theorem read_namedPages :
    ((({} : Expander).read namedPages).outcome {}).1.toOption.map (fun reading =>
      decide (DistinctNames reading.declarations ∧ ∀ i ∈ reading.declarations,
        i.kind = .interface → i.isTemplate = false ∧ i.inherits.getD [] = [])) = some true := by
  decide +kernel

theorem run_namedPages :
    ((({} : Expander).run namedPages).outcome {}).1.toOption.map
      (fun r : List Declaration × List Instance =>
      decide (DistinctNames (printed r.1 r.2) ∧ (∀ d ∈ printed r.1 r.2, d.IsSimple) ∧
        definitions r.1 = ["directive @cache on OBJECT".toList] ∧ r.2.length = 1)) = some true := by
  decide +kernel

/-- The theorem on a schema with an instance, whose list of interfaces is closed. -/
theorem expand_again_namedPages :
    ∃ reading c₀ ds is c, Gives (({} : Expander).read namedPages) {} reading c₀ ∧
      Gives (({} : Expander).run namedPages) {} (ds, is) c ∧ is.length = 1 ∧
        Rereads reading.declarations ds is ∧
      ∃ once twice c₁ c₂, Gives (({} : Expander).expand namedPages) {} once c₁ ∧
        Gives (({} : Expander).expand once) {} twice c₂ ∧ ∀ b, b ∈ once.paragraphs ↔
          b ∈ twice.paragraphs := by
  obtain ⟨reading, c₀, hread, hreading⟩ := exists_gives_of_outcome read_namedPages
  obtain ⟨⟨ds, is⟩, c, hrun, hprinted⟩ := exists_gives_of_outcome run_namedPages
  obtain ⟨hsource, hinterfaces⟩ := of_decide_eq_true hreading
  obtain ⟨hdistinct, hsimple, hdefs, hlength⟩ := of_decide_eq_true hprinted
  have hs : Rereads reading.declarations ds is := by
    refine ⟨hsource, hdistinct, fun d hd => (hsimple d hd).legible, ?_, fun i hi hkind _ _ => ?_⟩
    · rw [hdefs]
      exact forall_mem_singleton.mpr ⟨by decide, by decide +kernel, _, _, _, rfl, by rfl, by rfl⟩
    · obtain ⟨htemplate, hnone⟩ := hinterfaces i hi hkind
      exact ⟨htemplate, fun r hr => hr.closesAllTo_implements hnone⟩
  exact ⟨reading, c₀, ds, is, c, hread, hrun, hlength, hs, expand_again rfl hread hrun hs⟩

/-- A type implements an interface that takes over the interfaces of another by inheritance. -/
def inheritedInterfaces : Text :=
  Text.ofLines ["interface C \x7b c: C \x7d".toList,
    "interface B implements C \x7b b: B \x7d".toList,
    "interface A inherits B \x7b a: A \x7d".toList, "type T implements A \x7b t: T \x7d".toList]

theorem expand_inheritedInterfaces :
    ((({} : Expander).expand inheritedInterfaces).outcome {}).1.toOption.map (fun once =>
      ((({} : Expander).expand once).outcome {}).1.toOption.map fun twice =>
        decide ("type T implements A \x7b\n    t: T\n\x7d".toList ∈ once.paragraphs ∧
          "type T implements A, C \x7b\n    t: T\n\x7d".toList ∈ twice.paragraphs ∧
          "type T implements A, C \x7b\n    t: T\n\x7d".toList ∉ once.paragraphs)) =
            some (some true) := by
  decide +kernel

/-- **An interface that inherits a list of interfaces** is written with that list, but the type that
implements it is closed over what it lists itself.  Expanded again, the type gets the interfaces
inherited. -/
theorem not_expand_again_inheritedInterfaces :
    ∃ once twice c₁ c₂, Gives (({} : Expander).expand inheritedInterfaces) {} once c₁ ∧
      Gives (({} : Expander).expand once) {} twice c₂ ∧ ¬ ∀ b, b ∈ once.paragraphs ↔
        b ∈ twice.paragraphs := by
  obtain ⟨once, c₁, honce, htwice⟩ := exists_gives_of_outcome expand_inheritedInterfaces
  obtain ⟨twice, c₂, htwice, hblocks⟩ := exists_gives_of_outcome htwice
  obtain ⟨-, hmem, hnot⟩ := of_decide_eq_true hblocks
  exact ⟨once, twice, c₁, c₂, honce, htwice, fun hall => hnot ((hall _).mpr hmem)⟩

end Schemata
