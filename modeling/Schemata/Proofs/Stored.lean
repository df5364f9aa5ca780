import Schemata.Proofs.Building

/-!
# The instances that are stored

A workshop may be asked again and again: to build the instance of a core, to build all that is
pending, and in between further type expressions may be read.  Some of it may fail.  After all of
it, every instance stored is its template with the type arguments of a core in the place of the type
parameters, and the core is remembered under the name of the instance.
-/

namespace Schemata

open Resolve List

/-! ### Workshops -/

/-- The declarations of the workshop are read from fragments as `ds` and resolved, which leaves the
context `c`; the definitions of directives come last. -/
def Workshop.Ready (w : Workshop) (annotations : List Annotation) (blocks : List CommentBlock)
    (fs : List Fragment) (ds : List Declaration) (c : Context) : Prop :=
  ∃ c₀ rs, ReadFrom w.naming annotations blocks fs ds c₀ ∧ Gives (resolveAll ds) c₀ rs c ∧
    w.declarations = rs ++ directiveDeclarations annotations

/-- The contexts that asking a workshop leads to, with or without success. -/
inductive Workshop.Asked (w : Workshop) : Context → Prop
  /-- Nothing is asked, and the declarations are those read. -/
  | read {annotations : List Annotation} {blocks : List CommentBlock} {fs : List Fragment}
      {c : Context}
      (declarations : ReadFrom w.naming annotations blocks fs w.declarations c) : Asked w c
  /-- Nothing is asked, and the declarations are those read, resolved. -/
  | resolved {annotations : List Annotation} {blocks : List CommentBlock} {fs : List Fragment}
      {ds : List Declaration} {c : Context} (ready : w.Ready annotations blocks fs ds c) : Asked w c
  | use {c : Context} (before : Asked w c) (expression : Text) (letters : Option (List Text))
      (directive : Option Text) :
      Asked w ((useType w.naming expression letters directive).outcome c).2
  | build {c : Context} (before : Asked w c) (core : Text) : Asked w ((w.build core).outcome c).2
  | pending {c : Context} (before : Asked w c) : Asked w (w.buildPending.outcome c).2

section Start

variable {w : Workshop} {naming : Naming} {annotations : List Annotation}
    {blocks : List CommentBlock}
  {fs : List Fragment} {ds : List Declaration} {c : Context}

/-- Reading declarations leaves all but aliases, pending uses and the log empty. -/
theorem ReadFrom.frame (h : ReadFrom naming annotations blocks fs ds c) :
    c = { aliasNames := c.aliasNames, pending := c.pending, log := c.log } := by
  obtain ⟨-, log, hreads⟩ := h.reads
  exact hreads.frame

theorem ReadFrom.resolutionSound (h : ReadFrom naming annotations blocks fs ds c) :
    c.ResolutionSound ds := by
  rw [h.frame]
  exact ⟨(Context.resolutionSound_empty ds).closures,
    (Context.resolutionSound_empty ds).resolved, rfl⟩

theorem Workshop.Ready.exists_readFrom (h : w.Ready annotations blocks fs ds c) :
    ∃ c₀, ReadFrom w.naming annotations blocks fs ds c₀ ∧
      c = { c₀ with resolved := c.resolved, closures := c.closures, log := c.log } := by
  obtain ⟨c₀, rs, hread, hresolve, -⟩ := h
  exact ⟨c₀, hread, (resolveAll_spec hread.resolutionSound hresolve).1.frame⟩

/-- The uses in the declarations of a workshop that is ready are written in their type
parameters. -/
theorem Workshop.Ready.written (h : w.Ready annotations blocks fs ds c) : w.Written := by
  obtain ⟨c₀, rs, hread, hresolve, hdeclarations⟩ := h
  intro d hd u hu
  rw [hdeclarations] at hd
  rcases mem_append.mp hd with hd | hd
  · obtain ⟨b, hb, hub, htemplate | hparameters⟩ :=
      exists_of_mem_uses_resolveAll hread.resolutionSound hresolve hd hu
    · exact ⟨b.parameters, hread.isUse hb hub, .inl (isTemplate_eq_false_iff.mp htemplate)⟩
    · exact ⟨b.parameters, hread.isUse hb hub, .inr (by rw [hparameters])⟩
  · rw [uses_of_mem_directiveDeclarations hd] at hu
    exact absurd hu not_mem_nil

theorem Context.Stores.start (hnames : c.NamesSound w.naming) (hinstances : c.instances = {})
    (P : Text → Prop) : c.Stores w P c.log [] := by
  refine ⟨hnames, by simp, [], by simp, ?_⟩
  rw [hinstances]
  exact .nil

theorem ReadFrom.stores (h : ReadFrom w.naming annotations blocks fs ds c) (P : Text → Prop) :
    c.Stores w P c.log [] := by
  refine .start h.reads.1 ?_ P
  rw [h.frame]

theorem Workshop.Ready.stores (h : w.Ready annotations blocks fs ds c) (P : Text → Prop) :
    c.Stores w P c.log [] := by
  obtain ⟨c₀, hread, hframe⟩ := h.exists_readFrom
  refine .start ?_ ?_ P
  · rw [hframe]
    exact hread.reads.1
  · rw [hframe, hread.frame]

theorem Workshop.Ready.building_eq (h : w.Ready annotations blocks fs ds c) : c.building = [] := by
  obtain ⟨c₀, hread, hframe⟩ := h.exists_readFrom
  rw [hframe, hread.frame]

end Start

/-! ### Whatever is asked -/

/-- **Whatever is asked of a workshop**, the instances stored are instances of cores, and nothing is
being built. -/
theorem Workshop.Asked.stores {w : Workshop} {c : Context} (h : w.Asked c) :
    w.Written ∧ c.building = [] ∧ ∃ base, c.Stores w (fun _ => True) base [] := by
  -- what a question leaves has grown out of what was there before
  have hkeep : ∀ (base : Log) {α : Type} {x : Resolve α} {c : Context}, c.building = [] →
      Meets x c (fun _ c' => c'.Stores w (fun _ => True) base [] ∧ c.Grows c')
        (fun _ c' => c'.Stores w (fun _ => True) base [] ∧ c.Grows c') →
      (x.outcome c).2.building = [] ∧ ∃ base, (x.outcome c).2.Stores w (fun _ => True) base [] := by
    intro base α x c hbuilding hx
    obtain ⟨hc', hgrows⟩ := Meets.after
      (P := fun c' => c'.Stores w (fun _ => True) base [] ∧ c.Grows c') hx
    refine ⟨?_, base, hc'⟩
    rw [hgrows.frame]
    exact hbuilding
  induction h with
  | read hread =>
    refine ⟨?_, ?_, _, hread.stores _⟩
    · exact fun d hd u hu => ⟨d.parameters, hread.isUse hd hu, .inr rfl⟩
    · rw [hread.frame]
  | resolved hready => exact ⟨hready.written, hready.building_eq, _, hready.stores _⟩
  | use before expression letters directive ih =>
    obtain ⟨hw, hbuilding, base, hc⟩ := ih
    refine ⟨hw, hkeep base hbuilding ?_⟩
    refine ((useType_computes w.naming expression letters directive).meets hc.names).imp ?_ ?_
    all_goals
      rintro _ c' ⟨⟨hnames, hnotes⟩, -⟩
      exact ⟨hc.of_notes hnotes hnames, hnotes.grows⟩
  | build before core ih =>
    obtain ⟨hw, hbuilding, base, hc⟩ := ih
    refine ⟨hw, hkeep base hbuilding ?_⟩
    exact (build_meets hw (fun _ _ => trivial) hbuilding (fun _ _ _ _ => trivial) hc).imp
      (fun _ _ h => h) fun _ _ h => h.1
  | pending before ih =>
    obtain ⟨hw, hbuilding, base, hc⟩ := ih
    refine ⟨hw, hkeep base hbuilding ?_⟩
    exact (buildPending_meets hw (fun _ _ => trivial) hbuilding
      (fun _ _ _ _ _ _ _ => trivial) hc).imp (fun _ _ h => h.1) fun _ _ h => h.1

/-- A schema that is expanded has a workshop that is ready, which has built what was pending. -/
theorem ready_of_run {e : Expander} {t : Text} {ds : List Declaration} {is : List Instance}
    {c' : Context} (h : Gives (e.run t) {} (ds, is) c') :
    ∃ naming annotations blocks fs read c c₁,
      (e.workshop naming ds).Ready annotations blocks fs read c ∧
      Gives (e.workshop naming ds).buildPending c is c₁ := by
  unfold Expander.run at h
  simp only [gives_bind, gives_tell, gives_pure] at h
  obtain ⟨reading, c₀, hread, rs, c, hresolve, is', c₁, hbuild, _, _, rfl, heq, rfl⟩ := h
  obtain ⟨rfl, rfl⟩ := Prod.mk.inj heq
  obtain ⟨blocks, fs, hreadFrom⟩ := readFrom_of_read hread
  exact ⟨reading.naming, reading.annotations, blocks, fs, reading.declarations, c, c₁,
    ⟨c₀, rs, hreadFrom, hresolve, rfl⟩, hbuild⟩

/-! ### From fragments on -/

/-- Read the declarations of fragments and resolve them. -/
def resolveFragments (naming : Naming) (annotations : List Annotation)
    (comments : Resolve (List CommentBlock)) (fs : List Fragment) :
    Resolve (List Declaration × List Declaration) := do
  let parsed ← parseFragments naming annotations fs
  let blocks ← comments
  let ds := attachComments blocks parsed
  let rs ← resolveAll ds
  return (ds, rs ++ directiveDeclarations annotations)

/-- The stages of expanding a schema from its fragments on: the declarations read, the declarations
resolved, and the instances. -/
def Expander.expandFragments (e : Expander) (naming : Naming) (annotations : List Annotation)
    (comments : Resolve (List CommentBlock)) (fs : List Fragment) :
    Resolve (List Declaration × List Declaration × List Instance) := do
  let r ← resolveFragments naming annotations comments fs
  let is ← (e.workshop naming r.2).buildPending
  return (r.1, r.2, is)

theorem Expander.run_eq (e : Expander) (t : Text) : e.run t = (do
    let extraction ← Resolve.ofReport (extract t)
    let chosen ← Resolve.ofExcept (chosenAliases extraction.annotations)
    let fragments ← Resolve.ofReport (readFragments extraction.plain)
    let r ← e.expandFragments (e.naming chosen) extraction.annotations
      (Resolve.ofReport (locateComments extraction.plain)) fragments
    Resolve.tell (.schemaExpanded r.2.1.length r.2.2.length)
    return r.2) := by
  unfold Expander.run Expander.read Expander.expandFragments resolveFragments
  simp only [bind_assoc, pure_bind]

section Fragments

variable {e : Expander} {naming : Naming} {annotations : List Annotation}
    {blocks : List CommentBlock}
  {fs : List Fragment} {ds rs : List Declaration} {c c' : Context}

theorem gives_resolveFragments {r : List Declaration × List Declaration} :
    Gives (resolveFragments naming annotations (pure blocks) fs) c r c' ↔
      ∃ parsed c₀ rs, Gives (parseFragments naming annotations fs) c parsed c₀ ∧
        Gives (resolveAll (attachComments blocks parsed)) c₀ rs c' ∧
        r = (attachComments blocks parsed, rs ++ directiveDeclarations annotations) := by
  unfold resolveFragments
  simp only [gives_bind, gives_pure]
  constructor
  · rintro ⟨parsed, c₀, hparsed, _, _, ⟨rfl, rfl⟩, rs, c₁, hresolve, rfl, rfl⟩
    exact ⟨parsed, c₀, rs, hparsed, hresolve, rfl⟩
  · rintro ⟨parsed, c₀, rs, hparsed, hresolve, rfl⟩
    exact ⟨parsed, c₀, hparsed, blocks, c₀, ⟨rfl, rfl⟩, rs, c', hresolve, rfl, rfl⟩

theorem gives_expandFragments {comments : Resolve (List CommentBlock)} {is : List Instance} :
    Gives (e.expandFragments naming annotations comments fs) c (ds, rs, is) c' ↔
      ∃ c₁, Gives (resolveFragments naming annotations comments fs) c (ds, rs) c₁ ∧
        Gives (e.workshop naming rs).buildPending c₁ is c' := by
  unfold Expander.expandFragments
  simp only [gives_bind, gives_pure, Prod.mk.injEq]
  constructor
  · rintro ⟨r, c₁, hresolve, is', _, hbuild, ⟨rfl, rfl, rfl⟩, rfl⟩
    exact ⟨c₁, hresolve, hbuild⟩
  · rintro ⟨c₁, hresolve, hbuild⟩
    exact ⟨(ds, rs), c₁, hresolve, is, c', hbuild, ⟨rfl, rfl, rfl⟩, rfl⟩

theorem ready_of_resolveFragments (e : Expander)
    (h : Gives (resolveFragments naming annotations (pure blocks) fs) {} (ds, rs) c) :
    (e.workshop naming rs).Ready annotations blocks fs ds c := by
  obtain ⟨parsed, c₀, resolved, hparsed, hresolve, heq⟩ := gives_resolveFragments.mp h
  obtain ⟨rfl, rfl⟩ := Prod.mk.inj heq
  exact ⟨c₀, resolved, ⟨[], parsed, c₀, hparsed, rfl, rfl⟩, hresolve, rfl⟩

end Fragments

/-! ### What an instance is -/

/-- In the context `c`, the use `u'` is what reading the expression of `u` gives outside of any
template, with type arguments in the place of type parameters.  A use that is kept also keeps the
type parameters that it carries. -/
def SubstitutesIn (naming : Naming) (c : Context) (parameters arguments : List Text)
    (u u' : TypeUse) : Prop :=
  (∃ e v c', substitute u.origin parameters arguments = .ok e ∧
    Gives (useType naming e none u.directive) c v c' ∧ u' = { v with letters := u'.letters }) ∧
  u'.directive = u.directive

theorem Substitutes.substitutesIn {naming : Naming} {parameters arguments : List Text}
    {u u' : TypeUse} (h : Substitutes naming parameters arguments u u') {c : Context}
    (hc : c.NamesSound naming) : SubstitutesIn naming c parameters arguments u u' := by
  obtain ⟨⟨e, he, huse⟩, hdirective⟩ := h
  obtain ⟨c', hgives⟩ := (huse ▸ useType_computes naming e none u.directive).gives hc
  exact ⟨⟨e, _, c', he, hgives, rfl⟩, hdirective⟩

/-- **Every instance stored is its template with type arguments in the place of type parameters.**
Whatever was asked of a workshop before, after it has built what is pending each instance stored
under an alias `n` has a canonical core that is remembered with this alias.  The base name of the
core is that of a template, the first of its name that extends nothing, with as many type parameters
as the core has type arguments.  The declaration of the instance is the template with the name `n`,
without type parameters and ancestors, and with its uses of types replaced by what reading the
substituted expressions gives, in place; its own fields are the fields it has.  The text of the
instance is this declaration. -/
theorem buildPending_substitutes {w : Workshop} {c c' : Context} {is : List Instance}
    (hc : w.Asked c) (h : Gives w.buildPending c is c') :
    is = c'.instances.values ∧ ∀ n i, (n, i) ∈ c'.instances.entries →
      ∃ k a template, normalize k = .ok k ∧ c'.aliasNames.get? k = some n ∧
        Application.ofText k = .ok a ∧ w.template? a.base = some template ∧
        (template.parameters.getD []).length = a.arguments.length ∧ i.name = n ∧
        Declaration.Specializes
          (SubstitutesIn w.naming c' (template.parameters.getD []) a.arguments)
          template n i.declaration ∧
        i.text = i.declaration.render w.layout := by
  obtain ⟨hw, hbuilding, base, hstores⟩ := hc.stores
  obtain ⟨⟨hstores', -⟩, his⟩ := (buildPending_meets hw (fun _ _ => trivial) hbuilding
    (fun _ _ _ _ _ _ _ => trivial) hstores).gives h
  refine ⟨his, ?_⟩
  intro n i hi
  -- the core told with the instance
  obtain ⟨l, -, hall⟩ := hstores'.told
  obtain ⟨⟨k, m⟩, -, rfl, -, hk, hinstance⟩ := exists_right_of_forall₂ hall hi
  have hn := (hstores'.names _ _ hk).2
  have hname : i.name = m := Except.ok.inj (hinstance.name.symm.trans hn)
  obtain ⟨template, arguments, htemplate, hspec⟩ := hinstance.declaration
  obtain ⟨a, ha, hfind, rfl, hlength⟩ := templateOf_eq_ok.mp htemplate
  refine ⟨k, a, template, hinstance.normal, hk, ha, hfind, hlength, hname, ?_, hinstance.text⟩
  -- uses that are kept and uses that are read anew are substituted alike
  rw [hname] at hspec
  refine hspec.imp fun u hu v hv => ?_
  exact (hw.substitutes hinstance.normal hn htemplate hu hv).substitutesIn hstores'.names

/-- A schema with templates that use themselves and each other, in types of fields and of arguments,
with a default and a directive, and as members of a union. -/
def warehouse : Text :=
  "type Paged<T> \x7b items(of: Filter<T> = 1): [T!] @cost next: Paged<T> \x7d\n".toList ++
    "input Filter<T> \x7b equals: T \x7d\nunion Found<A, B> = A | Paged<B>\n".toList ++
    "type Query \x7b found: [Found<ID, [Product]>] \x7d".toList

theorem run_warehouse :
    (((({} : Expander).run warehouse).outcome {}).1.toOption.map fun r => r.2.map Instance.name) =
      some ["FilterProduct".toList, "PagedProduct".toList, "FoundIDProduct".toList] := by
  decide +kernel

/-- The theorem on a schema with templates that use themselves and each other. -/
theorem buildPending_substitutes_warehouse :
    ∃ (w : Workshop) (c : Context) (is : List Instance) (c' : Context), w.Asked c ∧
      Gives w.buildPending c is c' ∧
      is.map Instance.name = ["FilterProduct".toList, "PagedProduct".toList,
        "FoundIDProduct".toList] ∧
      is = c'.instances.values ∧ ∀ n i, (n, i) ∈ c'.instances.entries →
        ∃ k a template, normalize k = .ok k ∧ c'.aliasNames.get? k = some n ∧
          Application.ofText k = .ok a ∧ w.template? a.base = some template ∧
          (template.parameters.getD []).length = a.arguments.length ∧ i.name = n ∧
          Declaration.Specializes
            (SubstitutesIn w.naming c' (template.parameters.getD []) a.arguments)
            template n i.declaration ∧
          i.text = i.declaration.render w.layout := by
  obtain ⟨⟨ds, is⟩, c₁, hrun, hnames⟩ := exists_gives_of_outcome run_warehouse
  obtain ⟨naming, annotations, blocks, fs, read, c, c', hready, hbuild⟩ := ready_of_run hrun
  exact ⟨_, c, is, c', .resolved hready, hbuild, hnames,
    buildPending_substitutes (.resolved hready) hbuild⟩

/-- An instance is not its template in all but name, type parameters, ancestors, fields and members:
its own fields are the fields of the instance. -/
theorem instance_ne_template_sharedAlias :
    ∃ (w : Workshop) (c : Context) (is : List Instance) (c' : Context), w.Asked c ∧
      Gives w.buildPending c is c' ∧ ∃ n i, (n, i) ∈ c'.instances.entries ∧
        ∀ k a template, c'.aliasNames.get? k = some n → Application.ofText k = .ok a →
          w.template? a.base = some template → i.declaration ≠ { template with
            name := n, parameters := none, inherits := none, fields := i.declaration.fields,
            members := i.declaration.members } := by
  obtain ⟨naming, annotations, blocks, fs, read, c, c', hready, hbuild⟩ :=
    ready_of_run (gives_of_outcome run_sharedAlias)
  refine ⟨_, c, _, c', .resolved hready, hbuild, ?_⟩
  obtain ⟨-, hvalues⟩ := (buildPending_meets hready.written (fun _ _ => trivial) hready.building_eq
    (fun _ _ _ _ _ _ _ => trivial) (hready.stores fun _ => True)).gives hbuild
  have hmem : sharedInstance ∈ c'.instances.values := by
    rw [← hvalues]
    exact List.mem_singleton.mpr rfl
  obtain ⟨⟨n, i⟩, hentry, rfl⟩ := List.mem_map.mp hmem
  refine ⟨n, sharedInstance, hentry, ?_⟩
  intro k a template _ _ hfind heq
  -- there is only one template
  have hdeclaration : template ∈ [sharedTemplate, sharedQuery] :=
    (List.mem_filter.mp (List.mem_of_find?_eq_some hfind)).1
  have htemplate := List.find?_some hfind
  simp only [List.mem_cons, List.not_mem_nil, or_false] at hdeclaration
  rcases hdeclaration with rfl | rfl
  · have hown := congrArg Declaration.ownFields heq
    change sharedInstance.declaration.ownFields = sharedTemplate.ownFields at hown
    exact absurd hown (by decide)
  · exact absurd htemplate (by decide)

end Schemata
