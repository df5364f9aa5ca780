import Schemata.Proofs.Remembering
import Schemata.Proofs.Stored

/-!
# The instances that are needed

A schema needs the instances of the generic uses written in it, and whatever needs an instance needs
the instances of the generic uses in that one too.  Building what is pending goes through the uses
in the order in which they are written and leaves out what is there or being built; in the end it
has built what is needed and nothing else.

What is built is found to be needed by following the cores through the run, and what is needed is
found to be built by following how it is needed.  The second depends on different cores having
different aliases, as instances are looked for by alias.
-/

namespace Schemata

open Resolve List

/-- The cores that the declarations `ds` need instances of: those of the generic uses written, and
those of the generic uses in the instances that are needed. -/
inductive Workshop.Needed (w : Workshop) (ds : List Declaration) : Text → Prop
  /-- The core of a generic use that depends on no type parameter. -/
  | written {d : Declaration} {u : TypeUse} {k : Text} (mem : d ∈ ds) (use : u ∈ d.uses)
      (concrete : u.isConcrete = true) (core : HasCore u k) : Needed w ds k
  /-- The core of a generic use in the template of a core, with type arguments in the place of type
  parameters. -/
  | nested {k m : Text} (outer : Needed w ds k) (nests : w.Nests k m) : Needed w ds m

/-- Different cores that the declarations need have different aliases. -/
def Workshop.DistinctAliases (w : Workshop) (ds : List Declaration) : Prop :=
  ∀ k m n, w.Needed ds k → w.Needed ds m → aliasOf w.naming k = .ok n →
    aliasOf w.naming m = .ok n → k = m

/-! ### What is pending -/

section Pending

variable {w : Workshop} {annotations : List Annotation} {blocks : List CommentBlock}
  {fs : List Fragment} {ds : List Declaration} {c : Context}

/-- Where declarations are read and resolved, the uses that are pending are those written. -/
theorem Workshop.Ready.reads (h : w.Ready annotations blocks fs ds c) :
    c.pending.keys.Nodup ∧
      (∀ {n v}, c.pending.get? n = some v → v ∈ ds.flatMap Declaration.uses ∧ v.isConcrete ∧
        HasAlias w.naming v n) ∧
      ∀ u ∈ ds.flatMap Declaration.uses, u.isConcrete → ∃ n, HasAlias w.naming u n ∧
        (c.pending.get? n).isSome := by
  obtain ⟨c₀, hread, hframe⟩ := h.exists_readFrom
  obtain ⟨-, log, hreads⟩ := hread.reads
  have hpending : c.pending = c₀.pending := by rw [hframe]
  rw [hpending]
  refine ⟨hreads.nodup nodup_nil, fun hv => ?_, hreads.pending⟩
  rcases hreads.new hv with hv | hv
  · cases hv
  · exact hv

theorem Workshop.Ready.of_mem_pending (h : w.Ready annotations blocks fs ds c) {u : TypeUse}
    (hu : u ∈ c.pending.values) :
    ∃ n, c.pending.get? n = some u ∧ u ∈ ds.flatMap Declaration.uses ∧ u.isConcrete ∧
      HasAlias w.naming u n := by
  obtain ⟨hnodup, hnew, -⟩ := h.reads
  obtain ⟨n, hn⟩ := Table.exists_get?_of_mem_values hnodup hu
  exact ⟨n, hn, hnew hn⟩

/-- What is built is needed, and building fails only if instances nest too deep or a core that is
needed has no instance. -/
theorem Workshop.Ready.buildPending_meets (h : w.Ready annotations blocks fs ds c) :
    Meets w.buildPending c
      (fun is c' => c'.Stores w (w.Needed ds) c.log [] ∧ is = c'.instances.values)
      fun e _ => w.Stuck (w.Needed ds) e := by
  refine (Schemata.buildPending_meets h.written .nested h.building_eq ?_
    (h.stores (w.Needed ds))).imp ?_ ?_
  · intro u hu hconcrete k n hk _
    obtain ⟨-, -, hmem, -⟩ := h.of_mem_pending hu
    obtain ⟨d, hd, hud⟩ := mem_flatMap.mp hmem
    exact .written hd hud hconcrete hk
  · rintro is c' ⟨⟨hstores, -⟩, his⟩
    exact ⟨hstores, his⟩
  · rintro e c' ⟨-, hstuck | ⟨u, hu, -, hno⟩⟩
    · exact hstuck
    · obtain ⟨n, -, -, -, hn⟩ := h.of_mem_pending hu
      exact absurd hn (hno n)

end Pending

/-! ### What is needed is built -/

theorem HasCore.unique {u : TypeUse} {k k' : Text} (h : HasCore u k) (h' : HasCore u k') :
    k = k' := by
  obtain ⟨core, hcore, hk⟩ := h
  obtain ⟨core', hcore', hk'⟩ := h'
  obtain rfl := ok_unique hcore hcore'
  exact ok_unique hk hk'

theorem Substitutes.hasCore_iff {naming : Naming} {parameters arguments : List Text}
    {u v v' : TypeUse} (h : Substitutes naming parameters arguments u v)
    (h' : Substitutes naming parameters arguments u v') {k : Text} :
    v.isConcrete ∧ HasCore v k ↔ v'.isConcrete ∧ HasCore v' k := by
  obtain ⟨⟨e, he, huse⟩, -⟩ := h
  obtain ⟨⟨e', he', huse'⟩, -⟩ := h'
  obtain rfl := ok_unique he he'
  have heq := ok_unique huse huse'
  simp only [TypeUse.mk.injEq] at heq
  obtain ⟨horigin, hgeneric, -, hdeferred, -⟩ := heq
  unfold TypeUse.isConcrete HasCore
  rw [horigin, hgeneric, hdeferred]

theorem InstanceOf.exists_use {w : Workshop} {k m : Text} {i : Instance} (hw : w.Written)
    (h : InstanceOf w k i) (hnests : w.Nests k m) :
    ∃ u ∈ i.declaration.uses, u.isConcrete ∧ HasCore u m := by
  obtain ⟨template, arguments, u, v, ht, hu, hv, hconcrete, hcore⟩ := hnests
  obtain ⟨template', arguments', ht', hspec⟩ := h.declaration
  obtain ⟨rfl, rfl⟩ := Prod.mk.inj (ok_unique ht ht')
  obtain ⟨u', hu', hsubst⟩ := exists_right_of_forall₂ hspec.uses hu
  have hv' := hw.substitutes h.normal h.name ht hu hsubst
  exact ⟨u', hu', (hv.hasCore_iff hv').mp ⟨hconcrete, hcore⟩⟩

section Built

variable {w : Workshop} {annotations : List Annotation} {blocks : List CommentBlock}
  {fs : List Fragment} {ds : List Declaration} {c c' : Context} {is : List Instance} {k : Text}

/-- **Every core that is needed has its instance**, under its alias. -/
theorem Workshop.Ready.exists_instance (hready : w.Ready annotations blocks fs ds c)
    (hdistinct : w.DistinctAliases ds) (h : Gives w.buildPending c is c') (hk : w.Needed ds k) :
    ∃ n i, c'.instances.get? n = some i ∧ InstanceOf w k i := by
  obtain ⟨hstores, -⟩ := hready.buildPending_meets.gives h
  have hinstances : c.instances = {} := by
    obtain ⟨c₀, hread, hframe⟩ := hready.exists_readFrom
    rw [hframe, hread.frame]
  have hsound : c.BuildSound w := by
    refine ⟨(hready.stores fun _ => True).names, ?_⟩
    rw [hinstances]
    exact nodup_nil
  obtain ⟨-, hbuilds, -⟩ := buildPending_spec hready.written.usesRead hsound hready.building_eq (by
    intro u hu _
    obtain ⟨n, -, -, -, hn⟩ := hready.of_mem_pending hu
    exact ⟨n, hn⟩) h
  -- what is found under the alias of a core that is needed is the instance of this core
  have hfound : ∀ {u : TypeUse} {k n : Text}, w.Needed ds k → HasCore u k → HasAlias w.naming u n →
      (c'.instances.get? n).isSome → ∃ n i, c'.instances.get? n = some i ∧ InstanceOf w k i := by
    intro u k n hk hcore hn hsome
    obtain ⟨i, hi⟩ := Option.isSome_iff_exists.mp hsome
    obtain ⟨k', hk', hget, hinstance⟩ := hstores.exists_built hi
    obtain ⟨k₀, hcore₀, hn₀⟩ := hn.exists_core
    obtain rfl := hcore.unique hcore₀
    obtain rfl := hdistinct k k' n hk hk' hn₀ (hstores.names _ _ hget).2
    exact ⟨n, i, hi, hinstance⟩
  -- by induction on how the core is needed
  induction hk with
  | @written d u k hd hu hconcrete hcore =>
    have hmem : u ∈ ds.flatMap Declaration.uses := mem_flatMap.mpr ⟨d, hd, hu⟩
    obtain ⟨-, hnew, hpending⟩ := hready.reads
    obtain ⟨n, hn, hsome⟩ := hpending u hmem hconcrete
    -- the use that is pending under the alias has been built
    obtain ⟨v, hv⟩ := Option.isSome_iff_exists.mp hsome
    obtain ⟨-, hconcrete', hvn⟩ := hnew hv
    obtain ⟨m, hm, hdone⟩ := hbuilds.done v (Table.mem_values_of_get? hv) hconcrete'
    obtain rfl := hvn.unique hm
    exact hfound (.written hd hu hconcrete hcore) hcore hn (hdone.resolve_left not_mem_nil)
  | @nested k m hk hnests ih =>
    obtain ⟨n, i, hi, hinstance⟩ := ih
    -- the use stands in the instance, and all uses in an instance have been built
    obtain ⟨u, hu, hconcrete, hcore⟩ := hinstance.exists_use hready.written hnests
    rcases hbuilds.new hi with hold | ⟨-, -, -, huses⟩
    · rw [hinstances] at hold
      cases hold
    · obtain ⟨j, hj, hdone⟩ := huses u hu hconcrete
      exact hfound (.nested hk hnests) hcore hj (hdone.resolve_left not_mem_nil)

/-- **The instances stored** are those of the cores that are needed, under their names. -/
theorem Workshop.Ready.get?_instances_iff (hready : w.Ready annotations blocks fs ds c)
    (hdistinct : w.DistinctAliases ds) (h : Gives w.buildPending c is c') {n : Text}
    {i : Instance} :
    c'.instances.get? n = some i ↔ i.name = n ∧ ∃ k, w.Needed ds k ∧ InstanceOf w k i := by
  obtain ⟨hstores, -⟩ := hready.buildPending_meets.gives h
  have hname : ∀ {n : Text} {i : Instance}, c'.instances.get? n = some i →
      i.name = n ∧ ∃ k, w.Needed ds k ∧ InstanceOf w k i := by
    intro n i hi
    obtain ⟨k, hk, -, hinstance⟩ := hstores.exists_built hi
    exact ⟨hstores.name_eq hi, k, hk, hinstance⟩
  constructor
  · exact hname
  · rintro ⟨rfl, k, hk, hinstance⟩
    obtain ⟨n, j, hj, hinstance'⟩ := hready.exists_instance hdistinct h hk
    obtain rfl := hinstance.unique hinstance'
    rw [(hname hj).1]
    exact hj

theorem Workshop.Ready.mem_iff (hready : w.Ready annotations blocks fs ds c)
    (hdistinct : w.DistinctAliases ds) (h : Gives w.buildPending c is c') {i : Instance} :
    i ∈ is ↔ ∃ k, w.Needed ds k ∧ InstanceOf w k i := by
  obtain ⟨hstores, rfl⟩ := hready.buildPending_meets.gives h
  constructor
  · intro hi
    obtain ⟨entry, hentry, rfl⟩ := mem_map.mp hi
    obtain ⟨l, -, hall⟩ := hstores.told
    obtain ⟨b, -, -, hk, -, hinstance⟩ := exists_right_of_forall₂ hall hentry
    exact ⟨b.1, hk, hinstance⟩
  · intro hi
    exact Table.mem_values_of_get? ((hready.get?_instances_iff hdistinct h).mpr ⟨rfl, hi⟩)

theorem Workshop.Ready.told_iff (hready : w.Ready annotations blocks fs ds c)
    (hdistinct : w.DistinctAliases ds) (h : Gives w.buildPending c is c') :
    ∃ l, c'.log = c.log ++ l ∧ ∀ k, (∃ n, Event.instanceBuilt k n ∈ l) ↔ w.Needed ds k := by
  obtain ⟨hstores, -⟩ := hready.buildPending_meets.gives h
  obtain ⟨l, hlog, hall⟩ := hstores.told
  have hbuilt : ∀ {k n : Text}, (k, n) ∈ l.filterMap Event.built? ↔
      Event.instanceBuilt k n ∈ l := by
    intro k n
    rw [mem_filterMap]
    constructor
    · rintro ⟨event, hmem, hevent⟩
      cases event <;> cases hevent
      exact hmem
    · exact fun hmem => ⟨_, hmem, rfl⟩
  refine ⟨l, hlog, fun k => ⟨?_, fun hk => ?_⟩⟩
  · rintro ⟨n, hmem⟩
    obtain ⟨_, -, -, hk, -⟩ := exists_left_of_forall₂ hall (hbuilt.mpr hmem)
    exact hk
  · obtain ⟨n, i, hi, hinstance⟩ := hready.exists_instance hdistinct h hk
    obtain ⟨⟨k', m⟩, hmem, rfl, hk', -, hinstance'⟩ :=
      exists_right_of_forall₂ hall (Table.mem_of_find? hi)
    obtain rfl := hdistinct k k' i.name hk hk' hinstance.name hinstance'.name
    exact ⟨m, hbuilt.mp hmem⟩

end Built

/-! ### Workshops with the same templates -/

/-- Workshops in which every base name stands for the same template. -/
structure Workshop.Alike (w w' : Workshop) : Prop where
  naming : w'.naming = w.naming
  layout : w'.layout = w.layout
  template : ∀ base, w'.template? base = w.template? base

section Alike

variable {w w' : Workshop} {ds ds' : List Declaration} {k m : Text}

theorem Workshop.Alike.symm (h : w.Alike w') : w'.Alike w :=
  ⟨h.naming.symm, h.layout.symm, fun base => (h.template base).symm⟩

theorem Workshop.Alike.templateOf (h : w.Alike w') {p : Declaration × List Text}
    (hp : w.templateOf k = .ok p) : w'.templateOf k = .ok p := by
  obtain ⟨a, ha, ht, harguments, hlength⟩ := templateOf_eq_ok.mp hp
  exact templateOf_eq_ok.mpr ⟨a, ha, (h.template a.base).trans ht, harguments, hlength⟩

theorem Workshop.Alike.nests (h : w.Alike w') (hn : w.Nests k m) : w'.Nests k m := by
  obtain ⟨template, arguments, u, v, ht, hu, hv, hcore⟩ := hn
  refine ⟨template, arguments, u, v, h.templateOf ht, hu, ?_, hcore⟩
  rw [h.naming]
  exact hv

theorem Workshop.Alike.instanceOf (h : w.Alike w') {i : Instance} (hi : InstanceOf w k i) :
    InstanceOf w' k i := by
  obtain ⟨template, arguments, ht, hspec⟩ := hi.declaration
  refine ⟨hi.normal, ?_, ⟨template, arguments, h.templateOf ht, ?_⟩, ?_⟩
  · rw [h.naming]
    exact hi.name
  · rw [h.naming]
    exact hspec
  · rw [h.layout]
    exact hi.text

theorem Workshop.Alike.needed (h : w.Alike w') (hperm : ds'.Perm ds) (hk : w.Needed ds k) :
    w'.Needed ds' k := by
  induction hk with
  | written hd hu hconcrete hcore => exact .written (hperm.mem_iff.mpr hd) hu hconcrete hcore
  | nested _ hnests ih => exact .nested ih (h.nests hnests)

theorem Workshop.Alike.distinctAliases (h : w.Alike w') (hperm : ds'.Perm ds)
    (hdistinct : w.DistinctAliases ds) : w'.DistinctAliases ds' := by
  intro k m n hk hm hkn hmn
  rw [h.naming] at hkn hmn
  exact hdistinct k m n (h.symm.needed hperm.symm hk) (h.symm.needed hperm.symm hm) hkn hmn

end Alike

section Order

variable {w w' : Workshop} {annotations : List Annotation} {blocks : List CommentBlock}
  {fs fs' : List Fragment} {ds ds' : List Declaration} {c c' c₁ c₁' : Context}
    {is is' : List Instance}

theorem ReadFrom.resolving_eq {naming : Naming} (h : ReadFrom naming annotations blocks fs ds c) :
    c.resolving = [] := by
  rw [h.frame]

/-- The declarations of a workshop that is ready are what those read are resolved to. -/
theorem Workshop.Ready.freshOutcome (h : w.Ready annotations blocks fs ds c)
    (hnames : DistinctNames ds) : ∃ rs, Forall₂ (fun d r => freshOutcome ds d = .ok r) ds rs ∧
      w.declarations = rs ++ directiveDeclarations annotations := by
  obtain ⟨c₀, rs, hread, hresolve, hdeclarations⟩ := h
  exact ⟨rs, (gives_resolveAll_of_sound hnames ⟨hread.resolutionSound, hread.resolving_eq⟩).mp ⟨c,
    hresolve⟩, hdeclarations⟩

theorem Workshop.Ready.perm (h : w.Ready annotations blocks fs ds c)
    (h' : w'.Ready annotations blocks fs' ds' c₁) (hnaming : w'.naming = w.naming)
    (hperm : fs'.Perm fs) : ds'.Perm ds := by
  obtain ⟨c₀, hread, -⟩ := h.exists_readFrom
  obtain ⟨c₀', hread', -⟩ := h'.exists_readFrom
  rw [hnaming] at hread'
  exact hread.perm hread' hperm

/-- **With distinct base names**, the order of the declarations does not matter to the templates. -/
theorem Workshop.Ready.template?_perm (h : w.Ready annotations blocks fs ds c)
    (h' : w'.Ready annotations blocks fs' ds' c₁) (hnames : DistinctNames ds) (hds : ds'.Perm ds)
    (base : Text) : w'.template? base = w.template? base := by
  obtain ⟨rs, hall, hdeclarations⟩ := h.freshOutcome hnames
  obtain ⟨rs', hall', hdeclarations'⟩ := h'.freshOutcome (hnames.perm hds)
  -- each declaration is resolved to the same in both orders
  have hrs : rs'.Perm rs := by
    obtain ⟨rs'', hall'', hrs⟩ := exists_perm_of_freshOutcome hnames hds hall
    have hsame : rs' = rs'' := by
      refine right_unique_forall₂' ?_ hall' hall''
      intro d r r' hr hr'
      exact ok_unique hr hr'
    rw [hsame]
    exact hrs
  have hcandidates := (hnames.of_freshOutcome hall).candidates_perm hrs
  unfold Workshop.template? candidates at *
  rw [hdeclarations, hdeclarations', filter_append, filter_append, congrFun hcandidates base]

theorem Workshop.Ready.get?_instances_eq (h : w.Ready annotations blocks fs ds c)
    (h' : w'.Ready annotations blocks fs' ds' c₁) (hds : ds'.Perm ds) (halike : w.Alike w')
    (hdistinct : w.DistinctAliases ds) (hbuild : Gives w.buildPending c is c')
    (hbuild' : Gives w'.buildPending c₁ is' c₁') (n : Text) :
    c₁'.instances.get? n = c'.instances.get? n := by
  refine Option.ext fun i => ?_
  rw [h.get?_instances_iff hdistinct hbuild,
    h'.get?_instances_iff (halike.distinctAliases hds hdistinct) hbuild']
  refine and_congr_right fun _ => exists_congr fun k => ?_
  exact ⟨fun hk => ⟨halike.symm.needed hds.symm hk.1, halike.symm.instanceOf hk.2⟩,
    fun hk => ⟨halike.needed hds hk.1, halike.instanceOf hk.2⟩⟩

end Order

/-! ### Finding what is needed -/

/-- The core of a generic use that depends on no type parameter, in canonical form. -/
def TypeUse.core? (u : TypeUse) : Option Text :=
  if u.isConcrete then (coreOf u.origin >>= normalize).toOption else none

def writtenCores (ds : List Declaration) : List Text :=
  (ds.flatMap Declaration.uses).filterMap TypeUse.core?

/-- The cores of the generic uses in the template of a core, with type arguments in the place of
type parameters. -/
def Workshop.nestedCores (w : Workshop) (k : Text) : List Text :=
  match w.templateOf k with
  | .error _ => []
  | .ok (template, arguments) => template.uses.filterMap fun u =>
      match substitute u.origin (template.parameters.getD []) arguments with
      | .error _ => none
      | .ok e => (useOf w.naming e none u.directive).toOption.bind TypeUse.core?

/-- Whether a list of cores contains those written, and with each core those nested in it. -/
def Workshop.covers (w : Workshop) (ds : List Declaration) (cores : List Text) : Bool :=
  (writtenCores ds).all cores.contains && cores.all fun k => (w.nestedCores k).all cores.contains

section Covers

variable {w : Workshop} {ds : List Declaration} {cores : List Text} {k m : Text} {u : TypeUse}

theorem HasCore.core?_eq (h : HasCore u k) (hu : u.isConcrete) : u.core? = some k := by
  obtain ⟨core, hcore, hk⟩ := h
  unfold TypeUse.core?
  rw [if_pos hu, bind_eq_ok.mpr ⟨core, hcore, hk⟩]
  rfl

theorem Workshop.Nests.mem_nestedCores (h : w.Nests k m) : m ∈ w.nestedCores k := by
  obtain ⟨template, arguments, u, v, ht, hu, ⟨⟨e, he, huse⟩, -⟩, hconcrete, hcore⟩ := h
  unfold Workshop.nestedCores
  rw [ht]
  refine mem_filterMap.mpr ⟨u, hu, ?_⟩
  simp only [he, huse]
  exact hcore.core?_eq hconcrete

theorem Workshop.Needed.mem_of_covers (hk : w.Needed ds k) (h : w.covers ds cores) : k ∈ cores := by
  obtain ⟨hwritten, hnested⟩ := Bool.and_eq_true_iff.mp h
  rw [all_eq_true] at hwritten hnested
  induction hk with
  | written hd hu hconcrete hcore =>
    refine contains_iff_mem.mp (hwritten _ ?_)
    exact mem_filterMap.mpr ⟨_, mem_flatMap.mpr ⟨_, hd, hu⟩, hcore.core?_eq hconcrete⟩
  | nested _ hnests ih =>
    exact contains_iff_mem.mp (all_eq_true.mp (hnested _ ih) _ hnests.mem_nestedCores)

theorem Workshop.distinctAliases_of_covers (h : w.covers ds cores)
    (hcores : (cores.map fun k => (aliasOf w.naming k).toOption).Nodup) : w.DistinctAliases ds := by
  intro k m n hk hm hkn hmn
  refine inj_on_of_nodup_map hcores (hk.mem_of_covers h) (hm.mem_of_covers h) ?_
  simp only [hkn, hmn]

end Covers

/-! ### What is built -/

/-- **What is built is the least that is closed.**  If different cores that are needed have
different aliases, then the cores told to be built are those that are needed: those of the generic
uses written, and those of the generic uses that come of putting the type arguments of such a core
in the place of the type parameters of its template.  The instances stored are their instances, each
under its name.

If the same fragments are read in another order, and either base names are distinct or every base
name stands for the same template, then the same instances are stored. -/
theorem buildPending_least {w : Workshop} {annotations : List Annotation}
    {blocks : List CommentBlock} {fs : List Fragment} {ds : List Declaration} {c c' : Context}
    {is : List Instance} (hready : w.Ready annotations blocks fs ds c)
    (hdistinct : w.DistinctAliases ds) (h : Gives w.buildPending c is c') :
    (∃ l, c'.log = c.log ++ l ∧ ∀ k, (∃ n, Event.instanceBuilt k n ∈ l) ↔ w.Needed ds k) ∧
    (∀ k, w.Needed ds k → ∃ i ∈ is, InstanceOf w k i) ∧
    (∀ n i, c'.instances.get? n = some i ↔ i ∈ is ∧ i.name = n) ∧
    (∀ i, i ∈ is ↔ ∃ k, w.Needed ds k ∧ InstanceOf w k i) ∧
    ∀ (w' : Workshop) (fs' : List Fragment) (ds' : List Declaration) (c₁ : Context)
      (is' : List Instance) (c₁' : Context), fs'.Perm fs → w'.Ready annotations blocks fs' ds' c₁ →
      w'.naming = w.naming → w'.layout = w.layout → Gives w'.buildPending c₁ is' c₁' →
      (DistinctNames ds ∨ ∀ base, w'.template? base = w.template? base) →
      ∀ n, c₁'.instances.get? n = c'.instances.get? n := by
  refine ⟨hready.told_iff hdistinct h, ?_, ?_, fun i => hready.mem_iff hdistinct h, ?_⟩
  · intro k hk
    obtain ⟨n, i, -, hinstance⟩ := hready.exists_instance hdistinct h hk
    exact ⟨i, (hready.mem_iff hdistinct h).mpr ⟨k, hk, hinstance⟩, hinstance⟩
  · intro n i
    rw [hready.get?_instances_iff hdistinct h, hready.mem_iff hdistinct h, and_comm]
  · intro w' fs' ds' c₁ is' c₁' hperm hready' hnaming hlayout h' hsame
    have hds := hready.perm hready' hnaming hperm
    have htemplate : ∀ base, w'.template? base = w.template? base := by
      rcases hsame with hnames | htemplate
      · exact hready.template?_perm hready' hnames hds
      · exact htemplate
    exact hready.get?_instances_eq hready' hds ⟨hnaming, hlayout, htemplate⟩ hdistinct h h'

/-- Templates that use themselves and each other, one of them also outside of any type parameter,
and two types that use one of them. -/
def shelves : List Fragment :=
  [{ kind := .type, header := "type Paged<T>".toList,
      items := ["items(by: Filter<T>): [T]".toList, "next: Paged<T>".toList] },
    { kind := .input, header := "input Filter<T>".toList,
      items := ["all: [Filter<T>]".toList, "within: Range<ID>".toList] },
    { kind := .input, header := "input Range<T>".toList, items := ["start: T".toList] },
    { kind := .type, header := "type Query".toList, items := ["products: Paged<Product>".toList] },
    { kind := .type, header := "type Shop".toList, items := ["owners: Paged<Owner>".toList] }]

def shelvesCores : List Text :=
  ["Paged<Product>".toList, "Paged<Owner>".toList, "Filter<Product>".toList, "Filter<Owner>".toList,
    "Range<ID>".toList]

theorem expandFragments_shelves :
    (((({} : Expander).expandFragments {} [] (pure []) shelves).outcome {}).1.toOption.map fun r =>
      ((({} : Expander).workshop {} r.2.1).covers r.1 shelvesCores, decide (DistinctNames r.1),
        r.2.2.map Instance.name)) = some (true, true, ["RangeID".toList, "FilterProduct".toList,
          "PagedProduct".toList, "FilterOwner".toList, "PagedOwner".toList]) := by
  decide +kernel

theorem expandFragments_shelves_reverse :
    (((({} : Expander).expandFragments {} [] (pure []) shelves.reverse).outcome {}).1.toOption.map
      fun r => r.2.2.map Instance.name) = some
        ["RangeID".toList, "FilterOwner".toList, "PagedOwner".toList, "FilterProduct".toList,
          "PagedProduct".toList] := by
  decide +kernel

/-- The theorem on templates that use themselves and each other, and on the same the other way
round. -/
theorem buildPending_least_shelves :
    ∃ (w w' : Workshop) (ds ds' : List Declaration) (c c' c₁ c₁' : Context)
      (is is' : List Instance), w.Ready [] [] shelves ds c ∧ w.DistinctAliases ds ∧
        DistinctNames ds ∧ Gives w.buildPending c is c' ∧
      is.map Instance.name = ["RangeID".toList, "FilterProduct".toList, "PagedProduct".toList,
        "FilterOwner".toList, "PagedOwner".toList] ∧
      (∃ l, c'.log = c.log ++ l ∧ ∀ k, (∃ n, Event.instanceBuilt k n ∈ l) ↔ w.Needed ds k) ∧
      (∀ k, w.Needed ds k → ∃ i ∈ is, InstanceOf w k i) ∧
      w'.Ready [] [] shelves.reverse ds' c₁ ∧ Gives w'.buildPending c₁ is' c₁' ∧
      is'.map Instance.name = ["RangeID".toList, "FilterOwner".toList, "PagedOwner".toList,
        "FilterProduct".toList, "PagedProduct".toList] ∧
      ∀ n, c₁'.instances.get? n = c'.instances.get? n := by
  obtain ⟨⟨ds, rs, is⟩, c', hrun, heq⟩ := exists_gives_of_outcome expandFragments_shelves
  obtain ⟨⟨ds', rs', is'⟩, c₁', hrun', his'⟩ :=
    exists_gives_of_outcome expandFragments_shelves_reverse
  simp only [Prod.mk.injEq, decide_eq_true_eq] at heq his'
  obtain ⟨hcovers, hnames, his⟩ := heq
  obtain ⟨c, hresolve, h⟩ := gives_expandFragments.mp hrun
  obtain ⟨c₁, hresolve', h'⟩ := gives_expandFragments.mp hrun'
  have hready := ready_of_resolveFragments {} hresolve
  have hready' := ready_of_resolveFragments {} hresolve'
  have haliases : (shelvesCores.map fun k => (aliasOf {} k).toOption).Nodup := by decide +kernel
  have hdistinct := Workshop.distinctAliases_of_covers hcovers haliases
  obtain ⟨htold, hneeded, -, -, horder⟩ := buildPending_least hready hdistinct h
  exact ⟨_, _, ds, ds', c, c', c₁, c₁', is, is', hready, hdistinct, hnames, h, his, htold, hneeded,
    hready', h', his',
    horder _ _ _ _ _ _ (List.reverse_perm shelves) hready' rfl rfl h' (.inl hnames)⟩

/-- Two templates of one name, and a use of the name. -/
def twoPaged : List Fragment :=
  [{ kind := .type, header := "type Paged<T>".toList, items := ["a: T".toList] },
    { kind := .input, header := "input Paged<T>".toList, items := ["b: T".toList] },
    { kind := .type, header := "type Query".toList, items := ["x: Paged<ID>".toList] }]

theorem expandFragments_twoPaged :
    (((({} : Expander).expandFragments {} [] (pure []) twoPaged).outcome {}).1.toOption.map fun r =>
      ((({} : Expander).workshop {} r.2.1).covers r.1 ["Paged<ID>".toList],
        r.2.2.map fun i => (i.name, i.declaration.kind))) =
          some (true, [("PagedID".toList, .type)]) := by
  decide +kernel

theorem expandFragments_twoPaged_reverse :
    (((({} : Expander).expandFragments {} [] (pure []) twoPaged.reverse).outcome {}).1.toOption.map
      fun r => ((({} : Expander).workshop {} r.2.1).covers r.1 ["Paged<ID>".toList],
        r.2.2.map fun i => (i.name, i.declaration.kind))) =
          some (true, [("PagedID".toList, .input)]) := by
  decide +kernel

/-- With two templates of one name, the order of the declarations decides which of them is
instantiated. -/
theorem instances_ne_twoPaged :
    ∃ (w w' : Workshop) (fs' : List Fragment) (ds ds' : List Declaration) (c c' c₁ c₁' : Context)
      (is is' : List Instance), fs'.Perm twoPaged ∧ w.Ready [] [] twoPaged ds c ∧
        w.DistinctAliases ds ∧
      Gives w.buildPending c is c' ∧ w'.Ready [] [] fs' ds' c₁ ∧ w'.naming = w.naming ∧
      w'.layout = w.layout ∧ w'.DistinctAliases ds' ∧ Gives w'.buildPending c₁ is' c₁' ∧
      ∃ n, c₁'.instances.get? n ≠ c'.instances.get? n := by
  obtain ⟨⟨ds, rs, is⟩, c', hrun, heq⟩ := exists_gives_of_outcome expandFragments_twoPaged
  obtain ⟨⟨ds', rs', is'⟩, c₁', hrun', heq'⟩ :=
    exists_gives_of_outcome expandFragments_twoPaged_reverse
  simp only [Prod.mk.injEq, List.map_eq_singleton_iff] at heq heq'
  obtain ⟨hcovers, i, rfl, hname, hkind⟩ := heq
  obtain ⟨hcovers', i', rfl, hname', hkind'⟩ := heq'
  obtain ⟨c, hresolve, h⟩ := gives_expandFragments.mp hrun
  obtain ⟨c₁, hresolve', h'⟩ := gives_expandFragments.mp hrun'
  have hready := ready_of_resolveFragments {} hresolve
  have hready' := ready_of_resolveFragments {} hresolve'
  have hdistinct := Workshop.distinctAliases_of_covers hcovers (List.nodup_singleton _)
  have hdistinct' := Workshop.distinctAliases_of_covers hcovers' (List.nodup_singleton _)
  refine ⟨_, _, _, ds, ds', c, c', c₁, c₁', [i], [i'], List.reverse_perm twoPaged, hready,
    hdistinct, h, hready', rfl, rfl, hdistinct', h', "PagedID".toList, ?_⟩
  have hi : c'.instances.get? "PagedID".toList = some i :=
    (hready.get?_instances_iff hdistinct h).mpr
    ⟨hname, (hready.mem_iff hdistinct h).mp (List.mem_singleton.mpr rfl)⟩
  have hi' : c₁'.instances.get? "PagedID".toList = some i' :=
    (hready'.get?_instances_iff hdistinct' h').mpr
      ⟨hname', (hready'.mem_iff hdistinct' h').mp (List.mem_singleton.mpr rfl)⟩
  -- the one is a type, the other an input
  rw [hi, hi']
  intro hsame
  rw [Option.some.inj hsame, hkind] at hkind'
  cases hkind'

end Schemata
