import Schemata.Proofs.Needed

/-!
# The order of declarations

The order in which the declarations of a schema are written does not matter to how they are read, to
how they are resolved, and to which instances are needed.  It does matter to how deep instances
nest: what has been built for one declaration is not built again inside an instance that another
needs, so a chain of instances is cut short where one of them is there already.  A schema that is
expanded in one order is expanded in another with the same instances, or the instances nest too
deep; where no chain of instances is longer than the limit, the order makes no difference.
-/

namespace Schemata

open Resolve

/-! ### Two runs -/

theorem Workshop.Alike.chain {w w' : Workshop} (h : w.Alike w') {ds ds' : List Declaration}
    (hds : ds'.Perm ds) {path : List Text} (hpath : w.Chain (w.Needed ds) path) :
    w'.Chain (w'.Needed ds') path := by
  refine ⟨hpath.nodup, ?_, hpath.linked.imp ?_⟩
  · intro n hn
    obtain ⟨k, hk, halias⟩ := hpath.named n hn
    rw [h.naming]
    exact ⟨k, h.needed hds hk, halias⟩
  · rintro n m ⟨k, j, hk, hj, hnests⟩
    rw [h.naming]
    exact ⟨k, j, hk, hj, h.nests hnests⟩

/-- **Building in another order** builds the same instances, or fails because they nest too deep:
there is a chain of instances longer than the limit. -/
theorem Workshop.Ready.buildPending_perm {w w' : Workshop} {annotations : List Annotation}
    {blocks : List CommentBlock} {fs fs' : List Fragment} {ds ds' : List Declaration}
    {c c' c₁ : Context} {is : List Instance} (h : w.Ready annotations blocks fs ds c)
    (h' : w'.Ready annotations blocks fs' ds' c₁) (hds : ds'.Perm ds) (halike : w.Alike w')
    (hdistinct : w.DistinctAliases ds) (hlimit : 1 ≤ w'.limit)
    (hbuild : Gives w.buildPending c is c') :
    Meets w'.buildPending c₁ (fun _ c₁' => ∀ n, c₁'.instances.get? n = c'.instances.get? n)
      fun failure _ => ∃ outermost chain core,
        failure = .schema (.nestedTooDeep w'.limit outermost chain core) ∧
        w.Chain (w.Needed ds) chain ∧ w'.limit < chain.length := by
  refine h'.buildPending_meets.and_gives.imp ?_ ?_
  · rintro is' c₁' ⟨hbuild', -⟩
    exact h.get?_instances_eq h' hds halike hdistinct hbuild hbuild'
  · rintro failure - ((⟨-, hnone⟩ | ⟨outermost, chain, core, rfl, hchain, hlong⟩) | ⟨k, hk, hno⟩)
    · omega
    · exact ⟨outermost, chain, core, rfl, halike.symm.chain hds.symm hchain, hlong⟩
    · -- every core that is needed has its instance, which is built in the other order
      obtain ⟨n, i, -, hinstance⟩ :=
        h.exists_instance hdistinct hbuild (halike.symm.needed hds.symm hk)
      exact absurd (halike.instanceOf hinstance) (hno i)

section Resolving

variable {naming : Naming} {annotations : List Annotation} {blocks : List CommentBlock}
  {fs fs' : List Fragment} {ds ds' rs : List Declaration} {c c₀ c₀' : Context}

theorem ReadFrom.exists_resolveAll (h : ReadFrom naming annotations blocks fs ds c₀)
    (h' : ReadFrom naming annotations blocks fs' ds' c₀') (hnames : DistinctNames ds)
    (hds : ds'.Perm ds) (hresolve : Gives (resolveAll ds) c₀ rs c) :
    ∃ rs' c', Gives (resolveAll ds') c₀' rs' c' := by
  -- what is remembered after reading says nothing about resolving
  have hall :=
    (gives_resolveAll_of_sound hnames ⟨h.resolutionSound, h.resolving_eq⟩).mp ⟨c, hresolve⟩
  obtain ⟨rs', hall', -⟩ := exists_perm_of_freshOutcome hnames hds hall
  exact ⟨rs',
    (gives_resolveAll_of_sound (hnames.perm hds) ⟨h'.resolutionSound, h'.resolving_eq⟩).mpr hall'⟩

theorem exists_perm_of_resolveFragments
    (h : Gives (resolveFragments naming annotations (pure blocks) fs) {} (ds, rs) c)
    (hnames : DistinctNames ds) (hperm : fs'.Perm fs) :
    ∃ ds' rs' c', Gives (resolveFragments naming annotations (pure blocks) fs') {}
      (ds', rs') c' := by
  obtain ⟨parsed, c₀, resolved, hparsed, hresolve, heq⟩ := gives_resolveFragments.mp h
  obtain ⟨rfl, rfl⟩ := Prod.mk.inj heq
  obtain ⟨parsed', c₀', hparsed', hperm'⟩ := exists_perm_of_parseFragments hparsed hperm
  have hread : ReadFrom naming annotations blocks fs (attachComments blocks parsed) c₀ :=
    ⟨[], parsed, c₀, hparsed, rfl, rfl⟩
  have hread' : ReadFrom naming annotations blocks fs' (attachComments blocks parsed') c₀' :=
    ⟨[], parsed', c₀', hparsed', rfl, rfl⟩
  obtain ⟨resolved', c', hresolve'⟩ := hread.exists_resolveAll hread' hnames (hperm'.map _) hresolve
  exact ⟨_, _, c', gives_resolveFragments.mpr ⟨parsed', c₀', resolved', hparsed', hresolve', rfl⟩⟩

theorem Workshop.Ready.exists_perm {e : Expander}
    (h : (e.workshop naming rs).Ready annotations blocks fs ds c) (hnames : DistinctNames ds)
    (hperm : fs'.Perm fs) :
    ∃ ds' rs' c', (e.workshop naming rs').Ready annotations blocks fs' ds' c' := by
  obtain ⟨c₀, resolved, hread, hresolve, -⟩ := h
  obtain ⟨ds', c₀', hread', hds⟩ := hread.exists_perm hperm
  obtain ⟨resolved', c', hresolve'⟩ := hread.exists_resolveAll hread' hnames hds hresolve
  exact ⟨ds', resolved' ++ directiveDeclarations annotations, c', c₀', resolved', hread',
    hresolve', rfl⟩

end Resolving

/-! ### What is assumed -/

/-- The declarations of the fragments have distinct base names, and the cores that they need have
distinct aliases. -/
structure Expander.Distinct (e : Expander) (naming : Naming) (annotations : List Annotation)
    (blocks : List CommentBlock) (fs : List Fragment) : Prop where
  names : ∀ {ds c}, ReadFrom naming annotations blocks fs ds c → DistinctNames ds
  aliases : ∀ {ds rs c}, (e.workshop naming rs).Ready annotations blocks fs ds c →
    (e.workshop naming rs).DistinctAliases ds

/-- No chain of instances that the declarations of the fragments need is longer than the limit. -/
def Expander.Shallow (e : Expander) (naming : Naming) (annotations : List Annotation)
    (blocks : List CommentBlock) (fs : List Fragment) : Prop :=
  ∀ ds rs c, (e.workshop naming rs).Ready annotations blocks fs ds c →
    ∀ chain, (e.workshop naming rs).Chain ((e.workshop naming rs).Needed ds) chain →
      (chain.length : Int) ≤ e.limit

section Assumptions

variable {e : Expander} {naming : Naming} {annotations : List Annotation}
    {blocks : List CommentBlock}
  {fs fs' : List Fragment} {ds ds' rs rs' : List Declaration} {c c₁ c' : Context}

theorem Expander.Distinct.alike (hdistinct : e.Distinct naming annotations blocks fs)
    (hready : (e.workshop naming rs).Ready annotations blocks fs ds c)
    (hready' : (e.workshop naming rs').Ready annotations blocks fs' ds' c₁) (hperm : fs'.Perm fs) :
    ds'.Perm ds ∧ (e.workshop naming rs).Alike (e.workshop naming rs') := by
  have hds := hready.perm hready' rfl hperm
  obtain ⟨c₀, hread, -⟩ := hready.exists_readFrom
  exact ⟨hds, rfl, rfl, hready.template?_perm hready' (hdistinct.names hread) hds⟩

theorem Expander.Distinct.perm (hdistinct : e.Distinct naming annotations blocks fs)
    (hperm : fs'.Perm fs) : e.Distinct naming annotations blocks fs' := by
  have hnames : ∀ {ds' c'}, ReadFrom naming annotations blocks fs' ds' c' → DistinctNames ds' := by
    intro ds' c' hread'
    obtain ⟨ds, c, hread, hds⟩ := hread'.exists_perm hperm.symm
    exact (hdistinct.names hread).perm hds.symm
  refine ⟨hnames, ?_⟩
  intro ds' rs' c' hready'
  obtain ⟨c₀', hread', -⟩ := hready'.exists_readFrom
  obtain ⟨ds, rs, c, hready⟩ := hready'.exists_perm (hnames hread') hperm.symm
  obtain ⟨hds, halike⟩ := hdistinct.alike hready hready' hperm
  exact halike.distinctAliases hds (hdistinct.aliases hready)

theorem Expander.Shallow.perm (hshallow : e.Shallow naming annotations blocks fs)
    (hdistinct : e.Distinct naming annotations blocks fs) (hperm : fs'.Perm fs) :
    e.Shallow naming annotations blocks fs' := by
  intro ds' rs' c' hready' chain hchain
  obtain ⟨c₀', hread', -⟩ := hready'.exists_readFrom
  obtain ⟨ds, rs, c, hready⟩ := hready'.exists_perm ((hdistinct.perm hperm).names hread') hperm.symm
  obtain ⟨hds, halike⟩ := hdistinct.alike hready hready' hperm
  exact hshallow ds rs c hready chain (halike.symm.chain hds.symm hchain)

theorem Workshop.Chain.length_le {w : Workshop} {cores path : List Text}
    (hpath : w.Chain (w.Needed ds) path) (hcovers : w.covers ds cores) :
    path.length ≤ cores.length := by
  have hsubset : path ⊆ cores.filterMap fun k => (aliasOf w.naming k).toOption := by
    intro n hn
    obtain ⟨k, hk, halias⟩ := hpath.named n hn
    refine List.mem_filterMap.mpr ⟨k, hk.mem_of_covers hcovers, ?_⟩
    rw [halias]
    rfl
  calc path.length ≤ (cores.filterMap fun k => (aliasOf w.naming k).toOption).length :=
        (List.subperm_of_subset hpath.nodup hsubset).length_le
    _ ≤ cores.length := List.length_filterMap_le _ _

/-- What is assumed of fragments holds if it holds for one list of cores that covers what is
needed. -/
theorem distinct_of_covers {cores : List Text}
    (h : Gives (resolveFragments naming annotations (pure blocks) fs) {} (ds, rs) c)
    (hnames : DistinctNames ds) (hcovers : (e.workshop naming rs).covers ds cores)
    (haliases : (cores.map fun k => (aliasOf naming k).toOption).Nodup) :
    e.Distinct naming annotations blocks fs ∧
      (cores.length ≤ e.limit → e.Shallow naming annotations blocks fs) := by
  have hready := ready_of_resolveFragments e h
  obtain ⟨c₀, hread, -⟩ := hready.exists_readFrom
  have hdistinct : e.Distinct naming annotations blocks fs := by
    refine ⟨fun hread' => hnames.perm (hread.perm hread' (.refl fs)), ?_⟩
    intro ds' rs' c' hready'
    have hds := hready.perm hready' rfl (.refl fs)
    have halike : (e.workshop naming rs).Alike (e.workshop naming rs') :=
      ⟨rfl, rfl, hready.template?_perm hready' hnames hds⟩
    exact halike.distinctAliases hds (Workshop.distinctAliases_of_covers hcovers haliases)
  refine ⟨hdistinct, ?_⟩
  intro hlength ds' rs' c' hready' chain hchain
  obtain ⟨hds, halike⟩ := hdistinct.alike hready hready' (.refl fs)
  have hshort := (halike.symm.chain hds.symm hchain).length_le hcovers
  omega

end Assumptions

/-! ### What order decides -/

section Order

variable {e : Expander} {naming : Naming} {annotations : List Annotation}
    {blocks : List CommentBlock}
  {fs fs' : List Fragment}

/-- A schema that is expanded in one order is expanded in another with the same instances, or its
instances nest too deep. -/
theorem expandFragments_meets (hlimit : 1 ≤ e.limit) (hperm : fs'.Perm fs)
    (hdistinct : e.Distinct naming annotations blocks fs) {ds rs : List Declaration}
    {is : List Instance} {c' : Context}
    (h : Gives (e.expandFragments naming annotations (pure blocks) fs) {} (ds, rs, is) c') :
    Meets (e.expandFragments naming annotations (pure blocks) fs') {}
      (fun _ c₁' => ∀ n, c₁'.instances.get? n = c'.instances.get? n)
      fun failure _ => ∃ outermost chain core,
        failure = .schema (.nestedTooDeep e.limit outermost chain core) ∧
        (e.workshop naming rs).Chain ((e.workshop naming rs).Needed ds) chain ∧
        e.limit < chain.length := by
  obtain ⟨c, hresolve, hbuild⟩ := gives_expandFragments.mp h
  have hready := ready_of_resolveFragments e hresolve
  obtain ⟨c₀, hread, -⟩ := hready.exists_readFrom
  obtain ⟨ds', rs', c₁, hresolve'⟩ :=
    exists_perm_of_resolveFragments hresolve (hdistinct.names hread) hperm
  have hready' := ready_of_resolveFragments e hresolve'
  obtain ⟨hds, halike⟩ := hdistinct.alike hready hready' hperm
  -- reading and resolving succeed in the other order too, so only building can fail
  unfold Expander.expandFragments
  rw [meets_bind, hresolve'.meets_iff, meets_bind]
  exact (hready.buildPending_perm hready' hds halike (hdistinct.aliases hready) hlimit hbuild).imp
    (fun _ _ hsame => hsame) fun _ _ hdeep => hdeep

/-- Where instances do not nest too deep, a schema that is expanded in one order is expanded in
another. -/
theorem exists_gives_expandFragments (hlimit : 1 ≤ e.limit) (hperm : fs'.Perm fs)
    (hdistinct : e.Distinct naming annotations blocks fs)
    (hshallow : e.Shallow naming annotations blocks fs)
    (h : ∃ r c', Gives (e.expandFragments naming annotations (pure blocks) fs) {} r c') :
    ∃ r c', Gives (e.expandFragments naming annotations (pure blocks) fs') {} r c' := by
  obtain ⟨⟨ds, rs, is⟩, c', h⟩ := h
  obtain ⟨c, hresolve, -⟩ := gives_expandFragments.mp h
  have hready := ready_of_resolveFragments e hresolve
  have hmeets : Meets (e.expandFragments naming annotations (pure blocks) fs') {} (fun _ _ => True)
      fun _ _ => False := by
    refine (expandFragments_meets hlimit hperm hdistinct h).imp (fun _ _ _ => trivial) ?_
    rintro failure c₁ ⟨outermost, chain, core, -, hchain, hlong⟩
    have hshort := hshallow ds rs c hready chain hchain
    omega
  obtain ⟨r, c₁', h', -⟩ := hmeets.exists_gives
  exact ⟨r, c₁', h'⟩

/-- **What the order of the fragments of a schema decides.**  Let base names be distinct, and let
the cores that are needed have distinct aliases.  If the schema is expanded, then it is expanded
with its fragments in every other order too, with the same instances, or it fails because instances
nest too deep: there is a chain of more instances than the limit allows, all needed, each nested in
the one before.  So where no chain of instances is longer than the limit, the order does not decide
whether the schema is expanded. -/
theorem expandFragments_perm (hlimit : 1 ≤ e.limit) (hperm : fs'.Perm fs)
    (hdistinct : e.Distinct naming annotations blocks fs) :
    (∀ ds rs is c', Gives (e.expandFragments naming annotations (pure blocks) fs) {} (ds, rs,
      is) c' → Meets (e.expandFragments naming annotations (pure blocks) fs') {}
        (fun _ c₁' => ∀ n, c₁'.instances.get? n = c'.instances.get? n)
        fun failure _ => ∃ outermost chain core,
          failure = .schema (.nestedTooDeep e.limit outermost chain core) ∧
          (e.workshop naming rs).Chain ((e.workshop naming rs).Needed ds) chain ∧
          e.limit < chain.length) ∧
    (e.Shallow naming annotations blocks fs →
      ((∃ r c', Gives (e.expandFragments naming annotations (pure blocks) fs') {} r c') ↔
        ∃ r c', Gives (e.expandFragments naming annotations (pure blocks) fs) {} r c')) := by
  refine ⟨fun ds rs is c' h => expandFragments_meets hlimit hperm hdistinct h,
    fun hshallow => ⟨?_, ?_⟩⟩
  -- what is assumed of the one order holds of the other, so that the orders can change places
  · exact exists_gives_expandFragments hlimit hperm.symm (hdistinct.perm hperm)
      (hshallow.perm hdistinct hperm)
  · exact exists_gives_expandFragments hlimit hperm hdistinct hshallow

/-- The theorem on templates that use themselves and each other, in every order. -/
theorem expandFragments_perm_shelves :
    ∃ (ds rs : List Declaration) (is : List Instance) (c' : Context), 1 ≤ ({} : Expander).limit ∧
      ({} : Expander).Distinct {} [] [] shelves ∧ ({} : Expander).Shallow {} [] [] shelves ∧
      Gives (({} : Expander).expandFragments {} [] (pure []) shelves) {} (ds, rs, is) c' ∧
      is.length = 5 ∧ ∀ fs', fs'.Perm shelves →
        Meets (({} : Expander).expandFragments {} [] (pure []) fs') {}
          (fun _ c₁' => ∀ n, c₁'.instances.get? n = c'.instances.get? n)
          (fun failure _ => ∃ outermost chain core,
            failure = .schema (.nestedTooDeep ({} : Expander).limit outermost chain core) ∧
            (({} : Expander).workshop {} rs).Chain
              ((({} : Expander).workshop {} rs).Needed ds) chain ∧
            ({} : Expander).limit < chain.length) ∧
        ∃ r c₁', Gives (({} : Expander).expandFragments {} [] (pure []) fs') {} r c₁' := by
  obtain ⟨⟨ds, rs, is⟩, c', hrun, heq⟩ := exists_gives_of_outcome expandFragments_shelves
  simp only [Prod.mk.injEq, decide_eq_true_eq] at heq
  obtain ⟨hcovers, hnames, his⟩ := heq
  obtain ⟨c, hresolve, -⟩ := gives_expandFragments.mp hrun
  have haliases : (shelvesCores.map fun k => (aliasOf {} k).toOption).Nodup := by decide +kernel
  obtain ⟨hdistinct, hshallow⟩ := distinct_of_covers hresolve hnames hcovers haliases
  have hlength : is.length = 5 := by
    rw [← List.length_map Instance.name, his]
    rfl
  replace hshallow := hshallow (by decide)
  refine ⟨ds, rs, is, c', by decide, hdistinct, hshallow, hrun, hlength, fun fs' hperm => ?_⟩
  obtain ⟨hmeets, horder⟩ := expandFragments_perm (by decide) hperm hdistinct
  exact ⟨hmeets ds rs is c' hrun, (horder hshallow).mpr ⟨_, _, hrun⟩⟩

end Order

/-- One template inside another, a use of the inner one and a use of the outer one. -/
def innerFirst : List Fragment :=
  [{ kind := .type, header := "type A<T>".toList, items := ["b: B<T>".toList] },
    { kind := .type, header := "type B<T>".toList, items := ["x: T".toList] },
    { kind := .type, header := "type P".toList, items := ["b: B<ID>".toList] },
    { kind := .type, header := "type Q".toList, items := ["a: A<ID>".toList] }]

theorem expandFragments_innerFirst :
    (((({ limit := 1 } : Expander).expandFragments {} [] (pure []) innerFirst).outcome
      {}).1.toOption.map
      fun r => ((({ limit := 1 } : Expander).workshop {} r.2.1).covers r.1
        ["A<ID>".toList, "B<ID>".toList], decide (DistinctNames r.1))) = some (true, true) := by
  decide +kernel

theorem expandFragments_innerFirst_reverse :
    ((({ limit := 1 } : Expander).expandFragments {} [] (pure []) innerFirst.reverse).outcome
      {}).1.toOption.isNone := by
  decide +kernel

/-- Where only one instance may be built at a time, an instance inside another has to be there
before. -/
theorem expandFragments_not_perm_innerFirst :
    ∃ e : Expander, 1 ≤ e.limit ∧ innerFirst.reverse.Perm innerFirst ∧
      e.Distinct {} [] [] innerFirst ∧
      (∃ r c', Gives (e.expandFragments {} [] (pure []) innerFirst) {} r c') ∧
      ¬ ∃ r c', Gives (e.expandFragments {} [] (pure []) innerFirst.reverse) {} r c' := by
  obtain ⟨⟨ds, rs, is⟩, c', hrun, heq⟩ := exists_gives_of_outcome expandFragments_innerFirst
  simp only [Prod.mk.injEq, decide_eq_true_eq] at heq
  obtain ⟨c, hresolve, -⟩ := gives_expandFragments.mp hrun
  have haliases :
      (["A<ID>".toList, "B<ID>".toList].map fun k => (aliasOf {} k).toOption).Nodup := by
    decide +kernel
  obtain ⟨hdistinct, -⟩ := distinct_of_covers hresolve heq.2 heq.1 haliases
  refine ⟨{ limit := 1 }, by decide, List.reverse_perm innerFirst, hdistinct, ⟨_, _, hrun⟩, ?_⟩
  rintro ⟨r, c₁, h⟩
  have hnone := expandFragments_innerFirst_reverse
  rw [h] at hnone
  cases hnone

end Schemata
