import Schemata.Proofs.Stored

/-!
# The names of an expanded schema

An expanded schema declares what its source declares, templates and abstract declarations apart, and
its instances.  The names of the declarations are those of the source, and each instance has a name
of its own.  An alias is checked to be a name and for nothing else, so an instance may have the name
of a declaration: all names are distinct exactly if no generic use has the name of a declaration as
its alias.
-/

namespace Schemata

open Resolve List

variable {ds : List Declaration}

/-! ### The declarations that are written -/

/-- A declaration that appears under its name in an expanded schema. -/
def Declaration.IsWritten (d : Declaration) : Prop :=
  d.isExtend = false ∧ d.isTemplate = false ∧ d.kind ≠ .abstract ∧ d.kind ≠ .directive

/-- The names of the declarations that are written and extend no other. -/
def declaredNames (ds : List Declaration) : List Text :=
  ((emitted ds).filter fun d => !d.isExtend).map Declaration.name

/-- Declarations grouped by distinct kinds, with the rest at the end, are all declarations. -/
theorem flatMap_kinds_perm {kinds : List Kind} (hkinds : kinds.Nodup) (ds : List Declaration) :
    (kinds.flatMap (fun k => ds.filter fun d => d.kind == k) ++
      ds.filter fun d => !kinds.contains d.kind).Perm ds := by
  induction kinds generalizing ds with
  | nil => simp
  | cons k kinds ih =>
    obtain ⟨hk, hkinds⟩ := nodup_cons.mp hkinds
    -- the other groups are those of the declarations of another kind
    have hgroups : (kinds.flatMap fun k' => ds.filter fun d => d.kind == k') =
        kinds.flatMap fun k' => (ds.filter fun d => !(d.kind == k)).filter fun d =>
          d.kind == k' := by
      refine flatMap_congr fun k' hk' => ?_
      rw [filter_filter]
      refine filter_congr fun d _ => ?_
      have hne : k' ≠ k := by
        rintro rfl
        exact hk hk'
      by_cases hd : d.kind = k'
      · simp [hd, hne]
      · simp [hd]
    have hrest : (ds.filter fun d => !(k :: kinds).contains d.kind) =
        (ds.filter fun d => !(d.kind == k)).filter fun d => !kinds.contains d.kind := by
      rw [filter_filter]
      refine filter_congr fun d _ => ?_
      rw [contains_cons, Bool.not_or, Bool.and_comm]
    rw [flatMap_cons, append_assoc, hgroups, hrest]
    refine ((ih hkinds _).append_left _).trans ?_
    exact filter_append_perm (fun d => d.kind == k) ds

theorem emissionOrder_perm (ds : List Declaration) : (emissionOrder ds).Perm ds :=
  flatMap_kinds_perm (by decide) ds

theorem mem_declaredNames {n : Text} :
    n ∈ declaredNames ds ↔ ∃ d ∈ ds, d.IsWritten ∧ d.name = n := by
  unfold declaredNames emitted
  simp only [mem_map, mem_filter, (emissionOrder_perm _).mem_iff, Bool.and_eq_true,
    Bool.not_eq_true', bne_iff_ne]
  constructor
  · rintro ⟨d, ⟨⟨hd, ⟨htemplate, habstract⟩, hdirective⟩, hext⟩, rfl⟩
    exact ⟨d, hd, ⟨hext, htemplate, habstract, hdirective⟩, rfl⟩
  · rintro ⟨d, hd, ⟨hext, htemplate, habstract, hdirective⟩, rfl⟩
    exact ⟨d, ⟨⟨hd, ⟨htemplate, habstract⟩, hdirective⟩, hext⟩, rfl⟩

theorem DistinctNames.nodup_declaredNames (hds : DistinctNames ds) : (declaredNames ds).Nodup := by
  have hperm : (declaredNames ds).Perm
      (((ds.filter fun d => !d.isTemplate && d.kind != .abstract && d.kind != .directive).filter
        fun d => !d.isExtend).map Declaration.name) :=
    ((emissionOrder_perm _).filter _).map _
  rw [hperm.nodup_iff, filter_comm]
  -- the base name is made from the name
  have hnames : ((ds.filter fun d => !d.isExtend).map Declaration.name).Nodup := by
    have hbase : (ds.filter fun d => !d.isExtend).map Declaration.baseName =
        ((ds.filter fun d => !d.isExtend).map Declaration.name).map
          fun n => Text.trim (n.takeWhile (· != '<')) := by
      rw [map_map]
      rfl
    rw [DistinctNames, hbase] at hds
    exact Nodup.of_map _ hds
  exact hnames.sublist (filter_sublist.map _)

/-! ### The names of the source -/

/-- The declarations of a run: those of the source, resolved, and the definitions of directives. -/
theorem exists_resolveAll_of_run {e : Expander} {t : Text} {is : List Instance} {c : Context}
    {reading : Reading} {c₀ : Context} (h : Gives (e.run t) {} (ds, is) c)
    (hread : Gives (e.read t) {} reading c₀) :
    ∃ rs c₁, Gives (resolveAll reading.declarations) c₀ rs c₁ ∧
      ds = rs ++ directiveDeclarations reading.annotations := by
  unfold Expander.run at h
  simp only [gives_bind, gives_pure] at h
  obtain ⟨reading', c₀', hread', rs, c₁, hresolve, is', c₂, -, _, _, -, heq, -⟩ := h
  obtain ⟨hreading, rfl⟩ := Prod.mk.inj (hread.symm.trans hread')
  obtain rfl := Except.ok.inj hreading
  exact ⟨rs, c₁, hresolve, (Prod.mk.inj heq).1.symm⟩

theorem Resolved.key_eq {d d' r : Declaration} (hstands : StandsFor d d') (h : Resolved ds d' r) :
    r.isExtend = d.isExtend ∧ r.key = d.key := by
  have hr : r.isExtend = d'.isExtend ∧ r.key = d'.key := by
    cases h
    exact ⟨rfl, rfl⟩
  rcases hstands with rfl | ⟨hext, hext', hkey⟩
  · exact hr
  · exact ⟨hr.1.trans (hext'.trans hext.symm), hr.2.trans hkey⟩

theorem Declaration.IsWritten.of_key_eq {d r : Declaration} (h : d.IsWritten)
    (hext : r.isExtend = d.isExtend) (hkey : r.key = d.key) : r.IsWritten := by
  have hkind : r.kind = d.kind := congrArg Declaration.Key.kind hkey
  have hparameters : r.parameters.getD [] = d.parameters.getD [] :=
    congrArg Declaration.Key.parameters hkey
  unfold Declaration.IsWritten Declaration.isTemplate at h ⊢
  rw [hext, hkind, hparameters]
  exact h

theorem DistinctNames.of_forall₂ {rs : List Declaration} (hds : DistinctNames ds)
    (h : Forall₂ (fun d r => r.isExtend = d.isExtend ∧ r.key = d.key) ds rs) :
    DistinctNames rs := by
  have hnames : (rs.filter fun r => !r.isExtend).map Declaration.baseName =
      (ds.filter fun d => !d.isExtend).map Declaration.baseName := by
    clear hds
    induction h with
    | nil => rfl
    | cons hr _ ih =>
      rw [filter_cons, filter_cons, hr.1]
      split
      · rw [map_cons, map_cons, ih, baseName_eq_of_key_eq hr.2]
      · exact ih
  unfold DistinctNames
  rw [hnames]
  exact hds

theorem emitted_append_directiveDeclarations (ds : List Declaration)
    (annotations : List Annotation) :
    emitted (ds ++ directiveDeclarations annotations) = emitted ds := by
  unfold emitted
  have hnone : (directiveDeclarations annotations).filter
      (fun d => !d.isTemplate && d.kind != .abstract && d.kind != .directive) = [] := by
    refine filter_eq_nil_iff.mpr fun d hd => ?_
    obtain ⟨a, -, rfl⟩ := mem_map.mp hd
    simp
  rw [filter_append, hnone, append_nil]

section Run

variable {e : Expander} {t : Text} {ds : List Declaration} {is : List Instance} {c c₀ : Context}
  {reading : Reading}

/-- The declarations written by a run have the identities of those of the source. -/
theorem exists_forall₂_of_run (h : Gives (e.run t) {} (ds, is) c)
    (hread : Gives (e.read t) {} reading c₀) : ∃ rs, emitted ds = emitted rs ∧
      Forall₂ (fun d r => r.isExtend = d.isExtend ∧ r.key = d.key) reading.declarations rs := by
  obtain ⟨rs, c₁, hresolve, rfl⟩ := exists_resolveAll_of_run h hread
  obtain ⟨blocks, fs, hreadFrom⟩ := readFrom_of_read hread
  obtain ⟨-, hall⟩ := resolveAll_spec hreadFrom.resolutionSound hresolve
  refine ⟨rs, emitted_append_directiveDeclarations _ _, hall.imp ?_⟩
  rintro d r ⟨d', -, hstands, hres⟩
  exact hres.key_eq hstands

/-- **The names declared** in an expanded schema are those of its source. -/
theorem mem_declaredNames_run (h : Gives (e.run t) {} (ds, is) c)
    (hread : Gives (e.read t) {} reading c₀) {n : Text} :
    n ∈ declaredNames ds ↔ n ∈ declaredNames reading.declarations := by
  obtain ⟨rs, hemitted, hall⟩ := exists_forall₂_of_run h hread
  rw [declaredNames, hemitted, ← declaredNames, mem_declaredNames, mem_declaredNames]
  constructor
  · rintro ⟨r, hr, hwritten, rfl⟩
    obtain ⟨d, hd, hext, hkey⟩ := exists_left_of_forall₂ hall hr
    exact ⟨d, hd, hwritten.of_key_eq hext.symm hkey.symm, (congrArg Declaration.Key.name hkey).symm⟩
  · rintro ⟨d, hd, hwritten, rfl⟩
    obtain ⟨r, hr, hext, hkey⟩ := exists_right_of_forall₂ hall hd
    exact ⟨r, hr, hwritten.of_key_eq hext hkey, congrArg Declaration.Key.name hkey⟩

theorem nodup_declaredNames_run (h : Gives (e.run t) {} (ds, is) c)
    (hread : Gives (e.read t) {} reading c₀) (hds : DistinctNames reading.declarations) :
    (declaredNames ds).Nodup := by
  obtain ⟨rs, hemitted, hall⟩ := exists_forall₂_of_run h hread
  rw [declaredNames, hemitted]
  exact (hds.of_forall₂ hall).nodup_declaredNames

end Run

/-! ### All names together -/

theorem Expanded.exists_refers {e : Expander} {reading : Reading} {is : List Instance}
    (h : Expanded e reading ds is) {i : Instance} (hi : i ∈ is) :
    ∃ u, Refers reading is u ∧ HasAlias reading.naming u i.name := by
  obtain ⟨u, k, hu, ⟨core, hcore, hk⟩, hinst⟩ := h.built i hi
  obtain ⟨j, -, core', hcore', hgeneric, halias⟩ := h.done u hu
  obtain rfl := ok_unique hcore hcore'
  have hname : i.name = j.name := ok_unique hinst.name (aliasOf_normal halias hk)
  exact ⟨u, hu, core, hcore, hgeneric, hname ▸ halias⟩

theorem exists_gives_expand {e : Expander} {t out : Text} :
    (∃ c, Gives (e.expand t) {} out c) ↔
      ∃ ds is c, Gives (e.run t) {} (ds, is) c ∧ out = schemaText e.layout ds is := by
  unfold Expander.expand
  simp only [gives_bind, gives_tell, gives_pure]
  constructor
  · rintro ⟨_, ⟨ds, is⟩, c, hrun, _, _, -, rfl, -⟩
    exact ⟨ds, is, c, hrun, rfl⟩
  · rintro ⟨ds, is, c, hrun, rfl⟩
    exact ⟨_, (ds, is), c, hrun, (), _, rfl, rfl, rfl⟩

/-- **When the names of an expanded schema are distinct.**  In whatever way aliases are formed, if a
schema whose declarations have distinct base names is expanded, then the names of the declarations
written are distinct, and so are the names of the instances.  Together they are distinct exactly if
no generic use has the name of a declaration as its alias. -/
theorem expand_names_nodup {e : Expander} {t out : Text} {c : Context}
    (h : Gives (e.expand t) {} out c) :
    ∃ reading c₀ ds is c₁, Gives (e.read t) {} reading c₀ ∧ Gives (e.run t) {} (ds, is) c₁ ∧
      out = schemaText e.layout ds is ∧
      (DistinctNames reading.declarations →
        (declaredNames ds).Nodup ∧ (is.map Instance.name).Nodup ∧
        ((declaredNames ds ++ is.map Instance.name).Nodup ↔ ∀ u n, Refers reading is u →
          HasAlias reading.naming u n → ∀ d ∈ reading.declarations, d.IsWritten → d.name ≠ n)) := by
  obtain ⟨ds, is, c₁, hrun, rfl⟩ := exists_gives_expand.mp ⟨c, h⟩
  obtain ⟨reading, c₀, hread, -, hexp⟩ := run_spec hrun
  refine ⟨reading, c₀, ds, is, c₁, hread, hrun, rfl, fun hds => ?_⟩
  have hdeclared := nodup_declaredNames_run hrun hread hds
  refine ⟨hdeclared, hexp.nodup, ?_⟩
  rw [List.nodup_append]
  constructor
  · -- every use has an instance under its alias
    rintro ⟨-, -, hdisjoint⟩ u n hu halias d hd hwritten rfl
    obtain ⟨i, hi, hname⟩ := hexp.done u hu
    have hmem : d.name ∈ declaredNames ds :=
      (mem_declaredNames_run hrun hread).mpr (mem_declaredNames.mpr ⟨d, hd, hwritten, rfl⟩)
    exact hdisjoint _ hmem _ (List.mem_map_of_mem hi) (halias.unique hname)
  · -- every instance is made for a use, and is stored under its alias
    intro hfree
    refine ⟨hdeclared, hexp.nodup, ?_⟩
    intro n hn m hm hnm
    obtain ⟨i, hi, rfl⟩ := List.mem_map.mp hm
    subst hnm
    obtain ⟨u, hu, halias⟩ := hexp.exists_refers hi
    obtain ⟨d, hd, hwritten, hname⟩ :=
      mem_declaredNames.mp ((mem_declaredNames_run hrun hread).mp hn)
    exact hfree u i.name hu halias d hd hwritten hname

/-- A schema that declares what is also the alias of a generic use. -/
def declaredAlias : Text :=
  "type Paged<T> \x7b items: [T] \x7d\ntype PagedProduct \x7b id: ID \x7d\n".toList ++
    "type Query \x7b a: Paged<Product> \x7d".toList

theorem read_declaredAlias :
    ((({} : Expander).read declaredAlias).outcome {}).1.toOption.map
      (fun reading => decide (DistinctNames reading.declarations)) = some true := by
  decide +kernel

theorem run_declaredAlias :
    ((({} : Expander).run declaredAlias).outcome {}).1.toOption.map
      (fun r => (declaredNames r.1, r.2.map Instance.name)) =
        some (["PagedProduct".toList, "Query".toList], ["PagedProduct".toList]) := by
  decide +kernel

/-- The theorem on the schema that declares an alias. -/
theorem expand_names_nodup_declaredAlias :
    ∃ reading c₀ ds is c₁, Gives (({} : Expander).read declaredAlias) {} reading c₀ ∧
      Gives (({} : Expander).run declaredAlias) {} (ds, is) c₁ ∧
        DistinctNames reading.declarations ∧
      (declaredNames ds).Nodup ∧ (is.map Instance.name).Nodup ∧
      ((declaredNames ds ++ is.map Instance.name).Nodup ↔ ∀ u n, Refers reading is u →
        HasAlias reading.naming u n → ∀ d ∈ reading.declarations, d.IsWritten → d.name ≠ n) := by
  obtain ⟨⟨ds, is⟩, c, hrun, -⟩ := exists_gives_of_outcome run_declaredAlias
  obtain ⟨reading, c₀, hread, hdistinct⟩ := exists_gives_of_outcome read_declaredAlias
  obtain ⟨c', hexpand⟩ := exists_gives_expand.mpr ⟨ds, is, c, hrun, rfl⟩
  obtain ⟨reading', c₀', ds', is', c₁, hread', hrun', -, hnames⟩ := expand_names_nodup hexpand
  obtain ⟨hreading, rfl⟩ := Prod.mk.inj (hread.symm.trans hread')
  obtain rfl := Except.ok.inj hreading
  have hds := of_decide_eq_true hdistinct
  exact ⟨reading, c₀, ds', is', c₁, hread, hrun', hds, hnames hds⟩

/-- A schema whose declarations have distinct base names is expanded, and a name is declared
twice. -/
theorem not_nodup_declaredAlias :
    ∃ reading c₀ ds is c out c', Gives (({} : Expander).read declaredAlias) {} reading c₀ ∧
      DistinctNames reading.declarations ∧ Gives (({} : Expander).run declaredAlias) {} (ds, is) c ∧
      Gives (({} : Expander).expand declaredAlias) {} out c' ∧ out = schemaText {} ds is ∧
      ¬ (declaredNames ds ++ is.map Instance.name).Nodup := by
  obtain ⟨⟨ds, is⟩, c, hrun, hnames⟩ := exists_gives_of_outcome run_declaredAlias
  obtain ⟨reading, c₀, hread, hdistinct⟩ := exists_gives_of_outcome read_declaredAlias
  obtain ⟨c', hexpand⟩ := exists_gives_expand.mpr ⟨ds, is, c, hrun, rfl⟩
  obtain ⟨hdeclared, his⟩ := Prod.mk.inj hnames
  refine ⟨reading, c₀, ds, is, c, _, c', hread, of_decide_eq_true hdistinct, hrun, hexpand, rfl, ?_⟩
  rw [hdeclared, his]
  decide

end Schemata
