import Schemata.Expansion
import Schemata.Proofs.Instances
import Schemata.Proofs.Reading

/-!
# Generic uses of an expanded schema

All stages together: whatever a schema refers to by a generic use is an instance, and there is one
instance for each alias.  An instance is built from a use with its alias.
-/

namespace Schemata

open Resolve List

variable {c : Context} {d : Declaration} {t : Text}
  {ds : List Declaration} {e : Expander} {is : List Instance} {reading : Reading} {u : TypeUse}

/-- A generic use that depends on no type parameter, written in a schema or standing in one of its
instances. -/
def Refers (reading : Reading) (is : List Instance) (u : TypeUse) : Prop :=
  u.isConcrete = true ∧
    ((∃ d ∈ reading.declarations, u ∈ d.uses) ∨ ∃ i ∈ is, u ∈ i.declaration.uses)

/-- How the resolved declarations `ds` and the instances `is` of a schema belong to what was
read. -/
structure Expanded (e : Expander) (reading : Reading) (ds : List Declaration) (is : List Instance) :
    Prop where
  /-- The uses written are uses of type expressions inside the type parameters of their
  declaration. -/
  written : ∀ d ∈ reading.declarations, ∀ u ∈ d.uses, IsUse reading.naming d.parameters u
  /-- The uses in resolved declarations are written, in the same type parameters or in none. -/
  resolved : ∀ d ∈ ds, ∀ u ∈ d.uses, ∃ b ∈ reading.declarations, u ∈ b.uses ∧
    (b.isTemplate = false ∨ b.parameters = d.parameters)
  nodup : (is.map Instance.name).Nodup
  built : ∀ i ∈ is, ∃ u k, Refers reading is u ∧ HasCore u k ∧
    InstanceOf (e.workshop reading.naming ds) k i
  done : ∀ u, Refers reading is u → ∃ i ∈ is, HasAlias reading.naming u i.name

/-! ### The stages -/

theorem readFrom_of_read (h : Gives (e.read t) {} reading c) : ∃ blocks fs,
      ReadFrom reading.naming reading.annotations blocks fs reading.declarations c := by
  unfold Expander.read at h
  simp only [gives_bind, gives_ofReport, gives_ofExcept, gives_pure] at h
  obtain ⟨extraction, _, ⟨-, rfl⟩, chosen, _, ⟨-, rfl⟩, fragments, _, ⟨-, rfl⟩, parsed, c₁, hparsed,
    blocks, _, ⟨-, rfl⟩, rfl, rfl⟩ := h
  exact ⟨blocks, fragments, _, parsed, c₁, hparsed, rfl, rfl⟩

/-- Reading a schema remembers nothing but what it reads about the uses written. -/
theorem read_spec (h : Gives (e.read t) {} reading c) :
    c.NamesSound reading.naming ∧
      ({} : Context).Reads reading.naming (reading.declarations.flatMap Declaration.uses) c ∧
      ∀ d ∈ reading.declarations, ∀ u ∈ d.uses, IsUse reading.naming d.parameters u := by
  obtain ⟨blocks, fs, hread⟩ := readFrom_of_read h
  obtain ⟨hnames, log, hreads⟩ := hread.reads
  exact ⟨hnames, ⟨hreads.frame, hreads.nodup, hreads.keep, hreads.new, hreads.pending⟩,
    fun d hd u hu => hread.isUse hd hu⟩

theorem read_naming {c' : Context} (h : Gives (e.read t) c reading c') :
    reading.naming.general = e.general ∧ reading.naming.named = e.named := by
  unfold Expander.read at h
  simp only [gives_bind, gives_ofReport, gives_ofExcept, gives_pure] at h
  obtain ⟨_, _, -, _, _, -, _, _, -, _, _, -, _, _, -, rfl, -⟩ := h
  exact ⟨rfl, rfl⟩

theorem exists_of_mem_uses_resolveAll {rs : List Declaration} {c' : Context}
    (hc : c.ResolutionSound ds) (h : Gives (resolveAll ds) c rs c') {r : Declaration} (hr : r ∈ rs)
    (hu : u ∈ r.uses) :
    ∃ b ∈ ds, u ∈ b.uses ∧ (b.isTemplate = false ∨ b.parameters = r.parameters) := by
  obtain ⟨-, hall⟩ := resolveAll_spec hc h
  obtain ⟨d, -, d', hd', -, hres⟩ := exists_left_of_forall₂ hall hr
  rcases hres.exists_of_mem_uses hu with hu | ⟨b, hb, htemplate, hu⟩
  · exact ⟨d', hd', hu, .inr hres.parameters_eq.symm⟩
  · exact ⟨b, hb, hu, .inl htemplate⟩

theorem uses_of_mem_directiveDeclarations {annotations : List Annotation}
    (hd : d ∈ directiveDeclarations annotations) : d.uses = [] := by
  obtain ⟨a, -, rfl⟩ := mem_map.mp hd
  rfl

/-- **Expanding a schema** gives declarations and instances that belong to what was read. -/
theorem run_spec (h : Gives (e.run t) {} (ds, is) c) :
    ∃ reading c₀, Gives (e.read t) {} reading c₀ ∧ c.NamesSound reading.naming ∧
      Expanded e reading ds is := by
  unfold Expander.run at h
  simp only [gives_bind, gives_tell, gives_pure] at h
  obtain ⟨reading, c₀, hread, rs, c₁, hresolve, is', c₂, hbuild, _, _, rfl, heq, rfl⟩ := h
  obtain ⟨rfl, rfl⟩ := Prod.mk.inj heq
  obtain ⟨hnames, hreads, hwritten⟩ := read_spec hread
  have hsound : c₀.ResolutionSound reading.declarations := by
    rw [hreads.frame]
    refine ⟨?_, ?_, rfl⟩
    · intro n ns hn
      cases hn
    · intro k r hr
      cases hr
  have hmore := (resolveAll_spec hsound hresolve).1
  have hresolved : ∀ d ∈ rs ++ directiveDeclarations reading.annotations, ∀ u ∈ d.uses,
      ∃ b ∈ reading.declarations, u ∈ b.uses ∧
        (b.isTemplate = false ∨ b.parameters = d.parameters) := by
    intro d hd u hu
    rcases mem_append.mp hd with hd | hd
    · exact exists_of_mem_uses_resolveAll hsound hresolve hd hu
    · rw [uses_of_mem_directiveDeclarations hd] at hu
      exact absurd hu not_mem_nil
  -- the pending uses are uses written
  have hpending : ∀ {k u}, c₁.pending.get? k = some u →
      (∃ d ∈ reading.declarations, u ∈ d.uses) ∧ u.isConcrete ∧ HasAlias reading.naming u k := by
    intro k u hu
    rw [hmore.frame] at hu
    rcases hreads.new hu with hu | ⟨hmem, hu⟩
    · cases hu
    · exact ⟨mem_flatMap.mp hmem, hu⟩
  have hkeys : c₁.pending.keys.Nodup := by
    rw [hmore.frame]
    exact hreads.nodup nodup_nil
  obtain ⟨hc₂, hbuilds, rfl⟩ := buildPending_spec
    (by
      intro d hd u hu
      obtain ⟨b, hb, hu, -⟩ := hresolved d hd u hu
      exact ⟨_, hwritten b hb u hu⟩)
    (by
      rw [hmore.frame, hreads.frame]
      exact ⟨hnames, nodup_nil⟩)
    (by
      rw [hmore.frame, hreads.frame])
    (by
      intro u hu _
      obtain ⟨k, hk⟩ := Table.exists_get?_of_mem_values hkeys hu
      exact ⟨k, (hpending hk).2.2⟩)
    hbuild
  have hnew : ∀ {n i}, c₂.instances.get? n = some i → i.name = n ∧
      (∃ u k, (u ∈ c₁.pending.values ∨ ∃ m j, c₂.instances.get? m = some j ∧
        u ∈ j.declaration.uses) ∧ u.isConcrete ∧ HasCore u k ∧
        InstanceOf
          (e.workshop reading.naming (rs ++ directiveDeclarations reading.annotations)) k i) ∧
      ∀ v ∈ i.declaration.uses, v.isConcrete → ∃ m, HasAlias reading.naming v m ∧
        (c₂.instances.get? m).isSome := by
    intro n i hi
    rcases hbuilds.new hi with hi | ⟨hname, -, hsource, huses⟩
    · rw [hmore.frame, hreads.frame] at hi
      cases hi
    · refine ⟨hname, hsource, ?_⟩
      intro v hv hc
      obtain ⟨m, hm, hdone⟩ := huses v hv hc
      exact ⟨m, hm, hdone.resolve_left not_mem_nil⟩
  have hget : ∀ {i}, i ∈ c₂.instances.values → c₂.instances.get? i.name = some i := by
    intro i hi
    obtain ⟨n, hn⟩ := Table.exists_get?_of_mem_values hc₂.nodup hi
    rw [(hnew hn).1, hn]
  have hsome : ∀ {n}, (c₂.instances.get? n).isSome → ∃ i ∈ c₂.instances.values, i.name = n := by
    intro n hn
    obtain ⟨i, hi⟩ := Option.isSome_iff_exists.mp hn
    exact ⟨i, Table.mem_values_of_get? hi, (hnew hi).1⟩
  refine ⟨reading, c₀, hread, hc₂.names, hwritten, hresolved, ?_, ?_, ?_⟩
  · have hnames : c₂.instances.values.map Instance.name = c₂.instances.keys := by
      rw [Table.values, Table.keys, map_map]
      refine map_congr_left ?_
      rintro ⟨n, i⟩ hmem
      exact (hnew (Table.find?_of_mem hc₂.nodup hmem)).1
    rw [hnames]
    exact hc₂.nodup
  · intro i hi
    obtain ⟨-, ⟨u, k, hu, hc, hcore, hinst⟩, -⟩ := hnew (hget hi)
    refine ⟨u, k, ⟨hc, ?_⟩, hcore, hinst⟩
    rcases hu with hu | ⟨m, j, hj, hu⟩
    · obtain ⟨key, hkey⟩ := Table.exists_get?_of_mem_values hkeys hu
      exact .inl (hpending hkey).1
    · exact .inr ⟨j, Table.mem_values_of_get? hj, hu⟩
  · rintro u ⟨hc, ⟨d, hd, hu⟩ | ⟨i, hi, hu⟩⟩
    · -- the use written has the alias of a pending one, which has an instance
      obtain ⟨k, hk, hksome⟩ := hreads.pending u (mem_flatMap.mpr ⟨d, hd, hu⟩) hc
      obtain ⟨v, hv⟩ := Option.isSome_iff_exists.mp hksome
      have hv' : c₁.pending.get? k = some v := by
        rw [hmore.frame]
        exact hv
      obtain ⟨-, hvc, hvk⟩ := hpending hv'
      obtain ⟨m, hm, hdone⟩ := hbuilds.done v (Table.mem_values_of_get? hv') hvc
      obtain rfl := hm.unique hvk
      obtain ⟨i, hi, rfl⟩ := hsome (hdone.resolve_left not_mem_nil)
      exact ⟨i, hi, hk⟩
    · obtain ⟨-, -, huses⟩ := hnew (hget hi)
      obtain ⟨m, hm, hdone⟩ := huses u hu hc
      obtain ⟨j, hj, rfl⟩ := hsome hdone
      exact ⟨j, hj, hm⟩

/-! ### Nothing generic is left over -/

theorem IsUse.isDeferred_eq_false {naming : Naming} {letters : Option (List Text)}
    (h : IsUse naming letters u) (hl : letters.getD [] = []) : u.isDeferred = false := by
  obtain ⟨expression, directive, h⟩ := h
  rw [Bool.eq_false_iff]
  intro hu
  have hm := h.mentions_of_isDeferred hu
  have hcarried : (carried letters).getD [] = [] := by
    cases letters with
    | none => rfl
    | some ls =>
      obtain rfl : ls = [] := hl
      rfl
  rw [h.letters_eq, hcarried, mentions_nil] at hm
  cases hm

theorem getD_carried (letters : Option (List Text)) :
    (carried letters).getD [] = letters.getD [] := by
  cases letters with
  | none => rfl
  | some ls => cases ls <;> rfl

theorem SubstitutedUse.isDeferred_eq_false {naming : Naming} {parameters arguments : List Text}
    {letters : Option (List Text)} {u' : TypeUse}
    (h : SubstitutedUse naming parameters arguments u u') (hu : IsUse naming letters u)
    (hl : letters.getD [] = [] ∨ letters.getD [] = parameters) : u'.isDeferred = false := by
  rcases h with ⟨-, e, -, huse⟩ | ⟨hm, rfl⟩
  · exact IsUse.isDeferred_eq_false ⟨_, _, huse⟩ rfl
  · rcases hl with hl | hl
    · exact hu.isDeferred_eq_false hl
    · -- a use that waits would mention a type parameter of the template
      obtain ⟨expression, directive, huse⟩ := hu
      rw [Bool.eq_false_iff]
      intro hd
      have hm' := huse.mentions_of_isDeferred hd
      rw [huse.letters_eq, getD_carried, hl, hm] at hm'
      cases hm'

/-- The uses that an expanded schema emits: those of its declarations without type parameters, and
those of its instances. -/
def IsEmitted (ds : List Declaration) (is : List Instance) (u : TypeUse) : Prop :=
  (∃ d ∈ ds, d.isTemplate = false ∧ u ∈ d.uses) ∨ ∃ i ∈ is, u ∈ i.declaration.uses

theorem isTemplate_eq_false_iff : d.isTemplate = false ↔ d.parameters.getD [] = [] := by
  simp [Declaration.isTemplate]

/-- The type parameters around a use in a resolved declaration are those of the declaration, or
none. -/
theorem Expanded.exists_isUse (h : Expanded e reading ds is) (hd : d ∈ ds) (hu : u ∈ d.uses) :
    ∃ letters, IsUse reading.naming letters u ∧
      (letters.getD [] = [] ∨ letters.getD [] = d.parameters.getD []) := by
  obtain ⟨b, hb, hub, hparameters⟩ := h.resolved d hd u hu
  refine ⟨b.parameters, h.written b hb u hub, ?_⟩
  rcases hparameters with htemplate | hparameters
  · exact .inl (isTemplate_eq_false_iff.mp htemplate)
  · exact .inr (by rw [hparameters])

theorem Expanded.isUse_of_isEmitted (h : Expanded e reading ds is) (hu : IsEmitted ds is u) :
    (∃ letters, IsUse reading.naming letters u) ∧ u.isDeferred = false := by
  rcases hu with ⟨d, hd, htemplate, hu⟩ | ⟨i, hi, hu⟩
  · obtain ⟨letters, huse, hletters⟩ := h.exists_isUse hd hu
    rw [isTemplate_eq_false_iff.mp htemplate, or_self] at hletters
    exact ⟨⟨letters, huse⟩, huse.isDeferred_eq_false hletters⟩
  · obtain ⟨_, k, -, -, hinst⟩ := h.built i hi
    obtain ⟨template, arguments, htemplate, hspec⟩ := hinst.declaration
    obtain ⟨v, hv, hsubst⟩ := hspec.exists_of_mem_uses hu
    obtain ⟨letters, huse, hletters⟩ := h.exists_isUse (templateOf_mem htemplate) hv
    refine ⟨?_, hsubst.isDeferred_eq_false huse hletters⟩
    rcases hsubst with ⟨-, expression, -, huse⟩ | ⟨-, rfl⟩
    · exact ⟨none, _, _, huse⟩
    · exact ⟨letters, huse⟩

theorem Expanded.refers_of_isEmitted (h : Expanded e reading ds is) (hu : IsEmitted ds is u)
    (hg : u.isGeneric) : Refers reading is u := by
  refine ⟨by rw [TypeUse.isConcrete, hg, (h.isUse_of_isEmitted hu).2]; rfl, ?_⟩
  rcases hu with ⟨d, hd, -, hu⟩ | hu
  · obtain ⟨b, hb, hub, -⟩ := h.resolved d hd u hu
    exact .inl ⟨b, hb, hub⟩
  · exact .inr hu

/-- **Nothing generic is left over**: in whatever way aliases are formed, every use that an expanded
schema emits is emitted without angle brackets, and the alias of every generic one is the name of
exactly one instance.  The alias is the one that naming the core of the use gives after the run. -/
theorem run_uses_emitted {e : Expander} {t : Text} {ds : List Declaration} {is : List Instance}
    {c : Context} (h : Gives (e.run t) {} (ds, is) c) :
    ∃ reading c₀, Gives (e.read t) {} reading c₀ ∧ ∀ u, IsEmitted ds is u →
      '<' ∉ u.resolved ∧ '>' ∉ u.resolved ∧
      (u.isGeneric = true → ∃ d name c', Decorated.ofText u.origin = .ok d ∧
        Gives (aliasName reading.naming d.core) c name c' ∧
        u.resolved = d.opening ++ name ++ d.closing ∧ (is.map Instance.name).count name = 1) := by
  obtain ⟨reading, c₀, hread, hnames, hexp⟩ := run_spec h
  refine ⟨reading, c₀, hread, ?_⟩
  intro u hu
  obtain ⟨⟨letters, expression, directive, huse⟩, hdeferred⟩ := hexp.isUse_of_isEmitted hu
  obtain ⟨hlt, hgt⟩ := huse.not_mem_resolved hdeferred
  refine ⟨hlt, hgt, ?_⟩
  intro hg
  have hrefers := hexp.refers_of_isEmitted hu hg
  obtain ⟨d, name, hd, hname, hresolved⟩ := huse.resolved_eq hrefers.1
  obtain ⟨i, hi, hiname⟩ := hexp.done u hrefers
  obtain rfl := hiname.unique hname
  obtain ⟨core, hcore, -, halias⟩ := hname
  obtain rfl := Except.ok.inj (hcore.symm.trans (coreOf_eq_ok hd))
  obtain ⟨c', hgives⟩ := (halias ▸ aliasName_computes reading.naming d.core).gives hnames
  refine ⟨d, i.name, c', hd, hgives, hresolved, ?_⟩
  exact List.count_eq_one_of_mem hexp.nodup (List.mem_map_of_mem hi)

def recursiveTemplate : Text :=
  "type Paged<T> \x7b items: [T!]! next: Paged<T> \x7d".toList ++
    "type Query \x7b products(of: Paged<ID>): Paged<Product>! \x7d".toList

theorem run_recursiveTemplate :
    (((({} : Expander).run recursiveTemplate).outcome {}).1.toOption.map
      fun r => r.2.map Instance.name) = some ["PagedID".toList, "PagedProduct".toList] := by
  decide +kernel

/-- The theorem on a schema with a template that uses itself: the instances refer to themselves. -/
theorem run_uses_emitted_recursiveTemplate :
    ∃ ds is c, Gives (({} : Expander).run recursiveTemplate) {} (ds, is) c ∧
      is.map Instance.name = ["PagedID".toList, "PagedProduct".toList] ∧
      ∃ reading c₀, Gives (({} : Expander).read recursiveTemplate) {} reading c₀ ∧
        ∀ u, IsEmitted ds is u → '<' ∉ u.resolved ∧ '>' ∉ u.resolved ∧
          (u.isGeneric = true → ∃ d name c', Decorated.ofText u.origin = .ok d ∧
            Gives (aliasName reading.naming d.core) c name c' ∧
            u.resolved = d.opening ++ name ++ d.closing ∧
              (is.map Instance.name).count name = 1) := by
  obtain ⟨⟨ds, is⟩, c, hrun, hnames⟩ := exists_gives_of_outcome run_recursiveTemplate
  exact ⟨ds, is, c, hrun, hnames, run_uses_emitted hrun⟩

/-! ### What instances are built from -/

/-- **Instances are built from uses with their alias.**  With default aliases, a concrete generic
use with the canonical core `k` has an instance under the characters of names in `k`.  It is the
template with type arguments in the place of type parameters, for the template and the type
arguments of a use with the same alias; so it is for those of `k` itself, unless another use has a
core that differs from `k` in other characters only. -/
theorem run_instances_from_alias {e : Expander} (hgeneral : e.general = none)
    (hnamed : e.named = {}) {t : Text} {ds : List Declaration} {is : List Instance} {c : Context}
    (h : Gives (e.run t) {} (ds, is) c) :
    ∃ reading c₀, Gives (e.read t) {} reading c₀ ∧ ∀ r, Refers reading is r → ∃ k, HasCore r k ∧
      (∃ i ∈ is, i.name = k.filter isNameChar) ∧
      ∀ i ∈ is, i.name = k.filter isNameChar →
        (∃ r' k', Refers reading is r' ∧ HasCore r' k' ∧
          k'.filter isNameChar = k.filter isNameChar ∧
          InstanceOf (e.workshop reading.naming ds) k' i) ∧
        ((∀ r' k', Refers reading is r' → HasCore r' k' →
          k'.filter isNameChar = k.filter isNameChar → k' = k) →
            InstanceOf (e.workshop reading.naming ds) k i) := by
  obtain ⟨reading, c₀, hread, -, hexp⟩ := run_spec h
  obtain ⟨hg, hn⟩ := read_naming hread
  have hdefault : ∀ {core normal name}, aliasOf reading.naming core = .ok name →
      normalize core = .ok normal → name = normal.filter isNameChar := by
    intro core normal name halias hnormal
    refine aliasOf_default (hg.trans hgeneral) ?_ halias hnormal
    intro key
    rw [hn, hnamed]
    rfl
  refine ⟨reading, c₀, hread, ?_⟩
  intro r hr
  obtain ⟨i, hi, core, hcore, -, halias⟩ := hexp.done r hr
  obtain ⟨k, hk, -, -⟩ := canonical_of_aliasOf halias
  refine ⟨k, ⟨core, hcore, hk⟩, ⟨i, hi, hdefault halias hk⟩, ?_⟩
  intro j hj hname
  obtain ⟨r', k', hr', hcore', hinst⟩ := hexp.built j hj
  have hsame : k'.filter isNameChar = k.filter isNameChar := by
    rw [← hdefault hinst.name hinst.normal, hname]
  refine ⟨⟨r', k', hr', hcore', hsame, hinst⟩, ?_⟩
  intro hunique
  rw [← hunique r' k' hr' hcore' hsame]
  exact hinst

/-- A schema in which two uses with different cores have one alias. -/
def sharedAlias : Text :=
  "type Paged<T> \x7b items: [T] \x7d\n".toList ++
    "type Query \x7b a: Paged<Product> b: Paged<[Product!]> \x7d".toList

/-- The template of the schema with a shared alias. -/
def sharedTemplate : Declaration :=
  let items : Field := { name := "items".toList, type := some {
    origin := "[T]".toList, isGeneric := false, resolved := "[T]".toList, letters :=
      some ["T".toList] } }
  { kind := .type, name := "Paged<T>".toList, parameters := some ["T".toList], fields := [items],
    ownFields := some [items] }

/-- The use that shares its alias with one before it. -/
def sharedUse : TypeUse :=
  { origin := "Paged<[Product!]>".toList, isGeneric := true, resolved := "PagedProduct".toList }

/-- The declaration that uses the template twice. -/
def sharedQuery : Declaration :=
  let fields : List Field := [
    { name := "a".toList, type := some {
        origin := "Paged<Product>".toList, isGeneric := true, resolved := "PagedProduct".toList } },
    { name := "b".toList, type := some sharedUse }]
  { kind := .type, name := "Query".toList, fields, ownFields := some fields }

/-- The one instance of the schema with a shared alias. -/
def sharedInstance : Instance :=
  let items : Field := { name := "items".toList, type := some {
    origin := "[Product]".toList, isGeneric := false, resolved := "[Product]".toList } }
  let name := "PagedProduct".toList
  { name, declaration := { kind := .type, name, fields := [items], ownFields := some [items] },
    text := "type PagedProduct \x7b\n    items: [Product]\n\x7d".toList }

theorem run_sharedAlias : ((({} : Expander).run sharedAlias).outcome {}).1.toOption =
    some ([sharedTemplate, sharedQuery], [sharedInstance]) := by
  decide +kernel

/-- The theorem on the schema with a shared alias. -/
theorem run_instances_from_alias_sharedAlias :
    ∃ reading c₀, Gives (({} : Expander).read sharedAlias) {} reading c₀ ∧
      ∀ r, Refers reading [sharedInstance] r → ∃ k, HasCore r k ∧
        (∃ i ∈ [sharedInstance], i.name = k.filter isNameChar) ∧
        ∀ i ∈ [sharedInstance], i.name = k.filter isNameChar →
          (∃ r' k', Refers reading [sharedInstance] r' ∧ HasCore r' k' ∧
            k'.filter isNameChar = k.filter isNameChar ∧
            InstanceOf
              (({} : Expander).workshop reading.naming [sharedTemplate, sharedQuery]) k' i) ∧
          ((∀ r' k', Refers reading [sharedInstance] r' → HasCore r' k' →
            k'.filter isNameChar = k.filter isNameChar → k' = k) →
              InstanceOf
                (({} : Expander).workshop reading.naming [sharedTemplate, sharedQuery]) k i) :=
  run_instances_from_alias rfl rfl (gives_of_outcome run_sharedAlias)

/-- The instance under a shared alias is not the instance of every core with the alias. -/
theorem not_instanceOf_sharedAlias :
    ∃ reading c₀ ds is c, Gives (({} : Expander).read sharedAlias) {} reading c₀ ∧
      Gives (({} : Expander).run sharedAlias) {} (ds, is) c ∧
      ∃ r k i, Refers reading is r ∧ HasCore r k ∧ i ∈ is ∧ HasAlias reading.naming r i.name ∧
        ¬ InstanceOf (({} : Expander).workshop reading.naming ds) k i := by
  have hrun := gives_of_outcome run_sharedAlias
  obtain ⟨reading, c₀, hread, -, hexp⟩ := run_spec hrun
  obtain ⟨b, hb, hub, -⟩ := hexp.resolved sharedQuery (by simp) sharedUse (by decide)
  have hrefers : Refers reading [sharedInstance] sharedUse := ⟨rfl, .inl ⟨b, hb, hub⟩⟩
  obtain ⟨i, hi, halias⟩ := hexp.done sharedUse hrefers
  obtain rfl := List.mem_singleton.mp hi
  refine ⟨reading, c₀, _, _, _, hread, hrun, sharedUse, "Paged<[Product!]>".toList, sharedInstance,
    hrefers, ⟨"Paged<[Product!]>".toList, ?_, ?_⟩, hi, halias, ?_⟩
  · have h : (coreOf sharedUse.origin).toOption = some "Paged<[Product!]>".toList := by
      decide +kernel
    exact eq_ok_of_toOption h
  · have h : (normalize "Paged<[Product!]>".toList).toOption = some "Paged<[Product!]>".toList := by
      decide +kernel
    exact eq_ok_of_toOption h
  · intro hinst
    obtain ⟨template, arguments, htemplate, hspec⟩ := hinst.declaration
    have htemplate' : (({ declarations := [sharedTemplate, sharedQuery] } : Workshop).templateOf
        "Paged<[Product!]>".toList).toOption = some (sharedTemplate, ["[Product!]".toList]) := by
      decide +kernel
    obtain ⟨rfl, rfl⟩ :=
      Prod.mk.inj (Except.ok.inj (htemplate.symm.trans (eq_ok_of_toOption htemplate')))
    obtain ⟨u, hu, hsubst⟩ := hspec.exists_of_mem_uses (List.mem_singleton.mpr rfl)
    obtain rfl := List.mem_singleton.mp hu
    -- the type of the field would have to be a list of lists
    have hmention : mentions "[T]".toList ["T".toList] = true := by decide +kernel
    have hsubstitute : (substitute "[T]".toList ["T".toList] ["[Product!]".toList]).toOption =
        some "[[Product!]]".toList := by decide +kernel
    have hcut : (cutDirectives "[[Product!]]".toList).toOption =
        some ("[[Product!]]".toList, none) := by
      decide +kernel
    rcases hsubst with ⟨-, e, he, huse⟩ | ⟨hno, -⟩
    · obtain rfl := Except.ok.inj (he.symm.trans (eq_ok_of_toOption hsubstitute))
      obtain ⟨written, e, hcut', horigin⟩ := huse.origin_eq
      obtain ⟨rfl, -⟩ := Prod.mk.inj (Except.ok.inj (hcut'.symm.trans (eq_ok_of_toOption hcut)))
      exact absurd horigin (by decide +kernel)
    · exact absurd (hmention.symm.trans hno) (by decide)

end Schemata
