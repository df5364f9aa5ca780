import Schemata.Proofs.Arrangement
import Schemata.Proofs.Needed

/-!
# The order of the instances

Building all pending instances gives them in an order in which each stands behind those that it
refers to, except where it takes part in a cycle.  The instances are arranged so by links between
aliases, and a link is a reference between instances if under the alias it starts from there is the
instance of its own core.  This holds as long as no instance is refused.  After a refusal the
instance of another core may have taken the alias, unless different cores have different aliases.

## Main results

* `reflTransGen_refersIn` — links are references.
* `buildPending_ordered` — instances stand behind those that they refer to, except for cycles.
-/

namespace Schemata

open Resolve Relation List

/-! ### References -/

/-- Both instances are in the list, and a generic use in the declaration of the first has the name
of the second as its alias. -/
def RefersIn (naming : Naming) (is : List Instance) (i j : Instance) : Prop :=
  i ∈ is ∧ j ∈ is ∧ ∃ u ∈ i.declaration.uses, u.isGeneric = true ∧ HasAlias naming u j.name

/-- Different cores are remembered under different aliases. -/
def Context.NamesApart (c : Context) : Prop :=
  ∀ k k' n, c.aliasNames.get? k = some n → c.aliasNames.get? k' = some n → k = k'

/-- Whatever is stored under the alias of a core that satisfies `S` is the instance of this core. -/
def Context.Faithful (w : Workshop) (S : Text → Prop) (c : Context) : Prop :=
  ∀ k, S k → ∀ m i, aliasOf w.naming k = .ok m → c.instances.get? m = some i → InstanceOf w k i

/-- Every generic use in an instance has its own instance. -/
def Context.Complete (w : Workshop) (c : Context) : Prop :=
  ∀ n i, c.instances.get? n = some i → ∀ u ∈ i.declaration.uses, u.isConcrete = true →
    ∃ m, HasAlias w.naming u m ∧ c.instances.contains m = true

section References

variable {w : Workshop} {base : Log} {S : Text → Prop} {c c' : Context} {is : List Instance}
  {i j : Instance} {k m n : Text}

theorem InstanceOf.isConcrete (hw : w.Written) (h : InstanceOf w k i) {u : TypeUse}
    (hu : u ∈ i.declaration.uses) (hgeneric : u.isGeneric) : u.isConcrete := by
  obtain ⟨template, arguments, htemplate, hspec⟩ := h.declaration
  obtain ⟨u₀, hu₀, hsubst⟩ := hspec.exists_of_mem_uses hu
  obtain ⟨letters, huse, hletters⟩ := hw template (templateOf_mem htemplate) u₀ hu₀
  rw [TypeUse.isConcrete, hgeneric, hsubst.isDeferred_eq_false huse hletters]
  rfl

/-- Once all pending instances are built, every generic use in an instance has its own. -/
theorem Workshop.Asked.complete (hc : w.Asked c) (h : Gives w.buildPending c is c') :
    c'.Complete w := by
  obtain ⟨base, hlays⟩ := hc.lays
  obtain ⟨hw, hbuilding, -⟩ := hc.stores
  have hpending : ∀ {v}, v ∈ c.pending.values →
      ∃ m, c.pending.get? m = some v ∧ v.isConcrete ∧ HasAlias w.naming v m := by
    intro v hv
    obtain ⟨m, hm⟩ := Table.exists_get?_of_mem_values hlays.awaits.nodup hv
    exact ⟨m, hm, hlays.awaits.aliased hm⟩
  obtain ⟨-, hbuilds, -⟩ := buildPending_spec hw.usesRead ⟨hlays.awaits.names,
    hlays.nodup⟩ hbuilding (fun v hv _ => by
      obtain ⟨m, -, -, hm⟩ := hpending hv
      exact ⟨m, hm⟩) h
  intro n i hi u hu hconcrete
  rcases hbuilds.new hi with hold | ⟨-, -, -, huses⟩
  · -- the alias of a use in an instance that was there has been waiting
    obtain ⟨before, after, hentries⟩ := append_of_mem (Table.mem_of_find? hold)
    have hprefix : before ++ [(n, i)] <+: c.instances.entries := ⟨after, by rw [hentries]; simp⟩
    obtain ⟨m, hm, hwaits, -⟩ := hlays.arranged before n i hprefix u hu hconcrete
    obtain ⟨v, hv⟩ := Option.isSome_iff_exists.mp hwaits
    obtain ⟨hv', hvm⟩ := hlays.awaits.aliased hv
    obtain ⟨m', hm', hdone⟩ := hbuilds.done v (Table.mem_values_of_get? hv) hv'
    obtain rfl := hvm.unique hm'
    exact ⟨m, hm, hdone.resolve_left not_mem_nil⟩
  · obtain ⟨m, hm, hdone⟩ := huses u hu hconcrete
    exact ⟨m, hm, hdone.resolve_left not_mem_nil⟩

theorem reflTransGen_refersIn (hw : w.Written) (hfaithful : c.Faithful w S)
    (hcomplete : c.Complete w) (hnames : ∀ {n i}, c.instances.get? n = some i → i.name = n)
    (hway : ReflTransGen (w.Links S) m n) (hj : c.instances.get? m = some j)
    (hi : c.instances.get? n = some i) :
    ReflTransGen (RefersIn w.naming c.instances.values) j i := by
  induction hway using ReflTransGen.head_induction_on generalizing j with
  | refl =>
    obtain rfl := Option.some.inj (hj.symm.trans hi)
    exact .refl
  | @head m m' hlink _ ih =>
    obtain ⟨k, k', hk, hkm, hkm', hnests⟩ := hlink
    -- the instance has a use with the alias that the link leads to
    obtain ⟨u, hu, hconcrete, hcore⟩ := (hfaithful k hk m j hkm hj).exists_use hw hnests
    obtain ⟨m'', halias, hcontains⟩ := hcomplete m j hj u hu hconcrete
    obtain ⟨k'', hcore', hkm''⟩ := halias.exists_core
    obtain rfl := hcore.unique hcore'
    obtain rfl := ok_unique hkm' hkm''
    obtain ⟨j', hj'⟩ := Option.isSome_iff_exists.mp hcontains
    refine .head ⟨Table.mem_values_of_get? hj, Table.mem_values_of_get? hj', u, hu, ?_, ?_⟩ (ih hj')
    · exact (Bool.and_eq_true_iff.mp hconcrete).1
    · rw [hnames hj']
      exact halias

theorem sublist_or_eq_or_sublist {α : Type} {l l' : List α} {a b : α} (hb : b ∈ l ++ a :: l') :
    [b, a].Sublist (l ++ a :: l') ∨ b = a ∨ [a, b].Sublist (l ++ a :: l') := by
  rcases mem_append.mp hb with hb | hb
  · exact .inl ((singleton_sublist.mpr hb).append (singleton_sublist.mpr mem_cons_self))
  · rcases mem_cons.mp hb with rfl | hb
    · exact .inr (.inl rfl)
    · refine .inr (.inr ?_)
      exact ((singleton_sublist.mpr hb).cons_cons a).trans (sublist_append_right l (a :: l'))

/-- Instances that are arranged stand behind those that they refer to, or lead back to them. -/
theorem Context.Lays.ordered {G : Text → Prop} (hw : w.Written) (hc : c.Lays w base G [] [])
    (hfaithful : c.Faithful w fun k => k ∈ [] ∨ c.Holds w k ∨ G k) (hcomplete : c.Complete w)
    (hi : c.instances.get? n = some i) {u : TypeUse} (hu : u ∈ i.declaration.uses)
    (hconcrete : u.isConcrete) : ∃ j ∈ c.instances.values, HasAlias w.naming u j.name ∧
      ([j, i].Sublist c.instances.values ∨ j = i ∨
        [i, j].Sublist c.instances.values ∧
          TransGen (RefersIn w.naming c.instances.values) j i) := by
  obtain ⟨before, after, hentries⟩ := append_of_mem (Table.mem_of_find? hi)
  have hvalues : c.instances.values = before.map Prod.snd ++ i :: after.map Prod.snd := by
    rw [Table.values, hentries, map_append, map_cons]
  obtain ⟨m, hm, -, hplace⟩ := hc.arranged before n i ⟨after, by rw [hentries]; simp⟩ u hu hconcrete
  obtain ⟨m', hm', hcontains⟩ := hcomplete n i hi u hu hconcrete
  obtain rfl := hm.unique hm'
  obtain ⟨j, hj⟩ := Option.isSome_iff_exists.mp hcontains
  have hmem := Table.mem_values_of_get? hj
  refine ⟨j, hmem, by rwa [hc.stores.name_eq hj], ?_⟩
  rcases hplace with hbefore | hway
  · -- the instance under the alias is the one that stands before
    obtain ⟨⟨m, j'⟩, hj', rfl⟩ := mem_map.mp hbefore
    have hget : c.instances.get? m = some j' := by
      refine Table.find?_of_mem hc.nodup ?_
      rw [hentries]
      exact mem_append_left _ hj'
    obtain rfl := Option.some.inj (hj.symm.trans hget)
    rw [hvalues]
    exact .inl ((singleton_sublist.mpr (mem_map_of_mem (f := Prod.snd) hj')).append
      (singleton_sublist.mpr mem_cons_self))
  · have hway := reflTransGen_refersIn hw hfaithful hcomplete hc.stores.name_eq hway hj hi
    rcases reflTransGen_iff_eq_or_transGen.mp hway with heq | hway
    · exact .inr (.inl heq.symm)
    · have hsublist := sublist_or_eq_or_sublist (hvalues ▸ hmem)
      rw [← hvalues] at hsublist
      exact hsublist.imp_right (Or.imp_right fun hbehind => ⟨hbehind, hway⟩)

theorem Context.Lays.nodup_names {G : Text → Prop} (hc : c.Lays w base G [] []) :
    (c.instances.values.map Instance.name).Nodup := by
  have hnames : c.instances.values.map Instance.name = c.instances.keys := by
    rw [Table.values, Table.keys, List.map_map]
    exact map_congr_left fun e he => hc.stores.name_eq (Table.find?_of_mem hc.nodup he)
  rw [hnames]
  exact hc.nodup

theorem Context.Holds.instanceOf (hk : c.Holds w k) (hnames : c.NamesSound w.naming)
    (hm : aliasOf w.naming k = .ok m) (hi : c.instances.get? m = some i) : InstanceOf w k i := by
  obtain ⟨n, i', hn, hi', hinstance⟩ := hk
  obtain rfl := ok_unique hm (hnames k n hn).2
  obtain rfl := Option.some.inj (hi.symm.trans hi')
  exact hinstance

theorem Context.Recalls.instanceOf {P : Text → Prop} {path : List Text} (hk : c.Recalls k)
    (hapart : c.NamesApart) (hc : c.Stores w P base path) (hm : aliasOf w.naming k = .ok m)
    (hi : c.instances.get? m = some i) : InstanceOf w k i := by
  obtain ⟨n, hn⟩ := hk
  obtain rfl := ok_unique hm (hc.names k n hn).2
  obtain ⟨k', -, hk', hinstance⟩ := hc.exists_built hi
  rwa [hapart k k' m hn hk']

/-- Links go through cores whose instances are there, if no instance was refused, or if different
cores have different aliases. -/
theorem exists_faithful (hc : w.Served c ∨ w.Asked c ∧ c.NamesApart) :
    ∃ base G, c.Lays w base G [] [] ∧ c.Faithful w fun k => k ∈ [] ∨ c.Holds w k ∨ G k := by
  rcases hc with hserved | ⟨hasked, hapart⟩
  · obtain ⟨base, hlays⟩ := hserved.lays
    refine ⟨base, _, hlays, ?_⟩
    rintro k (hk | hk | hk) m i hm hi
    · exact absurd hk not_mem_nil
    · exact hk.instanceOf hlays.awaits.names hm hi
    · exact hk.elim
  · obtain ⟨base, hlays⟩ := hasked.lays
    refine ⟨base, _, hlays, ?_⟩
    rintro k (hk | hk | hk) m i hm hi
    · exact absurd hk not_mem_nil
    · exact hk.instanceOf hlays.awaits.names hm hi
    · exact hk.instanceOf hapart hlays.stores hm hi

/-- **Instances stand behind those that they refer to.**  Let all pending instances be built, where
no instance was refused before, or where different cores have different aliases in the end.  Then
the instances have different names, and every generic use in one of them has the name of an instance
as its alias.  This instance stands before the one with the use, or is the same, or stands behind it
and leads back to it through references. -/
theorem buildPending_ordered (hc : w.Served c ∨ w.Asked c ∧ c'.NamesApart)
    (h : Gives w.buildPending c is c') :
    (is.map Instance.name).Nodup ∧ ∀ i ∈ is, ∀ u ∈ i.declaration.uses, u.isGeneric = true →
      ∃ j ∈ is, HasAlias w.naming u j.name ∧ ([j, i].Sublist is ∨ j = i ∨
        [i, j].Sublist is ∧ TransGen (RefersIn w.naming is) j i) := by
  have hasked : w.Asked c := by
    rcases hc with hserved | ⟨hasked, -⟩
    · exact hserved.asked
    · exact hasked
  have hafter : w.Served c' ∨ w.Asked c' ∧ c'.NamesApart := by
    refine hc.imp (fun hserved => hserved.pending h) (And.imp_left fun hasked => ?_)
    have hafter := hasked.pending
    rwa [h] at hafter
  obtain ⟨hw, hbuilding, base₀, hstores⟩ := hasked.stores
  obtain ⟨-, rfl⟩ :=
    (buildPending_meets hw (fun _ _ => trivial) hbuilding (fun _ _ _ _ _ _ _ => trivial)
    hstores).gives h
  obtain ⟨base, G, hlays, hfaithful⟩ := exists_faithful hafter
  refine ⟨hlays.nodup_names, fun i hi u hu hgeneric => ?_⟩
  obtain ⟨n, hget⟩ := Table.exists_get?_of_mem_values hlays.nodup hi
  obtain ⟨k, -, -, hinstance⟩ := hlays.stores.exists_built hget
  exact hlays.ordered hw hfaithful (hasked.complete h) hget hu (hinstance.isConcrete hw hu hgeneric)

end References

def family : Text :=
  "type Parent<T> \x7b of: T child: Child<T> \x7d\n".toList ++
    "type Child<T> \x7b parent: Parent<T> \x7d\ntype Query \x7b root: Parent<ID> \x7d".toList

theorem run_family :
    (((({} : Expander).run family).outcome {}).1.toOption.map fun r => r.2.map Instance.name) =
      some ["ChildID".toList, "ParentID".toList] := by
  decide +kernel

/-- The theorem on two templates that use each other, where the first instance refers to the
second. -/
theorem buildPending_ordered_family :
    ∃ (w : Workshop) (c : Context) (is : List Instance) (c' : Context), w.Served c ∧
      Gives w.buildPending c is c' ∧ is.map Instance.name = ["ChildID".toList, "ParentID".toList] ∧
      (is.map Instance.name).Nodup ∧ ∀ i ∈ is, ∀ u ∈ i.declaration.uses, u.isGeneric = true →
        ∃ j ∈ is, HasAlias w.naming u j.name ∧ ([j, i].Sublist is ∨ j = i ∨
          [i, j].Sublist is ∧ TransGen (RefersIn w.naming is) j i) := by
  obtain ⟨⟨ds, is⟩, c₁, hrun, hnames⟩ := exists_gives_of_outcome run_family
  obtain ⟨naming, annotations, blocks, fs, read, c, c', hready, hbuild⟩ := ready_of_run hrun
  exact ⟨_, c, is, c', .resolved hready, hbuild, hnames,
    buildPending_ordered (.inl (.resolved hready)) hbuild⟩

/-- A schema in which the core of one template has the alias of a core of another one. -/
def tangle : Text :=
  "type J<T> \x7b i: I<T> k: K<T> \x7d\ntype I<T> \x7b j: J<T> \x7d\n".toList ++
    "type K<T> \x7b l: L<T> \x7d\ntype L<T> \x7b x: T \x7d\n".toList ++
    "type JA<T> \x7b y: T \x7d\ntype Query \x7b a: JA<B> \x7d".toList

/-- The workshop for the declarations read from a schema, and the context after the instance of a
core has been asked for, come of it what may. -/
def readAndBuild (t : Text) (limit : Int) (core : Text) : Option (Workshop × Context) :=
  match (({} : Expander).read t).outcome {} with
  | (.ok r, c) =>
      let w : Workshop := { declarations := r.declarations, naming := r.naming, limit }
      some (w, ((w.build core).outcome c).2)
  | (.error _, _) => none

theorem asked_of_readAndBuild {t core : Text} {limit : Int} {w : Workshop} {c : Context}
    (h : readAndBuild t limit core = some (w, c)) : w.Asked c := by
  unfold readAndBuild at h
  split at h
  · rename_i r c₀ hread
    obtain ⟨blocks, fs, hreadFrom⟩ := readFrom_of_read hread
    have hasked : Workshop.Asked { declarations := r.declarations, naming := r.naming, limit } c₀ :=
      .read hreadFrom
    obtain ⟨rfl, rfl⟩ := Prod.mk.inj (Option.some.inj h)
    exact hasked.build core
  · cases h

/-- The instance of a core of the schema is refused because it nests too deep. -/
def tangled : Option (Workshop × Context) :=
  readAndBuild tangle 2 "J<AB>".toList

/-- The names of the instances that are built then, and the generic uses in them. -/
theorem buildPending_tangled :
    (tangled.bind fun wc => (wc.1.buildPending.outcome wc.2).1.toOption.map fun is =>
      (is.map fun i =>
        (i.name, (i.declaration.uses.filter TypeUse.isGeneric).map TypeUse.origin))) =
    some [("IAB".toList, ["J<AB>".toList]), ("JAB".toList, []), ("LAB".toList, []),
      ("KAB".toList, ["L<AB>".toList])] := by
  decide +kernel

theorem aliasOf_tangled :
    (tangled.bind fun wc => (aliasOf wc.1.naming "J<AB>".toList).toOption) = some "JAB".toList := by
  decide +kernel

/-- A core that was given up leaves its alias to another one: the first instance refers to the alias
of such a core, under which the second one is stored, and this one refers to nothing. -/
theorem not_ordered_tangled :
    ∃ (w : Workshop) (c : Context) (is : List Instance) (c' : Context), w.Asked c ∧
      Gives w.buildPending c is c' ∧ ∃ i ∈ is, ∃ u ∈ i.declaration.uses, u.isGeneric = true ∧
        ∃ j ∈ is, HasAlias w.naming u j.name ∧ ¬ ([j, i].Sublist is ∨ j = i ∨
          [i, j].Sublist is ∧ TransGen (RefersIn w.naming is) j i) := by
  obtain ⟨⟨w, c⟩, htangled, hbuild⟩ := Option.bind_eq_some_iff.mp buildPending_tangled
  obtain ⟨is, his, hnames⟩ := Option.map_eq_some_iff.mp hbuild
  have halias : aliasOf w.naming "J<AB>".toList = .ok "JAB".toList := by
    have hform := aliasOf_tangled
    rw [htangled] at hform
    exact eq_ok_of_toOption hform
  refine ⟨w, c, is, _, asked_of_readAndBuild htangled, gives_of_outcome his, ?_⟩
  have hlist : is.map Instance.name = ["IAB".toList, "JAB".toList, "LAB".toList, "KAB".toList] := by
    have hfst := congrArg (List.map Prod.fst) hnames
    rw [List.map_map] at hfst
    exact hfst
  obtain ⟨i, rest, rfl, hi, hrest⟩ := List.map_eq_cons_iff.mp hnames
  obtain ⟨j, rest', rfl, hj, hrest'⟩ := List.map_eq_cons_iff.mp hrest
  obtain ⟨hiname, hiuses⟩ := Prod.mk.inj hi
  obtain ⟨hjname, hjuses⟩ := Prod.mk.inj hj
  -- the use in the first instance has the name of the second as its alias
  obtain ⟨u, us, hus, hu, -⟩ := List.map_eq_cons_iff.mp hiuses
  obtain ⟨humem, hugeneric⟩ := List.mem_filter.mp (hus ▸ List.mem_cons_self : u ∈ List.filter _ _)
  have hcore : coreOf u.origin = .ok "J<AB>".toList := by
    rw [hu]
    exact eq_ok_of_toOption (by decide +kernel)
  refine ⟨i, List.mem_cons_self, u, humem, hugeneric, j, by simp, ?_, ?_⟩
  · rw [hjname]
    exact ⟨"J<AB>".toList, hcore, by decide +kernel, halias⟩
  · rintro (hbefore | heq | ⟨-, hway⟩)
    · have hsublist := hbefore.map Instance.name
      rw [hlist, List.map_cons, List.map_cons, List.map_nil, hjname, hiname] at hsublist
      exact absurd hsublist (by decide)
    · have hname := hjname
      rw [heq, hiname] at hname
      exact absurd hname (by decide)
    · -- no use in the second instance leads anywhere
      obtain ⟨b, ⟨-, -, v, hv, hvgeneric, -⟩, -⟩ := TransGen.head'_iff.mp hway
      have hmem : v ∈ j.declaration.uses.filter TypeUse.isGeneric :=
        List.mem_filter.mpr ⟨hv, hvgeneric⟩
      rw [List.map_eq_nil_iff.mp hjuses] at hmem
      exact absurd hmem List.not_mem_nil

end Schemata
