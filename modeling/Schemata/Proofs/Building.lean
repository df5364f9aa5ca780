import Mathlib.Data.List.Chain
import Schemata.Proofs.Substitution

/-!
# Building, whatever comes of it

Building the instance of a core succeeds or fails.  Whether it does the one or the other, the
instances that are there afterwards are those told in the log, in order, each built from the core
told with it; and it fails only if instances nest too deep or a core has no instance at all.

The cores that come up while instances are built are those asked for and the cores of the uses
nested in their instances.  A property of cores is followed through a run by being closed under
nesting.
-/

namespace Schemata

open Resolve List

variable {k n : Text} {u : TypeUse}

/-! ### Templates with their uses replaced -/

section Specializes

variable {R : TypeUse → TypeUse → Prop} {f f' : Field} {template d d' : Declaration} {name : Text}

theorem rightUnique_optionRel {α β : Type} {R : α → β → Prop} (hR : Relator.RightUnique R) :
    Relator.RightUnique (Option.Rel R) := by
  intro o p p' h h'
  cases h with
  | none =>
    cases h'
    rfl
  | some hr =>
    cases h' with
    | some hr' => rw [hR hr hr']

theorem Field.Specializes.rightUnique (hR : Relator.RightUnique R) :
    Relator.RightUnique (Field.Specializes R) := by
  intro f f' g h h'
  have hargument : Relator.RightUnique fun a a' : Argument =>
      a' = { a with type := a'.type } ∧ R a.type a'.type := by
    rintro a b b' ⟨hb, hr⟩ ⟨hb', hr'⟩
    rw [hb, hb', hR hr hr']
  have harguments := rightUnique_optionRel hargument.forall₂ h.arguments h'.arguments
  rw [h.eq, h'.eq, harguments, rightUnique_optionRel hR h.type h'.type]

/-- Where uses are replaced in one way only, a template has at most one instance under a name. -/
theorem Declaration.Specializes.unique (hR : Relator.RightUnique R)
    (h : Declaration.Specializes R template name d)
    (h' : Declaration.Specializes R template name d') : d = d' := by
  have hfields := (Field.Specializes.rightUnique hR).forall₂ h.fields h'.fields
  rw [h.eq, h'.eq, hfields, rightUnique_optionRel hR.forall₂ h.members h'.members]

end Specializes

/-! ### Cores and their instances -/

section Cores

variable {w : Workshop} {k m n : Text} {template : Declaration} {arguments : List Text}

/-- The template that a base name stands for: the first of the name that extends nothing. -/
def Workshop.template? (w : Workshop) (base : Text) : Option Declaration :=
  (candidates w.declarations base).find? Declaration.isTemplate

/-- The template of a core is that of its base name, and has as many type parameters as the core has
type arguments. -/
theorem templateOf_eq_ok : w.templateOf k = .ok (template, arguments) ↔
    ∃ a, Application.ofText k = .ok a ∧ w.template? a.base = some template ∧
      a.arguments = arguments ∧ (template.parameters.getD []).length = arguments.length := by
  unfold Workshop.templateOf
  rw [bind_eq_ok]
  refine exists_congr fun a => and_congr_right fun _ => ?_
  rw [bind_eq_ok]
  have hfor : ∀ t, templateFor w.declarations a.base k = .ok t ↔ w.template? a.base = some t := by
    intro t
    unfold templateFor Workshop.template?
    split
    · rename_i t' ht
      rw [ht, Except.ok.injEq, Option.some.injEq]
    · rename_i hnone
      rw [hnone]
      split <;> simp
  constructor
  · rintro ⟨t, ht, h⟩
    simp only at h
    split_ifs at h with hlength
    cases h
    exact ⟨(hfor _).mp ht, rfl, (beq_iff_eq.mp hlength).symm⟩
  · rintro ⟨ht, rfl, hlength⟩
    refine ⟨template, (hfor _).mpr ht, ?_⟩
    simp only
    rw [if_pos (beq_iff_eq.mpr hlength.symm)]
    rfl

theorem argumentAlias_of_templateOf (hk : normalize k = .ok k) (hn : aliasOf w.naming k = .ok n)
    (ht : w.templateOf k = .ok (template, arguments)) :
    ∀ x ∈ arguments, ∃ m, argumentAlias w.naming x = .ok m := by
  obtain ⟨a, ha, -, rfl, -⟩ := templateOf_eq_ok.mp ht
  obtain ⟨k', hk', a', names, formed, ha', -, harguments, -⟩ := aliasOf_eq_ok.mp hn
  obtain rfl := ok_unique hk hk'
  obtain rfl := ok_unique ha ha'
  intro x hx
  obtain ⟨m, -, hm⟩ := exists_right_of_forall₂ harguments hx
  exact ⟨m, hm⟩

/-- The uses in the declarations of a workshop are uses of type expressions inside the type
parameters of their declaration, or outside of any. -/
def Workshop.Written (w : Workshop) : Prop :=
  ∀ d ∈ w.declarations, ∀ u ∈ d.uses, ∃ letters, IsUse w.naming letters u ∧
    (letters.getD [] = [] ∨ letters.getD [] = d.parameters.getD [])

theorem Workshop.Written.usesRead (hw : w.Written) : w.UsesRead := by
  intro d hd u hu
  obtain ⟨letters, huse, -⟩ := hw d hd u hu
  exact ⟨letters, huse⟩

theorem Workshop.Written.substitutes (hw : w.Written) (hk : normalize k = .ok k)
    (hn : aliasOf w.naming k = .ok n) (ht : w.templateOf k = .ok (template, arguments))
    {v : TypeUse} (hu : u ∈ template.uses)
    (h : SubstitutedUse w.naming (template.parameters.getD []) arguments u v) :
    Substitutes w.naming (template.parameters.getD []) arguments u v := by
  obtain ⟨letters, huse, hletters⟩ := hw _ (templateOf_mem ht) u hu
  obtain ⟨-, -, -, -, hlength⟩ := templateOf_eq_ok.mp ht
  exact h.substitutes huse hletters hlength (argumentAlias_of_templateOf hk hn ht)

/-- The canonical core `m` is the core of a generic use in the template of `k` with the type
arguments of `k` in the place of the type parameters. -/
def Workshop.Nests (w : Workshop) (k m : Text) : Prop :=
  ∃ template arguments u v, w.templateOf k = .ok (template, arguments) ∧ u ∈ template.uses ∧
    Substitutes w.naming (template.parameters.getD []) arguments u v ∧
      v.isConcrete = true ∧ HasCore v m

theorem HasAlias.exists_core {naming : Naming} (h : HasAlias naming u n) :
    ∃ k, HasCore u k ∧ aliasOf naming k = .ok n := by
  obtain ⟨core, hcore, -, hn⟩ := h
  obtain ⟨k, hk, -⟩ := canonical_of_aliasOf hn
  exact ⟨k, ⟨core, hcore, hk⟩, aliasOf_normal hn hk⟩

theorem SubstitutedUse.rightUnique (naming : Naming) (parameters arguments : List Text) :
    Relator.RightUnique (SubstitutedUse naming parameters arguments) := by
  intro u v v' h h'
  rcases h with ⟨hm, e, he, huse⟩ | ⟨hm, rfl⟩
  · rcases h' with ⟨-, e', he', huse'⟩ | ⟨hm', -⟩
    · obtain rfl := ok_unique he he'
      exact ok_unique (useOf_none_eq_ok.mpr huse) (useOf_none_eq_ok.mpr huse')
    · rw [hm] at hm'
      cases hm'
  · rcases h' with ⟨hm', -⟩ | ⟨-, rfl⟩
    · rw [hm] at hm'
      cases hm'
    · rfl

/-- **A core has at most one instance.** -/
theorem InstanceOf.unique {i j : Instance} (hi : InstanceOf w k i) (hj : InstanceOf w k j) :
    i = j := by
  have hname : i.name = j.name := ok_unique hi.name hj.name
  have hdeclaration : i.declaration = j.declaration := by
    obtain ⟨template, arguments, ht, hspec⟩ := hi.declaration
    obtain ⟨template', arguments', ht', hspec'⟩ := hj.declaration
    obtain ⟨rfl, rfl⟩ := Prod.mk.inj (ok_unique ht ht')
    rw [← hname] at hspec'
    exact hspec.unique (SubstitutedUse.rightUnique _ _ _) hspec'
  have htext : i.text = j.text := by rw [hi.text, hj.text, hdeclaration]
  cases i
  cases j
  simp only at hname hdeclaration htext
  rw [hname, hdeclaration, htext]

theorem not_instanceOf_of_forall_not (ht : w.templateOf k = .ok (template, arguments))
    (hu : u ∈ template.uses) (hnone : ∀ v,
      ¬ SubstitutedUse w.naming (template.parameters.getD []) arguments u v) (i : Instance) :
    ¬ InstanceOf w k i := by
  intro hi
  obtain ⟨template', arguments', ht', hspec⟩ := hi.declaration
  obtain ⟨rfl, rfl⟩ := Prod.mk.inj (ok_unique ht ht')
  obtain ⟨v, -, hv⟩ := exists_right_of_forall₂ hspec.uses hu
  exact hnone v hv

theorem concreteCore_eq_error {e : SchemaError} (h : Workshop.concreteCore u = .error e) :
    u.isConcrete ∧ ∀ naming n, ¬ HasAlias naming u n := by
  unfold Workshop.concreteCore at h
  split_ifs at h with hconcrete
  refine ⟨hconcrete, ?_⟩
  rintro naming n ⟨core, hcore, -⟩
  rw [hcore] at h
  cases h

end Cores

/-! ### What building leaves -/

/-- The core and the alias of an instance that is told to be built. -/
def Event.built? : Event → Option (Text × Text)
  | .instanceBuilt core name => some (core, name)
  | _ => none

/-- The second context differs from the first only in what is remembered about uses and instances,
and has forgotten no alias. -/
structure Context.Grows (c c' : Context) : Prop where
  frame : c' = { c with
    aliasNames := c'.aliasNames, pending := c'.pending, instances := c'.instances, log := c'.log }
  keep : ∀ {k n}, c.aliasNames.get? k = some n → c'.aliasNames.get? k = some n

theorem Context.Grows.refl (c : Context) : c.Grows c :=
  ⟨rfl, id⟩

theorem Context.Grows.trans {c₁ c₂ c₃ : Context} (h : c₁.Grows c₂) (h' : c₂.Grows c₃) :
    c₁.Grows c₃ := by
  refine ⟨?_, fun hk => h'.keep (h.keep hk)⟩
  rw [h'.frame, h.frame]

theorem Context.Notes.grows {c c' : Context} (h : c.Notes c') : c.Grows c' := by
  refine ⟨?_, h.keep⟩
  rw [h.frame]

/-- While the instances on the path are being built, the instances that are there are those told
since the log was `base`, in order.  Each is the instance of the core told with it, which satisfies
`P`. -/
structure Context.Stores (w : Workshop) (P : Text → Prop) (base : Log) (path : List Text)
    (c : Context) : Prop where
  names : c.NamesSound w.naming
  free : ∀ n ∈ path, c.instances.get? n = none
  told : ∃ l, c.log = base ++ l ∧ Forall₂
    (fun i b => b.2 = i.1 ∧ P b.1 ∧ c.aliasNames.get? b.1 = some i.1 ∧ InstanceOf w b.1 i.2)
    c.instances.entries (l.filterMap Event.built?)

/-- Different aliases of cores that satisfy `P`, each core nested in the one before. -/
structure Workshop.Chain (w : Workshop) (P : Text → Prop) (path : List Text) : Prop where
  nodup : path.Nodup
  named : ∀ n ∈ path, ∃ k, P k ∧ aliasOf w.naming k = .ok n
  /-- Each is the alias of a core that is nested in a core with the alias before. -/
  linked : path.IsChain fun n m =>
    ∃ k j, aliasOf w.naming k = .ok n ∧ aliasOf w.naming j = .ok m ∧ w.Nests k j

/-- The core is nested in a core with the last alias on the path. -/
def Workshop.Follows (w : Workshop) (path : List Text) (k : Text) : Prop :=
  ∀ n ∈ path.getLast?, ∃ j, aliasOf w.naming j = .ok n ∧ w.Nests j k

theorem Workshop.Chain.nil (w : Workshop) (P : Text → Prop) : w.Chain P [] :=
  ⟨nodup_nil, by simp, .nil⟩

theorem Workshop.Chain.concat {w : Workshop} {P : Text → Prop} {path : List Text}
    (h : w.Chain P path) (hn : n ∉ path) (hk : P k ∧ w.Follows path k)
    (halias : aliasOf w.naming k = .ok n) : w.Chain P (path ++ [n]) := by
  refine ⟨h.nodup.append (nodup_singleton n) (disjoint_singleton.mpr hn), ?_, ?_⟩
  · intro m hm
    rcases mem_append.mp hm with hm | hm
    · exact h.named m hm
    · rw [mem_singleton.mp hm]
      exact ⟨k, hk.1, halias⟩
  · refine h.linked.append (.singleton n) ?_
    intro m hm n' hn'
    obtain ⟨j, hj, hnests⟩ := hk.2 m hm
    obtain rfl := Option.mem_some_iff.mp hn'
    exact ⟨j, k, hj, halias, hnests⟩

/-- Instances nest deeper than the limit: there is a chain of aliases longer than the limit. -/
def Workshop.TooDeep (w : Workshop) (P : Text → Prop) (e : Failure) : Prop :=
  e = .noDepth ∧ w.limit ≤ 0 ∨
    ∃ outermost chain core, e = .schema (.nestedTooDeep w.limit outermost chain core) ∧
      w.Chain P chain ∧ w.limit < chain.length

/-- Why building instances of cores that satisfy `P` fails. -/
def Workshop.Stuck (w : Workshop) (P : Text → Prop) (e : Failure) : Prop :=
  w.TooDeep P e ∨ ∃ k, P k ∧ ∀ i, ¬ InstanceOf w k i

section Stores

variable {w : Workshop} {P : Text → Prop} {base : Log} {path : List Text} {c c' : Context}

theorem Context.Stores.of_notes (hc : c.Stores w P base path) (h : c.Notes c')
    (hnames : c'.NamesSound w.naming) : c'.Stores w P base path := by
  refine ⟨hnames, ?_, ?_⟩
  · rw [h.frame]
    exact hc.free
  · obtain ⟨l, hlog, hall⟩ := hc.told
    refine ⟨l, by rw [h.frame, hlog], ?_⟩
    have hentries : c'.instances.entries = c.instances.entries := by rw [h.frame]
    rw [hentries]
    exact hall.imp fun _ _ hb => ⟨hb.1, hb.2.1, h.keep hb.2.2.1, hb.2.2.2⟩

theorem Context.Stores.push (hc : c.Stores w P base path) (hn : c.instances.get? n = none) :
    c.Stores w P base (path ++ [n]) := by
  refine ⟨hc.names, ?_, hc.told⟩
  intro m hm
  rcases mem_append.mp hm with hm | hm
  · exact hc.free m hm
  · rw [mem_singleton.mp hm]
    exact hn

theorem Context.Stores.pop (hc : c.Stores w P base (path ++ [n])) : c.Stores w P base path :=
  ⟨hc.names, fun m hm => hc.free m (mem_append_left _ hm), hc.told⟩

theorem Context.Stores.record {i : Instance} (hc : c.Stores w P base (path ++ [n]))
    (hpath : n ∉ path) (hk : P k) (hn : c.aliasNames.get? k = some n) (hi : InstanceOf w k i) :
    Context.Stores w P base path
      { c with instances := c.instances.insert n i, log := c.log ++ [.instanceBuilt k n] } := by
  have hfresh : c.instances.get? n = none := hc.free n (by simp)
  refine ⟨hc.names, ?_, ?_⟩
  · intro m hm
    rw [Table.get?_insert, if_neg, hc.free m (mem_append_left _ hm)]
    rintro rfl
    exact hpath hm
  · obtain ⟨l, hlog, hall⟩ := hc.told
    refine ⟨l ++ [.instanceBuilt k n], by rw [hlog, append_assoc], ?_⟩
    have hentries : (c.instances.insert n i).entries = c.instances.entries ++ [(n, i)] :=
      Table.put_of_find?_eq_none hfresh i
    rw [hentries, filterMap_append]
    exact rel_append hall (.cons ⟨rfl, hk, hn, hi⟩ .nil)

theorem Context.Stores.tell (hc : c.Stores w P base path) {e : Event} (he : e.built? = none) :
    Context.Stores w P base path { c with log := c.log ++ [e] } := by
  refine ⟨hc.names, hc.free, ?_⟩
  obtain ⟨l, hlog, hall⟩ := hc.told
  refine ⟨l ++ [e], by rw [hlog, append_assoc], ?_⟩
  rwa [filterMap_append, filterMap_cons_none he, filterMap_nil, append_nil]

theorem Context.Stores.exists_built (hc : c.Stores w P base path) {i : Instance}
    (h : c.instances.get? n = some i) :
    ∃ k, P k ∧ c.aliasNames.get? k = some n ∧ InstanceOf w k i := by
  obtain ⟨l, -, hall⟩ := hc.told
  obtain ⟨⟨k, m⟩, -, rfl, hk, hn, hi⟩ := exists_right_of_forall₂ hall (Table.mem_of_find? h)
  exact ⟨k, hk, hn, hi⟩

theorem Context.Stores.name_eq (hc : c.Stores w P base path) {i : Instance}
    (h : c.instances.get? n = some i) : i.name = n := by
  obtain ⟨k, -, hget, hinstance⟩ := hc.exists_built h
  exact ok_unique hinstance.name (hc.names k n hget).2

end Stores

/-! ### Why building fails -/

section Build

variable {w : Workshop} {P : Text → Prop} {base : Log} {path : List Text} {c : Context}
    {core : Text}

/-- Looking a core up gives its canonical form and its alias, and fails only if it has none. -/
theorem lookUp_meets (hc : c.Stores w P base path) (core : Text) :
    Meets (w.lookUp path core) c
      (fun r c' => (c'.Stores w P base path ∧ c.Grows c') ∧ normalize core = .ok r.1 ∧
        aliasOf w.naming r.1 = .ok r.2.1 ∧ c'.aliasNames.get? r.1 = some r.2.1 ∧
        r.2.2 = (c'.instances.contains r.2.1 || path.contains r.2.1))
      fun _ c' => (c'.Stores w P base path ∧ c.Grows c') ∧
        ∀ k n, normalize core = .ok k → aliasOf w.naming k ≠ .ok n := by
  unfold Workshop.lookUp
  rw [meets_bind, meets_ofExcept]
  refine ⟨fun k hk => ?_, fun e he => ⟨⟨hc, .refl c⟩, ?_⟩⟩
  · rw [meets_bind]
    refine ((aliasName_learns w.naming k).meets hc.names |>.and
      (aliasName_meets w.naming k c)).imp ?_ ?_
    · rintro n c₁ ⟨⟨⟨hnames, hlearns⟩, hn⟩, -, k', hk', hget⟩
      rw [meets_bind, meets_get, meets_pure]
      -- the canonical form is remembered as it is
      obtain rfl := ok_unique (canonical_of_normalize hk hn).1 hk'
      exact ⟨⟨hc.of_notes hlearns.notes hnames, hlearns.notes.grows⟩, hk, hn, hget, rfl⟩
    · rintro e c₁ ⟨⟨⟨hnames, hlearns⟩, he⟩, -⟩
      refine ⟨⟨hc.of_notes hlearns.notes hnames, hlearns.notes.grows⟩, ?_⟩
      intro k' n hk' hn
      obtain rfl := ok_unique hk hk'
      rw [he] at hn
      cases hn
  · intro k n hk
    rw [he] at hk
    cases hk

theorem substituteUse_meets (hc : c.Stores w P base path) (parameters arguments : List Text)
    (u : TypeUse) : Meets (w.substituteUse parameters arguments u) c
      (fun v c' => (c'.Stores w P base path ∧ c.Grows c') ∧
        SubstitutedUse w.naming parameters arguments u v)
      fun _ c' => (c'.Stores w P base path ∧ c.Grows c') ∧
        ∀ v, ¬ SubstitutedUse w.naming parameters arguments u v := by
  unfold Workshop.substituteUse
  -- a use that mentions a type parameter is read anew, any other is kept
  split_ifs with hm
  · have hsubst : ∀ v, SubstitutedUse w.naming parameters arguments u v →
        ∃ e, substitute u.origin parameters arguments = .ok e ∧
          useOf w.naming e none u.directive = .ok v := by
      rintro v (⟨-, e, he, huse⟩ | ⟨hno, -⟩)
      · exact ⟨e, he, useOf_none_eq_ok.mpr huse⟩
      · rw [hm] at hno
        cases hno
    rw [meets_bind, meets_ofExcept]
    refine ⟨fun e he => ?_, fun e he => ⟨⟨hc, .refl c⟩, ?_⟩⟩
    · refine ((useType_computes w.naming e none u.directive).meets hc.names).imp ?_ ?_
      · rintro v c₁ ⟨⟨hnames, hnotes⟩, hv⟩
        exact ⟨⟨hc.of_notes hnotes hnames, hnotes.grows⟩, .inl ⟨hm, e, he, .of_useOf hv⟩⟩
      · rintro failure c₁ ⟨⟨hnames, hnotes⟩, hfails⟩
        refine ⟨⟨hc.of_notes hnotes hnames, hnotes.grows⟩, fun v hv => ?_⟩
        obtain ⟨e', he', huse⟩ := hsubst v hv
        obtain rfl := ok_unique he he'
        rw [hfails] at huse
        cases huse
    · intro v hv
      obtain ⟨e', he', -⟩ := hsubst v hv
      rw [he] at he'
      cases he'
  · exact ⟨⟨hc, .refl c⟩, .inr ⟨by simpa using hm, rfl⟩⟩

theorem refuseDepth_meets (hlimit : w.limit ≤ path.length) (hchain : w.Chain P (path ++ [n]))
    (core : Text) :
    Meets (w.refuseDepth path core n) c (fun _ _ => False) fun e c' => c' = c ∧ w.TooDeep P e := by
  unfold Workshop.refuseDepth
  split
  · exact ⟨rfl, .inl ⟨rfl, by simpa using hlimit⟩⟩
  · rename_i outermost rest
    rw [meets_refuse]
    refine ⟨rfl, .inr ⟨outermost, _, core, rfl, hchain, ?_⟩⟩
    rw [length_append, length_singleton]
    omega

/-- Visiting a use in the template of a core fails only if the core has no instance, or if building
the instance of the use fails. -/
theorem visit_meets (hw : w.Written) (hP : ∀ {k m}, P k → w.Nests k m → P m) {room : Nat}
    (build : ∀ {core c},
      (∀ k n, normalize core = .ok k → aliasOf w.naming k = .ok n → P k ∧ w.Follows path k) →
      c.Stores w P base path →
      Meets (w.buildFrom room path core) c (fun _ c' => c'.Stores w P base path ∧ c.Grows c')
        fun e c' => (c'.Stores w P base path ∧ c.Grows c') ∧
          (w.Stuck P e ∨ ∀ k n, normalize core = .ok k → aliasOf w.naming k ≠ .ok n)) (hPk : P k)
    (hk : normalize k = .ok k) (hn : aliasOf w.naming k = .ok n) (hlast : path.getLast? = some n)
    {template : Declaration} {arguments : List Text}
    (htemplate : w.templateOf k = .ok (template, arguments))
    (hu : u ∈ template.uses) (hc : c.Stores w P base path) :
    Meets (w.visit (w.buildFrom room path) (template.parameters.getD []) arguments u) c
      (fun v c' => (c'.Stores w P base path ∧ c.Grows c') ∧
        SubstitutedUse w.naming (template.parameters.getD []) arguments u v)
      fun e c' => (c'.Stores w P base path ∧ c.Grows c') ∧ w.Stuck P e := by
  rw [Workshop.visit, meets_bind]
  refine (substituteUse_meets hc _ arguments u).imp ?_ ?_
  · rintro v c₁ ⟨⟨hc₁, hgrows₁⟩, hsubst⟩
    have halias := hsubst.hasAlias (hw.usesRead _ (templateOf_mem htemplate) u hu)
    rw [meets_bind, meets_ofExcept]
    refine ⟨fun o ho => ?_, fun e he => ?_⟩
    · rcases concreteCore_eq_ok ho with ⟨-, rfl⟩ | ⟨hv, core, hcore, rfl⟩
      · exact ⟨⟨hc₁, hgrows₁⟩, hsubst⟩
      · -- the core of the use is nested in `k`, and has an alias
        obtain ⟨m, hm⟩ := halias hv
        obtain ⟨j, ⟨core', hcore', hj⟩, hjm⟩ := hm.exists_core
        obtain rfl := ok_unique hcore hcore'
        have hnests : w.Nests k j := ⟨template, arguments, u, v, htemplate, hu,
          hw.substitutes hk hn htemplate hu hsubst, hv, core, hcore, hj⟩
        have hfollows : w.Follows path j := by
          intro n' hn'
          rw [hlast] at hn'
          obtain rfl := Option.mem_some_iff.mp hn'
          exact ⟨k, hn, hnests⟩
        simp only
        rw [meets_bind]
        refine (build ?_ hc₁).imp ?_ ?_
        · intro j' _ hj' _
          obtain rfl := ok_unique hj hj'
          exact ⟨hP hPk hnests, hfollows⟩
        · rintro _ c₂ ⟨hc₂, hgrows₂⟩
          exact ⟨⟨hc₂, hgrows₁.trans hgrows₂⟩, hsubst⟩
        · rintro e c₂ ⟨⟨hc₂, hgrows₂⟩, hstuck | hno⟩
          · exact ⟨⟨hc₂, hgrows₁.trans hgrows₂⟩, hstuck⟩
          · exact absurd hjm (hno j m hj)
    · obtain ⟨hv, hno⟩ := concreteCore_eq_error he
      obtain ⟨m, hm⟩ := halias hv
      exact absurd hm (hno w.naming m)
  · rintro e c₁ ⟨hc₁, hnone⟩
    exact ⟨hc₁, .inr ⟨k, hPk, not_instanceOf_of_forall_not htemplate hu hnone⟩⟩

/-- **Building the instance of a core** leaves the instances told in the log, with or without
success.  It fails only if instances nest too deep, if a core that comes up has no instance, or if
the core itself has no alias. -/
theorem buildFrom_meets (hw : w.Written) (hP : ∀ {k m}, P k → w.Nests k m → P m) {room : Nat}
    (hroom : w.limit ≤ path.length + room) (hpath : w.Chain P path)
    (hcore : ∀ k n, normalize core = .ok k → aliasOf w.naming k = .ok n → P k ∧ w.Follows path k)
    (hc : c.Stores w P base path) :
    Meets (w.buildFrom room path core) c (fun _ c' => c'.Stores w P base path ∧ c.Grows c')
      fun e c' => (c'.Stores w P base path ∧ c.Grows c') ∧
        (w.Stuck P e ∨ ∀ k n, normalize core = .ok k → aliasOf w.naming k ≠ .ok n) := by
  -- by induction on the room that is left: the path grows by one alias with each instance inside
  -- another
  induction room using Nat.strongRecOn generalizing path core c with
  | ind room ih =>
    rw [w.buildFrom_eq, meets_bind]
    refine (lookUp_meets hc core).imp ?_ fun _ _ h => ⟨h.1, .inr h.2⟩
    rintro ⟨k, n, known⟩ c₁ ⟨⟨hc₁, hgrows₁⟩, hk, hn, hget, hknown⟩
    simp only at hk hn hget hknown ⊢
    split_ifs with hkn
    · exact ⟨hc₁, hgrows₁⟩
    rw [hknown, Bool.or_eq_true, not_or, contains_iff_mem] at hkn
    have hPk := (hcore k n hk hn).1
    have hcanon := (canonical_of_normalize hk hn).1
    have hchain := hpath.concat hkn.2 (hcore k n hk hn) hn
    cases room with
    | zero =>
      refine (refuseDepth_meets (by simpa using hroom) hchain k).imp (fun _ _ h => h.elim) ?_
      rintro e _ ⟨rfl, hdeep⟩
      exact ⟨⟨hc₁, hgrows₁⟩, .inl (.inl hdeep)⟩
    | succ room =>
      rw [Workshop.buildNew, meets_bind, meets_ofExcept]
      refine ⟨?_, fun e he => ⟨⟨hc₁, hgrows₁⟩, .inl (.inr ⟨k, hPk, ?_⟩)⟩⟩
      · rintro ⟨template, arguments⟩ htemplate
        -- the alias is on the path while the uses of the template are visited
        have hpush := hc₁.push (Option.not_isSome_iff_eq_none.mp hkn.1)
        have hroom' : w.limit ≤ (path ++ [n]).length + room := by
          rw [length_append, length_singleton]
          omega
        rw [meets_bind]
        refine (Declaration.specialize_meets (A := fun c _ c' => c.Grows c')
          (E := fun c e c' => (c'.Stores w P base (path ++ [n]) ∧ c.Grows c') ∧ w.Stuck P e)
          Context.Grows.refl Context.Grows.trans (fun _ h => h)
            (fun hl h => ⟨⟨h.1.1, hl.trans h.1.2⟩, h.2⟩)
          (fun u hu c hc => visit_meets hw hP
            (fun hcore hc => ih room room.lt_succ_self hroom' hchain hcore hc)
            hPk hcanon hn getLast?_concat htemplate hu hc) hpush).imp ?_ ?_
        · rintro d c₂ ⟨⟨hc₂, hgrows₂⟩, hspec⟩
          unfold Workshop.record
          simp only [meets_bind, meets_modify, meets_tell, meets_pure]
          have hgrows := hgrows₁.trans hgrows₂
          refine ⟨hc₂.record hkn.2 hPk (hgrows₂.keep hget)
            ⟨hcanon, hn, ⟨template, arguments, htemplate, hspec⟩, rfl⟩, ?_, hgrows.keep⟩
          rw [hgrows.frame]
        · rintro e c₂ ⟨⟨hc₂, hgrows₂⟩, hstuck⟩
          exact ⟨⟨hc₂.pop, hgrows₁.trans hgrows₂⟩, .inl hstuck⟩
      · -- without a template there is no instance
        rintro i ⟨-, -, ⟨template, arguments, htemplate, -⟩, -⟩
        rw [he] at htemplate
        cases htemplate

/-! ### Where nothing is being built -/

theorem build_meets (hw : w.Written) (hP : ∀ {k m}, P k → w.Nests k m → P m)
    (hbuilding : c.building = []) (hcore : ∀ k n, normalize core = .ok k →
      aliasOf w.naming k = .ok n → P k) (hc : c.Stores w P base []) :
    Meets (w.build core) c (fun _ c' => c'.Stores w P base [] ∧ c.Grows c')
      fun e c' => (c'.Stores w P base [] ∧ c.Grows c') ∧
        (w.Stuck P e ∨ ∀ k n, normalize core = .ok k → aliasOf w.naming k ≠ .ok n) := by
  unfold Workshop.build
  rw [meets_bind, meets_get, hbuilding]
  refine buildFrom_meets hw hP ?_ (.nil w P) (fun k n hk hn => ⟨hcore k n hk hn, ?_⟩) hc
  · simp only [length_nil]
    omega
  · rintro m hm
    cases hm

theorem buildUse_meets (hw : w.Written) (hP : ∀ {k m}, P k → w.Nests k m → P m)
    (hbuilding : c.building = []) (hu : u.isConcrete → ∀ k n, HasCore u k →
      aliasOf w.naming k = .ok n → P k) (hc : c.Stores w P base []) :
    Meets (w.buildUse u) c (fun _ c' => c'.Stores w P base [] ∧ c.Grows c')
      fun e c' => (c'.Stores w P base [] ∧ c.Grows c') ∧
        (w.Stuck P e ∨ u.isConcrete ∧ ∀ n, ¬ HasAlias w.naming u n) := by
  unfold Workshop.buildUse Workshop.buildUseBy
  rw [meets_bind, meets_ofExcept]
  refine ⟨fun o ho => ?_, fun e he => ⟨⟨hc, .refl c⟩, .inr ?_⟩⟩
  · rcases concreteCore_eq_ok ho with ⟨-, rfl⟩ | ⟨hconcrete, core, hcore, rfl⟩
    · exact ⟨hc, .refl c⟩
    · simp only
      rw [meets_map]
      refine (build_meets hw hP hbuilding (fun k n hk => hu hconcrete k n ⟨core, hcore, hk⟩) hc).imp
        (fun _ _ h => h) ?_
      rintro e c' ⟨hc', hstuck | hno⟩
      · exact ⟨hc', .inl hstuck⟩
      · refine ⟨hc', .inr ⟨hconcrete, fun n hn => ?_⟩⟩
        obtain ⟨k, ⟨core', hcore', hk⟩, hkn⟩ := hn.exists_core
        obtain rfl := ok_unique hcore hcore'
        exact hno k n hk hkn
  · obtain ⟨hconcrete, hno⟩ := concreteCore_eq_error he
    exact ⟨hconcrete, hno w.naming⟩

/-- **Building all pending instances** leaves the instances told in the log, with or without
success, and fails only if instances nest too deep, if a core that comes up has no instance, or if a
pending use has no alias. -/
theorem buildPending_meets (hw : w.Written) (hP : ∀ {k m}, P k → w.Nests k m → P m)
    (hbuilding : c.building = []) (hpending : ∀ u ∈ c.pending.values, u.isConcrete → ∀ k n,
      HasCore u k → aliasOf w.naming k = .ok n → P k) (hc : c.Stores w P base []) :
    Meets w.buildPending c
      (fun is c' => (c'.Stores w P base [] ∧ c.Grows c') ∧ is = c'.instances.values)
      fun e c' => (c'.Stores w P base [] ∧ c.Grows c') ∧
        (w.Stuck P e ∨ ∃ u ∈ c.pending.values, u.isConcrete ∧ ∀ n, ¬ HasAlias w.naming u n) := by
  unfold Workshop.buildPending
  rw [meets_bind, meets_get, meets_bind]
  have hstep : ∀ u ∈ c.pending.values, ∀ c₁ : Context, c₁.Stores w P base [] ∧ c₁.building = [] →
      Meets (w.buildUse u) c₁
        (fun _ c' => ((c'.Stores w P base [] ∧ c'.building = []) ∧ c₁.Grows c') ∧ True)
        fun e c' => ((c'.Stores w P base [] ∧ c'.building = []) ∧ c₁.Grows c') ∧
          (w.Stuck P e ∨ ∃ u ∈ c.pending.values, u.isConcrete ∧ ∀ n, ¬ HasAlias w.naming u n) := by
    rintro u hu c₁ ⟨hc₁, hbuilding₁⟩
    have hkeep : ∀ {c'}, c₁.Grows c' → c'.building = [] := by
      intro c' hgrows
      rw [hgrows.frame]
      exact hbuilding₁
    refine (buildUse_meets hw hP hbuilding₁ (hpending u hu) hc₁).imp ?_ ?_
    · rintro _ c' ⟨hc', hgrows⟩
      exact ⟨⟨⟨hc', hkeep hgrows⟩, hgrows⟩, trivial⟩
    · rintro e c' ⟨⟨hc', hgrows⟩, he⟩
      exact ⟨⟨⟨hc', hkeep hgrows⟩, hgrows⟩, he.imp_right fun hno => ⟨u, hu, hno⟩⟩
  refine (Meets.mapM (Q := fun _ _ _ => True) Context.Grows.refl Context.Grows.trans
    (fun _ h => h) hstep ⟨hc, hbuilding⟩).imp ?_ ?_
  · rintro _ c₁ ⟨⟨⟨hc₁, -⟩, hgrows⟩, -⟩
    -- telling how many there are tells of no further instance
    rw [meets_bind, meets_get, meets_bind, meets_tell, meets_pure]
    refine ⟨⟨hc₁.tell rfl, ?_, hgrows.keep⟩, rfl⟩
    rw [hgrows.frame]
  · rintro e c₁ ⟨⟨⟨hc₁, -⟩, hgrows⟩, he⟩
    exact ⟨⟨hc₁, hgrows⟩, he⟩

end Build

end Schemata
