import Schemata.Proofs.Parsed
import Schemata.Proofs.Stacks

/-!
# Instances

Building the instance of a core builds the instances that its uses need first, one inside the other;
an instance that is being built is only referred to.  So while some instances are being built, a use
in a finished instance has its own instance finished or on the path of those being built, and once
the path is empty every use has its instance.

What an instance is built from is said without the context: `InstanceOf` relates a canonical core to
the template with its type arguments in the place of the type parameters.
-/

namespace Schemata

open Resolve List

variable {arguments : List Text} {d template : Declaration} {n name : Text} {u u' : TypeUse}

/-! ### Templates with their uses replaced -/

/-- The field `f'` is `f` with its uses of types replaced, each by one that `R` relates to it. -/
structure Field.Specializes (R : TypeUse → TypeUse → Prop) (f f' : Field) : Prop where
  eq : f' = { f with arguments := f'.arguments, type := f'.type }
  arguments : Option.Rel
    (Forall₂ fun a a' : Argument => a' = { a with type := a'.type } ∧ R a.type a'.type)
    f.arguments f'.arguments
  type : Option.Rel R f.type f'.type

/-- The declaration `d` is the template with a name of its own, without type parameters and
ancestors, and with its uses of types replaced, each by one that `R` relates to it. -/
structure Declaration.Specializes (R : TypeUse → TypeUse → Prop) (template : Declaration)
    (name : Text) (d : Declaration) : Prop where
  eq : d = { template with
    name, parameters := none, inherits := none, fields := d.fields, ownFields := some d.fields,
    members := d.members }
  fields : Forall₂ (Field.Specializes R) template.fields d.fields
  members : Option.Rel (Forall₂ R) template.members d.members

variable {R : TypeUse → TypeUse → Prop}

theorem forall₂_getD {α β : Type} {R : α → β → Prop} {o : Option (List α)} {o' : Option (List β)}
    (h : Option.Rel (Forall₂ R) o o') : Forall₂ R (o.getD []) (o'.getD []) := by
  cases h with
  | none => exact .nil
  | some h => exact h

theorem Field.Specializes.uses {f f' : Field} (h : Field.Specializes R f f') :
    Forall₂ R f.uses f'.uses := by
  have htoList : ∀ {o o'}, Option.Rel R o o' → Forall₂ R o.toList o'.toList := by
    intro o o' h
    cases h with
    | none => exact .nil
    | some hr => exact .cons hr .nil
  exact rel_append (rel_map (fun _ _ h => h.2) (forall₂_getD h.arguments)) (htoList h.type)

/-- The uses in an instance of a template replace those in the template, one by one. -/
theorem Declaration.Specializes.uses (h : Declaration.Specializes R template name d) :
    Forall₂ R template.uses d.uses :=
  rel_append (rel_flatten (rel_map (fun _ _ h => h.uses) h.fields)) (forall₂_getD h.members)

theorem Declaration.Specializes.exists_of_mem_uses (h : Declaration.Specializes R template name d)
    (hu : u' ∈ d.uses) : ∃ u ∈ template.uses, R u u' :=
  exists_left_of_forall₂ h.uses hu

theorem optionRel_imp_of_mem {α β : Type} {R S : α → β → Prop} {o : Option α} {o' : Option β}
    (h : Option.Rel R o o') (hRS : ∀ a ∈ o, ∀ b, R a b → S a b) : Option.Rel S o o' := by
  cases h with
  | none => exact .none
  | some hr => exact .some (hRS _ rfl _ hr)

theorem Field.Specializes.imp {S : TypeUse → TypeUse → Prop} {f f' : Field}
    (h : Field.Specializes R f f') (hRS : ∀ u ∈ f.uses, ∀ v, R u v → S u v) :
    Field.Specializes S f f' := by
  refine ⟨h.eq, ?_, ?_⟩
  · refine optionRel_imp_of_mem h.arguments fun as has as' hall => forall₂_imp_of_mem hall ?_
    rintro a ha a' ⟨heq, hr⟩
    refine ⟨heq, hRS _ (mem_append_left _ (mem_map_of_mem ?_)) _ hr⟩
    rw [Option.mem_def.mp has]
    exact ha
  · exact optionRel_imp_of_mem h.type fun u hu v =>
      hRS u (mem_append_right _ (Option.mem_toList.mpr hu)) v

theorem Declaration.Specializes.imp {S : TypeUse → TypeUse → Prop}
    (h : Declaration.Specializes R template name d)
    (hRS : ∀ u ∈ template.uses, ∀ v, R u v → S u v) :
    Declaration.Specializes S template name d := by
  refine ⟨h.eq, ?_, ?_⟩
  · refine forall₂_imp_of_mem h.fields fun f hf f' hspec => hspec.imp fun u hu => ?_
    exact hRS u (mem_append_left _ (mem_flatMap.mpr ⟨f, hf, hu⟩))
  · refine optionRel_imp_of_mem h.members fun us hus us' hall =>
      forall₂_imp_of_mem hall fun u hu => ?_
    refine hRS u (mem_append_right _ ?_)
    rw [Option.mem_def.mp hus]
    exact hu

section Traversal

variable {I : Context → Prop} {A : Context → List TypeUse → Context → Prop}
  {S : TypeUse → TypeUse → Context → Prop} {E : Context → Failure → Context → Prop}
  {visit : TypeUse → Resolve TypeUse} {c : Context}

theorem Field.mapUses_meets (refl : ∀ c, A c [] c)
    (append : ∀ {c₁ c₂ c₃ us vs}, A c₁ us c₂ → A c₂ vs c₃ → A c₁ (us ++ vs) c₃)
    (mono : ∀ {u v c₁ c₂ us}, A c₁ us c₂ → S u v c₁ → S u v c₂)
    (fails : ∀ {c₁ c₂ c₃ us e}, A c₁ us c₂ → E c₂ e c₃ → E c₁ e c₃) {f : Field}
    (step : ∀ u ∈ f.uses, ∀ c, I c →
      Meets (visit u) c (fun v c' => (I c' ∧ A c [v] c') ∧ S u v c') (E c)) (hc : I c) :
    Meets (f.mapUses visit) c
      (fun f' c' => (I c' ∧ A c f'.uses c') ∧ Field.Specializes (fun u v => S u v c') f f')
      (E c) := by
  have hargument : ∀ as ∈ f.arguments, ∀ a ∈ as, ∀ c, I c →
      Meets (do return { a with type := ← visit a.type }) c
        (fun a' c' => (I c' ∧ A c [a'.type] c') ∧ a' = { a with type := a'.type } ∧
          S a.type a'.type c')
        (E c) := by
    intro as has a ha c hc
    have hmem : a.type ∈ f.uses := by
      refine mem_append_left _ (mem_map_of_mem ?_)
      rw [Option.mem_def.mp has]
      exact ha
    rw [meets_bind]
    exact (step a.type hmem c hc).imp (fun _ _ h => ⟨h.1, rfl, h.2⟩) fun _ _ h => h
  unfold Field.mapUses
  -- the arguments first, then the type of the field
  rw [meets_bind]
  refine (Meets.collect_option (R := fun as as' c => Forall₂
    (fun a a' : Argument => a' = { a with type := a'.type } ∧ S a.type a'.type c) as as') refl hc
    fun as has => Meets.collect (E := E) refl append (fun hl h => ⟨h.1, mono hl h.2⟩) fails
      (hargument as has) hc).imp ?_ fun _ _ h => h
  rintro as c₁ ⟨⟨hc₁, hl₁⟩, harguments⟩
  rw [meets_bind]
  refine (Meets.collect_option (u := fun v => [v]) refl hc₁ fun u hu =>
    step u (mem_append_right _ (Option.mem_toList.mpr hu)) c₁ hc₁).imp ?_ fun _ _ => fails hl₁
  rintro type c₂ ⟨⟨hc₂, hl₂⟩, htype⟩
  refine ⟨⟨hc₂, ?_⟩, rfl, ?_, htype⟩
  · have huses : (as.map fun as => as.flatMap fun a => [a.type]).getD [] ++
      (type.map ([·])).getD [] =
        Field.uses { f with arguments := as, type } := by
      cases as <;> cases type <;> simp [Field.uses, ← map_eq_flatMap]
    rw [← huses]
    exact append hl₁ hl₂
  -- what has been said of the arguments stays true while the type is visited
  · exact optionRel_imp_of_mem harguments fun _ _ _ hall => hall.imp fun _ _ h =>
      ⟨h.1, mono hl₂ h.2⟩

/-- **A template is visited use by use**, until its end or a failure. -/
theorem Declaration.specialize_meets (refl : ∀ c, A c [] c)
    (append : ∀ {c₁ c₂ c₃ us vs}, A c₁ us c₂ → A c₂ vs c₃ → A c₁ (us ++ vs) c₃)
    (mono : ∀ {u v c₁ c₂ us}, A c₁ us c₂ → S u v c₁ → S u v c₂)
    (fails : ∀ {c₁ c₂ c₃ us e}, A c₁ us c₂ → E c₂ e c₃ → E c₁ e c₃)
    (step : ∀ u ∈ template.uses, ∀ c, I c →
      Meets (visit u) c (fun v c' => (I c' ∧ A c [v] c') ∧ S u v c') (E c))
    (hc : I c) :
    Meets (template.specialize name visit) c
      (fun d c' => (I c' ∧ A c d.uses c') ∧
        Declaration.Specializes (fun u v => S u v c') template name d)
      (E c) := by
  unfold Declaration.specialize
  -- the fields first, then the members
  rw [meets_bind]
  refine (Meets.collect (Q := fun f f' c => Field.Specializes (fun u v => S u v c) f f')
    (E := E) refl append (fun hl h => h.imp fun _ _ _ => mono hl) fails
    (fun f hf c hc => Field.mapUses_meets (S := S) (E := E) refl append mono fails
      (fun u hu => step u (mem_append_left _ (mem_flatMap.mpr ⟨f, hf, hu⟩))) hc) hc).imp ?_
    fun _ _ h => h
  rintro fields c₁ ⟨⟨hc₁, hl₁⟩, hfields⟩
  have hmember : ∀ ms ∈ template.members, ∀ u ∈ ms, u ∈ template.uses := by
    intro ms hms u hu
    refine mem_append_right _ ?_
    rw [Option.mem_def.mp hms]
    exact hu
  rw [meets_bind]
  refine (Meets.collect_option (R := fun ms ms' c => Forall₂ (fun u v => S u v c) ms ms') refl hc₁
    fun ms hms => Meets.collect (Q := S) (E := E) (u := fun v => [v]) refl append mono fails
      (fun u hu => step u (hmember ms hms u hu)) hc₁).imp ?_ fun _ _ => fails hl₁
  rintro members c₂ ⟨⟨hc₂, hl₂⟩, hmembers⟩
  refine ⟨⟨hc₂, ?_⟩, rfl, ?_, hmembers⟩
  · have hmap : (members.map fun ms => ms.flatMap fun v => [v]).getD [] = members.getD [] := by
      cases members <;> simp
    rw [hmap] at hl₂
    exact append hl₁ hl₂
  · exact hfields.imp fun _ _ h => h.imp fun _ _ _ => mono hl₂

end Traversal

/-! ### What an instance is built from -/

/-- The use `u'` is `u` with type arguments in the place of type parameters. -/
def SubstitutedUse (naming : Naming) (parameters arguments : List Text) (u u' : TypeUse) : Prop :=
  mentions u.origin parameters = true ∧
      (∃ e, substitute u.origin parameters arguments = .ok e ∧
        UseOf naming e none u.directive u') ∨
    mentions u.origin parameters = false ∧ u' = u

/-- The instance `i` is built from the core `k`: it stands under the alias of the core, and is the
template of the core with the type arguments of the core in the place of the type parameters. -/
structure InstanceOf (w : Workshop) (k : Text) (i : Instance) : Prop where
  normal : normalize k = .ok k
  name : aliasOf w.naming k = .ok i.name
  /-- The declaration of the instance is the template with its uses substituted. -/
  declaration : ∃ template arguments, w.templateOf k = .ok (template, arguments) ∧
    Declaration.Specializes (SubstitutedUse w.naming (template.parameters.getD []) arguments)
      template i.name i.declaration
  text : i.text = i.declaration.render w.layout

def HasCore (u : TypeUse) (k : Text) : Prop :=
  ∃ core, coreOf u.origin = .ok core ∧ normalize core = .ok k

/-- What building the instances of the uses `us` adds to a context, while the instances on the path
are being built. -/
structure Context.Builds (w : Workshop) (path : List Text) (c : Context) (us : List TypeUse)
    (c' : Context) : Prop where
  /-- Nothing but what is remembered about uses and instances has changed. -/
  frame : c' = { c with
    aliasNames := c'.aliasNames, pending := c'.pending, instances := c'.instances, log := c'.log }
  keep : ∀ {n i}, c.instances.get? n = some i → c'.instances.get? n = some i
  /-- A new instance is none on the path.  It is the instance of the core of one of the uses, or of
  a use in an instance, and its own uses have instances or refer to the path. -/
  new : ∀ {n i}, c'.instances.get? n = some i → c.instances.get? n = some i ∨
    i.name = n ∧ n ∉ path ∧
    (∃ u k, (u ∈ us ∨ ∃ m j, c'.instances.get? m = some j ∧ u ∈ j.declaration.uses) ∧
      u.isConcrete = true ∧ HasCore u k ∧ InstanceOf w k i) ∧
    ∀ v ∈ i.declaration.uses, v.isConcrete = true →
      ∃ m, HasAlias w.naming v m ∧ (m ∈ path ∨ (c'.instances.get? m).isSome = true)
  /-- Each of the uses has an instance or refers to the path. -/
  done : ∀ u ∈ us, u.isConcrete = true →
    ∃ m, HasAlias w.naming u m ∧ (m ∈ path ∨ (c'.instances.get? m).isSome = true)

section Builds

variable {w : Workshop} {path : List Text} {c c₁ c₂ c₃ c' : Context} {us vs : List TypeUse}

theorem Context.Builds.refl (w : Workshop) (path : List Text) (c : Context) :
    c.Builds w path [] c where
  frame := rfl
  keep := id
  new := .inl
  done := by simp

theorem Context.Builds.isSome (h : c.Builds w path us c') (hn : (c.instances.get? n).isSome) :
    (c'.instances.get? n).isSome := by
  obtain ⟨i, hi⟩ := Option.isSome_iff_exists.mp hn
  rw [h.keep hi]
  rfl

theorem Context.Builds.append (h : c₁.Builds w path us c₂) (h' : c₂.Builds w path vs c₃) :
    c₁.Builds w path (us ++ vs) c₃ where
  frame := by
    rw [h'.frame, h.frame]
  keep := fun hi => h'.keep (h.keep hi)
  new := by
    intro n i hi
    rcases h'.new hi with hi | ⟨hname, hpath, ⟨u, k, hu, hcore⟩, huses⟩
    · rcases h.new hi with hi | ⟨hname, hpath, ⟨u, k, hu, hcore⟩, huses⟩
      · exact .inl hi
      · refine .inr ⟨hname, hpath, ⟨u, k, ?_, hcore⟩, ?_⟩
        · rcases hu with hu | ⟨m, j, hj, hu⟩
          · exact .inl (mem_append_left _ hu)
          · exact .inr ⟨m, j, h'.keep hj, hu⟩
        · intro v hv hc
          obtain ⟨m, hm, hdone⟩ := huses v hv hc
          exact ⟨m, hm, hdone.imp_right h'.isSome⟩
    · refine .inr ⟨hname, hpath, ⟨u, k, ?_, hcore⟩, huses⟩
      exact hu.imp_left (mem_append_right _)
  done := by
    intro u hu hc
    rcases mem_append.mp hu with hu | hu
    · obtain ⟨m, hm, hdone⟩ := h.done u hu hc
      exact ⟨m, hm, hdone.imp_right h'.isSome⟩
    · exact h'.done u hu hc

theorem Context.Reads.builds (h : c.Reads w.naming vs c') : c.Builds w path [] c' where
  frame := by
    rw [h.frame]
  keep := by
    rw [h.frame]
    exact id
  new := by
    rw [h.frame]
    exact .inl
  done := by simp

theorem Context.NamesMore.reads {naming : Naming} (h : c.NamesMore c') : c.Reads naming [] c' where
  frame := by
    rw [h]
  nodup := by
    rw [h]
    exact id
  keep := by
    rw [h]
    exact id
  new := by
    rw [h]
    exact .inl
  pending := by simp

theorem Context.Builds.add (h : c.Builds w path [] c') (hu : u.isConcrete = false) :
    c.Builds w path [u] c' where
  frame := h.frame
  keep := h.keep
  new := by
    intro n i hi
    rcases h.new hi with hi | ⟨hname, hpath, ⟨v, k, hv, hcore⟩, huses⟩
    · exact .inl hi
    · exact .inr ⟨hname, hpath, ⟨v, k, hv.imp_left (absurd · not_mem_nil), hcore⟩, huses⟩
  done := by
    intro v hv hc
    rw [mem_singleton.mp hv, hu] at hc
    cases hc

/-- The uses in the declarations of a workshop are uses of type expressions. -/
def Workshop.UsesRead (w : Workshop) : Prop :=
  ∀ d ∈ w.declarations, ∀ u ∈ d.uses, ∃ letters, IsUse w.naming letters u

/-- What building preserves. -/
structure Context.BuildSound (w : Workshop) (c : Context) : Prop where
  names : c.NamesSound w.naming
  nodup : c.instances.keys.Nodup

theorem substituteUse_spec {parameters : List Text} (hc : c.NamesSound w.naming)
    (h : Gives (w.substituteUse parameters arguments u) c u' c') :
    c'.NamesSound w.naming ∧ (∃ vs, c.Reads w.naming vs c') ∧
      SubstitutedUse w.naming parameters arguments u u' := by
  unfold Workshop.substituteUse at h
  split_ifs at h with hm
  · simp only [gives_bind, gives_ofExcept] at h
    obtain ⟨e, _, ⟨he, rfl⟩, h⟩ := h
    obtain ⟨hc', hreads, huse⟩ := useType_spec hc h
    exact ⟨hc', ⟨_, hreads⟩, .inl ⟨hm, e, he, huse⟩⟩
  · obtain ⟨rfl, rfl⟩ := gives_pure.mp h
    exact ⟨hc, ⟨[], .refl _ c⟩, .inr ⟨by simpa using hm, rfl⟩⟩

theorem concreteCore_eq_ok {o : Option Text} (h : Workshop.concreteCore u = .ok o) :
    u.isConcrete = false ∧ o = none ∨ u.isConcrete ∧ ∃ core, coreOf u.origin = .ok core ∧
      o = some core := by
  unfold Workshop.concreteCore at h
  split_ifs at h with hc
  · obtain ⟨core, hcore, rfl⟩ := map_eq_ok h
    exact .inr ⟨hc, core, hcore, rfl⟩
  · cases h
    exact .inl ⟨by simpa [TypeUse.isConcrete] using hc, rfl⟩

theorem templateOf_mem {k : Text} (h : w.templateOf k = .ok (template, arguments)) :
    template ∈ w.declarations := by
  unfold Workshop.templateOf at h
  obtain ⟨a, -, h⟩ := bind_eq_ok.mp h
  obtain ⟨t, ht, h⟩ := bind_eq_ok.mp h
  simp only at h
  split_ifs at h
  cases h
  unfold templateFor at ht
  split at ht
  · rename_i hfind
    cases ht
    exact (mem_filter.mp (mem_of_find?_eq_some hfind)).1
  · split at ht <;> cases ht

theorem lookUp_spec {core : Text} {r : Text × Text × Bool} (hc : c.BuildSound w)
    (hn : aliasOf w.naming core = .ok n) (h : Gives (w.lookUp path core) c r c') :
    c'.BuildSound w ∧ c.NamesMore c' ∧ normalize core = .ok r.1 ∧ Canonical r.1 ∧ r.2.1 = n ∧
      r.2.2 = (c'.instances.contains n || path.contains n) := by
  unfold Workshop.lookUp at h
  simp only [gives_bind, gives_ofExcept, gives_get, gives_pure] at h
  obtain ⟨k, _, ⟨hk, rfl⟩, name, c₁, hname, _, _, ⟨rfl, rfl⟩, rfl, rfl⟩ := h
  obtain ⟨hc₁, hmore, halias⟩ := aliasName_spec hc.names hname
  -- the canonical form has the alias of the core
  obtain rfl := ok_unique (aliasOf_normal hn hk) halias
  obtain ⟨k', hk', hcanon, -⟩ := canonical_of_aliasOf hn
  obtain rfl := ok_unique hk hk'
  refine ⟨⟨hc₁, ?_⟩, hmore, hk, hcanon, rfl, rfl⟩
  rw [hmore]
  exact hc.nodup

theorem Context.NamesMore.builds (h : c.NamesMore c') (hn : HasAlias w.naming u n)
    (hknown : (c'.instances.contains n || path.contains n)) : c.Builds w path [u] c' where
  frame := by
    rw [h]
  keep := by
    rw [h]
    exact id
  new := by
    rw [h]
    exact .inl
  done := by
    intro v hv _
    rw [mem_singleton.mp hv]
    rw [Bool.or_eq_true, contains_iff_mem] at hknown
    exact ⟨n, hn, hknown.symm⟩

theorem Context.BuildSound.of_reads (hc : c.BuildSound w) (h : c.Reads w.naming vs c')
    (hnames : c'.NamesSound w.naming) : c'.BuildSound w := by
  refine ⟨hnames, ?_⟩
  rw [h.frame]
  exact hc.nodup

/-- Recording the instance of a core takes it off the path: all that was built for its uses while it
was on the path was built for the use of the core. -/
theorem Context.Builds.record {k : Text} {i : Instance}
    (h : c.Builds w (path ++ [n]) i.declaration.uses c') (hpath : n ∉ path)
    (hnew : c.instances.get? n = none) (hname : i.name = n) (hu : u.isConcrete) (hk : HasCore u k)
    (hn : HasAlias w.naming u n) (hi : InstanceOf w k i) (log : Log) :
    c.Builds w path [u] { c' with instances := c'.instances.insert n i, log } where
  frame := by
    rw [h.frame]
  keep := by
    intro m j hj
    rw [Table.get?_insert, if_neg, h.keep hj]
    rintro rfl
    rw [hnew] at hj
    cases hj
  new := by
    -- the instance on the path is not there yet
    have hfresh : c'.instances.get? n = none := by
      cases hget : c'.instances.get? n with
      | none => rfl
      | some j =>
        rcases h.new hget with hj | ⟨-, hpath', -⟩
        · rw [hnew] at hj
          cases hj
        · exact absurd (mem_append_right _ (mem_singleton.mpr rfl)) hpath'
    have hmono : ∀ m, (c'.instances.get? m).isSome → ((c'.instances.insert n i).get? m).isSome := by
      intro m hm
      rw [Table.get?_insert]
      split_ifs
      · rfl
      · exact hm
    have hdone : ∀ m, m ∈ path ++ [n] ∨ (c'.instances.get? m).isSome →
        m ∈ path ∨ ((c'.instances.insert n i).get? m).isSome := by
      intro m hm
      rcases hm with hm | hm
      · rcases mem_append.mp hm with hm | hm
        · exact .inl hm
        · rw [mem_singleton.mp hm, Table.get?_insert, if_pos rfl]
          exact .inr rfl
      · exact .inr (hmono m hm)
    intro m j hj
    rw [Table.get?_insert] at hj
    split_ifs at hj with hm
    · cases hj
      rw [hm]
      refine .inr ⟨hname, hpath, ⟨u, k, .inl (mem_singleton.mpr rfl), hu, hk, hi⟩, ?_⟩
      intro v hv hc
      obtain ⟨m, hm, hd⟩ := h.done v hv hc
      exact ⟨m, hm, hdone m hd⟩
    · rcases h.new hj with hj | ⟨hname', hpath', ⟨v, k', hv, hcore⟩, huses⟩
      · exact .inl hj
      · refine .inr ⟨hname', fun hm => hpath' (mem_append_left _ hm), ⟨v, k', ?_, hcore⟩, ?_⟩
        · rcases hv with hv | ⟨m', j', hj', hv⟩
          · exact .inr ⟨n, i, by rw [Table.get?_insert, if_pos rfl], hv⟩
          · refine .inr ⟨m', j', ?_, hv⟩
            rw [Table.get?_insert, if_neg, hj']
            rintro rfl
            rw [hfresh] at hj'
            cases hj'
        · intro v hv hc
          obtain ⟨m, hm, hd⟩ := huses v hv hc
          exact ⟨m, hm, hdone m hd⟩
  done := by
    intro v hv _
    rw [mem_singleton.mp hv]
    refine ⟨n, hn, .inr ?_⟩
    rw [Table.get?_insert, if_pos rfl]
    rfl

theorem SubstitutedUse.hasAlias {parameters : List Text}
    (h : SubstitutedUse w.naming parameters arguments u u')
    (hu : ∃ letters, IsUse w.naming letters u) (hc : u'.isConcrete) :
    ∃ n, HasAlias w.naming u' n := by
  rcases h with ⟨-, e, -, huse⟩ | ⟨-, rfl⟩
  · exact huse.hasAlias hc
  · obtain ⟨letters, e, directive, huse⟩ := hu
    exact huse.hasAlias hc

theorem not_gives_refuseDepth {core : Text} : ¬ Gives (w.refuseDepth path core n) c name c' := by
  unfold Workshop.refuseDepth
  split
  · exact not_gives_throw
  · exact not_gives_refuse

/-- **Building the instance of a use** builds it, with all that it needs, unless it is there or
being built. -/
theorem buildFrom_spec (hw : w.UsesRead) {room : Nat} {core : Text} (hu : u.isConcrete)
    (hcore : coreOf u.origin = .ok core) (hn : HasAlias w.naming u n) (hc : c.BuildSound w)
    (h : Gives (w.buildFrom room path core) c name c') :
    c'.BuildSound w ∧ c.Builds w path [u] c' := by
  have halias : ∀ {u core n}, coreOf u.origin = .ok core → HasAlias w.naming u n →
      aliasOf w.naming core = .ok n := by
    rintro u core n hcore ⟨core', hcore', -, hn⟩
    obtain rfl := ok_unique hcore hcore'
    exact hn
  induction room using Nat.strongRecOn generalizing path u core n name c c' with
  | ind room ih =>
    rw [w.buildFrom_eq, gives_bind] at h
    obtain ⟨⟨k, m, known⟩, c₁, hlook, h⟩ := h
    obtain ⟨hc₁, hmore, hk, hcanon, rfl, hknown⟩ := lookUp_spec hc (halias hcore hn) hlook
    simp only at h hknown hk hcanon
    split_ifs at h with hkn
    · obtain ⟨rfl, rfl⟩ := gives_pure.mp h
      exact ⟨hc₁, hmore.builds hn (hknown ▸ hkn)⟩
    cases room with
    | zero => exact absurd h not_gives_refuseDepth
    | succ room =>
      simp only [Workshop.buildNew, gives_bind, gives_ofExcept, gives_pure] at h
      obtain ⟨⟨template, arguments⟩, _, ⟨htemplate, rfl⟩, d, c₂, hd, _, c₃, hrecord, rfl, rfl⟩ := h
      simp only at hd htemplate
      have hnk : m ∉ path ∧ c₁.instances.get? m = none := by
        rw [hknown, Bool.or_eq_true, not_or, contains_iff_mem] at hkn
        exact ⟨hkn.2, Option.not_isSome_iff_eq_none.mp hkn.1⟩
      obtain ⟨⟨hc₂, hbuilds⟩, hspec⟩ := (Declaration.specialize_meets (I := Context.BuildSound w)
        (A := fun c us c' => c.Builds w (path ++ [m]) us c')
        (S := fun u v _ => SubstitutedUse w.naming (template.parameters.getD []) arguments u v)
        (E := fun _ _ _ => True) (Context.Builds.refl w _) Context.Builds.append (fun _ h => h)
        (fun _ h => h)
        (by
          refine fun v hv c hc => .of_gives fun v' c' hg => ?_
          simp only [Workshop.visit, gives_bind, gives_ofExcept] at hg
          obtain ⟨v'', c₁, hsub, o, _, ⟨ho, rfl⟩, hg⟩ := hg
          obtain ⟨hnames, ⟨vs, hreads⟩, hsubst⟩ := substituteUse_spec hc.names hsub
          have hc₁ := hc.of_reads hreads hnames
          rcases concreteCore_eq_ok ho with ⟨hv', rfl⟩ | ⟨hv', core, hcore, rfl⟩
          · obtain ⟨rfl, rfl⟩ := gives_pure.mp hg
            exact ⟨⟨hc₁, hreads.builds.add hv'⟩, hsubst⟩
          · simp only [gives_bind, gives_pure] at hg
            obtain ⟨_, c₂, hbuild, rfl, rfl⟩ := hg
            obtain ⟨n', hn'⟩ := hsubst.hasAlias (hw _ (templateOf_mem htemplate) v hv) hv'
            obtain ⟨hc₂, hbuilds⟩ := ih room room.lt_succ_self hv' hcore hn' hc₁ hbuild
            exact ⟨⟨hc₂, hreads.builds.append hbuilds⟩, hsubst⟩)
        hc₁).gives hd
      unfold Workshop.record at hrecord
      simp only [gives_bind, gives_modify, gives_tell] at hrecord
      obtain ⟨_, _, rfl, rfl⟩ := hrecord
      refine ⟨⟨hc₂.names, Table.nodup_keys_insert hc₂.nodup _ _⟩, ?_⟩
      have hpre : c.Builds w path [] c₁ := hmore.reads.builds
      exact hpre.append (Context.Builds.record (i := ⟨m, d, d.render w.layout⟩)
        hbuilds hnk.1 hnk.2 rfl hu ⟨core, hcore, hk⟩ hn
        ⟨hcanon.1, aliasOf_normal (halias hcore hn) hk,
          ⟨template, arguments, htemplate, hspec⟩, rfl⟩ _)

theorem buildUse_spec (hw : w.UsesRead) {o : Option Text}
    (hn : u.isConcrete → HasAlias w.naming u n) (hc : c.BuildSound w) (hpath : c.building = [])
    (h : Gives (w.buildUse u) c o c') :
    c'.BuildSound w ∧ c'.building = [] ∧ c.Builds w [] [u] c' := by
  unfold Workshop.buildUse Workshop.buildUseBy at h
  simp only [gives_bind, gives_ofExcept] at h
  obtain ⟨o', _, ⟨ho, rfl⟩, h⟩ := h
  rcases concreteCore_eq_ok ho with ⟨hu, rfl⟩ | ⟨hu, core, hcore, rfl⟩
  · obtain ⟨rfl, rfl⟩ := gives_pure.mp h
    exact ⟨hc, hpath, (Context.Builds.refl w [] c).add hu⟩
  · obtain ⟨name, hbuild, rfl⟩ := gives_map.mp h
    unfold Workshop.build at hbuild
    simp only [gives_bind, gives_get] at hbuild
    obtain ⟨_, _, ⟨rfl, rfl⟩, hbuild⟩ := hbuild
    rw [hpath] at hbuild
    obtain ⟨hc', hbuilds⟩ := buildFrom_spec hw hu hcore (hn hu) hc hbuild
    refine ⟨hc', ?_, hbuilds⟩
    rw [hbuilds.frame]
    exact hpath

theorem buildUses_spec (hw : w.UsesRead) {os : List (Option Text)}
    (hn : ∀ u ∈ us, u.isConcrete → ∃ n, HasAlias w.naming u n) (hc : c.BuildSound w)
    (hpath : c.building = []) (h : Gives (us.mapM w.buildUse) c os c') :
    c'.BuildSound w ∧ c.Builds w [] us c' := by
  induction us generalizing c os with
  | nil =>
    obtain ⟨-, rfl⟩ := gives_mapM_nil.mp h
    exact ⟨hc, .refl w [] c⟩
  | cons u us ih =>
    obtain ⟨o, c₁, os', ho, hos, rfl⟩ := gives_mapM_cons.mp h
    have hn' : ∃ n, u.isConcrete → HasAlias w.naming u n := by
      cases hu : u.isConcrete with
      | false => exact ⟨[], fun h => nomatch h⟩
      | true =>
        obtain ⟨n, hn⟩ := hn u mem_cons_self hu
        exact ⟨n, fun _ => hn⟩
    obtain ⟨n, hn'⟩ := hn'
    obtain ⟨hc₁, hpath₁, hbuilds₁⟩ := buildUse_spec hw hn' hc hpath ho
    obtain ⟨hc', hbuilds⟩ := ih (fun v hv => hn v (mem_cons_of_mem _ hv)) hc₁ hpath₁ hos
    exact ⟨hc', hbuilds₁.append hbuilds⟩

/-- **Building all pending instances** builds those of the pending uses, with all that they need. -/
theorem buildPending_spec (hw : w.UsesRead) {is : List Instance} (hc : c.BuildSound w)
    (hpath : c.building = []) (hn : ∀ u ∈ c.pending.values, u.isConcrete → ∃ n,
      HasAlias w.naming u n) (h : Gives w.buildPending c is c') :
    c'.BuildSound w ∧ c.Builds w [] c.pending.values c' ∧ is = c'.instances.values := by
  unfold Workshop.buildPending at h
  simp only [gives_bind, gives_get, gives_tell, gives_pure] at h
  obtain ⟨_, _, ⟨rfl, rfl⟩, os, c₁, hos, _, _, ⟨rfl, rfl⟩, _, _, rfl, rfl, rfl⟩ := h
  obtain ⟨hc₁, hbuilds⟩ := buildUses_spec hw hn hc hpath hos
  refine ⟨⟨hc₁.names, hc₁.nodup⟩, ⟨?_, hbuilds.keep, hbuilds.new, hbuilds.done⟩, rfl⟩
  rw [hbuilds.frame]

end Builds

end Schemata
