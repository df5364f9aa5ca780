import Schemata.Proofs.Resolution

/-!
# Declarations of one identity

What a declaration is resolved to is remembered under its identity: its kind, its name and its type
parameters.  A declaration that comes after another one of its identity finds what is remembered and
is not looked at, so it gets the fields of the first.  The first of an identity is also the one that
is inherited from.  Whatever is remembered therefore belongs to the first declaration of its
identity, and the fields of a declaration are kept exactly if the first of its identity has the
same.

An extension is not remembered and keeps its fields in any case.
-/

namespace Schemata

open Resolve List

variable {c c' : Context} {d r : Declaration} {ds rs : List Declaration}

/-! ### The first of an identity -/

/-- The first declaration of an identity among those that extend no other. -/
def firstOf (ds : List Declaration) (k : Declaration.Key) : Option Declaration :=
  ds.find? fun d => !d.isExtend && d.key == k

/-- The declaration whose fields `d` is resolved with: the first one of its identity, or `d` itself
if it is an extension. -/
def representative (ds : List Declaration) (d : Declaration) : Declaration :=
  if d.isExtend then d else (firstOf ds d.key).getD d

/-- The declarations have one identity, and neither extends another. -/
def SameIdentity (d d' : Declaration) : Prop :=
  d.isExtend = false ∧ d'.isExtend = false ∧ d.key = d'.key

/-- The resolved declaration `r` is of the kind and name of `d`, and the fields of `d` come last in
it. -/
structure Keeps (d r : Declaration) : Prop where
  kind : r.kind = d.kind
  name : r.name = d.name
  isExtend : r.isExtend = d.isExtend
  ownFields : r.ownFields = some d.fields
  fields : d.fields <:+ r.fields

theorem keeps_merged (d : Declaration) (rs : List Declaration) (implements : Option (List Text)) :
    Keeps d (merged d rs implements) :=
  ⟨rfl, rfl, rfl, rfl, suffix_append _ _⟩

theorem firstOf_eq_some {k : Declaration.Key} (h : firstOf ds k = some d) :
    d ∈ ds ∧ d.isExtend = false ∧ d.key = k := by
  have hd := find?_some h
  simp only [Bool.and_eq_true, Bool.not_eq_true', beq_iff_eq] at hd
  exact ⟨mem_of_find?_eq_some h, hd.1, hd.2⟩

theorem exists_firstOf (hd : d ∈ ds) (hext : d.isExtend = false) :
    ∃ first, firstOf ds d.key = some first := by
  have hsome : (firstOf ds d.key).isSome := by
    unfold firstOf
    rw [find?_isSome]
    exact ⟨d, hd, by simp [hext]⟩
  exact Option.isSome_iff_exists.mp hsome

theorem representative_spec (hd : d ∈ ds) :
    representative ds d ∈ ds ∧ (representative ds d = d ∨
      SameIdentity (representative ds d) d) := by
  unfold representative
  split
  · exact ⟨hd, .inl rfl⟩
  · rename_i hext
    have hext : d.isExtend = false := by simpa using hext
    obtain ⟨first, hfirst⟩ := exists_firstOf hd hext
    obtain ⟨hmem, hfext, hkey⟩ := firstOf_eq_some hfirst
    rw [hfirst]
    exact ⟨hmem, .inr ⟨hfext, hext, hkey⟩⟩

theorem representative_of_firstOf {first : Declaration} (hext : d.isExtend = false)
    (h : firstOf ds d.key = some first) : representative ds d = first := by
  rw [representative, hext, h]
  rfl

theorem representative_congr {d' : Declaration} (hd : d ∈ ds) (h : SameIdentity d d') :
    representative ds d = representative ds d' := by
  obtain ⟨hext, hext', hkey⟩ := h
  obtain ⟨first, hfirst⟩ := exists_firstOf hd hext
  rw [representative_of_firstOf hext hfirst, representative_of_firstOf hext' (hkey ▸ hfirst)]

/-- The first member that satisfies `p` is the first one that satisfies `q`, if it does and `q`
implies `p`. -/
theorem find?_of_imp {α : Type} {l : List α} {p q : α → Bool} {a : α} (h : l.find? p = some a)
    (ha : q a) (hpq : ∀ b, q b → p b) : l.find? q = some a := by
  rw [find?_eq_some_iff_append] at h ⊢
  obtain ⟨-, before, after, rfl, hbefore⟩ := h
  refine ⟨ha, before, after, rfl, fun b hb => ?_⟩
  have hnot := hbefore b hb
  rw [Bool.not_eq_true'] at hnot ⊢
  exact Bool.eq_false_iff.mpr fun hq => Bool.eq_false_iff.mp hnot (hpq b hq)

/-- What is inherited from is the first of its identity: another one before it would have its name
and kind, and would have been found instead. -/
theorem firstOf_of_ancestor {a : Declaration} {name : Text} (h : ancestor ds d name = .ok a) :
    firstOf ds a.key = some a := by
  have hmem := mem_candidates_of_ancestor h
  simp only [candidates, mem_filter, Bool.and_eq_true, Bool.not_eq_true', beq_iff_eq] at hmem
  obtain ⟨-, hext, rfl⟩ := hmem
  -- whatever kinds are looked for among the candidates
  have hfirst : ∀ p : Kind → Bool, (candidates ds a.baseName).find? (fun c => p c.kind) = some a →
      firstOf ds a.key = some a := by
    intro p hp
    have hkind : p a.kind := find?_some (p := fun c : Declaration => p c.kind) hp
    rw [candidates, find?_filter] at hp
    refine find?_of_imp hp (by simp [hext]) fun b hb => ?_
    simp only [Bool.and_eq_true, Bool.not_eq_true', beq_iff_eq] at hb
    have hsame : b.kind = a.kind := congrArg Declaration.Key.kind hb.2
    simp [hb.1, baseName_eq_of_key_eq hb.2, hsame, hkind]
  unfold ancestor at h
  split at h
  · cases h
  · rename_i first rest hcandidates
    simp only at h
    split at h
    · cases h
    · rename_i found hfound
      split at h
      · cases h
      · cases h
        rw [← hcandidates] at hfound
        rcases Option.or_eq_some_iff.mp hfound with hsame | ⟨-, hmay⟩
        · exact hfirst (· == d.kind) hsame
        · exact hfirst d.kind.mayInheritFrom hmay

/-! ### What is remembered -/

/-- Whatever a context remembers under an identity has the fields of the first declaration of the
identity. -/
def Context.RemembersFirst (ds : List Declaration) (c : Context) : Prop :=
  ∀ k r, c.resolved.get? k = some r → ∃ d, firstOf ds k = some d ∧ Keeps d r

/-- Something is remembered under an identity. -/
def Context.Remembers (c : Context) (k : Declaration.Key) : Prop :=
  (c.resolved.get? k).isSome = true

theorem Context.RemembersFirst.insert (hc : c.RemembersFirst ds)
    (hfirst : firstOf ds d.key = some d) (hkeeps : Keeps d r) :
    Context.RemembersFirst ds { c with resolved := c.resolved.insert d.key r } := by
  intro k r' hr'
  rw [Table.get?_insert] at hr'
  split at hr'
  · rename_i hkey
    cases hr'
    exact ⟨d, hkey ▸ hfirst, hkeeps⟩
  · exact hc k r' hr'

theorem flatten_keeps (hc : c.ResolutionSound ds) (h : Gives (flatten ds d rs) c r c') :
    c'.resolved = c.resolved ∧ Keeps d r := by
  unfold flatten at h
  simp only [gives_bind, gives_pure] at h
  obtain ⟨implements, _, hclose, rfl, rfl⟩ := h
  obtain ⟨⟨-, hmore⟩, -⟩ := (closeInterfaces_meets hc.closures).gives hclose
  refine ⟨?_, keeps_merged d rs implements⟩
  rw [hmore.frame]

/-- The declaration is the first of its identity, or its identity is remembered. -/
def Context.Covers (ds : List Declaration) (c : Context) (d : Declaration) : Prop :=
  d.isExtend = false → firstOf ds d.key = some d ∨ c.Remembers d.key

/-- What resolving a declaration keeps and adds: whatever is remembered belongs to the first of its
identity, nothing is forgotten, and the declaration is resolved with the fields of its
representative. -/
structure ResolvesFirst (ds : List Declaration) (c : Context) (d r : Declaration) (c' : Context) :
    Prop where
  /-- What is remembered belongs to the first of its identity. -/
  first : c'.RemembersFirst ds
  mono : ∀ k, c.Remembers k → c'.Remembers k
  /-- The declaration is remembered, unless it is an extension. -/
  remembers : d.isExtend = false → c'.Remembers d.key
  keeps : Keeps (representative ds d) r

theorem resolveAncestors_remembersFirst {visit : Declaration → Resolve Declaration}
    (hvisit : ∀ name a, ancestor ds d name = .ok a → ∀ {c r c'}, c.ResolutionSound ds →
      c.RemembersFirst ds → Gives (visit a) c r c' → c'.ResolutionSound ds ∧
        ResolvesFirst ds c a r c')
    (hc : c.ResolutionSound ds) (hfirst : c.RemembersFirst ds)
    (h : Gives (visitAncestors ds d fun a _ => visit a) c rs c') :
    c'.ResolutionSound ds ∧ c'.RemembersFirst ds ∧ ∀ k, c.Remembers k → c'.Remembers k := by
  obtain ⟨⟨hsound, hfirst'⟩, hmono, -⟩ := Gives.mapM
    (I := fun c => c.ResolutionSound ds ∧ c.RemembersFirst ds)
    (L := fun c c' => ∀ k, c.Remembers k → c'.Remembers k) (Q := fun _ _ _ => True)
    (fun _ _ h => h) (fun h h' k hk => h' k (h k hk)) (fun _ h => h)
    (by
      intro name _ c r c' ⟨hc, hfirst⟩ hgives
      split at hgives
      · exact absurd hgives not_gives_refuse
      · rename_i a ha
        obtain ⟨hc', hstep⟩ := hvisit name a ha hc hfirst hgives
        exact ⟨⟨hc', hstep.first⟩, hstep.mono, trivial⟩)
    ⟨hc, hfirst⟩ h
  exact ⟨hsound, hfirst', hmono⟩

/-- **Resolving a declaration** that is the first of its identity, or whose identity is remembered,
keeps everything remembered with the first of its identity. -/
theorem resolveFrom_remembersFirst {path : List Declaration.Key} (hd : d ∈ ds)
    (hcovers : c.Covers ds d) (hc : c.ResolutionSound ds) (hfirst : c.RemembersFirst ds)
    (h : Gives (resolveFrom ds path d) c r c') : ResolvesFirst ds c d r c' := by
  induction hk : inheritanceMeasure ds path d using Nat.strongRecOn generalizing path d r c c' with
  | _ k ih =>
    -- an ancestor is the first of its identity, and the measure falls on the way to it
    have hvisit : ∀ path', (∀ name a, ancestor ds d name = .ok a →
      inheritanceMeasure ds path' a < k) →
        ∀ name a, ancestor ds d name = .ok a → ∀ {c r c'}, c.ResolutionSound ds →
          c.RemembersFirst ds → Gives (resolveFrom ds path' a) c r c' →
            c'.ResolutionSound ds ∧ ResolvesFirst ds c a r c' := by
      intro path' hlt name a ha c r c' hc hfirst hgives
      refine ⟨((resolveFrom_meets (mem_of_ancestor ha) hc).gives hgives).1.1, ?_⟩
      exact ih _ (hlt name a ha) (mem_of_ancestor ha)
        (fun _ => .inl (firstOf_of_ancestor ha)) hc hfirst hgives rfl
    rw [resolveFrom_eq, resolveStep] at h
    split at h
    · -- an extension is its own representative, and is not remembered
      rename_i he
      simp only [gives_bind] at h
      obtain ⟨rs, c₁, hrs, hflat⟩ := h
      obtain ⟨hc₁, hfirst₁, hmono⟩ := resolveAncestors_remembersFirst (hvisit path fun name a ha =>
        hk ▸ inheritanceMeasure_extend_lt he (mem_candidates_of_ancestor ha) path) hc hfirst hrs
      obtain ⟨hsame, hkeeps⟩ := flatten_keeps hc₁ hflat
      have hself : representative ds d = d := by
        rw [representative, he]
        rfl
      refine ⟨?_, ?_, ?_, hself.symm ▸ hkeeps⟩
      · unfold Context.RemembersFirst
        rw [hsame]
        exact hfirst₁
      · unfold Context.Remembers
        rw [hsame]
        exact hmono
      · intro hext
        rw [he] at hext
        cases hext
    · rename_i he
      have hext : d.isExtend = false := by simpa using he
      simp only [gives_bind, gives_get] at h
      obtain ⟨_, _, ⟨rfl, rfl⟩, h⟩ := h
      split at h
      · -- what is remembered is given
        rename_i r' hr'
        obtain ⟨rfl, rfl⟩ := gives_pure.mp h
        obtain ⟨first, hfirstOf, hkeeps⟩ := hfirst _ _ hr'
        refine ⟨hfirst, fun _ h => h, fun _ => ?_, representative_of_firstOf hext hfirstOf ▸ hkeeps⟩
        rw [Context.Remembers, hr']
        rfl
      · -- nothing is remembered, so `d` is the first of its identity and is put down as such
        rename_i hnone
        have hfirstOf : firstOf ds d.key = some d := by
          refine (hcovers hext).resolve_right fun hremembers => ?_
          rw [Context.Remembers, hnone] at hremembers
          cases hremembers
        split at h
        · exact absurd h not_gives_refuse
        · rename_i hp
          simp only [gives_bind, gives_modify, gives_pure] at h
          obtain ⟨rs, c₁, hrs, r', c₂, hflat, _, _, rfl, rfl, rfl⟩ := h
          obtain ⟨hc₁, hfirst₁, hmono⟩ := resolveAncestors_remembersFirst
            (hvisit (path ++ [d.key]) fun name a ha =>
              hk ▸ inheritanceMeasure_append_lt hp (mem_candidates_of_ancestor ha)) hc hfirst hrs
          obtain ⟨hsame, hkeeps⟩ := flatten_keeps hc₁ hflat
          have hfirst₂ : c₂.RemembersFirst ds := by
            unfold Context.RemembersFirst
            rw [hsame]
            exact hfirst₁
          refine ⟨hfirst₂.insert hfirstOf hkeeps, ?_, ?_, ?_⟩
          · intro k hk
            have hk₁ := hmono k hk
            unfold Context.Remembers at hk₁ ⊢
            rw [Table.get?_insert, hsame]
            split
            · rfl
            · exact hk₁
          · intro _
            rw [Context.Remembers, Table.get?_insert, if_pos rfl]
            rfl
          · rw [representative_of_firstOf hext hfirstOf]
            exact hkeeps

/-! ### A whole schema -/

/-- A declaration is the first of its identity if none before it has the identity. -/
theorem firstOf_append_cons {before after : List Declaration} (hext : d.isExtend = false)
    (hnew : ∀ b ∈ before, b.isExtend = false → b.key ≠ d.key) :
    firstOf (before ++ d :: after) d.key = some d := by
  have hnone : firstOf before d.key = none := by
    rw [firstOf, find?_eq_none]
    intro b hb hkey
    simp only [Bool.and_eq_true, Bool.not_eq_true', beq_iff_eq] at hkey
    exact hnew b hb hkey.1 hkey.2
  unfold firstOf at hnone ⊢
  rw [List.find?_append, hnone, Option.none_or, find?_cons_of_pos (by simp [hext])]

/-- The declarations of a schema resolved one after the other, from any of them on. -/
theorem resolve_mapM_keeps {before after : List Declaration} (hds : ds = before ++ after)
    (hc : c.ResolutionSound ds) (hfirst : c.RemembersFirst ds)
    (hbefore : ∀ d ∈ before, d.isExtend = false → c.Remembers d.key)
    (h : Gives (after.mapM (resolve ds)) c rs c') :
    Forall₂ (fun d r => Keeps (representative ds d) r) after rs := by
  -- all identities passed so far are remembered
  induction after generalizing before c rs with
  | nil =>
    obtain ⟨rfl, -⟩ := gives_mapM_nil.mp h
    exact .nil
  | cons d after ih =>
    obtain ⟨r, c₁, rs', hr, hrs, rfl⟩ := gives_mapM_cons.mp h
    simp only [resolve, gives_bind, gives_get] at hr
    obtain ⟨_, _, ⟨rfl, rfl⟩, hr⟩ := hr
    have hd : d ∈ ds := by simp [hds]
    have hcovers : c.Covers ds d := by
      intro hext
      by_cases hold : ∃ b ∈ before, b.isExtend = false ∧ b.key = d.key
      · obtain ⟨b, hb, hbext, hkey⟩ := hold
        exact .inr (hkey ▸ hbefore b hb hbext)
      · push Not at hold
        exact .inl (hds ▸ firstOf_append_cons hext hold)
    obtain ⟨hfirst₁, hmono, hremembers, hkeeps⟩ :=
      resolveFrom_remembersFirst hd hcovers hc hfirst hr
    have hc₁ : c₁.ResolutionSound ds := ((resolveFrom_meets hd hc).gives hr).1.1
    have hnext : ds = before ++ [d] ++ after := by simp [hds]
    refine .cons hkeeps (ih hnext hc₁ hfirst₁ ?_ hrs)
    intro b hb hext
    rcases mem_append.mp hb with hb | hb
    · exact hmono _ (hbefore b hb hext)
    · obtain rfl := mem_singleton.mp hb
      exact hremembers hext

/-- The declarations of a schema keep their fields if all of one identity have the same, and only
then. -/
theorem forall₂_keeps_iff (h : Forall₂ (fun d r => Keeps (representative ds d) r) ds rs) :
    Forall₂ Keeps ds rs ↔ ∀ d ∈ ds, ∀ d' ∈ ds, SameIdentity d d' → d.fields = d'.fields := by
  constructor
  · intro hkeeps
    -- both are resolved with the fields of their representative
    have hfields : ∀ d ∈ ds, d.fields = (representative ds d).fields := by
      intro d hd
      have hboth := Forall₂.mp (fun _ _ => And.intro) hkeeps h
      obtain ⟨r, -, hself, hrep⟩ := exists_right_of_forall₂ hboth hd
      exact Option.some.inj (hself.ownFields.symm.trans hrep.ownFields)
    intro d hd d' hd' hsame
    rw [hfields d hd, hfields d' hd', representative_congr hd hsame]
  · intro hfields
    refine forall₂_imp_of_mem h fun d hd r hkeeps => ?_
    obtain ⟨hmem, hrep | hsame⟩ := representative_spec hd
    · rw [← hrep]
      exact hkeeps
    · have hown := hfields _ hmem d hd hsame
      obtain ⟨hext, hext', hkey⟩ := hsame
      refine ⟨?_, ?_, ?_, ?_, ?_⟩
      · exact hkeeps.kind.trans (congrArg Declaration.Key.kind hkey)
      · exact hkeeps.name.trans (congrArg Declaration.Key.name hkey)
      · rw [hkeeps.isExtend, hext, hext']
      · rw [hkeeps.ownFields, hown]
      · rw [← hown]
        exact hkeeps.fields

/-- **What becomes of the fields.**  If nothing is remembered yet and a schema is resolved, then
each of its declarations is resolved to one of its kind and name, with the own fields of the first
declaration of its identity at the end.  So all declarations keep their own fields exactly if those
of one identity have the same fields. -/
theorem resolveAll_keeps_fields {ds rs : List Declaration} {c c' : Context}
    (hc : c.ResolutionSound ds) (hnew : c.resolved = {}) (h : Gives (resolveAll ds) c rs c') :
    List.Forall₂ (fun d r => (r.kind = d.kind ∧ r.name = d.name ∧ r.isExtend = d.isExtend) ∧
        Keeps (representative ds d) r) ds rs ∧
      (List.Forall₂ Keeps ds rs ↔ ∀ d ∈ ds, ∀ d' ∈ ds, SameIdentity d d' →
        d.fields = d'.fields) := by
  have hfirst : c.RemembersFirst ds := by
    intro k r hr
    rw [hnew] at hr
    exact absurd hr (by simp [Table.get?, Table.find?])
  simp only [resolveAll, gives_bind, gives_tell, gives_pure] at h
  obtain ⟨rs', c₁, hrs, -, -, -, rfl, -⟩ := h
  have hkeeps := resolve_mapM_keeps (List.nil_append ds).symm hc hfirst (List.forall_mem_nil _) hrs
  refine ⟨forall₂_imp_of_mem hkeeps fun d hd r hr => ⟨?_, hr⟩, forall₂_keeps_iff hkeeps⟩
  rw [hr.kind, hr.name, hr.isExtend]
  obtain ⟨-, hrep | ⟨hext, hext', hkey⟩⟩ := representative_spec hd
  · rw [hrep]
    exact ⟨rfl, rfl, rfl⟩
  · exact ⟨congrArg Declaration.Key.kind hkey, congrArg Declaration.Key.name hkey,
      hext.trans hext'.symm⟩

def plainField (name type : Text) : Field :=
  { name, type := some { origin := type, isGeneric := false, resolved := type } }

/-- A schema that declares `A` twice, with one field each, and extends it. -/
def declaredTwice : List Declaration :=
  [{ kind := .type, name := "A".toList, fields := [plainField "x".toList "X".toList] },
    { kind := .type, name := "A".toList, fields := [plainField "y".toList "Y".toList] },
    { kind := .type, name := "A".toList, fields := [plainField "z".toList "Z".toList],
      isExtend := true }]

theorem resolveAll_declaredTwice :
    ((resolveAll declaredTwice).outcome {}).1.toOption.map (·.map Declaration.ownFields) =
      some [some [plainField "x".toList "X".toList], some [plainField "x".toList "X".toList],
        some [plainField "z".toList "Z".toList]] := by
  decide +kernel

/-- The theorem where the second declaration of `A` loses its field and the extension keeps its
own. -/
theorem resolveAll_keeps_fields_declaredTwice :
    ∃ rs c, Gives (resolveAll declaredTwice) {} rs c ∧
      List.Forall₂ (fun d r => (r.kind = d.kind ∧ r.name = d.name ∧ r.isExtend = d.isExtend) ∧
        Keeps (representative declaredTwice d) r) declaredTwice rs ∧
      (List.Forall₂ Keeps declaredTwice rs ↔ ∀ d ∈ declaredTwice, ∀ d' ∈ declaredTwice,
        SameIdentity d d' → d.fields = d'.fields) := by
  obtain ⟨rs, c, h, -⟩ := exists_gives_of_outcome resolveAll_declaredTwice
  exact ⟨rs, c, h, resolveAll_keeps_fields (Context.resolutionSound_empty declaredTwice) rfl h⟩

/-- A schema is resolved although a declaration of it loses its fields. -/
theorem not_keeps_declaredTwice :
    ∃ rs c, Gives (resolveAll declaredTwice) {} rs c ∧ ¬ List.Forall₂ Keeps declaredTwice rs := by
  obtain ⟨rs, c, h, hown⟩ := exists_gives_of_outcome resolveAll_declaredTwice
  refine ⟨rs, c, h, fun hkeeps => ?_⟩
  have hfields : declaredTwice.map (fun d => some d.fields) = rs.map Declaration.ownFields := by
    rw [← List.forall₂_eq_eq_eq, List.forall₂_map_left_iff, List.forall₂_map_right_iff]
    exact hkeeps.imp fun d r hr => hr.ownFields.symm
  rw [hown] at hfields
  exact absurd hfields (by decide)

end Schemata
