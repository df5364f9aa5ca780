import Mathlib.Data.List.Nodup
import Schemata.Inheritance
import Schemata.Proofs.Closure

/-!
# Resolved declarations

Resolving a declaration resolves its ancestors first and remembers every result by the identity of
the declaration.  `Resolved` says what the result is, without the context: the fields of the
resolved ancestors before the own ones, and the interfaces that the own clause and the lists of the
ancestors reach.  Two declarations of one identity share what is remembered, so an ancestor is found
only up to its identity; where base names are distinct that makes no difference.
-/

namespace Schemata

open Resolve Relation List

variable {e : Failure} {path : List Declaration.Key}
  {a b d : Declaration} {c c' : Context} {ds : List Declaration} {name : Text}

/-! ### What a declaration is resolved to -/

/-- The declaration `a` has the identity of the one that `d` inherits from by `name`. -/
def InheritsAs (ds : List Declaration) (d : Declaration) (name : Text) (a : Declaration) : Prop :=
  ∃ found, ancestor ds d name = .ok found ∧ a ∈ ds ∧ a.isExtend = false ∧ a.key = found.key

/-- The names that a declaration is closed over: its own clause, and then the lists of its resolved
ancestors. -/
def namesToClose (d : Declaration) (ancestors : List Declaration) : List Text :=
  d.implements.getD [] ++ ancestors.flatMap fun a => a.implements.getD []

/-- A declaration put together with its resolved ancestors and its closed interfaces. -/
def merged (d : Declaration) (ancestors : List Declaration) (implements : Option (List Text)) :
    Declaration :=
  { d with
    fields := ancestors.flatMap Declaration.fields ++ d.fields
    ownFields := some d.fields
    implements
    metadata := d.metadata.or (ancestors.reverse.findSome? Declaration.metadata) }

/-- The declaration `d` is resolved to `r`. -/
inductive Resolved (ds : List Declaration) : Declaration → Declaration → Prop
  /-- Each ancestor is resolved, and the interfaces of the declaration are closed over the names
  that the ancestors add. -/
  | intro (d : Declaration) (as rs : List Declaration) (implements : Option (List Text))
      (inherits : Forall₂ (InheritsAs ds d) (d.inherits.getD []) as)
      (length : as.length = rs.length)
      (ancestors : ∀ p ∈ as.zip rs, Resolved ds p.1 p.2)
      (closed : ClosesAllTo ds (namesToClose d rs) implements) :
      Resolved ds d (merged d rs implements)

/-- What is remembered for one declaration may be used for the other. -/
def StandsFor (d d' : Declaration) : Prop :=
  d' = d ∨ d.isExtend = false ∧ d'.isExtend = false ∧ d'.key = d.key

/-! ### Ancestors -/

/-- The declarations that extend no other have distinct base names. -/
def DistinctNames (ds : List Declaration) : Prop :=
  ((ds.filter fun d => !d.isExtend).map Declaration.baseName).Nodup

instance (ds : List Declaration) : Decidable (DistinctNames ds) :=
  inferInstanceAs (Decidable (Nodup _))

/-- The declaration `d` inherits from `a` by a name of its clause. -/
def Inherits (ds : List Declaration) (d a : Declaration) : Prop :=
  ∃ name ∈ d.inherits.getD [], ancestor ds d name = .ok a

theorem DistinctNames.eq (hds : DistinctNames ds) (ha : a ∈ ds) (hb : b ∈ ds)
    (hae : a.isExtend = false) (hbe : b.isExtend = false) (h : a.baseName = b.baseName) :
    a = b := by
  have hmem : ∀ {d : Declaration}, d ∈ ds → d.isExtend = false →
      d ∈ ds.filter fun d => !d.isExtend := by
    intro d hd he
    exact mem_filter.mpr ⟨hd, by rw [he]; rfl⟩
  exact inj_on_of_nodup_map hds (hmem ha hae) (hmem hb hbe) h

theorem baseName_eq_of_key_eq (h : a.key = b.key) : a.baseName = b.baseName := by
  have hname : a.name = b.name := congrArg Declaration.Key.name h
  unfold Declaration.baseName
  rw [hname]

theorem interfaceNamed?_eq (hds : DistinctNames ds) {i : Declaration} (hi : i ∈ ds)
    (hext : i.isExtend = false) (hkind : i.kind = .interface) :
    interfaceNamed? ds i.baseName = some i := by
  have hcand : i ∈ candidates ds i.baseName := by
    simp [candidates, hi, hext]
  cases hf : interfaceNamed? ds i.baseName with
  | none =>
    have := find?_eq_none.mp hf i hcand
    simp [hkind] at this
  | some j =>
    have hj := mem_of_find?_eq_some hf
    simp only [candidates, mem_filter, Bool.and_eq_true, Bool.not_eq_true', beq_iff_eq] at hj
    rw [hds.eq hj.1 hi hj.2.1 hext hj.2.2]

theorem mem_of_ancestor (h : ancestor ds d name = .ok a) : a ∈ ds :=
  (mem_filter.mp (mem_candidates_of_ancestor h)).1

theorem isExtend_of_ancestor (h : ancestor ds d name = .ok a) : a.isExtend = false := by
  have hm := mem_candidates_of_ancestor h
  simp only [candidates, mem_filter, Bool.and_eq_true, Bool.not_eq_true'] at hm
  exact hm.2.1

/-- What is inherited from is of a kind that may be inherited from, and no template. -/
theorem mayInheritFrom_of_ancestor (h : ancestor ds d name = .ok a) :
    d.kind.mayInheritFrom a.kind ∧ a.isTemplate = false := by
  unfold ancestor at h
  split at h
  · cases h
  simp only at h
  split at h
  · cases h
  rename_i found hfound
  split at h
  · cases h
  rename_i htemplate
  cases h
  refine ⟨?_, by simpa using htemplate⟩
  -- a declaration of the same kind is looked for first, and every kind may inherit from itself
  rcases Option.or_eq_some_iff.mp hfound with hsame | ⟨-, hmay⟩
  · have hkind := find?_some hsame
    rw [beq_iff_eq] at hkind
    rw [hkind]
    cases d.kind <;> simp [Kind.mayInheritFrom]
  · have hkind := find?_some hmay
    exact hkind

theorem category_of_ancestor {e : SchemaError} (h : ancestor ds d name = .error e) :
    e.category ≠ .cyclicInheritance := by
  unfold ancestor at h
  split at h
  · cases h
    exact nofun
  · simp only at h
    split at h
    · cases h
      exact nofun
    · split at h
      · cases h
        exact nofun
      · cases h

theorem inheritsAs_iff (hds : DistinctNames ds) :
    InheritsAs ds d name a ↔ ancestor ds d name = .ok a := by
  constructor
  · rintro ⟨found, hfound, ha, hext, hkey⟩
    have heq : a = found := hds.eq ha (mem_of_ancestor hfound) hext (isExtend_of_ancestor hfound)
      (baseName_eq_of_key_eq hkey)
    rw [heq]
    exact hfound
  · intro h
    exact ⟨a, h, mem_of_ancestor h, isExtend_of_ancestor h, rfl⟩

theorem StandsFor.eq (hds : DistinctNames ds) {d' : Declaration} (hd : d ∈ ds) (hd' : d' ∈ ds)
    (h : StandsFor d d') : d' = d := by
  rcases h with rfl | ⟨hext, hext', hkey⟩
  · rfl
  · exact hds.eq hd' hd hext' hext (baseName_eq_of_key_eq hkey)

theorem isExtend_of_inherits (h : ReflTransGen (Inherits ds) d b) (hd : d ∈ ds)
    (hext : d.isExtend = false) : b ∈ ds ∧ b.isExtend = false := by
  induction h with
  | refl => exact ⟨hd, hext⟩
  | tail _ hinherits _ =>
    obtain ⟨name, -, ha⟩ := hinherits
    exact ⟨mem_of_ancestor ha, isExtend_of_ancestor ha⟩

namespace Resolved

variable {ds : List Declaration} {d a r : Declaration}

/-- The ancestors of a declaration, and what they are resolved to, in the order of its clause. -/
theorem cases_ancestors (hds : DistinctNames ds) (h : Resolved ds d r) : ∃ as rs implements,
    Forall₂ (fun name a => ancestor ds d name = .ok a) (d.inherits.getD []) as ∧
      Forall₂ (Resolved ds) as rs ∧ ClosesAllTo ds (namesToClose d rs) implements ∧
        r = merged d rs implements := by
  obtain ⟨d, as, rs, implements, inherits, length, ancestors, closed⟩ := h
  refine ⟨as, rs, implements, inherits.imp fun _ _ h => (inheritsAs_iff hds).mp h, ?_, closed, rfl⟩
  exact forall₂_iff_zip.mpr ⟨length, fun {a b} hp => ancestors (a, b) hp⟩

theorem ancestor (hds : DistinctNames ds) (h : Resolved ds d r) (ha : Inherits ds d a) :
    ∃ r', Resolved ds a r' := by
  obtain ⟨as, rs, -, has, hrs, -, -⟩ := h.cases_ancestors hds
  obtain ⟨name, hname, ha⟩ := ha
  obtain ⟨a', ha', heq⟩ := exists_right_of_forall₂ has hname
  rw [ha] at heq
  cases heq
  obtain ⟨r', -, hr'⟩ := exists_right_of_forall₂ hrs ha'
  exact ⟨r', hr'⟩

theorem eq (hds : DistinctNames ds) {r' : Declaration} (h : Resolved ds d r)
    (h' : Resolved ds d r') : r = r' := by
  induction h generalizing r' with
  | intro d as rs implements inherits length ancestors closed ih =>
    obtain ⟨as', rs', implements', has', hrs', closed', rfl⟩ := h'.cases_ancestors hds
    have has : Forall₂ (fun name a => ∀ a', Schemata.ancestor ds d name = .ok a' → a = a')
        (d.inherits.getD []) as := by
      refine inherits.imp fun name a ha a' ha' => ?_
      rw [inheritsAs_iff hds, ha'] at ha
      cases ha
      rfl
    cases eq_of_forall₂ has has'
    have hpairs : Forall₂ (fun a r => ∀ r', Resolved ds a r' → r = r') as rs :=
      forall₂_iff_zip.mpr ⟨length, fun {a r} hp r' h => ih (a, r) hp h⟩
    cases eq_of_forall₂ hpairs hrs'
    rw [closed.eq closed']

/-- A declaration that is resolved has no ancestor on a cycle: a cycle through the declaration
itself would lead from an ancestor back to it, and the ancestor is resolved in fewer steps. -/
theorem acyclic (hds : DistinctNames ds) (h : Resolved ds d r) :
    ∀ b, ReflTransGen (Inherits ds) d b → ¬ TransGen (Inherits ds) b b := by
  induction h with
  | intro d as rs implements inherits length ancestors closed ih =>
    have hpairs : Forall₂ (fun a _ => ∀ b, ReflTransGen (Inherits ds) a b →
        ¬ TransGen (Inherits ds) b b) as rs :=
      forall₂_iff_zip.mpr ⟨length, fun {a b} hp => ih (a, b) hp⟩
    have hancestor : ∀ a, Inherits ds d a → ∀ b, ReflTransGen (Inherits ds) a b →
        ¬ TransGen (Inherits ds) b b := by
      rintro a ⟨name, hname, ha⟩
      obtain ⟨a', ha', hinh⟩ := exists_right_of_forall₂ inherits hname
      rw [inheritsAs_iff hds, ha] at hinh
      cases hinh
      obtain ⟨-, -, hacyclic⟩ := exists_right_of_forall₂ hpairs ha'
      exact hacyclic
    intro b hb hcycle
    rcases ReflTransGen.cases_head hb with rfl | ⟨a, ha, hab⟩
    · obtain ⟨a, ha, hback⟩ := TransGen.head'_iff.mp hcycle
      exact hancestor a ha d hback hcycle
    · exact hancestor a ha b hab hcycle

end Resolved

/-! ### What a context remembers -/

/-- Every resolved declaration that a context remembers belongs to a declaration of its identity,
and the closures of its interfaces are remembered too. -/
def Context.ResolvedSound (ds : List Declaration) (c : Context) : Prop :=
  ∀ k r, c.resolved.get? k = some r →
    (∃ d ∈ ds, d.isExtend = false ∧ d.key = k ∧ Resolved ds d r) ∧
      ∀ n ∈ r.implements.getD [], c.Knows n

/-- The second context differs from the first in nothing but what resolving declarations remembers,
and has forgotten no closure. -/
structure Context.ResolvesMore (c c' : Context) : Prop where
  frame : c' = { c with resolved := c'.resolved, closures := c'.closures, log := c'.log }
  knows : ∀ n, c.Knows n → c'.Knows n

theorem Context.ResolvesMore.refl (c : Context) : c.ResolvesMore c :=
  ⟨rfl, fun _ h => h⟩

theorem Context.ResolvesMore.trans {c₁ c₂ c₃ : Context} (h : c₁.ResolvesMore c₂)
    (h' : c₂.ResolvesMore c₃) : c₁.ResolvesMore c₃ := by
  refine ⟨?_, fun n hn => h'.knows n (h.knows n hn)⟩
  rw [h'.frame, h.frame]

theorem Context.ResolvesMore.insert (c : Context) (k : Declaration.Key) (r : Declaration) :
    c.ResolvesMore { c with resolved := c.resolved.insert k r } :=
  ⟨rfl, fun _ h => h⟩

theorem Context.ClosesMore.resolvesMore (h : c.ClosesMore c') : c.ResolvesMore c' := by
  refine ⟨?_, h.knows⟩
  rw [h.frame]

/-- What resolving declarations preserves. -/
structure Context.ResolutionSound (ds : List Declaration) (c : Context) : Prop where
  closures : c.ClosuresSound ds
  resolved : c.ResolvedSound ds
  closing : c.closing = []

theorem Context.resolutionSound_empty (ds : List Declaration) :
    ({} : Context).ResolutionSound ds := by
  refine ⟨Context.closuresSound_empty ds, ?_, rfl⟩
  intro k r h
  exact absurd h (by simp [Table.get?, Table.find?])

theorem Context.ResolutionSound.of_closesMore (hc : c.ResolutionSound ds) (h : c.ClosesMore c')
    (hc' : c'.ClosuresSound ds) : c'.ResolutionSound ds := by
  refine ⟨hc', ?_, ?_⟩
  · intro k r hr
    rw [h.frame] at hr
    obtain ⟨hres, hknows⟩ := hc.resolved k r hr
    exact ⟨hres, fun n hn => h.knows n (hknows n hn)⟩
  · rw [h.frame]
    exact hc.closing

theorem Context.ResolutionSound.insert (hc : c.ResolutionSound ds) {r : Declaration} (hd : d ∈ ds)
    (hext : d.isExtend = false) (hr : Resolved ds d r)
    (hknows : ∀ n ∈ r.implements.getD [], c.Knows n) :
    Context.ResolutionSound ds { c with resolved := c.resolved.insert d.key r } := by
  refine ⟨hc.closures, ?_, hc.closing⟩
  intro k r' hr'
  rw [Table.get?_insert] at hr'
  split at hr'
  · rename_i hkey
    cases hr'
    exact ⟨⟨d, hd, hext, hkey.symm, hr⟩, hknows⟩
  · exact hc.resolved k r' hr'

/-! ### Resolving -/

/-- Why a declaration is not resolved on a path: a cycle is reported only if an ancestor is on one
or on the path, and a declaration that can be resolved has an ancestor on the path. -/
structure FailsOn (ds : List Declaration) (path : List Declaration.Key) (d : Declaration)
    (e : Failure) : Prop where
  refuses : ∃ refusal, e = .schema refusal
  cyclic : e.IsCyclicInheritance → ∃ b, ReflTransGen (Inherits ds) d b ∧
    (b.key ∈ path ∨ TransGen (Inherits ds) b b)
  resolved : ∀ r, Resolved ds d r → ∃ b, ReflTransGen (Inherits ds) d b ∧ b.key ∈ path

theorem FailsOn.of_not_resolved (hother : e.IsOtherRefusal) (hr : ∀ r, ¬ Resolved ds d r) :
    FailsOn ds path d e where
  refuses := hother.imp fun _ h => h.1
  cyclic h := absurd h hother.not_isCyclicInheritance
  resolved r h := absurd h (hr r)

theorem FailsOn.of_inherits (hds : DistinctNames ds) (ha : Inherits ds d a)
    (h : FailsOn ds path a e) : FailsOn ds path d e := by
  refine ⟨h.refuses, ?_, ?_⟩
  · intro hcyclic
    obtain ⟨b, hb, hcycle⟩ := h.cyclic hcyclic
    exact ⟨b, .head ha hb, hcycle⟩
  · intro r hr
    obtain ⟨r', hr'⟩ := hr.ancestor hds ha
    obtain ⟨b, hb, hpath⟩ := h.resolved r' hr'
    exact ⟨b, .head ha hb, hpath⟩

/-- Every other declaration fails with its ancestor, on the path that goes through the
declaration. -/
theorem FailsOn.of_inherits_append (hds : DistinctNames ds) (hd : d ∈ ds)
    (hext : d.isExtend = false) (ha : Inherits ds d a) (h : FailsOn ds (path ++ [d.key]) a e) :
    FailsOn ds path d e := by
  have hsame : ∀ b, ReflTransGen (Inherits ds) a b → b.key ∈ path ++ [d.key] → b.key ∈ path ∨
      b = d := by
    intro b hb hkey
    rcases mem_append.mp hkey with hkey | hkey
    · exact .inl hkey
    · obtain ⟨hmem, hbext⟩ := isExtend_of_inherits (.head ha hb) hd hext
      exact .inr (hds.eq hmem hd hbext hext (baseName_eq_of_key_eq (mem_singleton.mp hkey)))
  refine ⟨h.refuses, ?_, ?_⟩
  · intro hcyclic
    obtain ⟨b, hb, hpath | hcycle⟩ := h.cyclic hcyclic
    · rcases hsame b hb hpath with hpath | rfl
      · exact ⟨b, .head ha hb, .inl hpath⟩
      · exact ⟨b, .refl, .inr (TransGen.head' ha hb)⟩
    · exact ⟨b, .head ha hb, .inr hcycle⟩
  · intro r hr
    obtain ⟨r', hr'⟩ := hr.ancestor hds ha
    obtain ⟨b, hb, hpath⟩ := h.resolved r' hr'
    rcases hsame b hb hpath with hpath | rfl
    · exact ⟨b, .head ha hb, hpath⟩
    · exact absurd (TransGen.head' ha hb) (hr.acyclic hds b .refl)

theorem implements_of_mem_ownPath (hds : DistinctNames ds) (hd : d ∈ ds) {n p : Text}
    (hn : n ∈ d.implements.getD []) (hp : p ∈ ownPath d) : Implements ds p n := by
  unfold ownPath at hp
  split at hp
  · rename_i hown
    simp only [Bool.and_eq_true, beq_iff_eq, Bool.not_eq_true'] at hown
    rw [mem_singleton.mp hp]
    exact ⟨d, interfaceNamed?_eq hds hd hown.2 hown.1, hn⟩
  · exact absurd hp not_mem_nil

/-- A declaration put together with its ancestors, whose interfaces are remembered.  This fails only
if the declaration is resolved to nothing. -/
theorem flatten_meets {rs : List Declaration} (hd : d ∈ ds) (hc : c.ResolutionSound ds)
    (hknows : ∀ r ∈ rs, ∀ n ∈ r.implements.getD [], c.Knows n) :
    Meets (flatten ds d rs) c
      (fun r c' => (c'.ResolutionSound ds ∧ c.ResolvesMore c') ∧
        (∀ n ∈ r.implements.getD [], c'.Knows n) ∧
        ∃ implements, r = merged d rs implements ∧ ClosesAllTo ds (namesToClose d rs) implements)
      (fun e c' => (c'.ResolutionSound ds ∧ c.ResolvesMore c') ∧ e.IsOtherRefusal ∧
        (DistinctNames ds → ∀ r, ¬ Resolved ds d r)) := by
  unfold flatten
  simp only [meets_bind, meets_pure]
  refine (closeInterfaces_meets hc.closures).imp ?_ ?_
  · rintro implements c' ⟨⟨hc', hmore⟩, hcloses, hnew⟩
    exact ⟨⟨hc.of_closesMore hmore hc', hmore.resolvesMore⟩, hnew, implements, rfl, hcloses⟩
  · rintro e c' ⟨⟨hc', hmore⟩, hother, n, hn, hunknown, hreach⟩
    refine ⟨⟨hc.of_closesMore hmore hc', hmore.resolvesMore⟩, hother, ?_⟩
    intro hds r hr
    -- the name is of the own clause, and would have to come back to the declaration
    have hown : n ∈ d.implements.getD [] := by
      rcases mem_append.mp hn with hn | hn
      · exact hn
      · obtain ⟨r, hr, hn⟩ := mem_flatMap.mp hn
        exact absurd (hknows r hr n hn) hunknown
    obtain ⟨as, rs, implements, -, -, hcloses, -⟩ := hr.cases_ancestors hds
    have hclosable := hcloses.closable n (mem_append_left _ hown)
    obtain ⟨p, hp, hnp⟩ := hreach hclosable
    rw [hc.closing, nil_append] at hp
    exact (hclosable p hnp).2 (TransGen.head' (implements_of_mem_ownPath hds hd hown hp) hnp)

/-- What holds after a declaration has been resolved on a path. -/
def ResolvesOn (ds : List Declaration) (path : List Declaration.Key) (c : Context) (d : Declaration)
    (x : Resolve Declaration) : Prop :=
  Meets x c
    (fun r c' => (c'.ResolutionSound ds ∧ c.ResolvesMore c') ∧
      (∃ d' ∈ ds, StandsFor d d' ∧ Resolved ds d' r) ∧ ∀ n ∈ r.implements.getD [], c'.Knows n)
    (fun e c' => (c'.ResolutionSound ds ∧ c.ResolvesMore c') ∧
      (DistinctNames ds → FailsOn ds path d e))

/-- Why a declaration is not put together from its ancestors: one of them is not resolved, or the
declaration is resolved to nothing. -/
def FailsToMerge (ds : List Declaration) (path : List Declaration.Key) (d : Declaration)
    (e : Failure) : Prop :=
  (∃ a, Inherits ds d a ∧ FailsOn ds path a e) ∨ e.IsOtherRefusal ∧ ∀ r, ¬ Resolved ds d r

theorem resolveAncestors_meets (path : List Declaration.Key)
    {visit : Declaration → Resolve Declaration}
    (hvisit : ∀ name a, ancestor ds d name = .ok a → ∀ c, c.ResolutionSound ds →
      ResolvesOn ds path c a (visit a)) (hc : c.ResolutionSound ds) :
    Meets (visitAncestors ds d fun a _ => visit a) c
      (fun rs c' => (c'.ResolutionSound ds ∧ c.ResolvesMore c') ∧
        Forall₂ (fun name r => ∃ a, InheritsAs ds d name a ∧ Resolved ds a r)
          (d.inherits.getD []) rs ∧ ∀ r ∈ rs, ∀ n ∈ r.implements.getD [], c'.Knows n)
      (fun e c' => (c'.ResolutionSound ds ∧ c.ResolvesMore c') ∧
        (DistinctNames ds → FailsToMerge ds path d e)) := by
  refine (Meets.mapM (I := Context.ResolutionSound ds) (L := Context.ResolvesMore)
    (Q := fun name r c' => (∃ a, InheritsAs ds d name a ∧ Resolved ds a r) ∧
      ∀ n ∈ r.implements.getD [], c'.Knows n)
    Context.ResolvesMore.refl Context.ResolvesMore.trans
    (fun hmore hq => ⟨hq.1, fun n hn => hmore.knows n (hq.2 n hn)⟩) ?_ hc).imp ?_ fun _ _ h => h
  case refine_2 =>
    rintro rs c' ⟨hkeeps, hrs⟩
    refine ⟨hkeeps, hrs.imp fun _ _ h => h.1, fun r hr => ?_⟩
    obtain ⟨name, -, -, hknows⟩ := exists_left_of_forall₂ hrs hr
    exact hknows
  intro name hname c hc
  split
  · -- the name stands for no ancestor
    rename_i refusal hrefusal
    rw [meets_refuse]
    refine ⟨⟨hc, .refl c⟩, fun hds => .inr ⟨⟨_, rfl, category_of_ancestor hrefusal⟩, ?_⟩⟩
    intro r hr
    obtain ⟨as, -, -, has, -, -, -⟩ := hr.cases_ancestors hds
    obtain ⟨a, -, ha⟩ := exists_right_of_forall₂ has hname
    rw [hrefusal] at ha
    cases ha
  · rename_i a ha
    refine (hvisit name a ha c hc).imp ?_ ?_
    · rintro r c' ⟨hkeeps, ⟨a', ha', hstands, hres⟩, hknows⟩
      refine ⟨hkeeps, ⟨a', ⟨a, ha, ha', ?_⟩, hres⟩, hknows⟩
      rcases hstands with rfl | ⟨-, hext', hkey⟩
      · exact ⟨isExtend_of_ancestor ha, rfl⟩
      · exact ⟨hext', hkey⟩
    · rintro e c' ⟨hkeeps, hfails⟩
      exact ⟨hkeeps, fun hds => .inl ⟨a, ⟨name, hname, ha⟩, hfails hds⟩⟩

theorem mergeAncestors_meets (path : List Declaration.Key)
    {visit : Declaration → Resolve Declaration} (hd : d ∈ ds)
    (hvisit : ∀ name a, ancestor ds d name = .ok a → ∀ c, c.ResolutionSound ds →
      ResolvesOn ds path c a (visit a)) (hc : c.ResolutionSound ds) :
    Meets (do
        let ancestors ← visitAncestors ds d fun a _ => visit a
        flatten ds d ancestors) c
      (fun r c' => (c'.ResolutionSound ds ∧ c.ResolvesMore c') ∧ Resolved ds d r ∧
        ∀ n ∈ r.implements.getD [], c'.Knows n)
      (fun e c' => (c'.ResolutionSound ds ∧ c.ResolvesMore c') ∧
        (DistinctNames ds → FailsToMerge ds path d e)) := by
  rw [meets_bind]
  refine (resolveAncestors_meets path hvisit hc).imp ?_ fun _ _ h => h
  rintro rs c₁ ⟨⟨hc₁, hmore₁⟩, hrs, hknows⟩
  obtain ⟨as, has, hres⟩ := exists_between_of_forall₂ hrs
  refine (flatten_meets hd hc₁ hknows).imp ?_ ?_
  · rintro r c₂ ⟨⟨hc₂, hmore₂⟩, hknows, implements, rfl, hcloses⟩
    exact ⟨⟨hc₂, hmore₁.trans hmore₂⟩,
      .intro d as rs implements has hres.length_eq (fun _ hp => List.forall₂_zip hres hp) hcloses,
      hknows⟩
  · rintro e c₂ ⟨⟨hc₂, hmore₂⟩, hother, hnot⟩
    exact ⟨⟨hc₂, hmore₁.trans hmore₂⟩, fun hds => .inr ⟨hother, hnot hds⟩⟩

/-- **Resolving a declaration** gives what it, or a declaration of its identity, is resolved to, and
remembers the closures of its interfaces.  It fails only where `FailsOn` says so. -/
theorem resolveFrom_meets (hd : d ∈ ds) (hc : c.ResolutionSound ds) :
    ResolvesOn ds path c d (resolveFrom ds path d) := by
  induction hk : inheritanceMeasure ds path d using Nat.strongRecOn generalizing path d c with
  | _ k ih =>
    unfold ResolvesOn
    rw [resolveFrom_eq, resolveStep]
    split
    · -- an extension is resolved on the path it finds, and is not remembered
      rename_i he
      refine (mergeAncestors_meets path hd (fun name a ha c hc => ih _
        (hk ▸ inheritanceMeasure_extend_lt he (mem_candidates_of_ancestor ha) path)
        (mem_of_ancestor ha) hc rfl) hc).imp ?_ ?_
      · rintro r c' ⟨hkeeps, hr, hknows⟩
        exact ⟨hkeeps, ⟨d, hd, .inl rfl, hr⟩, hknows⟩
      · rintro e c' ⟨hkeeps, hfails⟩
        refine ⟨hkeeps, fun hds => ?_⟩
        rcases hfails hds with ⟨a, ha, hfails⟩ | ⟨hother, hr⟩
        · exact hfails.of_inherits hds ha
        · exact .of_not_resolved hother hr
    · rename_i he
      have hext : d.isExtend = false := by simpa using he
      simp only [meets_bind, meets_get]
      split
      · rename_i r hr
        obtain ⟨⟨d', hd', hext', hkey, hres⟩, hknows⟩ := hc.resolved _ _ hr
        exact ⟨⟨hc, .refl c⟩, ⟨d', hd', .inr ⟨hext, hext', hkey⟩, hres⟩, hknows⟩
      · split
        · rename_i hp
          exact ⟨⟨hc, .refl c⟩, fun _ => ⟨⟨_, rfl⟩, fun _ => ⟨d, .refl, .inl hp⟩,
            fun _ _ => ⟨d, .refl, hp⟩⟩⟩
        · rename_i hp
          have hmerged := mergeAncestors_meets (path ++ [d.key]) hd (fun name a ha c hc => ih _
            (hk ▸ inheritanceMeasure_append_lt hp (mem_candidates_of_ancestor ha))
            (mem_of_ancestor ha) hc rfl) hc
          rw [← bind_assoc, meets_bind]
          refine hmerged.imp ?_ ?_
          · rintro r c' ⟨⟨hc', hmore⟩, hr, hknows⟩
            simp only [meets_bind, meets_modify, meets_pure]
            exact ⟨⟨hc'.insert hd hext hr hknows, hmore.trans (.insert c' d.key r)⟩,
              ⟨d, hd, .inl rfl, hr⟩, hknows⟩
          · rintro e c' ⟨hkeeps, hfails⟩
            refine ⟨hkeeps, fun hds => ?_⟩
            rcases hfails hds with ⟨a, ha, hfails⟩ | ⟨hother, hr⟩
            · exact hfails.of_inherits_append hds hd hext ha
            · exact .of_not_resolved hother hr

/-- **Resolving all declarations** resolves each of them, or one of its identity. -/
theorem resolveAll_spec {rs : List Declaration} (hc : c.ResolutionSound ds)
    (h : Gives (resolveAll ds) c rs c') :
    c.ResolvesMore c' ∧ Forall₂ (fun d r => ∃ d' ∈ ds, StandsFor d d' ∧
      Resolved ds d' r) ds rs := by
  unfold resolveAll at h
  simp only [gives_bind, gives_tell, gives_pure] at h
  obtain ⟨rs, c₁, hrs, _, _, rfl, rfl, rfl⟩ := h
  obtain ⟨-, hmore, hall⟩ := Gives.mapM (I := Context.ResolutionSound ds)
    (L := Context.ResolvesMore)
    (Q := fun d r _ => ∃ d' ∈ ds, StandsFor d d' ∧ Resolved ds d' r)
    Context.ResolvesMore.refl Context.ResolvesMore.trans (fun _ hq => hq)
    (by
      intro d hd c r c' hc hg
      unfold resolve at hg
      simp only [gives_bind, gives_get] at hg
      obtain ⟨_, _, ⟨rfl, rfl⟩, hg⟩ := hg
      obtain ⟨⟨hc', hmore⟩, hr, -⟩ := (resolveFrom_meets hd hc).gives hg
      exact ⟨hc', hmore, hr⟩)
    hc hrs
  exact ⟨⟨by rw [hmore.frame], hmore.knows⟩, hall⟩

/-! ### The contexts of a schema -/

/-- A context that is reached from a fresh one by resolving declarations of the schema and closing
interfaces, whether this succeeds or fails. -/
inductive Context.Reached (ds : List Declaration) : Context → Prop
  | fresh : Reached ds {}
  | resolve {c : Context} (before : Reached ds c) (d : Declaration) (mem : d ∈ ds) :
      Reached ds ((resolve ds d).outcome c).2
  | closure {c : Context} (before : Reached ds c) (owner : Option (Kind × Text)) (n : Text) :
      Reached ds ((closure ds owner n).outcome c).2
  | close {c : Context} (before : Reached ds c) (d : Declaration) (names : List Text) :
      Reached ds ((closeInterfaces ds d names).outcome c).2

/-- A computation that resolves declarations or closes interfaces leaves the paths empty. -/
theorem Context.ResolutionSound.after {α : Type} {x : Resolve α} (hpath : c.resolving = [])
    (h : Meets x c (fun _ c' => c'.ResolutionSound ds ∧ c.ResolvesMore c')
      fun _ c' => c'.ResolutionSound ds ∧ c.ResolvesMore c') :
    (x.outcome c).2.ResolutionSound ds ∧ (x.outcome c).2.resolving = [] := by
  obtain ⟨hc, hmore⟩ := Meets.after (P := fun c' => c'.ResolutionSound ds ∧ c.ResolvesMore c') h
  refine ⟨hc, ?_⟩
  rw [hmore.frame]
  exact hpath

theorem Context.ResolutionSound.resolve (hc : c.ResolutionSound ds ∧ c.resolving = [])
    (hd : d ∈ ds) : ((Schemata.resolve ds d).outcome c).2.ResolutionSound ds ∧
      ((Schemata.resolve ds d).outcome c).2.resolving = [] := by
  refine ResolutionSound.after hc.2 ?_
  unfold Schemata.resolve
  rw [meets_bind, meets_get]
  exact (resolveFrom_meets hd hc.1).imp (fun _ _ h => h.1) fun _ _ h => h.1

/-- What is remembered in a context that is reached is sound, and nothing is on its paths. -/
theorem Context.Reached.sound (h : c.Reached ds) : c.ResolutionSound ds ∧ c.resolving = [] := by
  induction h with
  | fresh => exact ⟨Context.resolutionSound_empty ds, rfl⟩
  | resolve _ d hd ih => exact ResolutionSound.resolve ih hd
  | @closure c _ owner n ih =>
    refine ResolutionSound.after ih.2 ?_
    unfold Schemata.closure
    rw [meets_bind, meets_get]
    exact (closureFrom_meets ih.1.closures).imp
      (fun _ _ h => ⟨ih.1.of_closesMore h.1.2 h.1.1, h.1.2.resolvesMore⟩)
      fun _ _ h => ⟨ih.1.of_closesMore h.1.2 h.1.1, h.1.2.resolvesMore⟩
  | @close c _ d names ih =>
    refine ResolutionSound.after ih.2 ?_
    exact (closeInterfaces_meets ih.1.closures).imp
      (fun _ _ h => ⟨ih.1.of_closesMore h.1.2 h.1.1, h.1.2.resolvesMore⟩)
      fun _ _ h => ⟨ih.1.of_closesMore h.1.2 h.1.1, h.1.2.resolvesMore⟩

end Schemata
