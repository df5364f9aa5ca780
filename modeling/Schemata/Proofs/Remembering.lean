import Mathlib.Data.List.Perm.Basic
import Schemata.Proofs.Resolution

/-!
# What is remembered makes no difference

A context remembers the closures of interfaces and the declarations resolved, also those found by a
run that has failed.  Resolving looks at what is remembered before it looks for a cycle, so that a
declaration might be found which a run from the start refuses, or might be refused for another
reason.  Neither happens.  What can be resolved lies on no cycle, so it is resolved on every path
that leads to it, remembered or not, and to the same.  What cannot be resolved is remembered
nowhere, so that a run takes the same steps in all contexts.
-/

namespace Schemata

open Resolve Relation List

variable {n : Text} {path : List Declaration.Key} {c : Context} {d r : Declaration}
    {ds ds' rs : List Declaration}

/-! ### Closing interfaces -/

theorem Context.ClosuresSound.get?_eq_none (hc : c.ClosuresSound ds) (hn : ¬ Closable ds n) :
    c.closures.get? n = none := by
  cases h : c.closures.get? n with
  | none => rfl
  | some ns => exact absurd (hc n ns h).1.closable hn

/-- Closing an interface comes to the same outcome whatever closures are remembered, on a path of
names that lead to it. -/
theorem agrees_closureFrom {path : List Text} {owner : Option (Kind × Text)}
    (hpath : ∀ p ∈ path, TransGen (Implements ds) p n) :
    Agrees (Context.ClosuresSound ds) (closureFrom ds path owner n) := by
  induction hk : unvisited (ds.map Declaration.baseName) path using Nat.strongRecOn
    generalizing path owner n with
  | _ k ih =>
    by_cases hclosable : Closable ds n
    · -- the name is closed in both contexts, and to one list
      have hback : ∀ p ∈ path, ¬ Reaches ds n p := fun p hp hnp =>
        (hclosable p hnp).2 ((hpath p hp).trans_left hnp)
      exact agrees_of_gives ClosesTo.eq fun hc => exists_gives_closureFrom hc hclosable hback
    · -- neither context remembers the name
      rw [closureFrom_eq, closureStep]
      refine agrees_get (fun c hc => by rw [hc.get?_eq_none hclosable]) ?_
      simp only
      split
      · exact agrees_refuse _
      rename_i i hi
      split
      · exact agrees_refuse _
      rename_i hp
      have hlt : unvisited (ds.map Declaration.baseName) (path ++ [n]) < k :=
        hk ▸ unvisited_append_lt (mem_baseNames_of_interfaceNamed? hi) hp
      have hparents : Agrees (Context.ClosuresSound ds)
          ((i.implements.getD []).mapM (closureFrom ds (path ++ [n]) (some (i.kind, i.name)))) := by
        refine Agrees.mapM ?_ fun p _ c ps c' hc h => ((closureFrom_meets hc).gives h).1.1
        intro p hp
        have hedge : Implements ds n p := ⟨i, hi, hp⟩
        refine ih _ hlt ?_ rfl
        intro q hq
        rcases mem_append.mp hq with hq | hq
        · exact (hpath q hq).tail hedge
        · rw [mem_singleton.mp hq]
          exact .single hedge
      exact hparents.bind (J := fun _ _ => True) (fun _ _ => trivial) fun _ _ _ _ _ => rfl

theorem agrees_closureFrom_of_knows {path : List Text} {owner : Option (Kind × Text)} :
    Agrees (fun c => c.ClosuresSound ds ∧ c.Knows n) (closureFrom ds path owner n) := by
  apply agrees_of_gives ClosesTo.eq
  rintro c ⟨hc, hknows⟩
  -- only a name that is not remembered is refused
  have hmeets : Meets (closureFrom ds path owner n) c (fun ns _ => ClosesTo ds n ns) fun _ _ =>
      False :=
    (closureFrom_meets hc).imp (fun _ _ h => h.2.1) fun _ _ h => h.2.2.1 hknows
  exact hmeets.exists_gives

/-- The interfaces of a declaration are closed to the same outcome in all contexts that remember the
names inherited, if the other names come from the clause of the declaration. -/
theorem agrees_closeInterfaces {own inherited : List Text}
    (hown : ∀ n ∈ own, ∀ p ∈ ownPath d, Implements ds p n) :
    Agrees (fun c => (c.ClosuresSound ds ∧ c.closing = []) ∧ ∀ n ∈ inherited, c.Knows n)
      (closeInterfaces ds d (own ++ inherited)) := by
  rw [closeInterfaces_eq]
  split
  · exact agrees_pure _
  refine agrees_get (fun c hc => by rw [hc.1.2]) ?_
  refine Agrees.bind (J := fun _ _ => True) (Agrees.mapM ?_ ?_)
    (fun _ _ => trivial) fun _ _ _ _ _ => rfl
  · intro n hn
    rcases mem_append.mp hn with hn | hn
    · exact (agrees_closureFrom fun p hp => .single (hown n hn p hp)).mono fun _ hc => hc.1.1
    · exact agrees_closureFrom_of_knows.mono fun _ hc => ⟨hc.1.1, hc.2 n hn⟩
  · rintro n - c ns c' ⟨⟨hc, hpath⟩, hknows⟩ h
    obtain ⟨⟨hc', hmore⟩, -⟩ := (closureFrom_meets hc).gives h
    refine ⟨⟨hc', ?_⟩, fun n hn => hmore.knows n (hknows n hn)⟩
    rw [hmore.frame]
    exact hpath

/-! ### Resolving declarations -/

theorem agrees_flatten (hds : DistinctNames ds) (hd : d ∈ ds) (rs : List Declaration) :
    Agrees (fun c => c.ResolutionSound ds ∧ ∀ r ∈ rs, ∀ n ∈ r.implements.getD [], c.Knows n)
      (flatten ds d rs) := by
  unfold flatten
  refine Agrees.bind (J := fun _ _ => True) (Agrees.mono (agrees_closeInterfaces fun n hn p hp =>
    implements_of_mem_ownPath hds hd hn hp) ?_) (fun _ _ => trivial) fun _ _ _ _ _ => rfl
  rintro c ⟨hc, hknows⟩
  refine ⟨⟨hc.closures, hc.closing⟩, fun n hn => ?_⟩
  obtain ⟨r, hr, hn⟩ := mem_flatMap.mp hn
  exact hknows r hr n hn

/-- A declaration is put together from its ancestors to the same outcome, if `visit` resolves them
so. -/
theorem agrees_mergeAncestors (hds : DistinctNames ds) (path : List Declaration.Key)
    {visit : Declaration → Resolve Declaration} (hd : d ∈ ds)
    (hvisit : ∀ name a, ancestor ds d name = .ok a → ∀ c, c.ResolutionSound ds →
      ResolvesOn ds path c a (visit a))
    (hagrees : ∀ name ∈ d.inherits.getD [], ∀ a, ancestor ds d name = .ok a →
      Agrees (Context.ResolutionSound ds) (visit a)) :
    Agrees (Context.ResolutionSound ds) (do
      let ancestors ← visitAncestors ds d fun a _ => visit a
      flatten ds d ancestors) := by
  refine Agrees.bind (J := fun rs c => c.ResolutionSound ds ∧ ∀ r ∈ rs, ∀ n ∈ r.implements.getD [],
    c.Knows n) (Agrees.mapM ?_ ?_) ?_ fun rs => agrees_flatten hds hd rs
  · intro name hname
    split
    · exact agrees_refuse _
    · rename_i a ha
      exact hagrees name hname a ha
  · intro name hname c r c' hc h
    split at h
    · exact absurd h not_gives_refuse
    · rename_i a ha
      exact ((hvisit name a ha c hc).gives h).1.1
  · intro c rs c' hc h
    obtain ⟨⟨hc', -⟩, -, hknows⟩ := (resolveAncestors_meets path hvisit hc).gives h
    exact ⟨hc', hknows⟩

/-- Every declaration on the path is one of the schema that extends nothing, and inherits from `d`,
however far. -/
def LeadsTo (ds : List Declaration) (path : List Declaration.Key) (d : Declaration) : Prop :=
  ∀ k ∈ path, ∃ b ∈ ds, b.isExtend = false ∧ b.key = k ∧ TransGen (Inherits ds) b d

theorem LeadsTo.append {a : Declaration} (h : LeadsTo ds path d) (hd : d ∈ ds)
    (hext : d.isExtend = false) (ha : Inherits ds d a) : LeadsTo ds (path ++ [d.key]) a := by
  intro k hk
  rcases mem_append.mp hk with hk | hk
  · obtain ⟨b, hb, hbext, hkey, hbd⟩ := h k hk
    exact ⟨b, hb, hbext, hkey, hbd.tail ha⟩
  · exact ⟨d, hd, hext, (mem_singleton.mp hk).symm, .single ha⟩

theorem LeadsTo.isExtend (h : LeadsTo ds path d) {k : Declaration.Key} (hk : k ∈ path) :
    d.isExtend = false := by
  obtain ⟨b, -, -, -, hbd⟩ := h k hk
  obtain ⟨_, -, name, -, ha⟩ := TransGen.tail'_iff.mp hbd
  exact isExtend_of_ancestor ha

theorem LeadsTo.eq_nil (h : LeadsTo ds path d) (hext : d.isExtend) : path = [] := by
  rw [eq_nil_iff_forall_not_mem]
  intro k hk
  rw [h.isExtend hk] at hext
  cases hext

/-- A declaration that is resolved to another does not come back to a path that leads to it. -/
theorem LeadsTo.not_mem (hds : DistinctNames ds) {b : Declaration} (h : LeadsTo ds path d)
    (hd : d ∈ ds) (hr : Resolved ds d r) (hb : ReflTransGen (Inherits ds) d b) :
    b.key ∉ path := by
  intro hk
  obtain ⟨b', hb', hext', hkey, hbd⟩ := h b.key hk
  obtain ⟨hmem, hext⟩ := isExtend_of_inherits hb hd (h.isExtend hk)
  cases hds.eq hb' hmem hext' hext (baseName_eq_of_key_eq hkey)
  exact hr.acyclic hds d .refl (hbd.trans_right hb)

/-- A declaration that is resolved to another is resolved to it, whatever is remembered, on every
path that leads to the declaration. -/
theorem exists_gives_resolveFrom (hds : DistinctNames ds) (hd : d ∈ ds) (hpath : LeadsTo ds path d)
    (hr : Resolved ds d r) (hc : c.ResolutionSound ds) :
    ∃ c', Gives (resolveFrom ds path d) c r c' := by
  have hmeets : Meets (resolveFrom ds path d) c (fun r' _ => r' = r) fun _ _ => False := by
    refine (resolveFrom_meets hd hc).imp ?_ ?_
    · rintro r' c' ⟨-, ⟨d', hd', hstands, hr'⟩, -⟩
      rw [hstands.eq hds hd hd'] at hr'
      exact hr'.eq hds hr
    · rintro e c' ⟨-, hfails⟩
      obtain ⟨b, hb, hmem⟩ := (hfails hds).resolved r hr
      exact hpath.not_mem hds hd hr hb hmem
  obtain ⟨_, c', h, rfl⟩ := hmeets.exists_gives
  exact ⟨c', h⟩

/-- **Resolving a declaration** comes to the same outcome whatever is remembered, on a path that
leads to the declaration. -/
theorem agrees_resolveFrom (hds : DistinctNames ds) (hd : d ∈ ds) (hpath : LeadsTo ds path d) :
    Agrees (Context.ResolutionSound ds) (resolveFrom ds path d) := by
  induction hk : inheritanceMeasure ds path d using Nat.strongRecOn generalizing path d with
  | _ k ih =>
    by_cases hres : ∃ r, Resolved ds d r
    · -- the declaration is resolved in both contexts, and to one other
      obtain ⟨r, hr⟩ := hres
      intro c c' hc hc'
      obtain ⟨c₁, h⟩ := exists_gives_resolveFrom hds hd hpath hr hc
      obtain ⟨c₁', h'⟩ := exists_gives_resolveFrom hds hd hpath hr hc'
      rw [h, h']
    · -- neither context remembers the declaration
      rw [resolveFrom_eq, resolveStep]
      split
      · -- an extension starts a run, and is not put on the path
        rename_i he
        cases hpath.eq_nil he
        refine agrees_mergeAncestors hds [] hd
          (fun name a ha c hc => resolveFrom_meets (mem_of_ancestor ha) hc) ?_
        intro name _ a ha
        exact ih _ (hk ▸ inheritanceMeasure_extend_lt he (mem_candidates_of_ancestor ha) [])
          (mem_of_ancestor ha) (forall_mem_nil _) rfl
      · rename_i he
        have hext : d.isExtend = false := by simpa using he
        have hnone : ∀ c : Context, c.ResolutionSound ds → c.resolved.get? d.key = none := by
          intro c hc
          cases hget : c.resolved.get? d.key with
          | none => rfl
          | some r =>
            obtain ⟨⟨d', hd', hext', hkey, hr⟩, -⟩ := hc.resolved _ _ hget
            cases hds.eq hd' hd hext' hext (baseName_eq_of_key_eq hkey)
            exact absurd ⟨r, hr⟩ hres
        refine agrees_get (fun c hc => by rw [hnone c hc]) ?_
        simp only
        split
        · exact agrees_refuse _
        rename_i hp
        -- what is remembered afterwards does not count, so only the ancestors have to agree
        rw [← bind_assoc]
        refine Agrees.bind (J := fun _ _ => True) (agrees_mergeAncestors hds (path ++ [d.key]) hd
          (fun name a ha c hc => resolveFrom_meets (mem_of_ancestor ha) hc) ?_) (fun _ _ => trivial)
          fun _ _ _ _ _ => rfl
        intro name hname a ha
        exact ih _ (hk ▸ inheritanceMeasure_append_lt hp (mem_candidates_of_ancestor ha))
          (mem_of_ancestor ha) (hpath.append hd hext ⟨name, hname, ha⟩) rfl

/-- The outcome of resolving a declaration in a fresh context. -/
def freshOutcome (ds : List Declaration) (d : Declaration) : Except Failure Declaration :=
  ((resolve ds d).outcome {}).1

/-- Where what is remembered is sound, a declaration is resolved as in a fresh context. -/
theorem outcome_resolve_of_sound (hds : DistinctNames ds)
    (hc : c.ResolutionSound ds ∧ c.resolving = []) (hd : d ∈ ds) :
    ((resolve ds d).outcome c).1 = freshOutcome ds d := by
  have hout : ∀ {c : Context}, c.resolving = [] →
      (resolve ds d).outcome c = (resolveFrom ds [] d).outcome c := by
    intro c hpath
    rw [resolve, outcome_bind]
    change (resolveFrom ds c.resolving d).outcome c = _
    rw [hpath]
  rw [freshOutcome, hout hc.2, hout rfl]
  exact agrees_resolveFrom hds hd (forall_mem_nil _) c {} hc.1 (Context.resolutionSound_empty ds)

/-- In every context that is reached, a declaration is resolved as in a fresh one. -/
theorem outcome_resolve (hds : DistinctNames ds) (hc : c.Reached ds) (hd : d ∈ ds) :
    ((resolve ds d).outcome c).1 = freshOutcome ds d :=
  outcome_resolve_of_sound hds hc.sound hd

/-- In a fresh context a declaration is resolved exactly to what it is resolved to. -/
theorem freshOutcome_eq_ok_iff (hds : DistinctNames ds) (hd : d ∈ ds) :
    freshOutcome ds d = .ok r ↔ Resolved ds d r := by
  have hsound := Context.resolutionSound_empty ds
  constructor
  · intro h
    have hgives : Gives (resolveFrom ds [] d) {} r _ := Prod.ext h rfl
    obtain ⟨-, ⟨d', hd', hstands, hr⟩, -⟩ := (resolveFrom_meets hd hsound).gives hgives
    rwa [hstands.eq hds hd hd'] at hr
  · intro hr
    obtain ⟨c, h⟩ := exists_gives_resolveFrom hds hd (forall_mem_nil _) hr hsound
    exact congrArg Prod.fst h

/-- Declarations are resolved one after the other exactly if each of them is resolved in a fresh
context. -/
theorem gives_mapM_resolve (hds : DistinctNames ds) {l : List Declaration} (hl : ∀ d ∈ l, d ∈ ds)
    (hc : c.ResolutionSound ds ∧ c.resolving = []) :
    (∃ c', Gives (l.mapM (resolve ds)) c rs c') ↔
      Forall₂ (fun d r => freshOutcome ds d = .ok r) l rs := by
  induction l generalizing c rs with
  | nil => simp
  | cons d l ih =>
    obtain ⟨hd, hl⟩ := forall_mem_cons.mp hl
    have hfresh := outcome_resolve_of_sound hds hc hd
    have hafter := Context.ResolutionSound.resolve hc hd
    simp only [gives_mapM_cons, forall₂_cons_left_iff]
    constructor
    · rintro ⟨c', r, c₁, rs', hr, hrs', rfl⟩
      rw [hr] at hfresh hafter
      exact ⟨r, rs', hfresh.symm, (ih hl hafter).mp ⟨c', hrs'⟩, rfl⟩
    · rintro ⟨r, rs', hr, hrs', rfl⟩
      obtain ⟨c', hrs'⟩ := (ih hl hafter).mpr hrs'
      refine ⟨c', r, _, rs', ?_, hrs', rfl⟩
      exact Prod.ext (hfresh.trans hr) rfl

theorem gives_resolveAll_of_sound (hds : DistinctNames ds)
    (hc : c.ResolutionSound ds ∧ c.resolving = []) :
    (∃ c', Gives (resolveAll ds) c rs c') ↔
      Forall₂ (fun d r => freshOutcome ds d = .ok r) ds rs := by
  rw [← gives_mapM_resolve hds (fun _ h => h) hc]
  unfold resolveAll
  simp only [gives_bind, gives_tell, gives_pure]
  constructor
  · rintro ⟨_, rs, c, hrs, _, _, rfl, rfl, rfl⟩
    exact ⟨c, hrs⟩
  · rintro ⟨c, hrs⟩
    exact ⟨_, rs, c, hrs, (), _, rfl, rfl, rfl⟩

theorem gives_resolveAll (hds : DistinctNames ds) :
    (∃ c, Gives (resolveAll ds) {} rs c) ↔ Forall₂ (fun d r => freshOutcome ds d = .ok r) ds rs :=
  gives_resolveAll_of_sound hds ⟨Context.resolutionSound_empty ds, rfl⟩

/-! ### Schemas with the same candidates

Resolving looks at a schema only through the declarations of a name that extend nothing. -/

section Candidates

variable {ds ds' : List Declaration} (h : candidates ds' = candidates ds)
include h

theorem interfaceNamed?_congr (n : Text) : interfaceNamed? ds' n = interfaceNamed? ds n := by
  unfold interfaceNamed?
  rw [h]

theorem notInterface_congr (n : Text) (owner : Option (Kind × Text)) :
    notInterface ds' n owner = notInterface ds n owner := by
  unfold notInterface
  rw [h]

theorem ancestor_congr (d : Declaration) (name : Text) :
    ancestor ds' d name = ancestor ds d name := by
  unfold ancestor
  rw [h]

theorem closureFrom_congr (path : List Text) (owner : Option (Kind × Text)) :
    closureFrom ds' path owner = closureFrom ds path owner := by
  induction hk : unvisited (ds.map Declaration.baseName) path using Nat.strongRecOn
    generalizing path owner with
  | _ k ih =>
    funext n
    rw [closureFrom_eq, closureFrom_eq, closureStep, closureStep, notInterface_congr h,
      interfaceNamed?_congr h]
    cases hi : interfaceNamed? ds n with
    | none => rfl
    | some i =>
      by_cases hp : n ∈ path
      · simp only [if_pos hp]
      · have hlt : unvisited (ds.map Declaration.baseName) (path ++ [n]) < k :=
          hk ▸ unvisited_append_lt (mem_baseNames_of_interfaceNamed? hi) hp
        simp only [if_neg hp, ih _ hlt _ _ rfl]

theorem flatten_congr (d : Declaration) : flatten ds' d = flatten ds d := by
  unfold flatten
  simp only [closeInterfaces_eq, closureFrom_congr h]

theorem resolveFrom_congr (path : List Declaration.Key) (d : Declaration) :
    resolveFrom ds' path d = resolveFrom ds path d := by
  induction hk : inheritanceMeasure ds path d using Nat.strongRecOn generalizing path d with
  | _ k ih =>
    have hancestors : ∀ path', (∀ name a, ancestor ds d name = .ok a →
      inheritanceMeasure ds path' a < k) →
        (visitAncestors ds' d fun a _ => resolveFrom ds' path' a) =
          visitAncestors ds d fun a _ => resolveFrom ds path' a := by
      intro path' hlt
      unfold visitAncestors
      refine congrArg (List.mapM · _) (funext fun name => ?_)
      beta_reduce
      rw [ancestor_congr h]
      cases ha : ancestor ds d name with
      | error e => rfl
      | ok a => exact ih _ (hlt name a ha) _ _ rfl
    rw [resolveFrom_eq, resolveFrom_eq, resolveStep, resolveStep, flatten_congr h]
    by_cases he : d.isExtend
    · rw [if_pos he, if_pos he, hancestors path]
      intro name a ha
      exact hk ▸ inheritanceMeasure_extend_lt he (mem_candidates_of_ancestor ha) path
    · rw [if_neg he, if_neg he]
      by_cases hp : d.key ∈ path
      · simp only [if_pos hp]
      · simp only [if_neg hp]
        rw [hancestors (path ++ [d.key])]
        intro name a ha
        exact hk ▸ inheritanceMeasure_append_lt hp (mem_candidates_of_ancestor ha)

theorem freshOutcome_congr : freshOutcome ds' = freshOutcome ds := by
  unfold freshOutcome resolve
  simp only [resolveFrom_congr h]

end Candidates

theorem candidates_eq_filter (ds : List Declaration) (name : Text) :
    candidates ds name = (ds.filter fun d => !d.isExtend).filter fun d => d.baseName == name := by
  rw [filter_filter]
  exact filter_congr fun d _ => Bool.and_comm _ _

theorem DistinctNames.length_candidates_le (hds : DistinctNames ds) (name : Text) :
    (candidates ds name).length ≤ 1 := by
  have hnodup : ((candidates ds name).map Declaration.baseName).Nodup := by
    rw [candidates_eq_filter]
    exact hds.sublist (filter_sublist.map _)
  have hname : (candidates ds name).map Declaration.baseName =
      List.replicate (candidates ds name).length name := by
    refine eq_replicate_iff.mpr ⟨length_map _, fun b hb => ?_⟩
    obtain ⟨d, hd, rfl⟩ := mem_map.mp hb
    rw [candidates_eq_filter] at hd
    exact beq_iff_eq.mp (mem_filter.mp hd).2
  rw [hname] at hnodup
  exact nodup_replicate.mp hnodup

theorem DistinctNames.candidates_perm (hds : DistinctNames ds) (h : ds'.Perm ds) :
    candidates ds' = candidates ds := by
  funext name
  have hperm : (candidates ds' name).Perm (candidates ds name) := h.filter _
  have hlen := hds.length_candidates_le name
  match hcand : candidates ds name with
  | [] => exact perm_nil.mp (hcand ▸ hperm)
  | [d] => exact perm_singleton.mp (hcand ▸ hperm)
  | _ :: _ :: _ =>
    rw [hcand] at hlen
    simp at hlen

theorem DistinctNames.perm (hds : DistinctNames ds) (h : ds'.Perm ds) : DistinctNames ds' :=
  ((h.filter _).map _).nodup_iff.mpr hds

/-! ### The outcome of resolution -/

theorem forall₂_filter_isExtend (hds : DistinctNames ds)
    (h : Forall₂ (fun d r => freshOutcome ds d = .ok r) ds rs) :
    Forall₂ (fun d r => freshOutcome ds d = .ok r) (ds.filter fun d => !d.isExtend)
      (rs.filter fun r => !r.isExtend) := by
  have hext : Forall₂ (fun d r => d ∈ ds ∧ freshOutcome ds d = .ok r) ds rs :=
    (forall₂_and_left _ _).mpr ⟨fun _ h => h, h⟩
  refine (rel_filter ?_ hext).imp fun _ _ h => h.2
  rintro d r ⟨hd, hr⟩
  obtain ⟨d, as, rs, implements, -, -, -, -⟩ := (freshOutcome_eq_ok_iff hds hd).mp hr
  rfl

theorem DistinctNames.of_freshOutcome (hds : DistinctNames ds)
    (h : Forall₂ (fun d r => freshOutcome ds d = .ok r) ds rs) : DistinctNames rs := by
  have hall : Forall₂ (fun d r => d.isExtend = r.isExtend ∧ d.baseName = r.baseName) ds rs := by
    have hmem : Forall₂ (fun d r => d ∈ ds ∧ freshOutcome ds d = .ok r) ds rs :=
      (forall₂_and_left _ _).mpr ⟨fun _ h => h, h⟩
    refine hmem.imp ?_
    rintro d r ⟨hd, hr⟩
    obtain ⟨d, as, rs, implements, -, -, -, -⟩ := (freshOutcome_eq_ok_iff hds hd).mp hr
    exact ⟨rfl, rfl⟩
  have hfilter : Forall₂ (fun d r => d.isExtend = r.isExtend ∧ d.baseName = r.baseName)
      (ds.filter fun d => !d.isExtend) (rs.filter fun r => !r.isExtend) := by
    refine rel_filter ?_ hall
    rintro d r ⟨hextend, -⟩
    simp only [hextend]
  have hnames : (ds.filter fun d => !d.isExtend).map Declaration.baseName =
      (rs.filter fun r => !r.isExtend).map Declaration.baseName := by
    rw [← forall₂_eq_eq_eq, forall₂_map_left_iff, forall₂_map_right_iff]
    exact hfilter.imp fun _ _ h => h.2
  unfold DistinctNames
  rw [← hnames]
  exact hds

theorem exists_perm_of_freshOutcome (hds : DistinctNames ds) (hperm : ds'.Perm ds)
    (h : Forall₂ (fun d r => freshOutcome ds d = .ok r) ds rs) :
    ∃ rs', Forall₂ (fun d r => freshOutcome ds' d = .ok r) ds' rs' ∧ rs'.Perm rs := by
  rw [freshOutcome_congr (hds.candidates_perm hperm)]
  exact perm_comp_forall₂ hperm h

theorem exists_map_of_resolveAll (hds : DistinctNames ds) (h : Gives (resolveAll ds) {} rs c) :
    ∃ f : Declaration → Declaration, rs = ds.map f ∧ ∀ d ∈ ds, freshOutcome ds d = .ok (f d) := by
  have hall := (gives_resolveAll hds).mp ⟨c, h⟩
  let f : Declaration → Declaration := fun d => (freshOutcome ds d).toOption.getD d
  have hf : ∀ {d r}, freshOutcome ds d = .ok r → r = f d := by
    intro d r hr
    simp only [f, hr]
    rfl
  refine ⟨f, ?_, fun d hd => ?_⟩
  · rw [← forall₂_eq_eq_eq, forall₂_map_right_iff]
    exact (hall.imp fun _ _ hr => hf hr).flip
  · obtain ⟨r, -, hr⟩ := exists_right_of_forall₂ hall hd
    rw [← hf hr]
    exact hr

theorem resolveAll_perm (hds : DistinctNames ds) (hperm : ds'.Perm ds)
    {f : Declaration → Declaration} (hf : ∀ d ∈ ds, freshOutcome ds d = .ok (f d)) :
    ∃ c, Gives (resolveAll ds') {} (ds'.map f) c := by
  refine (gives_resolveAll (hds.perm hperm)).mpr ?_
  rw [freshOutcome_congr (hds.candidates_perm hperm), forall₂_map_right_iff, forall₂_same]
  exact fun d hd => hf d (hperm.mem_iff.mp hd)

/-- The declarations that extend nothing are resolved to the same whatever extends them. -/
theorem filter_resolveAll {rs' : List Declaration} {c' : Context} (hds : DistinctNames ds)
    (hfilter : (ds'.filter fun d => !d.isExtend) = ds.filter fun d => !d.isExtend)
    (hcandidates : candidates ds' = candidates ds) (h : Gives (resolveAll ds) {} rs c)
    (h' : Gives (resolveAll ds') {} rs' c') :
    (rs'.filter fun r => !r.isExtend) = rs.filter fun r => !r.isExtend := by
  have hds' : DistinctNames ds' := by
    unfold DistinctNames
    rw [hfilter]
    exact hds
  have hall := forall₂_filter_isExtend hds ((gives_resolveAll hds).mp ⟨c, h⟩)
  have hall' := forall₂_filter_isExtend hds' ((gives_resolveAll hds').mp ⟨c', h'⟩)
  rw [freshOutcome_congr hcandidates, hfilter] at hall'
  refine right_unique_forall₂' ?_ hall' hall
  intro d r r' hr hr'
  exact ok_unique hr hr'

/-- **What is remembered makes no difference.**  In every context that is reached by resolving and
closing, with or without success, a declaration is resolved to what it is resolved to in a fresh
context, or fails with the same failure.  So the declarations of a schema may be resolved in any
order, and extensions make no difference to the declarations that extend nothing. -/
theorem resolve_memory_invisible {ds : List Declaration} (hds : DistinctNames ds) :
    (∀ c, c.Reached ds → ∀ d ∈ ds, ((resolve ds d).outcome c).1 = ((resolve ds d).outcome {}).1) ∧
    (∀ rs c, Gives (resolveAll ds) {} rs c → ∃ f : Declaration → Declaration, rs = ds.map f ∧
      ∀ ds', ds'.Perm ds → ∃ c', Gives (resolveAll ds') {} (ds'.map f) c') ∧
    (∀ ds', (ds'.filter fun d => !d.isExtend) = ds.filter (fun d => !d.isExtend) →
      (∀ d ∈ ds, d.isExtend = false → ((resolve ds' d).outcome {}).1 =
        ((resolve ds d).outcome {}).1) ∧
      ∀ rs rs' c c', Gives (resolveAll ds) {} rs c → Gives (resolveAll ds') {} rs' c' →
        (rs'.filter fun r => !r.isExtend) = rs.filter fun r => !r.isExtend) := by
  refine ⟨fun c hc d hd => outcome_resolve hds hc hd, ?_, ?_⟩
  · intro rs c h
    obtain ⟨f, hrs, hf⟩ := exists_map_of_resolveAll hds h
    exact ⟨f, hrs, fun ds' hperm => resolveAll_perm hds hperm hf⟩
  · intro ds' hfilter
    have hcandidates : candidates ds' = candidates ds := by
      funext name
      rw [candidates_eq_filter, candidates_eq_filter, hfilter]
    exact ⟨fun d _ _ => congrFun (freshOutcome_congr hcandidates) d,
      fun rs rs' c c' h h' => filter_resolveAll hds hfilter hcandidates h h'⟩

/-- A schema in which `B` inherits from `A`, which implements `I`. -/
def chained : List Declaration :=
  [{ kind := .interface, name := "I".toList },
    { kind := .type, name := "A".toList, implements := some ["I".toList] },
    { kind := .type, name := "B".toList, inherits := some ["A".toList] }]

/-- The same schema with a declaration `L` that inherits from itself. -/
def selfInheriting : List Declaration :=
  { kind := .type, name := "L".toList, inherits := some ["L".toList] } :: chained

/-- The context after resolving `L`, which fails, and `B`, which succeeds. -/
def selfInheritingAsked : Context :=
  ((resolve selfInheriting {
    kind := .type, name := "B".toList, inherits := some ["A".toList] }).outcome
    ((resolve selfInheriting {
      kind := .type, name := "L".toList, inherits := some ["L".toList] }).outcome {}).2).2

/-- The theorem in a context that remembers `A` and `B`, on declarations of which one cannot be
resolved, and on the others the other way round. -/
theorem resolve_memory_invisible_selfInheriting :
    DistinctNames selfInheriting ∧ selfInheritingAsked.Reached selfInheriting ∧
      selfInheritingAsked.resolved.entries.length = 2 ∧
      (∀ d ∈ selfInheriting, ((resolve selfInheriting d).outcome selfInheritingAsked).1 =
        ((resolve selfInheriting d).outcome {}).1) ∧
      DistinctNames chained ∧ ∃ rs c c', rs.length = 3 ∧ Gives (resolveAll chained) {} rs c ∧
        Gives (resolveAll chained.reverse) {} rs.reverse c' := by
  have hds : DistinctNames selfInheriting := by decide
  have hasked : selfInheritingAsked.Reached selfInheriting :=
    (Context.Reached.fresh.resolve _ (by decide)).resolve _ (by decide)
  refine ⟨hds, hasked, by decide +kernel, (resolve_memory_invisible hds).1 _ hasked, by decide, ?_⟩
  have hout : ((resolveAll chained).outcome {}).1.toOption.map List.length = some 3 := by
    decide +kernel
  obtain ⟨rs, c, h, hlength⟩ := exists_gives_of_outcome hout
  obtain ⟨f, rfl, hperm⟩ := (resolve_memory_invisible (by decide)).2.1 rs c h
  obtain ⟨c', h'⟩ := hperm chained.reverse (List.reverse_perm chained)
  rw [List.map_reverse] at h'
  exact ⟨_, c, c', hlength, h, h'⟩

end Schemata
