import Schemata.CommandLine.Run
import Schemata.Proofs.Needed
import Schemata.Proofs.Neighbours
import Schemata.Proofs.PlainTemplates
import Schemata.Proofs.Retrying

/-!
# How an expansion can fail

A schema that cannot be expanded should be refused: the failure names what is wrong with the schema.
Two things that a user may choose can make an expansion fail in another way.  A limit below one is
met by the first instance that is asked for, when there is no outermost instance to name.  An alias
template that is not plain may be no template at all.

Nothing else does, as long as the stack holds the calls, which is left out here.  The stages are
gone through one by one, each of them composed of computations that only refuse; the two exceptions
come in where an alias is formed and where the limit is met.
-/

namespace Schemata

open Resolve List

variable {c : Context} {e : Expander} {settings : Value}

def Failure.IsRefusal (f : Failure) : Prop :=
  ∃ e, f = .schema e

/-! ### Computations that mostly refuse -/

namespace Resolve

variable {α β : Type} {E : Failure → Prop}

/-- Started in any context, the computation fails only by refusing the schema, or with a failure in
`E`. -/
def RefusesOr (E : Failure → Prop) (x : Resolve α) : Prop :=
  ∀ c, Meets x c (fun _ _ => True) fun f _ => f.IsRefusal ∨ E f

theorem pervades_refusesOr (E : Failure → Prop) : Pervades (RefusesOr E) where
  pure _ _ := trivial
  refuse e _ := .inl ⟨e, rfl⟩
  bind := by
    intro α β x f hx hf c
    rw [meets_bind]
    exact (hx c).imp (fun a c' _ => hf a c') fun _ _ h => h
  get_bind _ h c := h c c
  modify _ _ := trivial
  tell _ _ := trivial
  during _ _ hx _ := meets_during.mpr (hx _)

theorem RefusesOr.mono {E' : Failure → Prop} {x : Resolve α} (h : RefusesOr E x)
    (hE : ∀ f, E f → E' f) : RefusesOr E' x :=
  fun c => (h c).imp (fun _ _ h => h) fun f _ hf => hf.imp_right (hE f)

theorem RefusesOr.throw {f : Failure} (hf : E f) : RefusesOr E (throw f : Resolve α) :=
  fun _ => .inr hf

theorem RefusesOr.get : RefusesOr E (get : Resolve Context) :=
  fun _ => trivial

theorem RefusesOr.modify (f : Context → Context) : RefusesOr E (modify f : Resolve Unit) :=
  fun _ => trivial

theorem RefusesOr.tell (e : Event) : RefusesOr E (Resolve.tell e) :=
  .modify _

theorem RefusesOr.ofOutcome {r : Except Failure α} (hr : ∀ f, r = .error f → f.IsRefusal ∨ E f) :
    RefusesOr E (Resolve.ofOutcome r) :=
  fun _ => meets_ofOutcome.mpr ⟨fun _ _ => trivial, hr⟩

theorem RefusesOr.ofReport {r : Report α} (hr : ∀ f, r.outcome = .error f → f.IsRefusal) :
    RefusesOr E (Resolve.ofReport r) := by
  refine (pervades_refusesOr E).bind (.modify _) fun _ => ?_
  split
  · exact (pervades_refusesOr E).pure _
  · rename_i f hf
    exact fun _ => .inl (hr f hf)

end Resolve

/-! ### Naming and reading -/

section Reading

variable {E : Failure → Prop} {naming : Naming}

/-- Forming an alias fails only by refusing the schema, or with a failure in `E`. -/
def Naming.FormsOr (E : Failure → Prop) (naming : Naming) : Prop :=
  ∀ base arguments f, naming.form base arguments = .error f → f.IsRefusal ∨ E f

theorem Naming.FormsOr.refusesOr (hform : naming.FormsOr E) (base : Text) (arguments : List Text) :
    RefusesOr E (Resolve.ofOutcome (naming.form base arguments)) :=
  .ofOutcome (hform base arguments)

end Reading

/-! ### Building -/

section Building

variable {E : Failure → Prop} {w : Workshop}

/-- The limit is met without an outermost instance only if no instance may be built. -/
theorem buildFrom_refusesOr (hform : w.naming.FormsOr E) (room : Nat) (path : List Text)
    (hdepth : room = 0 → path = [] → E .noDepth) (core : Text) :
    RefusesOr E (w.buildFrom room path core) :=
  buildFrom_pervaded (pervades_refusesOr E) w hform.refusesOr room path
    (fun hroom hpath => .throw (hdepth hroom hpath)) core

theorem buildPending_refusesOr (hform : w.naming.FormsOr E) (hdepth : w.limit ≤ 0 → E .noDepth) :
    RefusesOr E w.buildPending := by
  have hP := pervades_refusesOr E
  have hbuild : ∀ core, RefusesOr E (w.build core) := by
    intro core
    refine hP.bind .get fun c => buildFrom_refusesOr hform _ _ (fun hroom hpath => hdepth ?_) core
    rw [hpath, length_nil, Int.toNat_eq_zero] at hroom
    simpa using hroom
  have huse : ∀ u, RefusesOr E (w.buildUse u) := by
    intro u
    refine hP.bind (hP.ofExcept _) fun core => ?_
    cases core with
    | none => exact hP.pure _
    | some core => exact hP.map (hbuild core) some
  refine hP.bind .get fun c => hP.bind (hP.mapM fun u _ => huse u) fun _ => ?_
  exact hP.bind .get fun c => hP.bind (.tell _) fun _ => hP.pure _

/-- With a limit below one, the first use that waits for an instance is refused in no way. -/
theorem buildUse_noDepth {u : TypeUse} {n : Text} (hlimit : w.limit ≤ 0) (hu : u.isConcrete)
    (hn : HasAlias w.naming u n) (hnames : c.NamesSound w.naming) (hbuilding : c.building = [])
    (hinstances : c.instances = {}) :
    Meets (w.buildUse u) c (fun _ _ => False) fun f _ => f = .noDepth := by
  obtain ⟨core, hcore, -, halias⟩ := hn
  obtain ⟨k, hk, -⟩ := canonical_of_aliasOf halias
  have hconcrete : Workshop.concreteCore u = .ok (some core) := by
    unfold Workshop.concreteCore
    rw [if_pos (by simpa [TypeUse.isConcrete] using hu), hcore]
    rfl
  have hroom : (w.limit - ([] : List Text).length).toNat = 0 := by
    rw [length_nil, Int.toNat_eq_zero]
    simpa using hlimit
  unfold Workshop.buildUse Workshop.buildUseBy Workshop.build
  rw [hconcrete]
  simp only [Resolve.ofExcept, pure_bind, meets_map, meets_bind, meets_get, hbuilding, hroom,
    Workshop.buildFrom, Workshop.buildWatched, Workshop.lookUp, hk]
  refine ((aliasName_computes w.naming k).meets hnames).imp ?_ ?_
  · rintro name c' ⟨⟨-, hmore⟩, -⟩
    have hnone : (c'.instances.contains name || ([] : List Text).contains name) = false := by
      rw [hmore, hinstances]
      rfl
    simp only [hnone]
    rfl
  · rintro f c' ⟨-, hf⟩
    rw [aliasOf_normal halias hk] at hf
    cases hf

/-- **What a limit below one comes to**: building what is pending fails without refusing the schema
exactly if a generic use that depends on no type parameter is written in it. -/
theorem buildPending_limit {annotations : List Annotation} {blocks : List CommentBlock}
    {fs : List Fragment} {ds : List Declaration} (h : w.Ready annotations blocks fs ds c)
    (hlimit : w.limit ≤ 0) :
    (w.buildPending.outcome c).1 = .error .noDepth ↔ ∃ u ∈ ds.flatMap Declaration.uses,
      u.isConcrete := by
  have hinstances : c.instances = {} := by
    obtain ⟨c₀, hread, hframe⟩ := h.exists_readFrom
    rw [hframe, hread.frame]
  cases hvalues : c.pending.values with
  | nil =>
    have hnone : ¬ ∃ u ∈ ds.flatMap Declaration.uses, u.isConcrete := by
      rintro ⟨u, hu, hconcrete⟩
      obtain ⟨n, -, hn⟩ := h.reads.2.2 u hu hconcrete
      obtain ⟨v, hv⟩ := Option.isSome_iff_exists.mp hn
      have hmem : v ∈ c.pending.values := mem_map_of_mem (Table.mem_of_find? hv)
      rw [hvalues] at hmem
      exact absurd hmem not_mem_nil
    have hgives : Meets w.buildPending c (fun _ _ => True) fun _ _ => False := by
      unfold Workshop.buildPending
      simp only [meets_bind, meets_get, hvalues, mapM_nil, meets_pure, meets_tell]
    obtain ⟨is, c', hout, -⟩ := hgives.exists_gives
    rw [hout]
    exact iff_of_false (fun hf => by cases hf) hnone
  | cons u us =>
    obtain ⟨n, -, hmem, hconcrete, hn⟩ := h.of_mem_pending (hvalues ▸ mem_cons_self)
    have hmeets : Meets w.buildPending c (fun _ _ => False) fun f _ => f = .noDepth := by
      unfold Workshop.buildPending
      rw [meets_bind, meets_get, hvalues, mapM_cons, meets_bind, meets_bind]
      exact (buildUse_noDepth hlimit hconcrete hn (h.stores fun _ => True).names h.building_eq
        hinstances).imp (fun _ _ h => h.elim) fun _ _ h => h
    refine ⟨fun _ => ⟨u, hmem, hconcrete⟩, fun _ => ?_⟩
    rcases hout : w.buildPending.outcome c with ⟨r, c'⟩
    cases r with
    | ok is => exact (hmeets.gives hout).elim
    | error f =>
      change Except.error f = _
      rw [hmeets.error hout]

end Building

/-! ### Reading a schema -/

section Reports

variable {α β : Type}

/-- The outcome is a result, or refuses the schema. -/
def Report.Refuses (r : Report α) : Prop :=
  ∀ f, r.outcome = .error f → f.IsRefusal

theorem Report.Refuses.of_ok {r : Report α} {a : α} (h : r.outcome = .ok a) : r.Refuses := by
  intro f hf
  rw [h] at hf
  cases hf

theorem Report.Refuses.ofExcept (r : Except SchemaError α) : (Report.ofExcept r).Refuses := by
  intro f hf
  cases r with
  | ok a => cases hf
  | error e =>
    cases hf
    exact ⟨e, rfl⟩

theorem Report.Refuses.bind {x : Report α} {g : α → Report β} (hx : x.Refuses)
    (hg : ∀ a, (g a).Refuses) : (x >>= g).Refuses := by
  intro f hf
  change (Report.andThen x g).outcome = .error f at hf
  unfold Report.andThen at hf
  split at hf
  · exact hg _ f hf
  · rename_i e he
    cases hf
    exact hx _ he

theorem tellDropped_refuses (marks : List Mark) : (tellDropped marks).Refuses := by
  induction marks with
  | nil => exact .of_ok rfl
  | cons m marks ih => exact .bind (.of_ok rfl) fun _ => ih

theorem annotate_refuses (marks : List Mark) (parent : Option (Kind × Text)) (line : Text)
    (depth : Nat) (header : Option Header) : (annotate marks parent line depth header).Refuses := by
  unfold annotate
  split
  · exact .of_ok rfl
  · split
    · exact .of_ok rfl
    · exact .of_ok rfl
    · exact .bind (.of_ok rfl) fun _ => .of_ok rfl

theorem collect_refuses (marks : List Mark) (parent : Option (Kind × Text)) (ss : List Section) :
    (collect marks parent ss).Refuses := by
  induction ss generalizing marks parent with
  | nil => exact .bind (tellDropped_refuses marks) fun _ => .of_ok rfl
  | cons s ss ih =>
    cases s with
    | passive line => exact .bind (ih _ _) fun _ => .of_ok rfl
    | definition name lines => exact .bind (ih _ _) fun _ => .of_ok rfl
    | mark line m => exact ih _ _
    | code line depth =>
      have hrest : ∀ header parent, Report.Refuses (do
          let annotations ← annotate marks parent line depth header
          let e ← collect [] parent ss
          return (⟨line :: e.kept, annotations ++ e.annotations⟩ : Extraction)) :=
        fun header parent => .bind (annotate_refuses _ _ _ _ _) fun _ =>
          .bind (ih _ _) fun _ => .of_ok rfl
      rw [collect]
      split
      · exact .bind (.ofExcept _) fun header => hrest header _
      · exact .bind (.of_ok rfl) fun header => hrest header _

theorem extract_refuses (t : Text) : (extract t).Refuses :=
  .bind (.ofExcept _) fun _ => .bind (collect_refuses _ _ _) fun _ =>
    .bind (.of_ok rfl) fun _ => .of_ok rfl

theorem readFragments_refuses (t : Text) : (readFragments t).Refuses := by
  unfold readFragments
  simp only
  split
  · exact .of_ok rfl
  · intro f hf
    cases hf
    exact ⟨_, rfl⟩

theorem locateComments_refuses (t : Text) : (locateComments t).Refuses :=
  .bind (.ofExcept _) fun _ => .bind (.of_ok rfl) fun _ => .of_ok rfl

end Reports

/-! ### All stages -/

section Expander

variable {E : Failure → Prop} {e : Expander}

theorem run_refusesOr (hform : ∀ chosen, (e.naming chosen).FormsOr E)
    (hdepth : e.limit ≤ 0 → E .noDepth) (t : Text) : RefusesOr E (e.run t) := by
  have hP := pervades_refusesOr E
  rw [e.run_eq]
  refine hP.bind (.ofReport (extract_refuses t)) fun extraction => ?_
  refine hP.bind (hP.ofExcept _) fun chosen => ?_
  refine hP.bind (.ofReport (readFragments_refuses _)) fun fragments => hP.bind ?_ fun r =>
    hP.bind (.tell _) fun _ => hP.pure _
  refine hP.bind ?_ fun r =>
    hP.bind (buildPending_refusesOr (hform chosen) hdepth) fun is => hP.pure _
  refine hP.bind (parseFragments_pervaded hP (hform chosen).refusesOr _ _) fun parsed => ?_
  refine hP.bind (.ofReport (locateComments_refuses _)) fun blocks => ?_
  exact hP.bind (resolveAll_pervaded hP _ (fun hf c => hf _ c) fun hf c => hf _ c)
    fun rs => hP.pure _

/-- With a limit below one, a schema that is read and resolved is expanded exactly if no generic use
is written in it that depends on no type parameter. -/
theorem expand_noDepth_iff {t : Text} {reading : Reading} {rs : List Declaration} {c₀ c₁ : Context}
    (hlimit : e.limit ≤ 0) (hread : Gives (e.read t) {} reading c₀)
    (hresolve : Gives (resolveAll reading.declarations) c₀ rs c₁) :
    ((e.expand t).outcome {}).1 = .error .noDepth ↔ ∃ d ∈ reading.declarations, ∃ u ∈ d.uses,
      u.isConcrete := by
  obtain ⟨blocks, fs, hfrom⟩ := readFrom_of_read hread
  have hready : (e.workshop reading.naming (rs ++ directiveDeclarations reading.annotations)).Ready
      reading.annotations blocks fs reading.declarations c₁ := ⟨c₀, rs, hfrom, hresolve, rfl⟩
  have hlast : ((e.expand t).outcome {}).1 = .error .noDepth ↔
      ((e.workshop reading.naming (rs ++ directiveDeclarations
        reading.annotations)).buildPending.outcome c₁).1 = .error .noDepth := by
    unfold Gives at hread hresolve
    unfold Expander.expand Expander.run
    simp only [bind_assoc, outcome_bind, hread, hresolve]
    rcases (e.workshop reading.naming
      (rs ++ directiveDeclarations reading.annotations)).buildPending.outcome c₁ with ⟨r, c'⟩
    cases r with
    | ok is => exact iff_of_false (fun hf => by cases hf) fun hf => by cases hf
    | error f => simp only [Except.error.injEq]
  rw [hlast, buildPending_limit hready hlimit]
  simp only [mem_flatMap]
  constructor
  · rintro ⟨u, ⟨d, hd, hu⟩, hconcrete⟩
    exact ⟨d, hd, u, hu, hconcrete⟩
  · rintro ⟨d, hd, u, hu, hconcrete⟩
    exact ⟨u, ⟨d, hd, hu⟩, hconcrete⟩

end Expander

/-! ### What a user may choose -/

namespace Settings

/-- The alias templates that a user gives, by key. -/
def templates (settings : Value) : List (Text × Value) :=
  let given : Except Failure (List (Text × Value)) := do
    let generics ← sectionOf settings genericsKey
    ((← generics.get? aliasesKey).getD (.mapping [])).entries
  given.toOption.getD []

def IsPlain : Value → Prop
  | .text t => Template.IsPlain t
  | _ => False

/-- A failure of an expansion that is no refusal of the schema, and what it comes from. -/
inductive Escape (settings : Value) (limit : Int) : Failure → Prop
  | noDepth (low : limit ≤ 0) : Escape settings limit .noDepth
  | template {key : Text} {template : Value} {arguments : List Text} {f : Failure}
      (given : (key, template) ∈ templates settings) (notPlain : ¬ IsPlain template)
      (fails : AliasRule.ofTemplate template arguments = .error f) (notRefused : ¬ f.IsRefusal) :
      Escape settings limit f

theorem named_of_expander (h : expander settings = .ok e) :
    e.general = none ∧ e.named.entries = (templates settings).map fun p =>
      (p.1, AliasRule.ofTemplate p.2) := by
  unfold expander at h
  obtain ⟨output, houtput, h⟩ := bind_eq_ok.mp h
  obtain ⟨generics, hgenerics, h⟩ := bind_eq_ok.mp h
  obtain ⟨named, hnamed, h⟩ := bind_eq_ok.mp h
  obtain ⟨indent, -, h⟩ := bind_eq_ok.mp h
  obtain ⟨separator, -, h⟩ := bind_eq_ok.mp h
  obtain ⟨limit, -, h⟩ := bind_eq_ok.mp h
  cases h
  refine ⟨rfl, ?_⟩
  unfold aliasRules at hnamed
  obtain ⟨o, ho, hnamed⟩ := bind_eq_ok.mp hnamed
  have htemplates : templates settings = ((o.getD (.mapping [])).entries.toOption).getD [] := by
    unfold templates
    simp only [hgenerics, ho, bind, Except.bind]
  rw [htemplates]
  cases o with
  | none =>
    cases hnamed
    rfl
  | some v =>
    simp only at hnamed
    split_ifs at hnamed with hgiven
    · obtain ⟨es, hes, hnamed⟩ := bind_eq_ok.mp hnamed
      cases hnamed
      rw [Option.getD_some, hes]
      rfl
    · cases hnamed
      -- what is not given is an empty mapping, or none
      cases v with
      | mapping es =>
        have hes : es = [] := by simpa [Value.isGiven] using hgiven
        rw [hes]
        rfl
      | _ => rfl

/-- Aliases are formed by templates: what is no refusal comes from one that is not plain. -/
theorem formsOr_of_expander (h : expander settings = .ok e) (chosen : Table Text Text) :
    (e.naming chosen).FormsOr (Escape settings e.limit) := by
  obtain ⟨hgeneral, hnamed⟩ := named_of_expander h
  intro base arguments f hf
  unfold Naming.form at hf
  split at hf
  · cases hf
    exact .inl ⟨_, rfl⟩
  · cases hf
  · rename_i rule hrule
    unfold Naming.ruleFor at hrule
    split at hrule
    · rw [Expander.naming, hgeneral] at hrule
      cases hrule
    · split at hrule
      · rename_i found hfound
        cases hrule
        have hmem := Table.mem_of_find? hfound
        rw [Expander.naming, hnamed] at hmem
        obtain ⟨⟨key, template⟩, hgiven, heq⟩ := mem_map.mp hmem
        obtain ⟨-, rfl⟩ := Prod.mk.inj heq
        by_cases hrefusal : f.IsRefusal
        · exact .inl hrefusal
        · refine .inr (.template hgiven (fun hplain => hrefusal ?_) hf hrefusal)
          cases template with
          | text t => exact ⟨_, Template.expand_eq_error hplain (map_eq_error hf)⟩
          | _ => exact hplain.elim
      · cases hrule

/-- The format of exported declarations is there wherever the settings describe an expander. -/
theorem format_of_expander (h : expander settings = .ok e) :
    ∃ format, Settings.format settings = .ok format := by
  unfold expander at h
  obtain ⟨output, houtput, h⟩ := bind_eq_ok.mp h
  obtain ⟨generics, -, h⟩ := bind_eq_ok.mp h
  obtain ⟨named, -, h⟩ := bind_eq_ok.mp h
  obtain ⟨indent, hindent, -⟩ := bind_eq_ok.mp h
  obtain ⟨o, ho, -⟩ := bind_eq_ok.mp hindent
  obtain ⟨es, hes, -⟩ := map_eq_ok ho
  have hget : output.get? formatKey = .ok (Table.find? formatKey es) := by
    rw [Value.get?, hes]
    rfl
  unfold Settings.format
  simp only [houtput, hget, bind, Except.bind]
  split <;> exact ⟨_, rfl⟩

end Settings

/-! ### The command -/

namespace CommandLine

theorem outcome_expand {schema : Location} {i : Invocation} {read : Location → Option Content}
    {content : Content} {t : Text} (hread : read schema = some content)
    (hsettings : (Settings.load i.settings read).outcome = .ok settings)
    (he : Settings.expander settings = .ok e) (ht : content.text = .ok t) :
    (expand schema i read).outcome =
      (conclude schema i ((produce i settings e t).outcome {}).1).outcome := by
  have htell : ∀ log : Log, (log.forM Report.tell).outcome = .ok () := by
    intro log
    induction log with
    | nil => rfl
    | cons event log ih =>
      change (Report.tell event >>= fun _ => log.forM Report.tell).outcome = _
      rw [Report.outcome_bind (rfl : (Report.tell event).outcome = .ok ())]
      exact ih
  unfold expand
  simp only [hread]
  rw [Report.outcome_bind hsettings, he, Report.outcome_bind rfl, ht, Report.outcome_bind rfl]
  exact Report.outcome_bind (htell _) _

/-- A result is written, and a schema that is refused ends the run with status one. -/
theorem conclude_of_refusesOr {E : Failure → Prop} {x : Resolve Output} (h : RefusesOr E x)
    (schema : Location) {i : Invocation} (hfile : ∀ file, i.output = some file → file.isNameable)
    (c : Context) :
    (∃ effect, (conclude schema i (x.outcome c).1).outcome = .ok effect ∧
      (effect.status = 0 ∨ effect.status = 1)) ∨
      ∃ f, (conclude schema i (x.outcome c).1).outcome = .error f ∧ E f := by
  rcases hout : x.outcome c with ⟨r, c'⟩
  cases r with
  | ok result =>
    left
    simp only [conclude]
    split
    · rename_i file hout
      rw [if_pos (hfile file hout)]
      exact ⟨_, rfl, .inl rfl⟩
    · exact ⟨_, rfl, .inl rfl⟩
  | error f =>
    have hf := (h c).error hout
    cases f with
    | schema e => exact .inl ⟨.fail, rfl, .inr rfl⟩
    | _ =>
      rcases hf with ⟨e, he⟩ | hf
      · cases he
      · exact .inr ⟨_, rfl, hf⟩

end CommandLine

/-- **Expanding fails only by refusing the schema, with two exceptions.**  Whatever expander a
user's settings describe and whatever the schema, expanding it and exporting its declarations come
to a result, refuse the schema, or fail because the limit is below one or because a template that is
not plain cannot be filled.  So the command ends with status zero or one except for these two.  With
a limit below one, a schema that is read and resolved fails exactly if it asks for an instance.  How
deep calls may nest is not part of this: a stack that is too small for a schema is left out. -/
theorem expander_fails_only {settings : Value} {e : Expander}
    (h : Settings.expander settings = .ok e) (t : Text) :
    RefusesOr (Settings.Escape settings e.limit) (e.expand t) ∧
    RefusesOr (Settings.Escape settings e.limit) (e.declarations t) ∧
    (∀ schema i read, (Settings.load i.settings read).outcome = .ok settings →
      (∀ content, read schema = some content → content.text = .ok t) →
      (∀ file, i.output = some file → file.isNameable = true) →
      (∃ effect, (CommandLine.expand schema i read).outcome = .ok effect ∧
          (effect.status = 0 ∨ effect.status = 1)) ∨
        ∃ f, (CommandLine.expand schema i read).outcome = .error f ∧
          Settings.Escape settings e.limit f) ∧
    (e.limit ≤ 0 → ∀ reading rs c₀ c₁, Gives (e.read t) {} reading c₀ →
      Gives (resolveAll reading.declarations) c₀ rs c₁ →
      (((e.expand t).outcome {}).1 = .error .noDepth ↔
        ∃ d ∈ reading.declarations, ∃ u ∈ d.uses, u.isConcrete = true)) := by
  have hP := pervades_refusesOr (Settings.Escape settings e.limit)
  have hrun : RefusesOr (Settings.Escape settings e.limit) (e.run t) :=
    run_refusesOr (Settings.formsOr_of_expander h) .noDepth t
  have hexpand : RefusesOr (Settings.Escape settings e.limit) (e.expand t) :=
    hP.bind hrun fun _ => hP.bind (.tell _) fun _ => hP.pure _
  have hdeclarations : RefusesOr (Settings.Escape settings e.limit) (e.declarations t) :=
    hP.bind hrun fun _ => hP.pure _
  refine ⟨hexpand, hdeclarations, ?_, fun hlimit _ _ _ _ => expand_noDepth_iff hlimit⟩
  intro schema i read hsettings htext hfile
  cases hread : read schema with
  | none =>
    refine .inl ⟨.missing schema, ?_, .inr rfl⟩
    unfold CommandLine.expand
    rw [hread]
    rfl
  | some content =>
    rw [CommandLine.outcome_expand hread hsettings h (htext content hread)]
    refine CommandLine.conclude_of_refusesOr ?_ schema hfile {}
    unfold CommandLine.produce
    split
    · refine hP.bind (.ofOutcome ?_) fun format => hP.bind hdeclarations fun _ => hP.pure _
      intro f hf
      obtain ⟨format, hformat⟩ := Settings.format_of_expander h
      cases hi : i.format with
      | none =>
        rw [hi, Option.map_none, Option.getD_none, hformat] at hf
        cases hf
      | some g =>
        rw [hi, Option.map_some, Option.getD_some] at hf
        cases hf
    · exact hP.bind hexpand fun _ => hP.pure _

/-- A template that chooses how its instances are named, and a use of it. -/
def pagedSchema : Text :=
  "@alias(page)\ntype Paged<T> \x7b items: [T] \x7d\ntype Query \x7b a: Paged<ID> \x7d".toList

/-- Settings with a limit and an alias template. -/
def pageSettings (limit : Int) (template : Text) : Value :=
  .mapping [(Settings.genericsKey, .mapping
    [(Settings.depthKey, .int limit), (Settings.aliasesKey,
      .mapping [("page".toList, .text template)])])]

/-- The expander that these settings describe. -/
def pageExpander (limit : Int) (template : Text) : Expander :=
  { named := ⟨[("page".toList, AliasRule.ofTemplate (.text template))]⟩, limit }

theorem expander_pageSettings (limit : Int) (template : Text) :
    Settings.expander (pageSettings limit template) = .ok (pageExpander limit template) :=
  rfl

/-- The template for `ItemPage` and the like. -/
def pageTemplate : Text :=
  "\x7b0\x7dPage".toList

theorem isPlain_pageTemplate : Template.IsPlain pageTemplate := by
  refine ⟨[.field ['0'], .char 'P', .char 'a', .char 'g', .char 'e'], rfl, ?_, rfl⟩
  intro name hname
  obtain rfl : name = ['0'] := by simpa using hname
  refine ⟨forall_mem_of_all rfl, ?_⟩
  intro n hn
  cases hn
  decide

/-- The theorem for a limit and a template that leave nothing but refusals. -/
theorem expander_fails_only_pageTemplate :
    RefusesOr (fun _ => False) ((pageExpander 1 pageTemplate).expand pagedSchema) ∧
      RefusesOr (fun _ => False) ((pageExpander 1 pageTemplate).declarations pagedSchema) := by
  have hnone : ∀ f, Settings.Escape (pageSettings 1 pageTemplate) 1 f → False := by
    intro f hf
    cases hf with
    | noDepth low => exact absurd low (by decide)
    | template given notPlain _ _ =>
      obtain ⟨-, rfl⟩ := Prod.mk.inj (List.mem_singleton.mp given)
      exact notPlain isPlain_pageTemplate
  obtain ⟨hexpand, hdeclarations, -, -⟩ :=
    expander_fails_only (expander_pageSettings 1 pageTemplate) pagedSchema
  exact ⟨hexpand.mono hnone, hdeclarations.mono hnone⟩

theorem not_refusesOr_of_outcome {α : Type} {x : Resolve α} {c : Context} {f : Failure}
    (h : (x.outcome c).1 = .error f) (hf : ¬ f.IsRefusal) : ¬ RefusesOr (fun _ => False) x := by
  intro hx
  rcases hout : x.outcome c with ⟨r, c'⟩
  rw [hout] at h
  obtain rfl : r = .error f := h
  exact (hx c).error hout |>.elim hf id

/-- With a limit of zero, and with a brace for a template, the schema is neither expanded nor
refused. -/
theorem not_refused_loneBrace :
    ¬ RefusesOr (fun _ => False) ((pageExpander 0 pageTemplate).expand pagedSchema) ∧
      ¬ RefusesOr (fun _ => False) ((pageExpander 1 "\x7b".toList).expand pagedSchema) := by
  constructor
  · refine @not_refusesOr_of_outcome _ _ {} .noDepth (by decide +kernel) ?_
    rintro ⟨e, he⟩
    cases he
  · refine @not_refusesOr_of_outcome _ _ {} .malformedTemplate (by decide +kernel) ?_
    rintro ⟨e, he⟩
    cases he

end Schemata
