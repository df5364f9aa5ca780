import Schemata.Declaration.Parse
import Schemata.Inheritance
import Schemata.Instance
import Schemata.Proofs.Aliases

/-!
# What the stages of a run inherit from their steps

Every stage of expanding a schema is put together from a few kinds of steps: it gives a result,
refuses the schema, reads or changes what is remembered, or tells what it does.  A property that
sequences inherit from their parts is a property of the whole stage once the steps have it.  None of
the steps reads the log.

## Main results

* `parseFragment_composed`, `specialize_congruent` — reading a declaration and copying a template
  inherit what the uses of types in them have.
* `parseFragments_pervaded`, `resolveAll_pervaded` — so do reading and resolving all declarations
  from their steps.
-/

namespace Schemata

open Resolve

/-! ### Declarations -/

section Parse

variable {naming : Naming} {annotations : List Annotation} {d : Declaration}
  {P : {α : Type} → Resolve α → Prop}

theorem parseArgument_composed (hP : Composes P) (huse : ∀ e ls o, P (useType naming e ls o))
    (t : Text) : P (parseArgument naming d t) := by
  unfold parseArgument
  split
  · exact hP.refuse _
  · simp only
    split_ifs
    · refine hP.bind (hP.ofExcept _) fun value => ?_
      exact hP.bind (huse _ _ _) fun u => hP.pure _
    · exact hP.refuse _

theorem parseArguments_composed (hP : Composes P) (huse : ∀ e ls o, P (useType naming e ls o))
    (t rest : Text) : P (parseArguments naming d t rest) := by
  unfold parseArguments
  split_ifs
  · refine hP.bind (hP.ofExcept _) fun o => ?_
    cases o with
    | none => exact hP.refuse _
    | some p =>
      refine hP.bind (hP.ofExcept _) fun pieces => ?_
      exact hP.bind (hP.mapM fun a _ => parseArgument_composed hP huse a) fun as => hP.pure _
  · exact hP.pure _

theorem parseField_composed (hP : Composes P) (huse : ∀ e ls o, P (useType naming e ls o))
    (t : Text) : P (parseField naming annotations d t) := by
  unfold parseField
  refine hP.bind (hP.ofExcept _) fun p => ?_
  simp only
  split
  · exact hP.refuse _
  · refine hP.bind (parseArguments_composed hP huse _ _) fun r => ?_
    split
    · exact hP.pure _
    · refine hP.bind (hP.ofExcept _) fun value => ?_
      exact hP.bind (huse _ _ _) fun u => hP.pure _
    · exact hP.pure _
    · exact hP.refuse _

theorem parseItems_composed (hP : Composes P) (huse : ∀ e ls o, P (useType naming e ls o))
    (items comments : List Text) (description : Option Text) :
    P (parseItems naming annotations d comments description items) := by
  induction items generalizing comments description with
  | nil => exact hP.pure _
  | cons item items ih =>
    rw [parseItems]
    split_ifs
    · exact ih _ _
    · exact ih _ _
    · refine hP.bind (parseField_composed hP huse item) fun f => ?_
      exact hP.bind (ih _ _) fun r => hP.pure _

theorem parseUnion_composed (hP : Composes P) (huse : ∀ e ls o, P (useType naming e ls o))
    (rest : Text) : P (parseUnion naming d rest) := by
  unfold parseUnion
  refine hP.bind (hP.ofExcept _) fun o => ?_
  cases o with
  | none => exact hP.pure _
  | some p =>
    refine hP.bind (hP.ofExcept _) fun parts => ?_
    exact hP.bind (hP.mapM fun m _ => huse m _ _) fun ms => hP.pure _

/-- **Reading a declaration** inherits what reading the type expressions in it has. -/
theorem parseFragment_composed (hP : Composes P) (huse : ∀ e ls o, P (useType naming e ls o))
    (f : Fragment) : P (parseFragment naming annotations f) := by
  unfold parseFragment
  refine hP.bind (hP.ofExcept _) fun o => ?_
  cases o with
  | none => exact hP.refuse _
  | some h =>
    simp only
    split_ifs
    · exact hP.refuse _
    · exact parseUnion_composed hP huse _
    · exact hP.pure _
    · refine hP.bind (hP.ofExcept _) fun d => ?_
      exact hP.bind (parseItems_composed hP huse _ _ _) fun r => hP.pure _

end Parse

/-! ### Templates -/

theorem specialize_congruent {R : {α : Type} → Resolve α → Resolve α → Prop} (hR : Congruent R)
    {visit visit' : TypeUse → Resolve TypeUse} (h : ∀ u, R (visit u) (visit' u))
    (template : Declaration) (name : Text) :
    R (template.specialize name visit) (template.specialize name visit') := by
  have hfield : ∀ f : Field, R (f.mapUses visit) (f.mapUses visit') := by
    intro f
    unfold Field.mapUses
    refine hR.bind (hR.option_mapM fun as _ => hR.mapM fun a _ => ?_) fun arguments => ?_
    · exact hR.bind (h a.type) fun type => hR.pure _
    · exact hR.bind (hR.option_mapM fun u _ => h u) fun type => hR.pure _
  unfold Declaration.specialize
  refine hR.bind (hR.mapM fun f _ => hfield f) fun fields => ?_
  exact hR.bind (hR.option_mapM fun ms _ => hR.mapM fun u _ => h u) fun members => hR.pure _

theorem specialize_composed {P : {α : Type} → Resolve α → Prop} (hP : Composes P)
    {visit : TypeUse → Resolve TypeUse} (h : ∀ u, P (visit u)) (template : Declaration)
    (name : Text) : P (template.specialize name visit) :=
  @specialize_congruent (fun x _ => P x) hP.congruent visit visit h template name

theorem substituteUse_composed {P : {α : Type} → Resolve α → Prop} (w : Workshop) (hP : Composes P)
    (huse : ∀ e ls o, P (useType w.naming e ls o)) (parameters arguments : List Text)
    (u : TypeUse) : P (w.substituteUse parameters arguments u) := by
  unfold Workshop.substituteUse
  split
  · exact hP.bind (hP.ofExcept _) fun e => huse _ _ _
  · exact hP.pure _

theorem visit_congruent {R : {α : Type} → Resolve α → Resolve α → Prop} (hR : Congruent R)
    (hread : ∀ {α : Type} (r : Except SchemaError α), R (Resolve.ofExcept r) (Resolve.ofExcept r))
    {w w' : Workshop} {build build' : Text → Resolve Text} {parameters arguments : List Text}
    {u : TypeUse}
    (huse : R (w.substituteUse parameters arguments u) (w'.substituteUse parameters arguments u))
    (hbuild : ∀ core, R (build core) (build' core)) :
    R (w.visit build parameters arguments u) (w'.visit build' parameters arguments u) := by
  refine hR.bind huse fun u => hR.bind (hread _) fun core => ?_
  cases core with
  | none => exact hR.pure _
  | some core => exact hR.bind (hbuild core) fun _ => hR.pure _

/-! ### Ancestors -/

section Ancestors

variable {ds : List Declaration} {d : Declaration}
  {visit visit' : (a : Declaration) → (∃ name, ancestor ds d name = .ok a) → Resolve Declaration}

theorem visitAncestors_congruent {R : {α : Type} → Resolve α → Resolve α → Prop} (hR : Congruent R)
    (hrefuse : ∀ e, R (α := Declaration) (Resolve.refuse e) (Resolve.refuse e))
    (h : ∀ a ha, R (visit a ha) (visit' a ha)) :
    R (visitAncestors ds d visit) (visitAncestors ds d visit') := by
  refine hR.mapM fun name _ => ?_
  split
  · exact hrefuse _
  · exact h _ _

theorem visitAncestors_composed {P : {α : Type} → Resolve α → Prop} (hP : Composes P)
    (h : ∀ a ha, P (visit a ha)) : P (visitAncestors ds d visit) :=
  @visitAncestors_congruent ds d visit visit (fun x _ => P x) hP.congruent hP.refuse h

end Ancestors

/-! ### All stages -/

/-- A context with what was told and the stacks of another one. -/
def Context.on (c c₀ : Context) : Context :=
  { c with
    log := c₀.log
    resolving := c₀.resolving
    closing := c₀.closing
    building := c₀.building }

/-- A property that all steps of a computation have, most of which look at the tables only, and that
sequences inherit. -/
structure Resolve.Pervades (P : {α : Type} → Resolve α → Prop) : Prop extends Composes P where
  get_bind : ∀ {α : Type} {f : Context → Resolve α}, (∀ c c₀ : Context, f (c.on c₀) = f c) →
    (∀ c, P (f c)) → P (get >>= f)
  modify : ∀ {f : Context → Context}, (∀ c c₀ : Context, f (c.on c₀) = (f c).on c₀) →
    P (modify f : Resolve Unit)
  tell : ∀ e, P (Resolve.tell e)
  during : ∀ {κ α : Type} {x : Resolve α} (s : Stack κ) (entries : List κ), P x →
    P (Resolve.during s entries x)

/-- A property that a computation has which looks at a stack and goes on with one that has it. -/
def Resolve.Admits {κ : Type} (s : Stack κ) (P : {α : Type} → Resolve α → Prop) : Prop :=
  ∀ {α : Type} {f : List κ → Resolve α}, (∀ path, P (f path)) → P (get >>= fun c => f (s.read c))

section Pervades

variable {P : {α : Type} → Resolve α → Prop} (hP : Pervades P)

include hP

section Naming

variable {naming : Naming} (hform : ∀ base arguments,
    P (Resolve.ofOutcome (naming.form base arguments)))

include hform

theorem aliasName_pervaded (core : Text) : P (aliasName naming core) := by
  -- an argument that is generic itself has fewer angles
  induction hk : angles core using Nat.strongRecOn generalizing core with
  | _ k ih =>
    subst hk
    rw [aliasName_eq]
    refine hP.ofExcept_bind fun normal hn => hP.get_bind (fun _ _ => rfl) fun c => ?_
    split
    · exact hP.pure _
    · refine hP.ofExcept_bind fun a ha => ?_
      unfold nameApplication
      split
      · exact hP.refuse _
      · refine hP.bind (hP.mapM fun argument hm => hP.ofExcept_bind fun d hd => ?_) fun names => ?_
        · split
          · exact ih _ (angles_core_lt hn ha hm hd) d.core rfl
          · exact hP.pure _
        · refine hP.bind (hform _ _) fun formed => hP.bind (hP.ofExcept _) fun name => ?_
          exact hP.bind (hP.modify fun _ _ => rfl) fun _ => hP.pure _

theorem useType_pervaded (expression : Text) (letters : Option (List Text))
    (directive : Option Text) : P (useType naming expression letters directive) := by
  unfold useType
  refine hP.bind (hP.ofExcept _) fun cut => hP.bind (hP.ofExcept _) fun decorated => ?_
  simp only
  split
  · exact hP.pure _
  · refine hP.bind (hP.ofExcept _) fun a => ?_
    split
    · exact hP.refuse _
    · split
      · exact hP.pure _
      · refine hP.bind (aliasName_pervaded hP hform _) fun name => ?_
        exact hP.bind (hP.modify fun _ _ => rfl) fun _ => hP.pure _

theorem parseFragments_pervaded (annotations : List Annotation) (fs : List Fragment) :
    P (parseFragments naming annotations fs) := by
  refine hP.bind (hP.mapM fun f _ => ?_) fun ds => hP.bind (hP.tell _) fun _ => hP.pure _
  exact parseFragment_composed hP.toComposes (useType_pervaded hP hform) f

end Naming

theorem record_pervaded (w : Workshop) (core name : Text) (d : Declaration) :
    P (w.record core name d) :=
  hP.bind (hP.modify fun _ _ => rfl) fun _ => hP.tell _

section Building

variable (w : Workshop)
  (hform : ∀ base arguments, P (Resolve.ofOutcome (w.naming.form base arguments)))

include hform

theorem lookUp_pervaded (path : List Text) (core : Text) : P (w.lookUp path core) := by
  refine hP.bind (hP.ofExcept _) fun core =>
    hP.bind (aliasName_pervaded hP hform core) fun name => ?_
  exact hP.get_bind (fun _ _ => rfl) fun c => hP.pure _

theorem visit_pervaded {build : Text → Resolve Text} (hbuild : ∀ core, P (build core))
    (parameters arguments : List Text) (u : TypeUse) :
    P (w.visit build parameters arguments u) :=
  @visit_congruent (fun x _ => P x) hP.congruent hP.ofExcept w w build build _ _ _
    (substituteUse_composed w hP.toComposes (useType_pervaded hP hform) _ _ u) hbuild

theorem buildFrom_pervaded (room : Nat) (path : List Text)
    (hdepth : room = 0 → path = [] → P (throw .noDepth : Resolve Text)) (core : Text) :
    P (w.buildFrom room path core) := by
  induction room generalizing path core with
  | zero =>
    refine hP.bind (lookUp_pervaded hP w hform path core) fun r => ?_
    obtain ⟨core, name, known⟩ := r
    cases known with
    | true => exact hP.pure _
    | false =>
      cases path with
      | nil => exact hdepth rfl rfl
      | cons => exact hP.refuse _
  | succ room ih =>
    refine hP.bind (lookUp_pervaded hP w hform path core) fun r => ?_
    obtain ⟨core, name, known⟩ := r
    cases known with
    | true => exact hP.pure _
    | false =>
      refine hP.bind (hP.ofExcept _) fun t => hP.bind (hP.during _ _ ?_) fun d => ?_
      · refine hP.bind (hP.pure ()) fun _ => specialize_composed hP.toComposes (fun u => ?_) _ _
        refine visit_pervaded hP w hform (fun core => ih _ (fun _ hnil => ?_) core) _ _ u
        exact absurd hnil (by simp)
      · exact hP.bind (record_pervaded hP w core name d) fun _ => hP.pure _

end Building

section Resolving

variable (ds : List Declaration)

theorem closureFrom_pervaded (path : List Text) (owner : Option (Kind × Text)) (name : Text) :
    P (closureFrom ds path owner name) := by
  induction hk : unvisited (ds.map Declaration.baseName) path using Nat.strongRecOn
    generalizing path owner name with
  | _ k ih =>
    subst hk
    rw [closureFrom]
    refine hP.get_bind (fun _ _ => rfl) fun c => ?_
    split
    · exact hP.pure _
    · split
      · exact hP.refuse _
      · rename_i i hi
        split
        · exact hP.refuse _
        · rename_i hp
          refine hP.bind (hP.during _ _ (hP.mapM fun n _ => ?_)) fun found =>
            hP.bind (hP.modify fun _ _ => rfl) fun _ => hP.pure _
          exact ih _ (unvisited_append_lt (mem_baseNames_of_interfaceNamed? hi) hp) _ _ n rfl

variable (hclosing : Admits .closing P)

include hclosing

theorem closure_pervaded (owner : Option (Kind × Text)) (name : Text) : P (closure ds owner name) :=
  hclosing (f := fun path => closureFrom ds path owner name) fun path =>
    closureFrom_pervaded hP ds path owner name

theorem closeInterfaces_pervaded (d : Declaration) (names : List Text) :
    P (closeInterfaces ds d names) := by
  unfold closeInterfaces
  split
  · exact hP.pure _
  · refine hP.bind (hP.during _ _ (hP.mapM fun n _ => closure_pervaded hP ds hclosing _ n))
      fun found => ?_
    exact hP.bind (hP.tell _) fun _ => hP.pure _

theorem flatten_pervaded (d : Declaration) (rs : List Declaration) : P (flatten ds d rs) :=
  hP.bind (closeInterfaces_pervaded hP ds hclosing _ _) fun _ => hP.pure _

theorem resolveFrom_pervaded (path : List Declaration.Key) (d : Declaration) :
    P (resolveFrom ds path d) := by
  induction hk : inheritanceMeasure ds path d using Nat.strongRecOn generalizing path d with
  | _ k ih =>
    subst hk
    rw [resolveFrom]
    split
    · rename_i he
      refine hP.bind (visitAncestors_composed hP.toComposes fun a ha => ?_) fun rs =>
        flatten_pervaded hP ds hclosing d rs
      obtain ⟨name, ha⟩ := ha
      exact ih _ (inheritanceMeasure_extend_lt he (mem_candidates_of_ancestor ha) path) _ _ rfl
    · refine hP.get_bind (fun _ _ => rfl) fun c => ?_
      split
      · exact hP.pure _
      · split
        · exact hP.refuse _
        · rename_i hp
          refine hP.bind (hP.during _ _ (visitAncestors_composed hP.toComposes fun a ha => ?_))
            fun rs => hP.bind (flatten_pervaded hP ds hclosing d rs) fun r =>
              hP.bind (hP.modify fun _ _ => rfl) fun _ => hP.pure _
          obtain ⟨name, ha⟩ := ha
          exact ih _ (inheritanceMeasure_append_lt hp (mem_candidates_of_ancestor ha)) _ _ rfl

theorem resolveAll_pervaded (hresolving : Admits .resolving P) : P (resolveAll ds) := by
  refine hP.bind (hP.mapM fun d _ => ?_) fun rs => hP.bind (hP.tell _) fun _ => hP.pure _
  exact hresolving (f := fun path => resolveFrom ds path d) fun path =>
    resolveFrom_pervaded hP ds hclosing path d

end Resolving

end Pervades

end Schemata
