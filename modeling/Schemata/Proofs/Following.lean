import Schemata.Proofs.Stacks
import Schemata.Proofs.Stored

/-!
# What was told makes no difference

Every stage of expanding a schema tells what it does, and none reads what was told.  A computation
*follows* another one if it gives whatever the other gives, with any log before it, and leaves the
same context but for the log.  Following is preserved by every way of putting computations together,
so each stage follows itself; and building instances follows building them from fewer declarations,
as long as the same templates are found.

## Main results

* `parseFragments_unheard`, `resolveAll_unheard` — reading and resolving declarations do not depend
  on the log.
* `buildPending_follows` — nor does building instances, and further declarations without type
  parameters make no difference to it.
-/

namespace Schemata

namespace Resolve

variable {α β : Type}

/-- Whatever was told before, `y` gives what `x` gives, and leaves the same context but for the
log. -/
def Follows (x y : Resolve α) : Prop :=
  ∀ ⦃c a c'⦄, Gives x c a c' → ∀ log, ∃ log', Gives y { c with log } a { c' with log := log' }

/-- What was told makes no difference to the computation. -/
def Unheard (x : Resolve α) : Prop :=
  Follows x x

/-! ### Steps -/

theorem Follows.pure (a : α) : Follows (Pure.pure a) (Pure.pure a) := by
  intro c b c' h log
  obtain ⟨rfl, rfl⟩ := gives_pure.mp h
  exact ⟨log, gives_pure.mpr ⟨rfl, rfl⟩⟩

theorem Follows.of_not_gives {x y : Resolve α} (h : ∀ c a c', ¬ Gives x c a c') : Follows x y :=
  fun c a c' hx => absurd hx (h c a c')

theorem Follows.refuse (e : SchemaError) (y : Resolve α) : Follows (Resolve.refuse e) y :=
  .of_not_gives fun _ _ _ => not_gives_refuse

theorem Follows.bind {x y : Resolve α} {f g : α → Resolve β} (hx : Follows x y)
    (hf : ∀ a, Follows (f a) (g a)) : Follows (x >>= f) (y >>= g) := by
  intro c b c' h log
  obtain ⟨a, c₁, ha, hb⟩ := gives_bind.mp h
  obtain ⟨log₁, ha'⟩ := hx ha log
  obtain ⟨log', hb'⟩ := hf a hb log₁
  exact ⟨log', gives_bind.mpr ⟨a, _, ha', hb'⟩⟩

theorem congruent_follows : Congruent Follows :=
  ⟨.pure, .bind⟩

theorem Follows.map {x y : Resolve α} (hx : Follows x y) (f : α → β) :
    Follows (f <$> x) (f <$> y) :=
  congruent_follows.map hx f

theorem Follows.get_bind {f g : Context → Resolve α}
    (h : ∀ c log, Follows (f c) (g { c with log })) : Follows (get >>= f) (get >>= g) := by
  intro c b c' hb log
  obtain ⟨_, _, ⟨rfl, rfl⟩, hb⟩ : ∃ a c₁, (c = a ∧ c = c₁) ∧ Gives (f a) c₁ b c' := by
    simpa only [gives_bind, gives_get] using hb
  obtain ⟨log', hb'⟩ := h c log hb log
  exact ⟨log', gives_bind.mpr ⟨_, _, gives_get.mpr ⟨rfl, rfl⟩, hb'⟩⟩

theorem Follows.modify {f : Context → Context} (h : ∀ c log, f { c with log } = { f c with log }) :
    Follows (modify f : Resolve Unit) (modify f) := by
  intro c u c' hc log
  obtain rfl := gives_modify.mp hc
  exact ⟨log, gives_modify.mpr (h c log)⟩

theorem Follows.tell (e e' : Event) : Follows (Resolve.tell e) (Resolve.tell e') := by
  intro c u c' hc log
  obtain rfl := gives_tell.mp hc
  exact ⟨_, gives_tell.mpr rfl⟩

theorem Follows.ofExcept {r r' : Except SchemaError α} (h : ∀ a, r = .ok a → r' = .ok a) :
    Follows (Resolve.ofExcept r) (Resolve.ofExcept r') := by
  intro c a c' hc log
  obtain ⟨hr, rfl⟩ := gives_ofExcept.mp hc
  exact ⟨log, gives_ofExcept.mpr ⟨h a hr, rfl⟩⟩

theorem Unheard.ofExcept (r : Except SchemaError α) : Unheard (Resolve.ofExcept r) :=
  Follows.ofExcept fun _ h => h

theorem Unheard.ofOutcome (r : Except Failure α) : Unheard (Resolve.ofOutcome r) := by
  intro c a c' hc log
  obtain ⟨hr, rfl⟩ := gives_ofOutcome.mp hc
  exact ⟨log, gives_ofOutcome.mpr ⟨hr, rfl⟩⟩

theorem Follows.during {κ : Type} {x y : Resolve α} (s : Stack κ) (entries : List κ)
    (h : Follows x y) : Follows (during s entries x) (during s entries y) := by
  intro c a c' hgives log
  obtain ⟨c₁, hx, rfl⟩ := gives_during.mp hgives
  obtain ⟨log', hy⟩ := h hx log
  have hpush : s.push entries { c with log } = { s.push entries c with log } := by cases s <;> rfl
  refine ⟨log', gives_during.mpr ⟨_, hpush ▸ hy, ?_⟩⟩
  cases s <;> rfl

/-! ### Traversals -/

theorem Follows.mapM {f g : α → Resolve β} {as : List α} (h : ∀ a ∈ as, Follows (f a) (g a)) :
    Follows (as.mapM f) (as.mapM g) :=
  congruent_follows.mapM h

end Resolve

open Resolve

/-! ### Reading and resolving -/

theorem pervades_unheard : Pervades Unheard where
  pure := .pure
  refuse e := .refuse e _
  bind := .bind
  get_bind {_ f} hf h := .get_bind fun c log => by
    rw [show f { c with log } = f c from hf c { c with log }]
    exact h c
  modify {f} h := .modify fun c log => by
    have hkeeps : f c = (f c).on c := h c c
    refine (h c { c with log }).trans ?_
    rw [hkeeps]
    rfl
  tell e := .tell e e
  during := .during

theorem useType_unheard (naming : Naming) (expression : Text) (letters : Option (List Text))
    (directive : Option Text) : Unheard (useType naming expression letters directive) :=
  useType_pervaded pervades_unheard (fun _ _ => .ofOutcome _) expression letters directive

theorem parseFragments_unheard (naming : Naming) (annotations : List Annotation)
    (fs : List Fragment) : Unheard (parseFragments naming annotations fs) :=
  parseFragments_pervaded pervades_unheard (fun _ _ => .ofOutcome _) annotations fs

theorem resolveAll_unheard (ds : List Declaration) : Unheard (resolveAll ds) :=
  resolveAll_pervaded pervades_unheard ds (fun hf => .get_bind fun _ _ => hf _) fun hf =>
    .get_bind fun _ _ => hf _

/-! ### Building instances -/

/-- The workshop `w'` finds the templates of `w`, and is like it in all else. -/
structure Workshop.Extends (w' w : Workshop) : Prop where
  eq : w' = { w with declarations := w'.declarations }
  templates : ∀ base core t, templateFor w.declarations base core = .ok t →
    templateFor w'.declarations base core = .ok t

section Build

variable {w w' : Workshop}

theorem Workshop.Extends.refl (w : Workshop) : w.Extends w :=
  ⟨rfl, fun _ _ _ ht => ht⟩

theorem Workshop.Extends.templateOf (h : w'.Extends w) {core : Text} {t : Declaration × List Text}
    (ht : w.templateOf core = .ok t) : w'.templateOf core = .ok t := by
  unfold Workshop.templateOf at ht ⊢
  obtain ⟨a, ha, ht⟩ := bind_eq_ok.mp ht
  obtain ⟨template, htemplate, ht⟩ := bind_eq_ok.mp ht
  refine bind_eq_ok.mpr ⟨a, ha, bind_eq_ok.mpr ⟨template, h.templates _ _ _ htemplate, ht⟩⟩

theorem lookUp_unheard (w : Workshop) (path : List Text) (core : Text) :
    Unheard (w.lookUp path core) :=
  lookUp_pervaded pervades_unheard w (fun _ _ => .ofOutcome _) path core

theorem refuseDepth_follows (w : Workshop) (path : List Text) (core name : Text)
    (y : Resolve Text) : Follows (w.refuseDepth path core name) y := by
  unfold Workshop.refuseDepth
  split
  · exact .of_not_gives fun _ _ _ => not_gives_throw
  · exact .refuse _ _

theorem buildFrom_follows (h : w'.Extends w) (room : Nat) (path : List Text) (core : Text) :
    Follows (w.buildFrom room path core) (w'.buildFrom room path core) := by
  have hlookUp : w'.lookUp = w.lookUp := by
    rw [h.eq]
    rfl
  -- both look up the same names, and the larger workshop has every template that was found
  induction room using Nat.strongRecOn generalizing path core with
  | ind room ih =>
    rw [w.buildFrom_eq, w'.buildFrom_eq, hlookUp]
    refine .bind (lookUp_unheard w path core) ?_
    rintro ⟨core, name, known⟩
    cases known with
    | true => exact .pure _
    | false =>
      cases room with
      | zero => exact refuseDepth_follows w path core name _
      | succ room =>
        refine .bind (.ofExcept fun t ht => h.templateOf ht) ?_
        rintro ⟨template, arguments⟩
        refine .bind (specialize_congruent congruent_follows (fun u => ?_) template name)
          fun d => ?_
        · have hsubstitute : w'.substituteUse = w.substituteUse := by
            rw [h.eq]
            rfl
          refine visit_congruent congruent_follows Unheard.ofExcept ?_
            (ih room room.lt_succ_self (path ++ [name]))
          rw [hsubstitute]
          exact substituteUse_composed w pervades_unheard.toComposes (useType_unheard _) _ _ u
        · have hrecord : w'.record = w.record := by
            rw [h.eq]
            rfl
          rw [hrecord]
          exact .bind (record_pervaded pervades_unheard w core name d) fun _ => .pure _

theorem buildUse_follows (h : w'.Extends w) (u : TypeUse) :
    Follows (w.buildUse u) (w'.buildUse u) := by
  have hlimit : w'.limit = w.limit := by
    rw [h.eq]
  unfold Workshop.buildUse Workshop.buildUseBy
  refine .bind (Unheard.ofExcept _) fun core => ?_
  cases core with
  | none => exact .pure _
  | some core =>
    refine .map ?_ some
    unfold Workshop.build
    rw [hlimit]
    exact .get_bind fun c log => buildFrom_follows h _ _ core

theorem buildPending_follows (h : w'.Extends w) : Follows w.buildPending w'.buildPending := by
  unfold Workshop.buildPending
  refine .get_bind fun c log => .bind (.mapM fun u _ => buildUse_follows h u) fun _ => ?_
  exact .get_bind fun c log => .bind (.tell _ _) fun _ => .pure _

end Build

end Schemata
