import Schemata.Proofs.Following
import Schemata.Proofs.Passes

/-!
# Raising the limit

How deep instances may nest is limited.  A workshop with a higher limit has more room on every path,
and the room that is left is looked at in one place only: where there is none, an instance that is
neither there nor being built is refused.  So the two workshops go the same way, step by step and
with the same context, until the lower limit refuses an instance.
-/

namespace Schemata

/-- The schema is refused because instances nest too deep. -/
def Failure.IsTooDeep (failure : Failure) : Prop :=
  ∃ e, failure = .schema e ∧ e.category = .cyclicGeneric

namespace Resolve

variable {α β : Type}

/-- In every context `y` comes to the outcome of `x`, unless `x` fails because instances nest too
deep. -/
def Outlasts (x y : Resolve α) : Prop :=
  ∀ c, y.outcome c = x.outcome c ∨ ∃ failure c', x.outcome c = (.error failure, c') ∧
    failure.IsTooDeep

theorem Outlasts.refl (x : Resolve α) : Outlasts x x :=
  fun _ => .inl rfl

theorem Outlasts.bind {x y : Resolve α} {f g : α → Resolve β} (hx : Outlasts x y)
    (hf : ∀ a, Outlasts (f a) (g a)) : Outlasts (x >>= f) (y >>= g) := by
  intro c
  rw [outcome_bind, outcome_bind]
  rcases hx c with heq | ⟨failure, c', hfail, hdeep⟩
  · rw [heq]
    rcases x.outcome c with ⟨r, c₁⟩
    cases r with
    | ok a => exact hf a c₁
    | error failure => exact .inl rfl
  · rw [hfail]
    exact .inr ⟨failure, c', rfl, hdeep⟩

theorem congruent_outlasts : Congruent Outlasts :=
  ⟨fun a => .refl (Pure.pure a), .bind⟩

theorem Outlasts.get_bind {f g : Context → Resolve α}
    (h : ∀ c, (g c).outcome c = (f c).outcome c ∨
      ∃ failure c', (f c).outcome c = (.error failure, c') ∧ failure.IsTooDeep) :
    Outlasts (get >>= f) (get >>= g) := by
  intro c
  rw [outcome_bind, outcome_bind]
  exact h c

end Resolve

open Resolve

section

variable (w : Workshop)

theorem refuseDepth_outlasts {path : List Text} (hpath : path ≠ []) (core name : Text)
    (y : Resolve Text) : Outlasts (w.refuseDepth path core name) y := by
  intro c
  cases path with
  | nil => exact absurd rfl hpath
  | cons outermost path => exact .inr ⟨_, c, rfl, _, rfl, rfl⟩

/-- **More room changes nothing** but failures because instances nest too deep: inside of an
instance, and wherever there is some room. -/
theorem buildFrom_outlasts (limit : Int) {room room' : Nat} (hroom : room ≤ room')
    {path : List Text} (hpath : path ≠ [] ∨ 0 < room) (core : Text) :
    Outlasts (w.buildFrom room path core)
      (({ w with limit } : Workshop).buildFrom room' path core) := by
  have hlookUp : ({ w with limit } : Workshop).lookUp = w.lookUp := rfl
  -- by induction on the smaller room, both being one less inside of an instance
  induction room using Nat.strongRecOn generalizing room' path core with
  | ind room ih =>
    rw [w.buildFrom_eq, Workshop.buildFrom_eq, hlookUp]
    refine .bind (.refl _) ?_
    rintro ⟨k, n, known⟩
    cases known with
    | true => exact .refl (pure n)
    | false =>
      cases room with
      | zero => exact refuseDepth_outlasts w (hpath.resolve_right (Nat.lt_irrefl 0)) k n _
      | succ room =>
        obtain ⟨room', rfl⟩ :=
          Nat.exists_eq_add_of_le' (Nat.le_trans (Nat.le_add_left 1 room) hroom)
        have htemplateOf : ({ w with limit } : Workshop).templateOf = w.templateOf := rfl
        have hsubstitute : ({ w with limit } : Workshop).substituteUse = w.substituteUse := rfl
        have hrecord : ({ w with limit } : Workshop).record = w.record := rfl
        rw [if_neg Bool.false_ne_true, if_neg Bool.false_ne_true, Workshop.buildNew,
          Workshop.buildNew, htemplateOf, hrecord]
        refine .bind (.refl _) ?_
        rintro ⟨template, arguments⟩
        refine .bind (specialize_congruent congruent_outlasts (fun u => ?_) template n)
          fun _ => .refl _
        refine visit_congruent congruent_outlasts (fun _ => .refl _) ?_
          (ih room room.lt_succ_self (Nat.le_of_succ_le_succ hroom) (.inl (by simp)))
        rw [hsubstitute]
        exact .refl _

theorem build_outlasts {limit : Int} (hone : 1 ≤ w.limit) (hle : w.limit ≤ limit) (core : Text) :
    Outlasts (w.build core) (({ w with limit } : Workshop).build core) := by
  unfold Workshop.build
  refine .get_bind fun c => ?_
  refine buildFrom_outlasts w limit (by simp only; omega) ?_ core c
  -- on the empty path there is room, as the limit admits an instance
  cases hbuilding : c.building with
  | nil =>
    refine .inr ?_
    rw [List.length_nil]
    omega
  | cons outermost path => exact .inl (List.cons_ne_nil _ _)

theorem buildUse_outlasts {limit : Int} (hone : 1 ≤ w.limit) (hle : w.limit ≤ limit) (u : TypeUse) :
    Outlasts (w.buildUse u) (({ w with limit } : Workshop).buildUse u) := by
  unfold Workshop.buildUse Workshop.buildUseBy
  refine .bind (.refl _) fun o => ?_
  cases o with
  | none => exact .refl _
  | some core => exact congruent_outlasts.map (build_outlasts w hone hle core) some

theorem buildPending_outlasts {limit : Int} (hone : 1 ≤ w.limit) (hle : w.limit ≤ limit) :
    Outlasts w.buildPending ({ w with limit } : Workshop).buildPending := by
  unfold Workshop.buildPending
  refine .bind (.refl _) fun c => ?_
  exact .bind (congruent_outlasts.mapM fun u _ => buildUse_outlasts w hone hle u) fun _ => .refl _

/-- **Raising the limit changes no success**, and no failure but those because instances nest too
deep.  In whatever context the instances of the pending uses are built, a higher limit gives the
same instances in the same order and leaves the same context; and if building them fails, but not
because instances nest too deep, then it fails in the same way. -/
theorem buildPending_of_limit_le {limit : Int} (hone : 1 ≤ w.limit) (hle : w.limit ≤ limit)
    (c : Context) :
    (∀ is c', Gives w.buildPending c is c' →
      Gives ({ w with limit } : Workshop).buildPending c is c') ∧
    ∀ failure c', w.buildPending.outcome c = (.error failure, c') →
      (∀ e, failure = .schema e → e.category ≠ .cyclicGeneric) →
        ({ w with limit } : Workshop).buildPending.outcome c = (.error failure, c') := by
  refine ⟨fun is c' hbuild => ?_, fun failure c' hfail hother => ?_⟩
  · unfold Gives at hbuild ⊢
    rcases buildPending_outlasts w hone hle c with heq | ⟨failure, c₁, hfail, -⟩
    · exact heq.trans hbuild
    · rw [hbuild] at hfail
      cases hfail
  · rcases buildPending_outlasts w hone hle c with heq | ⟨failure', c₁, hfail', e, rfl, hdeep⟩
    · exact heq.trans hfail
    · rw [hfail] at hfail'
      cases hfail'
      exact absurd hdeep (hother e rfl)

end

/-- What is refused when a template with one type parameter is given two type arguments. -/
def layeredRefusal : Failure :=
  .schema (.templateArity "Paged<T>".toList .type 1 2 "Paged<ID, ID>".toList)

/-- The theorem on instances that fill the limit of two, and on a use with too many type
arguments. -/
theorem buildPending_of_limit_le_layered :
    1 ≤ layered.limit ∧ layered.limit ≤ 64 ∧
    (∃ is c', Gives layered.buildPending (asked "Paged<ID>".toList) is c' ∧
      is.map Instance.name = ["ListID".toList, "PagedID".toList] ∧
      Gives ({ layered with limit := 64 } : Workshop).buildPending
        (asked "Paged<ID>".toList) is c') ∧
    ∃ c', layered.buildPending.outcome (asked "Paged<ID,ID>".toList) = (.error layeredRefusal, c') ∧
      ({ layered with limit := 64 } : Workshop).buildPending.outcome (asked "Paged<ID,ID>".toList) =
        (.error layeredRefusal, c') := by
  refine ⟨by decide, by decide, ?_, ?_⟩
  · have hnames : (layered.buildPending.outcome (asked "Paged<ID>".toList)).1.toOption.map
        (fun is => is.map Instance.name) = some ["ListID".toList, "PagedID".toList] := by
      decide +kernel
    obtain ⟨is, c', hbuild, his⟩ := exists_gives_of_outcome hnames
    exact ⟨is, c', hbuild, his,
      (buildPending_of_limit_le layered (by decide) (by decide) _).1 _ _ hbuild⟩
  · have hrefusal : (layered.buildPending.outcome (asked "Paged<ID,ID>".toList)).1 =
        .error layeredRefusal := by
      decide +kernel
    have hout : layered.buildPending.outcome (asked "Paged<ID,ID>".toList) = (.error layeredRefusal,
        (layered.buildPending.outcome (asked "Paged<ID,ID>".toList)).2) :=
      Prod.ext hrefusal rfl
    refine ⟨_, hout, (buildPending_of_limit_le layered (by decide) (by decide) _).2 _ _ hout ?_⟩
    rintro _ ⟨⟩
    decide

end Schemata
