import Mathlib.Data.List.Forall2
import Schemata.Context

/-!
# Computations in a context

A computation of `Resolve` takes the context of a run and leaves another one.  `Resolve.Gives` says
that it succeeds, with which result, and in which context; `Resolve.Meets` says what holds after it,
whether it succeeds or fails.  One lemma for each way to put computations together takes these
apart, so that a proof about a computation never looks inside the monad.

## Main results

* `Resolve.gives_bind` — a sequence succeeds exactly if its parts do, one after the other.
* `Resolve.Meets.collect` — a traversal collects what its steps collect; `Resolve.Gives.mapM` and
  `Resolve.Meets.mapM` say so of what every step preserves.
-/

namespace Schemata

open List

variable {c c' : Context}
variable {α β : Type} {R : α → β → Prop} {as : List α} {bs : List β} {a : α} {x : Resolve α}
  {f : α → Resolve β} {r : Except Failure α}

/-! ### Two lists side by side -/

theorem exists_right_of_forall₂ (h : Forall₂ R as bs) (ha : a ∈ as) : ∃ b ∈ bs, R a b := by
  induction h with
  | nil => exact absurd ha not_mem_nil
  | cons hab _ ih =>
    rcases mem_cons.mp ha with rfl | ha
    · exact ⟨_, mem_cons_self, hab⟩
    · obtain ⟨b, hb, hab⟩ := ih ha
      exact ⟨b, mem_cons_of_mem _ hb, hab⟩

theorem exists_left_of_forall₂ (h : Forall₂ R as bs) {b : β} (hb : b ∈ bs) : ∃ a ∈ as, R a b :=
  exists_right_of_forall₂ h.flip hb

theorem exists_between_of_forall₂ {γ : Type} {P : α → β → Prop} {R : β → γ → Prop}
    {cs : List γ} (h : Forall₂ (fun a c => ∃ b, P a b ∧ R b c) as cs) :
    ∃ bs, Forall₂ P as bs ∧ Forall₂ R bs cs := by
  induction h with
  | nil => exact ⟨[], .nil, .nil⟩
  | cons hac _ ih =>
    obtain ⟨b, hab, hbc⟩ := hac
    obtain ⟨bs, hl, hr⟩ := ih
    exact ⟨b :: bs, .cons hab hl, .cons hbc hr⟩

theorem forall₂_comp {γ : Type} {P : α → β → Prop} {R : β → γ → Prop}
    {cs : List γ} (h : Forall₂ P as bs) (h' : Forall₂ R bs cs) :
    Forall₂ (fun a c => ∃ b, P a b ∧ R b c) as cs := by
  induction h generalizing cs with
  | nil =>
    cases h'
    exact .nil
  | cons hab _ ih =>
    cases h' with
    | cons hbc h' => exact .cons ⟨_, hab, hbc⟩ (ih h')

theorem forall₂_zip {γ : Type} {P : α → β → Prop} {R : α → γ → Prop} {cs : List γ}
    (h : Forall₂ P as bs) (h' : Forall₂ R as cs) :
    Forall₂ (fun a q => P a q.1 ∧ R a q.2) as (bs.zip cs) := by
  induction h generalizing cs with
  | nil => exact .nil
  | cons hab _ ih =>
    cases h' with
    | cons hac h' => exact .cons ⟨hab, hac⟩ (ih h')

theorem forall₂_imp_of_mem {R S : α → β → Prop}
    (h : Forall₂ R as bs) (hRS : ∀ a ∈ as, ∀ b, R a b → S a b) : Forall₂ S as bs := by
  have hmem : Forall₂ (fun a b => a ∈ as ∧ R a b) as bs :=
    (forall₂_and_left _ _).mpr ⟨fun _ ha => ha, h⟩
  exact hmem.imp fun a b hab => hRS a hab.1 b hab.2

/-- Two lists beside one list are equal if what stands beside each of its members is determined. -/
theorem eq_of_forall₂ {P : α → β → Prop} {bs bs' : List β}
    (h : Forall₂ (fun a b => ∀ b', P a b' → b = b') as bs) (h' : Forall₂ P as bs') : bs = bs' := by
  induction h generalizing bs' with
  | nil =>
    cases h'
    rfl
  | cons hab _ ih =>
    cases h' with
    | cons hab' h' => rw [hab _ hab', ih h']

theorem eq_ok_of_toOption {ε : Type} {r : Except ε α} (h : r.toOption = some a) : r = .ok a := by
  cases r with
  | ok b =>
    cases h
    rfl
  | error e => cases h

namespace Resolve

/-- The computation `x` succeeds in the context `c` with the result `a` and leaves `c'`. -/
def Gives (x : Resolve α) (c : Context) (a : α) (c' : Context) : Prop :=
  x.outcome c = (.ok a, c')

theorem gives_of_outcome (h : (x.outcome c).1.toOption = some a) : Gives x c a (x.outcome c).2 := by
  rcases hx : x.outcome c with ⟨r, c'⟩
  rw [hx] at h
  cases r with
  | ok b =>
    cases h
    exact hx
  | error e => cases h

theorem exists_gives_of_outcome {f : α → β} {b : β} (h : (x.outcome c).1.toOption.map f = some b) :
    ∃ a c', Gives x c a c' ∧ f a = b := by
  obtain ⟨a, ha, rfl⟩ := Option.map_eq_some_iff.mp h
  exact ⟨a, _, gives_of_outcome ha, rfl⟩

theorem ext_outcome {x y : Resolve α} (h : ∀ c, x.outcome c = y.outcome c) : x = y :=
  funext h

/-! ### One step -/

/-- The outcome of a sequence: the second part runs only if the first one succeeds. -/
theorem outcome_bind (x : Resolve α) (f : α → Resolve β) (c : Context) :
    (x >>= f).outcome c =
      match x.outcome c with
      | (.ok a, c') => (f a).outcome c'
      | (.error e, c') => (.error e, c') := by
  change StateT.run (ExceptT.run (x >>= f)) c = _
  simp only [ExceptT.run_bind, StateT.run_bind]
  change _ = match StateT.run (ExceptT.run x) c with
    | (.ok a, c') => (f a).outcome c'
    | (.error e, c') => (.error e, c')
  rcases StateT.run (ExceptT.run x) c with ⟨r, c'⟩
  cases r <;> rfl

@[simp] theorem gives_pure {a b : α} : Gives (pure a) c b c' ↔ a = b ∧ c = c' := by
  change ((Except.ok a : Except Failure α), c) = (.ok b, c') ↔ _
  simp

@[simp] theorem gives_bind {b : β} :
    Gives (x >>= f) c b c' ↔ ∃ a c₁, Gives x c a c₁ ∧ Gives (f a) c₁ b c' := by
  unfold Gives
  rw [outcome_bind]
  rcases x.outcome c with ⟨r, c₁⟩
  cases r with
  | ok a =>
    constructor
    · intro h
      exact ⟨a, c₁, rfl, h⟩
    · rintro ⟨a', c₁', heq, h⟩
      simp only [Prod.mk.injEq, Except.ok.injEq] at heq
      obtain ⟨rfl, rfl⟩ := heq
      exact h
  | error e => simp

@[simp] theorem gives_map {f : α → β} {b : β} :
    Gives (f <$> x) c b c' ↔ ∃ a, Gives x c a c' ∧ f a = b := by
  rw [← bind_pure_comp, gives_bind]
  simp only [gives_pure]
  constructor
  · rintro ⟨a, c₁, h, hb, rfl⟩
    exact ⟨a, h, hb⟩
  · rintro ⟨a, h, hb⟩
    exact ⟨a, c', h, hb, rfl⟩

@[simp] theorem gives_get {a : Context} :
    Gives (get : Resolve Context) c a c' ↔ c = a ∧ c = c' := by
  change ((Except.ok c : Except Failure Context), c) = (.ok a, c') ↔ _
  simp

@[simp] theorem gives_modify {f : Context → Context} {u : Unit} :
    Gives (modify f : Resolve Unit) c u c' ↔ f c = c' := by
  change ((Except.ok () : Except Failure Unit), f c) = (.ok u, c') ↔ _
  simp

@[simp] theorem gives_tell {e : Event} {u : Unit} :
    Gives (tell e) c u c' ↔ { c with log := c.log ++ [e] } = c' :=
  gives_modify

@[simp] theorem not_gives_throw {e : Failure} : ¬ Gives (throw e : Resolve α) c a c' := by
  change ¬ ((Except.error e : Except Failure α), c) = (.ok a, c')
  simp

@[simp] theorem not_gives_refuse {e : SchemaError} : ¬ Gives (refuse e : Resolve α) c a c' :=
  not_gives_throw

@[simp] theorem gives_ofExcept {r : Except SchemaError α} :
    Gives (ofExcept r) c a c' ↔ r = .ok a ∧ c = c' := by
  cases r with
  | ok b => simp [ofExcept]
  | error e => simp [ofExcept]

@[simp] theorem gives_ofOutcome : Gives (ofOutcome r) c a c' ↔ r = .ok a ∧ c = c' := by
  cases r with
  | ok b => simp [ofOutcome]
  | error e => simp [ofOutcome]

@[simp] theorem gives_ofReport {r : Report α} :
    Gives (ofReport r) c a c' ↔ r.outcome = .ok a ∧ { c with log := c.log ++ r.log } = c' := by
  unfold ofReport
  simp only [gives_bind, gives_modify]
  cases r.outcome with
  | ok b => simp
  | error e => simp

@[simp] theorem gives_ite_refuse {p : Prop} [Decidable p] {e : SchemaError} :
    Gives (if p then refuse e else x) c a c' ↔ ¬ p ∧ Gives x c a c' := by
  by_cases h : p <;> simp [h]

/-! ### Traversals -/

@[simp] theorem gives_mapM_nil : Gives (([] : List α).mapM f) c bs c' ↔ bs = [] ∧ c = c' := by
  rw [mapM_nil, gives_pure]
  exact and_congr_left fun _ => eq_comm

@[simp] theorem gives_mapM_cons :
    Gives ((a :: as).mapM f) c bs c' ↔
      ∃ b c₁ bs', Gives (f a) c b c₁ ∧ Gives (as.mapM f) c₁ bs' c' ∧ bs = b :: bs' := by
  rw [mapM_cons]
  simp only [gives_bind, gives_pure]
  constructor
  · rintro ⟨b, c₁, hb, bs', c₂, hbs, rfl, rfl⟩
    exact ⟨b, c₁, bs', hb, hbs, rfl⟩
  · rintro ⟨b, c₁, bs', hb, hbs, rfl⟩
    exact ⟨b, c₁, hb, bs', c', hbs, rfl, rfl⟩

/-- Two traversals come to the same if their steps do, in the contexts that the steps lead to. -/
theorem outcome_mapM_congr {I : Context → Prop} {f g : α → Resolve β}
    (hfg : ∀ a ∈ as, ∀ c, I c → (f a).outcome c = (g a).outcome c)
    (hI : ∀ a ∈ as, ∀ {c b c'}, I c → Gives (g a) c b c' → I c') (hc : I c) :
    (as.mapM f).outcome c = (as.mapM g).outcome c := by
  induction as generalizing c with
  | nil => rfl
  | cons a as ih =>
    rw [mapM_cons, mapM_cons, outcome_bind, outcome_bind, hfg a mem_cons_self c hc]
    rcases hout : (g a).outcome c with ⟨r, c₁⟩
    cases r with
    | error e => rfl
    | ok b =>
      simp only
      rw [outcome_bind, outcome_bind, ih (fun a ha => hfg a (mem_cons_of_mem _ ha))
        (fun a ha => hI a (mem_cons_of_mem _ ha)) (hI a mem_cons_self hc hout)]

/-! ### Every outcome -/

/-- Started in the context `c`, the computation comes to a result that satisfies `Q` or to a failure
that satisfies `E`, each together with the context that it leaves. -/
def Meets (x : Resolve α) (c : Context) (Q : α → Context → Prop) (E : Failure → Context → Prop) :
    Prop :=
  match x.outcome c with
  | (.ok a, c') => Q a c'
  | (.error e, c') => E e c'

section Meets

variable {Q Q' : α → Context → Prop} {E E' : Failure → Context → Prop}

theorem Meets.gives (h : Meets x c Q E) (hx : Gives x c a c') : Q a c' := by
  unfold Meets at h
  rw [hx] at h
  exact h

theorem Meets.error (h : Meets x c Q E) {e : Failure} (hx : x.outcome c = (.error e, c')) :
    E e c' := by
  unfold Meets at h
  rw [hx] at h
  exact h

theorem Gives.meets_iff (hx : Gives x c a c') : Meets x c Q E ↔ Q a c' := by
  unfold Meets
  rw [hx]

theorem Meets.of_gives (h : ∀ a c', Gives x c a c' → Q a c') : Meets x c Q fun _ _ => True := by
  unfold Meets
  split
  · exact h _ _ (by assumption)
  · trivial

theorem Meets.and_gives (h : Meets x c Q E) :
    Meets x c (fun a c' => Gives x c a c' ∧ Q a c') E := by
  unfold Meets at h ⊢
  split at h
  · exact ⟨by assumption, h⟩
  · exact h

theorem Meets.imp (h : Meets x c Q E) (hQ : ∀ a c', Q a c' → Q' a c')
    (hE : ∀ e c', E e c' → E' e c') : Meets x c Q' E' := by
  unfold Meets at h ⊢
  split at h
  · exact hQ _ _ h
  · exact hE _ _ h

theorem Meets.after {P : Context → Prop} (h : Meets x c (fun _ c' => P c') fun _ c' => P c') :
    P (x.outcome c).2 := by
  unfold Meets at h
  split at h
  all_goals
    rename_i hout
    rw [hout]
    exact h

theorem Meets.exists_gives (h : Meets x c Q fun _ _ => False) :
    ∃ a c', Gives x c a c' ∧ Q a c' := by
  unfold Meets at h
  split at h
  · exact ⟨_, _, by assumption, h⟩
  · exact h.elim

@[simp] theorem meets_pure : Meets (pure a) c Q E ↔ Q a c :=
  Iff.rfl

@[simp] theorem meets_refuse {e : SchemaError} : Meets (refuse e) c Q E ↔ E (.schema e) c :=
  Iff.rfl

@[simp] theorem meets_get {Q : Context → Context → Prop} :
    Meets (get : Resolve Context) c Q E ↔ Q c c :=
  Iff.rfl

@[simp] theorem meets_modify {f : Context → Context} {Q : Unit → Context → Prop} :
    Meets (modify f : Resolve Unit) c Q E ↔ Q () (f c) :=
  Iff.rfl

@[simp] theorem meets_tell {e : Event} {Q : Unit → Context → Prop} :
    Meets (tell e) c Q E ↔ Q () { c with log := c.log ++ [e] } :=
  Iff.rfl

theorem meets_ofExcept {r : Except SchemaError α} :
    Meets (ofExcept r) c Q E ↔ (∀ a, r = .ok a → Q a c) ∧ ∀ e, r = .error e → E (.schema e) c := by
  cases r with
  | ok a => simp [ofExcept]
  | error e => simp [ofExcept]

theorem meets_ofOutcome :
    Meets (ofOutcome r) c Q E ↔ (∀ a, r = .ok a → Q a c) ∧ ∀ e, r = .error e → E e c := by
  cases r with
  | ok a => simp [ofOutcome]
  | error e =>
    change E e c ↔ _
    simp

theorem Meets.and (h : Meets x c Q E) (h' : Meets x c Q' E') :
    Meets x c (fun a c' => Q a c' ∧ Q' a c') fun e c' => E e c' ∧ E' e c' := by
  unfold Meets at *
  split at h
  all_goals
    rename_i hout
    rw [hout] at h'
    exact ⟨h, h'⟩

/-- After a sequence holds what holds after its second part, started where the first one ended. -/
@[simp] theorem meets_bind {Q : β → Context → Prop} :
    Meets (x >>= f) c Q E ↔ Meets x c (fun a c' => Meets (f a) c' Q E) E := by
  unfold Meets
  rw [outcome_bind]
  rcases x.outcome c with ⟨r, c'⟩
  cases r <;> rfl

@[simp] theorem meets_map {f : α → β} {Q : β → Context → Prop} :
    Meets (f <$> x) c Q E ↔ Meets x c (fun a c' => Q (f a) c') E := by
  rw [← bind_pure_comp, meets_bind]
  rfl

/-- **A traversal collects what its steps collect**, until it comes to its end or fails on the way:
`I` is an invariant of the context, `A c us c'` says that `us` was met on the way from `c` to `c'`,
`Q` is a fact about each result that stays true on the way, and `E` a fact about failures that also
holds of what has led to them. -/
theorem Meets.collect {γ : Type} {I : Context → Prop} {A : Context → List γ → Context → Prop}
    (refl : ∀ c, A c [] c) (append : ∀ {c₁ c₂ c₃ us vs}, A c₁ us c₂ → A c₂ vs c₃ →
      A c₁ (us ++ vs) c₃) {Q : α → β → Context → Prop}
    (mono : ∀ {a b c₁ c₂ us}, A c₁ us c₂ → Q a b c₁ → Q a b c₂)
    {E : Context → Failure → Context → Prop}
    (fails : ∀ {c₁ c₂ c₃ us e}, A c₁ us c₂ → E c₂ e c₃ → E c₁ e c₃) {u : β → List γ}
    (step : ∀ a ∈ as, ∀ c, I c → Meets (f a) c (fun b c' => (I c' ∧ A c (u b) c') ∧ Q a b c') (E c))
    (hc : I c) :
    Meets (as.mapM f) c
      (fun bs c' => (I c' ∧ A c (bs.flatMap u) c') ∧ Forall₂ (fun a b => Q a b c') as bs)
      (E c) := by
  induction as generalizing c with
  | nil =>
    rw [mapM_nil, meets_pure]
    exact ⟨⟨hc, refl c⟩, .nil⟩
  | cons a as ih =>
    rw [mapM_cons]
    simp only [meets_bind, meets_pure]
    refine (step a mem_cons_self c hc).imp ?_ fun _ _ h => h
    rintro b c₁ ⟨⟨hc₁, hl₁⟩, hb⟩
    refine (ih (fun a ha => step a (mem_cons_of_mem _ ha)) hc₁).imp ?_ fun _ _ => fails hl₁
    rintro bs c₂ ⟨⟨hc₂, hl₂⟩, hbs⟩
    exact ⟨⟨hc₂, append hl₁ hl₂⟩, .cons (mono hl₂ hb) hbs⟩

/-- A traversal preserves what each of its steps preserves: `L` is a preorder in which the context
grows. -/
theorem Meets.traverse {I : Context → Prop} {L : Context → Context → Prop} (refl : ∀ c, L c c)
    (trans : ∀ {c₁ c₂ c₃}, L c₁ c₂ → L c₂ c₃ → L c₁ c₃) {Q : α → β → Context → Prop}
    (mono : ∀ {a b c₁ c₂}, L c₁ c₂ → Q a b c₁ → Q a b c₂) {E : Context → Failure → Context → Prop}
    (fails : ∀ {c₁ c₂ c₃ e}, L c₁ c₂ → E c₂ e c₃ → E c₁ e c₃)
    (step : ∀ a ∈ as, ∀ c, I c → Meets (f a) c (fun b c' => (I c' ∧ L c c') ∧ Q a b c') (E c))
    (hc : I c) :
    Meets (as.mapM f) c (fun bs c' => (I c' ∧ L c c') ∧ Forall₂ (fun a b => Q a b c') as bs)
      (E c) :=
  Meets.collect (A := fun c (_ : List Unit) c' => L c c') (Q := Q) (E := E)
    (u := fun _ => []) refl trans mono fails step hc

theorem Meets.mapM {I : Context → Prop} {L : Context → Context → Prop} (refl : ∀ c, L c c)
    (trans : ∀ {c₁ c₂ c₃}, L c₁ c₂ → L c₂ c₃ → L c₁ c₃) {Q : α → β → Context → Prop}
    (mono : ∀ {a b c₁ c₂}, L c₁ c₂ → Q a b c₁ → Q a b c₂) {E : Failure → Prop}
    (step : ∀ a ∈ as, ∀ c, I c → Meets (f a) c (fun b c' => (I c' ∧ L c c') ∧ Q a b c')
      (fun e c' => (I c' ∧ L c c') ∧ E e)) (hc : I c) :
    Meets (as.mapM f) c (fun bs c' => (I c' ∧ L c c') ∧ Forall₂ (fun a b => Q a b c') as bs)
      (fun e c' => (I c' ∧ L c c') ∧ E e) :=
  Meets.traverse (Q := Q) (E := fun c e c' => (I c' ∧ L c c') ∧ E e) refl trans mono
    (fun hl h => ⟨⟨h.1.1, trans hl h.1.2⟩, h.2⟩) step hc

theorem Gives.mapM {I : Context → Prop} {L : Context → Context → Prop} (refl : ∀ c, L c c)
    (trans : ∀ {c₁ c₂ c₃}, L c₁ c₂ → L c₂ c₃ → L c₁ c₃) {Q : α → β → Context → Prop}
    (mono : ∀ {a b c₁ c₂}, L c₁ c₂ → Q a b c₁ → Q a b c₂)
    (step : ∀ a ∈ as, ∀ {c b c'}, I c → Gives (f a) c b c' → I c' ∧ L c c' ∧ Q a b c') (hc : I c)
    (h : Gives (as.mapM f) c bs c') : I c' ∧ L c c' ∧ Forall₂ (fun a b => Q a b c') as bs := by
  have hstep : ∀ a ∈ as, ∀ c, I c → Meets (f a) c (fun b c' => (I c' ∧ L c c') ∧
      Q a b c') fun _ _ => True :=
    fun a ha c hc => .of_gives fun b c' hb => and_assoc.mpr (step a ha hc hb)
  have htraverse := Meets.traverse (Q := Q)
    (E := fun _ _ _ => True) refl trans mono (fun _ h => h) hstep hc
  exact and_assoc.mp (htraverse.gives h)

theorem Meets.collect_option {γ : Type} {I : Context → Prop} {A : Context → List γ → Context → Prop}
    (refl : ∀ c, A c [] c) {R : α → β → Context → Prop} {u : β → List γ} {o : Option α} (hc : I c)
    (step : ∀ a ∈ o, Meets (f a) c (fun b c' => (I c' ∧ A c (u b) c') ∧ R a b c') E) :
    Meets (o.mapM f) c
      (fun o' c' => (I c' ∧ A c ((o'.map u).getD []) c') ∧
        Option.Rel (fun a b => R a b c') o o') E := by
  cases o with
  | none =>
    rw [Option.mapM_none, meets_pure]
    exact ⟨⟨hc, refl c⟩, .none⟩
  | some a =>
    rw [Option.mapM_some, meets_map]
    exact (step a rfl).imp (fun _ _ h => ⟨h.1, .some h.2⟩) fun _ _ h => h

end Meets

/-! ### Properties that sequences inherit -/

/-- A relation between computations that results satisfy, and that sequences inherit from their
parts. -/
structure Congruent (R : {α : Type} → Resolve α → Resolve α → Prop) : Prop where
  pure : ∀ {α : Type} (a : α), R (Pure.pure a) (Pure.pure a)
  bind : ∀ {α β : Type} {x y : Resolve α} {f g : α → Resolve β}, R x y → (∀ a, R (f a) (g a)) →
    R (x >>= f) (y >>= g)

namespace Congruent

variable {R : {α : Type} → Resolve α → Resolve α → Prop}

theorem map (hR : Congruent R) {x y : Resolve α} (hx : R x y) (f : α → β) :
    R (f <$> x) (f <$> y) := by
  rw [← bind_pure_comp, ← bind_pure_comp]
  exact hR.bind hx fun a => hR.pure (f a)

theorem mapM (hR : Congruent R) {f g : α → Resolve β} (h : ∀ a ∈ as, R (f a) (g a)) :
    R (as.mapM f) (as.mapM g) := by
  induction as with
  | nil => exact hR.pure []
  | cons a as ih =>
    rw [mapM_cons, mapM_cons]
    refine hR.bind (h a mem_cons_self) fun b => ?_
    exact hR.bind (ih fun a ha => h a (mem_cons_of_mem _ ha)) fun bs => hR.pure (b :: bs)

theorem option_mapM (hR : Congruent R) {f g : α → Resolve β} {o : Option α}
    (h : ∀ a ∈ o, R (f a) (g a)) : R (o.mapM f) (o.mapM g) := by
  cases o with
  | none => exact hR.pure none
  | some a =>
    rw [Option.mapM_some, Option.mapM_some]
    exact hR.map (h a rfl) some

end Congruent

/-- A property of computations that results and refusals have, and that sequences inherit from their
parts. -/
structure Composes (P : {α : Type} → Resolve α → Prop) : Prop where
  pure : ∀ {α : Type} (a : α), P (Pure.pure a)
  refuse : ∀ {α : Type} (e : SchemaError), P (Resolve.refuse e : Resolve α)
  bind : ∀ {α β : Type} {x : Resolve α} {f : α → Resolve β}, P x → (∀ a, P (f a)) → P (x >>= f)

namespace Composes

variable {P : {α : Type} → Resolve α → Prop}

theorem ofExcept (hP : Composes P) (r : Except SchemaError α) : P (Resolve.ofExcept r) := by
  cases r with
  | ok a => exact hP.pure a
  | error e => exact hP.refuse e

theorem ofExcept_bind (hP : Composes P) {r : Except SchemaError α}
    (hf : ∀ a, r = .ok a → P (f a)) : P (Resolve.ofExcept r >>= f) := by
  cases r with
  | ok a => exact hf a rfl
  | error e => exact hP.refuse e

theorem congruent (hP : Composes P) : Congruent fun x _ => P x :=
  ⟨hP.pure, fun hx hf => hP.bind hx hf⟩

theorem map (hP : Composes P) (hx : P x) (f : α → β) : P (f <$> x) :=
  hP.congruent.map (y := x) hx f

theorem mapM (hP : Composes P) (h : ∀ a ∈ as, P (f a)) : P (as.mapM f) :=
  hP.congruent.mapM (g := f) h

end Composes

/-! ### Outcomes that do not depend on what is remembered -/

/-- A computation that can only refuse the schema, as an outcome. -/
def refusing : Except SchemaError α → Except Failure α
  | .ok a => .ok a
  | .error e => .error (.schema e)

@[simp] theorem refusing_eq_ok {r : Except SchemaError α} : refusing r = .ok a ↔ r = .ok a := by
  cases r <;> simp [refusing]

/-- In every context that satisfies `I` the computation comes to the outcome `r`, keeps `I`, and
changes the context only as `L` allows. -/
def Computes (I : Context → Prop) (L : Context → Context → Prop) (x : Resolve α)
    (r : Except Failure α) : Prop :=
  ∀ c, I c → ∃ c', x.outcome c = (r, c') ∧ I c' ∧ L c c'

section Computes

variable {I : Context → Prop} {L : Context → Context → Prop}

theorem Computes.of_gives (h : Computes I L x r) (hc : I c) (hx : Gives x c a c') :
    I c' ∧ L c c' ∧ r = .ok a := by
  obtain ⟨c₁, hout, hc₁, hl⟩ := h c hc
  unfold Gives at hx
  rw [hx, Prod.mk.injEq] at hout
  obtain ⟨rfl, rfl⟩ := hout
  exact ⟨hc₁, hl, rfl⟩

theorem Computes.gives (h : Computes I L x (.ok a)) (hc : I c) : ∃ c', Gives x c a c' := by
  obtain ⟨c', hout, -, -⟩ := h c hc
  exact ⟨c', hout⟩

theorem computes_pure (refl : ∀ c, L c c) (a : α) : Computes I L (pure a) (.ok a) :=
  fun c hc => ⟨c, rfl, hc, refl c⟩

theorem computes_ofOutcome (refl : ∀ c, L c c) (r : Except Failure α) :
    Computes I L (ofOutcome r) r := by
  intro c hc
  cases r <;> exact ⟨c, rfl, hc, refl c⟩

theorem computes_ofExcept (refl : ∀ c, L c c) (r : Except SchemaError α) :
    Computes I L (ofExcept r) (refusing r) := by
  intro c hc
  cases r <;> exact ⟨c, rfl, hc, refl c⟩

theorem Computes.bind (trans : ∀ {c₁ c₂ c₃}, L c₁ c₂ → L c₂ c₃ → L c₁ c₃) (hx : Computes I L x r)
    {g : α → Except Failure β} (hf : ∀ a, r = .ok a → Computes I L (f a) (g a)) :
    Computes I L (x >>= f) (r >>= g) := by
  intro c hc
  obtain ⟨c₁, hout, hc₁, hl₁⟩ := hx c hc
  rw [outcome_bind, hout]
  cases r with
  | error e => exact ⟨c₁, rfl, hc₁, hl₁⟩
  | ok a =>
    obtain ⟨c₂, hout₂, hc₂, hl₂⟩ := hf a rfl c₁ hc₁
    exact ⟨c₂, hout₂, hc₂, trans hl₁ hl₂⟩

theorem Computes.mapM (refl : ∀ c, L c c) (trans : ∀ {c₁ c₂ c₃}, L c₁ c₂ → L c₂ c₃ → L c₁ c₃)
    {g : α → Except Failure β} (h : ∀ a ∈ as, Computes I L (f a) (g a)) :
    Computes I L (as.mapM f) (as.mapM g) := by
  induction as with
  | nil => exact computes_pure refl []
  | cons a as ih =>
    rw [mapM_cons, mapM_cons]
    refine Computes.bind (L := L) trans (h a mem_cons_self) ?_
    intro b _
    refine Computes.bind (L := L) trans (ih fun a ha => h a (mem_cons_of_mem _ ha)) ?_
    intro bs _
    exact computes_pure refl (b :: bs)

theorem Computes.of_meets {L' : Context → Context → Prop} (h : Computes I L x r)
    (hx : ∀ c, I c → Meets x c (fun _ c' => L' c c') fun _ c' => L' c c') : Computes I L' x r := by
  intro c hc
  obtain ⟨c', hout, hc', -⟩ := h c hc
  have hl := Meets.after (P := L' c) (hx c hc)
  rw [hout] at hl
  exact ⟨c', hout, hc', hl⟩

theorem Computes.meets (h : Computes I L x r) (hc : I c) :
    Meets x c (fun a c' => (I c' ∧ L c c') ∧ r = .ok a)
      fun e c' => (I c' ∧ L c c') ∧ r = .error e := by
  obtain ⟨c', hout, hc', hl⟩ := h c hc
  unfold Meets
  rw [hout]
  cases r with
  | ok a => exact ⟨⟨hc', hl⟩, rfl⟩
  | error e => exact ⟨⟨hc', hl⟩, rfl⟩

end Computes

/-- In all contexts that satisfy `I` the computation comes to the same outcome. -/
def Agrees (I : Context → Prop) (x : Resolve α) : Prop :=
  ∀ c c', I c → I c' → (x.outcome c).1 = (x.outcome c').1

section Agrees

variable {I : Context → Prop}

theorem Agrees.mono {J : Context → Prop} (h : Agrees I x) (hJ : ∀ c, J c → I c) : Agrees J x :=
  fun c c' hc hc' => h c c' (hJ c hc) (hJ c' hc')

theorem agrees_pure (a : α) : Agrees I (pure a) :=
  fun _ _ _ _ => rfl

theorem agrees_refuse (e : SchemaError) : Agrees I (refuse e : Resolve α) :=
  fun _ _ _ _ => rfl

/-- A computation that always gives a value comes to the same outcome if there is only one to
give. -/
theorem agrees_of_gives {P : α → Prop} (hP : ∀ {a b}, P a → P b → a = b)
    (hx : ∀ {c}, I c → ∃ a c', Gives x c a c' ∧ P a) : Agrees I x := by
  intro c c' hc hc'
  obtain ⟨a, c₁, h, ha⟩ := hx hc
  obtain ⟨b, c₁', h', hb⟩ := hx hc'
  rw [h, h', hP ha hb]

/-- Reading the context makes no difference if all that is read leads to the same computation. -/
theorem agrees_get {f : Context → Resolve β} {x : Resolve β} (hf : ∀ c, I c → f c = x)
    (hx : Agrees I x) : Agrees I (get >>= f) := by
  intro c c' hc hc'
  change ((f c).outcome c).1 = ((f c').outcome c').1
  rw [hf c hc, hf c' hc']
  exact hx c c' hc hc'

/-- A sequence comes to the same outcome if its parts do; the second one is started in contexts that
satisfy `J`. -/
theorem Agrees.bind (hx : Agrees I x) {J : α → Context → Prop}
    (hJ : ∀ {c a c'}, I c → Gives x c a c' → J a c') (hf : ∀ a, Agrees (J a) (f a)) :
    Agrees I (x >>= f) := by
  intro c c' hc hc'
  have heq := hx c c' hc hc'
  rw [outcome_bind, outcome_bind]
  rcases hout : x.outcome c with ⟨r, c₁⟩
  rcases hout' : x.outcome c' with ⟨r', c₁'⟩
  rw [hout, hout'] at heq
  obtain rfl : r = r' := heq
  cases r with
  | ok a => exact hf a c₁ c₁' (hJ hc hout) (hJ hc' hout')
  | error e => rfl

theorem Agrees.mapM (h : ∀ a ∈ as, Agrees I (f a))
    (hI : ∀ a ∈ as, ∀ {c b c'}, I c → Gives (f a) c b c' → I c') : Agrees I (as.mapM f) := by
  induction as with
  | nil => exact fun _ _ _ _ => rfl
  | cons a as ih =>
    rw [mapM_cons]
    refine (h a mem_cons_self).bind (J := fun _ => I) (hI a mem_cons_self) fun b => ?_
    refine (ih (fun a ha => h a (mem_cons_of_mem _ ha))
      fun a ha => hI a (mem_cons_of_mem _ ha)).bind (J := fun _ _ => True) ?_ ?_
    · exact fun _ _ => trivial
    · exact fun bs _ _ _ _ => rfl

end Agrees

/-- In all contexts that satisfy `I` the computation comes to one outcome, and keeps `I`. -/
def Steady (I : Context → Prop) (x : Resolve α) : Prop :=
  ∃ r, Computes I (fun _ _ => True) x r

section Steady

variable {I : Context → Prop}

theorem Computes.steady {L : Context → Context → Prop} (h : Computes I L x r) : Steady I x :=
  ⟨r, fun c hc => by
    obtain ⟨c', hout, hc', -⟩ := h c hc
    exact ⟨c', hout, hc', trivial⟩⟩

theorem composes_steady (I : Context → Prop) : Composes (Steady I) where
  pure a := (computes_pure (L := fun _ _ => True) (fun _ => trivial) a).steady
  refuse e := (computes_ofExcept (L := fun _ _ => True) (fun _ => trivial) (.error e)).steady
  bind := by
    rintro α β x f ⟨r, hr⟩ hf
    choose g hg using hf
    exact ⟨_, Computes.bind (fun _ _ => trivial) hr fun a _ => hg a⟩

end Steady

end Resolve

end Schemata
