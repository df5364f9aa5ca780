import Schemata.Proofs.Stacks
import Schemata.Proofs.Tables

/-!
# Asking again

A run that fails leaves what it has found out behind, and may be asked again.  Nothing is ever
forgotten or replaced: each table of the context only grows at its end.  What a computation has
remembered does not change its outcome either, so that one that has failed fails again in the same
way, without remembering anything more.

The reason is the same everywhere.  A computation that remembers its result looks for it first, and
what it asks for on the way is remembered under other keys: an alias under a core with fewer angles,
all else under a key that is not on the path.
-/

namespace Schemata

open List

variable {c : Context} {path : List Text}

namespace Table

variable {κ ν : Type} [DecidableEq κ]

theorem find?_append (key : κ) (es es' : List (κ × ν)) :
    find? key (es ++ es') = (find? key es).or (find? key es') := by
  induction es with
  | nil => rfl
  | cons e es ih =>
    obtain ⟨k, v⟩ := e
    rw [cons_append, find?, find?, ih]
    split_ifs <;> rfl

theorem get?_of_isPrefix {t t' : Table κ ν} (h : t.entries <+: t'.entries) {key : κ} {value : ν}
    (hk : t.get? key = some value) : t'.get? key = some value := by
  obtain ⟨es, hes⟩ := h
  unfold get? at hk ⊢
  rw [← hes, find?_append, hk, Option.some_or]

theorem contains_of_isPrefix {t t' : Table κ ν} (h : t.entries <+: t'.entries) {key : κ}
    (hk : t.contains key) : t'.contains key := by
  obtain ⟨value, hvalue⟩ := Option.isSome_iff_exists.mp hk
  exact Option.isSome_iff_exists.mpr ⟨value, get?_of_isPrefix h hvalue⟩

theorem isPrefix_insert {t : Table κ ν} {key : κ} (hk : t.get? key = none) (value : ν) :
    t.entries <+: (t.insert key value).entries :=
  ⟨[(key, value)], (put_of_find?_eq_none hk value).symm⟩

theorem isPrefix_insertIfNew (t : Table κ ν) (key : κ) (value : ν) :
    t.entries <+: (t.insertIfNew key value).entries := by
  rcases entries_insertIfNew t key value with h | h
  · exact ⟨[], h.symm ▸ append_nil _⟩
  · exact ⟨_, h.symm⟩

theorem get?_insert_eq_none {t : Table κ ν} (P : κ → Prop) {key : κ} (hkey : P key) (value : ν) :
    ∀ k, ¬ P k → t.get? k = none → (t.insert key value).get? k = none := by
  intro k hk hnone
  rw [get?_insert, if_neg, hnone]
  rintro rfl
  exact hk hkey

end Table

/-! ### Contexts that grow -/

/-- The context `c'` is on the paths of `c`, and each of its tables is that of `c` with new entries
at the end; what was told makes no difference. -/
structure Context.Keeps (c c' : Context) : Prop where
  resolving : c'.resolving = c.resolving
  closing : c'.closing = c.closing
  building : c'.building = c.building
  aliasNames : c.aliasNames.entries <+: c'.aliasNames.entries
  pending : c.pending.entries <+: c'.pending.entries
  resolved : c.resolved.entries <+: c'.resolved.entries
  closures : c.closures.entries <+: c'.closures.entries
  instances : c.instances.entries <+: c'.instances.entries

theorem Context.Keeps.refl (c : Context) : c.Keeps c :=
  ⟨rfl, rfl, rfl, prefix_rfl, prefix_rfl, prefix_rfl, prefix_rfl, prefix_rfl⟩

theorem Context.Keeps.trans {c₁ c₂ c₃ : Context} (h : c₁.Keeps c₂) (h' : c₂.Keeps c₃) :
    c₁.Keeps c₃ where
  resolving := h'.resolving.trans h.resolving
  closing := h'.closing.trans h.closing
  building := h'.building.trans h.building
  aliasNames := h.aliasNames.trans h'.aliasNames
  pending := h.pending.trans h'.pending
  resolved := h.resolved.trans h'.resolved
  closures := h.closures.trans h'.closures
  instances := h.instances.trans h'.instances

theorem Context.keeps_log (c : Context) (log : Log) : c.Keeps { c with log } :=
  ⟨rfl, rfl, rfl, prefix_rfl, prefix_rfl, prefix_rfl, prefix_rfl, prefix_rfl⟩

theorem Context.log_keeps (c : Context) (log : Log) : Context.Keeps { c with log } c :=
  ⟨rfl, rfl, rfl, prefix_rfl, prefix_rfl, prefix_rfl, prefix_rfl, prefix_rfl⟩

/-- The keys under which a computation may remember something that was not there. -/
structure Scope where
  aliases : Text → Prop := fun _ => False
  resolved : Declaration.Key → Prop := fun _ => False
  closures : Text → Prop := fun _ => False
  instances : Text → Prop := fun _ => False

/-- Whatever is in the first scope is in the second. -/
structure Scope.Within (s s' : Scope) : Prop where
  aliases : ∀ k, s.aliases k → s'.aliases k
  resolved : ∀ k, s.resolved k → s'.resolved k
  closures : ∀ k, s.closures k → s'.closures k
  instances : ∀ k, s.instances k → s'.instances k

/-- The context `c'` keeps what `c` has, and a key that is new in it is in the scope. -/
structure Context.GrowsIn (s : Scope) (c c' : Context) : Prop extends c.Keeps c' where
  aliases_none : ∀ k, ¬ s.aliases k → c.aliasNames.get? k = none → c'.aliasNames.get? k = none
  resolved_none : ∀ k, ¬ s.resolved k → c.resolved.get? k = none → c'.resolved.get? k = none
  closures_none : ∀ k, ¬ s.closures k → c.closures.get? k = none → c'.closures.get? k = none
  instances_none : ∀ k, ¬ s.instances k → c.instances.get? k = none → c'.instances.get? k = none

section GrowsIn

variable {s s' : Scope} {c c' c₁ c₂ c₃ : Context}

theorem Context.GrowsIn.refl (s : Scope) (c : Context) : c.GrowsIn s c :=
  ⟨.refl c, fun _ _ h => h, fun _ _ h => h, fun _ _ h => h, fun _ _ h => h⟩

theorem Context.GrowsIn.trans (h : c₁.GrowsIn s c₂) (h' : c₂.GrowsIn s c₃) : c₁.GrowsIn s c₃ where
  toKeeps := h.toKeeps.trans h'.toKeeps
  aliases_none k hk hn := h'.aliases_none k hk (h.aliases_none k hk hn)
  resolved_none k hk hn := h'.resolved_none k hk (h.resolved_none k hk hn)
  closures_none k hk hn := h'.closures_none k hk (h.closures_none k hk hn)
  instances_none k hk hn := h'.instances_none k hk (h.instances_none k hk hn)

theorem Context.GrowsIn.mono (h : c.GrowsIn s c') (hs : s.Within s') : c.GrowsIn s' c' where
  toKeeps := h.toKeeps
  aliases_none k hk := h.aliases_none k (mt (hs.aliases k) hk)
  resolved_none k hk := h.resolved_none k (mt (hs.resolved k) hk)
  closures_none k hk := h.closures_none k (mt (hs.closures k) hk)
  instances_none k hk := h.instances_none k (mt (hs.instances k) hk)

theorem Context.growsIn_log (s : Scope) (c : Context) (log : Log) : c.GrowsIn s { c with log } :=
  ⟨c.keeps_log log, fun _ _ h => h, fun _ _ h => h, fun _ _ h => h, fun _ _ h => h⟩

end GrowsIn

/-! ### Computations that can be repeated -/

namespace Resolve

variable {α β γ : Type} {s s' : Scope}

/-- Started in `c`, whatever was told before, the computation comes to `r` and does nothing but
tell. -/
def Settled (x : Resolve α) (c : Context) (r : Except Failure α) : Prop :=
  ∀ log, ∃ log', x.outcome { c with log } = (r, { c with log := log' })

theorem Settled.pure (a : α) (c : Context) : Settled (Pure.pure a) c (.ok a) :=
  fun log => ⟨log, rfl⟩

theorem Settled.throw (e : Failure) (c : Context) : Settled (throw e : Resolve α) c (.error e) :=
  fun log => ⟨log, rfl⟩

theorem Settled.bind {x : Resolve α} {f : α → Resolve β} {a : α} {r : Except Failure β}
    (hx : Settled x c (.ok a)) (hf : Settled (f a) c r) : Settled (x >>= f) c r := by
  intro log
  obtain ⟨log₁, hx⟩ := hx log
  obtain ⟨log₂, hf⟩ := hf log₁
  refine ⟨log₂, ?_⟩
  rw [outcome_bind, hx]
  exact hf

theorem Settled.bind_error {x : Resolve α} {e : Failure} (hx : Settled x c (.error e))
    (f : α → Resolve β) : Settled (x >>= f) c (.error e) := by
  intro log
  obtain ⟨log₁, hx⟩ := hx log
  refine ⟨log₁, ?_⟩
  rw [outcome_bind, hx]

theorem Settled.get_bind {f : Context → Resolve α} {r : Except Failure α}
    (h : ∀ log, Settled (f { c with log }) c r) : Settled (get >>= f) c r :=
  fun log => h log log

/-- A result is found again wherever what was remembered is kept, and a failure in the context that
it leaves.  Until then the computation remembers nothing out of its scope. -/
def Repeatable (s : Scope) (x : Resolve α) : Prop :=
  ∀ c, Meets x c (fun a c' => c.GrowsIn s c' ∧ ∀ c'', c'.Keeps c'' → Settled x c'' (.ok a))
    fun e c' => c.GrowsIn s c' ∧ Settled x c' (.error e)

theorem Repeatable.mono {x : Resolve α} (h : Repeatable s x) (hs : s.Within s') : Repeatable s' x :=
  fun c => (h c).imp (fun _ _ ha => ⟨ha.1.mono hs, ha.2⟩) fun _ _ he => ⟨he.1.mono hs, he.2⟩

theorem Repeatable.pure (a : α) : Repeatable s (Pure.pure a) :=
  fun c => ⟨.refl s c, fun c'' _ => .pure a c''⟩

theorem Repeatable.throw (e : Failure) : Repeatable s (throw e : Resolve α) :=
  fun c => ⟨.refl s c, .throw e c⟩

theorem Repeatable.refuse (e : SchemaError) : Repeatable s (Resolve.refuse e : Resolve α) :=
  .throw (.schema e)

theorem Repeatable.ofExcept (r : Except SchemaError α) : Repeatable s (Resolve.ofExcept r) := by
  cases r with
  | ok a => exact .pure a
  | error e => exact .refuse e

theorem Repeatable.tell (e : Event) : Repeatable s (Resolve.tell e) :=
  fun c => ⟨c.growsIn_log s _, fun _ _ _ => ⟨_, rfl⟩⟩

/-- The first part of a sequence is found again after the second one, since this forgets nothing. -/
theorem Repeatable.bind {x : Resolve α} {f : α → Resolve β} (hx : Repeatable s x)
    (hf : ∀ a, Repeatable s (f a)) : Repeatable s (x >>= f) := by
  intro c
  rw [meets_bind]
  refine (hx c).imp ?_ fun e c' he => ⟨he.1, he.2.bind_error f⟩
  rintro a c₁ ⟨hgrows₁, hagain⟩
  refine (hf a c₁).imp ?_ ?_
  · rintro b c₂ ⟨hgrows₂, hagain₂⟩
    refine ⟨hgrows₁.trans hgrows₂, fun c'' hkeeps => ?_⟩
    exact (hagain c'' (hgrows₂.toKeeps.trans hkeeps)).bind (hagain₂ c'' hkeeps)
  · rintro e c₂ ⟨hgrows₂, hagain₂⟩
    exact ⟨hgrows₁.trans hgrows₂, (hagain c₂ hgrows₂.toKeeps).bind hagain₂⟩

theorem composes_repeatable (s : Scope) : Composes (Repeatable s) :=
  ⟨.pure, .refuse, .bind⟩

theorem Repeatable.map {x : Resolve α} (hx : Repeatable s x) (f : α → β) : Repeatable s (f <$> x) :=
  (composes_repeatable s).map hx f

theorem Repeatable.mapM {f : α → Resolve β} {as : List α} (h : ∀ a ∈ as, Repeatable s (f a)) :
    Repeatable s (as.mapM f) :=
  (composes_repeatable s).mapM h

theorem Repeatable.get_bind {p : Context → γ} (hp : ∀ {c c'}, c.Keeps c' → p c' = p c)
    {f : γ → Resolve α} (hf : ∀ q, Repeatable s (f q)) :
    Repeatable s (get >>= fun c => f (p c)) := by
  intro c
  rw [meets_bind, meets_get]
  have hread : ∀ {c' r}, c.Keeps c' → Settled (f (p c)) c' r →
      Settled (get >>= fun c => f (p c)) c' r := by
    intro c' r hkeeps h
    refine .get_bind fun log => ?_
    rw [hp (hkeeps.trans (c'.keeps_log log))]
    exact h
  refine (hf (p c) c).imp ?_ ?_
  · rintro a c' ⟨hgrows, hagain⟩
    exact ⟨hgrows, fun c'' hkeeps => hread (hgrows.toKeeps.trans hkeeps) (hagain c'' hkeeps)⟩
  · rintro e c' ⟨hgrows, hagain⟩
    exact ⟨hgrows, hread hgrows.toKeeps hagain⟩

/-! ### Results that are remembered -/

/-- Where its result is not `known`, the computation makes it known, or it fails, leaves it unknown,
and fails again. -/
def Fills (s : Scope) (known : Context → Option α) (x : Resolve α) : Prop :=
  ∀ c, known c = none → Meets x c (fun a c' => c.GrowsIn s c' ∧ known c' = some a)
    fun e c' => c.GrowsIn s c' ∧ known c' = none ∧ Settled x c' (.error e)

section Fills

variable {known : Context → Option α}

theorem Fills.refuse (e : SchemaError) : Fills s known (Resolve.refuse e) :=
  fun c hc => ⟨.refl s c, hc, .throw (.schema e) c⟩

theorem Fills.throw (e : Failure) : Fills s known (MonadExcept.throw e) :=
  fun c hc => ⟨.refl s c, hc, .throw e c⟩

theorem Fills.ofExcept_bind {r : Except SchemaError β} {f : β → Resolve α}
    (hf : ∀ b, r = .ok b → Fills s known (f b)) : Fills s known (Resolve.ofExcept r >>= f) := by
  cases r with
  | ok b => exact hf b rfl
  | error e => exact .refuse e

theorem Fills.ofOutcome_bind {r : Except Failure β} {f : β → Resolve α}
    (hf : ∀ b, Fills s known (f b)) : Fills s known (Resolve.ofOutcome r >>= f) := by
  cases r with
  | ok b => exact hf b
  | error e => exact .throw e

theorem Fills.of_meets {x : Resolve α} (h : ∀ c, known c = none →
    Meets x c (fun a c' => c.GrowsIn s c' ∧ known c' = some a) fun _ _ => False) :
    Fills s known x :=
  fun c hc => (h c hc).imp (fun _ _ h => h) fun _ _ h => h.elim

theorem Fills.bind {x : Resolve β} {f : β → Resolve α} (hx : Repeatable s' x) (hs : s'.Within s)
    (hnone : ∀ {c c'}, c.GrowsIn s' c' → known c = none → known c' = none)
    (hf : ∀ b, Fills s known (f b)) : Fills s known (x >>= f) := by
  intro c hc
  rw [meets_bind]
  refine (hx c).imp ?_ ?_
  · rintro b c₁ ⟨hgrows, hagain⟩
    refine (hf b c₁ (hnone hgrows hc)).imp ?_ ?_
    · rintro a c₂ ⟨hgrows₂, hknown⟩
      exact ⟨(hgrows.mono hs).trans hgrows₂, hknown⟩
    · rintro e c₂ ⟨hgrows₂, hunknown, hagain₂⟩
      exact ⟨(hgrows.mono hs).trans hgrows₂, hunknown, (hagain c₂ hgrows₂.toKeeps).bind hagain₂⟩
  · rintro e c₁ ⟨hgrows, hagain⟩
    exact ⟨hgrows.mono hs, hnone hgrows hc, hagain.bind_error f⟩

/-- **A computation that looks for its result first can be repeated**: a result is there from then
on, and after a failure it is as unknown as before. -/
theorem Repeatable.remembered (known : Context → Option α)
    (hkeep : ∀ {c c' a}, c.Keeps c' → known c = some a → known c' = some a)
    {f : Context → Resolve α} (hsome : ∀ {c a}, known c = some a → f c = Pure.pure a)
    (hnone : ∀ {c c'}, known c = none → known c' = none → f c = f c')
    (hf : ∀ {c}, known c = none → Fills s known (f c)) : Repeatable s (get >>= f) := by
  have hfound : ∀ {c a}, known c = some a → ∀ c'', c.Keeps c'' →
      Settled (get >>= f) c'' (.ok a) := by
    intro c a ha c'' hkeeps
    refine .get_bind fun log => ?_
    rw [hsome (hkeep (hkeeps.trans (c''.keeps_log log)) ha)]
    exact .pure a c''
  intro c
  rw [meets_bind, meets_get]
  cases hc : known c with
  | some a =>
    rw [hsome hc]
    exact ⟨.refl s c, hfound hc⟩
  | none =>
    refine (hf hc c hc).imp ?_ ?_
    · rintro a c' ⟨hgrows, ha⟩
      exact ⟨hgrows, hfound ha⟩
    · rintro e c' ⟨hgrows, hunknown, hagain⟩
      refine ⟨hgrows, .get_bind fun log => ?_⟩
      have hlog : known { c' with log } = none := by
        rw [Option.eq_none_iff_forall_ne_some] at hunknown ⊢
        exact fun a ha => hunknown a (hkeep (c'.log_keeps log) ha)
      rw [hnone hlog hc]
      exact hagain

end Fills

end Resolve

open Resolve

/-! ### Aliases and uses -/

/-- What naming a core may remember: aliases of cores with no more angles. -/
def aliasScope (core : Text) : Scope :=
  { aliases := fun k => angles k ≤ angles core }

theorem aliasName_repeatable (naming : Naming) (core : Text) :
    Repeatable (aliasScope core) (aliasName naming core) := by
  -- an argument that is generic itself has fewer angles
  induction hk : angles core using Nat.strongRecOn generalizing core with
  | _ k ih =>
    subst hk
    rw [aliasName_eq]
    refine (composes_repeatable _).ofExcept_bind fun normal hn => ?_
    have hnormal := angles_normalize_le hn
    refine .remembered (fun c => c.aliasNames.get? normal)
      (fun hkeeps => Table.get?_of_isPrefix hkeeps.aliasNames) (fun h => by simp only [h])
      (fun h h' => by simp only [h, h']) fun h => ?_
    simp only [h]
    refine .ofExcept_bind fun a ha => ?_
    unfold nameApplication
    split
    · exact .refuse _
    · have hargument : ∀ argument ∈ a.arguments,
          Repeatable { aliases := fun k => angles k < angles normal }
            (nameArgument naming argument) := by
        intro argument hm
        refine (composes_repeatable _).ofExcept_bind fun d hd => ?_
        have hcore := Decorated.angles_core_le hd
        have hless := Application.angles_argument_lt ha hm
        split
        · refine (ih _ (by omega) d.core rfl).mono ⟨?_, fun _ h => h, fun _ h => h, fun _ h => h⟩
          intro k (hk : angles k ≤ angles d.core)
          change angles k < angles normal
          omega
        · exact .pure _
      refine .bind (.mapM hargument) ⟨?_, fun _ h => h, fun _ h => h, fun _ h => h⟩
        (fun hgrows => hgrows.aliases_none normal (lt_irrefl _)) fun names => ?_
      · intro k (hk : angles k < angles normal)
        change angles k ≤ angles core
        omega
      · refine .ofOutcome_bind fun formed => .ofExcept_bind fun name _ => .of_meets fun c hc => ?_
        rw [meets_bind, meets_modify, meets_pure]
        refine ⟨⟨{ Context.Keeps.refl c with aliasNames := Table.isPrefix_insert hc name },
          Table.get?_insert_eq_none (aliasScope core).aliases hnormal name, fun _ _ h => h,
            fun _ _ h => h, fun _ _ h => h⟩, ?_⟩
        simp only [Table.get?_insert, if_true]

/-- What reading a type expression may remember: aliases of any cores. -/
def useScope : Scope :=
  { aliases := fun _ => True }

theorem useType_repeatable (naming : Naming) (expression : Text) (letters : Option (List Text))
    (directive : Option Text) :
    Repeatable useScope (useType naming expression letters directive) := by
  unfold useType
  refine .bind (.ofExcept _) fun cut => .bind (.ofExcept _) fun decorated => ?_
  simp only
  split
  · exact .pure _
  · refine .bind (.ofExcept _) fun a => ?_
    split
    · exact .refuse _
    · split
      · exact .pure _
      · refine .bind ((aliasName_repeatable naming decorated.core).mono
          ⟨fun _ _ => trivial, fun _ h => h, fun _ h => h, fun _ h => h⟩) fun name => ?_
        refine .bind ?_ fun _ => .pure _
        -- a use that waits already is not replaced
        intro c
        refine ⟨⟨{ Context.Keeps.refl c with pending := Table.isPrefix_insertIfNew _ _ _ },
          fun _ _ h => h, fun _ _ h => h, fun _ _ h => h, fun _ _ h => h⟩, ?_⟩
        intro c'' hkeeps log
        have hold : c''.pending.contains name := by
          refine Table.contains_of_isPrefix hkeeps.pending ?_
          simp only [Table.contains, Table.get?_insertIfNew, if_true, Option.isSome_some]
        refine ⟨log, ?_⟩
        change ((Except.ok () : Except Failure Unit),
          { c'' with pending := c''.pending.insertIfNew name _, log }) = _
        rw [Table.insertIfNew, if_pos hold]

/-! ### Interfaces -/

section Interfaces

variable (ds : List Declaration)

/-- What closing an interface may remember: interfaces that are not on the path. -/
def closureScope (path : List Text) : Scope :=
  { closures := (· ∉ path) }

theorem closureFrom_repeatable (path : List Text) (owner : Option (Kind × Text)) (name : Text) :
    Repeatable (closureScope path) (closureFrom ds path owner name) := by
  induction hk : unvisited (ds.map Declaration.baseName) path using Nat.strongRecOn
    generalizing path owner name with
  | _ k ih =>
    subst hk
    rw [closureFrom_eq, closureStep]
    refine .remembered (fun c => c.closures.get? name)
      (fun hkeeps => Table.get?_of_isPrefix hkeeps.closures) (fun h => by simp only [h])
      (fun h h' => by simp only [h, h']) fun h => ?_
    simp only [h]
    split
    · exact .refuse _
    · rename_i i hi
      split
      · exact .refuse _
      · rename_i hp
        refine .bind (.mapM fun n _ => ih _
          (unvisited_append_lt (mem_baseNames_of_interfaceNamed? hi) hp)
          _ _ n rfl) ⟨fun _ h => h, fun _ h => h, ?_, fun _ h => h⟩ ?_ fun found => ?_
        · intro k hk hmem
          exact hk (mem_append_left _ hmem)
        · -- the interface is on the path of those that it implements
          intro c c' hgrows
          refine hgrows.closures_none name fun hout => hout ?_
          exact mem_append_right _ (mem_singleton.mpr rfl)
        · refine .of_meets fun c hc => ?_
          rw [meets_bind, meets_modify, meets_pure]
          refine ⟨⟨{ Context.Keeps.refl c with closures := Table.isPrefix_insert hc _ },
            fun _ _ h => h, fun _ _ h => h,
              Table.get?_insert_eq_none (closureScope path).closures hp _, fun _ _ h => h⟩, ?_⟩
          simp only [Table.get?_insert, if_true]

/-- What closing the interfaces of a declaration may remember: any interfaces. -/
def interfaceScope : Scope :=
  { closures := fun _ => True }

theorem closeInterfaces_repeatable (d : Declaration) (names : List Text) :
    Repeatable interfaceScope (closeInterfaces ds d names) := by
  rw [closeInterfaces_eq]
  split
  · exact .pure _
  · refine .get_bind (p := Context.closing) (fun hkeeps => hkeeps.closing)
      (f := fun path => do
        let found ← names.mapM (closureFrom ds (path ++ ownPath d) (some (d.kind, d.name)))
        Resolve.tell (.interfacesClosed d.name found.flatten)
        return some (unique found.flatten)) fun path => ?_
    refine .bind (.mapM fun n _ => ?_) fun found => .bind (.tell _) fun _ => .pure _
    exact (closureFrom_repeatable ds _ _ n).mono
      ⟨fun _ h => h, fun _ h => h, fun _ _ => trivial, fun _ h => h⟩

theorem closure_repeatable (owner : Option (Kind × Text)) (name : Text) :
    Repeatable interfaceScope (closure ds owner name) := by
  refine .get_bind (p := Context.closing) (fun hkeeps => hkeeps.closing)
    (f := fun path => closureFrom ds path owner name) fun path => ?_
  exact (closureFrom_repeatable ds path owner name).mono
    ⟨fun _ h => h, fun _ h => h, fun _ _ => trivial, fun _ h => h⟩

/-! ### Inheritance -/

/-- What resolving a declaration may remember: any interfaces, and declarations that are not on the
path. -/
def resolveScope (path : List Declaration.Key) : Scope :=
  { closures := fun _ => True, resolved := (· ∉ path) }

theorem flatten_repeatable (path : List Declaration.Key) (d : Declaration) (rs : List Declaration) :
    Repeatable (resolveScope path) (flatten ds d rs) := by
  unfold flatten
  refine .bind ((closeInterfaces_repeatable ds _ _).mono ?_) fun implements => .pure _
  exact ⟨fun _ h => h, fun _ h => h.elim, fun _ h => h, fun _ h => h⟩

/-- The ancestors of a declaration, each resolved by `visit`, and the declaration put together with
them. -/
theorem mergeAncestors_repeatable (path : List Declaration.Key) {d : Declaration}
    {visit : Declaration → Resolve Declaration}
    (hvisit : ∀ name a, ancestor ds d name = .ok a → Repeatable (resolveScope path) (visit a)) :
    Repeatable (resolveScope path) (do
      let rs ← visitAncestors ds d fun a _ => visit a
      flatten ds d rs) := by
  refine .bind (visitAncestors_composed (composes_repeatable _) fun a ha => ?_) fun rs =>
    flatten_repeatable ds path d rs
  obtain ⟨name, ha⟩ := ha
  exact hvisit name a ha

theorem resolveFrom_repeatable (path : List Declaration.Key) (d : Declaration) :
    Repeatable (resolveScope path) (resolveFrom ds path d) := by
  induction hk : inheritanceMeasure ds path d using Nat.strongRecOn generalizing path d with
  | _ k ih =>
    subst hk
    rw [resolveFrom_eq, resolveStep]
    split
    · rename_i he
      refine mergeAncestors_repeatable ds path fun name a ha => ?_
      exact ih _ (inheritanceMeasure_extend_lt he (mem_candidates_of_ancestor ha) path) _ _ rfl
    · refine .remembered (fun c => c.resolved.get? d.key)
        (fun hkeeps => Table.get?_of_isPrefix hkeeps.resolved) (fun h => by simp only [h])
        (fun h h' => by simp only [h, h']) fun h => ?_
      simp only [h]
      split
      · exact .refuse _
      · rename_i hp
        rw [← bind_assoc]
        refine .bind (mergeAncestors_repeatable ds (path ++ [d.key]) fun name a ha => ?_)
          ⟨fun _ h => h, ?_, fun _ h => h, fun _ h => h⟩ ?_ fun r => ?_
        · exact ih _ (inheritanceMeasure_append_lt hp (mem_candidates_of_ancestor ha)) _ _ rfl
        · intro k hk hmem
          exact hk (mem_append_left _ hmem)
        · -- the declaration is on the path of those that it inherits from
          intro c c' hgrows
          refine hgrows.resolved_none d.key fun hout => hout ?_
          exact mem_append_right _ (mem_singleton.mpr rfl)
        · refine .of_meets fun c hc => ?_
          rw [meets_bind, meets_modify, meets_pure]
          refine ⟨⟨{ Context.Keeps.refl c with resolved := Table.isPrefix_insert hc _ },
            fun _ _ h => h, Table.get?_insert_eq_none (resolveScope path).resolved hp _,
              fun _ _ h => h, fun _ _ h => h⟩, ?_⟩
          simp only [Table.get?_insert, if_true]

theorem resolve_repeatable (d : Declaration) : Repeatable (resolveScope []) (resolve ds d) := by
  refine .get_bind (p := Context.resolving) (fun hkeeps => hkeeps.resolving)
    (f := fun path => resolveFrom ds path d) fun path => ?_
  exact (resolveFrom_repeatable ds path d).mono
    ⟨fun _ h => h, fun _ _ => not_mem_nil, fun _ h => h, fun _ h => h⟩

end Interfaces

/-! ### Instances -/

section Instances

variable (w : Workshop)

/-- What building an instance may remember: any aliases, and instances that are not on the path. -/
def buildScope (path : List Text) : Scope :=
  { aliases := fun _ => True, instances := (· ∉ path) }

theorem useScope_within (path : List Text) : useScope.Within (buildScope path) :=
  ⟨fun _ h => h, fun _ h => h, fun _ h => h, fun _ h => h.elim⟩

/-- The alias of an instance that is there or being built. -/
def Context.built? (path : List Text) (name : Text) (c : Context) : Option Text :=
  if c.instances.contains name || path.contains name then some name else none

theorem Context.built?_eq_none {name : Text} :
    c.built? path name = none ↔ c.instances.get? name = none ∧ name ∉ path := by
  simp [Context.built?, Table.contains]

theorem Context.built?_eq_some {name a : Text} :
    c.built? path name = some a ↔ (c.instances.contains name ∨ name ∈ path) ∧ name = a := by
  simp [Context.built?]

theorem lookUp_bind {α : Type} (path : List Text) (core : Text)
    (f : Text × Text × Bool → Resolve α) : w.lookUp path core >>= f = (do
      let core ← Resolve.ofExcept (normalize core)
      let name ← aliasName w.naming core
      let c ← get
      f (core, name, c.instances.contains name || path.contains name)) := by
  simp only [Workshop.lookUp, bind_assoc, pure_bind]

/-- A core is named, and its instance built by `make` unless it is there or being built. -/
theorem lookUp_repeatable {make : Text × Text × Bool → Resolve Text}
    (hknown : ∀ core name, make (core, name, true) = pure name)
    (hmake : ∀ core name,
      Fills (buildScope path) (Context.built? path name) (make (core, name, false))) (core : Text) :
    Repeatable (buildScope path) (w.lookUp path core >>= make) := by
  rw [lookUp_bind]
  refine .bind (.ofExcept _) fun core =>
    .bind ((aliasName_repeatable _ core).mono ?_) fun name => ?_
  · exact ⟨fun _ _ => trivial, fun _ h => h, fun _ h => h, fun _ h => h.elim⟩
  · have hunknown : ∀ {c : Context}, c.built? path name = none →
        (c.instances.contains name || path.contains name) = false := by
      intro c hc
      rw [Context.built?_eq_none] at hc
      simp [Table.contains, hc]
    refine .remembered (Context.built? path name) ?_ ?_ ?_ ?_
    · intro c c' a hkeeps
      rw [Context.built?_eq_some, Context.built?_eq_some]
      exact And.imp_left (Or.imp_left (Table.contains_of_isPrefix hkeeps.instances))
    · intro c a ha
      obtain ⟨hbuilt, rfl⟩ := Context.built?_eq_some.mp ha
      have htrue : (c.instances.contains name || path.contains name) := by simpa using hbuilt
      rw [htrue, hknown]
    · intro c c' hc hc'
      rw [hunknown hc, hunknown hc']
    · intro c hc
      rw [hunknown hc]
      exact hmake core name

theorem refuseDepth_fills (s : Scope) (known : Context → Option Text) (path : List Text)
    (core name : Text) : Fills s known (w.refuseDepth path core name) := by
  unfold Workshop.refuseDepth
  split
  · exact .throw _
  · exact .refuse _

theorem record_fills (path : List Text) (core name : Text) (d : Declaration) :
    Fills (buildScope path) (Context.built? path name) (do
      w.record core name d
      return name) := by
  refine .of_meets fun c hc => ?_
  obtain ⟨hnone, hpath⟩ := Context.built?_eq_none.mp hc
  unfold Workshop.record
  simp only [meets_bind, meets_modify, meets_tell, meets_pure]
  refine ⟨⟨{ Context.Keeps.refl c with instances := Table.isPrefix_insert hnone _ }, fun _ _ h => h,
    fun _ _ h => h, fun _ _ h => h, Table.get?_insert_eq_none (buildScope path).instances hpath _⟩,
    ?_⟩
  refine Context.built?_eq_some.mpr ⟨.inl ?_, rfl⟩
  simp only [Table.contains, Table.get?_insert, if_true, Option.isSome_some]

theorem buildFrom_repeatable (room : Nat) (path : List Text) (core : Text) :
    Repeatable (buildScope path) (w.buildFrom room path core) := by
  induction room generalizing path core with
  | zero =>
    rw [w.buildFrom_eq]
    exact lookUp_repeatable w (fun _ _ => rfl)
      (fun core name => refuseDepth_fills w _ _ path core name) core
  | succ room ih =>
    rw [w.buildFrom_eq]
    refine lookUp_repeatable w (fun _ _ => rfl) (fun core name => ?_) core
    change Fills _ _ (w.buildNew path core name (room + 1))
    refine .ofExcept_bind fun t _ => ?_
    refine .bind (specialize_composed (composes_repeatable (buildScope (path ++ [name])))
      (fun u => ?_) t.1 name)
      ⟨fun _ h => h, fun _ h => h, fun _ h => h, ?_⟩ ?_ fun d => record_fills w path core name d
    · refine .bind
        ((substituteUse_composed w (composes_repeatable useScope) (useType_repeatable w.naming) _ _
        u).mono (useScope_within _)) fun u => ?_
      refine .bind (.ofExcept _) fun core => ?_
      cases core with
      | none => exact .pure _
      | some core => exact .bind (ih (path ++ [name]) core) fun _ => .pure _
    · intro k hk hmem
      exact hk (mem_append_left _ hmem)
    · -- the instance is on the path of those that it needs
      intro c c' hgrows
      rw [Context.built?_eq_none, Context.built?_eq_none]
      refine And.imp_left (hgrows.instances_none name fun hout => hout ?_)
      exact mem_append_right _ (mem_singleton.mpr rfl)

theorem build_repeatable (core : Text) : Repeatable (buildScope []) (w.build core) := by
  refine .get_bind (p := Context.building) (fun hkeeps => hkeeps.building)
    (f := fun path => w.buildFrom (w.limit - path.length).toNat path core) fun path => ?_
  exact (buildFrom_repeatable w _ path core).mono
    ⟨fun _ h => h, fun _ h => h, fun _ h => h, fun _ _ => not_mem_nil⟩

theorem buildUse_repeatable (u : TypeUse) : Repeatable (buildScope []) (w.buildUse u) := by
  unfold Workshop.buildUse Workshop.buildUseBy
  refine .bind (.ofExcept _) fun core => ?_
  cases core with
  | none => exact .pure _
  | some core => exact (build_repeatable w core).map some

/-- The uses that wait may be more when they are gone through again, but the first ones are the
same. -/
theorem buildPending_again (c : Context) :
    Meets w.buildPending c (fun _ c' => c.Keeps c')
      fun e c' => c.Keeps c' ∧ Settled w.buildPending c' (.error e) := by
  unfold Workshop.buildPending
  rw [meets_bind, meets_get, meets_bind]
  refine (Repeatable.mapM (fun u _ => buildUse_repeatable w u) c).imp ?_ ?_
  · rintro names c₁ ⟨hgrows, -⟩
    simp only [meets_bind, meets_get, meets_tell, meets_pure]
    exact hgrows.toKeeps.trans (c₁.keeps_log _)
  · rintro e c₁ ⟨hgrows, hagain⟩
    refine ⟨hgrows.toKeeps, .get_bind fun log => ?_⟩
    obtain ⟨more, hmore⟩ := hgrows.pending
    have hvalues : Table.values { c₁ with log }.pending =
        c.pending.values ++ more.map Prod.snd := by
      rw [Table.values, ← hmore, map_append, Table.values]
    rw [hvalues, mapM_append]
    exact (hagain.bind_error _).bind_error _

end Instances

/-! ### Failures that last -/

/-- Every outcome keeps what was remembered and the paths that the run is on.  After a failure the
computation fails again, in the same way, and remembers nothing more. -/
def Resolve.Lasting {α : Type} (x : Resolve α) : Prop :=
  ∀ c r c', x.outcome c = (r, c') →
    c.Keeps c' ∧ ∀ e, r = .error e → ∃ log, x.outcome c' = (.error e, { c' with log })

theorem Resolve.Lasting.of_meets {α : Type} {x : Resolve α}
    (h : ∀ c, Meets x c (fun _ c' => c.Keeps c')
    fun e c' => c.Keeps c' ∧ Settled x c' (.error e)) : Lasting x := by
  intro c r c' hout
  cases r with
  | ok a => exact ⟨(h c).gives hout, fun e he => by cases he⟩
  | error e =>
    obtain ⟨hkeeps, hagain⟩ := (h c).error hout
    refine ⟨hkeeps, fun e' he => ?_⟩
    cases he
    exact hagain c'.log

theorem Resolve.Repeatable.lasting {α : Type} {s : Scope} {x : Resolve α} (h : Repeatable s x) :
    Lasting x :=
  .of_meets fun c => (h c).imp (fun _ _ ha => ha.1.toKeeps) fun _ _ he => ⟨he.1.toKeeps, he.2⟩

/-- **No call forgets or replaces anything, and a failure lasts.**  In whatever context a
declaration is resolved, an interface or a list of them closed, a core named, a type expression
read, an instance or all that are waiting built: the paths are left as they were and every entry of
every table stays, whether the call succeeds or fails; and a call that has failed fails again with
the same error, and adds nothing to any table. -/
theorem calls_keep_and_failures_last (ds : List Declaration) (naming : Naming) (w : Workshop) :
    (∀ d, Lasting (resolve ds d)) ∧
      (∀ owner name, Lasting (closure ds owner name)) ∧
      (∀ d names, Lasting (closeInterfaces ds d names)) ∧
      (∀ core, Lasting (aliasName naming core)) ∧
      (∀ expression letters directive, Lasting (useType naming expression letters directive)) ∧
      (∀ core, Lasting (w.build core)) ∧ Lasting w.buildPending :=
  ⟨fun d => (resolve_repeatable ds d).lasting,
    fun owner name => (closure_repeatable ds owner name).lasting,
    fun d names => (closeInterfaces_repeatable ds d names).lasting,
    fun core => (aliasName_repeatable naming core).lasting,
    fun expression letters directive =>
      (useType_repeatable naming expression letters directive).lasting,
    fun core => (build_repeatable w core).lasting, .of_meets (buildPending_again w)⟩

end Schemata
