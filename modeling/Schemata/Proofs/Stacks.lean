import Schemata.Proofs.Traversals

/-!
# The stacks of a run

Closing an interface, resolving a declaration and building an instance push a name on a stack of the
context while they ask for what they need, and pop it afterwards, whether that succeeds or fails.
What is asked for never looks at the stack itself: the recursion carries the path along, which is
what the stack holds.  So pushing and popping can be left out of every equation, and the other way
round the path can be read off the stack in every call.

## Main results

* `Resolve.Blind.during_eq` — what does not look at a stack comes to the same with entries pushed on
  it.
* `closureFrom_eq`, `closeInterfaces_eq`, `resolveFrom_eq`, `Workshop.buildFrom_eq` — the recursions
  without the stacks.
* `closure_eq`, `resolve_eq`, `Workshop.build_eq` — the recursions on the stacks, without a path.
-/

namespace Schemata

open List

variable {κ α β : Type}

namespace Stack

variable (s : Stack κ) (c : Context) (path path' : List κ)

theorem read_write : s.read (s.write path c) = path := by
  cases s <;> rfl

theorem write_write : s.write path (s.write path' c) = s.write path c := by
  cases s <;> rfl

theorem write_read : s.write (s.read c) c = c := by
  cases s <;> rfl

theorem write_eq_on : s.write path c = c.on (s.write path c) := by
  cases s <;> rfl

theorem pop_write_append (entries : List κ) :
    s.pop entries.length (s.write (path ++ entries) c) = s.write path c := by
  rw [pop, read_write, write_write, length_append, Nat.add_sub_cancel, take_left]

end Stack

namespace Resolve

variable {s : Stack κ} {x : Resolve α}

/-- With entries pushed, a computation comes to the outcome that it has there, and they are popped
from the context that it leaves. -/
theorem outcome_during (s : Stack κ) (entries : List κ) (x : Resolve α) (c : Context) :
    (during s entries x).outcome c =
      ((x.outcome (s.push entries c)).1,
        s.pop entries.length (x.outcome (s.push entries c)).2) := by
  have hpop : ∀ (r : Except Failure α) (c' : Context),
      outcome (tryFinally (fun _ => (r, c') : Resolve α) (modify (s.pop entries.length)))
        (s.push entries c) = (r, s.pop entries.length c') := by
    intro r c'
    cases r <;> rfl
  exact hpop (x.outcome (s.push entries c)).1 (x.outcome (s.push entries c)).2

theorem gives_during {entries : List κ} {c c' : Context} {a : α} :
    Gives (during s entries x) c a c' ↔
    ∃ c₁, Gives x (s.push entries c) a c₁ ∧ s.pop entries.length c₁ = c' := by
  unfold Gives
  rw [outcome_during]
  rcases x.outcome (s.push entries c) with ⟨r, c₁⟩
  simp

theorem meets_during {entries : List κ} {c : Context} {Q : α → Context → Prop}
    {E : Failure → Context → Prop} : Meets (during s entries x) c Q E ↔ Meets x (s.push entries c)
      (fun a c' => Q a (s.pop entries.length c')) fun e c' => E e (s.pop entries.length c') := by
  unfold Meets
  rw [outcome_during]
  rcases x.outcome (s.push entries c) with ⟨r, c₁⟩
  cases r <;> rfl

theorem outcome_get_bind (f : Context → Resolve α) (c : Context) :
    (get >>= f).outcome c = (f c).outcome c :=
  rfl

/-- What is on a stack makes no difference to the computation, and it leaves the stack as it is. -/
def Blind (s : Stack κ) (x : Resolve α) : Prop :=
  ∀ c path, x.outcome (s.write path c) = ((x.outcome c).1, s.write path (x.outcome c).2)

theorem Blind.read_outcome (hx : Blind s x) (c : Context) : s.read (x.outcome c).2 = s.read c := by
  have hout := hx c (s.read c)
  rw [s.write_read] at hout
  rw [hout, s.read_write]

/-- **What does not look at a stack comes to the same with entries pushed on it**, which are popped
again. -/
theorem Blind.during_eq (hx : Blind s x) (entries : List κ) : during s entries x = x := by
  refine ext_outcome fun c => ?_
  have hout := hx c (s.read c)
  rw [s.write_read] at hout
  rw [outcome_during, Stack.push, hx, s.pop_write_append, ← hout]

theorem Blind.bind {f : α → Resolve β} (hx : Blind s x) (hf : ∀ a, Blind s (f a)) :
    Blind s (x >>= f) := by
  intro c path
  rw [outcome_bind, outcome_bind, hx]
  rcases x.outcome c with ⟨r, c'⟩
  cases r with
  | ok a => exact hf a c' path
  | error e => rfl

theorem Blind.get_bind {f : Context → Resolve α} (h : ∀ c path, f (s.write path c) = f c)
    (hf : ∀ c, Blind s (f c)) : Blind s (get >>= f) := by
  intro c path
  change (f (s.write path c)).outcome (s.write path c) = _
  rw [h]
  exact hf c c path

theorem Blind.ofOutcome (r : Except Failure α) : Blind s (Resolve.ofOutcome r) := by
  cases r <;> exact fun _ _ => rfl

/-- Pushing on another stack does not make a difference either. -/
theorem Blind.during {κ' : Type} (hx : Blind s x) (s' : Stack κ') (entries : List κ') :
    Blind s (Resolve.during s' entries x) := by
  have hother (hpush : ∀ c path, s'.push entries (s.write path c) =
    s.write path (s'.push entries c))
      (hpop : ∀ c path, s'.pop entries.length (s.write path c) =
        s.write path (s'.pop entries.length c)) : Blind s (Resolve.during s' entries x) := by
    intro c path
    rw [outcome_during, outcome_during, hpush, hx, hpop]
  have hsame (entries : List κ) : Blind s (Resolve.during s entries x) := by
    rw [hx.during_eq]
    exact hx
  cases s <;> cases s'
  all_goals first
    | exact hsame entries
    | exact hother (fun _ _ => rfl) fun _ _ => rfl

theorem pervades_blind (s : Stack κ) : Pervades (Blind s) where
  pure _ _ _ := rfl
  refuse _ _ _ := rfl
  bind := .bind
  get_bind h hf := .get_bind (fun c path => by rw [s.write_eq_on, h]) hf
  modify {f} h := by
    intro c path
    have hkeeps : f c = (f c).on c := h c c
    change (Except.ok (), f (s.write path c)) = (Except.ok (), s.write path (f c))
    rw [s.write_eq_on, h, hkeeps]
    cases s <;> rfl
  tell _ _ _ := by cases s <;> rfl
  during s' entries hx := hx.during s' entries

/-! ### A path that is read off a stack -/

/-- With `path` on the stack, both computations come to the same, and leave it there. -/
def AgreesOn (s : Stack κ) (path : List κ) (x y : Resolve α) : Prop :=
  ∀ c, s.read c = path → x.outcome c = y.outcome c ∧ s.read (y.outcome c).2 = path

theorem Blind.agreesOn (hx : Blind s x) (path : List κ) : AgreesOn s path x x :=
  fun c hc => ⟨rfl, (hx.read_outcome c).trans hc⟩

theorem AgreesOn.of_read {f : List κ → Resolve α} {path : List κ} (hf : Blind s (f path)) :
    AgreesOn s path (get >>= fun c => f (s.read c)) (f path) := by
  intro c hc
  refine ⟨?_, (hf.read_outcome c).trans hc⟩
  rw [outcome_get_bind, hc]

theorem congruent_agreesOn {path : List κ} : Congruent (AgreesOn s path) where
  pure _ _ hc := ⟨rfl, hc⟩
  bind := by
    intro α β x y f g hx hf c hc
    obtain ⟨hout, hread⟩ := hx c hc
    rw [outcome_bind, outcome_bind, hout]
    rcases hy : y.outcome c with ⟨r, c'⟩
    rw [hy] at hread
    cases r with
    | ok a => exact hf a c' hread
    | error e => exact ⟨rfl, hread⟩

theorem AgreesOn.eq_get_bind {x : Resolve α} {y : List κ → Resolve α}
    (h : ∀ path, AgreesOn s path x (y path)) : x = get >>= fun c => y (s.read c) :=
  ext_outcome fun c => (h _ c rfl).1

/-- What reads the path off the stack comes, with entries pushed, to the same on the longer path. -/
theorem AgreesOn.during_eq {x : Resolve α} {y : List κ → Resolve α}
    (h : ∀ path, AgreesOn s path x (y path)) (hy : ∀ path, Blind s (y path)) (entries : List κ) :
    Resolve.during s entries x = get >>= fun c => y (s.read c ++ entries) := by
  refine ext_outcome fun c => ?_
  have hread : s.read (s.push entries c) = s.read c ++ entries := s.read_write _ _
  rw [outcome_during, (h _ _ hread).1, ← outcome_during, (hy _).during_eq, outcome_get_bind]

theorem AgreesOn.during {x : Resolve α} {y : List κ → Resolve α}
    (h : ∀ path, AgreesOn s path x (y path)) (hy : ∀ path, Blind s (y path))
    (entries path : List κ) :
    AgreesOn s path (Resolve.during s entries x) (y (path ++ entries)) := by
  rw [AgreesOn.during_eq h hy]
  exact .of_read (f := fun path => y (path ++ entries)) (hy (path ++ entries))

end Resolve

open Resolve

variable {ds : List Declaration}

/-! ### Interfaces -/

section Interfaces

variable (path : List Text) (owner : Option (Kind × Text)) (name : Text) (names : List Text)

theorem closureFrom_blind (s : Stack κ) : Blind s (closureFrom ds path owner name) :=
  closureFrom_pervaded (pervades_blind s) ds path owner name

theorem mapM_closureFrom_blind : Blind .closing (names.mapM (closureFrom ds path owner)) :=
  (pervades_blind .closing).mapM fun n _ => closureFrom_blind path owner n .closing

/-- Closing interfaces with entries pushed is closing them on the longer path. -/
theorem during_closure (entries : List Text) :
    during .closing entries (names.mapM (closure ds owner)) = (do
      names.mapM (closureFrom ds ((← get).closing ++ entries) owner)) :=
  AgreesOn.during_eq (fun path => congruent_agreesOn.mapM fun n _ =>
      .of_read (f := fun path => closureFrom ds path owner n)
        (closureFrom_blind path owner n .closing))
    (fun path => mapM_closureFrom_blind path owner names) entries

/-- What closing an interface does on a path, `parents` giving the closures of those it
implements. -/
def closureStep (ds : List Declaration) (path : List Text) (owner : Option (Kind × Text))
    (name : Text) [Decidable (name ∈ path)] (parents : Declaration → Resolve (List (List Text))) :
    Resolve (List Text) := do
  match (← get).closures.get? name with
  | some names => return names
  | none =>
      match interfaceNamed? ds name with
      | none => Resolve.refuse (notInterface ds name owner)
      | some i =>
          if name ∈ path then
            Resolve.refuse (.cyclicInterface (path.dropWhile (· != name) ++ [name]) name)
          else
            let found ← parents i
            let names := unique (name :: found.flatten)
            modify fun c => { c with closures := c.closures.insert name names }
            return names

theorem closureFrom_eq : closureFrom ds path owner name = closureStep ds path owner name fun i =>
    (i.implements.getD []).mapM (closureFrom ds (path ++ [name]) (some (i.kind, i.name))) := by
  rw [closureFrom, closureStep]
  simp only [(mapM_closureFrom_blind _ _ _).during_eq, dite_eq_ite]
  refine bind_congr fun c => ?_
  cases c.closures.get? name with
  | some names => rfl
  | none =>
    simp only
    split
    · rename_i hi
      rw [hi]
    · rename_i i hi
      rw [hi]

theorem closeInterfaces_eq (d : Declaration) :
    closeInterfaces ds d names = (do
      if names.isEmpty then return none
      else
        let path := (← get).closing ++ ownPath d
        let found ← names.mapM (closureFrom ds path (some (d.kind, d.name)))
        Resolve.tell (.interfacesClosed d.name found.flatten)
        return some (unique found.flatten)) := by
  rw [closeInterfaces, during_closure]
  rfl

/-- **An interface is closed on the stack**: those it implements are closed with its name pushed,
and find the names of those being closed there. -/
theorem closure_eq : closure ds owner name = (do
    closureStep ds (← get).closing owner name fun i =>
      during .closing [name]
        ((i.implements.getD []).mapM (closure ds (some (i.kind, i.name))))) := by
  refine ext_outcome fun c => ?_
  change (closureFrom ds c.closing owner name).outcome c = _
  simp only [closureFrom_eq c.closing, during_closure, closureStep, outcome_get_bind]
  cases c.closures.get? name with
  | some names => rfl
  | none =>
    cases interfaceNamed? ds name with
    | none => rfl
    | some i =>
      simp only
      split
      · rfl
      · rw [bind_assoc, outcome_get_bind]

end Interfaces

/-! ### Inheritance -/

section Inheritance

variable (path : List Declaration.Key) (d : Declaration)

theorem resolveFrom_blind : Blind .resolving (resolveFrom ds path d) :=
  resolveFrom_pervaded (pervades_blind .resolving) ds
    (fun hf => .get_bind (fun _ _ => rfl) fun _ => hf _) path d

theorem visitAncestors_blind :
    Blind .resolving (visitAncestors ds d fun a _ => resolveFrom ds path a) :=
  visitAncestors_composed (pervades_blind .resolving).toComposes fun a _ => resolveFrom_blind path a

theorem agreesOn_visitAncestors :
    AgreesOn .resolving path (visitAncestors ds d fun a _ => resolve ds a)
      (visitAncestors ds d fun a _ => resolveFrom ds path a) := by
  refine visitAncestors_congruent congruent_agreesOn (fun e c hc => ⟨rfl, hc⟩) fun a _ => ?_
  exact .of_read (f := fun path => resolveFrom ds path a) (resolveFrom_blind path a)

/-- What resolving a declaration does on a path: one that extends another takes the ancestors that
`found` gives, any other one those that `pushed` gives, unless it is remembered. -/
def resolveStep (ds : List Declaration) (path : List Declaration.Key) (d : Declaration)
    (found pushed : Resolve (List Declaration)) : Resolve Declaration := do
  if d.isExtend then
    let ancestors ← found
    flatten ds d ancestors
  else
    match (← get).resolved.get? d.key with
    | some r => return r
    | none =>
        if d.key ∈ path then
          let names := (path.dropWhile (· != d.key)).map Declaration.Key.name ++ [d.name]
          Resolve.refuse (.cyclicInheritance names d.kind d.name)
        else
          let ancestors ← pushed
          let r ← flatten ds d ancestors
          modify fun c => { c with resolved := c.resolved.insert d.key r }
          return r

theorem resolveFrom_eq : resolveFrom ds path d = resolveStep ds path d
    (visitAncestors ds d fun a _ => resolveFrom ds path a)
    (visitAncestors ds d fun a _ => resolveFrom ds (path ++ [d.key]) a) := by
  rw [resolveFrom]
  simp only [(visitAncestors_blind _ _).during_eq, dite_eq_ite]
  rfl

/-- **A declaration is resolved on the stack**: those it inherits from are resolved with its
identity pushed, unless it extends another one, and find the identities of those being resolved
there. -/
theorem resolve_eq : resolve ds d = (do
    resolveStep ds (← get).resolving d (visitAncestors ds d fun a _ => resolve ds a)
      (during .resolving [d.key] (visitAncestors ds d fun a _ => resolve ds a))) := by
  refine ext_outcome fun c => ?_
  change (resolveFrom ds c.resolving d).outcome c = (resolveStep ds c.resolving d _ _).outcome c
  rw [resolveFrom_eq, AgreesOn.during_eq (fun path => agreesOn_visitAncestors path d) fun path =>
    visitAncestors_blind path d, AgreesOn.eq_get_bind fun path => agreesOn_visitAncestors path d]
  unfold resolveStep
  split
  · rw [bind_assoc, outcome_get_bind]
    rfl
  · rw [outcome_get_bind, outcome_get_bind]
    cases c.resolved.get? d.key with
    | some r => rfl
    | none =>
      simp only
      split
      · rfl
      · rw [bind_assoc, outcome_get_bind]
        rfl

end Inheritance

/-! ### Instances -/

namespace Workshop

variable (w : Workshop) (room : Nat) (path : List Text) (core : Text)
    (parameters arguments : List Text)
  (template : Declaration) (name : Text)

theorem buildFrom_blind :
    Blind .building (w.buildFrom room path core) :=
  buildFrom_pervaded (pervades_blind .building) w (fun _ _ => .ofOutcome _) room path
    (fun _ _ _ _ => rfl) core

theorem specialize_blind : Blind .building
      (template.specialize name (w.visit (w.buildFrom room path) parameters arguments)) :=
  specialize_composed (pervades_blind .building).toComposes (fun u =>
    visit_pervaded (pervades_blind .building) w (fun _ _ => .ofOutcome _)
      (w.buildFrom_blind room path) _ _ u)
    template name

/-- Build the instance of a core that has none, and those it needs. -/
def buildNew (w : Workshop) (path : List Text) (core name : Text) : Nat → Resolve Text
  | 0 => w.refuseDepth path core name
  | room + 1 => do
      let t ← Resolve.ofExcept (w.templateOf core)
      let d ← t.1.specialize name <|
        w.visit (w.buildFrom room (path ++ [name])) (t.1.parameters.getD []) t.2
      w.record core name d
      return name

theorem buildFrom_eq :
    w.buildFrom room path core = w.lookUp path core >>= fun r =>
      if r.2.2 then pure r.2.1 else w.buildNew path r.1 r.2.1 room := by
  cases room with
  | zero => rfl
  | succ room =>
    refine bind_congr fun r => ?_
    obtain ⟨core, name, known⟩ := r
    cases known with
    | true => rfl
    | false =>
      refine bind_congr fun t => ?_
      change (during .building [name] (t.1.specialize name
        (w.visit (w.buildFrom room (path ++ [name])) (t.1.parameters.getD []) t.2)) >>= _) = _
      rw [(w.specialize_blind room (path ++ [name]) _ t.2 t.1 name).during_eq]

theorem agreesOn_specialize :
    AgreesOn .building path (template.specialize name (w.visit w.build parameters arguments))
      (template.specialize name
        (w.visit (w.buildFrom (w.limit - path.length).toNat path) parameters arguments)) := by
  refine specialize_congruent congruent_agreesOn (fun u => ?_) template name
  have hblind := pervades_blind Stack.building
  refine visit_congruent congruent_agreesOn (fun _ => Blind.agreesOn (hblind.ofExcept _) path)
    ?_ fun core => ?_
  · exact Blind.agreesOn (substituteUse_composed w hblind.toComposes
      (useType_pervaded hblind fun _ _ => .ofOutcome _) _ _ u) path
  · exact .of_read (f := fun path => w.buildFrom (w.limit - path.length).toNat path core)
      (w.buildFrom_blind _ path core)

theorem agreesOn_during :
    AgreesOn .building path
      (during .building [name] (template.specialize name (w.visit w.build parameters arguments)))
      (template.specialize name (w.visit (w.buildFrom (w.limit - (path ++ [name]).length).toNat
        (path ++ [name])) parameters arguments)) :=
  AgreesOn.during (y := fun path => template.specialize name
      (w.visit (w.buildFrom (w.limit - path.length).toNat path) parameters arguments))
    (fun path => w.agreesOn_specialize path parameters arguments template name)
    (fun path =>
      w.specialize_blind (w.limit - path.length).toNat path parameters arguments template name)
    [name] path

/-- **An instance is built on the stack**: the instances it needs are built with its alias pushed,
and find the aliases of those being built there, whose number is limited. -/
theorem build_eq :
    w.build core = (do
      let path := (← get).building
      let (core, name, known) ← w.lookUp path core
      if known then return name
      else if w.limit ≤ path.length then w.refuseDepth path core name
      else
        let (template, arguments) ← Resolve.ofExcept (w.templateOf core)
        let d ← during .building [name] <|
          template.specialize name (w.visit w.build (template.parameters.getD []) arguments)
        w.record core name d
        return name) := by
  refine ext_outcome fun c => ?_
  change (w.buildFrom (w.limit - c.building.length).toNat c.building core).outcome c = _
  rw [buildFrom_eq, outcome_get_bind]
  have hblind := pervades_blind Stack.building
  refine Eq.symm (And.left (congruent_agreesOn.bind (Blind.agreesOn (lookUp_pervaded hblind w
    (fun _ _ => .ofOutcome _) c.building core) c.building) (fun r => ?_) c rfl))
  obtain ⟨core, name, known⟩ := r
  cases known with
  | true => exact congruent_agreesOn.pure _
  | false =>
    simp only [Bool.false_eq_true, if_false]
    by_cases hlimit : w.limit ≤ c.building.length
    · rw [if_pos hlimit, Int.toNat_eq_zero.mpr (by omega)]
      refine Blind.agreesOn ?_ _
      unfold refuseDepth
      split <;> exact fun _ _ => rfl
    · have hroom : (w.limit - c.building.length).toNat =
          (w.limit - (c.building ++ [name]).length).toNat + 1 := by
        rw [length_append, length_singleton]
        omega
      rw [if_neg hlimit, hroom]
      refine congruent_agreesOn.bind (Blind.agreesOn (hblind.ofExcept _) _) fun t => ?_
      obtain ⟨template, arguments⟩ := t
      refine congruent_agreesOn.bind (w.agreesOn_during c.building _ arguments template name)
        fun d => ?_
      exact Blind.agreesOn (hblind.bind (record_pervaded hblind w core name d) fun _ =>
        hblind.pure _) _

end Workshop

end Schemata
