import Schemata.Proofs.Instances
import Schemata.Proofs.Reading

/-!
# Passes over the pending uses

Building the instance of a pending use may make further uses pending.  One could go over the pending
uses again and again until none is left that has not been gone over.  Such passes come to an end,
and it is the end of the first one: a use becomes pending while an instance is being built, and is
built at once, inside of it.  So after a pass that succeeds, the instance of every use that has
become pending on the way is there, and a further pass finds it there and leaves everything as it
is.

What is on the path while instances are being built is seen by a watcher, who is told every path on
which an instance is put.  A watcher who does nothing on paths of different aliases within the limit
does nothing at all, so there are no other paths.
-/

namespace Schemata

open Resolve List

variable {c : Context} {room : Nat} {u : TypeUse} {done : List Text}

/-! ### Passes -/

/-- The pending uses whose aliases are not among those done. -/
def Context.due (c : Context) (done : List Text) : List (Text × TypeUse) :=
  c.pending.entries.filter fun e => !done.contains e.1

/-- One pass over the uses that are due; the result is the aliases that are done after it. -/
def pass (build : TypeUse → Resolve (Option Text)) (done : List Text) : Resolve (List Text) := do
  let due := (← get).due done
  let _ ← due.mapM fun e => build e.2
  return done ++ due.map Prod.fst

/-- Passes, one after the other, until no use is due.  They start in the context `c` with the
aliases `done`, and come to the outcome `r` in the context `c'`. -/
inductive Passes (build : TypeUse → Resolve (Option Text)) :
    List Text → Context → Except Failure Unit → Context → Prop
  | rest {done : List Text} {c : Context} (due : c.due done = []) : Passes build done c (.ok ()) c
  | fail {done : List Text} {c c' : Context} {e : Failure} (due : c.due done ≠ [])
      (fails : (pass build done).outcome c = (.error e, c')) : Passes build done c (.error e) c'
  | next {done done' : List Text} {c c₁ c' : Context} {r : Except Failure Unit}
      (due : c.due done ≠ [])
      (gives : Gives (pass build done) c done' c₁) (later : Passes build done' c₁ r c') :
      Passes build done c r c'

theorem Passes.unique {build : TypeUse → Resolve (Option Text)} {c' c'' : Context}
    {r r' : Except Failure Unit} (h : Passes build done c r c') (h' : Passes build done c r' c'') :
    r' = r ∧ c'' = c' := by
  -- which of the three comes next is decided by what is due and by the outcome of the pass
  induction h with
  | rest due =>
    cases h' with
    | rest => exact ⟨rfl, rfl⟩
    | fail due' => exact absurd due due'
    | next due' => exact absurd due due'
  | fail due fails =>
    cases h' with
    | rest due' => exact absurd due' due
    | fail _ fails' =>
      rw [fails, Prod.mk.injEq, Except.error.injEq] at fails'
      exact ⟨by rw [fails'.1], fails'.2.symm⟩
    | next _ gives' =>
      unfold Gives at gives'
      rw [fails, Prod.mk.injEq] at gives'
      cases gives'.1
  | next due gives later ih =>
    unfold Gives at gives
    cases h' with
    | rest due' => exact absurd due' due
    | fail _ fails' =>
      rw [gives, Prod.mk.injEq] at fails'
      cases fails'.1
    | next _ gives' later' =>
      unfold Gives at gives'
      rw [gives, Prod.mk.injEq, Except.ok.injEq] at gives'
      obtain ⟨rfl, rfl⟩ := gives'
      exact ih later'

theorem due_nil (c : Context) : c.due [] = c.pending.entries :=
  filter_eq_self.mpr fun _ _ => rfl

theorem outcome_pass (build : TypeUse → Resolve (Option Text)) (done : List Text) (c : Context) :
    (pass build done).outcome c = ((c.due done).mapM (fun e => build e.2) >>= fun _ =>
      pure (done ++ (c.due done).map Prod.fst)).outcome c := by
  rw [pass, outcome_bind]
  rfl

/-! ### What need not be built -/

/-- The instance of a core is there or being built, and the alias of the core is remembered. -/
def Context.Known (c : Context) (path : List Text) (core : Text) : Prop :=
  ∃ k k' n, normalize core = .ok k ∧ normalize k = .ok k' ∧ c.aliasNames.get? k' = some n ∧
    (n ∈ path ∨ (c.instances.get? n).isSome = true)

theorem gives_aliasName {naming : Naming} {core k n : Text} (hk : normalize core = .ok k)
    (hn : c.aliasNames.get? k = some n) : Gives (aliasName naming core) c n c := by
  rw [aliasName_eq]
  simp only [gives_bind, gives_ofExcept, gives_get]
  refine ⟨k, c, ⟨hk, rfl⟩, c, c, ⟨rfl, rfl⟩, ?_⟩
  simp [hn]

section

variable {w : Workshop} {path : List Text} {core : Text} {c c₁ c₂ c₃ c' : Context}

/-- A core whose instance is there or being built is looked up, and nothing changes. -/
theorem Context.Known.gives_lookUp (h : c.Known path core) :
    ∃ k n, Gives (w.lookUp path core) c (k, n, true) c := by
  obtain ⟨k, k', n, hk, hk', hn, hknown⟩ := h
  refine ⟨k, n, ?_⟩
  unfold Workshop.lookUp
  simp only [gives_bind, gives_ofExcept, gives_get, gives_pure]
  refine ⟨k, c, ⟨hk, rfl⟩, n, c, gives_aliasName hk' hn, c, c, ⟨rfl, rfl⟩, ?_, rfl⟩
  rw [Prod.mk.injEq, Prod.mk.injEq]
  refine ⟨rfl, rfl, ?_⟩
  rw [Bool.or_eq_true, contains_iff_mem]
  exact hknown.symm

theorem Context.Known.gives_buildFrom (h : c.Known path core) (room : Nat) :
    ∃ n, Gives (w.buildFrom room path core) c n c := by
  obtain ⟨k, n, hlook⟩ := h.gives_lookUp (w := w)
  refine ⟨n, ?_⟩
  rw [w.buildFrom_eq, gives_bind]
  exact ⟨_, c, hlook, by simp⟩

theorem lookUp_gives {r : Text × Text × Bool} (h : Gives (w.lookUp path core) c r c') :
    c.Learns c' ∧ normalize core = .ok r.1 ∧
      (∃ k, normalize r.1 = .ok k ∧ c'.aliasNames.get? k = some r.2.1) ∧
      r.2.2 = (c'.instances.contains r.2.1 || path.contains r.2.1) := by
  unfold Workshop.lookUp at h
  simp only [gives_bind, gives_ofExcept, gives_get, gives_pure] at h
  obtain ⟨k, _, ⟨hk, rfl⟩, n, c₁, hn, _, _, ⟨rfl, rfl⟩, rfl, rfl⟩ := h
  obtain ⟨hlearns, hremembered⟩ := (aliasName_meets w.naming k c).gives hn
  exact ⟨hlearns, hk, hremembered, rfl⟩

/-! ### What building leaves -/

/-- What building instances leaves, while those on the path are being built: nothing is forgotten,
and the uses that have become pending need not be built. -/
structure Context.Settles (path : List Text) (c c' : Context) : Prop where
  names : ∀ {k n}, c.aliasNames.get? k = some n → c'.aliasNames.get? k = some n
  instances : ∀ {n}, (c.instances.get? n).isSome = true → (c'.instances.get? n).isSome = true
  /-- The uses that have become pending have instances, or refer to the path. -/
  pending : ∃ new, c'.pending.entries = c.pending.entries ++ new ∧
    ∀ e ∈ new, ∃ core, Workshop.concreteCore e.2 = .ok (some core) ∧ c'.Known path core
  /-- The path that a computation starts on is left as it is. -/
  building : c'.building = c.building

theorem Context.Settles.known (h : c.Settles path c') (hknown : c.Known path core) :
    c'.Known path core := by
  obtain ⟨k, k', n, hk, hk', hn, hpath⟩ := hknown
  exact ⟨k, k', n, hk, hk', h.names hn, hpath.imp_right h.instances⟩

theorem Context.Settles.refl (path : List Text) (c : Context) : c.Settles path c where
  names := id
  instances := id
  pending := ⟨[], by simp, by simp⟩
  building := rfl

theorem Context.Settles.trans (h : c₁.Settles path c₂) (h' : c₂.Settles path c₃) :
    c₁.Settles path c₃ where
  names := fun hk => h'.names (h.names hk)
  instances := fun hn => h'.instances (h.instances hn)
  pending := by
    obtain ⟨new, hnew, hall⟩ := h.pending
    obtain ⟨new', hnew', hall'⟩ := h'.pending
    refine ⟨new ++ new', by rw [hnew', hnew, append_assoc], ?_⟩
    intro e he
    rcases mem_append.mp he with he | he
    · obtain ⟨core, hcore, hknown⟩ := hall e he
      exact ⟨core, hcore, h'.known hknown⟩
    · exact hall' e he
  building := h'.building.trans h.building

theorem Context.Learns.settles (h : c.Learns c') : c.Settles path c' where
  names := h.keep
  instances := by
    rw [h.frame]
    exact id
  pending := ⟨[], by rw [h.frame, append_nil], by simp⟩
  building := by rw [h.frame]

theorem Context.Settles.register {name : Text}
    (h : Context.Settles path { c with pending := c.pending.insertIfNew name u } c')
    (hcore : Workshop.concreteCore u = .ok (some core)) (hknown : c'.Known path core) :
    c.Settles path c' where
  names := h.names
  instances := h.instances
  pending := by
    obtain ⟨new, hnew, hall⟩ := h.pending
    rcases Table.entries_insertIfNew c.pending name u with heq | heq
    · exact ⟨new, by rw [hnew, heq], hall⟩
    · refine ⟨(name, u) :: new, by rw [hnew, heq, append_assoc, singleton_append], ?_⟩
      intro e he
      rcases mem_cons.mp he with rfl | he
      · exact ⟨core, hcore, hknown⟩
      · exact hall e he
  building := h.building

theorem Context.Settles.record {n : Text} (h : c.Settles (path ++ [n]) c') (i : Instance)
    (log : Log) : c.Settles path { c' with instances := c'.instances.insert n i, log } := by
  have hsome : ∀ {m}, (c'.instances.get? m).isSome → ((c'.instances.insert n i).get? m).isSome := by
    intro m hm
    rw [Table.get?_insert]
    split_ifs
    · rfl
    · exact hm
  refine ⟨h.names, fun hm => hsome (h.instances hm), ?_, h.building⟩
  obtain ⟨new, hnew, hall⟩ := h.pending
  refine ⟨new, hnew, ?_⟩
  intro e he
  obtain ⟨core, hcore, k, k', m, hk, hk', hm, hpath⟩ := hall e he
  refine ⟨core, hcore, k, k', m, hk, hk', hm, ?_⟩
  rcases hpath with hpath | hthere
  · rcases mem_append.mp hpath with hpath | hpath
    · exact .inl hpath
    · rw [mem_singleton.mp hpath, Table.get?_insert, if_pos rfl]
      exact .inr rfl
  · exact .inr (hsome hthere)

/-- A use in a template is settled when it has been visited, if building an instance settles what it
needs. -/
theorem visit_settles {parameters arguments : List Text} {u' : TypeUse}
    (build : ∀ {core name c c'}, Gives (w.buildFrom room path core) c name c' →
      c.Settles path c' ∧ c'.Known path core)
    (h : Gives (w.visit (w.buildFrom room path) parameters arguments u) c u' c') :
    c.Settles path c' := by
  simp only [Workshop.visit, gives_bind, gives_ofExcept] at h
  obtain ⟨v, c₁, hsub, o, _, ⟨ho, rfl⟩, h⟩ := h
  -- from the context in which the use has been substituted, its instance is built
  have hbuild : c₁.Settles path c' ∧ ∀ core, o = some core → c'.Known path core := by
    cases o with
    | none =>
      obtain ⟨-, rfl⟩ := gives_pure.mp h
      exact ⟨.refl path c₁, by simp⟩
    | some core =>
      simp only [gives_bind, gives_pure] at h
      obtain ⟨_, _, hbuild, -, rfl⟩ := h
      obtain ⟨hsettles, hknown⟩ := build hbuild
      refine ⟨hsettles, ?_⟩
      rintro _ ⟨⟩
      exact hknown
  unfold Workshop.substituteUse at hsub
  split_ifs at hsub
  · simp only [gives_bind, gives_ofExcept] at hsub
    obtain ⟨e, _, ⟨-, rfl⟩, huse⟩ := hsub
    obtain ⟨c₀, hlearns, rfl | ⟨hconcrete, name, rfl⟩⟩ := (useType_meets _ _ _ _ _).gives huse
    · exact hlearns.settles.trans hbuild.1
    · rcases concreteCore_eq_ok ho with ⟨hno, -⟩ | ⟨-, core, -, rfl⟩
      · rw [hconcrete] at hno
        cases hno
      · exact hlearns.settles.trans (hbuild.1.register ho (hbuild.2 core rfl))
  · obtain ⟨-, rfl⟩ := gives_pure.mp hsub
    exact hbuild.1

/-- **Building an instance settles what it needs**: the instance is there or being built, and so are
those of the uses that have become pending on the way. -/
theorem buildFrom_settles {name : Text} (h : Gives (w.buildFrom room path core) c name c') :
    c.Settles path c' ∧ c'.Known path core := by
  -- by induction on the room that is left, with the path open: inside of an instance it is longer
  induction room using Nat.strongRecOn generalizing path core name c c' with
  | ind room ih =>
    rw [w.buildFrom_eq, gives_bind] at h
    obtain ⟨⟨k, n, known⟩, c₁, hr, h⟩ := h
    obtain ⟨hlearns, hk, ⟨k', hk', hn⟩, hknown⟩ := lookUp_gives hr
    simp only at h hk hn hknown
    split_ifs at h with hkn
    · obtain ⟨-, rfl⟩ := gives_pure.mp h
      rw [hkn, eq_comm, Bool.or_eq_true, contains_iff_mem] at hknown
      exact ⟨hlearns.settles, k, k', n, hk, hk', hn, hknown.symm⟩
    cases room with
    | zero => exact absurd h not_gives_refuseDepth
    | succ room =>
      simp only [Workshop.buildNew, gives_bind, gives_ofExcept, gives_pure] at h
      obtain ⟨⟨template, arguments⟩, _, ⟨-, rfl⟩, d, c₂, hd, _, c₃, hrecord, -, rfl⟩ := h
      obtain ⟨⟨-, hsettles⟩, -⟩ := (Declaration.specialize_meets (I := fun _ => True)
        (A := fun c _ c' => c.Settles (path ++ [n]) c') (S := fun _ _ _ => True)
        (E := fun _ _ _ => True)
        (Context.Settles.refl _) Context.Settles.trans (fun _ h => h) (fun _ h => h)
        (fun u _ c _ => .of_gives fun _ _ hv =>
          ⟨⟨trivial, visit_settles (ih room room.lt_succ_self) hv⟩, trivial⟩) trivial).gives hd
      -- what was settled by being on the path is settled by being there
      unfold Workshop.record at hrecord
      simp only [gives_bind, gives_modify, gives_tell] at hrecord
      obtain ⟨_, _, rfl, rfl⟩ := hrecord
      refine ⟨hlearns.settles.trans (hsettles.record _ _), k, k', n, hk, hk', hsettles.names hn,
        .inr ?_⟩
      rw [Table.get?_insert, if_pos rfl]
      rfl

/-- Building the instance of a use where none is being built settles what it needs. -/
theorem buildUse_settles {o : Option Text} (hpath : c.building = [])
    (h : Gives (w.buildUse u) c o c') : c.Settles [] c' := by
  unfold Workshop.buildUse Workshop.buildUseBy at h
  simp only [gives_bind, gives_ofExcept] at h
  obtain ⟨core, _, ⟨-, rfl⟩, h⟩ := h
  cases core with
  | none =>
    obtain ⟨-, rfl⟩ := gives_pure.mp h
    exact .refl [] c
  | some core =>
    obtain ⟨name, hbuild, -⟩ := gives_map.mp h
    unfold Workshop.build at hbuild
    simp only [gives_bind, gives_get] at hbuild
    obtain ⟨_, _, ⟨rfl, rfl⟩, hbuild⟩ := hbuild
    rw [hpath] at hbuild
    exact (buildFrom_settles hbuild).1

theorem gives_buildUse (hpath : c.building = [])
    (hu : ∃ core, Workshop.concreteCore u = .ok (some core) ∧ c.Known [] core) :
    ∃ o, Gives (w.buildUse u) c o c := by
  obtain ⟨core, hcore, hknown⟩ := hu
  obtain ⟨n, hbuild⟩ := hknown.gives_buildFrom (w := w) (w.limit - ([] : List Text).length).toNat
  refine ⟨some n, ?_⟩
  unfold Workshop.buildUse Workshop.buildUseBy Workshop.build
  simp only [gives_bind, gives_ofExcept]
  refine ⟨some core, c, ⟨hcore, rfl⟩, ?_⟩
  simp only [gives_map, gives_bind, gives_get]
  exact ⟨n, ⟨c, c, ⟨rfl, rfl⟩, by rw [hpath]; exact hbuild⟩, rfl⟩

/-! ### The first pass and those after it -/

theorem pass_settles {done' : List Text} (hpath : c.building = [])
    (h : Gives (pass w.buildUse done) c done' c') :
    c.Settles [] c' ∧ done' = done ++ (c.due done).map Prod.fst := by
  unfold Gives at h
  rw [outcome_pass] at h
  obtain ⟨os, c₁, hos, hdone⟩ := gives_bind.mp h
  obtain ⟨rfl, rfl⟩ := gives_pure.mp hdone
  obtain ⟨-, hsettles, -⟩ := Gives.mapM (I := fun c => c.building = []) (L := Context.Settles [])
    (Q := fun _ _ _ => True) (Context.Settles.refl []) Context.Settles.trans (fun _ h => h)
    (by
      intro e _ c o c' hc ho
      have hsettles := buildUse_settles hc ho
      exact ⟨hsettles.building.trans hc, hsettles, trivial⟩)
    hpath hos
  exact ⟨hsettles, rfl⟩

theorem gives_pass (hpath : c.building = [])
    (hdue : ∀ e ∈ c.due done, ∃ core, Workshop.concreteCore e.2 = .ok (some core) ∧
      c.Known [] core) :
    Gives (pass w.buildUse done) c (done ++ (c.due done).map Prod.fst) c := by
  have hall : ∀ es : List (Text × TypeUse), (∀ e ∈ es, ∃ core,
      Workshop.concreteCore e.2 = .ok (some core) ∧ c.Known [] core) →
      ∃ os, Gives (es.mapM fun e => w.buildUse e.2) c os c := by
    intro es hes
    induction es with
    | nil => exact ⟨[], gives_mapM_nil.mpr ⟨rfl, rfl⟩⟩
    | cons e es ih =>
      obtain ⟨o, ho⟩ := gives_buildUse (w := w) hpath (hes e mem_cons_self)
      obtain ⟨os, hos⟩ := ih fun e he => hes e (mem_cons_of_mem _ he)
      exact ⟨o :: os, gives_mapM_cons.mpr ⟨o, c, os, ho, hos, rfl⟩⟩
  obtain ⟨os, hos⟩ := hall _ hdue
  unfold Gives
  rw [outcome_pass]
  exact gives_bind.mpr ⟨os, c, hos, gives_pure.mpr ⟨rfl, rfl⟩⟩

theorem due_append (c : Context) (done : List Text) :
    c.due (done ++ (c.due done).map Prod.fst) = [] := by
  refine filter_eq_nil_iff.mpr ?_
  intro e he
  by_cases hdone : e.1 ∈ done
  · simp [hdone]
  · have hdue : e ∈ c.due done := mem_filter.mpr ⟨he, by simpa using hdone⟩
    have hmem : e.1 ∈ (c.due done).map Prod.fst := mem_map_of_mem hdue
    simp [hmem]

theorem passes_after_first (hpath : c.building = []) (h : Gives (pass w.buildUse []) c done c') :
    Passes w.buildUse done c' (.ok ()) c' := by
  obtain ⟨hsettles, rfl⟩ := pass_settles hpath h
  obtain ⟨new, hnew, hall⟩ := hsettles.pending
  -- what is due has become pending in the pass
  have hdue : ∀ e ∈ c'.due ([] ++ (c.due []).map Prod.fst), ∃ core,
      Workshop.concreteCore e.2 = .ok (some core) ∧ c'.Known [] core := by
    intro e he
    obtain ⟨hmem, hdone⟩ := mem_filter.mp he
    rw [hnew] at hmem
    rcases mem_append.mp hmem with hmem | hmem
    · rw [due_nil, nil_append] at hdone
      have hkey : e.1 ∈ c.pending.entries.map Prod.fst := mem_map_of_mem hmem
      simp [hkey] at hdone
    · exact hall e hmem
  by_cases hnil : c'.due ([] ++ (c.due []).map Prod.fst) = []
  · exact .rest hnil
  · exact .next hnil (gives_pass (hsettles.building.trans hpath) hdue) (.rest (due_append c' _))

end

/-! ### Watching the path -/

namespace Workshop

/-- Build the instance of a use with a watcher. -/
def buildUseWatched (w : Workshop) (watch : List Text → Resolve Unit) :
    TypeUse → Resolve (Option Text) :=
  buildUseBy fun core => do
    let path := (← get).building
    w.buildWatched watch (w.limit - path.length).toNat path core

end Workshop

/-- A watcher who does nothing on paths of different aliases within the limit of a workshop. -/
def Workshop.Unseen (w : Workshop) (watch : List Text → Resolve Unit) : Prop :=
  ∀ path, path.Nodup → (path.length : Int) ≤ w.limit → watch path = pure ()

section

variable {w : Workshop} {watch : List Text → Resolve Unit}

/-- **Instances nest on paths of different aliases within the limit**: a watcher who does nothing on
them does nothing at all. -/
theorem buildWatched_eq (hwatch : w.Unseen watch) {path : List Text} {core : Text}
    (hnodup : path.Nodup) (hroom : room = 0 ∨ (path.length + room : Int) ≤ w.limit) :
    w.buildWatched watch room path core = w.buildFrom room path core := by
  induction room generalizing path core with
  | zero => rfl
  | succ room ih =>
    have hlength : (path.length + (room + 1 : Nat) : Int) ≤ w.limit :=
      hroom.resolve_left (Nat.succ_ne_zero room)
    refine ext_outcome fun c => ?_
    rw [Workshop.buildFrom, Workshop.buildWatched, Workshop.buildWatched, outcome_bind,
      outcome_bind]
    rcases hlook : (w.lookUp path core).outcome c with ⟨r, c₁⟩
    cases r with
    | error e => rfl
    | ok r =>
      obtain ⟨k, n, known⟩ := r
      simp only
      cases known with
      | true => simp only [if_true]
      | false =>
        -- the alias is not on the path, so the longer path has no alias twice
        obtain ⟨-, -, -, hknown⟩ := lookUp_gives hlook
        rw [eq_comm, Bool.or_eq_false_iff, contains_eq_mem, decide_eq_false_iff_not] at hknown
        have hnodup' : (path ++ [n]).Nodup := by
          rw [nodup_append_comm, singleton_append, nodup_cons]
          exact ⟨hknown.2, hnodup⟩
        have hlength' : ((path ++ [n]).length : Int) + room ≤ w.limit := by
          rw [length_append, length_singleton]
          omega
        have hseen : watch (path ++ [n]) = pure () := hwatch _ hnodup' (by omega)
        have hvisit : (w.buildWatched watch room (path ++ [n])) = w.buildFrom room (path ++ [n]) :=
          funext fun core => ih hnodup' (.inr hlength')
        rewrite [hseen, hvisit]
        rfl

theorem outcome_buildUseWatched (hwatch : w.Unseen watch) (u : TypeUse) (hpath : c.building = []) :
    (w.buildUseWatched watch u).outcome c = (w.buildUse u).outcome c := by
  unfold Workshop.buildUseWatched Workshop.buildUse Workshop.buildUseBy
  rw [outcome_bind, outcome_bind]
  cases hcore : Workshop.concreteCore u with
  | error e => rfl
  | ok o =>
    cases o with
    | none => rfl
    | some core =>
      change
        (some <$>
          w.buildWatched watch (w.limit - c.building.length).toNat c.building core).outcome c =
        (some <$> w.buildFrom (w.limit - c.building.length).toNat c.building core).outcome c
      rw [hpath, buildWatched_eq hwatch nodup_nil]
      rw [length_nil]
      omega

theorem outcome_pass_watched (hwatch : w.Unseen watch) (done : List Text)
    (hpath : c.building = []) :
    (pass (w.buildUseWatched watch) done).outcome c = (pass w.buildUse done).outcome c := by
  rw [outcome_pass, outcome_pass, outcome_bind, outcome_bind]
  rw [outcome_mapM_congr (I := fun c => c.building = []) (g := fun e => w.buildUse e.2)
    (fun e _ c hc => outcome_buildUseWatched hwatch e.2 hc)
    (fun e _ {_ _ _} hc ho => (buildUse_settles hc ho).building.trans hc) hpath]

theorem passes_watched_iff (hwatch : w.Unseen watch) {c' : Context} {r : Except Failure Unit}
    (hpath : c.building = []) :
    Passes (w.buildUseWatched watch) done c r c' ↔ Passes w.buildUse done c r c' := by
  constructor
  · intro h
    induction h with
    | rest due => exact .rest due
    | fail due fails =>
      rw [outcome_pass_watched hwatch _ hpath] at fails
      exact .fail due fails
    | next due gives later ih =>
      unfold Gives at gives
      rw [outcome_pass_watched hwatch _ hpath] at gives
      exact .next due gives (ih ((pass_settles hpath gives).1.building.trans hpath))
  · intro h
    induction h with
    | rest due => exact .rest due
    | fail due fails =>
      refine .fail due ?_
      rw [outcome_pass_watched hwatch _ hpath, fails]
    | next due gives later ih =>
      refine .next due ?_ (ih ((pass_settles hpath gives).1.building.trans hpath))
      unfold Gives
      rw [outcome_pass_watched hwatch _ hpath, gives]

/-! ### The passes of a workshop -/

theorem buildPending_eq (w : Workshop) :
    w.buildPending = (do
      let _ ← pass w.buildUse []
      let instances := (← get).instances.values
      Resolve.tell (.instancesBuilt instances.length)
      return instances) := by
  rw [Workshop.buildPending, pass, bind_assoc]
  refine bind_congr fun c => ?_
  have hvalues : c.pending.values.mapM w.buildUse = (c.due []).mapM fun e => w.buildUse e.2 := by
    rw [Table.values, mapM_map, due_nil]
    rfl
  simp only [bind_assoc, pure_bind]
  rw [hvalues]

/-- What building all pending instances comes to if the passes come to `r` in `c'`. -/
def afterPasses (r : Except Failure Unit) (c' : Context) :
    Except Failure (List Instance) × Context :=
  match r with
  | .ok () => (.ok c'.instances.values,
      { c' with log := c'.log ++ [.instancesBuilt c'.instances.values.length] })
  | .error e => (.error e, c')

/-- **Passes end.**  Whatever templates there are, however their instances are named and whatever
the limit is, the passes over the pending uses come to exactly one outcome, and `buildPending` comes
to it.  If the first pass succeeds, those after it change nothing.  At every moment the path is one
of different aliases within the limit: a watcher who does nothing on such paths does nothing at
all. -/
theorem passes_end (w : Workshop) {c : Context} (hpath : c.building = []) :
    (∃ r c', ∀ r' c'', Passes w.buildUse [] c r' c'' ↔ r' = r ∧ c'' = c') ∧
    (∀ r c', Passes w.buildUse [] c r c' → w.buildPending.outcome c = afterPasses r c') ∧
    (∀ done c₁, Gives (pass w.buildUse []) c done c₁ →
      ∀ r c', Passes w.buildUse done c₁ r c' → r = .ok () ∧ c' = c₁) ∧
    ∀ watch, w.Unseen watch → ∀ r c',
      Passes (w.buildUseWatched watch) [] c r c' ↔ Passes w.buildUse [] c r c' := by
  have hend : ∃ r c', Passes w.buildUse [] c r c' ∧
      w.buildPending.outcome c = afterPasses r c' := by
    rw [buildPending_eq, outcome_bind]
    by_cases hdue : c.due [] = []
    · refine ⟨.ok (), c, .rest hdue, ?_⟩
      rw [outcome_pass, hdue]
      rfl
    · rcases hout : (pass w.buildUse []).outcome c with ⟨r, c₁⟩
      cases r with
      | error e => exact ⟨.error e, c₁, .fail hdue hout, rfl⟩
      | ok done => exact ⟨.ok (), c₁, .next hdue hout (passes_after_first hpath hout), rfl⟩
  obtain ⟨r, c', hpasses, hout⟩ := hend
  refine ⟨⟨r, c', ?_⟩, ?_, ?_, ?_⟩
  · intro r' c''
    constructor
    · exact hpasses.unique
    · rintro ⟨rfl, rfl⟩
      exact hpasses
  · intro r' c'' h
    obtain ⟨rfl, rfl⟩ := hpasses.unique h
    exact hout
  · intro done c₁ hfirst r' c'' h
    exact (passes_after_first hpath hfirst).unique h
  · intro watch hwatch r' c''
    exact passes_watched_iff hwatch hpath

/-- A watcher who refuses every path but those of different aliases within the limit. -/
def Workshop.guard (w : Workshop) (path : List Text) : Resolve Unit :=
  if path.Nodup ∧ (path.length : Int) ≤ w.limit then pure () else throw .noDepth

theorem unseen_guard (w : Workshop) : w.Unseen w.guard :=
  fun _ hnodup hlength => if_pos ⟨hnodup, hlength⟩

/-- A template whose instances need ever larger ones. -/
def growing : Workshop :=
  let next : TypeUse := {
    origin := "Box<Wrap<T>>".toList, isGeneric := true, resolved := "Box<Wrap<T>>".toList,
    isDeferred := true, letters := some ["T".toList] }
  let box : Declaration := {
    kind := .type, name := "Box<T>".toList, parameters := some ["T".toList],
    fields := [{ name := "next".toList, type := some next }] }
  { declarations := [box], limit := 2 }

/-- A template whose instances need those of another. -/
def layered : Workshop :=
  let items : TypeUse := {
    origin := "List<T>".toList, isGeneric := true, resolved := "List<T>".toList,
    isDeferred := true, letters := some ["T".toList] }
  let first : TypeUse := {
    origin := "T".toList, isGeneric := false, resolved := "T".toList, letters := some ["T".toList] }
  let paged : Declaration := {
    kind := .type, name := "Paged<T>".toList, parameters := some ["T".toList],
    fields := [{ name := "items".toList, type := some items }] }
  let list : Declaration := {
    kind := .type, name := "List<T>".toList, parameters := some ["T".toList],
    fields := [{ name := "first".toList, type := some first }] }
  { declarations := [paged, list], limit := 2 }

def asked (expression : Text) : Context :=
  ((useType {} expression none).outcome {}).2

/-- What is refused when the third instance of the growing template is to nest inside of two
others. -/
def growingRefusal : Failure :=
  .schema (.nestedTooDeep 2 "BoxID".toList
    ["BoxID".toList, "BoxWrapID".toList, "BoxWrapWrapID".toList] "Box<Wrap<Wrap<ID>>>".toList)

/-- The theorem on templates that grow, where the passes end with a refusal that the watcher does
not cause, and on a template that makes another use pending, where the second pass finds it and
builds nothing. -/
theorem passes_end_growing :
    (asked "Box<ID>".toList).building = [] ∧ growing.Unseen growing.guard ∧
    (∃ c', Passes growing.buildUse [] (asked "Box<ID>".toList) (.error growingRefusal) c' ∧
      Passes (growing.buildUseWatched growing.guard) [] (asked "Box<ID>".toList)
        (.error growingRefusal) c') ∧
    ∃ done c₁, Gives (pass layered.buildUse []) (asked "Paged<ID>".toList) done c₁ ∧
      (c₁.due done).map Prod.fst = ["ListID".toList] ∧
      ∀ r c', Passes layered.buildUse done c₁ r c' → r = .ok () ∧ c' = c₁ := by
  refine ⟨by decide +kernel, unseen_guard growing, ?_, ?_⟩
  · obtain ⟨⟨r, c', hiff⟩, hpending, -, hwatch⟩ :=
      passes_end growing (c := asked "Box<ID>".toList) (by decide +kernel)
    have hpasses := (hiff r c').mpr ⟨rfl, rfl⟩
    have hout := congrArg Prod.fst (hpending r c' hpasses)
    have hrefusal : (growing.buildPending.outcome (asked "Box<ID>".toList)).1 =
        .error growingRefusal := by
      decide +kernel
    rw [hrefusal] at hout
    cases r with
    | ok _ => cases hout
    | error e =>
      cases hout
      exact ⟨c', hpasses, (hwatch _ (unseen_guard growing) _ _).mpr hpasses⟩
  · have hpass : ((pass layered.buildUse []).outcome (asked "Paged<ID>".toList)).1.toOption =
        some ["PagedID".toList] := by
      decide +kernel
    refine ⟨_, _, gives_of_outcome hpass, by decide +kernel, ?_⟩
    exact (passes_end layered (by decide +kernel)).2.2.1 _ _ (gives_of_outcome hpass)

end

end Schemata
