import Mathlib.Logic.Relation
import Schemata.Proofs.Retrying
import Schemata.Proofs.Stored

/-!
# The arrangement of the instances

An instance is stored when all that it needs has been built, so that it stands behind the instances
that it refers to.  The one exception is a reference to an instance that is still being built: this
instance has led to the one that refers to it, and is stored later.

While instances are being built, the aliases on the path are linked: each is the alias of a core
that is nested in the core of the alias before.  So from an alias on the path the links lead to
every alias behind it, also when the path is gone.  What becomes of the links depends on how the run
ends.  If it succeeds, every core on the path gets its instance.  If it fails, the cores on the path
are given up; they stay remembered under their aliases, but nothing keeps the instance of another
core from taking such an alias later.
-/

namespace Schemata

open Resolve Relation List

/-! ### What waits -/

/-- Every use that waits for an instance waits under its alias. -/
structure Context.Awaits (naming : Naming) (c : Context) : Prop where
  names : c.NamesSound naming
  nodup : c.pending.keys.Nodup
  aliased : ∀ {n v}, c.pending.get? n = some v → v.isConcrete = true ∧ HasAlias naming v n

/-- Reading type expressions leads from `c` to `c'`. -/
structure Context.Attends (naming : Naming) (c c' : Context) : Prop where
  awaits : c'.Awaits naming
  /-- Nothing but what is remembered about uses has changed. -/
  notes : c.Notes c'
  keeps : c.Keeps c'

section Waiting

variable {naming : Naming} {c c' : Context}

theorem Context.Awaits.attends (hc : c.Awaits naming) : c.Attends naming c :=
  ⟨hc, .refl c, .refl c⟩

theorem Context.Awaits.learns (hc : c.Awaits naming) (h : c.Learns c')
    (hnames : c'.NamesSound naming) : c'.Awaits naming := by
  have hpending : c'.pending = c.pending := by rw [h.frame]
  refine ⟨hnames, ?_, ?_⟩
  · rw [hpending]
    exact hc.nodup
  · rw [hpending]
    exact hc.aliased

theorem aliasName_attends (hc : c.Awaits naming) (core : Text) :
    Meets (aliasName naming core) c (fun _ c' => c.Attends naming c') fun _ c' =>
      c.Attends naming c' := by
  refine ((aliasName_learns naming core).meets hc.names |>.and
    (aliasName_repeatable naming core c)).imp ?_ ?_
  all_goals
    rintro _ c' ⟨⟨⟨hnames, hlearns⟩, -⟩, hgrows, -⟩
    exact ⟨hc.learns hlearns hnames, hlearns.notes, hgrows.toKeeps⟩

/-- Reading a type expression leaves a use with its alias waiting, if it is to have one. -/
theorem useType_attends (hc : c.Awaits naming) (expression : Text) (letters : Option (List Text))
    (directive : Option Text) :
    Meets (useType naming expression letters directive) c
      (fun u c' => c.Attends naming c' ∧ (u.isConcrete → ∃ n, HasAlias naming u n ∧
        c'.pending.contains n))
      fun _ c' => c.Attends naming c' := by
  refine ((useType_computes naming expression letters directive).meets hc.names |>.and
    (useType_repeatable naming expression letters directive c) |>.and
    (useType_meets naming expression letters directive c).and_gives).imp ?_ ?_
  · rintro u c' ⟨⟨⟨⟨hnames, hnotes⟩, -⟩, hgrows, -⟩, hgives, -⟩
    obtain ⟨-, hreads, -⟩ := useType_spec hc.names hgives
    refine ⟨⟨⟨hnames, hreads.nodup hc.nodup, fun hv => ?_⟩, hnotes, hgrows.toKeeps⟩, ?_⟩
    · rcases hreads.new hv with hv | ⟨-, hv⟩
      · exact hc.aliased hv
      · exact hv
    · exact hreads.pending u (mem_singleton.mpr rfl)
  · rintro _ c' ⟨⟨⟨⟨hnames, hnotes⟩, -⟩, hgrows, -⟩, hlearns⟩
    exact ⟨hc.learns hlearns hnames, hnotes, hgrows.toKeeps⟩

end Waiting

/-! ### Links between aliases -/

/-- The alias `n` is that of a core which is nested in a core that has the alias `m` and satisfies
`S`. -/
def Workshop.Links (w : Workshop) (S : Text → Prop) (m n : Text) : Prop :=
  ∃ k j, S k ∧ aliasOf w.naming k = .ok m ∧ aliasOf w.naming j = .ok n ∧ w.Nests k j

theorem Workshop.Links.mono {w : Workshop} {S S' : Text → Prop} {m n : Text} (h : w.Links S m n)
    (hS : ∀ k, S k → S' k) : w.Links S' m n := by
  obtain ⟨k, j, hk, hkj⟩ := h
  exact ⟨k, j, hS k hk, hkj⟩

theorem reflTransGen_links_mono {w : Workshop} {S S' : Text → Prop} {m n : Text}
    (hS : ∀ k, S k → S' k) (h : ReflTransGen (w.Links S) m n) : ReflTransGen (w.Links S') m n :=
  ReflTransGen.mono (fun _ _ (hlink : w.Links S _ _) => hlink.mono hS) _ _ h

theorem reflTransGen_of_mem_chain {α : Type} {R : α → α → Prop} {l : List α} {a b : α}
    (h : (l ++ [b]).IsChain R) (ha : a ∈ l ++ [b]) : ReflTransGen R a b := by
  induction l generalizing a with
  | nil =>
    rw [mem_singleton.mp ha]
  | cons a' l ih =>
    have htail : (l ++ [b]).IsChain R := h.tail
    rcases mem_cons.mp ha with rfl | ha
    · -- the next member is the head of what is left
      cases l with
      | nil => exact .single (isChain_cons_cons.mp h).1
      | cons a' l => exact .head (isChain_cons_cons.mp h).1 (ih htail mem_cons_self)
    · exact ih htail ha

def Context.Recalls (c : Context) (k : Text) : Prop :=
  ∃ n, c.aliasNames.get? k = some n

/-- The core is remembered under an alias, under which its instance is there. -/
def Context.Holds (w : Workshop) (c : Context) (k : Text) : Prop :=
  ∃ n i, c.aliasNames.get? k = some n ∧ c.instances.get? n = some i ∧ InstanceOf w k i

/-- For every generic use in an instance a use with its alias waits.  The alias belongs to an
instance that stands before, or it leads back to the instance through cores that satisfy `S`. -/
def Context.Arranged (w : Workshop) (S : Text → Prop) (c : Context) : Prop :=
  ∀ before n i, before ++ [(n, i)] <+: c.instances.entries → ∀ u ∈ i.declaration.uses,
    u.isConcrete = true → ∃ m, HasAlias w.naming u m ∧ c.pending.contains m = true ∧
      (m ∈ before.map Prod.fst ∨ ReflTransGen (w.Links S) m n)

/-- For every generic use in the declarations of the workshop a use with its alias waits. -/
def Workshop.Posted (w : Workshop) (c : Context) : Prop :=
  ∀ d ∈ w.declarations, ∀ u ∈ d.uses, u.isConcrete = true →
    ∃ n, HasAlias w.naming u n ∧ c.pending.contains n = true

/-- If the use is to have an instance, then a use with its alias waits, and the instance is there or
on the path. -/
def Context.Provides (w : Workshop) (path : List Text) (c : Context) (u : TypeUse) : Prop :=
  u.isConcrete = true → ∃ m, HasAlias w.naming u m ∧ c.pending.contains m = true ∧
    (m ∈ path ∨ c.instances.contains m = true)

section Arranged

variable {w : Workshop} {S S' : Text → Prop} {c c' : Context} {k n : Text}

theorem Context.Recalls.mono (h : c.Recalls k) (hkeeps : c.Keeps c') : c'.Recalls k := by
  obtain ⟨n, hn⟩ := h
  exact ⟨n, Table.get?_of_isPrefix hkeeps.aliasNames hn⟩

theorem Context.Holds.mono (h : c.Holds w k) (hkeeps : c.Keeps c') : c'.Holds w k := by
  obtain ⟨n, i, hn, hi, hinstance⟩ := h
  exact ⟨n, i, Table.get?_of_isPrefix hkeeps.aliasNames hn,
    Table.get?_of_isPrefix hkeeps.instances hi, hinstance⟩

theorem Workshop.Posted.mono (h : w.Posted c) (hkeeps : c.Keeps c') : w.Posted c' := by
  intro d hd u hu hconcrete
  obtain ⟨n, hn, hpending⟩ := h d hd u hu hconcrete
  exact ⟨n, hn, Table.contains_of_isPrefix hkeeps.pending hpending⟩

theorem Context.Provides.mono {path : List Text} {u : TypeUse} (h : c.Provides w path u)
    (hkeeps : c.Keeps c') : c'.Provides w path u := by
  intro hconcrete
  obtain ⟨m, hm, hpending, hthere⟩ := h hconcrete
  exact ⟨m, hm, Table.contains_of_isPrefix hkeeps.pending hpending,
    hthere.imp_right (Table.contains_of_isPrefix hkeeps.instances)⟩

theorem Context.Arranged.mono (h : c.Arranged w S) (hkeeps : c.Keeps c')
    (hinstances : c'.instances = c.instances) (hS : ∀ k, S k → S' k) : c'.Arranged w S' := by
  intro before n i hprefix u hu hconcrete
  rw [hinstances] at hprefix
  obtain ⟨m, hm, hpending, hplace⟩ := h before n i hprefix u hu hconcrete
  exact ⟨m, hm, Table.contains_of_isPrefix hkeeps.pending hpending,
    hplace.imp_right (reflTransGen_links_mono hS)⟩

theorem Context.Arranged.insert {i : Instance} (h : c.Arranged w S) (hn : c.instances.get? n = none)
    (hS : ∀ k, S k → S' k) (log : Log)
    (huses : ∀ u ∈ i.declaration.uses, u.isConcrete → ∃ m, HasAlias w.naming u m ∧
      c.pending.contains m ∧ (ReflTransGen (w.Links S') m n ∨ c.instances.contains m)) :
    Context.Arranged w S' { c with instances := c.instances.insert n i, log } := by
  intro before n' i' hprefix u hu hconcrete
  have hentries : (c.instances.insert n i).entries = c.instances.entries ++ [(n, i)] :=
    Table.put_of_find?_eq_none hn i
  rw [hentries, prefix_concat_iff] at hprefix
  rcases hprefix with heq | hprefix
  · -- the instance itself
    obtain ⟨rfl, hlast⟩ := append_inj' heq rfl
    obtain ⟨rfl, rfl⟩ := Prod.mk.inj (singleton_inj.mp hlast)
    obtain ⟨m, hm, hpending, hplace⟩ := huses u hu hconcrete
    exact ⟨m, hm, hpending, hplace.symm.imp_left Table.mem_keys_of_contains⟩
  · -- one that was there before
    obtain ⟨m, hm, hpending, hplace⟩ := h before n' i' hprefix u hu hconcrete
    exact ⟨m, hm, hpending, hplace.imp_right (reflTransGen_links_mono hS)⟩

end Arranged

/-! ### While instances are being built -/

/-- What holds while the instances of the `cores` are being built, with their aliases on the path:
the instances that are there are arranged, where links go through cores on the path, through cores
whose instances are there and through cores that satisfy `G`. -/
structure Context.Lays (w : Workshop) (base : Log) (G : Text → Prop) (cores path : List Text)
    (c : Context) : Prop where
  awaits : c.Awaits w.naming
  posted : w.Posted c
  nodup : c.instances.keys.Nodup
  stores : c.Stores w (fun _ => True) base path
  recalls : ∀ k ∈ cores, c.Recalls k
  linked : path.IsChain (w.Links (· ∈ cores))
  arranged : c.Arranged w fun k => k ∈ cores ∨ c.Holds w k ∨ G k

/-- What holds where cores may have been given up: links may go through every core that is
remembered. -/
def Context.Abandons (w : Workshop) (base : Log) (G : Text → Prop) (c : Context) : Prop :=
  c.Lays w base (fun k => c.Recalls k ∨ G k) [] []

section Lays

variable {w : Workshop} {base : Log} {G G' : Text → Prop} {cores path : List Text} {c c' : Context}
  {k n : Text}

theorem Context.Lays.attends (hc : c.Lays w base G cores path) (h : c.Attends w.naming c') :
    c'.Lays w base G cores path where
  awaits := h.awaits
  posted := hc.posted.mono h.keeps
  nodup := by
    rw [h.notes.frame]
    exact hc.nodup
  stores := hc.stores.of_notes h.notes h.awaits.names
  recalls k hk := (hc.recalls k hk).mono h.keeps
  linked := hc.linked
  arranged := hc.arranged.mono h.keeps (by rw [h.notes.frame]) fun _ hk =>
    hk.imp_right (Or.imp_left fun hk => hk.mono h.keeps)

theorem Context.Lays.mono (hc : c.Lays w base G cores path) (hG : ∀ k, G k → G' k) :
    c.Lays w base G' cores path :=
  { hc with arranged := hc.arranged.mono (.refl c) rfl fun k hk =>
    hk.imp_right (Or.imp_right (hG k)) }

/-- A core without an instance may be put on the path behind one that it is nested in. -/
theorem Context.Lays.push (hc : c.Lays w base G cores path) (hget : c.aliasNames.get? k = some n)
    (hnone : c.instances.get? n = none) (hfollows : ∀ p ∈ path.getLast?, w.Links (· ∈ cores) p n) :
    c.Lays w base G (cores ++ [k]) (path ++ [n]) where
  awaits := hc.awaits
  posted := hc.posted
  nodup := hc.nodup
  stores := hc.stores.push hnone
  recalls := by
    intro k' hk'
    rcases mem_append.mp hk' with hk' | hk'
    · exact hc.recalls k' hk'
    · rw [mem_singleton.mp hk']
      exact ⟨n, hget⟩
  linked := by
    have hlinked : (path ++ [n]).IsChain (w.Links (· ∈ cores)) := by
      refine hc.linked.append (.singleton n) fun p hp n' hn' => ?_
      rw [← Option.mem_some_iff.mp hn']
      exact hfollows p hp
    exact hlinked.imp fun _ _ hlink => hlink.mono fun _ => mem_append_left _
  arranged := hc.arranged.mono (.refl c) rfl fun _ hk => hk.imp_left (mem_append_left _)

/-- The instance of the last core on the path is stored.  A use in it that refers to the path leads
back to it along the path. -/
theorem Context.Lays.record {i : Instance} (hc : c.Lays w base G (cores ++ [k]) (path ++ [n]))
    (hlinked : path.IsChain (w.Links (· ∈ cores))) (hpath : n ∉ path)
    (hget : c.aliasNames.get? k = some n) (hi : InstanceOf w k i)
    (huses : ∀ u ∈ i.declaration.uses, c.Provides w (path ++ [n]) u) :
    Context.Lays w base G cores path
      { c with instances := c.instances.insert n i, log := c.log ++ [.instanceBuilt k n] } := by
  have hnone : c.instances.get? n = none := hc.stores.free n (by simp)
  have hkeeps : c.Keeps { c with
      instances := c.instances.insert n i, log := c.log ++ [.instanceBuilt k n] } :=
    { Context.Keeps.refl c with instances := Table.isPrefix_insert hnone i }
  -- the core on the path has its instance now
  have hheld : ∀ k', (k' ∈ cores ++ [k] ∨ c.Holds w k' ∨ G k') → k' ∈ cores ∨
    Context.Holds w { c with
      instances := c.instances.insert n i, log := c.log ++ [.instanceBuilt k n] } k' ∨ G k' := by
    rintro k' (hk' | hk' | hk')
    · rcases mem_append.mp hk' with hk' | hk'
      · exact .inl hk'
      · rw [mem_singleton.mp hk']
        exact .inr (.inl ⟨n, i, hget, by rw [Table.get?_insert, if_pos rfl], hi⟩)
    · exact .inr (.inl (hk'.mono hkeeps))
    · exact .inr (.inr hk')
  refine ⟨⟨hc.awaits.names, hc.awaits.nodup, hc.awaits.aliased⟩, hc.posted.mono hkeeps,
    Table.nodup_keys_insert hc.nodup n i, hc.stores.record hpath trivial hget hi, ?_, hlinked, ?_⟩
  · exact fun k' hk' => hc.recalls k' (mem_append_left _ hk')
  · refine hc.arranged.insert hnone hheld _ fun u hu hconcrete => ?_
    obtain ⟨m, hm, hpending, hthere⟩ := huses u hu hconcrete
    refine ⟨m, hm, hpending, hthere.imp_left fun hmem => ?_⟩
    refine reflTransGen_of_mem_chain
      (hc.linked.imp fun _ _ hlink => hlink.mono fun k' hk' => ?_) hmem
    exact hheld k' (.inl hk')

theorem Context.Lays.abandon (hc : c.Lays w base G cores path) : c.Abandons w base G where
  awaits := hc.awaits
  posted := hc.posted
  nodup := hc.nodup
  stores := ⟨hc.stores.names, by simp, hc.stores.told⟩
  recalls := by simp
  linked := .nil
  arranged := by
    refine hc.arranged.mono (.refl c) rfl fun k hk => .inr ?_
    rcases hk with hk | hk | hk
    · exact .inr (.inl (hc.recalls k hk))
    · exact .inl hk
    · exact .inr (.inr hk)

end Lays

/-! ### Building -/

section Build

variable {w : Workshop} {base : Log} {G : Text → Prop} {cores path : List Text} {c : Context}
  {core : Text}

theorem lookUp_lays (hc : c.Lays w base G cores path) (core : Text) :
    Meets (w.lookUp path core) c
      (fun r c' => (c'.Lays w base G cores path ∧ c.Keeps c') ∧ normalize core = .ok r.1 ∧
        aliasOf w.naming r.1 = .ok r.2.1 ∧ c'.aliasNames.get? r.1 = some r.2.1 ∧
        r.2.2 = (c'.instances.contains r.2.1 || path.contains r.2.1))
      fun _ c' => c'.Abandons w base G := by
  have hattends : Meets (w.lookUp path core) c (fun _ c' => c.Attends w.naming c')
      fun _ c' => c.Attends w.naming c' := by
    unfold Workshop.lookUp
    rw [meets_bind, meets_ofExcept]
    refine ⟨fun k _ => ?_, fun _ _ => hc.awaits.attends⟩
    rw [meets_bind]
    exact aliasName_attends hc.awaits k
  refine ((lookUp_meets hc.stores core).and hattends).imp ?_ ?_
  · rintro r c' ⟨⟨-, hr⟩, hattends⟩
    exact ⟨⟨hc.attends hattends, hattends.keeps⟩, hr⟩
  · rintro _ c' ⟨-, hattends⟩
    exact (hc.attends hattends).abandon

/-- A use with type arguments in the place of type parameters waits, or another one with its alias
does. -/
theorem substituteUse_lays (hc : c.Lays w base G cores path) {k : Text} {template : Declaration}
    {arguments : List Text} (htemplate : w.templateOf k = .ok (template, arguments)) {u : TypeUse}
    (hu : u ∈ template.uses) :
    Meets (w.substituteUse (template.parameters.getD []) arguments u) c
      (fun v c' => (c'.Lays w base G cores path ∧ c.Keeps c') ∧
        SubstitutedUse w.naming (template.parameters.getD []) arguments u v ∧
        (v.isConcrete → ∃ m, HasAlias w.naming v m ∧ c'.pending.contains m))
      fun _ c' => c'.Abandons w base G := by
  have hattends : Meets (w.substituteUse (template.parameters.getD []) arguments u) c
      (fun v c' => c.Attends w.naming c' ∧
        (v.isConcrete → ∃ m, HasAlias w.naming v m ∧ c'.pending.contains m))
      fun _ c' => c.Attends w.naming c' := by
    unfold Workshop.substituteUse
    split_ifs
    · rw [meets_bind, meets_ofExcept]
      exact ⟨fun e _ => useType_attends hc.awaits e none u.directive, fun _ _ => hc.awaits.attends⟩
    · exact ⟨hc.awaits.attends, hc.posted template (templateOf_mem htemplate) u hu⟩
  refine ((substituteUse_meets hc.stores _ arguments u).and hattends).imp ?_ ?_
  · rintro v c' ⟨⟨-, hsubst⟩, hattends, hpending⟩
    exact ⟨⟨hc.attends hattends, hattends.keeps⟩, hsubst, hpending⟩
  · rintro _ c' ⟨-, hattends⟩
    exact (hc.attends hattends).abandon

/-- Visiting a use in the template of the last core on the path provides for the use. -/
theorem visit_lays (hw : w.Written) {room : Nat}
    (build : ∀ {core c}, (∀ j m, normalize core = .ok j → aliasOf w.naming j = .ok m →
        ∀ p ∈ path.getLast?, w.Links (· ∈ cores) p m) → c.Lays w base G cores path →
      Meets (w.buildFrom room path core) c
        (fun _ c' => (c'.Lays w base G cores path ∧ c.Keeps c') ∧ ∀ j m, normalize core = .ok j →
          aliasOf w.naming j = .ok m → m ∈ path ∨ c'.instances.contains m)
        fun _ c' => c'.Abandons w base G)
    {k n : Text} (hmem : k ∈ cores) (hk : normalize k = .ok k) (hn : aliasOf w.naming k = .ok n)
    (hlast : path.getLast? = some n) {template : Declaration} {arguments : List Text}
    (htemplate : w.templateOf k = .ok (template, arguments)) {u : TypeUse} (hu : u ∈ template.uses)
    (hc : c.Lays w base G cores path) :
    Meets (w.visit (w.buildFrom room path) (template.parameters.getD []) arguments u) c
      (fun v c' => (c'.Lays w base G cores path ∧ c.Keeps c') ∧
        SubstitutedUse w.naming (template.parameters.getD []) arguments u v ∧ c'.Provides w path v)
      fun _ c' => c'.Abandons w base G := by
  rw [Workshop.visit, meets_bind]
  refine (substituteUse_lays hc htemplate hu).imp ?_ fun _ _ h => h
  rintro v c₁ ⟨⟨hc₁, hkeeps₁⟩, hsubst, hpending⟩
  rw [meets_bind, meets_ofExcept]
  refine ⟨fun o ho => ?_, fun _ _ => hc₁.abandon⟩
  rcases concreteCore_eq_ok ho with ⟨hv, rfl⟩ | ⟨hv, core, hcore, rfl⟩
  · refine ⟨⟨hc₁, hkeeps₁⟩, hsubst, fun hconcrete => ?_⟩
    rw [hv] at hconcrete
    cases hconcrete
  · -- the core of the use is nested in the last core on the path
    obtain ⟨m, hm, hwaits⟩ := hpending hv
    obtain ⟨j, ⟨core', hcore', hj⟩, hjm⟩ := hm.exists_core
    obtain rfl := ok_unique hcore hcore'
    have hnests : w.Nests k j := ⟨template, arguments, u, v, htemplate, hu,
      hw.substitutes hk hn htemplate hu hsubst, hv, core, hcore, hj⟩
    simp only
    rw [meets_bind]
    refine (build ?_ hc₁).imp ?_ fun _ _ h => h
    · intro j' m' hj' hm' p hp
      obtain rfl := ok_unique hj hj'
      rw [hlast] at hp
      obtain rfl := Option.mem_some_iff.mp hp
      exact ⟨k, j, hmem, hn, hm', hnests⟩
    · rintro _ c₂ ⟨⟨hc₂, hkeeps₂⟩, hbuilt⟩
      exact ⟨⟨hc₂, hkeeps₁.trans hkeeps₂⟩, hsubst, fun _ =>
        ⟨m, hm, Table.contains_of_isPrefix hkeeps₂.pending hwaits, hbuilt j m hj hjm⟩⟩

/-- **Building the instance of a core** arranges the instances.  If it fails, the cores on the path
are given up. -/
theorem buildFrom_lays (hw : w.Written) {room : Nat}
    (hcore : ∀ k n, normalize core = .ok k → aliasOf w.naming k = .ok n →
      ∀ p ∈ path.getLast?, w.Links (· ∈ cores) p n) (hc : c.Lays w base G cores path) :
    Meets (w.buildFrom room path core) c
      (fun _ c' => (c'.Lays w base G cores path ∧ c.Keeps c') ∧ ∀ k n, normalize core = .ok k →
        aliasOf w.naming k = .ok n → n ∈ path ∨ c'.instances.contains n)
      fun _ c' => c'.Abandons w base G := by
  -- by induction on the room that is left: the path grows by one alias with each instance inside
  -- another
  induction room using Nat.strongRecOn generalizing cores path core c with
  | ind room ih =>
    rw [w.buildFrom_eq, meets_bind]
    refine (lookUp_lays hc core).imp ?_ fun _ _ h => h
    rintro ⟨k, n, known⟩ c₁ ⟨⟨hc₁, hkeeps₁⟩, hk, hn, hget, hknown⟩
    simp only at hk hn hget hknown ⊢
    -- the alias that is looked up is the alias of the core
    have hsame : ∀ {k' n'}, normalize core = .ok k' → aliasOf w.naming k' = .ok n' → n' = n := by
      intro k' n' hk' hn'
      obtain rfl := ok_unique hk hk'
      exact ok_unique hn' hn
    split_ifs with hkn
    · rw [hknown, Bool.or_eq_true, contains_iff_mem] at hkn
      refine ⟨⟨hc₁, hkeeps₁⟩, fun k' n' hk' hn' => ?_⟩
      rw [hsame hk' hn']
      exact hkn.symm
    rw [hknown, Bool.or_eq_true, not_or, contains_iff_mem] at hkn
    have hnone := Option.not_isSome_iff_eq_none.mp hkn.1
    have hcanon := (canonical_of_normalize hk hn).1
    cases room with
    | zero =>
      rw [Workshop.buildNew]
      unfold Workshop.refuseDepth
      split
      · exact hc₁.abandon
      · exact hc₁.abandon
    | succ room =>
      rw [Workshop.buildNew, meets_bind, meets_ofExcept]
      refine ⟨?_, fun _ _ => hc₁.abandon⟩
      rintro ⟨template, arguments⟩ htemplate
      -- the alias is on the path while the uses of the template are visited
      rw [meets_bind]
      refine (Declaration.specialize_meets (A := fun c _ c' => c.Keeps c')
        (S := fun u v c => SubstitutedUse w.naming (template.parameters.getD []) arguments u v ∧
          c.Provides w (path ++ [n]) v)
        (E := fun _ _ c' => c'.Abandons w base G)
        .refl .trans (fun hkeeps h => ⟨h.1, h.2.mono hkeeps⟩) (fun _ h => h)
        (fun u hu c hc => visit_lays hw (ih room room.lt_succ_self)
          (mem_append_right _ (mem_singleton.mpr rfl)) hcanon hn getLast?_concat htemplate hu hc)
        (hc₁.push hget hnone (hcore k n hk hn))).imp ?_ fun _ _ h => h
      rintro d c₂ ⟨⟨hc₂, hkeeps₂⟩, hspec⟩
      unfold Workshop.record
      simp only [meets_bind, meets_modify, meets_tell, meets_pure]
      have hget₂ := Table.get?_of_isPrefix hkeeps₂.aliasNames hget
      have hinstance : InstanceOf w k ⟨n, d, d.render w.layout⟩ :=
        ⟨hcanon, hn, ⟨template, arguments, htemplate, hspec.imp fun _ _ _ h => h.1⟩, rfl⟩
      refine ⟨⟨hc₂.record hc₁.linked hkn.2 hget₂ hinstance fun v hv => ?_, ?_⟩,
        fun k' n' hk' hn' => .inr ?_⟩
      · obtain ⟨-, -, -, hprovides⟩ := hspec.exists_of_mem_uses hv
        exact hprovides
      · refine (hkeeps₁.trans hkeeps₂).trans { Context.Keeps.refl c₂ with instances := ?_ }
        exact Table.isPrefix_insert (hc₂.stores.free n (by simp)) _
      · rw [hsame hk' hn']
        simp only [Table.contains, Table.get?_insert, if_true, Option.isSome_some]

theorem build_lays (hw : w.Written) (hbuilding : c.building = []) (hc : c.Lays w base G [] [])
    (core : Text) : Meets (w.build core) c (fun _ c' => c'.Lays w base G [] [] ∧ c.Keeps c')
      fun _ c' => c'.Abandons w base G := by
  unfold Workshop.build
  rw [meets_bind, meets_get, hbuilding]
  exact (buildFrom_lays hw (fun _ _ _ _ p hp => by cases hp) hc).imp
    (fun _ _ h => h.1) fun _ _ h => h

theorem buildUse_lays (hw : w.Written) (hbuilding : c.building = []) (hc : c.Lays w base G [] [])
    (u : TypeUse) : Meets (w.buildUse u) c (fun _ c' => c'.Lays w base G [] [] ∧ c.Keeps c')
      fun _ c' => c'.Abandons w base G := by
  unfold Workshop.buildUse Workshop.buildUseBy
  rw [meets_bind, meets_ofExcept]
  refine ⟨fun o _ => ?_, fun _ _ => hc.abandon⟩
  cases o with
  | none => exact ⟨hc, .refl c⟩
  | some core =>
    simp only
    rw [meets_map]
    exact build_lays hw hbuilding hc core

/-- **Building all pending instances** arranges the instances.  If it fails, the cores on the path
are given up. -/
theorem buildPending_lays (hw : w.Written) (hbuilding : c.building = [])
    (hc : c.Lays w base G [] []) : Meets w.buildPending c (fun _ c' => c'.Lays w base G [] [])
      fun _ c' => c'.Abandons w base G := by
  have hstep : ∀ u ∈ c.pending.values, ∀ c₁ : Context, c₁.Lays w base G [] [] ∧ c₁.building = [] →
      Meets (w.buildUse u) c₁
        (fun _ c' => ((c'.Lays w base G [] [] ∧ c'.building = []) ∧ c₁.Keeps c') ∧ True)
        fun _ c' => c'.Abandons w base G := by
    rintro u - c₁ ⟨hc₁, hbuilding₁⟩
    refine (buildUse_lays hw hbuilding₁ hc₁ u).imp ?_ fun _ _ h => h
    rintro _ c' ⟨hc', hkeeps⟩
    exact ⟨⟨⟨hc', hkeeps.building.trans hbuilding₁⟩, hkeeps⟩, trivial⟩
  unfold Workshop.buildPending
  rw [meets_bind, meets_get, meets_bind]
  refine (Meets.traverse (Q := fun _ _ _ => True)
    (E := fun _ _ c' => c'.Abandons w base G) Context.Keeps.refl
    Context.Keeps.trans (fun _ h => h) (fun _ h => h) hstep ⟨hc, hbuilding⟩).imp ?_ fun _ _ h => h
  rintro _ c₁ ⟨⟨⟨hc₁, -⟩, -⟩, -⟩
  rw [meets_bind, meets_get, meets_bind, meets_tell, meets_pure]
  exact ⟨⟨hc₁.awaits.names, hc₁.awaits.nodup, hc₁.awaits.aliased⟩, hc₁.posted, hc₁.nodup,
    hc₁.stores.tell rfl, hc₁.recalls, hc₁.linked, hc₁.arranged⟩

end Build

/-! ### Whatever is asked -/

/-- The contexts that asking a workshop leads to as long as no instance is refused. -/
inductive Workshop.Served (w : Workshop) : Context → Prop
  /-- Nothing is asked, and the declarations are those read. -/
  | read {annotations : List Annotation} {blocks : List CommentBlock} {fs : List Fragment}
      {c : Context}
      (declarations : ReadFrom w.naming annotations blocks fs w.declarations c) : Served w c
  /-- Nothing is asked, and the declarations are those read, resolved. -/
  | resolved {annotations : List Annotation} {blocks : List CommentBlock} {fs : List Fragment}
      {ds : List Declaration} {c : Context} (ready : w.Ready annotations blocks fs ds c) :
        Served w c
  | use {c : Context} (before : Served w c) (expression : Text) (letters : Option (List Text))
      (directive : Option Text) :
      Served w ((useType w.naming expression letters directive).outcome c).2
  | build {c c' : Context} {core name : Text} (before : Served w c)
      (built : Gives (w.build core) c name c') : Served w c'
  | pending {c c' : Context} {is : List Instance} (before : Served w c)
      (built : Gives w.buildPending c is c') : Served w c'

section Asked

variable {w : Workshop} {annotations : List Annotation} {blocks : List CommentBlock}
    {fs : List Fragment}
  {ds : List Declaration} {base : Log} {c : Context}

theorem Workshop.Served.asked (h : w.Served c) : w.Asked c := by
  induction h with
  | read hread => exact .read hread
  | resolved hready => exact .resolved hready
  | use before expression letters directive ih => exact ih.use expression letters directive
  | @build c c' core name before hbuilt ih =>
    have hasked := ih.build core
    rwa [hbuilt] at hasked
  | pending before hbuilt ih =>
    have hasked := ih.pending
    rwa [hbuilt] at hasked

theorem ReadFrom.awaits {naming : Naming} (h : ReadFrom naming annotations blocks fs ds c) :
    c.Awaits naming ∧ ∀ d ∈ ds, ∀ u ∈ d.uses, u.isConcrete → ∃ n, HasAlias naming u n ∧
      c.pending.contains n := by
  obtain ⟨hnames, log, hreads⟩ := h.reads
  refine ⟨⟨hnames, hreads.nodup nodup_nil, fun hv => ?_⟩, fun d hd u hu => ?_⟩
  · rcases hreads.new hv with hv | ⟨-, hv⟩
    · cases hv
    · exact hv
  · exact hreads.pending u (mem_flatMap.mpr ⟨d, hd, hu⟩)

theorem Context.Lays.start (hawaits : c.Awaits w.naming) (hposted : w.Posted c)
    (hinstances : c.instances = {}) (G : Text → Prop) : c.Lays w c.log G [] [] where
  awaits := hawaits
  posted := hposted
  nodup := by
    rw [hinstances]
    exact nodup_nil
  stores := .start hawaits.names hinstances _
  recalls := by simp
  linked := .nil
  arranged := by
    intro before n i hprefix
    rw [hinstances] at hprefix
    simp [prefix_nil] at hprefix

theorem ReadFrom.lays (h : ReadFrom w.naming annotations blocks fs w.declarations c)
    (G : Text → Prop) : c.Lays w c.log G [] [] := by
  obtain ⟨hawaits, hposted⟩ := h.awaits
  refine .start hawaits hposted ?_ G
  rw [h.frame]

theorem Workshop.Ready.lays (h : w.Ready annotations blocks fs ds c) (G : Text → Prop) :
    c.Lays w c.log G [] [] := by
  obtain ⟨c₀, rs, hread, hresolve, hdeclarations⟩ := h
  obtain ⟨hawaits, hwaits⟩ := hread.awaits
  have hframe := (resolveAll_spec hread.resolutionSound hresolve).1.frame
  have hpending : c.pending = c₀.pending := by rw [hframe]
  refine .start ⟨?_, ?_, ?_⟩ ?_ ?_ G
  · rw [hframe]
    exact hawaits.names
  · rw [hpending]
    exact hawaits.nodup
  · rw [hpending]
    exact hawaits.aliased
  · -- a use in a resolved declaration is written in one that is read
    intro d hd u hu
    rw [hpending]
    rw [hdeclarations] at hd
    rcases mem_append.mp hd with hd | hd
    · obtain ⟨b, hb, hub, -⟩ := exists_of_mem_uses_resolveAll hread.resolutionSound hresolve hd hu
      exact hwaits b hb u hub
    · rw [uses_of_mem_directiveDeclarations hd] at hu
      exact absurd hu not_mem_nil
  · rw [hframe, hread.frame]

theorem Context.Lays.use {G : Text → Prop} (hc : c.Lays w base G [] []) (expression : Text)
    (letters : Option (List Text)) (directive : Option Text) :
    ((useType w.naming expression letters directive).outcome c).2.Lays w base G [] [] := by
  refine hc.attends (Meets.after (P := fun c' => c.Attends w.naming c') ?_)
  exact (useType_attends hc.awaits expression letters directive).imp
    (fun _ _ h => h.1) fun _ _ h => h

/-- Every outcome leaves the instances arranged, where links may go through every core that is
remembered. -/
theorem Context.Lays.after {α : Type} {x : Resolve α} (hx : Lasting x)
    (h : Meets x c (fun _ c' => c'.Lays w base c.Recalls [] []) fun _ c' =>
      c'.Abandons w base c.Recalls) :
    (x.outcome c).2.Lays w base (x.outcome c).2.Recalls [] [] := by
  refine Meets.after (P := fun c' => c.Keeps c' → c'.Lays w base c'.Recalls [] []) (h.imp ?_ ?_)
    (hx c _ _ rfl).1
  · intro _ c' hc' hkeeps
    exact hc'.mono fun k hk => hk.mono hkeeps
  · intro _ c' hc' hkeeps
    refine Context.Lays.mono hc' fun k hk => ?_
    rcases hk with hk | hk
    · exact hk
    · exact hk.mono hkeeps

/-- **Whatever is asked of a workshop**, the instances are arranged, where links may go through
every core that is remembered. -/
theorem Workshop.Asked.lays (h : w.Asked c) : ∃ base, c.Lays w base c.Recalls [] [] := by
  induction h with
  | read hread => exact ⟨_, hread.lays _⟩
  | resolved hready => exact ⟨_, hready.lays _⟩
  | @use c before expression letters directive ih =>
    obtain ⟨base, hc⟩ := ih
    refine ⟨base, (hc.use expression letters directive).mono fun k hk => hk.mono ?_⟩
    exact ((useType_repeatable w.naming expression letters directive).lasting c _ _ rfl).1
  | build before core ih =>
    obtain ⟨base, hc⟩ := ih
    obtain ⟨hw, hbuilding, -⟩ := before.stores
    refine ⟨base, .after (build_repeatable w core).lasting ?_⟩
    exact (build_lays hw hbuilding hc core).imp (fun _ _ h => h.1) fun _ _ h => h
  | pending before ih =>
    obtain ⟨base, hc⟩ := ih
    obtain ⟨hw, hbuilding, -⟩ := before.stores
    exact ⟨base, .after (.of_meets (buildPending_again w)) (buildPending_lays hw hbuilding hc)⟩

/-- **As long as no instance is refused**, links go through cores whose instances are there. -/
theorem Workshop.Served.lays (h : w.Served c) : ∃ base, c.Lays w base (fun _ => False) [] [] := by
  induction h with
  | read hread => exact ⟨_, hread.lays _⟩
  | resolved hready => exact ⟨_, hready.lays _⟩
  | use before expression letters directive ih =>
    obtain ⟨base, hc⟩ := ih
    exact ⟨base, hc.use expression letters directive⟩
  | build before hbuilt ih =>
    obtain ⟨base, hc⟩ := ih
    obtain ⟨hw, hbuilding, -⟩ := before.asked.stores
    exact ⟨base, ((build_lays hw hbuilding hc _).gives hbuilt).1⟩
  | pending before hbuilt ih =>
    obtain ⟨base, hc⟩ := ih
    obtain ⟨hw, hbuilding, -⟩ := before.asked.stores
    exact ⟨base, (buildPending_lays hw hbuilding hc).gives hbuilt⟩

end Asked

end Schemata
