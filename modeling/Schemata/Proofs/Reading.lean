import Mathlib.Data.List.Perm.Basic
import Schemata.Proofs.Parsed
import Schemata.Proofs.Traversals

/-!
# Reading, whatever is remembered

Reading a type expression, and so reading a declaration, comes to one outcome in every context whose
aliases are sound, and the context only learns: an alias that is remembered stays as it is, and the
alias of a core that has been named is remembered under the canonical form of the core.  `useOf`
says what the outcome is without remembering anything.
-/

namespace Schemata

open Resolve List

variable {naming : Naming} {u : TypeUse}

/-! ### What naming remembers -/

/-- The second context differs from the first in nothing but the aliases remembered, and has
forgotten none. -/
structure Context.Learns (c c' : Context) : Prop where
  frame : c.NamesMore c'
  keep : ∀ {k n}, c.aliasNames.get? k = some n → c'.aliasNames.get? k = some n

theorem Context.Learns.refl (c : Context) : c.Learns c :=
  ⟨.refl c, id⟩

theorem Context.Learns.trans {c₁ c₂ c₃ : Context} (h : c₁.Learns c₂) (h' : c₂.Learns c₃) :
    c₁.Learns c₃ :=
  ⟨h.frame.trans h'.frame, fun hk => h'.keep (h.keep hk)⟩

theorem Context.Learns.insert {c c' : Context} (h : c.Learns c') {k n : Text}
    (hk : c.aliasNames.get? k = none) :
    c.Learns { c' with aliasNames := c'.aliasNames.insert k n } := by
  refine ⟨?_, ?_⟩
  · unfold Context.NamesMore
    rw [h.frame]
  · intro k' n' hk'
    rw [Table.get?_insert, if_neg, h.keep hk']
    rintro rfl
    rw [hk] at hk'
    cases hk'

/-- Naming an application remembers its alias, if naming the cores of its type arguments forgets
none. -/
theorem nameApplication_meets {normal : Text} {a : Application} {c : Context}
    (hget : c.aliasNames.get? normal = none)
    (ih : ∀ x ∈ a.arguments, ∀ d, Decorated.ofText x = .ok d → ∀ c : Context,
      Meets (aliasName naming d.core) c (fun _ c' => c.Learns c') fun _ c' => c.Learns c') :
    Meets (nameApplication naming normal a) c
      (fun n c' => c.Learns c' ∧ c'.aliasNames.get? normal = some n) fun _ c' => c.Learns c' := by
  unfold nameApplication
  split_ifs
  · exact .refl c
  -- a type argument that is generic is named itself, any other says its name
  have step : ∀ x ∈ a.arguments, ∀ c : Context, True → Meets (nameArgument naming x) c
      (fun _ c' => (True ∧ c.Learns c') ∧ True) fun _ c' => (True ∧ c.Learns c') ∧ True := by
    intro x hx c _
    unfold nameArgument
    rw [meets_bind, meets_ofExcept]
    refine ⟨fun d hd => ?_, fun _ _ => ⟨⟨trivial, .refl c⟩, trivial⟩⟩
    split_ifs
    · exact (ih x hx d hd c).imp (fun _ _ h => ⟨⟨trivial, h⟩, trivial⟩)
        fun _ _ h => ⟨⟨trivial, h⟩, trivial⟩
    · exact ⟨⟨trivial, .refl c⟩, trivial⟩
  rw [meets_bind]
  refine (Meets.mapM (I := fun _ => True) (Q := fun _ _ _ => True) Context.Learns.refl
    Context.Learns.trans (fun _ h => h) step trivial).imp ?_ fun _ _ h => h.1.2
  rintro names c₁ ⟨⟨-, hc₁⟩, -⟩
  rw [meets_bind, meets_ofOutcome]
  refine ⟨fun formed _ => ?_, fun _ _ => hc₁⟩
  rw [meets_bind, meets_ofExcept]
  refine ⟨fun name _ => ?_, fun _ _ => hc₁⟩
  rw [meets_bind, meets_modify, meets_pure]
  refine ⟨hc₁.insert hget, ?_⟩
  rw [Table.get?_insert, if_pos rfl]

/-- **Naming a core** remembers its alias under the canonical form of the core, and forgets none. -/
theorem aliasName_meets (naming : Naming) (core : Text) (c : Context) :
    Meets (aliasName naming core) c
      (fun n c' => c.Learns c' ∧ ∃ k, normalize core = .ok k ∧ c'.aliasNames.get? k = some n)
      fun _ c' => c.Learns c' := by
  -- a type argument has fewer angle brackets than the core it stands in
  induction hk : angles core using Nat.strongRecOn generalizing core c with
  | _ k ih =>
    subst hk
    rw [aliasName_eq, meets_bind, meets_ofExcept]
    refine ⟨fun normal hn => ?_, fun _ _ => .refl c⟩
    rw [meets_bind, meets_get]
    cases hget : c.aliasNames.get? normal with
    | some n => exact ⟨.refl c, normal, hn, hget⟩
    | none =>
      simp only
      rw [meets_bind, meets_ofExcept]
      refine ⟨fun a ha => ?_, fun _ _ => .refl c⟩
      refine (nameApplication_meets hget ?_).imp
        (fun n c' h => ⟨h.1, normal, hn, h.2⟩) fun _ _ h => h
      intro x hx d hd c
      exact (ih _ (angles_core_lt hn ha hx hd) d.core c rfl).imp (fun _ _ h => h.1) fun _ _ h => h

theorem aliasName_learns (naming : Naming) (core : Text) :
    Computes (Context.NamesSound naming) Context.Learns (aliasName naming core)
      (aliasOf naming core) :=
  (aliasName_computes naming core).of_meets fun c _ =>
    (aliasName_meets naming core c).imp (fun _ _ h => h.1) fun _ _ h => h

/-! ### Uses -/

/-- The second context differs from the first in nothing but what is remembered about uses, and has
forgotten no alias. -/
structure Context.Notes (c c' : Context) : Prop where
  frame : c' = { c with aliasNames := c'.aliasNames, pending := c'.pending }
  keep : ∀ {k n}, c.aliasNames.get? k = some n → c'.aliasNames.get? k = some n

theorem Context.Notes.refl (c : Context) : c.Notes c :=
  ⟨rfl, id⟩

theorem Context.Notes.trans {c₁ c₂ c₃ : Context} (h : c₁.Notes c₂) (h' : c₂.Notes c₃) :
    c₁.Notes c₃ := by
  refine ⟨?_, fun hk => h'.keep (h.keep hk)⟩
  rw [h'.frame, h.frame]

theorem Context.Learns.notes {c c' : Context} (h : c.Learns c') : c.Notes c' := by
  refine ⟨?_, h.keep⟩
  rw [h.frame]

/-- Reading a type expression names at most one core, and registers at most its use. -/
theorem useType_meets (naming : Naming) (expression : Text) (letters : Option (List Text))
    (directive : Option Text) (c : Context) :
    Meets (useType naming expression letters directive) c
      (fun u c' => ∃ c₁, c.Learns c₁ ∧
        (c' = c₁ ∨ u.isConcrete ∧ ∃ name, c' =
          { c₁ with pending := c₁.pending.insertIfNew name u }))
      fun _ c' => c.Learns c' := by
  unfold useType
  rw [meets_bind, meets_ofExcept]
  refine ⟨fun cut _ => ?_, fun _ _ => .refl c⟩
  simp only
  rw [meets_bind, meets_ofExcept]
  refine ⟨fun d _ => ?_, fun _ _ => .refl c⟩
  split_ifs
  · exact ⟨c, .refl c, .inl rfl⟩
  · rw [meets_bind, meets_ofExcept]
    refine ⟨fun a _ => ?_, fun _ _ => .refl c⟩
    split_ifs
    · exact .refl c
    · exact ⟨c, .refl c, .inl rfl⟩
    · -- only a generic use that depends on no type parameter is named and registered
      rw [meets_bind]
      refine (aliasName_meets naming d.core c).imp ?_ fun _ _ h => h
      rintro name c₁ ⟨hc₁, -⟩
      rw [meets_bind, meets_modify, meets_pure]
      exact ⟨c₁, hc₁, .inr ⟨rfl, name, rfl⟩⟩

/-- The use of a type expression, found without remembering anything. -/
def useOf (naming : Naming) (expression : Text) (letters : Option (List Text))
    (directive : Option Text) : Except Failure TypeUse := do
  let (e, written) ← refusing (cutDirectives expression)
  let directive := written.or directive
  let origin := e.trim
  let letters := carried letters
  let d ← refusing (Decorated.ofText origin)
  if !isGenericCore d.core then
    .ok { origin, isGeneric := false, resolved := origin, directive, letters }
  else
    let a ← refusing (Application.ofText d.core)
    let parameters := letters.getD []
    if parameters.contains a.base then .error (.schema (.appliedParameter a.base origin))
    else if a.arguments.any fun x => mentions x parameters then
      .ok { origin, isGeneric := true, resolved := origin, isDeferred := true, directive, letters }
    else
      let name ← aliasOf naming d.core
      .ok {
        origin, isGeneric := true, resolved := d.opening ++ name ++ d.closing, directive, letters }

/-- **Reading a type expression** gives its use, whatever is remembered. -/
theorem useType_computes (naming : Naming) (expression : Text) (letters : Option (List Text))
    (directive : Option Text) :
    Computes (Context.NamesSound naming) Context.Notes (useType naming expression letters directive)
      (useOf naming expression letters directive) := by
  have trans : ∀ {c₁ c₂ c₃ : Context}, c₁.Notes c₂ → c₂.Notes c₃ → c₁.Notes c₃ :=
    Context.Notes.trans
  unfold useType useOf carried
  refine Computes.bind (L := Context.Notes) trans (computes_ofExcept .refl _) ?_
  rintro ⟨e, written⟩ -
  refine Computes.bind (L := Context.Notes) trans (computes_ofExcept .refl _) fun d _ => ?_
  simp only
  split_ifs
  · exact computes_pure .refl _
  · refine Computes.bind (L := Context.Notes) trans (computes_ofExcept .refl _) fun a _ => ?_
    split_ifs
    · exact fun c hc => ⟨c, rfl, hc, .refl c⟩
    · exact computes_pure .refl _
    · refine Computes.bind (L := Context.Notes) trans ?_ fun name _ => ?_
      · intro c hc
        obtain ⟨c', hout, hc', hlearns⟩ := aliasName_learns naming d.core c hc
        exact ⟨c', hout, hc', hlearns.notes⟩
      · exact fun c hc => ⟨_, rfl, hc, rfl, id⟩

theorem UseOf.of_useOf {expression : Text} {letters : Option (List Text)} {directive : Option Text}
    (h : useOf naming expression letters directive = .ok u) :
    UseOf naming expression letters directive u := by
  unfold useOf at h
  obtain ⟨⟨e, written⟩, hcut, h⟩ := bind_eq_ok.mp h
  obtain ⟨d, hd, h⟩ := bind_eq_ok.mp h
  rw [refusing_eq_ok] at hcut hd
  split_ifs at h with hg
  · cases h
    exact .plain written e d hcut hd (by simpa using hg)
  · have hg' : isGenericCore d.core := by simpa using hg
    obtain ⟨a, ha, h⟩ := bind_eq_ok.mp h
    rw [refusing_eq_ok] at ha
    simp only at h
    split_ifs at h with hbase hmention
    · cases h
      obtain ⟨x, hx, hm⟩ := any_eq_true.mp hmention
      exact .deferred written e d a x hcut hd hg' ha hx hm
    · obtain ⟨name, hname, h⟩ := bind_eq_ok.mp h
      cases h
      refine .named written e d a name hcut hd hg' ha ?_ hname
      intro x hx
      rw [Bool.eq_false_iff]
      exact fun hm => hmention (any_eq_true.mpr ⟨x, hx, hm⟩)

theorem mentions_nil (expression : Text) : mentions expression [] = false := by
  simp [mentions, properLetters]

theorem useOf_none_eq_ok {expression : Text} {directive : Option Text} :
    useOf naming expression none directive = .ok u ↔ UseOf naming expression none directive u := by
  refine ⟨.of_useOf, ?_⟩
  intro h
  unfold useOf
  cases h with
  | plain written e d cut apart core =>
    refine bind_eq_ok.mpr ⟨(e, written), refusing_eq_ok.mpr cut, ?_⟩
    refine bind_eq_ok.mpr ⟨d, refusing_eq_ok.mpr apart, ?_⟩
    rw [if_pos (by rw [core]; rfl)]
  | deferred written e d a x cut apart core application mem mention =>
    -- outside of any template there is no type parameter to mention
    change mentions x [] = true at mention
    rw [mentions_nil] at mention
    cases mention
  | named written e d a name cut apart core application free formed =>
    refine bind_eq_ok.mpr ⟨(e, written), refusing_eq_ok.mpr cut, ?_⟩
    refine bind_eq_ok.mpr ⟨d, refusing_eq_ok.mpr apart, ?_⟩
    rw [if_neg (by rw [core]; decide)]
    refine bind_eq_ok.mpr ⟨a, refusing_eq_ok.mpr application, ?_⟩
    change (if a.arguments.any (fun x => mentions x []) then _ else _) = _
    rw [if_neg (by simp [mentions_nil])]
    exact bind_eq_ok.mpr ⟨name, formed, rfl⟩

/-! ### Declarations -/

section Parse

variable {naming : Naming} {annotations : List Annotation}

theorem parseFragment_steady (f : Fragment) :
    Steady (Context.NamesSound naming) (parseFragment naming annotations f) :=
  parseFragment_composed (composes_steady _)
    (fun e ls o => (useType_computes naming e ls o).steady) f

theorem exists_map_of_parseFragments (naming : Naming) (annotations : List Annotation) :
    ∃ r : Fragment → Except Failure Declaration, ∀ fs ds (log : Log),
      (∃ c, Gives (parseFragments naming annotations fs) { log } ds c) ↔
        Forall₂ (fun f d => r f = .ok d) fs ds := by
  choose r hr using fun f =>
    (parseFragment_steady f : Steady (Context.NamesSound naming)
      (parseFragment naming annotations f))
  refine ⟨r, fun fs ds log => ?_⟩
  have hempty : ({ log } : Context).NamesSound naming := by
    intro k n hn
    cases hn
  have hall : Computes (Context.NamesSound naming) (fun _ _ => True)
      (fs.mapM (parseFragment naming annotations)) (fs.mapM r) :=
    Computes.mapM (fun _ => trivial) (fun _ _ => trivial) fun f _ => hr f
  unfold parseFragments
  simp only [gives_bind, gives_tell, gives_pure]
  rw [← mapM_eq_ok]
  constructor
  · rintro ⟨c, ds, c₁, hds, _, _, rfl, rfl, rfl⟩
    exact (hall.of_gives hempty hds).2.2
  · intro hds
    rw [hds] at hall
    obtain ⟨c₁, hgives⟩ := hall.gives hempty
    exact ⟨_, ds, c₁, hgives, (), _, rfl, rfl, rfl⟩

end Parse

/-! ### Declarations with their comments -/

/-- The declarations `ds` are read from the fragments in a context that remembers nothing but its
log, which leaves the context `c`, and are given their comments.  Giving them their comments may add
to the log. -/
def ReadFrom (naming : Naming) (annotations : List Annotation) (blocks : List CommentBlock)
    (fs : List Fragment) (ds : List Declaration) (c : Context) : Prop :=
  ∃ log parsed c₀, Gives (parseFragments naming annotations fs) { log } parsed c₀ ∧
    c = { c₀ with log := c.log } ∧ ds = attachComments blocks parsed

theorem flatMap_uses_attachComments (blocks : List CommentBlock) (ds : List Declaration) :
    (attachComments blocks ds).flatMap Declaration.uses = ds.flatMap Declaration.uses := by
  rw [attachComments, flatMap_map]
  simp

section ReadFrom

variable {naming : Naming} {annotations : List Annotation} {blocks : List CommentBlock}
  {fs fs' : List Fragment} {ds ds' : List Declaration} {c c' : Context}

/-- Reading declarations remembers nothing but what it reads about the uses written. -/
theorem ReadFrom.reads (h : ReadFrom naming annotations blocks fs ds c) :
    c.NamesSound naming ∧ ∃ log,
      ({ log } : Context).Reads naming (ds.flatMap Declaration.uses) c := by
  obtain ⟨log, parsed, c₀, hparsed, hc, rfl⟩ := h
  obtain ⟨hnames, hreads, -⟩ := parseFragments_spec (by
    intro k n hn
    cases hn) hparsed
  rw [flatMap_uses_attachComments, hc]
  refine ⟨hnames, log, ?_, hreads.nodup, hreads.keep, hreads.new, hreads.pending⟩
  rw [hreads.frame]

/-- The uses written are uses of type expressions inside the type parameters of their
declaration. -/
theorem ReadFrom.isUse (h : ReadFrom naming annotations blocks fs ds c) {d : Declaration}
    (hd : d ∈ ds) (hu : u ∈ d.uses) : IsUse naming d.parameters u := by
  obtain ⟨log, parsed, c₀, hparsed, -, rfl⟩ := h
  obtain ⟨-, -, huses⟩ := parseFragments_spec (by
    intro k n hn
    cases hn) hparsed
  obtain ⟨d, hd', rfl⟩ := mem_map.mp hd
  rw [uses_attachComment] at hu
  rw [parameters_attachComment]
  exact huses d hd' u hu

/-- **Declarations may be read in any order.** -/
theorem exists_perm_of_parseFragments {log : Log} {parsed : List Declaration}
    (h : Gives (parseFragments naming annotations fs) { log } parsed c) (hperm : fs'.Perm fs) :
    ∃ parsed' c', Gives (parseFragments naming annotations fs') { log } parsed' c' ∧
      parsed'.Perm parsed := by
  obtain ⟨r, hr⟩ := exists_map_of_parseFragments naming annotations
  obtain ⟨parsed', hparsed', hperm'⟩ := perm_comp_forall₂ hperm ((hr fs parsed log).mp ⟨c, h⟩)
  obtain ⟨c', h'⟩ := (hr fs' parsed' log).mpr hparsed'
  exact ⟨parsed', c', h', hperm'⟩

theorem ReadFrom.exists_perm (h : ReadFrom naming annotations blocks fs ds c)
    (hperm : fs'.Perm fs) :
    ∃ ds' c', ReadFrom naming annotations blocks fs' ds' c' ∧ ds'.Perm ds := by
  obtain ⟨log, parsed, c₀, hparsed, -, rfl⟩ := h
  obtain ⟨parsed', c', h', hperm'⟩ := exists_perm_of_parseFragments hparsed hperm
  exact ⟨_, c', ⟨log, parsed', c', h', rfl, rfl⟩, hperm'.map _⟩

/-- Two readings of the same fragments in different orders give the same declarations. -/
theorem ReadFrom.perm (h : ReadFrom naming annotations blocks fs ds c)
    (h' : ReadFrom naming annotations blocks fs' ds' c') (hperm : fs'.Perm fs) : ds'.Perm ds := by
  obtain ⟨r, hr⟩ := exists_map_of_parseFragments naming annotations
  obtain ⟨log, parsed, c₀, hparsed, -, rfl⟩ := h
  obtain ⟨log', parsed', c₀', hparsed', -, rfl⟩ := h'
  obtain ⟨ps, hps, hperm'⟩ := perm_comp_forall₂ hperm ((hr fs parsed log).mp ⟨c₀, hparsed⟩)
  have hsame : parsed' = ps := by
    refine right_unique_forall₂' ?_ ((hr fs' parsed' log').mp ⟨c₀', hparsed'⟩) hps
    intro f d d' hd hd'
    exact ok_unique hd hd'
  rw [hsame]
  exact hperm'.map _

end ReadFrom

end Schemata
