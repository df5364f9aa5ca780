import Schemata.Proofs.Appending
import Schemata.Proofs.Spacing

/-!
# Type parameters with type arguments

A type parameter stands for a type and takes no type arguments itself.  Where a type expression in a
template starts with one that does, as in `T<Product>`, the template is refused.  An expression
whose type arguments mention a parameter waits for an instance of the template, though, and nothing
inside of it is looked at before: `Paged<T<Product>>` is let pass.
-/

namespace Schemata

open Resolve List

variable {p t x : Text}

/-- The core of a type expression is the name `p` with type arguments. -/
def AppliesFirst (x p : Text) : Prop :=
  p.isName = true ∧ ∃ d a, Decorated.ofText x = .ok d ∧ isGenericCore d.core = true ∧
    Application.ofText d.core = .ok a ∧ a.base = p

/-- A type expression, or a type argument in it at any depth, has the name `p` with type arguments
as its core. -/
def Applies (e p : Text) : Prop :=
  ∃ x, Relation.ReflTransGen HasArgument e x ∧ AppliesFirst x p

theorem HasArgument.isGenericCore (h : HasArgument t x) : isGenericCore t := by
  obtain ⟨a, ha, hx⟩ := h
  by_contra hg
  rw [Application.ofText, ← angled, angled_of_not_generic (Bool.eq_false_iff.mpr hg)] at ha
  cases ha
  exact absurd hx not_mem_nil

theorem HasArgument.names_subset (h : HasArgument t x) : x.names ⊆ t.names := by
  have hg := h.isGenericCore
  obtain ⟨a, ha, hx⟩ := h
  exact Application.names_subset hg ha hx

theorem names_subset_of_reflTransGen (h : Relation.ReflTransGen HasArgument t x) :
    x.names ⊆ t.names := by
  induction h with
  | refl => exact Subset.refl _
  | tail _ hx ih => exact Subset.trans hx.names_subset ih

theorem AppliesFirst.mem_names (h : AppliesFirst x p) : p ∈ x.names := by
  obtain ⟨hp, d, a, hd, hg, ha, rfl⟩ := h
  refine Decorated.names_subset hd hg ?_
  obtain ⟨inner, rest, -, hbase, -⟩ := (Application.ofText_generic hg).mp ha
  obtain ⟨t, ht⟩ := angled_eq_cons hg
  have hcore : d.core = d.core.takeWhile (· != '<') ++ '<' :: t := by
    rw [← ht, angled, takeWhile_append_dropWhile]
  have hnames : a.base.names = [a.base] := by
    obtain ⟨c, cs, hn, hc, hcs⟩ := isName_iff.mp hp
    rw [hn, Text.names, Text.pieces, if_pos hc, takeWhile_eq_self_iff.mpr hcs,
      dropWhile_eq_nil_iff.mpr hcs, Text.pieces]
    rfl
  rw [hbase, names_trim, ← hbase] at hnames
  rw [hcore, names_append_cons rfl, hnames]
  exact mem_append_left _ (mem_singleton.mpr rfl)

theorem HasArgument.mem_arguments (h : HasArgument t x) (ht : t.trim = t) {d : Decorated}
    (hd : Decorated.ofText t = .ok d) (hg : Schemata.isGenericCore d.core) {a : Application}
    (ha : Application.ofText d.core = .ok a) : x ∈ a.arguments := by
  have hgt := h.isGenericCore
  obtain ⟨b, hb, hx⟩ := h
  obtain ⟨inner, rest, htake, -, hargs⟩ := (Application.ofText_generic hg).mp ha
  obtain ⟨inner', rest', htake', -, hargs'⟩ := (Application.ofText_generic hgt).mp hb
  -- what follows the core does not move the bracket that closes it
  obtain ⟨more, hmore⟩ := Decorated.exists_angled ht hd hg
  have hsame := takeBalanced_lex_append htake more
  rw [← hmore, htake'] at hsame
  obtain ⟨rfl, -⟩ : inner' = inner ∧ rest' = rest ++ more := by simpa using hsame
  rw [hargs] at hargs'
  rwa [Except.ok.inj hargs']

/-- **What is looked at** where a type expression is read: its core, and whether its type arguments
mention a type parameter. -/
theorem useType_unapplied {naming : Naming} {expression : Text} {letters : Option (List Text)}
    {directive : Option Text} {c c' : Context} {u : TypeUse}
    (h : Gives (useType naming expression letters directive) c u c') (hp : p ∈ letters.getD []) :
    ¬ AppliesFirst u.origin p ∧ (Applies u.origin p → u.isDeferred) := by
  unfold useType at h
  simp only [gives_bind, gives_ofExcept] at h
  obtain ⟨⟨e, written⟩, _, ⟨-, rfl⟩, d, _, ⟨hd, rfl⟩, h⟩ := h
  have hp' : p ∈ (letters.filter (!·.isEmpty)).getD [] := by rwa [← carried, getD_carried]
  split_ifs at h with hg
  · obtain ⟨rfl, rfl⟩ := gives_pure.mp h
    have hplain : ¬ isGenericCore d.core := by simpa using hg
    have hfirst : ¬ AppliesFirst e.trim p := by
      rintro ⟨-, d', a, hd', hg', -⟩
      obtain rfl := ok_unique hd hd'
      exact hplain hg'
    refine ⟨hfirst, ?_⟩
    rintro ⟨x, hx, happlies⟩
    rcases Relation.ReflTransGen.cases_head hx with rfl | ⟨y, hy, -⟩
    · exact absurd happlies hfirst
    · -- without angle brackets there are no type arguments
      have hangle := hy.isGenericCore
      rw [isGenericCore, contains_iff_mem, Decorated.mem_core_of_mem hd rfl] at hangle
      exact absurd (contains_iff_mem.mpr hangle) hplain
  · have hg' : isGenericCore d.core := by simpa using hg
    simp only [gives_bind, gives_ofExcept] at h
    obtain ⟨a, _, ⟨ha, rfl⟩, h⟩ := h
    split_ifs at h with hbase hmention
    · exact absurd h not_gives_refuse
    all_goals
      have hfirst : ¬ AppliesFirst e.trim p := by
        rintro ⟨-, d', a', hd', -, ha', rfl⟩
        obtain rfl := ok_unique hd hd'
        obtain rfl := ok_unique ha ha'
        exact hbase (contains_iff_mem.mpr hp')
    · obtain ⟨rfl, rfl⟩ := gives_pure.mp h
      exact ⟨hfirst, fun _ => rfl⟩
    · simp only [gives_bind, gives_modify, gives_pure] at h
      obtain ⟨name, c₁, -, _, _, rfl, rfl, rfl⟩ := h
      refine ⟨hfirst, ?_⟩
      rintro ⟨x, hx, happlies⟩
      rcases Relation.ReflTransGen.cases_head hx with rfl | ⟨y, hy, hx⟩
      · exact absurd happlies hfirst
      · have hy' := hy.mem_arguments (trim_trim e) hd hg' ha
        have hnames := names_subset_of_reflTransGen hx happlies.mem_names
        exact absurd (any_eq_true.mpr ⟨y, hy', mentions_of_mem_names hnames hp'⟩) hmention

/-- A type expression that starts with a type parameter and its type arguments is refused. -/
theorem outcome_useType_of_appliesFirst {naming : Naming} {expression e : Text}
    {written : Option Text} (hcut : cutDirectives expression = .ok (e, written))
    (h : AppliesFirst e.trim p) {letters : Option (List Text)} (hp : p ∈ letters.getD [])
    (directive : Option Text) (c : Context) :
    (useType naming expression letters directive).outcome c =
      (.error (.schema (.appliedParameter p e.trim)), c) := by
  obtain ⟨-, d, a, hd, hg, ha, rfl⟩ := h
  have hp' : a.base ∈ (letters.filter (!·.isEmpty)).getD [] := by rwa [← carried, getD_carried]
  unfold useType
  rw [hcut]
  change (Resolve.ofExcept (Decorated.ofText e.trim) >>= _).outcome c = _
  rw [hd]
  change (ite _ _ _ : Resolve TypeUse).outcome c = _
  rw [if_neg (by simp [hg]), ha]
  change (ite _ _ _ : Resolve TypeUse).outcome c = _
  rw [if_pos (contains_iff_mem.mpr hp')]
  rfl

/-- **Type parameters with type arguments.**  Where all declarations are read, a type parameter of a
declaration has type arguments only inside of a use that waits for an instance, and not as the core
of the use.  A type expression with such a core is refused with a mismatch, wherever it is read. -/
theorem applied_parameters_wait (naming : Naming) :
    (∀ annotations fs c ds c', Gives (parseFragments naming annotations fs) c ds c' →
      ∀ d ∈ ds, ∀ u ∈ d.uses, ∀ p ∈ d.parameters.getD [], Applies u.origin p →
        u.isDeferred = true ∧ ¬ AppliesFirst u.origin p) ∧
    ∀ expression e written letters directive c p, cutDirectives expression = .ok (e, written) →
      AppliesFirst e.trim p → p ∈ letters.getD [] → ∃ refusal,
        (useType naming expression letters directive).outcome c = (.error (.schema refusal), c) ∧
          refusal.category = .parameterMismatch := by
  have hreading : ReadsUses naming (fun _ => True) (fun _ _ _ => True) fun letters u =>
      ∀ p ∈ letters.getD [], ¬ AppliesFirst u.origin p ∧
        (Applies u.origin p → u.isDeferred = true) :=
    ⟨fun _ => trivial, fun _ _ => trivial,
      fun _ h => ⟨trivial, trivial, fun _ hp => useType_unapplied h hp⟩⟩
  constructor
  · intro annotations fs c ds c' h d hd u hu p hp happlies
    obtain ⟨hfirst, hdeferred⟩ := (parseFragments_reads hreading trivial h).2 d hd u hu p hp
    exact ⟨hdeferred happlies, hfirst⟩
  · intro expression e written letters directive c p hcut hfirst hp
    exact ⟨_, outcome_useType_of_appliesFirst hcut hfirst hp directive c, rfl⟩

/-- A template with a type parameter that has type arguments inside of others. -/
def nestedParameter : Text :=
  "type Box<T> { bad: Paged<T<Product>> }".toList

theorem exists_nestedParameter : ∃ ds c,
    Gives (parseFragments {} [] (scan nestedParameter).fragments) {} ds c ∧
      ∃ d ∈ ds, ∃ u ∈ d.uses, "T".toList ∈ d.parameters.getD [] ∧ Applies u.origin "T".toList := by
  obtain ⟨ds, c, hds, hshape⟩ : ∃ ds c,
      Gives (parseFragments {} [] (scan nestedParameter).fragments) {} ds c ∧
        ds.map (fun d => (d.parameters.getD [], d.uses.map TypeUse.origin)) =
          [(["T".toList], ["Paged<T<Product>>".toList])] :=
    exists_gives_of_outcome (by decide +kernel)
  obtain ⟨d, rfl, hd⟩ := map_eq_singleton_iff.mp hshape
  obtain ⟨hparameters, huses⟩ := Prod.mk.inj hd
  obtain ⟨u, hu, horigin⟩ := map_eq_singleton_iff.mp huses
  have hargument : HasArgument u.origin "T<Product>".toList := by
    refine ⟨⟨"Paged".toList, ["T<Product>".toList]⟩, ?_, mem_singleton.mpr rfl⟩
    rw [horigin]
    decide +kernel
  have hfirst : AppliesFirst "T<Product>".toList "T".toList :=
    ⟨by decide +kernel, ⟨[], "T<Product>".toList, []⟩,
      ⟨"T".toList, ["Product".toList]⟩, by decide +kernel, by decide +kernel, by decide +kernel,
      rfl⟩
  refine ⟨[d], c, hds, d, mem_singleton.mpr rfl, u, ?_, ?_, _, .single hargument, hfirst⟩
  · rw [hu]
    exact mem_singleton.mpr rfl
  · rw [hparameters]
    exact mem_singleton.mpr rfl

theorem applied_parameters_wait_nestedParameter : ∃ ds c d u,
    Gives (parseFragments {} [] (scan nestedParameter).fragments) {} ds c ∧ d ∈ ds ∧ u ∈ d.uses ∧
      u.isDeferred = true ∧ ¬ AppliesFirst u.origin "T".toList := by
  obtain ⟨ds, c, hds, d, hd, u, hu, hp, happlies⟩ := exists_nestedParameter
  exact ⟨ds, c, d, u, hds, hd, hu,
    (applied_parameters_wait {}).1 _ _ _ _ _ hds d hd u hu _ hp happlies⟩

/-- Inside of a use that waits, a type parameter with type arguments is let pass. -/
theorem not_refused_nestedParameter : ¬ ∀ fs ds c, Gives (parseFragments {} [] fs) {} ds c →
    ∀ d ∈ ds, ∀ u ∈ d.uses, ∀ p ∈ d.parameters.getD [], ¬ Applies u.origin p := by
  intro hall
  obtain ⟨ds, c, hds, d, hd, u, hu, hp, happlies⟩ := exists_nestedParameter
  exact hall _ _ _ hds d hd u hu _ hp happlies

end Schemata
