import Schemata.Proofs.Canonical
import Schemata.Proofs.Run
import Schemata.TypeUse

/-!
# Aliases of cores

Naming a core looks its canonical form up among the aliases found before, and names its type
arguments first if it is not there.  `aliasOf` says what the alias is without remembering anything.
A core that has an alias has no quotes between its brackets, so its canonical form is the canonical
form of itself, and both have one alias: it makes no difference whether a core is named as it is
written or in canonical form.

## Main results

* `canonical_of_aliasOf` — a core with an alias has a canonical form that is canonical.
* `aliasName_spec` — naming a core gives its alias, whatever is remembered.
-/

namespace Schemata

open Resolve List

variable {core name normal : Text} {naming : Naming}

/-! ### The alias of a core -/

/-- The alias of a core, found without remembering anything. -/
def aliasOf (naming : Naming) (core : Text) : Except Failure Text :=
  match _hn : normalize core with
  | .error e => .error (.schema e)
  | .ok normal =>
      match _ha : Application.ofText normal with
      | .error e => .error (.schema e)
      | .ok a =>
          if a.arguments.any List.isEmpty then .error (.schema (.emptyArgument a.base normal))
          else do
            let names ← a.arguments.attach.mapM fun ⟨argument, _hm⟩ =>
              match _hd : Decorated.ofText argument with
              | .error e => .error (.schema e)
              | .ok d => if isGenericCore d.core then aliasOf naming d.core else .ok d.core
            let formed ← naming.form a.base names
            refusing (checkAlias formed normal)
termination_by angles core
decreasing_by exact angles_core_lt _hn _ha _hm _hd

/-- What a type argument contributes to an alias: its core, or the alias of its core if that is
generic. -/
def argumentAlias (naming : Naming) (argument : Text) : Except Failure Text := do
  let d ← refusing (Decorated.ofText argument)
  if isGenericCore d.core then aliasOf naming d.core else .ok d.core

/-- The alias of an application in canonical form. -/
def applicationAlias (naming : Naming) (normal : Text) (a : Application) : Except Failure Text :=
  if a.arguments.any List.isEmpty then .error (.schema (.emptyArgument a.base normal))
  else do
    let names ← a.arguments.mapM (argumentAlias naming)
    let formed ← naming.form a.base names
    refusing (checkAlias formed normal)

theorem aliasOf_eq (naming : Naming) (core : Text) :
    aliasOf naming core = (do
      let normal ← refusing (normalize core)
      let a ← refusing (Application.ofText normal)
      applicationAlias naming normal a) := by
  have hmapM : ∀ as : List Text,
      (as.attach.mapM fun ⟨argument, _hm⟩ => match _hd : Decorated.ofText argument with
        | .error e => .error (.schema e)
        | .ok d => if isGenericCore d.core then aliasOf naming d.core else .ok d.core) =
      as.mapM (argumentAlias naming) := by
    intro as
    rw [mapM_subtype (g := argumentAlias naming), unattach_attach]
    intro x hx
    rw [argumentAlias]
    simp only
    split <;> rename_i h <;> rw [h] <;> rfl
  rw [aliasOf]
  split
  · rename_i hn
    rw [hn]
    rfl
  · rename_i normal hn
    rw [hn]
    change _ = (refusing (Application.ofText normal) >>= applicationAlias naming normal)
    split
    · rename_i ha
      rw [ha]
      rfl
    · rename_i a ha
      rw [ha, hmapM]
      change _ = applicationAlias naming normal a
      rw [applicationAlias]

/-- How a core in canonical form comes to an alias: its type arguments contribute names, and the
rule for its base name forms the alias from them. -/
def FormsAlias (naming : Naming) (normal name : Text) : Prop :=
  ∃ a names formed, Application.ofText normal = .ok a ∧ [] ∉ a.arguments ∧
    Forall₂ (fun x n => argumentAlias naming x = .ok n) a.arguments names ∧
    naming.form a.base names = .ok formed ∧ checkAlias formed normal = .ok name

theorem mapM_eq_ok {ε α β : Type} {f : α → Except ε β} {as : List α} {bs : List β} :
    as.mapM f = .ok bs ↔ Forall₂ (fun a b => f a = .ok b) as bs := by
  induction as generalizing bs with
  | nil =>
    rw [mapM_nil, forall₂_nil_left_iff]
    exact ⟨fun h => (Except.ok.inj h).symm, fun h => h ▸ rfl⟩
  | cons a as ih =>
    rw [mapM_cons, bind_eq_ok, forall₂_cons_left_iff]
    constructor
    · rintro ⟨b, hb, h⟩
      obtain ⟨bs, hbs, h⟩ := bind_eq_ok.mp h
      exact ⟨b, bs, hb, ih.mp hbs, (Except.ok.inj h).symm⟩
    · rintro ⟨b, bs, hb, hbs, rfl⟩
      exact ⟨b, hb, bind_eq_ok.mpr ⟨bs, ih.mpr hbs, rfl⟩⟩

theorem aliasOf_eq_ok :
    aliasOf naming core = .ok name ↔ ∃ normal, normalize core = .ok normal ∧
      FormsAlias naming normal name := by
  have happlication : ∀ normal a, applicationAlias naming normal a = .ok name ↔
      [] ∉ a.arguments ∧ ∃ names formed,
        Forall₂ (fun x n => argumentAlias naming x = .ok n) a.arguments names ∧
        naming.form a.base names = .ok formed ∧ checkAlias formed normal = .ok name := by
    intro normal a
    unfold applicationAlias
    split_ifs with hempty
    · simp_all
    · simp only [bind_eq_ok, mapM_eq_ok, refusing_eq_ok]
      constructor
      · rintro ⟨names, hnames, formed, hformed, hcheck⟩
        exact ⟨by simpa using hempty, names, formed, hnames, hformed, hcheck⟩
      · rintro ⟨-, names, formed, hnames, hformed, hcheck⟩
        exact ⟨names, hnames, formed, hformed, hcheck⟩
  rw [aliasOf_eq]
  simp only [bind_eq_ok, refusing_eq_ok, happlication]
  constructor
  · rintro ⟨normal, hn, a, ha, hempty, names, formed, h⟩
    exact ⟨normal, hn, a, names, formed, ha, hempty, h⟩
  · rintro ⟨normal, hn, a, names, formed, ha, hempty, h⟩
    exact ⟨normal, hn, a, ha, hempty, names, formed, h⟩

theorem argumentAlias_eq_ok {argument : Text} :
    argumentAlias naming argument = .ok name ↔ ∃ d, Decorated.ofText argument = .ok d ∧
      (isGenericCore d.core = false ∧ name = d.core ∨ isGenericCore d.core ∧
        aliasOf naming d.core = .ok name) := by
  unfold argumentAlias
  simp only [bind_eq_ok, refusing_eq_ok]
  refine exists_congr fun d => and_congr_right fun _ => ?_
  cases hg : isGenericCore d.core with
  | false => simp [eq_comm]
  | true => simp

/-- **A core with an alias** has a canonical form without quotes between its brackets. -/
theorem canonical_of_aliasOf (h : aliasOf naming core = .ok name) :
    ∃ normal, normalize core = .ok normal ∧ Canonical normal ∧ FormsAlias naming normal name := by
  induction hk : angles core using Nat.strongRecOn generalizing core name with
  | _ k ih =>
    subst hk
    obtain ⟨normal, hn, hforms⟩ := aliasOf_eq_ok.mp h
    refine ⟨normal, hn, normalize_canonical hn ?_, hforms⟩
    obtain ⟨a, names, formed, ha, -, hargs, -, -⟩ := hforms
    cases hg : isGenericCore core with
    | false =>
      rw [normalize_of_not_generic hg] at hn
      cases hn
      rw [angled_of_not_generic (by rw [isGenericCore_trim, hg])]
      exact not_mem_nil
    | true =>
      obtain ⟨a₀, ha₀, rfl⟩ := map_eq_ok hn
      refine Application.not_quote_angled_text hg ha₀ ha ?_
      -- a quote in a type argument would stand in its core, which has an alias itself if it is
      -- generic
      intro x hx
      obtain ⟨n, -, hxn⟩ := exists_right_of_forall₂ hargs hx
      obtain ⟨d, hd, ⟨hgd, -⟩ | ⟨hgd, hn'⟩⟩ := argumentAlias_eq_ok.mp hxn
      · rw [Decorated.mem_core_of_mem hd rfl]
        exact Decorated.not_mem_core hd hgd rfl
      · obtain ⟨normal', hn', hcanon, -⟩ := ih _ (angles_core_lt hn ha hx hd) hn' rfl
        rw [Decorated.mem_core_of_mem hd rfl]
        exact Decorated.not_quote_core hd hgd (closesEarly_of_canonical hgd hn' hcanon.2)

theorem aliasOf_normal (h : aliasOf naming core = .ok name) (hn : normalize core = .ok normal) :
    aliasOf naming normal = .ok name := by
  obtain ⟨normal', hn', hcanon, hforms⟩ := canonical_of_aliasOf h
  obtain rfl := ok_unique hn hn'
  exact aliasOf_eq_ok.mpr ⟨normal, hcanon.1, hforms⟩

theorem isAliasName_of_aliasOf (h : aliasOf naming core = .ok name) : isAliasName name := by
  obtain ⟨normal, -, a, names, formed, -, -, -, -, hcheck⟩ := aliasOf_eq_ok.mp h
  unfold checkAlias at hcheck
  split at hcheck
  · split_ifs at hcheck with hname
    rwa [← Except.ok.inj hcheck]
  · cases hcheck

/-! ### Naming with what is remembered -/

/-- The aliases that a context remembers are the aliases of cores in canonical form. -/
def Context.NamesSound (naming : Naming) (c : Context) : Prop :=
  ∀ k n, c.aliasNames.get? k = some n → normalize k = .ok k ∧ aliasOf naming k = .ok n

/-- The two contexts differ in nothing but the aliases remembered. -/
def Context.NamesMore (c c' : Context) : Prop :=
  c' = { c with aliasNames := c'.aliasNames }

theorem Context.NamesMore.refl (c : Context) : c.NamesMore c :=
  rfl

theorem Context.NamesMore.trans {c₁ c₂ c₃ : Context} (h : c₁.NamesMore c₂) (h' : c₂.NamesMore c₃) :
    c₁.NamesMore c₃ := by
  unfold Context.NamesMore at *
  rw [h', h]

theorem Context.NamesSound.insert {c : Context} (hc : c.NamesSound naming)
    (hn : normalize core = .ok normal) (halias : aliasOf naming core = .ok name) :
    ({ c with aliasNames := c.aliasNames.insert normal name } : Context).NamesSound naming := by
  intro k m hm
  rw [Table.get?_insert] at hm
  split at hm
  · rename_i hkey
    cases hm
    subst hkey
    obtain ⟨normal', hn', hcanon, -⟩ := canonical_of_aliasOf halias
    obtain rfl := ok_unique hn hn'
    exact ⟨hcanon.1, aliasOf_normal halias hn⟩
  · exact hc k m hm

def nameArgument (naming : Naming) (argument : Text) : Resolve Text := do
  let d ← Resolve.ofExcept (Decorated.ofText argument)
  if isGenericCore d.core then aliasName naming d.core else pure d.core

/-- Naming a core that is not remembered names its type arguments, and remembers the alias. -/
def nameApplication (naming : Naming) (normal : Text) (a : Application) : Resolve Text :=
  if a.arguments.any List.isEmpty then Resolve.refuse (.emptyArgument a.base normal)
  else do
    let names ← a.arguments.mapM (nameArgument naming)
    let formed ← Resolve.ofOutcome (naming.form a.base names)
    let name ← Resolve.ofExcept (checkAlias formed normal)
    modify fun c => { c with aliasNames := c.aliasNames.insert normal name }
    return name

theorem aliasName_eq (naming : Naming) (core : Text) :
    aliasName naming core = (do
      let normal ← Resolve.ofExcept (normalize core)
      match (← get).aliasNames.get? normal with
      | some name => return name
      | none =>
          let a ← Resolve.ofExcept (Application.ofText normal)
          nameApplication naming normal a) := by
  have hmapM : ∀ as : List Text,
      (as.attach.mapM fun ⟨argument, _hm⟩ => match _hd : Decorated.ofText argument with
        | .error e => Resolve.refuse e
        | .ok d => if isGenericCore d.core then aliasName naming d.core else pure d.core) =
      as.mapM (nameArgument naming) := by
    intro as
    rw [mapM_subtype (g := nameArgument naming), unattach_attach]
    intro x hx
    rw [nameArgument]
    simp only
    split <;> rename_i h <;> rw [h] <;> rfl
  rw [aliasName]
  split
  · rename_i hn
    rw [hn]
    rfl
  · rename_i normal hn
    rw [hn, Resolve.ofExcept, pure_bind]
    refine bind_congr fun c => ?_
    cases c.aliasNames.get? normal with
    | some name => rfl
    | none =>
      simp only
      split
      · rename_i ha
        rw [ha]
        rfl
      · rename_i a ha
        rewrite [ha, Resolve.ofExcept, pure_bind, nameApplication, ← hmapM]
        rfl

/-- Naming an application gives its alias, if naming the cores of its type arguments does. -/
theorem nameApplication_computes {a : Application} (hn : normalize core = .ok normal)
    (ha : Application.ofText normal = .ok a)
    (ih : ∀ x ∈ a.arguments, ∀ d, Decorated.ofText x = .ok d →
      Computes (Context.NamesSound naming) Context.NamesMore (aliasName naming d.core)
        (aliasOf naming d.core)) :
    Computes (Context.NamesSound naming) Context.NamesMore (nameApplication naming normal a)
      (applicationAlias naming normal a) := by
  have halias : applicationAlias naming normal a = aliasOf naming core := by
    rw [aliasOf_eq, hn]
    change _ = refusing (Application.ofText normal) >>= applicationAlias naming normal
    rw [ha]
    rfl
  have hlast : ∀ name, applicationAlias naming normal a = .ok name →
      Computes (Context.NamesSound naming) Context.NamesMore (do
        modify fun c => { c with aliasNames := c.aliasNames.insert normal name }
        return name) (.ok name) := by
    intro name hname c hc
    exact ⟨_, rfl, hc.insert hn (halias ▸ hname), rfl⟩
  unfold nameApplication
  unfold applicationAlias at hlast ⊢
  split_ifs at hlast ⊢ with hempty
  · exact fun c hc => ⟨c, rfl, hc, rfl⟩
  · refine Computes.bind (L := Context.NamesMore) Context.NamesMore.trans
      (Computes.mapM Context.NamesMore.refl Context.NamesMore.trans ?_) ?_
    · intro x hx
      refine Computes.bind (L := Context.NamesMore) Context.NamesMore.trans
        (computes_ofExcept Context.NamesMore.refl _) ?_
      intro d hd
      rw [refusing_eq_ok] at hd
      split_ifs
      · exact ih x hx d hd
      · exact computes_pure Context.NamesMore.refl _
    · intro names hnames
      refine Computes.bind (L := Context.NamesMore) Context.NamesMore.trans
        (computes_ofOutcome Context.NamesMore.refl _) ?_
      intro formed hformed
      have hok : ∀ r : Except Failure Text, r = r >>= .ok := by
        intro r
        cases r <;> rfl
      rw [hok (refusing _)]
      refine Computes.bind (L := Context.NamesMore) Context.NamesMore.trans
        (computes_ofExcept Context.NamesMore.refl _) ?_
      intro name hname
      refine hlast name ?_
      rw [hnames]
      change naming.form a.base names >>= _ = _
      rw [hformed]
      exact hname

/-- **Naming a core** gives its alias, whatever aliases are remembered. -/
theorem aliasName_computes (naming : Naming) (core : Text) :
    Computes (Context.NamesSound naming) Context.NamesMore (aliasName naming core)
      (aliasOf naming core) := by
  induction hk : angles core using Nat.strongRecOn generalizing core with
  | _ k ih =>
    subst hk
    intro c hc
    cases hn : normalize core with
    | error e =>
      rw [aliasName_eq, aliasOf_eq, hn]
      exact ⟨c, rfl, hc, rfl⟩
    | ok normal =>
      cases hget : c.aliasNames.get? normal with
      | some name =>
        -- the canonical form is remembered with its alias
        obtain ⟨hnormal, halias⟩ := hc _ _ hget
        obtain ⟨normal', hn', hforms⟩ := aliasOf_eq_ok.mp halias
        obtain rfl := ok_unique hnormal hn'
        rw [aliasOf_eq_ok.mpr ⟨normal, hn, hforms⟩]
        refine ⟨c, ?_, hc, rfl⟩
        rw [aliasName_eq, hn, Resolve.ofExcept, pure_bind, outcome_bind]
        change Resolve.outcome (match c.aliasNames.get? normal with
          | some name => return name
          | none => _) c = _
        rw [hget]
        rfl
      | none =>
        have hout : (aliasName naming core).outcome c =
            (Resolve.ofExcept (Application.ofText normal) >>=
              nameApplication naming normal).outcome c := by
          rw [aliasName_eq, hn, Resolve.ofExcept, pure_bind, outcome_bind]
          change Resolve.outcome (match c.aliasNames.get? normal with
            | some name => return name
            | none => _) c = _
          rw [hget]
        rw [hout, aliasOf_eq, hn]
        exact Computes.bind (L := Context.NamesMore) Context.NamesMore.trans
          (computes_ofExcept Context.NamesMore.refl _)
          (fun a ha => nameApplication_computes hn (refusing_eq_ok.mp ha) fun x hx d hd =>
            ih _ (angles_core_lt hn (refusing_eq_ok.mp ha) hx hd) _ rfl) c hc

theorem aliasName_spec {c c' : Context} (hc : c.NamesSound naming)
    (h : Gives (aliasName naming core) c name c') :
    c'.NamesSound naming ∧ c.NamesMore c' ∧ aliasOf naming core = .ok name :=
  (aliasName_computes naming core).of_gives hc h

/-! ### The default alias -/

/-- Where no rules are given, the alias is the base name followed by what the type arguments
contribute. -/
theorem form_eq_default (hgeneral : naming.general = none)
    (hnamed : ∀ key, naming.named.get? key = none) {base : Text} {names : List Text}
    {formed : Value} (h : naming.form base names = .ok formed) :
    formed = .text (base ++ names.flatten) := by
  unfold Naming.form Naming.ruleFor at h
  rw [hgeneral] at h
  cases hchosen : naming.chosen.get? base with
  | none =>
    rw [hchosen] at h
    exact (Except.ok.inj h).symm
  | some key =>
    rw [hchosen] at h
    simp only [hnamed key] at h
    cases h

theorem Application.trim_base {a : Application} (h : Application.ofText core = .ok a) :
    a.base.trim = a.base := by
  rcases Application.ofText_eq_ok h with rfl | ⟨_, _, -, hbase, -⟩
  · exact trim_trim core
  · rw [hbase, trim_trim]

/-- A type name has no character but those of names, unless a line break ends it. -/
theorem isNameChar_of_isAliasName {t : Text} (h : isAliasName t)
    (hend : t.getLast? ≠ some '\n') : ∀ c ∈ t, isNameChar c := by
  have hname : t.isName := by
    simpa [isAliasName, hend] using h
  cases t with
  | nil => cases hname
  | cons d t =>
    rw [Text.isName, Bool.and_eq_true, all_eq_true] at hname
    intro c hc
    rcases mem_cons.mp hc with rfl | hc
    · exact isNameChar_of_isNameStart hname.1
    · exact hname.2 c hc

theorem flatten_eq_filter_of_forall₂ {xs ns : List Text}
    (h : Forall₂ (fun x n => argumentAlias naming x = .ok n) xs ns)
    (hx : ∀ x ∈ xs, ∀ n, argumentAlias naming x = .ok n → n = x.filter isNameChar) :
    ns.flatten = xs.flatten.filter isNameChar := by
  induction h with
  | nil => rfl
  | cons hn _ ih =>
    rw [flatten_cons, flatten_cons, filter_append, ← hx _ mem_cons_self _ hn,
      ih fun x hmem => hx x (mem_cons_of_mem _ hmem)]

/-- **The default alias** of a core is what is left of its canonical form when everything but the
characters of names is taken out. -/
theorem aliasOf_default (hgeneral : naming.general = none)
    (hnamed : ∀ key, naming.named.get? key = none) (h : aliasOf naming core = .ok name)
    (hn : normalize core = .ok normal) : name = normal.filter isNameChar := by
  induction hk : angles core using Nat.strongRecOn generalizing core normal name with
  | _ k ih =>
    subst hk
    obtain ⟨normal', hn', hcanon, a, names, formed, ha, -, hargs, hformed, hcheck⟩ :=
      canonical_of_aliasOf h
    obtain rfl := ok_unique hn hn'
    obtain rfl := form_eq_default hgeneral hnamed hformed
    have hnames : names.flatten = a.arguments.flatten.filter isNameChar := by
      refine flatten_eq_filter_of_forall₂ hargs ?_
      intro x hx n hxn
      obtain ⟨d, hd, hcases⟩ := argumentAlias_eq_ok.mp hxn
      rw [Decorated.filter_core hd (fun _ => isNameChar_of_isBlank) (by decide)]
      rcases hcases with ⟨hg, rfl⟩ | ⟨hg, hdn⟩
      · exact (filter_eq_self.mpr (Decorated.isNameChar_of_mem_core hd hg)).symm
      · obtain ⟨k, hk, hkcanon, -⟩ := canonical_of_aliasOf hdn
        rw [ih _ (angles_core_lt hn ha hx hd) hdn hk rfl]
        exact Decorated.filter_normalize hd hg hk hkcanon.2 (fun _ => isNameChar_of_isBlank)
          (by decide)
    have htext : normal = a.text := by
      have := hcanon.1
      rw [normalize, ha] at this
      exact (Except.ok.inj this).symm
    have halias : isAliasName (a.base ++ names.flatten) ∧ name = a.base ++ names.flatten := by
      simp only [checkAlias] at hcheck
      split_ifs at hcheck with hname
      exact ⟨hname, (Except.ok.inj hcheck).symm⟩
    have hchars : ∀ c ∈ a.base ++ names.flatten, isNameChar c := by
      refine isNameChar_of_isAliasName halias.1 ?_
      -- a line break at the end would end a trimmed base name, or stand among characters of names
      rw [getLast?_append]
      cases hlast : names.flatten.getLast? with
      | none => exact getLast?_ne_of_trim (Application.trim_base ha) (by decide)
      | some c =>
        have hc : isNameChar c := by
          have hmem := mem_of_getLast? hlast
          rw [hnames] at hmem
          exact (mem_filter.mp hmem).2
        intro heq
        obtain rfl : c = '\n' := by simpa using heq
        cases hc
    rw [halias.2, htext,
      Application.filter_text (fun _ => isNameChar_of_isBlank) (by decide), ← hnames]
    refine congrArg (· ++ names.flatten) (filter_eq_self.mpr ?_).symm
    exact fun c hc => hchars c (mem_append_left _ hc)

end Schemata
