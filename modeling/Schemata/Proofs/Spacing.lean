import Schemata.Proofs.TypeTrees

/-!
# White space in type arguments

White space is taken out of the type arguments of a core before they are looked at.  So the alias of
a core depends on its base name and on its type arguments without white space, and on nothing that
was named before.  It also means that a type argument is not checked as it is written: `Paged<A B>`
is read as `Paged<AB>`, while `A B` alone is no type.
-/

namespace Schemata

open Resolve List

variable {naming : Naming} {s t : Text}

/-! ### Contexts that remember aliases -/

/-- The contexts that naming cores and reading type expressions come to, with success or without. -/
inductive Context.Consulted (naming : Naming) : Context → Prop
  | fresh : Consulted naming {}
  | name {c : Context} (before : Consulted naming c) (core : Text) :
      Consulted naming ((aliasName naming core).outcome c).2
  | use {c : Context} (before : Consulted naming c) (expression : Text)
      (letters : Option (List Text))
      (directive : Option Text) : Consulted naming
        ((useType naming expression letters directive).outcome c).2

theorem Context.Consulted.namesSound {c : Context} (h : c.Consulted naming) :
    c.NamesSound naming := by
  induction h with
  | fresh =>
    intro k n hn
    cases hn
  | name _ core ih =>
    obtain ⟨c', hout, hc', -⟩ := aliasName_computes naming core _ ih
    rwa [hout]
  | use _ expression letters directive ih =>
    obtain ⟨c', hout, hc', -⟩ := useType_computes naming expression letters directive _ ih
    rwa [hout]

/-! ### Aliases of cores with the same parts -/

/-- The cores that naming a core comes to: those of its type arguments in canonical form. -/
def NamedWithin (inner core : Text) : Prop :=
  ∃ normal a x d, normalize core = .ok normal ∧ Application.ofText normal = .ok a ∧
    x ∈ a.arguments ∧ Decorated.ofText x = .ok d ∧ inner = d.core

/-- Naming a core comes to an end: the cores on the way may be longer, but have fewer angle
brackets. -/
theorem wellFounded_namedWithin : WellFounded NamedWithin := by
  refine Subrelation.wf ?_ (measure angles).wf
  rintro inner core ⟨normal, a, x, d, hn, ha, hx, hd, rfl⟩
  exact angles_core_lt hn ha hx hd

/-- The base name of a core and its type arguments without white space; none if its brackets do not
close. -/
def partsOf (core : Text) : Option (Text × List Text) :=
  match Application.ofText core with
  | .ok a => some (a.base, a.arguments.map Text.squeeze)
  | .error _ => none

/-- What a failure is reported as: the family of a refusal, or the failure itself. -/
def Failure.family : Failure → ErrorCategory ⊕ Failure
  | .schema e => .inl e.category
  | f => .inr f

theorem Lexeme.yields_splitAt (separator : Char → Bool) (depth : Nat) (ls : List Lexeme) :
    Yields (fun _ => True) (Lexeme.splitAt separator depth ls) := by
  fun_induction Lexeme.splitAt separator depth ls with
  | case1 => trivial
  | case2 => exact category_unclosedLiteral _
  | case3 | case4 | case5 | case6 =>
    rename_i ih
    exact ih.map _ fun _ _ => ⟨⟩

theorem Application.yields_ofText (core : Text) :
    Yields (fun _ => True) (Application.ofText core) := by
  unfold Application.ofText
  split
  · trivial
  · refine (Lexeme.yields_takeBalanced '<' '>' 0 _).bind fun o _ => ?_
    cases o with
    | none => rfl
    | some p =>
      have hsplit := Lexeme.yields_splitAt (· == ',') 0 (lex false (innerText p.1))
      exact (hsplit.map (List.map Text.trim) fun _ _ => ⟨⟩ : Yields (fun _ => True) _).bind
        fun _ _ => ⟨⟩

theorem aliasOf_of_partsOf (naming : Naming) (h : partsOf s = partsOf t) :
    (aliasOf naming s).mapError Failure.family = (aliasOf naming t).mapError Failure.family := by
  unfold partsOf at h
  rw [aliasOf_eq, aliasOf_eq, normalize, normalize]
  cases hs : Application.ofText s with
  | error e =>
    cases ht : Application.ofText t with
    | ok b => simp [hs, ht] at h
    | error e' =>
      change Except.error (Sum.inl e.category) = Except.error (Sum.inl e'.category)
      rw [(Application.yields_ofText s).of_eq_error hs,
        (Application.yields_ofText t).of_eq_error ht]
  | ok a =>
    cases ht : Application.ofText t with
    | error e' => simp [hs, ht] at h
    | ok b =>
      simp only [hs, ht, Option.some.injEq, Prod.mk.injEq] at h
      have htext : a.text = b.text := by
        have hempty := congrArg List.isEmpty h.2
        rw [isEmpty_map, isEmpty_map] at hempty
        rw [Application.text, Application.text, hempty, h.1, h.2]
      change (refusing (.ok a.text) >>= _).mapError _ = (refusing (.ok b.text) >>= _).mapError _
      rw [htext]

/-- The alias that naming a core gives in a context, or the family of the failure. -/
def aliasIn (naming : Naming) (c : Context) (core : Text) : Except (ErrorCategory ⊕ Failure) Text :=
  ((aliasName naming core).outcome c).1.mapError Failure.family

theorem Context.Consulted.aliasIn_eq {c : Context} (h : c.Consulted naming) (core : Text) :
    aliasIn naming c core = (aliasOf naming core).mapError Failure.family := by
  obtain ⟨c', hout, -, -⟩ := aliasName_computes naming core c h.namesSound
  rw [aliasIn, hout]

/-- **An alias depends on the core alone**, and only on its parts.  Whatever was named before, with
success or without, naming a core comes to an end, and gives the same alias or fails in the same way
for all cores with the same parts. -/
theorem aliasName_of_partsOf {naming : Naming} {c : Context} (hc : c.Consulted naming) {s t : Text}
    (h : partsOf s = partsOf t) : WellFounded NamedWithin ∧ ∀ core ∈ [s, t], ∀ c' ∈ [c, {}],
      aliasIn naming c' core = aliasIn naming {} s := by
  refine ⟨wellFounded_namedWithin, fun core hcore c' hc' => ?_⟩
  have hconsulted : c'.Consulted naming := by
    rcases List.mem_pair.mp hc' with rfl | rfl
    · exact hc
    · exact .fresh
  rw [hconsulted.aliasIn_eq, Context.Consulted.fresh.aliasIn_eq]
  rcases List.mem_pair.mp hcore with rfl | rfl
  · rfl
  · exact (aliasOf_of_partsOf naming h).symm

/-- After a core that was refused, white space in a nested type argument makes no difference. -/
theorem aliasName_of_partsOf_nested :
    aliasIn {} ((aliasName {} "Pair<Box<A>, >".toList).outcome {}).2 "Pair<[ Box< A > ],B>".toList =
      .ok "PairBoxAB".toList := by
  have h : partsOf "Pair<[Box<A>], B>".toList = partsOf "Pair<[ Box< A > ],B>".toList := by
    decide +kernel
  have hfresh : aliasIn {} {} "Pair<[Box<A>], B>".toList = .ok "PairBoxAB".toList := by
    decide +kernel
  have hrefused : Context.Consulted {} ((aliasName {} "Pair<Box<A>, >".toList).outcome {}).2 :=
    .name .fresh _
  rw [(aliasName_of_partsOf hrefused h).2 _ (List.mem_pair.mpr (.inr rfl)) _ List.mem_cons_self,
    hfresh]

/-! ### Type arguments without white space -/

theorem splitAt_squeeze {depth : Nat} {qs : List Text}
    (h : Lexeme.splitAt (· == ',') depth (t.map .char) = .ok qs) :
    Lexeme.splitAt (· == ',') depth (t.squeeze.map .char) = .ok (qs.map Text.squeeze) := by
  induction t generalizing depth qs with
  | nil =>
    cases h
    rfl
  | cons c t ih =>
    rw [map_cons, Lexeme.splitAt] at h
    split_ifs at h with hc
    · obtain ⟨ps, hp, rfl⟩ := map_eq_ok h
      obtain ⟨hdepth, rfl⟩ : depth = 0 ∧ c = ',' := by simpa using hc
      subst hdepth
      change ([] :: ·) <$> Lexeme.splitAt _ 0 ((Text.squeeze t).map .char) = _
      rw [ih hp]
      rfl
    · obtain ⟨ps, hp, rfl⟩ := map_eq_ok h
      obtain ⟨p, ps, rfl⟩ := exists_cons_of_ne_nil (Lexeme.splitAt_ne_nil hp)
      have hrest := ih hp
      by_cases hb : isBlank c
      · have hs : ∀ t, Text.squeeze (c :: t) = Text.squeeze t :=
          fun t => filter_cons_of_neg (by simp [hb])
        rw [depthAfter_of_isBlank hb] at hrest
        rw [hs, hrest]
        exact congrArg (fun q => Except.ok (q :: ps.map Text.squeeze)) (hs p).symm
      · have hs : ∀ t, Text.squeeze (c :: t) = c :: Text.squeeze t :=
          fun t => filter_cons_of_pos (by simp [hb])
        rw [hs, map_cons, Lexeme.splitAt, if_neg hc, hrest]
        exact congrArg (fun q => Except.ok (q :: ps.map Text.squeeze)) (hs p).symm

theorem closes_unique {depth : Int} {s' t' : Text} (hs : closes depth s) (ht : closes depth t)
    (h : s ++ s' = t ++ t') : s = t := by
  induction s generalizing depth t with
  | nil => cases hs
  | cons c s ih =>
    cases t with
    | nil => cases ht
    | cons d t =>
      obtain ⟨rfl, htail⟩ := List.cons.inj h
      rw [closes] at hs ht
      split_ifs at hs ht
      · rw [ih hs ht htail]
      · rw [List.isEmpty_iff.mp hs, List.isEmpty_iff.mp ht]
      · rw [ih hs ht htail]
      · rw [ih hs ht htail]

theorem angled_squeeze (t : Text) : angled t.squeeze = (angled t).squeeze := by
  induction t with
  | nil => rfl
  | cons c t ih =>
    by_cases hlt : c = '<'
    · subst hlt
      rfl
    · have hdrop : ∀ t, angled (c :: t) = angled t :=
        fun t => dropWhile_cons_of_pos (by simpa using hlt)
      rw [hdrop, ← ih, Text.squeeze, filter_cons]
      split_ifs
      · exact hdrop _
      · rfl

/-- A type expression without quotes, from its first angle bracket on, starts with the brackets of
its core. -/
theorem Decorated.exists_angled (hs : s.trim = s) {d : Decorated} (hd : Decorated.ofText s = .ok d)
    (hg : isGenericCore d.core) : ∃ rest, angled s = angled d.core ++ rest := by
  obtain ⟨opening, name, inner, rest, htrim, hopening, hname, -, hangled, -⟩ :=
    Decorated.ofText_generic hd hg
  have hne : ∀ c ∈ opening ++ name, c != '<' := by
    intro c hc
    rw [bne_iff_ne]
    rintro rfl
    rcases mem_append.mp hc with hc | hc
    · exact absurd (hopening _ hc) (by decide)
    · exact not_mem_of_isAngleOrQuote hname rfl hc
  refine ⟨rest, ?_⟩
  rw [hangled, ← hs, htrim, append_assoc name, ← append_assoc opening, angled,
    dropWhile_append_of_pos hne]
  rfl

/-- **White space moves no type argument.**  Two type expressions that differ in white space have
the same type arguments, up to white space. -/
theorem Decorated.map_squeeze_arguments (hst : s.squeeze = t.squeeze) (hs : s.trim = s)
    (hq : '"' ∉ s) {d : Decorated} (hd : Decorated.ofText s = .ok d) (hg : isGenericCore d.core)
    {a b : Application} (ha : Application.ofText t = .ok a)
    (hb : Application.ofText d.core = .ok b) :
    b.arguments.map Text.squeeze = a.arguments.map Text.squeeze := by
  have hmem : ∀ c, isAngleOrQuote c → (c ∈ s ↔ c ∈ t) := fun c hc => by
    rw [← mem_squeeze_iff hc, hst, mem_squeeze_iff hc]
  have hgt : isGenericCore t := by
    rw [isGenericCore, contains_iff_mem] at hg ⊢
    rwa [← hmem _ rfl, Decorated.mem_core_of_mem hd rfl]
  obtain ⟨inner, rest, htake, -, hargs⟩ := (Application.ofText_generic hgt).mp ha
  obtain ⟨inner', rest', htake', -, hargs'⟩ := (Application.ofText_generic hg).mp hb
  have hcloses : ∀ {u i r : Text}, takeBalanced '<' '>' u = .ok (some ('<' :: i ++ ['>'], r)) →
    '"' ∉ u →
      closes 0 (Text.squeeze ('<' :: i) ++ ['>']) ∧ '"' ∉ i := by
    intro u i r hu hqu
    rw [(takeBalanced_append hu).1] at hqu
    have hi : '"' ∉ '<' :: i ++ ['>'] := fun hm => hqu (mem_append_left _ hm)
    refine ⟨?_, fun hm => hi (by simp [hm])⟩
    rw [← closes_filter, filter_squeeze fun _ => isAngleOrQuote_of_isBlank, closes_filter,
      (takeBalanced_closes hu).1, decide_eq_true hi]
  have hqd : '"' ∉ d.core := by rwa [← Decorated.mem_core_of_mem hd rfl]
  obtain ⟨hclose, hqi⟩ := hcloses htake fun hm =>
    hq ((hmem _ rfl).mpr ((dropWhile_sublist _).subset hm))
  obtain ⟨hclose', hqi'⟩ := hcloses htake' fun hm => hqd ((dropWhile_sublist _).subset hm)
  -- the brackets close at the same place
  have hinner : Text.squeeze inner = Text.squeeze inner' := by
    obtain ⟨more, hangled⟩ := Decorated.exists_angled hs hd hg
    have heq : (angled t).squeeze = (angled s).squeeze := by
      rw [← angled_squeeze, ← hst, angled_squeeze]
    rw [hangled, (takeBalanced_append htake).1, (takeBalanced_append htake').1, squeeze_append,
      squeeze_append, squeeze_append _ more, squeeze_append _ rest', squeeze_append _ ['>'],
      append_assoc _ _ more.squeeze] at heq
    exact tail_eq_of_cons_eq (append_cancel_right (closes_unique hclose hclose' heq))
  obtain ⟨qs, hqs, hqs'⟩ := map_eq_ok hargs
  obtain ⟨ps, hps, hps'⟩ := map_eq_ok hargs'
  rw [lex_of_not_quote hqi] at hqs
  rw [lex_of_not_quote hqi'] at hps
  have hsplit := splitAt_squeeze hqs
  rw [hinner, splitAt_squeeze hps] at hsplit
  have htrim : ∀ xs : List Text, (xs.map Text.trim).map Text.squeeze = xs.map Text.squeeze :=
    fun xs => by
    rw [map_map]
    exact map_congr_left fun x _ => squeeze_trim x
  rw [← hqs', ← hps', htrim, htrim, Except.ok.inj hsplit]

/-! ### Type arguments as they are written -/

/-- A type argument of a type expression, as it is written. -/
def HasArgument (t x : Text) : Prop :=
  ∃ a, Application.ofText t = .ok a ∧ x ∈ a.arguments

/-- What a type expression contributes to an alias, its type arguments do without white space. -/
theorem exists_argumentAlias_squeeze {n : Text} (hst : s.squeeze = t.squeeze) (hs : s.trim = s)
    (h : argumentAlias naming s = .ok n) {x : Text} (hx : HasArgument t x) :
    ∃ m, argumentAlias naming x.squeeze = .ok m := by
  have hq : '"' ∉ s := fun hm => absurd (isExpressionChar_of_argumentAlias h _ hm) (by decide)
  obtain ⟨a, ha, hx⟩ := hx
  obtain ⟨d, hd, ⟨hg, -⟩ | ⟨hg, halias⟩⟩ := argumentAlias_eq_ok.mp h
  · -- without angle brackets there are no type arguments
    have hlt : '<' ∉ t := by
      rw [← mem_squeeze_iff rfl, ← hst, mem_squeeze_iff rfl, Decorated.mem_core_of_mem hd rfl]
      exact Decorated.not_mem_core hd hg rfl
    rw [Application.ofText, ← angled,
      angled_of_not_generic (by simpa [isGenericCore] using hlt)] at ha
    cases ha
    exact absurd hx not_mem_nil
  · obtain ⟨normal, hn, hcanon, a', names, -, ha', -, hforms, -, -⟩ := canonical_of_aliasOf halias
    obtain ⟨b, hb, rfl⟩ := map_eq_ok hn
    obtain rfl := ok_unique (Application.ofText_text hg hb hcanon.2) ha'
    rw [Decorated.map_squeeze_arguments hst hs hq hd hg ha hb] at hforms
    obtain ⟨m, -, hm⟩ := exists_right_of_forall₂ hforms (mem_map_of_mem hx)
    exact ⟨m, hm⟩

/-- **Type arguments are checked without their white space.**  Where a type expression is read, in
whatever context, and its use does not wait for a template around it, every type argument in it, at
any depth, is a type once white space is taken out of it. -/
theorem useType_arguments {naming : Naming} {c c' : Context} (hc : c.Consulted naming)
    {expression : Text} {letters : Option (List Text)} {directive : Option Text} {u : TypeUse}
    (h : Gives (useType naming expression letters directive) c u c') (hu : u.isDeferred = false)
    {x : Text} (hx : Relation.TransGen HasArgument u.origin x) :
    ∃ d, Decorated.ofText x.squeeze = .ok d := by
  obtain ⟨-, -, huse⟩ := useType_spec hc.namesSound h
  obtain ⟨n, hn⟩ := huse.argumentAlias hu
  suffices halias : ∃ m, argumentAlias naming x.squeeze = .ok m by
    obtain ⟨m, hm⟩ := halias
    obtain ⟨d, hd, -⟩ := argumentAlias_eq_ok.mp hm
    exact ⟨d, hd⟩
  induction hx with
  | single hx =>
    obtain ⟨_, e, -, horigin⟩ := huse.origin_eq
    exact exists_argumentAlias_squeeze rfl (by rw [horigin, trim_trim]) hn hx
  | @tail y z _ hz ih =>
    obtain ⟨m, hm⟩ := ih
    exact exists_argumentAlias_squeeze (squeeze_squeeze y) (trim_squeeze y) hm hz

/-- A name that white space breaks in two is let pass as a type argument of a type argument. -/
theorem useType_brokenName : ∃ u c, Gives (useType {} "Paged<[Box<A B>]>".toList none) {} u c ∧
    u.isDeferred = false ∧ Relation.TransGen HasArgument u.origin "A B".toList := by
  obtain ⟨u, c, hu, horigin⟩ : ∃ u c, Gives (useType {} "Paged<[Box<A B>]>".toList none) {} u c ∧
      (u.isDeferred, u.origin) = (false, "Paged<[Box<A B>]>".toList) :=
    exists_gives_of_outcome (by decide +kernel)
  obtain ⟨hdeferred, horigin⟩ := Prod.mk.inj horigin
  have houter : HasArgument u.origin "[Box<A B>]".toList := by
    refine ⟨⟨"Paged".toList, ["[Box<A B>]".toList]⟩, ?_, mem_singleton.mpr rfl⟩
    rw [horigin]
    decide +kernel
  have hinner : HasArgument "[Box<A B>]".toList "A B".toList :=
    ⟨⟨"[Box".toList, ["A B".toList]⟩, by decide +kernel, mem_singleton.mpr rfl⟩
  exact ⟨u, c, hu, hdeferred, .tail (.single houter) hinner⟩

theorem useType_arguments_brokenName :
    ∃ u c, Gives (useType {} "Paged<[Box<A B>]>".toList none) {} u c ∧
    u.isDeferred = false ∧ Relation.TransGen HasArgument u.origin "A B".toList ∧
      ∃ d, Decorated.ofText (Text.squeeze "A B".toList) = .ok d := by
  obtain ⟨u, c, hu, hdeferred, hx⟩ := useType_brokenName
  exact ⟨u, c, hu, hdeferred, hx, useType_arguments .fresh hu hdeferred hx⟩

/-- As it is written, it is no type. -/
theorem not_checked_brokenName : ¬ ∀ e u c c', Gives (useType {} e none) c u c' →
    ∀ x, Relation.TransGen HasArgument u.origin x → ∃ d, Decorated.ofText x = .ok d := by
  intro hall
  obtain ⟨u, c, hu, -, hx⟩ := useType_brokenName
  obtain ⟨d, hd⟩ := hall _ _ _ _ hu _ hx
  have hok : (Decorated.ofText "A B".toList).isOk = false := by decide +kernel
  rw [hd] at hok
  cases hok

end Schemata
