import Schemata.Proofs.Aliases
import Schemata.Proofs.Tables

/-!
# Uses of types

Reading a type expression gives a use, which is one of three: a plain one, a generic one that waits
for the type parameters around it, or a generic one with an alias.  `UseOf` says what the use is
without remembering anything.

## Main definitions

* `HasAlias` — the alias of a generic use.

## Main results

* `useType_spec` — reading a type expression gives its use, whatever is remembered, and a generic
  use with an alias is pending afterwards.
* `UseOf.mentions_of_isDeferred`, `UseOf.not_mem_resolved` — a use waits only if its expression
  mentions a type parameter around it, and is emitted without angle brackets if it does not wait.
-/

namespace Schemata

open Resolve List

variable {c : Char} {expression : Text}

/-! ### The names in a text -/

/-- A character that is part of no name separates the pieces before it from those after it. -/
theorem pieces_append_cons (hc : isNameChar c = false) (s t : Text) :
    Text.pieces (s ++ c :: t) = s.pieces ++ .other c :: t.pieces := by
  have hstart : isNameStart c = false := by
    rw [Bool.eq_false_iff]
    intro h
    rw [isNameChar_of_isNameStart h] at hc
    cases hc
  fun_induction Text.pieces s with
  | case1 =>
    rw [nil_append, Text.pieces]
    simp [hstart]
  | case2 d s hd ih =>
    rw [cons_append, Text.pieces, if_pos hd]
    have htake : (s ++ c :: t).takeWhile isNameChar = s.takeWhile isNameChar := by
      rw [List.takeWhile_append]
      split_ifs with hall
      · rw [takeWhile_cons_of_neg (by simp [hc]), append_nil]
        exact ((takeWhile_sublist _).eq_of_length hall).symm
      · rfl
    have hdrop : (s ++ c :: t).dropWhile isNameChar = s.dropWhile isNameChar ++ c :: t := by
      rw [dropWhile_append]
      split_ifs with hall
      · rw [dropWhile_cons_of_neg (by simp [hc]), List.isEmpty_iff.mp hall, nil_append]
      · rfl
    rw [htake, hdrop, ih, cons_append]
  | case3 d s hd ih => rw [cons_append, Text.pieces, if_neg hd, ih, cons_append]

theorem names_append_cons (hc : isNameChar c = false) (s t : Text) :
    Text.names (s ++ c :: t) = s.names ++ t.names := by
  rw [Text.names, pieces_append_cons hc, filterMap_append]
  rfl

@[simp] theorem names_nil : Text.names [] = [] := by
  rw [Text.names, Text.pieces]
  rfl

theorem names_cons (hc : isNameChar c = false) (t : Text) : Text.names (c :: t) = t.names := by
  rw [← nil_append (c :: t), names_append_cons hc, names_nil, nil_append]

theorem names_append_of_left {s : Text} (hs : ∀ c ∈ s, isNameChar c = false) (t : Text) :
    Text.names (s ++ t) = t.names := by
  induction s with
  | nil => rfl
  | cons c s ih =>
    rw [cons_append, names_cons (hs c mem_cons_self), ih fun d hd => hs d (mem_cons_of_mem _ hd)]

theorem names_append_of_right {t : Text} (ht : ∀ c ∈ t, isNameChar c = false) (s : Text) :
    Text.names (s ++ t) = s.names := by
  cases t with
  | nil => rw [append_nil]
  | cons c t =>
    have hnil := names_append_of_left (fun d hd => ht d (mem_cons_of_mem _ hd)) []
    rw [append_nil, names_nil] at hnil
    rw [names_append_cons (ht c mem_cons_self), hnil, append_nil]

@[simp] theorem names_trim (t : Text) : t.trim.names = t.names := by
  have hblank : ∀ c ∈ t.takeWhile isBlank, isNameChar c = false :=
    fun c hc => isNameChar_of_isBlank (mem_takeWhile_imp hc)
  have hend : ∀ t : Text, t.trimEnd.names = t.names := by
    intro t
    have happ : t = t.trimEnd ++ (t.reverse.takeWhile isBlank).reverse := by
      rw [Text.trimEnd, Text.dropEndWhile, ← reverse_append, takeWhile_append_dropWhile,
        reverse_reverse]
    conv_rhs => rw [happ]
    refine (names_append_of_right ?_ _).symm
    intro c hc
    exact isNameChar_of_isBlank (mem_takeWhile_imp (mem_reverse.mp hc))
  have hstart := names_append_of_left hblank t.trimStart
  rw [trimStart_eq_dropWhile, takeWhile_append_dropWhile] at hstart
  rw [Text.trim, hend, trimStart_eq_dropWhile, hstart]

theorem joinWith_splitAt {depth : Nat} {ls : List Lexeme} {ps : List Text}
    (h : Lexeme.splitAt (· == ',') depth ls = .ok ps) : Text.joinWith [','] ps = raw ls := by
  obtain ⟨q, qs, rfl, hq⟩ :=
    Lexeme.splitAt_induction (motive := fun ls q qs => Text.joinWith [','] (q :: qs) = raw ls) rfl
    (fun c _ _ _ hc h => by rw [joinWith_cons_cons, nil_append, h, beq_iff_eq.mp hc, raw_char,
      singleton_append])
    (fun l _ _ qs h => by cases qs <;> simp_all) h
  exact hq

theorem names_subset_joinWith {ps : List Text} {p : Text} (hp : p ∈ ps) :
    p.names ⊆ (Text.joinWith [','] ps).names := by
  induction ps with
  | nil => exact absurd hp not_mem_nil
  | cons q ps ih =>
    cases ps with
    | nil =>
      rw [mem_singleton.mp hp, joinWith_singleton]
      exact Subset.refl _
    | cons r ps =>
      rw [joinWith_cons_cons, append_assoc, singleton_append, names_append_cons (by decide)]
      rcases mem_cons.mp hp with rfl | hp
      · exact subset_append_left _ _
      · exact subset_append_of_subset_right _ (ih hp)

theorem Application.names_subset {core : Text} (hg : isGenericCore core) {a : Application}
    (h : Application.ofText core = .ok a) {x : Text} (hx : x ∈ a.arguments) :
    x.names ⊆ core.names := by
  obtain ⟨inner, rest, hb, -, hs⟩ := (Application.ofText_generic hg).mp h
  obtain ⟨qs, hq, hqs⟩ := map_eq_ok hs
  have hcore : core = core.takeWhile (· != '<') ++ '<' :: (inner ++ '>' :: rest) := by
    have happ := (takeBalanced_append hb).1
    rw [append_assoc, cons_append, singleton_append] at happ
    rw [← happ, angled, takeWhile_append_dropWhile]
  rw [← hqs, mem_map] at hx
  obtain ⟨q, hq', rfl⟩ := hx
  have hinner : q.trim.names ⊆ Text.names inner := by
    have hjoin := joinWith_splitAt hq
    rw [raw_lex] at hjoin
    rw [names_trim, ← hjoin]
    exact names_subset_joinWith hq'
  rw [hcore, names_append_cons (by decide), names_append_cons (by decide)]
  exact subset_append_of_subset_right _ (subset_append_of_subset_left _ hinner)

theorem Decorated.names_subset {d : Decorated} (h : Decorated.ofText expression = .ok d)
    (hg : isGenericCore d.core) : d.core.names ⊆ expression.names := by
  obtain ⟨opening, name, inner, rest, htrim, hopening, -, hcore, -⟩ := Decorated.ofText_generic h hg
  have hname : ∀ c ∈ opening, isNameChar c = false := by
    intro c hc
    have := hopening c hc
    simp only [isOpening, Bool.or_eq_true, beq_iff_eq] at this
    rcases this with rfl | hblank
    · decide
    · exact isNameChar_of_isBlank hblank
  rw [← append_assoc name] at htrim hcore
  rw [← names_trim expression, htrim, names_append_of_left hname, hcore, append_assoc _ ['>'],
    singleton_append, names_append_cons (c := '>') rfl, names_append_cons (c := '>') rfl, names_nil,
    append_nil]
  exact subset_append_left _ _

/-! ### The use of a type expression -/

/-- The type parameters of a declaration that its uses carry: none if the list is empty. -/
def carried (letters : Option (List Text)) : Option (List Text) :=
  letters.filter (!·.isEmpty)

/-- The use of a type expression inside a declaration with type parameters `letters`. -/
inductive UseOf (naming : Naming) (expression : Text) (letters : Option (List Text))
    (directive : Option Text) : TypeUse → Prop
  | plain (written : Option Text) (e : Text) (d : Decorated)
      (cut : cutDirectives expression = .ok (e, written)) (apart : Decorated.ofText e.trim = .ok d)
      (core : isGenericCore d.core = false) :
      UseOf naming expression letters directive
        { origin := e.trim, isGeneric := false, resolved := e.trim,
          directive := written.or directive, letters := carried letters }
  /-- A use with type arguments that mention a type parameter has to wait. -/
  | deferred (written : Option Text) (e : Text) (d : Decorated) (a : Application) (x : Text)
      (cut : cutDirectives expression = .ok (e, written)) (apart : Decorated.ofText e.trim = .ok d)
      (core : isGenericCore d.core = true) (application : Application.ofText d.core = .ok a)
      (mem : x ∈ a.arguments) (mention : mentions x ((carried letters).getD []) = true) :
      UseOf naming expression letters directive
        { origin := e.trim, isGeneric := true, resolved := e.trim, isDeferred := true,
          directive := written.or directive, letters := carried letters }
  /-- Any other use with type arguments is emitted under its alias. -/
  | named (written : Option Text) (e : Text) (d : Decorated) (a : Application) (name : Text)
      (cut : cutDirectives expression = .ok (e, written)) (apart : Decorated.ofText e.trim = .ok d)
      (core : isGenericCore d.core = true) (application : Application.ofText d.core = .ok a)
      (free : ∀ x ∈ a.arguments, mentions x ((carried letters).getD []) = false)
      (formed : aliasOf naming d.core = .ok name) :
      UseOf naming expression letters directive
        { origin := e.trim, isGeneric := true, resolved := d.opening ++ name ++ d.closing,
          directive := written.or directive, letters := carried letters }

def HasAlias (naming : Naming) (u : TypeUse) (name : Text) : Prop :=
  ∃ core, coreOf u.origin = .ok core ∧ isGenericCore core = true ∧ aliasOf naming core = .ok name

/-- A generic use that depends on no type parameter. -/
def TypeUse.isConcrete (u : TypeUse) : Bool :=
  u.isGeneric && !u.isDeferred

theorem coreOf_eq_ok {d : Decorated} (h : Decorated.ofText expression = .ok d) :
    coreOf expression = .ok d.core := by
  rw [coreOf, h]
  rfl

section Shape

variable {naming : Naming} {expression : Text} {letters : Option (List Text)}
  {directive : Option Text} {u : TypeUse}

theorem UseOf.resolved_eq (h : UseOf naming expression letters directive u)
    (hu : u.isConcrete) : ∃ d name, Decorated.ofText u.origin = .ok d ∧
      HasAlias naming u name ∧ u.resolved = d.opening ++ name ++ d.closing := by
  cases h with
  | plain => cases hu
  | deferred => cases hu
  | named written e d a name cut apart core application free formed =>
    exact ⟨d, name, apart, ⟨d.core, coreOf_eq_ok apart, core, formed⟩, rfl⟩

theorem UseOf.hasAlias (h : UseOf naming expression letters directive u)
    (hu : u.isConcrete) : ∃ name, HasAlias naming u name := by
  obtain ⟨_, name, -, hname, -⟩ := h.resolved_eq hu
  exact ⟨name, hname⟩

theorem UseOf.origin_eq (h : UseOf naming expression letters directive u) :
    ∃ written e, cutDirectives expression = .ok (e, written) ∧ u.origin = e.trim := by
  cases h with
  | plain written e d cut => exact ⟨written, e, cut, rfl⟩
  | deferred written e d a x cut => exact ⟨written, e, cut, rfl⟩
  | named written e d a name cut => exact ⟨written, e, cut, rfl⟩

theorem UseOf.letters_eq (h : UseOf naming expression letters directive u) :
    u.letters = carried letters := by
  cases h <;> rfl

theorem HasAlias.unique {u : TypeUse} {m n : Text} (hm : HasAlias naming u m)
    (hn : HasAlias naming u n) : m = n := by
  obtain ⟨core, hcore, -, hm⟩ := hm
  obtain ⟨core', hcore', -, hn⟩ := hn
  obtain rfl := ok_unique hcore hcore'
  exact ok_unique hm hn

theorem UseOf.mentions_of_isDeferred (h : UseOf naming expression letters directive u)
    (hu : u.isDeferred) : mentions u.origin (u.letters.getD []) := by
  cases h with
  | plain => cases hu
  | named => cases hu
  | deferred written e d a x cut apart core application mem mention =>
    obtain ⟨n, hn, hl⟩ := any_eq_true.mp mention
    refine any_eq_true.mpr ⟨n, ?_, hl⟩
    exact Decorated.names_subset apart core (Application.names_subset core application mem hn)

theorem not_isAngle_of_isAliasName {name : Text} (h : isAliasName name) (hc : isAngleOrQuote c) :
    c ∉ name := by
  have hisName : ∀ {t : Text}, t.isName → c ∉ t := by
    intro t ht hmem
    cases t with
    | nil => cases ht
    | cons d t =>
      rw [Text.isName, Bool.and_eq_true, all_eq_true] at ht
      have hname : isNameChar c := by
        rcases mem_cons.mp hmem with rfl | hmem
        · exact isNameChar_of_isNameStart ht.1
        · exact ht.2 c hmem
      rw [not_isAngleOrQuote (p := isNameChar) (by decide) hname] at hc
      cases hc
  rw [isAliasName, Bool.or_eq_true] at h
  rcases h with h | h
  · exact hisName h
  · rw [Bool.and_eq_true, beq_iff_eq] at h
    intro hmem
    obtain ⟨t, rfl⟩ := getLast?_eq_some_iff.mp h.1
    rw [dropLast_concat] at h
    rcases mem_append.mp hmem with hmem | hmem
    · exact hisName h.2 hmem
    · rw [mem_singleton.mp hmem] at hc
      cases hc

theorem UseOf.not_mem_resolved (h : UseOf naming expression letters directive u)
    (hu : u.isDeferred = false) : '<' ∉ u.resolved ∧ '>' ∉ u.resolved := by
  have key : ∀ c, isAngleOrQuote c → c ∉ u.resolved := by
    intro c hc
    cases h with
    | plain written e d cut apart core =>
      rw [Decorated.mem_core_of_mem apart hc]
      exact Decorated.not_mem_core apart core hc
    | deferred => cases hu
    | named written e d a name cut apart core application free formed =>
      obtain ⟨opening, n, after, rest, -, hopening, -, hrest, rfl, -⟩ :=
        Decorated.ofText_cases apart
      simp only [mem_append, not_or]
      refine ⟨⟨?_, not_isAngle_of_isAliasName (isAliasName_of_aliasOf formed) hc⟩, ?_⟩
      · rw [mem_squeeze_iff hc]
        intro hmem
        rw [not_isAngleOrQuote (p := isOpening) (by decide) (hopening c hmem)] at hc
        cases hc
      · intro hmem
        rw [not_isAngleOrQuote (p := isClosing) (by decide) (hrest c hmem)] at hc
        cases hc
  exact ⟨key _ rfl, key _ rfl⟩

end Shape

/-! ### Reading with what is remembered -/

/-- The context `c'` remembers, beyond what `c` does, the uses `us`: their aliases, and for each
alias the first use that has it. -/
structure Context.Reads (naming : Naming) (c : Context) (us : List TypeUse) (c' : Context) :
    Prop where
  frame : c' = { c with aliasNames := c'.aliasNames, pending := c'.pending, log := c'.log }
  nodup : c.pending.keys.Nodup → c'.pending.keys.Nodup
  keep : ∀ {k v}, c.pending.get? k = some v → c'.pending.get? k = some v
  new : ∀ {k v}, c'.pending.get? k = some v →
    c.pending.get? k = some v ∨ v ∈ us ∧ v.isConcrete = true ∧ HasAlias naming v k
  /-- A use with an alias is pending, or another with its alias is. -/
  pending : ∀ u ∈ us, u.isConcrete = true →
    ∃ k, HasAlias naming u k ∧ (c'.pending.get? k).isSome = true

theorem Context.Reads.refl (naming : Naming) (c : Context) : c.Reads naming [] c where
  frame := rfl
  nodup := id
  keep := id
  new := .inl
  pending := by simp

theorem Context.Reads.append {naming : Naming} {c₁ c₂ c₃ : Context} {us vs : List TypeUse}
    (h : c₁.Reads naming us c₂) (h' : c₂.Reads naming vs c₃) : c₁.Reads naming (us ++ vs) c₃ where
  frame := by
    rw [h'.frame, h.frame]
  nodup := fun hn => h'.nodup (h.nodup hn)
  keep := fun hv => h'.keep (h.keep hv)
  new := by
    intro k v hv
    rcases h'.new hv with hv | ⟨hmem, hv⟩
    · rcases h.new hv with hv | ⟨hmem, hv⟩
      · exact .inl hv
      · exact .inr ⟨mem_append_left _ hmem, hv⟩
    · exact .inr ⟨mem_append_right _ hmem, hv⟩
  pending := by
    intro u hu hc
    rcases mem_append.mp hu with hu | hu
    · obtain ⟨k, hk, hsome⟩ := h.pending u hu hc
      obtain ⟨v, hv⟩ := Option.isSome_iff_exists.mp hsome
      exact ⟨k, hk, by rw [h'.keep hv]; rfl⟩
    · exact h'.pending u hu hc

def IsUse (naming : Naming) (letters : Option (List Text)) (u : TypeUse) : Prop :=
  ∃ expression directive, UseOf naming expression letters directive u

/-- **Reading a type expression** gives its use, whatever is remembered. -/
theorem useType_spec {naming : Naming} {letters : Option (List Text)} {directive : Option Text}
    {u : TypeUse} {c c' : Context} (hc : c.NamesSound naming)
    (h : Gives (useType naming expression letters directive) c u c') :
    c'.NamesSound naming ∧ c.Reads naming [u] c' ∧ UseOf naming expression letters directive u := by
  unfold useType at h
  simp only [gives_bind, gives_ofExcept] at h
  obtain ⟨⟨e, written⟩, _, ⟨hcut, rfl⟩, d, _, ⟨hd, rfl⟩, h⟩ := h
  split_ifs at h with hg
  · obtain ⟨rfl, rfl⟩ := gives_pure.mp h
    refine ⟨hc, ⟨rfl, id, id, .inl, by simp [TypeUse.isConcrete]⟩, .plain written e d hcut hd ?_⟩
    simpa using hg
  · have hg' : isGenericCore d.core := by simpa using hg
    simp only [gives_bind, gives_ofExcept] at h
    obtain ⟨a, _, ⟨ha, rfl⟩, h⟩ := h
    split_ifs at h with hbase hmention
    · exact absurd h not_gives_refuse
    · obtain ⟨rfl, rfl⟩ := gives_pure.mp h
      obtain ⟨x, hx, hm⟩ := any_eq_true.mp hmention
      exact ⟨hc, ⟨rfl, id, id, .inl, by simp [TypeUse.isConcrete]⟩,
        .deferred written e d a x hcut hd hg' ha hx hm⟩
    · simp only [gives_bind, gives_modify, gives_pure] at h
      obtain ⟨name, c₁, hname, _, _, rfl, rfl, rfl⟩ := h
      obtain ⟨hc₁, hmore, halias⟩ := aliasName_spec hc hname
      have hp : c₁.pending = c.pending := by rw [hmore]
      have hhas : ∀ u : TypeUse, u.origin = e.trim → HasAlias naming u name :=
        fun u hu => ⟨d.core, hu ▸ coreOf_eq_ok hd, hg', halias⟩
      refine ⟨?_, ⟨?_, ?_, ?_, ?_, ?_⟩, .named written e d a name hcut hd hg' ha ?_ halias⟩
      · exact hc₁
      · unfold Context.NamesMore at hmore
        rw [hmore]
      · intro hn
        rw [← hp] at hn
        exact Table.nodup_keys_insertIfNew hn _ _
      · intro k v hv
        rw [Table.get?_insertIfNew, hp]
        split_ifs with hk
        · rw [← hk, hv, Option.getD_some]
        · exact hv
      · intro k v hv
        rw [Table.get?_insertIfNew, hp] at hv
        split_ifs at hv with hk
        · subst hk
          cases hget : c.pending.get? k with
          | none =>
            rw [hget] at hv
            cases hv
            exact .inr ⟨mem_singleton.mpr rfl, rfl, hhas _ rfl⟩
          | some w =>
            rw [hget] at hv
            exact .inl hv
        · exact .inl hv
      · intro u hu _
        obtain rfl := mem_singleton.mp hu
        refine ⟨name, hhas _ rfl, ?_⟩
        rw [Table.get?_insertIfNew, if_pos rfl]
        rfl
      · intro x hx
        rw [Bool.eq_false_iff]
        exact fun hm => hmention (any_eq_true.mpr ⟨x, hx, hm⟩)

end Schemata
