import Schemata.Proofs.Decoration
import Schemata.Proofs.Writing

/-!
# Canonical declarations are read back

A *canonical* declaration holds what can be read from its text and nothing else: its types are names
in brackets and bangs, as they are written, its comments stand above a field, after it or at the end
of a body, and there are no directives, descriptions or annotations.  Written down and read again,
canonical declarations come back one by one, whatever the indentation, and no use of a type waits
for an instance.
-/

namespace Schemata

open Resolve List

variable {closing t : Text}

/-! ### Decorated names -/

/-- A name after opening brackets and before as many closing ones, with bangs among these. -/
def Text.IsDecorated (t : Text) : Prop :=
  ∃ k name closing, t = List.replicate k '[' ++ (name ++ closing) ∧ Text.isName name = true ∧
    (∀ c ∈ closing, c = ']' ∨ c = '!') ∧ closing.count ']' = k

theorem nested_closing (h : ∀ c ∈ closing, c = ']' ∨ c = '!') :
    Nested isTypeChar (List.replicate (closing.count ']') ']') (closing.map .char) := by
  induction closing with
  | nil => exact .nil
  | cons c closing ih =>
    obtain ⟨hc, hclosing⟩ := forall_mem_cons.mp h
    rcases hc with rfl | rfl
    · rw [count_cons_self, replicate_succ]
      exact .closing rfl (ih hclosing)
    · rw [count_cons_of_ne (by decide)]
      exact .char rfl rfl (by decide) (fun _ => rfl) (ih hclosing)

theorem Nested.name {pending : List Char} {ls : List Lexeme} (h : Nested isTypeChar pending ls)
    {name : Text} (hname : ∀ c ∈ name, isNameChar c) :
    Nested isTypeChar pending (name.map .char ++ ls) := by
  induction name with
  | nil => exact h
  | cons c name ih =>
    obtain ⟨hc, hname⟩ := forall_mem_cons.mp hname
    refine .char (isOpener_of_isNameChar hc) (isCloser_of_isNameChar hc)
      (ne_of_class hc (by decide)) (fun _ => ?_) (ih hname)
    simp [isTypeChar, hc]

theorem Nested.opened {k : Nat} {pending : List Char} {ls : List Lexeme}
    (h : Nested isTypeChar (List.replicate k ']' ++ pending) ls) :
    Nested isTypeChar pending ((List.replicate k '[').map .char ++ ls) := by
  induction k generalizing pending with
  | zero => exact h
  | succ k ih =>
    refine .opening rfl (fun _ => rfl) (ih ?_)
    rwa [replicate_succ', append_assoc] at h

theorem spaced_ofChars (hne : t ≠ []) (h : ∀ c ∈ t, isBlank c = false) :
    Spaced false (t.map .char) := by
  cases t with
  | nil => exact absurd rfl hne
  | cons c t =>
    obtain ⟨hc, ht⟩ := forall_mem_cons.mp h
    exact .char hc (Spaced.ofChars ht)

theorem char_of_mem_decorated {k : Nat} {name : Text} (hname : Text.isName name)
    (hclosing : ∀ c ∈ closing, c = ']' ∨ c = '!') {c : Char}
    (hc : c ∈ List.replicate k '[' ++ (name ++ closing)) :
    c = '[' ∨ isNameChar c ∨ c = ']' ∨ c = '!' := by
  simp only [mem_append] at hc
  rcases hc with hc | hc | hc
  · exact .inl (eq_of_mem_replicate hc)
  · exact .inr (.inl (isNameChar_of_isName hname c hc))
  · exact .inr (.inr (hclosing c hc))

theorem not_isBlank_of_mem_decorated {k : Nat} {name : Text} (hname : Text.isName name)
    (hclosing : ∀ c ∈ closing, c = ']' ∨ c = '!') :
    ∀ c ∈ List.replicate k '[' ++ (name ++ closing), isBlank c = false := by
  intro c hc
  rcases char_of_mem_decorated hname hclosing hc with rfl | hc | rfl | rfl
  · rfl
  · exact not_isBlank_of_isNameChar hc
  · rfl
  · rfl

theorem exists_ofText_decorated {k : Nat} {name : Text} (hname : Text.isName name)
    (hclosing : ∀ c ∈ closing, c = ']' ∨ c = '!') :
    ∃ d, Decorated.ofText (List.replicate k '[' ++ (name ++ closing)) = .ok d := by
  have htrail : ∀ c ∈ closing, isTrailing c :=
    fun c hc => by rcases hclosing c hc with rfl | rfl <;> rfl
  refine ⟨_, Decorated.ofText_of_trim
    (trim_eq_self (not_isBlank_of_mem_decorated hname hclosing)) ?_ ?_
    (takeCore_name (.inr hname) htrail _) htrail⟩
  · intro c hc
    rw [eq_of_mem_replicate hc]
    rfl
  · obtain ⟨c, cs, rfl, hc, -⟩ := isName_iff.mp hname
    have hchar := isNameChar_of_isNameStart hc
    exact Bool.or_eq_false_iff.mpr ⟨beq_of_class hchar rfl, not_isBlank_of_isNameChar hchar⟩

/-- **A decorated name is a type.** -/
theorem Text.IsDecorated.isType (h : t.IsDecorated) : t.IsType := by
  obtain ⟨k, name, closing, rfl, hname, hclosing, hcount⟩ := h
  have hlex : lex false (List.replicate k '[' ++ (name ++ closing)) =
      (List.replicate k '[' ++ (name ++ closing)).map .char := by
    refine lex_of_not_quote fun hq => ?_
    rcases char_of_mem_decorated hname hclosing hq with h | h | h | h <;> exact absurd h (by decide)
  refine ⟨?_, ?_, ?_, exists_ofText_decorated hname hclosing⟩
  · intro c hc
    rcases char_of_mem_decorated hname hclosing hc with rfl | hc | rfl | rfl
    · exact .inl rfl
    · exact .inl (by simp [isTypeChar, hc])
    · exact .inr (.inl rfl)
    · exact .inl rfl
  · rw [hlex, map_append, map_append]
    refine Nested.opened ?_
    rw [append_nil, ← hcount]
    exact (nested_closing hclosing).name (isNameChar_of_isName hname)
  · rw [hlex]
    refine spaced_ofChars ?_ (not_isBlank_of_mem_decorated hname hclosing)
    simp [isName_ne_nil hname]

/-! ### Canonical declarations -/

/-- A use of a decorated name, as it is written. -/
def TypeUse.Canonical (u : TypeUse) : Prop :=
  ∃ t, Text.IsDecorated t ∧ u = { origin := t, isGeneric := false, resolved := t }

/-- An argument with a name, a decorated name as its type and no more. -/
structure Argument.Canonical (a : Argument) : Prop where
  name : a.name.isName = true
  type : a.type.Canonical
  default : a.default = none

/-- A field with a name, arguments, a type and comments; the values of an enum have neither
arguments nor a type. -/
structure Field.Canonical (enum : Bool) (f : Field) : Prop where
  name : f.name.isName = true
  comments : f.comments = [] ∨ f.comments.IsComments
  arguments : ∀ as ∈ f.arguments, enum = false ∧ ∀ a ∈ as, a.Canonical
  type : ∀ u ∈ f.type, enum = false ∧ u.Canonical
  inlineComment : ∀ t ∈ f.inlineComment, t.IsComment
  bare : f.default = none ∧ f.directive = none ∧ f.description = none ∧ f.metadata = none

/-- A declaration that its text gives back in full. -/
structure Declaration.Canonical (d : Declaration) : Prop where
  kind : d.kind ∈ Kind.declared
  /-- The name is a name, and that of a root schema says so. -/
  name : d.name.isName = true ∧ (d.kind = .schema → d.name = "schema".toList)
  implements : ∀ ns ∈ d.implements, d.kind.isBlock = true ∧ ns ≠ [] ∧
    ∀ n ∈ ns, n.isName = true ∧ n ∉ clauseWords
  members : ∀ us ∈ d.members, d.kind = .union ∧ us ≠ [] ∧ ∀ u ∈ us, u.Canonical
  fields : ∀ f ∈ d.fields, d.kind.isBlock = true ∧ f.Canonical (d.kind == .enum)
  closingComments : ∀ t ∈ d.closingComments, d.kind.isBlock = true ∧ t.IsComments
  /-- There are no type parameters, directives, descriptions, comments above the header or metadata,
  and nothing is inherited. -/
  bare : d.parameters = none ∧ d.directive = none ∧ d.description = none ∧ d.comments = none ∧
    d.inherits = none ∧ d.metadata = none ∧ d.raw = none ∧ d.ownFields = none

theorem TypeUse.Canonical.legible {u : TypeUse} (h : u.Canonical) : u.Legible := by
  obtain ⟨t, ht, rfl⟩ := h
  exact ⟨ht.isType, nofun⟩

theorem TypeUse.Canonical.plain_eq {u : TypeUse} (h : u.Canonical) : u.plain = u := by
  obtain ⟨t, -, rfl⟩ := h
  rfl

theorem Argument.Canonical.legible {a : Argument} (h : a.Canonical) : a.Legible := by
  refine ⟨h.name, h.type.legible, ?_⟩
  rw [h.default]
  exact nofun

theorem Argument.Canonical.plain_eq {a : Argument} (h : a.Canonical) : a.plain = a := by
  unfold Argument.plain
  rw [h.type.plain_eq]

theorem Field.Canonical.legible {enum : Bool} {f : Field} (h : f.Canonical enum) :
    f.Legible enum := by
  obtain ⟨hdefault, hdirective, hdescription, -⟩ := h.bare
  refine ⟨h.name, h.comments, ?_, ?_, ?_, ?_, ?_, h.inlineComment⟩
  · rw [hdescription]
    exact nofun
  · exact fun as has a ha => ((h.arguments as has).2 a ha).legible
  · exact fun u hu => ⟨(h.type u hu).1, (h.type u hu).2.legible⟩
  · rw [hdefault]
    exact nofun
  · rw [hdirective]
    exact nofun

theorem map_eq_self {α : Type} {f : α → α} {l : List α} (h : ∀ a ∈ l, f a = a) : l.map f = l :=
  (map_congr_left h).trans (map_id' l)

theorem Field.Canonical.plain_eq {enum : Bool} {f : Field} (h : f.Canonical enum) :
    f.plain = f := by
  obtain ⟨-, -, -, hmetadata⟩ := h.bare
  have harguments : f.arguments.map (List.map Argument.plain) = f.arguments := by
    cases has : f.arguments with
    | none => rfl
    | some as =>
      exact congrArg some (map_eq_self fun a ha => ((h.arguments as has).2 a ha).plain_eq)
  have htype : f.type.map TypeUse.plain = f.type := by
    cases hu : f.type with
    | none => rfl
    | some u => exact congrArg some (h.type u hu).2.plain_eq
  unfold Field.plain
  rw [harguments, htype, ← hmetadata]

namespace Declaration.Canonical

variable {d : Declaration}

theorem legible (h : d.Canonical) : d.Legible := by
  obtain ⟨-, hdirective, hdescription, hcomments, -, -, -, -⟩ := h.bare
  refine ⟨h.kind, h.name, ?_, ?_, ?_, ?_, ?_, ?_, h.closingComments⟩
  · rw [hdescription]
    exact nofun
  · rw [hcomments]
    exact nofun
  · exact fun ns hns => ⟨(h.implements ns hns).1, (h.implements ns hns).2.2⟩
  · rw [hdirective]
    exact nofun
  · intro us hus
    obtain ⟨hunion, -, hcanonical⟩ := h.members us hus
    refine ⟨hunion, fun u hu => ⟨(hcanonical u hu).legible, ?_⟩⟩
    obtain ⟨t, -, rfl⟩ := hcanonical u hu
    exact nofun
  · exact fun f hf => ⟨(h.fields f hf).1, (h.fields f hf).2.legible⟩

theorem plain_eq (h : d.Canonical) : d.plain = d := by
  obtain ⟨hparameters, -, -, -, hinherits, hmetadata, hraw, hown⟩ := h.bare
  have hfields : d.fields.map Field.plain = d.fields :=
    map_eq_self fun f hf => (h.fields f hf).2.plain_eq
  have himplements : d.implements.filter (!·.isEmpty) = d.implements := by
    cases hns : d.implements with
    | none => rfl
    | some ns => exact Option.filter_some_pos (by simpa using (h.implements ns hns).2.1)
  have hmembers : (d.members.filter (!·.isEmpty)).map (List.map TypeUse.plain) = d.members := by
    cases hus : d.members with
    | none => rfl
    | some us =>
      obtain ⟨-, hne, hcanonical⟩ := h.members us hus
      rw [Option.filter_some_pos (by simpa using hne)]
      exact congrArg some (map_eq_self fun u hu => (hcanonical u hu).plain_eq)
  unfold Declaration.plain
  rw [hfields, himplements, hmembers]
  cases d
  simp only at hparameters hinherits hmetadata hraw hown
  rw [hparameters, hinherits, hmetadata, hraw, hown]

end Declaration.Canonical

/-! ### Reading undoes writing -/

/-- **Reading undoes writing.**  Canonical declarations, written with any indentation one after the
other with blank lines between them, are read back as they are.  Reading them leaves nothing behind
but the log; in particular no use of a type waits for an instance. -/
theorem gives_read_render {ds : List Declaration} (hds : ∀ d ∈ ds, d.Canonical) (indent : Int)
    (naming : Naming) :
    ∃ fs log,
      (readFragments (Text.joinWith "\n\n".toList (ds.map (Declaration.render { indent })) ++
        ['\n'])).outcome = .ok fs ∧
      Gives (parseFragments naming [] fs) {} ds { log } := by
  have hlegible : ∀ d ∈ ds, d.Legible := fun d hd => (hds d hd).legible
  have hscan : scan (Text.joinWith "\n\n".toList (ds.map (Declaration.render { indent })) ++
    ['\n']) =
      { fragments := ds.map Declaration.fragment } :=
    scanFrom_blocksText rfl hlegible
  have hplain : (ds.map fun d => { d.plain with comments := none }) = ds := by
    refine map_eq_self fun d hd => ?_
    rw [(hds d hd).plain_eq, ← (hds d hd).bare.2.2.2.1]
  have hparse := gives_parseFragments hlegible naming (List.forall_mem_nil _) {}
  rw [hplain] at hparse
  refine ⟨ds.map Declaration.fragment, _, ?_, hparse⟩
  rw [readFragments, hscan]

def nameUse (t : Text) : TypeUse :=
  { origin := t, isGeneric := false, resolved := t }

def canonicalField : Field :=
  { name := "items".toList
    comments := "# the items".toList
    arguments := some [{ name := "ids".toList, type := nameUse "[ID!]!".toList }]
    type := some (nameUse "[Item]".toList)
    inlineComment := some "# all of them".toList }

/-- An extension by its header alone, a type with comments, an enum and a union. -/
def canonicalSample : List Declaration :=
  [{ kind := .type, name := "Query".toList, isExtend := true, implements := some ["Node".toList] },
    { kind := .type, name := "Query".toList, fields := [canonicalField],
      closingComments := some "# no more".toList },
    { kind := .enum, name := "Word".toList, fields := [{ name := "type".toList }] },
    { kind := .union, name := "Any".toList,
      members := some [nameUse "Query".toList, nameUse "Item".toList] }]

theorem canonical_nameUse (h : t.isName) : (nameUse t).Canonical :=
  ⟨t, ⟨0, t, [], by simp, h, nofun, rfl⟩, rfl⟩

theorem isComments_singleton (h : t.IsComment) : t.IsComments :=
  ⟨[t], cons_ne_nil _ _, rfl, by simpa using h⟩

theorem canonical_canonicalField : canonicalField.Canonical false where
  name := by decide
  comments := .inr (isComments_singleton ⟨by decide, by decide, by decide⟩)
  arguments := by
    have hids : (nameUse "[ID!]!".toList).Canonical :=
      ⟨_, ⟨1, "ID".toList, "!]!".toList, by decide, by decide, forall_mem_of_all rfl, by decide⟩,
        rfl⟩
    rintro as ⟨⟩
    exact ⟨rfl, forall_mem_singleton.mpr ⟨by decide, hids, rfl⟩⟩
  type := by
    have hitems : (nameUse "[Item]".toList).Canonical :=
      ⟨_, ⟨1, "Item".toList, "]".toList, by decide, by decide, forall_mem_of_all rfl, by decide⟩,
        rfl⟩
    rintro u ⟨⟩
    exact ⟨rfl, hitems⟩
  inlineComment := by
    rintro t ⟨⟩
    exact ⟨by decide, by decide, by decide⟩
  bare := ⟨rfl, rfl, rfl, rfl⟩

theorem canonical_canonicalSample : ∀ d ∈ canonicalSample, d.Canonical := by
  have hnone : ∀ {α : Type} {P : α → Prop}, ∀ a ∈ (none : Option α), P a := nofun
  refine forall_mem_cons.mpr ⟨?_, forall_mem_cons.mpr ⟨?_,
    forall_mem_cons.mpr ⟨?_, forall_mem_singleton.mpr ?_⟩⟩⟩
  · refine ⟨by decide, by decide, ?_, hnone, forall_mem_nil _, hnone, by decide⟩
    rintro ns ⟨⟩
    decide
  · refine ⟨by decide, by decide, hnone, hnone, ?_, ?_, by decide⟩
    · exact forall_mem_singleton.mpr ⟨rfl, canonical_canonicalField⟩
    · rintro t ⟨⟩
      exact ⟨rfl, isComments_singleton ⟨by decide, by decide, by decide⟩⟩
  · refine ⟨by decide, by decide, hnone, hnone, ?_, hnone, by decide⟩
    exact forall_mem_singleton.mpr ⟨rfl, by decide, .inl rfl, hnone, hnone, hnone, by decide⟩
  · refine ⟨by decide, by decide, hnone, ?_, forall_mem_nil _, hnone, by decide⟩
    rintro us ⟨⟩
    refine ⟨rfl, cons_ne_nil _ _, forall_mem_cons.mpr ⟨canonical_nameUse (by decide), ?_⟩⟩
    exact forall_mem_singleton.mpr (canonical_nameUse (by decide))

/-- The theorem on the sample, with two spaces before a field. -/
theorem gives_read_render_canonicalSample :
    (∀ d ∈ canonicalSample, d.Canonical) ∧
      ∃ fs log, (readFragments ("extend type Query implements Node\n\n".toList ++
        "type Query \x7b\n  # the items\n  items(ids: [ID!]!): [Item] # all of them\n".toList ++
        "  # no more\n\x7d\n\n".toList ++ "enum Word \x7b\n  type\n\x7d\n\n".toList ++
        "union Any = Query | Item\n".toList)).outcome = .ok fs ∧
      Gives (parseFragments {} [] fs) {} canonicalSample { log } :=
  ⟨canonical_canonicalSample, gives_read_render canonical_canonicalSample 2 {}⟩

end Schemata
