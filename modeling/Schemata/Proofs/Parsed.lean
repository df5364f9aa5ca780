import Schemata.CommentBlock
import Schemata.Declaration.Parse
import Schemata.Proofs.Resolution
import Schemata.Proofs.Uses

/-!
# The uses in declarations

Every use of a type in a parsed declaration is the use of some type expression inside the type
parameters of the declaration, and whatever becomes pending on the way is one of these uses.
Resolving a declaration puts the uses of its ancestors in front, and an ancestor has no type
parameters.
-/

namespace Schemata

open Resolve List

variable {annotations : List Annotation} {ds : List Declaration}

/-- The uses of types in a field: those of its arguments, and its own type. -/
def Field.uses (f : Field) : List TypeUse :=
  (f.arguments.getD []).map Argument.type ++ f.type.toList

/-- The uses of types in a declaration: those of its fields, and its members. -/
def Declaration.uses (d : Declaration) : List TypeUse :=
  d.fields.flatMap Field.uses ++ d.members.getD []

/-- What reading a type expression does, in a form that a whole stage inherits: `I` is kept, `A`
says what is remembered of the uses read, and `U` what the uses are like inside type parameters. -/
structure ReadsUses (naming : Naming) (I : Context → Prop)
    (A : Context → List TypeUse → Context → Prop) (U : Option (List Text) → TypeUse → Prop) :
    Prop where
  refl : ∀ c, A c [] c
  append : ∀ {c₁ c₂ c₃ us vs}, A c₁ us c₂ → A c₂ vs c₃ → A c₁ (us ++ vs) c₃
  use : ∀ {expression letters directive c u c'}, I c →
    Gives (useType naming expression letters directive) c u c' → I c' ∧ A c [u] c' ∧ U letters u

section Reads

variable {naming : Naming} {d : Declaration} {c c' : Context} {I : Context → Prop}
  {A : Context → List TypeUse → Context → Prop} {U : Option (List Text) → TypeUse → Prop}
  (hreading : ReadsUses naming I A U)
include hreading

theorem ReadsUses.mapM {α β : Type} {u : β → List TypeUse} {P : β → Prop} {f : α → Resolve β}
    {as : List α} (step : ∀ a ∈ as, ∀ {c b c'}, I c → Gives (f a) c b c' → I c' ∧
      A c (u b) c' ∧ P b)
    {bs : List β} (hc : I c) (h : Gives (as.mapM f) c bs c') :
    I c' ∧ A c (bs.flatMap u) c' ∧ ∀ b ∈ bs, P b := by
  have hstep : ∀ a ∈ as, ∀ c, I c → Meets (f a) c (fun b c' => (I c' ∧ A c (u b) c') ∧
      P b) fun _ _ => True :=
    fun a ha c hc => .of_gives fun b c' hb => and_assoc.mpr (step a ha hc hb)
  obtain ⟨⟨hc', hreads⟩, hall⟩ := (Meets.collect (E := fun _ _ _ => True) hreading.refl
    hreading.append (fun _ h => h) (fun _ h => h) hstep hc).gives h
  refine ⟨hc', hreads, ?_⟩
  intro b hb
  obtain ⟨_, -, hp⟩ := exists_left_of_forall₂ hall hb
  exact hp

/-! ### Fields -/

theorem parseArgument_reads {t : Text} {a : Argument} (hc : I c)
    (h : Gives (parseArgument naming d t) c a c') :
    I c' ∧ A c [a.type] c' ∧ U d.parameters a.type := by
  unfold parseArgument at h
  split at h
  · exact absurd h not_gives_refuse
  · simp only at h
    split_ifs at h
    · simp only [gives_bind, gives_ofExcept, gives_pure] at h
      obtain ⟨⟨type, default, directive⟩, _, ⟨-, rfl⟩, u, _, hu, rfl, rfl⟩ := h
      exact hreading.use hc hu
    · exact absurd h not_gives_refuse

theorem parseArguments_reads {t rest : Text} {r : Option (List Argument) × Text} (hc : I c)
    (h : Gives (parseArguments naming d t rest) c r c') :
    I c' ∧ A c ((r.1.getD []).map Argument.type) c' ∧ ∀ a ∈ r.1.getD [], U d.parameters a.type := by
  unfold parseArguments at h
  split_ifs at h
  · simp only [gives_bind, gives_ofExcept] at h
    obtain ⟨o, _, ⟨-, rfl⟩, h⟩ := h
    cases o with
    | none => exact absurd h not_gives_refuse
    | some p =>
      simp only [gives_bind, gives_ofExcept, gives_pure] at h
      obtain ⟨pieces, _, ⟨-, rfl⟩, as, _, has, rfl, rfl⟩ := h
      obtain ⟨hc', hreads, huses⟩ := hreading.mapM (u := fun a => [Argument.type a])
        (fun _ _ _ _ _ hc hg => parseArgument_reads hreading hc hg) hc has
      exact ⟨hc', by simpa [← map_eq_flatMap] using hreads, huses⟩
  · obtain ⟨rfl, rfl⟩ := gives_pure.mp h
    exact ⟨hc, hreading.refl c, by simp⟩

theorem parseField_reads {t : Text} {f : Field} (hc : I c)
    (h : Gives (parseField naming annotations d t) c f c') :
    I c' ∧ A c f.uses c' ∧ ∀ u ∈ f.uses, U d.parameters u := by
  unfold parseField at h
  simp only [gives_bind, gives_ofExcept] at h
  obtain ⟨⟨t, comment⟩, _, ⟨-, rfl⟩, h⟩ := h
  simp only at h
  split at h
  · exact absurd h not_gives_refuse
  · rename_i name rest _
    simp only [gives_bind] at h
    obtain ⟨⟨arguments, rest⟩, c₁, harguments, h⟩ := h
    obtain ⟨hc₁, hreads, huses⟩ := parseArguments_reads hreading hc harguments
    simp only at hreads huses h
    -- without a type the uses of the field are those of its arguments
    have hplain : ∀ f : Field, f.arguments = arguments → f.type = none →
        I c₁ ∧ A c f.uses c₁ ∧ ∀ u ∈ f.uses, U d.parameters u := by
      rintro f rfl htype
      refine ⟨hc₁, by simpa [Field.uses, htype] using hreads, ?_⟩
      intro u hu
      simp only [Field.uses, htype, Option.toList_none, append_nil, mem_map] at hu
      obtain ⟨a, ha, rfl⟩ := hu
      exact huses a ha
    split at h
    · obtain ⟨rfl, rfl⟩ := gives_pure.mp h
      exact hplain _ rfl rfl
    · simp only [gives_bind, gives_ofExcept, gives_pure] at h
      obtain ⟨⟨type, default, directive⟩, _, ⟨-, rfl⟩, u, _, hu, rfl, rfl⟩ := h
      obtain ⟨hc', hreads', huse⟩ := hreading.use hc₁ hu
      refine ⟨hc', hreading.append hreads hreads', ?_⟩
      intro v hv
      rcases mem_append.mp hv with hv | hv
      · obtain ⟨a, ha, rfl⟩ := mem_map.mp hv
        exact huses a ha
      · obtain rfl := mem_singleton.mp hv
        exact huse
    · obtain ⟨rfl, rfl⟩ := gives_pure.mp h
      exact hplain _ rfl rfl
    · exact absurd h not_gives_refuse

theorem parseItems_reads {items comments : List Text} {description : Option Text}
    {r : List Field × Option Text} (hc : I c)
    (h : Gives (parseItems naming annotations d comments description items) c r c') :
    I c' ∧ A c (r.1.flatMap Field.uses) c' ∧ ∀ u ∈ r.1.flatMap Field.uses, U d.parameters u := by
  induction items generalizing comments description r c with
  | nil =>
    obtain ⟨rfl, rfl⟩ := gives_pure.mp h
    exact ⟨hc, hreading.refl c, by simp⟩
  | cons item items ih =>
    rw [parseItems] at h
    split_ifs at h
    · exact ih hc h
    · exact ih hc h
    · simp only [gives_bind, gives_pure] at h
      obtain ⟨f, c₁, hf, ⟨fields, closing⟩, c₂, hrest, rfl, rfl⟩ := h
      obtain ⟨hc₁, hreads, huses⟩ := parseField_reads hreading hc hf
      obtain ⟨hc', hreads', huses'⟩ := ih hc₁ hrest
      refine ⟨hc', hreading.append hreads hreads', ?_⟩
      intro u hu
      rcases mem_append.mp hu with hu | hu
      · exact huses u hu
      · exact huses' u hu

/-! ### Declarations -/

omit hreading in
theorem parseClauses_eq {d' : Declaration} {rest : Text} (h : parseClauses d rest = .ok d') :
    d' = { d with
      directive := d'.directive, inherits := d'.inherits, implements := d'.implements } := by
  unfold parseClauses at h
  obtain ⟨⟨rest', directive⟩, -, h⟩ := bind_eq_ok.mp h
  simp only at h
  split_ifs at h
  cases h
  rfl

theorem parseUnion_reads {d' : Declaration} {rest : Text} (hfields : d.fields = [])
    (hmembers : d.members = none) (hc : I c) (h : Gives (parseUnion naming d rest) c d' c') :
    I c' ∧ A c d'.uses c' ∧ ∀ u ∈ d'.uses, U d'.parameters u := by
  unfold parseUnion at h
  simp only [gives_bind, gives_ofExcept] at h
  obtain ⟨o, _, ⟨-, rfl⟩, h⟩ := h
  split at h
  · obtain ⟨rfl, rfl⟩ := gives_pure.mp h
    have hnil : Declaration.uses { d with directive := nonEmpty rest.trim } = [] := by
      simp [Declaration.uses, hfields, hmembers]
    rw [hnil]
    exact ⟨hc, hreading.refl c, by simp⟩
  · simp only [gives_bind, gives_ofExcept, gives_pure] at h
    obtain ⟨parts, _, ⟨-, rfl⟩, ms, c₁, hms, rfl, rfl⟩ := h
    obtain ⟨hc', hreads, huses⟩ := hreading.mapM (u := fun u => [u]) (P := U d.parameters)
      (fun _ _ _ _ _ hc hg => hreading.use hc hg) hc hms
    have hmap : ms.flatMap (fun u => [u]) = ms := by simp
    rw [hmap] at hreads
    refine ⟨hc', by simpa [Declaration.uses, hfields] using hreads, ?_⟩
    simpa [Declaration.uses, hfields] using huses

theorem parseFragment_reads {f : Fragment} (hc : I c)
    (h : Gives (parseFragment naming annotations f) c d c') :
    I c' ∧ A c d.uses c' ∧ ∀ u ∈ d.uses, U d.parameters u := by
  unfold parseFragment at h
  simp only [gives_bind, gives_ofExcept] at h
  obtain ⟨o, _, ⟨-, rfl⟩, h⟩ := h
  split at h
  · exact absurd h not_gives_refuse
  · rename_i header
    rw [gives_ite_refuse] at h
    obtain ⟨-, h⟩ := h
    split_ifs at h
    · exact parseUnion_reads hreading rfl rfl hc h
    · obtain ⟨rfl, rfl⟩ := gives_pure.mp h
      exact ⟨hc, hreading.refl c, by simp [Declaration.uses]⟩
    · simp only [gives_bind, gives_ofExcept, gives_pure] at h
      obtain ⟨d', _, ⟨hd', rfl⟩, ⟨fields, closing⟩, c₁, hitems, rfl, rfl⟩ := h
      obtain ⟨hc', hreads, huses⟩ := parseItems_reads hreading hc hitems
      have hmembers : d'.members = none := by rw [parseClauses_eq hd']
      refine ⟨hc', by simpa [Declaration.uses, hmembers] using hreads, ?_⟩
      simpa [Declaration.uses, hmembers] using huses

/-- Reading all declarations reads their uses, each inside the type parameters of its declaration;
then it tells how many there are. -/
theorem parseFragments_reads {fs : List Fragment} (hc : I c)
    (h : Gives (parseFragments naming annotations fs) c ds c') :
    (∃ c₁, I c₁ ∧ A c (ds.flatMap Declaration.uses) c₁ ∧ c' = { c₁ with log := c'.log }) ∧
      ∀ d ∈ ds, ∀ u ∈ d.uses, U d.parameters u := by
  unfold parseFragments at h
  simp only [gives_bind, gives_tell, gives_pure] at h
  obtain ⟨ds', c₁, hds, _, _, rfl, rfl, rfl⟩ := h
  obtain ⟨hc₁, hreads, huses⟩ := hreading.mapM (u := Declaration.uses)
    (P := fun d => ∀ u ∈ d.uses, U d.parameters u)
    (fun _ _ _ _ _ hc hg => parseFragment_reads hreading hc hg) hc hds
  exact ⟨⟨c₁, hc₁, hreads, rfl⟩, huses⟩

end Reads

/-- **Reading all declarations** remembers their uses, each inside the type parameters of its
declaration. -/
theorem parseFragments_spec {naming : Naming} {c c' : Context} {fs : List Fragment}
    (hc : c.NamesSound naming) (h : Gives (parseFragments naming annotations fs) c ds c') :
    c'.NamesSound naming ∧ c.Reads naming (ds.flatMap Declaration.uses) c' ∧
      ∀ d ∈ ds, ∀ u ∈ d.uses, IsUse naming d.parameters u := by
  have hreading : ReadsUses naming (Context.NamesSound naming) (Context.Reads naming)
      (IsUse naming) := by
    refine ⟨Context.Reads.refl naming, Context.Reads.append, fun hc h => ?_⟩
    obtain ⟨hc', hreads, huse⟩ := useType_spec hc h
    exact ⟨hc', hreads, _, _, huse⟩
  obtain ⟨⟨c₁, hc₁, hreads, hlog⟩, huses⟩ := parseFragments_reads hreading hc h
  rw [hlog]
  refine ⟨hc₁, ⟨?_, hreads.nodup, hreads.keep, hreads.new, hreads.pending⟩, huses⟩
  rw [hreads.frame]

/-! ### Resolved declarations -/

@[simp] theorem uses_attachComment (blocks : List CommentBlock) (d : Declaration) :
    (attachComment blocks d).uses = d.uses := by
  unfold attachComment
  split <;> rfl

@[simp] theorem parameters_attachComment (blocks : List CommentBlock) (d : Declaration) :
    (attachComment blocks d).parameters = d.parameters := by
  unfold attachComment
  split <;> rfl

theorem isTemplate_eq_of_key_eq {a b : Declaration} (h : a.key = b.key) :
    a.isTemplate = b.isTemplate := by
  have hparameters : a.parameters.getD [] = b.parameters.getD [] :=
    congrArg Declaration.Key.parameters h
  rw [Declaration.isTemplate, Declaration.isTemplate, hparameters]

theorem Resolved.parameters_eq {d r : Declaration} (h : Resolved ds d r) :
    r.parameters = d.parameters := by
  cases h
  rfl

/-- A use in a resolved declaration stands in the declaration itself or in one without type
parameters. -/
theorem Resolved.exists_of_mem_uses {d r : Declaration} (h : Resolved ds d r) {u : TypeUse}
    (hu : u ∈ r.uses) : u ∈ d.uses ∨ ∃ b ∈ ds, b.isTemplate = false ∧ u ∈ b.uses := by
  induction h with
  | intro d as rs implements inherits length ancestors closed ih =>
    have hcases : (∃ r ∈ rs, u ∈ r.uses) ∨ u ∈ d.uses := by
      simp only [Declaration.uses, merged, flatMap_append, mem_append, mem_flatMap] at hu ⊢
      rcases hu with (⟨f, ⟨r, hr, hf⟩, hu⟩ | hu) | hu
      · exact .inl ⟨r, hr, .inl ⟨f, hf, hu⟩⟩
      · exact .inr (.inl hu)
      · exact .inr (.inr hu)
    rcases hcases with ⟨r, hr, hu⟩ | hu
    · -- the use comes from an ancestor, which has no type parameters
      obtain ⟨k, hk, rfl⟩ := mem_iff_getElem.mp hr
      have hk' : k < as.length := by omega
      have hmem : (as[k], rs[k]) ∈ as.zip rs :=
        mem_iff_getElem.mpr ⟨k, by simp; omega, by simp⟩
      obtain ⟨name, -, found, hfound, ha, -, hkey⟩ :=
        exists_left_of_forall₂ inherits (getElem_mem hk')
      have htemplate : as[k].isTemplate = false := by
        rw [isTemplate_eq_of_key_eq hkey, (mayInheritFrom_of_ancestor hfound).2]
      rcases ih _ hmem hu with hu | hu
      · exact .inr ⟨as[k], ha, htemplate, hu⟩
      · exact .inr hu
    · exact .inl hu

end Schemata
