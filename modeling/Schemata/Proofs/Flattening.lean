import Schemata.Proofs.Remembering

/-!
# What a declaration inherits

The `inherits` clauses of a schema make a graph of declarations: each name in a clause leads to the
declarations of that name that extend nothing.  A declaration is resolved only if everything it
leads to is in order: each name stands for a declaration that may be inherited from, and no
declaration is on a cycle.  Then it has the fields of its resolved ancestors before its own ones.

The graph is that of the names as written, while resolving follows only names that it has found to
be in order.  On the way from a declaration that is resolved there are no others.

## Main results

* `Resolved.inherits_of_namesAncestor` — what a resolved declaration leads to, it inherits from.
* `resolve_flattens` — when a declaration is resolved, to what, and when a cycle is reported.
-/

namespace Schemata

open Resolve Relation

/-- A name in the clause of `b` is that of `a`, which extends nothing. -/
def NamesAncestor (ds : List Declaration) (b a : Declaration) : Prop :=
  ∃ name ∈ b.inherits.getD [], a ∈ candidates ds name

theorem Inherits.namesAncestor {ds : List Declaration} {b a : Declaration} (h : Inherits ds b a) :
    NamesAncestor ds b a := by
  obtain ⟨name, hname, ha⟩ := h
  exact ⟨name, hname, mem_candidates_of_ancestor ha⟩

namespace Resolved

variable {ds : List Declaration} {d a b r : Declaration}

/-- The declaration that a name in the clause of a resolved declaration stands for. -/
theorem exists_ancestor (hds : DistinctNames ds) (h : Resolved ds d r) {name : Text}
    (hname : name ∈ d.inherits.getD []) : ∃ a, Schemata.ancestor ds d name = .ok a := by
  obtain ⟨as, -, -, has, -, -, -⟩ := h.cases_ancestors hds
  obtain ⟨a, -, ha⟩ := exists_right_of_forall₂ has hname
  exact ⟨a, ha⟩

theorem inherits_of_namesAncestor (hds : DistinctNames ds) (h : Resolved ds d r)
    (ha : NamesAncestor ds d a) : Inherits ds d a := by
  obtain ⟨name, hname, ha⟩ := ha
  obtain ⟨a', ha'⟩ := h.exists_ancestor hds hname
  have hmem := mem_candidates_of_ancestor ha'
  simp only [candidates, List.mem_filter, Bool.and_eq_true, Bool.not_eq_true',
    beq_iff_eq] at ha hmem
  cases hds.eq ha.1 hmem.1 ha.2.1 hmem.2.1 (ha.2.2.trans hmem.2.2.symm)
  exact ⟨name, hname, ha'⟩

theorem transGen_inherits (hds : DistinctNames ds) (h : Resolved ds d r)
    (hb : TransGen (NamesAncestor ds) d b) :
    TransGen (Inherits ds) d b ∧ ∃ r', Resolved ds b r' := by
  induction hb with
  | single ha =>
    have hinherits := h.inherits_of_namesAncestor hds ha
    exact ⟨.single hinherits, h.ancestor hds hinherits⟩
  | tail _ ha ih =>
    obtain ⟨hpath, r', hr'⟩ := ih
    have hinherits := hr'.inherits_of_namesAncestor hds ha
    exact ⟨hpath.tail hinherits, hr'.ancestor hds hinherits⟩

theorem inOrder (hds : DistinctNames ds) (h : Resolved ds d r)
    (hb : ReflTransGen (NamesAncestor ds) d b) :
    ¬ TransGen (NamesAncestor ds) b b ∧ ∀ name ∈ b.inherits.getD [],
      ∃ a ∈ candidates ds name, b.kind.mayInheritFrom a.kind ∧ a.isTemplate = false := by
  have hres : ∃ r', Resolved ds b r' := by
    rcases reflTransGen_iff_eq_or_transGen.mp hb with rfl | hb
    · exact ⟨r, h⟩
    · exact (h.transGen_inherits hds hb).2
  obtain ⟨r', hr'⟩ := hres
  refine ⟨fun hcycle => hr'.acyclic hds b .refl (hr'.transGen_inherits hds hcycle).1, ?_⟩
  intro name hname
  obtain ⟨a, ha⟩ := hr'.exists_ancestor hds hname
  exact ⟨a, mem_candidates_of_ancestor ha, mayInheritFrom_of_ancestor ha⟩

end Resolved

theorem exists_gives_resolve_iff {ds : List Declaration} (hds : DistinctNames ds)
    {d r : Declaration} (hd : d ∈ ds) : (∃ c, Gives (resolve ds d) {} r c) ↔ Resolved ds d r := by
  rw [← freshOutcome_eq_ok_iff hds hd]
  constructor
  · rintro ⟨c, h⟩
    exact congrArg Prod.fst h
  · intro h
    exact ⟨_, Prod.ext h rfl⟩

/-- **Inheritance.**  Resolving a declaration in a fresh context gives a result or refuses the
schema.  It gives a result only if what the declaration leads to has no cycle, no name that stands
for nothing, no kind that may not be inherited from and no template; and it reports a cycle only if
there is one.  The fields of the result are those of the resolved ancestors, one after the other in
the order of the clause, and then the own ones, which are kept apart too.  The metadata are the own
ones, or else those of the last ancestor that has any once it is resolved.  Apart from the
interfaces, nothing else changes. -/
theorem resolve_flattens {ds : List Declaration} (hds : DistinctNames ds) {d : Declaration}
    (hd : d ∈ ds) : ((∃ r c, Gives (resolve ds d) {} r c) ∨
      ∃ refusal c, (resolve ds d).outcome {} = (.error (.schema refusal), c)) ∧
    (∀ r c, Gives (resolve ds d) {} r c →
      (∀ b, ReflTransGen (NamesAncestor ds) d b → ¬ TransGen (NamesAncestor ds) b b ∧
        ∀ name ∈ b.inherits.getD [], ∃ a ∈ candidates ds name,
          b.kind.mayInheritFrom a.kind = true ∧ a.isTemplate = false) ∧
      ∃ as rs, List.Forall₂ (fun name a => a ∈ candidates ds name) (d.inherits.getD []) as ∧
        List.Forall₂ (fun a r' => ∃ c', Gives (resolve ds a) {} r' c') as rs ∧
        r = { d with
          fields := rs.flatMap Declaration.fields ++ d.fields
          ownFields := some d.fields
          metadata := d.metadata.or (rs.reverse.findSome? Declaration.metadata)
          implements := r.implements }) ∧
    ∀ e c, (resolve ds d).outcome {} = (.error e, c) → e.IsCyclicInheritance →
      ∃ b, ReflTransGen (NamesAncestor ds) d b ∧ TransGen (NamesAncestor ds) b b := by
  have hmeets : ResolvesOn ds [] {} d (resolveFrom ds [] d) :=
    resolveFrom_meets hd (Context.resolutionSound_empty ds)
  refine ⟨?_, ?_, ?_⟩
  · rcases hout : (resolve ds d).outcome {} with ⟨r | e, c⟩
    · obtain ⟨-, hfails⟩ := hmeets.error hout
      obtain ⟨refusal, rfl⟩ := (hfails hds).refuses
      exact .inr ⟨refusal, c, rfl⟩
    · exact .inl ⟨_, c, hout⟩
  · intro r c h
    have hr := (exists_gives_resolve_iff hds hd).mp ⟨c, h⟩
    refine ⟨fun b hb => hr.inOrder hds hb, ?_⟩
    obtain ⟨as, rs, implements, has, hrs, -, rfl⟩ := hr.cases_ancestors hds
    refine ⟨as, rs, has.imp fun _ _ ha => mem_candidates_of_ancestor ha, ?_, rfl⟩
    refine ((List.forall₂_and_left _ _).mpr ⟨?_, hrs⟩).imp fun _ _ h =>
      (exists_gives_resolve_iff hds h.1).mpr h.2
    intro a ha
    obtain ⟨name, -, ha⟩ := exists_left_of_forall₂ has ha
    exact mem_of_ancestor ha
  · intro e c hout hcyclic
    obtain ⟨-, hfails⟩ := hmeets.error hout
    obtain ⟨b, hb, hpath | hcycle⟩ := (hfails hds).cyclic hcyclic
    · exact absurd hpath List.not_mem_nil
    · have hmono : Inherits ds ≤ NamesAncestor ds := fun _ _ => Inherits.namesAncestor
      exact ⟨b, ReflTransGen.mono hmono _ _ hb, TransGen.mono hmono _ _ hcycle⟩

/-- The declaration that closes a diamond: it inherits from `B` and `C`. -/
def diamondEnd : Declaration :=
  { kind := .type, name := "D".toList, inherits := some ["B".toList, "C".toList],
    fields := [{ name := "d".toList }] }

/-- A diamond: `B` and `C` inherit from `A`, which has an annotation, and `D` from both. -/
def diamond : List Declaration :=
  [{ kind := .interface, name := "A".toList, fields := [{ name := "a".toList }],
      metadata := some {
        name := "key".toList, body := none, kind := .interface, target := "A".toList } },
    { kind := .interface, name := "B".toList, inherits := some ["A".toList],
      fields := [{ name := "b".toList }] },
    { kind := .type, name := "C".toList, inherits := some ["A".toList],
      fields := [{ name := "c".toList }] },
    diamondEnd]

/-- The theorem on a diamond: the field of `A` comes twice, and its annotation is inherited. -/
theorem resolve_flattens_diamond :
    DistinctNames diamond ∧ diamondEnd ∈ diamond ∧
      ¬ TransGen (NamesAncestor diamond) diamondEnd diamondEnd ∧
      ∃ r c, ∃ rs : List Declaration, Gives (resolve diamond diamondEnd) {} r c ∧
        r.fields = rs.flatMap Declaration.fields ++ diamondEnd.fields ∧
        r.fields.map Field.name = ["a".toList, "b".toList, "a".toList, "c".toList, "d".toList] ∧
        r.metadata.map Annotation.target = some "A".toList := by
  have hds : DistinctNames diamond := by decide
  have hd : diamondEnd ∈ diamond := by decide
  have hout : ((resolve diamond diamondEnd).outcome {}).1.toOption.map
      (fun r => (r.fields.map Field.name, r.metadata.map Annotation.target)) =
        some (["a".toList, "b".toList, "a".toList, "c".toList, "d".toList], some "A".toList) := by
    decide +kernel
  obtain ⟨r, c, h, hr⟩ := exists_gives_of_outcome hout
  obtain ⟨hfields, hmetadata⟩ := Prod.mk.inj hr
  obtain ⟨horder, as, rs, -, -, heq⟩ := (resolve_flattens hds hd).2.1 r c h
  exact ⟨hds, hd, (horder _ .refl).1, r, c, rs, h, congrArg Declaration.fields heq, hfields,
    hmetadata⟩

end Schemata
