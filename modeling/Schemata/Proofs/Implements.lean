import Schemata.Proofs.Resolution

/-!
# The interfaces of a resolved schema

A resolved declaration lists the interfaces that the `implements` clauses reach, its own clause and
those of the declarations it inherits from.  The lists are closed along the clauses as they are
written.  A clause that an interface inherits is none of these: it adds names to the interface, but
not to what implements the interface.
-/

namespace Schemata

open Resolve Relation List

variable {ds : List Declaration}

/-! ### The names listed -/

/-- The clause of `d`, or of a declaration that `d` inherits from, reaches the name `m`. -/
def Lists (ds : List Declaration) (d : Declaration) (m : Text) : Prop :=
  ∃ b, ReflTransGen (Inherits ds) d b ∧ ∃ n ∈ b.implements.getD [], Reaches ds n m

theorem Lists.reaches {d : Declaration} {n m : Text} (h : Lists ds d n) (hnm : Reaches ds n m) :
    Lists ds d m := by
  obtain ⟨b, hb, k, hk, hkn⟩ := h
  exact ⟨b, hb, k, hk, hkn.trans hnm⟩

/-- A declaration lists what its own clause reaches and what its ancestors list. -/
theorem lists_iff {d : Declaration} {m : Text} :
    Lists ds d m ↔ (∃ n ∈ d.implements.getD [], Reaches ds n m) ∨ ∃ a, Inherits ds d a ∧
      Lists ds a m := by
  constructor
  · rintro ⟨b, hb, n, hn, hnm⟩
    rcases ReflTransGen.cases_head hb with rfl | ⟨a, ha, hab⟩
    · exact .inl ⟨n, hn, hnm⟩
    · exact .inr ⟨a, ha, b, hab, n, hn, hnm⟩
  · rintro (⟨n, hn, hnm⟩ | ⟨a, ha, b, hab, n, hn, hnm⟩)
    · exact ⟨d, .refl, n, hn, hnm⟩
    · exact ⟨b, .head ha hab, n, hn, hnm⟩

/-- **The interfaces of a resolved declaration**: those that its own clause and the clauses of its
ancestors reach. -/
theorem Resolved.mem_implements_iff (hds : DistinctNames ds) {d r : Declaration}
    (h : Resolved ds d r) (m : Text) : m ∈ r.implements.getD [] ↔ Lists ds d m := by
  induction h generalizing m with
  | intro d as rs implements inherits length ancestors closed ih =>
    have hpairs : Forall₂ (fun a r => ∀ m, m ∈ r.implements.getD [] ↔ Lists ds a m) as rs :=
      forall₂_iff_zip.mpr ⟨length, fun {a b} hp m => ih (a, b) hp m⟩
    change m ∈ implements.getD [] ↔ _
    rw [closed.mem_iff, lists_iff]
    simp only [namesToClose, mem_append, mem_flatMap]
    constructor
    · rintro ⟨n, hn | ⟨r, hr, hn⟩, hnm⟩
      · exact .inl ⟨n, hn, hnm⟩
      · obtain ⟨a, ha, hlist⟩ := exists_left_of_forall₂ hpairs hr
        obtain ⟨name, hname, hinh⟩ := exists_left_of_forall₂ inherits ha
        refine .inr ⟨a, ⟨name, hname, (inheritsAs_iff hds).mp hinh⟩, ?_⟩
        exact ((hlist n).mp hn).reaches hnm
    · rintro (⟨n, hn, hnm⟩ | ⟨a, ⟨name, hname, ha⟩, hlist⟩)
      · exact ⟨n, .inl hn, hnm⟩
      · obtain ⟨a', ha', hinh⟩ := exists_right_of_forall₂ inherits hname
        rw [inheritsAs_iff hds, ha] at hinh
        cases hinh
        obtain ⟨r, hr, hiff⟩ := exists_right_of_forall₂ hpairs ha'
        exact ⟨m, .inr ⟨r, hr, (hiff m).mpr hlist⟩, .refl⟩

/-- The names of a resolved declaration are interfaces, and on no cycle of clauses. -/
theorem Resolved.closable {d r : Declaration} (h : Resolved ds d r) {m : Text}
    (hm : m ∈ r.implements.getD []) : Closable ds m := by
  obtain ⟨d, as, rs, implements, -, -, -, closed⟩ := h
  obtain ⟨n, hn, hnm⟩ := (closed.mem_iff m).mp hm
  intro k hk
  exact closed.closable n hn k (hnm.trans hk)

theorem resolved_of_mem_zip {rs : List Declaration} {c : Context} (hds : DistinctNames ds)
    (h : Gives (resolveAll ds) {} rs c) {p : Declaration × Declaration} (hp : p ∈ ds.zip rs) :
    p.1 ∈ ds ∧ Resolved ds p.1 p.2 := by
  obtain ⟨-, hall⟩ := resolveAll_spec (Context.resolutionSound_empty ds) h
  have hd : p.1 ∈ ds := (of_mem_zip hp).1
  obtain ⟨d', hd', hstands, hres⟩ := List.forall₂_zip hall hp
  rw [hstands.eq hds hd hd'] at hres
  exact ⟨hd, hres⟩

/-! ### Closed lists -/

/-- What an interface lists is in a list that holds the interface, exactly if the names of the
clauses that the interface inherits are. -/
theorem lists_subset_iff {d i : Declaration} (hi : interfaceNamed? ds i.baseName = some i)
    (hlist : Lists ds d i.baseName) :
    (∀ j, Lists ds i j → Lists ds d j) ↔
      ∀ b, TransGen (Inherits ds) i b → ∀ n ∈ b.implements.getD [], Lists ds d n := by
  constructor
  · intro h b hb n hn
    exact h n ⟨b, hb.to_reflTransGen, n, hn, .refl⟩
  · rintro h j ⟨b, hb, n, hn, hnj⟩
    rcases reflTransGen_iff_eq_or_transGen.mp hb with rfl | hb
    · -- the own clause of the interface is a step of the graph
      refine hlist.reaches ((ReflTransGen.single ⟨b, hi, hn⟩).trans hnj)
    · exact (h b hb n hn).reaches hnj

/-- **The implements lists of a resolved schema.**  Each name listed is an interface of the schema.
The list of a declaration holds what the list of such an interface holds exactly if it holds the
names in the clauses that the interface inherits, so in any case if the interface inherits none.
And an interface that lists itself is reached from a clause that it inherits. -/
theorem resolveAll_implements_closed {ds rs : List Declaration} {c : Context}
    (hds : DistinctNames ds) (h : Gives (resolveAll ds) {} rs c) :
    (∀ p ∈ ds.zip rs, ∀ n ∈ p.2.implements.getD [],
      ∃ q ∈ ds.zip rs, q.1.isExtend = false ∧ q.1.kind = .interface ∧ q.1.baseName = n) ∧
    (∀ p ∈ ds.zip rs, ∀ q ∈ ds.zip rs, q.1.isExtend = false → q.1.kind = .interface →
      q.1.baseName ∈ p.2.implements.getD [] →
      ((∀ j ∈ q.2.implements.getD [], j ∈ p.2.implements.getD []) ↔
        ∀ b, TransGen (Inherits ds) q.1 b →
          ∀ n ∈ b.implements.getD [], n ∈ p.2.implements.getD [])) ∧
    (∀ q ∈ ds.zip rs, q.1.isExtend = false → q.1.kind = .interface →
      q.1.baseName ∈ q.2.implements.getD [] →
      ∃ b, TransGen (Inherits ds) q.1 b ∧ ∃ n ∈ b.implements.getD [],
        Reaches ds n q.1.baseName) := by
  refine ⟨?_, ?_, ?_⟩
  · intro p hp n hn
    obtain ⟨-, hres⟩ := resolved_of_mem_zip hds h hp
    obtain ⟨⟨i, hi⟩, -⟩ := hres.closable hn n .refl
    have hmem := List.mem_of_find?_eq_some hi
    have hkind := List.find?_some hi
    simp only [candidates, List.mem_filter, Bool.and_eq_true, Bool.not_eq_true', beq_iff_eq]
      at hmem hkind
    obtain ⟨-, hall⟩ := resolveAll_spec (Context.resolutionSound_empty ds) h
    obtain ⟨k, hk, rfl⟩ := List.mem_iff_getElem.mp hmem.1
    have hlen := hall.length_eq
    refine ⟨(ds[k], rs[k]), ?_, hmem.2.1, hkind, hmem.2.2⟩
    exact List.mem_iff_getElem.mpr ⟨k, by simp; omega, by simp⟩
  · intro p hp q hq hext hkind hmem
    obtain ⟨-, hp⟩ := resolved_of_mem_zip hds h hp
    obtain ⟨hq', hq⟩ := resolved_of_mem_zip hds h hq
    simp only [hp.mem_implements_iff hds, hq.mem_implements_iff hds] at hmem ⊢
    exact lists_subset_iff (interfaceNamed?_eq hds hq' hext hkind) hmem
  · intro q hq hext hkind hmem
    obtain ⟨hq', hres⟩ := resolved_of_mem_zip hds h hq
    have hacyclic := (hres.closable hmem _ .refl).2
    obtain ⟨b, hb, n, hn, hreach⟩ := (hres.mem_implements_iff hds _).mp hmem
    rcases reflTransGen_iff_eq_or_transGen.mp hb with rfl | hb
    · -- through its own clause the interface would be on a cycle
      have hedge : Implements ds q.1.baseName n := ⟨q.1, interfaceNamed?_eq hds hq' hext hkind, hn⟩
      exact absurd (TransGen.head' hedge hreach) hacyclic
    · exact ⟨b, hb, n, hn, hreach⟩

/-- A schema in which an interface inherits a clause: `A` inherits from `B`, which implements `C`,
and `T` implements `A`. -/
def inheritedClause : List Declaration :=
  [{ kind := .interface, name := "C".toList },
    { kind := .interface, name := "B".toList, implements := some ["C".toList] },
    { kind := .interface, name := "A".toList, inherits := some ["B".toList] },
    { kind := .type, name := "T".toList, implements := some ["A".toList] }]

/-- The schema with an inherited clause, resolved: `A` lists `C`, but `T` does not. -/
def inheritedClauseResolved : List Declaration :=
  [{ kind := .interface, name := "C".toList, ownFields := some [] },
    { kind := .interface, name := "B".toList, implements := some ["C".toList],
      ownFields := some [] },
    { kind := .interface, name := "A".toList, inherits := some ["B".toList],
      implements := some ["C".toList], ownFields := some [] },
    { kind := .type, name := "T".toList, implements := some ["A".toList], ownFields := some [] }]

theorem resolveAll_inheritedClause :
    ((resolveAll inheritedClause).outcome {}).1.toOption = some inheritedClauseResolved := by
  decide +kernel

/-- The theorem on the schema with an inherited clause: what `A` lists is not in the list of `T`,
for `A` inherits a clause with a name that is not. -/
theorem resolveAll_implements_closed_inheritedClause :
    DistinctNames inheritedClause ∧
      ∀ p ∈ inheritedClause.zip inheritedClauseResolved,
        ∀ q ∈ inheritedClause.zip inheritedClauseResolved,
        q.1.isExtend = false → q.1.kind = .interface → q.1.baseName ∈ p.2.implements.getD [] →
        ((∀ j ∈ q.2.implements.getD [], j ∈ p.2.implements.getD []) ↔
          ∀ b, TransGen (Inherits inheritedClause) q.1 b →
            ∀ n ∈ b.implements.getD [], n ∈ p.2.implements.getD []) :=
  ⟨by decide, (resolveAll_implements_closed (by decide)
    (gives_of_outcome resolveAll_inheritedClause)).2.1⟩

/-- A schema in which an interface inherits a clause that names it: `A` inherits from `B`, which
implements `A`. -/
def inheritedCycle : List Declaration :=
  [{ kind := .interface, name := "A".toList, inherits := some ["B".toList] },
    { kind := .interface, name := "B".toList, implements := some ["A".toList] }]

/-- The lists of interfaces that inherit a clause are neither closed nor without cycles: the names
of the clause are kept from the lists of what implements the interface, and the interface itself may
be one of them. -/
theorem not_implements_closed_inheritedClause :
    (DistinctNames inheritedClause ∧
      ∃ rs c, Gives (resolveAll inheritedClause) {} rs c ∧
        ∃ p ∈ inheritedClause.zip rs, ∃ q ∈ inheritedClause.zip rs,
          q.1.isExtend = false ∧ q.1.kind = .interface ∧ q.1.baseName ∈ p.2.implements.getD [] ∧
            ∃ j ∈ q.2.implements.getD [], j ∉ p.2.implements.getD []) ∧
    DistinctNames inheritedCycle ∧
      ∃ rs c, Gives (resolveAll inheritedCycle) {} rs c ∧
        ∃ q ∈ inheritedCycle.zip rs, q.1.isExtend = false ∧ q.1.kind = .interface ∧
          q.1.baseName ∈ q.2.implements.getD [] := by
  refine ⟨⟨by decide, inheritedClauseResolved, _, gives_of_outcome resolveAll_inheritedClause, ?_⟩,
    by decide, ?_⟩
  · decide
  · obtain ⟨rs, c, hrs, hself⟩ : ∃ rs c, Gives (resolveAll inheritedCycle) {} rs c ∧
        ((inheritedCycle.zip rs).any fun q => !q.1.isExtend && q.1.kind == .interface &&
          (q.2.implements.getD []).contains q.1.baseName) = true :=
      exists_gives_of_outcome (by decide +kernel)
    refine ⟨rs, c, hrs, ?_⟩
    simpa [and_assoc] using hself

end Schemata
