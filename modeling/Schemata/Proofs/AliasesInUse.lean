import Schemata.Proofs.Arrangement
import Schemata.Proofs.Spacing

/-!
# Aliases in use

A rule may form any value as an alias, and the aliases formed go into other aliases and become the
names of declarations.  Whatever is remembered under an alias has passed one check.  The check lets
one line break at the end of a type name pass, which the aliases formed by default never have.
-/

namespace Schemata

open Resolve List

/-- The aliases remembered, and those that uses and instances are remembered under. -/
def Context.UsesAlias (c : Context) (name : Text) : Prop :=
  (∃ core, c.aliasNames.get? core = some name) ∨ name ∈ c.pending.keys ∨ name ∈ c.instances.keys

section Uses

variable {naming : Naming} {c : Context} {name : Text}

theorem Context.Consulted.awaits (h : c.Consulted naming) : c.Awaits naming ∧ c.instances = {} := by
  induction h with
  | fresh =>
    refine ⟨⟨?_, nodup_nil, ?_⟩, rfl⟩
    · intro k n hn
      cases hn
    · intro n v hv
      cases hv
  | name _ core ih =>
    have hattends := (aliasName_attends ih.1 core).after
    refine ⟨hattends.awaits, ?_⟩
    rw [hattends.notes.frame]
    exact ih.2
  | use _ expression letters directive ih =>
    have hattends := ((useType_attends ih.1 expression letters directive).imp (fun _ _ h => h.1)
      fun _ _ h => h).after
    refine ⟨hattends.awaits, ?_⟩
    rw [hattends.notes.frame]
    exact ih.2

theorem Context.UsesAlias.exists_aliasOf {w : Workshop} (h : c.UsesAlias name)
    (hc : c.Consulted w.naming ∨ w.Asked c) : ∃ core, aliasOf w.naming core = .ok name := by
  have hawaits : c.Awaits w.naming := by
    rcases hc with hc | hc
    · exact hc.awaits.1
    · obtain ⟨base, hlays⟩ := hc.lays
      exact hlays.awaits
  rcases h with ⟨core, hcore⟩ | hpending | hinstances
  · exact ⟨core, (hawaits.names core name hcore).2⟩
  · cases hget : c.pending.get? name with
    | none => exact absurd hpending (Table.not_mem_of_find? hget)
    | some v =>
      obtain ⟨core, -, -, halias⟩ := (hawaits.aliased hget).2
      exact ⟨core, halias⟩
  · rcases hc with hc | hc
    · rw [hc.awaits.2] at hinstances
      cases hinstances
    · obtain ⟨base, hlays⟩ := hc.lays
      cases hget : c.instances.get? name with
      | none => exact absurd hinstances (Table.not_mem_of_find? hget)
      | some i =>
        obtain ⟨core, -, hcore, -⟩ := hlays.stores.exists_built hget
        exact ⟨core, (hawaits.names core name hcore).2⟩

end Uses

/-- **Every alias in use is a type name**, but for one line break that may end it; without rules for
aliases, there is no such line break.  The contexts are all those that naming cores and reading type
expressions come to, and all those that asking a workshop does, with success or without. -/
theorem usesAlias_isAliasName {w : Workshop} {c : Context} (hc : c.Consulted w.naming ∨ w.Asked c)
    {name : Text} (h : c.UsesAlias name) : isAliasName name = true ∧
      (w.naming.general = none → (∀ key, w.naming.named.get? key = none) → name.isName = true) := by
  obtain ⟨core, hcore⟩ := h.exists_aliasOf hc
  have hname := isAliasName_of_aliasOf hcore
  refine ⟨hname, fun hgeneral hnamed => ?_⟩
  obtain ⟨normal, hnormal, -⟩ := canonical_of_aliasOf hcore
  have hfilter := aliasOf_default hgeneral hnamed hcore hnormal
  have hend : name.getLast? ≠ some '\n' := by
    intro hlast
    have hmem := mem_of_getLast? hlast
    rw [hfilter] at hmem
    exact absurd (mem_filter.mp hmem).2 (by decide)
  simpa [isAliasName, hend] using hname

/-- A use waits under its default alias. -/
theorem usesAlias_isAliasName_paged :
    ((useType {} "[Paged<Product>!]".toList none none).outcome {}).2.UsesAlias
      "PagedProduct".toList ∧ isAliasName "PagedProduct".toList = true := by
  have huses : ((useType {} "[Paged<Product>!]".toList none none).outcome {}).2.UsesAlias
      "PagedProduct".toList :=
    .inr (.inl (by decide +kernel))
  exact ⟨huses,
    (@usesAlias_isAliasName { declarations := [] } _ (.inl (.use .fresh _ _ _)) _ huses).1⟩

/-- The rule of a template that ends with a line break. -/
def lineEndNaming : Naming :=
  { general := some (.ofTemplate (.text "{0}Page\n".toList)) }

/-- The line break at the end of an alias passes the check. -/
theorem not_isName_lineEnd : ¬ ∀ (naming : Naming) (c : Context) (name : Text), c.Consulted naming →
    c.UsesAlias name → name.isName = true := by
  intro hall
  have hstored : ((aliasName lineEndNaming "Paged<Product>".toList).outcome {}).2.aliasNames.get?
      "Paged<Product>".toList = some "ProductPage\n".toList := by decide +kernel
  exact absurd (hall _ _ _ (.name .fresh _) (.inl ⟨_, hstored⟩)) (by decide)

end Schemata
