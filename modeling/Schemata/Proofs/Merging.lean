import Schemata.Proofs.Tables
import Schemata.Value.Basic

/-!
# Merged mappings

Settings are merged key by key.  What stands at a path of the result is said here without the merge:
the value that takes precedence, or else the value below, unless something that is no mapping stands
in its way.

## Main definitions

* `Value.at?` — the value at a path of keys.
-/

namespace Schemata

namespace Value

open Table (find? put)

def isMapping : Value → Bool
  | mapping _ => true
  | _ => false

def at? : List Text → Value → Option Value
  | [], v => some v
  | key :: path, mapping es => (find? key es).bind (at? path)
  | _ :: _, _ => none

mutual

/-- Whether no mapping has a key twice, at any depth. -/
def isDistinct : Value → Bool
  | mapping es => decide (es.map Prod.fst).Nodup && allDistinct es
  | _ => true

/-- Whether all values of a mapping are distinct. -/
def allDistinct : List (Text × Value) → Bool
  | [] => true
  | (_, v) :: es => isDistinct v && allDistinct es

end

variable {base update es : List (Text × Value)} {key : Text} {v : Value}

theorem isDistinct_of_mem (h : allDistinct es) (hv : (key, v) ∈ es) : v.isDistinct := by
  induction es with
  | nil => cases hv
  | cons e es ih =>
    rw [allDistinct, Bool.and_eq_true] at h
    rcases List.mem_cons.mp hv with rfl | hv
    · exact h.1
    · exact ih h.2 hv

theorem isDistinct_mapping :
    (mapping es).isDistinct ↔ (es.map Prod.fst).Nodup ∧ allDistinct es := by
  rw [isDistinct, Bool.and_eq_true, decide_eq_true_iff]

/-- **What a merge makes of each look-up.** -/
theorem find?_mergeEntries (h : (update.map Prod.fst).Nodup) (base : List (Text × Value))
    (key : Text) : find? key (mergeEntries base update) =
      ((find? key update).map (mergeValue (find? key base))).or (find? key base) := by
  induction update generalizing base with
  | nil => rfl
  | cons e update ih =>
    obtain ⟨k, u⟩ := e
    obtain ⟨hk, hnodup⟩ := List.nodup_cons.mp h
    rw [mergeEntries, ih hnodup, Table.find?_put, find?]
    by_cases hkey : k = key
    · subst hkey
      -- the key does not come again
      have hnone : find? k update = none := by
        cases hfound : find? k update with
        | none => rfl
        | some w => exact absurd (List.mem_map_of_mem (Table.mem_of_find? hfound)) hk
      rw [hnone, if_pos rfl, if_pos rfl]
      rfl
    · rw [if_neg hkey, if_neg (Ne.symm hkey)]

theorem mergeEntries_eq_self (h : ∀ k u, (k, u) ∈ update → ∃ b, find? k base = some b ∧
    mergeValue (some b) u = b) : mergeEntries base update = base := by
  have hput : ∀ {k b} {es : List (Text × Value)}, find? k es = some b → put k b es = es := by
    intro k b es hfound
    induction es with
    | nil => cases hfound
    | cons e es ih =>
      rw [find?] at hfound
      rw [put]
      split_ifs at hfound ⊢ with hk
      · cases hfound
        rfl
      · rw [ih hfound]
  induction update with
  | nil => rfl
  | cons e update ih =>
    obtain ⟨b, hfound, hb⟩ := h e.1 e.2 List.mem_cons_self
    rw [mergeEntries, hfound, hb, hput hfound]
    exact ih fun k u hu => h k u (List.mem_cons_of_mem _ hu)

theorem mergeValue_eq_right {o : Option Value} {u : Value}
    (h : ∀ base update, o = some (mapping base) → u ≠ mapping update) : mergeValue o u = u := by
  unfold mergeValue
  split
  · exact absurd rfl (h _ _ rfl)
  · rfl

theorem mergeValue_mergeValue (o : Option Value) {u : Value} (h : u.isDistinct) :
    mergeValue (some (mergeValue o u)) u = mergeValue o u := by
  -- the entries that take precedence are smaller values
  induction hsize : sizeOf u using Nat.strongRecOn generalizing o u with
  | _ size ih =>
    by_cases hu : ∃ update, u = mapping update
    · obtain ⟨update, rfl⟩ := hu
      obtain ⟨hnodup, hall⟩ := isDistinct_mapping.mp h
      have hentry : ∀ o k u, (k, u) ∈ update →
          mergeValue (some (mergeValue o u)) u = mergeValue o u := by
        intro o k u hu
        refine ih (sizeOf u) ?_ o (isDistinct_of_mem hall hu) rfl
        have hlt := List.sizeOf_lt_of_mem hu
        simp only [Prod.mk.sizeOf_spec] at hlt
        simp only [mapping.sizeOf_spec] at hsize
        omega
      by_cases ho : ∃ base, o = some (mapping base)
      · obtain ⟨base, rfl⟩ := ho
        refine congrArg mapping (mergeEntries_eq_self fun k u hu => ?_)
        refine ⟨mergeValue (find? k base) u, ?_, hentry _ k u hu⟩
        rw [find?_mergeEntries hnodup, Table.find?_of_mem hnodup hu]
        rfl
      · rw [mergeValue_eq_right (o := o) fun base _ hb => absurd ⟨base, hb⟩ ho]
        refine congrArg mapping (mergeEntries_eq_self fun k u hu => ⟨u,
          Table.find?_of_mem hnodup hu, ?_⟩)
        have hnone := hentry none k u hu
        rwa [mergeValue_eq_right (o := none) (by simp)] at hnone
    · have hright : ∀ o, mergeValue o u = u :=
        fun o => mergeValue_eq_right fun _ update _ hu' => hu ⟨update, hu'⟩
      rw [hright, hright]

/-- On the way to a path of `u` there is nothing but mappings. -/
def Admits (u : Value) (path : List Text) : Prop :=
  ∀ way w, way <+: path → way ≠ path → u.at? way = some w → w.isMapping = true

theorem admits_cons {path : List Text} :
    (mapping update).Admits (key :: path) ↔ ∀ u, find? key update = some u → u.Admits path := by
  constructor
  · intro h u hu way w hway hne hw
    refine h (key :: way) w (List.prefix_cons_iff.mpr (.inr ⟨way, rfl, hway⟩))
      (by simpa using hne) ?_
    rw [at?, hu, Option.bind_some, hw]
  · intro h way w hway hne hw
    rcases List.prefix_cons_iff.mp hway with rfl | ⟨way', rfl, hway'⟩
    · cases hw
      rfl
    · obtain ⟨u, hu, hw⟩ := Option.bind_eq_some_iff.mp hw
      exact h u hu way' w hway' (by simpa using hne) hw

/-- What stands at a path of a merge, mappings aside, stands there in `u`, or is admitted by `u`
where it has nothing itself. -/
theorem at?_mergeValue (path : List Text) (o : Option Value) {u : Value} (h : u.isDistinct)
    (hv : v.isMapping = false) : (mergeValue o u).at? path = some v ↔
      u.at? path = some v ∨ o.bind (at? path) = some v ∧ u.at? path = none ∧ u.Admits path := by
  induction path generalizing o u with
  | nil =>
    have hne : ∀ es, mapping es ≠ v := by
      rintro es rfl
      cases hv
    unfold mergeValue
    split
    · simp [at?, hne]
    · simp [at?]
  | cons key path ih =>
    by_cases hmerge : ∃ base update, o = some (mapping base) ∧ u = mapping update
    · obtain ⟨base, update, rfl, rfl⟩ := hmerge
      obtain ⟨hnodup, hall⟩ := isDistinct_mapping.mp h
      rw [mergeValue, at?, find?_mergeEntries hnodup, admits_cons, Option.bind_some, at?, at?]
      cases hfound : find? key update with
      | none => simp
      | some u =>
        have hentry := ih (find? key base) (isDistinct_of_mem hall (Table.mem_of_find? hfound))
        simpa using hentry
    · rw [mergeValue_eq_right fun base update hb hu => hmerge ⟨base, update, hb, hu⟩]
      refine ⟨.inl, ?_⟩
      rintro (hu | ⟨hbelow, -, hway⟩)
      · exact hu
      · -- both would be mappings
        have hmapping := hway [] u List.nil_prefix (List.cons_ne_nil _ _).symm rfl
        obtain ⟨b, rfl, hb⟩ := Option.bind_eq_some_iff.mp hbelow
        cases b with
        | mapping base =>
          cases u with
          | mapping update => exact absurd ⟨base, update, rfl, rfl⟩ hmerge
          | _ => cases hmapping
        | _ => cases hb

/-- **Merging gives precedence path by path, and is idempotent.**  Where something that is no
mapping stands in the result, it stands at the same path of `update`; or it stands there in `base`,
and `update` has no entry there and nothing but mappings on the way. -/
theorem merge_paths (base : List (Text × Value)) {update : List (Text × Value)}
    (h : (mapping update).isDistinct) :
    ∃ merged, merge (mapping base) (mapping update) = .ok merged ∧
      (∀ path v, v.isMapping = false → (merged.at? path = some v ↔
        (mapping update).at? path = some v ∨
        (mapping base).at? path = some v ∧ (mapping update).at? path = none ∧
          (mapping update).Admits path)) ∧
      merge merged (mapping update) = .ok merged := by
  refine ⟨mapping (mergeEntries base update), rfl, fun path v hv => ?_, ?_⟩
  · exact at?_mergeValue path (some (mapping base)) h hv
  · exact congrArg Except.ok (mergeValue_mergeValue (some (mapping base)) h)

/-- A section is merged with one that has another key. -/
theorem merge_paths_sections :
    ∃ merged, merge (mapping [(['a'], mapping [(['x'], int 1)])])
      (mapping [(['a'], mapping [(['y'], null)])]) =
      .ok merged ∧ merged.at? [['a'], ['x']] = some (int 1) := by
  obtain ⟨merged, hmerged, hpaths, -⟩ :=
    @merge_paths [(['a'], mapping [(['x'], int 1)])] [(['a'], mapping [(['y'], null)])] rfl
  refine ⟨merged, hmerged, (hpaths _ _ rfl).mpr (.inr ⟨rfl, rfl, admits_cons.mpr ?_⟩)⟩
  rintro u ⟨⟩
  refine admits_cons.mpr ?_
  rintro u ⟨⟩

end Value

end Schemata
