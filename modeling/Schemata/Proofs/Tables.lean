import Mathlib.Data.List.Nodup
import Schemata.Table

/-!
# Keys and values of tables

A table has no key twice, so that its values are what its keys give.

## Main results

* `Table.nodup_keys_insert` — a key is inserted at most once.
* `Table.exists_get?_of_mem_values` — a value belongs to a key.
-/

namespace Schemata

open List

namespace Table

variable {κ ν : Type} [DecidableEq κ]

theorem map_fst_put (key : κ) (value : ν) (es : List (κ × ν)) :
    (put key value es).map Prod.fst =
      if key ∈ es.map Prod.fst then es.map Prod.fst else es.map Prod.fst ++ [key] := by
  induction es with
  | nil => simp [put]
  | cons e es ih =>
    obtain ⟨k, v⟩ := e
    by_cases hk : k = key
    · simp [put, hk]
    · rw [put, if_neg hk, map_cons, map_cons, ih]
      by_cases hmem : key ∈ es.map Prod.fst
      · simp [hmem]
      · simp [hmem, Ne.symm hk]

theorem nodup_keys_insert {t : Table κ ν} (h : t.keys.Nodup) (key : κ) (value : ν) :
    (t.insert key value).keys.Nodup := by
  unfold keys insert at *
  rw [map_fst_put]
  split_ifs with hmem
  · exact h
  · exact h.append (nodup_singleton key) (by simpa using hmem)

theorem get?_insertIfNew (t : Table κ ν) (key other : κ)
    (value : ν) : (t.insertIfNew key value).get? other =
      if other = key then some ((t.get? key).getD value) else t.get? other := by
  unfold insertIfNew contains
  split_ifs with hc ho ho
  · obtain ⟨v, hv⟩ := Option.isSome_iff_exists.mp hc
    rw [ho, hv, Option.getD_some]
  · rfl
  · rw [get?_insert, if_pos ho, Option.not_isSome_iff_eq_none.mp hc, Option.getD_none]
  · rw [get?_insert, if_neg ho]

theorem put_of_find?_eq_none {key : κ} {es : List (κ × ν)} (h : find? key es = none) (value : ν) :
    put key value es = es ++ [(key, value)] := by
  induction es with
  | nil => rfl
  | cons e es ih =>
    obtain ⟨k, v⟩ := e
    rw [find?] at h
    split_ifs at h with hk
    rw [put, if_neg hk, ih h, cons_append]

theorem entries_insertIfNew (t : Table κ ν) (key : κ) (value : ν) :
    (t.insertIfNew key value).entries = t.entries ∨
      (t.insertIfNew key value).entries = t.entries ++ [(key, value)] := by
  unfold insertIfNew contains
  split_ifs with h
  · exact .inl rfl
  · exact .inr (put_of_find?_eq_none (Option.not_isSome_iff_eq_none.mp h) value)

theorem nodup_keys_insertIfNew {t : Table κ ν} (h : t.keys.Nodup) (key : κ) (value : ν) :
    (t.insertIfNew key value).keys.Nodup := by
  unfold insertIfNew
  split_ifs
  · exact h
  · exact nodup_keys_insert h key value

theorem mem_of_find? {key : κ} {value : ν} {es : List (κ × ν)} (h : find? key es = some value) :
    (key, value) ∈ es := by
  induction es with
  | nil => cases h
  | cons e es ih =>
    obtain ⟨k, v⟩ := e
    rw [find?] at h
    split_ifs at h with hk
    · cases h
      rw [hk]
      exact mem_cons_self
    · exact mem_cons_of_mem _ (ih h)

theorem not_mem_of_find? {key : κ} {es : List (κ × ν)} (h : find? key es = none) :
    key ∉ es.map Prod.fst := by
  induction es with
  | nil => exact not_mem_nil
  | cons e es ih =>
    rw [find?] at h
    split_ifs at h with hk
    rw [map_cons, mem_cons, not_or]
    exact ⟨Ne.symm hk, ih h⟩

theorem find?_of_mem {key : κ} {value : ν} {es : List (κ × ν)} (hn : (es.map Prod.fst).Nodup)
    (h : (key, value) ∈ es) : find? key es = some value := by
  induction es with
  | nil => exact absurd h not_mem_nil
  | cons e es ih =>
    obtain ⟨k, v⟩ := e
    rw [map_cons, nodup_cons] at hn
    rcases mem_cons.mp h with heq | h
    · cases heq
      rw [find?, if_pos rfl]
    · have hne : k ≠ key := by
        rintro rfl
        exact hn.1 (mem_map.mpr ⟨_, h, rfl⟩)
      rw [find?, if_neg hne, ih hn.2 h]

theorem mem_values_of_get? {t : Table κ ν} {key : κ} {value : ν} (h : t.get? key = some value) :
    value ∈ t.values :=
  mem_map_of_mem (mem_of_find? h)

theorem mem_keys_of_contains {t : Table κ ν} {key : κ} (h : t.contains key) : key ∈ t.keys := by
  obtain ⟨value, hvalue⟩ := Option.isSome_iff_exists.mp h
  exact mem_map_of_mem (f := Prod.fst) (mem_of_find? hvalue)

theorem exists_get?_of_mem_values {t : Table κ ν} (hn : t.keys.Nodup) {value : ν}
    (h : value ∈ t.values) : ∃ key, t.get? key = some value := by
  obtain ⟨⟨key, v⟩, hmem, rfl⟩ := mem_map.mp h
  exact ⟨key, find?_of_mem hn hmem⟩

end Table

end Schemata
