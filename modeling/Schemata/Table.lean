/-!
# Tables

A table holds one value per key and lists its entries in the order in which their keys were first
inserted.

## Main definitions

* `Table.get?`, `Table.insert`, `Table.insertIfNew`, `Table.erase` — looking up and changing
  entries.
* `Table.keys`, `Table.values` — the contents, in the order of insertion.
-/

namespace Schemata

/-- A table with keys in `κ` and values in `ν`, in the order of insertion. -/
structure Table (κ ν : Type) where
  entries : List (κ × ν) := []

namespace Table

variable {κ ν : Type}

def empty : Table κ ν := {}

def keys (t : Table κ ν) : List κ :=
  t.entries.map Prod.fst

/-- The values, in the order of insertion of their keys. -/
def values (t : Table κ ν) : List ν :=
  t.entries.map Prod.snd

variable [DecidableEq κ]

def find? (key : κ) : List (κ × ν) → Option ν
  | [] => none
  | (k, v) :: rest => if k = key then some v else find? key rest

/-- The entries with the value of a key replaced, or with a new entry at the end. -/
def put (key : κ) (value : ν) : List (κ × ν) → List (κ × ν)
  | [] => [(key, value)]
  | (k, v) :: rest => if k = key then (k, value) :: rest else (k, v) :: put key value rest

def get? (t : Table κ ν) (key : κ) : Option ν :=
  find? key t.entries

/-- Whether the table has an entry for the key. -/
def contains (t : Table κ ν) (key : κ) : Bool :=
  (t.get? key).isSome

/-- The table in which the key has the value; a key that is there keeps its place. -/
def insert (t : Table κ ν) (key : κ) (value : ν) : Table κ ν :=
  ⟨put key value t.entries⟩

/-- The table with a new entry, unless the key is there already. -/
def insertIfNew (t : Table κ ν) (key : κ) (value : ν) : Table κ ν :=
  if t.contains key then t else t.insert key value

def erase (t : Table κ ν) (key : κ) : Table κ ν :=
  ⟨t.entries.filter fun e => e.1 ≠ key⟩

@[simp] theorem get?_empty (key : κ) : (empty : Table κ ν).get? key = none := rfl

theorem find?_put (key other : κ) (value : ν) (es : List (κ × ν)) :
    find? other (put key value es) = if other = key then some value else find? other es := by
  induction es with
  | nil => grind [put, find?]
  | cons e es ih =>
      obtain ⟨k, v⟩ := e
      by_cases hk : k = key
      · subst hk
        by_cases h : other = k
        · simp [put, find?, h]
        · simp [put, find?, h, Ne.symm h]
      · by_cases h : k = other
        · subst h
          simp [put, find?, hk]
        · simp [put, find?, hk, h, ih]

/-- What an insertion makes of each look-up. -/
@[simp] theorem get?_insert (t : Table κ ν) (key other : κ) (value : ν) :
    (t.insert key value).get? other = if other = key then some value else t.get? other :=
  find?_put key other value t.entries

end Table

end Schemata
