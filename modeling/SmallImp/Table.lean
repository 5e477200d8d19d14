import SmallImp.Name

/-!
# Tables in order of first insertion

A table maps keys to entries. A new key goes to the end, and a key met before keeps its place.

* `Table.find?` — the entry of a key;
* `Table.upsert` — sets the entry of a key, given the entry it had.
-/

namespace SmallImp

/-- Entries under distinct keys, in the order in which the keys were first met. -/
structure Table (α : Type) where
  rows : List (Key × α)

namespace Table

variable {α : Type}

/-- A table without entries. -/
def empty : Table α := ⟨[]⟩

instance : Inhabited (Table α) := ⟨empty⟩

/-- The entries in order. -/
def entries (t : Table α) : List α := t.rows.map (·.2)

/-- The keys in order. -/
def keys (t : Table α) : List Key := t.rows.map (·.1)

/-- The first entry of a key in a list of rows. -/
def lookup (key : Key) : List (Key × α) → Option α
  | [] => none
  | (k, entry) :: rest => if k = key then some entry else lookup key rest

/-- The entry of a key. -/
def find? (t : Table α) (key : Key) : Option α := lookup key t.rows

/-- Replaces the row of a key in place, or adds one at the end. -/
def upsertRows (key : Key) (f : Option α → α) : List (Key × α) → List (Key × α)
  | [] => [(key, f none)]
  | (k, entry) :: rest =>
    if k = key then (k, f (some entry)) :: rest else (k, entry) :: upsertRows key f rest

/-- Sets the entry of a key to a function of the entry it had. -/
def upsert (t : Table α) (key : Key) (f : Option α → α) : Table α := ⟨upsertRows key f t.rows⟩

end Table

end SmallImp
