import ProtoShape.Key

/-!
# Mappings in insertion order

`Entries α` maps scalar keys to values and keeps the order in which the keys
were first inserted.  Keys that count as the same are one key, which stays as it
was first written.  `insert` replaces the value of a key in its place and puts a
new key last; `overlay` inserts the entries of a second mapping one after the
other, so the second mapping wins.
-/

namespace ProtoShape

/-- A finite mapping that remembers the order of its keys. -/
structure Entries (α : Type) where
  toList : List (Scalar × α)

namespace Entries

variable {α β : Type}

instance : EmptyCollection (Entries α) := ⟨⟨[]⟩⟩

instance : Inhabited (Entries α) := ⟨∅⟩

/-- The number of entries. -/
def size (e : Entries α) : Nat := e.toList.length

/-- Whether there is no entry. -/
def isEmpty (e : Entries α) : Bool := e.toList.isEmpty

/-- The keys in order. -/
def keys (e : Entries α) : List Scalar := e.toList.map (·.1)

/-- The values in order. -/
def values (e : Entries α) : List α := e.toList.map (·.2)

/-- The value of the first entry with this key. -/
def lookup : List (Scalar × α) → Scalar → Option α
  | [], _ => none
  | (k, v) :: rest, key => if k.key = key.key then some v else lookup rest key

/-- The value of a key. -/
def get? (e : Entries α) (key : Scalar) : Option α := lookup e.toList key

/-- Whether the key is present. -/
def contains (e : Entries α) (key : Scalar) : Bool := (e.get? key).isSome

/-- The entries with the value of a key replaced, or the new entry last. -/
def put : List (Scalar × α) → Scalar → α → List (Scalar × α)
  | [], key, value => [(key, value)]
  | (k, v) :: rest, key, value =>
      if k.key = key.key then (k, value) :: rest else (k, v) :: put rest key value

/-- Binds a key to a value. -/
def insert (e : Entries α) (key : Scalar) (value : α) : Entries α := ⟨put e.toList key value⟩

/-- Removes a key. -/
def erase (e : Entries α) (key : Scalar) : Entries α :=
  ⟨e.toList.filter (·.1.key ≠ key.key)⟩

/-- Removes several keys. -/
def eraseAll (e : Entries α) (keys : List String) : Entries α :=
  keys.foldl (fun e (key : String) => e.erase key) e

/-- Inserts all entries of `other`, which wins where both bind a key. -/
def overlay (e other : Entries α) : Entries α :=
  other.toList.foldl (fun e entry => e.insert entry.1 entry.2) e

/-- Applies a function to every value. -/
def mapValues (f : α → β) (e : Entries α) : Entries β :=
  ⟨e.toList.map fun entry => (entry.1, f entry.2)⟩

/-- Whether every key is a text, as in a JSON document. -/
def hasTextKeys (e : Entries α) : Bool := e.keys.all (·.text?.isSome)

@[simp] theorem lookup_put_self (l : List (Scalar × α)) (key : Scalar) (value : α) :
    lookup (put l key value) key = some value := by
  induction l with
  | nil => simp [put, lookup]
  | cons entry rest ih =>
      obtain ⟨k, v⟩ := entry
      by_cases h : k.key = key.key <;> simp [put, lookup, h, ih]

@[simp] theorem get?_insert_self (e : Entries α) (key : Scalar) (value : α) :
    (e.insert key value).get? key = some value :=
  lookup_put_self e.toList key value

theorem get?_insert_of_ne (e : Entries α) {key other : Scalar} (value : α)
    (h : other.key ≠ key.key) : (e.insert key value).get? other = e.get? other := by
  obtain ⟨l⟩ := e
  simp only [get?, insert]
  induction l with
  | nil => simp [put, lookup, h.symm]
  | cons entry rest ih =>
      obtain ⟨k, v⟩ := entry
      by_cases hk : k.key = key.key
      · simp [put, lookup, hk, h.symm]
      · simp [put, lookup, hk, ih]

end Entries

end ProtoShape
