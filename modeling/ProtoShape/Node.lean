import ProtoShape.Tree

/-!
# Numbered nodes

`number` gives every node of a document a number of its own, and `find?` and
`modify` reach a node by its number wherever it stands.

`identity` says which nodes are the same: null and the two booleans are one single
node each wherever they stand, and all else goes by number, so that two equal
integers or texts are two nodes.  An `IdentitySet` remembers nodes by their identity
(`contains_insert`).
-/

namespace ProtoShape

/-- What makes two nodes the same node. -/
inductive Identity where
  | null
  | bool (b : Bool)
  | tag (t : Tag)
deriving DecidableEq

/-- A set of nodes, each remembered by its identity. -/
structure IdentitySet where
  members : List Identity
deriving DecidableEq

namespace IdentitySet

instance : EmptyCollection IdentitySet := ⟨⟨[]⟩⟩

/-- The number of nodes in the set. -/
def size (set : IdentitySet) : Nat := set.members.length

/-- Whether a node is in the set. -/
def contains (set : IdentitySet) (identity : Identity) : Bool := set.members.contains identity

/-- The set with one more node; a node that is in it already is not added again. -/
def insert (set : IdentitySet) (identity : Identity) : IdentitySet :=
  if set.contains identity then set else ⟨set.members ++ [identity]⟩

/-- An insertion adds one node and drops none. -/
@[simp]
theorem contains_insert (set : IdentitySet) (identity other : Identity) :
    (set.insert identity).contains other = (set.contains other || decide (other = identity)) := by
  unfold insert
  split
  next h =>
    by_cases same : other = identity
    · subst same
      simp [h]
    · simp [same]
  next => simp [contains]

end IdentitySet

namespace Node

/-- The identity of a node: null and the booleans by value, all else by tag. -/
def identity : Node → Identity
  | .scalar _ .null => .null
  | .scalar _ (.bool b) => .bool b
  | node => .tag node.tag

mutual
/-- Numbers every node that has no number yet, from `next` on in the order in
which the document is written; the second component is the next free number. -/
def number : Node → Nat → Node × Nat
  | .scalar tag s, next =>
      match tag with
      | some n => (.scalar (some n) s, next)
      | none => (.scalar (some next) s, next + 1)
  | .list tag items, next =>
      let (tag, next) := match tag with
        | some n => (some n, next)
        | none => (some next, next + 1)
      let (items, next) := numberItems items next
      (.list tag items, next)
  | .map tag ⟨entries⟩, next =>
      let (tag, next) := match tag with
        | some n => (some n, next)
        | none => (some next, next + 1)
      let (entries, next) := numberEntries entries next
      (.map tag ⟨entries⟩, next)

/-- `number` on the items of a list. -/
def numberItems : List Node → Nat → List Node × Nat
  | [], next => ([], next)
  | item :: rest, next =>
      let (item, next) := number item next
      let (rest, next) := numberItems rest next
      (item :: rest, next)

/-- `number` on the entries of a mapping. -/
def numberEntries : List (Scalar × Node) → Nat → List (Scalar × Node) × Nat
  | [], next => ([], next)
  | (key, value) :: rest, next =>
      let (value, next) := number value next
      let (rest, next) := numberEntries rest next
      ((key, value) :: rest, next)
end

/-- The node of a value, not numbered yet. -/
def ofValue {τ : Type} (v : Tree τ) : Node := v.mapTags fun _ => none

mutual
/-- The node with this number at or below a node. -/
def find? (n : Nat) : Node → Option Node
  | .scalar tag s => if tag = some n then some (.scalar tag s) else none
  | .list tag items => if tag = some n then some (.list tag items) else findItems? n items
  | .map tag ⟨entries⟩ =>
      if tag = some n then some (.map tag ⟨entries⟩) else findEntries? n entries

/-- `find?` on the items of a list. -/
def findItems? (n : Nat) : List Node → Option Node
  | [] => none
  | item :: rest => (find? n item).or (findItems? n rest)

/-- `find?` on the entries of a mapping. -/
def findEntries? (n : Nat) : List (Scalar × Node) → Option Node
  | [] => none
  | (_, value) :: rest => (find? n value).or (findEntries? n rest)
end

mutual
/-- Replaces the node with this number by its image under `f`. -/
def modify (n : Nat) (f : Node → Node) : Node → Node
  | .scalar tag s => if tag = some n then f (.scalar tag s) else .scalar tag s
  | .list tag items =>
      if tag = some n then f (.list tag items) else .list tag (modifyItems n f items)
  | .map tag ⟨entries⟩ =>
      if tag = some n then f (.map tag ⟨entries⟩) else .map tag ⟨modifyEntries n f entries⟩

/-- `modify` on the items of a list. -/
def modifyItems (n : Nat) (f : Node → Node) : List Node → List Node
  | [] => []
  | item :: rest => modify n f item :: modifyItems n f rest

/-- `modify` on the entries of a mapping. -/
def modifyEntries (n : Nat) (f : Node → Node) : List (Scalar × Node) → List (Scalar × Node)
  | [] => []
  | (key, value) :: rest => (key, modify n f value) :: modifyEntries n f rest
end

end Node

end ProtoShape
