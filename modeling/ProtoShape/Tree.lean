import ProtoShape.Entries

/-!
# Trees of scalars, lists and mappings

The shape shared by every JSON or YAML value.  Each node carries a tag.  A
`Value` has trivial tags.  A `Node` is a value whose nodes have been numbered, so
that one place of a document can be told from an equal one elsewhere, also after
the node has been moved.

No two places of a tree share a node: what a document repeats by an alias stands
in it twice.  A tree may be nested to any depth.
-/

namespace ProtoShape

/-- A scalar, a list or a mapping, with a tag on every node. -/
inductive Tree (τ : Type) where
  | scalar (tag : τ) (value : Scalar)
  | list (tag : τ) (items : List (Tree τ))
  | map (tag : τ) (entries : Entries (Tree τ))

/-- The keywords of a mapping with the nodes that they hold. -/
abbrev Fields (τ : Type) := Entries (Tree τ)

/-- A value as it is read and written. -/
abbrev Value := Tree Unit

/-- The number of a node.  A node that a rule has made, and that has not been
numbered yet, has none. -/
abbrev Tag := Option Nat

/-- A value whose nodes are numbered. -/
abbrev Node := Tree Tag

namespace Tree

variable {τ σ : Type}

instance [Inhabited τ] : Inhabited (Tree τ) := ⟨scalar default .null⟩

/-- The tag of the root. -/
def tag : Tree τ → τ
  | scalar t _ => t
  | list t _ => t
  | map t _ => t

/-- A text leaf made by a rule. -/
def ofText [Inhabited τ] (s : String) : Tree τ := scalar default (.text s)

/-- An integer leaf made by a rule. -/
def ofInt [Inhabited τ] (i : Int) : Tree τ := scalar default (.int i)

/-- A boolean leaf made by a rule. -/
def ofBool [Inhabited τ] (b : Bool) : Tree τ := scalar default (.bool b)

/-- A list made by a rule. -/
def ofList [Inhabited τ] (items : List (Tree τ)) : Tree τ := list default items

/-- A mapping made by a rule. -/
def ofEntries [Inhabited τ] (entries : List (Scalar × Tree τ)) : Tree τ := map default ⟨entries⟩

/-- The text of a text leaf. -/
def text? : Tree τ → Option String
  | scalar _ (.text s) => some s
  | _ => none

/-- The items of a list. -/
def items? : Tree τ → Option (List (Tree τ))
  | list _ items => some items
  | _ => none

/-- The entries of a mapping. -/
def fields? : Tree τ → Option (Fields τ)
  | map _ entries => some entries
  | _ => none

/-- Whether the tree is this text. -/
def isText (s : String) (t : Tree τ) : Bool := t.text? == some s

/-- The name of the kind of a value, as messages give it. -/
def kindName : Tree τ → String
  | scalar _ s => s.kindName
  | list _ _ => "list"
  | map _ _ => "dict"

mutual
/-- Applies a function to every tag. -/
def mapTags (f : τ → σ) : Tree τ → Tree σ
  | scalar t s => scalar (f t) s
  | list t items => list (f t) (mapTagsItems f items)
  | map t ⟨entries⟩ => map (f t) ⟨mapTagsEntries f entries⟩

/-- `mapTags` on the items of a list. -/
def mapTagsItems (f : τ → σ) : List (Tree τ) → List (Tree σ)
  | [] => []
  | item :: rest => item.mapTags f :: mapTagsItems f rest

/-- `mapTags` on the entries of a mapping. -/
def mapTagsEntries (f : τ → σ) : List (Scalar × Tree τ) → List (Scalar × Tree σ)
  | [] => []
  | (key, value) :: rest => (key, value.mapTags f) :: mapTagsEntries f rest
end

/-- The value without its tags. -/
def erase (t : Tree τ) : Value := t.mapTags fun _ => ()

mutual
/-- The number of nodes. -/
def nodeCount : Tree τ → Nat
  | scalar _ _ => 1
  | list _ items => 1 + nodeCountItems items
  | map _ ⟨entries⟩ => 1 + nodeCountEntries entries

/-- `nodeCount` over the items of a list. -/
def nodeCountItems : List (Tree τ) → Nat
  | [] => 0
  | item :: rest => item.nodeCount + nodeCountItems rest

/-- `nodeCount` over the entries of a mapping. -/
def nodeCountEntries : List (Scalar × Tree τ) → Nat
  | [] => 0
  | (_, value) :: rest => value.nodeCount + nodeCountEntries rest
end

mutual
/-- Whether a property holds of some key or leaf. -/
def anyScalar (p : Scalar → Bool) : Tree τ → Bool
  | scalar _ s => p s
  | list _ items => anyScalarItems p items
  | map _ ⟨entries⟩ => anyScalarEntries p entries

/-- `anyScalar` over the items of a list. -/
def anyScalarItems (p : Scalar → Bool) : List (Tree τ) → Bool
  | [] => false
  | item :: rest => item.anyScalar p || anyScalarItems p rest

/-- `anyScalar` over the entries of a mapping. -/
def anyScalarEntries (p : Scalar → Bool) : List (Scalar × Tree τ) → Bool
  | [] => false
  | (key, value) :: rest => p key || value.anyScalar p || anyScalarEntries p rest
end

end Tree

end ProtoShape
