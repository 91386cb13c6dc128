import ProtoShape.Json.Order
import ProtoShape.Text.Quoted

/-!
# Faults and what messages show

A phase stops at a document that is not shaped as a JSON document in the places
where it matters: a mapping with keys that are no texts where texts are needed,
or a `components` section that cannot take a new schema.  It also stops where two
values are compared by their JSON texts and one of them has none.

A message shows a value on one line: texts quoted, lists in brackets, mappings
in braces in their own order, and the words `None`, `True` and `False`.
-/

namespace ProtoShape

/-- Why a phase or a check stops. -/
inductive Fault where
  /-- A key that is no text stands where annotations are looked for. -/
  | keyNotText (kind : String)
  /-- A value that is compared by its JSON text has none. -/
  | unwritable (reason : Json.Unwritable)
  /-- A property group that is to be listed has a key that is no text. -/
  | nameNotText (index : Nat) (kind : String)
  /-- What is to be listed has no parts. -/
  | nothingToList
  /-- The document or a node of it is no mapping. -/
  | notMapping (kind : String)
  /-- `components` is no mapping. -/
  | componentsNotMapping (kind : String)
  /-- `components.schemas` holds no names. -/
  | schemasWithoutNames (kind : String)
  /-- `components.schemas` is a list. -/
  | schemasList
  /-- `components.schemas` is a text. -/
  | schemasText
deriving DecidableEq, Repr

/-- The wording of a fault. -/
def Fault.message : Fault → String
  | keyNotText kind => s!"'{kind}' object has no attribute 'startswith'"
  | unwritable reason => reason.message
  | nameNotText index kind => s!"sequence item {index}: expected str instance, {kind} found"
  | nothingToList => "can only join an iterable"
  | notMapping kind => s!"'{kind}' object has no attribute 'get'"
  | componentsNotMapping kind => s!"'{kind}' object has no attribute 'setdefault'"
  | schemasWithoutNames kind => s!"argument of type '{kind}' is not iterable"
  | schemasList => "list indices must be integers or slices, not str"
  | schemasText => "'str' object does not support item assignment"

/-- The fault of writing a value that has no text. -/
def Fault.ofText? {α : Type} : Except Json.Unwritable α → Option Fault
  | .ok _ => none
  | .error reason => some (.unwritable reason)

/-- The fault of taking a tree for a mapping. -/
def Tree.mappingFault? {τ : Type} : Tree τ → Option Fault
  | .map _ _ => none
  | other => some (.notMapping other.kindName)

/-! ## Values inside messages -/

/-- A scalar inside a message. -/
def Scalar.shown : Scalar → String
  | .text s => Text.quoted s
  | .foreign value => value.shown
  | s => s.label

namespace Tree

variable {τ : Type}

mutual
/-- A value inside a message. -/
def shown : Tree τ → String
  | scalar _ s => s.shown
  | list _ items => "[" ++ ", ".intercalate (shownItems items) ++ "]"
  | map _ ⟨entries⟩ => "\x7b" ++ ", ".intercalate (shownEntries entries) ++ "\x7d"

/-- The items of a list inside a message. -/
def shownItems : List (Tree τ) → List String
  | [] => []
  | item :: rest => item.shown :: shownItems rest

/-- The entries of a mapping inside a message. -/
def shownEntries : List (Scalar × Tree τ) → List String
  | [] => []
  | (key, value) :: rest => (key.shown ++ ": " ++ value.shown) :: shownEntries rest
end

end Tree

end ProtoShape
