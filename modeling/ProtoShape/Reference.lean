import ProtoShape.Location
import ProtoShape.Text.Integer
import ProtoShape.Text.Basic
import ProtoShape.Text.Quoted
import ProtoShape.Tree

/-!
# References

A mapping whose `$ref` is a text is a reference.  The text is a JSON pointer
into the same document.  `Tree.resolve` follows it; the token for an item of a
list may be any integer, and a negative one counts from the end.
-/

namespace ProtoShape

/-- Why a reference does not lead to a node. -/
inductive Unresolved.Reason where
  | notLocal
  | keyNotFound (key : String)
  | badIndex (token : String)
  | cannotDescend (kind : String)
  | cycle
deriving DecidableEq, Repr

/-- A reference that does not lead to a node. -/
structure Unresolved where
  ref : String
  reason : Unresolved.Reason
deriving DecidableEq, Repr

/-- The wording of a reason. -/
def Unresolved.Reason.message : Unresolved.Reason → String
  | notLocal => "only document-local references are supported"
  | keyNotFound key => s!"key {Text.quoted key} not found"
  | badIndex token => s!"invalid list index {Text.quoted token}"
  | cannotDescend kind => s!"cannot descend into {kind}"
  | cycle => "reference cycle"

/-- The wording of a failed resolution. -/
def Unresolved.message (e : Unresolved) : String :=
  s!"Cannot resolve {Text.quoted e.ref}: {e.reason.message}"

namespace Pointer

/-- Undoes `escapeToken`; a `~` that starts no escape stands for itself. -/
def unescapeToken : List Char → List Char
  | [] => []
  | '~' :: '0' :: rest => '~' :: unescapeToken rest
  | '~' :: '1' :: rest => '/' :: unescapeToken rest
  | c :: rest => c :: unescapeToken rest

/-- The tokens of a pointer to a node of the same document. -/
def tokens? (ref : String) : Option (List String) :=
  match ref.toList with
  | ['#'] => some []
  | '#' :: '/' :: rest =>
      some ((Text.split '/' rest).map fun token => String.ofList (unescapeToken token))
  | _ => none

/-- The pointer to a component schema. -/
def toComponent (name : String) : String :=
  "#/components/schemas/" ++ String.ofList (escapeToken name.toList)

/-- The last token of a pointer. -/
def lastToken (ref : String) : String :=
  String.ofList (unescapeToken ((Text.split '/' ref.toList).getLastD []))

end Pointer

/-- The item of a list at an index; a negative index counts from the end. -/
def itemAt? {α : Type} (items : List α) (index : Int) : Option α :=
  if 0 ≤ index then items[index.toNat]?
  else if index.natAbs ≤ items.length then items[items.length - index.natAbs]?
  else none

namespace Tree

variable {τ : Type}

/-- The node one pointer token below. -/
def step (t : Tree τ) (token : String) : Except Unresolved.Reason (Tree τ) :=
  match t with
  | map _ entries =>
      match entries.get? token with
      | some value => .ok value
      | none => .error (.keyNotFound token)
  | list _ items =>
      match (Text.integer? token).bind (itemAt? items) with
      | some item => .ok item
      | none => .error (.badIndex token)
  | scalar _ s => .error (.cannotDescend s.kindName)

/-- The node that a reference text leads to. -/
def resolve (document : Tree τ) (ref : String) : Except Unresolved (Tree τ) :=
  match Pointer.tokens? ref with
  | none => .error ⟨ref, .notLocal⟩
  | some tokens =>
      match tokens.foldlM Tree.step document with
      | .ok t => .ok t
      | .error reason => .error ⟨ref, reason⟩

end Tree

namespace Fields

variable {τ : Type}

/-- The text that a keyword holds. -/
def text? (fields : Fields τ) (key : String) : Option String := (fields.get? key).bind Tree.text?

/-- The items of the list that a keyword holds. -/
def items? (fields : Fields τ) (key : String) : Option (List (Tree τ)) :=
  (fields.get? key).bind Tree.items?

/-- The entries of the mapping that a keyword holds. -/
def map? (fields : Fields τ) (key : String) : Option (Fields τ) :=
  (fields.get? key).bind Tree.fields?

/-- The text of the `$ref` keyword. -/
def ref? (fields : Fields τ) : Option String := text? fields "$ref"

/-- Whether the mapping is a reference. -/
def isReference (fields : Fields τ) : Bool := (ref? fields).isSome

/-- Whether a keyword holds this text. -/
def hasText (fields : Fields τ) (key text : String) : Bool := text? fields key == some text

end Fields

namespace Tree

variable {τ : Type}

/-- The text that a reference refers with. -/
def ref? (t : Tree τ) : Option String := t.fields?.bind Fields.ref?

/-- Whether the node is a reference. -/
def isReference (t : Tree τ) : Bool := t.ref?.isSome

/-- The node that `t` refers to in a document, or `t` where it is no reference.
One reference is followed, not a chain. -/
def resolved (t document : Tree τ) : Except Unresolved (Tree τ) :=
  match t.ref? with
  | some ref => document.resolve ref
  | none => .ok t

end Tree

end ProtoShape
