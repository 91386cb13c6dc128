import ProtoShape.Json.Writer
import ProtoShape.Rules.Union
import ProtoShape.Text.Basic

/-!
# Alternatives that restate a property

In a union of two, one member may be a titled shorthand for a property of the
other.  `dropShorthand` then keeps the other member only.  The match is
textual: the reference or the type of the property occurs in the JSON text of
the shorthand.
-/

namespace ProtoShape.Rules

variable {τ : Type}

/-- The title of a member that could be a shorthand: a reference, or a schema of
a primitive type, with a title. -/
def shorthandTitle? (member : Tree τ) : Option String :=
  match member.fields? with
  | none => none
  | some fields =>
      match Fields.text? fields "title" with
      | none => none
      | some title =>
          if title ≠ "" && (Fields.isReference fields || hasPrimitiveType fields) then some title
          else none

/-- Whether the reference or the type of the property `title` occurs in
`content`. -/
def propertyEchoed (properties : Option (Tree τ)) (title content : String) : Bool :=
  match ((properties.bind Tree.fields?).bind (·.get? title)).bind Tree.fields? with
  | none => false
  | some property =>
      let occurs (text : Option String) : Bool :=
        match text with
        | some s => s ≠ "" && Text.contains content s
        | none => false
      occurs (Fields.ref? property) || occurs (Fields.text? property "type")

/-- Whether a part of an `allOf`, or what it refers to, has an overlapping
property.  A reference that leads nowhere has none. -/
def partEchoed (document part : Tree τ) (title content : String) : Bool :=
  match part.resolved document with
  | .ok target =>
      match target.fields? with
      | some fields => propertyEchoed (fields.get? "properties") title content
      | none => false
  | .error _ => false

/-- Whether a schema, or a part of its `allOf`, has an overlapping property. -/
def schemaEchoed (document : Tree τ) (fields : Fields τ) (title content : String) : Bool :=
  match Fields.items? fields "allOf" with
  | some parts => parts.any fun part => partEchoed document part title content
  | none =>
      Fields.hasText fields "type" "object" &&
        propertyEchoed (fields.get? "properties") title content

/-- What looking at one member as a shorthand of the other gives. -/
inductive Restatement where
  | no
  | yes
  | unresolved (problem : Unresolved)
  /-- The shorthand has no JSON text. -/
  | unwritable (reason : Json.Unwritable)

/-- Whether `shorthand` is a titled shorthand for a property of `other`.  The shorthand is
written when the other member is known to be a mapping. -/
def restatement (document shorthand other : Tree τ) : Restatement :=
  match shorthandTitle? shorthand with
  | none => .no
  | some title =>
      match other.resolved document with
      | .error problem => .unresolved problem
      | .ok target =>
          match target.fields? with
          | none => .no
          | some fields =>
              match Json.text Json.compact shorthand with
              | .error reason => .unwritable reason
              | .ok content => if schemaEchoed document fields title content then .yes else .no

/-- The fields of a schema after its union `key` has given way to `other`. -/
def keepMember (fields : Fields τ) (key : String) (other : Tree τ) : Fields τ :=
  match other.fields? with
  | some member => (fields.erase key).overlay member
  | none => fields.erase key

/-- Looks for a shorthand in the unions of two under the given keys.  The result
holds the diagnostics of references that lead nowhere, and the new fields if
there is a shorthand; a shorthand that cannot be written stops the search. -/
def dropShorthandIn (document : Tree τ) (location : Location) (fields : Fields τ) :
    List String → List Diagnostic × Except Json.Unwritable (Option (Fields τ))
  | [] => ([], .ok none)
  | key :: keys =>
      match Fields.items? fields key with
      | some [first, second] =>
          let report (index : Nat) (problem : Unresolved) :=
            ((location.child key).item index).diagnostic "unresolved_reference" problem.message
          match restatement document first second with
          | .yes => ([], .ok (some (keepMember fields key second)))
          | .unwritable reason => ([], .error reason)
          | outcome =>
              let before := match outcome with
                | .unresolved problem => [report 1 problem]
                | _ => []
              match restatement document second first with
              | .yes => (before, .ok (some (keepMember fields key first)))
              | .unwritable reason => (before, .error reason)
              | outcome =>
                  let between := match outcome with
                    | .unresolved problem => [report 0 problem]
                    | _ => []
                  let (after, result) := dropShorthandIn document location fields keys
                  (before ++ between ++ after, result)
      | _ => dropShorthandIn document location fields keys

/-- Drops a titled alternative that restates a property of the other one. -/
def dropShorthand (document : Tree τ) (location : Location) (fields : Fields τ) :
    List Diagnostic × Except Json.Unwritable (Option (Fields τ)) :=
  dropShorthandIn document location fields ["oneOf", "anyOf"]

end ProtoShape.Rules
