import ProtoShape.Fault
import ProtoShape.Json.Writer
import ProtoShape.Layout

/-!
# Unions of literals and of lists

`constsToEnum` turns a union of constants into an enumeration.
`dropListCovered` removes from a union every member whose shape is also the
shape of the items of an array member, as a list of one stands for the item.  A shape
may have no text; then the comparison stops (`listCoverFault?`).
-/

namespace ProtoShape.Rules

variable {τ : Type}

/-- The types without parts. -/
def primitiveTypeNames : List String := ["boolean", "integer", "number", "string"]

/-- Whether a node is the name of a primitive type. -/
def isPrimitiveName (t : Tree τ) : Bool :=
  match t.text? with
  | some name => primitiveTypeNames.contains name
  | none => false

/-- Whether the type of a schema is primitive. -/
def hasPrimitiveType (fields : Fields τ) : Bool :=
  match fields.get? "type" with
  | some type => isPrimitiveName type
  | none => false

/-- The JSON type that a literal has, for literals without parts. -/
def literalType? : Tree τ → Option String
  | .scalar _ (.bool _) => some "boolean"
  | .scalar _ (.int _) => some "integer"
  | .scalar _ (.float _) => some "number"
  | .scalar _ (.text _) => some "string"
  | _ => none

/-- The JSON type that all literals share, else `string`. -/
def sharedType (literals : List (Tree τ)) : String :=
  match literals.map literalType? with
  | some type :: rest => if rest.all (· == some type) then type else "string"
  | _ => "string"

/-- The constant of an inline member. -/
def const? (member : Tree τ) : Option (Tree τ) :=
  match member.fields? with
  | some fields => if Fields.isReference fields then none else fields.get? "const"
  | none => none

/-- What a member contributes to an enumeration: its constant, or the name of its
primitive type. -/
def literal? (member : Tree τ) : Option (Tree τ) :=
  match member.fields? with
  | some fields =>
      if Fields.isReference fields then none
      else (fields.get? "const").or ((fields.get? "type").filter isPrimitiveName)
  | none => none

/-- Replaces a `oneOf` with a constant among its members by an enumeration. -/
def constsToEnum [Inhabited τ] (fields : Fields τ) : Option (Fields τ) :=
  match Fields.items? fields "oneOf" with
  | none => none
  | some members =>
      if members.any fun member => (const? member).isSome then
        let literals := members.filterMap literal?
        some (((fields.erase "oneOf").insert "type" (.ofText (sharedType literals))).insert
          "enum" (.ofList literals))
      else none

/-- The keywords that make the shape of a schema. -/
def shapeKeywords : List String := ["type", "$ref", "additionalProperties"]

/-- The fields that make the shape of a schema. -/
def shapeFields (fields : Fields τ) : List (Scalar × Tree τ) :=
  shapeKeywords.filterMap fun (key : String) => (fields.get? key).map fun value =>
    (.text key, value)

/-- The shape of a schema as a canonical text, or the reason why it cannot be written; a
schema with none of the keywords has no shape. -/
def shape? [Inhabited τ] (fields : Fields τ) : Option (Except Json.Unwritable String) :=
  match shapeFields fields with
  | [] => none
  | shape => some (Json.text Json.canonical (Tree.ofEntries shape))

/-- The `items` of an array schema, whatever they are. -/
def arrayItems? (member : Tree τ) : Option (Tree τ) :=
  match member.fields? with
  | some fields => if Fields.hasText fields "type" "array" then fields.get? "items" else none
  | none => none

/-- The fields of the items of an array schema. -/
def arrayItemFields? (member : Tree τ) : Option (Fields τ) := (arrayItems? member).bind Tree.fields?

/-- Whether a member is no array and has one of the shapes. -/
def isSubsumed [Inhabited τ] (shapes : List (Except Json.Unwritable String)) (member : Tree τ) :
    Bool :=
  match member.fields? with
  | some fields =>
      (arrayItems? member).isNone &&
        match shape? fields with
        | some shape => shapes.contains shape
        | none => false
  | none => false

/-- The shapes of the items of the array members. -/
def shapesOfItems [Inhabited τ] (members : List (Tree τ)) : List (Except Json.Unwritable String) :=
  members.filterMap fun member => (arrayItemFields? member).bind shape?

/-- Drops the members of a `oneOf` that an array member covers. -/
def dropListCovered [Inhabited τ] (fields : Fields τ) : Option (Fields τ) :=
  match fields.get? "oneOf" with
  | some (.list tag members) =>
      let shapes := shapesOfItems members
      if members.any (isSubsumed shapes) then
        some (fields.insert "oneOf" (.list tag (members.filter fun m => !isSubsumed shapes m)))
      else none
  | _ => none

/-- The fields of a member that is no array. -/
def otherFields? (member : Tree τ) : Option (Fields τ) :=
  if (arrayItems? member).isSome then none else member.fields?

/-- The schemas whose shapes are compared, in their order: first the items of the array
members, then the other members, if there is anything to compare them with. -/
def comparedSchemas [Inhabited τ] (members : List (Tree τ)) : List (Fields τ) :=
  members.filterMap arrayItemFields? ++
    if (shapesOfItems members).isEmpty then [] else members.filterMap otherFields?

/-- The fault of comparing shapes: the first shape that cannot be written stops it. -/
def listCoverFault? [Inhabited τ] (fields : Fields τ) : Option Fault :=
  match Fields.items? fields "oneOf" with
  | none => none
  | some members =>
      (comparedSchemas members).findSome? fun schema => (shape? schema).bind Fault.ofText?

end ProtoShape.Rules
