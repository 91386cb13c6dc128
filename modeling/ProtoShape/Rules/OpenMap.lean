import ProtoShape.Fault
import ProtoShape.Layout

/-!
# Open maps and the null type

`additionalProperties: true`, and a schema there that constrains nothing, say no
more than that the schema is an object.  `closeOpenMap` says just that.

A schema of type `null`, alone or among others, gets a type with a name of its own
(`renameNull`).
-/

namespace ProtoShape.Rules

variable {τ : Type}

/-- The keywords that give a schema structure.  A title counts, because it names
a property to create. -/
def structuralKeys : List String :=
  ["properties", "allOf", "anyOf", "oneOf", "$ref", "items", "additionalProperties", "title"]

/-- The keywords that only describe. -/
def descriptiveKeys : List String :=
  ["default", "deprecated", "description", "example", "examples", "externalDocs", "nullable",
    "readOnly", "writeOnly"]

/-- Whether a key only describes: an annotation or a vendor extension. -/
def isDescriptive : Scalar → Bool
  | .text key => descriptiveKeys.contains key || "x-".toList.isPrefixOf key.toList
  | _ => false

/-- Whether the fields of a schema constrain nothing structurally.  An object
may carry anything but structure; an untyped schema nothing but annotations. -/
def fieldsUnconstrained (fields : Fields τ) : Bool :=
  match fields.get? "type" with
  | none => fields.keys.all isDescriptive
  | some type => type.isText "object" && !structuralKeys.any (fields.contains ·)

/-- Whether a node is a schema that constrains nothing structurally. -/
def isUnconstrained (schema : Tree τ) : Bool :=
  match schema.fields? with
  | some fields => fieldsUnconstrained fields
  | none => false

/-- Whether a node is `true`. -/
def isTrue : Tree τ → Bool
  | .scalar _ (.bool b) => b
  | _ => false

/-- The first key after the annotations is looked at as a text; this is the
fault where it is none. -/
def unconstrainedFault? (schema : Tree τ) : Option Fault :=
  match schema.fields? with
  | none => none
  | some fields =>
      if fields.contains "type" then none
      else
        match fields.keys.dropWhile isDescriptive with
        | key :: _ => if key.text?.isSome then none else some (.keyNotText key.kindName)
        | [] => none

/-- Turns a map of anything into a plain object. -/
def closeOpenMap [Inhabited τ] (fields : Fields τ) : Option (Fields τ) :=
  match fields.get? "additionalProperties" with
  | none => none
  | some additional =>
      if isTrue additional || isUnconstrained additional then
        some ((fields.insert "type" (.ofText "object")).erase "additionalProperties")
      else none

/-- The fault of looking at the `additionalProperties` of a schema. -/
def openMapFault? (fields : Fields τ) : Option Fault :=
  (fields.get? "additionalProperties").bind unconstrainedFault?

/-- Replaces the type `null` by `sentinel`. -/
def renameNull [Inhabited τ] (sentinel : String) (fields : Fields τ) : Option (Fields τ) :=
  match fields.get? "type" with
  | some (.scalar _ (.text "null")) => some (fields.insert "type" (.ofText sentinel))
  | some (.list _ types) =>
      if types.any (·.isText "null") then
        some (fields.insert "type" (.ofList (types.map fun type =>
          if type.isText "null" then .ofText sentinel else type)))
      else none
  | _ => none

end ProtoShape.Rules
