import ProtoShape.Fault
import ProtoShape.Layout

/-!
# Marks on exclusive groups

At most one property of a schema with `maxProperties: 1` is ever present.
`markExclusive` marks the schema and each of its properties, and puts a readable
note on the properties.  A schema is also marked when a part of its `allOf` is
exclusive.
-/

namespace ProtoShape.Rules

variable {τ : Type}

/-- Whether a keyword holds the number one. -/
def holdsOne (fields : Fields τ) (key : String) : Bool :=
  match fields.get? key with
  | some (.scalar _ s) => s.isOne
  | _ => false

/-- Whether at most one property may be present. -/
def isExclusiveGroup (fields : Fields τ) : Bool := holdsOne fields "maxProperties"

/-- The note that lists the names of a group. -/
def noteFor (names : List String) : String := ", ".intercalate names ++ " are mutual exclusive"

/-- The note that lists a group of properties. -/
def groupNote (properties : Fields τ) : String := noteFor (properties.keys.map Scalar.label)

/-- The fault of listing a group: the first key that is no text. -/
def noteFault? (properties : Fields τ) : Option Fault :=
  properties.keys.zipIdx.findSome? fun (key, index) =>
    if key.text?.isSome then none else some (.nameNotText index key.kindName)

/-- The fault of listing the items of a list: the first one that is no text. -/
def itemFault? (items : List (Tree τ)) : Option Fault :=
  items.zipIdx.findSome? fun (item, index) =>
    if item.text?.isSome then none else some (.nameNotText index item.kindName)

/-- The note that lists what a node consists of: the keys of a mapping, the items of
a list, or the characters of a text. -/
def noteOn (t : Tree τ) : Except Fault String :=
  match t with
  | .map _ properties =>
      match noteFault? properties with
      | some fault => .error fault
      | none => .ok (groupNote properties)
  | .list _ items =>
      match itemFault? items with
      | some fault => .error fault
      | none => .ok (noteFor (items.filterMap Tree.text?))
  | .scalar _ (.text s) => .ok (noteFor (s.toList.map Char.toString))
  | .scalar _ _ => .error .nothingToList

/-- The names of the marks. -/
structure Flags where
  schema : String
  property : String
  annotation : Option String

variable [Inhabited τ]

/-- A property with its marks; what is no mapping cannot be marked. -/
def markProperty (flags : Flags) (note : String) (property : Tree τ) : Tree τ :=
  match property with
  | .map tag fields =>
      let fields := fields.insert flags.property (.ofBool true)
      match flags.annotation.filter (· ≠ "") with
      | some annotation => .map tag (fields.insert annotation (.ofText note))
      | none => .map tag fields
  | other => other

/-- Marks an exclusive schema and its properties. -/
def markGroup (flags : Flags) (fields : Fields τ) : Option (Fields τ) :=
  match fields.get? "properties" with
  | some (.map tag properties) =>
      if isExclusiveGroup fields then
        let marked := properties.mapValues (markProperty flags (groupNote properties))
        some ((fields.insert "properties" (.map tag marked)).insert flags.schema (.ofBool true))
      else none
  | _ => none

/-- Whether a part of the `allOf` is inline and exclusive. -/
def hasExclusivePart (fields : Fields τ) : Bool :=
  ((Fields.items? fields "allOf").getD []).any fun part =>
    match part.fields? with
    | some fields => !Fields.isReference fields && isExclusiveGroup fields
    | none => false

/-- Marks a schema with an exclusive part. -/
def markComposite (flags : Flags) (fields : Fields τ) : Option (Fields τ) :=
  if hasExclusivePart fields then some (fields.insert flags.schema (.ofBool true)) else none

/-- Marks a schema where it is exclusive by itself or by a part. -/
def markExclusive (flags : Flags) (fields : Fields τ) : Option (Fields τ) :=
  match markGroup flags fields with
  | some tagged => some ((markComposite flags tagged).getD tagged)
  | none => markComposite flags fields

/-- The fault of marking a schema. -/
def exclusivityFault? (fields : Fields τ) : Option Fault :=
  if isExclusiveGroup fields then (Fields.map? fields "properties").bind noteFault? else none

end ProtoShape.Rules
