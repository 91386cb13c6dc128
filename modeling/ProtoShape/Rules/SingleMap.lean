import ProtoShape.Naming
import ProtoShape.Rules.Exclusivity

/-!
# Maps with exactly one entry

An object with `minProperties: 1` and `maxProperties: 1` whose values have a
named type is a single map.  `keyValueComponent` builds the schema that stands
for it: the key in one property and the value in another.
-/

namespace ProtoShape.Rules

variable {τ : Type}

/-- The keywords that make a map. -/
def mapKeywords : List String :=
  ["type", "additionalProperties", "minProperties", "maxProperties", "propertyNames"]

/-- Whether a schema is an object with exactly one property. -/
def isSingleMap (fields : Fields τ) : Bool :=
  Fields.hasText fields "type" "object" && holdsOne fields "minProperties" &&
    holdsOne fields "maxProperties"

variable [Inhabited τ]

/-- The schema of a text. -/
def textSchema : Tree τ := .ofEntries [("type", .ofText "string")]

/-- The property for the value of a single map; it steps aside for the key. -/
def keyOfValue (source field : String) : String :=
  let key := Naming.snakeCase source
  if key = field then key ++ "_value" else key

/-- What the keys of a single map look like: a copy of the schema of the property names, or
plain texts where that is no mapping. -/
def keyPattern (keySchema : Option (Tree τ)) : Tree τ :=
  match keySchema with
  | some (.map tag fields) => (Tree.map tag fields).mapTags fun _ => default
  | _ => textSchema

/-- The component that stands for the single maps of a type. -/
def keyValueComponent (source ref : String) (keySchema : Option (Tree τ)) (field : String) :
    Tree τ :=
  let value := keyOfValue source field
  .ofEntries [
    ("type", .ofText "object"),
    ("properties", .map default (Entries.insert ⟨[(.text field, keyPattern keySchema)]⟩
      (.text value) (.ofEntries [("$ref", .ofText ref)]))),
    ("required", .ofList [.ofText field, .ofText value])]

end ProtoShape.Rules
