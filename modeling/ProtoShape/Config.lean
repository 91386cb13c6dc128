/-!
# Configurations

The options of the reshaping, and what else can be configured.
-/

namespace ProtoShape

/-- What can be chosen about the reshaping. -/
structure Options where
  /-- The names in whose schemas a single map gives way to its value type. -/
  inlineContexts : List String
  /-- Whether the key of such a map is kept as a property of the value type. -/
  injectOnInline : Bool
  /-- Is appended to a component name to name its single map. -/
  singleMapSuffix : String
  /-- The type that stands for `null`. -/
  nullTypeName : String
  /-- The property that holds the key of a map. -/
  fieldProperty : String
  /-- The property that holds a primitive value. -/
  primitiveValueKey : String
  /-- Marks a schema whose properties exclude each other. -/
  schemaFlag : String
  /-- Marks a property that excludes its neighbours. -/
  propertyFlag : String
  /-- Holds a readable note on such a property, if there is to be one. -/
  annotationFlag : Option String
deriving DecidableEq, Repr

/-- The options where nothing is chosen. -/
def Options.standard : Options where
  inlineContexts := ["QueryContainer"]
  injectOnInline := true
  singleMapSuffix := "SingleMap"
  nullTypeName := "NullValue"
  fieldProperty := "field"
  primitiveValueKey := "value"
  schemaFlag := "x-oneof-schema"
  propertyFlag := "x-oneof-property"
  annotationFlag := some "x-oneof-annotation"

instance : Inhabited Options := ⟨.standard⟩

/-- Where and how the reshaped document is written. -/
structure Output where
  path : Option String
  format : String
deriving DecidableEq, Repr

/-- A configuration of the program. -/
structure Config where
  version : String
  document : Option String
  options : Options
  output : Output
deriving DecidableEq, Repr

/-- The configuration where nothing is given. -/
def Config.standard : Config where
  version := "v1"
  document := none
  options := .standard
  output := ⟨none, "yaml"⟩

end ProtoShape
