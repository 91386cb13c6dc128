import ProtoShape.Reference

/-!
# Where schemas stand

An OpenAPI document is a mapping with a fixed grammar above its schemas, and a
schema holds further schemas under a few keywords.  `Role` names the parts of the
document and `slots` lists for each part the keywords that lead on, in the order
in which they are visited.  A slot says how its value is spread: over one node,
over the entries of a mapping or over the elements of a list.

Every function that visits schemas is driven by this one table.
-/

namespace ProtoShape

/-- How a schema is reached from the mapping around it: as a whole schema (a
named or a content schema, or a member of a union), or as a property. -/
inductive Hook where
  | schema
  | property
deriving DecidableEq, Repr

/-- The parts of a document on the way to its schemas. -/
inductive Role where
  | document
  | path
  | operation
  | parameter
  | content
  | media
  | components
  | schema (hook : Hook)
deriving DecidableEq, Repr

/-- How the value of a keyword is spread over parts. -/
inductive Spread where
  | single
  | entries
  | elements
deriving DecidableEq, Repr

/-- What stands at a place: parts of one role, spread in one way.  The entries
of a `named` place give their keys as names to the schemas below them. -/
structure Place where
  spread : Spread
  role : Role
  named : Bool
deriving DecidableEq, Repr

/-- One part of a role. -/
def Place.one (role : Role) : Place := ⟨.single, role, false⟩

/-- A keyword and what stands there. -/
structure Slot where
  key : String
  place : Place
deriving DecidableEq, Repr

/-- The operations of a path, in the order in which they are visited. -/
def operationKeys : List String :=
  ["get", "put", "post", "delete", "options", "head", "patch", "trace"]

/-- The keywords that combine schemas. -/
def combiningKeys : List String := ["allOf", "anyOf", "oneOf"]

namespace Role

/-- The keywords of a part that lead on to schemas. -/
def slots : Role → List Slot
  | document => [
      ⟨"paths", .entries, path, false⟩,
      ⟨"components", .single, components, false⟩]
  | path =>
      ⟨"parameters", .elements, parameter, false⟩ ::
        operationKeys.map fun method => ⟨method, .single, operation, false⟩
  | operation => [
      ⟨"parameters", .elements, parameter, false⟩,
      ⟨"requestBody", .single, content, false⟩,
      ⟨"responses", .entries, content, false⟩]
  | parameter => [
      ⟨"schema", .single, schema .schema, false⟩,
      ⟨"content", .entries, media, false⟩]
  | content => [⟨"content", .entries, media, false⟩]
  | media => [⟨"schema", .single, schema .schema, false⟩]
  | components => [
      ⟨"parameters", .entries, parameter, true⟩,
      ⟨"requestBodies", .entries, content, true⟩,
      ⟨"responses", .entries, content, true⟩,
      ⟨"schemas", .entries, schema .schema, true⟩]
  | schema _ => [
      ⟨"items", .single, schema .property, false⟩,
      ⟨"additionalProperties", .single, schema .property, false⟩,
      ⟨"properties", .entries, schema .property, false⟩,
      ⟨"allOf", .elements, schema .schema, false⟩,
      ⟨"anyOf", .elements, schema .schema, false⟩,
      ⟨"oneOf", .elements, schema .schema, false⟩,
      ⟨"not", .single, schema .property, false⟩]

/-- Whether a reference in this role is passed over. -/
def skipsReferences : Role → Bool
  | parameter | content | schema _ => true
  | _ => false

/-- Whether a mapping takes this role. -/
def admits {τ : Type} (role : Role) (fields : Fields τ) : Bool :=
  !(role.skipsReferences && Fields.isReference fields)

end Role

/-- Where a visit has got to: the place, and the name of the component or
operation around it. -/
structure Site where
  name : Option String
  location : Location
deriving DecidableEq, Repr

namespace Site

/-- The whole document. -/
def root : Site := ⟨none, .root⟩

/-- The site of the value of a keyword. -/
def below (site : Site) (key : String) : Site :=
  { site with location := site.location.child key }

/-- The site of an entry of a place. -/
def entry (site : Site) (place : Place) (key : Scalar) : Site :=
  ⟨if place.named then some key.label else site.name, site.location.child key.label⟩

/-- The site of an element of a list. -/
def element (site : Site) (index : Nat) : Site :=
  { site with location := site.location.item index }

/-- The site with the name that a part gives to the schemas below it: an
operation has its identifier, if it is a text. -/
def inside {τ : Type} (site : Site) (role : Role) (fields : Fields τ) : Site :=
  match role with
  | .operation => { site with name := Fields.text? fields "operationId" }
  | _ => site

end Site

end ProtoShape
