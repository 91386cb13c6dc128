import ProtoShape.Layout
import ProtoShape.Reshape.MapKey
import ProtoShape.Text.Basic

/-!
# Second phase: maps and unions

Three rules are applied to every inline schema.  `referSingleMap` replaces a single
map by a reference, to a component generated for it or, in an exempted context,
to its value type.  The other two are `Rules.titledToProperty` and
`Rules.membersToProperties`.

The rules may patch schemas and add components while the walk goes on.  So the
walk goes by number, reads a keyword when it comes to it, and follows what it
read there, even if the list or mapping changes in the meantime.
-/

namespace ProtoShape

namespace Step

/-- The schema that a single map gives way to, in an exempted context. -/
def inlineSingleMap (n : Nat) (additional : Node) (location : Location) : Step Unit := do
  let run ← get
  let wrapped ← match additional.tag with
    | some target =>
        if run.options.injectOnInline then
          giveKey target (location.child "additionalProperties")
        else pure none
    | none => pure none
  modifyFields n fun fields =>
    let rest := fields.eraseAll Rules.mapKeywords
    match wrapped with
    | some key => rest.overlay (wrapperOf key additional)
    | none =>
        match additional.ref? with
        | some ref => rest.insert "$ref" (.ofText ref)
        | none => rest

/-- Remembers the component generated for a value type. -/
def markGenerated (target : Identity) (name : String) : Step Unit :=
  modify fun run => { run with valueComponents := run.valueComponents ++ [(target, name)] }

/-- Turns a single map into a reference to its component. -/
def referToComponent (n : Nat) (name : String) : Step Unit :=
  modifyFields n fun fields =>
    (fields.eraseAll Rules.mapKeywords).insert "$ref" (.ofText (Pointer.toComponent name))

/-- The value of a keyword of the mapping with a number, made an empty mapping
where it is absent. -/
def entryOrEmpty (n : Nat) (key : String) : Step Node := do
  match (← fields? n).bind (·.get? key) with
  | some value => return value
  | none => do
      modifyFields n (·.insert key (.map default ∅))
      return ((← fields? n).bind (·.get? key)).getD default

end Step

namespace RiskyStep

/-- The value of `components.schemas`, with both made where they are absent. -/
def schemas : RiskyStep Node := do
  match (← get).document with
  | .map (some root) _ =>
      match ← (Step.entryOrEmpty root "components" : Step Node) with
      | .map (some components) _ => (Step.entryOrEmpty components "schemas" : Step Node)
      | other => throw (.componentsNotMapping other.kindName)
  | other => throw (.componentsNotMapping other.kindName)

/-- Whether a name is taken in the value of `components.schemas`.  A list takes
its texts and a text what occurs in it. -/
def isTaken (schemas : Node) (name : String) : Except Fault Bool :=
  match schemas with
  | .map _ entries => .ok (entries.contains name)
  | .list _ items => .ok (items.any (·.isText name))
  | .scalar _ (.text s) => .ok (Text.contains s name)
  | .scalar _ s => .error (.schemasWithoutNames s.kindName)

/-- Adds a component to `components.schemas`. -/
def addComponent (schemas : Node) (name : String) (component : Node) : RiskyStep Unit :=
  match schemas with
  | .map (some n) _ => (Step.modifyFields n (·.insert name component) : Step Unit)
  | .list _ _ => throw .schemasList
  | _ => throw .schemasText

/-- The component for the single maps of a value type, generated where there is
none yet.  There is no result where its name is taken. -/
def componentFor (target : Identity) (ref : String) (keySchema : Option Node)
    (location : Location) : RiskyStep (Option String) := do
  let run ← get
  match run.valueComponents.lookup target with
  | some name => return some name
  | none => do
      let source := Pointer.lastToken ref
      let name := Naming.generated source run.options.singleMapSuffix
      let schemas ← schemas
      if ← isTaken schemas name then
        (Step.report (location.diagnostic "naming_conflict"
          s!"Component {Text.quoted name} already exists; single map left inline."
          "error") : Step Unit)
        return none
      else
        addComponent schemas name
          (Rules.keyValueComponent source ref keySchema run.options.fieldProperty)
        (Step.markGenerated target name : Step Unit)
        return some name

/-- Replaces a single map by a reference and tells whether it did.  `context` is
the name around the schema. -/
def referSingleMap (context : Option String) (location : Location) (n : Nat) :
    RiskyStep Bool := do
  let run ← get
  match (run.node? n).bind Tree.fields? with
  | none => return false
  | some fields =>
      match fields.get? "additionalProperties" with
      | none => return false
      | some additional =>
          match additional.ref? with
          | none => return false
          | some ref =>
              if !Rules.isSingleMap fields then return false
              else
                match run.document.resolve ref with
                | .error problem => do
                    (Step.report
                      (location.diagnostic "unresolved_reference" problem.message) : Step Unit)
                    return false
                | .ok target =>
                    if context.any run.options.inlineContexts.contains then do
                      (Step.inlineSingleMap n additional location : Step Unit)
                      return true
                    else
                      match ← componentFor (Node.identity target) ref
                          (fields.get? "propertyNames") location with
                      | none => return false
                      | some name => do
                          (Step.referToComponent n name : Step Unit)
                          return true

/-- The rules of the second phase on one schema. -/
def reshapeSchema (name : Option String) (location : Location) (n : Nat) :
    RiskyStep Unit := do
  let _ ← referSingleMap name location n
  let _ ← (Step.apply Rules.titledToProperty n : Step Bool)
  let _ ← (Step.apply Rules.membersToProperties n : Step Bool)

/-- Applies `visit` to the inline schemas at and below the node with a tag, the
lower ones first.  `fuel` bounds the depth. -/
def walk (visit : Option String → Location → Nat → RiskyStep Unit) :
    Nat → Place → Site → Tag → RiskyStep Unit
  | 0, _, _, _ => pure ()
  | _, _, _, none => pure ()
  | fuel + 1, place, site, some n => do
      match place.spread, (← get).node? n with
      | .elements, some (.list _ items) =>
          items.zipIdx.forM fun (item, index) =>
            walk visit fuel (.one place.role) (site.element index) item.tag
      | .entries, some (.map _ entries) =>
          entries.toList.forM fun (key, value) =>
            walk visit fuel (.one place.role) (site.entry place key) value.tag
      | .single, some (.map _ fields) =>
          if place.role.admits fields then do
            let inner := site.inside place.role fields
            place.role.slots.forM fun slot => do
              match (((← get).node? n).bind Tree.fields?).bind (·.get? slot.key) with
              | some value => walk visit fuel slot.place (inner.below slot.key) value.tag
              | none => pure ()
            match place.role with
            | .schema _ => visit site.name site.location n
            | _ => pure ()
          else pure ()
      | _, _ => pure ()

/-- A bound for the depth of the walk, from the number of nodes at its start.  The document
may grow while the walk goes on: every node gives the rules a few chances to apply, and
where one applies, it brings in a few nodes for each member of a union. -/
def depthBound (nodes : Nat) : Nat := 64 * (nodes * nodes * nodes)

/-- Applies the rules of the second phase to every inline schema. -/
def reshapeMaps : RiskyStep Unit := do
  let run ← get
  walk reshapeSchema (depthBound (run.document.nodeCount + run.aside.nodeCount))
    (.one .document) .root run.document.tag

end RiskyStep

end ProtoShape
