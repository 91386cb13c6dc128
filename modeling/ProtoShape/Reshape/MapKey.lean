import ProtoShape.Reshape.Run
import ProtoShape.Rules.Inlining
import ProtoShape.Rules.Union

/-!
# Keeping the key of a map

Where a single map gives way to its value type, its key becomes a property of
that type.  `giveKey` follows references to the schema to patch: a composite gets
one more part, an object one more property, and a union passes the request on to
its members.  A primitive type cannot carry a property; it has to be wrapped,
which is up to the caller.  A schema is patched at most once in a run.
-/

namespace ProtoShape

/-- Follows references from a node to what is no reference.  `seen` holds the
references on the way; coming to one of them again is a cycle.  The chain cannot
be longer than the document has nodes, which `fuel` counts. -/
def followReferences (document : Node) : Nat → List Tag → Node → Except Unresolved Node
  | fuel, seen, node =>
      match node.ref? with
      | none => .ok node
      | some ref =>
          if node.tag ∈ seen then .error ⟨ref, .cycle⟩
          else
            match fuel with
            | 0 => .error ⟨ref, .cycle⟩
            | fuel + 1 =>
                match document.resolve ref with
                | .error problem => .error problem
                | .ok target => followReferences document fuel (node.tag :: seen) target

/-- The schema with one text property that carries the key of a map. -/
def keyHolder (field : String) : Node :=
  .ofEntries [
    ("type", .ofText "object"),
    ("properties", .ofEntries [(.text field, Rules.textSchema)])]

/-- The fields of an object that holds a node under a key. -/
def wrapperOf (key : String) (node : Node) : Fields Tag :=
  ⟨[("type", .ofText "object"), ("properties", .ofEntries [(.text key, node)])]⟩

/-- How a schema takes the key of a map. -/
inductive Carrier where
  /-- By one more part of its `allOf`. -/
  | parts (list : Nat)
  /-- By one more of its `properties`. -/
  | properties (map : Nat) (present : Fields Tag)
  /-- Through each of the members of its union. -/
  | members (key : String) (list : Nat) (members : List Node)
  /-- Not at all; it has to be wrapped under this key. -/
  | wrapped (key : String)
  /-- Not at all. -/
  | none

/-- The union of a schema through which the key of a map is passed on. -/
def unionCarrier? (fields : Fields Tag) : Option Carrier :=
  ["oneOf", "anyOf"].findSome? fun (key : String) =>
    match fields.get? key with
    | some (.list (some n) items) => some (.members key n items)
    | _ => Option.none

/-- How a schema takes the key of a map. -/
def Carrier.of (options : Options) (fields : Fields Tag) : Carrier :=
  match fields.get? "allOf" with
  | some (.list (some n) _) => .parts n
  | _ =>
      match fields.get? "properties" with
      | some (.map (some n) present) => .properties n present
      | _ =>
          match unionCarrier? fields with
          | some carrier => carrier
          | Option.none =>
              if Rules.hasPrimitiveType fields then
                .wrapped (((Fields.text? fields "title").filter (· ≠ "")).getD
                  options.primitiveValueKey)
              else .none

/-- A property has the name of the key of a map already. -/
def Location.fieldConflict (location : Location) (field : String) : Diagnostic :=
  location.diagnostic "field_conflict"
    s!"Property {Text.quoted field} already exists; leaving the schema unchanged."

namespace Step

/-- Remembers that a schema has been given the key of a map. -/
def markCarrier (n : Nat) : Step Unit :=
  modify fun run => { run with carriers := run.carriers.insert (.tag (some n)) }

/-- Adds the key of a map to the properties of an object. -/
def giveKeyProperty (map : Nat) (present : Fields Tag) (location : Location) : Step Unit := do
  let field := (← get).options.fieldProperty
  if present.contains field then
    report (location.fieldConflict field)
  else modifyFields map (·.insert field Rules.textSchema)

/-- Replaces an item of a list by an object that holds it. -/
def wrapItem (list index : Nat) (key : String) : Step Unit :=
  modifyItems list fun items =>
    match items[index]? with
    | some item => items.set index (.map default (wrapperOf key item))
    | none => items

/-- Gives the schema that the node with number `n` leads to the key of a map.  The
result is the key under which the node has to be wrapped, if it has to be.  Every
passing on to the members of a union marks that union, so the depth is bounded by
the number of nodes, which `fuel` counts. -/
def giveKeyWithin : Nat → Nat → Location → Step (Option String)
  | 0, _, _ => return none
  | fuel + 1, n, location => do
      let run ← get
      match run.node? n with
      | none => return none
      | some node =>
          match followReferences run.document (run.document.nodeCount + 1) [] node with
          | .error problem => do
              report (location.diagnostic "unresolved_reference" problem.message)
              return none
          | .ok (.map (some target) fields) =>
              if run.carriers.contains (.tag (some target)) then return none
              else
                match Carrier.of run.options fields with
                | .parts list => do
                    markCarrier target
                    modifyItems list (· ++ [keyHolder run.options.fieldProperty])
                    return none
                | .properties map present => do
                    markCarrier target
                    giveKeyProperty map present location
                    return none
                | .members key list members => do
                    markCarrier target
                    members.zipIdx.forM fun (member, index) => do
                      match member.tag with
                      | none => return
                      | some m =>
                          let place := (location.child key).item index
                          match ← giveKeyWithin fuel m place with
                          | some key => wrapItem list index key
                          | none => return
                    return none
                | .wrapped key => return some key
                | .none => return none
          | .ok _ => return none

/-- Gives the schema that the node with number `n` leads to the key of a map. -/
def giveKey (n : Nat) (location : Location) : Step (Option String) := do
  let run ← get
  giveKeyWithin (run.document.nodeCount + run.aside.nodeCount + 1) n location

end Step

end ProtoShape
