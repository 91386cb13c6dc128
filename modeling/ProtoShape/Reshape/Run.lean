import ProtoShape.Config
import ProtoShape.Fault
import ProtoShape.Node
import ProtoShape.Reference

/-!
# The state of a run

The second phase works on a document whose nodes are numbered, since one rule may
patch a schema far from the place that it is applied to.  A `Run` holds the
document, a schema aside that is not part of it, and what has been recorded so
far.

All access goes by number: `fields?` reads a node and `modifyFields` writes it.
Nodes that a rule has made get their numbers when they are written.
-/

namespace ProtoShape

/-- The state of a run. -/
structure Run where
  options : Options
  document : Node
  /-- A schema that is worked on without being part of the document. -/
  aside : Node
  /-- The next number for a node. -/
  next : Nat
  diagnostics : List Diagnostic
  /-- The schemas that have been given the key of a map. -/
  carriers : IdentitySet
  /-- The components generated for value types. -/
  valueComponents : List (Identity × String)

namespace Run

/-- Numbers the nodes that have no number yet. -/
def settle (run : Run) : Run :=
  let (document, next) := Node.number run.document run.next
  let (aside, next) := Node.number run.aside next
  { run with document, aside, next }

/-- A run at its start. -/
def start (options : Options) (document : Node) : Run :=
  settle ⟨options, document, default, 0, [], ∅, []⟩

/-- The run over the same document with nothing recorded. -/
def restart (options : Options) (run : Run) : Run :=
  { run with options, diagnostics := [], carriers := ∅, valueComponents := [] }

/-- Puts a schema aside, in place of the one that lay there. -/
def layAside (schema : Value) (run : Run) : Run := settle { run with aside := .ofValue schema }

/-- The names of the generated components in the order of their generation. -/
def generated (run : Run) : List String := run.valueComponents.map (·.2)

/-- The node with a number. -/
def node? (run : Run) (n : Nat) : Option Node :=
  (Node.find? n run.document).or (Node.find? n run.aside)

/-- Replaces the node with a number. -/
def modifyNode (run : Run) (n : Nat) (f : Node → Node) : Run :=
  settle { run with document := Node.modify n f run.document, aside := Node.modify n f run.aside }

end Run

/-- A step of a run. -/
abbrev Step := StateM Run

/-- A step of a run that may stop at a fault; the state is kept then. -/
abbrev RiskyStep := ExceptT Fault Step

namespace Step

/-- Records a diagnostic. -/
def report (diagnostic : Diagnostic) : Step Unit :=
  modify fun run => { run with diagnostics := run.diagnostics ++ [diagnostic] }

/-- The node with a number. -/
def node? (n : Nat) : Step (Option Node) := return (← get).node? n

/-- The fields of the mapping with a number. -/
def fields? (n : Nat) : Step (Option (Fields Tag)) := return (← node? n).bind Tree.fields?

/-- Replaces the fields of the mapping with a number. -/
def modifyFields (n : Nat) (f : Fields Tag → Fields Tag) : Step Unit :=
  modify fun run => run.modifyNode n fun
    | .map tag fields => .map tag (f fields)
    | node => node

/-- Replaces the items of the list with a number. -/
def modifyItems (n : Nat) (f : List Node → List Node) : Step Unit :=
  modify fun run => run.modifyNode n fun
    | .list tag items => .list tag (f items)
    | node => node

/-- Applies a rule to the mapping with a number and tells whether it changed
anything. -/
def apply (rule : Fields Tag → Option (Fields Tag)) (n : Nat) : Step Bool := do
  match (← fields? n).bind rule with
  | some result => do
      modifyFields n fun _ => result
      return true
  | none => return false

end Step

namespace RiskyStep

/-- The fields of the mapping with a number. -/
def fieldsOf (n : Nat) : RiskyStep (Fields Tag) := do
  match ((← get).node? n).getD default with
  | .map _ fields => return fields
  | node => throw (.notMapping node.kindName)

end RiskyStep

end ProtoShape
