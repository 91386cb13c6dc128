import ProtoShape.Config
import ProtoShape.Rules.Composite
import ProtoShape.Rules.Enumeration
import ProtoShape.Rules.Exclusivity
import ProtoShape.Rules.OpenMap
import ProtoShape.Rules.Restatement
import ProtoShape.Visit

/-!
# First and third phase: local clean-ups and marks

`cleanUp` applies seven rules to every inline schema of a document, one after
the other.  A schema is reached after the schemas below it.  The last rule looks
at the rest of the document as it stands then; all others see the schema only.

The third phase, `markGroups`, marks the exclusive groups of a document for the
generator, schema by schema as well.
-/

namespace ProtoShape

variable {τ : Type}

/-- A computation that records diagnostics and may stop at a fault; what was
recorded before the fault is kept. -/
abbrev Recording := ExceptT Fault (StateM (List Diagnostic))

namespace Recording

/-- Records a diagnostic. -/
def record (diagnostic : Diagnostic) : Recording Unit :=
  ExceptT.lift (modify (· ++ [diagnostic]))

/-- Stops where there is a fault. -/
def stopAt (fault? : Option Fault) : Recording Unit :=
  match fault? with
  | some fault => throw fault
  | none => pure ()

/-- Stops where a value has no text. -/
def ofText {α : Type} : Except Json.Unwritable α → Recording α
  | .ok result => pure result
  | .error reason => throw (.unwritable reason)

end Recording

/-- The result of a rule, or the fields as they were where it declines. -/
def applyRule (rule : Fields τ → Option (Fields τ)) (fields : Fields τ) : Fields τ :=
  (rule fields).getD fields

variable [Inhabited τ]

open Rules in
/-- All rules of the first phase on one schema.  `around` gives the whole document
with a tree in place of the schema. -/
def cleanUpSchema (options : Options) (location : Location) (around : Fields τ → Tree τ)
    (fields : Fields τ) : Recording (Fields τ) := do
  let fields := applyRule constsToEnum fields
  Recording.stopAt (listCoverFault? fields)
  let fields := applyRule dropListCovered fields
  let fields := applyRule unwrapComposites fields
  Recording.stopAt (openMapFault? fields)
  let fields := applyRule closeOpenMap fields
  Recording.stopAt (enumFault? fields)
  let fields := applyRule distinctEnum fields
  let fields := applyRule (renameNull options.nullTypeName) fields
  let found := dropShorthand (around fields) location fields
  found.1.forM Recording.record
  return (← Recording.ofText found.2).getD fields

/-- Applies the rules of the first phase to every inline schema of a document. -/
def cleanUp (options : Options) (document : Tree τ) : Recording (Tree τ) :=
  document.replaceSchemas
    (fun visit around =>
      cleanUpSchema options visit.location (fun fields => around (.map visit.tag fields))
        visit.fields)
    (.one .document) .root id

/-! ## Third phase -/

/-- The names of the marks in the options. -/
def Options.flags (options : Options) : Rules.Flags :=
  ⟨options.schemaFlag, options.propertyFlag, options.annotationFlag⟩

/-- Marks every inline schema of a document that is exclusive. -/
def markGroups (options : Options) (document : Tree τ) : Except Fault (Tree τ) :=
  document.replaceSchemas
    (fun visit _ =>
      match Rules.exclusivityFault? visit.fields with
      | some fault => .error fault
      | none => .ok ((Rules.markExclusive options.flags visit.fields).getD visit.fields))
    (.one .document) .root id

end ProtoShape
