import ProtoShape.Reshape.CleanUp
import ProtoShape.Reshape.Maps

/-!
# The three phases together

`reshape` cleans a document up, reshapes its maps and marks its groups.  A phase that
stops at a fault ends the run; the diagnostics recorded before are kept in the
state.
-/

namespace ProtoShape

/-- The phases in their order. -/
inductive Phase where
  | simplify
  | restructure
  | annotate
deriving DecidableEq, Repr

/-- The phases of a reshaping. -/
def Phase.all : List Phase := [.simplify, .restructure, .annotate]

/-- One phase over the document of a run, which has to be a mapping. -/
def Phase.run (phase : Phase) : RiskyStep Unit := do
  let state ← get
  if let some fault := state.document.mappingFault? then throw fault
  match phase with
  | simplify =>
      let (result, diagnostics) :=
        (cleanUp state.options state.document).run state.diagnostics
      match result with
      | .ok document => set ({ state with document, diagnostics } : Run).settle
      | .error fault => do
          set { state with diagnostics }
          throw fault
  | restructure => RiskyStep.reshapeMaps
  | annotate =>
      match markGroups state.options state.document with
      | .ok document => set ({ state with document } : Run).settle
      | .error fault => throw fault

/-- All phases over the document of a run. -/
def allPhases : RiskyStep Unit := Phase.all.forM Phase.run

/-- What a reshaping gives. -/
structure Reshaped where
  document : Node
  diagnostics : List Diagnostic
  generated : List String

/-- Why a reshaping gives nothing. -/
inductive ReshapeError where
  | notMapping
  | fault (fault : Fault)
deriving DecidableEq, Repr

/-- The wording of the reason. -/
def ReshapeError.message : ReshapeError → String
  | notMapping => "Document must be a mapping."
  | fault f => f.message

/-- Runs all phases over the document of a run as a run of its own; the result is
what that run records. -/
def reshapeAfresh : ExceptT ReshapeError Step (List Diagnostic) := do
  let state ← get
  if state.document.fields?.isNone then throw .notMapping
  let (result, run) := (allPhases.run (state.restart state.options) : Except Fault Unit × Run)
  set { state with document := run.document, next := run.next }
  match result with
  | .ok _ => return run.diagnostics
  | .error fault => throw (.fault fault)

/-- Reshapes a document. -/
def reshape (options : Options) (document : Node) : Except ReshapeError Reshaped :=
  match document with
  | .map _ _ =>
      match allPhases.run (Run.start options document) with
      | (.ok _, run) => .ok ⟨run.document, run.diagnostics, run.generated⟩
      | (.error fault, _) => .error (.fault fault)
  | _ => .error .notMapping

end ProtoShape
