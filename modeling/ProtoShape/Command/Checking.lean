import ProtoShape.Stream
import ProtoShape.Violation

/-!
# The command that checks a document

A document passes when it has no violation.  Otherwise the violations are reported before the stage
fails.

Both commands load a document.  They report how many schemas and paths it has.  A document that
cannot be loaded fails the stage; a place that cannot be read as a text at all crashes the command,
and so does an integer with too many digits.
-/

namespace ProtoShape.Command

/-- The number of entries of a mapping; anything else has none. -/
def sizeOfMapping (v : Option Value) : Int :=
  match v.bind Tree.fields? with
  | some fields => fields.size
  | none => 0

/-- What is reported about a loaded document. -/
def loadedDocument (path : FilePath) (document : Value) : LoadedDocument :=
  let field (key : String) : Option Value := document.fields?.bind (·.get? key)
  let schemas := ((field "components").bind Tree.fields?).bind (·.get? "schemas")
  ⟨some path, sizeOfMapping schemas, sizeOfMapping (field "paths")⟩

/-- The work of loading a document. -/
def loading (libs : Libraries) (command : String) (files : FileSystem) (path : FilePath) :
    StageWork Value :=
  match Document.load libs files path with
  | .ok document => .success [.of command (.documentLoaded (loadedDocument path document))] document
  | .error error =>
      if error.isReported then .failure [] 2 "document_error" error.message
      else .crash (.load error)

/-! ## Looking for violations -/

/-- The work of looking for violations. -/
def checking (document : Value) : StageWork Unit :=
  match checkedViolations document with
  | .error fault => .crash (.fault fault)
  | .ok found =>
      let reports : List Event :=
        [.of "check" (.invariantsChecked (found.map Violation.record))]
      if found.isEmpty then .success reports ()
      else
        .failure reports 1 "invariant_violation"
          s!"{found.length} schema(s) break the rewrite invariants."
          (some "Run `oasproto rewrite` on the document first.")

/-- The stream of the command `check`. -/
def check (libs : Libraries) (files : FileSystem) (path : FilePath) : Stream :=
  Stream.after [.of "check" (.commandStarted none none (some path) none)] <|
    Stream.stage "check" files .loadDocument (loading libs "check" files path) fun document =>
      Stream.stage "check" files .checkInvariants (checking document) fun _ =>
        Stream.success "check" files

end ProtoShape.Command
