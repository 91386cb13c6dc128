import ProtoShape.FilePath
import ProtoShape.Location
import ProtoShape.Scalar
import ProtoShape.Text.Case
import ProtoShape.Tree

/-!
# Events

A command reports what it does as a sequence of events.  An event says when it
happened, how important it is, which command it belongs to and what happened.
Its record is a mapping with these four fields first.

A duration or a size is an amount: a whole number of any size or a floating point
number.
-/

namespace ProtoShape

/-- A measured amount. -/
inductive Amount where
  | whole (n : Int)
  | real (x : Float)
deriving Inhabited

namespace Amount

/-- No time and nothing else. -/
def zero : Amount := .real 0.0

/-- The amount as a scalar. -/
def toScalar : Amount → Scalar
  | whole n => .int n
  | real x => .float x

/-- The amount that a scalar gives. -/
def ofScalar? : Scalar → Option Amount
  | .int n => some (whole n)
  | .float x => some (real x)
  | _ => none

/-- Whether the amount lies below a limit. -/
def isBelow (limit : Nat) : Amount → Bool
  | whole n => n < limit
  | real x => x < Float.ofNat limit

end Amount

/-! ## Events -/

/-- The failure of a stage. -/
structure StageFailure where
  stage : String
  duration : Amount
  code : String
  message : String
  hint : Option String

/-- A document that has been loaded. -/
structure LoadedDocument where
  path : Option FilePath
  schemas : Int
  paths : Int

/-- A document that has been written. -/
structure WrittenDocument where
  path : Option FilePath
  format : String
  bytes : Int

/-- A message about a place of the document that does not stop the command. -/
structure Notice where
  code : String
  message : String
  location : Option String
  hint : Option String

/-- What has happened. -/
inductive Happening where
  /-- Nothing is known about it. -/
  | unspecified
  | commandStarted (project config document : Option FilePath) (options : Option (Fields Unit))
  | commandCompleted (ok : Bool) (exitCode : Int)
  | stageStarted (stage label : String)
  | stageCompleted (stage : String) (duration : Amount) (status : String)
  | stageFailed (failure : StageFailure)
  | documentLoaded (loaded : LoadedDocument)
  | componentsGenerated (names : List String)
  | documentWritten (written : WrittenDocument)
  /-- The records of the violations that were found. -/
  | invariantsChecked (violations : List (Fields Unit))
  | warning (notice : Notice)
  | debug (message : String) (data : Option (Fields Unit))

namespace Happening

/-- The name of the kind of an event. -/
def kind : Happening → String
  | unspecified => ""
  | commandStarted _ _ _ _ => "CommandStarted"
  | commandCompleted _ _ => "CommandCompleted"
  | stageStarted _ _ => "StageStarted"
  | stageCompleted _ _ _ => "StageCompleted"
  | stageFailed _ => "StageFailed"
  | documentLoaded _ => "DocumentLoaded"
  | componentsGenerated _ => "ComponentsGenerated"
  | documentWritten _ => "DocumentWritten"
  | invariantsChecked _ => "InvariantsChecked"
  | warning _ => "Warning"
  | debug _ _ => "Debug"

/-- How important an event is unless something else is said. -/
def level : Happening → String
  | warning _ => "WARNING"
  | debug _ _ => "DEBUG"
  | _ => "INFO"

/-- A path or null. -/
def pathValue (p : Option FilePath) : Value :=
  match p with
  | some p => .ofText p.toString
  | none => .scalar () .null

/-- A text or null. -/
def textValue (s : Option String) : Value :=
  match s with
  | some s => .ofText s
  | none => .scalar () .null

/-- A mapping or null. -/
def mappingValue (fields : Option (Fields Unit)) : Value :=
  match fields with
  | some fields => .map () fields
  | none => .scalar () .null

/-- The fields of the record that belong to what happened. -/
def fields : Happening → List (String × Value)
  | unspecified => []
  | commandStarted project config document options =>
      [("project_dir", pathValue project), ("config_path", pathValue config),
        ("document_path", pathValue document), ("options", mappingValue options)]
  | commandCompleted ok exitCode => [("ok", .ofBool ok), ("exit_code", .ofInt exitCode)]
  | stageStarted stage label => [("stage_id", .ofText stage), ("label", .ofText label)]
  | stageCompleted stage duration status =>
      [("stage_id", .ofText stage), ("duration_ms", .scalar () duration.toScalar),
        ("status", .ofText status)]
  | stageFailed failure =>
      [("stage_id", .ofText failure.stage), ("duration_ms", .scalar () failure.duration.toScalar),
        ("error_code", .ofText failure.code), ("message", .ofText failure.message),
        ("hint", textValue failure.hint)]
  | documentLoaded loaded =>
      [("path", pathValue loaded.path), ("schemas", .ofInt loaded.schemas),
        ("paths", .ofInt loaded.paths)]
  | componentsGenerated names => [("names", .ofList (names.map .ofText))]
  | documentWritten written =>
      [("path", pathValue written.path), ("format", .ofText written.format),
        ("bytes", .ofInt written.bytes)]
  | invariantsChecked violations => [("violations", .ofList (violations.map (.map ())))]
  | warning notice =>
      [("code", .ofText notice.code), ("message", .ofText notice.message),
        ("location", textValue notice.location), ("hint", textValue notice.hint)]
  | debug message data => [("message", .ofText message), ("data", mappingValue data)]

end Happening

/-- An event. -/
structure Event where
  time : Amount
  level : String
  command : String
  kind : String
  what : Happening

namespace Event

/-- The event of a command where something happens. -/
def of (command : String) (what : Happening) : Event :=
  ⟨.zero, what.level, command, what.kind, what⟩

/-- The warning event for a diagnostic. -/
def ofDiagnostic (command : String) (d : Diagnostic) : Event :=
  { of command (.warning ⟨d.code, d.message, some d.location, none⟩) with
    level := Text.upper d.level }

/-- The record of an event. -/
def record (event : Event) : Value :=
  let general : List (String × Value) :=
    [("ts", .scalar () event.time.toScalar), ("level", .ofText event.level),
      ("command", .ofText event.command), ("type", .ofText event.kind)]
  .ofEntries ((general ++ event.what.fields).map fun (name, value) => (.text name, value))

end Event

end ProtoShape
