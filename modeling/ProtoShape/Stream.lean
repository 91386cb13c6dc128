import ProtoShape.Document
import ProtoShape.Event
import ProtoShape.Fault
import ProtoShape.Stage

/-!
# Event streams

A stream is what a command does to a file system: its events in their order, and
the files in the end.  A crash cuts a stream short; then no event tells of it.

A stage opens with an event and reports what it has to say.  Then it is done and
the command goes on, or it fails and so completes the command, or the command
crashes.  Work that is done within the program takes no time that could be
measured, so all durations are zero.
-/

namespace ProtoShape

/-- What cuts a stream short. -/
inductive Crash where
  | file (error : FileError)
  | load (error : Document.LoadError)
  | fault (fault : Fault)
  | write (error : Document.WriteError)
deriving DecidableEq, Repr

/-- The wording of a crash. -/
def Crash.message : Crash → String
  | file e => e.message
  | load e => e.message
  | fault f => f.message
  | write e => e.message

/-- The events of a command and the files in the end. -/
structure Stream where
  events : List Event
  crash? : Option Crash
  files : FileSystem

/-- How the work of a stage ends. -/
inductive StageEnd (α : Type) where
  | done (status : String) (result : α)
  | failed (code message : String) (hint : Option String) (exitCode : Int)
  | crashed (crash : Crash)

/-- The work of a stage: what it reports, and how it ends. -/
structure StageWork (α : Type) where
  reports : List Event
  ending : StageEnd α

namespace StageWork

variable {α : Type}

/-- Work that succeeds. -/
def success (reports : List Event) (result : α) : StageWork α :=
  ⟨reports, .done "success" result⟩

/-- Work that fails with an exit code. -/
def failure (reports : List Event) (exitCode : Int) (code message : String)
    (hint : Option String := none) : StageWork α :=
  ⟨reports, .failed code message hint exitCode⟩

/-- Work that crashes. -/
def crash (crash : Crash) : StageWork α := ⟨[], .crashed crash⟩

end StageWork

namespace Stream

/-- Events in front of a stream. -/
def after (events : List Event) (stream : Stream) : Stream :=
  { stream with events := events ++ stream.events }

/-- The end of a command that has done its work. -/
def success (command : String) (files : FileSystem) : Stream :=
  ⟨[.of command (.commandCompleted true 0)], none, files⟩

/-- A stage and what follows when it is done. -/
def stage {α : Type} (command : String) (files : FileSystem) (stage : Stage) (work : StageWork α)
    (next : α → Stream) : Stream :=
  let opening := .of command (.stageStarted stage.id stage.label) :: work.reports
  match work.ending with
  | .done status result =>
      after (opening ++ [.of command (.stageCompleted stage.id .zero status)]) (next result)
  | .failed code message hint exitCode =>
      ⟨opening ++ [.of command (.stageFailed ⟨stage.id, .zero, code, message, hint⟩),
        .of command (.commandCompleted false exitCode)], none, files⟩
  | .crashed crash => ⟨opening, some crash, files⟩

end Stream

end ProtoShape
