import ProtoShape.Event

/-!
# What has been seen of a stream

A report shows an event in the light of those before it.  A digest keeps of them
what any report needs; `Digest.see` takes in one more event.
-/

namespace ProtoShape.Report

/-- What has been seen of a stream. -/
structure Digest where
  /-- Whether the command was started without being asked to write. -/
  dryRun : Bool
  /-- Whether a command has started and not completed since. -/
  active : Bool
  /-- The status of each stage that has started or ended. -/
  statuses : List (String × String)
  /-- The status of each stage that has ended. -/
  endings : List (String × String)
  /-- How long each stage took that has ended. -/
  durations : List (String × Amount)
  failures : List StageFailure
  /-- The warnings with their levels. -/
  warnings : List (String × Notice)
  loaded : Option LoadedDocument
  generated : List String
  written : Option WrittenDocument
  violations : List (Fields Unit)
  exitCode : Int

/-- Nothing has been seen. -/
def Digest.empty : Digest :=
  ⟨false, false, [], [], [], [], [], none, [], none, [], 0⟩

/-- Whether a value counts as a yes: null, `false`, zero and what is empty do not. -/
def isYes {τ : Type} : Tree τ → Bool
  | .scalar _ .null => false
  | .scalar _ (.bool b) => b
  | .scalar _ (.int i) => i ≠ 0
  | .scalar _ (.float x) => x != 0.0
  | .scalar _ (.text s) => s ≠ ""
  | .scalar _ (.foreign _) => true
  | .list _ items => !items.isEmpty
  | .map _ entries => entries.size ≠ 0

/-- Whether options ask for a dry run. -/
def asksDryRun (options : Option (Fields Unit)) : Bool :=
  ((options.bind (·.get? "dry_run")).map isYes).getD false

namespace Digest

/-- Takes in an event. -/
def see (d : Digest) (event : Event) : Digest :=
  match event.what with
  | .commandStarted _ _ _ options => { d with dryRun := asksDryRun options, active := true }
  | .commandCompleted _ exitCode => { d with active := false, exitCode }
  | .stageStarted stage _ => { d with statuses := (stage, "running") :: d.statuses }
  | .stageCompleted stage duration status =>
      { d with
        statuses := (stage, status) :: d.statuses
        endings := (stage, status) :: d.endings
        durations := (stage, duration) :: d.durations }
  | .stageFailed failure =>
      { d with
        statuses := (failure.stage, "failed") :: d.statuses
        endings := (failure.stage, "failed") :: d.endings
        durations := (failure.stage, failure.duration) :: d.durations
        failures := d.failures ++ [failure] }
  | .documentLoaded loaded => { d with loaded := some loaded }
  | .componentsGenerated names => { d with generated := names }
  | .documentWritten written => { d with written := some written }
  | .invariantsChecked violations => { d with violations }
  | .warning notice => { d with warnings := d.warnings ++ [(event.level, notice)] }
  | .debug _ _ | .unspecified => d

/-- The ending of each stage, the last one where there are several. -/
def lastEndings (d : Digest) : List (String × String) :=
  d.endings.foldr (fun (stage, status) rest =>
    (stage, status) :: rest.filter (·.1 ≠ stage)) []

end Digest

end ProtoShape.Report
