import ProtoShape.Json.Writer
import ProtoShape.Report.Reporter
import ProtoShape.Report.Wording
import ProtoShape.Stage

/-!
# Reports of a reshaping

The plain report prints a line per event.  The styled one shows a table of the
stages while they run, if the console is a terminal, and panels in the end.  The
JSON report prints one JSON text when the command completes.
-/

namespace ProtoShape.Report

/-- The number of stages of a reshaping. -/
def stageCount : Nat := Stage.ofReshape.length

/-- Whether a stage is the one that a dry run leaves out. -/
def isDryWrite (dryRun : Bool) (stage status : String) : Bool :=
  stage = Stage.writeDocument.id && status = "skipped" && dryRun

/-! ## Plain -/

/-- The line for a stage of a reshaping that has ended. -/
def reshapeStageLine (stage status : String) (duration : Amount) (note : Option String) :
    Except Trouble String :=
  stageLine (Stage.indexIn Stage.ofReshape stage) (Stage.labelIn Stage.ofReshape stage) status
    (some duration) note stageCount

/-- What is said about a failure below its line. -/
def failureDetails (failure : StageFailure) : List String :=
  (if failure.message = "" then [] else ["FAIL: " ++ failure.message]) ++
    match failure.hint with
    | some hint => if hint = "" then [] else ["HINT: " ++ hint]
    | none => []

/-- The last line of a plain report. -/
def verdict (ok : Bool) (warnings : Nat) : String :=
  if !ok then "REWRITE FAIL"
  else if warnings = 0 then "REWRITE OK"
  else s!"REWRITE OK ({warnings} warnings)"

/-- The line for an event, if it has one. -/
def reshapeLine? (seen : Digest) (event : Event) : Option (Except Trouble String) :=
  match event.what with
  | .commandStarted _ config document _ => some (.ok (header config document))
  | .stageStarted stage _ =>
      some (.ok (stageStartLine (Stage.indexIn Stage.ofReshape stage)
        (Stage.labelIn Stage.ofReshape stage) stageCount))
  | .stageCompleted stage duration status =>
      some (reshapeStageLine stage status duration
        (if isDryWrite seen.dryRun stage status then some "(--dry-run)" else none))
  | .stageFailed failure =>
      some ((reshapeStageLine failure.stage "failed" failure.duration none).map fun line =>
        joinLines (line :: failureDetails failure))
  | .documentLoaded loaded =>
      some
        (.ok s!"Document: {pathText loaded.path} ({loaded.schemas} schemas, {loaded.paths} paths)")
  | .warning notice => some (.ok (lineOfWarning event.level notice))
  | .componentsGenerated names => some (.ok ("Generated: " ++ ", ".intercalate names))
  | .documentWritten written =>
      some ((sizeText (.whole written.bytes)).map fun size =>
        s!"Wrote {pathText written.path} ({size}, {written.format})")
  | .commandCompleted ok _ => some (.ok (verdict ok seen.warnings.length))
  | _ => none

/-- The plain report of a reshaping. -/
def reshapePlain : Reporter where
  show? seen event := (reshapeLine? seen event).toList.map (·.map Item.line)
  close _ := []

/-! ## Styled -/

/-- A row of the table of stages. -/
def stageRow (seen : Digest) (stage : Stage) (index : Nat) : Except Trouble (List Cell) := do
  let status := (seen.statuses.lookup stage.id).getD "pending"
  let note := if isDryWrite seen.dryRun stage.id status then " (--dry-run)" else ""
  let duration ← match seen.durations.lookup stage.id with
    | some elapsed => durationText elapsed
    | none => pure ""
  return [.text s!"{index + 1}/{stageCount}", .text stage.label,
    .text s!"{glyph status} {status}{note}", .text duration]

/-- The table of stages. -/
def stagesAtWork (seen : Digest) : Except Trouble Item := do
  let rows ← Stage.ofReshape.zipIdx.mapM fun (stage, index) => stageRow seen stage index
  return .group [.panel "Stages" (.table ⟨none,
    [("#", .right), ("Stage", .left), ("Status", .left), ("Time", .right)], rows⟩)]

/-- The panel of warnings. -/
def panelOfWarnings (warnings : List (String × Notice)) : Item :=
  let lines := warnings.map fun (level, notice) => "- " ++ lineOfWarning level notice
  .panel "[orange1]Warnings[/orange1]" (.styled ⟨joinLines (listed lines), "orange1", []⟩)

/-- The panel of a failed reshaping. -/
def failurePanel (failure : StageFailure) : Item :=
  let hint := match failure.hint with
    | some hint => if hint = "" then [] else ["hint: " ++ hint]
    | none => []
  .panel "Rewrite failed"
    (.line (joinLines (["stage: " ++ failure.stage, "error: " ++ failure.message] ++ hint)))

/-- The lines about the output of a reshaping. -/
def outputLines (seen : Digest) : Except Trouble (List String) :=
  if seen.dryRun then .ok ["Output:     (--dry-run, nothing written)"]
  else
    match seen.written with
    | none => .ok []
    | some written => do
        let size ← sizeText (.whole written.bytes)
        let path := pathText written.path
        return [s!"Output:     {path} ({size})", "", "Next:", s!"- oasproto check {path}"]

/-- The panel of a completed reshaping. -/
def completionPanel (seen : Digest) : Except Trouble Item := do
  let source := match seen.loaded with
    | some loaded => [s!"Source:     {pathText loaded.path}", s!"Schemas:    {loaded.schemas}"]
    | none => []
  let names := if seen.generated.isEmpty then "-" else ", ".intercalate seen.generated
  return .panel "Rewrite complete"
    (.line (joinLines (source ++ ["Generated:  " ++ names] ++ (← outputLines seen))))

/-- What the styled report shows in the end. -/
def reshapeSummary (seen : Digest) (ok : Bool) : List (Except Trouble Item) :=
  (if seen.warnings.isEmpty then [] else [.ok (panelOfWarnings seen.warnings)]) ++
    (if ok then [completionPanel seen]
    else (seen.failures.getLast?.map fun failure => .ok (failurePanel failure)).toList)

/-- The table of stages, while it is shown. -/
def liveTable (terminal : Bool) (seen : Digest) : List (Except Trouble Item) :=
  if terminal && seen.active then [(stagesAtWork seen).map .live] else []

/-- The end of the table of stages, if it is shown. -/
def liveEnd (terminal : Bool) (seen : Digest) : List Item :=
  if terminal && seen.active then [.liveEnd] else []

/-- Whether a live item is shown behind an item, if the item has a say in that. -/
def Item.liveness? : Item → Option Bool
  | .live _ => some true
  | .liveEnd => some false
  | _ => none

/-- Whether a live item has been shown that has not ended. -/
def isLive (items : List Item) : Bool := (items.filterMap Item.liveness?).getLast?.getD false

/-- What the styled report shows for an event. -/
def reshapeStyledItems (terminal : Bool) (seen : Digest) (event : Event) :
    List (Except Trouble Item) :=
  match event.what with
  | .commandStarted _ config document _ =>
      .ok (.line (header config document)) :: liveTable terminal (seen.see event)
  | .stageStarted _ _ | .stageCompleted _ _ _ | .stageFailed _ =>
      liveTable terminal (seen.see event)
  | .commandCompleted ok _ => (liveEnd terminal seen).map .ok ++ reshapeSummary seen ok
  | _ => []

/-- The styled report of a reshaping. -/
def reshapeStyled (terminal : Bool) : Reporter where
  show? := reshapeStyledItems terminal
  close items := if isLive items then [.liveEnd] else []

/-! ## JSON -/

/-- A mapping with text keys. -/
def record (entries : List (String × Value)) : Value :=
  .ofEntries (entries.map fun (key, value) => (.text key, value))

/-- The JSON value of a completed reshaping. -/
def reshapePayload (seen : Digest) (ok : Bool) : Value :=
  record [
    ("ok", .ofBool ok),
    ("stages", record (seen.lastEndings.map fun (stage, status) => (stage, .ofText status))),
    ("generated", .ofList (seen.generated.map .ofText)),
    ("output", match seen.written with
      | some written => record [("path", .ofText (pathText written.path)),
          ("format", .ofText written.format), ("bytes", .ofInt written.bytes)]
      | none => .scalar () .null),
    ("warnings", .ofList (seen.warnings.map fun (_, notice) => record [
      ("code", .ofText notice.code), ("location", Happening.textValue notice.location),
      ("message", .ofText notice.message)])),
    ("errors", .ofList (seen.failures.map fun failure => record [
      ("stage", .ofText failure.stage), ("code", .ofText failure.code),
      ("message", .ofText failure.message)]))]

/-- The JSON report of a reshaping. -/
def reshapeJson : Reporter where
  show? seen event := match event.what with
    | .commandCompleted ok _ => [jsonItem (reshapePayload seen ok)]
    | _ => []
  close _ := []

end ProtoShape.Report
