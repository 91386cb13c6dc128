import ProtoShape.Fault
import ProtoShape.Report.Progress

/-!
# Reports of a check

The plain report prints a line per violation, the styled one a table of the checks
and a table of the violations, and the JSON report one JSON text in the end.
-/

namespace ProtoShape.Report

/-- A field of the record of a violation. -/
def violationField (violation : Fields Unit) (name : String) : Except Trouble Value :=
  match violation.get? name with
  | some v => .ok v
  | none => .error (.missingField name)

/-- A value inside a line: a text stands for itself. -/
def inLine (v : Value) : String := v.text?.getD v.shown

/-! ## Plain -/

/-- The line for a violation. -/
def violationLine (violation : Fields Unit) : Except Trouble String := do
  let location ← violationField violation "location"
  let code ← violationField violation "code"
  let message ← violationField violation "message"
  return s!"{inLine location}: {inLine code}: {inLine message}"

/-- The lines for an event. -/
def checkLines (event : Event) : List (Except Trouble String) :=
  match event.what with
  | .commandStarted _ config document _ => [.ok (header config document)]
  | .stageStarted stage _ =>
      [.ok (stageStartLine (Stage.indexIn Stage.ofCheck stage)
        (Stage.labelIn Stage.ofCheck stage) Stage.ofCheck.length)]
  | .stageFailed failure => [.ok ("FAIL: " ++ failure.message)]
  | .invariantsChecked violations => violations.map violationLine
  | .commandCompleted ok _ => [.ok (if ok then "CHECK OK" else "CHECK FAIL")]
  | _ => []

/-- The plain report of a check. -/
def checkPlain : Reporter where
  show? _ event := (checkLines event).map (·.map Item.line)
  close _ := []

/-! ## Styled -/

/-- The table of the checks. -/
def checkTable (seen : Digest) : Item :=
  .table ⟨none, [("Check", .left), ("Status", .left)], Stage.ofCheck.map fun stage =>
    [.text stage.label, .styled (badge ((seen.endings.lookup stage.id).getD "skipped"))]⟩

/-- The cell that shows a value: a text, or nothing for null. -/
def cellOf : Value → Except Trouble Cell
  | .scalar _ .null => .ok (.text "")
  | .scalar _ (.text s) => .ok (.text s)
  | v => .error (.notACell v.kindName)

/-- The row of the table of violations for one of them.  All fields are looked up
before any is shown. -/
def violationRow (violation : Fields Unit) : Except Trouble (List Cell) := do
  let values ← ["code", "location", "message"].mapM (violationField violation)
  values.mapM cellOf

/-- The table of the violations. -/
def violationTable (violations : List (Fields Unit)) : Except Trouble Item := do
  let rows ← (violations.take listedAtMost).mapM violationRow
  return .table ⟨some "Violations",
    [("Code", .left), ("Location", .left), ("Message", .left)], rows⟩

/-- The tables of the violations, if there are any. -/
def violationItems (violations : List (Fields Unit)) : List (Except Trouble Item) :=
  if violations.isEmpty then []
  else
    violationTable violations ::
      (if listedAtMost < violations.length then
        [.ok (.line s!"...and {violations.length - listedAtMost} more")] else [])

/-- The panel of the failures that are not about violations. -/
def errorItems (failures : List StageFailure) : List (Except Trouble Item) :=
  let errors := failures.filter (·.code ≠ "invariant_violation")
  if errors.isEmpty then []
  else
    [.ok (.panel "Errors" (.line (joinLines (errors.map fun failure => "- " ++ failure.message))))]

/-- The last line of a styled report. -/
def overall (ok : Bool) : Item :=
  let lead := "Check status: "
  let badge := badge (if ok then "success" else "failed")
  .styled ⟨lead ++ badge.text, "",
    [(lead.length, lead.length + badge.text.length, badge.style)]⟩

/-- The styled report of a check. -/
def checkStyled : Reporter where
  show? seen event := match event.what with
    | .commandStarted _ config document _ => [.ok (.line (header config document))]
    | .commandCompleted ok _ =>
        .ok (checkTable seen) :: violationItems seen.violations ++ errorItems seen.failures ++
          [.ok (overall ok)]
    | _ => []
  close _ := []

/-! ## JSON -/

/-- The JSON value of a completed check. -/
def checkPayload (seen : Digest) (ok : Bool) : Value :=
  record [
    ("ok", .ofBool ok),
    ("checks", record (seen.lastEndings.map fun (stage, status) => (stage, .ofText status))),
    ("violations", .ofList (seen.violations.map (.map ()))),
    ("errors", .ofList (seen.failures.map fun failure => record [
      ("check", .ofText failure.stage), ("message", .ofText failure.message)]))]

/-- The JSON report of a check. -/
def checkJson : Reporter where
  show? seen event := match event.what with
    | .commandCompleted ok _ => [jsonItem (checkPayload seen ok)]
    | _ => []
  close _ := []

end ProtoShape.Report
