import ProtoShape.Event
import ProtoShape.Report.Item
import ProtoShape.Report.Measure
import ProtoShape.Text.Basic

/-!
# The wording of reports

The lines and badges that the reports have in common.
-/

namespace ProtoShape.Report

/-- The program and its version. -/
def programVersion : String := "oasproto v0.1.0"

/-- The line under a header. -/
def ruler : String := String.ofList (List.replicate 64 '-')

/-- How many warnings or violations are listed. -/
def listedAtMost : Nat := 20

/-- The sign for a status. -/
def glyph (status : String) : String :=
  ([("pending", "⏸"), ("running", "⠋"), ("success", "✅"), ("failed", "❌"), ("skipped", "⏭"),
    ("warning", "⚠️")].lookup status).getD "?"

/-- The word for a status. -/
def wordFor (status : String) : String :=
  ([("success", "OK"), ("failed", "FAIL"), ("skipped", "SKIP")].lookup status).getD
    (Text.upper status)

/-- The badge for a status, whose case and outer blanks do not matter. -/
def badge (status : String) : StyledText :=
  let plain := Text.lower (Text.trim status)
  let label :=
    ([("success", "ok"), ("failed", "fail"), ("skipped", "skip")].lookup plain).getD plain
  let style := ([("success", "bold black on green3"), ("failed", "bold white on red3")].lookup
    plain).getD "bold white on grey35"
  ⟨" " ++ label ++ " ", style, []⟩

/-- The dots behind a label, at least two. -/
def dots (label : String) : String := String.ofList (List.replicate (max 2 (30 - label.length)) '.')

/-- The line for a stage that starts. -/
def stageStartLine (index : Int) (label : String) (total : Int) : String :=
  s!"[{index}/{total}] {label} {dots label} START"

/-- The line for a stage that has ended. -/
def stageLine (index : Int) (label status : String) (elapsed : Option Amount)
    (note : Option String) (total : Int) : Except Trouble String := do
  let note := match note with
    | some note => if note = "" then "" else " " ++ note
    | none => ""
  let duration ← match elapsed with
    | some elapsed => do pure ("  " ++ (← durationText elapsed))
    | none => pure ""
  return s!"[{index}/{total}] {label} {dots label} {glyph status} {wordFor status}{note}{duration}"

/-- A path, or the word for none. -/
def pathText (path : Option FilePath) : String := (path.map FilePath.toString).getD "None"

/-- The header of a report. -/
def header (config document : Option FilePath) : String :=
  let part (name : String) (path : Option FilePath) : List String :=
    path.toList.map fun path => s!"{name}: {path.toString}"
  " | ".intercalate (programVersion :: part "document" document ++ part "config" config) ++ "\n" ++
    ruler

/-- The line for a warning. -/
def lineOfWarning (level : String) (notice : Notice) : String :=
  let place := match notice.location with
    | some location => if location = "" then "" else " at " ++ location
    | none => ""
  s!"{level} {notice.code}{place}: {notice.message}"

/-- The first lines of a list, and how many more there are. -/
def listed (lines : List String) : List String :=
  lines.take listedAtMost ++
    (if listedAtMost < lines.length then [s!"...and {lines.length - listedAtMost} more"] else [])

/-- Lines below each other. -/
def joinLines (lines : List String) : String := "\n".intercalate lines

end ProtoShape.Report
