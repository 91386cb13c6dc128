import ProtoShape.Report.Digest
import ProtoShape.Report.Item

/-!
# Reporters

A reporter says what to put on the console for an event, given what has been seen before it, and
what to put there in the end.  A reporter that runs into trouble shows nothing more.
-/

namespace ProtoShape.Report

/-- A way of reporting a stream. -/
structure Reporter where
  /-- What an event puts on the console. -/
  show? : Digest → Event → List (Except Trouble Item)
  /-- What is put on the console when no more events come, given what has been shown. -/
  close : List Item → List Item

/-- What has been reported. -/
structure Shown where
  items : List Item
  trouble? : Option Trouble
  /-- What has been seen, with the event that has brought the trouble. -/
  digest : Digest

namespace Reporter

/-- Reports events after what has been seen; nothing is closed. -/
def play (reporter : Reporter) (console : Console) (seen : Digest) : List Event → Shown
  | [] => ⟨[], none, seen⟩
  | event :: rest =>
      match console.put (reporter.show? seen event) with
      | (items, some trouble) => ⟨items, some trouble, seen.see event⟩
      | (items, none) =>
          let shown := reporter.play console (seen.see event) rest
          { shown with items := items ++ shown.items }

/-- Closes a report. -/
def finish (reporter : Reporter) (console : Console) (shown : Shown) : Shown :=
  let closing := console.put ((reporter.close shown.items).map .ok)
  { shown with items := shown.items ++ closing.1, trouble? := closing.2 }

/-- Reports a whole stream and closes the report unless there is trouble. -/
def report (reporter : Reporter) (console : Console) (events : List Event) : Shown :=
  let shown := reporter.play console .empty events
  match shown.trouble? with
  | some _ => shown
  | none => reporter.finish console shown

end Reporter

end ProtoShape.Report
