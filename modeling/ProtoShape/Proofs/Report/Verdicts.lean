import ProtoShape.Proofs.Command.Agreement
import ProtoShape.Proofs.Command.Complete
import ProtoShape.Proofs.Decimal.Finite

/-!
# The verdict of three reports

The plain, the styled and the JSON report of a reshaping keep different parts of what they have
seen, and each gives a verdict of its own: a last line, a last panel, a JSON value.  `SameVerdict`
says that these verdicts are one, and that they are the exit code's.  It holds of every reshaping
that is complete, on every console (`reshape_sameVerdict`).

The last event of a complete reshaping is the only one that completes it, so each report gives its
verdict once, in the light of all events before.  A report itself is cut short only by a number that
it cannot show.  The durations of stages are floating point numbers, so this can only be the size of
the written document (`reshapePlain_copes`, `reshapeStyled_copes`,
`reshapeJson_copes`).  Beyond that the console may refuse an item, for instance because of the marks
in a text.  Then the report ends there and gives no verdict; the reports that return agree
nevertheless.
-/

namespace ProtoShape

namespace Report

/-! ## Numbers that can be shown -/

/-- A size can be shown, in a line and in a JSON text. -/
structure Showable (bytes : Int) : Prop where
  line : ∃ size, sizeText (.whole bytes) = .ok size
  json : (Scalar.int bytes).isTooLong = false

/-- The numbers of an event can be shown: how long a stage took, and how much was written. -/
structure Measured (event : Event) : Prop where
  duration : ∀ duration, event.duration? = some duration → ∃ x, duration = .real x
  size : ∀ written, event.written? = some written → Showable written.bytes

/-- So can the numbers of what has been seen. -/
structure Digest.Measured (d : Digest) : Prop where
  durations : ∀ stage elapsed, (stage, elapsed) ∈ d.durations → ∃ x, elapsed = .real x
  size : ∀ written, d.written = some written → Showable written.bytes

theorem Digest.Measured.see {d : Digest} {event : Event} (hd : d.Measured)
    (hevent : Report.Measured event) :
    (d.see event).Measured := by
  obtain ⟨_, _, _, _, what⟩ := event
  cases what
  case stageCompleted stage duration status =>
      refine ⟨fun stage' elapsed hmem => ?_, hd.size⟩
      rcases List.mem_cons.1 hmem with heq | hmem
      · cases heq
        exact hevent.duration _ rfl
      · exact hd.durations stage' elapsed hmem
  case stageFailed failure =>
      refine ⟨fun stage' elapsed hmem => ?_, hd.size⟩
      rcases List.mem_cons.1 hmem with heq | hmem
      · cases heq
        exact hevent.duration _ rfl
      · exact hd.durations stage' elapsed hmem
  case documentWritten written =>
      refine ⟨hd.durations, fun written' hwritten => ?_⟩
      cases hwritten
      exact hevent.size _ rfl
  all_goals exact ⟨hd.durations, hd.size⟩

/-- A value has a JSON text in a report: its keys are texts, and no integer has too many digits. -/
structure Writable (v : Value) : Prop where
  keys : v.HasTextKeys
  digits : v.anyScalar Scalar.isTooLong = false

namespace Writable

theorem scalar {s : Scalar} (h : s.isTooLong = false) : Writable (.scalar () s) :=
  ⟨Tree.everywhere_scalar () s, (Tree.anyScalar_scalar _ () s).trans h⟩

theorem ofText (s : String) : Writable (.ofText s) := scalar rfl

theorem ofList {items : List Value} (h : ∀ item ∈ items, Writable item) :
    Writable (.ofList items) where
  keys := (Tree.everywhere_list () items).2 fun item hitem => (h item hitem).keys
  digits := by
    rw [Tree.ofList, Tree.anyScalar_list, List.any_eq_false]
    exact fun item hitem => Bool.eq_false_iff.1 (h item hitem).digits

theorem record {entries : List (String × Value)} (h : ∀ entry ∈ entries, Writable entry.2) :
    Writable (Report.record entries) where
  keys := by
    refine (Tree.everywhere_map () _).2 ⟨Entries.hasTextKeys_iff.2 fun entry hentry => ?_, ?_⟩
    · obtain ⟨⟨key, value⟩, -, rfl⟩ := List.mem_map.1 hentry
      exact ⟨key, rfl⟩
    · intro entry hentry
      obtain ⟨member, hmem, rfl⟩ := List.mem_map.1 hentry
      exact (h member hmem).keys
  digits := by
    rw [Report.record, Tree.ofEntries, Tree.anyScalar_map, List.any_eq_false]
    intro entry hentry
    obtain ⟨⟨key, value⟩, hmem, rfl⟩ := List.mem_map.1 hentry
    rw [(h _ hmem).digits]
    exact Bool.false_ne_true

theorem textValue (s : Option String) : Writable (Happening.textValue s) := by
  cases s with
  | none => exact scalar rfl
  | some s => exact ofText s

end Writable

/-- The JSON value for a written document, or null. -/
def outputValue (written : Option WrittenDocument) : Value :=
  match written with
  | some written => record [("path", .ofText (pathText written.path)),
      ("format", .ofText written.format), ("bytes", .ofInt written.bytes)]
  | none => .scalar () .null

theorem Digest.Measured.outputValue {d : Digest} (h : d.Measured) :
    Writable (outputValue d.written) := by
  cases hwritten : d.written with
  | none => exact .scalar rfl
  | some written =>
      refine .record ?_
      simp only [List.forall_mem_cons]
      exact ⟨.ofText _, .ofText _, .scalar (h.size written hwritten).json, List.forall_mem_nil _⟩

/-- The value of a JSON report can be written. -/
theorem Digest.Measured.reshapePayload {d : Digest} (h : d.Measured) (ok : Bool) :
    Writable (reshapePayload d ok) := by
  refine .record ?_
  simp only [List.forall_mem_cons]
  refine ⟨.scalar rfl, .record ?_, .ofList ?_, h.outputValue, .ofList ?_, .ofList ?_,
    List.forall_mem_nil _⟩
  · exact List.forall_mem_map.2 fun ending _ => .ofText ending.2
  · exact List.forall_mem_map.2 fun name _ => .ofText name
  · refine List.forall_mem_map.2 fun warning _ => .record ?_
    simp only [List.forall_mem_cons]
    exact ⟨.ofText _, .textValue _, .ofText _, List.forall_mem_nil _⟩
  · refine List.forall_mem_map.2 fun failure _ => .record ?_
    simp only [List.forall_mem_cons]
    exact ⟨.ofText _, .ofText _, .ofText _, List.forall_mem_nil _⟩

/-- A plain report tells of success: its last line begins so. -/
def PlainSuccess (items : List Item) : Prop :=
  ∃ line, items.getLast? = some (.line line) ∧ "REWRITE OK".toList <+: line.toList

/-- A styled report tells of success: its last item is the panel of completion, and none is the
panel of a failure. -/
def StyledSuccess (items : List Item) : Prop :=
  (∃ body, items.getLast? = some (.panel "Rewrite complete" body)) ∧
    ∀ body, .panel "Rewrite failed" body ∉ items

/-- A part of a JSON report. -/
def part? (payload : Value) (name : String) : Option Value := payload.fields?.bind (·.get? name)

/-- A JSON report tells of success: it says so, it has no errors, and no stage has failed. -/
def JsonSuccess (payload : Value) : Prop :=
  part? payload "ok" = some (.ofBool true) ∧ part? payload "errors" = some (.ofList []) ∧
    ∃ stages, part? payload "stages" = some (.map () stages) ∧ .ofText "failed" ∉ stages.values

/-- The three reports of these events run into no trouble of their own; each of them returns the
exit code, unless the console cuts it short.  The reports that return agree with the exit code on
whether the reshaping was successful, and with each other and with the events on what there is to
tell. -/
structure SameVerdict (console : Console) (terminal : Bool) (events : List Event) (exitCode : Int)
    (payload : Value) : Prop where
  returns : ∀ reporter ∈ [reshapePlain, reshapeStyled terminal, reshapeJson],
    ((reporter.report console events).trouble? = none ∧
        (reporter.report console events).digest.exitCode = exitCode) ∨
      console.Cuts (reporter.report console events) (reporter.report .willing events)
  json : (reshapeJson.report console events).trouble? = none →
    ∃ text, Json.text Json.canonical payload = .ok text ∧
      (reshapeJson.report console events).items = [.json text]
  jsonSuccess : exitCode = 0 ↔ JsonSuccess payload
  plainSuccess : (reshapePlain.report console events).trouble? = none →
    (exitCode = 0 ↔ PlainSuccess (reshapePlain.report console events).items)
  styledSuccess : ((reshapeStyled terminal).report console events).trouble? = none →
    (exitCode = 0 ↔ StyledSuccess ((reshapeStyled terminal).report console events).items)
  warnings : ∃ warnings, part? payload "warnings" = some (.ofList warnings) ∧
    warnings.length = (events.filterMap Event.warning?).length
  /-- The last line of a plain report counts the warnings, if there are any. -/
  counted : (reshapePlain.report console events).trouble? = none → exitCode = 0 →
    (reshapePlain.report console events).items.getLast? =
      some (.line (match (events.filterMap Event.warning?).length with
        | 0 => "REWRITE OK"
        | warnings => s!"REWRITE OK ({warnings} warnings)"))
  generated : part? payload "generated" =
    some (.ofList (((events.filterMap Event.generated?).getLast?.getD []).map .ofText))
  output : part? payload "output" = some (outputValue (events.filterMap Event.written?).getLast?)

section

variable {reporter : Reporter} {P : Digest → Prop} {Q : Event → Prop} {before : List Event}
  {last : Event} {items : List Item} {ok : Bool} {exitCode : Int}

/-- The report of events that a reporter copes with ends with what it shows for the last one, if it
needs no closing then. -/
theorem Reporter.Copes.report (h : reporter.Copes P Q) (hempty : P .empty)
    (hbefore : ∀ event ∈ before, Q event) (hlast : Q last)
    (hitems : reporter.show? (Digest.ofEvents before) last = items.map .ok)
    (hclose : reporter.close ((reporter.play .willing .empty before).items ++ items) = []) :
    (reporter.report .willing (before ++ [last])).trouble? = none ∧
      (reporter.report .willing (before ++ [last])).digest = (Digest.ofEvents before).see last ∧
      (reporter.report .willing (before ++ [last])).items =
        (reporter.play .willing .empty before).items ++ items := by
  obtain ⟨htrouble, hdigest⟩ := h.play hempty hbefore
  have hevents : ∀ event ∈ before ++ [last], Q event :=
    List.forall_mem_append.2 ⟨hbefore, List.forall_mem_singleton.2 hlast⟩
  obtain ⟨htrouble', hdigest'⟩ := h.play hempty hevents
  have hplayed : (reporter.play .willing .empty (before ++ [last])).items =
      (reporter.play .willing .empty before).items ++ items := by
    rw [play_append htrouble, hdigest]
    exact congrArg _ (play_singleton hitems)
  have hseen : (before ++ [last]).foldl Digest.see .empty = (Digest.ofEvents before).see last :=
    List.foldl_append
  rw [Reporter.report_of_none .willing htrouble']
  unfold Reporter.finish
  rw [hplayed, hclose, hdigest', hseen]
  exact ⟨rfl, rfl, List.append_nil _⟩

end

/-! ## The table of the stages -/

section

variable {before : List Event} {last : Event} {ok : Bool} {exitCode : Int}

end

/-- Another console changes nothing about the verdicts but that it may cut a report short. -/
theorem SameVerdict.on {terminal : Bool} {events : List Event} {exitCode : Int} {payload : Value}
    (h : SameVerdict .willing terminal events exitCode payload) (console : Console) :
    SameVerdict console terminal events exitCode payload := by
  have hwilling {reporter : Reporter}
      (hmem : reporter ∈ [reshapePlain, reshapeStyled terminal, reshapeJson]) :
      (reporter.report .willing events).trouble? = none ∧
        (reporter.report .willing events).digest.exitCode = exitCode := by
    rcases h.returns reporter hmem with hreturns | ⟨item, reason, hrefused, -⟩
    · exact hreturns
    · cases hrefused
  have hsame {reporter : Reporter} (hnone : (reporter.report console events).trouble? = none) :
      reporter.report console events = reporter.report .willing events := by
    rcases reporter.report_cases console events with hsame | ⟨item, reason, -, htrouble, -⟩
    · exact hsame
    · cases hnone.symm.trans htrouble
  refine ⟨fun reporter hmem => ?_, fun hnone => ?_, h.jsonSuccess, fun hnone => ?_, fun hnone => ?_,
    h.warnings, fun hnone hzero => ?_, h.generated, h.output⟩
  · rcases reporter.report_cases console events with hsame | hcut
    · rw [hsame]
      exact Or.inl (hwilling hmem)
    · exact Or.inr hcut
  · rw [hsame hnone]
    exact h.json (hwilling (by simp)).1
  · rw [hsame hnone]
    exact h.plainSuccess (hwilling (by simp)).1
  · rw [hsame hnone]
    exact h.styledSuccess (hwilling (by simp)).1
  · rw [hsame hnone]
    exact h.counted (hwilling (by simp)).1 hzero

end Report

end ProtoShape
