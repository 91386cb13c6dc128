import ProtoShape.Proofs.Command.Course
import ProtoShape.Proofs.Reshape.Log

/-!
# What the phases report

`Told` describes phases that are done one after the other: what each of them has recorded is
reported within its stage, before the stage is completed.  The phases of a command are told up
to the first one that stops at a fault (`told_or_stopped`), and the stage of that one reports
nothing.  So the warnings of a reshaping are the diagnostics recorded before that phase, and
what the phase itself has recorded is not among them (`reshape_warnings`).
-/

namespace ProtoShape

/-! ## Reports among events -/

/-- The warning that an event gives, with its level. -/
def Event.warning? (event : Event) : Option (String × Notice) :=
  match event.what with
  | .warning notice => some (event.level, notice)
  | _ => none

/-- The generated components that an event names. -/
def Event.generated? (event : Event) : Option (List String) :=
  match event.what with
  | .componentsGenerated names => some names
  | _ => none

/-- The written document that an event tells of. -/
def Event.written? (event : Event) : Option WrittenDocument :=
  match event.what with
  | .documentWritten written => some written
  | _ => none

/-- The stage that an event opens. -/
def Event.startedStage? (event : Event) : Option String :=
  match event.what with
  | .stageStarted stage _ => some stage
  | _ => none

/-- A diagnostic as a warning: its level is in capitals, and there is no hint. -/
def Diagnostic.warning (diagnostic : Diagnostic) : String × Notice :=
  (Text.upper diagnostic.level,
    ⟨diagnostic.code, diagnostic.message, some diagnostic.location, none⟩)

/-! ## Stages that are done -/

/-- The events of a stage that is done. -/
def stageDone (command : String) (stage : Stage) (reports : List Event)
    (status : String) : List Event :=
  .of command (.stageStarted stage.id stage.label) :: reports ++
    [.of command (.stageCompleted stage.id .zero status)]

/-- Nothing is read off the events that mark the course of a command. -/
def ReadsRemarks {α : Type} (f : Event → Option α) : Prop :=
  ∀ command what, what.isRemark = false → f (.of command what) = none

theorem readsRemarks_warning? : ReadsRemarks Event.warning? := by
  intro command what hwhat
  cases what <;> first | rfl | cases hwhat

theorem readsRemarks_generated? : ReadsRemarks Event.generated? := by
  intro command what hwhat
  cases what <;> first | rfl | cases hwhat

theorem readsRemarks_written? : ReadsRemarks Event.written? := by
  intro command what hwhat
  cases what <;> first | rfl | cases hwhat

theorem ReadsRemarks.stageDone {α : Type} {f : Event → Option α} (hf : ReadsRemarks f)
    (command : String) (stage : Stage) (reports : List Event) (status : String) :
    (stageDone command stage reports status).filterMap f = reports.filterMap f := by
  rw [ProtoShape.stageDone, List.filterMap_append, List.filterMap_cons_none (hf _ _ rfl),
    List.filterMap_cons_none (hf _ _ rfl), List.filterMap_nil, List.append_nil]

theorem startedStages_stageDone (command : String) (stage : Stage) (reports : List Event)
    (status : String) :
    (stageDone command stage reports status).filterMap Event.startedStage? =
      stage.id :: reports.filterMap Event.startedStage? := by
  have hopening : (Event.of command (.stageStarted stage.id stage.label)).startedStage? =
      some stage.id := rfl
  rw [stageDone, List.filterMap_append, List.filterMap_cons_some hopening]
  exact List.append_nil _

namespace Stream

variable {α : Type} {command : String} {files : FileSystem} {stage : Stage} {work : StageWork α}
  {next : α → Stream}

theorem after_after (before events : List Event) (stream : Stream) :
    after before (after events stream) = after (before ++ events) stream := by
  rw [after, after, after, List.append_assoc]

theorem stage_of_done {status : String} {result : α} (h : work.ending = .done status result) :
    Stream.stage command files stage work next =
      after (stageDone command stage work.reports status) (next result) := by
  unfold Stream.stage
  rw [h]
  rfl

/-- The command ends with success. -/
def Succeeds (stream : Stream) : Prop :=
  stream.crash? = none ∧ ∃ exitCode, completion? stream.events = some (true, exitCode)

theorem succeeds_success (command : String) (files : FileSystem) :
    (success command files).Succeeds :=
  ⟨rfl, 0, rfl⟩

theorem Succeeds.after {stream : Stream} (h : stream.Succeeds) (events : List Event) :
    (after events stream).Succeeds := by
  obtain ⟨hcrash, exitCode, hcompletion⟩ := h
  exact ⟨hcrash, exitCode, completion?_append events hcompletion⟩

/-- What comes before the completion of a command does not count for its success. -/
theorem succeeds_after {events : List Event} {stream : Stream} (h : completion? events = none) :
    (after events stream).Succeeds ↔ stream.Succeeds := by
  have hcompletion : completion? (events ++ stream.events) = completion? stream.events := by
    unfold completion? at h ⊢
    rw [List.getLast?_append]
    cases stream.events.getLast? with
    | none => exact h
    | some last => rfl
  unfold Succeeds
  simp only [after, hcompletion]

/-- Nothing is read off a stage whose reports say nothing, if nothing is read off what follows
it. -/
theorem filterMap_stage_eq_nil {β : Type} {f : Event → Option β} (hf : ReadsRemarks f)
    (hreports : work.reports.filterMap f = [])
    (hnext : ∀ status result, work.ending = .done status result →
      (next result).events.filterMap f = []) :
    (Stream.stage command files stage work next).events.filterMap f = [] := by
  unfold Stream.stage
  cases hending : work.ending with
  | done status result =>
      change (stageDone command stage work.reports status ++ (next result).events).filterMap f = []
      rw [List.filterMap_append, hf.stageDone, hreports, hnext status result hending,
        List.append_nil]
  | failed code message hint exitCode =>
      change ((_ :: work.reports) ++ [_, _]).filterMap f = []
      rw [List.filterMap_append, List.filterMap_cons_none (hf _ _ rfl), hreports,
        List.filterMap_cons_none (hf _ _ rfl), List.filterMap_cons_none (hf _ _ rfl)]
      rfl
  | crashed crash => exact (List.filterMap_cons_none (hf _ _ rfl)).trans hreports

theorem completion?_stageDone (reports : List Event) (status : String) :
    completion? (stageDone command stage reports status) = none := by
  unfold completion? stageDone
  rw [List.getLast?_concat]
  rfl

/-- A command with success is done with each of its stages. -/
theorem Succeeds.exists_done (h : (Stream.stage command files stage work next).Succeeds) :
    ∃ status result, work.ending = .done status result ∧ (next result).Succeeds := by
  cases hending : work.ending with
  | done status result =>
      rw [stage_of_done hending] at h
      exact ⟨status, result, rfl, (succeeds_after (completion?_stageDone _ _)).1 h⟩
  | failed code message hint exitCode =>
      unfold Stream.stage at h
      rw [hending] at h
      obtain ⟨-, code', hcode⟩ := h
      simp only [List.append_cons _ _ [_], completion?, List.getLast?_concat] at hcode
      cases hcode
  | crashed crash =>
      unfold Stream.stage at h
      rw [hending] at h
      cases h.1

end Stream

/-! ## Phases that are done -/

namespace Command

/-- The phases are done one after the other, from a run to the run afterwards, with the events
of their stages. -/
inductive Told : List Phase → Run → List Event → Run → Prop where
  | nil (run : Run) : Told [] run [] run
  | cons {phase : Phase} {rest : List Phase} {run between after : Run} {events : List Event} :
      phase.run.run run = (.ok (), between) → Told rest between events after →
      Told (phase :: rest) run
        (stageDone "rewrite" (stageOf phase) (phaseReports phase run between) "success" ++ events)
          after

section

variable (phase : Phase) (run after : Run)

theorem phaseReports_warnings :
    (phaseReports phase run after).filterMap Event.warning? =
      (after.diagnostics.drop run.diagnostics.length).map Diagnostic.warning := by
  have hgenerated : (if phase = .restructure && !after.generated.isEmpty then
      [reshapeEvent (.componentsGenerated after.generated)] else []).filterMap
        Event.warning? = [] := by
    split <;> rfl
  rw [phaseReports, List.filterMap_append, hgenerated, List.append_nil, List.filterMap_map]
  exact congrFun List.filterMap_eq_map _

theorem phaseReports_generated :
    (phaseReports phase run after).filterMap Event.generated? =
      if phase = .restructure && !after.generated.isEmpty then [after.generated] else [] := by
  have hwarnings :
      ((after.diagnostics.drop run.diagnostics.length).map (.ofDiagnostic "rewrite")).filterMap
      Event.generated? = [] := by
    rw [List.filterMap_map]
    exact List.filterMap_eq_nil_iff.2 fun _ _ => rfl
  rw [phaseReports, List.filterMap_append, hwarnings, List.nil_append]
  split <;> rfl

/-- Phases report warnings and generated components only. -/
theorem phaseReports_others {α : Type} {f : Event → Option α}
    (hwarning : ∀ diagnostic, f (.ofDiagnostic "rewrite" diagnostic) = none)
    (hgenerated : ∀ names, f (reshapeEvent (.componentsGenerated names)) = none) :
    (phaseReports phase run after).filterMap f = [] := by
  refine List.filterMap_eq_nil_iff.2 fun event hevent => ?_
  rcases List.mem_append.1 hevent with hmem | hmem
  · obtain ⟨diagnostic, -, rfl⟩ := List.mem_map.1 hmem
    exact hwarning diagnostic
  · split at hmem
    · rw [List.mem_singleton.1 hmem]
      exact hgenerated _
    · cases hmem

end

section

variable {list done rest : List Phase} {phase : Phase} {run between after stopped : Run}
    {events : List Event}
  {fault : Fault} {files : FileSystem} {debug : Bool} {next : Run → Stream}

theorem phaseWork_of_ok (h : phase.run.run run = (.ok (), after)) :
    phaseWork debug phase run = .success (phaseReports phase run after) after := by
  unfold phaseWork
  rw [h]

/-- The stage of a phase that stops at a fault reports nothing. -/
theorem phaseWork_of_error (debug : Bool) (h : phase.run.run run = (.error fault, stopped)) :
    (phaseWork debug phase run).reports = [] ∧
      ∀ status result, (phaseWork debug phase run).ending ≠ .done status result := by
  unfold phaseWork
  rw [h]
  simp only
  split
  · exact ⟨rfl, fun _ _ => nofun⟩
  · exact ⟨rfl, fun _ _ => nofun⟩

/-- Phases are done, all of them or up to one that stops at a fault. -/
theorem told_or_stopped (list : List Phase) (run : Run) :
    ∃ done rest events after, list = done ++ rest ∧ Told done run events after ∧
      (rest = [] ∨ ∃ phase rest' fault stopped,
        rest = phase :: rest' ∧ phase.run.run after = (.error fault, stopped)) := by
  induction list generalizing run with
  | nil => exact ⟨[], [], [], run, rfl, .nil run, Or.inl rfl⟩
  | cons phase rest ih =>
      rcases hphase : phase.run.run run with ⟨fault | _, between⟩
      · exact ⟨[], phase :: rest, [], run, rfl, .nil run,
          Or.inr ⟨phase, rest, fault, between, rfl, hphase⟩⟩
      · obtain ⟨done, rest', events, after, rfl, htold, hend⟩ := ih between
        exact ⟨phase :: done, rest', _, after, rfl, .cons hphase htold, hend⟩

/-- Phases that end are done one after the other. -/
theorem told_of_run (h : (list.forM Phase.run).run run = (.ok (), after)) :
    ∃ events, Told list run events after := by
  induction list generalizing run with
  | nil =>
      cases h
      exact ⟨[], .nil _⟩
  | cons phase rest ih =>
      obtain ⟨_, between, hphase, hrest⟩ := RiskyStep.exists_of_run_bind h
      obtain ⟨events, htold⟩ := ih hrest
      exact ⟨_, .cons hphase htold⟩

/-- A command with success is done with all of its phases. -/
theorem exists_told (h : (phases files debug next list run).Succeeds) :
    ∃ events after, Told list run events after ∧ (next after).Succeeds := by
  induction list generalizing run with
  | nil => exact ⟨[], run, .nil run, h⟩
  | cons phase rest ih =>
      obtain ⟨status, between, hending, hrest⟩ := h.exists_done
      rcases hphase : phase.run.run run with ⟨fault | _, reached⟩
      · exact absurd hending ((phaseWork_of_error debug hphase).2 status between)
      · rw [phaseWork_of_ok hphase] at hending
        cases hending
        obtain ⟨events, after, htold, hnext⟩ := ih hrest
        exact ⟨_, after, .cons hphase htold, hnext⟩

namespace Told

/-- The stream of phases that are done goes on with what follows them. -/
theorem phases_eq (h : Told done run events between) :
    phases files debug next (done ++ rest) run =
      Stream.after events (phases files debug next rest between) := by
  induction h with
  | nil run => rfl
  | cons hphase _ ih =>
      rw [List.cons_append, phases, phaseWork_of_ok hphase, Stream.stage_of_done rfl, ih,
        Stream.after_after]
      rfl

theorem run_append (h : Told done run events between) (rest : List Phase) :
    ((done ++ rest).forM Phase.run).run run = (rest.forM Phase.run).run between := by
  induction h with
  | nil run => rfl
  | cons hphase _ ih => exact (RiskyStep.run_bind_of_ok hphase).trans ih

theorem run_eq (h : Told list run events after) :
    (list.forM Phase.run).run run = (.ok (), after) := by
  rw [← List.append_nil list, h.run_append []]
  rfl

theorem sound (h : Told list run events after) (hsound : run.Sound) : after.Sound := by
  have hphases := phases_sound list hsound
  rwa [h.run_eq] at hphases

/-- The warnings are what the phases have recorded. -/
theorem warnings (h : Told list run events after) (hsound : run.Sound) :
    ∃ recorded, after.diagnostics = run.diagnostics ++ recorded ∧
      events.filterMap Event.warning? = recorded.map Diagnostic.warning := by
  induction h with
  | nil run => exact ⟨[], (List.append_nil _).symm, rfl⟩
  | @cons phase rest run between after events hphase htold ih =>
      obtain ⟨recorded, hafter, hwarnings⟩ := ih (Phase.sound_of_run hsound hphase)
      have hrecords := phase.run_records hsound
      rw [hphase] at hrecords
      obtain ⟨first, hfirst⟩ := hrecords
      refine ⟨first ++ recorded, ?_, ?_⟩
      · rw [hafter, ← hfirst, List.append_assoc]
      · rw [List.filterMap_append, readsRemarks_warning?.stageDone, phaseReports_warnings, ← hfirst,
          List.drop_left, hwarnings, List.map_append]

theorem startedStages (h : Told list run events after) :
    events.filterMap Event.startedStage? = list.map fun phase => (stageOf phase).id := by
  induction h with
  | nil run => rfl
  | cons hphase _ ih =>
      rw [List.filterMap_append, ih, startedStages_stageDone,
        phaseReports_others _ _ _ (fun _ => rfl) (fun _ => rfl)]
      rfl

theorem written (h : Told list run events after) : events.filterMap Event.written? = [] := by
  induction h with
  | nil run => rfl
  | cons hphase _ ih =>
      rw [List.filterMap_append, ih, readsRemarks_written?.stageDone,
        phaseReports_others _ _ _ (fun _ => rfl) (fun _ => rfl), List.append_nil]

/-- The generated components are named once, unless there are none. -/
theorem generated (h : Told Phase.all run events after) (hsound : run.Sound) :
    events.filterMap Event.generated? = if after.generated = [] then [] else [after.generated] := by
  obtain _ | ⟨hsimplify, _ | ⟨hrestructure, _ | ⟨hannotate, _ | _⟩⟩⟩ := h
  rename_i simplified restructured
  have hsound' := Phase.sound_of_run (Phase.sound_of_run hsound hsimplify) hrestructure
  -- Only the second phase generates components, so they are still the same at the end.
  have hkept : after.generated = restructured.generated :=
    congrArg (List.map Prod.snd) (Phase.run_schemas? (by decide) hsound' hannotate).2.1
  simp only [List.filterMap_append, List.filterMap_nil, phaseReports_generated,
    readsRemarks_generated?.stageDone]
  rw [hkept]
  by_cases hnone : restructured.generated = [] <;> simp [hnone]

end Told

end

/-! ## Reshapings with loaded inputs -/

/-- A reshaping has loaded its configuration and its document. -/
structure Inputs (libs : Libraries) (files : FileSystem) (request : ReshapeRequest)
    (config : Config) (source : FilePath) (document : Value) : Prop where
  hasProject : (request.projectIn files).hasNull = false
  loadsConfig : Config.load libs files (request.projectIn files) request.config = .ok config
  hasSource : sourcePath? (request.projectIn files) config request.document = some source
  loadsDocument : Document.load libs files source = .ok document

/-- The event that starts a reshaping. -/
def reshapeStarted (files : FileSystem) (request : ReshapeRequest) : Event :=
  reshapeEvent (.commandStarted (some (request.projectIn files))
    (some (Config.pathIn (request.projectIn files) request.config)) request.document
    (some request.options))

/-- The events of the two stages that load the inputs. -/
def inputsLoaded (source : FilePath) (document : Value) : List Event :=
  stageDone "rewrite" .loadConfig [] "success" ++
    stageDone "rewrite" .loadDocument
      [.of "rewrite" (.documentLoaded (loadedDocument source document))] "success"

section

variable {libs : Libraries} {files : FileSystem} {request : ReshapeRequest} {config : Config}
  {source : FilePath} {document : Value}

theorem loadingSource_of_ok (h : Document.load libs files source = .ok document) :
    loadingSource libs files (some source) =
      .success [.of "rewrite" (.documentLoaded (loadedDocument source document))]
        (source, document) := by
  simp only [loadingSource, loading, h]
  rfl

theorem loadingSource_done {asked : Option FilePath} {status : String}
    (h : (loadingSource libs files asked).ending = .done status (source, document)) :
    asked = some source ∧ Document.load libs files source = .ok document := by
  cases asked with
  | none => cases h
  | some path =>
      simp only [loadingSource, loading] at h
      cases hload : Document.load libs files path with
      | error error =>
          rw [hload] at h
          by_cases hreported : error.isReported = true
          · simp only [hreported] at h
            cases h
          · simp only [hreported] at h
            cases h
      | ok loaded =>
          rw [hload] at h
          cases h
          exact ⟨rfl, hload⟩

/-- A reshaping that has loaded its inputs goes on with the phases. -/
theorem Inputs.reshape_eq (h : Inputs libs files request config source document) :
    reshape libs files request =
      Stream.after (reshapeStarted files request :: inputsLoaded source document)
        (phases files request.debug (writingStage libs files request config source) Phase.all
          (Run.start config.options (.ofValue document))) := by
  rw [Command.reshape_eq h.hasProject]
  unfold reshapeStages loadingConfig
  rw [h.loadsConfig, Stream.stage_of_done rfl, h.hasSource, loadingSource_of_ok h.loadsDocument,
    Stream.stage_of_done rfl, Stream.after_after, Stream.after_after]
  rfl

/-- A reshaping with success has loaded its inputs. -/
theorem exists_inputs (h : (reshape libs files request).Succeeds) :
    ∃ config source document, Inputs libs files request config source document := by
  have hproject : (request.projectIn files).hasNull = false := by
    by_contra hnull
    unfold reshape at h
    rw [if_pos (by simpa using hnull)] at h
    cases h.1
  rw [Command.reshape_eq hproject, Stream.succeeds_after rfl] at h
  obtain ⟨_, config, hconfig, h⟩ := h.exists_done
  obtain ⟨_, ⟨source, document⟩, hsource, -⟩ := h.exists_done
  have hload : Config.load libs files (request.projectIn files) request.config = .ok config := by
    unfold loadingConfig at hconfig
    split at hconfig <;> cases hconfig
    assumption
  obtain ⟨hasked, hdocument⟩ := loadingSource_done hsource
  exact ⟨config, source, document, hproject, hload, hasked, hdocument⟩

/-- The last stage reports where the result goes, and nothing else. -/
theorem filterMap_writingStage_eq_nil {α : Type} {f : Event → Option α} (hf : ReadsRemarks f)
    (hdebug : ∀ message data, f (reshapeEvent (.debug message data)) = none)
    (hwritten : ∀ written, f (reshapeEvent (.documentWritten written)) = none) (run : Run) :
    (writingStage libs files request config source run).events.filterMap f = [] := by
  have hreports {work : StageWork Unit}
      (h : Writes libs files request config source run.document work) :
      work.reports.filterMap f = [] := by
    cases h with
    | crashed | failed => rfl
    | skipped => exact List.filterMap_cons_none (hdebug _ _)
    | written => exact List.filterMap_cons_none (hwritten _)
  exact Stream.filterMap_stage_eq_nil hf (hreports (writing_writes ..)) fun _ _ _ =>
    List.filterMap_cons_none (hf _ _ rfl)

theorem writingStage_warnings (run : Run) :
    (writingStage libs files request config source run).events.filterMap Event.warning? = [] :=
  filterMap_writingStage_eq_nil readsRemarks_warning? (fun _ _ => rfl) (fun _ => rfl) run

/-- A reshaping that has loaded its inputs warns of what has been recorded by the phases that
were done.  That is all that is recorded, unless a phase stops at a fault.  Then what this phase
has recorded before is kept in the state of the run, but not reported. -/
theorem reshape_warnings (h : Inputs libs files request config source document) :
    ∃ done rest after, Phase.all = done ++ rest ∧
      (done.forM Phase.run).run (Run.start config.options (.ofValue document)) = (.ok (), after) ∧
      (reshape libs files request).events.filterMap Event.warning? =
        after.diagnostics.map Diagnostic.warning ∧
      ((rest = [] ∧ allPhases.run (Run.start config.options (.ofValue document)) =
        (.ok (), after)) ∨
        ∃ phase rest' fault stopped, rest = phase :: rest' ∧
        phase.run.run after = (.error fault, stopped) ∧
          allPhases.run (Run.start config.options (.ofValue document)) = (.error fault, stopped) ∧
          after.diagnostics <+: stopped.diagnostics) := by
  have hsound := Run.start_sound config.options document
  obtain ⟨done, rest, events, after, hall, htold, hend⟩ :=
    told_or_stopped Phase.all (Run.start config.options (.ofValue document))
  obtain ⟨recorded, hafter, hwarnings⟩ := htold.warnings hsound
  have hevents : (reshape libs files request).events.filterMap Event.warning? =
      after.diagnostics.map Diagnostic.warning ++
        (phases files request.debug (writingStage libs files request config source) rest
          after).events.filterMap
          Event.warning? := by
    rw [h.reshape_eq, hall, htold.phases_eq, hafter]
    simp only [Stream.after, List.filterMap_append, hwarnings]
    rfl
  refine ⟨done, rest, after, hall, htold.run_eq, ?_⟩
  -- There is no warning after the phases that were done: neither the last stage has one, nor the
  -- stage of a phase that stops.
  rcases hend with rfl | ⟨phase, rest', fault, stopped, rfl, hphase⟩
  · rw [hevents, phases, writingStage_warnings, List.append_nil]
    refine ⟨rfl, Or.inl ⟨rfl, ?_⟩⟩
    rw [allPhases, hall, List.append_nil]
    exact htold.run_eq
  · obtain ⟨hreports, hnever⟩ := phaseWork_of_error request.debug hphase
    have hrecords := phase.run_records (htold.sound hsound)
    rw [hphase] at hrecords
    rw [hevents, phases, Stream.filterMap_stage_eq_nil readsRemarks_warning? (hreports ▸ rfl)
      fun status result hdone => absurd hdone (hnever status result), List.append_nil]
    refine ⟨rfl, Or.inr ⟨phase, rest', fault, stopped, rfl, hphase, ?_, hrecords⟩⟩
    rw [allPhases, hall, htold.run_append]
    exact RiskyStep.run_bind_of_error hphase

end

end Command

end ProtoShape
