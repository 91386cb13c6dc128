import ProtoShape.Proofs.Command.Loading
import ProtoShape.Proofs.Command.Reports
import ProtoShape.Proofs.Files
import ProtoShape.Proofs.Reshape.Total

/-!
# A reshaping and its command

A command that ends with success has done what the reshaping of its document does.  `Agrees`
says so part by part: the warnings are the diagnostics, the generated components are named, and
the file that is written holds the text of the resulting document.  `Rehearsed` is about the same
request as a dry run, which goes the same way up to the stage that writes.

Both come from the same two facts.  The phases of the command are `Told`, which makes them a run
of all phases, too.  And the events before the last stage do not depend on whether the run is dry
(`reshape_reaches`).
-/

namespace ProtoShape

/-! ## Writing a document -/

namespace Document

/-- A document is written if it has a text in the format and the text can be written. -/
theorem write_eq_ok_iff {τ : Type} {libs : Libraries} {fs after : FileSystem} {path : FilePath}
    {document : Tree τ} {format : String} {bytes : Nat} :
    write libs fs path document format = (after, .ok bytes) ↔
      ∃ text, dump libs document format = .ok text ∧ fs.writeText path text = (after, .ok ()) ∧
        bytes = text.utf8ByteSize := by
  unfold write
  cases dump libs document format with
  | error error => simp
  | ok text =>
      rcases hwritten : fs.writeText path text with ⟨written, error | _⟩
      · simp [hwritten]
      · simp [hwritten, eq_comm (a := bytes)]

end Document

namespace Command

/-! ## What the command promises -/

/-- The same request as a dry run. -/
def ReshapeRequest.rehearsal (request : ReshapeRequest) : ReshapeRequest :=
  { request with dryRun := true }

/-- The events tell what the reshaping of a document gives: every diagnostic as a warning, and
the names of the generated components, if there are any. -/
structure Tells (result : Reshaped) (events : List Event) : Prop where
  warnings : events.filterMap Event.warning? = result.diagnostics.map Diagnostic.warning
  generated : events.filterMap Event.generated? = if result.generated =
    [] then [] else [result.generated]

/-- The text of a document stands in the target file.  Nothing else has changed, apart from new
directories, and an event tells of the file and of its length. -/
def Delivers (libs : Libraries) (files : FileSystem) (target : FilePath) (format : String)
    (document : Node) (stream : Stream) : Prop :=
  ∃ text place, Document.dump libs document format = .ok text ∧
    stream.events.filterMap Event.written? = [⟨some target, format, text.utf8ByteSize⟩] ∧
    stream.files.place target = .ok place ∧ stream.files.look target = some (.file text) ∧
    FileSystem.Wrote files place text stream.files

/-- The request as a dry run ends with success and writes nothing.  Its options are the same
otherwise.  So are its events, from the start up to the opening of the last stage. -/
structure Rehearsed (libs : Libraries) (files : FileSystem) (request : ReshapeRequest) : Prop where
  succeeds : (reshape libs files request.rehearsal).Succeeds
  unchanged : (reshape libs files request.rehearsal).files = files
  written : (reshape libs files request.rehearsal).events.filterMap Event.written? = []
  options : ∀ name, name ≠ "dry_run" →
    request.rehearsal.options.get? (.text name) = request.options.get? (.text name)
  events : ∃ shared rest rest',
    shared.filterMap Event.startedStage? = Stage.ofReshape.dropLast.map Stage.id ∧
    (reshape libs files request).events = reshapeStarted files request ::
      shared ++ .of "rewrite" (.stageStarted Stage.writeDocument.id Stage.writeDocument.label) ::
        rest ∧
    (reshape libs files request.rehearsal).events = reshapeStarted files request.rehearsal ::
      shared ++ .of "rewrite" (.stageStarted Stage.writeDocument.id Stage.writeDocument.label) ::
        rest'

/-- The command has done what the reshaping of its document does. -/
structure Agrees (libs : Libraries) (files : FileSystem) (request : ReshapeRequest)
    (config : Config) (source target : FilePath) (document : Value) (result : Reshaped) :
    Prop where
  inputs : Inputs libs files request config source document
  reshapes : ProtoShape.reshape config.options (.ofValue document) = .ok result
  hasTarget : outputPath (request.projectIn files) config source request.output = .ok target
  tells : Tells result (reshape libs files request).events
  delivers : request.dryRun = false →
    Delivers libs files target (outputFormat config target request.format) result.document
      (reshape libs files request)
  rehearsed : Rehearsed libs files request

section

variable {libs : Libraries} {files : FileSystem} {request : ReshapeRequest} {config : Config}
  {source target : FilePath} {document : Value} {run after : Run} {events : List Event}

/-! ## The last stage -/

theorem writing_of_dryRun (libs : Libraries) (hdry : request.dryRun = true)
    (htarget : outputPath (request.projectIn files) config source request.output = .ok target)
    (document : Node) :
    writing libs files request config source document =
      (files, ⟨[reshapeEvent (.debug "Dry run; document not written."
        (some ⟨[(.text "path", .ofText target.toString),
          (.text "format", .ofText (outputFormat config target request.format))]⟩))],
        .done "skipped" ()⟩) := by
  unfold writing
  rw [htarget]
  simp only [hdry, if_true]

/-- A command with success has a target. -/
theorem exists_target (h : (writingStage libs files request config source run).Succeeds) :
    ∃ target,
      outputPath (request.projectIn files) config source request.output = .ok target := by
  cases htarget : outputPath (request.projectIn files) config source request.output with
  | ok target => exact ⟨target, rfl⟩
  | error error =>
      obtain ⟨status, result, hending, -⟩ := h.exists_done
      unfold writing at hending
      rw [htarget] at hending
      cases hending

theorem writing_of_write (hdry : request.dryRun = false)
    (htarget : outputPath (request.projectIn files) config source request.output = .ok target)
    {document : Node} {written : FileSystem} {bytes : Nat}
    (h : Document.write libs files target document (outputFormat config target request.format) =
      (written, .ok bytes)) :
    writing libs files request config source document =
      (written, .success [reshapeEvent (.documentWritten
        ⟨some target, outputFormat config target request.format, bytes⟩)] ()) := by
  unfold writing
  rw [htarget]
  simp only [hdry, h]
  rfl

/-- A command with success that is no dry run has written its target. -/
theorem exists_written (h : (writingStage libs files request config source run).Succeeds)
    (hdry : request.dryRun = false)
    (htarget : outputPath (request.projectIn files) config source request.output = .ok target) :
    ∃ written bytes, Document.write libs files target run.document
      (outputFormat config target request.format) = (written, .ok bytes) := by
  rcases hwrite : Document.write libs files target run.document
    (outputFormat config target request.format) with ⟨written, error | bytes⟩
  · obtain ⟨status, result, hending, -⟩ := h.exists_done
    unfold writing at hending
    rw [htarget] at hending
    simp only [hdry, hwrite, Bool.false_eq_true, if_false] at hending
    split at hending <;> cases hending
  · exact ⟨written, bytes, rfl⟩

theorem writingStage_of_done {reports : List Event} {status : String} {written : FileSystem}
    (h : writing libs files request config source run.document =
      (written, ⟨reports, .done status ()⟩)) :
    writingStage libs files request config source run =
      Stream.after (stageDone "rewrite" .writeDocument reports status)
        (Stream.success "rewrite" written) := by
  unfold writingStage
  rw [h]
  exact Stream.stage_of_done rfl

/-- A stage opens with an event. -/
theorem exists_stage_events {α : Type} (command : String) (files : FileSystem) (stage : Stage)
    (work : StageWork α) (next : α → Stream) :
    ∃ rest, (Stream.stage command files stage work next).events =
      .of command (.stageStarted stage.id stage.label) :: rest := by
  unfold Stream.stage
  cases work.ending <;> exact ⟨_, rfl⟩

/-! ## The way to the last stage -/

/-- The events between the start of a reshaping and its last stage do not depend on whether it is
a dry run. -/
theorem reshape_reaches (hinputs : Inputs libs files request config source document)
    (htold : Told Phase.all (Run.start config.options (.ofValue document)) events after) :
    reshape libs files request =
      Stream.after (reshapeStarted files request :: (inputsLoaded source document ++ events))
        (writingStage libs files request config source after) := by
  have hphases :
      phases files request.debug (writingStage libs files request config source) Phase.all
      (Run.start config.options (.ofValue document)) =
      Stream.after events (writingStage libs files request config source after) := by
    rw [← List.append_nil Phase.all]
    exact htold.phases_eq
  rw [hinputs.reshape_eq, hphases, Stream.after_after]
  rfl

/-- What is read off the events of a reshaping comes from its phases and from its last stage. -/
theorem filterMap_reshape {α : Type} {f : Event → Option α} (hf : ReadsRemarks f)
    (hloaded : ∀ loaded, f (.of "rewrite" (.documentLoaded loaded)) = none)
    (hinputs : Inputs libs files request config source document)
    (htold : Told Phase.all (Run.start config.options (.ofValue document)) events after) :
    (reshape libs files request).events.filterMap f =
      events.filterMap f ++
        (writingStage libs files request config source after).events.filterMap f := by
  have hbefore :
      (reshapeStarted files request :: inputsLoaded source document).filterMap f = [] := by
    rw [reshapeStarted, reshapeEvent, List.filterMap_cons_none (hf _ _ rfl), inputsLoaded,
      List.filterMap_append, hf.stageDone, hf.stageDone, List.filterMap_cons_none (hloaded _)]
    rfl
  rw [reshape_reaches hinputs htold]
  change List.filterMap f
    ((reshapeStarted files request :: inputsLoaded source document) ++ events ++ _) = _
  rw [List.filterMap_append, List.filterMap_append, hbefore]
  rfl

/-- The stages before the last one are opened in their order. -/
theorem startedStages_shared (source : FilePath) (document : Value)
    (htold : Told Phase.all run events after) :
    (inputsLoaded source document ++ events).filterMap Event.startedStage? =
      Stage.ofReshape.dropLast.map Stage.id := by
  rw [List.filterMap_append, htold.startedStages]
  rfl

/-! ## The two runs -/

theorem rehearsal_options (request : ReshapeRequest) {name : String} (h : name ≠ "dry_run") :
    request.rehearsal.options.get? (.text name) = request.options.get? (.text name) := by
  simp [ReshapeRequest.rehearsal, ReshapeRequest.options, Entries.get?, Entries.lookup, h.symm]

theorem rehearsed (hinputs : Inputs libs files request config source document)
    (htold : Told Phase.all (Run.start config.options (.ofValue document)) events after)
    (htarget : outputPath (request.projectIn files) config source request.output = .ok target) :
    Rehearsed libs files request := by
  -- A dry run loads the same inputs, and its target has the same path.
  have hinputs' : Inputs libs files request.rehearsal config source document :=
    ⟨hinputs.hasProject, hinputs.loadsConfig, hinputs.hasSource, hinputs.loadsDocument⟩
  have hdry : request.rehearsal.dryRun = true := rfl
  have hwork := writing_of_dryRun libs hdry htarget after.document
  have hstage := writingStage_of_done hwork
  have hopens (request : ReshapeRequest) :
      ∃ rest, (writingStage libs files request config source after).events = .of "rewrite"
        (.stageStarted Stage.writeDocument.id Stage.writeDocument.label) :: rest :=
    exists_stage_events ..
  obtain ⟨rest, hrest⟩ := hopens request
  obtain ⟨rest', hrest'⟩ := hopens request.rehearsal
  have hreaches := reshape_reaches hinputs htold
  have hreaches' := reshape_reaches hinputs' htold
  refine ⟨?_, ?_, ?_, fun name hname => rehearsal_options request hname, ?_⟩
  · rw [hreaches', hstage]
    exact ((Stream.succeeds_success "rewrite" files).after _).after _
  · rw [hreaches', hstage]
    rfl
  · rw [filterMap_reshape readsRemarks_written? (fun _ => rfl) hinputs' htold, htold.written,
      hstage]
    rfl
  · have hstarted := startedStages_shared source document htold
    refine ⟨inputsLoaded source document ++ events, rest, rest', hstarted, ?_, ?_⟩
    · rw [hreaches, Stream.after, hrest]
    · rw [hreaches', Stream.after, hrest']

end

end Command

/-- A command with success has done what the reshaping of its document does: it has loaded a
configuration and a document, the reshaping of this document with the options of this
configuration has a result, and events and files are as the result says.  A dry run of the same
request takes the same course, up to the stage that writes, and leaves all files as they are. -/
theorem reshape_agrees (libs : Libraries) (files : FileSystem) (request : Command.ReshapeRequest)
    (h : (Command.reshape libs files request).Succeeds) :
    ∃ config source target document result,
      Command.Agrees libs files request config source target document result := by
  obtain ⟨config, source, document, hinputs⟩ := Command.exists_inputs h
  rw [hinputs.reshape_eq, Stream.succeeds_after rfl] at h
  obtain ⟨events, after, htold, hwriting⟩ := Command.exists_told h
  obtain ⟨target, htarget⟩ := Command.exists_target hwriting
  have hsound := Run.start_sound config.options document
  have hmapping : (Node.ofValue document).fields?.isSome = true := by
    rw [Node.ofValue, Tree.fields?_mapTags, Option.isSome_map]
    exact Document.load_mapping hinputs.loadsDocument
  obtain ⟨recorded, hrecorded, hwarnings⟩ := htold.warnings hsound
  refine ⟨config, source, target, document,
    ⟨after.document, after.diagnostics, after.generated⟩, hinputs,
    reshape_of_run hmapping htold.run_eq, htarget, ⟨?_, ?_⟩, fun hdry => ?_,
    Command.rehearsed hinputs htold htarget⟩
  · rw [Command.filterMap_reshape readsRemarks_warning? (fun _ => rfl) hinputs htold, hwarnings,
      Command.writingStage_warnings, List.append_nil, hrecorded]
    rfl
  · rw [Command.filterMap_reshape readsRemarks_generated? (fun _ => rfl) hinputs htold,
      htold.generated hsound,
      Command.filterMap_writingStage_eq_nil readsRemarks_generated? (fun _ _ => rfl) (fun _ => rfl),
      List.append_nil]
  · obtain ⟨written, bytes, hwrite⟩ := Command.exists_written hwriting hdry htarget
    obtain ⟨text, hdump, htext, rfl⟩ := Document.write_eq_ok_iff.1 hwrite
    obtain ⟨place, hplace, hwrote⟩ := FileSystem.writeText_wrote htext
    have hstage := Command.writingStage_of_done (Command.writing_of_write hdry htarget hwrite)
    have hfiles : (Command.reshape libs files request).files = written := by
      rw [Command.reshape_reaches hinputs htold, hstage]
      rfl
    refine ⟨text, place, hdump, ?_, ?_⟩
    · rw [Command.filterMap_reshape readsRemarks_written? (fun _ => rfl) hinputs htold,
        htold.written, hstage]
      rfl
    · rw [hfiles]
      exact ⟨hplace, hwrote.look hplace, hwrote⟩

/-- A directory with a document whose only union has a reference that leads nowhere. -/
def lostFiles : FileSystem where
  workingDirectory := ⟨"/", ["work"]⟩
  entries := [(["work"], .directory), (["work", "api.json"], .file
    ("\x7b\"components\":\x7b\"schemas\":\x7b\"S\":\x7b\"oneOf\":[" ++
      "\x7b\"title\":\"t\",\"type\":\"string\"\x7d,\x7b\"$ref\":\"#/x\"\x7d]\x7d\x7d\x7d\x7d"))]

/-- The document in that directory. -/
def lostDocument : Value :=
  .ofEntries [("components", .ofEntries [("schemas", .ofEntries [("S",
    .ofEntries [("oneOf", .ofList
      [.ofEntries [("title", .ofText "t"), ("type", .ofText "string")],
        .ofEntries [("$ref", .ofText "#/x")]])])])])]

/-- The request to reshape that document and to write the result beside it. -/
def lostRequest : Command.ReshapeRequest :=
  ⟨.ofString ".", some (.ofString "api.json"), none, none, none, false, false⟩

set_option maxRecDepth 100000 in
theorem lost_inputs :
    Command.Inputs .builtIn lostFiles lostRequest .standard (.ofString "api.json") lostDocument :=
  ⟨by cbv, by cbv, rfl, by cbv⟩

theorem lost_succeeds : (Command.reshape .builtIn lostFiles lostRequest).Succeeds := by
  have hrun :
      (allPhases.run (Run.start .standard (.ofValue lostDocument))).1.toOption.isSome = true ∧
      (Document.dump .builtIn
        (allPhases.run (Run.start .standard (.ofValue lostDocument))).2.document
        "json").toOption.isSome = true := by decide +kernel
  have htarget : Command.outputPath (lostRequest.projectIn lostFiles) .standard
      (.ofString "api.json") none = .ok (.ofString "api.rewritten.json") := by cbv
  have hformat : Command.outputFormat .standard (.ofString "api.rewritten.json") none = "json" := by
    decide +kernel
  have hplace : lostFiles.place (.ofString "api.rewritten.json") =
      .ok ["work", "api.rewritten.json"] := by cbv
  have habove : lostFiles.place (FilePath.parent (.ofString "api.rewritten.json")) =
      .ok ["work"] := by cbv
  rcases hafter : allPhases.run (Run.start .standard (.ofValue lostDocument)) with
    ⟨fault | _, after⟩
  · rw [hafter] at hrun
    cases hrun.1
  · rw [hafter] at hrun
    obtain ⟨events, htold⟩ := Command.told_of_run hafter
    cases hdump : Document.dump .builtIn after.document "json" with
    | error error =>
        rw [hdump] at hrun
        cases hrun.2
    | ok text =>
        have hwritten := FileSystem.writeText_of_directory habove (by decide +kernel) hplace
          (by decide +kernel) rfl text
        have hwrite := Document.write_eq_ok_iff.2 ⟨text, hdump, hwritten, rfl⟩
        rw [← hformat] at hwrite
        have hwriting := Command.writing_of_write
          (show lostRequest.dryRun = false from rfl) htarget hwrite
        rw [Command.reshape_reaches lost_inputs htold, Command.writingStage_of_done hwriting]
        exact ((Stream.succeeds_success _ _).after _).after _

/-- The command warns of the reference as the reshaping of that document does, and its result is
written. -/
theorem reshape_agrees_lost : (Command.reshape .builtIn lostFiles lostRequest).Succeeds ∧
    ∃ config source target document result,
      Command.Agrees .builtIn lostFiles lostRequest config source target document result ∧
      result.diagnostics.map Diagnostic.location = ["#/components/schemas/S/oneOf/1"] := by
  obtain ⟨config, source, target, document, result, hagrees⟩ :=
    reshape_agrees .builtIn lostFiles lostRequest lost_succeeds
  refine ⟨lost_succeeds, config, source, target, document, result, hagrees, ?_⟩
  have hinputs := hagrees.inputs
  obtain rfl : config = .standard :=
    Except.ok.inj (hinputs.loadsConfig.symm.trans lost_inputs.loadsConfig)
  obtain rfl : source = _ := Option.some.inj (hinputs.hasSource.symm.trans lost_inputs.hasSource)
  obtain rfl : document = _ :=
    Except.ok.inj (hinputs.loadsDocument.symm.trans lost_inputs.loadsDocument)
  have hdiagnostics : (reshape Config.standard.options (.ofValue lostDocument)).toOption.map
      (fun reshaped => reshaped.diagnostics.map Diagnostic.location) =
        some ["#/components/schemas/S/oneOf/1"] := by
    decide +kernel
  rw [hagrees.reshapes] at hdiagnostics
  exact Option.some.inj hdiagnostics

end ProtoShape
