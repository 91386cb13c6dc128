import Mathlib
import ProtoShape.Libraries
import ProtoShape.Command.Checking
import ProtoShape.Command.Reshaping

/-!
# The course of a command

`Course` says in which order the events of a command come: for one stage after the other the
opening, any number of remarks and the closing, until a stage fails or there is no stage left,
and then the completion of the command.  `Keeps` is what a stream has to do with a course.  Its
events begin one; where nothing crashes, they are a whole one, and `Ends` says how it ends.

`Stream.keeps_stage` is the step from a stage to what follows it.  The two commands are such
stages in a row, so what is left for each stage is to look at its reports and at its exit code
(`Command.check_keeps`, `Command.reshape_keeps`).
-/

namespace ProtoShape

/-! ## What events tell -/

/-- Whether an event leaves the course of the command and of its stages where it is. -/
def Happening.isRemark : Happening → Bool
  | commandStarted _ _ _ _ | commandCompleted _ _ => false
  | stageStarted _ _ | stageCompleted _ _ _ | stageFailed _ => false
  | _ => true

/-- The stage that an event completes. -/
def Event.completedStage? (event : Event) : Option String :=
  match event.what with
  | .stageCompleted stage _ _ => some stage
  | _ => none

/-- The stage that an event makes fail. -/
def Event.failedStage? (event : Event) : Option String :=
  match event.what with
  | .stageFailed failure => some failure.stage
  | _ => none

/-- Whether the command was successful, and its exit code, where an event completes it. -/
def Event.completion? (event : Event) : Option (Bool × Int) :=
  match event.what with
  | .commandCompleted ok exitCode => some (ok, exitCode)
  | _ => none

/-- The stages that are completed. -/
def completedStages (events : List Event) : List String := events.filterMap Event.completedStage?

/-- The stages that fail. -/
def failedStages (events : List Event) : List String := events.filterMap Event.failedStage?

/-- How the last event completes a command. -/
def completion? (events : List Event) : Option (Bool × Int) :=
  events.getLast?.bind Event.completion?

/-- A remark of a command. -/
structure Remark (command : String) (event : Event) : Prop where
  command : event.command = command
  remark : event.what.isRemark = true

/-! ## Courses -/

/-- The events of a command from the opening of the first of these stages to its completion. -/
inductive Course (command : String) : List Stage → List Event → Prop where
  | complete (ok : Bool) (exitCode : Int) :
      Course command [] [.of command (.commandCompleted ok exitCode)]
  | done {stage stages remarks rest} (duration : Amount) (status : String) :
      (∀ event ∈ remarks, Remark command event) → Course command stages rest →
      Course command (stage :: stages)
        (.of command (.stageStarted stage.id stage.label) :: remarks ++
          .of command (.stageCompleted stage.id duration status) :: rest)
  | failed {stage stages remarks} (failure : StageFailure) (ok : Bool) (exitCode : Int) :
      (∀ event ∈ remarks, Remark command event) → failure.stage = stage.id →
      Course command (stage :: stages)
        (.of command (.stageStarted stage.id stage.label) :: remarks ++
          [.of command (.stageFailed failure), .of command (.commandCompleted ok exitCode)])

/-- The events of a whole command. -/
def Protocol (command : String) (stages : List Stage) (events : List Event) : Prop :=
  ∃ project config document options rest,
    events = .of command (.commandStarted project config document options) :: rest ∧
    Course command stages rest

/-- How a command ends that goes through these stages: they are all completed, or one of them
fails after the ones before it. -/
inductive Ends (codeOf : Stage → Int) (stages : List Stage) (events : List Event) : Prop where
  | passed : completion? events = some (true, 0) → failedStages events = [] →
      completedStages events = stages.map Stage.id → Ends codeOf stages events
  | failed (before : List Stage) (stage : Stage) (after : List Stage) :
      stages = before ++ stage :: after →
      completion? events = some (false, codeOf stage) → failedStages events = [stage.id] →
      completedStages events = before.map Stage.id → Ends codeOf stages events

section

variable {command : String} {events : List Event} {event : Event}

theorem completion?_append (events : List Event) {rest : List Event} {completion : Bool × Int}
    (h : completion? rest = some completion) : completion? (events ++ rest) = some completion := by
  obtain ⟨last, hlast, hcompletion⟩ := Option.bind_eq_some_iff.1 h
  rw [completion?, List.getLast?_append, hlast]
  exact hcompletion

theorem completedStages_append (events rest : List Event) :
    completedStages (events ++ rest) = completedStages events ++ completedStages rest :=
  List.filterMap_append

theorem failedStages_append (events rest : List Event) :
    failedStages (events ++ rest) = failedStages events ++ failedStages rest :=
  List.filterMap_append

theorem Remark.completedStage? (h : Remark command event) : event.completedStage? = none := by
  have hremark := h.remark
  unfold Event.completedStage?
  split
  · rename_i hwhat
    rw [hwhat] at hremark
    cases hremark
  · rfl

theorem Remark.failedStage? (h : Remark command event) : event.failedStage? = none := by
  have hremark := h.remark
  unfold Event.failedStage?
  split
  · rename_i hwhat
    rw [hwhat] at hremark
    cases hremark
  · rfl

/-- The opening of a stage with its remarks completes no stage. -/
theorem completedStages_opening (stage : Stage) (h : ∀ event ∈ events, Remark command event) :
    completedStages (.of command (.stageStarted stage.id stage.label) :: events) = [] :=
  List.filterMap_eq_nil_iff.2 fun event hevent => by
    rcases List.mem_cons.1 hevent with rfl | hremark
    · rfl
    · exact (h event hremark).completedStage?

/-- The opening of a stage with its remarks makes no stage fail. -/
theorem failedStages_opening (stage : Stage) (h : ∀ event ∈ events, Remark command event) :
    failedStages (.of command (.stageStarted stage.id stage.label) :: events) = [] :=
  List.filterMap_eq_nil_iff.2 fun event hevent => by
    rcases List.mem_cons.1 hevent with rfl | hremark
    · rfl
    · exact (h event hremark).failedStage?

end

section

variable {command : String} {codeOf : Stage → Int} {stage : Stage} {stages : List Stage}
    {opened rest : List Event}

/-- A stage that is done, and then the rest of the command. -/
theorem Ends.after_stage {duration : Amount} {status : String}
    (hcompleted : completedStages opened = [])
    (hfailed : failedStages opened = []) (h : Ends codeOf stages rest) :
    Ends codeOf (stage :: stages)
      (opened ++ .of command (.stageCompleted stage.id duration status) :: rest) := by
  have hcompleted' :
      completedStages (opened ++ .of command (.stageCompleted stage.id duration status) :: rest) =
      stage.id :: completedStages rest := by
    rw [completedStages_append, hcompleted]
    rfl
  have hfailed' :
      failedStages (opened ++ .of command (.stageCompleted stage.id duration status) :: rest) =
      failedStages rest := by
    rw [failedStages_append, hfailed]
    rfl
  rw [List.append_cons] at hcompleted' hfailed' ⊢
  cases h with
  | passed hlast hnone hall =>
      refine .passed (completion?_append _ hlast) (hfailed'.trans hnone) ?_
      rw [hcompleted', hall, List.map_cons]
  | failed before stage' after hstages hlast hone hbefore =>
      refine .failed (stage :: before) stage' after ?_ (completion?_append _ hlast)
        (hfailed'.trans hone) ?_
      · rw [hstages, List.cons_append]
      · rw [hcompleted', hbefore, List.map_cons]

/-- A stage that fails is the last one. -/
theorem Ends.of_failure {failure : StageFailure} (hstage : failure.stage = stage.id)
    (hcompleted : completedStages opened = []) (hfailed : failedStages opened = []) :
    Ends codeOf (stage :: stages) (opened ++ [.of command (.stageFailed failure),
      .of command (.commandCompleted false (codeOf stage))]) := by
  refine .failed [] stage stages rfl (completion?_append _ rfl) ?_ ?_
  · rw [failedStages_append, hfailed, ← hstage]
    rfl
  · rw [completedStages_append, hcompleted]
    rfl

end

/-! ## Streams -/

namespace Stream

/-- The stream begins a course through these stages; where nothing crashes, it is a whole one. -/
structure Keeps (command : String) (codeOf : Stage → Int) (stages : List Stage)
    (stream : Stream) : Prop where
  begins : ∃ whole, Course command stages whole ∧ stream.events <+: whole
  ends : stream.crash? = none → Course command stages stream.events ∧
    Ends codeOf stages stream.events

theorem keeps_success (command : String) (codeOf : Stage → Int) (files : FileSystem) :
    (success command files).Keeps command codeOf [] :=
  ⟨⟨_, .complete true 0, List.prefix_rfl⟩, fun _ => ⟨.complete true 0, .passed rfl rfl rfl⟩⟩

/-- A stage and what follows it keep a course if its reports are remarks, its failure has the
exit code of the stage, and what follows keeps a course. -/
theorem keeps_stage {α : Type} {command : String} {codeOf : Stage → Int} {stage : Stage}
    {stages : List Stage} {files : FileSystem} {work : StageWork α} {next : α → Stream}
    (hremarks : ∀ event ∈ work.reports, Remark command event)
    (hcode : ∀ code message hint exitCode, work.ending = .failed code message hint exitCode →
      exitCode = codeOf stage)
    (hnext : ∀ status result, work.ending = .done status result →
      (next result).Keeps command codeOf stages) :
    (Stream.stage command files stage work next).Keeps command codeOf (stage :: stages) := by
  have hcompleted := completedStages_opening stage hremarks
  have hfailed := failedStages_opening stage hremarks
  unfold Stream.stage
  cases hending : work.ending with
  | done status result =>
      obtain ⟨⟨whole, hcourse, hbegins⟩, hends⟩ := hnext status result hending
      refine ⟨⟨_, .done .zero status hremarks hcourse, ?_⟩, fun hcrash => ?_⟩
      · rw [List.append_cons _ _ whole]
        exact (List.prefix_append_right_inj _).2 hbegins
      · obtain ⟨hrest, hend⟩ := hends hcrash
        simp only [after, ← List.append_cons]
        exact ⟨.done .zero status hremarks hrest, hend.after_stage hcompleted hfailed⟩
  | failed code message hint exitCode =>
      obtain rfl := hcode code message hint exitCode hending
      have hwhole : Course command (stage :: stages) (_ ++ [_, _]) :=
        .failed ⟨stage.id, .zero, code, message, hint⟩ false (codeOf stage) hremarks rfl
      exact ⟨⟨_, hwhole, List.prefix_rfl⟩, fun _ => ⟨hwhole, .of_failure rfl hcompleted hfailed⟩⟩
  | crashed crash =>
      -- Any failure of the stage would go on from where the crash has cut it short.
      refine ⟨⟨_, .failed ⟨stage.id, .zero, "", "", none⟩ false 0 hremarks rfl, ?_⟩, ?_⟩
      · exact List.prefix_append _ _
      · exact fun hcrash => nomatch hcrash

/-- The stream of a whole command: its events begin the protocol.  Where nothing crashes, they
are a whole protocol, and the completion tells whether all stages have been completed. -/
structure Conforms (command : String) (stages : List Stage) (stream : Stream) : Prop where
  begins : ∃ whole, Protocol command stages whole ∧ stream.events <+: whole
  finished : stream.crash? = none → Protocol command stages stream.events ∧
    ∃ ok exitCode, completion? stream.events = some (ok, exitCode) ∧ (ok = true ↔ exitCode = 0) ∧
      (exitCode = 0 ↔ failedStages stream.events = [] ∧
        completedStages stream.events = stages.map Stage.id)

section

variable {command : String} {codeOf : Stage → Int} {stages : List Stage} {stream : Stream}
  {project config document : Option FilePath} {options : Option (Fields Unit)}

theorem Keeps.ends_started (h : stream.Keeps command codeOf stages)
    (hcrash : stream.crash? = none) :
    Ends codeOf stages (.of command (.commandStarted project config document options) ::
      stream.events) := by
  cases (h.ends hcrash).2 with
  | passed hlast hnone hall =>
      exact .passed (completion?_append [_] hlast) hnone hall
  | failed before stage after hstages hlast hone hbefore =>
      exact .failed before stage after hstages (completion?_append [_] hlast) hone hbefore

theorem Keeps.conforms (h : stream.Keeps command codeOf stages)
    (hcode : ∀ stage, codeOf stage ≠ 0) :
    (after [.of command (.commandStarted project config document options)] stream).Conforms
      command stages where
  begins := by
    obtain ⟨whole, hcourse, hbegins⟩ := h.begins
    exact ⟨_, ⟨project, config, document, options, whole, rfl, hcourse⟩,
      List.cons_prefix_cons.2 ⟨rfl, hbegins⟩⟩
  finished := by
    intro hcrash
    refine ⟨⟨project, config, document, options, _, rfl, (h.ends hcrash).1⟩, ?_⟩
    cases h.ends_started hcrash with
    | passed hlast hnone hall =>
        exact ⟨true, 0, hlast, by simp, fun _ => ⟨hnone, hall⟩, fun _ => rfl⟩
    | failed before stage after hstages hlast hone hbefore =>
        refine ⟨false, codeOf stage, hlast, by simp [hcode], fun hzero =>
          absurd hzero (hcode stage), ?_⟩
        rintro ⟨hnone, -⟩
        cases hone.symm.trans hnone

end

end Stream

/-! ## The two commands -/

namespace Command

variable {libs : Libraries} {command : String} {files : FileSystem}

theorem remark_of {what : Happening} (h : what.isRemark = true) :
    Remark command (.of command what) := ⟨rfl, h⟩

theorem remarks_singleton {what : Happening} (h : what.isRemark = true) :
    ∀ event ∈ [Event.of command what], Remark command event := by
  intro event hevent
  rw [List.mem_singleton.1 hevent]
  exact remark_of h

theorem loading_remarks (path : FilePath) :
    ∀ event ∈ (loading libs command files path).reports, Remark command event := by
  unfold loading
  split
  · exact remarks_singleton rfl
  · split <;> exact List.forall_mem_nil _

theorem loading_exitCode {path : FilePath} {code message : String} {hint : Option String}
    {exitCode : Int}
    (h : (loading libs command files path).ending = .failed code message hint exitCode) :
    exitCode = 2 := by
  unfold loading at h
  split at h
  · cases h
  · split at h <;> cases h
    rfl

/-- The exit code of a check that fails at a stage. -/
def checkCode (stage : Stage) : Int := if stage = .checkInvariants then 1 else 2

theorem check_keeps (libs : Libraries) (files : FileSystem) (path : FilePath) :
    (Stream.stage "check" files .loadDocument (loading libs "check" files path) fun document =>
      Stream.stage "check" files .checkInvariants (checking document) fun _ =>
        Stream.success "check" files).Keeps "check" checkCode Stage.ofCheck := by
  refine Stream.keeps_stage (loading_remarks path) ?_ fun _ document _ => ?_
  · intro code message hint exitCode hending
    exact loading_exitCode hending
  · unfold checking
    split
    · exact Stream.keeps_stage (List.forall_mem_nil _) (fun _ _ _ _ hending => nomatch hending)
        fun _ _ _ => Stream.keeps_success "check" checkCode files
    · refine Stream.keeps_stage ?_ ?_ fun _ _ _ => Stream.keeps_success "check" checkCode files
      · split <;> exact remarks_singleton rfl
      · intro code message hint exitCode hending
        split at hending <;> cases hending
        rfl

theorem phaseReports_remarks (phase : Phase) (before after : Run) :
    ∀ event ∈ phaseReports phase before after, Remark "rewrite" event := by
  intro event hevent
  rcases List.mem_append.1 hevent with hwarning | hgenerated
  · obtain ⟨diagnostic, -, rfl⟩ := List.mem_map.1 hwarning
    exact ⟨rfl, rfl⟩
  · split at hgenerated
    · exact remarks_singleton rfl event hgenerated
    · cases hgenerated

/-- Several phases keep a course if what follows them does. -/
theorem phases_keep {debug : Bool} {next : Run → Stream} (stages : List Stage)
    (hnext : ∀ run, (next run).Keeps "rewrite" (fun _ => 2) stages)
    (phaseList : List Phase) (run : Run) :
    (phases files debug next phaseList run).Keeps "rewrite" (fun _ => 2)
      (phaseList.map stageOf ++ stages) := by
  induction phaseList generalizing run with
  | nil => exact hnext run
  | cons phase rest ih =>
      unfold phases phaseWork
      refine Stream.keeps_stage ?_ ?_ fun _ after _ => ih after
      · split
        · exact phaseReports_remarks phase _ _
        · split <;> exact List.forall_mem_nil _
      · intro code message hint exitCode hending
        split at hending
        · cases hending
        · split at hending <;> cases hending
          rfl

/-- What the last stage can do: crash, leave the document out, write it, or fail. -/
inductive Writes (libs : Libraries) (files : FileSystem) (request : ReshapeRequest)
    (config : Config) (source : FilePath) (document : Node) : StageWork Unit → Prop where
  | crashed (crash : Crash) : Writes libs files request config source document (.crash crash)
  | skipped (message : String) (data : Option (Fields Unit)) :
      Writes libs files request config source document
        ⟨[reshapeEvent (.debug message data)], .done "skipped" ()⟩
  | written {target : FilePath} {after : FileSystem} {bytes : Nat} :
      outputPath (request.projectIn files) config source request.output = .ok target →
      Document.write libs files target document (outputFormat config target request.format) =
        (after, .ok bytes) →
      Writes libs files request config source document
        (.success [reshapeEvent (.documentWritten
          ⟨some target, outputFormat config target request.format, bytes⟩)] ())
  | failed (message : String) :
      Writes libs files request config source document (.failure [] 2 "write_error" message)

theorem writing_writes (libs : Libraries) (files : FileSystem) (request : ReshapeRequest)
    (config : Config) (source : FilePath) (document : Node) :
    Writes libs files request config source document
      (writing libs files request config source document).2 := by
  unfold writing
  split
  · exact .crashed _
  · rename_i target htarget
    simp only
    split
    · exact .skipped _ _
    · split
      · exact .written htarget ‹_›
      · simp only
        split
        · exact .failed _
        · exact .crashed _

section

variable {request : ReshapeRequest} {config : Config} {source : FilePath} {document : Node}
  {work : StageWork Unit}

theorem Writes.remarks (h : Writes libs files request config source document work) :
    ∀ event ∈ work.reports, Remark "rewrite" event := by
  cases h with
  | crashed | failed => exact List.forall_mem_nil _
  | skipped | written => exact remarks_singleton rfl

theorem Writes.exitCode (h : Writes libs files request config source document work)
    {code message : String} {hint : Option String} {exitCode : Int}
    (hending : work.ending = .failed code message hint exitCode) : exitCode = 2 := by
  cases h <;> cases hending
  rfl

end

theorem writingStage_keeps (request : ReshapeRequest) (config : Config) (source : FilePath)
    (run : Run) :
    (writingStage libs files request config source run).Keeps "rewrite" (fun _ => 2)
      [.writeDocument] := by
  have hwrites := writing_writes libs files request config source run.document
  exact Stream.keeps_stage hwrites.remarks (fun _ _ _ _ => hwrites.exitCode) fun _ _ _ =>
    Stream.keeps_success "rewrite" _ _

theorem loadingConfig_keeps {stages : List Stage} {next : Config → Stream} (project : FilePath)
    (path : Option FilePath) (hnext : ∀ config, (next config).Keeps "rewrite" (fun _ => 2) stages) :
    (Stream.stage "rewrite" files .loadConfig (loadingConfig libs files project path) next).Keeps
      "rewrite" (fun _ => 2)
      (.loadConfig :: stages) := by
  refine Stream.keeps_stage ?_ ?_ fun _ config _ => hnext config
  · unfold loadingConfig
    split <;> exact List.forall_mem_nil _
  · intro code message hint exitCode hending
    unfold loadingConfig at hending
    split at hending <;> cases hending
    rfl

theorem loadingSource_keeps {stages : List Stage} {next : FilePath × Value → Stream}
    (source : Option FilePath)
    (hnext : ∀ loaded, (next loaded).Keeps "rewrite" (fun _ => 2) stages) :
    (Stream.stage "rewrite" files .loadDocument (loadingSource libs files source) next).Keeps
      "rewrite" (fun _ => 2)
      (.loadDocument :: stages) := by
  refine Stream.keeps_stage ?_ ?_ fun _ loaded _ => hnext loaded
  · unfold loadingSource
    split
    · exact List.forall_mem_nil _
    · exact loading_remarks _
  · intro code message hint exitCode hending
    unfold loadingSource at hending
    split at hending
    · cases hending
      rfl
    · simp only at hending
      split at hending <;> cases hending
      rename_i hending
      exact loading_exitCode hending

/-- What `rewrite` does after its start, where the project directory has a path. -/
def reshapeStages (libs : Libraries) (files : FileSystem) (request : ReshapeRequest) : Stream :=
  Stream.stage "rewrite" files .loadConfig
    (loadingConfig libs files (request.projectIn files) request.config)
    fun config =>
  Stream.stage "rewrite" files .loadDocument
    (loadingSource libs files (sourcePath? (request.projectIn files) config request.document))
    fun (source, document) =>
  phases files request.debug (writingStage libs files request config source)
    Phase.all (Run.start config.options (Node.ofValue document))

theorem reshape_eq {request : ReshapeRequest}
    (hproject : (request.projectIn files).hasNull = false) :
    reshape libs files request =
      Stream.after [reshapeEvent (.commandStarted (some (request.projectIn files))
        (some (Config.pathIn (request.projectIn files) request.config)) request.document
        (some request.options))] (reshapeStages libs files request) := by
  unfold reshape
  simp only [hproject]
  rfl

theorem reshape_keeps (libs : Libraries) (files : FileSystem) (request : ReshapeRequest) :
    (reshapeStages libs files request).Keeps "rewrite" (fun _ => 2) Stage.ofReshape :=
  loadingConfig_keeps _ _ fun config => loadingSource_keeps _ fun (source, _) =>
    phases_keep [.writeDocument] (writingStage_keeps request config source) Phase.all _

end Command

/-- Both commands conform to the protocol of their stages, for any libraries, any files and any
request.  A reshaping that fails has the exit code 2.  A check that fails has the exit code 1 if it
has found violations, and 2 if it has found no document. -/
theorem commands_conform (libs : Libraries) (files : FileSystem) :
    (∀ request, (Command.reshape libs files request).Conforms "rewrite" Stage.ofReshape ∧
      ((Command.reshape libs files request).crash? = none → ∀ exitCode,
        completion? (Command.reshape libs files request).events = some (false, exitCode) →
          exitCode = 2)) ∧
    ∀ path, (Command.check libs files path).Conforms "check" Stage.ofCheck ∧
      ((Command.check libs files path).crash? = none → ∀ exitCode,
        completion? (Command.check libs files path).events = some (false, exitCode) →
          (exitCode = 1 ↔
            failedStages (Command.check libs files path).events = [Stage.checkInvariants.id]) ∧
          (exitCode = 2 ↔
            failedStages (Command.check libs files path).events = [Stage.loadDocument.id])) := by
  refine ⟨fun request => ?_, fun path => ?_⟩
  · have hkeeps := Command.reshape_keeps libs files request
    cases hproject : (request.projectIn files).hasNull with
    | true =>
        have hcut : Command.reshape libs files request =
            ⟨[], some (.file .nullInPath), files⟩ := by
          unfold Command.reshape
          simp only [hproject]
          rfl
        rw [hcut]
        obtain ⟨whole, hcourse, -⟩ := hkeeps.begins
        refine ⟨⟨⟨_, ⟨none, none, none, none, whole, rfl, hcourse⟩, List.nil_prefix⟩, ?_⟩, ?_⟩ <;>
          exact fun hcrash => nomatch hcrash
    | false =>
        rw [Command.reshape_eq hproject]
        refine ⟨hkeeps.conforms fun _ => by decide, fun hcrash exitCode hcompletion => ?_⟩
        cases hkeeps.ends_started hcrash with
        | passed hlast => cases hlast.symm.trans hcompletion
        | failed before stage after hstages hlast =>
            cases hlast.symm.trans hcompletion
            rfl
  · have hkeeps := Command.check_keeps libs files path
    refine ⟨hkeeps.conforms fun stage => ?_, fun hcrash exitCode hcompletion => ?_⟩
    · unfold Command.checkCode
      split <;> decide
    · cases hkeeps.ends_started hcrash with
      | passed hlast => cases hlast.symm.trans hcompletion
      | failed before stage after hstages hlast hone =>
          cases hlast.symm.trans hcompletion
          change failedStages (Command.check libs files path).events = _ at hone
          rw [hone]
          -- Only a stage of the check can have failed.
          have hmem : stage ∈ Stage.ofCheck := by
            rw [hstages]
            exact List.mem_append_right _ List.mem_cons_self
          rcases List.mem_cons.1 hmem with rfl | hmem
          · decide
          · obtain rfl := List.mem_singleton.1 hmem
            decide

/-- A directory with a document that has a violation. -/
def nullTypeFiles : FileSystem where
  workingDirectory := ⟨"/", ["work"]⟩
  entries := [(["work"], .directory), (["work", "api.json"],
    .file "\x7b\"components\": \x7b\"schemas\": \x7b\"S\": \x7b\"type\": \"null\"\x7d\x7d\x7d\x7d")]

/-- The document in that directory. -/
def nullTypeDocument : Value :=
  .ofEntries [("components", .ofEntries [("schemas",
    .ofEntries [("S", .ofEntries [("type", .ofText "null")])])])]

/-- The check of that document fails at its last stage, and a reshaping that is given no document
at its second one. -/
theorem commands_conform_nullType :
    (Protocol "check" Stage.ofCheck
        (Command.check .builtIn nullTypeFiles (.ofString "api.json")).events ∧
      failedStages (Command.check .builtIn nullTypeFiles (.ofString "api.json")).events =
        ["check_invariants"]) ∧
    Protocol "rewrite" Stage.ofReshape (Command.reshape .builtIn nullTypeFiles
      ⟨.ofString ".", none, none, none, none, false, false⟩).events := by
  obtain ⟨hreshape, hcheck⟩ := commands_conform .builtIn nullTypeFiles
  constructor
  · have hload : Document.load .builtIn nullTypeFiles (.ofString "api.json") =
        .ok nullTypeDocument := by cbv
    have hloading : Command.loading .builtIn "check" nullTypeFiles (.ofString "api.json") =
        .success [.of "check" (.documentLoaded
          (Command.loadedDocument (.ofString "api.json") nullTypeDocument))] nullTypeDocument := by
      unfold Command.loading
      rw [hload]
    have hcrash : (Command.check .builtIn nullTypeFiles (.ofString "api.json")).crash? = none := by
      unfold Command.check
      rw [hloading]
      decide +kernel
    have hcompletion :
        completion? (Command.check .builtIn nullTypeFiles (.ofString "api.json")).events =
          some (false, 1) := by
      unfold Command.check
      rw [hloading]
      decide +kernel
    obtain ⟨hconforms, hcodes⟩ := hcheck (.ofString "api.json")
    exact ⟨(hconforms.finished hcrash).1, (hcodes hcrash 1 hcompletion).1.1 rfl⟩
  · refine ((hreshape ⟨.ofString ".", none, none, none, none, false, false⟩).1.finished ?_).1
    have hconfig : Config.load .builtIn nullTypeFiles ⟨"/", ["work"]⟩ none = .ok .standard := by cbv
    rw [Command.reshape_eq (by cbv)]
    unfold Command.reshapeStages Command.loadingConfig
    rw [show Command.ReshapeRequest.projectIn _ nullTypeFiles = ⟨"/", ["work"]⟩ by cbv, hconfig]
    rfl

end ProtoShape
