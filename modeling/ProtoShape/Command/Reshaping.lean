import ProtoShape.Command.Checking
import ProtoShape.Config.File
import ProtoShape.Reshape.Phases

/-!
# The command that reshapes a document

The stages are: the configuration is loaded, the document is loaded, the three
phases run, and the result is written.  The diagnostics of a phase are reported
as warnings when the phase is done, and the names of the generated components
after the phase that generates them.

Paths of the configuration are seen from the project directory, paths of the
request from the working directory.
-/

namespace ProtoShape.Command

/-- What is asked of the command. -/
structure ReshapeRequest where
  project : FilePath
  document : Option FilePath
  config : Option FilePath
  output : Option FilePath
  format : Option String
  /-- Whether the result is not to be written. -/
  dryRun : Bool
  /-- Whether a fault is to crash the command instead of failing a stage. -/
  debug : Bool

namespace ReshapeRequest

/-- The request as options of the event that starts the command. -/
def options (request : ReshapeRequest) : Fields Unit :=
  ⟨[(.text "output", Happening.pathValue request.output),
    (.text "format", Happening.textValue request.format),
    (.text "dry_run", .ofBool request.dryRun),
    (.text "debug", .ofBool request.debug)]⟩

/-- The absolute path of the project directory. -/
def projectIn (request : ReshapeRequest) (files : FileSystem) : FilePath :=
  FilePath.absolute files.workingDirectory request.project

end ReshapeRequest

/-- An event of this command. -/
def reshapeEvent (what : Happening) : Event := .of "rewrite" what

/-- The path of the document: the one that is asked for, else that of the
configuration. -/
def sourcePath? (project : FilePath) (config : Config) (asked : Option FilePath) :
    Option FilePath :=
  asked.or (config.document.map fun path => project.join (.ofString path))

/-- Where the result goes: the path that is asked for, else that of the
configuration, else a path beside the document. -/
def outputPath (project : FilePath) (config : Config) (source : FilePath)
    (asked : Option FilePath) : Except Document.WriteError FilePath :=
  match asked, config.output.path with
  | some path, _ => .ok path
  | none, some path =>
      if path = "" then Document.besides source else .ok (project.join (.ofString path))
  | none, none => Document.besides source

/-- The format of the result: the one that is asked for, else what the path or the
configuration say. -/
def outputFormat (config : Config) (target : FilePath) (asked : Option String) : String :=
  match asked with
  | some format =>
      if format = "" then Document.formatFor target config.output.format else format
  | none => Document.formatFor target config.output.format

/-- The work of loading the configuration. -/
def loadingConfig (libs : Libraries) (files : FileSystem) (project : FilePath)
    (path : Option FilePath) : StageWork Config :=
  match Config.load libs files project path with
  | .ok config => .success [] config
  | .error (.unreachable error) => .crash (.file error)
  | .error error => .failure [] 2 "config_error" error.message

/-- The work of loading the document, if there is one. -/
def loadingSource (libs : Libraries) (files : FileSystem) (source : Option FilePath) :
    StageWork (FilePath × Value) :=
  match source with
  | none =>
      .failure [] 2 "document_error" "No document given."
        (some "Pass a DOCUMENT argument or set `document` in oasproto.yaml.")
  | some path =>
      let work := loading libs "rewrite" files path
      { work with ending := match work.ending with
        | .done status document => .done status (path, document)
        | .failed code message hint exitCode => .failed code message hint exitCode
        | .crashed crash => .crashed crash }

/-- The stage of a phase. -/
def stageOf : Phase → Stage
  | .simplify => .simplify
  | .restructure => .restructure
  | .annotate => .annotate

/-- What is reported when a phase is done. -/
def phaseReports (phase : Phase) (before after : Run) : List Event :=
  (after.diagnostics.drop before.diagnostics.length).map (.ofDiagnostic "rewrite") ++
    (if phase = .restructure && !after.generated.isEmpty then
      [reshapeEvent (.componentsGenerated after.generated)]
    else [])

/-- The work of a phase. -/
def phaseWork (debug : Bool) (phase : Phase) (run : Run) : StageWork Run :=
  match (phase.run.run run : Except Fault Unit × Run) with
  | (.ok _, after) => .success (phaseReports phase run after) after
  | (.error fault, _) =>
      if debug then .crash (.fault fault)
      else .failure [] 2 "rewrite_error" fault.message (some "Run with --debug for details.")

/-- Several phases one after the other. -/
def phases (files : FileSystem) (debug : Bool) (next : Run → Stream) : List Phase → Run → Stream
  | [], run => next run
  | phase :: rest, run =>
      Stream.stage "rewrite" files (stageOf phase) (phaseWork debug phase run)
        (phases files debug next rest)

/-- The work of writing the result, and the file system afterwards. -/
def writing (libs : Libraries) (files : FileSystem) (request : ReshapeRequest) (config : Config)
    (source : FilePath) (document : Node) : FileSystem × StageWork Unit :=
  match outputPath (request.projectIn files) config source request.output with
  | .error error => (files, .crash (.write error))
  | .ok target =>
      let format := outputFormat config target request.format
      if request.dryRun then
        (files, ⟨[reshapeEvent (.debug "Dry run; document not written."
          (some ⟨[(.text "path", .ofText target.toString), (.text "format", .ofText format)]⟩))],
          .done "skipped" ()⟩)
      else
        match Document.write libs files target document format with
        | (after, .ok bytes) =>
            (after, .success [reshapeEvent (.documentWritten ⟨some target, format, bytes⟩)] ())
        | (after, .error error) =>
            (after, if error.isReported then .failure [] 2 "write_error" error.message
              else .crash (.write error))

/-- The stage that writes the result, and the end of the command. -/
def writingStage (libs : Libraries) (files : FileSystem) (request : ReshapeRequest)
    (config : Config) (source : FilePath) (run : Run) : Stream :=
  let written := writing libs files request config source run.document
  Stream.stage "rewrite" written.1 .writeDocument written.2
    fun _ => Stream.success "rewrite" written.1

/-- The stream of the command `rewrite`.  There is none for a project directory that
no path can name. -/
def reshape (libs : Libraries) (files : FileSystem) (request : ReshapeRequest) : Stream :=
  let project := request.projectIn files
  if project.hasNull then ⟨[], some (.file .nullInPath), files⟩
  else
  Stream.after [reshapeEvent (.commandStarted (some project)
      (some (Config.pathIn project request.config)) request.document (some request.options))] <|
    Stream.stage "rewrite" files .loadConfig (loadingConfig libs files project request.config)
      fun config =>
    Stream.stage "rewrite" files .loadDocument
      (loadingSource libs files (sourcePath? project config request.document))
      fun (source, document) =>
    phases files request.debug (writingStage libs files request config source)
      Phase.all (Run.start config.options (Node.ofValue document))

end ProtoShape.Command
