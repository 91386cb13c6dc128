import ProtoShape.Command.Arguments
import ProtoShape.Command.Checking
import ProtoShape.Command.Reshaping
import ProtoShape.Report.Findings

/-!
# The program

The program has three commands: `rewrite`, `check` and `version`.  A command line that makes no
sense has exit code 2.  A command that crashes, or whose report does, has exit code 3 and a line
about it, if it is a reshaping without `--debug`; other crashes escape.

A command looks at few files: its configuration, its document and its output.  Which ones these are
may depend on the configuration.  So the places are asked for twice, before and after the
configuration is known.
-/

namespace ProtoShape.Command

/-- What a command line asks for. -/
inductive Invocation where
  | reshape (request : ReshapeRequest) (json : Bool)
  | check (document : FilePath) (json : Bool)
  | version
  | help
  | misuse (error : UsageError)

/-- The option that every command has. -/
def helpOption : OptionSpec := ⟨"help", none, false⟩

/-- The options of `rewrite`. -/
def reshapeOptions : List OptionSpec :=
  [⟨"config", some 'c', true⟩, ⟨"project", some 'p', true⟩, ⟨"output", some 'o', true⟩,
    ⟨"format", none, true⟩, ⟨"dry-run", none, false⟩, ⟨"debug", none, false⟩,
    ⟨"json", none, false⟩, helpOption]

/-- The options of `check`. -/
def checkOptions : List OptionSpec := [⟨"json", none, false⟩, helpOption]

namespace Invocation

/-- What the tokens of a command ask for, unless they ask for help. -/
def ofTokens (specs : List OptionSpec) (words : List String)
    (meaning : List Token → Invocation) : Invocation :=
  match tokens specs words with
  | .error error => misuse error
  | .ok ts => if hasFlag ts helpOption.name then help else meaning ts

/-- What the tokens of `rewrite` ask for. -/
def ofReshape (ts : List Token) : Invocation :=
  let path (name : String) : Option FilePath := (valueOf ts name).map FilePath.ofString
  let asked (document : Option String) : Invocation :=
    reshape
      ⟨(path "project").getD (.ofString "."), document.map .ofString, path "config",
        path "output", valueOf ts "format", hasFlag ts "dry-run", hasFlag ts "debug"⟩
      (hasFlag ts "json")
  match argumentsOf ts with
  | _ :: extra :: _ => misuse (.argumentUnexpected extra)
  | documents =>
      match valueOf ts "format" with
      | none => asked documents.head?
      | some format =>
          if format = "yaml" || format = "json" then asked documents.head?
          else misuse (.unknownFormat format)

/-- What the tokens of `check` ask for. -/
def ofCheck (ts : List Token) : Invocation :=
  match argumentsOf ts with
  | [] => misuse (.argumentMissing "DOCUMENT")
  | [document] => check (.ofString document) (hasFlag ts "json")
  | _ :: extra :: _ => misuse (.argumentUnexpected extra)

/-- What the tokens of `version` ask for. -/
def ofVersion (ts : List Token) : Invocation :=
  match argumentsOf ts with
  | [] => version
  | extra :: _ => misuse (.argumentUnexpected extra)

/-- What a command and its words ask for, if there is a command of this name. -/
def ofCommand? (name : String) (words : List String) : Option Invocation :=
  if name = "rewrite" then some (ofTokens reshapeOptions words ofReshape)
  else if name = "check" then some (ofTokens checkOptions words ofCheck)
  else if name = "version" then some (ofTokens [helpOption] words ofVersion)
  else none

/-- The options in front of the command: whether they ask for help, and what follows
them. -/
def leadingOptions : List String → Except UsageError (Bool × List String)
  | [] => .ok (false, [])
  | word :: rest =>
      if word = "--" then .ok (false, rest)
      else
        match readWord [helpOption] word with
        | none => .ok (false, word :: rest)
        | some (.error error) => .error error
        | some (.ok _) => do
            let (_, rest) ← leadingOptions rest
            return (true, rest)

/-- What a command line asks for.  The first argument is the command; what follows
belongs to it.  Where there is no such command, it may still be an option that stands
behind two dashes. -/
def ofWords (words : List String) : Invocation :=
  match leadingOptions words with
  | .error error => misuse error
  | .ok (true, _) => help
  | .ok (false, []) => misuse .commandMissing
  | .ok (false, name :: rest) =>
      match ofCommand? name rest with
      | some invocation => invocation
      | none =>
          match leadingOptions (name :: rest) with
          | .error error => misuse error
          | .ok (true, _) => help
          | .ok (false, _) => misuse (.unknownCommand name)

end Invocation

/-- Why a command ends without an exit code of its own. -/
inductive Escape where
  | crash (crash : Crash)
  | trouble (trouble : Report.Trouble)

/-- The wording of an escape. -/
def Escape.message : Escape → String
  | crash c => c.message
  | trouble t => t.message

/-- What a run of the program does. -/
structure Outcome where
  exitCode : Int
  /-- What is put on the console. -/
  items : List Report.Item
  /-- What is printed beside the console. -/
  printed : Option String
  escape? : Option Escape
  /-- Why the command line makes no sense, if it makes none. -/
  misuse? : Option UsageError
  files : FileSystem

/-- What is left when a stream has been reported. -/
structure Reported where
  shown : Report.Shown
  /-- What has cut the stream or the report short. -/
  escape? : Option Escape
  files : FileSystem

/-- Whether a stream has been seen beyond the point where its command writes. -/
def hasWritten (seen : Report.Digest) : Bool :=
  seen.written.isSome || seen.endings.any (·.1 = Stage.writeDocument.id)

/-- Reports the stream of a command that begins with these files.  A command waits for its report
with every event, so a report that stops before the command has written leaves the files alone. -/
def reportStream (reporter : Report.Reporter) (console : Report.Console) (files : FileSystem)
    (stream : Stream) : Reported :=
  let shown := reporter.play console .empty stream.events
  match shown.trouble?, stream.crash? with
  | some trouble, _ =>
      ⟨shown, some (.trouble trouble), if hasWritten shown.digest then stream.files else files⟩
  | none, some crash => ⟨shown, some (.crash crash), stream.files⟩
  | none, none =>
      let closed := reporter.finish console shown
      ⟨closed, closed.trouble?.map .trouble, stream.files⟩

/-- Ends a reshaping that an escape cuts short: the report is closed, and a line tells of the
escape.  The console may refuse both. -/
def escapeReshape (reporter : Report.Reporter) (console : Report.Console) (debug : Bool)
    (reported : Reported) (escape : Escape) : Outcome :=
  let closed := reporter.finish console reported.shown
  match closed.trouble? with
  | some trouble => ⟨1, closed.items, none, some (.trouble trouble), none, reported.files⟩
  | none =>
      if debug then ⟨1, closed.items, none, some escape, none, reported.files⟩
      else
        let last := console.put [.ok (.line s!"[red]Unexpected error:[/red] {escape.message}")]
        match last.2 with
        | some trouble =>
            ⟨1, closed.items ++ last.1, none, some (.trouble trouble), none, reported.files⟩
        | none => ⟨3, closed.items ++ last.1, none, none, none, reported.files⟩

/-- Runs `rewrite`. -/
def runReshape (libs : Libraries) (console : Report.Console) (files : FileSystem)
    (terminal : Bool) (request : ReshapeRequest) (json : Bool) : Outcome :=
  let reporter :=
    if json then Report.reshapeJson
    else if terminal then Report.reshapeStyled terminal
    else Report.reshapePlain
  let reported := reportStream reporter console files (reshape libs files request)
  match reported.escape? with
  | none => ⟨reported.shown.digest.exitCode, reported.shown.items, none, none, none, reported.files⟩
  | some escape => escapeReshape reporter console request.debug reported escape

/-- Runs `check`. -/
def runCheck (libs : Libraries) (console : Report.Console) (files : FileSystem) (terminal : Bool)
    (document : FilePath) (json : Bool) : Outcome :=
  let reporter :=
    if json then Report.checkJson
    else if terminal then Report.checkStyled
    else Report.checkPlain
  let reported := reportStream reporter console files (check libs files document)
  match reported.escape? with
  | none => ⟨reported.shown.digest.exitCode, reported.shown.items, none, none, none, files⟩
  | some escape => ⟨1, reported.shown.items, none, some escape, none, files⟩

/-- The paths that a command line gives. -/
def Invocation.paths : Invocation → List FilePath
  | reshape request _ =>
      request.project ::
        (request.document.toList ++ request.config.toList ++ request.output.toList)
  | check document _ => [document]
  | _ => []

/-- Runs the program with a command line.  No command runs with a path that cannot
name a file. -/
def run (libs : Libraries) (console : Report.Console) (files : FileSystem) (terminal : Bool)
    (words : List String) : Outcome :=
  let invocation := Invocation.ofWords words
  if invocation.paths.any FilePath.hasNull then
    ⟨1, [], none, some (.crash (.file .nullInPath)), none, files⟩
  else
  match invocation with
  | .reshape request json => runReshape libs console files terminal request json
  | .check document json => runCheck libs console files terminal document json
  | .version => ⟨0, [], some (Report.programVersion ++ "\n"), none, none, files⟩
  | .help => ⟨0, [], none, none, none, files⟩
  | .misuse error => ⟨2, [], none, none, some error, files⟩

/-! ## Places -/

/-- The places that a reshaping looks at, as far as the known files tell. -/
def ReshapeRequest.places (libs : Libraries) (request : ReshapeRequest) (files : FileSystem) :
    List FilePath :=
  let project := request.projectIn files
  let config := match Config.load libs files project request.config with
    | .ok config => config
    | .error _ => .standard
  let source := sourcePath? project config request.document
  let target := source.bind fun source =>
    (outputPath project config source request.output).toOption
  Config.pathIn project request.config :: (source.toList ++ target.toList)

/-- The places that a command line looks at, as far as the known files tell. -/
def places (libs : Libraries) (files : FileSystem) (words : List String) : List FilePath :=
  match Invocation.ofWords words with
  | .reshape request _ => request.places libs files
  | .check document _ => [document]
  | _ => []

end ProtoShape.Command
