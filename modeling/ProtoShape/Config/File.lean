import ProtoShape.FileSystem
import ProtoShape.Libraries

/-!
# Configurations in files

The configuration stands in `oasproto.yaml` of the project directory, unless another path is given.
Without that file the standard configuration holds; a file that is asked for has to be there.  A
library reads the file, and one validates what it holds.
-/

namespace ProtoShape.Config

/-- Why a configuration is not loaded. -/
inductive LoadError where
  | missing (path : FilePath)
  | unreadable (path : FilePath)
  | notMapping
  /-- The mapping is no configuration. -/
  | invalid (complaint : String)
  /-- The place of the configuration cannot be looked at. -/
  | unreachable (error : FileError)
deriving DecidableEq, Repr

/-- The wording of the reason. -/
def LoadError.message : LoadError → String
  | missing path => s!"Missing config: {path.toString}"
  | unreadable path => s!"Failed to parse YAML: {path.toString}"
  | notMapping => "Config must be a YAML mapping at the top level."
  | invalid complaint => complaint
  | unreachable error => error.message

/-- The path of the configuration where none is given. -/
def defaultPath : FilePath := ⟨"", ["oasproto.yaml"]⟩

/-- The path of the configuration of a project. -/
def pathIn (project : FilePath) (path : Option FilePath) : FilePath :=
  project.join (path.getD defaultPath)

/-- The mapping that a value gives; null gives the empty one. -/
def recordOf : Value → Except LoadError Value
  | .scalar _ .null => .ok (.map () ∅)
  | .map tag entries => .ok (.map tag entries)
  | _ => .error .notMapping

/-- The mapping in the file of a configuration. -/
def recordAt (libs : Libraries) (fs : FileSystem) (place : FilePath) : Except LoadError Value :=
  match fs.readText place with
  | .error _ => .error (.unreadable place)
  | .ok text =>
      match libs.readYaml text with
      | none => .error (.unreadable place)
      | some v => recordOf v

/-- The configuration that a mapping gives. -/
def ofRecord (libs : Libraries) (record : Value) : Except LoadError Config :=
  match libs.validate record with
  | .ok config => .ok config
  | .error complaint => .error (.invalid complaint)

/-- Loads the configuration of a project. -/
def load (libs : Libraries) (fs : FileSystem) (project : FilePath) (path : Option FilePath) :
    Except LoadError Config :=
  let place := pathIn project path
  match fs.has place with
  | .error error => .error (.unreachable error)
  | .ok false => if path.isSome then .error (.missing place) else .ok .standard
  | .ok true => do ofRecord libs (← recordAt libs fs place)

end ProtoShape.Config
