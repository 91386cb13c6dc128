import ProtoShape.FileSystem
import ProtoShape.Json.Reader
import ProtoShape.Json.Writer
import ProtoShape.Libraries

/-!
# Documents in files

A file with the extension `.json`, in letters of any case, holds JSON; any other file holds YAML,
which a library reads and writes.  A document is a mapping.  The output format is given by name;
where no name is given, the extension of the output file decides.
-/

namespace ProtoShape.Document

/-- Why a document is not loaded. -/
inductive LoadError where
  | notFound (path : FilePath)
  | invalidJson (path : FilePath) (reason : String)
  | invalidYaml (path : FilePath)
  | notMapping (path : FilePath)
  /-- What stands at the path cannot be read as a text. -/
  | unreadable (error : FileError)
  /-- An integer has so many digits that it is not read. -/
  | tooManyDigits (count : Nat)
deriving DecidableEq, Repr

/-- The wording of the reason. -/
def LoadError.message : LoadError → String
  | notFound path => s!"Document not found: {path.toString}"
  | invalidJson path reason => s!"Invalid JSON document: {path.toString}: {reason}"
  | invalidYaml path => s!"Failed to parse YAML: {path.toString}"
  | notMapping path => s!"{path.toString} must contain a mapping at the top level."
  | unreadable error => error.message
  | tooManyDigits count => Decimal.limitMessage s!": value has {count} digits"

/-- Whether the reason lies in the document, so that a command can go on to report it. -/
def LoadError.isReported : LoadError → Bool
  | unreadable _ | tooManyDigits _ => false
  | _ => true

/-- The extension of a path, in small letters. -/
def extension (path : FilePath) : String :=
  String.ofList (path.extension.toList.map Char.toLower)

/-- The value that a text writes, in the format that the path asks for. -/
def parse (libs : Libraries) (path : FilePath) (text : String) : Except LoadError Value :=
  if extension path = ".json" then
    match Json.read text with
    | .ok v => .ok v
    | .error (.invalid reason) => .error (.invalidJson path reason)
    | .error (.tooManyDigits count) => .error (.tooManyDigits count)
  else
    match libs.readYaml text with
    | some v => .ok v
    | none => .error (.invalidYaml path)

/-- Loads a document. -/
def load (libs : Libraries) (fs : FileSystem) (path : FilePath) : Except LoadError Value :=
  match fs.has path with
  | .error error => .error (.unreadable error)
  | .ok false => .error (.notFound path)
  | .ok true =>
      match fs.readText path with
      | .error error => .error (.unreadable error)
      | .ok text =>
          match parse libs path text with
          | .error error => .error error
          | .ok (.map tag entries) => .ok (.map tag entries)
          | .ok _ => .error (.notMapping path)

/-- Why a document is not written. -/
inductive WriteError where
  | unsupportedFormat (name : String)
  | file (error : FileError)
  /-- A path without a name has no neighbour to write to. -/
  | emptyName (path : FilePath)
  /-- A value has no JSON text. -/
  | unwritable (reason : Json.Unwritable)
  /-- The library does not write a value. -/
  | refused (refusal : Refusal)
deriving DecidableEq, Repr

/-- The wording of the reason. -/
def WriteError.message : WriteError → String
  | unsupportedFormat name => s!"Unsupported output format: {name}"
  | file error => error.message
  | emptyName path => s!"PosixPath({Text.quoted path.toString}) has an empty name"
  | unwritable reason => reason.message
  | refused refusal => refusal.message

/-- Whether the reason lies in the document or in its file, so that a command can go on to report
it.  A value of a kind that JSON does not know is no such reason. -/
def WriteError.isReported : WriteError → Bool
  | unsupportedFormat _ | file _ => true
  | unwritable reason => reason = .tooManyDigits
  | refused refusal => refusal.isReported
  | emptyName _ => false

/-- The text of a document in the format with this name. -/
def dump {τ : Type} (libs : Libraries) (document : Tree τ) (format : String) :
    Except WriteError String :=
  if format = "json" then
    match Json.text Json.pretty document with
    | .ok text => .ok (text ++ "\n")
    | .error reason => .error (.unwritable reason)
  else if format = "yaml" then
    match libs.writeYaml document.erase with
    | .ok text => .ok text
    | .error refusal => .error (.refused refusal)
  else .error (.unsupportedFormat format)

/-- The format that the extension of a path asks for, else the given one. -/
def formatFor (path : FilePath) (otherwise : String) : String :=
  let extension := extension path
  if extension = ".json" then "json"
  else if extension = ".yaml" || extension = ".yml" then "yaml"
  else otherwise

/-- Writes a document; the result is the file system afterwards, with the length of the text in
bytes where it is written. -/
def write {τ : Type} (libs : Libraries) (fs : FileSystem) (path : FilePath) (document : Tree τ)
    (format : String) : FileSystem × Except WriteError Nat :=
  match dump libs document format with
  | .error error => (fs, .error error)
  | .ok text =>
      match fs.writeText path text with
      | (after, .ok ()) => (after, .ok text.utf8ByteSize)
      | (after, .error error) => (after, .error (.file error))

/-- Where a document goes that is reshaped without saying where to. -/
def besides (path : FilePath) : Except WriteError FilePath :=
  match path.withName? (path.stem ++ ".rewritten" ++ path.extension) with
  | some path => .ok path
  | none => .error (.emptyName path)

end ProtoShape.Document
