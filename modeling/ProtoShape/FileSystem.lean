import ProtoShape.FilePath
import ProtoShape.Text.Quoted

/-!
# File systems

A file system holds files and directories, each under the parts of its absolute path, and has a
working directory.  A file holds a text, or bytes that no text has.  Paths are followed part by
part, so a double dot behind something that is no directory leads nowhere.

The system may deny any access to any place.  To go through a directory, to read a file, and to
write one are different accesses, and who puts something new into a directory writes the directory.
There are no links: a file system is what it looks like when all links are followed.
-/

namespace ProtoShape

/-- What stands at a place of a file system. -/
inductive FileEntry where
  | file (text : String)
  /-- A file whose bytes are no text, and what the decoder says about them. -/
  | undecodable (reason : String)
  | directory
deriving DecidableEq, Repr

/-- What is done at a place. -/
inductive Access where
  /-- The way goes through a directory. -/
  | enter
  | read
  | write
deriving DecidableEq, Repr

/-- Files and directories by the parts of their absolute paths. -/
structure FileSystem where
  workingDirectory : FilePath
  entries : List (List String × FileEntry)
  /-- Whether the system denies an access to a place. -/
  denies : Access → List String → Bool := fun _ _ => false

/-- Why an operation on a file system fails. -/
inductive FileError where
  | isDirectory (path : FilePath)
  | exists (path : FilePath)
  | notDirectory (path : FilePath)
  | missing (path : FilePath)
  | denied (path : FilePath)
  | nameTooLong (path : FilePath)
  | nullInPath
  /-- The bytes of a file are no text. -/
  | notText (reason : String)
deriving DecidableEq, Repr

/-- The wording of a failure. -/
def FileError.message : FileError → String
  | isDirectory p => s!"[Errno 21] Is a directory: {Text.quoted p.toString}"
  | .exists p => s!"[Errno 17] File exists: {Text.quoted p.toString}"
  | notDirectory p => s!"[Errno 20] Not a directory: {Text.quoted p.toString}"
  | missing p => s!"[Errno 2] No such file or directory: {Text.quoted p.toString}"
  | denied p => s!"[Errno 13] Permission denied: {Text.quoted p.toString}"
  | nameTooLong p => s!"[Errno 36] File name too long: {Text.quoted p.toString}"
  | nullInPath => "embedded null byte"
  | notText reason => reason

/-- The same failure, told about the path that was asked for. -/
def FileError.about (p : FilePath) : FileError → FileError
  | isDirectory _ => isDirectory p
  | .exists _ => .exists p
  | notDirectory _ => notDirectory p
  | missing _ => missing p
  | denied _ => denied p
  | nameTooLong _ => nameTooLong p
  | nullInPath => nullInPath
  | notText reason => notText reason

/-- The greatest number of bytes in a part of a path. -/
def maxPartBytes : Nat := 255

/-- The greatest number of bytes in the text of a path. -/
def maxPathBytes : Nat := 4095

namespace FileSystem

/-- The entry at an absolute place; the root is always a directory. -/
def entry? (fs : FileSystem) (parts : List String) : Option FileEntry :=
  if parts.isEmpty then some .directory else fs.entries.lookup parts

/-- The absolute place that the remaining parts lead to from a directory, where
every part but the last has to be a directory that may be gone through. -/
def follow (fs : FileSystem) (place : List String) : List String → Except FileError (List String)
  | [] => .ok place
  | part :: rest =>
      match fs.entry? place with
      | some .directory =>
          if fs.denies .enter place then .error (.denied ⟨"/", place⟩)
          else if part = ".." then follow fs place.dropLast rest
          else if maxPartBytes < part.utf8ByteSize then
            .error (.nameTooLong ⟨"/", place ++ [part]⟩)
          else follow fs (place ++ [part]) rest
      | some _ => .error (.notDirectory ⟨"/", place⟩)
      | none => .error (.missing ⟨"/", place⟩)

/-- The absolute place of a path. -/
def place (fs : FileSystem) (p : FilePath) : Except FileError (List String) :=
  if p.hasNull then .error .nullInPath
  else if maxPathBytes < p.toString.utf8ByteSize then .error (.nameTooLong p)
  else fs.follow [] (fs.workingDirectory.join p).parts

/-- What stands at a path. -/
def look (fs : FileSystem) (p : FilePath) : Option FileEntry :=
  match fs.place p with
  | .ok place => fs.entry? place
  | .error _ => none

/-- Whether anything stands at a path.  A path that is too long or that leads through a closed
directory cannot be asked about. -/
def has (fs : FileSystem) (p : FilePath) : Except FileError Bool :=
  match fs.place p with
  | .ok place => .ok (fs.entry? place).isSome
  | .error (.nameTooLong _) => .error (.nameTooLong p)
  | .error (.denied _) => .error (.denied p)
  | .error _ => .ok false

/-- Line ends of all kinds become line feeds. -/
def plainLines : List Char → List Char
  | '\r' :: '\n' :: rest => '\n' :: plainLines rest
  | '\r' :: rest => '\n' :: plainLines rest
  | c :: rest => c :: plainLines rest
  | [] => []

/-- The text of an entry that is read at a path. -/
def textOf (p : FilePath) : FileEntry → Except FileError String
  | .file text => .ok (String.ofList (plainLines text.toList))
  | .undecodable reason => .error (.notText reason)
  | .directory => .error (.isDirectory p)

/-- The text of a file. -/
def readText (fs : FileSystem) (p : FilePath) : Except FileError String :=
  match fs.place p with
  | .error error => .error (error.about p)
  | .ok place =>
      match fs.entry? place with
      | none => .error (.missing p)
      | some entry => if fs.denies .read place then .error (.denied p) else textOf p entry

/-- Puts an entry at an absolute place. -/
def put (fs : FileSystem) (place : List String) (entry : FileEntry) : FileSystem :=
  { fs with entries :=
      if (fs.entries.lookup place).isSome then
        fs.entries.map fun (other, old) => if other = place then (other, entry) else (other, old)
      else fs.entries ++ [(place, entry)] }

/-- Whether the system denies that something is written at a place: to what stands there, or else
to the directory around it. -/
def deniesWriting (fs : FileSystem) (place : List String) : Bool :=
  fs.denies .write (if (fs.entry? place).isSome then place else place.dropLast)

/-- Makes the directory at a path, unless it is there. -/
def makeDirectory (fs : FileSystem) (p : FilePath) : FileSystem × Except FileError Unit :=
  match fs.place p with
  | .error error => (fs, .error (error.about p))
  | .ok place =>
      match fs.entry? place with
      | some .directory => (fs, .ok ())
      | some _ => (fs, .error (.exists p))
      | none =>
          if fs.deniesWriting place then (fs, .error (.denied p))
          else (fs.put place .directory, .ok ())

/-- Makes the directory at a path and those above it, unless they are there.  What has been made
stays, also where a later directory cannot be made.  The second argument bounds the number of
directories above. -/
def makeDirectories (fs : FileSystem) : Nat → FilePath → FileSystem × Except FileError Unit
  | 0, p => fs.makeDirectory p
  | depth + 1, p =>
      match fs.makeDirectory p with
      | (_, .error (.missing _)) =>
          match fs.makeDirectories depth p.parent with
          | (above, .ok ()) => above.makeDirectory p
          | (above, .error error) => (above, .error error)
      | made => made

/-- Writes a file where its directory is there. -/
def putText (fs : FileSystem) (p : FilePath) (text : String) : FileSystem × Except FileError Unit :=
  match fs.place p with
  | .error error => (fs, .error (error.about p))
  | .ok place =>
      if fs.entry? place = some .directory then (fs, .error (.isDirectory p))
      else if fs.deniesWriting place then (fs, .error (.denied p))
      else (fs.put place (.file text), .ok ())

/-- Writes a file, with the directories above it. -/
def writeText (fs : FileSystem) (p : FilePath) (text : String) :
    FileSystem × Except FileError Unit :=
  match fs.makeDirectories p.parts.length p.parent with
  | (made, .ok ()) => made.putText p text
  | (made, .error error) => (made, .error error)

end FileSystem

end ProtoShape
