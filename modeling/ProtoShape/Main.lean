import ProtoShape.Libraries
import ProtoShape.Command.Program
import ProtoShape.Report.Lines

/-!
# The command line program

Takes a picture of the places that the command looks at, runs the command on it with the built-in
libraries, prints what is reported and writes the files that are new or changed.
-/

open ProtoShape

/-- What the bytes of a file are. -/
def entryOf (bytes : ByteArray) : FileEntry :=
  match String.fromUTF8? bytes with
  | some text => .file text
  | none => .undecodable "The bytes are not UTF-8."

/-- What stands at a path, and whether it may be read. -/
def lookAt (path : FilePath) : IO (Option (FileEntry × Bool)) := do
  let place := (← IO.currentDir) / path.toString
  if ← place.isDir then return some (.directory, true)
  else if ← place.pathExists then
    match ← (IO.FS.readBinFile place).toBaseIO with
    | .ok bytes => return some (entryOf bytes, true)
    | .error _ => return some (.file "", false)
  else return none

/-- The same files, where one of them may not be read. -/
def closing (files : FileSystem) (place : List String) : FileSystem :=
  { files with denies := fun access other =>
      (access = .read && other = place) || files.denies access other }

/-- Adds what stands at a path, and the directories on the way to it. -/
def addPlace (files : FileSystem) (path : FilePath) : IO FileSystem := do
  let parts := (FilePath.absolute files.workingDirectory path).parts
  let mut files := files
  for length in [1:parts.length + 1] do
    let place := parts.take length
    if let some (entry, readable) ← lookAt ⟨"/", place⟩ then
      files := files.put place entry
      unless readable do files := closing files place
  return files

/-- The picture of the places that a command line looks at. -/
def picture (words : List String) : IO FileSystem := do
  let here := FilePath.ofString (← IO.currentDir).toString
  let empty : FileSystem := { workingDirectory := here, entries := [] }
  let start ← addPlace empty here
  let first ← (Command.places .builtIn start words).foldlM addPlace start
  (Command.places .builtIn first words).foldlM addPlace first

/-- Writes the files that are new or changed. -/
def writeChanges (before after : FileSystem) : IO Unit := do
  for (place, entry) in after.entries do
    if before.entries.lookup place ≠ some entry then
      let path := (← IO.currentDir) / (FilePath.toString ⟨"/", place⟩)
      match entry with
      | .directory => IO.FS.createDirAll path
      | .file text => IO.FS.writeFile path text
      | .undecodable _ => pure ()

/-- Runs the program and answers the exit code. -/
def main (words : List String) : IO UInt32 := do
  let files ← picture words
  let terminal ← (← IO.getStdout).isTty
  let outcome := Command.run .builtIn .willing files terminal words
  for line in Report.itemLines outcome.items do
    IO.println line
  if let some text := outcome.printed then IO.print text
  if let some error := outcome.misuse? then IO.eprintln error.message
  if let some escape := outcome.escape? then IO.eprintln escape.message
  writeChanges files outcome.files
  return outcome.exitCode.toNat.toUInt32
