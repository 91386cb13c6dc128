import ProtoShape.Text.Basic

/-!
# Paths

A path is read from its text: empty parts and single dots vanish, double dots
stay.  An absolute path has a root.  The extension of a name starts at its last
dot, unless that dot is the first or the last character.
-/

namespace ProtoShape

/-- A path of a file or directory. -/
structure FilePath where
  /-- The root: empty for a relative path. -/
  root : String
  parts : List String
deriving DecidableEq, Repr, Inhabited

namespace FilePath

/-- The root of a path text.  Exactly two slashes are a root of their own. -/
def rootOf : List Char → String
  | '/' :: '/' :: '/' :: _ => "/"
  | '/' :: '/' :: _ => "//"
  | '/' :: _ => "/"
  | _ => ""

/-- The path that a text writes. -/
def ofString (s : String) : FilePath :=
  ⟨rootOf s.toList, ((Text.split '/' s.toList).map String.ofList).filter fun part =>
    part ≠ "" && part ≠ "."⟩

/-- The text of a path. -/
def toString (p : FilePath) : String :=
  if p.root = "" && p.parts.isEmpty then "." else p.root ++ "/".intercalate p.parts

/-- Whether the path starts at a root. -/
def isAbsolute (p : FilePath) : Bool := p.root ≠ ""

/-- Whether a null character stands in the path; no file has such a path. -/
def hasNull (p : FilePath) : Bool := p.parts.any (·.contains '\x00')

/-- The last part. -/
def name (p : FilePath) : String := p.parts.getLastD ""

/-- The path without its last part. -/
def parent (p : FilePath) : FilePath := { p with parts := p.parts.dropLast }

/-- The path `q` seen from `p`. -/
def join (p q : FilePath) : FilePath :=
  if q.isAbsolute then q else { p with parts := p.parts ++ q.parts }

/-- A name cut before its extension. -/
def splitName (name : String) : String × String :=
  let cs := name.toList
  let extension := (cs.reverse.takeWhile (· ≠ '.')).reverse
  let stem := cs.take (cs.length - extension.length - 1)
  if cs.contains '.' && !extension.isEmpty && !stem.isEmpty then
    (String.ofList stem, "." ++ String.ofList extension)
  else (name, "")

/-- The name without its extension. -/
def stem (p : FilePath) : String := (splitName p.name).1

/-- The extension with its dot. -/
def extension (p : FilePath) : String := (splitName p.name).2

/-- The path with another last part, if it has a last part. -/
def withName? (p : FilePath) (name : String) : Option FilePath :=
  if p.parts.isEmpty then none else some { p with parts := p.parts.dropLast ++ [name] }

/-- The parts with every double dot taken together with the part before it. -/
def foldDots (before : List String) : List String → List String
  | [] => before.reverse
  | ".." :: rest => foldDots (before.drop 1) rest
  | part :: rest => foldDots (part :: before) rest

/-- The absolute path without double dots, for a path seen from `directory`. -/
def absolute (directory p : FilePath) : FilePath :=
  let whole := directory.join p
  { whole with parts := foldDots [] whole.parts }

example : (ofString "a//b/./c").toString = "a/b/c" ∧ (ofString "").toString = "." := by
  decide +kernel

example : splitName ".hidden" = (".hidden", "") ∧ splitName "a.b." = ("a.b.", "") ∧
    splitName "a.b.c" = ("a.b", ".c") := by decide +kernel

end FilePath

end ProtoShape
