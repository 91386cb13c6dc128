import ProtoShape.Reference

/-!
# Names

Component names come from references and titles; property names are component
names in snake case.  `snakeCase` puts a separator at every boundary between two
words, turns all else that is no ASCII letter or digit into separators, and
writes one separator between words.  The classes and the case mapping of `Char`
know ASCII only, which is what is wanted here.
-/

namespace ProtoShape.Naming

/-- A character that belongs to a word: a letter or digit of ASCII. -/
def isWordChar (c : Char) : Bool := c.isAlphanum

/-- An acronym ends before its last capital when a small letter follows:
`HTTPRule` becomes `HTTP_Rule`. -/
def splitAcronyms : List Char → List Char
  | c :: d :: e :: rest =>
      if c.isUpper && d.isUpper && e.isLower then c :: '_' :: splitAcronyms (d :: e :: rest)
      else c :: splitAcronyms (d :: e :: rest)
  | cs => cs

/-- A word ends before a capital that follows a small letter or a digit. -/
def splitWords : List Char → List Char
  | c :: d :: rest =>
      if (c.isLower || c.isDigit) && d.isUpper then c :: '_' :: splitWords (d :: rest)
      else c :: splitWords (d :: rest)
  | cs => cs

/-- Every character outside words becomes a separator. -/
def separate (cs : List Char) : List Char := cs.map fun c => if isWordChar c then c else '_'

/-- Runs of underscores become a single one. -/
def squeeze : List Char → List Char
  | '_' :: '_' :: rest => squeeze ('_' :: rest)
  | c :: rest => c :: squeeze rest
  | [] => []

/-- The text without underscores at either end. -/
def stripUnderscores (cs : List Char) : List Char :=
  ((cs.dropWhile (· = '_')).reverse.dropWhile (· = '_')).reverse

/-- The name in snake case. -/
def snakeCase (name : String) : String :=
  let separated := squeeze (separate (splitWords (splitAcronyms name.toList)))
  String.ofList ((stripUnderscores separated).map Char.toLower)

/-- The name of the type that a schema stands for: the component that it refers
to, else its title. -/
def namedType? {τ : Type} (schema : Tree τ) : Option String :=
  match schema.ref? with
  | some ref => some (Pointer.lastToken ref)
  | none => ((schema.fields?.bind (·.get? "title")).bind Tree.text?).filter (· ≠ "")

/-- The name of a component generated from another one. -/
def generated (source suffix : String) : String := source ++ suffix

example : snakeCase "HTTPRule2Go" = "http_rule2_go" ∧ snakeCase "_a___B é" = "a_b" := by
  decide +kernel

end ProtoShape.Naming
