import ProtoShape.Text.Basic

/-!
# Command lines

A command line is cut into tokens: flags, options with their values, and
arguments.  A long option may have its value behind an equals sign, a short one
right behind its letter; otherwise the next word is the value, whatever it looks
like.  Several short flags may share one dash.  A word of two dashes ends the
options; a single dash is an argument.
-/

namespace ProtoShape.Command

/-- Why a command line makes no sense. -/
inductive UsageError where
  | unknownOption (name : String)
  | valueMissing (name : String)
  | valueUnexpected (name : String)
  | unknownCommand (name : String)
  | commandMissing
  | argumentMissing (name : String)
  | argumentUnexpected (argument : String)
  | unknownFormat (format : String)
deriving DecidableEq, Repr

/-- The wording of the error. -/
def UsageError.message : UsageError → String
  | unknownOption name => s!"No such option: {name}"
  | valueMissing name => s!"Option '{name}' requires an argument."
  | valueUnexpected name => s!"Option '{name}' does not take a value."
  | unknownCommand name => s!"No such command '{name}'."
  | commandMissing => "Missing command."
  | argumentMissing name => s!"Missing argument '{name}'."
  | argumentUnexpected argument => s!"Got unexpected extra argument ({argument})"
  | unknownFormat _ => "Invalid value for --format: must be yaml or json"

/-- An option of a command. -/
structure OptionSpec where
  /-- The name behind two dashes. -/
  name : String
  /-- The letter behind one dash. -/
  letter : Option Char
  takesValue : Bool
deriving DecidableEq, Repr

/-- A part of a command line. -/
inductive Token where
  | flag (name : String)
  | valued (name value : String)
  | argument (text : String)
deriving DecidableEq, Repr

/-- What a word of short options says: its flags, and in the end an option that
takes a value, with the value if the word holds it. -/
structure Cluster where
  flags : List String
  last : Option (String × Option String)

/-- Reads the letters behind a dash. -/
def readCluster (specs : List OptionSpec) : List Char → Except UsageError Cluster
  | [] => .ok ⟨[], none⟩
  | letter :: rest =>
      match specs.find? (·.letter = some letter) with
      | none => .error (.unknownOption ("-" ++ letter.toString))
      | some spec =>
          if spec.takesValue then
            .ok ⟨[], some (spec.name, if rest.isEmpty then none else some (String.ofList rest))⟩
          else do
            let others ← readCluster specs rest
            return { others with flags := spec.name :: others.flags }

/-- Reads the text behind two dashes. -/
def readLong (specs : List OptionSpec) (text : List Char) : Except UsageError Cluster :=
  let name := String.ofList (text.takeWhile (· ≠ '='))
  let value := match text.dropWhile (· ≠ '=') with
    | _ :: value => some (String.ofList value)
    | [] => none
  match specs.find? (·.name = name) with
  | none => .error (.unknownOption ("--" ++ name))
  | some spec =>
      if spec.takesValue then .ok ⟨[], some (name, value)⟩
      else
        match value with
        | some _ => .error (.valueUnexpected ("--" ++ name))
        | none => .ok ⟨[name], none⟩

/-- What a word says: nothing about options if it is an argument. -/
def readWord (specs : List OptionSpec) (word : String) : Option (Except UsageError Cluster) :=
  match word.toList with
  | '-' :: '-' :: rest => some (readLong specs rest)
  | '-' :: letter :: rest => some (readCluster specs (letter :: rest))
  | _ => none

/-- Cuts a command line into tokens. -/
def tokens (specs : List OptionSpec) : List String → Except UsageError (List Token)
  | [] => .ok []
  | word :: rest =>
      if word = "--" then .ok (rest.map .argument)
      else
        match readWord specs word with
        | none => do return .argument word :: (← tokens specs rest)
        | some (.error error) => .error error
        | some (.ok ⟨flags, none⟩) => do return flags.map .flag ++ (← tokens specs rest)
        | some (.ok ⟨flags, some (name, some value)⟩) => do
            return flags.map .flag ++ .valued name value :: (← tokens specs rest)
        | some (.ok ⟨flags, some (name, none)⟩) =>
            match rest with
            | [] => .error (.valueMissing name)
            | value :: rest => do
                return flags.map .flag ++ .valued name value :: (← tokens specs rest)

/-- The arguments among tokens. -/
def argumentsOf (ts : List Token) : List String :=
  ts.filterMap fun
    | .argument text => some text
    | _ => none

/-- Whether a flag is among tokens. -/
def hasFlag (ts : List Token) (name : String) : Bool := ts.contains (.flag name)

/-- The value of an option, the last one where there are several. -/
def valueOf (ts : List Token) (name : String) : Option String :=
  (ts.filterMap fun
    | .valued other value => if other = name then some value else none
    | _ => none).getLast?

end ProtoShape.Command
