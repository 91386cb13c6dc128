import ProtoShape.Tree

/-!
# Complaints about a configuration

A configuration that is not accepted is answered with all that is wrong with it.
A complaint says what is wrong and where.  A record that has a complaint about
one of its fields is not looked at as a whole.
-/

namespace ProtoShape.Config

/-- What is wrong with a value. -/
inductive Problem where
  /-- The key is not known. -/
  | unknownKey
  /-- The key is no text. -/
  | keyNotText
  /-- A text is expected. -/
  | notText
  /-- A list is expected. -/
  | notList
  /-- A boolean is expected. -/
  | notBoolean
  /-- The value could be meant as a boolean, but cannot be read as one. -/
  | unclearBoolean
  /-- One of the output formats is expected. -/
  | notFormat
  /-- A mapping is expected for the record of this name. -/
  | notRecord (name : String)
  /-- The fields do not go together. -/
  | refused (reason : String)
deriving DecidableEq, Repr

/-- The code of a problem. -/
def Problem.code : Problem → String
  | unknownKey => "extra_forbidden"
  | keyNotText => "invalid_key"
  | notText => "string_type"
  | notList => "list_type"
  | notBoolean => "bool_type"
  | unclearBoolean => "bool_parsing"
  | notFormat => "literal_error"
  | notRecord _ => "model_type"
  | refused _ => "value_error"

/-- The wording of a problem. -/
def Problem.message : Problem → String
  | unknownKey => "Extra inputs are not permitted"
  | keyNotText => "Keys should be strings"
  | notText => "Input should be a valid string"
  | notList => "Input should be a valid list"
  | notBoolean => "Input should be a valid boolean"
  | unclearBoolean => "Input should be a valid boolean, unable to interpret input"
  | notFormat => "Input should be 'yaml' or 'json'"
  | notRecord name => s!"Input should be a valid dictionary or instance of {name}"
  | refused reason => s!"Value error, {reason}"

/-- One step on the way to a place in a configuration. -/
inductive Place where
  | key (name : String)
  | index (i : Int)
deriving DecidableEq, Repr

/-- A problem and its place. -/
structure Complaint where
  problem : Problem
  place : List Place
deriving DecidableEq, Repr

/-- A value, or all complaints about it. -/
abbrev Checked (α : Type) := Except (List Complaint) α

namespace Checked

variable {α β : Type}

/-- A complaint about the value itself. -/
def complain (problem : Problem) : Checked α := .error [⟨problem, []⟩]

/-- Adds a step to the places of all complaints. -/
def inside (step : Place) : Checked α → Checked α
  | .ok a => .ok a
  | .error complaints => .error (complaints.map fun c => { c with place := step :: c.place })

/-- Applies a function to a value; the complaints about both are collected. -/
def both (f : Checked (α → β)) (a : Checked α) : Checked β :=
  match f, a with
  | .ok f, .ok a => .ok (f a)
  | .error before, .error after => .error (before ++ after)
  | .error before, .ok _ => .error before
  | .ok _, .error after => .error after

/-- All values, or the complaints about all of them. -/
def all : List (Checked α) → Checked (List α)
  | [] => .ok []
  | a :: rest => both (both (.ok List.cons) a) (all rest)

end Checked

/-- The first line of the answer to a configuration that is not accepted. -/
def summary (complaints : List Complaint) (name : String) : String :=
  let count := complaints.length
  let noun := if count = 1 then "error" else "errors"
  s!"{count} validation {noun} for {name}"

end ProtoShape.Config
