import ProtoShape.Fault
import ProtoShape.Json.Writer
import ProtoShape.Layout
import ProtoShape.Text.Case

/-!
# Enumerations

Two values of an enumeration count as one when their fold keys are equal: texts
ignoring case, all other values by kind and canonical text.  `distinctEnum` keeps
one value per fold key, the last one, in the place of the first.

A value may have no canonical text.  Then the comparison stops (`enumFault?`), and
nothing is kept or removed.
-/

namespace ProtoShape.Rules

variable {τ : Type}

/-- What two values have in common when one of them is redundant. -/
structure Likeness where
  kind : String
  /-- The text in common, or the reason why there is none. -/
  text : Except Json.Unwritable String
deriving DecidableEq

/-- The fold key of a value. -/
def likeness (value : Tree τ) : Likeness :=
  match value.text? with
  | some s => ⟨"str", .ok (Text.foldCase s)⟩
  | none => ⟨value.kindName, Json.text Json.canonical value⟩

/-- Puts a value in the place of the first one with its fold key, or last. -/
def settle (key : Likeness) (value : Tree τ) :
    List (Likeness × Tree τ) → List (Likeness × Tree τ)
  | [] => [(key, value)]
  | (other, old) :: rest =>
      if other = key then (other, value) :: rest else (other, old) :: settle key value rest

/-- The last value for each fold key, in the order of first appearance. -/
def lastOfEach (values : List (Tree τ)) : List (Likeness × Tree τ) :=
  values.foldl (fun folded value => settle (likeness value) value folded) []

/-- Removes the values of an enumeration that repeat others. -/
def distinctEnum [Inhabited τ] (fields : Fields τ) : Option (Fields τ) :=
  match Fields.items? fields "enum" with
  | none => none
  | some values =>
      let folded := lastOfEach values
      if folded.length = values.length then none
      else some (fields.insert "enum" (.ofList (folded.map (·.2))))

/-- The fault of comparing the values of an enumeration: the first value without a
fold key stops it. -/
def enumFault? (fields : Fields τ) : Option Fault :=
  match Fields.items? fields "enum" with
  | none => none
  | some values => values.findSome? fun value => Fault.ofText? (likeness value).text

end ProtoShape.Rules
