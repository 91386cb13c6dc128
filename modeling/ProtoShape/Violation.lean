import ProtoShape.Fault
import ProtoShape.Rules.Enumeration
import ProtoShape.Rules.OpenMap
import ProtoShape.Visit

/-!
# Violations

The shapes that a reshaped document is free of.  `violations` looks at one
schema as it stands and reports each shape at its place; `documentViolations` does
so for every inline schema of a document.
-/

namespace ProtoShape

/-- A shape that a reshaped document is free of, with its place. -/
structure Violation where
  code : String
  message : String
  location : String
deriving DecidableEq, Repr

namespace Violation

/-- The record of a violation. -/
def record (v : Violation) : Fields Unit :=
  ⟨[(.text "code", .ofText v.code), (.text "message", .ofText v.message),
    (.text "location", .ofText v.location)]⟩

variable {τ : Type}

/-- A violation at a location. -/
def found (location : Location) (code message : String) : Violation :=
  ⟨code, message, location.render⟩

/-- `additionalProperties` that accept anything. -/
def ofAdditional (fields : Fields τ) (location : Location) : List Violation :=
  match fields.get? "additionalProperties" with
  | none => []
  | some additional =>
      if Rules.isTrue additional then
        [found location "additional_properties_true" "additionalProperties is true."]
      else if Rules.isUnconstrained additional then
        [found location "additional_properties_empty" "additionalProperties accepts any value."]
      else []

/-- Composites with a single member. -/
def ofComposites (fields : Fields τ) (location : Location) : List Violation :=
  combiningKeys.filterMap fun key =>
    match Fields.items? fields key with
    | some [_] =>
        some (found (location.child key) "single_member_composite" s!"{key} has a single member.")
    | _ => none

/-- Whether a member is inline and carries a constant. -/
def carriesConst (member : Tree τ) : Bool :=
  match member.fields? with
  | some fields => !Fields.isReference fields && fields.contains "const"
  | none => false

/-- Members of a `oneOf` with a constant. -/
def ofConstMembers (fields : Fields τ) (location : Location) : List Violation :=
  ((Fields.items? fields "oneOf").getD []).zipIdx.filterMap fun (member, index) =>
    if carriesConst member then
      some (found ((location.child "oneOf").item index) "oneof_const"
        "oneOf member carries a const.")
    else none

/-- Whether a type is `null`, alone or in a list of types. -/
def isNullType (type : Tree τ) : Bool :=
  match type with
  | .list _ types => types.any (·.isText "null")
  | type => type.isText "null"

/-- The null type. -/
def ofType (fields : Fields τ) (location : Location) : List Violation :=
  match fields.get? "type" with
  | some type =>
      if isNullType type then [found location "null_type" "Schema uses the null type."] else []
  | none => []

/-- The values whose fold key is among `seen` or belongs to an earlier value. -/
def repeated (seen : List Rules.Likeness) : List (Tree τ) → List (Tree τ)
  | [] => []
  | value :: rest =>
      let key := Rules.likeness value
      if seen.contains key then value :: repeated seen rest else repeated (key :: seen) rest

/-- Values of an enumeration that repeat others. -/
def ofEnum (fields : Fields τ) (location : Location) : List Violation :=
  (repeated [] ((Fields.items? fields "enum").getD [])).map fun value =>
    found (location.child "enum") "enum_case_duplicate"
      s!"enum repeats {value.shown} ignoring case."

end Violation

variable {τ : Type}

/-- The violations of one schema. -/
def violations (fields : Fields τ) (location : Location) : List Violation :=
  Violation.ofAdditional fields location ++ Violation.ofComposites fields location ++
    Violation.ofConstMembers fields location ++ Violation.ofType fields location ++
    Violation.ofEnum fields location

/-- The violations of all inline schemas of a document. -/
def documentViolations (document : Tree τ) : List Violation :=
  document.documentVisits.flatMap fun visit => violations visit.fields visit.location

/-- The fault of looking at one schema. -/
def violationFault? (fields : Fields τ) : Option Fault :=
  (Rules.openMapFault? fields).or (Rules.enumFault? fields)

/-- The violations of a document, or the fault that stops the search. -/
def checkedViolations (document : Tree τ) : Except Fault (List Violation) :=
  match document.checkedVisits with
  | .error fault => .error fault
  | .ok visits =>
      match visits.findSome? fun visit => violationFault? visit.fields with
      | some fault => .error fault
      | none => .ok (documentViolations document)

end ProtoShape
