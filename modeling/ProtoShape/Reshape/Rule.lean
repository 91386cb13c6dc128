import ProtoShape.Reshape.Maps
import ProtoShape.Rules.Composite
import ProtoShape.Rules.Enumeration
import ProtoShape.Rules.Inlining
import ProtoShape.Rules.OpenMap
import ProtoShape.Rules.Restatement

/-!
# The rules as steps

The phases apply each rule as a function on the fields of a schema.  Tried on its own, a rule is a
step of a run: it reads and writes the keywords of one schema, one after the other, and tells
whether it has changed anything.  `Edit` is the language of such programs.  What a program has
written stays, also where it then stops at a fault or tells that it has changed nothing.

Two rules look beyond their schema, and are steps of the whole run: `dropShorthandAt` and
`referSingleMapAt`.  `Rule.step` puts all rules side by side.
-/

namespace ProtoShape

/-- A program on the fields of a schema, which may stop at a fault. -/
abbrev Edit (τ : Type) := ExceptT Fault (StateM (Fields τ))

namespace Edit

variable {τ : Type}

/-- The value of a keyword. -/
def read (key : String) : Edit τ (Option (Tree τ)) := return (← get).get? key

/-- Binds a keyword to a value. -/
def write (key : String) (value : Tree τ) : Edit τ Unit := modify (·.insert key value)

/-- Removes a keyword. -/
def remove (key : String) : Edit τ Unit := modify (·.erase key)

/-- The value of a keyword, which is written where it is absent. -/
def setDefault (key : String) (value : Tree τ) : Edit τ (Tree τ) := do
  match ← read key with
  | some present => return present
  | none => do
      write key value
      return value

/-- Stops where there is a fault. -/
def stopAt (fault? : Option Fault) : Edit τ Unit :=
  match fault? with
  | some fault => throw fault
  | none => pure ()

/-- Stops where a value has no text. -/
def ofText {α : Type} : Except Json.Unwritable α → Edit τ α
  | .ok result => pure result
  | .error reason => throw (.unwritable reason)

variable [Inhabited τ]

open Rules

/-! ## First phase -/

/-- Replaces a union with a constant by an enumeration. -/
def constsToEnum : Edit τ Bool := do
  match Fields.items? (← get) "oneOf" with
  | none => return false
  | some members =>
      if members.any fun member => (const? member).isSome then do
        let literals := members.filterMap literal?
        remove "oneOf"
        write "type" (.ofText (sharedType literals))
        write "enum" (.ofList literals)
        return true
      else return false

/-- The shapes of some schemas, those that have one. -/
def shapesOf : List (Fields τ) → Except Json.Unwritable (List String)
  | [] => .ok []
  | schema :: rest =>
      match shape? schema with
      | none => shapesOf rest
      | some shape => do return (← shape) :: (← shapesOf rest)

/-- The members that are arrays, no mappings, or of none of the shapes. -/
def uncovered (shapes : List String) : List (Tree τ) → Except Json.Unwritable (List (Tree τ))
  | [] => .ok []
  | member :: rest =>
      match (otherFields? member).bind shape? with
      | none => do return member :: (← uncovered shapes rest)
      | some shape => do
          let text ← shape
          let kept ← uncovered shapes rest
          return if shapes.contains text then kept else member :: kept

/-- Drops the members of a union that an array member covers. -/
def dropListCovered : Edit τ Bool := do
  match ← read "oneOf" with
  | some (.list tag members) => do
      let shapes ← ofText (shapesOf (members.filterMap arrayItemFields?))
      if shapes.isEmpty then return false
      else do
        let kept ← ofText (uncovered shapes members)
        if kept.length = members.length then return false
        else do
          write "oneOf" (.list tag kept)
          return true
  | _ => return false

/-- Unwraps one composite with a single member after the other; `changed` says whether there has
been one. -/
def unwrapFrom (changed : Bool) (fields : Fields τ) : Bool × Fields τ :=
  match _h : unwrapStep? fields with
  | none => (changed, fields)
  | some unwrapped => unwrapFrom true unwrapped
termination_by weight fields
decreasing_by exact weight_unwrapStep?_lt (by assumption)

/-- Unwraps all composites with a single member. -/
def unwrapComposites : Edit τ Bool := modifyGet (unwrapFrom false)

/-- Turns a map of anything into a plain object. -/
def closeOpenMap : Edit τ Bool := do
  match ← read "additionalProperties" with
  | none => return false
  | some additional => do
      stopAt (unconstrainedFault? additional)
      if isTrue additional || isUnconstrained additional then do
        write "type" (.ofText "object")
        remove "additionalProperties"
        return true
      else return false

/-- The last value for each fold key, in the order of first appearance. -/
def folded : List (Likeness × Tree τ) → List (Tree τ) →
    Except Json.Unwritable (List (Likeness × Tree τ))
  | before, [] => .ok before
  | before, value :: rest => do
      let _ ← (likeness value).text
      folded (settle (likeness value) value before) rest

/-- Removes the values of an enumeration that repeat others. -/
def distinctEnum : Edit τ Bool := do
  match Fields.items? (← get) "enum" with
  | none => return false
  | some values => do
      let kept ← ofText (folded [] values)
      if kept.length = values.length then return false
      else do
        write "enum" (.ofList (kept.map (·.2)))
        return true

/-- Replaces the type `null`. -/
def renameNull (sentinel : String) : Edit τ Bool := do
  match ← read "type" with
  | some (.scalar _ (.text "null")) => do
      write "type" (.ofText sentinel)
      return true
  | some (.list _ types) =>
      if types.any (·.isText "null") then do
        write "type" (.ofList (types.map fun type =>
          if type.isText "null" then .ofText sentinel else type))
        return true
      else return false
  | _ => return false

/-! ## Second phase -/

/-- Moves a titled value type under its title into `properties`, which are made where they are
absent. -/
def titledToProperty : Edit τ Bool := do
  match (← read "additionalProperties").bind titled? with
  | none => return false
  | some (title, additional) => do
      let fields ← get
      if mayBeObject fields && !isSingleMap fields then do
        match ← setDefault "properties" (.map default ∅) with
        | .map tag properties =>
            if properties.contains title then return false
            else do
              let rest := additional.erase "title"
              let moved := if rest.isEmpty then .ofEntries [("type", .ofText "object")]
                else .map default rest
              write "properties" (.map tag (properties.insert title moved))
              (mapKeywords.drop 1).forM remove
              return true
        | _ => return false
      else return false

/-- Merges a union of objects with one property each into the schema. -/
def membersToProperties : Edit τ Bool := do
  match Fields.items? (← get) "oneOf" with
  | none | some [] => return false
  | some (member :: rest) => do
      match (existingProperties? (← get)).bind (mergeProperties · (member :: rest)) with
      | none => return false
      | some merged => do
          remove "oneOf"
          write "properties" (.map default merged)
          write "minProperties" (.ofInt 1)
          write "maxProperties" (.ofInt 1)
          remove "unevaluatedProperties"
          return true

/-! ## Third phase -/

/-- Marks the properties of a schema, where they are still a mapping. -/
def markProperties (flags : Flags) (note : String) : Edit τ Unit := do
  match ← read "properties" with
  | some (.map tag properties) =>
      write "properties" (.map tag (properties.mapValues (markProperty flags note)))
  | _ => return ()

/-- Marks an exclusive schema, and then its properties with a note that lists them. -/
def markGroup (flags : Flags) : Edit τ Bool := do
  match ← read "properties" with
  | some (.map _ properties) =>
      if isExclusiveGroup (← get) then do
        write flags.schema (.ofBool true)
        stopAt (noteFault? properties)
        markProperties flags (groupNote properties)
        return true
      else return false
  | _ => return false

/-- Marks a schema with an exclusive part. -/
def markComposite (flags : Flags) : Edit τ Bool := do
  if hasExclusivePart (← get) then do
    write flags.schema (.ofBool true)
    return true
  else return false

/-- Marks a schema where it is exclusive by itself or by a part. -/
def markExclusive (flags : Flags) : Edit τ Bool := do
  let group ← markGroup flags
  let part ← markComposite flags
  return group || part

end Edit

/-! ## Steps of a run -/

namespace RiskyStep

/-- Runs a program on the schema with a number. -/
def edit (program : Edit Tag Bool) (n : Nat) : RiskyStep Bool := do
  let fields ← fieldsOf n
  let left := program.run fields
  (Step.modifyFields n fun _ => left.2 : Step Unit)
  (left.1 : Except Fault Bool)

/-- The last rule of the first phase on the schema with a number. -/
def dropShorthandAt (location : Location) (n : Nat) : RiskyStep Bool := do
  let found := Rules.dropShorthand (← get).document location (← fieldsOf n)
  (found.1.forM Step.report : Step Unit)
  match found.2 with
  | .error reason => throw (.unwritable reason)
  | .ok none => return false
  | .ok (some result) => do
      (Step.modifyFields n fun _ => result : Step Unit)
      return true

/-- The first rule of the second phase on the schema with a number. -/
def referSingleMapAt (context : Option String) (location : Location) (n : Nat) :
    RiskyStep Bool := do
  let _ ← fieldsOf n
  referSingleMap context location n

end RiskyStep

/-- The rules of the three phases, each with what it takes beside a schema. -/
inductive Rule where
  | constsToEnum
  | dropListCovered
  | unwrapComposites
  | closeOpenMap
  | distinctEnum
  | renameNull (sentinel : String)
  | dropShorthand (location : Location)
  | referSingleMap (context : Option String) (location : Location)
  | titledToProperty
  | membersToProperties
  | markExclusive (flags : Rules.Flags)

namespace Rule

/-- A rule as a step on the schema with a number.  The result says whether it has changed
anything. -/
def step (n : Nat) : Rule → RiskyStep Bool
  | constsToEnum => RiskyStep.edit Edit.constsToEnum n
  | dropListCovered => RiskyStep.edit Edit.dropListCovered n
  | unwrapComposites => RiskyStep.edit Edit.unwrapComposites n
  | closeOpenMap => RiskyStep.edit Edit.closeOpenMap n
  | distinctEnum => RiskyStep.edit Edit.distinctEnum n
  | renameNull sentinel => RiskyStep.edit (Edit.renameNull sentinel) n
  | dropShorthand location => RiskyStep.dropShorthandAt location n
  | referSingleMap context location => RiskyStep.referSingleMapAt context location n
  | titledToProperty => RiskyStep.edit Edit.titledToProperty n
  | membersToProperties => RiskyStep.edit Edit.membersToProperties n
  | markExclusive flags => RiskyStep.edit (Edit.markExclusive flags) n

/-- The rules of the first phase on one schema, in their order. -/
def ofCleanUp (options : Options) (location : Location) : List Rule :=
  [constsToEnum, dropListCovered, unwrapComposites, closeOpenMap, distinctEnum,
    renameNull options.nullTypeName, dropShorthand location]

/-- Applies rules to the schema with a number, one after the other. -/
def inTurn (n : Nat) : List Rule → RiskyStep Unit
  | [] => pure ()
  | rule :: rest => do
      let _ ← rule.step n
      inTurn n rest

end Rule

end ProtoShape
