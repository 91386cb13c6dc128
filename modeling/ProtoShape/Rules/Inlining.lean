import ProtoShape.Rules.SingleMap

/-!
# Members that become properties

`titledToProperty` turns a titled value type of a map into a property of that title.
`membersToProperties` turns a union of objects with one property each into one object
that takes one property of all.  Both give up the old place of what they move.
-/

namespace ProtoShape.Rules

variable {τ : Type} [Inhabited τ]

/-- Whether the type of a schema is absent or `object`. -/
def mayBeObject (fields : Fields τ) : Bool :=
  match fields.get? "type" with
  | some type => type.isText "object"
  | none => true

/-- The title and the fields of an inline titled schema. -/
def titled? (schema : Tree τ) : Option (String × Fields τ) :=
  match schema.fields? with
  | none => none
  | some fields =>
      if Fields.isReference fields then none
      else
        match Fields.text? fields "title" with
        | some title => if title = "" then none else some (title, fields)
        | none => none

/-- Moves a titled `additionalProperties` under its title into `properties`. -/
def titledToProperty (fields : Fields τ) : Option (Fields τ) :=
  match (fields.get? "additionalProperties").bind titled? with
  | none => none
  | some (title, additional) =>
      if mayBeObject fields && !isSingleMap fields then
        match (fields.get? "properties").getD (.map default ∅) with
        | .map tag properties =>
            if properties.contains title then none
            else
              let rest := additional.erase "title"
              let moved := if rest.isEmpty then .ofEntries [("type", .ofText "object")]
                else .map default rest
              some ((fields.insert "properties" (.map tag (properties.insert title moved))).eraseAll
                (mapKeywords.drop 1))
        | _ => none
      else none

/-- The only property of an inline object. -/
def onlyProperty? (member : Tree τ) : Option (Scalar × Tree τ) :=
  match member.fields? with
  | none => none
  | some fields =>
      if Fields.isReference fields || !mayBeObject fields then none
      else
        match Fields.map? fields "properties" with
        | some ⟨[property]⟩ => some property
        | _ => none

/-- The properties together with the only property of each member, where all
keys are different. -/
def mergeProperties (properties : Fields τ) : List (Tree τ) → Option (Fields τ)
  | [] => some properties
  | member :: rest =>
      match onlyProperty? member with
      | none => none
      | some (key, value) =>
          if properties.contains key then none
          else mergeProperties (properties.insert key value) rest

/-- The properties of a schema, none where the keyword is absent. -/
def existingProperties? (fields : Fields τ) : Option (Fields τ) :=
  match fields.get? "properties" with
  | none => some ∅
  | some properties => properties.fields?

/-- Merges a `oneOf` of objects with one property each into the schema. -/
def membersToProperties (fields : Fields τ) : Option (Fields τ) :=
  match Fields.items? fields "oneOf" with
  | none | some [] => none
  | some (member :: rest) =>
      match (existingProperties? fields).bind (mergeProperties · (member :: rest)) with
      | none => none
      | some merged =>
          some (((((fields.erase "oneOf").insert "properties" (.map default merged)).insert
            "minProperties" (.ofInt 1)).insert "maxProperties" (.ofInt 1)).erase
              "unevaluatedProperties")

end ProtoShape.Rules
