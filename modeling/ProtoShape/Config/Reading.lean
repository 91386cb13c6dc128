import ProtoShape.Config
import ProtoShape.Config.Complaint
import ProtoShape.Text.Basic

/-!
# Reading a configuration

A configuration is read from any value.  Absent fields have their standard
values; unknown keys are refused.  Texts are not made from other values.  A
boolean may also be given as zero or one, or by one of the usual words.
-/

namespace ProtoShape.Config

/-- A text. -/
def readText (v : Value) : Checked String :=
  match v.text? with
  | some s => .ok s
  | none => Checked.complain .notText

/-- A text or null. -/
def readOptionalText : Value → Checked (Option String)
  | .scalar _ .null => .ok none
  | v => (readText v).map some

/-- A list of texts. -/
def readTexts (v : Value) : Checked (List String) :=
  match v.items? with
  | none => Checked.complain .notList
  | some items =>
      Checked.all (items.zipIdx.map fun (item, index) =>
        (readText item).inside (.index index))

/-- The boolean that a word stands for. -/
def wordBoolean? (word : String) : Option Bool :=
  let small := String.ofList (word.toList.map Char.toLower)
  if ["0", "off", "f", "false", "n", "no"].contains small then some false
  else if ["1", "on", "t", "true", "y", "yes"].contains small then some true
  else none

/-- Whether an integer has 64 bits. -/
def hasWordSize (i : Int) : Bool := Int64.minValue.toInt ≤ i && i ≤ Int64.maxValue.toInt

/-- Whether a number is whole and has 64 bits. -/
def isWhole (x : Float) : Bool := x.floor == x && x.abs < 9223372036854775808.0

/-- A boolean. -/
def readBoolean : Value → Checked Bool
  | .scalar _ (.bool b) => .ok b
  | .scalar _ (.text s) =>
      match wordBoolean? s with
      | some b => .ok b
      | none => Checked.complain .unclearBoolean
  | .scalar _ (.int i) =>
      if i = 0 then .ok false
      else if i = 1 then .ok true
      else Checked.complain (if hasWordSize i then .unclearBoolean else .notBoolean)
  | .scalar _ (.float x) =>
      if x == 0.0 then .ok false
      else if x == 1.0 then .ok true
      else Checked.complain (if isWhole x then .unclearBoolean else .notBoolean)
  | _ => Checked.complain .notBoolean

/-- An output format. -/
def readFormat (v : Value) : Checked String :=
  match v.text? with
  | some s => if s = "yaml" || s = "json" then .ok s else Checked.complain .notFormat
  | none => Checked.complain .notFormat

/-- A field of a record, or its standard value. -/
def readField {α : Type} (fields : Fields Unit) (key : String) (standard : α)
    (read : Value → Checked α) : Checked α :=
  match fields.get? key with
  | some v => (read v).inside (.key key)
  | none => .ok standard

/-- The step to a key that is no text. -/
def oddKey : Scalar → Place
  | .int i => if hasWordSize i then .index i else .key (toString i)
  | .bool b => .index (if b then 1 else 0)
  | key => .key key.label

/-- The complaints about keys that a record does not have. -/
def unknownKeys (fields : Fields Unit) (known : List String) : List Complaint :=
  fields.keys.filterMap fun key =>
    match key with
    | .text name => if known.contains name then none else some ⟨.unknownKey, [.key name]⟩
    | key => some ⟨.keyNotText, [oddKey key]⟩

/-- A record: its fields, no other keys, and then a look at the whole. -/
def readRecord {α : Type} (name : String) (known : List String)
    (read : Fields Unit → Checked α) (refusal? : α → Option String) (v : Value) : Checked α :=
  match v.fields? with
  | none => Checked.complain (.notRecord name)
  | some fields =>
      let extra : Checked Unit := match unknownKeys fields known with
        | [] => .ok ()
        | complaints => .error complaints
      match Checked.both ((read fields).map fun a _ => a) extra with
      | .error complaints => .error complaints
      | .ok a =>
          match refusal? a with
          | some reason => Checked.complain (.refused reason)
          | none => .ok a

/-- The keys of the options. -/
def optionKeys : List String :=
  ["inline_single_map_contexts", "inject_field_on_inline", "single_map_suffix", "null_type_name",
    "field_property", "primitive_value_key", "oneof_schema_flag", "oneof_property_flag",
    "oneof_annotation_flag"]

/-- The fields of the options. -/
def readOptionFields (fields : Fields Unit) : Checked Options :=
  let standard := Options.standard
  let text (key : String) (value : String) := readField fields key value readText
  ((((((((Checked.both (.ok Options.mk)
    (readField fields "inline_single_map_contexts" standard.inlineContexts readTexts)).both
    (readField fields "inject_field_on_inline" standard.injectOnInline readBoolean)).both
    (text "single_map_suffix" standard.singleMapSuffix)).both
    (text "null_type_name" standard.nullTypeName)).both
    (text "field_property" standard.fieldProperty)).both
    (text "primitive_value_key" standard.primitiveValueKey)).both
    (text "oneof_schema_flag" standard.schemaFlag)).both
    (text "oneof_property_flag" standard.propertyFlag)).both
    (readField fields "oneof_annotation_flag" standard.annotationFlag readOptionalText)

/-- Whether a text is a vendor extension. -/
def isExtension (s : String) : Bool := "x-".toList.isPrefixOf s.toList

/-- Why options are refused: some texts must not be blank, and the marks must be
vendor extensions.  The first reason counts. -/
def optionsRefusal? (options : Options) : Option String :=
  let blank (name value : String) : Option String :=
    if Text.trim value = "" then some s!"rewrite.{name} must not be empty." else none
  let mark (name value : String) : Option String :=
    if isExtension value then none
    else some s!"rewrite.{name} must be a vendor extension starting with 'x-'."
  (blank "single_map_suffix" options.singleMapSuffix).or <|
    (blank "null_type_name" options.nullTypeName).or <|
    (blank "field_property" options.fieldProperty).or <|
    (blank "primitive_value_key" options.primitiveValueKey).or <|
    (mark "oneof_schema_flag" options.schemaFlag).or <|
    (mark "oneof_property_flag" options.propertyFlag).or <|
    options.annotationFlag.bind (mark "oneof_annotation_flag")

/-- Reads options. -/
def readOptions (v : Value) : Checked Options :=
  readRecord "RewriteOptions" optionKeys readOptionFields optionsRefusal? v

/-- The fields of an output. -/
def readOutputFields (fields : Fields Unit) : Checked Output :=
  (Checked.both (.ok Output.mk) (readField fields "path" none readOptionalText)).both
    (readField fields "format" "yaml" readFormat)

/-- Reads an output. -/
def readOutput (v : Value) : Checked Output :=
  readRecord "Output" ["path", "format"] readOutputFields (fun _ => none) v

/-- The fields of a configuration. -/
def readConfigFields (fields : Fields Unit) : Checked Config :=
  let standard := Config.standard
  (((Checked.both (.ok Config.mk)
    (readField fields "version" standard.version readText)).both
    (readField fields "document" standard.document readOptionalText)).both
    (readField fields "rewrite" standard.options readOptions)).both
    (readField fields "output" standard.output readOutput)

/-- Why a configuration is refused. -/
def configRefusal? (config : Config) : Option String :=
  if config.version = "v1" then none else some "Only version v1 is supported."

/-- Reads a configuration. -/
def read (v : Value) : Checked Config :=
  readRecord "Config" ["version", "document", "rewrite", "output"] readConfigFields configRefusal? v

end ProtoShape.Config
