import ProtoShape.Decimal.Text

/-!
# Scalars

The values without parts that a document can hold, in a leaf or as the key of
a mapping.  A JSON document has text keys only; a YAML document may also use
numbers, booleans and null as keys.  A YAML document may even hold values that
JSON does not know, such as dates; of such a `Foreign` value all that matters here
is its type and the texts that stand for it.
-/

namespace ProtoShape

/-- The names of the types that JSON knows. -/
def jsonKinds : List String := ["NoneType", "bool", "int", "float", "str", "list", "dict"]

/-- A value without parts of a type that JSON does not know. -/
structure Foreign where
  /-- The name of the type. -/
  kind : String
  /-- The value as a text. -/
  text : String
  /-- The value as messages quote it. -/
  shown : String
  kind_not_mem : kind ∉ jsonKinds
deriving DecidableEq, Repr

/-- A value without parts. -/
inductive Scalar where
  | null
  | bool (b : Bool)
  | int (i : Int)
  | float (x : Float)
  | text (s : String)
  | foreign (value : Foreign)
deriving DecidableEq, Inhabited

namespace Scalar

instance : Coe String Scalar := ⟨.text⟩

/-- The name of a kind of scalar, as messages give it. -/
def kindName : Scalar → String
  | null => "NoneType"
  | bool _ => "bool"
  | int _ => "int"
  | float _ => "float"
  | text _ => "str"
  | foreign value => value.kind

/-- The text of a text scalar. -/
def text? : Scalar → Option String
  | text s => some s
  | _ => none

/-- How floating point numbers outside the reals are spelled in messages. -/
def floatSpelling : Decimal.Spelling := ⟨"inf", "-inf", "nan"⟩

/-- The label of a key in a location and in a message: a text stands for
itself. -/
def label : Scalar → String
  | null => "None"
  | bool true => "True"
  | bool false => "False"
  | int i => toString i
  | float x => Decimal.floatText floatSpelling x
  | text s => s
  | foreign value => value.text

/-- Whether an integer has so many digits that it is not written in decimals. -/
def isTooLong : Scalar → Bool
  | int i => Nat.pow 10 Decimal.maxDigits ≤ i.natAbs
  | _ => false

/-- Whether the scalar is a value that JSON does not know. -/
def isForeign : Scalar → Bool
  | foreign _ => true
  | _ => false

/-- Whether the scalar is the number one.  An integer and a floating point
number both count; a boolean does not. -/
def isOne : Scalar → Bool
  | int i => i = 1
  | float x => x == 1.0
  | _ => false

end Scalar

end ProtoShape
