import ProtoShape.Json.Order
import ProtoShape.Text.Quoted

/-!
# JSON texts

A `Style` fixes what JSON leaves open: separators, line breaks, the order of the
members and the characters that are escaped.  Three styles are in use:

* `pretty`, for documents: two spaces of indentation and characters as they are;
* `compact`, for textual matches: no blanks and ASCII only;
* `canonical`, for comparison and reports: one line, ASCII only, members in the
  order of their keys.

A key that is no text is written as the text of its JSON value.  Not every value has a
JSON text: an integer may have too many digits, keys may have no order, and a foreign
value is written as its text by the last two styles only.  The reason that is given is
the first one that is met, where the keys of a mapping are ordered before any member of
it is written.
-/

namespace ProtoShape.Json

/-- What JSON leaves open about the text of a value. -/
structure Style where
  /-- Stands between two items on one line. -/
  itemSeparator : String
  /-- Stands between a key and its value. -/
  keySeparator : String
  /-- Spaces per level, with every item on a line of its own. -/
  indent : Option Nat
  /-- Whether characters outside ASCII are escaped. -/
  asciiOnly : Bool
  /-- Whether members are written in the order of their keys. -/
  sorted : Bool
  /-- Whether a foreign value is written as its text. -/
  foreignAsText : Bool

/-- The style of documents. -/
def pretty : Style := ⟨",", ": ", some 2, false, false, false⟩

/-- The style for textual matches. -/
def compact : Style := ⟨",", ":", none, true, false, true⟩

/-- The style for comparisons and reports. -/
def canonical : Style := ⟨", ", ": ", none, true, true, true⟩

/-- The escape of a UTF-16 code unit. -/
def unitEscape (unit : Nat) : String := "\\u" ++ Text.hexadecimal 4 unit

/-- The escape of a character: one unit, or a surrogate pair beyond U+FFFF. -/
def unicodeEscape (c : Char) : String :=
  if c.toNat < 0x10000 then unitEscape c.toNat
  else
    unitEscape (0xD800 + (c.toNat - 0x10000) / 0x400) ++
      unitEscape (0xDC00 + (c.toNat - 0x10000) % 0x400)

/-- One character inside a JSON string. -/
def escapedChar (asciiOnly : Bool) (c : Char) : String :=
  if c = '"' then "\\\""
  else if c = '\\' then "\\\\"
  else if c = '\n' then "\\n"
  else if c = '\r' then "\\r"
  else if c = '\t' then "\\t"
  else if c = '\x08' then "\\b"
  else if c = '\x0c' then "\\f"
  else if c.toNat < 0x20 || (asciiOnly && 0x7F ≤ c.toNat) then unicodeEscape c
  else c.toString

/-- A JSON string. -/
def stringText (asciiOnly : Bool) (s : String) : String :=
  "\"" ++ String.join (s.toList.map (escapedChar asciiOnly)) ++ "\""

/-- How JSON spells floating point numbers outside the reals. -/
def floatSpelling : Decimal.Spelling := ⟨"Infinity", "-Infinity", "NaN"⟩

/-- A JSON scalar. -/
def scalarText (style : Style) : Scalar → Except Unwritable String
  | .null => .ok "null"
  | .bool true => .ok "true"
  | .bool false => .ok "false"
  | .int i => if (Scalar.int i).isTooLong then .error .tooManyDigits else .ok (toString i)
  | .float x => .ok (Decimal.floatText floatSpelling x)
  | .text s => .ok (stringText style.asciiOnly s)
  | .foreign value =>
      if style.foreignAsText then .ok (stringText style.asciiOnly value.text)
      else .error (.unknownKind value.kind)

/-- The text that stands for a key. -/
def keyText (style : Style) : Scalar → Except Unwritable String
  | .text s => .ok s
  | .foreign value => .error (.badKey value.kind)
  | key => scalarText style key

/-- The line break at a level of indentation, where the style has lines. -/
def lineBreak (style : Style) (level : Nat) : String :=
  match style.indent with
  | none => ""
  | some width => "\n" ++ String.ofList (List.replicate (width * level) ' ')

/-- Items between brackets; the brackets touch where there is no item. -/
def bracketed (style : Style) (level : Nat) (opening closing : String) (items : List String) :
    String :=
  if items.isEmpty then opening ++ closing
  else
    opening ++ lineBreak style (level + 1) ++
      (style.itemSeparator ++ lineBreak style (level + 1)).intercalate items ++
      lineBreak style level ++ closing

variable {τ : Type}

mutual
/-- The text of a value at a level of indentation. -/
def write (style : Style) (level : Nat) : Tree τ → Except Unwritable String
  | .scalar _ s => scalarText style s
  | .list _ items => do
      return bracketed style level "[" "]" (← writeItems style (level + 1) items)
  | .map _ ⟨entries⟩ => do
      let members := writeMembers style (level + 1) entries
      let ordered ← if style.sorted then sortEntries members else pure members
      return bracketed style level "\x7b" "\x7d" (← ordered.mapM (·.2))

/-- The texts of the items of a list. -/
def writeItems (style : Style) (level : Nat) : List (Tree τ) → Except Unwritable (List String)
  | [] => .ok []
  | item :: rest => do return (← write style level item) :: (← writeItems style level rest)

/-- The texts of the members of a mapping, with their keys for sorting. -/
def writeMembers (style : Style) (level : Nat) :
    List (Scalar × Tree τ) → List (Scalar × Except Unwritable String)
  | [] => []
  | (key, value) :: rest =>
      (key, do
        return stringText style.asciiOnly (← keyText style key) ++ style.keySeparator ++
          (← write style level value)) :: writeMembers style level rest
end

/-- The text of a value in a style. -/
def text (style : Style) (t : Tree τ) : Except Unwritable String := write style 0 t

example : text canonical (Tree.map () ⟨[(.text "b", .scalar () (.int 1)),
    (.text "a", .list () [.scalar () .null, .scalar () (.text "é")])]⟩) =
    .ok "\x7b\"a\": [null, \"\\u00e9\"], \"b\": 1\x7d" := by decide +kernel

end ProtoShape.Json
