/-!
# Locations

A location is a place in a document, given by the keys on the way from the
root.  It is rendered as a JSON pointer that starts with `#`; `/` and `~` inside
a key are escaped.  A diagnostic is a message about a place.
-/

namespace ProtoShape

/-- Pointer tokens: `~` is written `~0` and `/` is written `~1`. -/
def escapeToken : List Char → List Char
  | [] => []
  | '~' :: rest => '~' :: '0' :: escapeToken rest
  | '/' :: rest => '~' :: '1' :: escapeToken rest
  | c :: rest => c :: escapeToken rest

/-- A place in a document: the keys below the root. -/
structure Location where
  keys : List String
deriving DecidableEq, Inhabited, Repr

namespace Location

/-- The whole document. -/
def root : Location := ⟨[]⟩

/-- The place one key further. -/
def child (l : Location) (key : String) : Location := ⟨l.keys ++ [key]⟩

/-- The place of an item of a list. -/
def item (l : Location) (index : Nat) : Location := l.child (toString index)

/-- The place one key back; the root is its own parent. -/
def parent (l : Location) : Location := ⟨l.keys.dropLast⟩

/-- The last key; the root has the key `#`. -/
def key (l : Location) : String := l.keys.getLastD "#"

/-- The location as a JSON pointer. -/
def render (l : Location) : String :=
  String.ofList ('#' :: l.keys.flatMap fun key => '/' :: escapeToken key.toList)

end Location

/-- A message about a place of a document. -/
structure Diagnostic where
  code : String
  message : String
  location : String
  level : String
deriving DecidableEq, Repr

/-- A diagnostic about a location. -/
def Location.diagnostic (l : Location) (code message : String) (level : String := "warning") :
    Diagnostic :=
  ⟨code, message, l.render, level⟩

end ProtoShape
