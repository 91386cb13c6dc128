import ProtoShape.Json.Writer

/-!
# What a report puts on the console

A report does not lay anything out.  It hands items to the console: lines, styled texts, panels,
tables and JSON texts.  A live item is shown and then replaced until it ends.

An event may hold something that a report cannot show.  And the console may refuse an item, such as
a text in which it finds the marks of styles in disorder.
-/

namespace ProtoShape.Report

/-- A text in a style, with styles for some stretches of it. -/
structure StyledText where
  text : String
  style : String
  spans : List (Nat × Nat × String)
deriving DecidableEq, Repr

/-- On which side of a column its cells stand. -/
inductive Justify where
  | left
  | right
deriving DecidableEq, Repr

/-- A cell of a table. -/
inductive Cell where
  | text (s : String)
  | styled (t : StyledText)
deriving DecidableEq, Repr

/-- A table. -/
structure Table where
  title : Option String
  columns : List (String × Justify)
  rows : List (List Cell)
deriving DecidableEq, Repr

/-- Something on the console. -/
inductive Item where
  | line (s : String)
  | styled (t : StyledText)
  | panel (title : String) (body : Item)
  | table (t : Table)
  | group (items : List Item)
  | json (text : String)
  /-- Shows an item until another one replaces it or the display ends. -/
  | live (item : Item)
  | liveEnd

/-! ## Trouble -/

/-- Why a report cannot go on. -/
inductive Trouble where
  /-- A whole number is beyond all floating point numbers. -/
  | tooLarge
  /-- So is a quotient of whole numbers. -/
  | quotientTooLarge
  /-- A record lacks a field. -/
  | missingField (name : String)
  /-- A value of this kind has no place in a table. -/
  | notACell (kind : String)
  /-- A record has no JSON text. -/
  | unwritable (reason : Json.Unwritable)
  /-- The console refuses an item, and says why. -/
  | refused (reason : String)
deriving DecidableEq, Repr

/-- The wording of the trouble. -/
def Trouble.message : Trouble → String
  | tooLarge => "int too large to convert to float"
  | quotientTooLarge => "integer division result too large for a float"
  | missingField name => Text.quoted name
  | notACell kind =>
      s!"unable to render {kind}; a string or other renderable object is required"
  | unwritable reason => reason.message
  | refused reason => reason

/-- The JSON text that a report shows, or why there is none. -/
def jsonItem {τ : Type} (payload : Tree τ) : Except Trouble Item :=
  match Json.text Json.canonical payload with
  | .ok text => .ok (.json text)
  | .error reason => .error (.unwritable reason)

/-! ## Consoles -/

/-- What shows items. -/
structure Console where
  /-- Why an item is refused, if it is. -/
  refusal? : Item → Option String

namespace Console

/-- The console that shows every item. -/
def willing : Console := ⟨fun _ => none⟩

/-- Shows items up to the first trouble or the first one that is refused. -/
def put (console : Console) : List (Except Trouble Item) → List Item × Option Trouble
  | [] => ([], none)
  | .error trouble :: _ => ([], some trouble)
  | .ok item :: rest =>
      match console.refusal? item with
      | some reason => ([], some (.refused reason))
      | none => (item :: (console.put rest).1, (console.put rest).2)

end Console

end ProtoShape.Report
