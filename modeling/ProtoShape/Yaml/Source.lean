/-!
# Characters with their places

YAML tells block collections apart by columns, and a key has to end on the line on
which it starts.  So a text is read as a `Source`, a list of characters of which
each knows its place, and the rest of a source needs no further bookkeeping.

`Source.skip` passes over what separates tokens.
-/

namespace ProtoShape.Yaml

/-- A character with its place. -/
structure Placed where
  char : Char
  /-- The number of characters before it. -/
  offset : Nat
  line : Nat
  column : Nat
deriving DecidableEq, Repr

/-- The characters of a text that are left. -/
abbrev Source := List Placed

/-- A space or a tab. -/
def isBlank (c : Char) : Bool := c = ' ' || c = '\t'

/-- A character that ends a line wherever it stands. -/
def isLineEnd (c : Char) : Bool := c = '\n' || c = '\r' || c = '\x85'

/-- A character that ends a line between tokens and between the words of a scalar. -/
def isBreak (c : Char) : Bool := isLineEnd c || c = '\u2028' || c = '\u2029'

/-- A character next to which an indicator counts. -/
def isEdge (c : Char) : Bool := isBlank c || isLineEnd c

/-- A character that may stand in a YAML text. -/
def isAllowed (c : Char) : Bool :=
  c = '\t' || c = '\n' || c = '\r' || c = '\x85' || (' ' ≤ c && c ≤ '~') ||
    ('\u00A0' ≤ c && c ≤ '\uFFFD') || 0x10000 ≤ c.toNat

namespace Source

/-- Places the characters of a text, from a place on.  Columns start anew behind a
line feed and behind a carriage return, which may end a line together.  A byte
order mark takes no column. -/
def placeFrom (offset line column : Nat) : List Char → Source
  | [] => []
  | c :: rest =>
      ⟨c, offset, line, column⟩ ::
        (if c = '\n' || (c = '\r' && rest.head? ≠ some '\n') then
          placeFrom (offset + 1) (line + 1) 0 rest
        else if c = '\uFEFF' then placeFrom (offset + 1) line column rest
        else placeFrom (offset + 1) line (column + 1) rest)

/-- The characters of a text, if all of them may stand in one.  A byte order mark
in front is dropped. -/
def ofChars? (cs : List Char) : Option Source :=
  if !cs.all isAllowed then none
  else if cs.head? = some '\uFEFF' then some (placeFrom 1 0 0 (cs.drop 1))
  else some (placeFrom 0 0 0 cs)

/-- Whether the next character is this one. -/
def startsWith (source : Source) (c : Char) : Bool := source.head?.any (·.char = c)

/-- Whether a blank, a line end or the end of the text comes next. -/
def startsEdge (source : Source) : Bool := source.head?.all (isEdge ·.char)

/-- Whether a mark of three characters comes next, with an edge behind it. -/
def startsMark (source : Source) (mark : String) : Bool :=
  (source.take 3).map (·.char) = mark.toList && startsEdge (source.drop 3)

/-- Whether a mark between documents comes next. -/
def startsDocumentMark (source : Source) : Bool :=
  source.startsMark "---" || source.startsMark "..."

/-- Passes over blanks, line ends and comments, and tells whether a line ends
there.  A tab is a blank inside flow collections only. -/
def skipFrom (flow : Bool) : Bool → Bool → Source → Bool × Source
  | _, broken, [] => (broken, [])
  | comment, broken, p :: rest =>
      if comment && !isLineEnd p.char then skipFrom flow true broken rest
      else if isBreak p.char then skipFrom flow false true rest
      else if p.char = ' ' || (flow && p.char = '\t') then skipFrom flow false broken rest
      else if p.char = '#' then skipFrom flow true broken rest
      else (broken, p :: rest)

/-- Passes over what stands in front of the next token. -/
def skip (source : Source) (flow : Bool) : Bool × Source := skipFrom flow false false source

end Source

end ProtoShape.Yaml
