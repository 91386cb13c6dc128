import ProtoShape.Text.Quoted
import ProtoShape.Tree
import ProtoShape.Yaml.Plain

/-!
# Writing YAML

Collections are written in block style, two columns per level, with the dashes of
a sequence in the column of the key that it belongs to; empty collections are
written in flow style.  A text is plain where it reads back as the same text,
else in single quotes, and in double quotes where single ones do not do.  A key
of many characters or of several lines is marked by a question mark.

A line has `maxColumns` columns.  A scalar that is longer goes on behind a line break,
which stands for a space; between double quotes a backslash takes that meaning away.
-/

namespace ProtoShape.Yaml

/-! ## Texts -/

/-- A character that ends a line inside a scalar. -/
def breaksLine (c : Char) : Bool := c = '\n' || c = '\x85' || c = '\u2028' || c = '\u2029'

/-- A character next to which an indicator counts. -/
def separates (c : Char) : Bool :=
  c = ' ' || c = '\t' || c = '\r' || c = '\x00' || breaksLine c

/-- A character that only a double-quoted scalar can hold. -/
def isSpecial (c : Char) : Bool :=
  !(c = '\n' || c = '\x85' || (' ' ≤ c && c ≤ '~') ||
    ((('\u00A0' ≤ c && c ≤ '\uFFFD') || 0x10000 ≤ c.toNat) && c ≠ '\uFEFF'))

/-- Whether the character behind the first one is a separator or missing. -/
def separatesNext (rest : List Char) : Bool :=
  match rest with
  | [] => true
  | c :: _ => separates c

/-- Whether an indicator inside a text ends a plain scalar: a colon in front of a
separator or a hash behind one. -/
def hasInnerIndicator : Char → List Char → Bool
  | _, [] => false
  | previous, c :: rest =>
      (c = ':' && separatesNext rest) || (c = '#' && separates previous) ||
        hasInnerIndicator c rest

/-- Whether a text looks like something else in block context. -/
def hasIndicator (cs : List Char) : Bool :=
  "---".toList.isPrefixOf cs || "...".toList.isPrefixOf cs ||
    match cs with
    | [] => false
    | c :: rest =>
        c ∈ "#,[]\x7b\x7d&*!|>'\"%@`".toList ||
          ((c = '?' || c = ':' || c = '-') && separatesNext rest) ||
          hasInnerIndicator c rest

/-- Whether a space stands next to a line end, on the side that `before` says. -/
def hasSpaceAtBreak (before : Bool) : List Char → Bool
  | a :: b :: rest =>
      (if before then a = ' ' && breaksLine b else breaksLine a && b = ' ') ||
        hasSpaceAtBreak before (b :: rest)
  | _ => false

/-- A blank or a line end at either end of a text. -/
def isOpenEnded (cs : List Char) : Bool :=
  let outer (c? : Option Char) : Bool := c?.any fun c => c = ' ' || breaksLine c
  outer cs.head? || outer cs.getLast?

/-- Whether a text is written plain. -/
def isPlain (cs : List Char) : Bool :=
  kindOf cs = .text && !hasIndicator cs && !isOpenEnded cs && !cs.any breaksLine &&
    !cs.any isSpecial

/-- Whether single quotes can hold a text. -/
def fitsSingle (cs : List Char) : Bool :=
  !cs.any isSpecial && !hasSpaceAtBreak true cs && !hasSpaceAtBreak false cs &&
    !cs.contains '\'' && !cs.contains '\n'

/-! ## Lines -/

/-- The number of columns of a line. -/
def maxColumns : Nat := 4096

/-- Where a scalar is written. -/
structure Spot where
  /-- The column of its first character. -/
  column : Nat
  /-- The column in which its further lines start; a document that is one scalar has
  none. -/
  indent? : Option Nat
  /-- Whether it may go on over several lines; a key may not. -/
  multiline : Bool

namespace Spot

/-- The whole document. -/
def document : Spot := ⟨0, none, true⟩

/-- The column in which further lines start. -/
def indent (spot : Spot) : Nat := spot.indent?.getD 0

/-- The spaces in front of a further line. -/
def margin (spot : Spot) : List Char := List.replicate spot.indent ' '

/-- A line break, and the spaces behind it. -/
def lineBreak (spot : Spot) : List Char := '\n' :: spot.margin

end Spot

/-! ## Plain scalars -/

/-- A plain scalar from a column on, cut into words and the spaces between them.  A
word that does not fit starts a line, and so does what follows a single space at the
end of a line. -/
def plainFrom (spot : Spot) : Nat → List (List Char) → List Char
  | _, [] => []
  | column, piece :: rest =>
      if piece.head? = some ' ' then
        if piece.length = 1 && maxColumns ≤ column && spot.multiline then
          spot.lineBreak ++ plainFrom spot spot.indent rest
        else piece ++ plainFrom spot (column + piece.length) rest
      else if maxColumns < column + piece.length && spot.indent?.any (· < column) then
        spot.lineBreak ++ piece ++ plainFrom spot (spot.indent + piece.length) rest
      else piece ++ plainFrom spot (column + piece.length) rest

/-- A plain scalar. -/
def plainChars (spot : Spot) (cs : List Char) : List Char :=
  plainFrom spot spot.column (cs.splitBy fun a b => (a = ' ') = (b = ' '))

/-! ## Single quotes -/

/-- The inside of a single-quoted scalar from a column on, behind the character
`before`, if there is one.  Behind a line end the next line starts at the margin; a
single space between two words gives way to a line break where the line is full. -/
def singleFrom (spot : Spot) (before : Option Char) : Nat → List Char → List Char
  | _, [] => if before.any breaksLine then spot.margin else []
  | column, c :: rest =>
      let broken := before.any breaksLine
      let margin := if broken then spot.margin else []
      let column := if broken then spot.indent else column
      let single := before.any (· ≠ ' ') && !rest.isEmpty && rest.head? ≠ some ' '
      if breaksLine c then c :: singleFrom spot (some c) 0 rest
      else if c = ' ' && single && maxColumns < column && spot.multiline then
        margin ++ spot.lineBreak ++ singleFrom spot (some c) spot.indent rest
      else margin ++ c :: singleFrom spot (some c) (column + 1) rest

/-! ## Double quotes -/

/-- The letter of an escape. -/
def escapeLetter? : Char → Option Char
  | '\x00' => some '0'
  | '\x07' => some 'a'
  | '\x08' => some 'b'
  | '\t' => some 't'
  | '\n' => some 'n'
  | '\x0b' => some 'v'
  | '\x0c' => some 'f'
  | '\r' => some 'r'
  | '\x1b' => some 'e'
  | '"' => some '"'
  | '\\' => some '\\'
  | '\x85' => some 'N'
  | '\u2028' => some 'L'
  | '\u2029' => some 'P'
  | _ => none

/-- Whether a character stands for itself between double quotes. -/
def isRaw (c : Char) : Bool :=
  (' ' ≤ c && c ≤ '~' && c ≠ '"' && c ≠ '\\') ||
    ((('\u00A0' ≤ c && c ≤ '\uFFFD') || 0x10000 ≤ c.toNat) &&
      c ≠ '\u2028' && c ≠ '\u2029' && c ≠ '\uFEFF')

/-- A number in capital hexadecimal digits. -/
def capitals (width n : Nat) : List Char := (Text.hexadecimal width n).toList.map Char.toUpper

/-- One character between double quotes. -/
def doubleChar (c : Char) : List Char :=
  match escapeLetter? c with
  | some letter => ['\\', letter]
  | none =>
      if isRaw c then [c]
      else if c.toNat < 0x100 then '\\' :: 'x' :: capitals 2 c.toNat
      else if c.toNat < 0x10000 then '\\' :: 'u' :: capitals 4 c.toNat
      else '\\' :: 'U' :: capitals 8 c.toNat

/-- The inside of a double-quoted scalar from a column on.  A line may end at a space,
or behind an escape (`fresh`), but neither at the start (`first`) nor at the end.  A
single space gives way to the line break; otherwise a backslash stands in front of
the break and of a space behind it. -/
def doubleFrom (spot : Spot) : Bool → Bool → Nat → List Char → List Char
  | _, _, _, [] => []
  | fresh, first, column, c :: rest =>
      let mayBreak := spot.multiline && !first && !rest.isEmpty
      if !isRaw c then
        let shown := doubleChar c
        let column := column + shown.length
        if mayBreak && maxColumns + 1 < column then
          let guard := if rest.head? = some ' ' then ['\\'] else []
          shown ++ '\\' :: spot.lineBreak ++ guard ++
            doubleFrom spot true false (spot.indent + guard.length) rest
        else shown ++ doubleFrom spot true false column rest
      else if mayBreak && (c = ' ' || fresh) && maxColumns < column then
        if c = ' ' && rest.head? ≠ some ' ' then
          spot.lineBreak ++ doubleFrom spot true false spot.indent rest
        else
          let guard := if c = ' ' then ['\\'] else []
          '\\' :: spot.lineBreak ++ guard ++
            c :: doubleFrom spot false false (spot.indent + guard.length + 1) rest
      else c :: doubleFrom spot false false (column + 1) rest

/-! ## Scalars -/

/-- A text. -/
def textChars (spot : Spot) (s : String) : List Char :=
  let cs := s.toList
  if isPlain cs then plainChars spot cs
  else if fitsSingle cs && (spot.multiline || !cs.any breaksLine) then
    '\'' :: singleFrom spot none (spot.column + 1) cs ++ ['\'']
  else '"' :: doubleFrom spot true true (spot.column + 1) cs ++ ['"']

/-- How YAML spells floating point numbers outside the reals. -/
def floatSpelling : Decimal.Spelling := ⟨".inf", "-.inf", ".nan"⟩

/-- The spelling of a scalar; a text is spelled as it is. -/
def spelling : Scalar → String
  | .null => "null"
  | .bool true => "true"
  | .bool false => "false"
  | .int i => toString i
  | .float x => Decimal.floatText floatSpelling x
  | .text s => s
  | .foreign value => value.text

/-- A scalar. -/
def scalarText (spot : Spot) (s : Scalar) : String :=
  String.ofList <|
    match s with
    | .text s => textChars spot s
    | s => plainChars spot (spelling s).toList

/-! ## Collections -/

/-- The length of the tag that counts towards the length of a key. -/
def tagLength : Scalar → Nat
  | .text _ | .int _ => 5
  | .bool _ | .null => 6
  | .float _ => 7
  | .foreign _ => 11

/-- Whether a key can stand in front of a colon as it is. -/
def isSimpleKey (key : Scalar) : Bool :=
  (spelling key).length + tagLength key < 128 && !(spelling key).toList.any breaksLine

/-- The break between two lines of a collection. -/
def newLine (indent : Nat) : String := "\n" ++ String.ofList (List.replicate indent ' ')

variable {τ : Type}

mutual
/-- A node that starts at column `indent` of the current line. -/
def inlineText (indent : Nat) : Tree τ → String
  | .scalar _ s => scalarText ⟨indent, some indent, true⟩ s
  | .list _ [] => "[]"
  | .list _ items => (newLine indent).intercalate (itemTexts indent items)
  | .map _ ⟨[]⟩ => "\x7b\x7d"
  | .map _ ⟨entries⟩ => (newLine indent).intercalate (entryTexts indent entries)

/-- The value of a simple key in a mapping at column `indent`, from behind the colon
at `column` on. -/
def valueText (indent column : Nat) : Tree τ → String
  | .scalar _ s => " " ++ scalarText ⟨column + 2, some (indent + 2), true⟩ s
  | .list _ [] => " []"
  | .list _ items =>
      newLine indent ++ (newLine indent).intercalate (itemTexts indent items)
  | .map _ ⟨[]⟩ => " \x7b\x7d"
  | .map _ ⟨entries⟩ =>
      newLine (indent + 2) ++ (newLine (indent + 2)).intercalate (entryTexts (indent + 2) entries)

/-- The items of a sequence whose dashes stand at column `indent`. -/
def itemTexts (indent : Nat) : List (Tree τ) → List String
  | [] => []
  | item :: rest => ("- " ++ inlineText (indent + 2) item) :: itemTexts indent rest

/-- The entries of a mapping whose keys stand at column `indent`. -/
def entryTexts (indent : Nat) : List (Scalar × Tree τ) → List String
  | [] => []
  | (key, value) :: rest =>
      (if isSimpleKey key then
        let shown := scalarText ⟨indent, some (indent + 2), false⟩ key
        shown ++ ":" ++ valueText indent (indent + shown.length) value
      else
        "? " ++ scalarText ⟨indent + 2, some (indent + 2), true⟩ key ++ newLine indent ++ ": " ++
          inlineText (indent + 2) value) :: entryTexts indent rest
end

/-- Whether a document that is one scalar is followed by an end mark: it is, if it
has no quotes. -/
def needsEndMark : Scalar → Bool
  | .text s => isPlain s.toList
  | _ => true

/-- The text of a document. -/
def text (document : Tree τ) : String :=
  match document with
  | .scalar _ s => scalarText .document s ++ (if needsEndMark s then "\n...\n" else "\n")
  | document => inlineText 0 document ++ "\n"

end ProtoShape.Yaml
