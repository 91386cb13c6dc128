import ProtoShape.Yaml.Plain
import ProtoShape.Yaml.Source

/-!
# Scalars over several lines

A scalar goes on over line ends.  What stands between two of its words is a `Gap`:
blanks on one line stay as they are, and of line ends a single one becomes a space
and of several the first vanishes.  An escaped line end vanishes as well.

`words` reads a plain scalar and `quoted?` one between quotes; both stop behind the
scalar.
-/

namespace ProtoShape.Yaml

/-- What stands between two words of a scalar. -/
inductive Gap where
  /-- Blanks on one line, the last one first. -/
  | blanks (cs : List Char)
  /-- A line end, which is none if it is escaped, and the line ends behind it, the
  last one first. -/
  | lines (first : Option Char) (more : List Char)
deriving DecidableEq, Repr

namespace Gap

/-- Two characters of one word. -/
def none : Gap := blanks []

/-- Whether a line ends in the gap. -/
def isBroken : Gap → Bool
  | blanks _ => false
  | lines _ _ => true

/-- The gap with one more blank; blanks at the start of a line do not count. -/
def blank (c : Char) : Gap → Gap
  | blanks cs => blanks (c :: cs)
  | lines first more => lines first more

/-- The gap with one more line end; blanks at the end of a line do not count. -/
def lineEnd (c : Char) (gap : Gap) : Gap :=
  let shown := if isLineEnd c then '\n' else c
  match gap with
  | blanks _ => lines (some shown) []
  | lines first more => lines first (shown :: more)

/-- Adds the gap to the characters before it.  Both have the last one first. -/
def onto (before : List Char) : Gap → List Char
  | blanks cs => cs ++ before
  | lines (some '\n') [] => ' ' :: before
  | lines (some '\n') more => more ++ before
  | lines (some c) more => more ++ c :: before
  | lines .none more => more ++ before

end Gap

/-! ## Plain scalars -/

/-- A plain scalar as it stands in a text. -/
structure Words where
  chars : List Char
  /-- Whether a line ends behind it. -/
  broken : Bool
  rest : Source

/-- Whether a character inside a flow collection ends a plain scalar. -/
def isFlowIndicator (c : Char) : Bool := c ∈ [',', '[', ']', '\x7b', '\x7d']

/-- Whether no word goes on here. -/
def endsWord (flow : Bool) (c : Char) (rest : Source) : Bool :=
  isEdge c || (c = ':' && Source.startsEdge rest) || (flow && isFlowIndicator c)

/-- Reads the words of a plain scalar, of which `before` has been read, the last
character first.  In a block, a word on a later line starts at `indent` at least. -/
def wordsFrom (flow : Bool) (indent : Nat) (before : List Char) (gap : Gap) : Source → Words
  | [] => ⟨before.reverse, gap.isBroken, []⟩
  | p :: rest =>
      let inside := gap = .none
      if p.char = ' ' then wordsFrom flow indent before (gap.blank ' ') rest
      else if p.char = '\r' && Source.startsWith rest '\n' then
        wordsFrom flow indent before gap rest
      else if isLineEnd p.char || (!inside && isBreak p.char) then
        if Source.startsDocumentMark rest then ⟨before.reverse, true, rest⟩
        else wordsFrom flow indent before (gap.lineEnd p.char) rest
      else if endsWord flow p.char rest ||
          (!inside && (p.char = '#' || (!flow && p.column < indent))) then
        ⟨before.reverse, gap.isBroken, p :: rest⟩
      else wordsFrom flow indent (p.char :: gap.onto before) .none rest

/-- Reads a plain scalar. -/
def words (flow : Bool) (indent : Nat) (source : Source) : Words :=
  wordsFrom flow indent [] .none source

/-- Whether a plain scalar may start with a character. -/
def startsPlain (c : Char) (rest : Source) : Bool :=
  if c = '-' || c = '?' || c = ':' then !Source.startsEdge rest
  else !(isBlank c || isBreak c || c ∈ ",[]\x7b\x7d#&*!|>'\"%@`".toList)

/-! ## Quoted scalars -/

/-- The character for an escape of one letter. -/
def simpleEscape? : Char → Option Char
  | '0' => some '\x00'
  | 'a' => some '\x07'
  | 'b' => some '\x08'
  | 't' | '\t' => some '\t'
  | 'n' => some '\n'
  | 'v' => some '\x0b'
  | 'f' => some '\x0c'
  | 'r' => some '\r'
  | 'e' => some '\x1b'
  | ' ' => some ' '
  | '"' => some '"'
  | '/' => some '/'
  | '\\' => some '\\'
  | 'N' => some '\x85'
  | '_' => some '\u00A0'
  | 'L' => some '\u2028'
  | 'P' => some '\u2029'
  | _ => none

/-- The number of hexadecimal digits behind an escape letter. -/
def escapeWidth? : Char → Option Nat
  | 'x' => some 2
  | 'u' => some 4
  | 'U' => some 8
  | _ => none

/-- The character with this code point. -/
def codePoint? (code : Nat) : Option Char :=
  if code < 0x110000 && !(0xD800 ≤ code && code < 0xE000) then some (Char.ofNat code) else none

/-- The character of an escape with the number of characters behind the backslash,
where `rest` follows the letter. -/
def escaped? (letter : Char) (rest : Source) : Option (Char × Nat) :=
  match simpleEscape? letter with
  | some c => some (c, 1)
  | none => do
      let width ← escapeWidth? letter
      let digits := (rest.take width).map (·.char)
      if digits.length = width && digits.all isHex then
        let c ← codePoint? (← digits? 16 digits)
        return (c, width + 1)
      else none

/-- The number of characters of the line end in front. -/
def lineEndWidth (source : Source) : Nat :=
  if source.startsWith '\r' && Source.startsWith (source.drop 1) '\n' then 2 else 1

/-- Reads a scalar up to its closing quote, of which `before` has been read, the
last character first.  As many characters as the first number says belong to what
has been read. -/
def quotedFrom (double : Bool) : Nat → List Char → Gap → Source → Option (List Char × Source)
  | _, _, _, [] => none
  | taken + 1, before, gap, _ :: rest => quotedFrom double taken before gap rest
  | 0, before, gap, p :: rest =>
      let text := gap.onto before
      if isBlank p.char then quotedFrom double 0 before (gap.blank p.char) rest
      else if p.char = '\r' && Source.startsWith rest '\n' then quotedFrom double 0 before gap rest
      else if isBreak p.char then
        if Source.startsDocumentMark rest then none
        else quotedFrom double 0 before (gap.lineEnd p.char) rest
      else if p.char = (if double then '"' else '\'') then
        if !double && Source.startsWith rest '\'' then quotedFrom double 1 ('\'' :: text) .none rest
        else some (text.reverse, rest)
      else if double && p.char = '\\' then
        match rest with
        | [] => none
        | letter :: more =>
            if isBreak letter.char then
              let width := lineEndWidth rest
              if Source.startsDocumentMark (rest.drop width) then none
              else quotedFrom double width text (.lines .none []) rest
            else
              match escaped? letter.char more with
              | none => none
              | some (c, width) => quotedFrom double width (c :: text) .none rest
      else quotedFrom double 0 (p.char :: text) .none rest

/-- Reads a scalar behind its opening quote. -/
def quoted? (double : Bool) (source : Source) : Option (List Char × Source) :=
  quotedFrom double 0 [] .none source

end ProtoShape.Yaml
