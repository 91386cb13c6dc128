import ProtoShape.Decimal.Exact
import ProtoShape.Tree

/-!
# Reading JSON

`read` accepts the JSON grammar with the three literals `NaN`, `Infinity` and
`-Infinity` added.  A literal without point and exponent is an integer of any
size.  Of two members with one key, the last value wins in the place of the
first.

A refusal names the problem and the place where it was found.  The functions
work on the characters that are left, so a place is known by how many are left
there.  An integer with more than `Decimal.maxDigits` digits is refused in another
way: it is JSON, but it is not read.

`fuel` bounds the depth of calls.  A list or a mapping takes two calls, one for
itself and one for its first item or member, and each further item or member comes
behind a comma.  So two calls for each character are always enough.
-/

namespace ProtoShape.Json

/-- What is wrong with a JSON text. -/
inductive Problem where
  | byteOrderMark
  | expectingValue
  | expectingName
  | expectingColon
  | expectingComma
  | extraData
  | unterminatedString
  | controlCharacter
  | badEscape
  | badUnicodeEscape
deriving DecidableEq, Repr

/-- The wording of a problem. -/
def Problem.message : Problem → String
  | byteOrderMark => "Unexpected UTF-8 BOM (decode using utf-8-sig)"
  | expectingValue => "Expecting value"
  | expectingName => "Expecting property name enclosed in double quotes"
  | expectingColon => "Expecting ':' delimiter"
  | expectingComma => "Expecting ',' delimiter"
  | extraData => "Extra data"
  | unterminatedString => "Unterminated string starting at"
  | controlCharacter => "Invalid control character at"
  | badEscape => "Invalid \\escape"
  | badUnicodeEscape => "Invalid \\uXXXX escape"

/-- Why a text is not read. -/
inductive Failure where
  /-- A problem and the number of characters from its place to the end. -/
  | refused (problem : Problem) (left : Nat)
  | tooManyDigits (count : Nat)
deriving DecidableEq, Repr

/-- Fails at the first of the characters that are left. -/
def failAt {α : Type} (problem : Problem) (rest : List Char) : Except Failure α :=
  .error (.refused problem rest.length)

/-- The four characters that may stand between tokens. -/
def isSpace (c : Char) : Bool := c = ' ' || c = '\t' || c = '\n' || c = '\r'

/-- Skips the space in front of a token. -/
def skipSpace (cs : List Char) : List Char := cs.dropWhile isSpace

/-- The value of a hexadecimal digit. -/
def hexValue? (c : Char) : Option Nat :=
  if c.isDigit then some (c.toNat - 48)
  else if 'a' ≤ c && c ≤ 'f' then some (c.toNat - 87)
  else if 'A' ≤ c && c ≤ 'F' then some (c.toNat - 55)
  else none

/-- The UTF-16 unit written by four hexadecimal digits; at least one more
character has to follow, as the string has not ended yet. -/
def unit? : List Char → Option (Nat × List Char)
  | a :: b :: c :: d :: rest =>
      if rest.isEmpty then none
      else do
        let a ← hexValue? a
        let b ← hexValue? b
        let c ← hexValue? c
        let d ← hexValue? d
        return (((a * 16 + b) * 16 + c) * 16 + d, rest)
  | _ => none

/-- The character that follows a backslash, for the escapes of one letter. -/
def simpleEscape? : Char → Option Char
  | '"' => some '"'
  | '\\' => some '\\'
  | '/' => some '/'
  | 'b' => some '\x08'
  | 'f' => some '\x0c'
  | 'n' => some '\n'
  | 'r' => some '\r'
  | 't' => some '\t'
  | _ => none

/-- A unit that opens a surrogate pair. -/
def isHighSurrogate (unit : Nat) : Bool := 0xD800 ≤ unit && unit < 0xDC00

/-- A unit that closes a surrogate pair. -/
def isLowSurrogate (unit : Nat) : Bool := 0xDC00 ≤ unit && unit < 0xE000

/-- The character of a unit; a lone surrogate has none and reads as U+FFFD. -/
def unitChar (unit : Nat) : Char :=
  if isHighSurrogate unit || isLowSurrogate unit then '\uFFFD' else Char.ofNat unit

/-- The character escaped by `\u`, where `cs` starts behind the letter.  A high
surrogate joins with an escaped low surrogate that follows. -/
def unicodeChar (cs : List Char) : Except Failure (Char × List Char) :=
  match unit? cs with
  | none => .error (.refused .badUnicodeEscape (cs.length + 1))
  | some (high, rest) =>
      match rest with
      | '\\' :: 'u' :: more =>
          if isHighSurrogate high && 4 < more.length then
            match unit? more with
            | none => .error (.refused .badUnicodeEscape (more.length + 1))
            | some (low, final) =>
                if isLowSurrogate low then
                  .ok (Char.ofNat (0x10000 + (high - 0xD800) * 0x400 + (low - 0xDC00)), final)
                else .ok (unitChar high, rest)
          else .ok (unitChar high, rest)
      | _ => .ok (unitChar high, rest)

/-- The characters of a string up to its closing quote.  `start` is the number
of characters from the opening quote to the end. -/
def stringChars (start : Nat) : Nat → List Char → Except Failure (List Char × List Char)
  | 0, _ => .error (.refused .unterminatedString start)
  | _ + 1, [] => .error (.refused .unterminatedString start)
  | fuel + 1, c :: rest =>
      if c = '"' then .ok ([], rest)
      else if c = '\\' then
        match rest with
        | [] => .error (.refused .unterminatedString start)
        | 'u' :: more => do
            let (char, more) ← unicodeChar more
            let (chars, final) ← stringChars start fuel more
            return (char :: chars, final)
        | e :: more =>
            match simpleEscape? e with
            | none => failAt .badEscape (c :: rest)
            | some char => do
                let (chars, final) ← stringChars start fuel more
                return (char :: chars, final)
      else if c.toNat < 0x20 then failAt .controlCharacter (c :: rest)
      else do
        let (chars, final) ← stringChars start fuel rest
        return (c :: chars, final)

/-- The string whose opening quote has just been read. -/
def string (cs : List Char) : Except Failure (String × List Char) := do
  let (chars, rest) ← stringChars (cs.length + 1) (cs.length + 1) cs
  return (String.ofList chars, rest)

/-- The number written by digits. -/
def digitsValue (digits : List Char) : Nat :=
  digits.foldl (fun n c => 10 * n + (c.toNat - 48)) 0

/-- The leading digits and what follows them. -/
def spanDigits (cs : List Char) : List Char × List Char :=
  (cs.takeWhile Char.isDigit, cs.dropWhile Char.isDigit)

/-- The digits behind a point; the point stays where no digit follows it. -/
def fractionPart : List Char → List Char × List Char
  | '.' :: rest =>
      let (digits, final) := spanDigits rest
      if digits.isEmpty then ([], '.' :: rest) else (digits, final)
  | cs => ([], cs)

/-- The digits of an exponent with its sign, where there are digits. -/
def exponentDigits (negative : Bool) (cs : List Char) : Option (Int × List Char) :=
  let (digits, rest) := spanDigits cs
  if digits.isEmpty then none
  else some ((if negative then -(digitsValue digits : Int) else digitsValue digits), rest)

/-- The exponent in front, where there is one. -/
def exponentPart? : List Char → Option (Int × List Char)
  | e :: rest =>
      if e = 'e' || e = 'E' then
        match rest with
        | '+' :: more => exponentDigits false more
        | '-' :: more => exponentDigits true more
        | _ => exponentDigits false rest
      else none
  | [] => none

/-- The whole part of a number: a zero alone, or digits that start with none. -/
def wholePart? : List Char → Option (List Char × List Char)
  | '0' :: rest => some (['0'], rest)
  | cs =>
      let (digits, rest) := spanDigits cs
      if digits.isEmpty then none else some (digits, rest)

/-- The number whose sign has been read. -/
def unsigned? (negative : Bool) (cs : List Char) : Option (Scalar × List Char) := do
  let (whole, rest) ← wholePart? cs
  let (fraction, rest) := fractionPart rest
  let digits := digitsValue (whole ++ fraction)
  match exponentPart? rest with
  | some (exponent, rest) =>
      return (.float (Decimal.nearest negative digits (exponent - (fraction.length : Int))), rest)
  | none =>
      if fraction.isEmpty then
        return (.int (if negative then -(digits : Int) else digits), rest)
      else return (.float (Decimal.nearest negative digits (-(fraction.length : Int))), rest)

/-- The words that stand for a value. -/
def words : List (List Char × Scalar) := [
  ("null".toList, .null), ("true".toList, .bool true), ("false".toList, .bool false),
  ("NaN".toList, .float (0.0 / 0.0)), ("Infinity".toList, .float (1.0 / 0.0)),
  ("-Infinity".toList, .float (-1.0 / 0.0))]

/-- What follows `word`, where the text starts with it. -/
def afterWord? : List Char → List Char → Option (List Char)
  | [], cs => some cs
  | w :: word, c :: cs => if w = c then afterWord? word cs else none
  | _ :: _, [] => none

/-- The number of digits in front, behind a sign. -/
def leadingDigits (cs : List Char) : Nat :=
  let unsigned := match cs with
    | '-' :: rest => rest
    | _ => cs
  (unsigned.takeWhile Char.isDigit).length

/-- The word or number in front. -/
def wordOrNumber (cs : List Char) : Except Failure (Scalar × List Char) :=
  let word? := words.findSome? fun (word, value) => (afterWord? word cs).map ((value, ·))
  let number? := match cs with
    | '-' :: rest => unsigned? true rest
    | _ => unsigned? false cs
  let found : Option (Scalar × List Char) := word?.or number?
  match found with
  | some (.int i, rest) =>
      if Decimal.maxDigits < leadingDigits cs then .error (.tooManyDigits (leadingDigits cs))
      else .ok (.int i, rest)
  | some result => .ok result
  | none => failAt .expectingValue cs

mutual
/-- The value that starts at the first character. -/
def value : Nat → List Char → Except Failure (Value × List Char)
  | 0, cs => failAt .expectingValue cs
  | fuel + 1, cs =>
      match cs with
      | '"' :: rest => do
          let (s, rest) ← string rest
          return (.scalar () (.text s), rest)
      | '[' :: rest =>
          match skipSpace rest with
          | ']' :: final => .ok (.list () [], final)
          | items => do
              let (items, final) ← itemsFrom fuel items
              return (.list () items, final)
      | '\x7b' :: rest =>
          match skipSpace rest with
          | '\x7d' :: final => .ok (.map () ∅, final)
          | members => do
              let (entries, final) ← membersFrom fuel ∅ members
              return (.map () entries, final)
      | _ => do
          let (s, rest) ← wordOrNumber cs
          return (.scalar () s, rest)

/-- The items of a list up to its closing bracket. -/
def itemsFrom : Nat → List Char → Except Failure (List Value × List Char)
  | 0, cs => failAt .expectingValue cs
  | fuel + 1, cs => do
      let (item, rest) ← value fuel cs
      match skipSpace rest with
      | ']' :: final => return ([item], final)
      | ',' :: more =>
          let (items, final) ← itemsFrom fuel (skipSpace more)
          return (item :: items, final)
      | rest => failAt .expectingComma rest

/-- The members of a mapping up to its closing bracket, added to those before. -/
def membersFrom : Nat → Fields Unit → List Char → Except Failure (Fields Unit × List Char)
  | 0, _, cs => failAt .expectingName cs
  | fuel + 1, before, cs => do
      match cs with
      | '"' :: rest =>
          let (key, rest) ← string rest
          match skipSpace rest with
          | ':' :: rest =>
              let (item, rest) ← value fuel (skipSpace rest)
              let entries := before.insert (.text key) item
              match skipSpace rest with
              | '\x7d' :: final => return (entries, final)
              | ',' :: more => membersFrom fuel entries (skipSpace more)
              | rest => failAt .expectingComma rest
          | rest => failAt .expectingColon rest
      | _ => failAt .expectingName cs
end

/-- The value of a whole text. -/
def readChars (cs : List Char) : Except Failure Value :=
  if cs.head? = some '\uFEFF' then failAt .byteOrderMark cs
  else do
    let (v, rest) ← value (2 * cs.length + 2) (skipSpace cs)
    match skipSpace rest with
    | [] => return v
    | rest => failAt .extraData rest

/-- The wording of a problem, with the line, the column and the offset of its place;
lines and columns count from one. -/
def Problem.describe (problem : Problem) (left : Nat) (cs : List Char) : String :=
  let before := cs.take (cs.length - left)
  let line := before.count '\n' + 1
  let column := (before.reverse.takeWhile (· ≠ '\n')).length + 1
  s!"{problem.message}: line {line} column {column} (char {before.length})"

/-- Why a text has no value. -/
inductive Refusal where
  | invalid (reason : String)
  | tooManyDigits (count : Nat)
deriving DecidableEq, Repr

/-- The value of a JSON text. -/
def read (s : String) : Except Refusal Value :=
  match readChars s.toList with
  | .ok v => .ok v
  | .error (.refused problem left) => .error (.invalid (problem.describe left s.toList))
  | .error (.tooManyDigits count) => .error (.tooManyDigits count)

end ProtoShape.Json
