import ProtoShape.Decimal.Exact
import ProtoShape.Scalar

/-!
# What plain scalars mean

A scalar without quotes is null, a boolean, an integer, a floating point number
or a text, by its spelling alone.  `kindOf` recognises the spelling and
`valueOf?` gives the value.  A few spellings are recognised and yet have no
value, such as a sign with underscores only.
-/

namespace ProtoShape.Yaml

/-- What the spelling of a plain scalar says about it. -/
inductive Kind where
  | null
  | bool (b : Bool)
  | int
  | float
  | date
  | special
  | text
deriving DecidableEq, Repr

/-- A digit or an underscore. -/
def isGroup (c : Char) : Bool := c.isDigit || c = '_'

/-- The text without a leading sign. -/
def dropSign : List Char → List Char
  | '+' :: rest | '-' :: rest => rest
  | cs => cs

/-- At least one character, all of one class. -/
def someOf (p : Char → Bool) (cs : List Char) : Bool := !cs.isEmpty && cs.all p

/-- A hexadecimal digit. -/
def isHex (c : Char) : Bool :=
  c.isDigit || ('a' ≤ c && c ≤ 'f') || ('A' ≤ c && c ≤ 'F')

/-- The spelling of an integer behind its sign: binary, octal, hexadecimal or
decimal digits, with underscores. -/
def isUnsignedInt : List Char → Bool
  | '0' :: 'b' :: digits => someOf (fun c => c = '0' || c = '1' || c = '_') digits
  | '0' :: 'o' :: digits => someOf (fun c => ('0' ≤ c && c ≤ '7') || c = '_') digits
  | '0' :: 'x' :: digits => someOf (fun c => isHex c || c = '_') digits
  | digits => someOf isGroup digits

/-- The spelling of an integer; it does not start with an underscore. -/
def isInt (cs : List Char) : Bool := cs.head? ≠ some '_' && isUnsignedInt (dropSign cs)

/-- An exponent, or nothing where it may be absent. -/
def isExponent (optional signed : Bool) : List Char → Bool
  | [] => optional
  | e :: rest =>
      (e = 'e' || e = 'E') &&
        match rest with
        | '+' :: digits | '-' :: digits => someOf Char.isDigit digits
        | digits => !signed && someOf Char.isDigit digits

/-- The spelling of a floating point number behind its sign. -/
def isUnsignedFloat : List Char → Bool
  | '.' :: rest =>
      rest ∈ ["inf".toList, "Inf".toList, "INF".toList] ||
        (someOf isGroup (rest.takeWhile isGroup) &&
          isExponent true true (rest.dropWhile isGroup))
  | c :: rest =>
      c.isDigit &&
        match rest.dropWhile isGroup with
        | '.' :: fraction => isExponent true false (fraction.dropWhile isGroup)
        | others => isExponent false false others
  | [] => false

/-- The spelling of a floating point number. -/
def isFloat (cs : List Char) : Bool :=
  isUnsignedFloat (dropSign cs) || cs ∈ [".nan".toList, ".NaN".toList, ".NAN".toList]

/-- The text behind one digit or two. -/
def afterDigits : List Char → List (List Char)
  | c :: d :: rest =>
      if c.isDigit then (if d.isDigit then [d :: rest, rest] else [d :: rest]) else []
  | [c] => if c.isDigit then [[]] else []
  | [] => []

/-- The text behind exactly two digits. -/
def afterTwo : List Char → List (List Char)
  | c :: d :: rest => if c.isDigit && d.isDigit then [rest] else []
  | _ => []

/-- The text behind one character. -/
def afterChar (c : Char) : List Char → List (List Char)
  | d :: rest => if c = d then [rest] else []
  | [] => []

/-- A blank of a date. -/
def isDateBlank (c : Char) : Bool := c = ' ' || c = '\t'

/-- The text behind the separator of a date and a time. -/
def afterSeparator : List Char → List (List Char)
  | c :: rest =>
      if c = 'T' || c = 't' then [rest]
      else if isDateBlank c then [rest.dropWhile isDateBlank]
      else []
  | [] => []

/-- A time zone, or nothing. -/
def isZone (cs : List Char) : Bool :=
  match cs with
  | [] => true
  | _ =>
      match cs.dropWhile isDateBlank with
      | ['Z'] => true
      | sign :: rest =>
          (sign = '+' || sign = '-') &&
            (afterDigits rest).any fun rest =>
              rest.isEmpty || ((afterChar ':' rest).flatMap afterTwo).any (·.isEmpty)
      | [] => false

/-- The text behind a fraction of a second, where there is one. -/
def afterFraction : List Char → List Char
  | '.' :: rest => rest.dropWhile Char.isDigit
  | cs => cs

/-- The spelling of a date, or of a date with a time. -/
def isDate (cs : List Char) : Bool :=
  let year := (afterTwo cs).flatMap afterTwo
  let short := (((year.flatMap (afterChar '-')).flatMap afterTwo).flatMap
    (afterChar '-')).flatMap afterTwo
  let day := (((year.flatMap (afterChar '-')).flatMap afterDigits).flatMap
    (afterChar '-')).flatMap afterDigits
  let time := ((((((day.flatMap afterSeparator).flatMap afterDigits).flatMap
    (afterChar ':')).flatMap afterTwo).flatMap (afterChar ':')).flatMap afterTwo)
  short.any (·.isEmpty) || time.any fun rest => isZone (afterFraction rest)

/-- What the spelling of a plain scalar says. -/
def kindOf (cs : List Char) : Kind :=
  let s := String.ofList cs
  if ["", "~", "null", "Null", "NULL"].contains s then .null
  else if ["true", "True", "TRUE"].contains s then .bool true
  else if ["false", "False", "FALSE"].contains s then .bool false
  else if isFloat cs then .float
  else if isInt cs then .int
  else if isDate cs then .date
  else if s = "=" || s = "<<" then .special
  else .text

/-- The value of digits to a base; there has to be a digit. -/
def digits? (base : Nat) (cs : List Char) : Option Nat :=
  if cs.isEmpty then none
  else
    some (cs.foldl (fun n c =>
      base * n + (if c.isDigit then c.toNat - 48 else (c.toNat ||| 32) - 87)) 0)

/-- The value of an integer behind its sign and without underscores.  A decimal one
must not have too many digits. -/
def unsignedInt? : List Char → Option Nat
  | '0' :: 'b' :: digits => digits? 2 digits
  | '0' :: 'o' :: digits => digits? 8 digits
  | '0' :: 'x' :: digits => digits? 16 digits
  | digits => if Decimal.maxDigits < digits.length then none else digits? 10 digits

/-- The value of a floating point number behind its sign and without
underscores. -/
def unsignedFloat? (negative : Bool) (cs : List Char) : Option Float :=
  let infinity : Float := 1.0 / 0.0
  match cs with
  | '.' :: 'i' :: _ | '.' :: 'I' :: _ => some (if negative then -infinity else infinity)
  | '.' :: 'n' :: _ | '.' :: 'N' :: _ => some (0.0 / 0.0)
  | _ =>
      let whole := cs.takeWhile Char.isDigit
      let rest := cs.dropWhile Char.isDigit
      let fraction := match rest with
        | '.' :: more => more.takeWhile Char.isDigit
        | _ => []
      let exponent := match rest.dropWhile fun c => c = '.' || c.isDigit with
        | _ :: '-' :: digits => -((digits? 10 digits).getD 0 : Int)
        | _ :: '+' :: digits => ((digits? 10 digits).getD 0 : Int)
        | _ :: digits => ((digits? 10 digits).getD 0 : Int)
        | [] => 0
      (digits? 10 (whole ++ fraction)).map fun digits =>
        Decimal.nearest negative digits (exponent - (fraction.length : Int))

/-- The value of a plain scalar.  Dates are kept as texts. -/
def valueOf? (cs : List Char) : Option Scalar :=
  let negative := cs.head? = some '-'
  let digits := dropSign (cs.filter (· ≠ '_'))
  match kindOf cs with
  | .null => some .null
  | .bool b => some (.bool b)
  | .int => (unsignedInt? digits).map fun n => .int (if negative then -(n : Int) else n)
  | .float => (unsignedFloat? negative digits).map .float
  | .special => none
  | .date | .text => some (.text (String.ofList cs))

example : valueOf? "0x1F".toList = some (.int 31) ∧ valueOf? "010".toList = some (.int 10) ∧
    valueOf? "1.2.3".toList = some (.text "1.2.3") := by decide +kernel

end ProtoShape.Yaml
