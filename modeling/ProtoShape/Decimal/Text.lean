import ProtoShape.Decimal.Exact

/-!
# Texts of doubles

A double stands for an interval of real numbers, those that round to it.  Its
shortest decimal has the fewest digits of any decimal in that interval; among
those it is the nearest to the double.  `shortest` tries one digit, two digits
and so on: on the grid of decimals with that many digits only the two
neighbours of the value have to be looked at.  Seventeen digits always
suffice.

For a text with a fixed number of places, the exact binary value is rounded to the
grid of the last place; a half goes to the even neighbour.
-/

namespace ProtoShape.Decimal

/-- The numeral `digits · 10 ^ exponent`. -/
structure Numeral where
  digits : Nat
  exponent : Int
deriving DecidableEq, Repr

/-- The number of decimal digits of a natural number; `0` has one. -/
def digitCount (n : Nat) : Nat := (Nat.toDigits 10 n).length

/-- The largest `k` with `10 ^ k ≤ n / d`, for positive `n` and `d`. -/
def magnitude (n d : Nat) : Int :=
  if d ≤ n then (digitCount (n / d) : Int) - 1 else -(digitCount ((d - 1) / n) : Int)

/-- The neighbour of `v` on the grid of multiples of `10 ^ exponent` that
rounds to `v`, the nearer one where both do.  All comparisons are made after
multiplying with the denominators, and with 4 so that the ends of the interval
are whole. -/
def onGrid? (v : Exact) (exponent : Int) : Option Numeral :=
  let scale := Nat.pow 2 v.exponent.toNat * Nat.pow 10 (-exponent).toNat
  let step := 4 * v.denominator * Nat.pow 10 exponent.toNat
  let value := 4 * v.significand * scale
  let below := (4 * v.significand - if v.lowestOfBinade then 1 else 2) * scale
  let above := (4 * v.significand + 2) * scale
  let closed := v.significand % 2 = 0
  let holds (digits : Nat) : Bool :=
    let point := digits * step
    if closed then below ≤ point && point ≤ above else below < point && point < above
  let down := value / step
  let downFits := holds down
  let upFits := holds (down + 1)
  if downFits && upFits then some ⟨roundHalfEven value step, exponent⟩
  else if downFits then some ⟨down, exponent⟩
  else if upFits then some ⟨down + 1, exponent⟩
  else none

/-- The decimal with the fewest digits that rounds to `v`. -/
def shortest (v : Exact) : Numeral :=
  if v.significand = 0 then ⟨0, 0⟩ else
  let top := magnitude v.numerator v.denominator
  ((List.range 17).findSome? fun (n : Nat) => onGrid? v (top - (n : Int))).getD ⟨0, 0⟩

/-- The digits of a decimal without trailing zeros, and the place of the
point counted from their left end. -/
def Numeral.digitsAndPoint (d : Numeral) : List Char × Int :=
  let all := Nat.toDigits 10 d.digits
  let kept := (all.reverse.dropWhile (· = '0')).reverse
  (if kept.isEmpty then ['0'] else kept, all.length + d.exponent)

/-- How infinities and NaN are spelled. -/
structure Spelling where
  infinity : String
  negativeInfinity : String
  notANumber : String

/-- The text of digits with the point at `point`.  It is positional as long as
the exponent of the first digit is at least -4 and below 16, and then shows at
least one digit on either side of the point; else it has an exponent with a
sign and at least two digits. -/
def placePoint (digits : List Char) (point : Int) : String :=
  let exponent := point - 1
  if -4 ≤ exponent && exponent < 16 then
    if point ≤ 0 then
      "0." ++ String.ofList (List.replicate (-point).toNat '0' ++ digits)
    else
      let whole := digits.take point.toNat
      let fraction := digits.drop point.toNat
      String.ofList (whole ++ List.replicate (point.toNat - digits.length) '0') ++ "." ++
        (if fraction.isEmpty then "0" else String.ofList fraction)
  else
    let power := toString exponent.natAbs
    String.ofList (digits.take 1) ++
      (if digits.length ≤ 1 then "" else "." ++ String.ofList (digits.drop 1)) ++
      (if exponent < 0 then "e-" else "e+") ++
      (if power.length < 2 then "0" ++ power else power)

/-- The shortest text of a double. -/
def floatText (spelling : Spelling) (x : Float) : String :=
  match Exact.ofFloat? x with
  | none =>
      if x.isNaN then spelling.notANumber
      else if Exact.isNegative x then spelling.negativeInfinity
      else spelling.infinity
  | some v =>
      let (digits, point) := (shortest v).digitsAndPoint
      (if Exact.isNegative x then "-" else "") ++
        (if v.significand = 0 then "0.0" else placePoint digits point)

/-! ## A fixed number of places -/

/-- The double with `places` digits after the point, and no point when there
are none. -/
def fixedText (places : Nat) (x : Float) : String :=
  let sign := if Exact.isNegative x then "-" else ""
  match Exact.ofFloat? x with
  | none => if x.isNaN then "nan" else sign ++ "inf"
  | some v =>
      let units := roundHalfEven (v.numerator * Nat.pow 10 places) v.denominator
      let digits := Nat.toDigits 10 units
      let filled := List.replicate (places + 1 - digits.length) '0' ++ digits
      let cut := filled.length - places
      sign ++ String.ofList (filled.take cut) ++
        (if places = 0 then "" else "." ++ String.ofList (filled.drop cut))

end ProtoShape.Decimal
