/-!
# The exact value of a binary floating point number

Every finite double is `significand · 2 ^ exponent` for integers, so its decimal
texts can be computed in exact arithmetic.  `Exact.ofFloat?` decodes the bits;
`Exact.numerator` and `Exact.denominator` give the value as a fraction.

Whole numbers of any size are read exactly, as long as they have no more than
`maxDigits` digits.  A decimal `digits · 10 ^ exponent` reads as the nearest
double.  Exponents far outside the range of doubles are settled without computing
the power.
-/

namespace ProtoShape.Decimal

/-- The magnitude `significand · 2 ^ exponent`.  `lowestOfBinade` marks the
doubles whose lower neighbour is only half as far away as the upper one. -/
structure Exact where
  significand : Nat
  exponent : Int
  lowestOfBinade : Bool
deriving DecidableEq, Repr

namespace Exact

/-- Whether the sign bit is set, also for `-0.0`. -/
def isNegative (x : Float) : Bool := x.toBits >>> 63 == 1

/-- The magnitude of a finite double; nothing for infinities and NaN. -/
def ofFloat? (x : Float) : Option Exact :=
  let bits := x.toBits.toNat % Nat.pow 2 63
  let field : Nat := bits / Nat.pow 2 52
  let fraction : Nat := bits % Nat.pow 2 52
  if field = 2047 then none
  else if field = 0 then some ⟨fraction, -1074, false⟩
  else some ⟨fraction + Nat.pow 2 52, (field : Int) - 1075, fraction = 0 && field != 1⟩

/-- The numerator of the value as a fraction. -/
def numerator (v : Exact) : Nat := v.significand * Nat.pow 2 v.exponent.toNat

/-- The denominator of the value as a fraction. -/
def denominator (v : Exact) : Nat := Nat.pow 2 (-v.exponent).toNat

/-- The magnitude, where it has no fraction. -/
def whole? (v : Exact) : Option Nat :=
  if v.numerator % v.denominator = 0 then some (v.numerator / v.denominator) else none

end Exact

/-- `n / d` rounded to the nearest natural number, a half to the even one. -/
def roundHalfEven (n d : Nat) : Nat :=
  let q := n / d
  let r := n % d
  if 2 * r < d then q
  else if d < 2 * r then q + 1
  else q + q % 2

example : roundHalfEven 5 2 = 2 ∧ roundHalfEven 7 2 = 4 ∧ roundHalfEven 8 3 = 3 := by decide

/-! ## Reading a decimal -/

/-- The greatest number of decimal digits that a whole number is read from or
written with. -/
def maxDigits : Nat := 4300

/-- What is said about a whole number with more digits, with a remark in the middle. -/
def limitMessage (remark : String) : String :=
  s!"Exceeds the limit ({maxDigits} digits) for integer string conversion{remark}; " ++
    "use sys.set_int_max_str_digits() to increase the limit"

/-- The nearest double to `± digits · 10 ^ exponent`.  A decimal with `n`
digits lies below `10 ^ (n + exponent)`, and no positive double reaches `10 ^ 309`
or is below `10 ^ -324`. -/
def nearest (negative : Bool) (digits : Nat) (exponent : Int) : Float :=
  let size := (Nat.toDigits 10 digits).length + exponent
  let magnitude : Float :=
    if digits = 0 || size < -330 then 0.0
    else if 320 < size then 1.0 / 0.0
    else if exponent < 0 then Float.ofScientific digits true exponent.natAbs
    else Float.ofScientific digits false exponent.natAbs
  if negative then -magnitude else magnitude

end ProtoShape.Decimal
