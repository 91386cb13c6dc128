import ProtoShape.Decimal.Exact
import ProtoShape.Decimal.Text
import ProtoShape.Event
import ProtoShape.Report.Item

/-!
# Durations and sizes for people

A duration below a second is shown in whole milliseconds, a longer one in
seconds with two places, and from ten seconds on with one.  A size is shown in
bytes, kilobytes or megabytes, in steps of 1024.  A whole number that no floating
point number comes near cannot be shown.
-/

namespace ProtoShape

/-- The nearest floating point number to `n · 10 ^ exponent`, if it is finite. -/
def Amount.scaled? (n : Int) (exponent : Int) : Option Float :=
  let x := Decimal.nearest (n < 0) n.natAbs exponent
  if x.isFinite then some x else none

namespace Report

/-- The amount as a floating point number. -/
def toFloat : Amount → Except Trouble Float
  | .whole n =>
      match Amount.scaled? n 0 with
      | some x => .ok x
      | none => .error .tooLarge
  | .real x => .ok x

/-- A thousandth of the amount. -/
def thousandth : Amount → Except Trouble Float
  | .whole n =>
      match Amount.scaled? n (-3) with
      | some x => .ok x
      | none => .error .quotientTooLarge
  | .real x => .ok (x / 1000.0)

/-- The text of a duration in milliseconds. -/
def durationText (elapsed : Amount) : Except Trouble String := do
  if elapsed.isBelow 1000 then
    return Decimal.fixedText 0 (← toFloat elapsed) ++ "ms"
  else
    let seconds ← thousandth elapsed
    return Decimal.fixedText (if seconds < 10.0 then 2 else 1) seconds ++ "s"

/-- The text of a size in bytes. -/
def sizeText (bytes : Amount) : Except Trouble String := do
  let size ← toFloat bytes
  if size < 1024.0 then return Decimal.fixedText 0 size ++ " B"
  else if size / 1024.0 < 1024.0 then return Decimal.fixedText 1 (size / 1024.0) ++ " KB"
  else return Decimal.fixedText 1 (size / 1024.0 / 1024.0) ++ " MB"

end Report

end ProtoShape
