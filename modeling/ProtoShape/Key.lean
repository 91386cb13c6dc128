import ProtoShape.Scalar

/-!
# What keys count as

Two keys of a mapping are one key if they count as the same.  A text counts as
itself.  Numbers count by their value, so `1` and `1.0` are one key, and a
boolean counts as the number zero or one.
-/

namespace ProtoShape

/-- What a scalar counts as when it is a key. -/
inductive Key where
  | null
  | text (s : String)
  /-- A number without a fraction. -/
  | whole (i : Int)
  /-- A number with a fraction, or an infinity, by its bits. -/
  | real (bits : UInt64)
  | notANumber
  | foreign (value : Foreign)
deriving DecidableEq, Repr

/-- What a floating point number counts as. -/
def Key.ofFloat (x : Float) : Key :=
  match Decimal.Exact.ofFloat? x with
  | none => if x.isNaN then notANumber else real x.toBits
  | some v =>
      match v.whole? with
      | some n => whole (if Decimal.Exact.isNegative x then -(n : Int) else n)
      | none => real x.toBits

/-- What a scalar counts as when it is a key. -/
def Scalar.key : Scalar → Key
  | null => .null
  | bool b => .whole (if b then 1 else 0)
  | int i => .whole i
  | float x => .ofFloat x
  | text s => .text s
  | foreign value => .foreign value

@[simp] theorem Scalar.key_text (s : String) : (text s).key = .text s := rfl

/-- Only a text counts as a text. -/
theorem Scalar.key_eq_text_iff {k : Scalar} {s : String} : k.key = .text s ↔ k = .text s := by
  cases k with
  | float x =>
      simp only [key, Key.ofFloat, reduceCtorEq, iff_false]
      split
      · split <;> simp
      · split <;> simp
  | _ => simp [key]

end ProtoShape
