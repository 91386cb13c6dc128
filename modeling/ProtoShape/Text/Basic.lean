/-!
# Characters and parts of a text

A class of characters is a list of inclusive code point ranges, written flat
as `[first₁, last₁, first₂, last₂, …]` in increasing order.  `inRanges` decides
membership and `offsetInRanges?` also tells how far into its range a code
point lies.

Blank is the white space that is stripped from both ends of a text: the Unicode
white space characters together with the four information separators U+001C to
U+001F.  The zero width space is not blank.

`contains` looks for a text in another one, and `split` gives the pieces of a
text between separators.
-/

namespace ProtoShape.Text

/-! ## Classes -/

/-- The distance of `code` from the start of the range that holds it.  The
search stops at the first range that starts above `code`, because the ranges
are in increasing order. -/
def offsetInRanges? : List Nat → Nat → Option Nat
  | first :: last :: rest, code =>
      if code < first then none
      else if code ≤ last then some (code - first)
      else offsetInRanges? rest code
  | _, _ => none

/-- Membership in a class of characters. -/
def inRanges (ranges : List Nat) (code : Nat) : Bool :=
  (offsetInRanges? ranges code).isSome

/-! ## Blank characters -/

/-- The ranges of blank characters. -/
def blankRanges : List Nat := [
  0x9, 0xD, 0x1C, 0x20, 0x85, 0x85, 0xA0, 0xA0, 0x1680, 0x1680, 0x2000, 0x200A, 0x2028, 0x2029,
  0x202F, 0x202F, 0x205F, 0x205F, 0x3000, 0x3000]

/-- A blank character. -/
def isBlank (c : Char) : Bool := inRanges blankRanges c.toNat

/-- The text without blank characters at either end. -/
def trim (s : String) : String :=
  let inner := s.toList.dropWhile isBlank
  String.ofList (inner.reverse.dropWhile isBlank).reverse

example : trim "\u00A0 a b\t" = "a b" := by decide +kernel

/-! ## Parts -/

/-- Whether `part` occurs in a text at some place. -/
def occursIn (part : List Char) : List Char → Bool
  | [] => part.isEmpty
  | c :: rest => part.isPrefixOf (c :: rest) || occursIn part rest

/-- Whether `s` contains `part`. -/
def contains (s part : String) : Bool := occursIn part.toList s.toList

example : contains "abcd" "bc" = true ∧ contains "abcd" "ac" = false ∧ contains "" "" = true := by
  decide +kernel

/-- The pieces between separators; there is always at least one. -/
def split (separator : Char) : List Char → List (List Char)
  | [] => [[]]
  | c :: rest =>
      if c = separator then [] :: split separator rest
      else
        match split separator rest with
        | [] => [[c]]
        | first :: others => (c :: first) :: others

example : split '/' "a//b".toList = [['a'], [], ['b']] := by decide +kernel

end ProtoShape.Text
