import Mathlib
import ProtoShape.Json.Reader
import ProtoShape.Json.Writer

/-!
# Tokens of JSON texts

A token that has been written is read back, whatever follows it.  A string ends at its closing
quote.  All that has to be known of its characters is what each of them is written as
(`stringChars_escaped`).  A number has no end of its own, so it has to be known that no part of a
number follows it: in the texts of documents a value is followed by a comma or by the end of its
line (`Closes`).

* `string_text` is about strings, as values and as keys.
* `wordOrNumber_scalar` is about null, booleans and integers.
-/

namespace ProtoShape.Json

/-! ## Strings -/

theorem hexValue?_digitChar : ∀ d < 16, hexValue? (Nat.digitChar d) = some d := by decide

theorem hexadecimal_control : ∀ n < 0x20,
    (Text.hexadecimal 4 n).toList =
      ['0', '0', Nat.digitChar (n / 16), Nat.digitChar (n % 16)] := by decide

/-- The escape of a control character gives the character. -/
theorem unicodeChar_control {c : Char} (hc : c.toNat < 0x20) {rest : List Char}
    (hrest : rest ≠ []) :
    unicodeChar ((Text.hexadecimal 4 c.toNat).toList ++ rest) = .ok (c, rest) := by
  have hunit : unit? ((Text.hexadecimal 4 c.toNat).toList ++ rest) = some (c.toNat, rest) := by
    have hhigh := hexValue?_digitChar (c.toNat / 16) (by omega)
    have hlow := hexValue?_digitChar (c.toNat % 16) (by omega)
    have hzero : hexValue? '0' = some 0 := rfl
    rw [hexadecimal_control _ hc]
    simp only [List.cons_append, List.nil_append, unit?, List.isEmpty_iff, hrest, if_false, hzero,
      hhigh, hlow]
    have hvalue : c.toNat / 16 * 16 + c.toNat % 16 = c.toNat := by omega
    simp [hvalue]
  have hplain : (isHighSurrogate c.toNat || isLowSurrogate c.toNat) = false := by
    simp [isHighSurrogate, isLowSurrogate]
    omega
  have hchar : unitChar c.toNat = c := by
    rw [unitChar, hplain]
    exact Char.ofNat_toNat c
  have hhigh : isHighSurrogate c.toNat = false := (Bool.or_eq_false_iff.1 hplain).1
  unfold unicodeChar
  rw [hunit]
  simp only [hhigh, hchar, Bool.false_and]
  split <;> rfl

theorem toList_unicodeEscape {c : Char} (hc : c.toNat < 0x20) :
    (unicodeEscape c).toList = '\\' :: 'u' :: (Text.hexadecimal 4 c.toNat).toList := by
  have hsmall : c.toNat < 0x10000 := by omega
  rw [unicodeEscape, if_pos hsmall, unitEscape, String.toList_append]
  rfl

/-- What a character is written as is read as that character. -/
theorem stringChars_escapedChar (start fuel : Nat) (c : Char) {more : List Char}
    (hmore : more ≠ []) :
    stringChars start (fuel + 1) ((escapedChar false c).toList ++ more) =
      (stringChars start fuel more).map fun read => (c :: read.1, read.2) := by
  unfold escapedChar
  split
  · subst_vars; rfl
  split
  · subst_vars; rfl
  split
  · subst_vars; rfl
  split
  · subst_vars; rfl
  split
  · subst_vars; rfl
  split
  · subst_vars; rfl
  split
  · subst_vars; rfl
  split
  · rename_i hcontrol
    have hc : c.toNat < 0x20 := by simpa using hcontrol
    have hbackslash : '\\' ≠ '"' := by decide
    rw [toList_unicodeEscape hc, List.cons_append, List.cons_append, stringChars]
    simp only [hbackslash, if_false, if_true, unicodeChar_control hc hmore]
    rfl
  · rename_i hquote hbackslash _ _ _ _ _ hplain
    have hc : ¬c.toNat < 0x20 := by simpa using hplain
    have hsame : c.toString.toList = [c] := by
      rw [Char.toString_eq_singleton, String.toList_singleton]
    rw [hsame, List.singleton_append, stringChars.eq_def]
    simp only [hquote, hbackslash, hc, if_false]
    rfl

/-- The characters of a string, each written as it is in a document, are read back. -/
theorem stringChars_escaped (start : Nat) {fuel : Nat} {chars : List Char} (rest : List Char)
    (hfuel : chars.length < fuel) :
    stringChars start fuel (chars.flatMap (fun c => (escapedChar false c).toList) ++ '"' :: rest) =
      .ok (chars, rest) := by
  induction chars generalizing fuel with
  | nil =>
      obtain ⟨fuel, rfl⟩ := Nat.exists_eq_add_one_of_ne_zero (Nat.ne_of_gt hfuel)
      rfl
  | cons c chars ih =>
      obtain ⟨fuel, rfl⟩ :=
        Nat.exists_eq_add_one_of_ne_zero (Nat.ne_of_gt (Nat.zero_lt_of_lt hfuel))
      rw [List.flatMap_cons, List.append_assoc, stringChars_escapedChar start fuel c (by simp),
        ih (Nat.lt_of_succ_lt_succ hfuel)]
      rfl

theorem escapedChar_ne_nil (c : Char) : (escapedChar false c).toList ≠ [] := by
  have hunit (unit : Nat) : (unitEscape unit).toList ≠ [] := by simp [unitEscape]
  unfold escapedChar
  split_ifs
  any_goals decide
  · unfold unicodeEscape
    split
    · exact hunit _
    · rw [String.toList_append]
      exact List.append_ne_nil_of_left_ne_nil (hunit _) _
  · rw [Char.toString_eq_singleton, String.toList_singleton]
    exact List.cons_ne_nil c []

/-- A string that has been written is read back.  `rest` starts behind its closing quote. -/
theorem string_text (s : String) (rest : List Char) :
    ∃ chars, (stringText false s).toList = '"' :: chars ∧
    string (chars ++ rest) = .ok (s, rest) := by
  refine ⟨s.toList.flatMap (fun c => (escapedChar false c).toList) ++ ['"'], ?_, ?_⟩
  · rw [stringText, String.toList_append, String.toList_append, String.toList_join,
      List.flatMap_map]
    rfl
  · have hlength :
        s.toList.length ≤ (s.toList.flatMap fun c => (escapedChar false c).toList).length := by
      rw [List.length_flatMap, ← List.length_map (fun c => (escapedChar false c).toList.length)]
      refine List.length_le_sum_of_one_le _ fun n hn => ?_
      obtain ⟨c, -, rfl⟩ := List.mem_map.1 hn
      exact List.length_pos_iff.2 (escapedChar_ne_nil c)
    rw [string, List.append_assoc, List.singleton_append, stringChars_escaped]
    · simp only [bind, Except.bind, String.ofList_toList]
      rfl
    · simp only [List.length_append, List.length_cons]
      omega

/-! ## Numbers and words -/

/-- No word starts with a digit. -/
theorem findSome?_words_digit {d : Char} (hd : d.isDigit = true) (cs : List Char) :
    (words.findSome? fun (word, value) => (afterWord? word (d :: cs)).map ((value, ·))) = none := by
  have hne {c : Char} (hc : c.isDigit = false) : c ≠ d := by
    rintro rfl
    exact Bool.false_ne_true (hc.symm.trans hd)
  simp [words, afterWord?, hne (c := 'n') rfl, hne (c := 't') rfl, hne (c := 'f') rfl,
    hne (c := 'N') rfl, hne (c := 'I') rfl, hne (c := '-') rfl]

/-- No word starts with a sign and a digit. -/
theorem findSome?_words_minus {d : Char} (hd : d.isDigit = true) (cs : List Char) :
    (words.findSome? fun (word, value) => (afterWord? word ('-' :: d :: cs)).map ((value, ·))) =
      none := by
  have hI : 'I' ≠ d := by
    rintro rfl
    cases hd
  simp [words, afterWord?, hI]

/-- What follows a value in the text of a document: a comma or the end of the line. -/
def Closes (rest : List Char) : Prop := ∃ c tail, rest = c :: tail ∧ (c = ',' ∨ c = '\n')

theorem digitsValue_toDigits (n : Nat) : digitsValue (Nat.toDigits 10 n) = n :=
  Nat.ofDigitChars_toDigits (by decide) (by decide)

/-- Only zero is written with a zero in front. -/
theorem head?_toDigits_ne {n : Nat} (h : n ≠ 0) : (Nat.toDigits 10 n).head? ≠ some '0' := by
  induction n using Nat.strong_induction_on with
  | _ n ih =>
      rw [Nat.toDigits_eq_if (by decide)]
      split
      · exact fun hdigit => h (Nat.digitChar_eq_zero.1 (Option.some.inj hdigit))
      · rw [List.head?_append_of_ne_nil _ Nat.toDigits_ne_nil]
        exact ih (n / 10) (by omega) (by omega)

theorem toDigits_isDigit {n : Nat} {c : Char} (h : c ∈ Nat.toDigits 10 n) : c.isDigit = true :=
  Nat.isDigit_of_mem_toDigits (by decide) (by decide) h

/-- An integer is written as its digits, behind a sign where it is negative. -/
theorem toList_toString (i : Int) :
    (toString i).toList = (if i < 0 then ['-'] else []) ++ Nat.toDigits 10 i.natAbs := by
  rw [Int.toString_eq_repr]
  cases i with
  | ofNat n => exact Nat.toList_repr
  | negSucc n =>
      rw [if_pos (Int.negSucc_lt_zero n), Int.natAbs_negSucc, ← Nat.toList_repr]
      exact String.toList_append

/-- The text of a leaf that has one. -/
def leafText : Scalar → String
  | .null => "null"
  | .bool true => "true"
  | .bool false => "false"
  | .int i => toString i
  | .float x => Decimal.floatText floatSpelling x
  | .text s => stringText false s
  | .foreign value => stringText false value.text

/-- A leaf that a document can hold is written as its text. -/
theorem scalarText_pretty {s : Scalar} (hforeign : s.isForeign = false)
    (hdigits : s.isTooLong = false) : scalarText pretty s = .ok (leafText s) := by
  cases s with
  | bool b => cases b <;> rfl
  | int i => rw [scalarText, hdigits, if_neg Bool.false_ne_true, leafText]
  | foreign value => cases hforeign
  | _ => rfl

section

variable {rest : List Char} (hrest : Closes rest)
include hrest

theorem Closes.spanDigits {digits : List Char} (h : ∀ c ∈ digits, c.isDigit = true) :
    spanDigits (digits ++ rest) = (digits, rest) := by
  obtain ⟨c, tail, rfl, hc⟩ := hrest
  have hnot : c.isDigit = false := by rcases hc with rfl | rfl <;> rfl
  rw [Json.spanDigits, List.takeWhile_append_of_pos h, List.dropWhile_append_of_pos h]
  simp [hnot]

theorem Closes.noFraction : fractionPart rest = ([], rest) := by
  obtain ⟨c, tail, rfl, hc⟩ := hrest
  rcases hc with rfl | rfl <;> rfl

theorem Closes.noExponent : exponentPart? rest = none := by
  obtain ⟨c, tail, rfl, hc⟩ := hrest
  rcases hc with rfl | rfl <;> rfl

/-- The whole part of a number is all of its digits. -/
theorem Closes.wholePart? (n : Nat) :
    wholePart? (Nat.toDigits 10 n ++ rest) = some (Nat.toDigits 10 n, rest) := by
  have hspan := hrest.spanDigits fun c (h : c ∈ Nat.toDigits 10 n) => toDigits_isDigit h
  by_cases hzero : n = 0
  · rw [hzero]
    rfl
  · have hhead := head?_toDigits_ne hzero
    cases hdigits : Nat.toDigits 10 n with
    | nil => exact absurd hdigits Nat.toDigits_ne_nil
    | cons d digits =>
        rw [hdigits] at hspan hhead
        have hd : d ≠ '0' := fun h => hhead (congrArg some h)
        rw [List.cons_append] at hspan ⊢
        unfold Json.wholePart?
        split
        · rename_i heq
          exact absurd (List.cons.inj heq).1 hd
        · rw [hspan]
          rfl

theorem Closes.unsigned? (negative : Bool) (n : Nat) :
    unsigned? negative (Nat.toDigits 10 n ++ rest) =
    some (.int (if negative then -(n : Int) else n), rest) := by
  unfold Json.unsigned?
  rw [hrest.wholePart?]
  simp only [Option.bind_eq_bind, Option.bind_some, hrest.noFraction, hrest.noExponent,
    List.append_nil, digitsValue_toDigits]
  rfl

theorem Closes.leadingDigits (n : Nat) :
    ((Nat.toDigits 10 n ++ rest).takeWhile Char.isDigit).length = (Nat.toDigits 10 n).length :=
  congrArg (fun read => read.1.length)
    (hrest.spanDigits fun c (h : c ∈ Nat.toDigits 10 n) => toDigits_isDigit h)

/-- An integer that is not too long is read back. -/
theorem Closes.wordOrNumber_int {i : Int} (hi : i.natAbs < 10 ^ Decimal.maxDigits) :
    wordOrNumber ((toString i).toList ++ rest) = .ok (.int i, rest) := by
  have hfew : ¬Decimal.maxDigits < (Nat.toDigits 10 i.natAbs).length :=
    Nat.not_lt.2 ((Nat.length_toDigits_le_iff (by decide) (by decide)).2 hi)
  rw [← hrest.leadingDigits] at hfew
  rw [toList_toString]
  cases hdigits : Nat.toDigits 10 i.natAbs with
  | nil => exact absurd hdigits Nat.toDigits_ne_nil
  | cons d digits =>
      have hd : d.isDigit = true := toDigits_isDigit (hdigits ▸ List.mem_cons_self)
      rw [hdigits, List.cons_append] at hfew
      by_cases hnegative : i < 0
      · have hread := hrest.unsigned? true i.natAbs
        have hvalue : -(i.natAbs : Int) = i := by omega
        rw [hdigits, List.cons_append, if_pos rfl, hvalue] at hread
        unfold wordOrNumber Json.leadingDigits
        simp [hnegative, findSome?_words_minus hd, hread, hfew]
      · have hread := hrest.unsigned? false i.natAbs
        have hvalue : (i.natAbs : Int) = i := by omega
        have hminus : d ≠ '-' := by
          rintro rfl
          cases hd
        rw [hdigits, List.cons_append, if_neg Bool.false_ne_true, hvalue] at hread
        unfold wordOrNumber Json.leadingDigits
        simp [hnegative, findSome?_words_digit hd, hminus, hread, hfew]

/-- Null, a boolean and an integer that is not too long are read back. -/
theorem Closes.wordOrNumber_scalar {s : Scalar} (hfloat : ∀ x, s ≠ .float x)
    (htext : ∀ t, s ≠ .text t) (hforeign : ∀ value, s ≠ .foreign value)
    (hint : ∀ i, s = .int i → i.natAbs < 10 ^ Decimal.maxDigits) :
    wordOrNumber ((leafText s).toList ++ rest) = .ok (s, rest) := by
  cases s with
  | null => rfl
  | bool b => cases b <;> rfl
  | int i => exact hrest.wordOrNumber_int (hint i rfl)
  | float x => exact absurd rfl (hfloat x)
  | text t => exact absurd rfl (htext t)
  | foreign value => exact absurd rfl (hforeign value)

end

end ProtoShape.Json
