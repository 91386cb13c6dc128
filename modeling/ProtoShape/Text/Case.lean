import ProtoShape.Text.CaseTable

/-!
# Upper case, lower case and caseless form

The mappings work on whole texts, because one character may map to several
(`ß` to `SS`) and because a capital sigma maps to a different small letter at
the end of a word.  Two texts are equal ignoring case when their caseless
forms are equal (`foldCase`); no normalization takes place.
-/

namespace ProtoShape.Text

/-- The image of one character under a case mapping given by its table. -/
def mapCase (runs : List CaseRun) (sequences : List (Nat × List Nat)) (c : Char) : List Char :=
  match sequences.lookup c.toNat with
  | some image => image.map Char.ofNat
  | none =>
      match runs.find? fun run =>
          run.first ≤ c.toNat && c.toNat ≤ run.last && (c.toNat - run.first) % run.step == 0 with
      | some run => [Char.ofNat (c.toNat + run.shift).toNat]
      | none => [c]

/-- The caseless form of a text, for comparison ignoring case. -/
def foldCase (s : String) : String :=
  String.ofList (s.toList.flatMap (mapCase foldRuns foldSequences))

/-- The text in upper case. -/
def upper (s : String) : String :=
  String.ofList (s.toList.flatMap (mapCase upperRuns upperSequences))

/-- Whether the first character that is not case-ignorable has case. -/
def startsCased (cs : List Char) : Bool :=
  match cs.dropWhile (inRanges caseIgnorableRanges ·.toNat) with
  | c :: _ => inRanges casedRanges c.toNat
  | [] => false

/-- Lower case of `cs`, where `before` holds the characters in front of it,
nearest first.  A capital sigma that follows a letter and precedes none takes
its final form. -/
def lowerAfter (before : List Char) : List Char → List Char
  | [] => []
  | c :: rest =>
      let image :=
        if c = 'Σ' then [if startsCased before && !startsCased rest then 'ς' else 'σ']
        else mapCase lowerRuns lowerSequences c
      image ++ lowerAfter (c :: before) rest

/-- The text in lower case. -/
def lower (s : String) : String := String.ofList (lowerAfter [] s.toList)

example : foldCase "Straße" = "strasse" ∧ foldCase "ΣΑΣ" = "σασ" := by decide +kernel

example : upper "ß" = "SS" ∧ lower "ΣΑΣ Σ" = "σας σ" := by decide +kernel

end ProtoShape.Text
