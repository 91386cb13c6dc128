import ProtoShape.Tree
import ProtoShape.Yaml.Outline

/-!
# Reading YAML

The part of YAML that is read: one document of block and flow collections with
plain and quoted scalars.  Anchors, tags, block scalars, directives and collections
as keys are not.  There is no result where the text is not of this form.

No key may be given twice.  The key `<<` stands for the entries of the mapping, or
of the mappings, that it holds; the other entries of a mapping win over these.
-/

namespace ProtoShape.Yaml

/-- An entry of a mapping. -/
abbrev Pair := Scalar × Value

/-- The entries of a mapping: those that it takes over and its own. -/
structure Members where
  merged : List Pair
  own : List Pair

namespace Members

/-- All entries, those that win at the end. -/
def all (m : Members) : List Pair := m.merged ++ m.own

/-- Whether a key is given twice. -/
def repeats : List Pair → Bool
  | [] => false
  | (key, _) :: rest => rest.any (·.1.key = key.key) || repeats rest

/-- The mapping of these entries; where it takes nothing over, no key may be given
twice. -/
def mapping? (m : Members) : Option (Fields Unit) :=
  if m.merged.isEmpty && repeats m.own then none
  else some (m.all.foldl (fun fields (key, value) => fields.insert key value) ∅)

end Members

namespace Outline

/-- The key that an outline writes.  An equals sign is a text here. -/
def key? : Outline → Option Scalar
  | absent => some .null
  | plain ['='] => some (.text "=")
  | plain cs => valueOf? cs
  | quoted cs => some (.text (String.ofList cs))
  | items _ | entries _ => none

/-- Whether an outline is the key that takes over entries. -/
def isMerge : Outline → Bool
  | plain ['<', '<'] => true
  | _ => false

mutual
/-- The value that an outline writes. -/
def value? : Outline → Option Value
  | absent => some (.scalar () .null)
  | plain cs => (valueOf? cs).map (.scalar ())
  | quoted cs => some (.ofText (String.ofList cs))
  | items nodes => (values? nodes).map (.list ())
  | entries pairs => (members? pairs).bind fun m => m.mapping?.map (.map ())

/-- The values of several outlines. -/
def values? : List Outline → Option (List Value)
  | [] => some []
  | node :: rest => do return (← value? node) :: (← values? rest)

/-- The entries of a mapping.  Only one key takes over entries. -/
def members? : List (Outline × Outline) → Option Members
  | [] => some ⟨[], []⟩
  | (key, value) :: rest => do
      let others ← members? rest
      if key.isMerge then
        let taken ← taken? value
        if !taken.isEmpty && rest.any (·.1.isMerge) then none
        else return { others with merged := taken ++ others.merged }
      else return { others with own := (← key.key?, ← value? value) :: others.own }

/-- The entries that a mapping takes over.  Of several mappings, the first one
wins. -/
def taken? : Outline → Option (List Pair)
  | entries pairs => (members? pairs).map Members.all
  | items nodes => takenOfAll? nodes
  | _ => none

/-- The entries of several mappings, those of the first one at the end. -/
def takenOfAll? : List Outline → Option (List Pair)
  | [] => some []
  | entries pairs :: rest => do
      let others ← takenOfAll? rest
      return others ++ (← members? pairs).all
  | _ :: _ => none
end

end Outline

/-- The value of a YAML text. -/
def readChars (cs : List Char) : Option Value := do
  let source ← Source.ofChars? cs
  let tokens ← Token.ofSource? source
  let outline ← Outline.ofTokens? tokens
  outline.value?

/-- The value of a YAML text, where it has one. -/
def read? (s : String) : Option Value := readChars s.toList

end ProtoShape.Yaml
