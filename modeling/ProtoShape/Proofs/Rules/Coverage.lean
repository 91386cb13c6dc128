import ProtoShape.Fault
import ProtoShape.Proofs.Rules.TextKeys
import ProtoShape.Reshape.CleanUp

/-!
# Members that an array member covers

`dropListCovered` goes over the members of a union twice: it collects the shapes of the items of
all array members, and then drops each other member that has one of these shapes.  `Stays` says of
a single member that it is kept, without the collection.  The array members themselves stay, and
they are all that the collection looks at (`shapesOfItems_filter`), so the second pass finds the
same shapes when it runs again.

Shapes are compared by their JSON texts, so the rule stops where one of them holds an integer with
too many digits (`ComparesLong`).

The lemmas about the two passes come first (`mem_shapesOfItems_iff` and `stays_iff`).  The main
result is `dropListCovered_keepsUncovered`.
-/

namespace ProtoShape.Rules

variable {τ : Type} [Inhabited τ]

/-- A member of a union that the array members do not cover: an array schema with items, what is no
mapping, a schema without a shape, or a schema whose shape no items of an array member have. -/
inductive Stays (members : List (Tree τ)) : Tree τ → Prop where
  | array {tag fields items} : Fields.hasText fields "type" "array" = true →
      fields.get? "items" = some items → Stays members (.map tag fields)
  | noMapping {member} : member.fields? = none → Stays members member
  | shapeless {tag fields} : (∀ key ∈ shapeKeywords, fields.get? key = none) →
      Stays members (.map tag fields)
  | differs {tag fields} : (∀ tag' array inner items, .map tag' array ∈ members →
        Fields.hasText array "type" "array" = true → array.get? "items" = some (.map inner items) →
        shape? items ≠ shape? fields) → Stays members (.map tag fields)

variable {members : List (Tree τ)} {fields : Fields τ}

/-! ## The two passes -/

/-- A schema has no shape where none of the keywords is present. -/
theorem shape?_eq_none_iff :
    shape? fields = none ↔ ∀ key ∈ shapeKeywords, fields.get? key = none := by
  have hfields : shapeFields fields = [] ↔ ∀ key ∈ shapeKeywords, fields.get? key = none := by
    rw [shapeFields, List.filterMap_eq_nil_iff]
    exact forall₂_congr fun key _ => Option.map_eq_none_iff
  rw [← hfields, shape?]
  split
  · rename_i hnil
    simp [hnil]
  · rename_i hne
    simpa using hne

omit [Inhabited τ] in
theorem arrayItems?_eq_some_iff {member items : Tree τ} :
    arrayItems? member = some items ↔ ∃ tag fields, member = .map tag fields ∧
      Fields.hasText fields "type" "array" = true ∧ fields.get? "items" = some items := by
  cases member with
  | map tag fields =>
      simp only [arrayItems?, Tree.fields?, Option.ite_none_right_eq_some]
      constructor
      · intro h
        exact ⟨tag, fields, rfl, h⟩
      · rintro ⟨_, _, heq, h⟩
        cases heq
        exact h
  | _ => simp [arrayItems?, Tree.fields?]

/-- The shapes that are collected are those of the items of array members, where the items are
mappings. -/
theorem mem_shapesOfItems_iff {shape : Except Json.Unwritable String} :
    shape ∈ shapesOfItems members ↔ ∃ tag array inner items, .map tag array ∈ members ∧
      Fields.hasText array "type" "array" = true ∧ array.get? "items" = some (.map inner items) ∧
      shape? items = some shape := by
  rw [shapesOfItems, List.mem_filterMap]
  constructor
  · rintro ⟨member, hmember, hof⟩
    obtain ⟨items, hitems, hshape⟩ := Option.bind_eq_some_iff.1 hof
    obtain ⟨value, hvalue, hfields⟩ := Option.bind_eq_some_iff.1 hitems
    obtain ⟨tag, array, rfl, harray, hget⟩ := arrayItems?_eq_some_iff.1 hvalue
    cases value with
    | map inner entries =>
        obtain rfl : entries = items := Option.some.inj hfields
        exact ⟨tag, array, inner, entries, hmember, harray, hget, hshape⟩
    | _ => cases hfields
  · rintro ⟨tag, array, inner, items, hmember, harray, hget, hshape⟩
    have hitems := arrayItems?_eq_some_iff.2 ⟨tag, array, rfl, harray, hget⟩
    exact ⟨.map tag array, hmember, by simpa [arrayItemFields?, hitems, Tree.fields?] using hshape⟩

/-- The second pass keeps what stays. -/
theorem stays_iff {member : Tree τ} :
    Stays members member ↔ isSubsumed (shapesOfItems members) member = false := by
  constructor
  · intro h
    cases h with
    | @array tag fields items harray hget =>
        have hitems := arrayItems?_eq_some_iff.2 ⟨tag, fields, rfl, harray, hget⟩
        simp [isSubsumed, Tree.fields?, hitems]
    | noMapping hnone => simp [isSubsumed, hnone]
    | shapeless hnone => simp [isSubsumed, Tree.fields?, shape?_eq_none_iff.2 hnone]
    | @differs tag fields hdiffers =>
        have hnot : ∀ shape, shape? fields = some shape → shape ∉ shapesOfItems members := by
          intro shape hshape hmem
          obtain ⟨_, _, _, _, hmember, harray, hget, hsame⟩ := mem_shapesOfItems_iff.1 hmem
          exact hdiffers _ _ _ _ hmember harray hget (hsame.trans hshape.symm)
        cases hshape : shape? fields with
        | none => simp [isSubsumed, Tree.fields?, hshape]
        | some shape => simp [isSubsumed, Tree.fields?, hshape, hnot shape hshape]
  · intro h
    cases member with
    | map tag fields =>
        cases hitems : arrayItems? (Tree.map tag fields) with
        | some items =>
          obtain ⟨_, _, heq, htype, hget⟩ := arrayItems?_eq_some_iff.1 hitems
          cases heq
          exact .array htype hget
        | none =>
          cases hshape : shape? fields with
          | none => exact .shapeless (shape?_eq_none_iff.1 hshape)
          | some shape =>
              have hnot : shape ∉ shapesOfItems members := by
                simpa [isSubsumed, Tree.fields?, hshape, hitems] using h
              refine .differs fun tag' array inner items hmember harray hget hsame => hnot ?_
              rw [hshape] at hsame
              exact mem_shapesOfItems_iff.2 ⟨tag', array, inner, items, hmember,
                harray, hget, hsame⟩
    | _ => exact .noMapping rfl

instance (members : List (Tree τ)) : DecidablePred (Stays members) :=
  fun _ => decidable_of_iff _ stays_iff.symm

/-! ## What is left of a union -/

theorem filter_stays (members : List (Tree τ)) :
    members.filter (Stays members) = members.filter fun member =>
      !isSubsumed (shapesOfItems members) member := by
  refine List.filter_congr fun member _ => ?_
  rw [Bool.eq_iff_iff, decide_eq_true_iff, stays_iff]
  simp

/-- A union with members keeps some of them, since an array member covers none but others. -/
theorem filter_stays_ne_nil (h : members ≠ []) : members.filter (Stays members) ≠ [] := by
  intro hnil
  have hnone : ∀ member ∈ members, ¬Stays members member := fun member hmember hstays =>
    List.not_mem_nil (hnil ▸ List.mem_filter.2 ⟨hmember, decide_eq_true hstays⟩)
  obtain ⟨member, hmember⟩ := List.exists_mem_of_ne_nil members h
  -- Whatever covers a member is an array member, and stays.
  refine hnone member hmember ?_
  cases member with
  | map tag fields =>
      refine .differs fun tag' array inner items hin harray hget _ => ?_
      exact hnone _ hin (.array harray hget)
  | _ => exact .noMapping rfl

variable {tag : τ}

theorem dropListCovered_of_get? (hget : fields.get? "oneOf" = some (.list tag members)) :
    dropListCovered fields =
      if ∃ member ∈ members, ¬Stays members member then
        some (fields.insert "oneOf" (.list tag (members.filter (Stays members))))
      else none := by
  have hany : members.any (isSubsumed (shapesOfItems members)) = true ↔
      ∃ member ∈ members, ¬Stays members member := by
    rw [List.any_eq_true]
    refine exists_congr fun member => and_congr_right fun _ => ?_
    rw [stays_iff, Bool.not_eq_false]
  simp only [dropListCovered, hget, ← filter_stays, hany]

/-- Whether the rule applies or not, it leaves the members that stay. -/
theorem get?_applyRule_dropListCovered (hget : fields.get? "oneOf" = some (.list tag members)) :
    (applyRule dropListCovered fields).get? "oneOf" =
      some (.list tag (members.filter (Stays members))) := by
  rw [applyRule, dropListCovered_of_get? hget]
  split
  · rw [Option.getD_some, Entries.get?_insert_self]
  · rename_i hall
    have hsame : members.filter (Stays members) = members :=
      List.filter_eq_self.2 fun member hmember => by
        by_contra hnot
        exact hall ⟨member, hmember, by simpa using hnot⟩
    rw [Option.getD_none, hget, hsame]

/-- Nothing more is covered by what is left. -/
theorem dropListCovered_applyRule (hget : fields.get? "oneOf" = some (.list tag members)) :
    dropListCovered (applyRule dropListCovered fields) = none := by
  refine dropListCovered_eq_none_iff.2 fun key value hvalue hkey => ?_
  subst hkey
  rw [get?_applyRule_dropListCovered hget, filter_stays] at hvalue
  cases hvalue
  exact notCovered_filter "oneOf" tag members rfl

/-- A shape that the rule compares holds an integer with too many digits: the shape of the items of
an array member, or, where there are such shapes, that of another member. -/
def ComparesLong (members : List (Tree τ)) : Prop :=
  ∃ schema ∈ comparedSchemas members, ∃ key ∈ shapeKeywords, ∃ value, schema.get? key = some value ∧
    value.anyScalar Scalar.isTooLong = true

theorem comparesLong_iff :
    ComparesLong members ↔ (comparedSchemas members).any hasLongShape = true := by
  rw [List.any_eq_true]
  refine exists_congr fun schema => and_congr_right fun _ => ?_
  simp only [hasLongShape, List.any_eq_true, shapeFields, List.mem_filterMap,
    Option.map_eq_some_iff]
  constructor
  · rintro ⟨key, hkey, value, hget, hlong⟩
    exact ⟨(key, value), ⟨key, hkey, value, hget, rfl⟩, hlong⟩
  · rintro ⟨_, ⟨key, hkey, value, hget, rfl⟩, hlong⟩
    exact ⟨key, hkey, value, hget, hlong⟩

/-- Less is compared after the rule than before. -/
theorem comparesLong_filter (h : ComparesLong (members.filter (Stays members))) :
    ComparesLong members := by
  obtain ⟨schema, hschema, hlong⟩ := h
  rw [filter_stays] at hschema
  exact ⟨schema, comparedSchemas_filter hschema, hlong⟩

/-- What the rule makes of a union: it keeps the members that stay, in their order.  There is one
among them if the union has members at all.  The rule applies exactly where some member is dropped,
and it declines on its own result. -/
structure KeepsUncovered (fields : Fields τ) (tag : τ) (members : List (Tree τ)) : Prop where
  comparable : listCoverFault? fields = none
  left : (applyRule dropListCovered fields).get? "oneOf" =
    some (.list tag (members.filter (Stays members)))
  nonempty : members ≠ [] → members.filter (Stays members) ≠ []
  applies : (dropListCovered fields).isSome = true ↔ ∃ member ∈ members, ¬Stays members member
  comparable_again : listCoverFault? (applyRule dropListCovered fields) = none
  declines_again : dropListCovered (applyRule dropListCovered fields) = none

/-- In a union whose members have texts as keys, the members that no array member covers are kept,
unless a shape that is compared holds an integer with too many digits.  Then the rule stops
there. -/
theorem dropListCovered_keepsUncovered (hget : fields.get? "oneOf" = some (.list tag members))
    (hkeys : ∀ member ∈ members, member.HasTextKeys) :
    (ComparesLong members → listCoverFault? fields = some (.unwritable .tooManyDigits)) ∧
      (¬ComparesLong members → KeepsUncovered fields tag members) := by
  have hfault := listCoverFault?_of_members (Fields.items?_eq_some_iff.2 ⟨tag, hget⟩) hkeys
  constructor
  · intro hlong
    rw [hfault, comparesLong_iff.1 hlong]
    rfl
  · intro hshort
    have hleft := get?_applyRule_dropListCovered hget
    have hfault' := listCoverFault?_of_members (Fields.items?_eq_some_iff.2 ⟨tag, hleft⟩)
      fun member hmember => hkeys member (List.mem_filter.1 hmember).1
    have happlies : (dropListCovered fields).isSome = true ↔
        ∃ member ∈ members, ¬Stays members member := by
      rw [dropListCovered_of_get? hget]
      exact Option.isSome_ite
    refine ⟨hfault.trans (digitsFault?_eq_none_iff.2 ?_), hleft, filter_stays_ne_nil, happlies,
      hfault'.trans (digitsFault?_eq_none_iff.2 ?_), dropListCovered_applyRule hget⟩
    · exact Bool.eq_false_iff.2 fun hlong => hshort (comparesLong_iff.2 hlong)
    · exact Bool.eq_false_iff.2 fun hlong => hshort (comparesLong_filter (comparesLong_iff.2 hlong))

/-- The members of a union.  A list of tags covers a tag, and a list of lists covers a list that
does not say of what. -/
def mixedMembers : List Value := [
  .ofEntries [("$ref", .ofText "#/components/schemas/Tag")],
  .ofEntries [("type", .ofText "array"),
    ("items", .ofEntries [("$ref", .ofText "#/components/schemas/Tag")])],
  .ofBool true,
  .ofEntries [("type", .ofText "array")],
  .ofEntries [("items", .ofEntries [("type", .ofText "array")]), ("type", .ofText "array")],
  .ofEntries [("description", .ofText "anything")],
  .ofEntries [("type", .ofText "integer")]]

/-- Two of the seven members are dropped. -/
example :
    (Fields.items? (applyRule dropListCovered ⟨[("oneOf", .ofList mixedMembers)]⟩) "oneOf").map
      (·.map Tree.shown) = some [
    "\x7b'type': 'array', 'items': \x7b'$ref': '#/components/schemas/Tag'\x7d\x7d", "True",
    "\x7b'items': \x7b'type': 'array'\x7d, 'type': 'array'\x7d",
    "\x7b'description': 'anything'\x7d", "\x7b'type': 'integer'\x7d"] := by decide +kernel

/-- A union of one array schema.  The type of its items is the smallest integer that has too many
digits. -/
def longShape : Fields Unit :=
  ⟨[("oneOf", .ofList [.ofEntries [("type", .ofText "array"),
    ("items", .ofEntries [("type", .ofInt (Nat.pow 10 Decimal.maxDigits))])]])]⟩

/-- The shapes in that union are not compared, so it is not said which members are kept. -/
example : listCoverFault? longShape = some (.unwritable .tooManyDigits) := by decide +kernel

end ProtoShape.Rules
