import ProtoShape.Proofs.Rules.NormalForm
import ProtoShape.Proofs.Tags

/-!
# The rules do not look at the tags

Whether a clean-up declines depends on the value of a schema alone.  The functions
that the clean-ups are made of come first, with one lemma each, and `normalForm_mapTags`
puts them together.
-/

namespace ProtoShape.Rules

variable {τ σ : Type} (f : τ → σ)

@[simp] theorem const?_mapTags (member : Tree τ) :
    const? (member.mapTags f) = (const? member).map (Tree.mapTags f) := by
  cases member with
  | map tag fields => by_cases h : Fields.isReference fields <;> simp [const?, Tree.fields?, h]
  | _ => simp [const?, Tree.fields?]

@[simp] theorem arrayItems?_mapTags (member : Tree τ) :
    arrayItems? (member.mapTags f) = (arrayItems? member).map (Tree.mapTags f) := by
  cases member with
  | map tag fields =>
      by_cases h : Fields.hasText fields "type" "array" <;> simp [arrayItems?, Tree.fields?, h]
  | _ => simp [arrayItems?, Tree.fields?]

@[simp] theorem arrayItemFields?_mapTags (member : Tree τ) :
    arrayItemFields? (member.mapTags f) = (arrayItemFields? member).map (Fields.mapTags f) := by
  cases h : arrayItems? member <;> simp [arrayItemFields?, h]

theorem shapeFields_mapTags (fields : Fields τ) :
    shapeFields (Fields.mapTags f fields) =
      (shapeFields fields).map fun entry => (entry.1, entry.2.mapTags f) := by
  simp only [shapeFields, List.map_filterMap]
  refine List.filterMap_congr fun key _ => ?_
  cases h : fields.get? key <;> simp [h]

@[simp] theorem otherFields?_mapTags (member : Tree τ) :
    otherFields? (member.mapTags f) = (otherFields? member).map (Fields.mapTags f) := by
  unfold otherFields?
  rw [arrayItems?_mapTags, Option.isSome_map, Tree.fields?_mapTags]
  split <;> rfl

@[simp] theorem isTrue_mapTags (t : Tree τ) : isTrue (t.mapTags f) = isTrue t := by
  cases t with
  | scalar tag s => cases s <;> simp [isTrue]
  | list tag items => simp [isTrue]
  | map tag fields => simp [isTrue]

@[simp] theorem isUnconstrained_mapTags (t : Tree τ) :
    isUnconstrained (t.mapTags f) = isUnconstrained t := by
  cases t with
  | map tag fields =>
      cases h : fields.get? "type" <;>
        simp [isUnconstrained, Tree.fields?, fieldsUnconstrained, h]
  | _ => simp [isUnconstrained, Tree.fields?]

@[simp] theorem likeness_mapTags (t : Tree τ) : likeness (t.mapTags f) = likeness t := by
  simp [likeness]

theorem settle_mapTags (key : Likeness) (value : Tree τ) (folded : List (Likeness × Tree τ)) :
    settle key (value.mapTags f) (folded.map fun entry => (entry.1, entry.2.mapTags f)) =
      (settle key value folded).map fun entry => (entry.1, entry.2.mapTags f) := by
  induction folded with
  | nil => rfl
  | cons entry rest ih =>
      obtain ⟨other, old⟩ := entry
      by_cases h : other = key
      · simp [settle, h]
      · simpa [settle, h] using ih

theorem lastOfEach_mapTags (values : List (Tree τ)) :
    lastOfEach (values.map (Tree.mapTags f)) =
      (lastOfEach values).map fun entry => (entry.1, entry.2.mapTags f) := by
  suffices hall : ∀ folded : List (Likeness × Tree τ),
      (values.map (Tree.mapTags f)).foldl (fun folded value => settle (likeness value) value folded)
          (folded.map fun entry => (entry.1, entry.2.mapTags f)) =
        (values.foldl (fun folded value => settle (likeness value) value folded) folded).map
          fun entry => (entry.1, entry.2.mapTags f) from hall []
  induction values with
  | nil => simp
  | cons value rest ih =>
      intro folded
      rw [List.map_cons, List.foldl_cons, List.foldl_cons, likeness_mapTags, settle_mapTags, ih]

/-! ## What the clean-ups ask of a value -/

section Values

variable {f} {key : String} {value : Tree τ}

theorem noConstMember_mapTags : NoConstMember key (value.mapTags f) ↔ NoConstMember key value := by
  refine forall_congr' fun _ => ?_
  cases h : value.items? <;> simp [h]

theorem noLoneMember_mapTags : NoLoneMember key (value.mapTags f) ↔ NoLoneMember key value := by
  refine forall_congr' fun _ => ?_
  constructor
  · rintro h tag inner member rfl
    exact h (f tag) (f inner) (Fields.mapTags f member) (by simp)
  · intro h tag inner member heq
    match value with
    | .list tag [.map inner member] => exact h tag inner member rfl
    | .list _ [] | .list _ [.scalar _ _] | .list _ [.list _ _] | .list _ (_ :: _ :: _)
    | .scalar _ _ | .map _ _ => simp at heq

theorem notOpen_mapTags : NotOpen key (value.mapTags f) ↔ NotOpen key value := by
  simp [NotOpen]

theorem distinctValues_mapTags : DistinctValues key (value.mapTags f) ↔
    DistinctValues key value := by
  refine forall_congr' fun _ => ?_
  cases h : value.items? <;> simp [h, lastOfEach_mapTags]

theorem notNull_mapTags : NotNull key (value.mapTags f) ↔ NotNull key value := by
  refine forall_congr' fun _ => ?_
  cases h : value.items? <;> simp [h]

theorem comparableValues_mapTags :
    ComparableValues key (value.mapTags f) ↔ ComparableValues key value := by
  refine forall_congr' fun _ => ?_
  cases h : value.items? <;> simp [h]

end Values

variable [Inhabited τ] [Inhabited σ]

@[simp] theorem shape?_mapTags (fields : Fields τ) :
    shape? (Fields.mapTags f fields) = shape? fields := by
  have hshape := shapeFields_mapTags f fields
  unfold shape?
  rw [hshape]
  cases shapeFields fields with
  | nil => rfl
  | cons entry rest =>
      refine congrArg some (Json.text_congr ?_)
      simp [Tree.ofEntries, Fields.mapTags, Entries.mapValues, Tree.erase, Tree.mapTags_mapTags]

@[simp] theorem shapesOfItems_mapTags (members : List (Tree τ)) :
    shapesOfItems (members.map (Tree.mapTags f)) = shapesOfItems members := by
  unfold shapesOfItems
  rw [List.filterMap_map]
  refine List.filterMap_congr fun member _ => ?_
  cases h : arrayItemFields? member <;> simp [h]

theorem comparedSchemas_mapTags (members : List (Tree τ)) :
    comparedSchemas (members.map (Tree.mapTags f)) =
      (comparedSchemas members).map (Fields.mapTags f) := by
  unfold comparedSchemas
  rw [shapesOfItems_mapTags, List.map_append, List.filterMap_map, List.map_filterMap,
    apply_ite (List.map (Fields.mapTags f)), List.map_nil, List.filterMap_map, List.map_filterMap]
  simp only [Function.comp_def, arrayItemFields?_mapTags, otherFields?_mapTags]

@[simp] theorem isSubsumed_mapTags (shapes : List (Except Json.Unwritable String))
    (member : Tree τ) : isSubsumed shapes (member.mapTags f) = isSubsumed shapes member := by
  unfold isSubsumed
  rw [Tree.fields?_mapTags, arrayItems?_mapTags, Option.isNone_map]
  cases member.fields? <;> simp

/-! ## The normal form -/

variable {f} {key : String} {value : Tree τ}

theorem nothingCovered_mapTags : NothingCovered key (value.mapTags f) ↔
    NothingCovered key value := by
  refine forall_congr' fun _ => ?_
  cases h : value.items? <;> simp [h]

theorem comparableShapes_mapTags :
    ComparableShapes key (value.mapTags f) ↔ ComparableShapes key value := by
  refine forall_congr' fun _ => ?_
  cases h : value.items? with
  | none => simp [h, comparedSchemas]
  | some members => simp [h, comparedSchemas_mapTags]

theorem normalValue_mapTags : NormalValue key (value.mapTags f) ↔ NormalValue key value := by
  constructor
  · rintro ⟨hconst, hcovered, hlone, hopen, hdistinct, hnull, hshapes, hvalues⟩
    exact ⟨noConstMember_mapTags.1 hconst, nothingCovered_mapTags.1 hcovered,
      noLoneMember_mapTags.1 hlone, notOpen_mapTags.1 hopen, distinctValues_mapTags.1 hdistinct,
      notNull_mapTags.1 hnull, comparableShapes_mapTags.1 hshapes,
      comparableValues_mapTags.1 hvalues⟩
  · rintro ⟨hconst, hcovered, hlone, hopen, hdistinct, hnull, hshapes, hvalues⟩
    exact ⟨noConstMember_mapTags.2 hconst, nothingCovered_mapTags.2 hcovered,
      noLoneMember_mapTags.2 hlone, notOpen_mapTags.2 hopen, distinctValues_mapTags.2 hdistinct,
      notNull_mapTags.2 hnull, comparableShapes_mapTags.2 hshapes,
      comparableValues_mapTags.2 hvalues⟩

theorem normalForm_mapTags {sentinel : String} {fields : Fields τ} :
    NormalForm sentinel (Fields.mapTags f fields) ↔ NormalForm sentinel fields := by
  rw [normalForm_iff_each, normalForm_iff_each]
  unfold Entries.Each
  simp only [Fields.get?_mapTags, Option.map_eq_some_iff, forall_exists_index, and_imp,
    forall_apply_eq_imp_iff₂, normalValue_mapTags]

end ProtoShape.Rules
