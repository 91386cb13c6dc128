import ProtoShape.Proofs.Visits
import ProtoShape.Rules.Composite
import ProtoShape.Rules.Enumeration
import ProtoShape.Rules.OpenMap
import ProtoShape.Rules.Union

/-!
# The normal form of a schema

A schema is in normal form when none of the local clean-ups applies to it, and when
all shapes and values that they compare can be written.  Each clean-up looks at the
values of a few keywords only, so declining can be said of one value at a time:
`NoConstMember`, `NothingCovered`, `NoLoneMember`, `NotOpen`, `DistinctValues` and
`NotNull`, and so can the comparisons: `ComparableShapes` and `ComparableValues`.
There is one `_eq_none_iff` lemma for each rule and for each comparison.
`normalForm_iff_each` puts them together.  A schema with its entries laid over those of
another one in normal form is therefore in normal form again.

The second group of lemmas says that each rule declines on its own result.
-/

namespace ProtoShape.Rules

variable {τ : Type}

theorem combiningKeys_eq : combiningKeys = ["allOf", "anyOf", "oneOf"] := rfl

/-! ## Declining, one value at a time -/

/-- No inline member of a `oneOf` has a constant. -/
def NoConstMember (key : String) (value : Tree τ) : Prop :=
  key = "oneOf" → ∀ member ∈ value.items?.getD [], const? member = none

/-- No member of a `oneOf` is covered by an array member. -/
def NothingCovered [Inhabited τ] (key : String) (value : Tree τ) : Prop :=
  key = "oneOf" → ∀ member ∈ value.items?.getD [],
    isSubsumed (shapesOfItems (value.items?.getD [])) member = false

/-- A composite does not consist of one mapping alone. -/
def NoLoneMember (key : String) (value : Tree τ) : Prop :=
  key ∈ combiningKeys → ∀ tag inner member, value ≠ .list tag [.map inner member]

/-- `additionalProperties` do not accept anything. -/
def NotOpen (key : String) (value : Tree τ) : Prop :=
  key = "additionalProperties" → isTrue value = false ∧ isUnconstrained value = false

/-- No value of an enumeration repeats another one. -/
def DistinctValues (key : String) (value : Tree τ) : Prop :=
  key = "enum" → ∀ values, value.items? = some values → (lastOfEach values).length = values.length

/-- The shapes that a `oneOf` asks to compare can be written. -/
def ComparableShapes [Inhabited τ] (key : String) (value : Tree τ) : Prop :=
  key = "oneOf" → ∀ schema ∈ comparedSchemas (value.items?.getD []),
    (shape? schema).bind Fault.ofText? = none

/-- The values of an enumeration can be written. -/
def ComparableValues (key : String) (value : Tree τ) : Prop :=
  key = "enum" → ∀ item ∈ value.items?.getD [], Fault.ofText? (likeness item).text = none

/-- The type is not the null type, neither alone nor among others. -/
def NotNull (key : String) (value : Tree τ) : Prop :=
  key = "type" → value.isText "null" = false ∧
    ∀ type ∈ value.items?.getD [], type.isText "null" = false

variable {fields : Fields τ}

theorem items?_eq_some_iff {t : Tree τ} {items : List (Tree τ)} :
    t.items? = some items ↔ ∃ tag, t = .list tag items := by
  cases t <;> simp [Tree.items?]

theorem constsToEnum_eq_none_iff [Inhabited τ] :
    constsToEnum fields = none ↔ fields.Each NoConstMember := by
  unfold constsToEnum Fields.items?
  constructor
  · rintro h _ value hget rfl member hmember
    rw [hget] at h
    cases hitems : value.items? with
    | none => simp [hitems] at hmember
    | some items =>
        simp only [Option.bind_some, hitems] at h
        split at h
        · simp at h
        · rename_i hany
          simp only [hitems, Option.getD_some] at hmember
          simpa using fun hsome => hany (List.any_eq_true.2 ⟨member, hmember, hsome⟩)
  · intro h
    cases hget : fields.get? "oneOf" with
    | none => simp
    | some value =>
        cases hitems : value.items? with
        | none => simp [hitems]
        | some items =>
            have hnone := h "oneOf" value hget rfl
            simp only [hitems, Option.getD_some] at hnone
            simp only [Option.bind_some, hitems]
            rw [if_neg]
            intro hany
            obtain ⟨member, hmember, hsome⟩ := List.any_eq_true.1 hany
            simp [hnone member hmember] at hsome

theorem dropListCovered_eq_none_iff [Inhabited τ] :
    dropListCovered fields = none ↔ fields.Each NothingCovered := by
  unfold dropListCovered
  constructor
  · rintro h _ value hget rfl member hmember
    rw [hget] at h
    cases value with
    | list tag items =>
        simp only [Tree.items?, Option.getD_some] at hmember ⊢
        simp only at h
        split at h
        · simp at h
        · rename_i hany
          cases hsub : isSubsumed (shapesOfItems items) member with
          | false => rfl
          | true => exact absurd (List.any_eq_true.2 ⟨member, hmember, hsub⟩) hany
    | scalar tag s => simp [Tree.items?] at hmember
    | map tag inner => simp [Tree.items?] at hmember
  · intro h
    split
    · rename_i tag items hget
      have hnone := h "oneOf" _ hget rfl
      simp only [Tree.items?, Option.getD_some] at hnone
      rw [if_neg]
      intro hany
      obtain ⟨member, hmember, hsub⟩ := List.any_eq_true.1 hany
      simp [hnone member hmember] at hsub
    · rfl

theorem singleMember?_eq_none_iff {key : String} :
    singleMember? fields key = none ↔
      ∀ value, fields.get? key = some value → ∀ tag inner member,
        value ≠ .list tag [.map inner member] := by
  unfold singleMember?
  constructor
  · rintro h _ hget tag inner member rfl
    simp [hget] at h
  · intro h
    split
    · rename_i tag inner member hget
      exact absurd rfl (h _ hget tag inner member)
    · rfl

theorem unwrapStep?_eq_none_iff : unwrapStep? fields = none ↔ fields.Each NoLoneMember := by
  simp only [unwrapStep?, List.findSome?_eq_none_iff, Option.map_eq_none_iff,
    singleMember?_eq_none_iff]
  constructor
  · intro h key value hget hkey
    exact h key hkey value hget
  · intro h key hkey value hget
    exact h key value hget hkey

theorem unwrapComposites_eq_none_iff :
    unwrapComposites fields = none ↔ fields.Each NoLoneMember := by
  rw [← unwrapStep?_eq_none_iff]
  simp [unwrapComposites]

theorem closeOpenMap_eq_none_iff [Inhabited τ] :
    closeOpenMap fields = none ↔ fields.Each NotOpen := by
  unfold closeOpenMap
  constructor
  · rintro h _ value hget rfl
    rw [hget] at h
    simp only at h
    split at h
    · simp at h
    · rename_i hopen
      simpa using hopen
  · intro h
    split
    · rfl
    · rename_i value hget
      obtain ⟨htrue, hfree⟩ := h _ value hget rfl
      rw [if_neg (by simp [htrue, hfree])]

theorem distinctEnum_eq_none_iff [Inhabited τ] :
    distinctEnum fields = none ↔ fields.Each DistinctValues := by
  unfold distinctEnum Fields.items?
  constructor
  · rintro h _ value hget rfl values hvalues
    rw [hget, Option.bind_some, hvalues] at h
    simp only at h
    split at h
    · assumption
    · simp at h
  · intro h
    cases hget : fields.get? "enum" with
    | none => simp
    | some value =>
        cases hvalues : value.items? with
        | none => simp [hvalues]
        | some values =>
            simp only [Option.bind_some, hvalues]
            rw [if_pos (h _ value hget rfl values hvalues)]

theorem listCoverFault?_eq_none_iff [Inhabited τ] :
    listCoverFault? fields = none ↔ fields.Each ComparableShapes := by
  unfold listCoverFault? Fields.items?
  constructor
  · rintro h _ value hget rfl schema hschema
    rw [hget, Option.bind_some] at h
    cases value with
    | list tag members => exact List.findSome?_eq_none_iff.1 h schema hschema
    | _ => simp [Tree.items?, comparedSchemas] at hschema
  · intro h
    split
    · rfl
    · rename_i members hmembers
      obtain ⟨value, hget, hitems⟩ := Option.bind_eq_some_iff.1 hmembers
      have hcompared := h "oneOf" value hget rfl
      rw [hitems] at hcompared
      exact List.findSome?_eq_none_iff.2 hcompared

theorem enumFault?_eq_none_iff : enumFault? fields = none ↔ fields.Each ComparableValues := by
  unfold enumFault? Fields.items?
  constructor
  · rintro h _ value hget rfl item hitem
    rw [hget, Option.bind_some] at h
    cases value with
    | list tag values => exact List.findSome?_eq_none_iff.1 h item hitem
    | _ => simp [Tree.items?] at hitem
  · intro h
    split
    · rfl
    · rename_i values hvalues
      obtain ⟨value, hget, hitems⟩ := Option.bind_eq_some_iff.1 hvalues
      have hcompared := h "enum" value hget rfl
      rw [hitems] at hcompared
      exact List.findSome?_eq_none_iff.2 hcompared

theorem isText_eq_true_iff {t : Tree τ} {s : String} :
    t.isText s = true ↔ ∃ tag, t = .scalar tag (.text s) := by
  cases t with
  | scalar tag v => cases v <;> simp [Tree.isText, Tree.text?]
  | list tag items => simp [Tree.isText, Tree.text?]
  | map tag inner => simp [Tree.isText, Tree.text?]

theorem renameNull_eq_none_iff [Inhabited τ] {sentinel : String} :
    renameNull sentinel fields = none ↔ fields.Each NotNull := by
  unfold renameNull
  constructor
  · rintro h _ value hget rfl
    rw [hget] at h
    cases value with
    | scalar tag s =>
        refine ⟨?_, by simp [Tree.items?]⟩
        rw [Bool.eq_false_iff]
        intro htext
        obtain ⟨tag', heq⟩ := isText_eq_true_iff.1 htext
        cases heq
        simp at h
    | list tag types =>
        refine ⟨by simp [Tree.isText, Tree.text?], ?_⟩
        simp only at h
        split at h
        · simp at h
        · rename_i hany
          simpa [Tree.items?] using hany
    | map tag inner => simp [Tree.isText, Tree.text?, Tree.items?]
  · intro h
    split
    · rename_i tag hget
      have hnull := (h _ _ hget rfl).1
      simp [Tree.isText, Tree.text?] at hnull
    · rename_i tag types hget
      have hnull := (h _ _ hget rfl).2
      rw [if_neg]
      simpa [Tree.items?] using hnull
    · rfl

/-! ## The normal form -/

/-- No local clean-up applies to a schema, and none stops at it because something that it
compares cannot be written. -/
structure NormalForm [Inhabited τ] (sentinel : String) (fields : Fields τ) : Prop where
  constsToEnum : Rules.constsToEnum fields = none
  dropListCovered : Rules.dropListCovered fields = none
  unwrapComposites : Rules.unwrapComposites fields = none
  closeOpenMap : Rules.closeOpenMap fields = none
  distinctEnum : Rules.distinctEnum fields = none
  renameNull : Rules.renameNull sentinel fields = none
  comparesShapes : listCoverFault? fields = none
  comparesValues : enumFault? fields = none

/-- What the normal form asks of the value of a keyword. -/
structure NormalValue [Inhabited τ] (key : String) (value : Tree τ) : Prop where
  noConst : NoConstMember key value
  notCovered : NothingCovered key value
  notLone : NoLoneMember key value
  notOpen : NotOpen key value
  distinct : DistinctValues key value
  notNull : NotNull key value
  shapes : ComparableShapes key value
  values : ComparableValues key value

/-- The normal form is a property of each value with its keyword. -/
theorem normalForm_iff_each [Inhabited τ] {sentinel : String} :
    NormalForm sentinel fields ↔ fields.Each NormalValue := by
  constructor
  · rintro ⟨h₁, h₂, h₃, h₄, h₅, h₆, h₇, h₈⟩ key value hget
    exact ⟨constsToEnum_eq_none_iff.1 h₁ key value hget,
      dropListCovered_eq_none_iff.1 h₂ key value hget,
      unwrapComposites_eq_none_iff.1 h₃ key value hget,
      closeOpenMap_eq_none_iff.1 h₄ key value hget,
      distinctEnum_eq_none_iff.1 h₅ key value hget,
      renameNull_eq_none_iff.1 h₆ key value hget,
      listCoverFault?_eq_none_iff.1 h₇ key value hget,
      enumFault?_eq_none_iff.1 h₈ key value hget⟩
  · intro h
    exact ⟨constsToEnum_eq_none_iff.2 (h.mono fun _ _ hv => hv.noConst),
      dropListCovered_eq_none_iff.2 (h.mono fun _ _ hv => hv.notCovered),
      unwrapComposites_eq_none_iff.2 (h.mono fun _ _ hv => hv.notLone),
      closeOpenMap_eq_none_iff.2 (h.mono fun _ _ hv => hv.notOpen),
      distinctEnum_eq_none_iff.2 (h.mono fun _ _ hv => hv.distinct),
      renameNull_eq_none_iff.2 (h.mono fun _ _ hv => hv.notNull),
      listCoverFault?_eq_none_iff.2 (h.mono fun _ _ hv => hv.shapes),
      enumFault?_eq_none_iff.2 (h.mono fun _ _ hv => hv.values)⟩

/-! ## Rules decline on their own results -/

/-- Members that are dropped are no array members, so the shapes stay. -/
theorem shapesOfItems_filter [Inhabited τ] (members : List (Tree τ))
    (shapes : List (Except Json.Unwritable String)) :
    shapesOfItems (members.filter fun member => !isSubsumed shapes member) =
      shapesOfItems members := by
  unfold shapesOfItems
  rw [List.filterMap_filter]
  refine List.filterMap_congr fun member _ => ?_
  split
  · rfl
  · rename_i hsub
    have hnone : arrayItems? member = none := by
      cases harray : arrayItems? member with
      | none => rfl
      | some value => exact absurd (by cases member <;> simp_all [isSubsumed, Tree.fields?]) hsub
    simp [arrayItemFields?, hnone]

theorem notCovered_filter [Inhabited τ] (key : String) (tag : τ) (members : List (Tree τ)) :
    NothingCovered key (.list tag
      (members.filter fun member => !isSubsumed (shapesOfItems members) member)) := by
  rintro - member hmember
  simp only [Tree.items?, Option.getD_some] at hmember ⊢
  rw [shapesOfItems_filter]
  simpa using (List.mem_filter.1 hmember).2

/-- Among fewer members there is less to compare. -/
theorem comparedSchemas_filter [Inhabited τ] {members : List (Tree τ)} {schema : Fields τ}
    (h : schema ∈ comparedSchemas
      (members.filter fun member => !isSubsumed (shapesOfItems members) member)) :
    schema ∈ comparedSchemas members := by
  unfold comparedSchemas at h ⊢
  rw [shapesOfItems_filter] at h
  refine List.mem_append.2 ((List.mem_append.1 h).imp (fun hitems => ?_) fun hothers => ?_)
  · exact (List.filter_sublist.filterMap _).subset hitems
  · split at hothers
    · cases hothers
    · rename_i hshapes
      rw [if_neg hshapes]
      exact (List.filter_sublist.filterMap _).subset hothers

theorem comparable_filter [Inhabited τ] {key : String} {tag : τ} {members : List (Tree τ)}
    (h : ComparableShapes key (.list tag members)) :
    ComparableShapes key (.list tag
      (members.filter fun member => !isSubsumed (shapesOfItems members) member)) :=
  fun hkey schema hschema => h hkey schema (comparedSchemas_filter hschema)

theorem unwrapStep?_unwrapAll (fields : Fields τ) : unwrapStep? (unwrapAll fields) = none := by
  fun_induction unwrapAll fields with
  | case1 fields h => exact h
  | case2 fields unwrapped h ih => exact ih

theorem notNull_ofText [Inhabited τ] (key : String) {s : String} (h : s ≠ "null") :
    NotNull key (.ofText s : Tree τ) := by
  rintro -
  simp [Tree.ofText, Tree.isText, Tree.text?, Tree.items?, h]

theorem notNull_renamed [Inhabited τ] (key : String) {sentinel : String} (h : sentinel ≠ "null")
    (types : List (Tree τ)) :
    NotNull key (.ofList (types.map fun type =>
      if type.isText "null" then .ofText sentinel else type) : Tree τ) := by
  rintro -
  refine ⟨by simp [Tree.ofList, Tree.isText, Tree.text?], ?_⟩
  intro type htype
  simp only [Tree.ofList, Tree.items?, Option.getD_some, List.mem_map] at htype
  obtain ⟨old, -, rfl⟩ := htype
  split
  · simp [Tree.ofText, Tree.isText, Tree.text?, h]
  · rename_i hnull
    simpa using hnull

/-! ## The values of an enumeration -/

theorem settle_of_not_mem {key : Likeness} (value : Tree τ) {folded : List (Likeness × Tree τ)}
    (h : key ∉ folded.map (·.1)) : settle key value folded = folded ++ [(key, value)] := by
  induction folded with
  | nil => rfl
  | cons entry rest ih =>
      obtain ⟨other, old⟩ := entry
      simp only [List.map_cons, List.mem_cons, not_or] at h
      rw [settle, if_neg fun heq => h.1 heq.symm, ih h.2, List.cons_append]

theorem map_fst_settle (key : Likeness) (value : Tree τ) (folded : List (Likeness × Tree τ)) :
    (settle key value folded).map (·.1) =
      if key ∈ folded.map (·.1) then folded.map (·.1) else folded.map (·.1) ++ [key] := by
  induction folded with
  | nil => simp [settle]
  | cons entry rest ih =>
      obtain ⟨other, old⟩ := entry
      by_cases hkey : other = key
      · simp [settle, hkey]
      · have hkey' : key ≠ other := fun h => hkey h.symm
        simp only [settle, if_neg hkey, List.map_cons, ih, List.mem_cons, hkey', false_or]
        split <;> rfl

theorem mem_settle {key : Likeness} {value : Tree τ} {folded : List (Likeness × Tree τ)}
    {entry : Likeness × Tree τ} (h : entry ∈ settle key value folded) :
    entry = (key, value) ∨ entry ∈ folded := by
  induction folded with
  | nil => exact Or.inl (by simpa [settle] using h)
  | cons head rest ih =>
      obtain ⟨other, old⟩ := head
      by_cases hkey : other = key
      · subst hkey
        rcases List.mem_cons.1 (by simpa [settle] using h) with rfl | hrest
        · exact Or.inl rfl
        · exact Or.inr (List.mem_cons_of_mem _ hrest)
      · rcases List.mem_cons.1 (by simpa [settle, hkey] using h) with rfl | hrest
        · exact Or.inr (by simp)
        · rcases ih hrest with hnew | hold
          · exact Or.inl hnew
          · exact Or.inr (List.mem_cons_of_mem _ hold)

/-- Values that are folded one after the other have distinct fold keys and stand
under their own. -/
structure IsFolded (folded : List (Likeness × Tree τ)) : Prop where
  nodup : (folded.map (·.1)).Nodup
  own : ∀ entry ∈ folded, entry.1 = likeness entry.2

theorem IsFolded.settle {folded : List (Likeness × Tree τ)} (h : IsFolded folded) (value : Tree τ) :
    IsFolded (settle (likeness value) value folded) := by
  constructor
  · rw [map_fst_settle]
    split
    · exact h.nodup
    · rename_i hnot
      rw [← List.concat_eq_append, List.nodup_concat]
      exact ⟨hnot, h.nodup⟩
  · intro entry hentry
    rcases mem_settle hentry with rfl | hold
    · rfl
    · exact h.own entry hold

theorem isFolded_lastOfEach (values : List (Tree τ)) : IsFolded (lastOfEach values) := by
  unfold lastOfEach
  suffices h : ∀ folded : List (Likeness × Tree τ), IsFolded folded →
      IsFolded (values.foldl (fun folded value => settle (likeness value) value folded) folded) from
    h [] ⟨List.nodup_nil, by simp⟩
  intro folded hfolded
  induction values generalizing folded with
  | nil => exact hfolded
  | cons value rest ih => exact ih _ (hfolded.settle value)

theorem mem_lastOfEach {values : List (Tree τ)} {entry : Likeness × Tree τ}
    (h : entry ∈ lastOfEach values) : entry.2 ∈ values := by
  unfold lastOfEach at h
  suffices hall : ∀ folded : List (Likeness × Tree τ),
      entry ∈ values.foldl (fun folded value => settle (likeness value) value folded) folded →
        entry.2 ∈ values ∨ entry ∈ folded by
    simpa using hall [] h
  clear h
  induction values with
  | nil => exact fun folded h => Or.inr h
  | cons value rest ih =>
      intro folded h
      rcases ih _ h with hrest | hsettle
      · exact Or.inl (List.mem_cons_of_mem _ hrest)
      · rcases mem_settle hsettle with rfl | hold
        · exact Or.inl (by simp)
        · exact Or.inr hold

/-- Folding what is folded already changes nothing. -/
theorem lastOfEach_of_isFolded {folded : List (Likeness × Tree τ)} (h : IsFolded folded) :
    lastOfEach (folded.map (·.2)) = folded := by
  suffices hall : ∀ rest before : List (Likeness × Tree τ), IsFolded (before ++ rest) →
      (rest.map (·.2)).foldl (fun folded value => settle (likeness value) value folded) before =
        before ++ rest from hall folded [] h
  intro rest
  induction rest with
  | nil => simp
  | cons entry rest ih =>
      intro before hboth
      have hown := hboth.own entry (by simp)
      have hnot : likeness entry.2 ∉ before.map (·.1) := by
        rw [← hown]
        have hnodup := hboth.nodup
        rw [List.map_append, List.map_cons, List.nodup_append] at hnodup
        exact fun hmem => hnodup.2.2 _ hmem _ (by simp) rfl
      rw [List.map_cons, List.foldl_cons, settle_of_not_mem _ hnot, ← hown]
      have hnext := ih (before ++ [entry]) (by simpa using hboth)
      simpa using hnext

theorem distinctValues_lastOfEach [Inhabited τ] (key : String) (values : List (Tree τ)) :
    DistinctValues key (.ofList ((lastOfEach values).map (·.2))) := by
  rintro - values' hvalues
  obtain rfl : (lastOfEach values).map (·.2) = values' := by
    simpa [Tree.ofList, Tree.items?] using hvalues
  rw [lastOfEach_of_isFolded (isFolded_lastOfEach values), List.length_map]

/-- Of fewer values there is less to compare. -/
theorem comparableValues_lastOfEach [Inhabited τ] {key : String} {tag : τ} {values : List (Tree τ)}
    (h : ComparableValues key (.list tag values)) :
    ComparableValues key (.ofList ((lastOfEach values).map (·.2))) := by
  intro hkey value hvalue
  obtain ⟨entry, hentry, rfl⟩ := List.mem_map.1 hvalue
  exact h hkey entry.2 (mem_lastOfEach hentry)

end ProtoShape.Rules
