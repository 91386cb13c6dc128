import Mathlib.Data.List.Induction
import ProtoShape.Proofs.Repairs
import ProtoShape.Reshape.CleanUp

/-!
# Enumerations without repetitions

`distinctEnum` keeps one value for each fold key.  `KeepsLast` says which values these are and in
which order they stand, and it leaves nothing open: the keys come in the order of their first
appearance, and each is represented by the last value that has it.

Two loops go over the values of an enumeration.  The rule folds them, and the checker looks for
those that repeat others.

* The rule.  `map_fst_lastOfEach` gives the keys that it keeps, and `findRev?_of_mem_lastOfEach`
  the value under each key.
* The checker.  `length_repeated_add_foldl` is the invariant that ties the two loops together:
  the checker has seen the keys that the rule has folded, and each value either makes the list
  longer by one or is reported.

The main result, `distinctEnum_keepsLast`, puts them together.
-/

namespace ProtoShape

open Rules Violation

variable {τ : Type}

/-- What is kept of the values of an enumeration: one value for each fold key, in the order of first
appearance, and of all values with that key the last one. -/
structure KeepsLast (values kept : List (Tree τ)) : Prop where
  distinct : (kept.map likeness).Nodup
  order : kept.map likeness = (values.map likeness).eraseDups
  last : ∀ value ∈ kept, values.findRev? (likeness · = likeness value) = some value

section Folding

variable {values : List (Tree τ)}

/-- One more element is one more first occurrence, if it has not occurred before. -/
theorem eraseDups_concat {α : Type} [DecidableEq α] (l : List α) (a : α) :
    (l ++ [a]).eraseDups = if a ∈ l then l.eraseDups else l.eraseDups ++ [a] := by
  have hnew : [a].removeAll l = if a ∈ l then [] else [a] := by
    by_cases h : a ∈ l <;> simp [List.removeAll, h]
  rw [List.eraseDups_append, hnew]
  split
  · rw [List.eraseDups_nil, List.append_nil]
  · rfl

theorem lastOfEach_concat (values : List (Tree τ)) (value : Tree τ) :
    lastOfEach (values ++ [value]) = settle (likeness value) value (lastOfEach values) := by
  unfold lastOfEach
  rw [List.foldl_append, List.foldl_cons, List.foldl_nil]

/-- The keys of the values that are kept are all keys, in the order of first appearance. -/
theorem map_fst_lastOfEach (values : List (Tree τ)) :
    (lastOfEach values).map (·.1) = (values.map likeness).eraseDups := by
  induction values using List.reverseRecOn with
  | nil => rfl
  | append_singleton values value ih =>
      have hseen : likeness value ∈ (lastOfEach values).map (·.1) ↔
          likeness value ∈ values.map likeness := by
        rw [ih, List.mem_eraseDups]
      rw [lastOfEach_concat, map_fst_settle, List.map_append, List.map_singleton, eraseDups_concat,
        ← ih]
      exact if_congr hseen rfl rfl

theorem mem_settle_self (key : Likeness) (value : Tree τ) (folded : List (Likeness × Tree τ)) :
    (key, value) ∈ settle key value folded := by
  induction folded with
  | nil => exact List.mem_singleton_self _
  | cons entry rest ih =>
      obtain ⟨other, old⟩ := entry
      rw [settle]
      split
      · rename_i hkey
        exact hkey ▸ List.mem_cons_self
      · exact List.mem_cons_of_mem _ ih

/-- The value that is kept under a key is the last one that has the key. -/
theorem findRev?_of_mem_lastOfEach {entry : Likeness × Tree τ} (h : entry ∈ lastOfEach values) :
    values.findRev? (likeness · = entry.1) = some entry.2 := by
  induction values using List.reverseRecOn with
  | nil => cases h
  | append_singleton values value ih =>
      have hnodup := (isFolded_lastOfEach (values ++ [value])).nodup
      rw [lastOfEach_concat] at h hnodup
      rw [List.findRev?_eq_find?_reverse, List.reverse_append, List.reverse_singleton,
        List.singleton_append, List.find?_cons]
      by_cases hkey : likeness value = entry.1
      · -- No other entry has the key of the value that comes last.
        have hlast := List.inj_on_of_nodup_map hnodup h (mem_settle_self _ _ _) hkey.symm
        rw [hlast]
        simp
      · have hold : entry ∈ lastOfEach values := by
          rcases mem_settle h with hnew | hold
          · exact absurd (congrArg Prod.fst hnew).symm hkey
          · exact hold
        rw [← ih hold, List.findRev?_eq_find?_reverse]
        simp [hkey]

/-- What the rule keeps of the values of an enumeration. -/
theorem keepsLast_lastOfEach (values : List (Tree τ)) :
    KeepsLast values ((lastOfEach values).map (·.2)) := by
  have hfolded := isFolded_lastOfEach values
  have hkeys : ((lastOfEach values).map (·.2)).map likeness = (lastOfEach values).map (·.1) := by
    rw [List.map_map]
    exact List.map_congr_left fun entry hentry => (hfolded.own entry hentry).symm
  refine ⟨hkeys ▸ hfolded.nodup, hkeys.trans (map_fst_lastOfEach values), fun value hvalue => ?_⟩
  obtain ⟨entry, hentry, rfl⟩ := List.mem_map.1 hvalue
  rw [← hfolded.own entry hentry]
  exact findRev?_of_mem_lastOfEach hentry

end Folding

/-! ## The checker beside the rule -/

/-- Where the checker has seen the keys that have been folded, each value is either reported or
makes the list longer. -/
theorem length_repeated_add_foldl (values : List (Tree τ)) {seen : List Likeness}
    {folded : List (Likeness × Tree τ)} (h : ∀ key, key ∈ seen ↔ key ∈ folded.map (·.1)) :
    (repeated seen values).length +
        (values.foldl (fun folded value => settle (likeness value) value folded) folded).length =
      values.length + folded.length := by
  induction values generalizing seen folded with
  | nil => simp [repeated]
  | cons value rest ih =>
      have hkeys := map_fst_settle (likeness value) value folded
      have hlength := length_settle (likeness value) value folded
      rw [repeated, List.foldl_cons, List.length_cons]
      split
      · rename_i hrepeats
        have hmem := (h _).1 (List.contains_iff_mem.1 hrepeats)
        rw [if_pos hmem] at hkeys hlength
        have hrest := ih fun key => (h key).trans (by rw [hkeys])
        rw [List.length_cons]
        omega
      · rename_i hfresh
        have hnot := mt (h (likeness value)).2 (mt List.contains_iff_mem.2 hfresh)
        rw [if_neg hnot] at hkeys hlength
        have hseen : ∀ key, key ∈ likeness value :: seen ↔
            key ∈ (settle (likeness value) value folded).map (·.1) := by
          intro key
          rw [hkeys, List.mem_cons, List.mem_append, List.mem_singleton, h key, or_comm]
        have hrest := ih hseen
        omega

/-- The checker reports as many values as the rule drops. -/
theorem length_repeated_add_lastOfEach (values : List (Tree τ)) :
    (repeated [] values).length + (lastOfEach values).length = values.length := by
  have hnone : ∀ key : Likeness, key ∈ [] ↔ key ∈ ([] : List (Likeness × Tree τ)).map (·.1) :=
    fun _ => Iff.rfl
  exact length_repeated_add_foldl values hnone

/-- The violations with the code of a repeated value are those of the enumeration. -/
theorem filter_violations_enum (fields : Fields τ) (location : Location) :
    (violations fields location).filter (·.code = "enum_case_duplicate") =
      ofEnum fields location := by
  have hnone : ∀ {found : List Violation}, (∀ v ∈ found, v.code ≠ "enum_case_duplicate") →
      found.filter (·.code = "enum_case_duplicate") = [] := fun h =>
    List.filter_eq_nil_iff.2 fun v hv => by simpa using h v hv
  have hadditional := hnone fun v (hv : v ∈ ofAdditional fields location) => by
    rcases code_of_mem_ofAdditional hv with hcode | hcode <;> rw [hcode] <;> decide
  have hcomposites := hnone fun v (hv : v ∈ ofComposites fields location) => by
    rw [code_of_mem_ofComposites hv]
    decide
  have hconst := hnone fun v (hv : v ∈ ofConstMembers fields location) => by
    rw [code_of_mem_ofConstMembers hv]
    decide
  have htype := hnone fun v (hv : v ∈ ofType fields location) => by
    rw [code_of_mem_ofType hv]
    decide
  have henum : (ofEnum fields location).filter (·.code = "enum_case_duplicate") =
      ofEnum fields location :=
    List.filter_eq_self.2 fun v hv => by simpa using code_of_mem_ofEnum hv
  unfold violations
  simp only [List.filter_append, hadditional, hcomposites, hconst, htype, henum, List.nil_append]

/-! ## Enumerations of values with texts as keys -/

section Enumeration

variable {fields : Fields τ} {tag : τ} {values : List (Tree τ)}

theorem length_ofEnum (hget : fields.get? "enum" = some (.list tag values)) (location : Location) :
    (ofEnum fields location).length = (repeated [] values).length := by
  rw [ofEnum, Fields.items?_eq_some_iff.2 ⟨tag, hget⟩, Option.getD_some, List.length_map]

variable [Inhabited τ]

/-- The rule declines where no value repeats another one. -/
theorem distinctEnum_isSome_iff (hget : fields.get? "enum" = some (.list tag values)) :
    (distinctEnum fields).isSome = true ↔ ¬(values.map likeness).Nodup := by
  simp only [distinctEnum, Fields.items?_eq_some_iff.2 ⟨tag, hget⟩]
  rw [← length_lastOfEach_iff]
  split
  · rename_i hlength
    simp [hlength]
  · rename_i hlength
    simp [hlength]

/-- Whether the rule applies or not, it leaves the last value for each fold key. -/
theorem items?_applyRule_distinctEnum (hget : fields.get? "enum" = some (.list tag values)) :
    Fields.items? (applyRule distinctEnum fields) "enum" =
      some ((lastOfEach values).map (·.2)) := by
  have hitems := Fields.items?_eq_some_iff.2 ⟨tag, hget⟩
  by_cases hnodup : (values.map likeness).Nodup
  · have hlength := length_lastOfEach_iff.2 hnodup
    have hsame : (lastOfEach values).map (·.2) = values := by
      rw [lastOfEach_of_nodup hnodup, List.map_map]
      exact List.map_id' values
    simp only [applyRule, distinctEnum, hitems, hlength, hsame, if_true, Option.getD_none]
  · have hlength := mt length_lastOfEach_iff.1 hnodup
    simp only [applyRule, distinctEnum, hitems, hlength, if_false, Option.getD_some]
    exact Fields.items?_eq_some_iff.2 ⟨default, Entries.get?_insert_self _ _ _⟩

/-- The rule leaves nothing to itself. -/
theorem distinctEnum_applyRule (hget : fields.get? "enum" = some (.list tag values)) :
    distinctEnum (applyRule distinctEnum fields) = none := by
  obtain ⟨tag', hget'⟩ := Fields.items?_eq_some_iff.1 (items?_applyRule_distinctEnum hget)
  rw [← Option.not_isSome_iff_eq_none, distinctEnum_isSome_iff hget', not_not]
  exact (keepsLast_lastOfEach values).distinct

end Enumeration

/-- What the rule makes of an enumeration: one value is left for each fold key.  The rule applies
exactly where two values have one fold key; else it keeps the list, and it declines on its own
result.  The checker reports as many repeated values as the rule drops. -/
structure Deduplicates [Inhabited τ] (fields : Fields τ) (location : Location)
    (values kept : List (Tree τ)) : Prop where
  comparable : enumFault? fields = none
  left : Fields.items? (applyRule distinctEnum fields) "enum" = some kept
  keepsLast : KeepsLast values kept
  applies : (distinctEnum fields).isSome = true ↔ ¬(values.map likeness).Nodup
  declines : distinctEnum fields = none → kept = values
  comparable_again : enumFault? (applyRule distinctEnum fields) = none
  declines_again : distinctEnum (applyRule distinctEnum fields) = none
  reported : ((violations fields location).filter (·.code = "enum_case_duplicate")).length +
    kept.length = values.length

/-- In an enumeration whose values have texts as keys, one value is left for each fold key, unless
a value holds an integer with too many digits.  Then the rule stops there, and so does the
checker. -/
theorem distinctEnum_keepsLast [Inhabited τ] {fields : Fields τ} {tag : τ} {values : List (Tree τ)}
    (hget : fields.get? "enum" = some (.list tag values))
    (hkeys : ∀ value ∈ values, value.HasTextKeys) (location : Location) :
    ((∃ value ∈ values, value.anyScalar Scalar.isTooLong = true) →
      enumFault? fields = some (.unwritable .tooManyDigits) ∧
        (violationFault? fields).isSome = true) ∧
    ((¬∃ value ∈ values, value.anyScalar Scalar.isTooLong = true) →
      ∃ kept, Deduplicates fields location values kept) := by
  have hitems := Fields.items?_eq_some_iff.2 ⟨tag, hget⟩
  have hfault := enumFault?_of_values hitems hkeys
  refine ⟨fun hlong => ?_, fun hshort => ?_⟩
  · rw [List.any_eq_true.2 hlong] at hfault
    refine ⟨hfault, ?_⟩
    rw [violationFault?, hfault]
    cases openMapFault? fields <;> rfl
  · have hleft := items?_applyRule_distinctEnum hget
    have hsub : ∀ value ∈ (lastOfEach values).map (·.2), value ∈ values := by
      intro value hvalue
      obtain ⟨entry, hentry, rfl⟩ := List.mem_map.1 hvalue
      exact mem_lastOfEach hentry
    have hfault' := enumFault?_of_values hleft fun value hvalue => hkeys value (hsub value hvalue)
    refine ⟨_, hfault.trans (digitsFault?_eq_none_iff.2 ?_), hleft, keepsLast_lastOfEach values,
      distinctEnum_isSome_iff hget, fun hdeclines => ?_,
      hfault'.trans (digitsFault?_eq_none_iff.2 ?_), distinctEnum_applyRule hget, ?_⟩
    · exact Bool.eq_false_iff.2 fun hlong => hshort (List.any_eq_true.1 hlong)
    · rw [applyRule, hdeclines, Option.getD_none, hitems] at hleft
      exact (Option.some.inj hleft).symm
    · rw [Bool.eq_false_iff]
      intro hlong
      obtain ⟨value, hvalue, hof⟩ := List.any_eq_true.1 hlong
      exact hshort ⟨value, hsub value hvalue, hof⟩
    · rw [filter_violations_enum, length_ofEnum hget, List.length_map,
        length_repeated_add_lastOfEach]

/-- A schema whose enumeration repeats texts in other letters, a number and a list. -/
def echoingEnum : Fields Unit := ⟨[("enum", .ofList [.ofText "AND", .ofInt 1, .ofText "Straße",
  .ofText "1", .ofText "and", .ofList [.ofInt 1], .ofText "STRASSE", .ofBool true,
  .ofList [.ofInt 1], .ofText "And"])]⟩

/-- Six of ten values are left: those that came last, in the places of those that came first. -/
example : (Fields.items? (applyRule distinctEnum echoingEnum) "enum").map (·.map Tree.shown) =
    some ["'And'", "1", "'STRASSE'", "'1'", "[1]", "True"] := by decide +kernel

end ProtoShape
