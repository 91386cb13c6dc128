import ProtoShape.Proofs.Rules.Tidy
import ProtoShape.Violation

/-!
# Violations and tidy schemas

A schema without violations is tidy, whatever is permitted (`each_tidy_of_violations`).  The
converse holds up to what `TidyValue` allows for: a violation of a tidy schema is a composite
with a single member that is permitted, or an enumeration that repeats a value which is no
scalar (`mem_violations`).
-/

namespace ProtoShape

open Rules

variable {τ : Type}

namespace Violation

/-! ## Repeated values -/

/-- Nothing is repeated where no value is like another one or like what has been seen. -/
theorem repeated_eq_nil_iff {values : List (Tree τ)} {seen : List Likeness} :
    repeated seen values = [] ↔
      (values.map likeness).Nodup ∧ ∀ value ∈ values, likeness value ∉ seen := by
  induction values generalizing seen with
  | nil => simp [repeated]
  | cons value rest ih =>
      rw [repeated]
      split
      · rename_i hrepeats
        have hmem := List.contains_iff_mem.1 hrepeats
        exact iff_of_false (List.cons_ne_nil _ _) fun h => h.2 value List.mem_cons_self hmem
      · rename_i hfresh
        have hnot : likeness value ∉ seen := fun hmem => hfresh (List.contains_iff_mem.2 hmem)
        rw [ih, List.map_cons, List.nodup_cons, List.forall_mem_cons]
        simp only [List.mem_cons, not_or, List.mem_map, not_exists, not_and]
        constructor
        · rintro ⟨hnodup, hdisjoint⟩
          exact ⟨⟨fun other hother => (hdisjoint other hother).1, hnodup⟩, hnot,
            fun other hother => (hdisjoint other hother).2⟩
        · rintro ⟨⟨hne, hnodup⟩, -, hdisjoint⟩
          exact ⟨hnodup, fun other hother => ⟨hne other hother, hdisjoint other hother⟩⟩

theorem repeated_subset {values : List (Tree τ)} {seen : List Likeness} :
    repeated seen values ⊆ values := by
  induction values generalizing seen with
  | nil => exact List.Subset.refl _
  | cons value rest ih =>
      rw [repeated]
      split
      · exact List.cons_subset_cons value ih
      · exact List.subset_cons_of_subset value ih

/-- What is repeated is no scalar, where no scalar is like another one. -/
theorem scalar?_of_mem_repeated {earlier values : List (Tree τ)} {seen : List Likeness}
    {value : Tree τ} (hseen : ∀ key ∈ seen, ∃ other ∈ earlier, likeness other = key)
    (hdistinct : (scalarLikenesses (earlier ++ values)).Nodup) (h : value ∈ repeated seen values) :
    value.scalar? = none := by
  induction values generalizing earlier seen with
  | nil => cases h
  | cons head rest ih =>
      have hshift : earlier ++ head :: rest = (earlier ++ [head]) ++ rest := by simp
      have hlater : ∀ key ∈ seen, ∃ other ∈ earlier ++ [head], likeness other = key := by
        intro key hkey
        obtain ⟨other, hother, heq⟩ := hseen key hkey
        exact ⟨other, List.mem_append_left _ hother, heq⟩
      rw [repeated] at h
      split at h
      · rename_i hrepeats
        rcases List.mem_cons.1 h with rfl | hrest
        · obtain ⟨other, hother, heq⟩ := hseen _ (List.contains_iff_mem.1 hrepeats)
          cases value with
          | scalar tag s =>
              -- Then the earlier value is a scalar too, and like this one.
              have hscalar : other.scalar?.isSome = true := scalar?_of_likeness heq.symm rfl
              cases other with
              | scalar tag' s' =>
                  unfold scalarLikenesses at hdistinct
                  rw [List.filterMap_append, List.map_append] at hdistinct
                  have hdisjoint := List.disjoint_of_nodup_append hdistinct
                  rw [likeness_scalar tag', likeness_scalar tag] at heq
                  have hearlier := List.mem_map_of_mem (f := fun s => likeness (Tree.scalar () s))
                    (List.mem_filterMap.2 ⟨_, hother, rfl⟩ : s' ∈ earlier.filterMap Tree.scalar?)
                  rw [heq] at hearlier
                  exact absurd (List.mem_map_of_mem List.mem_cons_self) (hdisjoint hearlier)
              | _ => cases hscalar
          | _ => rfl
        · exact ih hlater (hshift ▸ hdistinct) hrest
      · refine ih (fun key hkey => ?_) (hshift ▸ hdistinct) h
        rcases List.mem_cons.1 hkey with rfl | hin
        · exact ⟨head, by simp, rfl⟩
        · exact hlater key hin

/-! ## Constants, types and maps -/

theorem carriesConst_iff {member : Tree τ} : carriesConst member = true ↔ const? member ≠ none := by
  unfold carriesConst const?
  cases member.fields? with
  | none => simp
  | some fields =>
      simp only
      split
      · rename_i href
        simp [href]
      · rename_i href
        simp [href, Entries.contains, Option.isSome_iff_ne_none]

theorem isNullType_iff {type : Tree τ} :
    isNullType type = true ↔ type.isText "null" = true ∨
    ∃ item ∈ type.items?.getD [], item.isText "null" = true := by
  cases type with
  | list tag types => simp [isNullType, Tree.items?, Tree.isText, Tree.text?]
  | _ => simp [isNullType, Tree.items?]

end Violation

open Violation

/-! ## One kind of violation at a time -/

section Kinds

variable {fields : Fields τ} {location : Location}

theorem ofAdditional_eq_nil_iff : ofAdditional fields location = [] ↔ fields.Each NotOpen := by
  unfold ofAdditional
  constructor
  · rintro h key value hget rfl
    simp only [hget] at h
    split at h
    · cases h
    · rename_i htrue
      split at h
      · cases h
      · rename_i hfree
        exact ⟨Bool.eq_false_iff.2 htrue, Bool.eq_false_iff.2 hfree⟩
  · intro h
    cases hget : fields.get? "additionalProperties" with
    | none => rfl
    | some value =>
        obtain ⟨htrue, hfree⟩ := h _ value hget rfl
        simp [htrue, hfree]

theorem ofConstMembers_eq_nil_iff : ofConstMembers fields location = [] ↔
    fields.Each NoConstMember := by
  constructor
  · rintro h key value hget rfl member hmember
    by_contra hconst
    obtain ⟨index, hindex⟩ := List.mem_iff_getElem?.1 hmember
    have hitems : (Fields.items? fields "oneOf").getD [] = value.items?.getD [] := by
      rw [Fields.items?, hget, Option.bind_some]
    have hall := List.filterMap_eq_nil_iff.1 h (member, index)
      (List.mem_zipIdx_iff_getElem?.2 (hitems ▸ hindex))
    simp [carriesConst_iff.2 hconst] at hall
  · intro h
    refine List.filterMap_eq_nil_iff.2 fun entry hmember => ?_
    obtain ⟨member, index⟩ := entry
    have hindex := List.mem_zipIdx_iff_getElem?.1 hmember
    cases hget : fields.get? "oneOf" with
    | none => simp [Fields.items?, hget] at hindex
    | some value =>
        rw [Fields.items?, hget, Option.bind_some] at hindex
        have hnone := h _ value hget rfl member (List.mem_of_getElem? hindex)
        have hcarries : carriesConst member = false := by
          rw [Bool.eq_false_iff]
          exact fun hconst => carriesConst_iff.1 hconst hnone
        simp [hcarries]

theorem ofType_eq_nil_iff : ofType fields location = [] ↔ fields.Each NotNull := by
  unfold ofType
  constructor
  · rintro h key value hget rfl
    simp only [hget] at h
    split at h
    · cases h
    · rename_i hnull
      rw [isNullType_iff, not_or] at hnull
      exact ⟨Bool.eq_false_iff.2 hnull.1, fun item hitem =>
        Bool.eq_false_iff.2 fun htext => hnull.2 ⟨item, hitem, htext⟩⟩
  · intro h
    cases hget : fields.get? "type" with
    | none => rfl
    | some value =>
        obtain ⟨htext, hitems⟩ := h _ value hget rfl
        have hnull : isNullType value = false := by
          rw [Bool.eq_false_iff]
          intro hnull
          rcases isNullType_iff.1 hnull with hself | ⟨item, hitem, hself⟩
          · simp [htext] at hself
          · simp [hitems item hitem] at hself
        simp [hnull]

theorem ofEnum_eq_nil_iff : ofEnum fields location = [] ↔ fields.Each DistinctValues := by
  unfold ofEnum
  rw [List.map_eq_nil_iff, repeated_eq_nil_iff]
  constructor
  · rintro ⟨hnodup, -⟩ key value hget rfl values hvalues
    rw [Fields.items?, hget, Option.bind_some, hvalues] at hnodup
    exact length_lastOfEach_iff.2 hnodup
  · intro h
    refine ⟨?_, fun _ _ => List.not_mem_nil⟩
    cases hvalues : Fields.items? fields "enum" with
    | none => exact List.nodup_nil
    | some values =>
        obtain ⟨tag, hget⟩ := Fields.items?_eq_some_iff.1 hvalues
        exact length_lastOfEach_iff.1 (h _ _ hget rfl values rfl)

/-- The violations of composites are those with a single member. -/
theorem mem_ofComposites_iff {v : Violation} :
    v ∈ ofComposites fields location ↔ ∃ key ∈ combiningKeys, ∃ tag member,
      fields.get? key = some (.list tag [member]) ∧
        v = found (location.child key) "single_member_composite"
          s!"{key} has a single member." := by
  unfold ofComposites
  rw [List.mem_filterMap]
  refine exists_congr fun key => and_congr_right fun _ => ?_
  constructor
  · intro h
    split at h
    · rename_i member hitems
      obtain ⟨tag, hget⟩ := Fields.items?_eq_some_iff.1 hitems
      exact ⟨tag, member, hget, (Option.some.inj h).symm⟩
    · cases h
  · rintro ⟨tag, member, hget, rfl⟩
    rw [Fields.items?_eq_some_iff.2 ⟨tag, hget⟩]

end Kinds

section Tidy

variable {fields : Fields Tag} {location : Location} {permits : Permit}

/-- A schema without violations is tidy, if an `allOf` without members may get one. -/
theorem each_tidy_of_violations (h : violations fields location = [])
    (hempty : ∀ tag, fields.get? "allOf" = some (.list tag []) → ∃ n, tag = some n ∧
      permits.lone "allOf" n true)
    (hlisted : ∀ tag items, fields.get? "enum" = some (.list tag items) → ∃ n, tag = some n ∧
      permits.enum n) :
    fields.Each (TidyValue permits) := by
  unfold violations at h
  simp only [List.append_eq_nil_iff] at h
  obtain ⟨⟨⟨⟨hadditional, hcomposites⟩, hconst⟩, htype⟩, henum⟩ := h
  intro key value hget
  refine ⟨ofConstMembers_eq_nil_iff.1 hconst key value hget, fun hkey tag member heq => ?_,
    fun hkey tag heq => ?_, fun hkey tag items heq => ?_,
    ofAdditional_eq_nil_iff.1 hadditional key value hget,
    ofType_eq_nil_iff.1 htype key value hget, fun hkey => ?_⟩
  · have hlone :
        found (location.child key) "single_member_composite" s!"{key} has a single member." ∈
        ofComposites fields location :=
          mem_ofComposites_iff.2 ⟨key, hkey, tag, member, heq ▸ hget, rfl⟩
    rw [hcomposites] at hlone
    cases hlone
  · subst hkey
    exact hempty tag (heq ▸ hget)
  · subst hkey
    exact hlisted tag items (heq ▸ hget)
  · subst hkey
    cases hvalues : value.items? with
    | none => exact List.nodup_nil
    | some values =>
        have hlength := ofEnum_eq_nil_iff.1 henum _ value hget rfl values hvalues
        exact (length_lastOfEach_iff.1 hlength).sublist (scalarLikenesses_sublist _)

/-! ## Violations of tidy schemas -/

/-- What a tidy schema may still be blamed for. -/
inductive Remains (permits : Permit) (fields : Fields Tag) (location : Location)
    (v : Violation) : Prop where
  | lone {key : String} {n : Nat} {member : Node} : key ∈ combiningKeys →
      fields.get? key = some (.list (some n) [member]) → permits.lone key n member.fields?.isSome →
      v = found (location.child key) "single_member_composite" s!"{key} has a single member." →
      Remains permits fields location v
  | repeated {values : List Node} {value : Node} : Fields.items? fields "enum" = some values →
      ¬(values.map likeness).Nodup → value ∈ values → value.scalar? = none →
      v = found (location.child "enum") "enum_case_duplicate"
        s!"enum repeats {value.shown} ignoring case." →
      Remains permits fields location v

theorem mem_ofComposites (h : fields.Each (TidyValue permits)) {v : Violation}
    (hv : v ∈ ofComposites fields location) : Remains permits fields location v := by
  obtain ⟨key, hkey, tag, member, hget, rfl⟩ := mem_ofComposites_iff.1 hv
  obtain ⟨n, rfl, hpermit⟩ := (h key _ hget).lone hkey tag member rfl
  exact .lone hkey hget hpermit rfl

theorem mem_ofEnum (h : fields.Each (TidyValue permits)) {v : Violation}
    (hv : v ∈ ofEnum fields location) :
    Remains permits fields location v := by
  obtain ⟨value, hvalue, rfl⟩ := List.mem_map.1 hv
  cases hitems : Fields.items? fields "enum" with
  | none => simp [hitems, repeated] at hvalue
  | some values =>
      rw [hitems, Option.getD_some] at hvalue
      obtain ⟨list, hget, hlist⟩ := Option.bind_eq_some_iff.1 hitems
      have hdistinct := (h _ list hget).distinct rfl
      rw [hlist, Option.getD_some] at hdistinct
      refine .repeated hitems (fun hnodup => ?_) (repeated_subset hvalue) ?_ rfl
      · rw [repeated_eq_nil_iff.2 ⟨hnodup, fun _ _ => List.not_mem_nil⟩] at hvalue
        cases hvalue
      exact scalar?_of_mem_repeated (by simp)
        (show (scalarLikenesses ([] ++ values)).Nodup from hdistinct) hvalue

/-- A tidy schema has no violations but those that it is allowed. -/
theorem mem_violations (h : fields.Each (TidyValue permits)) {v : Violation}
    (hv : v ∈ violations fields location) : Remains permits fields location v := by
  unfold violations at hv
  rw [ofAdditional_eq_nil_iff.2 fun key value hget => (h key value hget).notOpen,
    ofConstMembers_eq_nil_iff.2 fun key value hget => (h key value hget).noConst,
    ofType_eq_nil_iff.2 fun key value hget => (h key value hget).notNull, List.nil_append,
    List.append_nil, List.append_nil] at hv
  exact (List.mem_append.1 hv).elim (mem_ofComposites h) (mem_ofEnum h)

end Tidy

/-! ## Tags -/

section Tags

variable {σ : Type} (f : τ → σ)

theorem Tree.shownItems_eq (items : List (Tree τ)) :
    Tree.shownItems items = items.map Tree.shown := by
  induction items with
  | nil => rfl
  | cons item rest ih => rw [Tree.shownItems, ih, List.map_cons]

theorem Tree.shownEntries_eq (entries : List (Scalar × Tree τ)) :
    Tree.shownEntries entries = entries.map fun entry =>
      entry.1.shown ++ ": " ++ entry.2.shown := by
  induction entries with
  | nil => rfl
  | cons entry rest ih => rw [Tree.shownEntries, ih, List.map_cons]

@[simp] theorem Tree.shown_mapTags (t : Tree τ) : (t.mapTags f).shown = t.shown := by
  induction t using Tree.induction with
  | scalar tag s => simp [Tree.shown]
  | list tag items ih =>
      rw [Tree.mapTags_list, Tree.shown, Tree.shown, Tree.shownItems_eq, Tree.shownItems_eq,
        List.map_map]
      exact congrArg (fun texts => "[" ++ ", ".intercalate texts ++ "]") (List.map_congr_left ih)
  | map tag fields ih =>
      obtain ⟨entries⟩ := fields
      rw [Tree.mapTags_map, Fields.mapTags, Entries.mapValues, Tree.shown, Tree.shown,
        Tree.shownEntries_eq, Tree.shownEntries_eq, List.map_map]
      refine congrArg (fun texts => "\x7b" ++ ", ".intercalate texts ++ "\x7d")
        (List.map_congr_left fun entry hentry => ?_)
      exact congrArg (entry.1.shown ++ ": " ++ ·) (ih entry hentry)

theorem repeated_mapTags (seen : List Likeness) (values : List (Tree τ)) :
    repeated seen (values.map (Tree.mapTags f)) = (repeated seen values).map (Tree.mapTags f) := by
  induction values generalizing seen with
  | nil => rfl
  | cons value rest ih =>
      rw [List.map_cons, repeated, repeated, likeness_mapTags]
      split
      · rw [ih, List.map_cons]
      · exact ih _

theorem violations_mapTags (fields : Fields τ) (location : Location) :
    violations (Fields.mapTags f fields) location = violations fields location := by
  have hadditional : ofAdditional (Fields.mapTags f fields) location =
      ofAdditional fields location := by
    unfold ofAdditional
    cases hget : fields.get? "additionalProperties" <;> simp [hget]
  have hcomposites : ofComposites (Fields.mapTags f fields) location =
      ofComposites fields location := by
    refine List.filterMap_congr fun key _ => ?_
    rw [Fields.items?_mapTags]
    match Fields.items? fields key with
    | none => rfl
    | some [] => rfl
    | some [_] => rfl
    | some (_ :: _ :: _) => rfl
  have hcarries : ∀ member : Tree τ, carriesConst (member.mapTags f) = carriesConst member := by
    intro member
    cases member <;> simp [carriesConst, Tree.fields?]
  have hconst : ofConstMembers (Fields.mapTags f fields) location =
      ofConstMembers fields location := by
    unfold ofConstMembers
    rw [Fields.items?_mapTags]
    cases Fields.items? fields "oneOf" with
    | none => rfl
    | some items => simp [List.zipIdx_map, List.filterMap_map, hcarries]
  have hnull : ∀ type : Tree τ, isNullType (type.mapTags f) = isNullType type := by
    intro type
    cases type with
    | list tag types => simp [isNullType, Function.comp_def]
    | _ => exact Tree.isText_mapTags f "null" _
  have htype : ofType (Fields.mapTags f fields) location = ofType fields location := by
    unfold ofType
    cases hget : fields.get? "type" <;> simp [hget, hnull]
  have henum : ofEnum (Fields.mapTags f fields) location = ofEnum fields location := by
    unfold ofEnum
    rw [Fields.items?_mapTags]
    cases Fields.items? fields "enum" with
    | none => rfl
    | some values => simp [repeated_mapTags, Function.comp_def]
  unfold violations
  rw [hadditional, hcomposites, hconst, htype, henum]

theorem documentViolations_mapTags (t : Tree τ) :
    documentViolations (t.mapTags f) = documentViolations t := by
  unfold documentViolations Tree.documentVisits
  rw [Tree.visits_mapTags, List.flatMap_map]
  exact List.flatMap_congr fun visit _ => violations_mapTags f visit.fields visit.location

/-- Trees with the same value have the same violations. -/
theorem documentViolations_congr {t : Tree τ} {u : Tree σ} (h : t.erase = u.erase) :
    documentViolations t = documentViolations u := by
  rw [← documentViolations_mapTags (fun _ => ()) t, ← documentViolations_mapTags (fun _ => ()) u]
  exact congrArg documentViolations h

end Tags

end ProtoShape
