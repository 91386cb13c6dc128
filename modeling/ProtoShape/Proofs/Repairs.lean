import ProtoShape.Proofs.Rules.TextKeys
import ProtoShape.Proofs.Violations

/-!
# Violations and their repairs

Five rules of the first phase remove the shapes that violations report.  Checker and rules
look at the same keywords, and both go by one property of a value for each kind of violation,
so a schema has a violation exactly where one of the rules applies to it
(`irreparable_iff_noRepair`).

There is one exception.  A composite with a single member is a violation whatever this member
is, but only a mapping has entries that could take the place of the composite.  `Irreparable`
says that a violation is of this sort.
-/

namespace ProtoShape

open Rules Violation

variable {τ : Type}

/-- None of the rules that repair violations applies to a schema. -/
structure NoRepair [Inhabited τ] (sentinel : String) (fields : Fields τ) : Prop where
  constsToEnum : Rules.constsToEnum fields = none
  unwrapComposites : Rules.unwrapComposites fields = none
  closeOpenMap : Rules.closeOpenMap fields = none
  distinctEnum : Rules.distinctEnum fields = none
  renameNull : Rules.renameNull sentinel fields = none

/-- A violation that no rule repairs: a composite whose only member is no mapping. -/
inductive Irreparable (fields : Fields τ) (location : Location) (v : Violation) : Prop where
  | lone {key : String} {tag : τ} {member : Tree τ} : key ∈ combiningKeys →
      fields.get? key = some (.list tag [member]) → member.fields? = none →
      v = found (location.child key) "single_member_composite" s!"{key} has a single member." →
      Irreparable fields location v

section Codes

variable {fields : Fields τ} {location : Location} {v : Violation}

theorem Irreparable.code (h : Irreparable fields location v) :
    v.code = "single_member_composite" := by
  cases h with
  | lone _ _ _ hv => rw [hv]; rfl

/-! One code for each kind of violation, and two for the kind that `additionalProperties` cause. -/

theorem code_of_mem_ofAdditional (h : v ∈ ofAdditional fields location) :
    v.code = "additional_properties_true" ∨ v.code = "additional_properties_empty" := by
  unfold ofAdditional at h
  split at h
  · cases h
  · split at h
    · rw [List.mem_singleton.1 h]
      exact Or.inl rfl
    · split at h
      · rw [List.mem_singleton.1 h]
        exact Or.inr rfl
      · cases h

theorem code_of_mem_ofComposites (h : v ∈ ofComposites fields location) :
    v.code = "single_member_composite" := by
  obtain ⟨key, -, tag, member, -, rfl⟩ := mem_ofComposites_iff.1 h
  rfl

theorem code_of_mem_ofConstMembers (h : v ∈ ofConstMembers fields location) :
    v.code = "oneof_const" := by
  obtain ⟨⟨member, index⟩, -, hfound⟩ := List.mem_filterMap.1 h
  dsimp only at hfound
  split at hfound
  · rw [← Option.some.inj hfound]
    rfl
  · cases hfound

theorem code_of_mem_ofType (h : v ∈ ofType fields location) : v.code = "null_type" := by
  unfold ofType at h
  split at h
  · split at h
    · rw [List.mem_singleton.1 h]
      rfl
    · cases h
  · cases h

theorem code_of_mem_ofEnum (h : v ∈ ofEnum fields location) : v.code = "enum_case_duplicate" := by
  obtain ⟨value, -, rfl⟩ := List.mem_map.1 h
  rfl

/-- All violations but those of composites have other codes. -/
theorem code_ne_of_mem (h : v ∈ ofAdditional fields location ∨ v ∈ ofConstMembers fields location ∨
    v ∈ ofType fields location ∨ v ∈ ofEnum fields location) :
    v.code ≠ "single_member_composite" := by
  rcases h with hmem | hmem | hmem | hmem
  · rcases code_of_mem_ofAdditional hmem with hcode | hcode <;> rw [hcode] <;> decide
  · rw [code_of_mem_ofConstMembers hmem]
    decide
  · rw [code_of_mem_ofType hmem]
    decide
  · rw [code_of_mem_ofEnum hmem]
    decide

theorem mem_violations_iff : v ∈ violations fields location ↔
    v ∈ ofComposites fields location ∨ v ∈ ofAdditional fields location ∨
      v ∈ ofConstMembers fields location ∨ v ∈ ofType fields location ∨
      v ∈ ofEnum fields location := by
  unfold violations
  simp only [List.mem_append]
  tauto

end Codes

section Agreement

variable {fields : Fields τ}

/-- The checker meets the fault of the enumeration or none. -/
theorem violationFault?_eq (h : fields.TextKeys) : violationFault? fields = enumFault? fields := by
  rw [violationFault?, openMapFault?_eq_none h, Option.none_or]

/-- Where all violations are beyond repair, a composite with a single mapping would be one that
is not. -/
theorem noLoneMember_of_irreparable {location : Location}
    (h : ∀ v ∈ ofComposites fields location, Irreparable fields location v) :
    fields.Each NoLoneMember := by
  rintro key value hget hkey tag inner member rfl
  have hmem : found (location.child key) "single_member_composite" s!"{key} has a single member." ∈
      ofComposites fields location := mem_ofComposites_iff.2 ⟨key, hkey, tag, _, hget, rfl⟩
  cases h _ hmem with
  | @lone other _ _ hother hget' hmember hv =>
      have hwords : ∀ a ∈ combiningKeys, ∀ b ∈ combiningKeys,
          s!"{a} has a single member." = s!"{b} has a single member." → a = b := by decide
      obtain rfl := hwords key hkey other hother (congrArg Violation.message hv)
      rw [hget] at hget'
      cases hget'
      cases hmember

/-- The checker and the rules agree on every schema with texts as keys.  They stop at the same
fault, which is about a value of the enumeration that has an integer with too many digits.  Without
such a value neither stops, and all violations are composites whose only member is no mapping
exactly where no rule that repairs violations applies. -/
theorem irreparable_iff_noRepair [Inhabited τ] (h : fields.TextKeys) (sentinel : String)
    (location : Location) :
    (violationFault? fields = enumFault? fields ∧ openMapFault? fields = none ∧
      enumFault? fields = digitsFault? (((Fields.items? fields "enum").getD []).any
        (Tree.anyScalar Scalar.isTooLong))) ∧
    ((∀ v ∈ violations fields location, Irreparable fields location v) ↔
      NoRepair sentinel fields) := by
  refine ⟨⟨violationFault?_eq h, openMapFault?_eq_none h, enumFault?_eq h⟩, ?_⟩
  constructor
  · intro hall
    have hnone : ofAdditional fields location ++ ofConstMembers fields location ++
        ofType fields location ++ ofEnum fields location = [] := by
      refine List.eq_nil_iff_forall_not_mem.2 fun v hv => ?_
      simp only [List.mem_append, or_assoc] at hv
      exact code_ne_of_mem hv (hall v (mem_violations_iff.2 (Or.inr hv))).code
    simp only [List.append_eq_nil_iff] at hnone
    obtain ⟨⟨⟨hadditional, hconst⟩, htype⟩, henum⟩ := hnone
    have hlone : fields.Each NoLoneMember :=
      noLoneMember_of_irreparable fun v hv => hall v (mem_violations_iff.2 (Or.inl hv))
    exact ⟨constsToEnum_eq_none_iff.2 (ofConstMembers_eq_nil_iff.1 hconst),
      unwrapComposites_eq_none_iff.2 hlone,
      closeOpenMap_eq_none_iff.2 (ofAdditional_eq_nil_iff.1 hadditional),
      distinctEnum_eq_none_iff.2 (ofEnum_eq_nil_iff.1 henum),
      renameNull_eq_none_iff.2 (ofType_eq_nil_iff.1 htype)⟩
  · rintro ⟨hconst, hlone, hopen, hdistinct, hnull⟩ v hv
    rw [mem_violations_iff, ofAdditional_eq_nil_iff.2 (closeOpenMap_eq_none_iff.1 hopen),
      ofConstMembers_eq_nil_iff.2 (constsToEnum_eq_none_iff.1 hconst),
      ofType_eq_nil_iff.2 (renameNull_eq_none_iff.1 hnull),
      ofEnum_eq_nil_iff.2 (distinctEnum_eq_none_iff.1 hdistinct)] at hv
    simp only [List.not_mem_nil, or_false] at hv
    obtain ⟨key, hkey, tag, member, hget, rfl⟩ := mem_ofComposites_iff.1 hv
    refine .lone hkey hget ?_ rfl
    cases member with
    | map inner entries =>
        exact absurd rfl (unwrapComposites_eq_none_iff.1 hlone key _ hget hkey tag inner entries)
    | _ => rfl

end Agreement

/-- A schema whose `allOf` has one boolean member. -/
def loneBoolean : Fields Unit := ⟨[("allOf", .ofList [.ofBool true])]⟩

theorem noRepair_loneBoolean : NoRepair "NullValue" loneBoolean :=
  ⟨by decide +kernel, by decide +kernel, by decide +kernel, by decide +kernel, by decide +kernel⟩

/-- The boolean member is reported and stays: a schema may have a violation where no rule
applies. -/
theorem violations_loneBoolean :
    (violations loneBoolean .root).map (·.code) = ["single_member_composite"] ∧
      NoRepair "NullValue" loneBoolean :=
  ⟨by decide +kernel, noRepair_loneBoolean⟩

/-- The only violation of that schema is beyond repair. -/
theorem irreparable_iff_noRepair_loneBoolean : loneBoolean.TextKeys ∧
    violationFault? loneBoolean = none ∧
    ∀ v ∈ violations loneBoolean .root, Irreparable loneBoolean .root v := by
  have hkeys : loneBoolean.TextKeys := by
    rintro entry hentry
    obtain rfl := List.mem_singleton.1 hentry
    refine ⟨⟨"allOf", rfl⟩, hasTextKeys_list.2 fun item hitem => ?_⟩
    rw [List.mem_singleton.1 hitem]
    exact hasTextKeys_scalar _ _
  obtain ⟨⟨hfault, -, hdigits⟩, hagree⟩ := irreparable_iff_noRepair hkeys "NullValue" .root
  exact ⟨hkeys, hfault.trans hdigits, hagree.2 noRepair_loneBoolean⟩

end ProtoShape
