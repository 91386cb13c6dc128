import ProtoShape.Proofs.Tree
import ProtoShape.Rules.Inlining
import ProtoShape.Rules.Restatement

/-!
# What the rules that move members do

`MovesTitled` and `MergesMembers` say in one place what a schema looks like that
`titledToProperty` and `membersToProperties` change, and what they make of it;
`KeepsMember` says the same of `dropShorthand`, which keeps one member of a union of two.
All that is proved about the three rules goes through them.
-/

namespace ProtoShape.Rules

variable {τ : Type} {fields result : Fields τ}

theorem titled?_eq_some {t : Tree τ} {title : String} {additional : Fields τ}
    (h : titled? t = some (title, additional)) :
    (∃ tag, t = .map tag additional) ∧ Fields.isReference additional = false ∧
      Fields.text? additional "title" = some title := by
  cases t with
  | map tag inner =>
      simp only [titled?, Tree.fields?] at h
      split at h
      · simp at h
      · rename_i href
        split at h
        · rename_i found htext
          split at h
          · simp at h
          · obtain ⟨rfl, rfl⟩ := Prod.mk.inj (Option.some.inj h)
            exact ⟨⟨tag, rfl⟩, by simpa using href, htext⟩
        · simp at h
  | _ => simp [titled?, Tree.fields?] at h

/-- A member is an inline object with one property. -/
inductive OnlyProperty (key : Scalar) (value : Tree τ) : Tree τ → Prop where
  | only {tag inner properties} : Fields.isReference inner = false → mayBeObject inner = true →
      inner.get? "properties" = some (.map properties ⟨[(key, value)]⟩) →
      OnlyProperty key value (.map tag inner)

theorem onlyProperty_of_eq_some {member value : Tree τ} {key : Scalar}
    (h : onlyProperty? member = some (key, value)) : OnlyProperty key value member := by
  cases member with
  | map tag inner =>
      simp only [onlyProperty?, Tree.fields?] at h
      split at h
      · simp at h
      · rename_i hguard
        obtain ⟨href, hobject⟩ : Fields.isReference inner = false ∧ mayBeObject inner = true := by
          simpa using hguard
        split at h
        · rename_i property hproperties
          rw [Option.some.injEq] at h
          subst h
          obtain ⟨properties, hget, hof⟩ := Option.bind_eq_some_iff.1 hproperties
          cases properties with
          | map ptag entries =>
              simp only [Tree.fields?, Option.some.injEq] at hof
              subst hof
              exact .only href hobject hget
          | _ => simp [Tree.fields?] at hof
        · simp at h
  | _ => simp [onlyProperty?, Tree.fields?] at h

/-- The only properties of some members are put together with other properties. -/
inductive Merges : Fields τ → List (Tree τ) → Fields τ → Prop where
  | done {properties} : Merges properties [] properties
  | next {properties member rest merged key value} : OnlyProperty key value member →
      properties.contains key = false → Merges (properties.insert key value) rest merged →
      Merges properties (member :: rest) merged

theorem merges_of_eq_some {properties merged : Fields τ} {members : List (Tree τ)}
    (h : mergeProperties properties members = some merged) : Merges properties members merged := by
  induction members generalizing properties with
  | nil =>
      obtain rfl : properties = merged := by simpa [mergeProperties] using h
      exact .done
  | cons member rest ih =>
      rw [mergeProperties] at h
      split at h
      · simp at h
      · rename_i key value honly
        split at h
        · simp at h
        · rename_i hcontains
          exact .next (onlyProperty_of_eq_some honly) (by simpa using hcontains) (ih h)

/-- What has been put together comes from the properties or from a member. -/
theorem Merges.mem {properties merged : Fields τ} {members : List (Tree τ)}
    (h : Merges properties members merged) {key : Scalar} {value : Tree τ}
    (hmem : (key, value) ∈ merged.toList) : (key, value) ∈ properties.toList ∨
      ∃ member ∈ members, ∃ key, OnlyProperty key value member := by
  induction h with
  | done => exact Or.inl hmem
  | @next properties member rest merged only inner honly hfree _ ih =>
      rcases ih hmem with hold | ⟨other, hother, hrest⟩
      · rcases Entries.mem_put hold with hin | ⟨rfl, -⟩
        · exact Or.inl hin
        · exact Or.inr ⟨member, List.mem_cons_self, only, honly⟩
      · exact Or.inr ⟨other, List.mem_cons_of_mem _ hother, hrest⟩

variable [Inhabited τ]

/-- What a titled value type is as a property. -/
def movedSchema (additional : Fields τ) : Tree τ :=
  if (additional.erase "title").isEmpty then .ofEntries [("type", .ofText "object")]
  else .map default (additional.erase "title")

/-- The properties of a schema as a mapping, an empty one where the keyword is absent. -/
inductive PropertiesOf (fields : Fields τ) : τ → Fields τ → Prop where
  | present {tag properties} : fields.get? "properties" = some (.map tag properties) →
      PropertiesOf fields tag properties
  | absent : fields.get? "properties" = none → PropertiesOf fields default ∅

theorem PropertiesOf.erase {tag : τ} {properties : Fields τ}
    (h : PropertiesOf fields tag properties) {key : String} (hkey : key ≠ "properties") :
    PropertiesOf (fields.erase key) tag properties := by
  have hget : (fields.erase key).get? "properties" = fields.get? "properties" := by
    rw [Entries.get?_erase, if_neg]
    simpa using fun h => hkey h.symm
  cases h with
  | present hold => exact .present (hget.trans hold)
  | absent hold => exact .absent (hget.trans hold)

/-- A titled value type becomes a property. -/
inductive MovesTitled (fields : Fields τ) : Fields τ → Prop where
  | moved {inner tag additional properties title} :
      fields.get? "additionalProperties" = some (.map inner additional) →
      Fields.isReference additional = false →
      Fields.text? additional "title" = some title →
      isSingleMap fields = false →
      PropertiesOf fields tag properties →
      properties.contains title = false →
      MovesTitled fields ((fields.insert "properties"
        (.map tag (properties.insert title (movedSchema additional)))).eraseAll
        (mapKeywords.drop 1))

theorem movesTitled_of_eq_some (h : titledToProperty fields = some result) :
    MovesTitled fields result := by
  unfold titledToProperty at h
  split at h
  · simp at h
  · rename_i title additional htitled
    obtain ⟨value, hget, hof⟩ := Option.bind_eq_some_iff.1 htitled
    obtain ⟨⟨inner, rfl⟩, href, htext⟩ := titled?_eq_some hof
    split at h
    · rename_i hguard
      obtain ⟨-, hsingle⟩ : mayBeObject fields = true ∧ isSingleMap fields = false := by
        simpa using hguard
      split at h
      · rename_i tag properties hproperties
        split at h
        · simp at h
        · rename_i hcontains
          rw [Option.some.injEq] at h
          subst h
          refine .moved hget href htext hsingle ?_ (by simpa using hcontains)
          cases hold : fields.get? "properties" with
          | none =>
              rw [hold, Option.getD_none] at hproperties
              cases hproperties
              exact .absent hold
          | some value =>
              rw [hold, Option.getD_some] at hproperties
              subst hproperties
              exact .present hold
      · simp at h
    · simp at h

/-- The members of a union become properties of the schema. -/
inductive MergesMembers (fields : Fields τ) : Fields τ → Prop where
  | merged {tag inner members properties merged} :
      fields.get? "oneOf" = some (.list tag members) → members ≠ [] →
      PropertiesOf fields inner properties → Merges properties members merged →
      MergesMembers fields
      (((((fields.erase "oneOf").insert "properties" (.map default merged)).insert
        "minProperties" (.ofInt 1)).insert "maxProperties" (.ofInt 1)).erase
          "unevaluatedProperties")

theorem propertiesOf_of_existing {properties : Fields τ}
    (h : existingProperties? fields = some properties) :
    ∃ tag, PropertiesOf fields tag properties := by
  unfold existingProperties? at h
  split at h
  · rename_i hnone
    cases h
    exact ⟨default, .absent hnone⟩
  · rename_i value hget
    cases value with
    | map tag inner =>
        obtain rfl : inner = properties := by simpa [Tree.fields?] using h
        exact ⟨tag, .present hget⟩
    | _ => simp [Tree.fields?] at h

theorem mergesMembers_of_eq_some (h : membersToProperties fields = some result) :
    MergesMembers fields result := by
  unfold membersToProperties at h
  split at h
  · simp at h
  · simp at h
  · rename_i member rest hmembers
    split at h
    · simp at h
    · rename_i merged hmerged
      rw [Option.some.injEq] at h
      subst h
      obtain ⟨tag, hget⟩ := Fields.items?_eq_some_iff.1 hmembers
      obtain ⟨properties, hexisting, hmerges⟩ := Option.bind_eq_some_iff.1 hmerged
      obtain ⟨inner, hproperties⟩ := propertiesOf_of_existing hexisting
      exact .merged hget (by simp) hproperties (merges_of_eq_some hmerges)

/-! ## One member of two -/

omit [Inhabited τ]

/-- A union gives way to one of its members. -/
inductive KeepsMember (fields : Fields τ) (key : String) : Fields τ → Prop where
  | mapping {tag inner members member} : fields.get? key = some (.list tag members) →
      Tree.map inner member ∈ members →
      KeepsMember fields key ((fields.erase key).overlay member)
  | other : KeepsMember fields key (fields.erase key)

theorem keepsMember_of_mem {key : String} {members : List (Tree τ)} {member : Tree τ}
    (hitems : Fields.items? fields key = some members) (hmember : member ∈ members) :
    KeepsMember fields key (keepMember fields key member) := by
  obtain ⟨tag, hget⟩ := Fields.items?_eq_some_iff.1 hitems
  unfold keepMember
  cases member with
  | map inner entries => exact .mapping hget hmember
  | _ => exact .other

/-- Where the search for a shorthand ends well, it has found nothing, or one of the unions
gives way to a member. -/
theorem keepsMember_of_dropShorthandIn {document : Tree τ} {location : Location}
    {keys : List String} {found : Option (Fields τ)}
    (h : (dropShorthandIn document location fields keys).2 = .ok found) :
    found = none ∨ ∃ result, found = some result ∧ ∃ key ∈ keys, KeepsMember fields key result := by
  induction keys with
  | nil => exact Or.inl (Except.ok.inj h).symm
  | cons key rest ih =>
      have hkeep : ∀ {members member}, Fields.items? fields key = some members →
          member ∈ members → found = some (keepMember fields key member) →
          found = none ∨ ∃ result, found = some result ∧
            ∃ key' ∈ key :: rest, KeepsMember fields key' result := by
        intro members member hitems hmember hfound
        exact Or.inr ⟨_, hfound, key, List.mem_cons_self, keepsMember_of_mem hitems hmember⟩
      have hrest : (dropShorthandIn document location fields rest).2 = .ok found →
          found = none ∨ ∃ result, found = some result ∧
            ∃ key' ∈ key :: rest, KeepsMember fields key' result := by
        intro h
        refine (ih h).imp id ?_
        rintro ⟨result, hfound, other, hother, hkeeps⟩
        exact ⟨result, hfound, other, List.mem_cons_of_mem _ hother, hkeeps⟩
      unfold dropShorthandIn at h
      split at h
      · rename_i first second hitems
        simp only at h
        split at h
        · exact hkeep hitems (by simp) (Except.ok.inj h).symm
        · cases h
        · split at h
          · exact hkeep hitems (by simp) (Except.ok.inj h).symm
          · cases h
          · exact hrest h
      · exact hrest h

end ProtoShape.Rules
