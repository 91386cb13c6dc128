import ProtoShape.Proofs.Rules.Inlining

/-!
# Unions that become one object

`membersToProperties` takes a union of objects with one property each and makes one object of it.
It does so as a whole or not at all: one loop goes over the members, checks each of them and
collects the properties, and the schema is changed only when the loop has come to its end.

* A member.  `Offers` says without the rule what a member has to look like
  (`onlyProperty?_eq_some_iff`).
* The loop.  `Addable` says that entries can be added to others without replacing any.  Adding the
  first one leaves the same condition for the rest (`addable_cons`), so the loop comes to its end
  exactly where all entries are addable, and then it has appended them
  (`mergeProperties_eq_some_iff`).
* The rule.  `ExclusiveUnion` is the condition on the schema, and `membersToProperties_mergesUnion`
  the main result.
-/

namespace ProtoShape.Rules

variable {τ : Type} {fields : Fields τ} {members : List (Tree τ)}
  {existing parts : List (Scalar × Tree τ)} {part : Scalar × Tree τ}

/-! ## Members -/

/-- A member of a union offers a property: it is a mapping and no reference, its type is `object` or
absent, and this is its only property. -/
def Offers (member : Tree τ) (part : Scalar × Tree τ) : Prop :=
  ∃ tag fields inner, member = .map tag fields ∧ Fields.isReference fields = false ∧
    (∀ type, fields.get? "type" = some type → type.isText "object" = true) ∧
    fields.get? "properties" = some (.map inner ⟨[part]⟩)

theorem mayBeObject_iff : mayBeObject fields = true ↔
    ∀ type, fields.get? "type" = some type → type.isText "object" = true := by
  unfold mayBeObject
  cases fields.get? "type" <;> simp

theorem onlyProperty?_eq_some_iff {member : Tree τ} : onlyProperty? member = some part ↔
    Offers member part := by
  constructor
  · intro h
    cases onlyProperty_of_eq_some h with
    | only href hobject hget => exact ⟨_, _, _, rfl, href, mayBeObject_iff.1 hobject, hget⟩
  · intro h
    obtain ⟨tag, inner, ptag, rfl, href, htype, hget⟩ := h
    have hproperties := Fields.map?_eq_some_iff.2 ⟨ptag, hget⟩
    have hguard : (Fields.isReference inner || !mayBeObject inner) = false := by
      rw [href, mayBeObject_iff.2 htype]
      rfl
    simp only [onlyProperty?, Tree.fields?, hguard, hproperties, Bool.false_eq_true, if_false]

/-! ## The loop over the members -/

/-- Entries can be added to others: no two of them have one key, and none has a key that
is taken. -/
structure Addable (existing parts : List (Scalar × Tree τ)) : Prop where
  distinct : (parts.map (·.1.key)).Nodup
  fresh : ∀ part ∈ parts, ∀ entry ∈ existing, entry.1.key ≠ part.1.key

/-- Entries can be added one after the other. -/
theorem addable_cons : Addable existing (part :: parts) ↔
    (∀ entry ∈ existing, entry.1.key ≠ part.1.key) ∧ Addable (existing ++ [part]) parts := by
  constructor
  · intro h
    obtain ⟨hdistinct, hfresh⟩ := h
    rw [List.map_cons, List.nodup_cons] at hdistinct
    refine ⟨hfresh part List.mem_cons_self, hdistinct.2, fun other hother entry hentry => ?_⟩
    rcases List.mem_append.1 hentry with hold | hnew
    · exact hfresh other (List.mem_cons_of_mem _ hother) entry hold
    · rw [List.mem_singleton.1 hnew]
      exact fun heq => hdistinct.1 (List.mem_map.2 ⟨other, hother, heq.symm⟩)
  · intro h
    obtain ⟨hhead, hdistinct, hfresh⟩ := h
    constructor
    · rw [List.map_cons, List.nodup_cons]
      refine ⟨fun hmem => ?_, hdistinct⟩
      obtain ⟨other, hother, heq⟩ := List.mem_map.1 hmem
      exact hfresh other hother part (by simp) heq.symm
    · intro other hother entry hentry
      rcases List.mem_cons.1 hother with rfl | hrest
      · exact hhead entry hentry
      · exact hfresh other hrest entry (List.mem_append_left _ hentry)

theorem addable_nil : Addable existing [] := ⟨List.nodup_nil, nofun⟩

theorem contains_eq_false_iff {key : Scalar} :
    Entries.contains (⟨existing⟩ : Fields τ) key = false ↔
    ∀ entry ∈ existing, entry.1.key ≠ key.key := by
  rw [Entries.contains, Entries.get?, Option.isSome_eq_false_iff, Option.isNone_iff_eq_none,
    Entries.lookup_eq_none_iff]

/-- A free key comes last. -/
theorem insert_of_fresh {key : Scalar} {value : Tree τ}
    (h : ∀ entry ∈ existing, entry.1.key ≠ key.key) :
    Entries.insert ⟨existing⟩ key value = ⟨existing ++ [(key, value)]⟩ :=
  congrArg Entries.mk (Entries.put_of_lookup (Entries.lookup_eq_none_iff.2 h) value)

/-- The loop comes to its end exactly where each member offers a property and all of these can be
added.  Then it has appended them in their order. -/
theorem mergeProperties_eq_some_iff {merged : Fields τ} :
    mergeProperties ⟨existing⟩ members = some merged ↔
      ∃ parts, List.Forall₂ Offers members parts ∧ Addable existing parts ∧
      merged = ⟨existing ++ parts⟩ := by
  induction members generalizing existing with
  | nil =>
      rw [mergeProperties, Option.some.injEq]
      constructor
      · intro h
        exact ⟨[], .nil, addable_nil, by rw [List.append_nil, h]⟩
      · rintro ⟨parts, hoffers, -, rfl⟩
        cases hoffers
        rw [List.append_nil]
  | cons member rest ih =>
      rw [mergeProperties]
      constructor
      · intro h
        split at h
        · cases h
        · rename_i key value honly
          split at h
          · cases h
          · rename_i htaken
            have hfresh := contains_eq_false_iff.1 (Bool.eq_false_iff.2 htaken)
            rw [insert_of_fresh hfresh] at h
            obtain ⟨parts, hoffers, haddable, rfl⟩ := ih.1 h
            refine ⟨(key, value) :: parts, .cons (onlyProperty?_eq_some_iff.1 honly) hoffers,
              addable_cons.2 ⟨hfresh, haddable⟩, ?_⟩
            rw [List.append_assoc, List.singleton_append]
      · rintro ⟨parts, hoffers, haddable, rfl⟩
        cases hoffers with
        | @cons _ part _ parts hfirst hrest =>
            obtain ⟨hfresh, haddable⟩ := addable_cons.1 haddable
            rw [onlyProperty?_eq_some_iff.2 hfirst]
            simp only [contains_eq_false_iff.2 hfresh, Bool.false_eq_true, if_false]
            rw [insert_of_fresh hfresh]
            exact ih.2 ⟨parts, hrest, haddable, by rw [List.append_assoc, List.singleton_append]⟩

/-! ## The rule -/

variable [Inhabited τ]

/-- A schema with a union of objects that offer one property each, where these can be added to the
properties that the schema has already. -/
structure ExclusiveUnion (fields : Fields τ) (members : List (Tree τ))
    (existing parts : List (Scalar × Tree τ)) : Prop where
  union : ∃ tag, fields.get? "oneOf" = some (.list tag members)
  nonempty : members ≠ []
  properties : ∃ tag, PropertiesOf fields tag ⟨existing⟩
  offers : List.Forall₂ Offers members parts
  addable : Addable existing parts

/-- The keywords that the rule writes or takes away. -/
def mergedKeywords : List String :=
  ["oneOf", "properties", "minProperties", "maxProperties", "unevaluatedProperties"]

/-- The schema with the merged properties in place of its union. -/
def withMerged (fields merged : Fields τ) : Fields τ :=
  ((((fields.erase "oneOf").insert "properties" (.map default merged)).insert "minProperties"
    (.ofInt 1)).insert
    "maxProperties" (.ofInt 1)).erase "unevaluatedProperties"

theorem existingProperties?_eq_some_iff : existingProperties? fields = some ⟨existing⟩ ↔
    ∃ tag, PropertiesOf fields tag ⟨existing⟩ := by
  constructor
  · exact propertiesOf_of_existing
  · intro h
    obtain ⟨tag, hproperties⟩ := h
    unfold existingProperties?
    generalize hentries : (⟨existing⟩ : Fields τ) = properties at hproperties
    cases hproperties with
    | present hget =>
        rw [hget]
        rfl
    | absent hget => rw [hget]

/-- The rule applies exactly to a schema with such a union. -/
theorem membersToProperties_eq_some_iff {result : Fields τ} :
    membersToProperties fields = some result ↔ ∃ members existing parts,
      ExclusiveUnion fields members existing parts ∧
      result = withMerged fields ⟨existing ++ parts⟩ := by
  constructor
  · intro h
    unfold membersToProperties at h
    split at h
    · cases h
    · cases h
    · rename_i member rest hitems
      split at h
      · cases h
      · rename_i merged hmerged
        obtain ⟨⟨existing⟩, hexisting, hmerges⟩ := Option.bind_eq_some_iff.1 hmerged
        obtain ⟨parts, hoffers, haddable, rfl⟩ := mergeProperties_eq_some_iff.1 hmerges
        exact ⟨member :: rest, existing, parts,
          ⟨Fields.items?_eq_some_iff.1 hitems, List.cons_ne_nil _ _,
          existingProperties?_eq_some_iff.1 hexisting, hoffers, haddable⟩, (Option.some.inj h).symm⟩
  · rintro ⟨members, existing, parts, ⟨hunion, hnonempty, hproperties, hoffers, haddable⟩, rfl⟩
    have hitems := Fields.items?_eq_some_iff.2 hunion
    have hexisting := existingProperties?_eq_some_iff.2 hproperties
    have hmerges := mergeProperties_eq_some_iff.2 ⟨parts, hoffers, haddable, rfl⟩
    obtain ⟨member, rest, rfl⟩ := List.exists_cons_of_ne_nil hnonempty
    simp only [membersToProperties, hitems, hexisting, Option.bind_some, hmerges]
    rfl

theorem get?_withMerged_of_ne {merged : Fields τ} {key : Scalar}
    (h : ∀ keyword ∈ mergedKeywords, key.key ≠ (Scalar.text keyword).key) :
    (withMerged fields merged).get? key = fields.get? key := by
  unfold mergedKeywords at h
  rw [List.forall_mem_cons, List.forall_mem_cons, List.forall_mem_cons, List.forall_mem_cons,
    List.forall_mem_singleton] at h
  obtain ⟨hunion, hproperties, hmin, hmax, hunevaluated⟩ := h
  rw [withMerged, Entries.get?_erase, if_neg hunevaluated, Entries.get?_insert_of_ne _ _ hmax,
    Entries.get?_insert_of_ne _ _ hmin, Entries.get?_insert_of_ne _ _ hproperties,
    Entries.get?_erase, if_neg hunion]

/-- The rule applies exactly to a schema with such a union, and then to the whole of it.  The merged
properties are the existing ones with those of the members behind them, as many as there
are of both. The union and `unevaluatedProperties` are gone, exactly one property may be given, and
the schema is otherwise as it was. -/
theorem membersToProperties_mergesUnion (fields : Fields τ) :
    ((membersToProperties fields).isSome = true ↔
      ∃ members existing parts, ExclusiveUnion fields members existing parts) ∧
    ∀ members existing parts, ExclusiveUnion fields members existing parts →
      ∃ result, membersToProperties fields = some result ∧
        result.get? "properties" = some (.map default ⟨existing ++ parts⟩) ∧
        (existing ++ parts).length = existing.length + members.length ∧
        result.get? "oneOf" = none ∧ result.get? "unevaluatedProperties" = none ∧
        result.get? "minProperties" = some (.ofInt 1) ∧
        result.get? "maxProperties" = some (.ofInt 1) ∧
        ∀ key : Scalar, (∀ keyword ∈ mergedKeywords, key.key ≠ (Scalar.text keyword).key) →
          result.get? key = fields.get? key := by
  constructor
  · rw [Option.isSome_iff_exists]
    constructor
    · intro h
      obtain ⟨result, happlies⟩ := h
      obtain ⟨members, existing, parts, hunion, -⟩ := membersToProperties_eq_some_iff.1 happlies
      exact ⟨members, existing, parts, hunion⟩
    · intro h
      obtain ⟨members, existing, parts, hunion⟩ := h
      exact ⟨_, membersToProperties_eq_some_iff.2 ⟨members, existing, parts, hunion, rfl⟩⟩
  · intro members existing parts hunion
    refine ⟨withMerged fields ⟨existing ++ parts⟩,
      membersToProperties_eq_some_iff.2 ⟨members, existing, parts, hunion, rfl⟩, ?_,
      ?_, ?_, ?_, ?_, ?_, fun key hkey => get?_withMerged_of_ne hkey⟩
    case refine_2 => rw [List.length_append, hunion.offers.length_eq]
    all_goals simp [withMerged, Entries.get?_erase, Entries.get?_insert]

/-- A search by words or by one identifier, and a note on it. -/
def wordsOrIdentifier : Fields Unit := ⟨[
  ("oneOf", .ofList [
    .ofEntries [("type", .ofText "object"),
      ("properties", .ofEntries [("words", .ofEntries [("type", .ofText "string")])])],
    .ofEntries [("properties", .ofEntries [("id", .ofEntries [("type", .ofText "integer")])])]]),
  ("properties", .ofEntries [("all", .ofEntries [("type", .ofText "boolean")])]),
  ("unevaluatedProperties", .ofBool false),
  ("description", .ofText "one way to search")]⟩

/-- The words and the identifier are merged behind the property that is there. -/
theorem membersToProperties_mergesUnion_wordsOrIdentifier :
    ∃ members existing parts, ExclusiveUnion wordsOrIdentifier members existing parts ∧
      (existing ++ parts).map (·.1) = [.text "all", .text "words", .text "id"] ∧
      (membersToProperties wordsOrIdentifier).isSome = true ∧
      ∃ result, membersToProperties wordsOrIdentifier = some result ∧
        result.get? "properties" = some (.map () ⟨existing ++ parts⟩) ∧
        result.get? "description" = wordsOrIdentifier.get? "description" := by
  have hunion : ExclusiveUnion wordsOrIdentifier
      [.ofEntries [("type", .ofText "object"),
        ("properties", .ofEntries [("words", .ofEntries [("type", .ofText "string")])])],
       .ofEntries [("properties", .ofEntries [("id", .ofEntries [("type", .ofText "integer")])])]]
      [("all", .ofEntries [("type", .ofText "boolean")])]
      [("words", .ofEntries [("type", .ofText "string")]),
        ("id", .ofEntries [("type", .ofText "integer")])] := by
    refine ⟨⟨(), rfl⟩, List.cons_ne_nil _ _, ⟨(), .present rfl⟩, .cons ?_ (.cons ?_ .nil),
      by decide, by decide⟩
    · exact ⟨(), _, (), rfl, rfl, mayBeObject_iff.1 rfl, rfl⟩
    · exact ⟨(), _, (), rfl, rfl, mayBeObject_iff.1 rfl, rfl⟩
  obtain ⟨happlies, hmerges⟩ := membersToProperties_mergesUnion wordsOrIdentifier
  obtain ⟨result, hresult, hproperties, -, -, -, -, -, hother⟩ := hmerges _ _ _ hunion
  exact ⟨_, _, _, hunion, rfl, happlies.2 ⟨_, _, _, hunion⟩, result, hresult, hproperties,
    hother "description" (by decide)⟩

end ProtoShape.Rules
