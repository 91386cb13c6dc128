import ProtoShape.Proofs.Reshape.Recording
import ProtoShape.Proofs.Rules.NormalForm
import ProtoShape.Proofs.Rules.TextKeys

/-!
# The first phase reaches the normal form

`cleanUp` leaves every inline schema of a JSON document in normal form.

The argument has three layers.

* `SoundValue` is what the clean-ups need of each value of a schema, and
  `Passed done` says which of them have been applied: the predicates in `done`
  hold of every value.  Every clean-up keeps the predicates of those before it and
  adds its own.
* A member that gives way to its schema brings its own entries along.  If it is a
  reference then the schema becomes one, and what its entries hold is not looked at
  any more.  Otherwise it has been cleaned up already, so its entries satisfy every
  predicate.  `Passed.merge` is this case split.
* `cleanUp_cleaned` is the induction over the document.  A schema comes after the
  schemas below it.
-/

namespace ProtoShape

open Tree Rules

variable {τ : Type}

/-- The fault of an integer with too many digits, which there is only if `long` is true. -/
def StopsAtDigits (long : Prop) (fault : Fault) : Prop :=
  fault = .unwritable .tooManyDigits ∧ long

/-- What holds of a schema where a rule declines, and of the result where it does
not, holds of what it leaves behind. -/
theorem applyRule_induction {rule : Fields τ → Option (Fields τ)} {fields : Fields τ}
    {p : Fields τ → Prop} (hnone : rule fields = none → p fields)
    (hsome : ∀ result, rule fields = some result → p result) : p (applyRule rule fields) := by
  unfold applyRule
  cases hrule : rule fields with
  | none => exact hnone hrule
  | some result => exact hsome result hrule

/-! ## Sound values -/

/-- A JSON value without members that carry a `$ref` that is no text.  `long` is true if there is
an integer with too many digits in it. -/
structure Tree.IsSound (long : Prop) (t : Tree τ) : Prop where
  json : t.IsJson
  plain : t.HasPlainMembers
  digits : t.anyScalar Scalar.isTooLong = true → long

/-- What the clean-ups need of the value of a keyword. -/
structure SoundValue (long : Prop) (key : String) (value : Tree τ) : Prop where
  sound : value.IsSound long
  members : key ∈ combiningKeys → ∀ member ∈ value.items?.getD [], member.hasPlainRef = true

variable {long : Prop}

theorem isSound_ofText [Inhabited τ] (s : String) : (Tree.ofText s : Tree τ).IsSound long :=
  ⟨everywhere_scalar default (.text s), everywhere_scalar default (.text s), fun h => nomatch h⟩

theorem isSound_list_iff {tag : τ} {items : List (Tree τ)} :
    (Tree.list tag items).IsSound long ↔ ∀ item ∈ items, item.IsSound long := by
  constructor
  · rintro ⟨hjson, hplain, hdigits⟩ item hitem
    refine ⟨(everywhere_list tag items).1 hjson item hitem,
      (everywhere_list tag items).1 hplain item hitem, fun hlong => hdigits ?_⟩
    rw [anyScalar_list]
    exact List.any_eq_true.2 ⟨item, hitem, hlong⟩
  · intro h
    refine ⟨(everywhere_list tag items).2 fun item hitem => (h item hitem).json,
      (everywhere_list tag items).2 fun item hitem => (h item hitem).plain, fun hlong => ?_⟩
    rw [anyScalar_list] at hlong
    obtain ⟨item, hitem, hlong⟩ := List.any_eq_true.1 hlong
    exact (h item hitem).digits hlong

theorem plainMembers_iff_each {fields : Fields τ} :
    PlainMembers fields ↔ fields.Each fun key value =>
      key ∈ combiningKeys → ∀ member ∈ value.items?.getD [], member.hasPlainRef = true := by
  constructor
  · intro h key value hget hkey
    have hmembers := h key hkey
    rwa [Fields.items?, hget, Option.bind_some] at hmembers
  · intro h key hkey
    rw [Fields.items?]
    cases hget : fields.get? key with
    | none => simp
    | some value => exact h key value hget hkey

theorem isSound_map_iff {tag : τ} {fields : Fields τ} :
    (Tree.map tag fields).IsSound long ↔ fields.IsObject ∧ fields.Each (SoundValue long) := by
  constructor
  · rintro ⟨hjson, hplain, hdigits⟩
    have hobject := ((everywhere_map tag fields).1 hjson).1
    obtain ⟨hmembers, hbelow⟩ := (everywhere_object hobject).1 hplain
    refine ⟨hobject, fun key value hget => ⟨⟨?_, hbelow key value hget, fun hlong => ?_⟩, ?_⟩⟩
    · exact ((everywhere_object hobject).1 hjson).2 key value hget
    · exact hdigits (Fields.HasLong.of_get? hget hlong).anyScalar
    · exact plainMembers_iff_each.1 hmembers key value hget
  · rintro ⟨hobject, heach⟩
    refine ⟨(everywhere_object hobject).2 ⟨hobject, fun key value hget =>
        (heach key value hget).sound.json⟩,
      (everywhere_object hobject).2
        ⟨plainMembers_iff_each.2 fun key value hget => (heach key value hget).members,
          fun key value hget => (heach key value hget).sound.plain⟩, fun hlong => ?_⟩
    rw [anyScalar_map] at hlong
    obtain ⟨⟨key, value⟩, hentry, hlong⟩ := List.any_eq_true.1 hlong
    obtain ⟨s, rfl, hget⟩ := hobject.mem_iff.1 hentry
    exact (heach s value hget).sound.digits hlong

theorem textKeys_of_sound {fields : Fields τ} (hobject : fields.IsObject)
    (h : fields.Each (SoundValue long)) : fields.TextKeys := by
  rintro ⟨key, value⟩ hentry
  obtain ⟨s, hkey, hget⟩ := hobject.mem_iff.1 hentry
  exact ⟨⟨s, hkey⟩, (h s value hget).sound.json.hasTextKeys⟩

/-- Keywords that combine no schemas take any sound value. -/
theorem SoundValue.of_not_mem {key : String} (hkey : key ∉ combiningKeys) {value : Tree τ}
    (h : value.IsSound long) : SoundValue long key value :=
  ⟨h, fun hmem => absurd hmem hkey⟩

/-- What a member contributes to an enumeration is one of its values. -/
theorem isSound_literal {member value : Tree τ} (h : member.IsSound long)
    (hvalue : literal? member = some value) : value.IsSound long := by
  cases member with
  | map tag fields =>
      obtain ⟨-, heach⟩ := isSound_map_iff.1 h
      simp only [literal?, Tree.fields?] at hvalue
      split at hvalue
      · simp at hvalue
      · rcases Option.or_eq_some_iff.1 hvalue with hconst | ⟨-, htype⟩
        · exact (heach _ _ hconst).sound
        · exact (heach _ _ (Option.filter_eq_some_iff.1 htype).1).sound
  | _ => simp [literal?, Tree.fields?] at hvalue

/-- A part of a sound value is sound. -/
theorem Tree.IsSound.of_mem_subtrees {s t : Tree τ} (h : t.IsSound long) (hmem : s ∈ t.subtrees) :
    s.IsSound long := by
  refine ⟨h.json.of_mem_subtrees hmem, h.plain.of_mem_subtrees hmem, fun hlong => h.digits ?_⟩
  exact anyScalar_of_mem_subtrees hmem hlong

/-! ## The clean-ups that a schema has passed -/

variable [Inhabited τ] {sentinel : String} {fields : Fields τ}

/-- Every schema at and below the value of a keyword is in normal form. -/
def CleanValue (sentinel : String) (key : String) (value : Tree τ) : Prop :=
  ∀ slot ∈ (Role.schema .schema).slots, slot.key = key →
    value.AllSchemas (NormalForm sentinel) slot.place

/-- Keywords that hold no schemas take any value. -/
theorem CleanValue.of_not_mem {key : String} (hkey : key ∉ (Role.schema .schema).slots.map Slot.key)
    (value : Tree τ) : CleanValue sentinel key value :=
  fun _ hslot heq => absurd (heq ▸ List.mem_map_of_mem hslot) hkey

theorem combiningKeys_slot {key : String} (hkey : key ∈ combiningKeys) :
    ∃ slot ∈ (Role.schema .schema).slots, slot.key = key ∧
      slot.place = ⟨.elements, .schema .schema, false⟩ := by
  rw [combiningKeys_eq] at hkey
  rcases (by simpa using hkey : key = "allOf" ∨ key = "anyOf" ∨ key = "oneOf") with rfl | rfl | rfl
  · exact ⟨⟨"allOf", .elements, .schema .schema, false⟩, by decide, rfl, rfl⟩
  · exact ⟨⟨"anyOf", .elements, .schema .schema, false⟩, by decide, rfl, rfl⟩
  · exact ⟨⟨"oneOf", .elements, .schema .schema, false⟩, by decide, rfl, rfl⟩

/-- A `$ref` is a text. -/
def PlainRef (key : String) (value : Tree τ) : Prop := key = "$ref" → value.text?.isSome = true

omit [Inhabited τ] in
theorem hasPlainRef_map_iff {tag : τ} :
    (Tree.map tag fields).hasPlainRef = true ↔ fields.Each PlainRef := by
  unfold hasPlainRef Tree.fields?
  simp only
  constructor
  · rintro h _ value hget rfl
    rwa [hget] at h
  · intro h
    cases hget : fields.get? "$ref" with
    | none => rfl
    | some ref => exact h _ ref hget rfl

/-- A schema whose values are sound, the schemas below it clean, and the predicates in
`done` kept by every value.  Of a reference, only soundness is asked.  `plain` says
whether the `$ref` of the schema was a text, if it had one. -/
structure Passed (long : Prop) (sentinel : String) (plain : Prop)
    (done : List (String → Tree τ → Prop)) (fields : Fields τ) : Prop where
  object : fields.IsObject
  sound : fields.Each (SoundValue long)
  ref : plain → fields.Each PlainRef
  clean : Fields.isReference fields = false → fields.Each (CleanValue sentinel)
  done : Fields.isReference fields = false → ∀ p ∈ done, fields.Each p

namespace Passed

variable {plain : Prop} {done : List (String → Tree τ → Prop)}

theorem insert (h : Passed long sentinel plain done fields) {key : String} (hkey : key ≠ "$ref")
    {value : Tree τ} (hsound : SoundValue long key value)
    (hclean : Fields.isReference fields = false → CleanValue sentinel key value)
    (hdone : Fields.isReference fields = false → ∀ p ∈ done, p key value) :
    Passed long sentinel plain done (fields.insert key value) := by
  have hplain : PlainRef key value := fun heq => absurd heq hkey
  refine ⟨h.object.insert key value, h.sound.insert hsound,
    fun hp => (h.ref hp).insert hplain, ?_, ?_⟩
  · rw [Fields.isReference_insert hkey]
    exact fun href => (h.clean href).insert (hclean href)
  · rw [Fields.isReference_insert hkey]
    exact fun href p hp => (h.done href p hp).insert (hdone href p hp)

theorem erase (h : Passed long sentinel plain done fields) {key : String} (hkey : key ≠ "$ref") :
    Passed long sentinel plain done (fields.erase key) := by
  refine ⟨h.object.erase key, h.sound.erase key, fun hp => (h.ref hp).erase key, ?_, ?_⟩
  · rw [Fields.isReference_erase hkey]
    exact fun href => (h.clean href).erase key
  · rw [Fields.isReference_erase hkey]
    exact fun href p hp => (h.done href p hp).erase key

/-- One more clean-up has been passed. -/
theorem also (h : Passed long sentinel plain done fields) {p : String → Tree τ → Prop}
    (hp : fields.Each p) : Passed long sentinel plain (p :: done) fields := by
  refine ⟨h.object, h.sound, h.ref, h.clean, fun href q hq => ?_⟩
  rcases List.mem_cons.1 hq with rfl | hq
  · exact hp
  · exact h.done href q hq

/-- A member of a composite is sound, and its `$ref` is a text if it has one. -/
theorem member_sound (h : Passed long sentinel plain done fields) {key : String}
    (hkey : key ∈ combiningKeys) {tag : τ} {items : List (Tree τ)}
    (hget : fields.get? key = some (.list tag items)) {member : Tree τ} (hmember : member ∈ items) :
    member.IsSound long ∧ member.hasPlainRef = true := by
  have hvalue := h.sound key _ hget
  exact ⟨isSound_list_iff.1 hvalue.sound member hmember,
    hvalue.members hkey member (by simpa [Tree.items?] using hmember)⟩

/-- A member of a composite that is inline is in normal form, and so is all below it. -/
theorem member_normal (h : Passed long sentinel plain done fields)
    (href : Fields.isReference fields = false) {key : String} (hkey : key ∈ combiningKeys)
    {tag inner : τ} {items : List (Tree τ)} (hget : fields.get? key = some (.list tag items))
    {member : Fields τ} (hmember : Tree.map inner member ∈ items)
    (hinline : Fields.isReference member = false) :
    member.Each NormalValue ∧ member.Each (CleanValue sentinel) := by
  obtain ⟨slot, hslot, hslotkey, hplace⟩ := combiningKeys_slot hkey
  have hall := h.clean href key _ hget slot hslot hslotkey
  rw [hplace, allSchemas_list] at hall
  have hself := hall rfl _ hmember
  rw [allSchemas_map_single rfl] at hself
  obtain ⟨hslots, hnormal⟩ := hself (by simp [Place.one, Role.admits, hinline])
  refine ⟨normalForm_iff_each.1 (hnormal .schema rfl), ?_⟩
  rintro _ value hvalue slot hslot rfl
  exact hslots slot hslot value hvalue

/-- A member gives way to its schema: the schema becomes a reference, or all that the
member brings along is clean. -/
theorem merge (h : Passed long sentinel plain done fields)
    (hdone : ∀ p ∈ done, ∀ key value, NormalValue key value → p key value) {key : String}
    (hkey : key ∈ combiningKeys) {tag inner : τ} {items : List (Tree τ)}
    (hget : fields.get? key = some (.list tag items)) {member : Fields τ}
    (hmember : Tree.map inner member ∈ items) :
    Passed long sentinel plain done ((fields.erase key).overlay member) := by
  have hne : key ≠ "$ref" := by
    rintro rfl
    simp [combiningKeys] at hkey
  obtain ⟨hsound, hmemberRef⟩ := h.member_sound hkey hget hmember
  obtain ⟨hobject, heach⟩ := isSound_map_iff.1 hsound
  have hplain := hasPlainRef_map_iff.1 hmemberRef
  have hrest := h.erase hne
  -- Where the member has a `$ref`, it is a text and wins.
  have href : Fields.isReference ((fields.erase key).overlay member) = false →
      Fields.isReference fields = false ∧ Fields.isReference member = false := by
    intro hboth
    have hget := Entries.get?_overlay (fields.erase key) hobject.2 "$ref"
    cases hown : member.get? "$ref" with
    | none =>
        rw [hown, Option.none_or] at hget
        refine ⟨by rwa [← Fields.isReference_erase hne, ← Fields.isReference_congr hget], ?_⟩
        simp [Fields.isReference, Fields.ref?, Fields.text?, hown]
    | some ref =>
        have htext := hplain _ ref hown rfl
        rw [hown, Option.some_or] at hget
        simp [Fields.isReference, Fields.ref?, Fields.text?, hget] at hboth
        simp [hboth] at htext
  refine ⟨hrest.object.overlay hobject.1, hrest.sound.overlay hobject.2 heach,
    fun hp => (hrest.ref hp).overlay hobject.2 hplain, ?_, ?_⟩
  · intro hboth
    obtain ⟨hschema, hinline⟩ := href hboth
    obtain ⟨-, hclean⟩ := h.member_normal hschema hkey hget hmember hinline
    exact ((h.clean hschema).erase key).overlay hobject.2 hclean
  · intro hboth p hp
    obtain ⟨hschema, hinline⟩ := href hboth
    obtain ⟨hnormal, -⟩ := h.member_normal hschema hkey hget hmember hinline
    exact ((h.done hschema p hp).erase key).overlay hobject.2 (hnormal.mono (hdone p hp))

/-- A keyword that holds no schemas takes a sound value. -/
theorem insert_leaf (h : Passed long sentinel plain done fields) {key : String}
    (hkey : key ≠ "$ref") (hslot : key ∉ (Role.schema .schema).slots.map Slot.key) {value : Tree τ}
    (hsound : value.IsSound long)
    (hdone : Fields.isReference fields = false → ∀ p ∈ done, p key value) :
    Passed long sentinel plain done (fields.insert key value) := by
  have hcombining : key ∉ combiningKeys := by
    intro hmem
    obtain ⟨slot, hin, hslotkey, -⟩ := combiningKeys_slot hmem
    exact hslot (hslotkey ▸ List.mem_map_of_mem hin)
  exact h.insert hkey (.of_not_mem hcombining hsound) (fun _ => .of_not_mem hslot value) hdone

/-! ## One lemma for each clean-up -/

theorem constsToEnum (h : Passed long sentinel plain [] fields) :
    Passed long sentinel plain [NoConstMember] (applyRule constsToEnum fields) := by
  refine applyRule_induction (fun hnone => h.also (constsToEnum_eq_none_iff.1 hnone)) ?_
  intro result hresult
  unfold Rules.constsToEnum at hresult
  split at hresult
  · simp at hresult
  · rename_i members hmembers
    split at hresult
    · rw [Option.some.injEq] at hresult
      subst hresult
      have hliterals : (Tree.ofList (members.filterMap literal?)).IsSound long := by
        refine isSound_list_iff.2 fun literal hliteral => ?_
        obtain ⟨member, hmember, hof⟩ := List.mem_filterMap.1 hliteral
        obtain ⟨value, hget, hitems⟩ := Option.bind_eq_some_iff.1 hmembers
        obtain ⟨tag, rfl⟩ := items?_eq_some_iff.1 hitems
        exact isSound_literal (isSound_list_iff.1 (h.sound _ _ hget).sound member hmember) hof
      have hrest := h.erase (by decide : "oneOf" ≠ "$ref")
      have htyped := hrest.insert_leaf (by decide : "type" ≠ "$ref") (by decide)
        (isSound_ofText (sharedType (members.filterMap literal?))) (by simp)
      have hlisted :=
        htyped.insert_leaf (by decide : "enum" ≠ "$ref") (by decide) hliterals (by simp)
      refine hlisted.also ?_
      rintro _ value hget rfl
      rw [Entries.get?_insert, if_neg (by decide), Entries.get?_insert, if_neg (by decide),
        Entries.get?_erase, if_pos rfl] at hget
      simp at hget
    · simp at hresult

theorem dropListCovered (h : Passed long sentinel plain [NoConstMember] fields)
    (hfault : listCoverFault? fields = none) :
    Passed long sentinel plain [ComparableShapes, NothingCovered, NoConstMember]
      (applyRule Rules.dropListCovered fields) := by
  have hcompared := listCoverFault?_eq_none_iff.1 hfault
  refine applyRule_induction (fun hnone =>
    (h.also (dropListCovered_eq_none_iff.1 hnone)).also hcompared) ?_
  intro result hresult
  unfold Rules.dropListCovered at hresult
  split at hresult
  · rename_i tag members hget
    simp only at hresult
    split at hresult
    · rw [Option.some.injEq] at hresult
      subst hresult
      have hvalue := h.sound _ _ hget
      have hsub :
          ∀ member ∈ members.filter (fun member => !isSubsumed (shapesOfItems members) member),
          member ∈ members := fun member hmember => (List.mem_filter.1 hmember).1
      have hfewer : SoundValue long "oneOf" (.list tag (members.filter fun member =>
          !isSubsumed (shapesOfItems members) member)) :=
        ⟨isSound_list_iff.2 fun member hmember =>
            isSound_list_iff.1 hvalue.sound member (hsub member hmember),
          fun hkey member hmember => hvalue.members hkey member (hsub member hmember)⟩
      have hkept := h.insert (by decide : "oneOf" ≠ "$ref") hfewer ?_ ?_
      · have hcovered : (fields.insert "oneOf" (.list tag (members.filter fun member =>
            !isSubsumed (shapesOfItems members) member))).Each NothingCovered := by
          rintro _ value hget' rfl
          rw [Entries.get?_insert_self, Option.some.injEq] at hget'
          subst hget'
          exact notCovered_filter "oneOf" tag members rfl
        exact (hkept.also hcovered).also
          (hcompared.insert (comparable_filter (hcompared _ _ hget)))
      · intro href slot hslot hkey
        have hclean := h.clean href _ _ hget slot hslot hkey
        rw [allSchemas_list] at hclean ⊢
        exact fun hspread member hmember => hclean hspread member (hsub member hmember)
      · rintro href p hp
        obtain rfl : p = NoConstMember := by simpa using hp
        exact fun hkey member hmember =>
          h.done href NoConstMember hp _ _ hget hkey member (hsub member hmember)
    · rename_i hany
      simp at hresult
  · simp at hresult

theorem unwrapAll (h : Passed long sentinel plain done fields)
    (hdone : ∀ p ∈ done, ∀ key value, NormalValue key value → p key value) :
    Passed long sentinel plain done (Rules.unwrapAll fields) := by
  fun_induction Rules.unwrapAll fields with
  | case1 fields _ => exact h
  | case2 fields unwrapped hstep ih =>
      obtain ⟨key, hkey, hfound⟩ := List.exists_of_findSome?_eq_some hstep
      obtain ⟨member, hmember, rfl⟩ := Option.map_eq_some_iff.1 hfound
      obtain ⟨tag, inner, hget⟩ := get?_of_singleMember? hmember
      exact ih (h.merge hdone hkey hget List.mem_cons_self)

theorem unwrapComposites (h : Passed long sentinel plain done fields)
    (hdone : ∀ p ∈ done, ∀ key value, NormalValue key value → p key value) :
    Passed long sentinel plain (NoLoneMember :: done)
      (applyRule Rules.unwrapComposites fields) := by
  refine applyRule_induction (fun hnone => h.also (unwrapComposites_eq_none_iff.1 hnone)) ?_
  intro result hresult
  obtain ⟨unwrapped, hstep, rfl⟩ := Option.map_eq_some_iff.1 hresult
  rw [← unwrapAll_of_some hstep]
  exact (h.unwrapAll hdone).also (unwrapStep?_eq_none_iff.1 (unwrapStep?_unwrapAll fields))

theorem closeOpenMap (h : Passed long sentinel plain done fields)
    (hdone : ∀ p ∈ done, p "type" (.ofText "object")) :
    Passed long sentinel plain (NotOpen :: done) (applyRule Rules.closeOpenMap fields) := by
  refine applyRule_induction (fun hnone => h.also (closeOpenMap_eq_none_iff.1 hnone)) ?_
  intro result hresult
  unfold Rules.closeOpenMap at hresult
  split at hresult
  · simp at hresult
  · split at hresult
    · rw [Option.some.injEq] at hresult
      subst hresult
      have htyped := h.insert_leaf (by decide : "type" ≠ "$ref") (by decide)
        (isSound_ofText "object") fun _ => hdone
      refine (htyped.erase (by decide : "additionalProperties" ≠ "$ref")).also ?_
      rintro _ value hget rfl
      rw [Entries.get?_erase, if_pos rfl] at hget
      simp at hget
    · simp at hresult

theorem distinctEnum (h : Passed long sentinel plain done fields)
    (hdone : ∀ p ∈ done, ∀ value, p "enum" value) (hfault : enumFault? fields = none) :
    Passed long sentinel plain (ComparableValues :: DistinctValues :: done)
      (applyRule Rules.distinctEnum fields) := by
  have hcompared := enumFault?_eq_none_iff.1 hfault
  refine applyRule_induction (fun hnone =>
    (h.also (distinctEnum_eq_none_iff.1 hnone)).also hcompared) ?_
  intro result hresult
  unfold Rules.distinctEnum at hresult
  split at hresult
  · simp at hresult
  · rename_i values hvalues
    simp only at hresult
    split at hresult
    · simp at hresult
    · rw [Option.some.injEq] at hresult
      subst hresult
      obtain ⟨value, hget, hitems⟩ := Option.bind_eq_some_iff.1 hvalues
      obtain ⟨tag, rfl⟩ := items?_eq_some_iff.1 hitems
      have hsound : (Tree.ofList ((lastOfEach values).map (·.2))).IsSound long := by
        refine isSound_list_iff.2 fun value hvalue => ?_
        obtain ⟨entry, hentry, rfl⟩ := List.mem_map.1 hvalue
        exact isSound_list_iff.1 (h.sound _ _ hget).sound _ (mem_lastOfEach hentry)
      have hlisted := h.insert_leaf (by decide : "enum" ≠ "$ref") (by decide) hsound
        fun _ p hp => hdone p hp _
      have hdistinct : (fields.insert "enum"
          (.ofList ((lastOfEach values).map (·.2)))).Each DistinctValues := by
        rintro _ value hget' rfl
        rw [Entries.get?_insert_self, Option.some.injEq] at hget'
        subst hget'
        exact distinctValues_lastOfEach "enum" values rfl
      exact (hlisted.also hdistinct).also
        (hcompared.insert (comparableValues_lastOfEach (hcompared _ _ hget)))

theorem renameNull (h : Passed long sentinel plain done fields) (hne : sentinel ≠ "null")
    (hdone : ∀ p ∈ done, ∀ value, p "type" value) :
    Passed long sentinel plain (NotNull :: done)
      (applyRule (Rules.renameNull sentinel) fields) := by
  refine applyRule_induction (fun hnone => h.also (renameNull_eq_none_iff.1 hnone)) ?_
  intro result hresult
  -- Both branches put a new value under `type`.
  have hinsert : ∀ value : Tree τ, value.IsSound long → NotNull "type" value →
      Passed long sentinel plain (NotNull :: done) (fields.insert "type" value) := by
    intro value hsound hnull
    have htyped := h.insert_leaf (by decide : "type" ≠ "$ref") (by decide) hsound
      fun _ p hp => hdone p hp value
    refine htyped.also fun key value' hget hkey => ?_
    subst hkey
    rw [Entries.get?_insert_self, Option.some.injEq] at hget
    subst hget
    exact hnull rfl
  unfold Rules.renameNull at hresult
  split at hresult
  · rw [Option.some.injEq] at hresult
    subst hresult
    exact hinsert _ (isSound_ofText sentinel) (notNull_ofText "type" hne)
  · rename_i tag types hget
    split at hresult
    · rw [Option.some.injEq] at hresult
      subst hresult
      refine hinsert _ (isSound_list_iff.2 fun type htype => ?_) (notNull_renamed "type" hne types)
      obtain ⟨old, hold, rfl⟩ := List.mem_map.1 htype
      split
      · exact isSound_ofText sentinel
      · exact isSound_list_iff.1 (h.sound _ _ hget).sound old hold
    · simp at hresult
  · simp at hresult

theorem keepsMember (h : Passed long sentinel plain done fields)
    (hdone : ∀ p ∈ done, ∀ key value, NormalValue key value → p key value) {key : String}
    (hkey : key ∈ combiningKeys) {result : Fields τ} (hkeeps : KeepsMember fields key result) :
    Passed long sentinel plain done result := by
  cases hkeeps with
  | mapping hget hmember => exact h.merge hdone hkey hget hmember
  | other =>
      refine h.erase ?_
      rintro rfl
      simp [combiningKeys] at hkey

theorem dropShorthandIn (h : Passed long sentinel plain done fields)
    (hdone : ∀ p ∈ done, ∀ key value, NormalValue key value → p key value) {document : Tree τ}
    {location : Location} {keys : List String} (hkeys : ∀ key ∈ keys, key ∈ combiningKeys)
    {found : Option (Fields τ)}
    (hfound : (Rules.dropShorthandIn document location fields keys).2 = .ok found) :
    Passed long sentinel plain done (found.getD fields) := by
  rcases keepsMember_of_dropShorthandIn hfound with rfl | ⟨result, rfl, key, hkey, hkeeps⟩
  · exact h
  · exact h.keepsMember hdone (hkeys key hkey) hkeeps

end Passed

theorem Passed.textKeys {plain : Prop} {done : List (String → Tree τ → Prop)}
    (h : Passed long sentinel plain done fields) : fields.TextKeys :=
  textKeys_of_sound h.object h.sound

theorem Passed.long_of_hasLong {plain : Prop} {done : List (String → Tree τ → Prop)}
    (h : Passed long sentinel plain done fields) (hlong : fields.HasLong) : long := by
  obtain ⟨⟨key, value⟩, hentry, hlong⟩ := hlong
  obtain ⟨s, -, hget⟩ := h.object.mem_iff.1 hentry
  exact (h.sound s value hget).sound.digits hlong

/-! ## All clean-ups on one schema -/

/-- What the clean-ups establish. -/
def allDone : List (String → Tree τ → Prop) :=
  [NotNull, ComparableValues, DistinctValues, NotOpen, NoLoneMember, ComparableShapes,
    NothingCovered, NoConstMember]

theorem normalValue_allDone {p : String → Tree τ → Prop} (hp : p ∈ allDone) {key : String}
    {value : Tree τ} (h : NormalValue key value) : p key value := by
  simp only [allDone, List.mem_cons, List.not_mem_nil, or_false] at hp
  rcases hp with rfl | rfl | rfl | rfl | rfl | rfl | rfl | rfl
  exacts [h.notNull, h.values, h.distinct, h.notOpen, h.notLone, h.shapes,
    h.notCovered, h.noConst]

theorem Passed.normalForm {plain : Prop} (h : Passed long sentinel plain allDone fields)
    (href : Fields.isReference fields = false) : NormalForm sentinel fields := by
  have hdone := h.done href
  refine normalForm_iff_each.2 fun key value hget => ?_
  exact ⟨hdone NoConstMember (by simp [allDone]) key value hget,
    hdone NothingCovered (by simp [allDone]) key value hget,
    hdone NoLoneMember (by simp [allDone]) key value hget,
    hdone NotOpen (by simp [allDone]) key value hget,
    hdone DistinctValues (by simp [allDone]) key value hget,
    hdone NotNull (by simp [allDone]) key value hget,
    hdone ComparableShapes (by simp [allDone]) key value hget,
    hdone ComparableValues (by simp [allDone]) key value hget⟩

theorem cleanUpSchema_passed {options : Options} (hne : options.nullTypeName ≠ "null")
    {plain : Prop} (h : Passed long options.nullTypeName plain [] fields) (location : Location)
    (around : Fields τ → Tree τ) :
    (Recording.allowing (StopsAtDigits long)).holds
      (cleanUpSchema options location around fields)
      (Passed long options.nullTypeName plain allDone) := by
  have hstops : ∀ {done} {schema : Fields τ}, Passed long options.nullTypeName plain done schema →
      ∀ {reason : Fault}, reason = .unwritable .tooManyDigits ∧ schema.HasLong →
        StopsAtDigits long reason :=
    fun hschema _ hlong => ⟨hlong.1, hschema.long_of_hasLong hlong.2⟩
  let L := Recording.allowing (StopsAtDigits long)
  unfold cleanUpSchema
  have h₁ := h.constsToEnum
  refine L.bind (Recording.allowing_stopAt fun fault hfault =>
    hstops h₁ (listCoverFault?_long h₁.textKeys hfault)) fun _ hshapes => ?_
  have h₂ := h₁.dropListCovered hshapes
  have h₃ := h₂.unwrapComposites fun p hp _ _ hv =>
    normalValue_allDone (List.mem_of_mem_drop (i := 5) hp) hv
  refine L.bind (Recording.allowing_stopAt fun fault hfault => ?_) fun _ _ => ?_
  · rw [openMapFault?_eq_none h₃.textKeys] at hfault
    cases hfault
  have h₄ := h₃.closeOpenMap (by
    simp [NoLoneMember, ComparableShapes, NothingCovered, NoConstMember, combiningKeys])
  refine L.bind (Recording.allowing_stopAt fun fault hfault =>
    hstops h₄ (enumFault?_long h₄.textKeys hfault)) fun _ hvalues => ?_
  have h₅ := h₄.distinctEnum (by
    simp [NotOpen, NoLoneMember, ComparableShapes, NothingCovered, NoConstMember, combiningKeys])
    hvalues
  have h₆ := h₅.renameNull hne (by
    simp [ComparableValues, DistinctValues, NotOpen, NoLoneMember, ComparableShapes, NothingCovered,
      NoConstMember, combiningKeys])
  refine L.bind (Recording.allowing_record _) fun _ _ => ?_
  refine L.bind (Recording.allowing_ofText fun reason hreason => ?_) fun found hfound => L.pure ?_
  · obtain ⟨rfl, hlong⟩ := dropShorthandIn_long h₆.textKeys hreason
    exact hstops h₆ ⟨rfl, hlong⟩
  · exact h₆.dropShorthandIn (fun p hp _ _ => normalValue_allDone hp) (by decide) hfound

/-! ## The walk -/

/-- A tree where it stands, and what the clean-up makes of it. -/
structure Cleaned (long : Prop) (sentinel : String) (t : Tree τ) (place : Place)
    (result : Tree τ) : Prop where
  sound : result.IsSound long
  schemas : result.AllSchemas (NormalForm sentinel) place
  mapping : t.fields?.isSome = true → result.fields?.isSome = true
  text : t.text?.isSome = true → result.text?.isSome = true
  plainRef : t.hasPlainRef = true → result.hasPlainRef = true
  members : (∀ member ∈ t.items?.getD [], member.hasPlainRef = true) →
    ∀ member ∈ result.items?.getD [], member.hasPlainRef = true

/-- The clean-up of a value keeps what its keyword asks of it. -/
theorem Cleaned.value {value result : Tree τ} {place : Place}
    (h : Cleaned long sentinel value place result)
    {key : String} (hsound : SoundValue long key value) : SoundValue long key result :=
  ⟨h.sound, fun hkey => h.members (hsound.members hkey)⟩

theorem Cleaned.ref {value result : Tree τ} {place : Place}
    (h : Cleaned long sentinel value place result)
    {key : String} (hplain : PlainRef key value) : PlainRef key result :=
  fun hkey => h.text (hplain hkey)

/-- A mapping whose entries are in order is cleaned up. -/
theorem cleaned_map {tag : τ} {result : Fields τ} {place : Place} (hobject : result.IsObject)
    (hsound : result.Each (SoundValue long)) (hplain : fields.Each PlainRef → result.Each PlainRef)
    (hschemas : (Tree.map tag result).AllSchemas (NormalForm sentinel) place) :
    Cleaned long sentinel (.map tag fields) place (.map tag result) := by
  refine ⟨isSound_map_iff.2 ⟨hobject, hsound⟩, hschemas, fun _ => rfl, fun htext => ?_,
    fun href => ?_, fun _ => ?_⟩
  · simp [Tree.text?] at htext
  · exact hasPlainRef_map_iff.2 (hplain (hasPlainRef_map_iff.1 href))
  · simp [Tree.items?]

/-- What the slots of a part hold after the clean-up. -/
theorem slots_cleaned {role : Role} {inner : Site} {around : Fields τ → Tree τ} {result : Fields τ}
    (hobject : fields.IsObject) (hsound : fields.Each (SoundValue long))
    (h : SlotsReplaced (fun t place _ _ result => Cleaned long sentinel t place result)
      inner around fields
      role.slots fields result) :
    result.IsObject ∧ result.Each (SoundValue long) ∧
    (fields.Each PlainRef → result.Each PlainRef) ∧
      (∀ slot ∈ role.slots, ∀ value, result.get? slot.key = some value →
        value.AllSchemas (NormalForm sentinel) slot.place) := by
  refine ⟨h.isObject hobject, ?_, fun hplain => ?_, ?_⟩
  · exact h.each hsound (fun _ _ _ _ _ hvalue hclean => hclean.value hvalue)
      fun _ _ _ hvalue => hvalue
  · exact h.each hplain (fun _ _ _ _ _ hvalue hclean => hclean.ref hvalue)
      fun _ _ _ hvalue => hvalue
  · intro slot hslot value hget
    rcases h.get?_slot role.slots_nodup (fun _ _ => rfl) hslot with
      ⟨-, hnone⟩ | ⟨before, after, _, -, hafter, hclean⟩
    · simp [hnone] at hget
    · obtain rfl : after = value := by simpa [hafter] using hget
      exact hclean.schemas

/-- What the clean-up makes of each part of a document. -/
theorem cleanUp_replaces {options : Options} (hne : options.nullTypeName ≠ "null") :
    Replaces (Recording.allowing (StopsAtDigits long))
      (fun (visit : Visit τ) around =>
        cleanUpSchema options visit.location (fun fields => around (.map visit.tag fields))
          visit.fields)
      (fun t _ _ => t.IsSound long) (fun t place _ _ result =>
        Cleaned long options.nullTypeName t place result)
      where
  below h hreach := h.of_mem_subtrees hreach.mem_subtrees
  keep h hnone := ⟨h, hnone.mono fun _ => False.elim, id, id, id, id⟩
  list := by
    intro tag items place site around items' h hspread hitems
    refine ⟨isSound_list_iff.2 fun item hitem => ?_, allSchemas_list.2 fun _ item hitem => ?_,
      fun hmap => ?_, fun htext => ?_, fun _ => rfl, fun hmembers item hitem => ?_⟩
    · obtain ⟨old, hold, _, _, hclean⟩ := hitems.exists_of_mem hitem
      exact hclean.sound
    · obtain ⟨old, hold, _, _, hclean⟩ := hitems.exists_of_mem hitem
      exact hclean.schemas
    · simp [Tree.fields?] at hmap
    · simp [Tree.text?] at htext
    · obtain ⟨old, hold, _, _, hclean⟩ :=
        hitems.exists_of_mem (by simpa [Tree.items?] using hitem)
      exact hclean.plainRef (hmembers old (by simpa [Tree.items?] using hold))
  entries := by
    intro tag fields place site around entries' h hspread hentries
    obtain ⟨hobject, hsound⟩ := isSound_map_iff.1 h
    have hobject' : Entries.IsObject (⟨entries'⟩ : Fields τ) :=
      (Entries.isObject_congr hentries.map_fst).1 hobject
    have hold : ∀ key value', Entries.get? ⟨entries'⟩ (.text key) = some value' →
        ∃ value, fields.get? key = some value ∧
          Cleaned long options.nullTypeName value (.one place.role) value' := by
      intro key value' hget
      obtain ⟨value, hmem, _, hclean⟩ :=
        hentries.exists_of_mem (hobject'.mem_iff.2 ⟨key, rfl, hget⟩)
      exact ⟨value, Entries.get?_of_mem hobject.2 hmem, hclean⟩
    refine cleaned_map hobject' (fun key value' hget => ?_) (fun hplain key value' hget => ?_)
      ((allSchemas_map_entries hspread).2 fun entry hentry => ?_)
    · obtain ⟨value, hvalue, hclean⟩ := hold key value' hget
      exact hclean.value (hsound key value hvalue)
    · obtain ⟨value, hvalue, hclean⟩ := hold key value' hget
      exact hclean.ref (hplain key value hvalue)
    · obtain ⟨value, -, _, hclean⟩ := hentries.exists_of_mem hentry
      exact hclean.schemas
  part := by
    intro tag fields place site around result h hspread hadmits hrole hslots
    obtain ⟨hobject, hsound⟩ := isSound_map_iff.1 h
    obtain ⟨hobject', hsound', hplain, hclean⟩ := slots_cleaned hobject hsound hslots
    refine cleaned_map hobject' hsound' hplain ((allSchemas_map_single hspread).2 fun _ => ?_)
    exact ⟨hclean, fun hook heq => absurd heq (hrole hook)⟩
  schema := by
    intro tag fields place site around result hook h hspread hrole hadmits hslots
    obtain ⟨hobject, hsound⟩ := isSound_map_iff.1 h
    obtain ⟨hobject', hsound', hplain, hclean⟩ := slots_cleaned hobject hsound hslots
    have hpassed : Passed long options.nullTypeName (fields.Each PlainRef) [] result := by
      refine ⟨hobject', hsound', hplain, fun _ key value hget slot hslot hkey => ?_, by simp⟩
      subst hkey
      exact hclean slot (by rwa [hrole]) value hget
    refine (Recording.allowing _).mono (cleanUpSchema_passed hne hpassed _ _) fun final hfinal => ?_
    refine cleaned_map hfinal.object hfinal.sound hfinal.ref
      ((allSchemas_map_single hspread).2 fun hinline => ?_)
    have href : Fields.isReference final = false := by
      simpa [hrole, Role.admits, Role.skipsReferences] using hinline
    refine ⟨fun slot hslot value hget => ?_, fun _ _ => hfinal.normalForm href⟩
    rw [hrole] at hslot
    exact hfinal.clean href slot.key value hget slot hslot rfl

/-- The first phase cleans all of a sound document up, or stops at an integer with too many
digits. -/
theorem cleanUp_cleaned {options : Options} (hne : options.nullTypeName ≠ "null")
    {document : Tree τ} (h : document.IsSound long) :
    (Recording.allowing (StopsAtDigits long)).holds (cleanUp options document)
      (Cleaned long options.nullTypeName document (.one .document)) :=
  (cleanUp_replaces hne).holds document (.one .document) .root id h

end ProtoShape
