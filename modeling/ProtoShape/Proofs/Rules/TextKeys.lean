import ProtoShape.Proofs.Json.Writing
import ProtoShape.Proofs.Rules.Everywhere
import ProtoShape.Proofs.Tags

/-!
# Texts as keys

`TextKeys` says that all keys in a schema and below it are texts.  Then looking at the
`additionalProperties` and marking an exclusive schema meet no fault: `openMapFault?_eq_none`
and `exclusivityFault?_eq_none`.

The rules that compare values by their JSON texts stop at an integer with too many digits,
and at nothing else: `enumFault?_of_values` and `listCoverFault?_of_members` say at which
ones, and `error_of_dropShorthandIn` is about the shorthand that is searched for a name.
`Fields.HasLong` says that there is such an integer somewhere.

No rule brings in other keys, since updates keep a mapping with text keys only
(`textKeys_iff_everywhere`).
-/

namespace ProtoShape

open Rules Tree

variable {τ : Type}

namespace Fields

/-- All keys at and below a schema are texts. -/
def TextKeys (fields : Fields τ) : Prop :=
  ∀ entry ∈ fields.toList, (∃ s, entry.1 = .text s) ∧ entry.2.HasTextKeys

end Fields

theorem textKeys_iff_everywhere {fields : Fields τ} :
    fields.TextKeys ↔ fields.Everywhere fun fields => fields.hasTextKeys = true := by
  constructor
  · intro h
    exact ⟨Entries.hasTextKeys_iff.2 fun entry hentry => (h entry hentry).1, fun entry hentry =>
      (h entry hentry).2⟩
  · rintro ⟨hkeys, hvalues⟩ entry hentry
    exact ⟨Entries.hasTextKeys_iff.1 hkeys entry hentry, hvalues entry hentry⟩

/-- A property that updates keep allows no keys but texts. -/
theorem Fields.Everywhere.textKeys {p : Fields τ → Prop} (hp : KeptByUpdates p) {fields : Fields τ}
    (h : fields.Everywhere p) : fields.TextKeys :=
  fun entry hentry => ⟨h.text hp hentry, (h.2 entry hentry).mono fun _ => hp.texts⟩

theorem hasTextKeys_map {tag : τ} {fields : Fields τ} :
    (Tree.map tag fields).HasTextKeys ↔ fields.TextKeys :=
  everywhere_map_iff.trans textKeys_iff_everywhere.symm

theorem hasTextKeys_list {tag : τ} {items : List (Tree τ)} :
    (Tree.list tag items).HasTextKeys ↔ ∀ item ∈ items, item.HasTextKeys :=
  everywhere_list tag items

theorem hasTextKeys_scalar (tag : τ) (s : Scalar) : (Tree.scalar tag s).HasTextKeys :=
  everywhere_scalar tag s

theorem hasTextKeys_congr {σ : Type} {t : Tree τ} {u : Tree σ} (h : t.erase = u.erase) :
    t.HasTextKeys ↔ u.HasTextKeys := by
  have herase : ∀ {τ : Type} (v : Tree τ), v.erase.HasTextKeys ↔ v.HasTextKeys := fun v =>
    everywhere_mapTags fun fields => by
      rw [Entries.hasTextKeys, Entries.hasTextKeys, Fields.keys_mapTags]
  rw [← herase t, ← herase u, h]

namespace Fields.TextKeys

variable {fields : Fields τ} {value : Tree τ}

theorem get? (h : fields.TextKeys) {key : Scalar} (hget : fields.get? key = some value) :
    value.HasTextKeys :=
  (textKeys_iff_everywhere.1 h).get? hget

/-- The items of the list under a key. -/
theorem items (h : fields.TextKeys) {key : String} {members : List (Tree τ)}
    (hget : Fields.items? fields key = some members) : ∀ member ∈ members, member.HasTextKeys :=
  (textKeys_iff_everywhere.1 h).items hget

end Fields.TextKeys

namespace Fields

/-- An integer with too many digits stands somewhere in the values of a schema. -/
def HasLong (fields : Fields τ) : Prop :=
  ∃ entry ∈ fields.toList, entry.2.anyScalar Scalar.isTooLong = true

end Fields

theorem Fields.HasLong.of_get? {fields : Fields τ} {key : Scalar} {value : Tree τ}
    (hget : fields.get? key = some value) (hlong : value.anyScalar Scalar.isTooLong = true) :
    fields.HasLong := by
  obtain ⟨k, -, hmem⟩ := Entries.mem_of_get? hget
  exact ⟨(k, value), hmem, hlong⟩

theorem Fields.HasLong.of_items {fields : Fields τ} {key : String} {items : List (Tree τ)}
    (hitems : Fields.items? fields key = some items) {item : Tree τ} (hitem : item ∈ items)
    (hlong : item.anyScalar Scalar.isTooLong = true) : fields.HasLong := by
  obtain ⟨tag, hget⟩ := Fields.items?_eq_some_iff.1 hitems
  refine .of_get? hget ?_
  rw [anyScalar_list]
  exact List.any_eq_true.2 ⟨item, hitem, hlong⟩

theorem Fields.HasLong.anyScalar {tag : τ} {fields : Fields τ} (h : fields.HasLong) :
    (Tree.map tag fields).anyScalar Scalar.isTooLong = true := by
  obtain ⟨entry, hentry, hlong⟩ := h
  rw [anyScalar_map]
  exact List.any_eq_true.2 ⟨entry, hentry, by rw [hlong, Bool.or_true]⟩

namespace Rules

/-! ## Texts that cannot be written -/

/-- The fault of an integer with too many digits, where there is one. -/
def digitsFault? (long : Bool) : Option Fault :=
  if long then some (.unwritable .tooManyDigits) else none

theorem eq_some_of_digitsFault? {long : Bool} {fault : Fault} (h : digitsFault? long = some fault) :
    fault = .unwritable .tooManyDigits ∧ long = true := by
  cases long with
  | true => exact ⟨(Option.some.inj h).symm, rfl⟩
  | false => cases h

theorem digitsFault?_eq_none_iff {long : Bool} : digitsFault? long = none ↔ long = false := by
  cases long <;> simp [digitsFault?]

theorem ofText?_of_stops {α : Type} {long : Bool} {x : Except Json.Unwritable α}
    (h : Json.Stops long x) : Fault.ofText? x = digitsFault? long := by
  cases long with
  | true => rw [h.eq_error]; rfl
  | false =>
      obtain ⟨a, rfl⟩ := h.exists_ok
      rfl

/-- Of several faults the first one counts, and all of them are the same. -/
theorem findSome?_digitsFault? {α : Type} {f : α → Option Fault} {p : α → Bool} {items : List α}
    (h : ∀ item ∈ items, f item = digitsFault? (p item)) :
    items.findSome? f = digitsFault? (items.any p) := by
  induction items with
  | nil => rfl
  | cons item items ih =>
      rw [List.findSome?_cons, h item List.mem_cons_self, List.any_cons,
        ih fun other hother => h other (List.mem_cons_of_mem item hother)]
      cases p item <;> rfl

/-- A value has a fold key unless an integer in it has too many digits. -/
theorem ofText?_likeness {value : Tree τ} (h : value.HasTextKeys) :
    Fault.ofText? (likeness value).text = digitsFault? (value.anyScalar Scalar.isTooLong) := by
  unfold likeness
  split
  · rename_i s hs
    cases value with
    | scalar tag scalar =>
        cases scalar with
        | text t => rfl
        | _ => cases hs
    | _ => cases hs
  · exact ofText?_of_stops (Json.write_stops Json.canonical 0 h (.inl rfl))

/-- What makes the shape of a schema holds an integer with too many digits. -/
def hasLongShape (fields : Fields τ) : Bool :=
  (shapeFields fields).any fun entry => entry.2.anyScalar Scalar.isTooLong

variable {fields : Fields τ}

theorem hasLong_of_hasLongShape (h : hasLongShape fields = true) : fields.HasLong := by
  obtain ⟨entry, hentry, hlong⟩ := List.any_eq_true.1 h
  obtain ⟨key, -, hof⟩ := List.mem_filterMap.1 hentry
  obtain ⟨value, hget, rfl⟩ := Option.map_eq_some_iff.1 hof
  exact .of_get? hget hlong

/-- The shape of a schema can be written unless it holds an integer with too many digits. -/
theorem ofText?_shape [Inhabited τ] (h : fields.TextKeys) :
    (shape? fields).bind Fault.ofText? = digitsFault? (hasLongShape fields) := by
  have hkeys : ∀ entry ∈ shapeFields fields, (∃ s, entry.1 = .text s) ∧ entry.2.HasTextKeys := by
    intro entry hentry
    obtain ⟨key, -, hof⟩ := List.mem_filterMap.1 hentry
    obtain ⟨value, hget, rfl⟩ := Option.map_eq_some_iff.1 hof
    exact ⟨⟨key, rfl⟩, h.get? hget⟩
  have hstops := Json.write_stops Json.canonical 0
    (t := (Tree.ofEntries (shapeFields fields) : Tree τ)) (hasTextKeys_map.2 hkeys) (.inl rfl)
  have hlong : (Tree.ofEntries (shapeFields fields) : Tree τ).anyScalar Scalar.isTooLong =
      hasLongShape fields := by
    rw [Tree.ofEntries, anyScalar_map, hasLongShape, Bool.eq_iff_iff, List.any_eq_true,
      List.any_eq_true]
    refine exists_congr fun entry => and_congr_right fun hentry => ?_
    obtain ⟨s, hs⟩ := (hkeys entry hentry).1
    rw [hs]
    rfl
  rw [hlong] at hstops
  cases hshape : shapeFields fields with
  | nil => simp [shape?, hasLongShape, hshape, digitsFault?]
  | cons entry rest =>
      rw [hshape] at hstops
      simp only [shape?, hshape, Option.bind_some]
      exact ofText?_of_stops hstops

/-- A schema whose shape is compared is a member of the union, or the items of one. -/
theorem mem_of_comparedSchemas [Inhabited τ] {members : List (Tree τ)} {schema : Fields τ}
    (h : schema ∈ comparedSchemas members) : ∃ member ∈ members,
      arrayItemFields? member = some schema ∨ member.fields? = some schema := by
  rcases List.mem_append.1 h with h | h
  · obtain ⟨member, hmember, hof⟩ := List.mem_filterMap.1 h
    exact ⟨member, hmember, .inl hof⟩
  · split at h
    · cases h
    · obtain ⟨member, hmember, hof⟩ := List.mem_filterMap.1 h
      refine ⟨member, hmember, .inr ?_⟩
      unfold otherFields? at hof
      split at hof
      · cases hof
      · exact hof

/-- The items of an array schema stand in it. -/
theorem map_of_arrayItemFields? {member : Tree τ} {schema : Fields τ}
    (h : arrayItemFields? member = some schema) : ∃ tag inner items,
      member = .map tag inner ∧ inner.get? "items" = some (.map items schema) := by
  obtain ⟨array, harray, hfields⟩ := Option.bind_eq_some_iff.1 h
  cases member with
  | map tag inner =>
      simp only [arrayItems?, fields?] at harray
      split at harray
      · cases array with
        | map items _ =>
            cases hfields
            exact ⟨tag, inner, items, rfl, harray⟩
        | _ => cases hfields
      · cases harray
  | _ => cases harray

theorem fields?_eq_some {t : Tree τ} (h : t.fields? = some fields) :
    ∃ tag, t = .map tag fields := by
  cases t with
  | map tag inner =>
      cases h
      exact ⟨tag, rfl⟩
  | _ => cases h

/-- What is compared has no other keys than the members. -/
theorem textKeys_of_comparedSchemas [Inhabited τ] {members : List (Tree τ)}
    (h : ∀ member ∈ members, member.HasTextKeys) {schema : Fields τ}
    (hschema : schema ∈ comparedSchemas members) : schema.TextKeys := by
  obtain ⟨member, hmember, harray | hfields⟩ := mem_of_comparedSchemas hschema
  · obtain ⟨tag, inner, items, rfl, hget⟩ := map_of_arrayItemFields? harray
    exact hasTextKeys_map.1 ((hasTextKeys_map.1 (h _ hmember)).get? hget)
  · obtain ⟨tag, rfl⟩ := fields?_eq_some hfields
    exact hasTextKeys_map.1 (h _ hmember)

theorem anyScalar_of_comparedSchemas [Inhabited τ] {members : List (Tree τ)} {schema : Fields τ}
    (hschema : schema ∈ comparedSchemas members) (hlong : schema.HasLong) :
    ∃ member ∈ members, member.anyScalar Scalar.isTooLong = true := by
  obtain ⟨member, hmember, harray | hfields⟩ := mem_of_comparedSchemas hschema
  · obtain ⟨tag, inner, items, rfl, hget⟩ := map_of_arrayItemFields? harray
    exact ⟨_, hmember, Fields.HasLong.anyScalar (.of_get? hget hlong.anyScalar)⟩
  · obtain ⟨tag, rfl⟩ := fields?_eq_some hfields
    exact ⟨_, hmember, hlong.anyScalar⟩

/-! ## The faults of the rules -/

/-- The shapes of the members of a union with text keys can be compared unless one of them
holds an integer with too many digits. -/
theorem listCoverFault?_of_members [Inhabited τ] {members : List (Tree τ)}
    (hmembers : Fields.items? fields "oneOf" = some members)
    (h : ∀ member ∈ members, member.HasTextKeys) :
    listCoverFault? fields = digitsFault? ((comparedSchemas members).any hasLongShape) := by
  simp only [listCoverFault?, hmembers]
  exact findSome?_digitsFault? fun schema hschema =>
    ofText?_shape (textKeys_of_comparedSchemas h hschema)

/-- The values of an enumeration with text keys can be compared unless one of them holds an
integer with too many digits. -/
theorem enumFault?_of_values {values : List (Tree τ)}
    (hvalues : Fields.items? fields "enum" = some values)
    (h : ∀ value ∈ values, value.HasTextKeys) :
    enumFault? fields = digitsFault? (values.any (anyScalar Scalar.isTooLong)) := by
  simp only [enumFault?, hvalues]
  exact findSome?_digitsFault? fun value hvalue => ofText?_likeness (h value hvalue)

/-- A shorthand that cannot be written is a member of one of the unions. -/
theorem error_of_dropShorthandIn {document : Tree τ} {location : Location} {keys : List String}
    {reason : Json.Unwritable}
    (h : (dropShorthandIn document location fields keys).2 = .error reason) :
    ∃ key ∈ keys, ∃ members, Fields.items? fields key = some members ∧
      ∃ member ∈ members, Json.text Json.compact member = .error reason := by
  have hwritten : ∀ {shorthand other : Tree τ},
      restatement document shorthand other = .unwritable reason →
      Json.text Json.compact shorthand = .error reason := by
    intro shorthand other h
    unfold restatement at h
    split at h
    · cases h
    · split at h
      · cases h
      · split at h
        · cases h
        · split at h
          · cases h
            assumption
          · split at h <;> cases h
  induction keys with
  | nil => cases h
  | cons key rest ih =>
      have hrest : (dropShorthandIn document location fields rest).2 = .error reason →
          ∃ key' ∈ key :: rest, ∃ members, Fields.items? fields key' = some members ∧
            ∃ member ∈ members, Json.text Json.compact member = .error reason := by
        intro h
        obtain ⟨other, hother, hfound⟩ := ih h
        exact ⟨other, List.mem_cons_of_mem _ hother, hfound⟩
      unfold dropShorthandIn at h
      split at h
      · rename_i first second hitems
        simp only at h
        split at h
        · cases h
        · rename_i hfirst
          cases h
          exact ⟨key, List.mem_cons_self, _, hitems, first, by simp, hwritten hfirst⟩
        · split at h
          · cases h
          · rename_i hsecond
            cases h
            exact ⟨key, List.mem_cons_self, _, hitems, second, by simp, hwritten hsecond⟩
          · exact hrest h
      · exact hrest h

variable (h : fields.TextKeys)
include h

theorem listCoverFault?_long [Inhabited τ] {fault : Fault}
    (hfault : listCoverFault? fields = some fault) :
    fault = .unwritable .tooManyDigits ∧ fields.HasLong := by
  cases hmembers : Fields.items? fields "oneOf" with
  | none =>
      simp only [listCoverFault?, hmembers] at hfault
      cases hfault
  | some members =>
      rw [listCoverFault?_of_members hmembers (h.items hmembers)] at hfault
      obtain ⟨hdigits, hany⟩ := eq_some_of_digitsFault? hfault
      obtain ⟨schema, hschema, hlong⟩ := List.any_eq_true.1 hany
      obtain ⟨member, hmember, hbelow⟩ :=
        anyScalar_of_comparedSchemas hschema (hasLong_of_hasLongShape hlong)
      exact ⟨hdigits, .of_items hmembers hmember hbelow⟩

theorem enumFault?_eq : enumFault? fields =
    digitsFault? (((Fields.items? fields "enum").getD []).any (anyScalar Scalar.isTooLong)) := by
  cases hvalues : Fields.items? fields "enum" with
  | none =>
      simp only [enumFault?, hvalues]
      rfl
  | some values => exact enumFault?_of_values hvalues (h.items hvalues)

theorem enumFault?_long {fault : Fault} (hfault : enumFault? fields = some fault) :
    fault = .unwritable .tooManyDigits ∧ fields.HasLong := by
  cases hvalues : Fields.items? fields "enum" with
  | none =>
      simp only [enumFault?, hvalues] at hfault
      cases hfault
  | some values =>
      rw [enumFault?_of_values hvalues (h.items hvalues)] at hfault
      obtain ⟨hdigits, hany⟩ := eq_some_of_digitsFault? hfault
      obtain ⟨value, hvalue, hlong⟩ := List.any_eq_true.1 hany
      exact ⟨hdigits, .of_items hvalues hvalue hlong⟩

theorem dropShorthandIn_long {document : Tree τ} {location : Location} {keys : List String}
    {reason : Json.Unwritable}
    (hreason : (dropShorthandIn document location fields keys).2 = .error reason) :
    reason = .tooManyDigits ∧ fields.HasLong := by
  obtain ⟨key, -, members, hitems, member, hmember, hwritten⟩ := error_of_dropShorthandIn hreason
  have hstops := Json.write_stops Json.compact 0 (h.items hitems member hmember) (.inl rfl)
  cases hlong : member.anyScalar Scalar.isTooLong with
  | true =>
      rw [hlong] at hstops
      refine ⟨Except.error.inj (hwritten.symm.trans hstops.eq_error),
        .of_items hitems hmember hlong⟩
  | false =>
      rw [hlong] at hstops
      obtain ⟨s, hs⟩ := hstops.exists_ok
      cases hwritten.symm.trans hs

theorem openMapFault?_eq_none : openMapFault? fields = none := by
  unfold openMapFault?
  rw [Option.bind_eq_none_iff]
  intro additional hget
  unfold unconstrainedFault?
  have hkeys := h.get? hget
  cases additional with
  | map tag inner =>
      simp only [Tree.fields?]
      split
      · rfl
      · split
        · rename_i key rest hrest
          have hmem : key ∈ inner.keys := List.dropWhile_subset _ (hrest ▸ List.mem_cons_self)
          obtain ⟨entry, hentry, rfl⟩ := List.mem_map.1 hmem
          obtain ⟨s, hs⟩ := (hasTextKeys_map.1 hkeys entry hentry).1
          simp [hs, Scalar.text?]
        · rfl
  | _ => rfl

theorem exclusivityFault?_eq_none : exclusivityFault? fields = none := by
  unfold exclusivityFault?
  split
  · rw [Option.bind_eq_none_iff]
    intro properties hproperties
    obtain ⟨value, hget, hof⟩ := Option.bind_eq_some_iff.1 hproperties
    cases value with
    | map tag inner =>
        cases hof
        refine List.findSome?_eq_none_iff.2 fun ⟨key, index⟩ hin => ?_
        have hmem := List.mem_of_getElem? (List.mem_zipIdx_iff_getElem?.1 hin)
        obtain ⟨entry, hentry, rfl⟩ := List.mem_map.1 hmem
        obtain ⟨s, hs⟩ := (hasTextKeys_map.1 (h.get? hget) entry hentry).1
        simp [hs, Scalar.text?]
    | _ => cases hof
  · rfl

end Rules

end ProtoShape
