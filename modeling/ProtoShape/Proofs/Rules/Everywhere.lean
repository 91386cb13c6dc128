import ProtoShape.Proofs.Rules.Inlining
import ProtoShape.Proofs.Rules.NormalForm
import ProtoShape.Rules.OpenMap
import ProtoShape.Rules.Restatement

/-!
# What rules keep of every mapping

A rule inserts keywords, erases some, and moves what is there.  So a property of the keys of a
mapping that these updates keep (`KeptByUpdates`) holds of all mappings at and below the result of
a rule where it holds of all at and below the schema.  There is one lemma for each rule.

Two properties are meant: that all keys are texts (`keptByUpdates_textKeys`), and that no two of
them are the same besides (`keptByUpdates_isObject`).
-/

namespace ProtoShape

open Rules Tree

variable {τ : Type} {p : Fields τ → Prop}

/-- A property of the keys of a mapping, all of them texts, that updates keep. -/
structure KeptByUpdates (p : Fields τ → Prop) : Prop where
  texts : ∀ {fields : Fields τ}, p fields → fields.hasTextKeys = true
  congr : ∀ {fields fields' : Fields τ}, fields'.keys = fields.keys → p fields → p fields'
  empty : p ∅
  insert : ∀ {fields : Fields τ}, p fields → ∀ (key : String) value, p (fields.insert key value)
  erase : ∀ {fields : Fields τ}, p fields → ∀ key, p (fields.erase key)

theorem keptByUpdates_isObject : KeptByUpdates (Entries.IsObject : Fields τ → Prop) where
  texts h := h.1
  congr hkeys h := (Entries.isObject_congr hkeys).2 h
  empty := ⟨rfl, List.nodup_nil⟩
  insert h key value := h.insert key value
  erase h key := h.erase key

theorem keptByUpdates_textKeys :
    KeptByUpdates fun fields : Fields τ => fields.hasTextKeys = true where
  texts := id
  congr hkeys h := by rwa [Entries.hasTextKeys, hkeys]
  empty := rfl
  insert h key value := by
    refine Entries.hasTextKeys_iff.2 fun entry hentry => ?_
    rcases Entries.mem_put hentry with hold | ⟨-, hnew | ⟨old, hold⟩⟩
    · exact Entries.hasTextKeys_iff.1 h entry hold
    · exact ⟨key, hnew⟩
    · exact Entries.hasTextKeys_iff.1 h (entry.1, old) hold
  erase h key := Entries.hasTextKeys_iff.2 fun entry hentry =>
    Entries.hasTextKeys_iff.1 h entry (List.mem_filter.1 hentry).1

namespace Fields

/-- A property holds of some fields and of every mapping below them. -/
def Everywhere (p : Fields τ → Prop) (fields : Fields τ) : Prop :=
  p fields ∧ ∀ entry ∈ fields.toList, entry.2.Everywhere p

end Fields

theorem everywhere_map_iff {tag : τ} {fields : Fields τ} :
    (Tree.map tag fields).Everywhere p ↔ fields.Everywhere p :=
  everywhere_map tag fields

theorem everywhere_ofText [Inhabited τ] (s : String) : (Tree.ofText s : Tree τ).Everywhere p :=
  everywhere_scalar default (.text s)

namespace Fields.Everywhere

variable {fields other : Fields τ} {value : Tree τ}

theorem get? (h : fields.Everywhere p) {key : Scalar} (hget : fields.get? key = some value) :
    value.Everywhere p := by
  obtain ⟨k, -, hmem⟩ := Entries.mem_of_get? hget
  exact h.2 _ hmem

/-- The items of the list under a key. -/
theorem items (h : fields.Everywhere p) {key : String} {members : List (Tree τ)}
    (hget : Fields.items? fields key = some members) : ∀ member ∈ members, member.Everywhere p := by
  obtain ⟨tag, hlist⟩ := Fields.items?_eq_some_iff.1 hget
  exact (everywhere_list tag members).1 (h.get? hlist)

section Updates

variable (hp : KeptByUpdates p)
include hp

theorem text (h : fields.Everywhere p) {entry : Scalar × Tree τ} (hentry : entry ∈ fields.toList) :
    ∃ s, entry.1 = .text s :=
  Entries.hasTextKeys_iff.1 (hp.texts h.1) entry hentry

theorem insert (h : fields.Everywhere p) (key : String) (hvalue : value.Everywhere p) :
    Fields.Everywhere p (fields.insert key value) := by
  refine ⟨hp.insert h.1 key value, fun entry hentry => ?_⟩
  rcases Entries.mem_put hentry with hold | ⟨heq, -⟩
  · exact h.2 entry hold
  · rw [heq]
    exact hvalue

theorem erase (h : fields.Everywhere p) (key : Scalar) : Fields.Everywhere p (fields.erase key) :=
  ⟨hp.erase h.1 key, fun entry hentry => h.2 entry (List.mem_filter.1 hentry).1⟩

theorem eraseAll (h : fields.Everywhere p) (keys : List String) :
    Fields.Everywhere p (fields.eraseAll keys) := by
  unfold Entries.eraseAll
  induction keys generalizing fields with
  | nil => exact h
  | cons key rest ih => exact ih (h.erase hp key)

theorem overlay (h : fields.Everywhere p) (hother : other.Everywhere p) :
    Fields.Everywhere p (fields.overlay other) := by
  have htexts : ∀ entry ∈ other.toList, (∃ s, entry.1 = .text s) ∧ entry.2.Everywhere p :=
    fun entry hentry => ⟨hother.text hp hentry, hother.2 entry hentry⟩
  clear hother
  obtain ⟨entries⟩ := other
  unfold Entries.overlay
  induction entries generalizing fields with
  | nil => exact h
  | cons entry rest ih =>
      obtain ⟨key, value⟩ := entry
      obtain ⟨⟨s, rfl⟩, hvalue⟩ := htexts _ List.mem_cons_self
      exact ih (h.insert hp s hvalue) fun entry hentry =>
        htexts entry (List.mem_cons_of_mem _ hentry)

theorem mapValues (h : fields.Everywhere p) {f : Tree τ → Tree τ}
    (hf : ∀ value ∈ fields.values, value.Everywhere p → (f value).Everywhere p) :
    Fields.Everywhere p (fields.mapValues f) := by
  refine ⟨hp.congr (Entries.keys_mapValues f fields) h.1, fun entry hentry => ?_⟩
  obtain ⟨old, hold, rfl⟩ := List.mem_map.1 hentry
  exact hf old.2 (List.mem_map_of_mem hold) (h.2 old hold)

theorem empty : Fields.Everywhere p (∅ : Fields τ) := ⟨hp.empty, fun _ hentry => nomatch hentry⟩

end Updates

end Fields.Everywhere

namespace Rules

variable {fields result : Fields τ}

/-- What a member contributes to an enumeration stands below it. -/
theorem everywhere_literal {member value : Tree τ} (hmember : member.Everywhere p)
    (hvalue : literal? member = some value) : value.Everywhere p := by
  cases member with
  | map tag inner =>
      have hinner := everywhere_map_iff.1 hmember
      simp only [literal?, Tree.fields?] at hvalue
      split at hvalue
      · cases hvalue
      · rcases Option.or_eq_some_iff.1 hvalue with hconst | ⟨-, htype⟩
        · exact hinner.get? hconst
        · exact hinner.get? (Option.filter_eq_some_iff.1 htype).1
  | _ => simp [literal?, Tree.fields?] at hvalue

theorem everywhere_propertiesOf [Inhabited τ] (hp : KeptByUpdates p)
    (h : fields.Everywhere p) {tag : τ}
    {properties : Fields τ} (hproperties : PropertiesOf fields tag properties) :
    properties.Everywhere p := by
  cases hproperties with
  | present hget => exact everywhere_map_iff.1 (h.get? hget)
  | absent => exact .empty hp

/-- The only property of a member, with what stands below it. -/
theorem OnlyProperty.everywhere {key : Scalar} {value member : Tree τ}
    (honly : OnlyProperty key value member)
    (hp : KeptByUpdates p) (h : member.Everywhere p) : (∃ s, key = .text s) ∧
    value.Everywhere p := by
  obtain ⟨-, -, hget⟩ := honly
  have hproperties := everywhere_map_iff.1 ((everywhere_map_iff.1 h).get? hget)
  have hentry : (key, value) ∈ [(key, value)] := List.mem_cons_self
  exact ⟨hproperties.text hp hentry, hproperties.2 (key, value) hentry⟩

theorem Merges.everywhere {properties merged : Fields τ} {members : List (Tree τ)}
    (hmerges : Merges properties members merged) (hp : KeptByUpdates p)
    (h : properties.Everywhere p)
    (hmembers : ∀ member ∈ members, member.Everywhere p) : merged.Everywhere p := by
  induction hmerges with
  | done => exact h
  | next honly _ _ ih =>
      obtain ⟨⟨s, rfl⟩, hvalue⟩ := honly.everywhere hp (hmembers _ List.mem_cons_self)
      exact ih (h.insert hp s hvalue) fun other hother =>
        hmembers other (List.mem_cons_of_mem _ hother)

section Kept

variable (hp : KeptByUpdates p) (h : fields.Everywhere p)
include hp h

/-- A member of a union gives way to its schema. -/
theorem everywhere_merge {key : String} {tag inner : τ} {items : List (Tree τ)} {member : Fields τ}
    (hget : fields.get? key = some (.list tag items)) (hmember : Tree.map inner member ∈ items) :
    Fields.Everywhere p ((fields.erase key).overlay member) :=
  (h.erase hp key).overlay hp
    (everywhere_map_iff.1 ((everywhere_list tag items).1 (h.get? hget) _ hmember))

theorem unwrapAll_everywhere : Fields.Everywhere p (unwrapAll fields) := by
  fun_induction unwrapAll fields with
  | case1 fields _ => exact h
  | case2 fields unwrapped hstep ih =>
      obtain ⟨key, hkey, hfound⟩ := List.exists_of_findSome?_eq_some hstep
      obtain ⟨member, hmember, rfl⟩ := Option.map_eq_some_iff.1 hfound
      obtain ⟨tag, inner, hget⟩ := get?_of_singleMember? hmember
      exact ih (everywhere_merge hp h hget List.mem_cons_self)

theorem unwrapComposites_everywhere (hresult : unwrapComposites fields = some result) :
    result.Everywhere p := by
  obtain ⟨unwrapped, hstep, rfl⟩ := Option.map_eq_some_iff.1 hresult
  rw [← unwrapAll_of_some hstep]
  exact unwrapAll_everywhere hp h

theorem KeepsMember.everywhere {key : String} (hkeeps : KeepsMember fields key result) :
    result.Everywhere p := by
  cases hkeeps with
  | mapping hget hmember => exact everywhere_merge hp h hget hmember
  | other => exact h.erase hp key

theorem dropShorthandIn_everywhere {document : Tree τ} {location : Location} {keys : List String}
    {found : Option (Fields τ)}
    (hfound : (dropShorthandIn document location fields keys).2 = .ok found) :
    Fields.Everywhere p (found.getD fields) := by
  rcases keepsMember_of_dropShorthandIn hfound with rfl | ⟨result, rfl, key, -, hkeeps⟩
  · exact h
  · exact hkeeps.everywhere hp h

variable [Inhabited τ]

theorem constsToEnum_everywhere (hresult : constsToEnum fields = some result) :
    result.Everywhere p := by
  unfold constsToEnum at hresult
  split at hresult
  · cases hresult
  · rename_i members hmembers
    split at hresult
    · obtain rfl := Option.some.inj hresult
      have hliterals : (Tree.ofList (members.filterMap literal?)).Everywhere p := by
        refine (everywhere_list _ _).2 fun literal hliteral => ?_
        obtain ⟨member, hmember, hof⟩ := List.mem_filterMap.1 hliteral
        exact everywhere_literal (h.items hmembers member hmember) hof
      exact ((h.erase hp "oneOf").insert hp "type" (everywhere_ofText _)).insert hp "enum" hliterals
    · cases hresult

theorem dropListCovered_everywhere (hresult : dropListCovered fields = some result) :
    result.Everywhere p := by
  unfold dropListCovered at hresult
  split at hresult
  · rename_i tag members hget
    simp only at hresult
    split at hresult
    · obtain rfl := Option.some.inj hresult
      have hmembers := (everywhere_list tag members).1 (h.get? hget)
      exact h.insert hp "oneOf" ((everywhere_list _ _).2 fun member hmember =>
        hmembers member (List.mem_filter.1 hmember).1)
    · cases hresult
  · cases hresult

theorem closeOpenMap_everywhere (hresult : closeOpenMap fields = some result) :
    result.Everywhere p := by
  unfold closeOpenMap at hresult
  split at hresult
  · cases hresult
  · split at hresult
    · obtain rfl := Option.some.inj hresult
      exact (h.insert hp "type" (everywhere_ofText _)).erase hp "additionalProperties"
    · cases hresult

theorem distinctEnum_everywhere (hresult : distinctEnum fields = some result) :
    result.Everywhere p := by
  unfold distinctEnum at hresult
  split at hresult
  · cases hresult
  · rename_i values hvalues
    simp only at hresult
    split at hresult
    · cases hresult
    · obtain rfl := Option.some.inj hresult
      refine h.insert hp "enum" ((everywhere_list _ _).2 fun value hvalue => ?_)
      obtain ⟨entry, hentry, rfl⟩ := List.mem_map.1 hvalue
      exact h.items hvalues _ (mem_lastOfEach hentry)

theorem renameNull_everywhere {sentinel : String}
    (hresult : renameNull sentinel fields = some result) :
    result.Everywhere p := by
  unfold renameNull at hresult
  split at hresult
  · obtain rfl := Option.some.inj hresult
    exact h.insert hp "type" (everywhere_ofText sentinel)
  · rename_i tag types hget
    split at hresult
    · obtain rfl := Option.some.inj hresult
      refine h.insert hp "type" ((everywhere_list _ _).2 fun type htype => ?_)
      obtain ⟨old, hold, rfl⟩ := List.mem_map.1 htype
      split
      · exact everywhere_ofText sentinel
      · exact (everywhere_list tag types).1 (h.get? hget) old hold
    · cases hresult
  · cases hresult

theorem MovesTitled.everywhere (hmoves : MovesTitled fields result) : result.Everywhere p := by
  obtain ⟨hget, -, -, -, hproperties, -⟩ := hmoves
  rename_i additional properties title
  have hadditional := everywhere_map_iff.1 (h.get? hget)
  have hmoved : (movedSchema additional).Everywhere p := by
    unfold movedSchema
    split
    · exact everywhere_map_iff.2
        ((Fields.Everywhere.empty hp).insert hp "type" (everywhere_ofText "object"))
    · exact everywhere_map_iff.2 (hadditional.erase hp "title")
  have hinner := (everywhere_propertiesOf hp h hproperties).insert hp title hmoved
  exact (h.insert hp "properties" (everywhere_map_iff.2 hinner)).eraseAll hp _

theorem MergesMembers.everywhere (hmerges : MergesMembers fields result) : result.Everywhere p := by
  obtain ⟨hget, -, hproperties, hmembers⟩ := hmerges
  rename_i tag inner members properties merged
  have hmerged := hmembers.everywhere hp (everywhere_propertiesOf hp h hproperties)
    ((everywhere_list _ _).1 (h.get? hget))
  have hone : (Tree.ofInt 1 : Tree τ).Everywhere p := everywhere_scalar _ _
  exact ((((h.erase hp "oneOf").insert hp "properties" (everywhere_map_iff.2 hmerged)).insert hp
    "minProperties" hone).insert hp "maxProperties" hone).erase hp "unevaluatedProperties"

omit h in
theorem markProperty_everywhere (flags : Flags) (note : String) {property : Tree τ}
    (h : property.Everywhere p) : (markProperty flags note property).Everywhere p := by
  cases property with
  | map tag inner =>
      have hmarked :=
        (everywhere_map_iff.1 h).insert hp flags.property (everywhere_scalar default (.bool true))
      unfold markProperty
      simp only
      split
      · exact everywhere_map_iff.2 (hmarked.insert hp _ (everywhere_ofText note))
      · exact everywhere_map_iff.2 hmarked
  | _ => exact h

theorem markExclusive_everywhere (flags : Flags) :
    Fields.Everywhere p ((markExclusive flags fields).getD fields) := by
  have hcomposite : ∀ {other result : Fields τ}, other.Everywhere p →
      markComposite flags other = some result →
      result.Everywhere p := by
    intro other result hother hresult
    unfold markComposite at hresult
    split at hresult
    · obtain rfl := Option.some.inj hresult
      exact hother.insert hp flags.schema (everywhere_scalar default (.bool true))
    · cases hresult
  have hgroup : ∀ {result : Fields τ}, markGroup flags fields = some result →
      result.Everywhere p := by
    intro result hresult
    unfold markGroup at hresult
    split at hresult
    · rename_i tag properties hget
      split at hresult
      · obtain rfl := Option.some.inj hresult
        have hmarked := (everywhere_map_iff.1 (h.get? hget)).mapValues hp fun value _ hvalue =>
          markProperty_everywhere hp flags (groupNote properties) hvalue
        exact (h.insert hp "properties" (everywhere_map_iff.2 hmarked)).insert hp flags.schema
          (everywhere_scalar default (.bool true))
      · cases hresult
    · cases hresult
  unfold markExclusive
  cases hmarked : markGroup flags fields with
  | some tagged =>
      simp only [Option.getD_some]
      cases hboth : markComposite flags tagged with
      | some result => exact hcomposite (hgroup hmarked) hboth
      | none => exact hgroup hmarked
  | none =>
      simp only
      cases hpart : markComposite flags fields with
      | some result => exact hcomposite h hpart
      | none => exact h

end Kept

end Rules

end ProtoShape
