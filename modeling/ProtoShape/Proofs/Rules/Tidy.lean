import ProtoShape.Proofs.Paths
import ProtoShape.Proofs.Rules.Tags

/-!
# What stays of the normal form

The second phase patches schemas that have been cleaned up.  `TidyValue` is what stays of
the normal form of a value then.  It allows for two things more.

* A composite may have a single member where that is permitted (`Permit`).
* Values of an enumeration that are no scalars may repeat each other, since they may
  be patched.

`ValueAfter` is what a patch or a rule makes of a value, as far as `TidyValue` is
concerned, and `MemberAfter` is the same of a member of a list.  A change somewhere below
a value makes it a value after itself (`valueAfter_mapChildren`).
-/

namespace ProtoShape.Rules

variable {τ : Type}

/-! ## Scalars in an enumeration -/

theorem kind_likeness (t : Tree τ) : (likeness t).kind = t.kindName := by
  cases t with
  | scalar tag s => cases s <;> rfl
  | list tag items => rfl
  | map tag fields => rfl

/-- A scalar is like no list and no mapping. -/
theorem scalar?_of_likeness {t u : Tree τ} (h : likeness t = likeness u)
    (ht : t.scalar?.isSome = true) :
    u.scalar?.isSome = true := by
  have hkind := congrArg Likeness.kind h
  rw [kind_likeness, kind_likeness] at hkind
  cases t with
  | scalar tag s =>
      have hnone : ∀ kind ∈ ["list", "dict"], s.kindName ≠ kind := by
        rintro kind hmem rfl
        cases s with
        | foreign value => exact value.kind_not_mem (List.mem_of_mem_drop (i := 5) hmem)
        | _ => simp [Scalar.kindName] at hmem
      cases u with
      | scalar tag' s' => rfl
      | list tag' items => exact absurd hkind (hnone _ (by simp [Tree.kindName]))
      | map tag' fields => exact absurd hkind (hnone _ (by simp [Tree.kindName]))
  | _ => cases ht

/-- What the scalars among some values are like. -/
def scalarLikenesses (values : List (Tree τ)) : List Likeness :=
  (values.filterMap Tree.scalar?).map fun s => likeness (Tree.scalar () s)

theorem likeness_scalar (tag : τ) (s : Scalar) :
    likeness (Tree.scalar tag s) = likeness (Tree.scalar () s) := by
  rw [← likeness_mapTags (fun _ => ()) (Tree.scalar tag s), Tree.mapTags_scalar]

theorem scalarLikenesses_sublist (values : List (Tree τ)) :
    (scalarLikenesses values).Sublist (values.map likeness) := by
  induction values with
  | nil => exact List.Sublist.refl _
  | cons value rest ih =>
      unfold scalarLikenesses at ih ⊢
      cases value with
      | scalar tag s =>
          rw [List.map_cons, likeness_scalar]
          exact ih.cons_cons _
      | _ => exact ih.cons _

theorem length_settle (key : Likeness) (value : Tree τ) (folded : List (Likeness × Tree τ)) :
    (settle key value folded).length =
      if key ∈ folded.map (·.1) then folded.length else folded.length + 1 := by
  have hkeys := congrArg List.length (map_fst_settle key value folded)
  rw [List.length_map] at hkeys
  rw [hkeys]
  split <;> simp

/-- Where no value is like another one, each is the last of its kind. -/
theorem lastOfEach_of_nodup {values : List (Tree τ)} (h : (values.map likeness).Nodup) :
    lastOfEach values = values.map fun value => (likeness value, value) := by
  have hfolded : IsFolded (values.map fun value => (likeness value, value)) := by
    refine ⟨by simpa [Function.comp_def] using h, fun entry hentry => ?_⟩
    obtain ⟨value, -, rfl⟩ := List.mem_map.1 hentry
    rfl
  have hlast := lastOfEach_of_isFolded hfolded
  rw [List.map_map, show ((·.2) ∘ fun value : Tree τ => (likeness value, value)) = id from rfl,
    List.map_id] at hlast
  exact hlast

/-- Values fold to as many values where none is like another one. -/
theorem length_lastOfEach_iff {values : List (Tree τ)} :
    (lastOfEach values).length = values.length ↔ (values.map likeness).Nodup := by
  constructor
  case mpr =>
    intro h
    rw [lastOfEach_of_nodup h, List.length_map]
  intro h
  -- Folding adds one entry at most for each value.
  have hle : ∀ (rest : List (Tree τ)) (folded : List (Likeness × Tree τ)),
      (rest.foldl (fun folded value => settle (likeness value) value folded) folded).length ≤
        folded.length + rest.length := by
    intro rest
    induction rest with
    | nil => exact fun folded => Nat.le_refl _
    | cons value rest ih =>
        intro folded
        have hrest := ih (settle (likeness value) value folded)
        have hlength := length_settle (likeness value) value folded
        rw [List.foldl_cons, List.length_cons]
        split at hlength <;> omega
  suffices hall : ∀ (rest : List (Tree τ)) (folded : List (Likeness × Tree τ)),
      (rest.foldl (fun folded value => settle (likeness value) value folded) folded).length =
        folded.length + rest.length →
      (rest.map likeness).Nodup ∧ ∀ k ∈ rest.map likeness, k ∉ folded.map (·.1) from
    (hall values [] (by simpa [lastOfEach] using h)).1
  intro rest
  induction rest with
  | nil => exact fun _ _ => ⟨List.nodup_nil, by simp⟩
  | cons value rest ih =>
      intro folded hlength
      rw [List.foldl_cons, List.length_cons] at hlength
      have hrest := hle rest (settle (likeness value) value folded)
      have hsettle := length_settle (likeness value) value folded
      have hfresh : likeness value ∉ folded.map (·.1) := by
        intro hmem
        rw [if_pos hmem] at hsettle
        omega
      rw [if_neg hfresh] at hsettle
      obtain ⟨hnodup, hdisjoint⟩ := ih (settle (likeness value) value folded) (by omega)
      have hkeys := map_fst_settle (likeness value) value folded
      rw [if_neg hfresh] at hkeys
      rw [hkeys] at hdisjoint
      simp only [List.mem_append, List.mem_singleton, not_or] at hdisjoint
      rw [List.map_cons, List.nodup_cons]
      refine ⟨⟨fun hmem => (hdisjoint _ hmem).2 rfl, hnodup⟩, fun k hk => ?_⟩
      rcases List.mem_cons.1 hk with rfl | hin
      · exact hfresh
      · exact (hdisjoint k hin).1

/-! ## Scalars before and after a change -/

theorem text?_congr {old new : Tree τ} (h : new.scalar? = old.scalar?) : new.text? = old.text? := by
  cases new with
  | scalar tag s =>
      cases old with
      | scalar tag' s' =>
          obtain rfl : s = s' := by simpa [Tree.scalar?] using h
          cases s <;> rfl
      | _ => cases h
  | _ => cases old <;> first | rfl | cases h

theorem isTrue_congr {old new : Tree τ} (h : new.scalar? = old.scalar?) :
    isTrue new = isTrue old := by
  cases new with
  | scalar tag s =>
      cases old with
      | scalar tag' s' =>
          obtain rfl : s = s' := by simpa [Tree.scalar?] using h
          cases s <;> rfl
      | _ => cases h
  | _ => cases old <;> first | rfl | cases h

/-! ## Tidy values -/

/-- What a tidy value is allowed.  `lone` says which composites may have a single member, by the
keyword, the number of the list and whether the member is a mapping.  `enum` says which lists may be
enumerations. -/
structure Permit where
  lone : String → Nat → Bool → Prop
  enum : Nat → Prop

variable {permits : Permit} {key : String}

/-- What stays of the normal form of the value of a keyword.  An `allOf` without members may
get a single one, so that has to be permitted. -/
structure TidyValue (permits : Permit) (key : String) (value : Node) : Prop where
  noConst : NoConstMember key value
  lone : key ∈ combiningKeys → ∀ tag member, value = .list tag [member] →
    ∃ n, tag = some n ∧ permits.lone key n member.fields?.isSome
  empty : key = "allOf" → ∀ tag, value = .list tag [] → ∃ n, tag = some n ∧ permits.lone key n true
  listed : key = "enum" → ∀ tag items, value = .list tag items → ∃ n, tag = some n ∧ permits.enum n
  notOpen : NotOpen key value
  notNull : NotNull key value
  distinct : key = "enum" → (scalarLikenesses (value.items?.getD [])).Nodup

/-- A normal value is tidy where the permit lets it be. -/
theorem NormalValue.tidy {value : Node} (h : NormalValue key value)
    (hlone : ∀ tag member, value = .list tag [member] → member.fields?.isSome = false →
      ∃ n, tag = some n ∧ permits.lone key n false)
    (hempty : key = "allOf" → ∀ tag, value = .list tag [] → ∃ n, tag = some n ∧
      permits.lone key n true)
    (hlisted : key = "enum" → ∀ tag items, value = .list tag items → ∃ n, tag = some n ∧
      permits.enum n) :
    TidyValue permits key value := by
  refine ⟨h.noConst, fun hkey tag member heq => ?_, hempty, hlisted, h.notOpen,
    h.notNull, fun hkey => ?_⟩
  · have hodd : member.fields?.isSome = false := by
      cases member with
      | map inner fields => exact absurd heq (h.notLone hkey tag inner fields)
      | _ => rfl
    rw [hodd]
    exact hlone tag member heq hodd
  · cases hitems : value.items? with
    | none => exact List.nodup_nil
    | some items =>
        exact (length_lastOfEach_iff.1 (h.distinct hkey items hitems)).sublist
          (scalarLikenesses_sublist items)

/-- The keywords that `TidyValue` speaks of. -/
def watchedKeys : List String := ["type", "enum", "additionalProperties", "allOf", "anyOf", "oneOf"]

/-- Other keywords take any value. -/
theorem TidyValue.of_not_mem (h : key ∉ watchedKeys) (value : Node) :
    TidyValue permits key value := by
  simp only [watchedKeys, List.mem_cons, List.not_mem_nil, or_false, not_or] at h
  obtain ⟨htype, henum, hadditional, hall, hany, hone⟩ := h
  refine ⟨fun heq => absurd heq hone, fun hkey => ?_, fun heq => absurd heq hall,
    fun heq => absurd heq henum, fun heq => absurd heq hadditional, fun heq => absurd heq htype,
    fun heq => absurd heq henum⟩
  rcases (by simpa [combiningKeys] using hkey : key = "allOf" ∨ key = "anyOf" ∨ key = "oneOf") with
    heq | heq | heq
  · exact absurd heq hall
  · exact absurd heq hany
  · exact absurd heq hone

theorem TidyValue.ofText {s : String} (h : s ≠ "null") : TidyValue permits "type" (.ofText s) :=
  ⟨fun heq => absurd heq (by decide), fun hkey => absurd hkey (by decide),
    fun heq => absurd heq (by decide), fun heq => absurd heq (by decide),
    fun heq => absurd heq (by decide),
    notNull_ofText "type" h, fun heq => absurd heq (by decide)⟩

/-- A mapping is tidy under every keyword if it constrains something. -/
theorem TidyValue.ofMapping {tag : Tag} {fields : Fields Tag}
    (h : isUnconstrained (.map tag fields) = false) (key : String) :
    TidyValue permits key (.map tag fields) := by
  refine ⟨fun _ _ hmember => ?_, fun _ _ _ heq => ?_, fun _ _ heq => ?_, fun _ _ _ heq => ?_,
    fun _ => ⟨rfl, h⟩, fun _ => ⟨rfl, fun _ htype => ?_⟩, fun _ => List.nodup_nil⟩
  · cases hmember
  · cases heq
  · cases heq
  · cases heq
  · cases htype

/-- A schema whose values are tidy, unless it is a reference. -/
def IsTidy (permits : Permit) (t : Node) : Prop :=
  ∀ fields, t.fields? = some fields → Fields.isReference fields = false →
    fields.Each (TidyValue permits)

/-! ## Values after a change -/

section After

variable {old between new : Node}

/-- A member of a list after a change. -/
structure MemberAfter (old new : Node) : Prop where
  scalar : new.scalar? = old.scalar?
  mapping : new.fields?.isSome = old.fields?.isSome
  const : const? old = none → const? new = none

/-- The items of a list after a change. -/
structure ItemsAfter (old new : List Node) : Prop where
  const : (∀ member ∈ old, const? member = none) → ∀ member ∈ new, const? member = none
  scalars : (new.filterMap Tree.scalar?).Sublist (old.filterMap Tree.scalar?)
  empty : new = [] → old = []
  lone : ∀ member', new = [member'] →
    ∃ member, old = [member] ∧ member'.fields?.isSome = member.fields?.isSome

/-- The value of a keyword after a change. -/
structure ValueAfter (old new : Node) : Prop extends MemberAfter old new where
  constrained : isUnconstrained old = false → isUnconstrained new = false
  items : ∀ tag' items', new = .list tag' items' → ∃ tag items, old = .list tag items ∧
    (∀ n, tag = some n → tag' = some n) ∧ ItemsAfter items items'

theorem MemberAfter.refl (t : Node) : MemberAfter t t := ⟨rfl, rfl, id⟩

theorem ItemsAfter.refl (items : List Node) : ItemsAfter items items :=
  ⟨id, List.Sublist.refl _, id, fun member heq => ⟨member, heq, rfl⟩⟩

theorem ValueAfter.refl (t : Node) : ValueAfter t t :=
  ⟨.refl t, id, fun tag items heq => ⟨tag, items, heq, fun _ => id, .refl items⟩⟩

theorem MemberAfter.trans (h : MemberAfter old between) (h' : MemberAfter between new) :
    MemberAfter old new :=
  ⟨h'.scalar.trans h.scalar, h'.mapping.trans h.mapping, fun hconst => h'.const (h.const hconst)⟩

theorem ItemsAfter.trans {first second third : List Node} (h : ItemsAfter first second)
    (h' : ItemsAfter second third) : ItemsAfter first third := by
  refine ⟨fun hconst => h'.const (h.const hconst), h'.scalars.trans h.scalars,
    fun hnone => h.empty (h'.empty hnone), fun member'' heq'' => ?_⟩
  obtain ⟨member', heq', hmapping'⟩ := h'.lone member'' heq''
  obtain ⟨member, heq, hmapping⟩ := h.lone member' heq'
  exact ⟨member, heq, hmapping'.trans hmapping⟩

theorem ValueAfter.trans (h : ValueAfter old between) (h' : ValueAfter between new) :
    ValueAfter old new := by
  refine ⟨h.toMemberAfter.trans h'.toMemberAfter, fun hfree => h'.constrained (h.constrained hfree),
    fun tag'' items'' heq'' => ?_⟩
  obtain ⟨tag', items', heq', htag', hafter'⟩ := h'.items tag'' items'' heq''
  obtain ⟨tag, items, heq, htag, hafter⟩ := h.items tag' items' heq'
  exact ⟨tag, items, heq, fun n hn => htag' n (htag n hn), hafter.trans hafter'⟩

/-- The items after a change, for a list and for what is none. -/
theorem ValueAfter.itemsAfter (h : ValueAfter old new) :
    ItemsAfter (old.items?.getD []) (new.items?.getD []) ∨ new.items? = none := by
  cases new with
  | list tag' items' =>
      obtain ⟨tag, items, rfl, -, hafter⟩ := h.items tag' items' rfl
      exact Or.inl hafter
  | _ => exact Or.inr rfl

/-- A tidy value stays tidy. -/
theorem TidyValue.after (h : TidyValue permits key old) (hafter : ValueAfter old new) :
    TidyValue permits key new := by
  refine ⟨fun hkey => ?_, fun hkey tag' member' heq => ?_, fun hkey tag' heq => ?_,
    fun hkey tag' items' heq => ?_, fun hkey => ?_, fun hkey => ?_, fun hkey => ?_⟩
  · rcases hafter.itemsAfter with hitems | hnone
    · exact hitems.const (h.noConst hkey)
    · simp [hnone]
  · obtain ⟨tag, items, rfl, htag, hitems⟩ := hafter.items tag' _ heq
    obtain ⟨member, rfl, hmapping⟩ := hitems.lone member' rfl
    obtain ⟨n, hn, hpermit⟩ := h.lone hkey tag member rfl
    exact ⟨n, htag n hn, hmapping ▸ hpermit⟩
  · obtain ⟨tag, items, rfl, htag, hitems⟩ := hafter.items tag' _ heq
    obtain rfl := hitems.empty rfl
    obtain ⟨n, hn, hpermit⟩ := h.empty hkey tag rfl
    exact ⟨n, htag n hn, hpermit⟩
  · obtain ⟨tag, items, rfl, htag, -⟩ := hafter.items tag' items' heq
    obtain ⟨n, hn, hpermit⟩ := h.listed hkey tag items rfl
    exact ⟨n, htag n hn, hpermit⟩
  · obtain ⟨htrue, hfree⟩ := h.notOpen hkey
    exact ⟨(isTrue_congr hafter.scalar).trans htrue, hafter.constrained hfree⟩
  · obtain ⟨htext, htypes⟩ := h.notNull hkey
    refine ⟨?_, fun type htype => ?_⟩
    · unfold Tree.isText at htext ⊢
      rw [text?_congr hafter.scalar, htext]
    · rcases hafter.itemsAfter with hitems | hnone
      · rw [Bool.eq_false_iff]
        intro hnull
        obtain ⟨tag, rfl⟩ := isText_eq_true_iff.1 hnull
        have hmem := hitems.scalars.subset (List.mem_filterMap.2 ⟨_, htype, rfl⟩)
        obtain ⟨type', htype', hscalar⟩ := List.mem_filterMap.1 hmem
        have htext : type'.text? = (Tree.scalar tag (.text "null")).text? := text?_congr hscalar
        have hplain := htypes type' htype'
        unfold Tree.isText at hplain
        rw [htext] at hplain
        cases hplain
      · simp [hnone] at htype
  · rcases hafter.itemsAfter with hitems | hnone
    · exact (h.distinct hkey).sublist (hitems.scalars.map _)
    · rw [hnone]
      exact List.nodup_nil

end After

/-! ### Changes below a value -/

section Children

variable {g : Tree τ → Tree τ}

theorem fieldsText?_mapValues {fields : Fields τ}
    (h : ∀ value ∈ fields.values, (g value).scalar? = value.scalar?) (key : String) :
    Fields.text? (fields.mapValues g) key = Fields.text? fields key := by
  unfold Fields.text?
  rw [Entries.get?_mapValues]
  cases hget : fields.get? key with
  | none => rfl
  | some value =>
      obtain ⟨k, -, hmem⟩ := Entries.mem_of_get? hget
      exact text?_congr (h value (List.mem_map_of_mem hmem))

theorem contains_mapValues (fields : Fields τ) (key : Scalar) :
    (fields.mapValues g).contains key = fields.contains key := by
  unfold Entries.contains
  rw [Entries.get?_mapValues, Option.isSome_map]

theorem isReference_mapValues {fields : Fields τ}
    (h : ∀ value ∈ fields.values, (g value).scalar? = value.scalar?) :
    Fields.isReference (fields.mapValues g) = Fields.isReference fields :=
  congrArg Option.isSome (fieldsText?_mapValues h "$ref")

theorem fieldsUnconstrained_mapValues {fields : Fields τ}
    (h : ∀ value ∈ fields.values, (g value).scalar? = value.scalar?) :
    fieldsUnconstrained (fields.mapValues g) = fieldsUnconstrained fields := by
  unfold fieldsUnconstrained
  rw [Entries.get?_mapValues]
  cases hget : fields.get? "type" with
  | none => rw [Option.map_none, Entries.keys_mapValues]
  | some type =>
      obtain ⟨k, -, hmem⟩ := Entries.mem_of_get? hget
      have htype := text?_congr (h type (List.mem_map_of_mem hmem))
      simp only [Option.map_some, Tree.isText, htype, contains_mapValues]

theorem const?_eq_none_iff {tag : τ} {fields : Fields τ} :
    const? (.map tag fields) = none ↔ Fields.isReference fields = true ∨
    fields.contains "const" = false := by
  unfold const? Tree.fields?
  simp only
  split
  · rename_i href
    simp [href]
  · rename_i href
    simp [href, Entries.contains]

theorem memberAfter_mapChildren {g : Node → Node} {t : Node}
    (h : ∀ child ∈ t.children, (g child).scalar? = child.scalar?) :
    MemberAfter t (t.mapChildren g) := by
  cases t with
  | scalar tag s => exact .refl _
  | list tag items => exact ⟨rfl, rfl, id⟩
  | map tag fields =>
      refine ⟨rfl, rfl, fun hconst => ?_⟩
      rw [Tree.mapChildren, const?_eq_none_iff, isReference_mapValues h, contains_mapValues]
      exact const?_eq_none_iff.1 hconst

theorem itemsAfter_map {g : Node → Node} {items : List Node}
    (h : ∀ item ∈ items, MemberAfter item (g item)) : ItemsAfter items (items.map g) := by
  refine ⟨fun hconst member hmember => ?_, ?_, List.map_eq_nil_iff.1, fun member' heq => ?_⟩
  · obtain ⟨item, hitem, rfl⟩ := List.mem_map.1 hmember
    exact (h item hitem).const (hconst item hitem)
  · have hsame : items.filterMap (Tree.scalar? ∘ g) = items.filterMap Tree.scalar? :=
      List.filterMap_congr fun item hitem => (h item hitem).scalar
    rw [List.filterMap_map, hsame]
  · obtain ⟨item, rfl, rfl⟩ := List.map_eq_singleton_iff.1 heq
    exact ⟨item, rfl, (h item (List.mem_singleton_self item)).mapping⟩

/-- A value keeps its shape where only its children change.  What becomes of a child matters
in a list only. -/
theorem valueAfter_mapChildren {g : Node → Node} {t : Node}
    (hscalar : ∀ child ∈ t.children, (g child).scalar? = child.scalar?)
    (hitem : ∀ tag items, t = .list tag items → ∀ item ∈ items, MemberAfter item (g item)) :
    ValueAfter t (t.mapChildren g) := by
  refine ⟨memberAfter_mapChildren hscalar, fun hfree => ?_, fun tag' items' heq => ?_⟩
  · cases t with
    | map tag fields => exact (fieldsUnconstrained_mapValues hscalar).trans hfree
    | _ => rfl
  · cases t with
    | list tag items =>
        obtain ⟨rfl, rfl⟩ := Tree.list.inj heq
        exact ⟨_, items, rfl, fun _ => id, itemsAfter_map (hitem _ items rfl)⟩
    | _ => cases heq

end Children

/-- Trees with the same value take each other's place. -/
theorem memberAfter_of_erase {old new : Node} (h : old.erase = new.erase) :
    MemberAfter old new := by
  have hscalar := congrArg Tree.scalar? h
  have hconst := congrArg const? h
  simp only [Tree.erase, Tree.scalar?_mapTags, const?_mapTags] at hscalar hconst
  refine ⟨hscalar.symm, (Tree.isSome_fields?_congr h).symm, fun hnone => ?_⟩
  rwa [hnone, Option.map_none, eq_comm, Option.map_eq_none_iff] at hconst

theorem itemsAfter_of_erase {old new : List Node} (h : old.map Tree.erase = new.map Tree.erase) :
    ItemsAfter old new := by
  have hmember : ∀ member' ∈ new, ∃ member ∈ old, MemberAfter member member' := by
    intro member' hmember'
    have hin : member'.erase ∈ old.map Tree.erase := h ▸ List.mem_map_of_mem hmember'
    obtain ⟨member, hmember, heq⟩ := List.mem_map.1 hin
    exact ⟨member, hmember, memberAfter_of_erase heq⟩
  have hplain : ∀ items : List Node,
      items.filterMap Tree.scalar? = (items.map Tree.erase).filterMap Tree.scalar? := by
    intro items
    rw [List.filterMap_map]
    exact List.filterMap_congr fun item _ => (Tree.scalar?_mapTags _ item).symm
  refine ⟨fun hconst member' hmember' => ?_, ?_, ?_, ?_⟩
  · obtain ⟨member, hin, hafter⟩ := hmember member' hmember'
    exact hafter.const (hconst member hin)
  · rw [hplain old, hplain new, h]
  · rintro rfl
    simpa using h
  · rintro member' rfl
    obtain ⟨member, rfl, heq⟩ := List.map_eq_singleton_iff.1 h
    exact ⟨member, rfl, (memberAfter_of_erase heq).mapping⟩

theorem valueAfter_of_erase {old new : Node} (h : old.erase = new.erase)
    (htag : ∀ n, old.tag = some n → new.tag = some n) : ValueAfter old new := by
  refine ⟨memberAfter_of_erase h, fun hfree => ?_, fun tag' items' hnew => ?_⟩
  · have hsame := congrArg isUnconstrained h
    simp only [Tree.erase, isUnconstrained_mapTags] at hsame
    rw [← hsame, hfree]
  · subst hnew
    have hitems := congrArg Tree.items? h
    rw [Tree.erase, Tree.erase, Tree.items?_mapTags, Tree.items?_mapTags] at hitems
    cases old with
    | list tag items => exact ⟨tag, items, rfl, htag, itemsAfter_of_erase (Option.some.inj hitems)⟩
    | _ => cases hitems

end ProtoShape.Rules
