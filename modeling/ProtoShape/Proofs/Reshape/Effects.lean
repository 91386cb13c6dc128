import ProtoShape.Proofs.Places
import ProtoShape.Proofs.Reshape.Updates
import ProtoShape.Proofs.Rules.Tidy

/-!
# What patches and rules make of tidy schemas

The changes of the second phase are looked at one by one, each at the node that it is
made to.

* The node may take the place that it had under a keyword (`Addition.after`,
  `Rewrite.after`).
* If it is a schema and tidy, it stays tidy (`Addition.tidy`, `isTidy_keyed`,
  `Rewrite.tidy`).
* What a walk sees below it is what it saw there before, or new and tidy
  (`Addition.traced`, `traced_keyed`, `traced_part`, `Rewrite.traced`).
-/

namespace ProtoShape

open Rules Tree

/-! ## Mappings that get one more entry -/

section Insert

variable {tag : Tag} {fields : Fields Tag} {key other : String} {value : Node}

theorem contains_eq_of_get? {fields fields' : Fields Tag} {key : String}
    (h : fields'.get? key = fields.get? key) : fields'.contains key = fields.contains key :=
  congrArg Option.isSome h

theorem get?_insert_of_ne (h : other ≠ key) (fields : Fields Tag) (value : Node) :
    (fields.insert key value).get? other = fields.get? other := by
  rw [Entries.get?_insert, if_neg]
  simpa using h

theorem contains_insert (h : fields.contains other = true) (key : String) (value : Node) :
    (fields.insert key value).contains other = true := by
  by_cases heq : other = key
  · subst heq
    unfold Entries.contains
    rw [Entries.get?_insert_self]
    rfl
  · rw [contains_eq_of_get? (get?_insert_of_ne heq fields value), h]

/-- A new entry that is no text makes no reference. -/
theorem isReference_insert_absent (habsent : fields.get? key = none) (htext : value.text? = none) :
    Fields.isReference (fields.insert key value) = Fields.isReference fields := by
  by_cases hkey : key = "$ref"
  · subst hkey
    unfold Fields.isReference Fields.ref? Fields.text?
    rw [Entries.get?_insert_self, habsent, Option.bind_some, htext]
    rfl
  · exact Fields.isReference_insert hkey value

/-- A schema with a structural keyword constrains something. -/
theorem fieldsUnconstrained_of_structural (hkey : key ∈ structuralKeys)
    (h : fields.contains key = true) : fieldsUnconstrained fields = false := by
  unfold fieldsUnconstrained
  split
  · obtain ⟨value, hget⟩ := Option.isSome_iff_exists.1 h
    obtain ⟨k, hk, hmem⟩ := Entries.mem_of_get? hget
    obtain rfl := Scalar.key_eq_text_iff.1 hk
    have hplain : ∀ key ∈ structuralKeys, isDescriptive (.text key) = false := by decide
    exact List.all_eq_false.2 ⟨.text key, List.mem_map_of_mem hmem, by simp [hplain key hkey]⟩
  · have hany : structuralKeys.any (fields.contains ·) = true := List.any_eq_true.2 ⟨key, hkey, h⟩
    simp [hany]

/-- A schema that constrains something does so with more entries, too. -/
theorem fieldsUnconstrained_insert (hkey : key ≠ "type") (value : Node)
    (h : fieldsUnconstrained fields = false) :
    fieldsUnconstrained (fields.insert key value) = false := by
  have htype := get?_insert_of_ne (fun heq => hkey heq.symm : "type" ≠ key) fields value
  unfold fieldsUnconstrained at h ⊢
  rw [htype]
  cases hget : fields.get? "type" with
  | none =>
      rw [hget] at h
      obtain ⟨k, hk, hnot⟩ := List.all_eq_false.1 h
      refine List.all_eq_false.2 ⟨k, ?_, hnot⟩
      rw [Entries.keys_insert]
      split
      · exact hk
      · exact List.mem_append_left _ hk
  | some type =>
      rw [hget] at h
      simp only [Bool.and_eq_false_iff, Bool.not_eq_false'] at h ⊢
      refine h.imp_right fun hany => ?_
      obtain ⟨k, hk, hcontains⟩ := List.any_eq_true.1 hany
      exact List.any_eq_true.2 ⟨k, hk, contains_insert hcontains key value⟩

/-- The keywords that a part of a schema is judged by. -/
def judgedKeys : List String := ["$ref", "const", "type"]

theorem valueAfter_insert (hkey : key ∉ judgedKeys) :
    ValueAfter (.map tag fields) (.map tag (fields.insert key value)) := by
  have hsame : ∀ other ∈ judgedKeys, (fields.insert key value).get? other = fields.get? other := by
    intro other hother
    refine get?_insert_of_ne ?_ fields value
    rintro rfl
    exact hkey hother
  refine ⟨⟨rfl, rfl, fun hconst => ?_⟩, fun hfree => ?_, fun tag' items' heq => nomatch heq⟩
  · rw [const?_eq_none_iff, Fields.isReference_congr (hsame "$ref" (by decide)),
      contains_eq_of_get? (hsame "const" (by decide))]
    exact const?_eq_none_iff.1 hconst
  · refine fieldsUnconstrained_insert ?_ value hfree
    rintro rfl
    exact hkey (by decide)

end Insert

/-! ## Patches -/

theorem filterMap_scalar?_set (items : List Node) (index : Nat) {new : Node}
    (h : new.scalar? = none) :
    ((items.set index new).filterMap Tree.scalar?).Sublist (items.filterMap Tree.scalar?) := by
  induction items generalizing index with
  | nil => exact List.Sublist.refl _
  | cons item rest ih =>
      cases index with
      | zero =>
          rw [List.set_cons_zero, List.filterMap_cons_none h]
          exact (List.sublist_cons_self item rest).filterMap _
      | succ index =>
          have hrest := ih index
          rw [List.set_cons_succ]
          cases hitem : item.scalar? with
          | none =>
              rw [List.filterMap_cons_none hitem, List.filterMap_cons_none hitem]
              exact hrest
          | some s =>
              rw [List.filterMap_cons_some hitem, List.filterMap_cons_some hitem]
              exact hrest.cons_cons s

theorem itemsAfter_wrapAt {items : List Node} (index : Nat) (key : String)
    (hbare : ∀ item, items = [item] → IsBare item) : ItemsAfter items (wrapAt index key items) := by
  have hlength := length_wrapAt index key items
  refine ⟨fun hconst member hmember => ?_, ?_, fun hnone => ?_, fun member' heq => ?_⟩
  · rcases mem_wrapAt hmember with hold | ⟨old, -, rfl⟩
    · exact hconst member hold
    · exact const?_eq_none_iff.2 (Or.inr rfl)
  · unfold wrapAt
    split
    · exact filterMap_scalar?_set items index rfl
    · exact List.Sublist.refl _
  · rw [hnone] at hlength
    exact List.eq_nil_of_length_eq_zero hlength.symm
  · rw [heq] at hlength
    obtain ⟨item, rfl⟩ := List.length_eq_one_iff.1 hlength.symm
    obtain ⟨tag, fields, rfl, -⟩ := hbare item rfl
    refine ⟨_, rfl, ?_⟩
    rcases mem_wrapAt (heq ▸ List.mem_singleton_self member') with hold | ⟨old, -, rfl⟩
    · rw [List.mem_singleton.1 hold]
    · rfl

theorem memberAfter_list {tag tag' : Tag} (items items' : List Node) :
    MemberAfter (.list tag items) (.list tag' items') :=
  ⟨rfl, rfl, id⟩

theorem Addition.after {u v : Node} (h : Addition u v) : ValueAfter u v := by
  cases h with
  | same => exact .refl u
  | @wrapped tag items index key _ hbare =>
      refine ⟨memberAfter_list _ _, id, fun tag' items' heq => ?_⟩
      obtain ⟨rfl, rfl⟩ := Tree.list.inj heq
      exact ⟨_, items, rfl, fun _ => id, itemsAfter_wrapAt index key hbare⟩
  | @place _ _ key hkey =>
      have hplain : ∀ key ∈ ["components", "schemas"], key ∉ judgedKeys := by decide
      exact valueAfter_insert (hplain key hkey)

/-- A schema stays tidy with one more entry that is tidy. -/
theorem isTidy_insert {permits : Permit} {tag : Tag} {fields : Fields Tag}
    {key : String} {value : Node}
    (htidy : IsTidy permits (.map tag fields)) (habsent : fields.get? key = none)
    (htext : value.text? = none) (hvalue : TidyValue permits key value) :
    IsTidy permits (.map tag (fields.insert key value)) := by
  intro fields' heq href
  cases heq
  refine (htidy fields rfl ?_).insert hvalue
  rw [isReference_insert_absent habsent htext] at href
  exact href

theorem Addition.tidy {permits : Permit} {u v : Node} (h : Addition u v) (hu : IsTidy permits u) :
    IsTidy permits v := by
  cases h with
  | same => exact hu
  | wrapped => exact fun _ hfields => nomatch hfields
  | @place _ _ key hkey habsent =>
      have hplain : ∀ key ∈ ["components", "schemas"], key ∉ watchedKeys := by decide
      exact isTidy_insert hu habsent rfl (.of_not_mem (hplain key hkey) _)

theorem tidyValue_textSchema (permits : Permit) (key : String) : TidyValue permits key textSchema :=
  .ofMapping rfl key

theorem isTidy_keyed {permits : Permit} {tag : Tag} {fields : Fields Tag} {field : String}
    (htidy : IsTidy permits (.map tag fields)) (habsent : fields.get? field = none) :
    IsTidy permits (.map tag (fields.insert field textSchema)) :=
  isTidy_insert htidy habsent rfl (tidyValue_textSchema permits field)

/-- An `allOf` stays tidy with one more part. -/
theorem tidyValue_part {permits : Permit} (field : String) {tag : Tag} {items : List Node}
    (h : TidyValue permits "allOf" (.list tag items)) :
    TidyValue permits "allOf" (.list tag (items ++ [keyHolder field])) := by
  refine ⟨fun heq => absurd heq (by decide), fun _ tag' member heq => ?_, fun _ tag' heq => ?_,
    fun heq => absurd heq (by decide), fun heq => absurd heq (by decide),
    fun heq => absurd heq (by decide), fun heq => absurd heq (by decide)⟩
  · obtain ⟨rfl, hitems⟩ := Tree.list.inj heq
    cases items with
    | nil =>
        obtain rfl : keyHolder field = member := by simpa using hitems
        exact h.empty rfl _ rfl
    | cons item rest => simp at hitems
  · obtain ⟨-, hitems⟩ := Tree.list.inj heq
    simp at hitems

/-! ## Rules -/

section Rewritten

variable {tag : Tag} {fields result : Fields Tag}

/-- A rule leaves a structural keyword. -/
theorem valueAfter_of_rewritten {key : String}
    (href : Fields.isReference fields = true → Fields.isReference result = true)
    (hconst : result.get? "const" = fields.get? "const") (hkey : key ∈ structuralKeys)
    (hstructural : result.contains key = true) :
    ValueAfter (.map tag fields) (.map tag result) := by
  refine ⟨⟨rfl, rfl, fun hnone => ?_⟩,
    fun _ => fieldsUnconstrained_of_structural hkey hstructural, fun tag' items' heq => nomatch heq⟩
  rw [const?_eq_none_iff, contains_eq_of_get? hconst]
  exact (const?_eq_none_iff.1 hnone).imp_left href

theorem distinctKeys_wrapperOf (key : String) (node : Node) :
    (wrapperOf key node).DistinctKeys := by
  change List.Nodup [Key.text "type", Key.text "properties"]
  decide

theorem get?_wrapperOf (key other : String) (node : Node) : (wrapperOf key node).get? other =
    if other = "type" then some (.ofText "object")
    else if other = "properties" then some (.ofEntries [(.text key, node)]) else none := by
  unfold wrapperOf Entries.get?
  simp only [Entries.lookup, Scalar.key_text, Key.text.injEq, eq_comm (a := other)]

theorem get?_wrapped (key : String) (node : Node) (keywords : List String) (other : String) :
    ((fields.eraseAll keywords).overlay (wrapperOf key node)).get? other =
      ((wrapperOf key node).get? other).or
        (if other ∈ keywords then none else fields.get? other) := by
  rw [Entries.get?_overlay _ (distinctKeys_wrapperOf key node), Entries.get?_eraseAll]

end Rewritten

/-- The keywords that the rules erase or write to. -/
def rewrittenKeys : List String :=
  "properties" :: "oneOf" :: "unevaluatedProperties" :: "$ref" :: mapKeywords

theorem Rewrite.get? {tag : Tag} {fields result : Fields Tag}
    (h : Rewrite (.map tag fields) (.map tag result)) {key : String} (hkey : key ∉ rewrittenKeys) :
    result.get? key = fields.get? key := by
  simp only [rewrittenKeys, mapKeywords, List.mem_cons, List.not_mem_nil, or_false, not_or] at hkey
  obtain ⟨hproperties, hone, huneval, href, htype, hadditional, hmin, hmax, hnames⟩ := hkey
  cases h with
  | same => rfl
  | titled hmoves =>
      obtain ⟨-, -, -, -, -, -⟩ := hmoves
      rw [Entries.get?_eraseAll, if_neg (by simp [mapKeywords, *]), get?_insert_of_ne hproperties]
  | merged hmerges =>
      obtain ⟨-, -, -, -⟩ := hmerges
      rw [Entries.get?_erase, if_neg (by simpa using huneval), get?_insert_of_ne hmax,
        get?_insert_of_ne hmin, get?_insert_of_ne hproperties, Entries.get?_erase,
        if_neg (by simpa using hone)]
  | inlined =>
      rw [get?_wrapped, get?_wrapperOf, if_neg htype, if_neg hproperties, Option.none_or,
        if_neg (by simp [mapKeywords, *])]
  | referred =>
      rw [get?_insert_of_ne href, Entries.get?_eraseAll, if_neg (by simp [mapKeywords, *])]

/-- A rule makes no schema of a reference. -/
theorem Rewrite.isReference {tag : Tag} {fields result : Fields Tag}
    (h : Rewrite (.map tag fields) (.map tag result)) (href : Fields.isReference fields = true) :
    Fields.isReference result = true := by
  have hsame : result.get? "$ref" = fields.get? "$ref" → Fields.isReference result = true :=
    fun hget => (Fields.isReference_congr hget).trans href
  cases h with
  | same => exact href
  | titled hmoves =>
      obtain ⟨-, -, -, -, -, -⟩ := hmoves
      refine hsame ?_
      rw [Entries.get?_eraseAll, if_neg (by decide), get?_insert_of_ne (by decide)]
  | merged hmerges =>
      obtain ⟨-, -, -, -⟩ := hmerges
      refine hsame ?_
      rw [Entries.get?_erase, if_neg (by decide), get?_insert_of_ne (by decide),
        get?_insert_of_ne (by decide), get?_insert_of_ne (by decide), Entries.get?_erase,
        if_neg (by decide)]
  | inlined =>
      refine hsame ?_
      rw [get?_wrapped, get?_wrapperOf, if_neg (by decide), if_neg (by decide), Option.none_or,
        if_neg (by decide)]
  | referred ref =>
      unfold Fields.isReference Fields.ref? Fields.text?
      rw [Entries.get?_insert_self]
      rfl

/-- A rule that applies leaves a structural keyword. -/
theorem Rewrite.structural {tag : Tag} {fields result : Fields Tag}
    (h : Rewrite (.map tag fields) (.map tag result)) :
    result = fields ∨ ∃ key ∈ structuralKeys, result.contains key = true := by
  cases h with
  | same => exact Or.inl rfl
  | titled hmoves =>
      obtain ⟨-, -, -, -, -, -⟩ := hmoves
      refine Or.inr ⟨"properties", by decide, ?_⟩
      unfold Entries.contains
      rw [Entries.get?_eraseAll, if_neg (by decide), Entries.get?_insert_self]
      rfl
  | merged hmerges =>
      obtain ⟨-, -, -, -⟩ := hmerges
      refine Or.inr ⟨"properties", by decide, ?_⟩
      unfold Entries.contains
      rw [Entries.get?_erase, if_neg (by decide), get?_insert_of_ne (by decide),
        get?_insert_of_ne (by decide), Entries.get?_insert_self]
      rfl
  | inlined =>
      refine Or.inr ⟨"properties", by decide, ?_⟩
      unfold Entries.contains
      rw [get?_wrapped, get?_wrapperOf, if_neg (by decide), if_pos rfl]
      rfl
  | referred =>
      refine Or.inr ⟨"$ref", by decide, ?_⟩
      unfold Entries.contains
      rw [Entries.get?_insert_self]
      rfl

theorem Rewrite.after {u v : Node} (h : Rewrite u v) : ValueAfter u v := by
  have hmap : ∀ {tag : Tag} {fields result : Fields Tag},
      Rewrite (.map tag fields) (.map tag result) →
      ValueAfter (.map tag fields) (.map tag result) := by
    intro tag fields result hrewrite
    rcases hrewrite.structural with rfl | ⟨key, hkey, hstructural⟩
    · exact .refl _
    · exact valueAfter_of_rewritten hrewrite.isReference (hrewrite.get? (by decide))
        hkey hstructural
  cases h with
  | same => exact .refl u
  | titled hmoves => exact hmap (.titled hmoves)
  | merged hmerges => exact hmap (.merged hmerges)
  | inlined key hone hget href => exact hmap (.inlined key hone hget href)
  | referred ref hone => exact hmap (.referred ref hone)

theorem Rewrite.tidy {permits : Permit} {u v : Node} (h : Rewrite u v) (hu : IsTidy permits u) :
    IsTidy permits v := by
  have hmap : ∀ {tag : Tag} {fields result : Fields Tag},
      Rewrite (.map tag fields) (.map tag result) →
      IsTidy permits (.map tag fields) →
      (fields.Each (TidyValue permits) → result.Each (TidyValue permits)) →
      IsTidy permits (.map tag result) := by
    intro tag fields result hrewrite htidy heach fields' heq href
    cases heq
    refine heach (htidy fields rfl ?_)
    rw [Bool.eq_false_iff] at href ⊢
    exact fun hyes => href (hrewrite.isReference hyes)
  cases h with
  | same => exact hu
  | titled hmoves =>
      refine hmap (.titled hmoves) hu fun heach => ?_
      obtain ⟨-, -, -, -, -, -⟩ := hmoves
      exact (heach.insert (.of_not_mem (by decide) _)).eraseAll _
  | merged hmerges =>
      refine hmap (.merged hmerges) hu fun heach => ?_
      obtain ⟨-, -, -, -⟩ := hmerges
      exact ((((heach.erase _).insert (.of_not_mem (by decide) _)).insert
        (.of_not_mem (by decide) _)).insert (.of_not_mem (by decide) _)).erase _
  | inlined key hone hget href =>
      refine hmap (.inlined key hone hget href) hu fun heach => ?_
      refine (heach.eraseAll _).overlay (distinctKeys_wrapperOf key _) fun other value hvalue => ?_
      rw [get?_wrapperOf] at hvalue
      split at hvalue
      · rename_i hother
        cases hvalue
        exact hother ▸ .ofText (by decide)
      · split at hvalue
        · rename_i hother
          exact hother ▸ .of_not_mem (by decide) value
        · cases hvalue
  | @referred _ _ ref _ =>
      intro fields' heq href
      cases heq
      unfold Fields.isReference Fields.ref? Fields.text? at href
      rw [Entries.get?_insert_self] at href
      cases href

/-! ## What a walk sees after a change -/

/-- What a walk sees below a changed node: a node that it saw there before at a like place,
which is the same if it is a schema, or a new one. -/
def Traced (new : Node → Prop) (skip : Tag → Prop) (v : Node) (place : Place) (u : Node)
    (place' : Place) : Prop :=
  (∃ old stop, Sees skip v place old stop ∧ place'.Alike stop ∧ u.tag = old.tag ∧
      (place'.spread = .single → u = old)) ∨
    u.tag = none ∧ (place'.spread = .single → new u)

section Traced

variable {new : Node → Prop} {skip : Tag → Prop} {v child u : Node} {place between place' : Place}

/-- What is seen from a child was seen before. -/
theorem traced_of_step (hskip : ¬skip v.tag) (hstep : StepsTo v place child between)
    (hsees : Sees skip child between u place') : Traced new skip v place u place' :=
  Or.inl ⟨u, place', .of_step hskip hstep hsees, .refl _, rfl, fun _ => rfl⟩

theorem traced_self (hsees : Sees skip v place u place') : Traced new skip v place u place' :=
  Or.inl ⟨u, place', hsees, .refl _, rfl, fun _ => rfl⟩

/-- What is seen below a new tree is new. -/
theorem traced_of_new (hnew : ∀ x ∈ child.subtrees, x.tag = none ∧ new x)
    (hsees : Sees skip child between u place') : Traced new skip v place u place' := by
  obtain ⟨htag, hu⟩ := hnew u hsees.mem_subtrees
  exact Or.inr ⟨htag, fun _ => hu⟩

/-- A mapping gets one more entry. -/
theorem traced_insert {tag : Tag} {fields : Fields Tag} {key : String} {value : Node}
    (habsent : fields.get? key = none) (htext : value.text? = none)
    (hnew : ∀ x ∈ value.subtrees, x.tag = none ∧ new x)
    (hsees : Sees skip (.map tag (fields.insert key value)) place u place') :
    (u = .map tag (fields.insert key value) ∧ place' = place) ∨
      Traced new skip (.map tag fields) place u place' := by
  have hstart : ¬skip tag := hsees.not_skip_start
  rcases hsees.cases_head with hhere | ⟨child, between, hstep, hrest⟩
  · exact Or.inl hhere
  · refine Or.inr ?_
    cases hstep with
    | entry hspread hentry =>
        rcases Entries.mem_put hentry with hold | ⟨heq, -⟩
        · exact traced_of_step hstart (.entry hspread hold) hrest
        · cases heq
          exact traced_of_new hnew hrest
    | @slot _ _ _ slot _ hspread hadmits hslot hget =>
        by_cases hkey : slot.key = key
        · rw [hkey, Entries.get?_insert_self] at hget
          cases hget
          exact traced_of_new hnew hrest
        · rw [get?_insert_of_ne hkey] at hget
          refine traced_of_step hstart (.slot hspread ?_ hslot hget) hrest
          unfold Role.admits at hadmits ⊢
          rwa [isReference_insert_absent habsent htext] at hadmits

end Traced

theorem slot_properties {role : Role} {slot : Slot} (h : slot ∈ role.slots)
    (hkey : slot.key = "properties") :
    (∃ hook, role = .schema hook) ∧ slot.place = ⟨.entries, .schema .property, false⟩ := by
  have hany : role.slots.any (·.key == "properties") = true :=
    List.any_eq_true.2 ⟨slot, h, by simp [hkey]⟩
  cases role with
  | schema hook =>
      refine ⟨⟨hook, rfl⟩, ?_⟩
      have hplace : ∀ slot ∈ (Role.schema .schema).slots, slot.key = "properties" →
          slot.place = ⟨.entries, .schema .property, false⟩ := by decide
      exact hplace slot h hkey
  | _ => exact absurd hany (by decide)

section New

variable (permits : Permit)

theorem isTidy_wrapper (key : String) (item : Node) :
    IsTidy permits (.map default (wrapperOf key item)) := by
  intro fields heq _
  cases heq
  intro other value hvalue
  rw [get?_wrapperOf] at hvalue
  split at hvalue
  · rename_i hother
    cases hvalue
    exact hother ▸ .ofText (by decide)
  · split at hvalue
    · rename_i hother
      exact hother ▸ .of_not_mem (by decide) value
    · cases hvalue

/-- A schema that only has a type is tidy. -/
theorem isTidy_ofType {s : String} (h : s ≠ "null") :
    ∀ x ∈ (Tree.ofEntries [("type", .ofText s)] : Node).subtrees, IsTidy permits x := by
  intro x hx fields hfields _
  simp only [Tree.ofText, Tree.ofEntries, Tree.subtrees_map, Tree.subtrees_scalar,
    List.flatMap_cons, List.flatMap_nil, List.append_nil, List.mem_cons, List.not_mem_nil,
    or_false] at hx
  rcases hx with rfl | rfl
  · cases hfields
    intro key value hget
    have hkey : key = "type" ∧ value = .scalar default (.text s) := by
      simpa [Entries.get?, Entries.lookup, eq_comm] using hget
    obtain ⟨rfl, rfl⟩ := hkey
    exact .ofText h
  · cases hfields

theorem isTidy_keyHolder (field : String) : ∀ x ∈ (keyHolder field).subtrees, IsTidy permits x := by
  intro x hx
  simp only [keyHolder, Tree.ofText, Tree.ofEntries, Tree.subtrees_map, Tree.subtrees_scalar,
    List.flatMap_cons, List.flatMap_nil, List.append_nil, List.mem_cons, List.mem_append,
    List.not_mem_nil, or_false] at hx
  rcases hx with rfl | rfl | rfl | htext
  · exact isTidy_wrapper permits field textSchema
  · intro fields hfields
    cases hfields
  · intro fields heq _
    cases heq
    intro key value hget
    have hvalue : field = key ∧ textSchema = value := by
      simpa [Entries.get?, Entries.lookup] using hget
    exact hvalue.2 ▸ tidyValue_textSchema permits key
  · exact isTidy_ofType permits (by decide) x htext

end New

section

variable {permits : Permit} {skip : Tag → Prop} {u v w : Node} {place place' : Place}

/-- A list gets one more part. -/
theorem traced_part {field : String} {tag : Tag} {items : List Node}
    (hsees : Sees skip (.list tag (items ++ [keyHolder field])) place u place') :
    (u = .list tag (items ++ [keyHolder field]) ∧ place' = place) ∨
      Traced (IsTidy permits) skip (.list tag items) place u place' := by
  have hstart : ¬skip tag := hsees.not_skip_start
  rcases hsees.cases_head with hhere | ⟨child, between, hstep, hrest⟩
  · exact Or.inl hhere
  · refine Or.inr ?_
    cases hstep with
    | item hspread hitem =>
        rcases List.mem_append.1 hitem with hold | hnew
        · exact traced_of_step hstart (.item hspread hold) hrest
        · obtain rfl := List.mem_singleton.1 hnew
          exact traced_of_new (fun x hx =>
            ⟨tag_of_new (uses_keyHolder · _) hx, isTidy_keyHolder permits field x hx⟩)
            hrest

/-- The properties of a schema get one more. -/
theorem traced_keyed {field : String} {tag : Tag} {fields : Fields Tag}
    (habsent : fields.get? field = none)
    (hsees : Sees skip (.map tag (fields.insert field textSchema)) place u place') :
    (u = .map tag (fields.insert field textSchema) ∧ place' = place) ∨
      Traced (IsTidy permits) skip (.map tag fields) place u place' :=
  traced_insert habsent rfl
    (fun x hx => ⟨tag_of_new uses_textSchema hx, isTidy_ofType permits (by decide) x hx⟩) hsees

theorem Addition.traced (h : Addition v w) (hsees : Sees skip w place u place') :
    (u = w ∧ place' = place) ∨ Traced (IsTidy permits) skip v place u place' := by
  cases h with
  | same => exact Or.inr (traced_self hsees)
  | place hkey habsent =>
      refine traced_insert habsent rfl (fun x hx => ?_) hsees
      rw [Tree.subtrees_map] at hx
      obtain rfl := List.mem_singleton.1 hx
      refine ⟨rfl, fun fields heq _ => ?_⟩
      cases heq
      exact fun other value hget => nomatch hget
  | @wrapped tag items index key _ hbare =>
      have hstart : ¬skip tag := hsees.not_skip_start
      rcases hsees.cases_head with hhere | ⟨child, between, hstep, hrest⟩
      · exact Or.inl hhere
      · refine Or.inr ?_
        cases hstep with
        | item hspread hitem =>
            rcases mem_wrapAt hitem with hold | ⟨old, hold, rfl⟩
            · exact traced_of_step hstart (.item hspread hold) hrest
            · rcases hrest.cases_head with ⟨rfl, rfl⟩ | ⟨inner, between, hstep, hrest⟩
              · exact Or.inr ⟨rfl, fun _ => isTidy_wrapper permits key old⟩
              · cases hstep with
                | entry hspread' => cases hspread'
                | @slot _ _ _ slot _ _ _ hslot hget =>
                    -- Of the two entries of the wrapper only `properties` leads on.
                    have htype : slot.key ≠ "type" := by
                      have hall : ∀ role : Role, ∀ slot ∈ role.slots, slot.key ≠ "type" := by
                        intro role
                        cases role with
                        | schema hook => cases hook <;> decide
                        | _ => decide
                      exact hall _ slot hslot
                    rw [get?_wrapperOf, if_neg htype] at hget
                    split at hget
                    · rename_i hkey
                      cases hget
                      obtain ⟨⟨hook, hrole⟩, hplace⟩ := slot_properties hslot hkey
                      rw [hplace] at hrest
                      rcases hrest.cases_head with ⟨rfl, rfl⟩ | ⟨_, _, hlast, hbelow⟩
                      · exact Or.inr ⟨rfl, fun hspread => nomatch hspread⟩
                      · cases hlast with
                        | entry _ hentry =>
                            obtain ⟨-, rfl⟩ := Prod.mk.inj (List.mem_singleton.1 hentry)
                            have halike :
                                Place.Alike (.one (.schema .property)) (.one place.role) :=
                              ⟨rfl, Or.inr ⟨.property, hook, rfl, hrole⟩⟩
                            obtain ⟨stop, hstop, halike'⟩ := hbelow.alike halike
                            exact Or.inl
                              ⟨u, stop, .of_step hstart (.item hspread hold) hstop, halike',
                              rfl, fun _ => rfl⟩
                        | slot hspread' => cases hspread'
                    · cases hget

end

/-! ### Rules -/

/-- A property that the rules hand on from a value type to the property that it becomes. -/
structure HandedOn (new : Node → Prop) : Prop where
  typed : ∀ x ∈ (Tree.ofEntries [("type", .ofText "object")] : Node).subtrees, new x
  untitled : ∀ tag fields, new (.map tag fields) → new (.map default (fields.erase "title"))

theorem handedOn_tidy (permits : Permit) : HandedOn (IsTidy permits) where
  typed := isTidy_ofType permits (by decide)
  untitled := by
    intro tag fields htidy fields' heq href
    cases heq
    rw [Fields.isReference_erase (by decide)] at href
    exact (htidy fields rfl href).erase _

section

variable {new : Node → Prop} {skip : Tag → Prop} {u v w : Node} {place place' : Place} {hook : Hook}

/-- A keyword that a rule leaves alone leads on as before. -/
theorem traced_of_slot {tag : Tag} {fields : Fields Tag} {slot : Slot} {child : Node}
    (hstart : ¬skip tag) (hspread : place.spread = .single)
    (hadmits : place.role.admits fields = true)
    (hslot : slot ∈ place.role.slots) (hget : fields.get? slot.key = some child)
    (hsees : Sees skip child slot.place u place') :
    Traced new skip (.map tag fields) place u place' :=
  traced_of_step hstart (.slot hspread hadmits hslot hget) hsees

theorem slot_mem {role : Role} {hook : Hook} (hrole : role = .schema hook) {slot : Slot}
    (h : slot ∈ (Role.schema .schema).slots) : slot ∈ role.slots := by
  rw [hrole]
  exact h

/-- The value type that becomes a property. -/
theorem traced_movedSchema {tag inner : Tag} {fields additional : Fields Tag}
    (hspread : place.spread = .single) (hrole : place.role = .schema hook)
    (hadmits : place.role.admits fields = true)
    (hget : fields.get? "additionalProperties" = some (.map inner additional))
    (hinline : Fields.isReference additional = false)
    (hskip : ∀ x ∈ (Tree.map tag fields).subtrees, ¬skip x.tag)
    (hnew : HandedOn new) (hadditional : new (.map inner additional))
    (hsees : Sees skip (movedSchema additional) (.one (.schema .property)) u place') :
    Traced new skip (.map tag fields) place u place' := by
  have hstart : ¬skip tag := hskip _ (self_mem_subtrees _)
  have hchild : ¬skip inner := hskip _ (mem_subtrees_of_get? hget)
  unfold movedSchema at hsees
  split at hsees
  · exact traced_of_new (fun x hx =>
      ⟨tag_of_new (fun m => by simp [Entries.total]) hx, hnew.typed x hx⟩)
      hsees
  · rcases hsees.cases_head with ⟨rfl, rfl⟩ | ⟨child, between, hstep, hrest⟩
    · exact Or.inr ⟨rfl, fun _ => hnew.untitled inner additional hadditional⟩
    · cases hstep with
      | entry hspread' => cases hspread'
      | slot hspread' hadmits' hslot hvalue =>
          rw [Entries.get?_erase] at hvalue
          split at hvalue
          · cases hvalue
          · have hbelow : Sees skip (.map inner additional) (.one (.schema .property)) u place' :=
              .of_step hchild
                (.slot hspread' (by simp [Role.admits, Place.one, hinline]) hslot hvalue) hrest
            exact traced_of_slot hstart hspread hadmits
              (slot_mem hrole
                (by decide : ⟨"additionalProperties", .single, .schema .property, false⟩ ∈ _))
              hget hbelow

/-- The properties as they were lead on as before. -/
theorem traced_property {tag inner : Tag} {fields properties : Fields Tag}
    {key : Scalar} {value : Node}
    (hspread : place.spread = .single) (hrole : place.role = .schema hook)
    (hadmits : place.role.admits fields = true)
    (hskip : ∀ x ∈ (Tree.map tag fields).subtrees, ¬skip x.tag)
    (hproperties : PropertiesOf fields inner properties) (hmem : (key, value) ∈ properties.toList)
    (hsees : Sees skip value (.one (.schema .property)) u place') :
    Traced new skip (.map tag fields) place u place' := by
  cases hproperties with
  | absent => cases hmem
  | present hget =>
      have hbelow :
          Sees skip (.map inner properties) ⟨.entries, .schema .property, false⟩ u place' :=
        .of_step (hskip _ (mem_subtrees_of_get? hget)) (.entry rfl hmem) hsees
      exact traced_of_slot (hskip _ (self_mem_subtrees _)) hspread hadmits
        (slot_mem hrole (by decide : ⟨"properties", .entries, .schema .property, false⟩ ∈ _))
          hget hbelow

/-- The only property of a member is seen there before. -/
theorem traced_onlyProperty {tag inner : Tag} {fields : Fields Tag}
    {members : List Node} {key : Scalar}
    {value member : Node} (hspread : place.spread = .single) (hrole : place.role = .schema hook)
    (hadmits : place.role.admits fields = true)
    (hskip : ∀ x ∈ (Tree.map tag fields).subtrees, ¬skip x.tag)
    (hget : fields.get? "oneOf" = some (.list inner members)) (hmember : member ∈ members)
    (honly : OnlyProperty key value member)
    (hsees : Sees skip value (.one (.schema .property)) u place') :
    Traced new skip (.map tag fields) place u place' := by
  cases honly with
  | @only memberTag memberFields properties hinline _ hproperties =>
      have hlist : Tree.list inner members ∈ (Tree.map tag fields).subtrees :=
        mem_subtrees_of_get? hget
      have hin : Tree.map memberTag memberFields ∈ (Tree.map tag fields).subtrees :=
        mem_subtrees_trans (mem_subtrees_of_child hmember (self_mem_subtrees _)) hlist
      have hentries :
          Sees skip (.map properties ⟨[(key, value)]⟩) ⟨.entries, .schema .property, false⟩ u
          place' :=
        .of_step (hskip _ (mem_subtrees_trans (mem_subtrees_of_get? hproperties) hin))
          (.entry rfl (List.mem_singleton_self _)) hsees
      have hpart : Sees skip (.map memberTag memberFields) (.one (.schema .schema)) u place' :=
        .of_step (hskip _ hin) (.slot rfl (by simp [Role.admits, Place.one, hinline])
          (by decide : ⟨"properties", .entries, .schema .property, false⟩ ∈ _) hproperties) hentries
      have hunion : Sees skip (.list inner members) ⟨.elements, .schema .schema, false⟩ u place' :=
        .of_step (hskip _ hlist) (.item rfl hmember) hpart
      exact traced_of_slot (hskip _ (self_mem_subtrees _)) hspread hadmits
        (slot_mem hrole (by decide : ⟨"oneOf", .elements, .schema .schema, false⟩ ∈ _)) hget hunion

end

/-- A property that is a mapping made by a rule: its entries lead on. -/
theorem traced_entries {new : Node → Prop} {skip : Tag → Prop} {u v : Node}
    {place place' : Place} {tag : Tag} {fields : Fields Tag}
    (hentry : ∀ key value, (key, value) ∈ fields.toList →
      ∀ u place', Sees skip value (.one (.schema .property)) u place' →
        Traced new skip v place u place')
    (hself : Traced new skip v place (.map tag fields) ⟨.entries, .schema .property, false⟩)
    (hsees : Sees skip (.map tag fields) ⟨.entries, .schema .property, false⟩ u place') :
    Traced new skip v place u place' := by
  rcases hsees.cases_head with ⟨rfl, rfl⟩ | ⟨child, between, hstep, hrest⟩
  · exact hself
  · cases hstep with
    | entry _ hmem => exact hentry _ _ hmem u place' hrest
    | slot hspread => cases hspread

/-- What a walk sees below a rewritten schema, it sees from the value of a keyword.  The schema was
inline before. -/
theorem Rewrite.sees_cases {skip : Tag → Prop} {u : Node} {place place' : Place} {hook : Hook}
    {tag : Tag} {fields result : Fields Tag} (h : Rewrite (.map tag fields) (.map tag result))
    (hspread : place.spread = .single) (hrole : place.role = .schema hook)
    (hsees : Sees skip (.map tag result) place u place') :
    (u = .map tag result ∧ place' = place) ∨
      ∃ slot child, slot ∈ place.role.slots ∧ result.get? slot.key = some child ∧
        Fields.isReference result = false ∧ place.role.admits fields = true ∧
        Sees skip child slot.place u place' := by
  rcases hsees.cases_head with hhere | ⟨child, between, hstep, hrest⟩
  · exact Or.inl hhere
  · cases hstep with
    | entry hspread' =>
        rw [hspread] at hspread'
        cases hspread'
    | @slot _ _ _ slot _ _ hadmits hslot hget =>
        have hinline : Fields.isReference result = false := by
          simpa [Role.admits, hrole, Role.skipsReferences] using hadmits
        have hfields : Fields.isReference fields = false := by
          rw [Bool.eq_false_iff] at hinline ⊢
          exact fun hyes => hinline (h.isReference hyes)
        exact Or.inr ⟨slot, child, hslot, hget, hinline, by simp [Role.admits, hfields], hrest⟩

section Keywords

variable {new : Node → Prop} {skip : Tag → Prop} {tag : Tag} {fields result : Fields Tag}
  {child u : Node} {place place' : Place} {hook : Hook} {slot : Slot}
  (hspread : place.spread = .single) (hrole : place.role = .schema hook)
  (hadmits : place.role.admits fields = true)
  (hskip : ∀ x ∈ (Tree.map tag fields).subtrees, ¬skip x.tag)
  (hslot : slot ∈ place.role.slots)

include hspread hadmits hskip hslot in
/-- The value of a keyword of the schema before is seen from there. -/
theorem sees_value (hget : fields.get? slot.key = some child) :
    Sees skip (.map tag fields) place child slot.place :=
  .of_step (hskip _ (self_mem_subtrees _)) (.slot hspread hadmits hslot hget)
    (.here (hskip _ (mem_subtrees_of_get? hget)))

include hspread hrole hadmits hskip hslot

theorem traced_titled (hmoves : MovesTitled fields result) (hnew : HandedOn new)
    (hbefore : ∀ x stop, Sees skip (.map tag fields) place x stop → stop.spread = .single → new x)
    (hget : result.get? slot.key = some child) (hsees : Sees skip child slot.place u place') :
    Traced new skip (.map tag fields) place u place' := by
  obtain ⟨hadditional, hinline, -, -, hproperties, -⟩ := hmoves
  rw [Entries.get?_eraseAll] at hget
  split at hget
  · cases hget
  by_cases hkey : slot.key = "properties"
  · rw [hkey, Entries.get?_insert_self] at hget
    cases hget
    rw [(slot_properties hslot hkey).2] at hsees
    refine traced_entries (fun key value hmem x stop hx => ?_) ?_ hsees
    · rcases Entries.mem_put hmem with hold | ⟨heq, -⟩
      · exact traced_property hspread hrole hadmits hskip hproperties hold hx
      · cases heq
        have hbelow := sees_value hspread hadmits hskip (slot_mem hrole
          (by decide : ⟨"additionalProperties", .single, .schema .property, false⟩ ∈ _)) hadditional
        exact traced_movedSchema hspread hrole hadmits hadditional hinline hskip hnew
          (hbefore _ _ hbelow rfl) hx
    · cases hproperties with
      | absent => exact Or.inr ⟨rfl, fun hsingle => by cases hsingle⟩
      | present hold =>
          have hbelow := sees_value hspread hadmits hskip hslot (hkey ▸ hold)
          rw [(slot_properties hslot hkey).2] at hbelow
          exact Or.inl ⟨_, _, hbelow, .refl _, rfl, fun hsingle => by cases hsingle⟩
  · rw [get?_insert_of_ne hkey] at hget
    exact traced_of_slot (hskip _ (self_mem_subtrees _)) hspread hadmits hslot hget hsees

theorem traced_merged (hmerges : MergesMembers fields result)
    (hget : result.get? slot.key = some child) (hsees : Sees skip child slot.place u place') :
    Traced new skip (.map tag fields) place u place' := by
  obtain ⟨hunion, -, hproperties, hmerged⟩ := hmerges
  by_cases hkey : slot.key = "properties"
  · rw [hkey, Entries.get?_erase, if_neg (by decide), get?_insert_of_ne (by decide),
      get?_insert_of_ne (by decide), Entries.get?_insert_self] at hget
    cases hget
    rw [(slot_properties hslot hkey).2] at hsees
    refine traced_entries (fun key value hmem x stop hx => ?_)
      (Or.inr ⟨rfl, fun hsingle => by cases hsingle⟩) hsees
    rcases hmerged.mem hmem with hold | ⟨member, hmember, only, honly⟩
    · exact traced_property hspread hrole hadmits hskip hproperties hold hx
    · exact traced_onlyProperty hspread hrole hadmits hskip hunion hmember honly hx
  · have hplain : ∀ slot ∈ (Role.schema .schema).slots, slot.key ≠ "minProperties" ∧
        slot.key ≠ "maxProperties" ∧ slot.key ≠ "unevaluatedProperties" := by decide
    obtain ⟨hmin, hmax, huneval⟩ := hplain slot (by rw [hrole] at hslot; exact hslot)
    rw [Entries.get?_erase, if_neg (by simpa using huneval), get?_insert_of_ne hmax,
      get?_insert_of_ne hmin, get?_insert_of_ne hkey, Entries.get?_erase] at hget
    split at hget
    · cases hget
    · exact traced_of_slot (hskip _ (self_mem_subtrees _)) hspread hadmits hslot hget hsees

theorem traced_inlined {key : String} {additional : Node}
    (hadditional : fields.get? "additionalProperties" = some additional)
    (hget : ((fields.eraseAll mapKeywords).overlay (wrapperOf key additional)).get? slot.key =
      some child) (hsees : Sees skip child slot.place u place') :
    Traced new skip (.map tag fields) place u place' := by
  have hplain : ∀ slot ∈ (Role.schema .schema).slots, slot.key ≠ "type" := by decide
  have htype : slot.key ≠ "type" := hplain slot (by rw [hrole] at hslot; exact hslot)
  rw [get?_wrapped, get?_wrapperOf, if_neg htype] at hget
  by_cases hkey : slot.key = "properties"
  · rw [if_pos hkey, Option.some_or] at hget
    cases hget
    rw [(slot_properties hslot hkey).2] at hsees
    refine traced_entries (fun other value hmem x stop hx => ?_)
      (Or.inr ⟨rfl, fun hsingle => by cases hsingle⟩) hsees
    obtain ⟨-, rfl⟩ := Prod.mk.inj (List.mem_singleton.1 hmem)
    exact traced_of_slot (hskip _ (self_mem_subtrees _)) hspread hadmits
      (slot_mem hrole (by decide : ⟨"additionalProperties", .single, .schema .property, false⟩ ∈ _))
      hadditional hx
  · rw [if_neg hkey, Option.none_or] at hget
    split at hget
    · cases hget
    · exact traced_of_slot (hskip _ (self_mem_subtrees _)) hspread hadmits hslot hget hsees

end Keywords

theorem Rewrite.traced {new : Node → Prop} {skip : Tag → Prop} {u v w : Node} {place place' : Place}
    {hook : Hook} (h : Rewrite v w) (hplace : place.Alike (.one (.schema hook)))
    (hskip : ∀ x ∈ v.subtrees, ¬skip x.tag) (hnew : HandedOn new)
    (hbefore : ∀ x stop, Sees skip v place x stop → stop.spread = .single → new x)
    (hsees : Sees skip w place u place') :
    (u = w ∧ place' = place) ∨ Traced new skip v place u place' := by
  obtain ⟨hspread, hook, hrole⟩ := hplace.exists_hook
  cases h with
  | same => exact Or.inr (traced_self hsees)
  | titled hmoves =>
      refine ((Rewrite.titled hmoves).sees_cases hspread hrole hsees).imp_right fun hslot => ?_
      obtain ⟨slot, child, hslot, hget, -, hadmits, hrest⟩ := hslot
      exact traced_titled hspread hrole hadmits hskip hslot hmoves hnew hbefore hget hrest
  | merged hmerges =>
      refine ((Rewrite.merged hmerges).sees_cases hspread hrole hsees).imp_right fun hslot => ?_
      obtain ⟨slot, child, hslot, hget, -, hadmits, hrest⟩ := hslot
      exact traced_merged hspread hrole hadmits hskip hslot hmerges hget hrest
  | inlined key hone hadditional href =>
      have hcases := (Rewrite.inlined key hone hadditional href).sees_cases hspread hrole hsees
      refine hcases.imp_right fun hslot => ?_
      obtain ⟨slot, child, hslot, hget, -, hadmits, hrest⟩ := hslot
      exact traced_inlined hspread hrole hadmits hskip hslot hadditional hget hrest
  | referred ref hone =>
      -- A reference leads nowhere.
      refine ((Rewrite.referred ref hone).sees_cases hspread hrole hsees).imp_right fun hslot => ?_
      obtain ⟨_, _, -, -, hinline, -, -⟩ := hslot
      unfold Fields.isReference Fields.ref? Fields.text? at hinline
      rw [Entries.get?_insert_self] at hinline
      cases hinline

end ProtoShape
