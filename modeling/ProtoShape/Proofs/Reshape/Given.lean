import ProtoShape.Proofs.Reshape.Gifts

/-!
# What has been given

`Given` compares two states of a run with gifts between them, container by container.
Whatever the number of gifts and the schemas that they go to, every container of the first
state is in the second one, and it is the same or has been patched once, for the one schema
that holds it (`Patched`).  `given_of_gifts` is the induction over the gifts.

The argument is that a node has one parent: a container is patched when the schema that
holds it is remembered, and a schema is remembered once.
-/

namespace ProtoShape

open Rules Tree Relation Step

/-! ## Patched containers -/

/-- A schema that has been remembered since holds the node under the keyword. -/
def Gained (run after : Run) (key : String) (n : Nat) : Prop :=
  ∃ schema, after.Links schema key n ∧ run.carriers.contains (.tag (some schema)) = false ∧
    after.carriers.contains (.tag (some schema)) = true

/-- What has become of the outline of the node `n`. -/
inductive Patched (run after : Run) (n : Nat) : Outline → Outline → Prop where
  | same (o : Outline) : Patched run after n o o
  /-- The `allOf` of a schema has got one more part. -/
  | parted {items part} : Gained run after "allOf" n → run.next ≤ part → after.IsKeyHolder part →
      Patched run after n (.list items) (.list (items ++ [some part]))
  /-- The `properties` of a schema have got one more. -/
  | keyed {entries value} : Gained run after "properties" n →
      entries.get? run.options.fieldProperty = none → run.next ≤ value →
      Patched run after n (.map entries)
        (.map ⟨entries.toList ++ [(.text run.options.fieldProperty, some value)]⟩)
  /-- Some members of the union of a schema are held by new objects. -/
  | wrapped {key items items'} : key ∈ ["oneOf", "anyOf"] → Gained run after key n →
      items'.length = items.length →
      (∀ (i : Nat) (item : Tag), items[i]? = some item → items'[i]? = some item ∨
        ∃ wrapper, items'[i]? = some (some wrapper) ∧ run.next ≤ wrapper ∧
        after.IsWrapper wrapper item) →
      Patched run after n (.list items) (.list items')

/-- What gifts do to a run. -/
structure Given (run after : Run) : Prop where
  sound : after.Sound
  next : run.next ≤ after.next
  options : after.options = run.options
  carriers : ∀ identity, run.carriers.contains identity = true →
    after.carriers.contains identity = true
  remembered : ∀ schema, run.carriers.contains (.tag (some schema)) = false →
    after.carriers.contains (.tag (some schema)) = true →
    ∃ entries, after.outline? schema = some (.map entries)
  outlines : ∀ n before, run.outline? n = some before →
    ∃ now, after.outline? n = some now ∧ Patched run after n before now
  parts : ∀ schema list items before, run.carriers.contains (.tag (some schema)) = false →
    after.carriers.contains (.tag (some schema)) = true → after.Links schema "allOf" list →
    after.outline? list = some (.list items) → run.outline? list = some before →
    ∃ front part, before = .list front ∧ items = front ++ [part]

theorem Given.refl {run : Run} (h : run.Sound) : Given run run where
  sound := h
  next := Nat.le_refl _
  options := rfl
  carriers := fun _ hin => hin
  remembered := fun _ hfresh hmarked => absurd (hfresh.symm.trans hmarked) Bool.false_ne_true
  outlines := fun _ before hbefore => ⟨before, hbefore, .same before⟩
  parts := fun _ _ _ _ hfresh hmarked => absurd (hfresh.symm.trans hmarked) Bool.false_ne_true

/-! ## What persists -/

/-- What a gift keeps of the links and of the new objects. -/
structure Persists (run after : Run) : Prop where
  next : run.next ≤ after.next
  options : after.options = run.options
  carriers : ∀ identity, run.carriers.contains identity = true →
    after.carriers.contains identity = true
  maps : ∀ {n entries}, run.outline? n = some (.map entries) →
    ∃ entries', after.outline? n = some (.map entries')
  links : ∀ {n key m}, run.Links n key m → after.Links n key m
  keyHolder : ∀ {list part}, run.Lists list part → run.IsKeyHolder part → after.IsKeyHolder part
  wrapper : ∀ {list part item}, run.Lists list part → run.IsWrapper part item →
    after.IsWrapper part item

/-- Where the outlines of all mappings stay, so do the links and the new objects. -/
theorem Persists.of_maps {run after : Run} (hnext : run.next ≤ after.next)
    (hoptions : after.options = run.options)
    (hcarriers : ∀ identity, run.carriers.contains identity = true →
      after.carriers.contains identity = true)
    (hmaps : ∀ n entries, run.outline? n = some (.map entries) →
      after.outline? n = some (.map entries)) : Persists run after where
  next := hnext
  options := hoptions
  carriers := hcarriers
  maps := fun h => ⟨_, hmaps _ _ h⟩
  links := fun ⟨entries, houtline, hget⟩ => ⟨entries, hmaps _ _ houtline, hget⟩
  keyHolder := fun _ ⟨type, inner, value, hpart, hinner⟩ =>
    ⟨type, inner, value, hmaps _ _ hpart, hoptions ▸ hmaps _ _ hinner⟩
  wrapper := fun _ ⟨type, inner, key, hpart, hinner⟩ => by
    refine ⟨type, inner, key, hmaps _ _ hpart, hinner.imp (hmaps _ _) ?_⟩
    rintro ⟨hmarked, value, hboth⟩
    exact ⟨hcarriers _ hmarked, value, hoptions ▸ hmaps _ _ hboth⟩

section

variable {run between after : Run} {n : Nat} {key : String} {before now : Outline}

theorem Gained.persist (h : Gained run between key n) (hpersists : Persists between after) :
    Gained run after key n := by
  obtain ⟨schema, hlinks, hfresh, hmarked⟩ := h
  exact ⟨schema, hpersists.links hlinks, hfresh, hpersists.carriers _ hmarked⟩

theorem Patched.persist (h : Patched run between n before now)
    (hnow : between.outline? n = some now)
    (hpersists : Persists between after) : Patched run after n before now := by
  cases h with
  | same => exact .same _
  | parted hgained hnew hpart =>
      refine .parted (hgained.persist hpersists) hnew (hpersists.keyHolder ⟨_, hnow, ?_⟩ hpart)
      exact List.mem_append_right _ (List.mem_singleton_self _)
  | keyed hgained habsent hnew => exact .keyed (hgained.persist hpersists) habsent hnew
  | wrapped hkey hgained hlength hitems =>
      refine .wrapped hkey (hgained.persist hpersists) hlength fun i item hitem =>
        (hitems i item hitem).imp id ?_
      rintro ⟨wrapper, hi, hnew, hwrapper⟩
      exact ⟨wrapper, hi, hnew, hpersists.wrapper ⟨_, hnow, List.mem_of_getElem? hi⟩ hwrapper⟩

theorem Patched.keyed_of_eq {field : String} (hfield : field = run.options.fieldProperty)
    {entries : Entries Tag} {value : Nat} (hgained : Gained run after "properties" n)
    (habsent : entries.get? field = none) (hnew : run.next ≤ value) :
    Patched run after n (.map entries) (.map ⟨entries.toList ++ [(.text field, some value)]⟩) := by
  subst hfield
  exact .keyed hgained habsent hnew

/-- What a schema holds that has not been remembered is the same. -/
theorem Patched.eq_of_fresh (h : Patched run between n before now)
    (hsound : between.Sound) {schema : Nat} (hlinks : between.Links schema key n)
    (hfresh : between.carriers.contains (.tag (some schema)) = false) : now = before := by
  have hnone : ∀ other, ¬Gained run between other n := by
    rintro other ⟨owner, howner, -, hmarked⟩
    obtain ⟨rfl, -⟩ := howner.unique hsound hlinks
    rw [hfresh] at hmarked
    cases hmarked
  cases h with
  | same => rfl
  | parted hgained => exact absurd hgained (hnone _)
  | keyed hgained => exact absurd hgained (hnone _)
  | wrapped _ hgained => exact absurd hgained (hnone _)

end

/-! ## One more gift -/

section

variable {run between after : Run} {schema n : Nat} {fields : Fields Tag}

theorem contains_marked {identity : Identity}
    (h : (marked run schema).carriers.contains identity = true) :
    run.carriers.contains identity = true ∨ identity = .tag (some schema) := by
  simpa using h

theorem carriers_marked (run : Run) (schema : Nat) (identity : Identity)
    (h : run.carriers.contains identity = true) :
    (marked run schema).carriers.contains identity = true := by
  simp [h]

theorem contains_marked_self (run : Run) (schema : Nat) :
    (marked run schema).carriers.contains (.tag (some schema)) = true := by
  simp

/-- A change of the node `n` at most. -/
structure Touches (between after : Run) (n : Nat) : Prop where
  sound : after.Sound
  persists : Persists between after
  others : ∀ m o, m ≠ n → between.outline? m = some o → after.outline? m = some o

/-- Links of a mapping that has not been touched are links from before. -/
theorem Touches.links_of_ne (htouches : Touches between after n) {entries : Entries Tag}
    (hmap : between.outline? schema = some (.map entries)) (hne : schema ≠ n)
    {key : String} {m : Nat} (hlinks : after.Links schema key m) : between.Links schema key m := by
  obtain ⟨entries', houtline, hget⟩ := hlinks
  obtain rfl := Run.map_unique houtline (htouches.others _ _ hne hmap)
  exact ⟨entries', hmap, hget⟩

/-- What one more gift has to be: it patches the node `n`, and a composite that is
remembered has got its part. -/
theorem Given.touched (h : Given run between) (htouches : Touches between after n)
    (hmarks : ∀ other, after.carriers.contains (.tag (some other)) = true →
      between.carriers.contains (.tag (some other)) = true ∨
        ∃ entries, between.outline? other = some (.map entries))
    (hself : ∀ before now, between.outline? n = some now → Patched run between n before now →
      ∃ now', after.outline? n = some now' ∧ Patched run after n before now')
    (hparts : ∀ other list items before, run.carriers.contains (.tag (some other)) = false →
      after.carriers.contains (.tag (some other)) = true → after.Links other "allOf" list →
      after.outline? list = some (.list items) → run.outline? list = some before →
      ∃ front part, before = .list front ∧ items = front ++ [part]) : Given run after where
  sound := htouches.sound
  next := h.next.trans htouches.persists.next
  options := htouches.persists.options.trans h.options
  carriers := fun identity hin => htouches.persists.carriers identity (h.carriers identity hin)
  remembered := by
    intro other hfresh hafter
    rcases hmarks other hafter with hbetween | ⟨entries, houtline⟩
    · obtain ⟨entries, houtline⟩ := h.remembered other hfresh hbetween
      exact htouches.persists.maps houtline
    · exact htouches.persists.maps houtline
  outlines := by
    intro m before hbefore
    obtain ⟨now, hnow, hpatched⟩ := h.outlines m before hbefore
    by_cases hm : m = n
    · subst hm
      exact hself before now hnow hpatched
    · exact ⟨now, htouches.others m now hm hnow, hpatched.persist hnow htouches.persists⟩
  parts := hparts

/-- A composite remembered earlier has got its part, and that stays. -/
theorem Given.parts_of_ne (h : Given run between) (htouches : Touches between after n) {list : Nat}
    {items : List Tag} {before : Outline}
    (hfresh : run.carriers.contains (.tag (some schema)) = false)
    (hmarked : between.carriers.contains (.tag (some schema)) = true)
    (hlinks : between.Links schema "allOf" list) (hne : list ≠ n)
    (hlist : after.outline? list = some (.list items)) (hbefore : run.outline? list = some before) :
    ∃ front part, before = .list front ∧ items = front ++ [part] := by
  obtain ⟨now, hnow, -⟩ := h.outlines list before hbefore
  obtain rfl := Option.some.inj (hlist.symm.trans (htouches.others _ _ hne hnow))
  exact h.parts schema list items before hfresh hmarked hlinks hnow hbefore

/-! ### Gifts that change no node -/

/-- A schema that does not take the key by one more part holds no list as its `allOf`. -/
theorem not_list_of_carrier (hsound : run.Sound) (hholds : run.Holds (.map (some schema) fields))
    (hcarrier : ∀ list, Carrier.of run.options fields ≠ .parts list) {list : Nat} {items : List Tag}
    (hlinks : run.Links schema "allOf" list) (hlist : run.outline? list = some (.list items)) :
    False := by
  obtain ⟨fields', value, hnode, hget, htag⟩ := hlinks.exists_get?
  obtain ⟨-, rfl⟩ := Tree.map.inj (hsound.unique (Run.node?_holds hnode).1 hholds rfl rfl)
  obtain ⟨nodes, hvalue, -⟩ := Run.exists_list_of_outline? hlist
  obtain rfl :=
    hsound.unique (hholds.below (mem_subtrees_of_get? hget)) (Run.node?_holds hvalue).1 htag rfl
  refine hcarrier list ?_
  unfold Carrier.of
  rw [hget]

/-- Only the record of the run changes, and no composite is remembered. -/
theorem Given.noted (h : Given run between) {diagnostics : List Diagnostic} {carriers : IdentitySet}
    (hcarriers : ∀ identity, between.carriers.contains identity = true →
      carriers.contains identity = true)
    (hmarks : ∀ other, carriers.contains (.tag (some other)) = true →
      between.carriers.contains (.tag (some other)) = true ∨
        ∃ fields, between.Holds (.map (some other) fields) ∧
          ∀ list, Carrier.of between.options fields ≠ .parts list) :
    Given run { between with diagnostics, carriers } := by
  have htouches : Touches between { between with diagnostics, carriers } between.next :=
    ⟨h.sound.congr rfl rfl rfl, .of_maps (Nat.le_refl _) rfl hcarriers fun _ _ hm => hm,
      fun _ _ _ hm => hm⟩
  refine h.touched htouches (fun other hafter => (hmarks other hafter).imp id ?_)
    (fun before now hnow hpatched => ⟨now, hnow, hpatched.persist hnow htouches.persists⟩) ?_
  · rintro ⟨fields, hholds, -⟩
    exact ⟨_, h.sound.outline?_of_holds hholds rfl⟩
  · intro other list items before hfresh hafter hlinks hlist hbefore
    rcases hmarks other hafter with hbetween | ⟨fields, hholds, hcarrier⟩
    · exact h.parts other list items before hfresh hbetween hlinks hlist hbefore
    · exact (not_list_of_carrier h.sound hholds hcarrier hlinks hlist).elim

/-! ### Gifts that change a list -/

/-- A list that is changed leaves all mappings as they are. -/
theorem touches_list (h : between.Sound) {f : Node → Node} {marks : IdentitySet}
    (hmarks : ∀ identity, between.carriers.contains identity = true →
      marks.contains identity = true)
    (hadds : { between with carriers := marks }.AddsAt n f) {items : List Tag}
    (hlist : between.outline? n = some (.list items)) :
    Touches between ({ between with carriers := marks }.modifyNode n f) n := by
  have hsound : { between with carriers := marks }.Sound := h.congr rfl rfl rfl
  refine ⟨hadds.sound hsound, .of_maps (Run.next_le_modifyNode n f) rfl hmarks
    fun m entries hm => ?_,
    fun m o hne hm => hadds.outline?_of_ne hsound hne hm⟩
  refine hadds.outline?_of_ne hsound ?_ hm
  rintro rfl
  cases hlist.symm.trans hm

/-- The composites that have been remembered before a list is changed have their parts. -/
theorem Given.parts_of_list (h : Given run between) (htouches : Touches between after n)
    {items : List Tag} (hlist : between.outline? n = some (.list items))
    (hapart : between.carriers.contains (.tag (some schema)) = true →
      ¬between.Links schema "allOf" n)
    {list : Nat} {items' : List Tag} {before : Outline}
    (hfresh : run.carriers.contains (.tag (some schema)) = false)
    (hmarked : between.carriers.contains (.tag (some schema)) = true)
    (hlinks : after.Links schema "allOf" list) (hnow : after.outline? list = some (.list items'))
    (hbefore : run.outline? list = some before) :
    ∃ front part, before = .list front ∧ items' = front ++ [part] := by
  obtain ⟨entries, houtline⟩ := h.remembered schema hfresh hmarked
  have hne : schema ≠ n := by
    rintro rfl
    cases hlist.symm.trans houtline
  have hback := htouches.links_of_ne houtline hne hlinks
  refine h.parts_of_ne htouches hfresh hmarked hback ?_ hnow hbefore
  rintro rfl
  exact hapart hmarked hback

theorem Given.parted (h : Given run between) (hholds : between.Holds (.map (some schema) fields))
    (hfresh : between.carriers.contains (.tag (some schema)) = false) {list : Nat}
    (hcarrier : Carrier.of between.options fields = .parts list) :
    Given run ((marked between schema).modifyNode list
      (onItems (· ++ [keyHolder between.options.fieldProperty]))) := by
  have hof := Carrier.of_ofFields between.options fields
  rw [hcarrier] at hof
  obtain ⟨nodes, hget⟩ := hof
  have hsound : (marked between schema).Sound := h.sound.congr rfl rfl rfl
  have hlinks := h.sound.links_of_get? hholds hget rfl
  have hheld := hholds.below (mem_subtrees_of_get? hget)
  have hlist := h.sound.outline?_of_holds hheld (n := list) rfl
  have hmap := h.sound.outline?_of_holds hholds rfl
  have htouches := touches_list h.sound (carriers_marked between schema)
    (addsAt_part (marked between schema) list between.options.fieldProperty) hlist
  obtain ⟨part, hpart, hnow, hholder⟩ := outline?_part hsound (hsound.node?_of_holds hheld rfl)
  have hnew := fresh_of_le h.carriers hfresh
  have hgained : Gained run _ "allOf" list :=
    ⟨schema, htouches.persists.links hlinks, hnew, contains_marked_self between schema⟩
  refine h.touched htouches (fun other hafter => (contains_marked hafter).imp id ?_) ?_ ?_
  · rintro heq
    cases heq
    exact ⟨_, hmap⟩
  · intro before now hbetween hpatched
    obtain rfl := Option.some.inj (hlist.symm.trans hbetween)
    obtain rfl := hpatched.eq_of_fresh h.sound hlinks hfresh
    exact ⟨_, hnow, .parted hgained (h.next.trans hpart) hholder⟩
  · intro other list' items before hother hafter hlinks' hlist' hbefore
    rcases contains_marked hafter with hbetween | heq
    · refine h.parts_of_list htouches hlist (fun hmarked hown => ?_) hother hbetween
        hlinks' hlist' hbefore
      obtain ⟨rfl, -⟩ := hown.unique h.sound hlinks
      exact Bool.eq_false_iff.1 hfresh hmarked
    · cases heq
      have hne : schema ≠ list := by
        rintro rfl
        cases hlist.symm.trans hmap
      obtain rfl := hlinks.functional (htouches.links_of_ne hmap hne hlinks')
      obtain ⟨now, hbetween, hpatched⟩ := h.outlines _ before hbefore
      obtain rfl := Option.some.inj (hlist.symm.trans hbetween)
      obtain rfl := hpatched.eq_of_fresh h.sound hlinks hfresh
      exact ⟨_, _, rfl, Outline.list.inj (Option.some.inj (hlist'.symm.trans hnow))⟩

/-- A wrapped member is no wrapper yet. -/
theorem not_isWrapper_of_isBare (hsound : run.Sound) {item : Node} (hitem : run.Holds item)
    (hbare : IsBare item) {n : Nat} (htag : item.tag = some n) (old : Tag) :
    ¬run.IsWrapper n old := by
  rintro ⟨type, inner, key, houtline, hinner⟩
  obtain ⟨tag, fields, rfl, hcase⟩ := hbare
  obtain rfl : tag = some n := htag
  rw [hsound.outline?_of_holds hitem rfl] at houtline
  have hentries : ∀ key : String, (fields.get? key).map Tree.tag =
      Entries.get? ⟨[("type", type), ("properties", some inner)]⟩ key := fun key => by
    rw [← Entries.get?_mapValues]
    exact congrArg (fun entries : Entries Tag => entries.get? key)
      (Outline.map.inj (Option.some.inj houtline))
  rcases hcase with href | hproperties
  · have hnone : fields.get? "$ref" = none := Option.map_eq_none_iff.1 ((hentries "$ref").trans rfl)
    rw [Fields.isReference, Fields.ref?, Fields.text?, hnone] at href
    cases href
  · obtain ⟨value, hget, hvalue⟩ := Option.map_eq_some_iff.1
      ((hentries "properties").trans rfl)
    have hbelow := hitem.below (mem_subtrees_of_get? hget)
    have hmap : ∃ entries, value.outline = .map entries := by
      have houtline := hsound.outline?_of_holds hbelow hvalue
      rcases hinner with halone | ⟨-, other, hboth⟩
      · exact ⟨_, Option.some.inj (houtline.symm.trans halone)⟩
      · exact ⟨_, Option.some.inj (houtline.symm.trans hboth)⟩
    obtain ⟨entries, hentries⟩ := hmap
    cases value with
    | map tag' present =>
        rw [Fields.map?, hget] at hproperties
        cases hproperties
    | _ => cases hentries

/-- One more member of a union is held by a new object, and the other members are as they were. -/
theorem members_set {items items' : List Tag} {index wrapper : Nat} (hlt : index < items'.length)
    (hnew : run.next ≤ wrapper)
    (hwraps : ∀ item, items[index]? = some item → after.IsWrapper wrapper item)
    (hmembers : ∀ (i : Nat) (item : Tag), items[i]? = some item → items'[i]? = some item ∨
      ∃ old, items'[i]? = some (some old) ∧ run.next ≤ old ∧ after.IsWrapper old item)
    (i : Nat) (item : Tag) (hi : items[i]? = some item) :
    (items'.set index (some wrapper))[i]? = some item ∨
      ∃ old, (items'.set index (some wrapper))[i]? = some (some old) ∧ run.next ≤ old ∧
        after.IsWrapper old item := by
  by_cases heq : index = i
  · subst heq
    exact Or.inr ⟨wrapper, List.getElem?_set_self hlt, hnew, hwraps item hi⟩
  · rw [List.getElem?_set_ne heq]
    exact hmembers i item hi

theorem Given.wrapped (h : Given run between) (hholds : between.Holds (.map (some schema) fields))
    (hmarked : between.carriers.contains (.tag (some schema)) = true)
    (hnew : run.carriers.contains (.tag (some schema)) = false) {key : String}
    (hkey : key ∈ ["oneOf", "anyOf"]) {list index : Nat} {nodes : List Node} {node : Node}
    (hget : fields.get? key = some (.list (some list) nodes))
    (hnode : nodes[index]? = some node) (hbare : IsBare node) (wrap : String) :
    Given run (between.modifyNode list (onItems (wrapAt index wrap))) := by
  have hlinks := h.sound.links_of_get? hholds hget rfl
  have hheld := hholds.below (mem_subtrees_of_get? hget)
  have hlist := h.sound.outline?_of_holds hheld (n := list) rfl
  have hitem :=
    hheld.below (mem_subtrees_of_child (List.mem_of_getElem? hnode) (self_mem_subtrees node))
  have htouches :=
    touches_list h.sound (fun _ hin => hin) (addsAt_wrapper h.sound hheld hnode hbare wrap) hlist
  obtain ⟨wrapper, hwrapper, hnow, hwraps⟩ :=
    outline?_wrapper h.sound (h.sound.node?_of_holds hheld rfl) hnode hbare wrap
  have hgained : Gained run (between.modifyNode list (onItems (wrapAt index wrap))) key list :=
    ⟨schema, htouches.persists.links hlinks, hnew, hmarked⟩
  have hindex : (nodes.map Tree.tag)[index]? = some node.tag := by
    rw [List.getElem?_map, hnode, Option.map_some]
  obtain ⟨hlt, -⟩ := List.getElem?_eq_some_iff.1 hindex
  refine h.touched htouches (fun other hafter => Or.inl hafter) ?_ ?_
  · intro before now hbetween hpatched
    refine ⟨_, hnow, ?_⟩
    have hitems := Option.some.inj (hlist.symm.trans hbetween)
    cases hpatched with
    | same =>
        subst hitems
        refine .wrapped hkey hgained (by simp)
          (members_set hlt (h.next.trans hwrapper) (fun item hi => ?_)
          fun _ _ => Or.inl)
        obtain rfl := Option.some.inj (hindex.symm.trans hi)
        exact hwraps
    | parted hparted =>
        -- The list stands under one keyword.
        obtain ⟨owner, howner, -⟩ := hparted
        obtain ⟨-, rfl⟩ := howner.unique h.sound hlinks
        simp at hkey
    | keyed => cases hitems
    | wrapped hkey' _ hlength hslots =>
        obtain rfl := Outline.list.inj hitems
        refine .wrapped hkey hgained (by simpa using hlength)
          (members_set hlt (h.next.trans hwrapper)
          (fun item hi => ?_) fun i item hi => (hslots i item hi).imp id ?_)
        · rcases hslots index item hi with hsame | ⟨old, hold, -, hisWrapper⟩
          · obtain rfl := Option.some.inj (hindex.symm.trans hsame)
            exact hwraps
          · have htag := Option.some.inj (hindex.symm.trans hold)
            exact absurd hisWrapper (not_isWrapper_of_isBare h.sound hitem hbare htag item)
        · rintro ⟨old, hold, hfresh, hisWrapper⟩
          exact ⟨old, hold, hfresh,
            htouches.persists.wrapper ⟨_, hlist, List.mem_of_getElem? hold⟩ hisWrapper⟩
  · intro other list' items before hother hafter hlinks' hlist' hbefore
    refine h.parts_of_list htouches hlist (fun _ hown => ?_) hother hafter hlinks' hlist' hbefore
    obtain ⟨-, rfl⟩ := hown.unique h.sound hlinks
    simp at hkey

/-! ### Gifts that change the properties of an object -/

theorem persists_keyed (h : between.Sound)
    (hfresh : between.carriers.contains (.tag (some schema)) = false)
    (hlinks : between.Links schema "properties" n) (hnext : between.next ≤ after.next)
    (hoptions : after.options = between.options)
    (hcarriers : ∀ identity, between.carriers.contains identity = true →
      after.carriers.contains identity = true)
    (hmarked : after.carriers.contains (.tag (some schema)) = true)
    {entries : Entries Tag} {value : Tag} (hnode : between.outline? n = some (.map entries))
    (habsent : entries.get? between.options.fieldProperty = none)
    (hnow : after.outline? n =
      some (.map ⟨entries.toList ++ [(.text between.options.fieldProperty, value)]⟩))
    (hothers : ∀ m o, m ≠ n → between.outline? m = some o → after.outline? m = some o) :
    Persists between after where
  next := hnext
  options := hoptions
  carriers := hcarriers
  maps := by
    intro m entries' houtline
    by_cases hm : m = n
    · exact ⟨_, hm ▸ hnow⟩
    · exact ⟨entries', hothers m _ hm houtline⟩
  links := by
    rintro m key target ⟨entries', houtline, hget⟩
    by_cases hm : m = n
    · subst hm
      obtain rfl := Run.map_unique hnode houtline
      exact ⟨_, hnow, Entries.get?_append hget⟩
    · exact ⟨entries', hothers m _ hm houtline, hget⟩
  keyHolder := by
    rintro list part hlists ⟨type, inner, value', hpart, hinner⟩
    have hne : part ≠ n := by
      rintro rfl
      exact hlinks.not_lists h hlists
    have hne' : inner ≠ n := by
      rintro rfl
      obtain rfl := Run.map_unique hnode hinner
      simp [Entries.get?, Entries.lookup] at habsent
    exact ⟨type, inner, value', hothers _ _ hne hpart, hoptions ▸ hothers _ _ hne' hinner⟩
  wrapper := by
    rintro list part item hlists ⟨type, inner, key, hpart, hinner⟩
    have hne : part ≠ n := by
      rintro rfl
      exact hlinks.not_lists h hlists
    refine ⟨type, inner, key, hothers _ _ hne hpart, ?_⟩
    by_cases hn : inner = n
    · -- The properties of the new object get the key, so the object has been remembered.
      subst hn
      have hown : between.Links part "properties" inner := ⟨_, hpart, rfl⟩
      obtain ⟨rfl, -⟩ := hown.unique h hlinks
      rcases hinner with halone | ⟨hin, -⟩
      · obtain rfl := Run.map_unique hnode halone
        exact Or.inr ⟨hmarked, value, hoptions ▸ hnow⟩
      · exact absurd (hfresh.symm.trans hin) Bool.false_ne_true
    · refine hinner.imp (hothers _ _ hn) ?_
      rintro ⟨hin, value', hboth⟩
      exact ⟨hcarriers _ hin, value', hoptions ▸ hothers _ _ hn hboth⟩

/-- A mapping that gets one more entry, whose value is no list, holds no new list. -/
theorem links_of_keyed {field key : String} {list value : Nat} {entries inner : Entries Tag}
    {items : List Tag} (hbefore : between.outline? n = some (.map entries))
    (hnow : after.outline? n = some (.map ⟨entries.toList ++ [(.text field, some value)]⟩))
    (hvalue : after.outline? value = some (.map inner))
    (hlist : after.outline? list = some (.list items))
    (hlinks : after.Links n key list) : between.Links n key list := by
  obtain ⟨entries', houtline, hget⟩ := hlinks
  obtain rfl := Run.map_unique hnow houtline
  rw [Entries.get?, Entries.lookup_append, Option.or_eq_some_iff] at hget
  rcases hget with hold | ⟨-, hadded⟩
  · exact ⟨_, hbefore, hold⟩
  · simp only [Entries.lookup] at hadded
    split at hadded
    · obtain rfl := Option.some.inj (Option.some.inj hadded)
      cases hlist.symm.trans hvalue
    · cases hadded

theorem Given.keyed (h : Given run between) (hholds : between.Holds (.map (some schema) fields))
    (hfresh : between.carriers.contains (.tag (some schema)) = false) {inner : Nat}
    {present : Fields Tag}
    (hcarrier : Carrier.of between.options fields = .properties inner present)
    (habsent : present.get? between.options.fieldProperty = none) :
    Given run ((marked between schema).modifyNode inner
      (onFields (·.insert between.options.fieldProperty textSchema))) := by
  have hget := Carrier.of_ofFields between.options fields
  rw [hcarrier] at hget
  have hsound : (marked between schema).Sound := h.sound.congr rfl rfl rfl
  have hlinks := h.sound.links_of_get? hholds hget rfl
  have hheld := hholds.below (mem_subtrees_of_get? hget)
  have hinner := h.sound.outline?_of_holds hheld (n := inner) rfl
  have hadds := addsAt_property hsound hheld habsent
  have hnone : (present.mapValues Tree.tag).get? between.options.fieldProperty = none := by
    rw [Entries.get?_mapValues, habsent, Option.map_none]
  obtain ⟨value, entries, hvalue, hnow, hentries⟩ :=
    outline?_property hsound (hsound.node?_of_holds hheld rfl) habsent
  have hothers : ∀ m o, m ≠ inner → between.outline? m = some o → _ :=
    fun m o hne hm => hadds.outline?_of_ne hsound hne
      (show (marked between schema).outline? m = some o from hm)
  have htouches : Touches between _ inner := ⟨hadds.sound hsound,
    persists_keyed h.sound hfresh hlinks (Run.next_le_modifyNode _ _) rfl
    (carriers_marked between schema)
      (contains_marked_self between schema) hinner hnone hnow hothers, hothers⟩
  have hnew := fresh_of_le h.carriers hfresh
  have hgained : Gained run _ "properties" inner :=
    ⟨schema, htouches.persists.links hlinks, hnew, contains_marked_self between schema⟩
  refine h.touched htouches (fun other hafter => (contains_marked hafter).imp id ?_) ?_ ?_
  · rintro heq
    cases heq
    exact ⟨_, h.sound.outline?_of_holds hholds rfl⟩
  · intro before now hbetween hpatched
    obtain rfl := Option.some.inj (hinner.symm.trans hbetween)
    obtain rfl := hpatched.eq_of_fresh h.sound hlinks hfresh
    exact ⟨_, hnow, .keyed_of_eq (congrArg _ h.options) hgained hnone (h.next.trans hvalue)⟩
  · intro other list items before hother hafter hlinks' hlist hbefore
    have hback : between.Links other "allOf" list := by
      by_cases hne : other = inner
      · subst hne
        exact links_of_keyed hinner hnow hentries hlist hlinks'
      · rcases contains_marked hafter with hbetween | heq
        · obtain ⟨entries', houtline⟩ := h.remembered other hother hbetween
          exact htouches.links_of_ne houtline hne hlinks'
        · cases heq
          exact htouches.links_of_ne (h.sound.outline?_of_holds hholds rfl) hne hlinks'
    have hne : list ≠ inner := by
      rintro rfl
      cases hlist.symm.trans hnow
    rcases contains_marked hafter with hbetween | heq
    · exact h.parts_of_ne htouches hother hbetween hback hne hlist hbefore
    · cases heq
      obtain ⟨now, hbetween, -⟩ := h.outlines list before hbefore
      obtain rfl := Option.some.inj (hlist.symm.trans (hothers list now hne hbetween))
      refine (not_list_of_carrier h.sound hholds (fun list heq => ?_) hback hbetween).elim
      cases hcarrier.symm.trans heq

/-! ### All gifts -/

theorem Gift.given (hgift : Gift run.carriers between after) (h : Given run between) :
    Given run after := by
  have hmarked : ∀ {schema : Nat} {fields : Fields Tag},
      between.Holds (.map (some schema) fields) →
      (∀ list, Carrier.of between.options fields ≠ .parts list) →
      Given run (marked between schema) := by
    intro schema fields hholds hcarrier
    refine h.noted (carriers_marked between schema) fun other hafter => ?_
    refine (contains_marked hafter).imp id fun heq => ?_
    cases heq
    exact ⟨fields, hholds, hcarrier⟩
  cases hgift with
  | reported => exact h.noted (fun _ hin => hin) fun _ hafter => Or.inl hafter
  | parted hholds hfresh hcarrier => exact h.parted hholds hfresh hcarrier
  | keyed hholds hfresh hcarrier habsent => exact h.keyed hholds hfresh hcarrier habsent
  | kept hholds _ hcarrier => exact hmarked hholds fun list heq => nomatch hcarrier.symm.trans heq
  | passed hholds _ hcarrier => exact hmarked hholds fun list heq => nomatch hcarrier.symm.trans heq
  | wrapped wrap hholds hin hfresh hkey hget hitem hbare =>
      exact h.wrapped hholds hin hfresh hkey hget hitem hbare wrap

/-- Whatever gifts are made, every container has been patched once at most. -/
theorem given_of_gifts (h : ReflTransGen (Gift run.carriers) run after) (hsound : run.Sound) :
    Given run after := by
  induction h with
  | refl => exact .refl hsound
  | tail _ hgift ih => exact hgift.given ih

end

end ProtoShape
