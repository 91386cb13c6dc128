import ProtoShape.Proofs.Reshape.DueMarks
import ProtoShape.Proofs.Reshape.Total

/-!
# What the third phase adds

The third phase lays the marks that are due over a document and changes nothing else, and the
same marks are due afterwards (`Marked`).  This goes through a walk part by part: a list or a
mapping of parts is marked where its parts are, and a schema gets its own marks last.

Hence a second run finds the same schemas exclusive, and the marks are there already.
-/

namespace ProtoShape

open Config Rules Tree

variable {τ : Type}

/-! ## The walk -/

section Walk

variable [Inhabited τ] {options : Options} {flags : Flags} {fields fields' : Fields τ}
    {tag : τ} {place : Place}
  {site : Site} {role : Role}

/-- The schemas below the value of a keyword. -/
abbrev slotVisits (fields : Fields τ) (inner : Site) (slot : Slot) : List (Visit τ) :=
  (fields.get? slot.key).toList.flatMap fun value => value.visits slot.place (inner.below slot.key)

omit [Inhabited τ] in
theorem slotVisits_eq {inner : Site} {slot : Slot} {value : Tree τ}
    (h : fields.get? slot.key = some value) :
    slotVisits fields inner slot = value.visits slot.place (inner.below slot.key) := by
  rw [slotVisits, h, Option.toList_some, List.flatMap_singleton]

/-- A single part calls for the same marks where its tests and its slots are the same. -/
theorem dueMarks_single (hspread : place.spread = .single) (h : SameTests fields fields')
    (hslots : ∀ slot ∈ place.role.slots,
      dueMarks flags (slotVisits fields' (site.inside place.role fields) slot) =
        dueMarks flags (slotVisits fields (site.inside place.role fields) slot)) :
    dueMarks flags ((map tag fields').visits place site) =
      dueMarks flags ((map tag fields).visits place site) := by
  have hself : dueMarks flags (Visit.of? place.role site tag fields').toList =
      dueMarks flags (Visit.of? place.role site tag fields).toList := by
    cases hrole : place.role with
    | schema hook =>
        funext keys
        simp only [Visit.of?, Option.toList_some, dueMarks, List.flatMap_singleton, Visit.marks,
          h.isExclusive, h.note]
    | _ => rfl
  rw [visits_map_single hspread, visits_map_single hspread, h.admits, h.inside]
  split
  · funext keys
    rw [dueMarks_append, dueMarks_append, hself, dueMarks_flatMap_congr hslots]
  · rfl

/-- Marks on a single part leave the marks that it calls for. -/
theorem dueMarks_overlaid {marks : List (Scalar × Tree τ)} (h : PlainMarks marks)
    (hspread : place.spread = .single) (t : Tree τ) :
    dueMarks flags ((t.overlaid marks).visits place site) =
      dueMarks flags (t.visits place site) := by
  cases t with
  | map tag fields =>
      refine dueMarks_single hspread (sameTests_overlay h) fun slot hslot => ?_
      rw [slotVisits, get?_overlay_plain h (slot_key_plain _ hslot)]
  | _ => rfl

/-- What the third phase makes of a tree: the marks that are due are laid over it, and the same
marks are due there. -/
structure Marked (flags : Flags) (t : Tree τ) (place : Place) (site : Site)
    (result : Tree τ) : Prop where
  laid : result = t.overlayAt (dueMarks flags (t.visits place site)) site.location.keys
  due : dueMarks flags (result.visits place site) = dueMarks flags (t.visits place site)

/-- A tree and its replacement. -/
abbrev MarkedIn (flags : Flags) : Replacement τ :=
  fun t place site _ result => Marked flags t place site result

theorem marked_of_visits_eq_nil {t : Tree τ} (h : t.visits place site = []) :
    Marked flags t place site t := by
  refine ⟨(overlayAt_eq_self fun more => ?_).symm, rfl⟩
  rw [h]
  rfl

/-! ### Lists -/

omit [Inhabited τ] in
theorem visitsOfItems_eq (items : List (Tree τ)) (role : Role) (site : Site) (index : Nat) :
    visitsOfItems items role site index =
      (items.zipIdx index).flatMap fun item => item.1.visits (.one role) (site.element item.2) := by
  induction items generalizing index with
  | nil => rw [visitsOfItems, List.zipIdx_nil, List.flatMap_nil]
  | cons item rest ih => rw [visitsOfItems, List.zipIdx_cons, List.flatMap_cons, ih]

theorem itemsReplaced_marked {items items' : List (Tree τ)} {index : Nat}
    {around : List (Tree τ) → Tree τ} {entriesFor : List String → List (Scalar × Tree τ)}
    (h : ItemsReplaced (MarkedIn flags) role site items index around items')
    (hbranch : ∀ item ∈ items.zipIdx index,
      item.1.overlayAt entriesFor (site.location.keys ++ [toString item.2]) =
        item.1.overlayAt (dueMarks flags (item.1.visits (.one role) (site.element item.2)))
          (site.location.keys ++ [toString item.2])) :
    items' = overlayItems entriesFor items site.location.keys index ∧
      dueMarks flags (visitsOfItems items' role site index) =
        dueMarks flags (visitsOfItems items role site index) := by
  induction h with
  | nil => exact ⟨by rw [overlayItems], rfl⟩
  | @cons item rest index around item' rest' hitem _ ih =>
      rw [List.zipIdx_cons, List.forall_mem_cons] at hbranch
      obtain ⟨hlaid, hdue⟩ := ih hbranch.2
      constructor
      · rw [overlayItems, hbranch.1, ← hlaid]
        exact congrArg (· :: rest') hitem.laid
      · funext keys
        rw [visitsOfItems, visitsOfItems, dueMarks_append, dueMarks_append, hitem.due, hdue]

theorem marked_list {items items' : List (Tree τ)} {around : List (Tree τ) → Tree τ}
    (hspread : place.spread = .elements)
    (h : ItemsReplaced (MarkedIn flags) place.role site items 0 around items') :
    Marked flags (.list tag items) place site (.list tag items') := by
  have hvisits : ∀ items : List (Tree τ), (list tag items).visits place site =
      visitsOfItems items place.role site 0 := by
    intro items
    rw [visits, if_pos hspread]
  have hdistinct : (items.zipIdx 0).Pairwise
      fun item item' => (toString item.2 : String) ≠ toString item'.2 := by
    have hnodup : ((items.zipIdx 0).map Prod.snd).Nodup := by
      rw [List.zipIdx_map_snd]
      exact List.nodup_range'
    exact (List.pairwise_map.1 hnodup).imp fun hne heq => hne (index_unique heq)
  have hbelow : ∀ item ∈ items.zipIdx 0,
      ∀ visit ∈ item.1.visits (.one place.role) (site.element item.2),
      site.location.keys ++ [toString item.2] <+: visit.location.keys :=
    fun item _ visit hvisit => location_prefix_of_mem_visits hvisit
  obtain ⟨hlaid, hdue⟩ := itemsReplaced_marked h fun item hitem =>
    overlayAt_branch flags hbelow hdistinct hitem item.1
  refine ⟨?_, ?_⟩
  · rw [hvisits, visitsOfItems_eq, overlayAt, ← hlaid]
  · rw [hvisits, hvisits, hdue]

/-! ### Mappings -/

/-- The schemas below the value of an entry. -/
abbrev entryVisits (place : Place) (site : Site) (entry : Scalar × Tree τ) : List (Visit τ) :=
  entry.2.visits (.one place.role) (site.entry place entry.1)

theorem entriesReplaced_marked {entries entries' : List (Scalar × Tree τ)}
    {around : List (Scalar × Tree τ) → Tree τ} {entriesFor : List String → List (Scalar × Tree τ)}
    (h : EntriesReplaced (MarkedIn flags) place site entries around entries')
    (hbranch :
      ∀ entry ∈ entries, entry.2.overlayAt entriesFor (site.location.keys ++ [entry.1.label]) =
      entry.2.overlayAt (dueMarks flags (entryVisits place site entry))
        (site.location.keys ++ [entry.1.label])) :
    entries' = overlayEntries entriesFor entries site.location.keys ∧
      dueMarks flags (entries'.flatMap (entryVisits place site)) =
        dueMarks flags (entries.flatMap (entryVisits place site)) := by
  induction h with
  | nil => exact ⟨by rw [overlayEntries], rfl⟩
  | @cons key value rest around value' rest' hvalue _ ih =>
      rw [List.forall_mem_cons] at hbranch
      obtain ⟨hlaid, hdue⟩ := ih hbranch.2
      constructor
      · rw [overlayEntries, hbranch.1, ← hlaid]
        exact congrArg (fun value => (key, value) :: rest') hvalue.laid
      · funext keys
        rw [List.flatMap_cons, List.flatMap_cons, dueMarks_append, dueMarks_append, hvalue.due,
          hdue]

theorem marked_entries (hobject : fields.IsObject) (hspread : place.spread = .entries)
    {entries' : List (Scalar × Tree τ)} {around : List (Scalar × Tree τ) → Tree τ}
    (h : EntriesReplaced (MarkedIn flags) place site fields.toList around entries') :
    Marked flags (.map tag fields) place site (.map tag ⟨entries'⟩) := by
  have hbelow : ∀ entry ∈ fields.toList, ∀ visit ∈ entryVisits place site entry,
      site.location.keys ++ [entry.1.label] <+: visit.location.keys :=
    fun entry _ visit hvisit => location_prefix_of_mem_visits hvisit
  obtain ⟨hlaid, hdue⟩ := entriesReplaced_marked h fun entry hentry =>
    overlayAt_branch flags hbelow (pairwise_label hobject) hentry entry.2
  refine ⟨?_, ?_⟩
  · rw [visits_map_entries hspread, overlayAt_map, dueMarks_above hbelow, Entries.overlay_nil,
      hlaid, overlayEntries_eq]
    rfl
  · rw [visits_map_entries hspread, visits_map_entries hspread, hdue]

/-! ### Parts -/

/-- The marks that the schemas below a part call for. -/
abbrev marksBelow (flags : Flags) (fields : Fields τ) (role : Role) (site : Site) :
    List String → List (Scalar × Tree τ) :=
  dueMarks flags (role.slots.flatMap (slotVisits fields (site.inside role fields)))

omit [Inhabited τ] in
theorem slotVisits_below (fields : Fields τ) (role : Role) (site : Site) :
    ∀ slot ∈ role.slots, ∀ visit ∈ slotVisits fields (site.inside role fields) slot,
      site.location.keys ++ [slot.key] <+: visit.location.keys := by
  intro slot _ visit hvisit
  obtain ⟨value, -, hvisit⟩ := List.mem_flatMap.1 hvisit
  rw [← location_below site role fields]
  exact location_prefix_of_mem_visits hvisit

omit [Inhabited τ] in
/-- Where entries stand, a walk comes to schemas in the entries only. -/
theorem location_ne_of_entries (hspread : place.spread = .entries) {t : Tree τ} {visit : Visit τ}
    (h : visit ∈ t.visits place site) : visit.location.keys ≠ site.location.keys := by
  cases t with
  | scalar tag s => simp at h
  | list tag items =>
      obtain ⟨helements, -⟩ := mem_visits_list.1 h
      rw [hspread] at helements
      cases helements
  | map tag fields =>
      obtain ⟨entry, -, hvisit⟩ := (mem_visits_map_entries hspread).1 h
      have hlength := (location_prefix_of_mem_visits hvisit).length_le
      intro heq
      have hlonger : (site.entry place entry.1).location.keys.length =
          site.location.keys.length + 1 :=
        List.length_append
      rw [heq] at hlength
      omega

theorem spread_of_key_properties (role : Role) : ∀ slot ∈ role.slots, slot.key = "properties" →
    slot.place = ⟨.entries, .schema .property, false⟩ := by
  cases role with
  | schema hook => cases hook <;> decide
  | _ => decide

/-- The schemas below a part call for no marks on the part itself. -/
theorem marksBelow_here : marksBelow flags fields role site site.location.keys = [] :=
  dueMarks_above (slotVisits_below fields role site)

/-- The schemas below a part call for no marks on the mapping of its properties. -/
theorem marksBelow_properties :
    marksBelow flags fields role site (site.location.keys ++ ["properties"]) = [] := by
  refine dueMarks_eq_nil fun visit hvisit hprefix => ?_
  obtain ⟨slot, hslot, hvisit⟩ := List.mem_flatMap.1 hvisit
  have hbelow := slotVisits_below fields role site slot hslot visit hvisit
  have hkeys : visit.location.keys = site.location.keys ++ [slot.key] :=
    (hbelow.eq_of_length_le (by simpa using hprefix.length_le)).symm
  have hkey : slot.key = "properties" := by
    have hsame := (hbelow.trans hprefix).eq_of_length (by simp)
    simpa using hsame
  obtain ⟨value, -, hvisit⟩ := List.mem_flatMap.1 hvisit
  refine location_ne_of_entries ?_ hvisit ?_
  · rw [spread_of_key_properties role slot hslot hkey]
  · rw [location_below, hkeys]

/-- Each slot of a part is marked with what the schemas below it call for. -/
theorem slotsReplaced_marked {around : Fields τ → Tree τ}
    (h : SlotsReplaced (MarkedIn flags) (site.inside role fields) around fields
      role.slots fields fields')
    {slot : Slot} (hslot : slot ∈ role.slots) {value : Tree τ}
    (hget : fields.get? slot.key = some value) :
    ∃ value', fields'.get? slot.key = some value' ∧
      value' = value.overlayAt (marksBelow flags fields role site)
        (site.location.keys ++ [slot.key]) ∧
      dueMarks flags (value'.visits slot.place ((site.inside role fields).below slot.key)) =
        dueMarks flags (value.visits slot.place ((site.inside role fields).below slot.key)) := by
  rcases h.get?_slot role.slots_nodup (fun _ _ => rfl) hslot with
    ⟨hnone, -⟩ | ⟨before, value', around', hbefore, hafter, hmarked⟩
  · rw [hnone] at hget
    cases hget
  · obtain rfl : before = value := Option.some.inj (hbefore.symm.trans hget)
    refine ⟨value', hafter, ?_, hmarked.due⟩
    rw [overlayAt_branch flags (slotVisits_below fields role site)
      (List.pairwise_map.1 role.slots_nodup) hslot,
      slotVisits_eq hget, hmarked.laid, location_below]

/-- The slots of a part get the marks that are due below it, and nothing else changes there. -/
theorem slots_eq_overlayBelow (hobject : fields.IsObject) {around : Fields τ → Tree τ}
    (h : SlotsReplaced (MarkedIn flags) (site.inside role fields) around fields role.slots
      fields fields') :
    fields' = Fields.overlayBelow (marksBelow flags fields role site) fields
      site.location.keys := by
  refine Entries.IsObject.ext (Fields.isObject_overlayBelow hobject) ?_ fun key => ?_
  · rw [h.keys fun _ _ => rfl, Fields.keys_overlayBelow]
  · rw [Fields.get?_overlayBelow]
    by_cases hkey : key ∈ role.slots.map Slot.key
    · obtain ⟨slot, hslot, rfl⟩ := List.mem_map.1 hkey
      cases hget : fields.get? slot.key with
      | none =>
          rcases h.get?_slot role.slots_nodup (fun _ _ => rfl) hslot with
            ⟨-, hafter⟩ | ⟨_, _, _, hbefore, -, -⟩
          · exact hafter
          · rw [hget] at hbefore
            cases hbefore
      | some value =>
          obtain ⟨value', hafter, hlaid, -⟩ := slotsReplaced_marked h hslot hget
          rw [hafter, hlaid, Option.map_some]
    · rw [h.get?_of_not_mem hkey]
      cases fields.get? key with
      | none => rfl
      | some value =>
          refine congrArg some (overlayAt_eq_self fun more => ?_).symm
          rw [List.append_assoc, List.singleton_append]
          exact dueMarks_elsewhere (slotVisits_below fields role site)
            (fun slot hslot heq => hkey (List.mem_map.2 ⟨slot, hslot, heq⟩)) more

omit [Inhabited τ] in
theorem visits_map_admitted (hspread : place.spread = .single)
    (hadmits : place.role.admits fields = true) :
    (map tag fields).visits place site =
      place.role.slots.flatMap (slotVisits fields (site.inside place.role fields)) ++
        (Visit.of? place.role site tag fields).toList := by
  rw [visits_map_single hspread, if_pos hadmits]

/-- The rule finds the same in a part with the marks below it. -/
theorem sameTests_slots (h : options.HasFlags) (hobject : fields.IsObject)
    {around : Fields τ → Tree τ}
    (hslots :
      SlotsReplaced (MarkedIn options.flags) (site.inside role fields) around fields role.slots
      fields fields') : SameTests fields fields' := by
  rw [slots_eq_overlayBelow hobject hslots]
  exact sameTests_overlayBelow (fun keys => plain_dueMarks h _ keys) marksBelow_properties

theorem marked_part (h : options.HasFlags) (hobject : fields.IsObject)
    (hspread : place.spread = .single)
    (hadmits : place.role.admits fields = true) (hrole : ∀ hook, place.role ≠ .schema hook)
    {around : Fields τ → Tree τ}
    (hslots : SlotsReplaced (MarkedIn options.flags) (site.inside place.role fields) around fields
      place.role.slots
      fields fields') :
    Marked options.flags (.map tag fields) place site (.map tag fields') := by
  have hnone : Visit.of? place.role site tag fields = none := by
    cases hrole' : place.role with
    | schema hook => exact absurd hrole' (hrole hook)
    | _ => rfl
  have hfields := slots_eq_overlayBelow hobject hslots
  refine ⟨?_, dueMarks_single hspread (sameTests_slots h hobject hslots) fun slot hslot => ?_⟩
  · rw [visits_map_admitted hspread hadmits, hnone, Option.toList_none, List.append_nil,
      overlayAt_map]
    change _ = map tag
      (Entries.overlay _ ⟨marksBelow options.flags fields place.role site site.location.keys⟩)
    rw [marksBelow_here, Entries.overlay_nil, hfields]
  · cases hget : fields.get? slot.key with
    | none =>
        have hnone' : fields'.get? slot.key = none := by
          rw [hfields, Fields.get?_overlayBelow, hget, Option.map_none]
        rw [slotVisits, slotVisits, hget, hnone']
    | some value =>
        obtain ⟨value', hafter, -, hdue⟩ := slotsReplaced_marked hslots hslot hget
        rw [slotVisits_eq hget, slotVisits_eq hafter, hdue]

/-- The marks of the properties of a group leave the marks that are due below it. -/
theorem dueMarks_markProperties (h : options.HasFlags) (note : String) (properties : Fields τ)
    (hspread : place.spread = .entries) :
    dueMarks flags
      ((map tag (properties.mapValues (markProperty options.flags note))).visits place site) =
      dueMarks flags ((map tag properties).visits place site) := by
  rw [visits_map_entries hspread, visits_map_entries hspread, Entries.mapValues, List.flatMap_map]
  refine dueMarks_flatMap_congr fun entry _ => ?_
  rw [markProperty_eq h]
  exact dueMarks_overlaid (plain_propertyMarks h note) rfl entry.2

/-- The own marks of a schema leave the marks that are due below a slot. -/
theorem dueMarks_overlayAt_slot (h : options.HasFlags) (visit : Visit τ)
    {entriesFor : List String → List (Scalar × Tree τ)}
    (hproperties : entriesFor (visit.location.keys ++ ["properties"]) = []) {slot : Slot}
    (hslot : slot ∈ role.slots) {value : Tree τ} (hget : visit.fields.get? slot.key = some value)
    (inner : Site) :
    dueMarks flags ((value.overlayAt (withMarks options.flags entriesFor visit)
        (visit.location.keys ++ [slot.key])).visits slot.place inner) =
      dueMarks flags
        ((value.overlayAt entriesFor (visit.location.keys ++ [slot.key])).visits
          slot.place inner) := by
  by_cases hgroup : slot.key = "properties" ∧ (exclusiveNote? visit.fields).isSome = true
  · obtain ⟨hkey, hsome⟩ := hgroup
    obtain ⟨note, hnote⟩ := Option.isSome_iff_exists.1 hsome
    obtain ⟨-, tag, properties, hget', -⟩ := exclusiveNote?_eq_some hnote
    have hplace := spread_of_key_properties role slot hslot hkey
    rw [hkey] at hget ⊢
    obtain rfl : map tag properties = value := Option.some.inj (hget'.symm.trans hget)
    rw [overlayAt_properties h hnote hproperties, overlayAt_map, hproperties, Entries.overlay_nil]
    exact dueMarks_markProperties h note _ (by rw [hplace])
  · -- only the properties of a group get marks of the schema, so nothing more is laid over here
    have hsame : value.overlayAt (withMarks options.flags entriesFor visit)
        (visit.location.keys ++ [slot.key]) =
          value.overlayAt entriesFor (visit.location.keys ++ [slot.key]) := by
      refine overlayAt_congr fun more => ?_
      rw [withMarks, marks_elsewhere (by simp), List.append_nil]
      by_cases hkey : slot.key = "properties"
      · exact Or.inl (Option.not_isSome_iff_eq_none.1 fun hsome => hgroup ⟨hkey, hsome⟩)
      · exact Or.inr fun key => by simp [hkey]
    rw [hsame]

theorem marked_schema (h : options.HasFlags) (hobject : fields.IsObject) {hook : Hook}
    (hspread : place.spread = .single) (hrole : place.role = .schema hook)
    (hadmits : place.role.admits fields = true) {around : Fields τ → Tree τ}
    (hslots : SlotsReplaced (MarkedIn options.flags) (site.inside place.role fields) around fields
      place.role.slots
      fields fields') :
    Marked options.flags (.map tag fields) place site
      (.map tag ((markExclusive options.flags fields').getD fields')) := by
  let self := visitAt hook site tag fields
  let below := marksBelow options.flags fields place.role site
  have hplain : ∀ keys, PlainMarks (below keys) := fun keys => plain_dueMarks h _ keys
  have hfields : fields' = Fields.overlayBelow below fields site.location.keys :=
    slots_eq_overlayBelow hobject hslots
  have hresult : (markExclusive options.flags fields').getD fields' =
      (Fields.overlayBelow (withMarks options.flags below self) fields site.location.keys).overlay
        ⟨withMarks options.flags below self site.location.keys⟩ :=
    markExclusive_overlayBelow h self hobject hplain marksBelow_here marksBelow_properties hfields
  have hmarks : dueMarks options.flags ((map tag fields).visits place site) =
      withMarks options.flags below self := by
    funext keys
    rw [visits_map_admitted hspread hadmits, dueMarks_append, hrole]
    change _ ++ dueMarks options.flags [self] keys = _
    rw [dueMarks, dueMarks, List.flatMap_singleton, withMarks]
    simp only [below, hrole, marksBelow, dueMarks]
  have hall : ∀ keys, PlainMarks (withMarks options.flags below self keys) := by
    intro keys
    rw [← hmarks]
    exact plain_dueMarks h _ keys
  have hproperties :
      withMarks options.flags below self (site.location.keys ++ ["properties"]) = [] := by
    rw [withMarks, marks_elsewhere (by simp [self, visitAt])
      (Or.inr fun key => by simp [self, visitAt])]
    exact (List.append_nil _).trans marksBelow_properties
  have hget : ∀ slot ∈ place.role.slots,
      ((markExclusive options.flags fields').getD fields').get? slot.key =
      (fields.get? slot.key).map fun value =>
        value.overlayAt (withMarks options.flags below self)
          (site.location.keys ++ [slot.key]) := by
    intro slot hslot
    rw [hresult, get?_overlay_plain (hall _) (slot_key_plain _ hslot), Fields.get?_overlayBelow]
  refine ⟨?_, dueMarks_single hspread ?_ fun slot hslot => ?_⟩
  · rw [hresult, hmarks, overlayAt_map]
  · rw [hresult]
    exact (sameTests_overlayBelow hall hproperties).trans (sameTests_overlay (hall _))
  · have hafter := hget slot hslot
    cases hbefore : fields.get? slot.key with
    | none =>
        rw [hbefore, Option.map_none] at hafter
        rw [slotVisits, slotVisits, hbefore, hafter]
    | some value =>
        obtain ⟨value', -, hlaid, hdue⟩ := slotsReplaced_marked hslots hslot hbefore
        rw [hbefore, Option.map_some] at hafter
        rw [slotVisits_eq hbefore, slotVisits_eq hafter, ← hdue, hlaid]
        exact dueMarks_overlayAt_slot h self marksBelow_properties hslot hbefore _

/-- The rule meets no fault on a schema with the marks below it. -/
theorem exclusivityFault?_slots (h : options.HasFlags) (hkeys : fields.TextKeys)
    (hobject : fields.IsObject) {around : Fields τ → Tree τ} (hslots :
      SlotsReplaced (MarkedIn options.flags) (site.inside role fields) around fields role.slots
      fields fields') : exclusivityFault? fields' = none := by
  rw [(sameTests_slots h hobject hslots).fault, exclusivityFault?_eq_none hkeys]

/-- The third phase meets no fault on a JSON document, and marks it. -/
theorem markGroups_marked (h : options.HasFlags) {document : Tree τ} (hjson : document.IsJson) :
    ∃ marked, markGroups options document = .ok marked ∧
      Marked options.flags document (.one .document) .root marked := by
  refine (show Replaces faultless _ (fun t _ _ => t.IsJson) (MarkedIn options.flags) from ?_).holds
    document (.one .document) .root id hjson
  exact
    { below := fun hjson hreach => hjson.of_mem_subtrees hreach.mem_subtrees
      keep := fun _ hnone => marked_of_visits_eq_nil
        (List.eq_nil_iff_forall_not_mem.2 fun visit hvisit => hnone _ visit hvisit)
      list := fun _ hspread hitems => marked_list hspread hitems
      entries := fun hjson hspread hentries =>
        marked_entries ((everywhere_map _ _).1 hjson).1 hspread hentries
      part := fun hjson hspread hadmits hrole hslots =>
        marked_part h ((everywhere_map _ _).1 hjson).1 hspread hadmits hrole hslots
      schema := by
        intro tag fields place site around fields' hook hjson hspread hrole hadmits hslots
        have hobject := ((everywhere_map _ _).1 hjson).1
        have hfault : exclusivityFault? (visitAt hook site tag fields').fields = none :=
          exclusivityFault?_slots h (hasTextKeys_map.1 hjson.hasTextKeys) hobject hslots
        rw [hfault]
        exact ⟨_, rfl, marked_schema h hobject hspread hrole hadmits hslots⟩ }

end Walk

/-! ## Documents -/

section Documents

variable [Inhabited τ] {options : Options} {document marked : Tree τ}

/-- The same marks are due for a marked document, so they are there already. -/
theorem Marked.overlayAt (h : options.HasFlags) (hnames : options.flags.names.Nodup)
    (hjson : document.IsJson)
    (hmarked : Marked options.flags document (.one .document) .root marked) :
    marked.overlayAt (dueMarks options.flags marked.documentVisits) [] = marked := by
  rw [documentVisits, hmarked.due, hmarked.laid]
  exact overlayAt_overlayAt (fun keys entry hentry => (plain_dueMarks h _ keys entry hentry).1)
    (distinctKeys_dueMarks hnames hjson _ _)

theorem Marked.isJson (h : options.HasFlags) (hnames : options.flags.names.Nodup)
    (hjson : document.IsJson)
    (hmarked : Marked options.flags document (.one .document) .root marked) : marked.IsJson := by
  rw [hmarked.laid]
  exact isJson_overlayAt hjson (fun keys entry hentry => (plain_dueMarks h _ keys entry hentry).1)
    (isObject_dueMarks h hnames hjson _ _)

theorem erase_overlayAt_dueMarks (flags : Flags) (t : Tree τ) :
    (t.overlayAt (dueMarks flags t.documentVisits) []).erase =
      t.erase.overlayAt (dueMarks flags t.erase.documentVisits) [] := by
  have hdue : dueMarks flags t.erase.documentVisits =
      fun keys => (dueMarks flags t.documentVisits keys).map fun entry =>
      (entry.1, entry.2.erase) :=
    funext (dueMarks_erase flags t _ _)
  rw [hdue]
  exact mapTags_overlayAt _ t []

/-- A marked document, whatever its tags are, has its marks already: marking it again
changes nothing. -/
theorem markGroups_again (h : options.HasFlags) (hnames : options.flags.names.Nodup)
    (hjson : document.IsJson)
    (hmarked : Marked options.flags document (.one .document) .root marked) {σ : Type} [Inhabited σ]
    {again : Tree σ} (hagain : again.erase = marked.erase) :
    ∃ result, markGroups options again = .ok result ∧ result.erase = again.erase := by
  have hjson' : again.IsJson := by
    refine (isJson_mapTags fun _ => ()).1 ?_
    change again.erase.IsJson
    rw [hagain]
    exact (isJson_mapTags _).2 (hmarked.isJson h hnames hjson)
  obtain ⟨result, hmark, hresult⟩ := markGroups_marked h hjson'
  refine ⟨result, hmark, ?_⟩
  calc
    result.erase
    _ = (again.overlayAt (dueMarks options.flags again.documentVisits) []).erase := by
      rw [hresult.laid]
      rfl
    _ = (marked.overlayAt (dueMarks options.flags marked.documentVisits) []).erase := by
      rw [erase_overlayAt_dueMarks, hagain, erase_overlayAt_dueMarks]
    _ = marked.erase := by rw [hmarked.overlayAt h hnames hjson]
    _ = again.erase := hagain.symm

end Documents

/-! ## The phase -/

/-- At most one property may be present. -/
def AtMostOne (fields : Fields τ) : Prop :=
  ∃ tag number, fields.get? "maxProperties" = some (.scalar tag number) ∧ number.isOne = true

/-- A group of properties that exclude each other, or a schema with an inline part where at most
one property may be present. -/
inductive Exclusive (fields : Fields τ) : Prop where
  | group {tag properties} : AtMostOne fields →
      fields.get? "properties" = some (.map tag properties) →
      Exclusive fields
  | part {tag parts tag' part} : fields.get? "allOf" = some (.list tag parts) →
      .map tag' part ∈ parts →
      Fields.isReference part = false → AtMostOne part → Exclusive fields

/-- The marks of a document: a flag on each exclusive schema, and on each property of a group a flag
and a note with the names of the group. -/
inductive DueMark [Inhabited τ] (options : Options) (document : Tree τ) :
    List String → Scalar × Tree τ → Prop where
  | schema {visit} : visit ∈ document.documentVisits → Exclusive visit.fields →
      DueMark options document visit.location.keys (.text options.schemaFlag, .ofBool true)
  | property {visit tag properties key} : visit ∈ document.documentVisits → AtMostOne visit.fields →
      visit.fields.get? "properties" = some (.map tag properties) →
      DueMark options document (visit.location.keys ++ ["properties", key])
        (.text options.propertyFlag, .ofBool true)
  | note {visit tag properties key flag} : visit ∈ document.documentVisits →
      AtMostOne visit.fields →
      visit.fields.get? "properties" = some (.map tag properties) →
      options.annotationFlag = some flag →
      DueMark options document (visit.location.keys ++ ["properties", key])
        (.text flag,
          .ofText (", ".intercalate (properties.keys.map Scalar.label) ++ " are mutual exclusive"))

section Phase

variable {fields : Fields τ}

theorem isExclusiveGroup_iff : isExclusiveGroup fields = true ↔ AtMostOne fields := by
  unfold isExclusiveGroup holdsOne AtMostOne
  split
  · rename_i tag s hget
    simp [hget]
  · rename_i hnone
    simp only [Bool.false_eq_true, false_iff]
    rintro ⟨tag, s, hget, -⟩
    exact hnone tag s hget

theorem exclusiveNote?_eq_some_iff {note : String} : exclusiveNote? fields = some note ↔
    AtMostOne fields ∧ ∃ tag properties, fields.get? "properties" = some (.map tag properties) ∧
      groupNote properties = note := by
  constructor
  · intro h
    obtain ⟨hgroup, hproperties⟩ := exclusiveNote?_eq_some h
    exact ⟨isExclusiveGroup_iff.1 hgroup, hproperties⟩
  · rintro ⟨hgroup, tag, properties, hget, rfl⟩
    rw [exclusiveNote?, if_pos (isExclusiveGroup_iff.2 hgroup),
      Fields.map?_eq_some_iff.2 ⟨tag, hget⟩, Option.map_some]

theorem hasExclusivePart_iff : hasExclusivePart fields = true ↔ ∃ tag parts tag' part,
    fields.get? "allOf" = some (.list tag parts) ∧ .map tag' part ∈ parts ∧
      Fields.isReference part = false ∧ AtMostOne part := by
  rw [hasExclusivePart_eq]
  constructor
  · intro h
    cases hitems : Fields.items? fields "allOf" with
    | none => simp [hitems] at h
    | some parts =>
        obtain ⟨tag, hget⟩ := Fields.items?_eq_some_iff.1 hitems
        obtain ⟨member, hmember, hexclusive⟩ := List.any_eq_true.1 (by simpa [hitems] using h)
        cases member with
        | map tag' part =>
            obtain ⟨hreference, hgroup⟩ : Fields.isReference part = false ∧
                isExclusiveGroup part = true := by
              simpa [isExclusivePart, Tree.fields?] using hexclusive
            exact ⟨tag, parts, tag', part, hget, hmember, hreference, isExclusiveGroup_iff.1 hgroup⟩
        | _ => simp [isExclusivePart, Tree.fields?] at hexclusive
  · rintro ⟨tag, parts, tag', part, hget, hmember, hreference, hgroup⟩
    rw [Fields.items?_eq_some_iff.2 ⟨tag, hget⟩, Option.getD_some]
    refine List.any_eq_true.2 ⟨_, hmember, ?_⟩
    simp [isExclusivePart, Tree.fields?, hreference, isExclusiveGroup_iff.2 hgroup]

theorem isExclusive_iff : isExclusive fields = true ↔ Exclusive fields := by
  rw [isExclusive, Bool.or_eq_true, hasExclusivePart_iff, Option.isSome_iff_exists]
  constructor
  · rintro (⟨note, hnote⟩ | ⟨tag, parts, tag', part, hget, hmember, hreference, hgroup⟩)
    · obtain ⟨hgroup, tag, properties, hget, -⟩ := exclusiveNote?_eq_some_iff.1 hnote
      exact .group hgroup hget
    · exact .part hget hmember hreference hgroup
  · rintro (⟨hgroup, hget⟩ | ⟨hget, hmember, hreference, hgroup⟩)
    · exact Or.inl ⟨_, exclusiveNote?_eq_some_iff.2 ⟨hgroup, _, _, hget, rfl⟩⟩
    · exact Or.inr ⟨_, _, _, _, hget, hmember, hreference, hgroup⟩

theorem mem_dueMarks_iff [Inhabited τ] {options : Options} {document : Tree τ} {keys : List String}
    {entry : Scalar × Tree τ} :
    entry ∈ dueMarks options.flags document.documentVisits keys ↔
    DueMark options document keys entry := by
  rw [dueMarks, List.mem_flatMap]
  constructor
  · rintro ⟨visit, hvisit, hmarks⟩
    rcases Visit.mem_marks.1 hmarks with ⟨rfl, hexclusive, hmark⟩ | ⟨hproperty, note, hnote, hmark⟩
    · rw [List.mem_singleton.1 hmark]
      exact .schema hvisit (isExclusive_iff.1 hexclusive)
    · obtain ⟨key, rfl⟩ := dropLast_eq_iff.1 hproperty
      obtain ⟨hgroup, tag, properties, hget, rfl⟩ := exclusiveNote?_eq_some_iff.1 hnote
      rcases List.mem_cons.1 hmark with rfl | hannotated
      · exact .property hvisit hgroup hget
      · obtain ⟨flag, hflag, rfl⟩ := Option.map_eq_some_iff.1 (Option.mem_toList.1 hannotated)
        exact .note hvisit hgroup hget hflag
  · intro hdue
    cases hdue with
    | @schema visit hvisit hexclusive =>
        refine ⟨visit, hvisit, Visit.mem_marks.2 (Or.inl ⟨rfl, isExclusive_iff.2 hexclusive, ?_⟩)⟩
        exact List.mem_singleton.2 rfl
    | @property visit tag properties key hvisit hgroup hget =>
        have hnote := exclusiveNote?_eq_some_iff.2 ⟨hgroup, tag, properties, hget, rfl⟩
        refine ⟨visit, hvisit,
          Visit.mem_marks.2 (Or.inr ⟨dropLast_eq_iff.2 ⟨key, rfl⟩, _, hnote, ?_⟩)⟩
        exact List.mem_cons_self
    | @note visit tag properties key flag hvisit hgroup hget hflag =>
        have hnote := exclusiveNote?_eq_some_iff.2 ⟨hgroup, tag, properties, hget, rfl⟩
        refine ⟨visit, hvisit,
          Visit.mem_marks.2 (Or.inr ⟨dropLast_eq_iff.2 ⟨key, rfl⟩, _, hnote, ?_⟩)⟩
        refine List.mem_cons_of_mem _ (Option.mem_toList.2 ?_)
        exact Option.map_eq_some_iff.2 ⟨flag, hflag, rfl⟩

end Phase

/-- On a JSON document, the third phase ends with a marked document. -/
theorem Phase.run_annotate_marked {run : Run} (h : run.options.HasFlags)
    (hmapping : run.document.fields?.isSome = true) (hjson : run.document.IsJson) :
    ∃ marked, Marked run.options.flags run.document (.one .document) .root marked ∧
      Phase.annotate.run.run run = (.ok (), Run.settle { run with document := marked }) := by
  obtain ⟨marked, hmark, hmarked⟩ := markGroups_marked h hjson
  refine ⟨marked, hmarked, ?_⟩
  rw [Phase.run_annotate (Tree.mappingFault?_eq_none_iff.2 hmapping), hmark]

/-- On a JSON document, the third phase puts in the marks that are due and changes nothing else; a
second time it changes nothing. -/
theorem annotate_adds_marks {run : Run} (hmapping : run.document.fields?.isSome = true)
    (hjson : run.document.IsJson) (hoptions : optionsRefusal? run.options = none)
    (hnames : run.options.flags.names.Nodup) :
    ∃ (due : List String → List (Scalar × Node)) (after again : Run),
      (∀ keys entry, entry ∈ due keys ↔ DueMark run.options run.document keys entry) ∧
      (∀ keys, Entries.DistinctKeys (⟨due keys⟩ : Fields Tag)) ∧
      Phase.annotate.run.run run = (.ok (), after) ∧
      after = Run.settle { run with document := run.document.overlayAt due [] } ∧
      Phase.annotate.run.run after = (.ok (), again) ∧
      (∃ document, again = Run.settle { after with document }) ∧
      again.document.erase = after.document.erase := by
  have hflags := hasFlags_of_refusal hoptions
  obtain ⟨marked, hmarked, hrun⟩ := Phase.run_annotate_marked hflags hmapping hjson
  obtain ⟨after, hafter⟩ : ∃ after, after = Run.settle { run with document := marked } := ⟨_, rfl⟩
  have hsame : after.options = run.options := by
    rw [hafter]
    rfl
  have hvalue : after.document.erase = marked.erase := by
    rw [hafter]
    exact (Node.number_numbers marked run.next).erase
  have hmapping' : after.document.fields?.isSome = true := by
    rw [isSome_fields?_congr hvalue, hmarked.laid]
    cases hdocument : run.document with
    | map tag fields => rw [overlayAt_map]; rfl
    | _ => rw [hdocument] at hmapping; cases hmapping
  obtain ⟨again, hagain, herase⟩ := markGroups_again hflags hnames hjson hmarked hvalue
  refine ⟨dueMarks run.options.flags run.document.documentVisits, after,
    Run.settle { after with document := again },
    fun keys entry => mem_dueMarks_iff, distinctKeys_dueMarks hnames hjson _ _,
    hafter ▸ hrun, ?_, ?_,
    ⟨again, rfl⟩, (Node.number_numbers again after.next).erase.trans herase⟩
  · rw [hafter, hmarked.laid]
    rfl
  · rw [Phase.run_annotate (Tree.mappingFault?_eq_none_iff.2 hmapping'), hsame, hagain]

/-- A composite with a group of properties, one of which is a reference. -/
def composedGroup : Value :=
  .ofEntries [("components", .ofEntries [("schemas", .ofEntries [
    ("Base", .ofEntries [("type", .ofText "object")]),
    ("Composed", .ofEntries [("allOf", .ofList [
      .ofEntries [("$ref", .ofText "#/components/schemas/Base")],
      .ofEntries [("maxProperties", .ofInt 1), ("properties", .ofEntries [
        ("term", .ofEntries [("type", .ofText "string")]),
        ("base", .ofEntries [("$ref", .ofText "#/components/schemas/Base")])])]])])])])]

/-- The phase ends on the composite, and a second time it changes nothing. -/
theorem annotate_adds_marks_composedGroup :
    ∃ (due : List String → List (Scalar × Node)) (after again : Run),
      (∀ keys entry, entry ∈ due keys ↔
        DueMark .standard (Run.start .standard (.ofValue composedGroup)).document keys entry) ∧
      Phase.annotate.run.run (Run.start .standard (.ofValue composedGroup)) = (.ok (), after) ∧
      Phase.annotate.run.run after = (.ok (), again) ∧
      again.document.erase = after.document.erase := by
  have hmapping : (Run.start .standard (.ofValue composedGroup)).document.fields?.isSome =
      true := by
    decide +kernel
  obtain ⟨due, after, again, hdue, -, hafter, -, hagain, -, hsame⟩ :=
    annotate_adds_marks hmapping (by decide +kernel) (by decide +kernel) (by decide +kernel)
  exact ⟨due, after, again, hdue, hafter, hagain, hsame⟩

end ProtoShape
