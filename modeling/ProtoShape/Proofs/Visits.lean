import ProtoShape.Proofs.Tree
import ProtoShape.Visit

/-!
# What a walk comes to

`Reaches` is the walk as a relation: from a tree at a place it comes to the items,
entries and keyword values that the place leads on to.  `mem_visits_iff` says that
the schemas that a walk lists are those that it reaches as inline schemas.

`AllSchemas` says that a property holds of the fields of every schema that a walk
from a place would list.  It does not depend on the site, and one lemma for each
kind of place takes it apart.
-/

namespace ProtoShape

/-- No part has two slots of one key. -/
theorem Role.slots_nodup (role : Role) : (role.slots.map Slot.key).Nodup := by
  cases role with
  | schema hook => cases hook <;> decide
  | _ => decide

/-- No part has a slot for the values of an `enum`. -/
theorem Role.slot_key_ne_enum (role : Role) {slot : Slot} (hslot : slot ∈ role.slots) :
    slot.key ≠ "enum" := by
  have hall : ∀ slot ∈ role.slots, slot.key ≠ "enum" := by
    cases role with
    | schema hook => cases hook <;> decide
    | _ => decide
  exact hall slot hslot

namespace Tree

variable {τ : Type}

/-! ## The list of visits -/

theorem branchVisits_eq (entries : List (Scalar × Tree τ)) :
    branchVisits entries = entries.map fun entry => (entry.1, entry.2.visits) := by
  induction entries with
  | nil => rfl
  | cons entry rest ih =>
      obtain ⟨k, v⟩ := entry
      simp [branchVisits, ih]

theorem lookup_branchVisits (fields : Fields τ) (key : Scalar) :
    Entries.lookup (branchVisits fields.toList) key = (fields.get? key).map visits := by
  have h := Entries.get?_mapValues visits fields key
  simpa [Entries.get?, Entries.mapValues, branchVisits_eq] using h

@[simp] theorem visits_scalar (tag : τ) (s : Scalar) (place : Place) (site : Site) :
    (scalar tag s).visits place site = [] := by
  simp [visits]

theorem mem_visitsOfItems {items : List (Tree τ)} {role : Role} {site : Site} {index : Nat}
    {visit : Visit τ} :
    visit ∈ visitsOfItems items role site index ↔
      ∃ (i : Nat) (item : Tree τ), items[i]? = some item ∧
        visit ∈ item.visits (.one role) (site.element (index + i)) := by
  induction items generalizing index with
  | nil => simp [visitsOfItems]
  | cons item rest ih =>
      rw [visitsOfItems, List.mem_append, ih]
      constructor
      · rintro (h | ⟨i, found, hfound, h⟩)
        · exact ⟨0, item, rfl, h⟩
        · exact ⟨i + 1, found, hfound, by rwa [Nat.add_right_comm] at h⟩
      · rintro ⟨i, found, hfound, h⟩
        cases i with
        | zero =>
          obtain rfl : item = found := by simpa using hfound
          exact Or.inl h
        | succ i =>
          exact Or.inr ⟨i, found, by simpa using hfound, by rwa [Nat.add_right_comm]⟩

theorem mem_visits_list {tag : τ} {items : List (Tree τ)} {place : Place} {site : Site}
    {visit : Visit τ} :
    visit ∈ (list tag items).visits place site ↔
      place.spread = .elements ∧ ∃ (i : Nat) (item : Tree τ), items[i]? = some item ∧
        visit ∈ item.visits (.one place.role) (site.element i) := by
  rw [visits]
  split
  · rename_i h
    simp [mem_visitsOfItems, h]
  · rename_i h
    simp [h]

theorem visits_map_elements {tag : τ} {fields : Fields τ} {place : Place} {site : Site}
    (h : place.spread = .elements) : (map tag fields).visits place site = [] := by
  obtain ⟨entries⟩ := fields
  rw [visits]
  simp [h]

theorem visits_map_entries {tag : τ} {fields : Fields τ} {place : Place} {site : Site}
    (h : place.spread = .entries) :
    (map tag fields).visits place site =
      fields.toList.flatMap fun entry =>
        entry.2.visits (.one place.role) (site.entry place entry.1) := by
  obtain ⟨entries⟩ := fields
  rw [visits]
  simp [h, branchVisits_eq, List.flatMap_map]

/-- The schemas at and below a part: first those below the values of its slots. -/
theorem visits_map_single {tag : τ} {fields : Fields τ} {place : Place} {site : Site}
    (h : place.spread = .single) :
    (map tag fields).visits place site =
      if place.role.admits fields then
        (place.role.slots.flatMap fun slot => (fields.get? slot.key).toList.flatMap fun value =>
          value.visits slot.place ((site.inside place.role fields).below slot.key)) ++
            (Visit.of? place.role site tag fields).toList
      else [] := by
  have hbranch : ∀ key : String, Entries.lookup (branchVisits fields.toList) key =
      (fields.get? key).map visits := fun key => lookup_branchVisits fields key
  obtain ⟨entries⟩ := fields
  rw [visits]
  simp only [h]
  split
  · congr 1
    refine List.flatMap_congr fun slot _ => ?_
    rw [hbranch]
    cases Entries.get? ⟨entries⟩ slot.key <;> simp
  · rfl

theorem mem_visits_map_entries {tag : τ} {fields : Fields τ} {place : Place} {site : Site}
    {visit : Visit τ} (h : place.spread = .entries) :
    visit ∈ (map tag fields).visits place site ↔
      ∃ entry ∈ fields.toList, visit ∈
        entry.2.visits (.one place.role) (site.entry place entry.1) := by
  rw [visits_map_entries h, List.mem_flatMap]

theorem mem_visits_map_single {tag : τ} {fields : Fields τ} {place : Place} {site : Site}
    {visit : Visit τ} (h : place.spread = .single) :
    visit ∈ (map tag fields).visits place site ↔
      place.role.admits fields = true ∧
        ((∃ slot ∈ place.role.slots, ∃ value, fields.get? slot.key = some value ∧
            visit ∈ value.visits slot.place ((site.inside place.role fields).below slot.key)) ∨
          Visit.of? place.role site tag fields = some visit) := by
  rw [visits_map_single h]
  split
  · rename_i hadmits
    simp [hadmits]
  · rename_i hadmits
    simp [hadmits]

/-! ## The walk as a relation -/

/-- A walk from a tree at a place comes to another tree at another place. -/
inductive Reaches (start : Tree τ) (place₀ : Place) (site₀ : Site) : Tree τ → Place →
    Site → Prop where
  | here : Reaches start place₀ site₀ start place₀ site₀
  | item {tag items place site i item} : Reaches start place₀ site₀ (list tag items) place site →
      place.spread = .elements → items[i]? = some item →
      Reaches start place₀ site₀ item (.one place.role) (site.element i)
  | entry {tag fields place site key value} :
      Reaches start place₀ site₀ (map tag fields) place site →
      place.spread = .entries → (key, value) ∈ fields.toList →
      Reaches start place₀ site₀ value (.one place.role) (site.entry place key)
  | slot {tag fields place site slot value} :
      Reaches start place₀ site₀ (map tag fields) place site →
      place.spread = .single → place.role.admits fields = true → slot ∈ place.role.slots →
      fields.get? slot.key = some value →
      Reaches start place₀ site₀ value slot.place ((site.inside place.role fields).below slot.key)

variable {s t u : Tree τ} {place place' place'' : Place} {site site' site'' : Site}

theorem Reaches.trans (h : Reaches s place site t place' site')
    (h' : Reaches t place' site' u place'' site'') : Reaches s place site u place'' site'' := by
  induction h' with
  | here => exact h
  | item _ hspread hitem ih => exact ih.item hspread hitem
  | entry _ hspread hentry ih => exact ih.entry hspread hentry
  | slot _ hspread hadmits hslot hget ih => exact ih.slot hspread hadmits hslot hget

/-- What a walk comes to is a part of the tree that it starts from. -/
theorem Reaches.mem_subtrees (h : Reaches s place site t place' site') : t ∈ s.subtrees := by
  induction h with
  | here => exact self_mem_subtrees s
  | item _ _ hitem ih =>
      refine mem_subtrees_trans ?_ ih
      rw [subtrees_list]
      exact List.mem_cons_of_mem _
        (List.mem_flatMap.2 ⟨_, List.mem_of_getElem? hitem, self_mem_subtrees _⟩)
  | entry _ _ hentry ih =>
      refine mem_subtrees_trans ?_ ih
      rw [subtrees_map]
      exact List.mem_cons_of_mem _ (List.mem_flatMap.2 ⟨_, hentry, self_mem_subtrees _⟩)
  | slot _ _ _ _ hget ih =>
      obtain ⟨key, -, hmem⟩ := Entries.mem_of_get? hget
      refine mem_subtrees_trans ?_ ih
      rw [subtrees_map]
      exact List.mem_cons_of_mem _ (List.mem_flatMap.2 ⟨_, hmem, self_mem_subtrees _⟩)

/-- Where a walk goes does not depend on the site from which it starts. -/
theorem Reaches.fromSite (h : Reaches s place site t place' site') (start : Site) :
    ∃ stop, Reaches s place start t place' stop := by
  induction h with
  | here => exact ⟨start, .here⟩
  | item _ hspread hitem ih =>
      obtain ⟨stop, hstop⟩ := ih
      exact ⟨_, hstop.item hspread hitem⟩
  | entry _ hspread hentry ih =>
      obtain ⟨stop, hstop⟩ := ih
      exact ⟨_, hstop.entry hspread hentry⟩
  | slot _ hspread hadmits hslot hget ih =>
      obtain ⟨stop, hstop⟩ := ih
      exact ⟨_, hstop.slot hspread hadmits hslot hget⟩

theorem Reaches.visits_subset (h : Reaches s place site t place' site') {visit : Visit τ}
    (hvisit : visit ∈ t.visits place' site') : visit ∈ s.visits place site := by
  induction h with
  | here => exact hvisit
  | item _ hspread hitem ih => exact ih (mem_visits_list.2 ⟨hspread, _, _, hitem, hvisit⟩)
  | entry _ hspread hentry ih =>
      exact ih ((mem_visits_map_entries hspread).2 ⟨_, hentry, hvisit⟩)
  | slot _ hspread hadmits hslot hget ih =>
      exact ih ((mem_visits_map_single hspread).2 ⟨hadmits, Or.inl ⟨_, hslot, _, hget, hvisit⟩⟩)

/-- The visit of an inline schema. -/
def visitAt (hook : Hook) (site : Site) (tag : τ) (fields : Fields τ) : Visit τ :=
  ⟨hook, site.name, site.location, tag, fields⟩

theorem reaches_of_mem_visits {visit : Visit τ} (h : visit ∈ t.visits place site) :
    ∃ hook stop siteOf, Reaches t place site (map visit.tag visit.fields) stop siteOf ∧
      stop.spread = .single ∧ stop.role = .schema hook ∧
      (Role.schema hook).admits visit.fields = true ∧
      visit = visitAt hook siteOf visit.tag visit.fields := by
  induction t using Tree.induction generalizing place site with
  | scalar tag v => simp at h
  | list tag items ih =>
      obtain ⟨hspread, i, item, hitem, hmem⟩ := mem_visits_list.1 h
      obtain ⟨hook, stop, siteOf, hreach, hrest⟩ := ih item (List.mem_of_getElem? hitem) hmem
      exact ⟨hook, stop, siteOf, (Reaches.here.item hspread hitem).trans hreach, hrest⟩
  | map tag fields ih =>
      cases hspread : place.spread with
      | elements => simp [visits_map_elements hspread] at h
      | entries =>
          obtain ⟨entry, hentry, hmem⟩ := (mem_visits_map_entries hspread).1 h
          obtain ⟨hook, stop, siteOf, hreach, hrest⟩ := ih entry hentry hmem
          exact ⟨hook, stop, siteOf, (Reaches.here.entry hspread hentry).trans hreach, hrest⟩
      | single =>
          obtain ⟨hadmits, ⟨slot, hslot, value, hget, hmem⟩ | hself⟩ :=
            (mem_visits_map_single hspread).1 h
          · obtain ⟨key, -, hentry⟩ := Entries.mem_of_get? hget
            obtain ⟨hook, stop, siteOf, hreach, hrest⟩ := ih _ hentry hmem
            exact ⟨hook, stop, siteOf, (Reaches.here.slot hspread hadmits hslot hget).trans hreach,
              hrest⟩
          · cases hrole : place.role with
            | schema hook =>
                obtain rfl : visitAt hook site tag fields = visit := by
                  simpa [Visit.of?, visitAt, hrole] using hself
                exact ⟨hook, place, site, .here, hspread, hrole, by rwa [hrole] at hadmits, rfl⟩
            | _ => simp [Visit.of?, hrole] at hself

/-- A walk lists the schemas that it reaches inline. -/
theorem mem_visits_iff {visit : Visit τ} :
    visit ∈ t.visits place site ↔
      ∃ hook stop siteOf, Reaches t place site (map visit.tag visit.fields) stop siteOf ∧
        stop.spread = .single ∧ stop.role = .schema hook ∧
        (Role.schema hook).admits visit.fields = true ∧
        visit = visitAt hook siteOf visit.tag visit.fields := by
  refine ⟨reaches_of_mem_visits, ?_⟩
  rintro ⟨hook, stop, siteOf, hreach, hspread, hrole, hadmits, heq⟩
  refine hreach.visits_subset ((mem_visits_map_single hspread).2 ⟨by rwa [hrole], Or.inr ?_⟩)
  rw [hrole, Visit.of?]
  exact congrArg some heq.symm

/-! ## Properties of all schemas -/

/-- A property holds of the fields of every schema that a walk lists which takes
the tree as `place` says. -/
def AllSchemas (p : Fields τ → Prop) (place : Place) (t : Tree τ) : Prop :=
  ∀ site, ∀ visit ∈ t.visits place site, p visit.fields

variable {p q : Fields τ → Prop} {tag : τ} {fields : Fields τ}

theorem AllSchemas.mono (h : t.AllSchemas p place) (hpq : ∀ fields, p fields → q fields) :
    t.AllSchemas q place :=
  fun site visit hvisit => hpq _ (h site visit hvisit)

/-- The property holds below every node that the walk comes to. -/
theorem AllSchemas.reached (h : s.AllSchemas p place)
    (hreach : Reaches s place site t place' site') :
    t.AllSchemas p place' := by
  intro start visit hvisit
  obtain ⟨hook, stop, siteOf, hbelow, hspread, hrole, hadmits, -⟩ := reaches_of_mem_visits hvisit
  obtain ⟨siteOf', hbelow'⟩ := hbelow.fromSite site'
  exact h site (visitAt hook siteOf' visit.tag visit.fields)
    (mem_visits_iff.2 ⟨hook, stop, siteOf', hreach.trans hbelow', hspread, hrole, hadmits, rfl⟩)

@[simp] theorem allSchemas_scalar (value : Scalar) : (scalar tag value).AllSchemas p place := by
  simp [AllSchemas]

theorem allSchemas_list {items : List (Tree τ)} :
    (list tag items).AllSchemas p place ↔
      (place.spread = .elements → ∀ item ∈ items, item.AllSchemas p (.one place.role)) := by
  constructor
  · intro h hspread item hitem
    obtain ⟨i, hi⟩ := List.mem_iff_getElem?.1 hitem
    have hhere : Reaches (list tag items) place .root (list tag items) place .root := .here
    exact h.reached (hhere.item hspread hi)
  · intro h site visit hvisit
    obtain ⟨hspread, i, item, hitem, hmem⟩ := mem_visits_list.1 hvisit
    exact h hspread item (List.mem_of_getElem? hitem) _ visit hmem

theorem allSchemas_map_elements (h : place.spread = .elements) :
    (map tag fields).AllSchemas p place := by
  intro site visit hvisit
  rw [visits_map_elements h] at hvisit
  simp at hvisit

theorem allSchemas_map_entries (h : place.spread = .entries) :
    (map tag fields).AllSchemas p place ↔
      ∀ entry ∈ fields.toList, entry.2.AllSchemas p (.one place.role) := by
  constructor
  · intro hall entry hentry
    have hhere : Reaches (map tag fields) place .root (map tag fields) place .root := .here
    exact hall.reached (hhere.entry h hentry)
  · intro hall site visit hvisit
    obtain ⟨entry, hentry, hmem⟩ := (mem_visits_map_entries h).1 hvisit
    exact hall entry hentry _ visit hmem

/-- The schemas at and below a part are the part itself, if it is a schema, and
those below the values of its slots. -/
theorem allSchemas_map_single (h : place.spread = .single) :
    (map tag fields).AllSchemas p place ↔
      (place.role.admits fields = true →
        (∀ slot ∈ place.role.slots, ∀ value, fields.get? slot.key = some value →
          value.AllSchemas p slot.place) ∧
        (∀ hook, place.role = .schema hook → p fields)) := by
  constructor
  · intro hall hadmits
    have hhere : Reaches (map tag fields) place .root (map tag fields) place .root := .here
    refine ⟨fun slot hslot value hget => ?_, fun hook hrole => ?_⟩
    · exact hall.reached (hhere.slot h hadmits hslot hget)
    · refine hall .root (visitAt hook .root tag fields) ((mem_visits_map_single h).2 ⟨hadmits, ?_⟩)
      exact Or.inr (by simp [hrole, Visit.of?, visitAt])
  · intro hall site visit hvisit
    obtain ⟨hadmits, ⟨slot, hslot, value, hget, hmem⟩ | hself⟩ :=
      (mem_visits_map_single h).1 hvisit
    · exact (hall hadmits).1 slot hslot value hget _ visit hmem
    · cases hrole : place.role with
      | schema hook =>
          obtain rfl : visitAt hook site tag fields = visit := by
            simpa [Visit.of?, visitAt, hrole] using hself
          exact (hall hadmits).2 hook hrole
      | _ => simp [Visit.of?, hrole] at hself

end Tree

end ProtoShape
