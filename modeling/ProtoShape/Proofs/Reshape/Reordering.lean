import ProtoShape.Proofs.Reshape.Annotation
import ProtoShape.Proofs.Reshape.Registry
import ProtoShape.Violation

/-!
# The order of the components

What a reshaping makes of a document depends on the order of its components: the first phase looks
at components that it has not come to yet, and the second phase patches them.  A check and the third
phase look at one schema at a time, and there the order makes no difference.

Two documents are `Reordered` if they are the same up to the order of the entries of one mapping,
here the schemas of the components.

* A walk comes to the same schemas at the same locations (`Reordered.visits_perm`), so that a check
  finds the same in both documents (`documentViolations_reordered`).
* The schemas call for the same marks, each location for its own in the same order
  (`Reordered.dueMarks_eq`), and above the components there are none.  Hence the third phase makes
  reordered documents from reordered documents (`markGroups_reordered`).
-/

namespace ProtoShape

open Config Rules Tree

variable {τ : Type}

/-- The same tree, up to the order of the entries of the mapping that the keys lead to. -/
inductive Reordered : List String → Tree τ → Tree τ → Prop where
  | here {tag : τ} {entries entries' : List (Scalar × Tree τ)} : entries.Perm entries' →
      Reordered [] (.map tag ⟨entries⟩) (.map tag ⟨entries'⟩)
  | inside {tag : τ} {fields : Fields τ} {key : String} {rest : List String}
      {value value' : Tree τ} :
      fields.get? key = some value → Reordered rest value value' →
      Reordered (key :: rest) (.map tag fields) (.map tag (fields.insert key value'))

namespace Reordered

variable {path : List String} {t t' : Tree τ}

/-- Another order makes a JSON document from a JSON document. -/
theorem isJson (h : Reordered path t t') (hjson : t.IsJson) : t'.IsJson := by
  induction h with
  | here hperm =>
      obtain ⟨hobject, hvalues⟩ := (everywhere_map _ _).1 hjson
      refine (everywhere_map _ _).2 ⟨?_, fun entry hentry => hvalues entry (hperm.mem_iff.2 hentry)⟩
      refine ⟨Entries.hasTextKeys_iff.2 fun entry hentry => ?_, ?_⟩
      · exact Entries.hasTextKeys_iff.1 hobject.1 entry (hperm.mem_iff.2 hentry)
      · exact ((hperm.map Prod.fst).map Scalar.key).nodup_iff.1 hobject.2
  | inside hget _ ih =>
      have hfields := everywhere_map_iff.1 hjson
      exact everywhere_map_iff.2 (hfields.insert keptByUpdates_isObject _ (ih (hfields.get? hget)))

/-- What is laid over a tree is laid over another order of it, if the mappings on the way are left
alone. -/
theorem overlayAt (h : Reordered path t t') {entriesFor : List String → List (Scalar × Tree τ)}
    {keys : List String} (hnone : ∀ front, front <+: path → entriesFor (keys ++ front) = []) :
    Reordered path (t.overlayAt entriesFor keys) (t'.overlayAt entriesFor keys) := by
  have hhere : entriesFor keys = [] := by simpa using hnone [] (List.nil_prefix)
  induction h generalizing keys with
  | here hperm =>
      rw [overlayAt_map, overlayAt_map, hhere]
      exact .here (hperm.map _)
  | @inside tag fields key rest value value' hget _ ih =>
      rw [overlayAt_map, overlayAt_map, hhere, Entries.overlay_nil, Entries.overlay_nil,
        Fields.overlayBelow_insert]
      have hvalue : (Fields.overlayBelow entriesFor fields keys).get? key =
          some (value.overlayAt entriesFor (keys ++ [key])) := by
        rw [Fields.get?_overlayBelow, hget, Option.map_some]
      refine .inside hvalue (ih (fun front hfront => ?_) ?_)
      · rw [List.append_assoc]
        exact hnone _ (List.cons_prefix_cons.2 ⟨rfl, hfront⟩)
      · exact hnone [key] (List.cons_prefix_cons.2 ⟨rfl, List.nil_prefix⟩)

end Reordered

/-! ## What a walk comes to -/

section Visits

variable {place : Place} {site : Site} {path rest : List String} {key : String} {tag : τ}
    {fields : Fields τ}
  {t t' value value' : Tree τ}

/-- From a part above the components, a walk comes to what stands below its keywords. -/
theorem visits_toSchemas (hplace : place.toSchemas? = some (key :: rest)) :
    (map tag fields).visits place site = place.role.slots.flatMap (slotVisits fields site) := by
  rw [visits_map_single (Place.toSchemas?_cons hplace).1]
  unfold Place.toSchemas? at hplace
  split at hplace
  · rename_i hrole
    simp [hrole, Role.admits, Role.skipsReferences, Site.inside, Visit.of?]
  · rename_i hrole
    simp [hrole, Role.admits, Role.skipsReferences, Site.inside, Visit.of?]
  · cases hplace
  · cases hplace

/-- What is related below the keyword that leads to the components is related below all keywords. -/
theorem slotVisits_insert (R : List (Visit τ) → List (Visit τ) → Prop)
    (hrefl : ∀ visits, R visits visits)
    (hplace : place.toSchemas? = some (key :: rest)) (hget : fields.get? key = some value)
    (hvalue : ∀ place site, place.toSchemas? = some rest →
      R (value.visits place site) (value'.visits place site)) :
    ∀ slot ∈ place.role.slots, R (slotVisits fields site slot)
      (slotVisits (fields.insert key value') site slot) := by
  obtain ⟨-, slot', hslot', rfl, hrest⟩ := Place.toSchemas?_cons hplace
  intro slot hslot
  by_cases hkey : slot.key = slot'.key
  · obtain rfl : slot = slot' := List.inj_on_of_nodup_map place.role.slots_nodup hslot hslot' hkey
    rw [slotVisits_eq hget, slotVisits_eq (Entries.get?_insert_self _ _ _)]
    exact hvalue _ _ hrest
  · have hother : (Scalar.text slot.key).key ≠ (Scalar.text slot'.key).key :=
      fun heq => hkey (Entries.text_key_eq_iff.1 heq)
    unfold slotVisits
    rw [Entries.get?_insert_of_ne _ _ hother]
    exact hrefl _

/-- A walk comes to the same schemas in another order of the components. -/
theorem Reordered.visits_perm (h : Reordered path t t') (hplace : place.toSchemas? = some path) :
    (t.visits place site).Perm (t'.visits place site) := by
  induction h generalizing place site with
  | here hperm =>
      have hspread := Place.spread_of_toSchemas? hplace
      rw [visits_map_entries hspread, visits_map_entries hspread]
      exact hperm.flatMap_right _
  | inside hget _ ih =>
      rw [visits_toSchemas hplace, visits_toSchemas hplace]
      exact List.Perm.flatMap_left _
        (slotVisits_insert List.Perm List.Perm.refl hplace hget fun _ _ hrest => ih hrest)

/-- On the way to the components stands no schema. -/
theorem not_prefix_of_mem_visits {visit : Visit τ} (hplace : place.toSchemas? = some path)
    (hvisit : visit ∈ t.visits place site) :
    ¬visit.location.keys <+: site.location.keys ++ path := by
  induction path generalizing t place site with
  | nil =>
      have hspread := Place.spread_of_toSchemas? hplace
      intro habove
      rw [List.append_nil] at habove
      have hlength := (location_prefix_of_mem_visits hvisit).length_le
      exact location_ne_of_entries hspread hvisit (habove.eq_of_length_le hlength)
  | cons key rest ih =>
      obtain ⟨hspread, slot', hslot', rfl, hrest⟩ := Place.toSchemas?_cons hplace
      cases t with
      | scalar tag s => simp at hvisit
      | list tag items =>
          obtain ⟨helements, -⟩ := mem_visits_list.1 hvisit
          cases hspread.symm.trans helements
      | map tag fields =>
          rw [visits_toSchemas hplace] at hvisit
          obtain ⟨slot, hslot, hvisit⟩ := List.mem_flatMap.1 hvisit
          obtain ⟨value, -, hvisit⟩ := List.mem_flatMap.1 hvisit
          have hlocation : (site.below slot.key).location.keys = site.location.keys ++ [slot.key] :=
            rfl
          intro habove
          have hkey : slot.key = slot'.key := by
            have hsame := (location_prefix_of_mem_visits hvisit).trans habove
            rw [hlocation, List.prefix_append_right_inj, List.cons_prefix_cons] at hsame
            exact hsame.1
          obtain rfl : slot = slot' :=
            List.inj_on_of_nodup_map place.role.slots_nodup hslot hslot' hkey
          refine ih hrest hvisit ?_
          rwa [hlocation, List.append_assoc]

end Visits

/-- A check finds the same in another order of the components. -/
theorem documentViolations_reordered {document document' : Tree τ}
    (h : Reordered sectionKeys document document') :
    (documentViolations document).Perm (documentViolations document') :=
  (h.visits_perm rfl).flatMap_right _

/-! ## Marks -/

section Marks

variable [Inhabited τ] {flags : Flags} {place : Place} {site : Site}
    {path : List String} {t t' : Tree τ}

/-- The schemas call for the same marks in another order of the components. -/
theorem Reordered.dueMarks_eq (h : Reordered path t t') (hjson : t.IsJson)
    (hplace : place.toSchemas? = some path) :
    dueMarks flags (t'.visits place site) = dueMarks flags (t.visits place site) := by
  induction h generalizing place site with
  | here hperm =>
      have hspread := Place.spread_of_toSchemas? hplace
      rw [visits_map_entries hspread, visits_map_entries hspread]
      refine dueMarks_perm (fun entry _ visit hvisit =>
        location_prefix_of_mem_visits hvisit) ?_ hperm
      exact pairwise_label ((everywhere_map _ _).1 hjson).1
  | inside hget _ ih =>
      rw [visits_toSchemas hplace, visits_toSchemas hplace]
      have hvalue := (everywhere_map_iff.1 hjson).get? hget
      exact dueMarks_flatMap_congr (slotVisits_insert (fun visits visits' =>
        dueMarks flags visits' = dueMarks flags visits) (fun _ => rfl) hplace hget fun _ _ hrest =>
          ih hvalue hrest)

/-- The third phase makes reordered documents from reordered documents. -/
theorem markGroups_reordered {options : Options} (hflags : options.HasFlags)
    {document document' : Tree τ}
    (hjson : document.IsJson) (h : Reordered sectionKeys document document') :
    ∃ marked marked', markGroups options document = .ok marked ∧
    markGroups options document' = .ok marked' ∧
      Reordered sectionKeys marked marked' := by
  have hroot : (Place.one .document).toSchemas? = some sectionKeys := rfl
  obtain ⟨marked, hmark, hmarked⟩ := markGroups_marked hflags hjson
  obtain ⟨marked', hmark', hmarked'⟩ := markGroups_marked hflags (h.isJson hjson)
  refine ⟨marked, marked', hmark, hmark', ?_⟩
  rw [hmarked.laid, hmarked'.laid, h.dueMarks_eq hjson hroot]
  refine h.overlayAt fun front hfront => dueMarks_eq_nil fun visit hvisit habove => ?_
  exact not_prefix_of_mem_visits hroot hvisit (habove.trans hfront)

end Marks

end ProtoShape
