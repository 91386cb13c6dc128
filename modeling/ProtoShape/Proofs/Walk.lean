import ProtoShape.Proofs.Places
import ProtoShape.Proofs.Replacement

/-!
# The order of a walk

A walk comes to a schema after all schemas below it, and it comes to no location twice: of two
visits the earlier one does not stand at or above the later one (`visits_ordered`).

`documentVisits` lists what a walk comes to, and `replaceSchemas` calls a hook there.  A hook
that changes nothing is called once for each visit of the list, in this order, and the document
stays as it was (`replaceSchemas_observing`).
-/

namespace ProtoShape

variable {τ : Type}

/-- The schema does not stand at or above the other one. -/
def Visit.NotAbove (visit other : Visit τ) : Prop := ¬visit.location.keys <+: other.location.keys

theorem Visit.notAbove_of_ne {visit other : Visit τ} {keys : List String} {key key' : String}
    (hne : key ≠ key') (hvisit : keys ++ [key] <+: visit.location.keys)
    (hother : keys ++ [key'] <+: other.location.keys) : visit.NotAbove other := by
  intro habove
  have hsame := List.prefix_of_prefix_length_le (hvisit.trans habove) hother (by simp)
  have heq := hsame.eq_of_length (by simp)
  exact hne (List.append_cancel_left heq |> List.singleton_inj.1)

namespace Tree

variable {t : Tree τ} {place : Place} {site : Site} {role : Role}

/-- A walk comes to schemas at and below the place where it starts. -/
theorem location_prefix_of_mem_visits {visit : Visit τ} (h : visit ∈ t.visits place site) :
    site.location.keys <+: visit.location.keys := by
  obtain ⟨hook, stop, siteOf, hreach, -, -, -, heq⟩ := reaches_of_mem_visits h
  rw [heq]
  exact hreach.location_prefix

/-- Different items of a list have different keys in a location. -/
theorem index_unique {i j : Nat} (h : (toString i : String) = toString j) : i = j := by
  have hdigits : Nat.toDigits 10 i = Nat.toDigits 10 j := by
    rw [Nat.toString_eq_ofList_toDigits, Nat.toString_eq_ofList_toDigits] at h
    exact String.ofList_injective h
  calc
    i = Nat.ofDigitChars 10 (Nat.toDigits 10 i) 0 := Nat.ofDigitChars_ten_toDigits.symm
    _ = Nat.ofDigitChars 10 (Nat.toDigits 10 j) 0 := by rw [hdigits]
    _ = j := Nat.ofDigitChars_ten_toDigits

theorem visitsOfItems_ordered {items : List (Tree τ)}
    (h : ∀ item ∈ items, ∀ site, (item.visits (.one role) site).Pairwise Visit.NotAbove)
    (index : Nat) :
    (visitsOfItems items role site index).Pairwise Visit.NotAbove := by
  induction items generalizing index with
  | nil =>
      rw [visitsOfItems]
      exact List.Pairwise.nil
  | cons item rest ih =>
      rw [visitsOfItems, List.pairwise_append]
      refine ⟨h item List.mem_cons_self _,
        ih (fun item hitem => h item (List.mem_cons_of_mem _ hitem)) _, ?_⟩
      intro earlier hearlier later hlater
      obtain ⟨i, other, -, hlater⟩ := mem_visitsOfItems.1 hlater
      have hindex : (toString index : String) ≠ toString (index + 1 + i) := fun heq => by
        have hsame := index_unique heq
        omega
      exact Visit.notAbove_of_ne hindex (location_prefix_of_mem_visits hearlier)
        (location_prefix_of_mem_visits hlater)

/-- The entries of an object have different labels. -/
theorem pairwise_label {fields : Fields τ} (h : fields.IsObject) :
    fields.toList.Pairwise fun entry entry' => entry.1.label ≠ entry'.1.label := by
  have hdistinct : fields.toList.Pairwise fun entry entry' => entry.1.key ≠ entry'.1.key := by
    have hnodup := h.2
    rwa [Entries.DistinctKeys, Entries.keys, List.map_map, List.Nodup, List.pairwise_map] at hnodup
  refine hdistinct.imp_of_mem fun {entry entry'} hentry hentry' hne heq => hne ?_
  obtain ⟨s, hs⟩ := Entries.hasTextKeys_iff.1 h.1 entry hentry
  obtain ⟨s', hs'⟩ := Entries.hasTextKeys_iff.1 h.1 entry' hentry'
  rw [hs, hs'] at heq ⊢
  exact Entries.text_key_eq_iff.2 heq

/-- A walk comes to a schema after all schemas below it, and to no location twice. -/
theorem visits_ordered (h : t.IsJson) (place : Place) (site : Site) :
    (t.visits place site).Pairwise Visit.NotAbove := by
  induction t using Tree.induction generalizing place site with
  | scalar tag s =>
      rw [visits_scalar]
      exact List.Pairwise.nil
  | list tag items ih =>
      rw [visits]
      split
      · exact visitsOfItems_ordered
          (fun item hitem => ih item hitem ((everywhere_list tag items).1 h item hitem) _) 0
      · exact List.Pairwise.nil
  | map tag fields ih =>
      obtain ⟨hobject, hbelow⟩ := (everywhere_map tag fields).1 h
      cases hspread : place.spread with
      | elements =>
          rw [visits_map_elements hspread]
          exact List.Pairwise.nil
      | entries =>
          rw [visits_map_entries hspread, List.pairwise_flatMap]
          refine ⟨fun entry hentry => ih entry hentry (hbelow entry hentry) _ _, ?_⟩
          refine (pairwise_label hobject).imp fun hne earlier hearlier later hlater => ?_
          exact Visit.notAbove_of_ne hne (location_prefix_of_mem_visits hearlier)
            (location_prefix_of_mem_visits hlater)
      | single =>
          rw [visits_map_single hspread]
          split
          · have hslot : ∀ {slot : Slot} {visit : Visit τ},
                visit ∈ (fields.get? slot.key).toList.flatMap (fun value =>
                  value.visits slot.place ((site.inside place.role fields).below slot.key)) →
                site.location.keys ++ [slot.key] <+: visit.location.keys := by
              intro slot visit hvisit
              obtain ⟨value, -, hvisit⟩ := List.mem_flatMap.1 hvisit
              rw [← location_below site place.role fields]
              exact location_prefix_of_mem_visits hvisit
            rw [List.pairwise_append, List.pairwise_flatMap]
            refine ⟨⟨fun slot _ => ?_, ?_⟩, ?_, ?_⟩
            · cases hget : fields.get? slot.key with
              | none => exact List.Pairwise.nil
              | some value =>
                  obtain ⟨key, -, hentry⟩ := Entries.mem_of_get? hget
                  simpa using ih _ hentry (hbelow _ hentry) _ _
            · have hkeys : place.role.slots.Pairwise fun slot slot' => slot.key ≠ slot'.key :=
                List.pairwise_map.1 place.role.slots_nodup
              exact hkeys.imp fun hne earlier hearlier later hlater =>
                Visit.notAbove_of_ne hne (hslot hearlier) (hslot hlater)
            · cases Visit.of? place.role site tag fields <;> simp
            · -- the part itself comes last, and its location is shorter than those below
              intro earlier hearlier self hself habove
              obtain ⟨slot, -, hearlier⟩ := List.mem_flatMap.1 hearlier
              have hlocation : self.location = site.location := by
                cases hrole : place.role <;> simp [Visit.of?, hrole] at hself
                rw [hself]
              have hlength := ((hslot hearlier).trans habove).length_le
              rw [hlocation, List.length_append, List.length_singleton] at hlength
              omega
          · exact List.Pairwise.nil

/-- A walk comes to no location twice. -/
theorem nodup_location_visits (h : t.IsJson) (place : Place) (site : Site) :
    ((t.visits place site).map Visit.location).Nodup := by
  rw [List.Nodup, List.pairwise_map]
  refine (visits_ordered h place site).imp fun hnot heq => hnot ?_
  exact heq ▸ List.prefix_rfl

end Tree

/-! ## Hooks -/

section Hooks

variable {m : Type → Type} [Monad m]

/-- A hook that changes nothing: it does something on a visit and keeps the fields. -/
def observing (act : Visit τ → m Unit) (visit : Visit τ) (_ : Tree τ → Tree τ) : m (Fields τ) := do
  act visit
  return visit.fields

/-- The hook changes nothing on a visit, as long as the document is still the same. -/
def Observes (f : Visit τ → (Tree τ → Tree τ) → m (Fields τ)) (act : Visit τ → m Unit)
    (document : Tree τ) (visit : Visit τ) : Prop :=
  ∀ around, around (.map visit.tag visit.fields) = document →
    f visit around = observing act visit around

variable [LawfulMonad m] {f : Visit τ → (Tree τ → Tree τ) → m (Fields τ)} {act : Visit τ → m Unit}
  {document : Tree τ}

namespace Tree

/-- A hook that changes nothing at and below a tree leaves the tree as it was. -/
def Stays (f : Visit τ → (Tree τ → Tree τ) → m (Fields τ)) (act : Visit τ → m Unit)
    (document t : Tree τ) (place : Place) : Prop :=
  ∀ (site : Site) (around : Tree τ → Tree τ), around t = document →
    (∀ visit ∈ t.visits place site, Observes f act document visit) →
      t.replaceSchemas f place site around = (do forM (t.visits place site) act; return t)

theorem replaceItems_observed {items : List (Tree τ)} {role : Role}
    (h : ∀ item ∈ items, Stays f act document item (.one role)) {site : Site} {index : Nat}
    {around : List (Tree τ) → Tree τ} (haround : around items = document)
    (hvisits : ∀ visit ∈ visitsOfItems items role site index, Observes f act document visit) :
    replaceItems f items role site index around =
      (do forM (visitsOfItems items role site index) act; return items) := by
  induction items generalizing index around with
  | nil => simp [replaceItems, visitsOfItems]
  | cons item rest ih =>
      rw [visitsOfItems] at hvisits
      have hitem :=
        h item List.mem_cons_self (site.element index) (fun item => around (item :: rest)) haround
        fun visit hvisit => hvisits visit (List.mem_append_left _ hvisit)
      have hrest : replaceItems f rest role site (index + 1) (fun rest => around (item :: rest)) =
          (do forM (visitsOfItems rest role site (index + 1)) act; return rest) :=
        ih (fun item hitem => h item (List.mem_cons_of_mem _ hitem)) haround
          fun visit hvisit => hvisits visit (List.mem_append_right _ hvisit)
      rw [replaceItems, visitsOfItems, hitem, List.forM_append]
      simp only [hrest, bind_assoc, pure_bind]

theorem replaceEntries_observed {entries : List (Scalar × Tree τ)} {place : Place}
    (h : ∀ entry ∈ entries, Stays f act document entry.2 (.one place.role)) {site : Site}
    {around : List (Scalar × Tree τ) → Tree τ} (haround : around entries = document)
    (hvisits : ∀ visit ∈ entries.flatMap fun entry =>
      entry.2.visits (.one place.role) (site.entry place entry.1),
      Observes f act document visit) :
    replaceEntries f entries place site around =
      (do
        forM (entries.flatMap fun entry =>
          entry.2.visits (.one place.role) (site.entry place entry.1)) act
        return entries) := by
  induction entries generalizing around with
  | nil => simp [replaceEntries]
  | cons entry rest ih =>
      obtain ⟨key, value⟩ := entry
      rw [List.flatMap_cons] at hvisits
      have hvalue := h (key, value) List.mem_cons_self (site.entry place key)
        (fun value => around ((key, value) :: rest)) haround
        fun visit hvisit => hvisits visit (List.mem_append_left _ hvisit)
      have hrest : replaceEntries f rest place site (fun rest => around ((key, value) :: rest)) =
          (do
            forM (rest.flatMap fun entry =>
              entry.2.visits (.one place.role) (site.entry place entry.1)) act
            return rest) :=
        ih (fun entry hentry => h entry (List.mem_cons_of_mem _ hentry)) haround
          fun visit hvisit => hvisits visit (List.mem_append_right _ hvisit)
      rw [replaceEntries, List.flatMap_cons, hvalue, List.forM_append]
      simp only [hrest, bind_assoc, pure_bind]

/-- A slot whose value stays as it was leaves the fields as they were. -/
theorem replaceSlots_observed {fields : Fields τ} {inner : Site} {slots : List Slot}
    (h : ∀ slot ∈ slots, ∀ value, fields.get? slot.key = some value →
      Stays f act document value slot.place)
    (around : Fields τ → Tree τ) (haround : around fields = document)
    (hvisits :
      ∀ visit ∈ slots.flatMap fun slot => (fields.get? slot.key).toList.flatMap fun value =>
      value.visits slot.place (inner.below slot.key), Observes f act document visit) :
    slots.foldlM
        (fun (fields' : Fields τ) slot =>
          match Entries.lookup (branchReplacements f fields.toList) slot.key with
          | some branch =>
              fields'.insert slot.key <$>
                branch slot.place (inner.below slot.key)
                (fun value => around (fields'.insert slot.key value))
          | none => pure fields')
        fields =
      (do
        forM (slots.flatMap fun slot => (fields.get? slot.key).toList.flatMap fun value =>
          value.visits slot.place (inner.below slot.key)) act
        return fields) := by
  induction slots with
  | nil => simp
  | cons slot rest ih =>
      rw [List.flatMap_cons] at hvisits
      have hrest := ih (fun slot hslot => h slot (List.mem_cons_of_mem _ hslot))
        fun visit hvisit => hvisits visit (List.mem_append_right _ hvisit)
      rw [List.foldlM_cons, lookup_branchReplacements, List.flatMap_cons, List.forM_append]
      cases hget : fields.get? slot.key with
      | none =>
          simp only [Option.map_none, pure_bind, hrest]
          simp
      | some value =>
          have hvalue := h slot List.mem_cons_self value hget (inner.below slot.key)
            (fun value => around (fields.insert slot.key value))
            (by rw [Entries.insert_of_get? hget, haround])
            fun visit hvisit => hvisits visit
            (List.mem_append_left _ (by simpa [hget] using hvisit))
          simp only [Option.map_some, hvalue, map_bind, map_pure, bind_assoc, pure_bind,
            Entries.insert_of_get? hget, hrest]
          simp

/-- A hook that changes nothing while the document stays the same is called on each visit
once, in the order of the visits, and the tree stays as it was. -/
theorem replaceSchemas_observed (t : Tree τ) (place : Place) : Stays f act document t place := by
  intro site around haround hvisits
  induction t using Tree.induction generalizing place site around with
  | scalar tag s => simp [replaceSchemas]
  | list tag items ih =>
      rw [visits] at hvisits
      rw [replaceSchemas, visits]
      split
      · rename_i hspread
        rw [if_pos hspread] at hvisits
        rw [replaceItems_observed (fun item hitem site around => ih item hitem _ site around)
          haround hvisits]
        simp
      · simp
  | map tag fields ih =>
      cases hspread : place.spread with
      | elements =>
          rw [visits_map_elements hspread]
          obtain ⟨entries⟩ := fields
          rw [replaceSchemas]
          simp [hspread]
      | entries =>
          rw [visits_map_entries hspread] at hvisits ⊢
          obtain ⟨entries⟩ := fields
          rw [replaceSchemas]
          simp only [hspread]
          rw [replaceEntries_observed (fun entry hentry site around =>
            ih entry hentry _ site around) haround hvisits]
          simp
      | single =>
          rw [visits_map_single hspread] at hvisits ⊢
          have hvalue : ∀ slot ∈ place.role.slots, ∀ value, fields.get? slot.key = some value →
              Stays f act document value slot.place := by
            intro slot _ value hget site around
            obtain ⟨key, -, hentry⟩ := Entries.mem_of_get? hget
            exact ih _ hentry _ site around
          by_cases hadmits : place.role.admits fields = true
          · rw [if_pos hadmits] at hvisits
            have hslots :=
              replaceSlots_observed hvalue (fun fields => around (.map tag fields)) haround
              fun visit hvisit => hvisits visit (List.mem_append_left _ hvisit)
            have hself : ∀ visit, Visit.of? place.role site tag fields = some visit →
                f visit around = observing act visit around := by
              intro visit hvisit
              have hmem : visit ∈ (Visit.of? place.role site tag fields).toList := by simp [hvisit]
              cases hrole : place.role with
              | schema hook =>
                  rw [hrole] at hvisit
                  cases hvisit
                  exact hvisits _ (List.mem_append_right _ hmem) around haround
              | _ =>
                  rw [hrole] at hvisit
                  cases hvisit
            obtain ⟨entries⟩ := fields
            rw [replaceSchemas]
            simp only [hspread]
            rw [if_pos hadmits, if_pos hadmits]
            refine (congrArg (· >>= _) hslots).trans ?_
            cases hrole : place.role with
            | schema hook => simp [Visit.of?, hself _ (by rw [hrole]; rfl), observing]
            | _ => simp [Visit.of?]
          · obtain ⟨entries⟩ := fields
            rw [replaceSchemas]
            simp [hspread, hadmits]

/-- A hook that changes nothing is called on each visit once, in the order of the visits, and the
tree stays as it was. -/
theorem replaceSchemas_observing (act : Visit τ → m Unit) (t : Tree τ) (place : Place) (site : Site)
    (around : Tree τ → Tree τ) :
    t.replaceSchemas (observing act) place site around =
      (do forM (t.visits place site) act; return t) :=
  replaceSchemas_observed t place site around rfl fun _ _ _ _ => rfl

end Tree

end Hooks

end ProtoShape
