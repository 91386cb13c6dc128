import ProtoShape.Proofs.Visits

/-!
# What a replacement of all schemas keeps

`replaceSchemas` runs in any monad.  An `Outcome` says what it means that the
results of a computation have a property, by its rules for a value and for one
computation after another.

`Replaces` collects what has to be shown about one place, and `Replaces.holds` is the
induction: what holds of the items, entries and slots of a tree with their
replacements, and is kept by the replacement of the fields of a schema, holds of
the whole tree with its replacement.

The relations `ItemsReplaced`, `EntriesReplaced` and `SlotsReplaced` spell out how
the parts of a tree are replaced one after the other.  Each part comes with the
document around it as it stands when its turn comes.
-/

namespace ProtoShape

/-- What it means that the results of a computation have a property. -/
structure Outcome (m : Type → Type) [Monad m] where
  holds : {α : Type} → m α → (α → Prop) → Prop
  mono : ∀ {α : Type} {x : m α} {p q : α → Prop}, holds x p → (∀ a, p a → q a) → holds x q
  pure : ∀ {α : Type} {a : α} {p : α → Prop}, p a → holds (Pure.pure a) p
  bind : ∀ {α β : Type} {x : m α} {f : α → m β} {p : α → Prop} {q : β → Prop},
    holds x p → (∀ a, p a → holds (f a) q) → holds (x >>= f) q
  map : ∀ {α β : Type} {x : m α} {g : α → β} {p : α → Prop} {q : β → Prop},
    holds x p → (∀ a, p a → q (g a)) → holds (g <$> x) q

/-- Computations one after the other, where nothing is asked of their results. -/
theorem Outcome.forM {m : Type → Type} [Monad m] (L : Outcome m) {α : Type} {l : List α}
    {f : α → m Unit}
    (h : ∀ a ∈ l, L.holds (f a) fun _ => True) : L.holds (l.forM f) fun _ => True := by
  induction l with
  | nil => exact L.pure trivial
  | cons a rest ih =>
      exact L.bind (h a List.mem_cons_self) fun _ _ => ih fun a ha =>
        h a (List.mem_cons_of_mem _ ha)

namespace Tree

variable {τ : Type}

/-- A relation between a tree where it stands, with the document around it, and
what replaces the tree. -/
abbrev Replacement (τ : Type) := Tree τ → Place → Site → (Tree τ → Tree τ) → Tree τ → Prop

/-- The items of a list are replaced one after the other. -/
inductive ItemsReplaced (M : Replacement τ) (role : Role) (site : Site) :
    List (Tree τ) → Nat → (List (Tree τ) → Tree τ) → List (Tree τ) → Prop where
  | nil {index around} : ItemsReplaced M role site [] index around []
  | cons {item rest index around item' rest'} :
      M item (.one role) (site.element index) (fun item => around (item :: rest)) item' →
      ItemsReplaced M role site rest (index + 1) (fun rest => around (item' :: rest)) rest' →
      ItemsReplaced M role site (item :: rest) index around (item' :: rest')

/-- The values of a mapping are replaced one after the other. -/
inductive EntriesReplaced (M : Replacement τ) (place : Place) (site : Site) :
    List (Scalar × Tree τ) → (List (Scalar × Tree τ) → Tree τ) → List (Scalar × Tree τ) → Prop where
  | nil {around} : EntriesReplaced M place site [] around []
  | cons {key value rest around value' rest'} :
      M value (.one place.role) (site.entry place key) (fun value => around ((key, value) :: rest))
        value' →
      EntriesReplaced M place site rest (fun rest => around ((key, value') :: rest)) rest' →
      EntriesReplaced M place site ((key, value) :: rest) around ((key, value') :: rest')

/-- The values of slots are replaced one after the other.  The relation is between the
slots to come with the fields at that time, and the fields at the end. -/
inductive SlotsReplaced (M : Replacement τ) (inner : Site) (around : Fields τ → Tree τ)
    (old : Fields τ) : List Slot → Fields τ → Fields τ → Prop where
  | nil {fields} : SlotsReplaced M inner around old [] fields fields
  | absent {slot rest fields result} : old.get? slot.key = none →
      SlotsReplaced M inner around old rest fields result →
      SlotsReplaced M inner around old (slot :: rest) fields result
  | present {slot rest fields result value value'} : old.get? slot.key = some value →
      M value slot.place (inner.below slot.key)
        (fun value => around (fields.insert slot.key value)) value' →
      SlotsReplaced M inner around old rest (fields.insert slot.key value') result →
      SlotsReplaced M inner around old (slot :: rest) fields result

variable {m : Type → Type} [Monad m]

theorem branchReplacements_eq (f : Visit τ → (Tree τ → Tree τ) → m (Fields τ))
    (entries : List (Scalar × Tree τ)) :
    branchReplacements f entries = entries.map fun entry =>
      (entry.1, replaceSchemas f entry.2) := by
  induction entries with
  | nil => rfl
  | cons entry rest ih =>
      obtain ⟨k, v⟩ := entry
      simp [branchReplacements, ih]

theorem lookup_branchReplacements (f : Visit τ → (Tree τ → Tree τ) → m (Fields τ))
    (fields : Fields τ) (key : Scalar) :
    Entries.lookup (branchReplacements f fields.toList) key =
      (fields.get? key).map (replaceSchemas f) := by
  have h := Entries.get?_mapValues (replaceSchemas f) fields key
  simpa [Entries.get?, Entries.mapValues, branchReplacements_eq] using h

/-- What has to be shown about a replacement of schemas.  `Pre` is what is known of a
part before it is replaced, and `M` what is to hold of it and its replacement. -/
structure Replaces (L : Outcome m) (f : Visit τ → (Tree τ → Tree τ) → m (Fields τ))
    (Pre : Tree τ → Place → Site → Prop) (M : Replacement τ) : Prop where
  below : ∀ {t place site t' place' site'}, Pre t place site →
    Reaches t place site t' place' site' → Pre t' place' site'
  keep : ∀ {t place site around}, Pre t place site → t.AllSchemas (fun _ => False) place →
    M t place site around t
  list : ∀ {tag items place site around items'}, Pre (.list tag items) place site →
    place.spread = .elements →
    ItemsReplaced M place.role site items 0 (fun items => around (.list tag items)) items' →
    M (.list tag items) place site around (.list tag items')
  entries : ∀ {tag fields place site around entries'}, Pre (.map tag fields) place site →
    place.spread = .entries →
    EntriesReplaced M place site fields.toList
    (fun entries => around (.map tag ⟨entries⟩)) entries' →
    M (.map tag fields) place site around (.map tag ⟨entries'⟩)
  part : ∀ {tag fields place site around fields'}, Pre (.map tag fields) place site →
    place.spread = .single → place.role.admits fields = true →
    (∀ hook, place.role ≠ .schema hook) →
    SlotsReplaced M (site.inside place.role fields) (fun fields => around (.map tag fields)) fields
      place.role.slots fields fields' →
    M (.map tag fields) place site around (.map tag fields')
  schema : ∀ {tag fields place site around fields' hook}, Pre (.map tag fields) place site →
    place.spread = .single → place.role = .schema hook → place.role.admits fields = true →
    SlotsReplaced M (site.inside place.role fields) (fun fields => around (.map tag fields)) fields
      place.role.slots fields fields' →
    L.holds (f (visitAt hook site tag fields') around)
      fun result => M (.map tag fields) place site around (.map tag result)

variable {L : Outcome m} {f : Visit τ → (Tree τ → Tree τ) → m (Fields τ)}
  {Pre : Tree τ → Place → Site → Prop} {M : Replacement τ}

theorem replaceItems_holds {items : List (Tree τ)} {role : Role} {site : Site} {index : Nat}
    {around : List (Tree τ) → Tree τ}
    (h : ∀ (i : Nat) (item : Tree τ) (around : Tree τ → Tree τ), items[i]? = some item →
      L.holds (replaceSchemas f item (.one role) (site.element (index + i)) around)
        (M item (.one role) (site.element (index + i)) around)) :
    L.holds (replaceItems f items role site index around)
      (ItemsReplaced M role site items index around) := by
  induction items generalizing index around with
  | nil =>
      rw [replaceItems]
      exact L.pure .nil
  | cons item rest ih =>
      rw [replaceItems]
      refine L.bind (h 0 item _ rfl) fun item' hitem => ?_
      refine L.bind (ih fun i found around hfound => ?_) fun rest' hrest =>
        L.pure (.cons hitem hrest)
      have hnext := h (i + 1) found around (by simpa using hfound)
      rwa [← Nat.add_assoc, Nat.add_right_comm] at hnext

theorem replaceEntries_holds {entries : List (Scalar × Tree τ)} {place : Place} {site : Site}
    {around : List (Scalar × Tree τ) → Tree τ}
    (h : ∀ key value around, (key, value) ∈ entries →
      L.holds (replaceSchemas f value (.one place.role) (site.entry place key) around)
        (M value (.one place.role) (site.entry place key) around)) :
    L.holds (replaceEntries f entries place site around)
      (EntriesReplaced M place site entries around) := by
  induction entries generalizing around with
  | nil =>
      rw [replaceEntries]
      exact L.pure .nil
  | cons entry rest ih =>
      obtain ⟨key, value⟩ := entry
      rw [replaceEntries]
      refine L.bind (h key value _ (by simp)) fun value' hvalue => ?_
      refine L.bind (ih fun key value around hmem => ?_) fun rest' hrest =>
        L.pure (.cons hvalue hrest)
      exact h key value around (List.mem_cons_of_mem _ hmem)

/-- The fold over the slots of a part replaces their values one after the other. -/
theorem replaceSlots_holds (old : Fields τ) (inner : Site) (around : Fields τ → Tree τ)
    (slots : List Slot) (fields : Fields τ)
    (h : ∀ slot ∈ slots, ∀ value around, old.get? slot.key = some value →
      L.holds (replaceSchemas f value slot.place (inner.below slot.key) around)
        (M value slot.place (inner.below slot.key) around)) :
    L.holds
      (slots.foldlM
        (fun (fields : Fields τ) slot =>
          match Entries.lookup (branchReplacements f old.toList) slot.key with
          | some branch =>
              fields.insert slot.key <$>
                branch slot.place (inner.below slot.key)
                  (fun value => around (fields.insert slot.key value))
          | none => pure fields)
        fields)
      (SlotsReplaced M inner around old slots fields) := by
  induction slots generalizing fields with
  | nil => exact L.pure .nil
  | cons slot rest ih =>
      have hrest := fun fields => ih fields
        fun slot hslot => h slot (List.mem_cons_of_mem _ hslot)
      rw [List.foldlM_cons, lookup_branchReplacements]
      cases hget : old.get? slot.key with
      | none =>
          refine L.bind (p := fun result => result = fields) (L.pure rfl) ?_
          rintro result rfl
          exact L.mono (hrest result) fun _ hslots => .absent hget hslots
      | some value =>
          have hbranch := h slot (by simp) value
            (fun value => around (fields.insert slot.key value)) hget
          refine L.bind (L.map hbranch fun value' hvalue => ⟨value', hvalue, rfl⟩ :
            L.holds _ fun result => ∃ value', M value slot.place (inner.below slot.key)
              (fun value => around (fields.insert slot.key value)) value' ∧
                result = fields.insert slot.key value') ?_
          rintro _ ⟨value', hvalue, rfl⟩
          exact L.mono (hrest (fields.insert slot.key value')) fun _ hslots =>
            .present hget hvalue hslots

theorem Replaces.holds (h : Replaces L f Pre M) (t : Tree τ) (place : Place) (site : Site)
    (around : Tree τ → Tree τ) (hpre : Pre t place site) :
    L.holds (t.replaceSchemas f place site around) (M t place site around) := by
  induction t using Tree.induction generalizing place site around with
  | scalar tag s =>
      rw [replaceSchemas]
      exact L.pure (h.keep hpre (allSchemas_scalar s))
  | list tag items ih =>
      rw [replaceSchemas]
      split
      · rename_i hspread
        refine L.map (replaceItems_holds fun i item around hitem => ?_) fun items' hitems =>
          h.list hpre hspread hitems
        rw [Nat.zero_add]
        exact ih item (List.mem_of_getElem? hitem) _ _ _
          (h.below hpre (Reaches.here.item hspread hitem))
      · rename_i hspread
        exact L.pure (h.keep hpre (allSchemas_list.2 fun hs => absurd hs hspread))
  | map tag fields ih =>
      obtain ⟨entries⟩ := fields
      rw [replaceSchemas]
      cases hspread : place.spread with
      | elements =>
          simp only
          exact L.pure (h.keep hpre (allSchemas_map_elements hspread))
      | entries =>
          simp only
          refine L.map (replaceEntries_holds fun key value around hmem => ?_)
            fun entries' hentries =>
            h.entries hpre hspread hentries
          exact ih _ hmem _ _ _ (h.below hpre (Reaches.here.entry hspread hmem))
      | single =>
          simp only
          split
          · rename_i hadmits
            have hslots := @replaceSlots_holds τ m _ L f M ⟨entries⟩
              (site.inside place.role (⟨entries⟩ : Fields τ))
              (fun fields => around (.map tag fields))
              place.role.slots ⟨entries⟩ ?_
            · refine L.bind hslots fun fields' hfields' => ?_
              cases hrole : place.role with
              | schema hook =>
                  exact L.map (h.schema hpre hspread hrole hadmits hfields')
                    fun _ hresult => hresult
              | _ =>
                  refine L.pure (h.part hpre hspread hadmits (fun hook => ?_) hfields')
                  rw [hrole]
                  exact Role.noConfusion
            · intro slot hslot value around hget
              obtain ⟨key, -, hmem⟩ := Entries.mem_of_get? hget
              exact ih _ hmem _ _ _ (h.below hpre (Reaches.here.slot hspread hadmits hslot hget))
          · rename_i hadmits
            refine L.pure (h.keep hpre ((allSchemas_map_single hspread).2 fun hyes => ?_))
            exact absurd hyes hadmits

/-! ## Parts and their replacements -/

variable {old fields result : Fields τ} {inner site : Site} {around : Fields τ → Tree τ}

/-- Every new item replaces an old one. -/
theorem ItemsReplaced.exists_of_mem {role : Role} {items items' : List (Tree τ)} {index : Nat}
    {around : List (Tree τ) → Tree τ} (h : ItemsReplaced M role site items index around items')
    {item' : Tree τ} (hmem : item' ∈ items') :
    ∃ item ∈ items, ∃ site around, M item (.one role) site around item' := by
  induction h with
  | nil => simp at hmem
  | cons hitem _ ih =>
      rcases List.mem_cons.1 hmem with rfl | hrest
      · exact ⟨_, List.mem_cons_self, _, _, hitem⟩
      · obtain ⟨item, hin, hM⟩ := ih hrest
        exact ⟨item, List.mem_cons_of_mem _ hin, hM⟩

/-- Replaced entries keep their keys. -/
theorem EntriesReplaced.map_fst {place : Place} {entries entries' : List (Scalar × Tree τ)}
    {around : List (Scalar × Tree τ) → Tree τ}
    (h : EntriesReplaced M place site entries around entries') :
    entries.map (·.1) = entries'.map (·.1) := by
  induction h with
  | nil => rfl
  | cons _ _ ih => rw [List.map_cons, List.map_cons, ih]

/-- Every new entry replaces an old one under the same key. -/
theorem EntriesReplaced.exists_of_mem {place : Place} {entries entries' : List (Scalar × Tree τ)}
    {around : List (Scalar × Tree τ) → Tree τ}
    (h : EntriesReplaced M place site entries around entries') {key : Scalar} {value' : Tree τ}
    (hmem : (key, value') ∈ entries') :
    ∃ value, (key, value) ∈ entries ∧
    ∃ around, M value (.one place.role) (site.entry place key) around
      value' := by
  induction h with
  | nil => simp at hmem
  | cons hvalue _ ih =>
      rcases List.mem_cons.1 hmem with heq | hrest
      · obtain ⟨rfl, rfl⟩ := Prod.mk.inj heq
        exact ⟨_, List.mem_cons_self, _, hvalue⟩
      · obtain ⟨value, hin, hM⟩ := ih hrest
        exact ⟨value, List.mem_cons_of_mem _ hin, hM⟩

/-- Keys without a slot keep their values. -/
theorem SlotsReplaced.get?_of_not_mem {slots : List Slot}
    (h : SlotsReplaced M inner around old slots fields result) {key : String}
    (hkey : key ∉ slots.map Slot.key) : result.get? key = fields.get? key := by
  induction h with
  | nil => rfl
  | absent _ _ ih => exact ih fun hmem => hkey (List.mem_cons_of_mem _ hmem)
  | present _ _ _ ih =>
      rw [ih fun hmem => hkey (List.mem_cons_of_mem _ hmem), Entries.get?_insert, if_neg]
      intro heq
      exact hkey (by simp [Entries.text_key_eq_iff.1 heq])

/-- A slot that has a value at the end has the replacement of its value. -/
theorem SlotsReplaced.get?_slot {slots : List Slot}
    (h : SlotsReplaced M inner around old slots fields result) (hnodup : (slots.map Slot.key).Nodup)
    (hsame : ∀ slot ∈ slots, fields.get? slot.key = old.get? slot.key) {slot : Slot}
    (hslot : slot ∈ slots) :
    (old.get? slot.key = none ∧ result.get? slot.key = none) ∨
      ∃ value value' around', old.get? slot.key = some value ∧ result.get? slot.key = some value' ∧
        M value slot.place (inner.below slot.key) around' value' := by
  induction h with
  | nil => simp at hslot
  | absent hget hrest ih =>
      rw [List.map_cons, List.nodup_cons] at hnodup
      rcases List.mem_cons.1 hslot with rfl | hmem
      · refine Or.inl ⟨hget, ?_⟩
        rw [hrest.get?_of_not_mem hnodup.1, hsame _ (by simp), hget]
      · exact ih hnodup.2 (fun slot hs => hsame slot (List.mem_cons_of_mem _ hs)) hmem
  | @present head rest fields result value value' hget hvalue hrest ih =>
      rw [List.map_cons, List.nodup_cons] at hnodup
      rcases List.mem_cons.1 hslot with rfl | hmem
      · refine Or.inr ⟨value, value', _, hget, ?_, hvalue⟩
        rw [hrest.get?_of_not_mem hnodup.1, Entries.get?_insert_self]
      · refine ih hnodup.2 (fun slot hs => ?_) hmem
        rw [Entries.get?_insert, if_neg, hsame slot (List.mem_cons_of_mem _ hs)]
        intro heq
        exact hnodup.1 (Entries.text_key_eq_iff.1 heq ▸ List.mem_map_of_mem hs)

/-- The replacement of slots keeps the keys in their order. -/
theorem SlotsReplaced.keys {slots : List Slot}
    (h : SlotsReplaced M inner around old slots fields result)
    (hsame : ∀ slot ∈ slots, (fields.get? slot.key).isSome = (old.get? slot.key).isSome) :
    result.keys = fields.keys := by
  induction h with
  | nil => rfl
  | absent _ _ ih => exact ih fun slot hslot => hsame slot (List.mem_cons_of_mem _ hslot)
  | @present head rest fields result value value' hget _ _ ih =>
      have hhead : (fields.get? head.key).isSome = true := by
        rw [hsame head List.mem_cons_self, hget, Option.isSome_some]
      rw [ih, Entries.keys_insert, if_pos hhead]
      intro slot hslot
      rw [Entries.get?_insert]
      split
      · rename_i hkey
        rw [Entries.text_key_eq_iff.1 hkey, hget]
        rfl
      · exact hsame slot (List.mem_cons_of_mem _ hslot)

/-- What holds of each value and is kept by the replacement of slots holds at the end. -/
theorem SlotsReplaced.each {role : Role} {P Q : String → Tree τ → Prop}
    (h : SlotsReplaced M inner around old role.slots old result) (hold : old.Each P)
    (hslot : ∀ slot ∈ role.slots, ∀ value value' around', P slot.key value →
      M value slot.place (inner.below slot.key) around' value' → Q slot.key value')
    (hother : ∀ key value, key ∉ role.slots.map Slot.key → P key value → Q key value) :
    result.Each Q := by
  intro key value hget
  by_cases hkey : key ∈ role.slots.map Slot.key
  · obtain ⟨slot, hmem, rfl⟩ := List.mem_map.1 hkey
    rcases h.get?_slot role.slots_nodup (fun _ _ => rfl) hmem with
      ⟨-, hnone⟩ | ⟨before, after, around', hbefore, hafter, hM⟩
    · simp [hnone] at hget
    · obtain rfl : after = value := by simpa [hafter] using hget
      exact hslot slot hmem before after around' (hold _ _ hbefore) hM
  · rw [h.get?_of_not_mem hkey] at hget
    exact hother key value hkey (hold key value hget)

theorem SlotsReplaced.isObject {slots : List Slot}
    (h : SlotsReplaced M inner around old slots fields result) (hobject : fields.IsObject) :
    result.IsObject := by
  induction h with
  | nil => exact hobject
  | absent _ _ ih => exact ih hobject
  | present _ _ _ ih => exact ih (hobject.insert _ _)

end Tree

end ProtoShape
