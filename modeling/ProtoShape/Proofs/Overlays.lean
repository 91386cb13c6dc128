import ProtoShape.Proofs.Paths

/-!
# Entries laid over a tree

`overlayAt` lays entries over the mappings of a tree.  Which entries a mapping gets depends on
its location alone.  All other keys and the order of keys stay, and so do scalars and lists.

* The result depends on the entries for locations in the tree only (`overlayAt_congr`); where
  there are none, the tree stays as it is (`overlayAt_eq_self`).
* Where the entries for one location are scalars under different keys, laying them over a
  second time changes nothing (`overlayAt_overlayAt`).
-/

namespace ProtoShape

namespace Entries

variable {α : Type} {e : Entries α}

theorem overlay_nil (e : Entries α) : e.overlay ⟨[]⟩ = e := rfl

theorem overlay_append (e : Entries α) (l more : List (Scalar × α)) :
    e.overlay ⟨l ++ more⟩ = (e.overlay ⟨l⟩).overlay ⟨more⟩ :=
  List.foldl_append

/-- To lay over the entries that are there changes nothing. -/
theorem overlay_of_get? {l : List (Scalar × α)} (h : ∀ entry ∈ l, e.get? entry.1 = some entry.2) :
    e.overlay ⟨l⟩ = e := by
  induction l with
  | nil => rfl
  | cons entry rest ih =>
      have hhead : e.insert entry.1 entry.2 = e := insert_of_get? (h entry List.mem_cons_self)
      change (e.insert entry.1 entry.2).overlay ⟨rest⟩ = e
      rw [hhead]
      exact ih fun entry hentry => h entry (List.mem_cons_of_mem _ hentry)

/-- To lay entries over a second time changes nothing. -/
theorem overlay_overlay {l : List (Scalar × α)} (h : DistinctKeys (⟨l⟩ : Entries α)) :
    (e.overlay ⟨l⟩).overlay ⟨l⟩ = e.overlay ⟨l⟩ := by
  refine overlay_of_get? fun entry hentry => ?_
  rw [get?_overlay e h, get?_of_mem h hentry, Option.some_or]

/-- A function of the entries that keeps the keys goes through a binding. -/
theorem map_put {β : Type} {f : Scalar × α → β} {value : α} {value' : β}
    (hvalue : ∀ key, f (key, value) = value') (l : List (Scalar × α)) (key : Scalar) :
    (put l key value).map (fun entry => (entry.1, f entry)) =
      put (l.map fun entry => (entry.1, f entry)) key value' := by
  induction l with
  | nil => simp [put, hvalue]
  | cons entry rest ih =>
      obtain ⟨k, v⟩ := entry
      rw [put, List.map_cons, put]
      split
      · rw [List.map_cons, hvalue]
      · rw [List.map_cons, ih]

theorem mapValues_overlay {β : Type} (f : α → β) (e : Entries α) (l : List (Scalar × α)) :
    (e.overlay ⟨l⟩).mapValues f = (e.mapValues f).overlay
      ⟨l.map fun entry => (entry.1, f entry.2)⟩ := by
  induction l generalizing e with
  | nil => rfl
  | cons entry rest ih =>
      have hinsert : (e.insert entry.1 entry.2).mapValues f =
          (e.mapValues f).insert entry.1 (f entry.2) :=
        congrArg Entries.mk (map_put (fun _ => rfl) e.toList entry.1)
      change ((e.insert entry.1 entry.2).overlay ⟨rest⟩).mapValues f = _
      rw [ih, hinsert]
      rfl

end Entries

namespace Tree

variable {τ : Type}

mutual
/-- The tree with entries laid over its mappings, given for each location. -/
def overlayAt (entriesFor : List String → List (Scalar × Tree τ)) : Tree τ → List String → Tree τ
  | scalar tag s, _ => scalar tag s
  | list tag items, keys => list tag (overlayItems entriesFor items keys 0)
  | map tag ⟨entries⟩, keys =>
      map tag (Entries.overlay ⟨overlayEntries entriesFor entries keys⟩ ⟨entriesFor keys⟩)

/-- `overlayAt` on the items of a list, from an index on. -/
def overlayItems (entriesFor : List String → List (Scalar × Tree τ)) :
    List (Tree τ) → List String → Nat → List (Tree τ)
  | [], _, _ => []
  | item :: rest, keys, index =>
      overlayAt entriesFor item (keys ++ [toString index]) ::
        overlayItems entriesFor rest keys (index + 1)

/-- `overlayAt` on the values of a mapping. -/
def overlayEntries (entriesFor : List String → List (Scalar × Tree τ)) :
    List (Scalar × Tree τ) → List String → List (Scalar × Tree τ)
  | [], _ => []
  | (key, value) :: rest, keys =>
      (key, overlayAt entriesFor value (keys ++ [key.label])) :: overlayEntries entriesFor rest keys
end

/-- The tree with further entries laid over, if it is a mapping. -/
def overlaid (t : Tree τ) (entries : List (Scalar × Tree τ)) : Tree τ :=
  match t with
  | map tag fields => map tag (fields.overlay ⟨entries⟩)
  | other => other

end Tree

/-- The fields with entries laid over the mappings below them. -/
def Fields.overlayBelow {τ : Type} (entriesFor : List String → List (Scalar × Tree τ))
    (fields : Fields τ) (keys : List String) : Fields τ :=
  ⟨fields.toList.map fun entry => (entry.1, entry.2.overlayAt entriesFor (keys ++ [entry.1.label]))⟩

namespace Fields

variable {τ : Type} {entriesFor : List String → List (Scalar × Tree τ)} {fields : Fields τ}
    {keys : List String}

theorem get?_overlayBelow (fields : Fields τ) (key : String) :
    (fields.overlayBelow entriesFor keys).get? key =
    (fields.get? key).map fun value => value.overlayAt entriesFor (keys ++ [key]) := by
  obtain ⟨l⟩ := fields
  unfold overlayBelow Entries.get?
  induction l with
  | nil => rfl
  | cons entry rest ih =>
      obtain ⟨k, v⟩ := entry
      rw [List.map_cons, Entries.lookup, Entries.lookup]
      split
      · rename_i hkey
        rw [Scalar.key_eq_text_iff.1 hkey]
        rfl
      · exact ih

theorem overlayBelow_insert (fields : Fields τ) (key : String) (value : Tree τ) :
    Fields.overlayBelow entriesFor (fields.insert key value) keys =
      Entries.insert (Fields.overlayBelow entriesFor fields keys) key
        (value.overlayAt entriesFor (keys ++ [key])) := by
  obtain ⟨l⟩ := fields
  refine congrArg Entries.mk ?_
  change List.map _ (Entries.put l key value) = Entries.put (List.map _ l) key _
  induction l with
  | nil => rfl
  | cons entry rest ih =>
      obtain ⟨k, v⟩ := entry
      rw [Entries.put, List.map_cons, Entries.put]
      split
      · rename_i hkey
        rw [List.map_cons, Scalar.key_eq_text_iff.1 hkey]
        rfl
      · rw [List.map_cons, ih]

@[simp] theorem keys_overlayBelow : (fields.overlayBelow entriesFor keys).keys = fields.keys := by
  simp [overlayBelow, Entries.keys]

theorem isObject_overlayBelow (h : fields.IsObject) :
    (fields.overlayBelow entriesFor keys).IsObject :=
  (Entries.isObject_congr keys_overlayBelow).2 h

end Fields

namespace Tree

variable {τ : Type} {entriesFor other : List String → List (Scalar × Tree τ)} {t : Tree τ}
    {keys : List String}

@[simp] theorem overlayAt_scalar (tag : τ) (s : Scalar) :
    (scalar tag s).overlayAt entriesFor keys = scalar tag s := by
  simp [overlayAt]

theorem overlayItems_eq (items : List (Tree τ)) (index : Nat) :
    overlayItems entriesFor items keys index =
      items.mapIdx fun i item => item.overlayAt entriesFor (keys ++ [toString (index + i)]) := by
  induction items generalizing index with
  | nil => simp [overlayItems]
  | cons item rest ih => simp [overlayItems, ih, List.mapIdx_cons, Nat.add_assoc, Nat.add_comm 1]

theorem overlayAt_list (tag : τ) (items : List (Tree τ)) :
    (list tag items).overlayAt entriesFor keys =
      list tag (items.mapIdx fun i item => item.overlayAt entriesFor (keys ++ [toString i])) := by
  simp [overlayAt, overlayItems_eq]

theorem overlayEntries_eq (entries : List (Scalar × Tree τ)) :
    overlayEntries entriesFor entries keys =
      entries.map fun entry =>
        (entry.1, entry.2.overlayAt entriesFor (keys ++ [entry.1.label])) := by
  induction entries with
  | nil => simp [overlayEntries]
  | cons entry rest ih => simp [overlayEntries, ih]

theorem overlayAt_map (tag : τ) (fields : Fields τ) :
    (map tag fields).overlayAt entriesFor keys =
      map tag ((Fields.overlayBelow entriesFor fields keys).overlay ⟨entriesFor keys⟩) := by
  obtain ⟨entries⟩ := fields
  rw [overlayAt, overlayEntries_eq]
  rfl

/-- What is laid over at and below a location depends on the entries for the locations
from there. -/
theorem overlayAt_congr (h : ∀ more, entriesFor (keys ++ more) = other (keys ++ more)) :
    t.overlayAt entriesFor keys = t.overlayAt other keys := by
  induction t using Tree.induction generalizing keys with
  | scalar tag s => simp
  | list tag items ih =>
      rw [overlayAt_list, overlayAt_list]
      refine congrArg (list tag) (List.mapIdx_eq_mapIdx_iff.2 fun i hi => ?_)
      refine ih _ (List.getElem_mem hi) fun more => ?_
      rw [List.append_assoc]
      exact h _
  | map tag fields ih =>
      have hkeys : entriesFor keys = other keys := by simpa using h []
      rw [overlayAt_map, overlayAt_map, hkeys]
      refine congrArg (fun entries => map tag (Entries.overlay ⟨entries⟩ _))
        (List.map_congr_left fun entry hentry => congrArg (Prod.mk entry.1) ?_)
      refine ih entry hentry fun more => ?_
      rw [List.append_assoc]
      exact h _

theorem overlayAt_eq_self (h : ∀ more, entriesFor (keys ++ more) = []) :
    t.overlayAt entriesFor keys = t := by
  induction t using Tree.induction generalizing keys with
  | scalar tag s => simp
  | list tag items ih =>
      rw [overlayAt_list]
      refine congrArg (list tag) (List.mapIdx_eq_iff.2 fun i => ?_)
      cases hitem : items[i]? with
      | none => rfl
      | some item =>
          refine congrArg some (ih item (List.mem_of_getElem? hitem) fun more => ?_).symm
          rw [List.append_assoc]
          exact h _
  | map tag fields ih =>
      have hkeys : entriesFor keys = [] := by simpa using h []
      rw [overlayAt_map, hkeys, Entries.overlay_nil]
      refine congrArg (fun entries => map tag ⟨entries⟩)
        ((List.map_congr_left fun entry hentry => congrArg (Prod.mk entry.1) ?_).trans
          (List.map_id' fields.toList))
      refine ih entry hentry fun more => ?_
      rw [List.append_assoc]
      exact h _

/-- To lay entries over a tree goes with a function of the tags. -/
theorem mapTags_overlayAt {σ : Type} (f : τ → σ) (t : Tree τ) (keys : List String) :
    (t.overlayAt entriesFor keys).mapTags f =
      (t.mapTags f).overlayAt
        (fun keys => (entriesFor keys).map fun entry => (entry.1, entry.2.mapTags f)) keys := by
  induction t using Tree.induction generalizing keys with
  | scalar tag s => simp
  | list tag items ih =>
      rw [overlayAt_list, mapTags_list, mapTags_list, overlayAt_list]
      refine congrArg (list (f tag)) (List.ext_getElem? fun i => ?_)
      rw [List.getElem?_map, List.getElem?_mapIdx, List.getElem?_mapIdx, List.getElem?_map]
      cases hitem : items[i]? with
      | none => rfl
      | some item => exact congrArg some (ih item (List.mem_of_getElem? hitem) _)
  | map tag fields ih =>
      rw [overlayAt_map, mapTags_map, mapTags_map, overlayAt_map, Fields.mapTags,
        Entries.mapValues_overlay]
      refine congrArg (fun entries => map (f tag) (Entries.overlay ⟨entries⟩ _)) ?_
      rw [Fields.overlayBelow, Fields.mapTags, Entries.mapValues, List.map_map, List.map_map]
      exact List.map_congr_left fun entry hentry => congrArg (Prod.mk entry.1) (ih entry hentry _)

theorem overlayBelow_congr {fields : Fields τ}
    (h : ∀ key more, entriesFor (keys ++ key :: more) = other (keys ++ key :: more)) :
    Fields.overlayBelow entriesFor fields keys = Fields.overlayBelow other fields keys := by
  refine congrArg Entries.mk (List.map_congr_left fun entry _ => congrArg (Prod.mk entry.1) ?_)
  refine overlayAt_congr fun more => ?_
  rw [List.append_assoc, List.singleton_append]
  exact h _ more

/-- Further entries at a location are laid over last. -/
theorem overlayAt_overlaid {extra : List (Scalar × Tree τ)}
    (hhere : entriesFor keys = other keys ++ extra)
    (hbelow : ∀ key more, entriesFor (keys ++ key :: more) = other (keys ++ key :: more)) :
    t.overlayAt entriesFor keys = (t.overlayAt other keys).overlaid extra := by
  have hchild : ∀ (child : Tree τ) key,
      child.overlayAt entriesFor (keys ++ [key]) = child.overlayAt other (keys ++ [key]) := by
    intro child key
    refine overlayAt_congr fun more => ?_
    rw [List.append_assoc, List.singleton_append]
    exact hbelow key more
  cases t with
  | scalar tag s => simp [overlaid]
  | list tag items => simp only [overlayAt_list, hchild, overlaid]
  | map tag fields =>
      simp only [overlayAt_map, Fields.overlayBelow, hchild, overlaid, hhere,
        Entries.overlay_append]

theorem overlayBelow_overlay {l : List (Scalar × Tree τ)}
    (hl : ∀ entry ∈ l, entry.2.scalar?.isSome = true)
    (fields : Fields τ) : Fields.overlayBelow entriesFor (fields.overlay ⟨l⟩) keys =
      (Fields.overlayBelow entriesFor fields keys).overlay ⟨l⟩ := by
  induction l generalizing fields with
  | nil => rfl
  | cons entry rest ih =>
      obtain ⟨key, value⟩ := entry
      have hvalue : ∀ keys, value.overlayAt entriesFor keys = value := by
        intro keys
        have hscalar := hl (key, value) List.mem_cons_self
        cases value with
        | scalar tag s => simp
        | _ => cases hscalar
      have hinsert : Fields.overlayBelow entriesFor (fields.insert key value) keys =
          Entries.insert (Fields.overlayBelow entriesFor fields keys) key value :=
        congrArg Entries.mk (Entries.map_put (fun _ => hvalue _) fields.toList key)
      change Fields.overlayBelow entriesFor
        (Entries.overlay (fields.insert key value) ⟨rest⟩) keys = _
      rw [ih fun entry hentry => hl entry (List.mem_cons_of_mem _ hentry), hinsert]
      rfl

/-- To lay scalars under different keys over a tree for a second time changes nothing. -/
theorem overlayAt_overlayAt (hscalar :
    ∀ keys, ∀ entry ∈ entriesFor keys, entry.2.scalar?.isSome = true)
    (hdistinct : ∀ keys, Entries.DistinctKeys (⟨entriesFor keys⟩ : Fields τ)) :
    (t.overlayAt entriesFor keys).overlayAt entriesFor keys = t.overlayAt entriesFor keys := by
  induction t using Tree.induction generalizing keys with
  | scalar tag s => simp
  | list tag items ih =>
      rw [overlayAt_list, overlayAt_list, List.mapIdx_mapIdx]
      exact congrArg (list tag) (List.mapIdx_eq_mapIdx_iff.2 fun i hi => ih _ (List.getElem_mem hi))
  | map tag fields ih =>
      have hbelow :
          Fields.overlayBelow entriesFor (Fields.overlayBelow entriesFor fields keys) keys =
          Fields.overlayBelow entriesFor fields keys := by
        rw [Fields.overlayBelow, Fields.overlayBelow, List.map_map]
        exact congrArg Entries.mk
          (List.map_congr_left fun entry hentry => congrArg (Prod.mk entry.1) (ih entry hentry))
      rw [overlayAt_map, overlayAt_map, overlayBelow_overlay (hscalar keys), hbelow,
        Entries.overlay_overlay (hdistinct keys)]

/-- A tree stays a JSON tree where scalars under different texts are laid over it. -/
theorem isJson_overlayAt (h : t.IsJson)
    (hscalar : ∀ keys, ∀ entry ∈ entriesFor keys, entry.2.scalar?.isSome = true)
    (hobject : ∀ keys, Entries.IsObject (⟨entriesFor keys⟩ : Fields τ)) :
    (t.overlayAt entriesFor keys).IsJson := by
  induction t using Tree.induction generalizing keys with
  | scalar tag s =>
      rw [overlayAt_scalar]
      exact h
  | list tag items ih =>
      rw [overlayAt_list]
      refine (everywhere_list _ _).2 fun item hitem => ?_
      obtain ⟨i, hi, rfl⟩ := List.mem_mapIdx.1 hitem
      exact ih _ (List.getElem_mem hi) ((everywhere_list _ _).1 h _ (List.getElem_mem hi))
  | map tag fields ih =>
      obtain ⟨hfields, hvalues⟩ := (everywhere_map _ _).1 h
      have hbelow : (Fields.overlayBelow entriesFor fields keys).IsObject :=
        Fields.isObject_overlayBelow hfields
      rw [overlayAt_map, IsJson, everywhere_object (hbelow.overlay (hobject keys).1)]
      refine ⟨hbelow.overlay (hobject keys).1,
        Entries.Each.overlay ?_ (hobject keys).2 fun key value hget => ?_⟩
      · refine hbelow.each_iff.2 fun entry hentry => ?_
        obtain ⟨before, hbefore, rfl⟩ := List.mem_map.1 hentry
        exact ih before hbefore (hvalues before hbefore)
      · obtain ⟨key', -, hentry⟩ := Entries.mem_of_get? hget
        have hleaf := hscalar keys _ hentry
        cases value with
        | scalar tag s => exact everywhere_scalar tag s
        | _ => cases hleaf

end Tree

end ProtoShape
