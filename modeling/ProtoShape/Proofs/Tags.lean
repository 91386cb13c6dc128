import ProtoShape.Json.Writer
import ProtoShape.Proofs.Visits

/-!
# What does not depend on the tags

The tags of a tree say which node is which.  Its kind, its texts, its JSON text and
the schemas that a walk comes to are those of the value alone.  So two trees with
the same value agree in all of this.
-/

namespace ProtoShape

variable {τ σ : Type} (f : τ → σ)

namespace Tree

@[simp] theorem erase_scalar (tag : τ) (s : Scalar) : (scalar tag s).erase = .scalar () s :=
  mapTags_scalar _ tag s

@[simp] theorem erase_list (tag : τ) (items : List (Tree τ)) :
    (list tag items).erase = .list () (items.map erase) :=
  mapTags_list _ tag items

@[simp] theorem erase_map (tag : τ) (fields : Fields τ) :
    (map tag fields).erase = .map () (Fields.mapTags (fun _ => ()) fields) :=
  mapTags_map _ tag fields

@[simp] theorem text?_mapTags (t : Tree τ) : (t.mapTags f).text? = t.text? := by
  cases t with
  | scalar tag s => cases s <;> simp [text?]
  | list tag items => simp [text?]
  | map tag fields => simp [text?]

@[simp] theorem isText_mapTags (s : String) (t : Tree τ) : (t.mapTags f).isText s = t.isText s := by
  simp [isText]

@[simp] theorem scalar?_mapTags (t : Tree τ) : (t.mapTags f).scalar? = t.scalar? := by
  cases t <;> simp [scalar?]

@[simp] theorem items?_mapTags (t : Tree τ) :
    (t.mapTags f).items? = t.items?.map (List.map (mapTags f)) := by
  cases t <;> simp [items?]

@[simp] theorem fields?_mapTags (t : Tree τ) :
    (t.mapTags f).fields? = t.fields?.map (Fields.mapTags f) := by
  cases t <;> simp [fields?]

/-- Trees with the same value are mappings alike. -/
theorem isSome_fields?_congr {t u : Tree τ} (h : t.erase = u.erase) :
    t.fields?.isSome = u.fields?.isSome := by
  have heq : t.erase.fields?.isSome = u.erase.fields?.isSome := by rw [h]
  simpa [erase] using heq

@[simp] theorem kindName_mapTags (t : Tree τ) : (t.mapTags f).kindName = t.kindName := by
  cases t <;> simp [kindName]

theorem mapTags_mapTags {υ : Type} (g : σ → υ) (t : Tree τ) :
    (t.mapTags f).mapTags g = t.mapTags fun tag => g (f tag) := by
  induction t using Tree.induction with
  | scalar tag s => simp
  | list tag items ih =>
      simp only [mapTags_list, List.map_map, list.injEq, true_and]
      exact List.map_congr_left ih
  | map tag fields ih =>
      simp only [mapTags_map, Fields.mapTags, Entries.mapValues, List.map_map, map.injEq,
        Entries.mk.injEq, true_and]
      refine List.map_congr_left fun entry hentry => ?_
      rw [Function.comp_apply, ih entry hentry]

end Tree

namespace Fields

variable (fields : Fields τ)

@[simp] theorem get?_mapTags (key : Scalar) :
    (Fields.mapTags f fields).get? key = (fields.get? key).map (Tree.mapTags f) :=
  Entries.get?_mapValues (Tree.mapTags f) fields key

@[simp] theorem keys_mapTags : (Fields.mapTags f fields).keys = fields.keys :=
  Entries.keys_mapValues (Tree.mapTags f) fields

@[simp] theorem contains_mapTags (key : Scalar) :
    (Fields.mapTags f fields).contains key = fields.contains key := by
  simp [Entries.contains]

@[simp] theorem text?_mapTags (key : String) :
    text? (Fields.mapTags f fields) key = text? fields key := by
  cases h : fields.get? key <;> simp [text?, h]

@[simp] theorem items?_mapTags (key : String) :
    items? (Fields.mapTags f fields) key = (items? fields key).map (List.map (Tree.mapTags f)) := by
  cases h : fields.get? key <;> simp [items?, h]

@[simp] theorem hasText_mapTags (key text : String) :
    hasText (Fields.mapTags f fields) key text = hasText fields key text := by
  simp [hasText]

@[simp] theorem ref?_mapTags : ref? (Fields.mapTags f fields) = ref? fields := by
  simp [ref?]

@[simp] theorem isReference_mapTags :
    isReference (Fields.mapTags f fields) = isReference fields := by
  simp [isReference]

end Fields

theorem Tree.ref?_mapTags (t : Tree τ) : (t.mapTags f).ref? = t.ref? := by
  rw [Tree.ref?, Tree.fields?_mapTags, Option.bind_map]
  exact congrArg t.fields?.bind (funext (Fields.ref?_mapTags f))

@[simp] theorem Role.admits_mapTags (role : Role) (fields : Fields τ) :
    role.admits (Fields.mapTags f fields) = role.admits fields := by
  simp [Role.admits]

@[simp] theorem Site.inside_mapTags (site : Site) (role : Role) (fields : Fields τ) :
    site.inside role (Fields.mapTags f fields) = site.inside role fields := by
  cases role <;> simp [Site.inside]

/-- The visit with a function applied to every tag. -/
def Visit.mapTags (visit : Visit τ) : Visit σ :=
  ⟨visit.hook, visit.name, visit.location, f visit.tag, Fields.mapTags f visit.fields⟩

namespace Tree

theorem visitOf_mapTags (role : Role) (site : Site) (tag : τ) (fields : Fields τ) :
    (Visit.of? role site (f tag) (Fields.mapTags f fields)).toList =
      (Visit.of? role site tag fields).toList.map (Visit.mapTags f) := by
  cases role <;> rfl

theorem visitsOfItems_mapTags {items : List (Tree τ)}
    (h : ∀ item ∈ items, ∀ place site,
      (item.mapTags f).visits place site = (item.visits place site).map (Visit.mapTags f))
    (role : Role) (site : Site) (index : Nat) :
    visitsOfItems (items.map (mapTags f)) role site index =
      (visitsOfItems items role site index).map (Visit.mapTags f) := by
  induction items generalizing index with
  | nil => simp [visitsOfItems]
  | cons item rest ih =>
      rw [List.map_cons, visitsOfItems, visitsOfItems, List.map_append, h item List.mem_cons_self,
        ih fun item hitem => h item (List.mem_cons_of_mem _ hitem)]

/-- A walk comes to the same schemas. -/
theorem visits_mapTags (t : Tree τ) (place : Place) (site : Site) :
    (t.mapTags f).visits place site = (t.visits place site).map (Visit.mapTags f) := by
  induction t using Tree.induction generalizing place site with
  | scalar tag s => simp [visits]
  | list tag items ih =>
      rw [mapTags_list, visits, visits]
      split
      · exact visitsOfItems_mapTags f ih place.role site 0
      · rfl
  | map tag fields ih =>
      rw [mapTags_map]
      cases hspread : place.spread with
      | elements => rw [visits_map_elements hspread, visits_map_elements hspread, List.map_nil]
      | entries =>
          rw [visits_map_entries hspread, visits_map_entries hspread, List.map_flatMap]
          simp only [Fields.mapTags, Entries.mapValues, List.flatMap_map]
          exact List.flatMap_congr fun entry hentry => ih entry hentry _ _
      | single =>
          rw [visits_map_single hspread, visits_map_single hspread, Role.admits_mapTags,
            Site.inside_mapTags]
          split
          · rw [List.map_append, List.map_flatMap, visitOf_mapTags]
            congr 1
            refine List.flatMap_congr fun slot _ => ?_
            rw [Fields.get?_mapTags]
            cases hget : fields.get? slot.key with
            | none => rfl
            | some value =>
                obtain ⟨key, -, hmem⟩ := Entries.mem_of_get? hget
                simpa using ih _ hmem _ _
          · rfl

variable {f} {p : Fields τ → Prop} {q : Fields σ → Prop}

theorem allSchemas_mapTags (h : ∀ fields, q (Fields.mapTags f fields) ↔ p fields) {t : Tree τ}
    {place : Place} : (t.mapTags f).AllSchemas q place ↔ t.AllSchemas p place := by
  simp only [AllSchemas, visits_mapTags, List.forall_mem_map]
  exact forall_congr' fun site => forall₂_congr fun visit _ => h visit.fields

/-- What is asked of the values of schemas holds of trees with the same value alike. -/
theorem allSchemas_congr {q : Fields Unit → Prop}
    (h : ∀ fields, q (Fields.mapTags (fun _ => ()) fields) ↔ p fields) {t u : Tree τ}
    (heq : t.erase = u.erase) {place : Place} : t.AllSchemas p place ↔ u.AllSchemas p place := by
  rw [← allSchemas_mapTags h, ← allSchemas_mapTags h]
  exact iff_of_eq (congrArg (AllSchemas q place) heq)

theorem everywhere_mapTags (h : ∀ fields, q (Fields.mapTags f fields) ↔ p fields) {t : Tree τ} :
    (t.mapTags f).Everywhere q ↔ t.Everywhere p := by
  induction t using Tree.induction with
  | scalar tag s => simp
  | list tag items ih =>
      rw [mapTags_list, everywhere_list, everywhere_list, List.forall_mem_map]
      exact forall₂_congr ih
  | map tag fields ih =>
      rw [mapTags_map, everywhere_map, everywhere_map, h]
      simp only [Fields.mapTags, Entries.mapValues, List.forall_mem_map]
      exact and_congr_right fun _ => forall₂_congr ih

variable (f)

theorem isJson_mapTags {t : Tree τ} : (t.mapTags f).IsJson ↔ t.IsJson :=
  everywhere_mapTags fun fields => Entries.isObject_mapValues (mapTags f) fields

@[simp] theorem hasPlainRef_mapTags (t : Tree τ) : (t.mapTags f).hasPlainRef = t.hasPlainRef := by
  unfold hasPlainRef
  cases t with
  | map tag fields => cases h : fields.get? "$ref" <;> simp [fields?, h]
  | _ => simp [fields?]

theorem hasPlainMembers_mapTags {t : Tree τ} : (t.mapTags f).HasPlainMembers ↔
    t.HasPlainMembers := by
  refine everywhere_mapTags fun fields => ?_
  refine forall₂_congr fun key _ => ?_
  cases h : Fields.items? fields key <;> simp [h]

end Tree

/-! ## JSON texts -/

namespace Json

variable {style : Style}

theorem writeItems_mapTags {items : List (Tree τ)}
    (h : ∀ item ∈ items, ∀ level, write style level (item.mapTags f) = write style level item)
    (level : Nat) :
    writeItems style level (items.map (Tree.mapTags f)) = writeItems style level items := by
  induction items with
  | nil => rfl
  | cons item rest ih =>
      rw [List.map_cons, writeItems, writeItems, h item List.mem_cons_self,
        ih fun item hitem => h item (List.mem_cons_of_mem _ hitem)]

theorem writeMembers_mapTags {entries : List (Scalar × Tree τ)}
    (h : ∀ entry ∈ entries, ∀ level,
      write style level (entry.2.mapTags f) = write style level entry.2)
    (level : Nat) :
    writeMembers style level (entries.map fun entry => (entry.1, entry.2.mapTags f)) =
      writeMembers style level entries := by
  induction entries with
  | nil => rfl
  | cons entry rest ih =>
      obtain ⟨key, value⟩ := entry
      have hvalue := h (key, value) List.mem_cons_self level
      rw [List.map_cons, writeMembers, writeMembers, hvalue,
        ih fun entry hentry => h entry (List.mem_cons_of_mem _ hentry)]

@[simp] theorem write_mapTags (level : Nat) (t : Tree τ) :
    write style level (t.mapTags f) = write style level t := by
  induction t using Tree.induction generalizing level with
  | scalar tag s => simp [write]
  | list tag items ih => rw [Tree.mapTags_list, write, write, writeItems_mapTags f ih]
  | map tag fields ih =>
      obtain ⟨entries⟩ := fields
      rw [Tree.mapTags_map, Fields.mapTags, Entries.mapValues, write, write,
        writeMembers_mapTags f ih]

@[simp] theorem text_mapTags (style : Style) (t : Tree τ) :
    text style (t.mapTags f) = text style t :=
  write_mapTags f 0 t

/-- Trees with the same value have the same text. -/
theorem text_congr {t : Tree τ} {u : Tree σ} (h : t.erase = u.erase) :
    text style t = text style u := by
  rw [← text_mapTags (fun _ => ()) style t, ← text_mapTags (fun _ => ()) style u]
  exact congrArg (text style) h

end Json

end ProtoShape
