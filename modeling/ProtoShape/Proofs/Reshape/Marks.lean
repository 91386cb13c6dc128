import ProtoShape.Config.Reading
import ProtoShape.Proofs.Replacement
import ProtoShape.Proofs.Reshape.Numbers
import ProtoShape.Proofs.Rules.Tidy

/-!
# Marks and numbers show nothing new

The third phase puts flags into schemas and their properties.  Flags are vendor extensions,
which nothing looks at.  `Image old new` says what follows for a node: a walk lists no schema
of the new one that it did not list of the old one, at the same location, and what was tidy
there still is.

* Images may stand in place of the nodes in a list or in a mapping (`Image.list`, `Image.map`).
* A flag makes an image (`Image.flag`), and so do numbers (`image_number`).
* So a marked document is an image (`markGroups_image`).
-/

namespace ProtoShape

open Config Rules Tree

/-- What is tidy in the fields stays tidy. -/
def KeepsTidy (fields fields' : Fields Tag) : Prop :=
  ∀ permits, fields.Each (TidyValue permits) → fields'.Each (TidyValue permits)

/-- A list is the same but for numbers. -/
def SameList (old new : Node) : Prop :=
  ∀ tag' items', new = .list tag' items' → ∃ tag items, old = .list tag items ∧
    (∀ n, tag = some n → tag' = some n) ∧ items'.map Tree.erase = items.map Tree.erase

theorem SameList.refl (t : Node) : SameList t t :=
  fun tag items heq => ⟨tag, items, heq, fun _ => id, rfl⟩

theorem SameList.trans {old between new : Node} (h : SameList old between)
    (h' : SameList between new) :
    SameList old new := by
  intro tag'' items'' heq''
  obtain ⟨tag', items', heq', htag', hitems'⟩ := h' tag'' items'' heq''
  obtain ⟨tag, items, heq, htag, hitems⟩ := h tag' items' heq'
  exact ⟨tag, items, heq, fun n hn => htag' n (htag n hn), hitems'.trans hitems⟩

/-- An `enum` of the fields stays the same but for numbers. -/
def KeepsEnum (fields fields' : Fields Tag) : Prop :=
  ∀ value', fields'.get? "enum" = some value' → ∃ value, fields.get? "enum" = some value ∧
    SameList value value'

theorem KeepsEnum.trans {fields between fields' : Fields Tag} (h : KeepsEnum fields between)
    (h' : KeepsEnum between fields') : KeepsEnum fields fields' := by
  intro value'' hget''
  obtain ⟨value', hget', hsame'⟩ := h' value'' hget''
  obtain ⟨value, hget, hsame⟩ := h value' hget'
  exact ⟨value, hget, hsame.trans hsame'⟩

/-- A node shows nothing that another one does not show. -/
structure Image (old new : Node) : Prop where
  value : ValueAfter old new
  tag : ∀ n, old.tag = some n → new.tag = some n
  visits : ∀ place site, ∀ visit' ∈ new.visits place site, ∃ visit ∈ old.visits place site,
    visit'.location = visit.location ∧ KeepsTidy visit.fields visit'.fields ∧
    KeepsEnum visit.fields visit'.fields

theorem Image.refl (t : Node) : Image t t :=
  ⟨.refl t, fun _ => id, fun _ _ visit hvisit =>
    ⟨visit, hvisit, rfl, fun _ => id, fun value hget => ⟨value, hget, .refl value⟩⟩⟩

theorem Image.trans {old between new : Node} (h : Image old between) (h' : Image between new) :
    Image old new := by
  refine ⟨h.value.trans h'.value, fun n hn => h'.tag n (h.tag n hn),
    fun place site visit'' hvisit'' => ?_⟩
  obtain ⟨visit', hvisit', hlocation', hkeeps', henum'⟩ := h'.visits place site visit'' hvisit''
  obtain ⟨visit, hvisit, hlocation, hkeeps, henum⟩ := h.visits place site visit' hvisit'
  exact ⟨visit, hvisit, hlocation'.trans hlocation, fun permits htidy =>
    hkeeps' permits (hkeeps permits htidy),
    henum.trans henum'⟩

/-! ## Lists -/

section Lists

variable {items items' : List Node}

theorem forall₂_getElem? {α β : Type} {R : α → β → Prop} {l : List α} {l' : List β}
    (h : List.Forall₂ R l l') {i : Nat} {b : β} (hb : l'[i]? = some b) :
    ∃ a, l[i]? = some a ∧ R a b := by
  induction h generalizing i with
  | nil => simp at hb
  | @cons a b' l l' hR _ ih =>
      cases i with
      | zero =>
          obtain rfl : b' = b := by simpa using hb
          exact ⟨a, rfl, hR⟩
      | succ i => exact ih (by simpa using hb)

theorem itemsAfter_of_images (h : List.Forall₂ Image items items') : ItemsAfter items items' := by
  refine ⟨fun hconst member' hmember' => ?_, ?_, ?_, ?_⟩
  · obtain ⟨i, hi⟩ := List.mem_iff_getElem?.1 hmember'
    obtain ⟨member, hmember, himage⟩ := forall₂_getElem? h hi
    exact himage.value.const (hconst member (List.mem_of_getElem? hmember))
  · have hsame : items'.filterMap Tree.scalar? = items.filterMap Tree.scalar? := by
      induction h with
      | nil => rfl
      | cons himage _ ih => rw [List.filterMap_cons, List.filterMap_cons, himage.value.scalar, ih]
    rw [hsame]
  · rintro rfl
    exact List.forall₂_nil_right_iff.1 h
  · rintro member' rfl
    cases h with
    | cons himage hrest =>
        obtain rfl := List.forall₂_nil_right_iff.1 hrest
        exact ⟨_, rfl, himage.value.mapping⟩

theorem Image.list {tag tag' : Tag} (htag : ∀ n, tag = some n → tag' = some n)
    (h : List.Forall₂ Image items items') : Image (.list tag items) (.list tag' items') := by
  refine ⟨⟨⟨rfl, rfl, id⟩, id, ?_⟩, htag, fun place site visit' hvisit' => ?_⟩
  · rintro _ _ ⟨⟩
    exact ⟨tag, items, rfl, htag, itemsAfter_of_images h⟩
  · obtain ⟨hspread, i, item', hitem', hmem⟩ := mem_visits_list.1 hvisit'
    obtain ⟨item, hitem, himage⟩ := forall₂_getElem? h hitem'
    obtain ⟨visit, hvisit, hrest⟩ := himage.visits _ _ visit' hmem
    exact ⟨visit, mem_visits_list.2 ⟨hspread, i, item, hitem, hvisit⟩, hrest⟩

end Lists

/-! ## Mappings -/

/-- An entry and one with the same key and an image of its value. -/
structure EntryImage (entry entry' : Scalar × Node) : Prop where
  key : entry'.1 = entry.1
  image : Image entry.2 entry'.2
  enum : entry.1.key = .text "enum" → SameList entry.2 entry'.2

/-- The fields of a mapping after a change: a look at a keyword finds an image, or finds
nothing as before.  Entries may be added that a walk does not go into. -/
structure FieldsImage (fields fields' : Fields Tag) : Prop where
  get? : ∀ key : String, isExtension key = false →
    Option.Rel Image (fields.get? key) (fields'.get? key)
  keys : ∀ key ∈ fields.keys, key ∈ fields'.keys
  entries : ∀ entry' ∈ fields'.toList, entry'.2.scalar?.isSome = true ∨
    ∃ entry ∈ fields.toList, EntryImage entry entry'
  enum : KeepsEnum fields fields'

section Mappings

variable {fields fields' : Fields Tag}

theorem FieldsImage.text? (h : FieldsImage fields fields') {key : String}
    (hkey : isExtension key = false) :
    Fields.text? fields' key = Fields.text? fields key := by
  have hrel := h.get? key hkey
  unfold Fields.text?
  revert hrel
  generalize fields.get? key = old
  generalize fields'.get? key = new
  rintro (himage | _)
  · exact text?_congr himage.value.scalar
  · rfl

theorem FieldsImage.contains (h : FieldsImage fields fields') {key : String}
    (hkey : isExtension key = false) :
    fields'.contains key = fields.contains key := by
  have hrel := h.get? key hkey
  unfold Entries.contains
  revert hrel
  generalize fields.get? key = old
  generalize fields'.get? key = new
  rintro (_ | _)
  · rfl
  · rfl

theorem FieldsImage.exists_get? (h : FieldsImage fields fields') {key : String}
    (hkey : isExtension key = false) {value' : Node} (hget : fields'.get? key = some value') :
    ∃ value, fields.get? key = some value ∧ Image value value' := by
  have hrel := h.get? key hkey
  rw [hget] at hrel
  revert hrel
  generalize fields.get? key = old
  rintro (himage | _)
  exact ⟨_, rfl, himage⟩

theorem FieldsImage.isReference (h : FieldsImage fields fields') :
    Fields.isReference fields' = Fields.isReference fields :=
  congrArg Option.isSome (h.text? (by decide : isExtension "$ref" = false))

theorem FieldsImage.keepsTidy (h : FieldsImage fields fields') : KeepsTidy fields fields' := by
  intro permits htidy key value' hget
  by_cases hwatched : key ∈ watchedKeys
  · have hplain : ∀ key ∈ watchedKeys, isExtension key = false := by decide
    obtain ⟨value, hold, himage⟩ := h.exists_get? (hplain key hwatched) hget
    exact (htidy key value hold).after himage.value
  · exact .of_not_mem hwatched value'

theorem FieldsImage.unconstrained (h : FieldsImage fields fields')
    (hfree : fieldsUnconstrained fields = false) :
    fieldsUnconstrained fields' = false := by
  rw [Bool.eq_false_iff] at hfree ⊢
  intro hfree'
  refine hfree ?_
  have hrel := h.get? "type" (by decide)
  unfold fieldsUnconstrained at hfree' ⊢
  revert hrel hfree'
  generalize fields.get? "type" = old
  generalize fields'.get? "type" = new
  rintro hfree' (@⟨type, type', himage⟩ | _)
  · have htext : type'.isText "object" = type.isText "object" := by
      unfold Tree.isText
      rw [text?_congr himage.value.scalar]
    have hplain : ∀ key ∈ structuralKeys, isExtension key = false := by decide
    have hsame : structuralKeys.any (fields'.contains ·) = structuralKeys.any (fields.contains ·) :=
by
      refine Bool.eq_iff_iff.2 ?_
      simp only [List.any_eq_true]
      exact exists_congr fun key => and_congr_right fun hkey => by rw [h.contains (hplain key hkey)]
    simpa only [htext, hsame] using hfree'
  · exact List.all_eq_true.2 fun key hkey => List.all_eq_true.1 hfree' key (h.keys key hkey)

theorem slot_key_plain (role : Role) {slot : Slot} (hslot : slot ∈ role.slots) :
    isExtension slot.key = false := by
  have hall : ∀ slot ∈ role.slots, isExtension slot.key = false := by
    cases role with
    | schema hook => cases hook <;> decide
    | _ => decide
  exact hall slot hslot

theorem FieldsImage.inside (h : FieldsImage fields fields') (site : Site) (role : Role) :
    site.inside role fields' = site.inside role fields := by
  cases role <;> first | rfl | simp only [Site.inside,
    h.text? (by decide : isExtension "operationId" = false)]

theorem Image.map {tag tag' : Tag} (htag : ∀ n, tag = some n → tag' = some n)
    (h : FieldsImage fields fields') : Image (.map tag fields) (.map tag' fields') := by
  refine ⟨⟨⟨rfl, rfl, fun hconst => ?_⟩, h.unconstrained, ?_⟩, htag,
    fun place site visit' hvisit' => ?_⟩
  · rw [const?_eq_none_iff] at hconst ⊢
    rwa [h.isReference, h.contains (by decide)]
  · rintro _ _ ⟨⟩
  · cases hspread : place.spread with
    | elements => simp [visits_map_elements hspread] at hvisit'
    | entries =>
        obtain ⟨entry', hentry', hmem⟩ := (mem_visits_map_entries hspread).1 hvisit'
        rcases h.entries entry' hentry' with hscalar | ⟨entry, hentry, hkey, himage, -⟩
        · obtain ⟨key, value⟩ := entry'
          cases value with
          | scalar tag s => simp at hmem
          | _ => cases hscalar
        · rw [hkey] at hmem
          obtain ⟨visit, hvisit, hrest⟩ := himage.visits _ _ visit' hmem
          exact ⟨visit, (mem_visits_map_entries hspread).2 ⟨entry, hentry, hvisit⟩, hrest⟩
    | single =>
        obtain ⟨hadmits, hcase⟩ := (mem_visits_map_single hspread).1 hvisit'
        have hadmits' : place.role.admits fields = true := by
          rw [← hadmits, Role.admits, Role.admits, h.isReference]
        rcases hcase with ⟨slot, hslot, value', hget, hmem⟩ | hself
        · obtain ⟨value, hold, himage⟩ := h.exists_get? (slot_key_plain _ hslot) hget
          rw [h.inside] at hmem
          obtain ⟨visit, hvisit, hrest⟩ := himage.visits _ _ visit' hmem
          exact ⟨visit, (mem_visits_map_single hspread).2
            ⟨hadmits', Or.inl ⟨slot, hslot, value, hold, hvisit⟩⟩, hrest⟩
        · cases hrole : place.role with
          | schema hook =>
              obtain rfl : visitAt hook site tag' fields' = visit' := by
                simpa [Visit.of?, visitAt, hrole] using hself
              refine ⟨visitAt hook site tag fields, ?_, rfl, h.keepsTidy, h.enum⟩
              exact (mem_visits_map_single hspread).2 ⟨hadmits', Or.inr (by rw [hrole]; rfl)⟩
          | _ => simp [Visit.of?, hrole] at hself

/-- Images in place of the values of all entries. -/
theorem fieldsImage_of_entries
    (h : List.Forall₂ EntryImage fields.toList fields'.toList) : FieldsImage fields fields' := by
  obtain ⟨l⟩ := fields
  obtain ⟨l'⟩ := fields'
  simp only at h
  have hkeys : l'.map (·.1) = l.map (·.1) := by
    induction h with
    | nil => rfl
    | cons hhead _ ih => rw [List.map_cons, List.map_cons, hhead.key, ih]
  refine ⟨fun key _ => ?_, fun key hkey => ?_, fun entry' hentry' => Or.inr ?_,
    fun value' hget' => ?_⟩
  · clear hkeys
    unfold Entries.get?
    induction h with
    | nil => exact .none
    | @cons entry entry' rest rest' hhead _ ih =>
        obtain ⟨k, v⟩ := entry
        obtain ⟨k', v'⟩ := entry'
        obtain ⟨rfl, himage, -⟩ := hhead
        rw [Entries.lookup, Entries.lookup]
        split
        · exact .some himage
        · exact ih
  · unfold Entries.keys at hkey ⊢
    rwa [hkeys]
  · obtain ⟨i, hi⟩ := List.mem_iff_getElem?.1 hentry'
    obtain ⟨entry, hentry, hrest⟩ := forall₂_getElem? h hi
    exact ⟨entry, List.mem_of_getElem? hentry, hrest⟩
  · clear hkeys
    unfold Entries.get? at hget' ⊢
    induction h with
    | nil => cases hget'
    | @cons entry entry' rest rest' hhead _ ih =>
        obtain ⟨k, v⟩ := entry
        obtain ⟨k', v'⟩ := entry'
        obtain ⟨rfl, -, henum⟩ := hhead
        rw [Entries.lookup] at hget' ⊢
        split at hget'
        · rename_i hkey
          obtain rfl := Option.some.inj hget'
          exact ⟨v, if_pos hkey, henum hkey⟩
        · rename_i hkey
          rw [if_neg hkey]
          exact ih hget'

theorem Image.entries {tag tag' : Tag} (htag : ∀ n, tag = some n → tag' = some n)
    (h : List.Forall₂ EntryImage fields.toList fields'.toList) :
    Image (.map tag fields) (.map tag' fields') :=
  .map htag (fieldsImage_of_entries h)

/-- An image in place of the value of one keyword. -/
theorem Image.put {tag : Tag} {key : String} {value value' : Node}
    (hget : fields.get? key = some value) (hne : key ≠ "enum") (h : Image value value') :
    Image (.map tag fields) (.map tag (fields.insert key value')) := by
  refine .entries (fun _ => id) ?_
  obtain ⟨l⟩ := fields
  change List.Forall₂ _ l (Entries.put l key value')
  unfold Entries.get? at hget
  have hrest : ∀ l : List (Scalar × Node),
      List.Forall₂ EntryImage l l :=
    fun l => List.forall₂_same.2 fun entry _ => ⟨rfl, .refl entry.2, fun _ => .refl entry.2⟩
  induction l with
  | nil => cases hget
  | cons entry rest ih =>
      obtain ⟨k, v⟩ := entry
      rw [Entries.lookup] at hget
      rw [Entries.put]
      split at hget
      · rename_i hkey
        obtain rfl := Option.some.inj hget
        rw [if_pos hkey]
        refine .cons ⟨rfl, h, fun henum => ?_⟩ (hrest rest)
        exact absurd (Entries.text_key_eq_iff.1 (hkey.symm.trans henum)) hne
      · rename_i hkey
        rw [if_neg hkey]
        exact .cons ⟨rfl, .refl v, fun _ => .refl v⟩ (ih hget)

/-- A flag under a vendor extension. -/
theorem Image.flag {tag : Tag} {flag : String} (hflag : isExtension flag = true) (s : Scalar) :
    Image (.map tag fields) (.map tag (fields.insert flag (.scalar none s))) := by
  refine .map (fun _ => id) ⟨fun key hkey => ?_, fun key hkey => ?_, fun entry' hentry' => ?_,
    fun value' hget' => ?_⟩
  · have hne : (key : Scalar).key ≠ (flag : Scalar).key := by
      intro heq
      rw [Entries.text_key_eq_iff.1 heq, hflag] at hkey
      cases hkey
    rw [Entries.get?_insert, if_neg hne]
    cases fields.get? key with
    | none => exact .none
    | some value => exact .some (.refl value)
  · rw [Entries.keys_insert]
    split
    · exact hkey
    · exact List.mem_append_left _ hkey
  · rcases Entries.mem_put hentry' with hold | ⟨hvalue, -⟩
    · exact Or.inr ⟨entry', hold, rfl, .refl entry'.2, fun _ => .refl entry'.2⟩
    · rw [hvalue]
      exact Or.inl rfl
  · have hne : ("enum" : Scalar).key ≠ (flag : Scalar).key := by
      intro heq
      obtain rfl := Entries.text_key_eq_iff.1 heq
      exact absurd hflag (by decide)
    rw [Entries.get?_insert, if_neg hne] at hget'
    exact ⟨value', hget', .refl value'⟩

end Mappings

/-! ## Numbers -/

theorem sameList_number (t : Node) (next : Nat) : SameList t (Node.number t next).1 := by
  intro tag' items' heq
  have herase := (Node.number_numbers t next).erase
  rw [heq] at herase
  cases t with
  | list tag items =>
      have hitems := congrArg Tree.items? herase
      rw [Tree.erase, Tree.erase, Tree.items?_mapTags, Tree.items?_mapTags] at hitems
      refine ⟨tag, items, rfl, fun n hn => ?_, Option.some.inj hitems⟩
      have htag := Node.tag_number_of_some (t := .list tag items) hn next
      rwa [heq] at htag
  | _ => cases herase

/-- Numbers show nothing new. -/
theorem image_number (t : Node) (next : Nat) : Image t (Node.number t next).1 := by
  induction t using Tree.induction generalizing next with
  | scalar tag s =>
      refine ⟨?_, fun n hn => Node.tag_number_of_some hn next, fun place site visit' hvisit' => ?_⟩
      · exact valueAfter_of_erase (Node.number_numbers _ next).erase.symm
          fun n hn => Node.tag_number_of_some hn next
      · cases tag <;> simp [Node.number] at hvisit'
  | list tag items ih =>
      have hitems : ∀ start, List.Forall₂ Image items (Node.numberItems items start).1 := by
        induction items with
        | nil => exact fun _ => .nil
        | cons item rest ihrest =>
            intro start
            exact .cons (ih item List.mem_cons_self start)
              (ihrest (fun other hother => ih other (List.mem_cons_of_mem _ hother)) _)
      cases tag with
      | some n => exact .list (fun _ => id) (hitems next)
      | none => exact .list (fun _ hn => by cases hn) (hitems (next + 1))
  | map tag fields ih =>
      obtain ⟨l⟩ := fields
      have hentries : ∀ start, List.Forall₂ EntryImage l (Node.numberEntries l start).1 := by
        induction l with
        | nil => exact fun _ => .nil
        | cons entry rest ihrest =>
            intro start
            exact .cons ⟨rfl, ih entry List.mem_cons_self start,
              fun _ => sameList_number entry.2 start⟩
              (ihrest (fun other hother => ih other (List.mem_cons_of_mem _ hother)) _)
      cases tag with
      | some n => exact .entries (fun _ => id) (hentries next)
      | none => exact .entries (fun _ hn => by cases hn) (hentries (next + 1))

/-! ## Marks -/

/-- The names of the marks are vendor extensions. -/
structure Options.HasFlags (options : Options) : Prop where
  schema : isExtension options.schemaFlag = true
  property : isExtension options.propertyFlag = true
  annotation : ∀ flag, options.annotationFlag = some flag → isExtension flag = true

/-- Options that are not refused have such names. -/
theorem hasFlags_of_refusal {options : Options} (h : optionsRefusal? options = none) :
    options.HasFlags := by
  unfold optionsRefusal? at h
  simp only [Option.or_eq_none_iff] at h
  obtain ⟨-, -, -, -, hschema, hproperty, hnote⟩ := h
  refine ⟨by simpa using hschema, by simpa using hproperty, fun flag hflag => ?_⟩
  rw [hflag] at hnote
  simpa using hnote

section Marks

variable {options : Options} {fields result : Fields Tag}

theorem markProperty_image (h : options.HasFlags) (note : String) (property : Node) :
    Image property (markProperty options.flags note property) := by
  cases property with
  | map tag fields =>
      have hproperty :
          Image (.map tag fields) (.map tag (fields.insert options.propertyFlag (.ofBool true))) :=
        .flag h.property _
      unfold markProperty
      cases hnote : options.flags.annotation.filter (· ≠ "") with
      | none => exact hproperty
      | some flag =>
          obtain ⟨hflag, -⟩ := Option.filter_eq_some_iff.1 hnote
          exact hproperty.trans (.flag (h.annotation flag hflag) _)
  | _ => exact .refl _

/-- A property that is a list gets no marks. -/
theorem sameList_markProperty (flags : Flags) (note : String) (property : Node) :
    SameList property (markProperty flags note property) := by
  cases property with
  | map tag fields =>
      intro tag' items' heq
      unfold markProperty at heq
      cases hnote : flags.annotation.filter (· ≠ "") with
      | none =>
          rw [hnote] at heq
          cases heq
      | some annotation =>
          rw [hnote] at heq
          cases heq
  | _ => exact .refl _

theorem markComposite_image (h : options.HasFlags) {tag : Tag}
    (hresult : markComposite options.flags fields = some result) :
    Image (.map tag fields) (.map tag result) := by
  unfold markComposite at hresult
  split at hresult
  · cases hresult
    exact .flag h.schema _
  · cases hresult

theorem markGroup_image (h : options.HasFlags) {tag : Tag}
    (hresult : markGroup options.flags fields = some result) :
    Image (.map tag fields) (.map tag result) := by
  unfold markGroup at hresult
  split at hresult
  · rename_i inner properties hget
    split at hresult
    · cases hresult
      have hmarked : Image (.map inner properties)
          (.map inner
            (properties.mapValues (markProperty options.flags (groupNote properties)))) := by
        refine .entries (fun _ => id) ?_
        change List.Forall₂ _ _ (properties.toList.map _)
        rw [List.forall₂_map_right_iff]
        exact List.forall₂_same.2 fun entry _ =>
          ⟨rfl, markProperty_image h _ entry.2, fun _ => sameList_markProperty _ _ entry.2⟩
      exact (Image.put hget (by decide) hmarked).trans (.flag h.schema _)
    · cases hresult
  · cases hresult

theorem markExclusive_image (h : options.HasFlags) (tag : Tag) (fields : Fields Tag) :
    Image (.map tag fields) (.map tag ((markExclusive options.flags fields).getD fields)) := by
  have hcomposite : ∀ fields : Fields Tag,
      Image (.map tag fields) (.map tag ((markComposite options.flags fields).getD fields)) := by
    intro fields
    cases hresult : markComposite options.flags fields with
    | none => exact .refl _
    | some result => exact markComposite_image h hresult
  unfold markExclusive
  cases hgroup : markGroup options.flags fields with
  | none => exact hcomposite fields
  | some tagged => exact (markGroup_image h hgroup).trans (hcomposite tagged)

end Marks

/-! ## Marked documents -/

/-- A node and its replacement.  Only lists that are walked through may change. -/
abbrev ImageIn : Replacement Tag := fun t place _ _ result =>
  Image t result ∧ (place.spread ≠ .elements → SameList t result)

theorem sameList_of_map (tag tag' : Tag) (fields fields' : Fields Tag) :
    SameList (.map tag fields) (.map tag' fields') := fun _ _ heq => nomatch heq

theorem forall₂_of_itemsReplaced {role : Role} {site : Site} {index : Nat}
    {items items' : List Node}
    {around : List Node → Node} (h : ItemsReplaced ImageIn role site items index around items') :
    List.Forall₂ Image items items' := by
  induction h with
  | nil => exact .nil
  | cons himage _ ih => exact .cons himage.1 ih

theorem forall₂_of_entriesReplaced {place : Place} {site : Site}
    {entries entries' : List (Scalar × Node)} {around : List (Scalar × Node) → Node}
    (h : EntriesReplaced ImageIn place site entries around entries') :
    List.Forall₂ EntryImage entries entries' := by
  induction h with
  | nil => exact .nil
  | cons himage _ ih => exact .cons ⟨rfl, himage.1, fun _ => himage.2 nofun⟩ ih

theorem image_of_slotsReplaced {inner : Site} {around : Fields Tag → Node}
    {old fields result : Fields Tag}
    {slots : List Slot} {tag : Tag} (h : SlotsReplaced ImageIn inner around old slots fields result)
    (hnodup : (slots.map Slot.key).Nodup) (hplain : ∀ slot ∈ slots, slot.key ≠ "enum")
    (hsame : ∀ slot ∈ slots, fields.get? slot.key = old.get? slot.key) :
    Image (.map tag fields) (.map tag result) := by
  induction h with
  | nil => exact .refl _
  | absent _ _ ih =>
      rw [List.map_cons, List.nodup_cons] at hnodup
      exact ih hnodup.2 (fun slot hslot => hplain slot (List.mem_cons_of_mem _ hslot))
        fun slot hslot => hsame slot (List.mem_cons_of_mem _ hslot)
  | @present head rest fields result value value' hget himage _ ih =>
      rw [List.map_cons, List.nodup_cons] at hnodup
      have hput : Image (.map tag fields) (.map tag (fields.insert head.key value')) :=
        .put ((hsame head List.mem_cons_self).trans hget) (hplain head List.mem_cons_self) himage.1
      refine hput.trans (ih hnodup.2 (fun slot hslot => hplain slot (List.mem_cons_of_mem _ hslot))
        fun slot hslot => ?_)
      rw [Entries.get?_insert, if_neg, hsame slot (List.mem_cons_of_mem _ hslot)]
      intro heq
      exact hnodup.1 (Entries.text_key_eq_iff.1 heq ▸ List.mem_map_of_mem hslot)

/-- The third phase shows nothing new. -/
theorem markGroups_image {options : Options} (h : options.HasFlags) {document marked : Node}
    (hmarked : markGroups options document = .ok marked) : Image document marked := by
  refine ((show Replaces exceptOutcome _ (fun _ _ _ => True) ImageIn from ?_).holds
    document (.one .document) .root id trivial marked hmarked).1
  exact
    { below := fun _ _ => trivial
      keep := fun _ _ => ⟨.refl _, fun _ => .refl _⟩
      list := fun _ hspread hitems =>
        ⟨.list (fun _ => id) (forall₂_of_itemsReplaced hitems), fun hother => absurd hspread hother⟩
      entries := fun _ _ hentries =>
        ⟨.entries (fun _ => id) (forall₂_of_entriesReplaced hentries),
          fun _ => sameList_of_map _ _ _ _⟩
      part := fun {_ _ place _ _ _} _ _ _ _ hslots =>
        ⟨image_of_slotsReplaced hslots place.role.slots_nodup (fun _ => place.role.slot_key_ne_enum)
          fun _ _ => rfl,
          fun _ => sameList_of_map _ _ _ _⟩
      schema := by
        intro tag fields place site around fields' hook _ _ _ _ hslots result hresult
        have hparts : Image (.map tag fields) (.map tag fields') :=
          image_of_slotsReplaced hslots place.role.slots_nodup
            (fun _ => place.role.slot_key_ne_enum) fun _ _ => rfl
        split at hresult
        · cases hresult
        · cases hresult
          exact ⟨hparts.trans (markExclusive_image h tag fields'),
            fun _ => sameList_of_map _ _ _ _⟩ }

end ProtoShape
