import ProtoShape.Proofs.Entries
import ProtoShape.Reference

/-!
# The parts of a tree

`Tree.induction` proves a fact about all trees from the items of a list and the
entries of a mapping; every later induction on a tree goes through it.

`subtrees` lists all nodes of a tree, and `Everywhere` says that a property holds
of the fields of every mapping among them.  Two such properties describe the
documents that the phases are made for.

* `IsJson`: every mapping is an object, so all its keys are texts and distinct.
* `HasPlainMembers`: no member of an `allOf`, `anyOf` or `oneOf` carries a `$ref`
  that is no text.  Such a member would turn a reference back into a schema when
  it is merged.
-/

namespace ProtoShape

/-! ## References -/

namespace Fields

variable {τ : Type} {fields other : Fields τ}

/-- Whether a mapping is a reference depends on its `$ref` alone. -/
theorem isReference_congr (h : other.get? "$ref" = fields.get? "$ref") :
    isReference other = isReference fields := by
  unfold isReference ref? text?
  rw [h]

theorem isReference_insert {key : String} (hkey : key ≠ "$ref") (value : Tree τ) :
    isReference (fields.insert key value) = isReference fields := by
  refine isReference_congr ?_
  rw [Entries.get?_insert, if_neg]
  simpa using fun h => hkey h.symm

theorem isReference_erase {key : String} (hkey : key ≠ "$ref") :
    isReference (fields.erase key) = isReference fields := by
  refine isReference_congr ?_
  rw [Entries.get?_erase, if_neg]
  simpa using fun h => hkey h.symm

/-- The items of a keyword are those of the list that it holds. -/
theorem items?_eq_some_iff {key : String} {items : List (Tree τ)} :
    items? fields key = some items ↔ ∃ tag, fields.get? key = some (.list tag items) := by
  unfold items?
  rw [Option.bind_eq_some_iff]
  constructor
  · rintro ⟨value, hget, hitems⟩
    cases value with
    | list tag items' =>
        obtain rfl : items' = items := by simpa [Tree.items?] using hitems
        exact ⟨tag, hget⟩
    | _ => simp [Tree.items?] at hitems
  · rintro ⟨tag, hget⟩
    exact ⟨_, hget, rfl⟩

/-- The fields that a keyword holds are those of the mapping there. -/
theorem map?_eq_some_iff {key : String} {inner : Fields τ} :
    map? fields key = some inner ↔ ∃ tag, fields.get? key = some (.map tag inner) := by
  unfold map?
  rw [Option.bind_eq_some_iff]
  constructor
  · rintro ⟨value, hget, hfields⟩
    cases value with
    | map tag inner' =>
        obtain rfl : inner' = inner := by simpa [Tree.fields?] using hfields
        exact ⟨tag, hget⟩
    | _ => simp [Tree.fields?] at hfields
  · rintro ⟨tag, hget⟩
    exact ⟨_, hget, rfl⟩

/-- The fields with a function applied to every tag. -/
def mapTags {σ : Type} (f : τ → σ) (fields : Fields τ) : Fields σ :=
  Entries.mapValues (Tree.mapTags f) fields

end Fields

namespace Tree

variable {τ σ : Type}

/-- The scalar of a leaf. -/
def scalar? : Tree τ → Option Scalar
  | scalar _ s => some s
  | _ => none

/-- A fact holds of all trees if every tree inherits it from its parts. -/
@[elab_as_elim]
theorem induction {motive : Tree τ → Prop}
    (scalar : ∀ tag s, motive (.scalar tag s))
    (list : ∀ tag items, (∀ item ∈ items, motive item) → motive (.list tag items))
    (map : ∀ tag (fields : Fields τ), (∀ entry ∈ fields.toList, motive entry.2) →
      motive (.map tag fields)) (t : Tree τ) : motive t :=
  match t with
  | .scalar tag s => scalar tag s
  | .list tag items => list tag items fun item _ => induction scalar list map item
  | .map tag ⟨entries⟩ => map tag ⟨entries⟩ fun entry _ => induction scalar list map entry.2
termination_by sizeOf t
decreasing_by
  · have hlt := List.sizeOf_lt_of_mem ‹item ∈ items›
    simp only [Tree.list.sizeOf_spec]
    omega
  · have hlt := List.sizeOf_lt_of_mem ‹entry ∈ _›
    obtain ⟨key, value⟩ := entry
    simp only [Prod.mk.sizeOf_spec, Tree.map.sizeOf_spec, Entries.mk.sizeOf_spec] at *
    omega

/-! ## All nodes of a tree -/

mutual
/-- The nodes at and below a tree, in the order in which it is written. -/
def subtrees : Tree τ → List (Tree τ)
  | scalar tag s => [scalar tag s]
  | list tag items => list tag items :: subtreesOfItems items
  | map tag ⟨entries⟩ => map tag ⟨entries⟩ :: subtreesOfEntries entries

/-- `subtrees` of the items of a list. -/
def subtreesOfItems : List (Tree τ) → List (Tree τ)
  | [] => []
  | item :: rest => subtrees item ++ subtreesOfItems rest

/-- `subtrees` of the values of a mapping. -/
def subtreesOfEntries : List (Scalar × Tree τ) → List (Tree τ)
  | [] => []
  | (_, value) :: rest => subtrees value ++ subtreesOfEntries rest
end

theorem subtreesOfItems_eq (items : List (Tree τ)) :
    subtreesOfItems items = items.flatMap subtrees := by
  induction items with
  | nil => rfl
  | cons item rest ih => simp [subtreesOfItems, ih]

theorem subtreesOfEntries_eq (entries : List (Scalar × Tree τ)) :
    subtreesOfEntries entries = entries.flatMap fun entry => subtrees entry.2 := by
  induction entries with
  | nil => rfl
  | cons entry rest ih => simp [subtreesOfEntries, ih]

@[simp] theorem subtrees_scalar (tag : τ) (s : Scalar) :
    subtrees (.scalar tag s) = [.scalar tag s] := by
  simp [subtrees]

@[simp] theorem subtrees_list (tag : τ) (items : List (Tree τ)) :
    subtrees (.list tag items) = .list tag items :: items.flatMap subtrees := by
  simp [subtrees, subtreesOfItems_eq]

@[simp] theorem subtrees_map (tag : τ) (fields : Fields τ) :
    subtrees (.map tag fields) =
      .map tag fields :: fields.toList.flatMap fun entry => subtrees entry.2 := by
  obtain ⟨entries⟩ := fields
  simp [subtrees, subtreesOfEntries_eq]

theorem self_mem_subtrees (t : Tree τ) : t ∈ t.subtrees := by
  cases t <;> simp

theorem mem_subtrees_trans {s t u : Tree τ} (h : s ∈ t.subtrees) (h' : t ∈ u.subtrees) :
    s ∈ u.subtrees := by
  induction u using Tree.induction with
  | scalar tag v =>
      obtain rfl : t = .scalar tag v := by simpa using h'
      exact h
  | list tag items ih =>
      simp only [subtrees_list, List.mem_cons, List.mem_flatMap] at h' ⊢
      rcases h' with rfl | ⟨item, hitem, hin⟩
      · simpa using h
      · exact Or.inr ⟨item, hitem, ih item hitem hin⟩
  | map tag fields ih =>
      simp only [subtrees_map, List.mem_cons, List.mem_flatMap] at h' ⊢
      rcases h' with rfl | ⟨entry, hentry, hin⟩
      · simpa using h
      · exact Or.inr ⟨entry, hentry, ih entry hentry hin⟩

/-! ## Properties of all mappings -/

/-- A property holds of the fields of every mapping at or below a tree. -/
def Everywhere (p : Fields τ → Prop) (t : Tree τ) : Prop :=
  ∀ fields ∈ t.subtrees.filterMap Tree.fields?, p fields

instance (p : Fields τ → Prop) [DecidablePred p] (t : Tree τ) : Decidable (t.Everywhere p) :=
  inferInstanceAs (Decidable (∀ fields ∈ t.subtrees.filterMap Tree.fields?, p fields))

variable {p q : Fields τ → Prop}

@[simp] theorem everywhere_scalar (tag : τ) (s : Scalar) : (scalar tag s).Everywhere p := by
  simp [Everywhere, fields?]

@[simp] theorem everywhere_list (tag : τ) (items : List (Tree τ)) :
    (list tag items).Everywhere p ↔ ∀ item ∈ items, item.Everywhere p := by
  simp only [Everywhere, subtrees_list, List.filterMap_cons, fields?, List.mem_filterMap,
    List.mem_flatMap]
  constructor
  · rintro h item hitem fields ⟨s, hs, hfields⟩
    exact h fields ⟨s, ⟨item, hitem, hs⟩, hfields⟩
  · rintro h fields ⟨s, ⟨item, hitem, hs⟩, hfields⟩
    exact h item hitem fields ⟨s, hs, hfields⟩

theorem everywhere_map (tag : τ) (fields : Fields τ) :
    (map tag fields).Everywhere p ↔
      p fields ∧ ∀ entry ∈ fields.toList, entry.2.Everywhere p := by
  simp only [Everywhere, subtrees_map, List.filterMap_cons, fields?, List.mem_cons,
    List.mem_filterMap, List.mem_flatMap, forall_eq_or_imp]
  refine and_congr_right fun _ => ?_
  constructor
  · rintro h entry hentry inner ⟨s, hs, hinner⟩
    exact h inner ⟨s, ⟨entry, hentry, hs⟩, hinner⟩
  · rintro h inner ⟨s, ⟨entry, hentry, hs⟩, hinner⟩
    exact h entry hentry inner ⟨s, hs, hinner⟩

/-- In an object the values below are those that its keys lead to. -/
theorem everywhere_object {tag : τ} {fields : Fields τ} (h : fields.IsObject) :
    (map tag fields).Everywhere p ↔ p fields ∧ fields.Each fun _ value => value.Everywhere p := by
  rw [everywhere_map, h.each_iff]

theorem Everywhere.mono {t : Tree τ} (h : t.Everywhere p) (hpq : ∀ fields, p fields → q fields) :
    t.Everywhere q :=
  fun fields hmem => hpq fields (h fields hmem)

theorem Everywhere.of_mem_subtrees {s t : Tree τ} (h : t.Everywhere p) (hmem : s ∈ t.subtrees) :
    s.Everywhere p := by
  intro fields hfields
  obtain ⟨u, hu, hof⟩ := List.mem_filterMap.1 hfields
  exact h fields (List.mem_filterMap.2 ⟨u, mem_subtrees_trans hu hmem, hof⟩)

/-- Every mapping at or below a tree is an object, as in a JSON document. -/
def IsJson (t : Tree τ) : Prop := t.Everywhere Entries.IsObject

instance (t : Tree τ) : Decidable t.IsJson :=
  inferInstanceAs (Decidable (t.Everywhere Entries.IsObject))

/-- Every key at or below a tree is a text. -/
def HasTextKeys (t : Tree τ) : Prop := t.Everywhere fun fields => fields.hasTextKeys = true

instance (t : Tree τ) : Decidable t.HasTextKeys :=
  inferInstanceAs (Decidable (t.Everywhere fun fields => fields.hasTextKeys = true))

theorem IsJson.hasTextKeys {t : Tree τ} (h : t.IsJson) : t.HasTextKeys :=
  h.mono fun _ hobject => hobject.1

/-- Whether a node carries no `$ref` that is no text. -/
def hasPlainRef (t : Tree τ) : Bool :=
  match t.fields? with
  | some fields =>
      match fields.get? "$ref" with
      | some ref => ref.text?.isSome
      | none => true
  | none => true

/-- No member of a composite of these fields carries a `$ref` that is no text. -/
def PlainMembers (fields : Fields τ) : Prop :=
  ∀ key ∈ ["allOf", "anyOf", "oneOf"], ∀ member ∈ (Fields.items? fields key).getD [],
    member.hasPlainRef = true

instance (fields : Fields τ) : Decidable (PlainMembers fields) :=
  inferInstanceAs (Decidable (∀ key ∈ ["allOf", "anyOf", "oneOf"],
    ∀ member ∈ (Fields.items? fields key).getD [], member.hasPlainRef = true))

/-- No member of an `allOf`, `anyOf` or `oneOf` at or below a tree carries a `$ref`
that is no text. -/
def HasPlainMembers (t : Tree τ) : Prop := t.Everywhere PlainMembers

instance (t : Tree τ) : Decidable t.HasPlainMembers :=
  inferInstanceAs (Decidable (t.Everywhere PlainMembers))

/-! ## Keys and leaves -/

theorem anyScalarItems_eq (p : Scalar → Bool) (items : List (Tree τ)) :
    anyScalarItems p items = items.any (anyScalar p) := by
  induction items with
  | nil => rfl
  | cons item rest ih => simp [anyScalarItems, ih]

theorem anyScalarEntries_eq (p : Scalar → Bool) (entries : List (Scalar × Tree τ)) :
    anyScalarEntries p entries = entries.any fun entry => p entry.1 || anyScalar p entry.2 := by
  induction entries with
  | nil => rfl
  | cons entry rest ih => simp [anyScalarEntries, ih]

@[simp] theorem anyScalar_scalar (p : Scalar → Bool) (tag : τ) (s : Scalar) :
    (scalar tag s).anyScalar p = p s := by
  simp [anyScalar]

@[simp] theorem anyScalar_list (p : Scalar → Bool) (tag : τ) (items : List (Tree τ)) :
    (list tag items).anyScalar p = items.any (anyScalar p) := by
  simp [anyScalar, anyScalarItems_eq]

@[simp] theorem anyScalar_map (p : Scalar → Bool) (tag : τ) (fields : Fields τ) :
    (map tag fields).anyScalar p = fields.toList.any fun entry =>
      p entry.1 || anyScalar p entry.2 := by
  obtain ⟨entries⟩ := fields
  simp [anyScalar, anyScalarEntries_eq]

/-- What stands somewhere in a part stands somewhere in the whole. -/
theorem anyScalar_of_mem_subtrees {p : Scalar → Bool} {s t : Tree τ} (hmem : s ∈ t.subtrees)
    (h : s.anyScalar p = true) : t.anyScalar p = true := by
  induction t using Tree.induction with
  | scalar tag v =>
      obtain rfl : s = .scalar tag v := by simpa using hmem
      exact h
  | list tag items ih =>
      rw [subtrees_list] at hmem
      rcases List.mem_cons.1 hmem with rfl | hbelow
      · exact h
      · obtain ⟨item, hitem, hin⟩ := List.mem_flatMap.1 hbelow
        rw [anyScalar_list]
        exact List.any_eq_true.2 ⟨item, hitem, ih item hitem hin⟩
  | map tag fields ih =>
      rw [subtrees_map] at hmem
      rcases List.mem_cons.1 hmem with rfl | hbelow
      · exact h
      · obtain ⟨entry, hentry, hin⟩ := List.mem_flatMap.1 hbelow
        rw [anyScalar_map]
        exact List.any_eq_true.2 ⟨entry, hentry, by rw [ih entry hentry hin, Bool.or_true]⟩

/-! ## Tags -/

theorem mapTagsItems_eq (f : τ → σ) (items : List (Tree τ)) :
    mapTagsItems f items = items.map (mapTags f) := by
  induction items with
  | nil => rfl
  | cons item rest ih => simp [mapTagsItems, ih]

theorem mapTagsEntries_eq (f : τ → σ) (entries : List (Scalar × Tree τ)) :
    mapTagsEntries f entries = entries.map fun entry => (entry.1, entry.2.mapTags f) := by
  induction entries with
  | nil => rfl
  | cons entry rest ih => simp [mapTagsEntries, ih]

@[simp] theorem mapTags_scalar (f : τ → σ) (tag : τ) (s : Scalar) :
    (scalar tag s).mapTags f = .scalar (f tag) s := by
  simp [mapTags]

@[simp] theorem mapTags_list (f : τ → σ) (tag : τ) (items : List (Tree τ)) :
    (list tag items).mapTags f = .list (f tag) (items.map (mapTags f)) := by
  simp [mapTags, mapTagsItems_eq]

@[simp] theorem mapTags_map (f : τ → σ) (tag : τ) (fields : Fields τ) :
    (map tag fields).mapTags f = .map (f tag) (Fields.mapTags f fields) := by
  obtain ⟨entries⟩ := fields
  simp [mapTags, mapTagsEntries_eq, Fields.mapTags, Entries.mapValues]

/-- Keys and leaves carry no tags. -/
@[simp] theorem anyScalar_mapTags (p : Scalar → Bool) (f : τ → σ) (t : Tree τ) :
    (t.mapTags f).anyScalar p = t.anyScalar p := by
  induction t using Tree.induction with
  | scalar tag s => simp
  | list tag items ih =>
      rw [mapTags_list, anyScalar_list, anyScalar_list, List.any_map, Bool.eq_iff_iff,
        List.any_eq_true, List.any_eq_true]
      exact exists_congr fun item => and_congr_right fun hitem => by
        rw [Function.comp_apply, ih item hitem]
  | map tag fields ih =>
      rw [mapTags_map, anyScalar_map, anyScalar_map, Fields.mapTags, Entries.mapValues,
        List.any_map, Bool.eq_iff_iff, List.any_eq_true, List.any_eq_true]
      exact exists_congr fun entry => and_congr_right fun hentry => by
        rw [Function.comp_apply, ih entry hentry]

end Tree

end ProtoShape
