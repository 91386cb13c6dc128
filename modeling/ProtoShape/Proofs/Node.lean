import Mathlib.Algebra.Order.BigOperators.Group.List
import Mathlib.Algebra.Order.Group.Nat
import ProtoShape.Node
import ProtoShape.Proofs.Paths
import ProtoShape.Proofs.Tags

/-!
# Numbered nodes

Three things are done by number, and each is said on the list of tags.

* `Node.number` fills the gaps among the tags from the next number on and keeps the
  value of the tree (`number_numbers`).
* `Node.find?` comes to the node with a number, which is the only one where the number
  is used once (`find?_of_mem`).
* `Node.modify` replaces the node with a number and keeps all else (`uses_modify_le`).
  Numbering afterwards only numbers what has been put in (`number_modify`).

`uses n` counts the nodes with the number `n`.
-/

namespace ProtoShape

namespace Node

/-- The tags with the gaps filled by the numbers from `next` on. -/
def numbered : List Tag → Nat → List Tag
  | [], _ => []
  | some n :: rest, next => some n :: numbered rest next
  | none :: rest, next => some next :: numbered rest (next + 1)

/-- The number of gaps. -/
def gaps (tags : List Tag) : Nat := tags.count none

@[simp] theorem gaps_cons_some (n : Nat) (tags : List Tag) : gaps (some n :: tags) = gaps tags := by
  simp [gaps]

@[simp] theorem gaps_cons_none (tags : List Tag) : gaps (none :: tags) = gaps tags + 1 := by
  simp [gaps]

@[simp] theorem gaps_append (tags more : List Tag) :
    gaps (tags ++ more) = gaps tags + gaps more := by
  simp [gaps]

theorem numbered_append (tags more : List Tag) (next : Nat) :
    numbered (tags ++ more) next = numbered tags next ++ numbered more (next + gaps tags) := by
  induction tags generalizing next with
  | nil => rfl
  | cons tag rest ih =>
      cases tag with
      | some n => simp [numbered, ih]
      | none =>
          simp only [List.cons_append, numbered, ih, gaps_cons_none]
          rw [Nat.add_assoc, Nat.add_comm 1]

/-- What numbering makes of a tree. -/
structure Numbers (t : Node) (next : Nat) (result : Node × Nat) : Prop where
  erase : result.1.erase = t.erase
  tags : result.1.tags = numbered t.tags next
  next : result.2 = next + gaps t.tags

theorem numberItems_numbers {items : List Node} (h : ∀ item ∈ items, ∀ next,
      Numbers item next (number item next)) (next : Nat) :
    (numberItems items next).1.map Tree.erase = items.map Tree.erase ∧
      (numberItems items next).1.flatMap Tree.tags = numbered (items.flatMap Tree.tags) next ∧
      (numberItems items next).2 = next + gaps (items.flatMap Tree.tags) := by
  induction items generalizing next with
  | nil => exact ⟨rfl, rfl, rfl⟩
  | cons item rest ih =>
      obtain ⟨herase, htags, hnext⟩ := h item List.mem_cons_self next
      obtain ⟨hrest, hrestTags, hrestNext⟩ :=
        ih (fun item hitem => h item (List.mem_cons_of_mem _ hitem)) (next + gaps item.tags)
      refine ⟨?_, ?_, ?_⟩
      · simp only [numberItems, List.map_cons, herase, hnext, hrest]
      · simp only [numberItems, List.flatMap_cons, htags, hnext, hrestTags, numbered_append]
      · simp only [numberItems, List.flatMap_cons, hnext, hrestNext, gaps_append, Nat.add_assoc]

theorem numberEntries_numbers {entries : List (Scalar × Node)} (h : ∀ entry ∈ entries, ∀ next,
      Numbers entry.2 next (number entry.2 next)) (next : Nat) :
    (numberEntries entries next).1.map (fun entry => (entry.1, entry.2.erase)) =
        entries.map (fun entry => (entry.1, entry.2.erase)) ∧
      (numberEntries entries next).1.flatMap (fun entry => entry.2.tags) =
        numbered (entries.flatMap fun entry => entry.2.tags) next ∧
      (numberEntries entries next).2 = next + gaps (entries.flatMap fun entry => entry.2.tags) := by
  induction entries generalizing next with
  | nil => exact ⟨rfl, rfl, rfl⟩
  | cons entry rest ih =>
      obtain ⟨key, value⟩ := entry
      obtain ⟨herase, htags, hnext⟩ := h (key, value) List.mem_cons_self next
      simp only at herase htags hnext
      obtain ⟨hrest, hrestTags, hrestNext⟩ :=
        ih (fun entry hentry => h entry (List.mem_cons_of_mem _ hentry)) (next + gaps value.tags)
      refine ⟨?_, ?_, ?_⟩
      · simp only [numberEntries, List.map_cons, herase, hnext, hrest]
      · simp only [numberEntries, List.flatMap_cons, htags, hnext, hrestTags, numbered_append]
      · simp only [numberEntries, List.flatMap_cons, hnext, hrestNext, gaps_append, Nat.add_assoc]

/-- Numbering keeps the value and fills the gaps among the tags. -/
theorem number_numbers (t : Node) (next : Nat) : Numbers t next (number t next) := by
  induction t using Tree.induction generalizing next with
  | scalar tag s =>
      cases tag <;>
        exact ⟨by simp [number, Tree.erase], by simp [number, numbered], by simp [number, gaps]⟩
  | list tag items ih =>
      cases tag with
      | some n =>
          obtain ⟨herase, htags, hnext⟩ := numberItems_numbers ih next
          refine ⟨?_, ?_, ?_⟩
          · simp [number, herase]
          · simp [number, numbered, htags]
          · simp [number, hnext]
      | none =>
          obtain ⟨herase, htags, hnext⟩ := numberItems_numbers ih (next + 1)
          refine ⟨?_, ?_, ?_⟩
          · simp [number, herase]
          · simp [number, numbered, htags]
          · simp [number, hnext]
            omega
  | map tag fields ih =>
      obtain ⟨entries⟩ := fields
      cases tag with
      | some n =>
          obtain ⟨herase, htags, hnext⟩ := numberEntries_numbers ih next
          refine ⟨?_, ?_, ?_⟩
          · simpa [number, Fields.mapTags, Entries.mapValues, Tree.erase] using herase
          · simp [number, numbered, htags]
          · simp [number, hnext]
      | none =>
          obtain ⟨herase, htags, hnext⟩ := numberEntries_numbers ih (next + 1)
          refine ⟨?_, ?_, ?_⟩
          · simpa [number, Fields.mapTags, Entries.mapValues, Tree.erase] using herase
          · simp [number, numbered, htags]
          · rw [Tree.tags_map, gaps_cons_none, Nat.add_comm _ 1, ← Nat.add_assoc, ← hnext]
            rfl

/-! ## How often a number is used -/

/-- The number of nodes with a number. -/
def uses (n : Nat) (t : Node) : Nat := t.tags.count (some n)

theorem uses_eq (n : Nat) (t : Node) :
    uses n t = (if t.tag = some n then 1 else 0) + (t.children.map (uses n)).sum := by
  have hcount : ∀ l : List Node, (l.flatMap Tree.tags).count (some n) = (l.map (uses n)).sum := by
    intro l
    rw [List.count_flatMap]
    rfl
  rw [uses, Tree.tags_eq, List.count_cons, hcount, Nat.add_comm]
  simp

@[simp] theorem uses_scalar (n : Nat) (tag : Tag) (s : Scalar) :
    uses n (.scalar tag s) = if tag = some n then 1 else 0 := by
  rw [uses_eq]
  rfl

@[simp] theorem uses_list (n : Nat) (tag : Tag) (items : List Node) :
    uses n (.list tag items) = (if tag = some n then 1 else 0) + (items.map (uses n)).sum :=
  uses_eq n (.list tag items)

@[simp] theorem uses_map (n : Nat) (tag : Tag) (fields : Fields Tag) :
    uses n (.map tag fields) = (if tag = some n then 1 else 0) + fields.total (uses n) := by
  rw [uses_eq, Tree.children_map, Entries.values, List.map_map]
  rfl

theorem count_numbered {tags : List Tag} {next n : Nat} (h : ∀ m, some m ∈ tags → m < next) :
    (numbered tags next).count (some n) =
      tags.count (some n) + if next ≤ n ∧ n < next + gaps tags then 1 else 0 := by
  induction tags generalizing next with
  | nil =>
      have hnone : ¬(next ≤ n ∧ n < next) := by omega
      simp [numbered, gaps, hnone]
  | cons tag rest ih =>
      cases tag with
      | some m =>
          have hrest := ih fun m hm => h m (List.mem_cons_of_mem _ hm)
          simp only [numbered, List.count_cons, hrest, gaps_cons_some]
          omega
      | none =>
          have hrest := @ih (next + 1) fun m hm => by
            have hlt := h m (List.mem_cons_of_mem _ hm)
            omega
          simp only [numbered, List.count_cons, hrest, gaps_cons_none]
          by_cases heq : next = n
          · subst heq
            simp
          · have hiff : next ≤ n ∧ n < next + (gaps rest + 1) ↔
                next + 1 ≤ n ∧ n < next + 1 + gaps rest := by omega
            simp [heq, hiff]

theorem gaps_numbered (tags : List Tag) (next : Nat) : gaps (numbered tags next) = 0 := by
  induction tags generalizing next with
  | nil => rfl
  | cons tag rest ih => cases tag <;> simp [numbered, ih]

theorem uses_eq_zero_iff {n : Nat} {t : Node} : uses n t = 0 ↔ some n ∉ t.tags :=
  List.count_eq_zero

/-- Numbering uses each new number once. -/
theorem uses_number {t : Node} {next : Nat} (h : ∀ n, next ≤ n → uses n t = 0) (n : Nat) :
    uses n (number t next).1 =
      uses n t + if next ≤ n ∧ n < next + gaps t.tags then 1 else 0 := by
  rw [uses, (number_numbers t next).tags, count_numbered, uses]
  intro m hm
  by_contra hge
  exact uses_eq_zero_iff.1 (h m (by omega)) hm

/-- A node has its own number. -/
theorem uses_pos {n : Nat} {t u : Node} (hmem : u ∈ t.subtrees) (htag : u.tag = some n) :
    0 < uses n t :=
  List.count_pos_iff.2 (htag ▸ Tree.tag_mem_tags hmem)

/-- A number that a part uses is used as often by the whole, at least. -/
theorem uses_le_of_mem {n : Nat} {t u : Node} (hmem : u ∈ t.subtrees) : uses n u ≤ uses n t :=
  (Tree.tags_sublist hmem).count_le (some n)

/-! ## Nodes by number -/

theorem findItems?_eq (n : Nat) (items : List Node) :
    findItems? n items = items.findSome? (find? n) := by
  induction items with
  | nil => rfl
  | cons item rest ih => cases h : find? n item <;> simp [findItems?, ih, h]

theorem findEntries?_eq (n : Nat) (entries : List (Scalar × Node)) :
    findEntries? n entries = (entries.map (·.2)).findSome? (find? n) := by
  induction entries with
  | nil => rfl
  | cons entry rest ih =>
      obtain ⟨key, value⟩ := entry
      cases h : find? n value <;> simp [findEntries?, ih, h]

theorem find?_eq (n : Nat) (t : Node) :
    find? n t = if t.tag = some n then some t else t.children.findSome? (find? n) := by
  by_cases h : t.tag = some n
  · rw [if_pos h]
    cases t <;> exact if_pos h
  · rw [if_neg h]
    cases t with
    | scalar tag s => exact if_neg h
    | list tag items => exact (if_neg h).trans (findItems?_eq n items)
    | map tag fields => exact (if_neg h).trans (findEntries?_eq n fields.toList)

theorem find?_mem {n : Nat} {t u : Node} (h : find? n t = some u) :
    u ∈ t.subtrees ∧ u.tag = some n := by
  induction t using Tree.children_induction with
  | step t ih =>
      rw [find?_eq] at h
      rw [Tree.subtrees_eq]
      split at h
      · rename_i htag
        obtain rfl : t = u := by simpa using h
        exact ⟨List.mem_cons_self, htag⟩
      · obtain ⟨child, hchild, hfind⟩ := List.exists_of_findSome?_eq_some h
        obtain ⟨hmem, htag⟩ := ih child hchild hfind
        exact ⟨List.mem_cons_of_mem _ (List.mem_flatMap.2 ⟨child, hchild, hmem⟩), htag⟩

theorem exists_find? {n : Nat} {t u : Node} (hmem : u ∈ t.subtrees) (htag : u.tag = some n) :
    ∃ v, find? n t = some v := by
  induction t using Tree.children_induction with
  | step t ih =>
      rw [find?_eq]
      by_cases h : t.tag = some n
      · exact ⟨t, if_pos h⟩
      · rw [if_neg h]
        rw [Tree.subtrees_eq] at hmem
        rcases List.mem_cons.1 hmem with rfl | hbelow
        · exact absurd htag h
        · obtain ⟨child, hchild, hin⟩ := List.mem_flatMap.1 hbelow
          obtain ⟨v, hv⟩ := ih child hchild hin
          exact Option.isSome_iff_exists.1
            (List.findSome?_isSome_iff.2 ⟨child, hchild, by simp [hv]⟩)

/-- Where numbers are distinct, a number leads to its node. -/
theorem find?_of_mem {n : Nat} {t u : Node} (hdistinct : t.tags.Nodup) (hmem : u ∈ t.subtrees)
    (htag : u.tag = some n) : find? n t = some u := by
  obtain ⟨v, hv⟩ := exists_find? hmem htag
  obtain ⟨hmem', htag'⟩ := find?_mem hv
  obtain ⟨path, hpath⟩ := Tree.exists_path hmem
  obtain ⟨path', hpath'⟩ := Tree.exists_path hmem'
  obtain rfl := Tree.path_unique hdistinct hpath hpath' (htag.trans htag'.symm)
  rw [hv, ← hpath, ← hpath']

/-! ## Replacing a node -/

theorem modifyItems_eq (n : Nat) (f : Node → Node) (items : List Node) :
    modifyItems n f items = items.map (modify n f) := by
  induction items with
  | nil => rfl
  | cons item rest ih => simp [modifyItems, ih]

theorem modifyEntries_eq (n : Nat) (f : Node → Node) (entries : List (Scalar × Node)) :
    modifyEntries n f entries = entries.map fun entry => (entry.1, modify n f entry.2) := by
  induction entries with
  | nil => rfl
  | cons entry rest ih => simp [modifyEntries, ih]

variable {n : Nat} {f : Node → Node}

theorem modify_self {t : Node} (h : t.tag = some n) : modify n f t = f t := by
  cases t <;> exact if_pos h

theorem modify_of_ne {t : Node} (h : t.tag ≠ some n) :
    modify n f t = t.mapChildren (modify n f) := by
  cases t with
  | scalar tag s => exact if_neg h
  | list tag items => exact (if_neg h).trans (congrArg (Tree.list tag) (modifyItems_eq n f items))
  | map tag fields =>
      exact (if_neg h).trans (congrArg (fun entries => Tree.map tag ⟨entries⟩)
        (modifyEntries_eq n f fields.toList))

/-- A node that is replaced brings in no number more often than it was used. -/
theorem uses_modify_le {t : Node} {m : Nat}
    (h : ∀ u ∈ t.subtrees, u.tag = some n → uses m (f u) ≤ uses m u) :
    uses m (modify n f t) ≤ uses m t := by
  induction t using Tree.children_induction with
  | step t ih =>
      by_cases htag : t.tag = some n
      · rw [modify_self htag]
        exact h t (Tree.self_mem_subtrees t) htag
      · rw [modify_of_ne htag, uses_eq, uses_eq m t, Tree.tag_mapChildren,
          Tree.children_mapChildren, List.map_map]
        refine Nat.add_le_add_left (List.sum_le_sum fun child hchild => ?_) _
        exact ih child hchild fun u hu => h u (Tree.mem_subtrees_of_child hchild hu)

/-- To replace a node by itself changes nothing. -/
theorem modify_eq_self {t : Node} (h : ∀ u ∈ t.subtrees, u.tag = some n → f u = u) :
    modify n f t = t := by
  induction t using Tree.children_induction with
  | step t ih =>
      by_cases htag : t.tag = some n
      · rw [modify_self htag]
        exact h t (Tree.self_mem_subtrees t) htag
      · rw [modify_of_ne htag]
        exact Tree.mapChildren_eq_self fun child hchild =>
          ih child hchild fun u hu => h u (Tree.mem_subtrees_of_child hchild hu)

/-- Where the number is not used, there is nothing to replace. -/
theorem modify_of_uses_eq_zero {t : Node} (h : uses n t = 0) : modify n f t = t :=
  modify_eq_self fun _ hu htag => absurd h (uses_pos hu htag).ne'

/-! ## The nodes after a change -/

theorem children_numberItems {items : List Node} {next : Nat} {item' : Node}
    (h : item' ∈ (numberItems items next).1) :
    ∃ item ∈ items, ∃ k, next ≤ k ∧ item' = (number item k).1 := by
  induction items generalizing next with
  | nil => simp [numberItems] at h
  | cons item rest ih =>
      have hnext := (number_numbers item next).next
      rcases List.mem_cons.1 h with rfl | hrest
      · exact ⟨item, List.mem_cons_self, next, Nat.le_refl _, rfl⟩
      · obtain ⟨old, hold, k, hk, rfl⟩ := ih hrest
        exact ⟨old, List.mem_cons_of_mem _ hold, k, by omega, rfl⟩

theorem children_numberEntries {entries : List (Scalar × Node)} {next : Nat}
    {entry' : Scalar × Node} (h : entry' ∈ (numberEntries entries next).1) :
    ∃ entry ∈ entries, ∃ k, next ≤ k ∧ entry' = (entry.1, (number entry.2 k).1) := by
  induction entries generalizing next with
  | nil => simp [numberEntries] at h
  | cons entry rest ih =>
      obtain ⟨key, value⟩ := entry
      have hnext := (number_numbers value next).next
      rcases List.mem_cons.1 h with rfl | hrest
      · exact ⟨(key, value), List.mem_cons_self, next, Nat.le_refl _, rfl⟩
      · obtain ⟨old, hold, k, hk, rfl⟩ := ih hrest
        exact ⟨old, List.mem_cons_of_mem _ hold, k, by omega, rfl⟩

theorem lookup_numberEntries (entries : List (Scalar × Node)) (next : Nat) (key : Scalar) :
    ∃ k, next ≤ k ∧ Entries.lookup (numberEntries entries next).1 key =
      (Entries.lookup entries key).map fun value => (number value k).1 := by
  induction entries generalizing next with
  | nil => exact ⟨next, Nat.le_refl _, rfl⟩
  | cons entry rest ih =>
      obtain ⟨k, v⟩ := entry
      by_cases hkey : k.key = key.key
      · exact ⟨next, Nat.le_refl _, by simp [numberEntries, Entries.lookup, hkey]⟩
      · have hnext := (number_numbers v next).next
        obtain ⟨start, hstart, hrest⟩ := ih (number v next).2
        exact ⟨start, by omega, by simpa [numberEntries, Entries.lookup, hkey] using hrest⟩

/-- A node is another one with the gaps filled by numbers from `next` on. -/
def FilledFrom (next : Nat) (old new : Node) : Prop := ∃ k, next ≤ k ∧ new = (number old k).1

/-- What becomes of the fields of a mapping that is numbered. -/
structure FieldsFilled (next : Nat) (fields fields' : Fields Tag) : Prop where
  get? : ∀ key, ∃ k, next ≤ k ∧
    fields'.get? key = (fields.get? key).map fun value => (number value k).1
  entries : ∀ entry' ∈ fields'.toList, ∃ entry ∈ fields.toList, entry'.1 = entry.1 ∧
    FilledFrom next entry.2 entry'.2

/-- Numbering a mapping numbers the values of its keys. -/
theorem number_map (tag : Tag) (fields : Fields Tag) (next : Nat) :
    ∃ (tag' : Tag) (fields' : Fields Tag), (number (.map tag fields) next).1 = .map tag' fields' ∧
      FieldsFilled next fields fields' := by
  have hfilled : ∀ start, next ≤ start →
      FieldsFilled next fields ⟨(numberEntries fields.toList start).1⟩ := by
    intro start hstart
    refine ⟨fun key => ?_, fun entry' hentry' => ?_⟩
    · obtain ⟨k, hk, hget⟩ := lookup_numberEntries fields.toList start key
      exact ⟨k, by omega, hget⟩
    · obtain ⟨entry, hentry, k, hk, rfl⟩ := children_numberEntries hentry'
      exact ⟨entry, hentry, rfl, k, by omega, rfl⟩
  cases tag with
  | some n => exact ⟨some n, _, rfl, hfilled next (Nat.le_refl _)⟩
  | none => exact ⟨some next, _, rfl, hfilled (next + 1) (Nat.le_succ _)⟩

/-- Numbering a list numbers its items. -/
theorem number_list (tag : Tag) (items : List Node) (next : Nat) :
    ∃ (tag' : Tag) (items' : List Node), (number (.list tag items) next).1 = .list tag' items' ∧
      ∀ item' ∈ items', ∃ item ∈ items, FilledFrom next item item' := by
  have hfilled : ∀ start, next ≤ start → ∀ item' ∈ (numberItems items start).1,
      ∃ item ∈ items, FilledFrom next item item' := by
    intro start hstart item' hitem'
    obtain ⟨item, hitem, k, hk, rfl⟩ := children_numberItems hitem'
    exact ⟨item, hitem, k, by omega, rfl⟩
  cases tag with
  | some n => exact ⟨some n, _, rfl, hfilled next (Nat.le_refl _)⟩
  | none => exact ⟨some next, _, rfl, hfilled (next + 1) (Nat.le_succ _)⟩

theorem children_number {t child' : Node} {next : Nat} (h : child' ∈ (number t next).1.children) :
    ∃ child ∈ t.children, FilledFrom next child child' := by
  cases t with
  | scalar tag s => cases tag <;> simp [number] at h
  | list tag items =>
      obtain ⟨tag', items', heq, hitems⟩ := number_list tag items next
      rw [heq] at h
      exact hitems child' h
  | map tag fields =>
      obtain ⟨tag', fields', heq, hfields⟩ := number_map tag fields next
      rw [heq] at h
      obtain ⟨entry', hentry', rfl⟩ := List.mem_map.1 h
      obtain ⟨entry, hentry, -, hfilled⟩ := hfields.entries entry' hentry'
      exact ⟨entry.2, List.mem_map_of_mem hentry, hfilled⟩

/-- What is numbered is a node from before with its gaps filled. -/
theorem mem_subtrees_number {t u' : Node} {next : Nat} (h : u' ∈ (number t next).1.subtrees) :
    ∃ u ∈ t.subtrees, ∃ k, next ≤ k ∧ u' = (number u k).1 := by
  induction t using Tree.children_induction generalizing next with
  | step t ih =>
      rw [Tree.subtrees_eq] at h
      rcases List.mem_cons.1 h with rfl | hbelow
      · exact ⟨t, Tree.self_mem_subtrees t, next, Nat.le_refl _, rfl⟩
      · obtain ⟨child', hchild', hin⟩ := List.mem_flatMap.1 hbelow
        obtain ⟨child, hchild, k, hk, rfl⟩ := children_number hchild'
        obtain ⟨u, hu, k', hk', rfl⟩ := ih child hchild hin
        exact ⟨u, Tree.mem_subtrees_of_child hchild hu, k', by omega, rfl⟩

/-- What stands in a tree after a replacement: a node from before, or a part of what
has been put in. -/
theorem mem_subtrees_modify {t u : Node} (h : u ∈ (modify n f t).subtrees) :
    (∃ v ∈ t.subtrees, v.tag ≠ some n ∧ u = modify n f v) ∨
      ∃ v ∈ t.subtrees, v.tag = some n ∧ u ∈ (f v).subtrees := by
  induction t using Tree.children_induction with
  | step t ih =>
      by_cases htag : t.tag = some n
      · rw [modify_self htag] at h
        exact Or.inr ⟨t, Tree.self_mem_subtrees t, htag, h⟩
      · have heq := modify_of_ne (f := f) htag
        rw [heq, Tree.subtrees_eq] at h
        rcases List.mem_cons.1 h with rfl | hbelow
        · exact Or.inl ⟨t, Tree.self_mem_subtrees t, htag, heq.symm⟩
        · rw [Tree.children_mapChildren, List.flatMap_map] at hbelow
          obtain ⟨child, hchild, hin⟩ := List.mem_flatMap.1 hbelow
          rcases ih child hchild hin with ⟨v, hv, hrest⟩ | ⟨v, hv, hrest⟩
          · exact Or.inl ⟨v, Tree.mem_subtrees_of_child hchild hv, hrest⟩
          · exact Or.inr ⟨v, Tree.mem_subtrees_of_child hchild hv, hrest⟩

/-- A node keeps its number; one without gets a new number. -/
theorem tag_number {t : Node} {next m : Nat} (h : (number t next).1.tag = some m) :
    t.tag = some m ∨ t.tag = none ∧ m = next := by
  cases t with
  | map tag fields =>
      cases tag with
      | some k => exact Or.inl h
      | none => exact Or.inr ⟨rfl, (Option.some.inj h).symm⟩
  | _ tag _ =>
      cases tag with
      | some k => exact Or.inl h
      | none => exact Or.inr ⟨rfl, (Option.some.inj h).symm⟩

theorem number_fields? (t : Node) (next : Nat) (key : Scalar) :
    ∃ k, next ≤ k ∧ ((number t next).1.fields?.bind fun fields => fields.get? key) =
      (t.fields?.bind fun fields => fields.get? key).map fun value => (number value k).1 := by
  cases t with
  | map tag fields =>
      obtain ⟨tag', fields', heq, hfields⟩ := number_map tag fields next
      rw [heq]
      exact hfields.get? key
  | scalar tag s => cases tag <;> exact ⟨next, Nat.le_refl _, rfl⟩
  | list tag items => cases tag <;> exact ⟨next, Nat.le_refl _, rfl⟩

/-- Numbering does not change where keys lead to. -/
theorem under?_number (t : Node) (keys : List String) (next : Nat) :
    ∃ k, next ≤ k ∧ (number t next).1.under? keys =
      (t.under? keys).map fun u => (number u k).1 := by
  induction keys generalizing t next with
  | nil => exact ⟨next, Nat.le_refl _, rfl⟩
  | cons key rest ih =>
      obtain ⟨k, hk, hget⟩ := number_fields? t next key
      simp only [Tree.under?_cons, hget]
      cases (t.fields?.bind fun fields => fields.get? key) with
      | none => exact ⟨k, hk, rfl⟩
      | some value =>
          obtain ⟨k', hk', hrest⟩ := ih value k
          exact ⟨k', by omega, hrest⟩

/-- Keys lead on as before where the replacement keeps the value of the next key. -/
theorem under?_modify {t u : Node} {keys : List String}
    (hkeep : ∀ pre key rest, keys = pre ++ key :: rest → ∀ v, t.under? pre = some v →
      v.tag = some n → ∀ value, v.under? [key] = some value →
      (f v).under? [key] = some (modify n f value))
    (h : t.under? keys = some u) : (modify n f t).under? keys = some (modify n f u) := by
  induction keys generalizing t with
  | nil =>
      obtain rfl : t = u := by simpa using h
      rfl
  | cons key rest ih =>
      rw [← List.singleton_append, Tree.under?_append] at h ⊢
      obtain ⟨value, hvalue, hrest⟩ := Option.bind_eq_some_iff.1 h
      have hhead : (modify n f t).under? [key] = some (modify n f value) := by
        by_cases htag : t.tag = some n
        · rw [modify_self htag]
          exact hkeep [] key rest rfl t rfl htag value hvalue
        · cases t with
          | map tag fields =>
              have hget : fields.get? key = some value := by
                simpa [Tree.under?_map_cons] using hvalue
              simp [modify_of_ne htag, Tree.mapChildren, Tree.under?_map_cons, hget]
          | _ => cases hvalue
      rw [hhead, Option.bind_some]
      refine ih (fun pre next post heq v hv => ?_) hrest
      refine hkeep (key :: pre) next post (by rw [heq, List.cons_append]) v ?_
      rw [← List.singleton_append, Tree.under?_append, hvalue]
      exact hv

theorem tag_modify {t : Node} (h : t.tag = some n → (f t).tag = t.tag) :
    (modify n f t).tag = t.tag := by
  by_cases htag : t.tag = some n
  · rw [modify_self htag, h htag]
  · rw [modify_of_ne htag, Tree.tag_mapChildren]

theorem tag_number_of_some {t : Node} {m : Nat} (h : t.tag = some m) (next : Nat) :
    (number t next).1.tag = some m := by
  cases t with
  | map tag fields =>
      obtain rfl : tag = some m := h
      rfl
  | _ tag _ =>
      obtain rfl : tag = some m := h
      rfl

@[simp] theorem length_children_number (t : Node) (next : Nat) :
    (number t next).1.children.length = t.children.length := by
  have herase := congrArg (fun v : Value => v.children.length) (number_numbers t next).erase
  simpa [Tree.erase, Tree.children_mapTags] using herase

/-! ## Numbering after a replacement -/

theorem numberItems_eq_self {items : List Node}
    (h : ∀ item ∈ items, ∀ next, number item next = (item, next)) (next : Nat) :
    numberItems items next = (items, next) := by
  induction items with
  | nil => rfl
  | cons item rest ih =>
      rw [numberItems, h item List.mem_cons_self]
      simp only [ih fun item hitem => h item (List.mem_cons_of_mem _ hitem)]

theorem numberEntries_eq_self {entries : List (Scalar × Node)}
    (h : ∀ entry ∈ entries, ∀ next, number entry.2 next = (entry.2, next)) (next : Nat) :
    numberEntries entries next = (entries, next) := by
  induction entries with
  | nil => rfl
  | cons entry rest ih =>
      obtain ⟨key, value⟩ := entry
      have hvalue := h (key, value) List.mem_cons_self
      rw [numberEntries, hvalue]
      simp only [ih fun entry hentry => h entry (List.mem_cons_of_mem _ hentry)]

theorem gaps_of_mem {t u : Node} (h : gaps t.tags = 0) (hu : u ∈ t.subtrees) : gaps u.tags = 0 := by
  have hle := (Tree.tags_sublist hu).count_le none
  unfold gaps at h ⊢
  omega

theorem gaps_child {t child : Node} (h : gaps t.tags = 0) (hchild : child ∈ t.children) :
    gaps child.tags = 0 :=
  gaps_of_mem h (Tree.mem_subtrees_of_child hchild (Tree.self_mem_subtrees child))

theorem exists_tag_of_gaps {t : Node} (h : gaps t.tags = 0) : ∃ n, t.tag = some n := by
  cases htag : t.tag with
  | some n => exact ⟨n, rfl⟩
  | none =>
      rw [Tree.tags_eq, htag, gaps_cons_none] at h
      omega

/-- Where all nodes have numbers, numbering changes nothing. -/
theorem number_eq_self {t : Node} (h : gaps t.tags = 0) (next : Nat) :
    number t next = (t, next) := by
  induction t using Tree.children_induction generalizing next with
  | step t ih =>
      obtain ⟨n, htag⟩ := exists_tag_of_gaps h
      have hchild : ∀ child ∈ t.children, ∀ next, number child next = (child, next) :=
        fun child hchild => ih child hchild (gaps_child h hchild)
      cases t with
      | scalar tag s =>
          obtain rfl : tag = some n := htag
          rfl
      | list tag items =>
          obtain rfl : tag = some n := htag
          have hitems : numberItems items next = (items, next) := numberItems_eq_self hchild next
          simp only [number, hitems]
      | map tag fields =>
          obtain rfl : tag = some n := htag
          have hentries := numberEntries_eq_self (fun entry hentry =>
            hchild entry.2 (List.mem_map_of_mem hentry)) next
          simp only [number, hentries]

theorem numberEntries_append {entries : List (Scalar × Node)}
    (h : ∀ entry ∈ entries, ∀ next, number entry.2 next = (entry.2, next)) (key : Scalar)
    (value : Node) (next : Nat) : (numberEntries (entries ++ [(key, value)]) next).1 =
      entries ++ [(key, (number value next).1)] := by
  induction entries with
  | nil => rfl
  | cons entry rest ih =>
      obtain ⟨other, old⟩ := entry
      have hold := h (other, old) List.mem_cons_self
      have hrest := ih fun entry hentry => h entry (List.mem_cons_of_mem _ hentry)
      rw [List.cons_append, numberEntries, hold]
      simp only [hrest, List.cons_append]

/-- Where all nodes have numbers, a new entry is numbered and nothing else. -/
theorem number_insert {n : Nat} {fields : Fields Tag} {key : Scalar}
    (habsent : fields.get? key = none)
    (h : gaps (Tree.map (some n) fields).tags = 0) (value : Node) (next : Nat) :
    (number (.map (some n) (fields.insert key value)) next).1 =
      .map (some n) ⟨fields.toList ++ [(key, (number value next).1)]⟩ := by
  have hentries := numberEntries_append (fun entry hentry =>
    number_eq_self (gaps_child h (List.mem_map_of_mem hentry))) key value next
  unfold Entries.insert
  rw [Entries.put_of_lookup habsent]
  simp only [number, hentries]

theorem numberItems_append {items : List Node}
    (h : ∀ item ∈ items, ∀ next, number item next = (item, next)) (item : Node) (next : Nat) :
    (numberItems (items ++ [item]) next).1 = items ++ [(number item next).1] := by
  induction items with
  | nil => rfl
  | cons first rest ih =>
      have hrest := ih fun item hitem => h item (List.mem_cons_of_mem _ hitem)
      rw [List.cons_append, numberItems, h first List.mem_cons_self]
      simp only [hrest, List.cons_append]

theorem numberItems_set {items : List Node}
    (h : ∀ item ∈ items, ∀ next, number item next = (item, next))
    (index : Nat) (item : Node) (next : Nat) :
    (numberItems (items.set index item) next).1 = items.set index (number item next).1 := by
  induction items generalizing index with
  | nil => rfl
  | cons first rest ih =>
      have hrest : ∀ item ∈ rest, ∀ next, number item next = (item, next) :=
        fun item hitem => h item (List.mem_cons_of_mem _ hitem)
      cases index with
      | zero => simp only [List.set_cons_zero, numberItems, numberItems_eq_self hrest]
      | succ index =>
          rw [List.set_cons_succ, numberItems, h first List.mem_cons_self]
          simp only [ih hrest, List.set_cons_succ]

section Items

variable {n : Nat} {items : List Node} (h : gaps (Tree.list (some n) items).tags = 0)
include h

/-- Where all nodes have numbers, a new item at the end is numbered and nothing else. -/
theorem number_append (item : Node) (next : Nat) :
    (number (.list (some n) (items ++ [item])) next).1 =
      .list (some n) (items ++ [(number item next).1]) := by
  have hitems := @numberItems_append items
    (fun _ hitem => number_eq_self (gaps_child h hitem)) item next
  simp only [number, hitems]

/-- Where all nodes have numbers, a new item in place of another is numbered and nothing else. -/
theorem number_set (index : Nat) (item : Node) (next : Nat) :
    (number (.list (some n) (items.set index item)) next).1 =
      .list (some n) (items.set index (number item next).1) := by
  have hitems := @numberItems_set items
    (fun _ hitem => number_eq_self (gaps_child h hitem)) index item next
  simp only [number, hitems]

end Items

/-- A replacement whose new nodes are numbered from `next` on. -/
def numberedFrom (next : Nat) (f : Node → Node) (u : Node) : Node := (number (f u) next).1

/-- At most one item is replaced, so its new nodes are the first to get numbers. -/
theorem numberItems_modify {n next : Nat} {f : Node → Node} {items : List Node}
    (hgaps : ∀ item ∈ items, gaps item.tags = 0) (hone : (items.map (uses n)).sum ≤ 1)
    (h : ∀ item ∈ items, uses n item ≤ 1 →
      (number (modify n f item) next).1 = modify n (numberedFrom next f) item) :
    (numberItems (items.map (modify n f)) next).1 = items.map (modify n (numberedFrom next f)) := by
  induction items with
  | nil => rfl
  | cons item rest ih =>
      rw [List.map_cons, List.sum_cons] at hone
      have hhead := h item List.mem_cons_self (by omega)
      have hrest : ∀ other ∈ rest, gaps other.tags = 0 :=
        fun other hother => hgaps other (List.mem_cons_of_mem _ hother)
      rw [List.map_cons, List.map_cons, numberItems]
      simp only [hhead]
      by_cases huses : uses n item = 0
      · -- The item stays, and the next number is for the rest.
        have hnext : (number (modify n f item) next).2 = next := by
          rw [modify_of_uses_eq_zero huses, number_eq_self (hgaps item List.mem_cons_self)]
        rw [hnext, ih hrest (by omega) fun other hother => h other (List.mem_cons_of_mem _ hother)]
      · have hsame : ∀ g : Node → Node, rest.map (modify n g) = rest := fun g =>
          (List.map_congr_left fun other hother => modify_of_uses_eq_zero (by
            have hle := List.le_sum_of_mem (List.mem_map_of_mem (f := uses n) hother)
            omega)).trans (List.map_id' rest)
        rw [hsame, hsame, numberItems_eq_self fun other hother =>
          number_eq_self (hrest other hother)]

theorem numberEntries_modify {n next : Nat} {f : Node → Node} {entries : List (Scalar × Node)}
    (hgaps : ∀ entry ∈ entries, gaps entry.2.tags = 0)
    (hone : (entries.map fun entry => uses n entry.2).sum ≤ 1)
    (h : ∀ entry ∈ entries, uses n entry.2 ≤ 1 →
      (number (modify n f entry.2) next).1 = modify n (numberedFrom next f) entry.2) :
    (numberEntries (entries.map fun entry => (entry.1, modify n f entry.2)) next).1 =
      entries.map fun entry => (entry.1, modify n (numberedFrom next f) entry.2) := by
  induction entries with
  | nil => rfl
  | cons entry rest ih =>
      obtain ⟨key, value⟩ := entry
      rw [List.map_cons, List.sum_cons] at hone
      have hhead := h (key, value) List.mem_cons_self (by omega)
      have hrest : ∀ other ∈ rest, gaps other.2.tags = 0 :=
        fun other hother => hgaps other (List.mem_cons_of_mem _ hother)
      simp only at hone hhead
      rw [List.map_cons, List.map_cons, numberEntries]
      simp only [hhead]
      by_cases huses : uses n value = 0
      · have hnext : (number (modify n f value) next).2 = next := by
          rw [modify_of_uses_eq_zero huses]
          exact congrArg Prod.snd (number_eq_self (hgaps (key, value) List.mem_cons_self) next)
        rw [hnext, ih hrest (by omega) fun other hother => h other (List.mem_cons_of_mem _ hother)]
      · have hsame : ∀ g : Node → Node,
            (rest.map fun entry => (entry.1, modify n g entry.2)) = rest :=
          fun g => (List.map_congr_left fun other hother => by
            have hle :=
              List.le_sum_of_mem (List.mem_map_of_mem (f := fun entry => uses n entry.2) hother)
            rw [modify_of_uses_eq_zero (by omega)]).trans (List.map_id' rest)
        rw [hsame, hsame, numberEntries_eq_self fun other hother =>
          number_eq_self (hrest other hother)]

/-- Where all nodes have numbers, only what a replacement makes is numbered. -/
theorem number_modify {n : Nat} {f : Node → Node} {t : Node} (h : gaps t.tags = 0)
    (hone : uses n t ≤ 1)
    (next : Nat) : (number (modify n f t) next).1 = modify n (numberedFrom next f) t := by
  induction t using Tree.children_induction with
  | step t ih =>
      by_cases hn : t.tag = some n
      · rw [modify_self hn, modify_self hn, numberedFrom]
      · obtain ⟨m, htag⟩ := exists_tag_of_gaps h
        have hchild : ∀ child ∈ t.children, uses n child ≤ 1 →
            (number (modify n f child) next).1 = modify n (numberedFrom next f) child :=
          fun child hchild => ih child hchild (gaps_child h hchild)
        rw [uses_eq, if_neg hn, Nat.zero_add] at hone
        rw [modify_of_ne hn, modify_of_ne hn]
        cases t with
        | scalar tag s =>
            obtain rfl : tag = some m := htag
            rfl
        | list tag items =>
            obtain rfl : tag = some m := htag
            have hitems := numberItems_modify (fun _ hitem => gaps_child h hitem) hone hchild
            exact congrArg (Tree.list (some m)) hitems
        | map tag fields =>
            obtain rfl : tag = some m := htag
            rw [Tree.children_map, Entries.values, List.map_map] at hone
            have hentries := numberEntries_modify
              (fun _ hentry => gaps_child h (List.mem_map_of_mem hentry)) hone
              fun _ hentry => hchild _ (List.mem_map_of_mem hentry)
            exact congrArg (fun entries => Tree.map (some m) ⟨entries⟩) hentries

end Node

end ProtoShape
