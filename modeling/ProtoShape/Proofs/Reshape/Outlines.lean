import ProtoShape.Proofs.Reshape.Components
import ProtoShape.Proofs.Reshape.Presence
import ProtoShape.Proofs.Reshape.Standing

/-!
# What a node itself holds

The outline of a node is its scalar, or the numbers of its children with the keys to them.
So the outlines of a run are its nodes as a graph: a change of one node leaves all other
outlines as they are (`Run.AddsAt.outline?_of_ne`), whatever stands below.

A node is linked from one keyword at most, and not from a list as well
(`Run.Links.unique`, `Run.Links.not_lists`).
-/

namespace ProtoShape

open Rules Tree

/-- What a node itself holds, with its children by number. -/
inductive Outline where
  | scalar (s : Scalar)
  | list (items : List Tag)
  | map (entries : Entries Tag)

/-- The outline of a node. -/
def Tree.outline : Node → Outline
  | .scalar _ s => .scalar s
  | .list _ items => .list (items.map Tree.tag)
  | .map _ fields => .map (fields.mapValues Tree.tag)

namespace Run

variable {run : Run} {n m : Nat} {key : String} {o : Outline}

/-- The outline of the node with a number. -/
def outline? (run : Run) (n : Nat) : Option Outline := (run.node? n).map Tree.outline

/-- A mapping holds a node under a keyword. -/
def Links (run : Run) (n : Nat) (key : String) (m : Nat) : Prop :=
  ∃ entries, run.outline? n = some (.map entries) ∧ entries.get? key = some (some m)

/-- A list holds a node. -/
def Lists (run : Run) (n m : Nat) : Prop :=
  ∃ items, run.outline? n = some (.list items) ∧ some m ∈ items

/-! ## Nodes and outlines -/

theorem Sound.outline?_of_holds (h : run.Sound) {u : Node} (hu : run.Holds u)
    (htag : u.tag = some n) :
    run.outline? n = some u.outline := by
  rw [outline?, h.node?_of_holds hu htag, Option.map_some]

theorem map_unique {entries entries' : Entries Tag} (h : run.outline? n = some (.map entries))
    (h' : run.outline? n = some (.map entries')) : entries = entries' :=
  Outline.map.inj (Option.some.inj (h.symm.trans h'))

theorem exists_map_of_outline? {entries : Entries Tag} (h : run.outline? n = some (.map entries)) :
    ∃ fields, run.node? n = some (.map (some n) fields) ∧ entries = fields.mapValues Tree.tag := by
  obtain ⟨u, hu, houtline⟩ := Option.map_eq_some_iff.1 h
  cases u with
  | map tag fields =>
      obtain rfl : tag = some n := (node?_holds hu).2
      exact ⟨fields, hu, (Outline.map.inj houtline).symm⟩
  | _ => cases houtline

theorem exists_list_of_outline? {items : List Tag} (h : run.outline? n = some (.list items)) :
    ∃ nodes, run.node? n = some (.list (some n) nodes) ∧ items = nodes.map Tree.tag := by
  obtain ⟨u, hu, houtline⟩ := Option.map_eq_some_iff.1 h
  cases u with
  | list tag nodes =>
      obtain rfl : tag = some n := (node?_holds hu).2
      exact ⟨nodes, hu, (Outline.list.inj houtline).symm⟩
  | _ => cases houtline

theorem Sound.links_of_get? (h : run.Sound) {fields : Fields Tag} {value : Node}
    (hholds : run.Holds (.map (some n) fields)) (hget : fields.get? key = some value)
    (htag : value.tag = some m) : run.Links n key m := by
  refine ⟨_, h.outline?_of_holds hholds rfl, ?_⟩
  rw [Entries.get?_mapValues, hget, Option.map_some, htag]

theorem Links.exists_get? (h : run.Links n key m) : ∃ fields value,
    run.node? n = some (.map (some n) fields) ∧ fields.get? key = some value ∧
    value.tag = some m := by
  obtain ⟨entries, houtline, hget⟩ := h
  obtain ⟨fields, hnode, rfl⟩ := exists_map_of_outline? houtline
  rw [Entries.get?_mapValues] at hget
  obtain ⟨value, hvalue, htag⟩ := Option.map_eq_some_iff.1 hget
  exact ⟨fields, value, hnode, hvalue, htag⟩

/-! ## Parents -/

/-- A node stands under one keyword. -/
theorem Links.unique (hsound : run.Sound) {n' : Nat} {key' : String} (h : run.Links n key m)
    (h' : run.Links n' key' m) : n = n' ∧ key = key' := by
  obtain ⟨fields, value, hnode, hget, htag⟩ := h.exists_get?
  obtain ⟨fields', value', hnode', hget', htag'⟩ := h'.exists_get?
  obtain ⟨heq, hkey⟩ :=
    hsound.keyword_unique (node?_holds hnode).1 (node?_holds hnode').1 hget hget'
    (htag.trans htag'.symm)
  obtain ⟨htags, -⟩ := Tree.map.inj heq
  exact ⟨Option.some.inj htags, hkey⟩

/-- One node stands under a keyword. -/
theorem Links.functional {m' : Nat} (h : run.Links n key m) (h' : run.Links n key m') : m = m' := by
  obtain ⟨entries, houtline, hget⟩ := h
  obtain ⟨entries', houtline', hget'⟩ := h'
  obtain rfl := map_unique houtline houtline'
  exact Option.some.inj (Option.some.inj (hget.symm.trans hget'))

/-- What stands under a keyword is not in a list. -/
theorem Links.not_lists (hsound : run.Sound) {list : Nat} (h : run.Links n key m) :
    ¬run.Lists list m := by
  rintro ⟨items, houtline, hitem⟩
  obtain ⟨fields, value, hnode, hget, htag⟩ := h.exists_get?
  obtain ⟨nodes, hlist, rfl⟩ := exists_list_of_outline? houtline
  obtain ⟨item, hin, hm⟩ := List.mem_map.1 hitem
  obtain ⟨i, k, hi, -⟩ := Entries.exists_index hget
  have hchild : (Tree.map (some n) fields).children[i]? = some value := by
    rw [children_map, Entries.values, List.getElem?_map, hi, Option.map_some]
  obtain ⟨j, hj⟩ := List.mem_iff_getElem?.1 hin
  obtain ⟨heq, -⟩ := hsound.parent_unique (node?_holds hnode).1 (node?_holds hlist).1 hchild hj
    (htag.trans hm.symm)
  cases heq

/-! ## Changes -/

/-- A change of a node that only adds to it. -/
structure AddsAt (run : Run) (n : Nat) (f : Node → Node) : Prop where
  moves : ∀ u, run.Holds u → u.tag = some n → Moves u (f u)
  fewer : ∀ u, run.Holds u → u.tag = some n → ∀ m, Node.uses m (f u) ≤ Node.uses m u
  keep : ∀ u, run.Holds u → u.tag = some n → ∀ m, Node.uses m u ≤ Node.uses m (f u)

variable {f : Node → Node}

theorem AddsAt.sound (hadds : run.AddsAt n f) (h : run.Sound) : (run.modifyNode n f).Sound :=
  h.modifyNode fun u hu => hadds.fewer u (node?_holds hu).1 (node?_holds hu).2

/-- After a change, a number leads to the image of its node. -/
theorem AddsAt.exists_node? (hadds : run.AddsAt n f) (h : run.Sound) {u : Node}
    (hu : run.node? m = some u) : ∃ k, run.next ≤ k ∧
      (run.modifyNode n f).node? m = some (Node.number (Node.modify n f u) k).1 := by
  obtain ⟨hholds, htag⟩ := node?_holds hu
  obtain ⟨k, hk, heq⟩ := h.exists_tag hholds
  obtain rfl : k = m := Option.some.inj (heq.symm.trans htag)
  obtain ⟨u', hu'⟩ := exists_node?_of_uses
    ((uses_pos_of_node? hu).trans_le (uses_le_modifyNode fun v hv hn => hadds.keep v hv hn k))
  obtain ⟨hholds', htag'⟩ := node?_holds hu'
  obtain ⟨v, next, hv, hvtag, hnext, rfl⟩ := h.origin_of_modify hadds.moves hk hholds' htag'
  obtain rfl := h.unique hholds hv htag hvtag
  exact ⟨next, hnext, hu'⟩

end Run

theorem Node.tags_numberItems {items : List Node} (h : ∀ item ∈ items, ∃ n, item.tag = some n)
    (next : Nat) :
    (numberItems items next).1.map Tree.tag = items.map Tree.tag := by
  induction items generalizing next with
  | nil => rfl
  | cons item rest ih =>
      obtain ⟨n, hn⟩ := h item List.mem_cons_self
      simp only [numberItems, List.map_cons, tag_number_of_some hn, hn,
        ih fun item hitem => h item (List.mem_cons_of_mem _ hitem)]

theorem Node.tags_numberEntries {entries : List (Scalar × Node)}
    (h : ∀ entry ∈ entries, ∃ n, entry.2.tag = some n) (next : Nat) :
    (numberEntries entries next).1.map (fun entry => (entry.1, entry.2.tag)) =
      entries.map fun entry => (entry.1, entry.2.tag) := by
  induction entries generalizing next with
  | nil => rfl
  | cons entry rest ih =>
      obtain ⟨key, value⟩ := entry
      obtain ⟨n, hn⟩ := h (key, value) List.mem_cons_self
      simp only at hn
      simp only [numberEntries, List.map_cons, tag_number_of_some hn, hn,
        ih fun entry hentry => h entry (List.mem_cons_of_mem _ hentry)]

/-- Numbering leaves a node alone whose children have numbers. -/
theorem Node.outline_number {u : Node} {n : Nat} (htag : u.tag = some n)
    (h : ∀ child ∈ u.children, ∃ n, child.tag = some n) (next : Nat) :
    (number u next).1.outline = u.outline := by
  cases u with
  | scalar tag s =>
      obtain rfl : tag = some n := htag
      rfl
  | list tag items =>
      obtain rfl : tag = some n := htag
      exact congrArg Outline.list (tags_numberItems h next)
  | map tag fields =>
      obtain rfl : tag = some n := htag
      exact congrArg (fun entries => Outline.map ⟨entries⟩)
        (tags_numberEntries (fun entry hentry => h entry.2 (List.mem_map_of_mem hentry)) next)

theorem Node.outline_mapChildren {g : Node → Node} {u : Node}
    (h : ∀ child ∈ u.children, (g child).tag = child.tag) :
    (u.mapChildren g).outline = u.outline := by
  cases u with
  | scalar => rfl
  | list tag items =>
      simp only [Tree.mapChildren, outline, List.map_map]
      exact congrArg Outline.list (List.map_congr_left h)
  | map tag fields =>
      simp only [Tree.mapChildren, outline, Entries.mapValues, List.map_map]
      exact congrArg (fun entries => Outline.map ⟨entries⟩)
        (List.map_congr_left fun entry hentry =>
          congrArg (Prod.mk entry.1) (h entry.2 (List.mem_map_of_mem hentry)))

namespace Run.AddsAt

variable {run : Run} {n m : Nat} {o : Outline} {f : Node → Node}

/-- A change of one node leaves the outlines of all others as they are. -/
theorem outline?_of_ne (hadds : run.AddsAt n f) (h : run.Sound) (hne : m ≠ n)
    (ho : run.outline? m = some o) :
    (run.modifyNode n f).outline? m = some o := by
  obtain ⟨u, hu, rfl⟩ := Option.map_eq_some_iff.1 ho
  obtain ⟨hholds, htag⟩ := node?_holds hu
  obtain ⟨k, -, hnode⟩ := hadds.exists_node? h hu
  have hmodify : Node.modify n f u = u.mapChildren (Node.modify n f) :=
    Node.modify_of_ne fun heq => hne (Option.some.inj (htag.symm.trans heq))
  have hchild : ∀ child ∈ u.children, (Node.modify n f child).tag = child.tag := fun child hchild =>
    Node.tag_modify fun hn => (hadds.moves child
      (hholds.below (mem_subtrees_of_child hchild (self_mem_subtrees child))) hn).tag
  rw [outline?, hnode, Option.map_some, hmodify, Node.outline_number,
    Node.outline_mapChildren hchild]
  · exact (tag_mapChildren _ u).trans htag
  · rw [children_mapChildren]
    intro child' hchild'
    obtain ⟨child, hin, rfl⟩ := List.mem_map.1 hchild'
    obtain ⟨c, -, hc⟩ :=
      h.exists_tag (hholds.below (mem_subtrees_of_child hin (self_mem_subtrees child)))
    exact ⟨c, (hchild child hin).trans hc⟩

/-- The changed node is numbered from new numbers on. -/
theorem exists_node?_self (hadds : run.AddsAt n f) (h : run.Sound) {u : Node}
    (hu : run.node? n = some u) :
    ∃ k, run.next ≤ k ∧ (run.modifyNode n f).node? n = some (Node.number (f u) k).1 := by
  obtain ⟨k, hk, hnode⟩ := hadds.exists_node? h hu
  rw [Node.modify_self (node?_holds hu).2] at hnode
  exact ⟨k, hk, hnode⟩

end Run.AddsAt

end ProtoShape
