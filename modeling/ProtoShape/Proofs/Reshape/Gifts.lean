import ProtoShape.Proofs.Reshape.Outlines
import ProtoShape.Proofs.Reshape.Spending

/-!
# Gifts

What is done to give schemas the key of a map is a sequence of gifts.  A `Gift` is one
change: a schema is remembered, and its `allOf` gets one more part, or its `properties` one
more entry; or a member of a union that has been remembered is wrapped.

The first lemmas say what such a change makes of the outline of the container, with the new
objects that it brings in: `outline?_part`, `outline?_property` and `outline?_wrapper`.
-/

namespace ProtoShape

open Rules Tree Relation Step

/-! ## New objects -/

namespace Run

/-- An object whose one property is for the key of a map. -/
def IsKeyHolder (run : Run) (n : Nat) : Prop :=
  ∃ type inner value, run.outline? n = some (.map ⟨[("type", type), ("properties", some inner)]⟩) ∧
    run.outline? inner = some (.map ⟨[(.text run.options.fieldProperty, value)]⟩)

/-- An object whose one property holds a node.  It gets a second property where it is given
the key of a map itself. -/
def IsWrapper (run : Run) (n : Nat) (item : Tag) : Prop :=
  ∃ type inner key, run.outline? n = some (.map ⟨[("type", type), ("properties", some inner)]⟩) ∧
    (run.outline? inner = some (.map ⟨[(.text key, item)]⟩) ∨
      run.carriers.contains (.tag (some n)) = true ∧ ∃ value,
        run.outline? inner =
          some (.map ⟨[(.text key, item), (.text run.options.fieldProperty, value)]⟩))

end Run

/-! ## Single changes -/

section Changes

variable {run : Run} {n : Nat}

theorem Run.AddsAt.of_additions {f : Node → Node}
    (h : ∀ u, run.Holds u → u.tag = some n → Addition u (f u)) : run.AddsAt n f :=
  ⟨fun u hu hn => (h u hu hn).moves, fun u hu hn => (h u hu hn).uses_le,
    fun u hu hn => (h u hu hn).le_uses⟩

/-- An item at the end of a list adds to it. -/
theorem addsAt_part (run : Run) (n : Nat) (field : String) :
    run.AddsAt n (onItems (· ++ [keyHolder field])) := by
  refine ⟨fun u _ _ => ?_, fun u _ _ => uses_part_le field u, fun u _ _ => le_uses_part field u⟩
  cases u with
  | list => exact moves_part field
  | _ => exact .refl _

variable (h : run.Sound)
include h

theorem Run.Sound.gaps_of_node? {u : Node} (hu : run.node? n = some u) : Node.gaps u.tags = 0 :=
  (Run.node?_holds hu).1.elim (Node.gaps_of_mem h.document) (Node.gaps_of_mem h.aside)

/-- A new property adds to a mapping. -/
theorem addsAt_property {present : Fields Tag} {field : String}
    (hholds : run.Holds (.map (some n) present)) (habsent : present.get? field = none) :
    run.AddsAt n (onFields (·.insert field textSchema)) := by
  refine ⟨fun u hu hn => ?_, fun u _ _ => uses_onFields_insert_le uses_textSchema u,
    fun u hu hn => ?_⟩
  · obtain rfl := h.unique hu hholds hn rfl
    exact moves_insert uses_textSchema
  · obtain rfl := h.unique hu hholds hn rfl
    exact uses_le_insert habsent _

/-- An item that is wrapped stays in the list. -/
theorem addsAt_wrapper {items : List Node} {item : Node} {index : Nat}
    (hholds : run.Holds (.list (some n) items)) (hitem : items[index]? = some item)
    (hbare : IsBare item) (key : String) : run.AddsAt n (onItems (wrapAt index key)) := by
  refine .of_additions fun u hu hn => ?_
  obtain rfl := h.unique hu hholds hn rfl
  refine .wrapped index key (fun other hother => ?_) fun other hother => ?_
  · obtain rfl := Option.some.inj (hother.symm.trans hitem)
    obtain ⟨tag, fields, rfl, -⟩ := hbare
    rfl
  · subst hother
    obtain rfl := List.mem_singleton.1 (List.mem_of_getElem? hitem)
    exact hbare

theorem outline?_part {items : List Node} (hnode : run.node? n = some (.list (some n) items)) :
    ∃ part, run.next ≤ part ∧
      (run.modifyNode n (onItems (· ++ [keyHolder run.options.fieldProperty]))).outline? n =
        some (.list (items.map Tree.tag ++ [some part])) ∧
      (run.modifyNode n (onItems (· ++ [keyHolder run.options.fieldProperty]))).IsKeyHolder
        part := by
  have hadds := addsAt_part run n run.options.fieldProperty
  have hsound := hadds.sound h
  obtain ⟨k, hk, hafter⟩ := hadds.exists_node?_self h hnode
  rw [onItems, Node.number_append (h.gaps_of_node? hnode)] at hafter
  have hpart := (Run.node?_holds hafter).1.below (mem_subtrees_of_child
    (List.mem_append_right items (List.mem_singleton_self _)) (self_mem_subtrees _))
  refine ⟨k, hk, ?_, some (k + 1), k + 2, some (k + 3), ?_, ?_⟩
  · rw [hsound.outline?_of_holds (Run.node?_holds hafter).1 rfl]
    simp only [Tree.outline, List.map_append]
    rfl
  · exact hsound.outline?_of_holds hpart rfl
  · have hmap := hpart.below (mem_subtrees_of_child
      (List.mem_cons_of_mem _ (List.mem_singleton_self _)) (self_mem_subtrees _))
    exact hsound.outline?_of_holds hmap rfl

theorem outline?_property {present : Fields Tag} {field : String}
    (hnode : run.node? n = some (.map (some n) present)) (habsent : present.get? field = none) :
    ∃ value entries, run.next ≤ value ∧
      (run.modifyNode n (onFields (·.insert field textSchema))).outline? n =
        some (.map ⟨(present.mapValues Tree.tag).toList ++ [(.text field, some value)]⟩) ∧
      (run.modifyNode n (onFields (·.insert field textSchema))).outline? value =
        some (.map entries) := by
  have hadds := addsAt_property h (Run.node?_holds hnode).1 habsent
  have hsound := hadds.sound h
  obtain ⟨k, hk, hafter⟩ := hadds.exists_node?_self h hnode
  rw [onFields, Node.number_insert habsent (h.gaps_of_node? hnode)] at hafter
  have hvalue := (Run.node?_holds hafter).1.below (mem_subtrees_of_child
    (List.mem_map_of_mem (List.mem_append_right present.toList (List.mem_singleton_self _)))
    (self_mem_subtrees _))
  refine ⟨k, _, hk, ?_, hsound.outline?_of_holds hvalue rfl⟩
  rw [hsound.outline?_of_holds (Run.node?_holds hafter).1 rfl]
  simp only [Tree.outline, Entries.mapValues, List.map_append]
  rfl

theorem outline?_wrapper {items : List Node} {item : Node} {index : Nat}
    (hnode : run.node? n = some (.list (some n) items)) (hitem : items[index]? = some item)
    (hbare : IsBare item) (key : String) :
    ∃ wrapper, run.next ≤ wrapper ∧
      (run.modifyNode n (onItems (wrapAt index key))).outline? n =
        some (.list ((items.map Tree.tag).set index (some wrapper))) ∧
      (run.modifyNode n (onItems (wrapAt index key))).IsWrapper wrapper item.tag := by
  have hadds := addsAt_wrapper h (Run.node?_holds hnode).1 hitem hbare key
  have hsound := hadds.sound h
  obtain ⟨k, hk, hafter⟩ := hadds.exists_node?_self h hnode
  have hgaps := h.gaps_of_node? hnode
  have hsame :=
    @Node.number_eq_self item (Node.gaps_child hgaps (List.mem_of_getElem? hitem)) (k + 3)
  have hnew : (Node.number (.map default (wrapperOf key item)) k).1 = .map (some k)
      ⟨[("type", .scalar (some (k + 1)) (.text "object")),
        ("properties", .map (some (k + 2)) ⟨[(.text key, item)]⟩)]⟩ := by
    have heq : (Node.number (.map default (wrapperOf key item)) k).1 = .map (some k)
        ⟨[("type", .scalar (some (k + 1)) (.text "object")),
          ("properties", .map (some (k + 2)) ⟨[(.text key, (Node.number item (k + 3)).1)]⟩)]⟩ := rfl
    rw [heq, hsame]
  rw [onItems, wrapAt, hitem] at hafter
  simp only at hafter
  rw [Node.number_set hgaps, hnew] at hafter
  obtain ⟨hindex, -⟩ := List.getElem?_eq_some_iff.1 hitem
  have hwrapper := (Run.node?_holds hafter).1.below (mem_subtrees_of_child
    (List.mem_of_getElem? (List.getElem?_set_self hindex)) (self_mem_subtrees _))
  refine ⟨k, hk, ?_, some (k + 1), k + 2, key, ?_, Or.inl ?_⟩
  · rw [hsound.outline?_of_holds (Run.node?_holds hafter).1 rfl]
    simp only [Tree.outline, List.map_set]
    rfl
  · exact hsound.outline?_of_holds hwrapper rfl
  · have hmap := hwrapper.below (mem_subtrees_of_child
      (List.mem_cons_of_mem _ (List.mem_singleton_self _)) (self_mem_subtrees _))
    exact hsound.outline?_of_holds hmap rfl

end Changes

/-! ## Gifts -/

/-- One change on the way of giving the key of a map to schemas.  `before` holds the schemas
that have been remembered before. -/
inductive Gift (before : IdentitySet) : Run → Run → Prop where
  /-- A diagnostic is recorded. -/
  | reported {run} (diagnostic : Diagnostic) :
      Gift before run { run with diagnostics := run.diagnostics ++ [diagnostic] }
  /-- A composite is remembered and gets one more part. -/
  | parted {run schema fields list} : run.Holds (.map (some schema) fields) →
      run.carriers.contains (.tag (some schema)) = false →
      Carrier.of run.options fields = .parts list →
      Gift before run ((marked run schema).modifyNode list
        (onItems (· ++ [keyHolder run.options.fieldProperty])))
  /-- An object is remembered and gets one more property. -/
  | keyed {run schema fields map present} : run.Holds (.map (some schema) fields) →
      run.carriers.contains (.tag (some schema)) = false →
      Carrier.of run.options fields = .properties map present →
      present.get? run.options.fieldProperty = none →
      Gift before run ((marked run schema).modifyNode map
        (onFields (·.insert run.options.fieldProperty textSchema)))
  /-- An object that has such a property is remembered. -/
  | kept {run schema fields map present} : run.Holds (.map (some schema) fields) →
      run.carriers.contains (.tag (some schema)) = false →
      Carrier.of run.options fields = .properties map present →
      Gift before run (marked run schema)
  /-- A union is remembered, whose members are given the key. -/
  | passed {run schema fields key list members} : run.Holds (.map (some schema) fields) →
      run.carriers.contains (.tag (some schema)) = false →
      Carrier.of run.options fields = .members key list members →
      Gift before run (marked run schema)
  /-- A member of a union that has been remembered since is wrapped in a new object. -/
  | wrapped {run schema fields key list items index item} (wrap : String) :
      run.Holds (.map (some schema) fields) →
      run.carriers.contains (.tag (some schema)) = true →
      before.contains (.tag (some schema)) = false →
      key ∈ ["oneOf", "anyOf"] → fields.get? key = some (.list (some list) items) →
      items[index]? = some item → IsBare item →
      Gift before run (run.modifyNode list (onItems (wrapAt index wrap)))

/-- What is not remembered has not been remembered before. -/
theorem fresh_of_le {before more : IdentitySet} {identity : Identity}
    (hmore : ∀ identity, before.contains identity = true → more.contains identity = true)
    (hfresh : more.contains identity = false) : before.contains identity = false :=
  Bool.eq_false_iff.2 fun hin => Bool.eq_false_iff.1 hfresh (hmore _ hin)

/-- A schema remembered before has not been remembered since. -/
theorem Gift.mono {before more : IdentitySet} {run after : Run} (h : Gift more run after)
    (hmore : ∀ identity, before.contains identity = true → more.contains identity = true) :
    Gift before run after := by
  cases h with
  | reported diagnostic => exact .reported diagnostic
  | parted hholds hfresh hcarrier => exact .parted hholds hfresh hcarrier
  | keyed hholds hfresh hcarrier habsent => exact .keyed hholds hfresh hcarrier habsent
  | kept hholds hfresh hcarrier => exact .kept hholds hfresh hcarrier
  | passed hholds hfresh hcarrier => exact .passed hholds hfresh hcarrier
  | wrapped wrap hholds hmarked hfresh hkey hget hitem hbare =>
      exact .wrapped wrap hholds hmarked (fresh_of_le hmore hfresh) hkey hget hitem hbare

theorem gifts_mono {before more : IdentitySet} {run after : Run}
    (h : ReflTransGen (Gift more) run after)
    (hmore : ∀ identity, before.contains identity = true → more.contains identity = true) :
    ReflTransGen (Gift before) run after :=
  h.lift id fun _ _ hgift => hgift.mono hmore

end ProtoShape
