import ProtoShape.Proofs.Reshape.Updates

/-!
# Nodes that stay

A patch takes no node away, so a schema that a rule has read is there still after patches,
and it has only got more (`exists_grown_of_patches`).  In particular it holds what it held under its
keywords.  So what belongs to a schema that has been remembered still does
(`carries_of_patches`).

A change leaves a node as it is that does not contain the changed one
(`Run.Sound.node?_modifyNode`).
-/

namespace ProtoShape

open Rules Tree Relation

/-! ## Numbers that stay -/

namespace Node

variable {n m : Nat} {f : Node → Node}

theorem uses_le_modify {t : Node} (h : ∀ u ∈ t.subtrees, u.tag = some n → uses m u ≤ uses m (f u)) :
    uses m t ≤ uses m (modify n f t) := by
  induction t using Tree.children_induction with
  | step t ih =>
      by_cases htag : t.tag = some n
      · rw [modify_self htag]
        exact h t (self_mem_subtrees t) htag
      · rw [modify_of_ne htag, uses_eq, uses_eq m (t.mapChildren _), tag_mapChildren,
          children_mapChildren, List.map_map]
        refine Nat.add_le_add_left (List.sum_le_sum fun child hchild => ?_) _
        exact ih child hchild fun u hu => h u (mem_subtrees_of_child hchild hu)

theorem count_le_numbered (tags : List Tag) (next : Nat) :
    tags.count (some m) ≤ (numbered tags next).count (some m) := by
  induction tags generalizing next with
  | nil => exact Nat.le_refl _
  | cons tag rest ih =>
      cases tag with
      | none =>
          rw [numbered, List.count_cons, List.count_cons]
          exact Nat.add_le_add (ih (next + 1)) (by simp)
      | some k =>
          rw [numbered, List.count_cons, List.count_cons]
          exact Nat.add_le_add_right (ih next) _

theorem uses_le_number (t : Node) (next : Nat) : uses m t ≤ uses m (number t next).1 := by
  rw [uses, uses, (number_numbers t next).tags]
  exact count_le_numbered t.tags next

end Node

namespace Run

variable {run : Run} {n m : Nat} {f : Node → Node}

/-- A change that takes no number away from the changed node takes none away at all. -/
theorem uses_le_modifyNode
    (h : ∀ u, run.Holds u → u.tag = some n → Node.uses m u ≤ Node.uses m (f u)) :
    run.uses m ≤ (run.modifyNode n f).uses m :=
  Nat.add_le_add
    ((Node.uses_le_modify fun u hu => h u (Or.inl hu)).trans (Node.uses_le_number _ _))
    ((Node.uses_le_modify fun u hu => h u (Or.inr hu)).trans (Node.uses_le_number _ _))

theorem uses_pos_of_node? {u : Node} (hu : run.node? m = some u) : 0 < run.uses m := by
  obtain ⟨hholds, htag⟩ := node?_holds hu
  unfold uses
  rcases hholds with hmem | hmem
  · have hpos := Node.uses_pos hmem htag
    omega
  · have hpos := Node.uses_pos hmem htag
    omega

theorem exists_node?_of_uses (h : 0 < run.uses m) : ∃ u, run.node? m = some u := by
  have hfind : ∀ t : Node, 0 < Node.uses m t → ∃ u, Node.find? m t = some u := by
    intro t hpos
    obtain ⟨u, hu, htag⟩ := List.mem_map.1 (List.count_pos_iff.1 hpos)
    exact Node.exists_find? hu htag
  unfold uses at h
  unfold node?
  by_cases hdocument : 0 < Node.uses m run.document
  · obtain ⟨u, hu⟩ := hfind run.document hdocument
    exact ⟨u, by rw [hu, Option.some_or]⟩
  · obtain ⟨u, hu⟩ := hfind run.aside (by omega)
    cases hfirst : Node.find? m run.document with
    | none => exact ⟨u, by rw [Option.none_or, hu]⟩
    | some v => exact ⟨v, by rw [Option.some_or]⟩

/-- A change leaves a node as it is that does not contain the changed one. -/
theorem Sound.node?_modifyNode (h : run.Sound) {u : Node} (hu : run.node? m = some u)
    (hmoves : ∀ v, run.Holds v → v.tag = some n → Moves v (f v))
    (hkeep : ∀ v, run.Holds v → v.tag = some n → Node.uses m v ≤ Node.uses m (f v))
    (hzero : Node.uses n u = 0) :
    (run.modifyNode n f).node? m = some u := by
  obtain ⟨hholds, htag⟩ := node?_holds hu
  obtain ⟨k, hk, heq⟩ := h.exists_tag hholds
  obtain rfl : k = m := Option.some.inj (heq.symm.trans htag)
  have hused := (uses_pos_of_node? hu).trans_le (uses_le_modifyNode hkeep)
  obtain ⟨u', hu'⟩ := exists_node?_of_uses hused
  obtain ⟨hholds', htag'⟩ := node?_holds hu'
  obtain ⟨v, next, hv, hvtag, -, rfl⟩ := h.origin_of_modify hmoves hk hholds' htag'
  obtain rfl := h.unique hholds hv htag hvtag
  rw [hu', Node.modify_of_uses_eq_zero hzero, Node.number_eq_self]
  exact hholds.elim (Node.gaps_of_mem h.document) (Node.gaps_of_mem h.aside)

end Run

/-! ## Patches take nothing away -/

theorem uses_le_insert {tag : Tag} {fields : Fields Tag} {key : Scalar}
    (habsent : fields.get? key = none) (value : Node) (m : Nat) :
    Node.uses m (.map tag fields) ≤ Node.uses m (.map tag (fields.insert key value)) := by
  rw [Node.uses_map, Node.uses_map, Entries.total_insert_of_get?_eq_none (Node.uses m) habsent]
  omega

theorem Addition.le_uses {u v : Node} (h : Addition u v) (m : Nat) :
    Node.uses m u ≤ Node.uses m v := by
  cases h with
  | same => exact Nat.le_refl _
  | wrapped => rw [Node.uses_list, Node.uses_list, sum_uses_wrapAt]
  | place _ habsent => exact uses_le_insert habsent _ m

theorem le_uses_part (field : String) (u : Node) (m : Nat) :
    Node.uses m u ≤ Node.uses m (onItems (· ++ [keyHolder field]) u) := by
  cases u with
  | list tag items => simp [onItems, uses_keyHolder]
  | _ => exact Nat.le_refl _

theorem Patch.le_uses {run after : Run} (h : Patch run after) (hsound : run.Sound) (m : Nat) :
    run.uses m ≤ after.uses m := by
  cases h with
  | noted => exact Nat.le_refl _
  | added _ hadds => exact Run.uses_le_modifyNode fun u hu htag => (hadds u hu htag).le_uses m
  | @keyed owner map fields present howner hget habsent =>
      refine Run.uses_le_modifyNode fun u hu htag => ?_
      obtain rfl := hsound.unique hu (howner.below (mem_subtrees_of_get? hget)) htag rfl
      exact uses_le_insert habsent _ m
  | parted => exact Run.uses_le_modifyNode fun u _ _ => le_uses_part _ u m
  | @generated schemas entries name target source ref keySchema hschemas habsent =>
      refine @Run.uses_le_modifyNode run schemas m _ fun u hu htag => ?_
      obtain rfl :=
        hsound.unique hu (run.holds_document.below (mem_subtrees_of_under? hschemas)) htag rfl
      exact uses_le_insert habsent _ m

/-- After patches, a node is there still and has only got more. -/
theorem exists_grown_of_patches {run after : Run} (h : ReflTransGen Patch run after)
    (hsound : run.Sound)
    {m : Nat} {u : Node} (hu : run.node? m = some u) : ∃ v, after.node? m = some v ∧ Grown u v := by
  have hused : run.uses m ≤ after.uses m := by
    induction h with
    | refl => exact Nat.le_refl _
    | tail hfirst hlast ih => exact ih.trans (hlast.le_uses (sound_of_patches hfirst hsound) m)
  obtain ⟨v, hv⟩ := Run.exists_node?_of_uses ((Run.uses_pos_of_node? hu).trans_le hused)
  obtain ⟨hholds, htag⟩ := Run.node?_holds hu
  obtain ⟨k, hk, heq⟩ := hsound.exists_tag hholds
  obtain rfl : k = m := Option.some.inj (heq.symm.trans htag)
  obtain ⟨old, hold, holdtag, hgrown⟩ :=
    grown_of_patches h hsound hk (Run.node?_holds hv).1 (Run.node?_holds hv).2
  obtain rfl := hsound.unique hholds hold htag holdtag
  exact ⟨v, hv, hgrown⟩

/-! ## Links that stay -/

/-- After a patch, a mapping holds the nodes that it held under its keywords. -/
theorem Patch.linked {run after : Run} (h : Patch run after) (hsound : run.Sound) {owner : Tag}
    {fields : Fields Tag} {key : String} {value : Node} (howner : run.Holds (.map owner fields))
    (hget : fields.get? key = some value) :
    ∃ fields' value', after.Holds (.map owner fields') ∧ fields'.get? key = some value' ∧
      value'.tag = value.tag := by
  rcases h.cases_change hsound with
    ⟨hdocument, haside⟩ | ⟨n, f, ⟨hdocument, haside⟩, hscalar, hchange⟩
  · refine ⟨fields, value, ?_, hget, rfl⟩
    unfold Run.Holds at howner ⊢
    rwa [hdocument, haside]
  -- The mapping is an image of itself, and the change keeps the keyword.
  obtain ⟨o, ho, htag⟩ := hsound.exists_tag howner
  obtain rfl : owner = some o := htag
  have hused := (Run.uses_pos_of_node? (hsound.node?_of_holds howner rfl)).trans_le
    (h.le_uses hsound o)
  obtain ⟨u', hu'⟩ := Run.exists_node?_of_uses hused
  obtain ⟨hholds', htag'⟩ := Run.node?_holds hu'
  have hholds : (run.modifyNode n f).Holds u' := by
    unfold Run.Holds at hholds' ⊢
    rwa [hdocument, haside] at hholds'
  obtain ⟨v, k, hv, hvtag, -, rfl⟩ :=
    hsound.origin_of_modify (fun u hu hn => (hchange u hu hn).1) ho hholds htag'
  obtain rfl := hsound.unique hv howner hvtag rfl
  obtain ⟨m, -, hm⟩ := hsound.exists_tag (howner.below (mem_subtrees_of_get? hget))
  have hbefore : (Tree.map (some o) fields).under? [key] = some value := by
    rw [under?_map_cons, hget]
    rfl
  have hchanged : ∃ image, (Node.modify n f (.map (some o) fields)).under? [key] = some image ∧
      image.tag = some m := by
    by_cases hn : (Tree.map (some o) fields).tag = some n
    · rw [Node.modify_self hn]
      exact ⟨value, (hchange _ howner hn).2.2 key value hbefore, hm⟩
    · refine ⟨Node.modify n f value, ?_, ?_⟩
      · rw [Node.modify_of_ne hn, mapChildren, under?_map_cons, Entries.get?_mapValues, hget]
        rfl
      · rw [Node.tag_modify, hm]
        intro hvalue
        exact (hchange value (howner.below (mem_subtrees_of_get? hget)) hvalue).1.tag
  obtain ⟨image, himage, hsame⟩ := hchanged
  obtain ⟨j, -, hnumber⟩ := Node.under?_number (Node.modify n f (.map (some o) fields)) [key] k
  rw [himage, Option.map_some] at hnumber
  cases hafter : (Node.number (Node.modify n f (.map (some o) fields)) k).1 with
  | map tag' fields' =>
      rw [hafter] at hnumber htag' hholds'
      obtain rfl : tag' = some o := htag'
      rw [under?_map_cons] at hnumber
      obtain ⟨value', hget', hvalue'⟩ := Option.bind_eq_some_iff.1 hnumber
      obtain rfl : value' = _ := Option.some.inj hvalue'
      exact ⟨fields', _, hholds', hget', (Node.tag_number_of_some hsame j).trans hm.symm⟩
  | _ =>
      rw [hafter] at hnumber
      cases hnumber

theorem Patch.carriers {run after : Run} (h : Patch run after) (identity : Identity)
    (hin : run.carriers.contains identity = true) : after.carriers.contains identity = true := by
  cases h with
  | noted _ _ hmore => exact hmore identity hin
  | _ => exact hin

/-- What belongs to a schema that has been remembered still does after patches. -/
theorem carries_of_patches {run after : Run} (h : ReflTransGen Patch run after) (hsound : run.Sound)
    {n : Nat} (hcarries : run.Carries n) : after.Carries n := by
  induction h with
  | refl => exact hcarries
  | tail hfirst hlast ih =>
      obtain ⟨owner, fields, key, value, howner, hget, hn, hkey, hin⟩ := ih
      obtain ⟨fields', value', howner', hget', hsame⟩ :=
        hlast.linked (sound_of_patches hfirst hsound) howner hget
      exact ⟨owner, fields', key, value', howner', hget', hsame.trans hn, hkey,
        hlast.carriers _ hin⟩

end ProtoShape
