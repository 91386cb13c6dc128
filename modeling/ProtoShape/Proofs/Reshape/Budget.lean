import ProtoShape.Proofs.Reshape.Charges
import ProtoShape.Proofs.Reshape.Standing

/-!
# What updates cost a run

The load of a run is the load of its document and of the schema aside.  A replacement
changes it by as much as it changes the load of the node (`load_modifyNode_le`), provided
that no charge takes the new node for more than the old one: `Run.Fits` says so.  All
updates fit, since they insert mappings only and the rules apply to schemas that
may become references anyhow.
-/

namespace ProtoShape

open Rules Node

/-! ## The load of a run -/

namespace Run

/-- What the nodes of a run cost. -/
def load (c : Charge) (run : Run) : Nat := Node.load c run.document + Node.load c run.aside

/-- A replacement by what looks like no more than the node that it replaces. -/
structure Fits (run : Run) (n : Nat) (f : Node → Node) : Prop where
  plainer : ∀ u, run.Holds u → u.tag = some n → Plainer False u (f u)
  length : ∀ tag fields, run.Holds (.map tag fields) → ∀ key u, (key, u) ∈ fields.toList →
    u.tag = some n → key.key ∈ unionKeys → unionLength (f u) ≤ unionLength u

variable {run : Run} {n : Nat} {f : Node → Node} {c : Charge}

theorem fits_of_plainer (h : ∀ u, run.Holds u → u.tag = some n → Plainer True u (f u)) :
    run.Fits n f := by
  refine ⟨fun u hu htag => (h u hu htag).mono, fun tag fields hholds key u hentry htag _ => ?_⟩
  have hu : run.Holds u := hholds.below
    (Tree.mem_subtrees_of_child (List.mem_map_of_mem (f := (·.2)) hentry)
      (Tree.self_mem_subtrees u))
  exact (h u hu htag).length trivial

theorem load_settle_le (hc : c.Fair) (run : Run) : run.settle.load c ≤ run.load c :=
  Nat.add_le_add (Node.load_number_le hc _ _) (Node.load_number_le hc _ _)

/-- A replacement changes the load of a run by as much as it changes the load of the node. -/
theorem Sound.load_modifyNode_le (h : run.Sound) (hc : c.Fair) (hfits : run.Fits n f) {u : Node}
    (hu : run.node? n = some u) (less more : Nat)
    (hload : Node.load c (f u) + less ≤ Node.load c u + more) :
    (run.modifyNode n f).load c + less ≤ run.load c + more := by
  have honce := h.once n
  unfold uses at honce
  have hpos : 0 < Node.uses n run.document + Node.uses n run.aside := by
    rcases (node?_holds hu).1 with hmem | hmem
    · have hused := Node.uses_pos hmem (node?_holds hu).2
      omega
    · have hused := Node.uses_pos hmem (node?_holds hu).2
      omega
  have hnode : ∀ v, run.Holds v → v.tag = some n →
      Node.load c (f v) + less ≤ Node.load c v + more := by
    intro v hv htag
    obtain rfl : u = v := Option.some.inj (hu.symm.trans (h.node?_of_holds hv htag))
    exact hload
  have hdocument := Node.load_modify (t := run.document) hc (by omega)
    ⟨fun v hv => hfits.plainer v (Or.inl hv), fun tag fields hv =>
      hfits.length tag fields (Or.inl hv)⟩
    fun v hv => hnode v (Or.inl hv)
  have haside := Node.load_modify (t := run.aside) hc (by omega)
    ⟨fun v hv => hfits.plainer v (Or.inr hv), fun tag fields hv =>
      hfits.length tag fields (Or.inr hv)⟩
    fun v hv => hnode v (Or.inr hv)
  have hsettle := load_settle_le hc
    { run with document := Node.modify n f run.document, aside := Node.modify n f run.aside }
  change (run.modifyNode n f).load c ≤
    Node.load c (Node.modify n f run.document) + Node.load c (Node.modify n f run.aside) at hsettle
  have hone : Node.uses n run.document + Node.uses n run.aside = 1 := by omega
  have hless : less * Node.uses n run.document + less * Node.uses n run.aside = less := by
    rw [← Nat.mul_add, hone, Nat.mul_one]
  have hmore : more * Node.uses n run.document + more * Node.uses n run.aside = more := by
    rw [← Nat.mul_add, hone, Nat.mul_one]
  unfold load at hsettle ⊢
  omega

/-- To replace a node by itself changes nothing, nor to replace one that is not there. -/
theorem Sound.modifyNode_eq_self (h : run.Sound) (hn : ∀ u, run.node? n = some u → f u = u) :
    run.modifyNode n f = run := by
  have hsame : ∀ t : Node, (∀ u ∈ t.subtrees, run.Holds u) → Node.modify n f t = t :=
    fun t ht => Node.modify_eq_self fun u hu htag => hn u (h.node?_of_holds (ht u hu) htag)
  unfold Run.modifyNode
  rw [hsame run.document fun _ => Or.inl, hsame run.aside fun _ => Or.inr]
  exact h.settle_eq_self

end Run

/-! ## Updates fit -/

/-- A mapping looks the same after it has got one more mapping. -/
theorem plainer_insert {tag : Tag} {fields : Fields Tag} {key : String} {value : Node}
    (habsent : fields.get? key = none) (hmapping : value.fields?.isSome = true) (inUnion : Prop) :
    Plainer inUnion (.map tag fields) (.map tag (fields.insert key value)) := by
  obtain ⟨inner, more, rfl⟩ : ∃ inner more, value = .map inner more := by
    cases value with
    | map inner more => exact ⟨inner, more, rfl⟩
    | _ => cases hmapping
  have hget : ∀ other : String, (fields.insert key (.map inner more)).get? other =
      if other = key then some (.map inner more) else fields.get? other := by
    intro other
    rw [Entries.get?_insert]
    simp only [Entries.text_key_eq_iff]
  refine plainer_map (fun href => ?_) (fun hone => ?_) fun hunion => ?_
  · rw [isReference_insert_absent habsent rfl] at href
    exact mayRefer_map.2 (Or.inl (Or.inl href))
  · rw [holdsOne_eq, hget] at hone
    split at hone
    · cases hone
    · exact mayRefer_map.2 (Or.inl (Or.inr (by rwa [holdsOne_eq])))
  · unfold Fields.items? at hunion
    rw [hget] at hunion
    split at hunion
    · cases hunion
    · exact mayRefer_map.2 (Or.inr hunion)

theorem Addition.plainer {u v : Node} (h : Addition u v) (inUnion : Prop) :
    Plainer inUnion u v := by
  cases h with
  | same => exact .refl inUnion u
  | wrapped index key _ _ =>
      refine ⟨rfl, id, id, fun _ => ?_⟩
      rw [unionLength, unionLength, length_wrapAt]
  | place _ habsent => exact plainer_insert habsent rfl inUnion

theorem mayRefer_of_isMapOfOne {tag : Tag} {fields : Fields Tag} (h : IsMapOfOne fields) :
    mayRefer (.map tag fields) = true := by
  obtain ⟨hsingle, -⟩ := h
  simp only [isSingleMap, Bool.and_eq_true] at hsingle
  exact mayRefer_map.2 (Or.inl (Or.inr hsingle.1.2))

theorem Rewrite.plainer {u v : Node} (h : Rewrite u v) (inUnion : Prop) : Plainer inUnion u v := by
  cases h with
  | same => exact .refl inUnion u
  | referred ref hone =>
      have hrefer := @mayRefer_of_isMapOfOne none _ hone
      exact plainer_map (fun _ => hrefer) (fun _ => hrefer) fun _ => hrefer
  | inlined key hone =>
      have hrefer := @mayRefer_of_isMapOfOne none _ hone
      exact plainer_map (fun _ => hrefer) (fun _ => hrefer) fun _ => hrefer
  | @merged tag fields result hmerges =>
      have hrefer : mayRefer (.map tag fields) = true := by
        obtain ⟨hget, -, -, -⟩ := hmerges
        refine mayRefer_map.2 (Or.inr ?_)
        rw [Fields.items?, hget]
        rfl
      exact plainer_map (fun _ => hrefer) (fun _ => hrefer) fun _ => hrefer
  | @titled tag fields result hmoves =>
      have hget : ∀ key ∈ ["$ref", "oneOf"], result.get? key = fields.get? key := by
        obtain ⟨-, -, -, -, -, -⟩ := hmoves
        intro key hkey
        have hother : key ∉ mapKeywords.drop 1 ∧ key ≠ "properties" := by
          simp only [List.mem_cons, List.not_mem_nil, or_false] at hkey
          rcases hkey with rfl | rfl
          · decide
          · decide
        rw [Entries.get?_eraseAll, if_neg hother.1, get?_insert_of_ne hother.2]
      have hminimum : holdsOne result "minProperties" = false := by
        obtain ⟨-, -, -, -, -, -⟩ := hmoves
        rw [holdsOne_eq, Entries.get?_eraseAll, if_pos (by decide)]
        rfl
      refine plainer_map (fun href => ?_) (fun hone => ?_) fun hunion => ?_
      · rw [Fields.isReference_congr (hget "$ref" (by simp))] at href
        exact mayRefer_map.2 (Or.inl (Or.inl href))
      · rw [hminimum] at hone
        cases hone
      · rw [Fields.items?, hget "oneOf" (by simp)] at hunion
        exact mayRefer_map.2 (Or.inr hunion)

section Fits

variable {run : Run} {n : Nat} {f : Node → Node}

theorem fits_of_unique (hsound : run.Sound) {u : Node} (hu : run.Holds u) (htag : u.tag = some n)
    (h : Plainer True u (f u)) : run.Fits n f := by
  refine Run.fits_of_plainer fun v hv hvtag => ?_
  obtain rfl := hsound.unique hu hv htag hvtag
  exact h

/-- The `allOf` of a schema is no union. -/
theorem fits_parted (hsound : run.Sound) {owner : Tag} {list : Nat} {fields : Fields Tag}
    {items : List Node} (howner : run.Holds (.map owner fields))
    (hget : fields.get? "allOf" = some (.list (some list) items)) (field : String) :
    run.Fits list (onItems (· ++ [keyHolder field])) := by
  have hlist := howner.below (Tree.mem_subtrees_of_get? hget)
  refine ⟨fun u hu htag => ?_, fun tag other hother key u hentry htag hkey => ?_⟩
  · obtain rfl := hsound.unique hlist hu rfl htag
    exact ⟨rfl, id, id, False.elim⟩
  · exfalso
    obtain ⟨i, k, hi, hk⟩ := Entries.exists_index hget
    obtain ⟨j, hj⟩ := List.mem_iff_getElem?.1 hentry
    have hchild : ∀ {tag : Tag} {fields : Fields Tag} {i : Nat} {entry : Scalar × Node},
        fields.toList[i]? = some entry → (Tree.map tag fields).children[i]? = some entry.2 := by
      intro tag fields i entry hentry
      rw [Tree.children_map, Entries.values, List.getElem?_map, hentry, Option.map_some]
    obtain ⟨heq, rfl⟩ := hsound.parent_unique howner hother (hchild hi) (hchild hj) htag.symm
    obtain ⟨-, rfl⟩ := Tree.map.inj heq
    obtain ⟨rfl, -⟩ := Prod.mk.inj (Option.some.inj (hi.symm.trans hj))
    rw [hk] at hkey
    simp [unionKeys] at hkey

end Fits

/-! ## What patches cost -/

section Patches

variable {c : Charge} {unit : Nat} (hc : c.Uniform unit)
include hc

theorem load_wrapAt_le {tag : Tag} {index : Nat} {items : List Node} {item : Node}
    (hitem : items[index]? = some item) (hmapping : item.fields?.isSome = true) (key : String) :
    Node.load c (.list tag (wrapAt index key items)) ≤
      Node.load c (.list tag items) + 3 * unit := by
  cases item with
  | map inner fields =>
      have hset := sum_set hitem c.among (.map default (wrapperOf key (.map inner fields)))
      have hwrapper := Charge.among_wrapper_le hc key inner fields
      unfold wrapAt
      rw [hitem]
      simp only
      rw [load_list, load_list]
      omega
  | _ => cases hmapping

theorem load_part_le (tag : Tag) (items : List Node) (field : String) :
    Node.load c (.list tag (items ++ [keyHolder field])) ≤
      Node.load c (.list tag items) + 5 * unit := by
  have hholder := Charge.among_keyHolder_le hc field
  rw [load_list, load_list, List.map_append, List.sum_append, List.map_singleton,
    List.sum_singleton]
  omega

theorem load_keyed_le (tag : Tag) (fields : Fields Tag) (field : String) :
    Node.load c (.map tag (fields.insert field textSchema)) ≤
      Node.load c (.map tag fields) + 2 * unit := by
  have hinsert := Entries.tally_insert_le (c.under tag) fields (.text field) textSchema
  have hunder := Charge.under_mapping_le hc tag default (.text field) ⟨[("type", .ofText "string")]⟩
  have hschema := Charge.among_textSchema hc
  change c.under tag (.text field) textSchema ≤ c.among textSchema at hunder
  rw [Scalar.key_text] at hinsert
  rw [load_map, load_map]
  omega

theorem load_place_le {key : String} (hkey : key ∈ ["components", "schemas"]) (tag : Tag)
    (fields : Fields Tag) : Node.load c (.map tag (fields.insert key (.map default ∅))) ≤
      Node.load c (.map tag fields) + unit := by
  have hplain : key ∉ Charge.chargedKeys := by
    simp only [List.mem_cons, List.not_mem_nil, or_false] at hkey
    rcases hkey with rfl | rfl
    · decide
    · decide
  have hinsert := Entries.tally_insert_le (c.under tag) fields (.text key) (.map default ∅)
  have hempty : c.under tag (.text key) (.map default ∅) = unit := by
    rw [Charge.under, hc.other hplain, load_map, Entries.tally_empty, Nat.add_zero]
  rw [Scalar.key_text, hempty] at hinsert
  rw [load_map, load_map]
  exact hinsert

end Patches

end ProtoShape
