import ProtoShape.Proofs.Reshape.Run
import ProtoShape.Rules.SingleMap

/-!
# Nodes that only get more

Much of what the second phase does to a schema from afar only adds to it.  `Grown` says
what is sure of the schema then: its children are no fewer, its keys stay, and so do the
scalars under them.  In particular a single map is a single map still
(`isMapOfOne_of_keeps`).
-/

namespace ProtoShape

open Rules

/-! ## Mappings that keep their keys -/

/-- The keys stay, and so do the scalars under them. -/
def Fields.Keeps (before after : Fields Tag) : Prop :=
  ∀ key value, before.get? key = some value → ∃ value', after.get? key = some value' ∧
    ∀ s, value.scalar? = some s → value'.scalar? = some s

namespace Fields.Keeps

variable {before between after fields : Fields Tag}

theorem refl (fields : Fields Tag) : Keeps fields fields :=
  fun _ value hget => ⟨value, hget, fun _ h => h⟩

theorem trans (h : Keeps before between) (h' : Keeps between after) : Keeps before after := by
  intro key value hget
  obtain ⟨value', hget', hscalar⟩ := h key value hget
  obtain ⟨value'', hget'', hscalar'⟩ := h' key value' hget'
  exact ⟨value'', hget'', fun s hs => hscalar' s (hscalar s hs)⟩

theorem mapValues {f : Node → Node} (hf : ∀ tag s, ∃ tag', f (.scalar tag s) = .scalar tag' s)
    (fields : Fields Tag) : Keeps fields (fields.mapValues f) := by
  intro key value hget
  refine ⟨f value, by rw [Entries.get?_mapValues, hget, Option.map_some], fun s hs => ?_⟩
  cases value with
  | scalar tag s' =>
      obtain ⟨tag', heq⟩ := hf tag s'
      rw [heq]
      exact hs
  | _ => cases hs

theorem insert {key : Scalar} (h : fields.get? key = none) (value : Node) :
    Keeps fields (fields.insert key value) := by
  intro other old hget
  refine ⟨old, ?_, fun _ hs => hs⟩
  rw [Entries.get?_insert, if_neg, hget]
  intro heq
  rw [Entries.get?_congr _ heq, h] at hget
  cases hget

theorem contains (h : Keeps before after) {key : Scalar} (hkey : before.contains key = true) :
    after.contains key = true := by
  obtain ⟨value, hget⟩ := Option.isSome_iff_exists.1 hkey
  obtain ⟨value', hget', -⟩ := h key value hget
  exact Option.isSome_iff_exists.2 ⟨value', hget'⟩

theorem holdsOne (h : Keeps before after) {key : String} (hone : Rules.holdsOne before key = true) :
    Rules.holdsOne after key = true := by
  unfold Rules.holdsOne at hone ⊢
  split at hone
  · rename_i tag s hget
    obtain ⟨value', hget', hscalar⟩ := h key _ hget
    have hs := hscalar s rfl
    cases value' with
    | scalar tag' s' =>
        obtain rfl : s' = s := by simpa [Tree.scalar?] using hs
        rw [hget']
        exact hone
    | _ => simp [Tree.scalar?] at hs
  · cases hone

theorem hasText (h : Keeps before after) {key text : String}
    (htext : Fields.hasText before key text = true) : Fields.hasText after key text = true := by
  unfold Fields.hasText Fields.text? at htext ⊢
  rw [beq_iff_eq] at htext ⊢
  obtain ⟨value, hget, hvalue⟩ := Option.bind_eq_some_iff.1 htext
  obtain ⟨value', hget', hscalar⟩ := h key value hget
  rw [hget', Option.bind_some]
  cases value with
  | scalar tag s =>
      have hs := hscalar s rfl
      cases value' with
      | scalar tag' s' =>
          obtain rfl : s' = s := by simpa [Tree.scalar?] using hs
          cases s' with
          | text found => exact hvalue
          | _ => cases hvalue
      | _ => simp [Tree.scalar?] at hs
  | _ => simp [Tree.text?] at hvalue

end Fields.Keeps

/-- A single map with its value type. -/
def IsMapOfOne (fields : Fields Tag) : Prop :=
  isSingleMap fields = true ∧ fields.contains "additionalProperties" = true

theorem isMapOfOne_of_keeps {before after : Fields Tag} (h : Fields.Keeps before after)
    (hone : IsMapOfOne before) : IsMapOfOne after := by
  obtain ⟨hsingle, hadditional⟩ := hone
  simp only [isSingleMap, Bool.and_eq_true] at hsingle
  refine ⟨?_, h.contains hadditional⟩
  simp only [isSingleMap, Bool.and_eq_true]
  exact ⟨⟨h.hasText hsingle.1.1, h.holdsOne hsingle.1.2⟩, h.holdsOne hsingle.2⟩

/-! ## Nodes -/

/-- A node that has only got more. -/
structure Grown (old new : Node) : Prop where
  children : old.children.length ≤ new.children.length
  fields : ∀ tag after, new = .map tag after → ∃ tag' before, old = .map tag' before ∧
    Fields.Keeps before after
  mapping : old.fields?.isSome = true → new.fields?.isSome = true
  child : ∀ (i : Nat) child child', old.children[i]? = some child → new.children[i]? = some child' →
    child.fields?.isSome = true → child'.fields?.isSome = true

theorem Grown.refl (u : Node) : Grown u u := by
  refine ⟨Nat.le_refl _, fun tag after h => ⟨tag, after, h, .refl after⟩, id,
    fun i child child' hold hnew => ?_⟩
  obtain rfl := Option.some.inj (hold.symm.trans hnew)
  exact id

theorem Grown.trans {old between new : Node} (h : Grown old between) (h' : Grown between new) :
    Grown old new := by
  refine ⟨Nat.le_trans h.children h'.children, fun tag after hnew => ?_, fun hold =>
    h'.mapping (h.mapping hold),
    fun i child child' hold hnew hmapping => ?_⟩
  · obtain ⟨tag', before, hbetween, hkeeps'⟩ := h'.fields tag after hnew
    obtain ⟨tag'', first, hold, hkeeps⟩ := h.fields tag' before hbetween
    exact ⟨tag'', first, hold, hkeeps.trans hkeeps'⟩
  · obtain ⟨hi, -⟩ := List.getElem?_eq_some_iff.1 hold
    have hbetween := List.getElem?_eq_getElem (Nat.lt_of_lt_of_le hi h.children)
    exact h'.child i _ child' hbetween hnew (h.child i child _ hold hbetween hmapping)

theorem number_scalar (tag : Tag) (s : Scalar) (next : Nat) :
    ∃ tag', (Node.number (.scalar tag s) next).1 = .scalar tag' s := by
  cases tag with
  | some n => exact ⟨some n, rfl⟩
  | none => exact ⟨some next, rfl⟩

theorem grown_number (u : Node) (next : Nat) : Grown u (Node.number u next).1 := by
  have herase := (Node.number_numbers u next).erase
  refine ⟨Nat.le_of_eq (Node.length_children_number u next).symm, fun tag after hnew => ?_,
    fun hold => (Tree.isSome_fields?_congr herase).trans hold,
    fun i child child' hold hnew hmapping => ?_⟩
  on_goal 2 =>
    have hchildren := congrArg (fun v : Value => v.children[i]?) herase
    simp only [Tree.erase, Tree.children_mapTags, List.getElem?_map, hold, hnew, Option.map_some,
      Option.some.injEq] at hchildren
    exact (Tree.isSome_fields?_congr hchildren).trans hmapping
  cases u with
  | scalar t s =>
      obtain ⟨t', heq⟩ := number_scalar t s next
      rw [heq] at hnew
      cases hnew
  | list t items => cases t <;> simp [Node.number] at hnew
  | map t before =>
      obtain ⟨t', fields', heq, hfields⟩ := Node.number_map t before next
      rw [heq] at hnew
      cases hnew
      refine ⟨t, before, rfl, fun key value hvalue => ?_⟩
      obtain ⟨k, -, hkey⟩ := hfields.get? key
      rw [hvalue, Option.map_some] at hkey
      refine ⟨_, hkey, fun s hs => ?_⟩
      cases value with
      | scalar tag s' =>
          obtain ⟨tag', heq⟩ := number_scalar tag s' k
          rw [heq]
          exact hs
      | _ => cases hs

theorem grown_mapChildren {f : Node → Node}
    (hf : ∀ tag s, ∃ tag', f (.scalar tag s) = .scalar tag' s) {u : Node}
    (hmapping : ∀ child ∈ u.children, child.fields?.isSome = true →
      (f child).fields?.isSome = true) :
    Grown u (u.mapChildren f) := by
  refine ⟨by simp, fun tag after hnew => ?_, fun hold => ?_, fun i child child' hold hnew => ?_⟩
  · cases u with
    | map tag' before =>
        obtain ⟨-, rfl⟩ := Tree.map.inj hnew
        exact ⟨tag', before, rfl, .mapValues hf before⟩
    | _ => cases hnew
  · cases u with
    | map => rfl
    | _ => cases hold
  · rw [Tree.children_mapChildren, List.getElem?_map, hold, Option.map_some] at hnew
    obtain rfl := Option.some.inj hnew
    exact hmapping child (List.mem_of_getElem? hold)

/-! ## Runs -/

/-- A change of a node that makes new nodes and moves old ones. -/
structure Moves (old new : Node) : Prop where
  tag : new.tag = old.tag
  parts : ∀ child ∈ new.children, ∀ u ∈ child.subtrees,
    u.tag = none ∨ ∃ before ∈ old.children, u ∈ before.subtrees

theorem Moves.refl (u : Node) : Moves u u :=
  ⟨rfl, fun child hchild _ hu => Or.inr ⟨child, hchild, hu⟩⟩

namespace Run

variable {run : Run} {n : Nat} {f : Node → Node}

theorem Holds.below {u v : Node} (h : run.Holds u) (hv : v ∈ u.subtrees) : run.Holds v :=
  h.imp (Tree.mem_subtrees_trans hv) (Tree.mem_subtrees_trans hv)

theorem holds_document (run : Run) : run.Holds run.document :=
  Or.inl (Tree.self_mem_subtrees run.document)

theorem Sound.unique (h : run.Sound) {u v : Node} (hu : run.Holds u) (hv : run.Holds v)
    (htag : u.tag = some n) (htag' : v.tag = some n) : u = v :=
  Option.some.inj ((h.node?_of_holds hu htag).symm.trans (h.node?_of_holds hv htag'))

/-- A node does not contain itself. -/
theorem Sound.uses_child (h : run.Sound) {v child : Node} (hv : run.Holds v) (htag : v.tag = some n)
    (hchild : child ∈ v.children) : Node.uses n child = 0 := by
  have honce : Node.uses n v ≤ 1 := by
    have hrun := h.once n
    unfold uses at hrun
    rcases hv with hmem | hmem
    · have hle := @Node.uses_le_of_mem n _ _ hmem
      omega
    · have hle := @Node.uses_le_of_mem n _ _ hmem
      omega
  have hle := List.le_sum_of_mem (List.mem_map_of_mem (f := Node.uses n) hchild)
  rw [Node.uses_eq, if_pos htag] at honce
  omega

/-- Every node that has had a number before the change is the image of itself. -/
theorem Sound.origin_of_modify (h : run.Sound)
    (hmoves : ∀ v, run.Holds v → v.tag = some n → Moves v (f v)) {m : Nat} (hm : m < run.next)
    {u' : Node} (hholds : (run.modifyNode n f).Holds u') (hu' : u'.tag = some m) :
    ∃ v k, run.Holds v ∧ v.tag = some m ∧ run.next ≤ k ∧
      u' = (Node.number (Node.modify n f v) k).1 := by
  obtain ⟨u, k, hk, rfl, hfrom⟩ := holds_modifyNode hholds
  have hu : u.tag = some m := by
    rcases Node.tag_number hu' with hold | ⟨-, hnew⟩
    · exact hold
    · omega
  rcases hfrom with ⟨v, hv, hne, rfl⟩ | ⟨v, hv, hn, hmem⟩
  · refine ⟨v, k, hv, ?_, hk, rfl⟩
    rw [Node.modify_of_ne hne, Tree.tag_mapChildren] at hu
    exact hu
  · rw [Tree.subtrees_eq] at hmem
    rcases List.mem_cons.1 hmem with rfl | hbelow
    · exact ⟨v, k, hv, (hmoves v hv hn).tag.symm.trans hu, hk, by rw [Node.modify_self hn]⟩
    · obtain ⟨child, hchild, hin⟩ := List.mem_flatMap.1 hbelow
      rcases (hmoves v hv hn).parts child hchild u hin with hnew | ⟨old, hold, hpart⟩
      · rw [hu] at hnew
        cases hnew
      · have hzero := h.uses_child hv hn hold
        have hle := @Node.uses_le_of_mem n _ _ hpart
        refine ⟨u, k, hv.below (Tree.mem_subtrees_of_child hold hpart), hu, hk, ?_⟩
        rw [Node.modify_of_uses_eq_zero (by omega)]

/-- Keys lead to the image of the node that they led to, where the change keeps them on the way. -/
theorem Sound.under?_modifyNode (h : run.Sound) {keys : List String}
    (hkeep : ∀ pre key rest, keys = pre ++ key :: rest → ∀ u, run.document.under? pre = some u →
      u.tag = some n → ∀ value, u.under? [key] = some value → (f u).under? [key] = some value)
    {v : Node} (hv : run.document.under? keys = some v) :
    (run.modifyNode n f).document.under? keys =
      some (Node.modify n (Node.numberedFrom run.next f) v) := by
  rw [h.document_modifyNode]
  refine Node.under?_modify (fun pre key rest heq u hu hn value hvalue => ?_) hv
  have hmem := Tree.mem_subtrees_of_under? hu
  have hchild : value ∈ u.children := by
    cases u with
    | map tag fields =>
        obtain ⟨key, -, hmem⟩ := Entries.mem_of_get?
          (by simpa [Tree.under?_map_cons] using hvalue : fields.get? key = some value)
        exact List.mem_map.2 ⟨(key, value), hmem, rfl⟩
    | _ => cases hvalue
  have hgaps : Node.gaps value.tags = 0 := Node.gaps_child (Node.gaps_of_mem h.document hmem) hchild
  obtain ⟨k, -, hnumber⟩ := Node.under?_number (f u) [key] run.next
  rw [Node.modify_of_uses_eq_zero (h.uses_child (Or.inl hmem) hn hchild), Node.numberedFrom,
    hnumber, hkeep pre key rest heq u hu hn value hvalue, Option.map_some,
    Node.number_eq_self hgaps]

/-- A change leaves the keys to a node as they are where it keeps them on the way. -/
theorem Sound.under?_modify (h : run.Sound) {keys : List String}
    (htag : ∀ u, run.Holds u → u.tag = some n → (f u).tag = u.tag)
    (hkeep : ∀ pre key rest, keys = pre ++ key :: rest → ∀ u, run.document.under? pre = some u →
      u.tag = some n → ∀ value, u.under? [key] = some value → (f u).under? [key] = some value)
    {v : Node} {m : Nat} (hv : run.document.under? keys = some v) (hm : v.tag = some m) :
    ∃ v', (run.modifyNode n f).document.under? keys = some v' ∧ v'.tag = some m := by
  refine ⟨_, h.under?_modifyNode hkeep hv, ?_⟩
  rw [Node.tag_modify, hm]
  intro hn
  have hsame := htag v (run.holds_document.below (Tree.mem_subtrees_of_under? hv)) hn
  exact (Node.tag_number_of_some (hsame.trans hn) run.next).trans hn.symm

theorem modify_scalar (hf : ∀ tag s, f (.scalar tag s) = .scalar tag s) (tag : Tag) (s : Scalar) :
    Node.modify n f (.scalar tag s) = .scalar tag s := by
  by_cases h : (Tree.scalar tag s).tag = some n
  · exact (Node.modify_self h).trans (hf tag s)
  · exact Node.modify_of_ne h

/-- Where a change only adds to a node, all nodes from before have only got more. -/
theorem Sound.grown_of_modify (h : run.Sound) (hf : ∀ tag s, f (.scalar tag s) = .scalar tag s)
    (hmoves : ∀ v, run.Holds v → v.tag = some n → Moves v (f v))
    (hgrown : ∀ v, run.Holds v → v.tag = some n → Grown v (f v)) {m : Nat} (hm : m < run.next)
    {u' : Node} (hholds : (run.modifyNode n f).Holds u') (hu' : u'.tag = some m) :
    ∃ v, run.Holds v ∧ v.tag = some m ∧ Grown v u' := by
  obtain ⟨v, k, hv, htag, -, rfl⟩ := h.origin_of_modify hmoves hm hholds hu'
  refine ⟨v, hv, htag, Grown.trans ?_ (grown_number _ k)⟩
  by_cases hn : v.tag = some n
  · rw [Node.modify_self hn]
    exact hgrown v hv hn
  · rw [Node.modify_of_ne hn]
    refine grown_mapChildren (fun tag s => ⟨tag, modify_scalar hf tag s⟩)
      fun child hchild hmapping => ?_
    by_cases hc : child.tag = some n
    · rw [Node.modify_self hc]
      have hholds := hv.below (Tree.mem_subtrees_of_child hchild (Tree.self_mem_subtrees child))
      exact (hgrown child hholds hc).mapping hmapping
    · rw [Node.modify_of_ne hc]
      cases child with
      | map => rfl
      | _ => cases hmapping

end Run

end ProtoShape
