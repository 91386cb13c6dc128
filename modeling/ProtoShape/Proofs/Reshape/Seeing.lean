import ProtoShape.Proofs.Places
import ProtoShape.Proofs.Reshape.Run

/-!
# What a walk sees after a change

A change replaces one node and numbers what is new.  What a walk sees afterwards is
traced back to what it saw before: numbering moves nothing (`sees_number`), and past the
replaced node a walk sees the images of what it saw (`sees_modify`).  So only what has been
put in has to be looked at (`Sound.sees_modifyNode`).
-/

namespace ProtoShape

open Tree

/-- The tags of the numbers that are passed over. -/
def Among (numbers : Nat → Prop) (tag : Tag) : Prop := ∃ n, tag = some n ∧ numbers n

namespace Node

variable {numbers : Nat → Prop}

theorem text?_number (t : Node) (next : Nat) : (number t next).1.text? = t.text? := by
  cases t with
  | map tag fields => cases tag <;> rfl
  | scalar tag s => cases tag <;> cases s <;> rfl
  | list tag items => cases tag <;> rfl

/-- Mappings with the same text under `$ref` take the same roles. -/
theorem admits_congr {fields fields' : Fields Tag} {f : Node → Node} (role : Role)
    (hget : fields'.get? "$ref" = (fields.get? "$ref").map f)
    (hf : ∀ value, fields.get? "$ref" = some value → (f value).text? = value.text?) :
    role.admits fields' = role.admits fields := by
  have href : Fields.isReference fields' = Fields.isReference fields := by
    unfold Fields.isReference Fields.ref? Fields.text?
    rw [hget]
    cases hvalue : fields.get? "$ref" with
    | none => rfl
    | some value => rw [Option.map_some, Option.bind_some, Option.bind_some, hf value hvalue]
  unfold Role.admits
  rw [href]

theorem stepsTo_number {t u' : Node} {place place' : Place} {next : Nat}
    (h : StepsTo (number t next).1 place u' place') :
    ∃ u, StepsTo t place u place' ∧ FilledFrom next u u' := by
  cases t with
  | scalar tag s => cases tag <;> cases h
  | list tag items =>
      obtain ⟨tag', items', heq, hitems⟩ := number_list tag items next
      rw [heq] at h
      cases h with
      | item hspread hitem' =>
          obtain ⟨item, hitem, hfilled⟩ := hitems u' hitem'
          exact ⟨item, .item hspread hitem, hfilled⟩
  | map tag fields =>
      obtain ⟨tag', fields', heq, hfields⟩ := number_map tag fields next
      rw [heq] at h
      cases h with
      | entry hspread hentry' =>
          obtain ⟨entry, hentry, -, hfilled⟩ := hfields.entries _ hentry'
          exact ⟨entry.2, .entry hspread hentry, hfilled⟩
      | slot hspread hadmits hslot hget' =>
          obtain ⟨k, hk, hget⟩ := hfields.get? _
          rw [hget'] at hget
          obtain ⟨value, hvalue, rfl⟩ := Option.map_eq_some_iff.1 hget.symm
          refine ⟨value, .slot hspread ?_ hslot hvalue, k, hk, rfl⟩
          obtain ⟨k', -, href⟩ := hfields.get? "$ref"
          rw [← admits_congr place.role href fun value _ => text?_number value k', hadmits]

theorem not_among_of_filled {next : Nat} {u u' : Node} (h : FilledFrom next u u')
    (hskip : ¬Among numbers u'.tag) : ¬Among numbers u.tag := by
  obtain ⟨k, -, rfl⟩ := h
  rintro ⟨n, htag, hn⟩
  exact hskip ⟨n, tag_number_of_some htag k, hn⟩

/-- What a walk sees after numbering is what it saw before with the gaps filled. -/
theorem sees_number {t u' : Node} {place place' : Place} {next : Nat}
    (h : Sees (Among numbers) (number t next).1 place u' place') :
    ∃ u, Sees (Among numbers) t place u place' ∧ FilledFrom next u u' := by
  induction h with
  | here hskip =>
      have hfilled : FilledFrom next t (number t next).1 := ⟨next, Nat.le_refl _, rfl⟩
      exact ⟨t, .here (not_among_of_filled hfilled hskip), hfilled⟩
  | step _ hstep hskip ih =>
      obtain ⟨parent, hparent, k, hk, rfl⟩ := ih
      obtain ⟨u, hu, k', hk', rfl⟩ := stepsTo_number hstep
      have hfilled : FilledFrom next u (number u k').1 := ⟨k', Nat.le_trans hk hk', rfl⟩
      exact ⟨u, hparent.step hu (not_among_of_filled hfilled hskip), hfilled⟩

theorem stepsTo_mapChildren {f : Node → Node} {t u' : Node} {place place' : Place}
    (hf : ∀ child ∈ t.children, (f child).text? = child.text?)
    (h : StepsTo (t.mapChildren f) place u' place') : ∃ u, StepsTo t place u place' ∧ u' = f u := by
  cases t with
  | scalar tag s => cases h
  | list tag items =>
      cases h with
      | item hspread hitem' =>
          obtain ⟨item, hitem, rfl⟩ := List.mem_map.1 hitem'
          exact ⟨item, .item hspread hitem, rfl⟩
  | map tag fields =>
      cases h with
      | entry hspread hentry' =>
          obtain ⟨entry, hentry, heq⟩ := List.mem_map.1 hentry'
          cases heq
          exact ⟨entry.2, .entry hspread hentry, rfl⟩
      | slot hspread hadmits hslot hget' =>
          rw [Entries.get?_mapValues] at hget'
          obtain ⟨value, hvalue, rfl⟩ := Option.map_eq_some_iff.1 hget'
          refine ⟨value, .slot hspread ?_ hslot hvalue, rfl⟩
          rw [← admits_congr place.role (Entries.get?_mapValues f fields "$ref"), hadmits]
          intro ref href
          obtain ⟨key, -, hmem⟩ := Entries.mem_of_get? href
          exact hf ref (List.mem_map_of_mem hmem)

variable {n : Nat} {f : Node → Node}

theorem text?_modify {t : Node} (h : t.tag = some n → (f t).text? = t.text?) :
    (modify n f t).text? = t.text? := by
  by_cases htag : t.tag = some n
  · rw [modify_self htag, h htag]
  · rw [modify_of_ne htag]
    cases t <;> rfl

/-- What a walk sees after a replacement: the image of what it saw before, or something
at or below the new node. -/
theorem sees_modify {t u' : Node} {place place' : Place}
    (hf : ∀ u ∈ t.subtrees, u.tag = some n → (f u).tag = u.tag ∧ (f u).text? = u.text?)
    (h : Sees (Among numbers) (modify n f t) place u' place') :
    (∃ u, Sees (Among numbers) t place u place' ∧ u.tag ≠ some n ∧ u' = modify n f u) ∨
      ∃ u between, Sees (Among numbers) t place u between ∧ u.tag = some n ∧
        Sees (Among numbers) (f u) between u' place' := by
  -- A node that is seen after the replacement as an image, or as the new node.
  have himage : ∀ {u : Node} {q : Place}, u ∈ t.subtrees →
      (¬Among numbers u.tag → Sees (Among numbers) t place u q) →
      ¬Among numbers (modify n f u).tag →
      (∃ v, Sees (Among numbers) t place v q ∧ v.tag ≠ some n ∧ modify n f u = modify n f v) ∨
        ∃ v between, Sees (Among numbers) t place v between ∧ v.tag = some n ∧
          Sees (Among numbers) (f v) between (modify n f u) q := by
    intro u q hmem hsees hskip
    rw [tag_modify fun htag => (hf u hmem htag).1] at hskip
    by_cases htag : u.tag = some n
    · refine Or.inr ⟨u, q, hsees hskip, htag, ?_⟩
      rw [modify_self htag]
      exact .here ((hf u hmem htag).1.symm ▸ hskip)
    · exact Or.inl ⟨u, hsees hskip, htag, rfl⟩
  induction h with
  | here hskip => exact himage (self_mem_subtrees t) .here hskip
  | step _ hstep hskip ih =>
      rcases ih with ⟨parent, hparent, hne, rfl⟩ | ⟨u, between, hu, htag, hbelow⟩
      · rw [modify_of_ne hne] at hstep
        have hbelow : ∀ child ∈ parent.children, child ∈ t.subtrees := fun child hchild =>
          mem_subtrees_trans (mem_subtrees_of_child hchild (self_mem_subtrees child))
            hparent.mem_subtrees
        obtain ⟨u, hu, rfl⟩ := stepsTo_mapChildren
          (fun child hchild => text?_modify fun htag =>
            (hf child (hbelow child hchild) htag).2) hstep
        exact himage (hbelow u hu.mem_children) (hparent.step hu) hskip
      · exact Or.inr ⟨u, between, hu, htag, hbelow.step hstep hskip⟩

end Node

/-- What a walk sees after a change of a run: an image, or a part of what has been put in. -/
theorem Run.Sound.sees_modifyNode {run : Run} (h : run.Sound) {numbers : Nat → Prop} {n : Nat}
    {f : Node → Node} (hf : ∀ u, run.Holds u → u.tag = some n → (f u).tag = u.tag ∧
      (f u).text? = u.text?)
    {u' : Node} {place place' : Place}
    (hsees : Sees (Among numbers) (run.modifyNode n f).document place u' place') :
    (∃ u, Sees (Among numbers) run.document place u place' ∧ u.tag ≠ some n ∧
        u' = Node.modify n (Node.numberedFrom run.next f) u) ∨
      ∃ v between u, Sees (Among numbers) run.document place v between ∧ v.tag = some n ∧
        Sees (Among numbers) (f v) between u place' ∧ Node.FilledFrom run.next u u' := by
  have hkeep : ∀ u ∈ run.document.subtrees, u.tag = some n →
      (Node.numberedFrom run.next f u).tag = u.tag ∧
      (Node.numberedFrom run.next f u).text? = u.text? := by
    intro u hu htag
    obtain ⟨hsame, htext⟩ := hf u (Or.inl hu) htag
    refine ⟨(Node.tag_number_of_some (hsame.trans htag) _).trans htag.symm, ?_⟩
    rw [Node.numberedFrom, Node.text?_number, htext]
  rw [h.document_modifyNode] at hsees
  rcases Node.sees_modify hkeep hsees with hold | ⟨v, between, hv, htag, hbelow⟩
  · exact Or.inl hold
  · obtain ⟨u, hu, hfilled⟩ := Node.sees_number hbelow
    exact Or.inr ⟨v, between, u, hv, htag, hu, hfilled⟩

end ProtoShape
