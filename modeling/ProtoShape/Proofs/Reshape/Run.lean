import ProtoShape.Proofs.Node
import ProtoShape.Reshape.Run

/-!
# The numbers of a run

A run is sound if every node of its document and of the schema aside has a number,
no two nodes have the same one, and all of them have been given out.  In a sound run a
number leads to its node (`node?_of_holds`), and all paths to a number are the same
(`Sound.nodup`).

Nodes that a rule has made have no numbers at first.  `settle_sound` says that it is
enough to use no number twice: numbering does the rest.  So a replacement keeps a run
sound if it brings in no number more often than what it replaces (`Sound.modifyNode`).
-/

namespace ProtoShape.Run

variable {run : Run}

/-- How often a number is used in the document and in the schema aside. -/
def uses (run : Run) (n : Nat) : Nat := Node.uses n run.document + Node.uses n run.aside

/-- No number is used twice, and only numbers that have been given out are used. -/
structure Distinct (run : Run) : Prop where
  once : ∀ n, run.uses n ≤ 1
  below : ∀ n, run.next ≤ n → run.uses n = 0

/-- Every node has a number of its own. -/
structure Sound (run : Run) : Prop extends Distinct run where
  document : Node.gaps run.document.tags = 0
  aside : Node.gaps run.aside.tags = 0

/-- A node of the document or of the schema aside. -/
def Holds (run : Run) (u : Node) : Prop := u ∈ run.document.subtrees ∨ u ∈ run.aside.subtrees

/-- Numbering what has no number makes a run sound. -/
theorem settle_sound (h : run.Distinct) : run.settle.Sound := by
  have hdocument : ∀ n, run.next ≤ n → Node.uses n run.document = 0 :=
    fun n hn => Nat.eq_zero_of_add_eq_zero_right (h.below n hn)
  have haside : ∀ n, run.next + Node.gaps run.document.tags ≤ n → Node.uses n run.aside = 0 :=
    fun n hn => Nat.eq_zero_of_add_eq_zero_left (h.below n (by omega))
  have hnext := (Node.number_numbers run.document run.next).next
  have hlast := (Node.number_numbers run.aside (run.next + Node.gaps run.document.tags)).next
  have huses : ∀ n, run.settle.uses n =
      (Node.uses n run.document +
          if run.next ≤ n ∧ n < run.next + Node.gaps run.document.tags then 1 else 0) +
        (Node.uses n run.aside +
          if run.next + Node.gaps run.document.tags ≤ n ∧
            n < run.next + Node.gaps run.document.tags +
              Node.gaps run.aside.tags then 1 else 0) := by
    intro n
    rw [← Node.uses_number hdocument, ← Node.uses_number haside, ← hnext]
    rfl
  have hsettled : run.settle.next =
      run.next + Node.gaps run.document.tags + Node.gaps run.aside.tags := by
    rw [← hlast, ← hnext]
    rfl
  refine ⟨⟨fun n => ?_, fun n hn => ?_⟩, ?_, ?_⟩
  · have honce := h.once n
    have hbelow := h.below n
    unfold uses at honce hbelow
    rw [huses]
    split <;> split <;> omega
  · have hbelow := h.below n
    unfold uses at hbelow
    rw [huses]
    rw [hsettled] at hn
    split <;> split <;> omega
  · exact (congrArg Node.gaps (Node.number_numbers run.document run.next).tags).trans
      (Node.gaps_numbered _ _)
  · exact (congrArg Node.gaps (Node.number_numbers run.aside _).tags).trans (Node.gaps_numbered _ _)

/-- A run starts sound, whatever the value of its document is. -/
theorem start_sound {τ : Type} (options : Options) (value : Tree τ) :
    (start options (.ofValue value)).Sound := by
  have hnone : ∀ n, Node.uses n (.ofValue value) + Node.uses n default = 0 := by
    intro n
    rw [Node.uses, Node.ofValue, Tree.tags_mapTags]
    simp [List.count_eq_zero, default]
  exact settle_sound ⟨fun n => by rw [uses, hnone]; omega, fun n _ => hnone n⟩

theorem node?_holds {n : Nat} {u : Node} (h : run.node? n = some u) :
    run.Holds u ∧ u.tag = some n := by
  rcases Option.or_eq_some_iff.1 h with hdocument | ⟨-, haside⟩
  · obtain ⟨hmem, htag⟩ := Node.find?_mem hdocument
    exact ⟨Or.inl hmem, htag⟩
  · obtain ⟨hmem, htag⟩ := Node.find?_mem haside
    exact ⟨Or.inr hmem, htag⟩

section Sound

variable (h : run.Sound)
include h

/-- The tags of the document are distinct. -/
theorem Sound.nodup : (run.document.tags ++ run.aside.tags).Nodup := by
  rw [List.nodup_iff_count_le_one]
  intro tag
  rw [List.count_append]
  cases tag with
  | none =>
      have hdocument := h.document
      have haside := h.aside
      simp only [Node.gaps] at hdocument haside
      omega
  | some n => exact h.once n

/-- A number leads to its node. -/
theorem Sound.node?_of_holds {u : Node} (hu : run.Holds u) {n : Nat} (htag : u.tag = some n) :
    run.node? n = some u := by
  obtain ⟨hdocument, haside, hdisjoint⟩ := List.nodup_append.1 h.nodup
  unfold node?
  rcases hu with hmem | hmem
  · rw [Node.find?_of_mem hdocument hmem htag, Option.some_or]
  · have hnone : Node.find? n run.document = none := by
      cases hfind : Node.find? n run.document with
      | none => rfl
      | some v =>
          obtain ⟨hmem', htag'⟩ := Node.find?_mem hfind
          exact absurd (htag'.trans htag.symm)
            (hdisjoint _ (Tree.tag_mem_tags hmem') _ (Tree.tag_mem_tags hmem))
    rw [hnone, Option.none_or, Node.find?_of_mem haside hmem htag]

/-- Every node has a number that has been given out. -/
theorem Sound.exists_tag {u : Node} (hu : run.Holds u) : ∃ n, n < run.next ∧ u.tag = some n := by
  have hgaps : ∀ t : Node, Node.gaps t.tags = 0 → u ∈ t.subtrees → ∃ n, u.tag = some n := by
    intro t hnone hmem
    have hin := Tree.tag_mem_tags hmem
    cases htag : u.tag with
    | none => exact absurd (htag ▸ hin) (List.count_eq_zero.1 hnone)
    | some n => exact ⟨n, rfl⟩
  have hused : ∀ n, u.tag = some n → 0 < run.uses n := by
    intro n htag
    unfold uses
    rcases hu with hmem | hmem
    · have hpos := Node.uses_pos hmem htag
      omega
    · have hpos := Node.uses_pos hmem htag
      omega
  obtain ⟨n, htag⟩ := hu.elim (hgaps _ h.document) (hgaps _ h.aside)
  refine ⟨n, ?_, htag⟩
  by_contra hge
  have hzero := h.below n (by omega)
  have hpos := hused n htag
  omega

/-- There is nothing left to number. -/
theorem Sound.settle_eq_self : run.settle = run := by
  unfold settle
  simp only [Node.number_eq_self h.document, Node.number_eq_self h.aside]

/-- A replacement that brings in no number more often than what it replaces keeps a
run sound. -/
theorem Sound.modifyNode {n : Nat} {f : Node → Node}
    (hf : ∀ u, run.node? n = some u → ∀ m, Node.uses m (f u) ≤ Node.uses m u) :
    (run.modifyNode n f).Sound := by
  have hle : ∀ m, Node.uses m (Node.modify n f run.document) +
      Node.uses m (Node.modify n f run.aside) ≤ run.uses m := by
    intro m
    exact Nat.add_le_add
      (Node.uses_modify_le fun u hu htag => hf u (h.node?_of_holds (Or.inl hu) htag) m)
      (Node.uses_modify_le fun u hu htag => hf u (h.node?_of_holds (Or.inr hu) htag) m)
  exact settle_sound ⟨fun m => Nat.le_trans (hle m) (h.once m),
    fun m hm => Nat.le_zero.1 (h.below m hm ▸ hle m)⟩

/-- After a replacement, the new nodes are numbered and nothing else. -/
theorem Sound.document_modifyNode (n : Nat) (f : Node → Node) : (run.modifyNode n f).document =
    Node.modify n (Node.numberedFrom run.next f) run.document := by
  have honce := h.once n
  unfold uses at honce
  exact Node.number_modify h.document (by omega) run.next

end Sound

/-! ## The nodes after a change -/

theorem holds_settle {u' : Node} (h : run.settle.Holds u') :
    ∃ u k, run.Holds u ∧ run.next ≤ k ∧ u' = (Node.number u k).1 := by
  rcases h with hmem | hmem
  · obtain ⟨u, hu, k, hk, rfl⟩ := Node.mem_subtrees_number hmem
    exact ⟨u, k, Or.inl hu, hk, rfl⟩
  · obtain ⟨u, hu, k, hk, rfl⟩ := Node.mem_subtrees_number hmem
    have hnext := (Node.number_numbers run.document run.next).next
    exact ⟨u, k, Or.inr hu, by omega, rfl⟩

/-- A node of a run after a replacement is a node from before, or a part of what has
been put in. -/
theorem holds_modifyNode {n : Nat} {f : Node → Node} {u' : Node}
    (h : (run.modifyNode n f).Holds u') :
    ∃ u k, run.next ≤ k ∧ u' = (Node.number u k).1 ∧
      ((∃ v, run.Holds v ∧ v.tag ≠ some n ∧ u = Node.modify n f v) ∨
        ∃ v, run.Holds v ∧ v.tag = some n ∧ u ∈ (f v).subtrees) := by
  obtain ⟨u, k, hu, hk, rfl⟩ := holds_settle h
  refine ⟨u, k, hk, rfl, ?_⟩
  rcases hu with hmem | hmem
  · rcases Node.mem_subtrees_modify hmem with ⟨v, hv, hrest⟩ | ⟨v, hv, hrest⟩
    · exact Or.inl ⟨v, Or.inl hv, hrest⟩
    · exact Or.inr ⟨v, Or.inl hv, hrest⟩
  · rcases Node.mem_subtrees_modify hmem with ⟨v, hv, hrest⟩ | ⟨v, hv, hrest⟩
    · exact Or.inl ⟨v, Or.inr hv, hrest⟩
    · exact Or.inr ⟨v, Or.inr hv, hrest⟩

/-- Numbers that have been given out stay so. -/
theorem next_le_settle : run.next ≤ run.settle.next := by
  have hdocument := (Node.number_numbers run.document run.next).next
  have haside := (Node.number_numbers run.aside (Node.number run.document run.next).2).next
  change run.next ≤ (Node.number run.aside (Node.number run.document run.next).2).2
  omega

theorem next_le_modifyNode (n : Nat) (f : Node → Node) : run.next ≤ (run.modifyNode n f).next :=
  @next_le_settle
    { run with document := Node.modify n f run.document, aside := Node.modify n f run.aside }

end ProtoShape.Run
