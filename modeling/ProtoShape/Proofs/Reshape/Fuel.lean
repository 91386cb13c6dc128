import ProtoShape.Proofs.Reshape.Charges
import ProtoShape.Proofs.Reshape.MapKey

/-!
# Fuel that suffices

Some steps take fuel.  `Suffices x fuel run Q` says that more fuel changes nothing of what
the step `x` does, taken from `run`, and that `Q` holds of its result and of the run after
it.  For a `RiskyStep` it also says that there is a result.  The rules below follow the
constructs that steps are written with.

References take fuel too: the nodes of the document suffice to follow them
(`followReferences_eq`), since no node is passed twice.
-/

namespace ProtoShape

variable {run : Run} {α β : Type} {fuel : Nat}

namespace Step

/-- More fuel changes nothing, and the result has the property. -/
def Suffices (x : Nat → Step α) (fuel : Nat) (run : Run) (Q : α → Run → Prop) : Prop :=
  (∀ more, fuel ≤ more → x more run = x fuel run) ∧ Q (x fuel run).1 (x fuel run).2

variable {Q : α → Run → Prop}

theorem Suffices.mono {x : Nat → Step α} {Q' : α → Run → Prop} (h : Suffices x fuel run Q)
    (hQ : ∀ a after, Q a after → Q' a after) : Suffices x fuel run Q' :=
  ⟨h.1, hQ _ _ h.2⟩

/-- A step that takes no fuel. -/
theorem suffices_const {x : Step α} (h : Q (x run).1 (x run).2) :
    Suffices (fun _ => x) fuel run Q :=
  ⟨fun _ _ => rfl, h⟩

theorem suffices_pure {a : α} (h : Q a run) : Suffices (fun _ => pure a) fuel run Q :=
  suffices_const h

theorem suffices_get {f : Nat → Run → Step β} {Q : β → Run → Prop}
    (h : Suffices (fun k => f k run) fuel run Q) : Suffices (fun k => get >>= f k) fuel run Q := h

theorem suffices_bind {x : Nat → Step α} {f : Nat → α → Step β} {Q' : β → Run → Prop}
    (h : Suffices x fuel run Q)
    (hf : ∀ a after, Q a after → Suffices (fun k => f k a) fuel after Q') :
    Suffices (fun k => x k >>= f k) fuel run Q' := by
  obtain ⟨hsame, hQ⟩ := hf _ _ h.2
  refine ⟨fun more hmore => ?_, hQ⟩
  change f more (x more run).1 (x more run).2 = f fuel (x fuel run).1 (x fuel run).2
  rw [h.1 more hmore]
  exact hsame more hmore

/-- The fuel that a step hands on. -/
theorem suffices_succ {x : Nat → Step α} (h : Suffices (fun k => x (k + 1)) fuel run Q) :
    Suffices x (fuel + 1) run Q := by
  refine ⟨fun more hmore => ?_, h.2⟩
  obtain ⟨k, rfl⟩ : ∃ k, more = k + 1 := ⟨more - 1, by omega⟩
  exact h.1 k (by omega)

/-- What is known of the list that is left holds at the end of the empty one. -/
theorem suffices_forM {l : List α} {f : Nat → α → Step PUnit} {I : List α → Run → Prop}
    (h : ∀ a rest after, (a :: rest) <:+ l → I (a :: rest) after →
      Suffices (fun k => f k a) fuel after fun _ => I rest)
    (hstart : I l run) : Suffices (fun k => l.forM (f k)) fuel run fun _ => I [] := by
  induction l generalizing run with
  | nil => exact suffices_pure hstart
  | cons a rest ih =>
      refine suffices_bind (h a rest run List.suffix_rfl hstart) fun _ after hafter => ?_
      refine ih (fun b more between hsuffix => ?_) hafter
      exact h b more between (hsuffix.trans (List.suffix_cons a rest))

/-- What is known of the changes of a step with the fuel. -/
theorem Suffices.and_leads {U : Run → Run → Prop} {x : Nat → Step α} {Q' : α → Run → Prop}
    (h : Suffices x fuel run Q) (hleads : Leads U (x fuel) run Q') :
    Suffices x fuel run fun a after => Q a after ∧ Relation.ReflTransGen U run after ∧ Q' a after :=
  ⟨h.1, h.2, hleads⟩

end Step

namespace RiskyStep

/-- More fuel changes nothing, and there is a result, which has the property. -/
def Suffices (x : Nat → RiskyStep α) (fuel : Nat) (run : Run) (Q : α → Run → Prop) : Prop :=
  Step.Suffices (fun k => (x k).run) fuel run fun result after => ∃ a, result = .ok a ∧ Q a after

variable {Q : α → Run → Prop}

theorem Suffices.mono {x : Nat → RiskyStep α} {Q' : α → Run → Prop} (h : Suffices x fuel run Q)
    (hQ : ∀ a after, Q a after → Q' a after) : Suffices x fuel run Q' :=
  Step.Suffices.mono h fun _ after ⟨a, ha, hq⟩ => ⟨a, ha, hQ a after hq⟩

/-- A step that does the same with any fuel. -/
theorem suffices_of_eq {x : Nat → RiskyStep α} {a : α} {after : Run}
    (hx : ∀ k, (x k).run run = (.ok a, after)) (h : Q a after) : Suffices x fuel run Q := by
  refine ⟨fun more _ => (hx more).trans (hx fuel).symm, a, congrArg Prod.fst (hx fuel), ?_⟩
  have hafter : ((x fuel).run run).2 = after := congrArg Prod.snd (hx fuel)
  rw [hafter]
  exact h

theorem suffices_pure {a : α} (h : Q a run) : Suffices (fun _ => pure a) fuel run Q :=
  suffices_of_eq (fun _ => rfl) h

theorem suffices_get {f : Nat → Run → RiskyStep β} {Q : β → Run → Prop}
    (h : Suffices (fun k => f k run) fuel run Q) : Suffices (fun k => get >>= f k) fuel run Q := h

theorem suffices_bind {x : Nat → RiskyStep α} {f : Nat → α → RiskyStep β} {Q' : β → Run → Prop}
    (h : Suffices x fuel run Q)
    (hf : ∀ a after, Q a after → Suffices (fun k => f k a) fuel after Q') :
    Suffices (fun k => x k >>= f k) fuel run Q' := by
  refine Step.suffices_bind (f := fun k result => ExceptT.bindCont (f k) result) h ?_
  rintro result after ⟨a, rfl, hq⟩
  exact hf a after hq

theorem suffices_lift {x : Nat → Step α} (h : Step.Suffices x fuel run Q) :
    Suffices (fun k => (monadLift (x k) : RiskyStep α)) fuel run Q := by
  refine ⟨fun more hmore => ?_, (x fuel run).1, rfl, h.2⟩
  change (Except.ok (x more run).1, (x more run).2) = (Except.ok (x fuel run).1, (x fuel run).2)
  rw [h.1 more hmore]

theorem suffices_except {x : Except Fault α} {a : α} (hx : x = .ok a) (h : Q a run) :
    Suffices (fun _ => (liftM x : RiskyStep α)) fuel run Q := by
  subst hx
  exact suffices_pure h

theorem suffices_succ {x : Nat → RiskyStep α} (h : Suffices (fun k => x (k + 1)) fuel run Q) :
    Suffices x (fuel + 1) run Q :=
  Step.suffices_succ h

theorem suffices_forM {l : List α} {f : Nat → α → RiskyStep PUnit} {I : Run → Prop}
    (h : ∀ a ∈ l, ∀ after, I after → Suffices (fun k => f k a) fuel after fun _ => I)
    (hstart : I run) : Suffices (fun k => l.forM (f k)) fuel run fun _ => I := by
  induction l generalizing run with
  | nil => exact suffices_pure hstart
  | cons a rest ih =>
      refine suffices_bind (h a List.mem_cons_self run hstart) fun _ after hafter => ?_
      exact ih (fun b hb => h b (List.mem_cons_of_mem _ hb)) hafter

/-- What is known of the changes of a step with the fuel. -/
theorem Suffices.and_leads {U : Run → Run → Prop} {x : Nat → RiskyStep α} {Q' : α → Run → Prop}
    (h : Suffices x fuel run Q) (hleads : Leads U (x fuel) run Q') :
    Suffices x fuel run fun a after => Q a after ∧ Relation.ReflTransGen U run after ∧
    Q' a after := by
  obtain ⟨hsame, a, ha, hq⟩ := h
  exact ⟨hsame, a, ha, hq, hleads.1, hleads.2 a ha⟩

end RiskyStep

/-! ## References -/

theorem Tree.length_tags (t : Node) : t.tags.length = t.nodeCount := by
  induction t using Tree.children_induction with
  | step t ih =>
      rw [Tree.tags_eq, Charge.nodeCount_eq, List.length_cons, List.length_flatMap,
        List.map_congr_left ih, Nat.add_comm]

/-- A node has been passed where no tags are left. -/
theorem mem_of_no_free {document node : Node} {seen : List Tag} (hnode : node ∈ document.subtrees)
    (hfree : (document.tags.filter fun tag => tag ∉ seen).length = 0) : node.tag ∈ seen := by
  have hnone := List.filter_eq_nil_iff.1 (List.length_eq_zero_iff.1 hfree)
    node.tag (Tree.tag_mem_tags hnode)
  simpa using hnone

/-- Fewer tags are left when a node is passed. -/
theorem length_free_lt {document node : Node} {seen : List Tag} (hnode : node ∈ document.subtrees)
    (hfresh : node.tag ∉ seen) : (document.tags.filter fun tag => tag ∉ node.tag :: seen).length <
      (document.tags.filter fun tag => tag ∉ seen).length := by
  have hsplit : (document.tags.filter fun tag => tag ∉ node.tag :: seen) =
      (document.tags.filter fun tag => tag ∉ seen).filter fun tag => tag ≠ node.tag := by
    rw [List.filter_filter]
    refine List.filter_congr fun tag _ => ?_
    simp [not_or]
  rw [hsplit]
  exact List.length_filter_lt_length_iff_exists
    (l := document.tags.filter fun tag => tag ∉ seen) (p := fun tag => tag ≠ node.tag) |>.2
    ⟨node.tag, List.mem_filter.2 ⟨Tree.tag_mem_tags hnode, by simpa using hfresh⟩, by simp⟩

/-- With the tags that have not been passed, the end of the references is reached. -/
theorem followReferences_more {document node : Node} {seen : List Tag} {more : Nat}
    (hnode : node ∈ document.subtrees)
    (hfree : (document.tags.filter fun tag => tag ∉ seen).length ≤ fuel) (hmore : fuel ≤ more) :
    followReferences document more seen node = followReferences document fuel seen node := by
  induction fuel generalizing node seen more with
  | zero =>
      have hseen := mem_of_no_free hnode (Nat.le_zero.1 hfree)
      unfold followReferences
      cases node.ref? with
      | none => rfl
      | some ref => simp only [hseen, if_true]
  | succ fuel ih =>
      obtain ⟨k, rfl⟩ : ∃ k, more = k + 1 := ⟨more - 1, by omega⟩
      unfold followReferences
      cases node.ref? with
      | none => rfl
      | some ref =>
          simp only
          split
          · rfl
          · rename_i hfresh
            cases hresolve : document.resolve ref with
            | error problem => rfl
            | ok target =>
                have hfewer := length_free_lt hnode hfresh
                exact ih (mem_subtrees_of_resolve hresolve) (by omega) (by omega)

/-- The nodes of the document suffice to follow references, wherever they start. -/
theorem followReferences_eq (document node : Node) (h : document.nodeCount + 1 ≤ fuel) :
    followReferences document fuel [] node =
      followReferences document (document.nodeCount + 1) [] node := by
  obtain ⟨k, rfl⟩ : ∃ k, fuel = k + 1 := ⟨fuel - 1, by omega⟩
  unfold followReferences
  cases node.ref? with
  | none => rfl
  | some ref =>
      simp only [List.not_mem_nil, if_false]
      cases hresolve : document.resolve ref with
      | error problem => rfl
      | ok target =>
          refine followReferences_more (mem_subtrees_of_resolve hresolve) ?_ (by omega)
          rw [← Tree.length_tags]
          exact List.length_filter_le _ _

end ProtoShape
