import Mathlib.Tactic.Ring
import ProtoShape.Proofs.Reshape.Progress

/-!
# How deep a walk goes

A walk goes on below a node with one unit of fuel less.  If nothing has changed since the node
was read, there are fewer nodes below it than at it.  If something has changed, there are
fewer chances for the rules to apply, and each chance is worth as much fuel as there can
ever be nodes (`Enough.child`).  So fuel that is `Enough` at the root is enough all the way, and
more changes nothing (`walk_suffices`).
-/

namespace ProtoShape

open Rules Tree Relation

/-! ## Heights -/

theorem nodeCount_le_of_mem {t u : Node} (h : u ∈ t.subtrees) : u.nodeCount ≤ t.nodeCount := by
  rw [← length_tags, ← length_tags]
  exact (tags_sublist h).length_le

theorem nodeCount_lt_of_child {t child : Node} (h : child ∈ t.children) :
    child.nodeCount < t.nodeCount := by
  have hle := List.le_sum_of_mem (List.mem_map_of_mem (f := Tree.nodeCount) h)
  rw [Charge.nodeCount_eq t]
  omega

/-- The number of the nodes at and below the node with a tag. -/
def Run.height (run : Run) (tag : Tag) : Nat := ((tag.bind run.node?).map Tree.nodeCount).getD 0

theorem Run.nodeCount_le {run : Run} {u : Node} (h : run.Holds u) :
    u.nodeCount ≤ run.load .size + 1 := by
  have hdocument := Charge.load_size_add_one run.document
  have haside := Charge.load_size_add_one run.aside
  unfold Run.load
  rcases h with hmem | hmem
  · have hle := nodeCount_le_of_mem hmem
    omega
  · have hle := nodeCount_le_of_mem hmem
    omega

theorem Run.height_le (run : Run) (tag : Tag) : run.height tag ≤ run.load .size + 1 := by
  unfold Run.height
  cases hnode : tag.bind run.node? with
  | none => exact Nat.zero_le _
  | some u =>
      obtain ⟨n, -, hn⟩ := Option.bind_eq_some_iff.1 hnode
      exact Run.nodeCount_le (Run.node?_holds hn).1

/-! ## Fuel -/

/-- Fuel for the nodes below a tag, and for all nodes that there may be after each change. -/
structure Enough (bound unit fuel : Nat) (run : Run) (tag : Tag) : Prop where
  workable : run.Workable
  price : run.price ≤ unit
  worth : run.load .size + unit * run.load .chances + 1 ≤ bound
  depth : run.height tag + bound * run.load .chances ≤ fuel

/-- The fuel that is left is enough for what stands below. -/
theorem Enough.child {bound unit fuel : Nat} {run after : Run} {n : Nat}
    (h : Enough bound unit (fuel + 1) run (some n)) (hsound : run.Sound) {u : Node}
    (hnode : run.node? n = some u) (hadvances : Advances run after) {tag : Tag}
    (hchild : after.document = run.document → after.aside = run.aside →
      ∃ child ∈ u.children, child.tag = tag) : Enough bound unit fuel after tag := by
  have hworth := hadvances.worth unit h.price
  have henough := h.worth
  have hdepth := h.depth
  have hheight : run.height (some n) = u.nodeCount := by
    unfold Run.height
    rw [Option.bind_some, hnode]
    rfl
  refine ⟨hadvances.workable h.workable, ?_, by omega, ?_⟩
  · refine Nat.le_trans ?_ h.price
    have hwaiting := hadvances.waiting
    unfold Run.price
    omega
  · rcases hadvances.change with ⟨hdocument, haside⟩ | hfewer
    · obtain ⟨child, hmem, rfl⟩ := hchild hdocument haside
      have hload : after.load .chances = run.load .chances := by
        rw [Run.load, Run.load, hdocument, haside]
      have hbelow : after.height child.tag = child.nodeCount := by
        have hholds := (Run.node?_holds hnode).1.below
          (mem_subtrees_of_child hmem (self_mem_subtrees child))
        obtain ⟨m, -, htag⟩ := hsound.exists_tag hholds
        unfold Run.height Run.node?
        rw [htag, hdocument, haside, Option.bind_some]
        have hfound := hsound.node?_of_holds hholds htag
        unfold Run.node? at hfound
        rw [hfound]
        rfl
      have hlt := nodeCount_lt_of_child hmem
      rw [hload]
      omega
    · have hheight' := after.height_le tag
      have hcount := Charge.nodeCount_eq u
      have hchances :=
        Nat.mul_le_mul_left bound (show after.load .chances + 1 ≤ run.load .chances from hfewer)
      rw [Nat.mul_add, Nat.mul_one] at hchances
      omega

namespace RiskyStep

variable {run : Run} {fuel : Nat} {place : Place} {site : Site} {tag : Tag}

/-- There is no walk from a tag that no node has. -/
theorem walk_of_missing {visit : Option String → Location → Nat → RiskyStep Unit}
    (h : tag.bind run.node? = none) : (walk visit fuel place site tag).run run = (.ok (), run) := by
  cases fuel with
  | zero => rfl
  | succ fuel =>
      cases tag with
      | none => rfl
      | some n =>
          have hnode : run.node? n = none := h
          unfold walk
          rw [run_get_bind, hnode]
          cases place.spread <;> rfl

/-- What a walk has done so far: a sequence of updates, which has used up chances if it has changed
anything. -/
structure Walked (run after : Run) : Prop where
  advances : Advances run after
  updates : Updates IsSchema run after

theorem Walked.refl (run : Run) : Walked run run := ⟨.refl run, .refl⟩

theorem Walked.trans {run after last : Run} (h : Walked run after) (h' : Walked after last) :
    Walked run last :=
  ⟨h.advances.trans h'.advances, h.updates.trans h'.updates⟩

theorem Walked.located {run after : Run} (h : Walked run after) {m : Nat} {place : Place}
    (hm : Located run m place) : Located after m place :=
  Guides.keep_all guides_located h.updates hm

theorem walk_suffices_of_missing (h : tag.bind run.node? = none) :
    Suffices (fun k => walk reshapeSchema k place site tag) fuel run fun _ => Walked run :=
  suffices_of_eq (fun _ => walk_of_missing h) (.refl run)

/-- The fuel suffices for the walks that start below a node later on.  Unless something has changed
by then, they start at its children. -/
def WalksOn (fuel : Nat) (run : Run) (u : Node) : Prop :=
  ∀ {after : Run} {place : Place} {site : Site} {tag : Tag}, Walked run after →
    (after.document = run.document → after.aside = run.aside →
      ∃ child ∈ u.children, child.tag = tag) →
    (∀ m, tag = some m → Located after m place) →
      Suffices (fun k => walk reshapeSchema k place site tag) fuel after fun _ => Walked run

section Below

variable {u : Node} {n : Nat} {after : Run}

theorem WalksOn.element {owner : Tag} {items : List Node} {item : Node}
    (hon : WalksOn fuel run (.list owner items)) (hhere : Located run n place)
    (hnode : run.node? n = some (.list owner items)) (hitem : item ∈ items)
    (hafter : Walked run after) :
    Suffices (fun k => walk reshapeSchema k (.one place.role) site item.tag) fuel after
      fun _ => Walked run :=
  hon hafter (fun _ _ => ⟨item, hitem, rfl⟩) fun _ hm =>
    hafter.located (hhere.element hnode hitem hm)

theorem WalksOn.entry {owner : Tag} {entries : Fields Tag} {key : Scalar} {value : Node}
    (hon : WalksOn fuel run (.map owner entries)) (hhere : Located run n place)
    (hspread : place.spread = .entries) (hnode : run.node? n = some (.map owner entries))
    (hentry : (key, value) ∈ entries.toList) (hafter : Walked run after) :
    Suffices (fun k => walk reshapeSchema k (.one place.role) site value.tag) fuel after
      fun _ => Walked run :=
  hon hafter (fun _ _ => ⟨value, List.mem_map_of_mem (f := (·.2)) hentry, rfl⟩) fun _ hm =>
    hafter.located (hhere.entry hspread hnode hentry hm)

/-- A keyword is read from the schema as it is by then, and that is as it was unless something has
changed. -/
theorem WalksOn.slot {owner : Tag} {fields : Fields Tag} {slot : Slot} {value : Node}
    (hon : WalksOn fuel run (.map owner fields)) (hhere : Located run n place)
    (hspread : place.spread = .single) (hnode : run.node? n = some (.map owner fields))
    (hslot : slot ∈ place.role.slots) (hafter : Walked run after)
    (hvalue : (((after.node? n).bind Tree.fields?).bind (·.get? slot.key)) = some value) :
    Suffices (fun k => walk reshapeSchema k slot.place site value.tag) fuel after
      fun _ => Walked run := by
  obtain ⟨inner, hinner, hget⟩ := Option.bind_eq_some_iff.1 hvalue
  obtain ⟨v, hv, hvf⟩ := Option.bind_eq_some_iff.1 hinner
  cases v with
  | map owner' fields' =>
      cases hvf
      refine hon hafter (fun hdocument haside => ?_) fun m hm =>
        (hafter.located hhere).slot hspread hv hslot hget hm
      unfold Run.node? at hv hnode
      rw [hdocument, haside] at hv
      obtain ⟨-, rfl⟩ := Tree.map.inj (Option.some.inj (hnode.symm.trans hv))
      obtain ⟨key, -, hmem⟩ := Entries.mem_of_get? hget
      exact ⟨value, List.mem_map_of_mem (f := (·.2)) hmem, rfl⟩
  | _ => cases hvf

theorem visit_suffices {hook : Hook} (hhere : Located run n place)
    (hspread : place.spread = .single)
    (hrole : place.role = .schema hook) (hworkable : run.Workable) (hafter : Walked run after)
    (name : Option String) (location : Location) :
    Suffices (fun _ => reshapeSchema name location n) fuel after fun _ => Walked run := by
  have hschema := (hafter.located hhere).isSchema hspread hrole
  have hworks := hafter.advances.workable hworkable
  refine (reshapeSchema_suffices hschema hworks name location).mono fun _ last hlast => ?_
  exact hafter.trans ⟨hlast.1, hlast.2⟩

end Below

theorem walk_suffices {bound unit : Nat} (hn : ∀ n, tag = some n → Located run n place)
    (h : Enough bound unit fuel run tag) :
    Suffices (fun k => walk reshapeSchema k place site tag) fuel run fun _ => Walked run := by
  induction fuel generalizing run place site tag with
  | zero =>
      cases hnode : tag.bind run.node? with
      | none => exact walk_suffices_of_missing hnode
      | some u =>
          have hdepth := h.depth
          have hcount := Charge.nodeCount_eq u
          unfold Run.height at hdepth
          rw [hnode] at hdepth
          simp at hdepth
          omega
  | succ fuel ih =>
      cases hnode : tag.bind run.node? with
      | none => exact walk_suffices_of_missing hnode
      | some u =>
          obtain ⟨n, rfl, hn'⟩ := Option.bind_eq_some_iff.1 hnode
          have hhere := hn n rfl
          have hon : WalksOn fuel run u := by
            intro after place' site' tag' hafter hchild hlocated
            have henough := h.child hhere.sound hn' hafter.advances hchild
            exact (ih hlocated henough).mono fun _ _ hlast => hafter.trans hlast
          refine suffices_succ ?_
          simp only [walk]
          refine suffices_get ?_
          split
          · rename_i owner items hspread hlist
            obtain rfl : u = .list owner items := Option.some.inj (hn'.symm.trans hlist)
            refine suffices_forM (fun entry hentry after hafter => ?_) (.refl run)
            have hitem := List.mem_of_getElem? (List.mem_zipIdx_iff_getElem?.1 hentry)
            exact hon.element hhere hlist hitem hafter
          · rename_i owner entries hspread hmap
            obtain rfl : u = .map owner entries := Option.some.inj (hn'.symm.trans hmap)
            refine suffices_forM (fun entry hentry after hafter => ?_) (.refl run)
            exact hon.entry hhere hspread hmap hentry hafter
          · rename_i owner fields hspread hmap
            obtain rfl : u = .map owner fields := Option.some.inj (hn'.symm.trans hmap)
            split
            · refine suffices_bind (Q := fun _ => Walked run)
                (suffices_forM (fun slot hslot after hafter => ?_) (.refl run))
                  fun _ after hafter => ?_
              · refine suffices_get ?_
                split
                · rename_i value hvalue
                  exact hon.slot hhere hspread hmap hslot hafter hvalue
                · exact suffices_pure hafter
              · split
                · rename_i hook hrole
                  exact visit_suffices hhere hspread hrole h.workable hafter _ _
                · exact suffices_pure hafter
            · exact suffices_pure (.refl run)
          · exact suffices_pure (.refl run)

/-- At the start, the fuel is enough: each of the three loads is bounded by the number of nodes. -/
theorem enough_depthBound (hworkable : run.Workable) (tag : Tag) :
    Enough (run.load .size + run.price * run.load .chances + 1) run.price
      (depthBound (run.document.nodeCount + run.aside.nodeCount)) run tag := by
  refine ⟨hworkable, Nat.le_refl _, Nat.le_refl _, ?_⟩
  have hheight := run.height_le tag
  have hcount : run.document.nodeCount + run.aside.nodeCount = run.load .size + 2 := by
    have hdocument := Charge.load_size_add_one run.document
    have haside := Charge.load_size_add_one run.aside
    unfold Run.load
    omega
  have hchances : run.load .chances ≤ 3 * run.load .size := by
    have hdocument := Charge.load_chances_le run.document
    have haside := Charge.load_chances_le run.aside
    unfold Run.load
    omega
  have hprice : run.price ≤ 7 * (run.load .size + 2) := by
    have hdocument := (Charge.load_waiting_lt ∅ run.document).1
    have haside := (Charge.load_waiting_lt ∅ run.aside).1
    unfold Run.price
    unfold Run.load at hcount ⊢
    omega
  rw [hcount, depthBound]
  generalize run.load .size = size at *
  have hworth : size + run.price * run.load .chances + 1 ≤ 21 * (size + 2) * (size + 1) :=
    calc size + run.price * run.load .chances + 1
        ≤ size + 7 * (size + 2) * (3 * size) + 1 :=
          Nat.add_le_add_right (Nat.add_le_add_left (Nat.mul_le_mul hprice hchances) _) _
      _ ≤ 21 * (size + 2) * (size + 1) := by ring_nf; omega
  calc run.height tag + (size + run.price * run.load .chances + 1) * run.load .chances
      ≤ (size + 1) + 21 * (size + 2) * (size + 1) * (3 * size) :=
        Nat.add_le_add hheight (Nat.mul_le_mul hworth hchances)
    _ ≤ 64 * ((size + 2) * (size + 2) * (size + 2)) := by ring_nf; omega

/-- The fuel of the second phase is enough, and more changes nothing. -/
theorem reshapeMaps_suffices (hsound : run.Sound) (hworkable : run.Workable) :
    Suffices (fun k => walk reshapeSchema k (.one .document) .root run.document.tag)
      (depthBound (run.document.nodeCount + run.aside.nodeCount)) run fun _ => Walked run :=
  walk_suffices (fun _ htag => located_root hsound htag) (enough_depthBound hworkable _)

end RiskyStep

end ProtoShape
