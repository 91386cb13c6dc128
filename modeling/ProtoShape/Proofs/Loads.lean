import ProtoShape.Proofs.Node
import ProtoShape.Proofs.Rules.Tidy
import ProtoShape.Rules.Exclusivity

/-!
# What the nodes of a tree cost

A `Charge` says what a child costs where it stands, under a key of a mapping or in a
list, and the `load` of a tree adds up what all its nodes cost.  So a load is a measure
of a tree that an update changes where it changes the tree and nowhere else.

There are three groups.

* The load of each constructor.  `under` and `among` are what a child costs together with
  all below it.
* What a charge may look at.  `Plainer` says that one node looks like no more than
  another, and a `Fair` charge takes no more for it.
* Numbering and replacing.  `load_number_le` says that numbers cost nothing, and
  `load_modify` says that the replacement of one node changes the load by as much as it
  changes the load of that node.
-/

namespace ProtoShape

open Rules

/-! ## Charges and loads -/

/-- What a child costs under a key of a mapping, which may depend on the tag of the
mapping, and as an item of a list. -/
structure Charge where
  entry : Tag → Key → Node → Nat
  item : Node → Nat

namespace Node

section Load

variable (c : Charge)

/-- What the children of a node cost. -/
def toll : Node → Nat
  | .scalar _ _ => 0
  | .list _ items => (items.map c.item).sum
  | .map tag fields => fields.tally (c.entry tag)

/-- What all nodes below a node cost. -/
def load (t : Node) : Nat := (t.subtrees.map (toll c)).sum

theorem load_eq (t : Node) : load c t = toll c t + (t.children.map (load c)).sum := by
  have hbelow : ∀ l : List Node,
      ((l.flatMap Tree.subtrees).map (toll c)).sum = (l.map (load c)).sum := by
    intro l
    induction l with
    | nil => rfl
    | cons child rest ih =>
        rw [List.flatMap_cons, List.map_append, List.sum_append, ih, List.map_cons, List.sum_cons,
          load]
  rw [load, Tree.subtrees_eq, List.map_cons, List.sum_cons, hbelow]

@[simp] theorem load_scalar (tag : Tag) (s : Scalar) : load c (.scalar tag s) = 0 := by
  rw [load_eq]
  rfl

end Load

end Node

namespace Charge

open Node

variable (c : Charge)

/-- What a value costs under a key together with all below it. -/
def under (tag : Tag) (key : Key) (value : Node) : Nat := c.entry tag key value + load c value

/-- What an item of a list costs together with all below it. -/
def among (item : Node) : Nat := c.item item + load c item

end Charge

namespace Node

variable (c : Charge)

theorem load_list (tag : Tag) (items : List Node) :
    load c (.list tag items) = (items.map c.among).sum := by
  rw [load_eq]
  exact (List.sum_map_add ..).symm

theorem load_map (tag : Tag) (fields : Fields Tag) :
    load c (.map tag fields) = fields.tally (c.under tag) := by
  rw [load_eq, toll, Tree.children_map, Entries.values, List.map_map]
  exact (List.sum_map_add ..).symm

end Node

/-! ## What a charge looks at -/

section Looks

variable {τ : Type}

/-- The keywords of a union. -/
def unionKeys : List Key := [.text "oneOf", .text "anyOf"]

/-- The number of the items of a list and the list itself. -/
def unionLength : Tree τ → Nat
  | .list _ items => items.length + 1
  | _ => 0

/-- Whether a mapping is a reference or may become one. -/
def mayRefer (t : Tree τ) : Bool :=
  match t.fields? with
  | some fields =>
      Fields.isReference fields || holdsOne fields "minProperties" ||
        (Fields.items? fields "oneOf").isSome
  | none => false

/-- A node that a charge may take to be what the other one is, or less.  The length of a
list counts in a union only. -/
structure Plainer (inUnion : Prop) (old new : Tree τ) : Prop where
  scalar : new.scalar? = old.scalar?
  list : new.items?.isSome = true → old.items?.isSome = true
  refer : mayRefer new = true → mayRefer old = true
  length : inUnion → unionLength new ≤ unionLength old

theorem Plainer.refl (inUnion : Prop) (t : Tree τ) : Plainer inUnion t t :=
  ⟨rfl, id, id, fun _ => Nat.le_refl _⟩

theorem Plainer.mono {inUnion : Prop} {old new : Tree τ} (h : Plainer inUnion old new) :
    Plainer False old new :=
  ⟨h.scalar, h.list, h.refer, False.elim⟩

theorem holdsOne_eq (fields : Fields τ) (key : String) :
    holdsOne fields key = ((fields.get? key).bind Tree.scalar?).any Scalar.isOne := by
  unfold holdsOne
  cases fields.get? key with
  | none => rfl
  | some value => cases value <;> rfl

@[simp] theorem holdsOne_mapTags {σ : Type} (f : τ → σ) (fields : Fields τ) (key : String) :
    holdsOne (Fields.mapTags f fields) key = holdsOne fields key := by
  rw [holdsOne_eq, holdsOne_eq, Fields.get?_mapTags, Option.bind_map]
  simp only [Function.comp_def, Tree.scalar?_mapTags]

theorem mayRefer_mapTags {σ : Type} (f : τ → σ) (t : Tree τ) :
    mayRefer (t.mapTags f) = mayRefer t := by
  cases t <;> simp [mayRefer, Tree.fields?]

theorem unionLength_mapTags {σ : Type} (f : τ → σ) (t : Tree τ) :
    unionLength (t.mapTags f) = unionLength t := by
  cases t <;> simp [unionLength]

/-- Trees with the same value look alike. -/
theorem plainer_of_erase {inUnion : Prop} {t u : Tree τ} (h : t.erase = u.erase) :
    Plainer inUnion t u := by
  have hscalar := congrArg Tree.scalar? h
  have hlist := congrArg (fun v : Value => v.items?.isSome) h
  have hrefer := congrArg mayRefer h
  have hlength := congrArg unionLength h
  simp only [Tree.erase, Tree.scalar?_mapTags, Tree.items?_mapTags, Option.isSome_map,
    mayRefer_mapTags, unionLength_mapTags] at hscalar hlist hrefer hlength
  exact ⟨hscalar.symm, fun hnew => hlist.trans hnew, fun hnew => hrefer.trans hnew,
    fun _ => Nat.le_of_eq hlength.symm⟩

/-- Keywords of which all that counts is the same make mappings that look alike. -/
theorem plainer_map {inUnion : Prop} {tag tag' : τ} {fields fields' : Fields τ}
    (href : Fields.isReference fields' = true → mayRefer (.map tag fields) = true)
    (hone : holdsOne fields' "minProperties" = true → mayRefer (.map tag fields) = true)
    (hunion : (Fields.items? fields' "oneOf").isSome = true → mayRefer (.map tag fields) = true) :
    Plainer inUnion (.map tag fields) (.map tag' fields') := by
  refine ⟨rfl, id, fun hnew => ?_, fun _ => Nat.le_refl _⟩
  simp only [mayRefer, Tree.fields?, Bool.or_eq_true] at hnew
  rcases hnew with (h | h) | h
  · exact href h
  · exact hone h
  · exact hunion h

theorem mayRefer_map {tag : τ} {fields : Fields τ} : mayRefer (.map tag fields) = true ↔
    (Fields.isReference fields = true ∨ holdsOne fields "minProperties" = true) ∨
      (Fields.items? fields "oneOf").isSome = true := by
  simp [mayRefer, Tree.fields?, Bool.or_eq_true]

theorem holdsOne_mapValues {g : Tree τ → Tree τ} {fields : Fields τ}
    (h : ∀ value ∈ fields.values, (g value).scalar? = value.scalar?) (key : String) :
    holdsOne (fields.mapValues g) key = holdsOne fields key := by
  rw [holdsOne_eq, holdsOne_eq, Entries.get?_mapValues]
  cases hget : fields.get? key with
  | none => rfl
  | some value =>
      obtain ⟨k, -, hmem⟩ := Entries.mem_of_get? hget
      rw [Option.map_some, Option.bind_some, Option.bind_some, h value (List.mem_map_of_mem hmem)]

end Looks

/-- Where the children look like no more, the node does neither. -/
theorem plainer_mapChildren {f : Node → Node} {t : Node}
    (h : ∀ child ∈ t.children, Plainer False child (f child)) (inUnion : Prop) :
    Plainer inUnion t (t.mapChildren f) := by
  cases t with
  | scalar tag s => exact .refl inUnion _
  | list tag items => exact ⟨rfl, id, id, fun _ => by simp [Tree.mapChildren, unionLength]⟩
  | map tag fields =>
      have hscalar : ∀ value ∈ fields.values, (f value).scalar? = value.scalar? :=
        fun value hvalue => (h value hvalue).scalar
      refine plainer_map (fun href => ?_) (fun hone => ?_) fun hunion => ?_
      · rw [isReference_mapValues hscalar] at href
        exact mayRefer_map.2 (Or.inl (Or.inl href))
      · rw [holdsOne_mapValues hscalar] at hone
        exact mayRefer_map.2 (Or.inl (Or.inr hone))
      · obtain ⟨items, hitems⟩ := Option.isSome_iff_exists.1 hunion
        obtain ⟨new, hnew, hlist⟩ := Option.bind_eq_some_iff.1 hitems
        rw [Entries.get?_mapValues] at hnew
        obtain ⟨old, hold, rfl⟩ := Option.map_eq_some_iff.1 hnew
        obtain ⟨k, -, hmem⟩ := Entries.mem_of_get? hold
        refine mayRefer_map.2 (Or.inr ?_)
        unfold Fields.items?
        rw [hold]
        exact (h old (List.mem_map_of_mem hmem)).list (Option.isSome_iff_exists.2 ⟨items, hlist⟩)

/-- A charge that takes no more for what looks like no more, nor for a number. -/
structure Charge.Fair (c : Charge) : Prop where
  entry : ∀ {tag key old new}, Plainer (key ∈ unionKeys) old new →
    c.entry tag key new ≤ c.entry tag key old
  item : ∀ {old new}, Plainer False old new → c.item new ≤ c.item old
  tag : ∀ n key value, c.entry (some n) key value ≤ c.entry none key value

namespace Node

/-! ## Numbering and replacing -/

theorem plainer_number (inUnion : Prop) (t : Node) (next : Nat) :
    Plainer inUnion t (number t next).1 :=
  plainer_of_erase (number_numbers t next).erase.symm

section Fair

variable {c : Charge} (hc : c.Fair)
include hc

theorem sum_numberItems_le {items : List Node}
    (h : ∀ item ∈ items, ∀ next, load c (number item next).1 ≤ load c item) (next : Nat) :
    ((numberItems items next).1.map c.among).sum ≤ (items.map c.among).sum := by
  induction items generalizing next with
  | nil => exact Nat.le_refl _
  | cons item rest ih =>
      have hitem := hc.item (plainer_number False item next)
      have hload := h item List.mem_cons_self next
      have hrest :=
        ih (fun other hother => h other (List.mem_cons_of_mem _ hother)) (number item next).2
      simp only [numberItems, List.map_cons, List.sum_cons, Charge.among] at hrest ⊢
      omega

theorem tally_numberEntries_le {entries : List (Scalar × Node)}
    (h : ∀ entry ∈ entries, ∀ next, load c (number entry.2 next).1 ≤ load c entry.2)
    {tag tag' : Tag}
    (htag : ∀ key value, c.entry tag' key value ≤ c.entry tag key value) (next : Nat) :
    Entries.tally (c.under tag') ⟨(numberEntries entries next).1⟩ ≤
      Entries.tally (c.under tag) ⟨entries⟩ := by
  induction entries generalizing next with
  | nil => exact Nat.le_refl _
  | cons entry rest ih =>
      obtain ⟨key, value⟩ := entry
      have hentry : c.entry tag' key.key (number value next).1 ≤ c.entry tag' key.key value :=
        hc.entry (plainer_number _ value next)
      have hown := htag key.key value
      have hload := h (key, value) List.mem_cons_self next
      have hrest :=
        ih (fun other hother => h other (List.mem_cons_of_mem _ hother)) (number value next).2
      simp only [numberEntries, Entries.tally_cons, Charge.under] at hload hrest ⊢
      omega

/-- Numbers cost nothing. -/
theorem load_number_le (t : Node) (next : Nat) : load c (number t next).1 ≤ load c t := by
  induction t using Tree.induction generalizing next with
  | scalar tag s => cases tag <;> simp [number]
  | list tag items ih =>
      cases tag with
      | some n =>
          rw [number, load_list, load_list]
          exact sum_numberItems_le hc ih next
      | none =>
          rw [number, load_list, load_list]
          exact sum_numberItems_le hc ih (next + 1)
  | map tag fields ih =>
      cases tag with
      | some n =>
          rw [number, load_map, load_map]
          exact tally_numberEntries_le hc ih (fun _ _ => Nat.le_refl _) next
      | none =>
          rw [number, load_map, load_map]
          exact tally_numberEntries_le hc ih (hc.tag next) (next + 1)

end Fair

section Modify

variable {n : Nat} {f : Node → Node} {t : Node}

/-- Where the replaced node looks like no more, no node does. -/
theorem plainer_modify (h : ∀ u ∈ t.subtrees, u.tag = some n → Plainer False u (f u)) :
    Plainer False t (modify n f t) := by
  induction t using Tree.children_induction with
  | step t ih =>
      by_cases htag : t.tag = some n
      · rw [modify_self htag]
        exact h t (Tree.self_mem_subtrees t) htag
      · rw [modify_of_ne htag]
        exact plainer_mapChildren (fun child hchild => ih child hchild fun u hu =>
          h u (Tree.mem_subtrees_of_child hchild hu)) False

/-- A node looks the same to a union too, unless it is the one that is replaced. -/
theorem plainer_modify_of_ne (h : ∀ u ∈ t.subtrees, u.tag = some n → Plainer False u (f u))
    (htag : t.tag ≠ some n) (inUnion : Prop) : Plainer inUnion t (modify n f t) := by
  rw [modify_of_ne htag]
  exact plainer_mapChildren (fun child hchild => plainer_modify fun u hu =>
    h u (Tree.mem_subtrees_of_child hchild hu)) inUnion

/-- What the replaced node costs where it stands. -/
structure Suited (n : Nat) (f : Node → Node) (t : Node) : Prop where
  plainer : ∀ u ∈ t.subtrees, u.tag = some n → Plainer False u (f u)
  length : ∀ tag fields, Tree.map tag fields ∈ t.subtrees → ∀ key u, (key, u) ∈ fields.toList →
    u.tag = some n → key.key ∈ unionKeys → unionLength (f u) ≤ unionLength u

theorem Suited.child (h : Suited n f t) {child : Node} (hchild : child ∈ t.children) :
    Suited n f child :=
  ⟨fun u hu => h.plainer u (Tree.mem_subtrees_of_child hchild hu),
    fun tag fields hu => h.length tag fields (Tree.mem_subtrees_of_child hchild hu)⟩

theorem sum_add_mul_le {α : Type} {l : List α} {before after count : α → Nat} {less more : Nat}
    (h : ∀ a ∈ l, after a + less * count a ≤ before a + more * count a) :
    (l.map after).sum + less * (l.map count).sum ≤
      (l.map before).sum + more * (l.map count).sum := by
  induction l with
  | nil => simp
  | cons a rest ih =>
      have hfirst := h a List.mem_cons_self
      have hrest := ih fun b hb => h b (List.mem_cons_of_mem _ hb)
      simp only [List.map_cons, List.sum_cons, Nat.mul_add]
      omega

/-- A replacement changes the load by as much as it changes the load of the node. -/
theorem load_modify {c : Charge} (hc : c.Fair) {less more : Nat} (hone : uses n t ≤ 1)
    (hsuited : Suited n f t)
    (h : ∀ u ∈ t.subtrees, u.tag = some n → load c (f u) + less ≤ load c u + more) :
    load c (modify n f t) + less * uses n t ≤ load c t + more * uses n t := by
  induction t using Tree.children_induction with
  | step t ih =>
      by_cases htag : t.tag = some n
      · have hself := h t (Tree.self_mem_subtrees t) htag
        have hpos := uses_pos (Tree.self_mem_subtrees t) htag
        obtain huses : uses n t = 1 := by omega
        rw [modify_self htag, huses]
        omega
      · rw [uses_eq, if_neg htag, Nat.zero_add] at hone ⊢
        have hchild : ∀ child ∈ t.children,
            load c (modify n f child) + less * uses n child ≤
              load c child + more * uses n child := by
          intro child hchild
          have hle := List.le_sum_of_mem (List.mem_map_of_mem (f := uses n) hchild)
          exact ih child hchild (Nat.le_trans hle hone) (hsuited.child hchild)
            fun u hu => h u (Tree.mem_subtrees_of_child hchild hu)
        have hplainer : ∀ child ∈ t.children, Plainer False child (modify n f child) :=
          fun child hchild => plainer_modify (hsuited.child hchild).plainer
        rw [modify_of_ne htag]
        cases t with
        | scalar tag s => simp [Tree.mapChildren]
        | list tag items =>
            rw [Tree.mapChildren, load_list, load_list, List.map_map]
            refine sum_add_mul_le fun item hitem => ?_
            have hload := hchild item hitem
            have hcost := hc.item (hplainer item hitem)
            simp only [Function.comp_apply, Charge.among]
            omega
        | map tag fields =>
            rw [Tree.mapChildren, load_map, load_map, Entries.tally, Entries.tally,
              Entries.mapValues, List.map_map, Tree.children_map, Entries.values, List.map_map]
            refine sum_add_mul_le fun entry hentry => ?_
            have hvalue : entry.2 ∈ (Tree.map tag fields).children := List.mem_map_of_mem hentry
            have hload := hchild entry.2 hvalue
            have hcost : c.entry tag entry.1.key (modify n f entry.2) ≤
                c.entry tag entry.1.key entry.2 := by
              refine hc.entry ?_
              by_cases hn : entry.2.tag = some n
              · have hlooks := hplainer entry.2 hvalue
                rw [modify_self hn] at hlooks ⊢
                exact ⟨hlooks.scalar, hlooks.list, hlooks.refer,
                  hsuited.length tag fields (Tree.self_mem_subtrees _) entry.1 entry.2 hentry hn⟩
              · exact plainer_modify_of_ne (hsuited.child hvalue).plainer hn _
            simp only [Function.comp_apply, Charge.under]
            omega

end Modify

end Node

end ProtoShape
