import Mathlib.Logic.Relation
import ProtoShape.Proofs.Reshape.Growth
import ProtoShape.Proofs.Rules.Uses
import ProtoShape.Reshape.Maps

/-!
# What the second phase does to a run

The second phase is a sequence of updates.  An update changes at most one node.
`Addition` and `Rewrite` say what becomes of the node, one constructor for each change
that the code makes.  `Patch` and `Update` say what is known of the run at that time.

* A `Patch` may be made to any schema from afar, so it only adds (`Patch.grown`).  The schema has
  been remembered then.
* The other updates are rules, and `Update` takes a predicate on the numbers of the
  schemas that they are applied to.  So it can be known of an update where its schema
  stands.

What holds of every update holds of the whole phase.  The first invariant is soundness:
`Update.sound`.
-/

namespace ProtoShape

open Rules

/-! ## Changes of one node -/

/-- Applies a function to the fields of a mapping. -/
def onFields (f : Fields Tag → Fields Tag) : Node → Node
  | .map tag fields => .map tag (f fields)
  | node => node

/-- Applies a function to the items of a list. -/
def onItems (f : List Node → List Node) : Node → Node
  | .list tag items => .list tag (f items)
  | node => node

/-- The items with the one at an index wrapped in an object. -/
def wrapAt (index : Nat) (key : String) (items : List Node) : List Node :=
  match items[index]? with
  | some item => items.set index (.map default (wrapperOf key item))
  | none => items

/-- A reference, or a schema without properties. -/
def IsBare (item : Node) : Prop :=
  ∃ (tag : Tag) (fields : Fields Tag), item = .map tag fields ∧
    (Fields.isReference fields = true ∨ Fields.map? fields "properties" = none)

/-- What a patch adds to a node. -/
inductive Addition : Node → Node → Prop where
  | same (u : Node) : Addition u u
  /-- A member of a union is wrapped.  If it is the only one, it is bare. -/
  | wrapped {tag items} (index : Nat) (key : String) :
      (∀ item, items[index]? = some item → item.fields?.isSome = true) →
      (∀ item, items = [item] → IsBare item) →
      Addition (.list tag items) (.list tag (wrapAt index key items))
  /-- The document gets its components, or these get their schemas. -/
  | place {tag fields key} : key ∈ ["components", "schemas"] → fields.get? key = none →
      Addition (.map tag fields) (.map tag (fields.insert key (.map default ∅)))

/-- What a rule of the second phase makes of a schema. -/
inductive Rewrite : Node → Node → Prop where
  | same (u : Node) : Rewrite u u
  /-- A titled value type becomes a property. -/
  | titled {tag fields result} : MovesTitled fields result →
      Rewrite (.map tag fields) (.map tag result)
  /-- The members of a union become properties. -/
  | merged {tag fields result} : MergesMembers fields result →
      Rewrite (.map tag fields) (.map tag result)
  /-- A single map gives way to its value type, wrapped in an object. -/
  | inlined {tag fields additional} (key : String) : IsMapOfOne fields →
      fields.get? "additionalProperties" = some additional → additional.isReference = true →
      Rewrite (.map tag fields)
        (.map tag ((fields.eraseAll mapKeywords).overlay (wrapperOf key additional)))
  /-- A single map gives way to a reference. -/
  | referred {tag fields} (ref : String) : IsMapOfOne fields →
      Rewrite (.map tag fields)
        (.map tag ((fields.eraseAll mapKeywords).insert "$ref" (.ofText ref)))

/-! ## Changes of a run -/

/-- A schema that has been remembered holds the node with a number under a keyword. -/
def Run.Carries (run : Run) (n : Nat) : Prop :=
  ∃ (owner : Tag) (fields : Fields Tag) (key : String) (value : Node),
    run.Holds (.map owner fields) ∧
    fields.get? key = some value ∧ value.tag = some n ∧ key ≠ "enum" ∧
    run.carriers.contains (.tag owner) = true

/-- The keys of the sections that the second phase may add to. -/
def Tree.sectionKeys : List String := ["components", "schemas"]

/-- The node with a number is the document, its components or their schemas. -/
def Run.IsSection (run : Run) (n : Nat) : Prop :=
  ∃ keys, keys <+: Tree.sectionKeys ∧ ∃ u, run.document.under? keys = some u ∧ u.tag = some n

/-- A patch only adds, to whatever schema it is made.  What belongs to a schema is changed after
the schema has been remembered. -/
inductive Patch : Run → Run → Prop where
  /-- A diagnostic is recorded, or a schema is remembered as having the key of a map. -/
  | noted {run} (diagnostics : List Diagnostic) (carriers : IdentitySet) :
      (∀ identity, run.carriers.contains identity = true → carriers.contains identity = true) →
      Patch run { run with diagnostics, carriers }
  | added {run n f} : (∀ tag s, f (.scalar tag s) = .scalar tag s) →
      (∀ u, run.Holds u → u.tag = some n → Addition u (f u)) →
      run.Carries n ∨ run.IsSection n → Patch run (run.modifyNode n f)
  /-- The `properties` of a schema get one more. -/
  | keyed {run owner map fields present} : run.Holds (.map owner fields) →
      fields.get? "properties" = some (.map (some map) present) →
      present.get? run.options.fieldProperty = none → run.carriers.contains (.tag owner) = true →
      Patch run (run.modifyNode map (onFields (·.insert run.options.fieldProperty textSchema)))
  /-- The `allOf` of a schema gets one more part. -/
  | parted {run owner list fields items} : run.Holds (.map owner fields) →
      fields.get? "allOf" = some (.list (some list) items) →
      run.carriers.contains (.tag owner) = true →
      Patch run (run.modifyNode list (onItems (· ++ [keyHolder run.options.fieldProperty])))
  /-- A component is generated. -/
  | generated {run schemas entries} {name : String} {target : Identity} (source ref : String)
      (keySchema : Option Node) :
      run.document.under? ["components", "schemas"] = some (.map (some schemas) entries) →
      entries.get? name = none →
      Patch run { run.modifyNode schemas (onFields
        (·.insert name (keyValueComponent source ref keySchema run.options.fieldProperty))) with
        valueComponents := run.valueComponents ++ [(target, name)] }

/-- What the second phase may do.  The rules are applied to schemas of which `P` holds. -/
inductive Update (P : Run → Nat → Prop) : Run → Run → Prop where
  | patch {run after} : Patch run after → Update P run after
  | rewritten {run n f} : P run n → (∀ tag s, f (.scalar tag s) = .scalar tag s) →
      (∀ u, run.Holds u → u.tag = some n → Rewrite u (f u)) → Update P run (run.modifyNode n f)

/-- A sequence of updates. -/
abbrev Updates (P : Run → Nat → Prop) : Run → Run → Prop := Relation.ReflTransGen (Update P)

/-! ## Numbers -/

theorem uses_textSchema (m : Nat) : Node.uses m (textSchema : Node) = 0 := by
  simp [textSchema, Entries.total]

theorem uses_keyHolder (m : Nat) (field : String) : Node.uses m (keyHolder field) = 0 := by
  simp [keyHolder, Entries.total, uses_textSchema]

theorem uses_wrapper (m : Nat) (key : String) (item : Node) :
    Node.uses m (.map default (wrapperOf key item)) = Node.uses m item := by
  simp [wrapperOf, Entries.total, default]

theorem sum_set {α : Type} {items : List α} {index : Nat} {old : α} (h : items[index]? = some old)
    (count : α → Nat) (new : α) :
    ((items.set index new).map count).sum + count old = (items.map count).sum + count new := by
  induction items generalizing index with
  | nil => simp at h
  | cons item rest ih =>
      cases index with
      | zero =>
          obtain rfl : item = old := by simpa using h
          simp only [List.set_cons_zero, List.map_cons, List.sum_cons]
          omega
      | succ index =>
          have hrest := ih (by simpa using h)
          simp only [List.set_cons_succ, List.map_cons, List.sum_cons]
          omega

theorem sum_uses_wrapAt (index : Nat) (key : String) (items : List (Tree Tag)) (m : Nat) :
    ((wrapAt index key items).map (Node.uses m)).sum = (items.map (Node.uses m)).sum := by
  unfold wrapAt
  split
  · rename_i item hitem
    have hset := sum_set hitem (Node.uses m) (.map default (wrapperOf key item))
    rw [uses_wrapper] at hset
    exact Nat.add_right_cancel hset
  · rfl

theorem uses_insert_le {tag : Tag} {fields : Fields Tag} {key : Scalar} {value : Tree Tag}
    (hnew : ∀ m, Node.uses m value = 0) (m : Nat) :
    Node.uses m (.map tag (fields.insert key value)) ≤ Node.uses m (.map tag fields) := by
  have hinsert := Entries.total_insert_le (Node.uses m) fields key value
  rw [hnew] at hinsert
  rw [Node.uses_map, Node.uses_map]
  omega

theorem Addition.uses_le {u v : Tree Tag} (h : Addition u v) (m : Nat) :
    Node.uses m v ≤ Node.uses m u := by
  cases h with
  | same => exact Nat.le_refl _
  | wrapped => rw [Node.uses_list, Node.uses_list, sum_uses_wrapAt]
  | place => exact uses_insert_le (fun m => by simp [default]) m

theorem uses_part_le (field : String) (u : Tree Tag) (m : Nat) :
    Node.uses m (onItems (· ++ [keyHolder field]) u) ≤ Node.uses m u := by
  cases u with
  | list tag items => simp [onItems, uses_keyHolder]
  | _ => exact Nat.le_refl _

theorem uses_onFields_insert_le {key : String} {value : Tree Tag}
    (hnew : ∀ m, Node.uses m value = 0)
    (u : Node) (m : Nat) : Node.uses m (onFields (·.insert key value) u) ≤ Node.uses m u := by
  cases u with
  | map tag fields => exact uses_insert_le hnew m
  | _ => exact Nat.le_refl _

theorem Rewrite.uses_le {u v : Tree Tag} (h : Rewrite u v) (m : Nat) :
    Node.uses m v ≤ Node.uses m u := by
  have hfields : ∀ {tag : Tag} {fields result : Fields Tag},
      result.total (Node.uses m) ≤ fields.total (Node.uses m) →
      Node.uses m (.map tag result) ≤ Node.uses m (.map tag fields) := by
    intro tag fields result hle
    rw [Node.uses_map, Node.uses_map]
    omega
  cases h with
  | same => exact Nat.le_refl _
  | titled hmoves => exact hfields hmoves.uses_le
  | merged hmerges => exact hfields hmerges.uses_le
  | inlined key _ hget _ => exact hfields (wrap_uses_le hget)
  | @referred _ fields ref _ =>
      have herase := Entries.total_eraseAll_le (Node.uses m) fields mapKeywords
      have hinsert := Entries.total_insert_le (Node.uses m) (fields.eraseAll mapKeywords) "$ref"
        (.ofText ref)
      rw [uses_ofText] at hinsert
      exact hfields (by omega)

/-! ## Soundness -/

/-- Soundness is about the document, the schema aside and the next number. -/
theorem Run.Sound.congr {run other : Run} (h : run.Sound)
    (hdocument : other.document = run.document)
    (haside : other.aside = run.aside) (hnext : other.next = run.next) : other.Sound := by
  have huses : other.uses = run.uses := by
    unfold Run.uses
    rw [hdocument, haside]
  exact ⟨⟨huses ▸ h.once, huses ▸ hnext ▸ h.below⟩, hdocument ▸ h.document, haside ▸ h.aside⟩

theorem Patch.sound {run after : Run} (h : Patch run after) (hsound : run.Sound) : after.Sound := by
  cases h with
  | noted => exact hsound.congr rfl rfl rfl
  | added _ hadds => exact hsound.modifyNode fun u hu =>
      (hadds u (Run.node?_holds hu).1 (Run.node?_holds hu).2).uses_le
  | keyed => exact hsound.modifyNode fun u _ => uses_onFields_insert_le uses_textSchema u
  | parted => exact hsound.modifyNode fun u _ => uses_part_le _ u
  | generated source ref keySchema _ _ =>
      exact (hsound.modifyNode fun u _ =>
        uses_onFields_insert_le (fun _ => uses_keyValueComponent _ _ _ _) u).congr rfl rfl rfl

theorem Update.sound {P : Run → Nat → Prop} {run after : Run} (h : Update P run after)
    (hsound : run.Sound) : after.Sound := by
  cases h with
  | patch hpatch => exact hpatch.sound hsound
  | rewritten _ _ hrewrites => exact hsound.modifyNode fun u hu =>
      (hrewrites u (Run.node?_holds hu).1 (Run.node?_holds hu).2).uses_le

theorem Updates.sound {P : Run → Nat → Prop} {run after : Run} (h : Updates P run after)
    (hsound : run.Sound) : after.Sound := by
  induction h with
  | refl => exact hsound
  | tail _ hlast ih => exact hlast.sound ih

theorem Update.options {P : Run → Nat → Prop} {run after : Run} (h : Update P run after) :
    after.options = run.options := by
  cases h with
  | patch hpatch => cases hpatch <;> rfl
  | rewritten _ _ _ => rfl

theorem Updates.options {P : Run → Nat → Prop} {run after : Run} (h : Updates P run after) :
    after.options = run.options := by
  induction h with
  | refl => rfl
  | tail _ hlast ih => exact hlast.options.trans ih

/-! ## Patches only add -/

/-- What is made of new nodes has no numbers. -/
theorem tag_of_new {t u : Node} (hnew : ∀ m, Node.uses m t = 0) (hu : u ∈ t.subtrees) :
    u.tag = none := by
  cases htag : u.tag with
  | none => rfl
  | some m =>
      have hpos := Node.uses_pos hu htag
      have hzero := hnew m
      omega

theorem mem_wrapAt {index : Nat} {key : String} {items : List Node} {item : Node}
    (h : item ∈ wrapAt index key items) :
    item ∈ items ∨ ∃ old ∈ items, item = .map default (wrapperOf key old) := by
  unfold wrapAt at h
  split at h
  · rename_i old hold
    rcases List.mem_or_eq_of_mem_set h with hin | rfl
    · exact Or.inl hin
    · exact Or.inr ⟨old, List.mem_of_getElem? hold, rfl⟩
  · exact Or.inl h

theorem length_wrapAt (index : Nat) (key : String) (items : List Node) :
    (wrapAt index key items).length = items.length := by
  unfold wrapAt
  split <;> simp

/-- Mappings of a list stay mappings where one of the items is wrapped. -/
theorem mapping_wrapAt {index : Nat} {key : String} {items : List Node} {i : Nat}
    {item item' : Node}
    (hold : items[i]? = some item) (hnew : (wrapAt index key items)[i]? = some item')
    (h : item.fields?.isSome = true) : item'.fields?.isSome = true := by
  unfold wrapAt at hnew
  split at hnew
  · rw [List.getElem?_set] at hnew
    split at hnew
    · split at hnew
      · obtain rfl := Option.some.inj hnew
        rfl
      · cases hnew
    · obtain rfl := Option.some.inj (hold.symm.trans hnew)
      exact h
  · obtain rfl := Option.some.inj (hold.symm.trans hnew)
    exact h

theorem mem_subtrees_wrapper {key : String} {item u : Node}
    (h : u ∈ (Tree.map default (wrapperOf key item)).subtrees) : u.tag = none ∨
    u ∈ item.subtrees := by
  simp only [wrapperOf, Tree.ofText, Tree.ofEntries, Tree.subtrees_map, Tree.subtrees_scalar,
    List.flatMap_cons, List.flatMap_nil, List.append_nil, List.mem_cons, List.mem_append,
    List.not_mem_nil, or_false] at h
  rcases h with rfl | rfl | rfl | hitem
  · exact Or.inl rfl
  · exact Or.inl rfl
  · exact Or.inl rfl
  · exact Or.inr hitem

theorem length_values_insert (fields : Fields Tag) (key : Scalar) (value : Node) :
    fields.values.length ≤ (fields.insert key value).values.length := by
  have hkeys := congrArg List.length (Entries.keys_insert fields key value)
  have hcount : ∀ e : Fields Tag, e.keys.length = e.values.length := by
    intro e
    rw [Entries.keys, Entries.values, List.length_map, List.length_map]
  rw [hcount] at hkeys
  split at hkeys
  · rw [hkeys, hcount]
  · rw [hkeys, List.length_append, hcount]
    exact Nat.le_add_right _ _

section Insert

variable {tag : Tag} {fields : Fields Tag} {key : Scalar} {value : Tree Tag}

theorem moves_insert (hnew : ∀ m, Node.uses m value = 0) :
    Moves (.map tag fields) (.map tag (fields.insert key value)) := by
  refine ⟨rfl, fun child hchild u hu => ?_⟩
  obtain ⟨entry, hentry, rfl⟩ := List.mem_map.1 hchild
  rcases Entries.mem_put hentry with hold | ⟨heq, -⟩
  · exact Or.inr ⟨entry.2, List.mem_map_of_mem hold, hu⟩
  · exact Or.inl (tag_of_new hnew (heq ▸ hu))

theorem under?_insert (habsent : fields.get? key = none) {other : String} {old : Tree Tag}
    (h : (Tree.map tag fields).under? [other] = some old) :
    (Tree.map tag (fields.insert key value)).under? [other] = some old := by
  have hget : fields.get? other = some old := by simpa [Tree.under?_map_cons] using h
  rw [Tree.under?_map_cons, Entries.get?_insert, if_neg, hget]
  · rfl
  · intro heq
    rw [Entries.get?_congr _ heq, habsent] at hget
    cases hget

theorem grown_insert (habsent : fields.get? key = none) :
    Grown (.map tag fields) (.map tag (fields.insert key value)) := by
  refine ⟨length_values_insert fields key value, fun tag' after heq => ?_, fun _ => rfl,
    fun i child child' hold hnew => ?_⟩
  · obtain ⟨-, rfl⟩ := Tree.map.inj heq
    exact ⟨tag, fields, rfl, .insert habsent value⟩
  · obtain ⟨hi, -⟩ := List.getElem?_eq_some_iff.1 hold
    rw [Tree.children_map, Entries.values, Entries.insert, Entries.put_of_lookup habsent,
      List.map_append, List.getElem?_append_left (by simpa [Entries.values] using hi)] at hnew
    obtain rfl := Option.some.inj (hold.symm.trans hnew)
    exact id

end Insert

section Part

variable {tag : Tag} {items : List Node} (field : String)

theorem moves_part : Moves (.list tag items) (.list tag (items ++ [keyHolder field])) := by
  refine ⟨rfl, fun child hchild w hw => ?_⟩
  rcases List.mem_append.1 hchild with hold | hnew
  · exact Or.inr ⟨child, hold, hw⟩
  · obtain rfl := List.mem_singleton.1 hnew
    exact Or.inl (tag_of_new (uses_keyHolder · _) hw)

theorem grown_part : Grown (.list tag items) (.list tag (items ++ [keyHolder field])) := by
  refine ⟨by simp, fun _ _ heq => (nomatch heq), id, fun i child child' hold hnew => ?_⟩
  obtain ⟨hi, -⟩ := List.getElem?_eq_some_iff.1 hold
  rw [Tree.children_list, List.getElem?_append_left (by simpa using hi)] at hnew
  obtain rfl := Option.some.inj (hold.symm.trans hnew)
  exact id

end Part

theorem Addition.moves {u v : Node} (h : Addition u v) : Moves u v := by
  cases h with
  | same => exact .refl u
  | wrapped index key _ =>
      refine ⟨rfl, fun child hchild w hw => ?_⟩
      rcases mem_wrapAt hchild with hold | ⟨old, hold, rfl⟩
      · exact Or.inr ⟨child, hold, hw⟩
      · exact (mem_subtrees_wrapper hw).imp id fun hin => ⟨old, hold, hin⟩
  | place => exact moves_insert fun m => by simp [default]

theorem Addition.grown {u v : Node} (h : Addition u v) : Grown u v := by
  cases h with
  | same => exact .refl u
  | wrapped index key _ =>
      exact ⟨Nat.le_of_eq (length_wrapAt _ _ _).symm, fun _ _ heq => (nomatch heq), id,
        fun i child child' hold hnew => mapping_wrapAt hold hnew⟩
  | place _ habsent => exact grown_insert habsent

theorem Addition.under? {u v : Node} (h : Addition u v) {key : String} {value : Node}
    (hvalue : u.under? [key] = some value) : v.under? [key] = some value := by
  cases h with
  | same => exact hvalue
  | place _ habsent => exact under?_insert habsent hvalue
  | _ => cases hvalue

/-- A patch changes one node at most, and only adds to it. -/
theorem Patch.cases_change {run after : Run} (h : Patch run after) (hsound : run.Sound) :
    (after.document = run.document ∧ after.aside = run.aside) ∨
      ∃ n f, (after.document = (run.modifyNode n f).document ∧
          after.aside = (run.modifyNode n f).aside) ∧
        (∀ tag s, f (.scalar tag s) = .scalar tag s) ∧
        ∀ u, run.Holds u → u.tag = some n → Moves u (f u) ∧ Grown u (f u) ∧
          ∀ key value, u.under? [key] = some value → (f u).under? [key] = some value := by
  cases h with
  | noted => exact Or.inl ⟨rfl, rfl⟩
  | added hscalar hadds =>
      refine Or.inr ⟨_, _, ⟨rfl, rfl⟩, hscalar, fun u hu hn => ?_⟩
      have hadd := hadds u hu hn
      exact ⟨hadd.moves, hadd.grown, fun _ _ hvalue => hadd.under? hvalue⟩
  | keyed howner hget habsent =>
      refine Or.inr ⟨_, _, ⟨rfl, rfl⟩, fun _ _ => rfl, fun u hu hn => ?_⟩
      cases hsound.unique hu (howner.below (Tree.mem_subtrees_of_get? hget)) hn rfl
      exact ⟨moves_insert uses_textSchema, grown_insert habsent,
        fun _ _ hvalue => under?_insert habsent hvalue⟩
  | parted howner hget =>
      refine Or.inr ⟨_, _, ⟨rfl, rfl⟩, fun _ _ => rfl, fun u hu hn => ?_⟩
      cases hsound.unique hu (howner.below (Tree.mem_subtrees_of_get? hget)) hn rfl
      exact ⟨moves_part _, grown_part _, fun _ _ hvalue => nomatch hvalue⟩
  | generated source ref keySchema hschemas habsent =>
      refine Or.inr ⟨_, _, ⟨rfl, rfl⟩, fun _ _ => rfl, fun u hu hn => ?_⟩
      cases hsound.unique hu
        (run.holds_document.below (Tree.mem_subtrees_of_under? hschemas)) hn rfl
      exact ⟨moves_insert fun m => uses_keyValueComponent _ _ _ _, grown_insert habsent,
        fun _ _ hvalue => under?_insert habsent hvalue⟩

/-- After a patch, all nodes from before have only got more. -/
theorem Patch.grown {run after : Run} (h : Patch run after) (hsound : run.Sound) {m : Nat}
    (hm : m < run.next) {u' : Node} (hu : after.Holds u') (htag : u'.tag = some m) :
    ∃ v, run.Holds v ∧ v.tag = some m ∧ Grown v u' := by
  unfold Run.Holds at hu
  rcases h.cases_change hsound with
    ⟨hdocument, haside⟩ | ⟨n, f, ⟨hdocument, haside⟩, hscalar, hchange⟩
  · rw [hdocument, haside] at hu
    exact ⟨u', hu, htag, .refl u'⟩
  · rw [hdocument, haside] at hu
    exact hsound.grown_of_modify hscalar (fun v hv hn => (hchange v hv hn).1)
      (fun v hv hn => (hchange v hv hn).2.1) hm hu htag

/-- After a patch, keys lead to the nodes that they led to. -/
theorem Patch.under? {run after : Run} (h : Patch run after) (hsound : run.Sound)
    {keys : List String}
    {v : Node} {m : Nat} (hv : run.document.under? keys = some v) (hm : v.tag = some m) :
    ∃ v', after.document.under? keys = some v' ∧ v'.tag = some m := by
  rcases h.cases_change hsound with ⟨hdocument, -⟩ | ⟨n, f, ⟨hdocument, -⟩, -, hchange⟩
  · exact ⟨v, hdocument ▸ hv, hm⟩
  · rw [hdocument]
    refine hsound.under?_modify (fun u hu hn => (hchange u hu hn).1.tag)
      (fun pre key rest _ u hu hn => ?_) hv hm
    exact (hchange u (run.holds_document.below (Tree.mem_subtrees_of_under? hu)) hn).2.2 key

theorem Patch.next_le {run after : Run} (h : Patch run after) : run.next ≤ after.next := by
  cases h with
  | noted => exact Nat.le_refl _
  | _ => exact Run.next_le_modifyNode _ _

section Patches

variable {run after : Run} (h : Relation.ReflTransGen Patch run after)
include h

theorem updates_of_patches (P : Run → Nat → Prop) : Updates P run after := by
  induction h with
  | refl => exact .refl
  | tail _ hlast ih => exact ih.tail (.patch hlast)

theorem sound_of_patches (hsound : run.Sound) : after.Sound :=
  (updates_of_patches h fun _ _ => True).sound hsound

/-- Patches only add to the nodes from before. -/
theorem grown_of_patches (hsound : run.Sound) {m : Nat} (hm : m < run.next) {u' : Node}
    (hu : after.Holds u') (htag : u'.tag = some m) :
    ∃ v, run.Holds v ∧ v.tag = some m ∧ Grown v u' := by
  induction h using Relation.ReflTransGen.head_induction_on with
  | refl => exact ⟨u', hu, htag, .refl u'⟩
  | head hfirst _ ih =>
      obtain ⟨between, hbetween, hnumber, hgrown⟩ :=
        ih (hfirst.sound hsound) (Nat.lt_of_lt_of_le hm hfirst.next_le)
      obtain ⟨v, hv, hvtag, hgrown'⟩ := hfirst.grown hsound hm hbetween hnumber
      exact ⟨v, hv, hvtag, hgrown'.trans hgrown⟩

/-- Patches leave the keys to the nodes from before as they are. -/
theorem under?_of_patches (hsound : run.Sound) {keys : List String} {v : Node} {m : Nat}
    (hv : run.document.under? keys = some v) (hm : v.tag = some m) :
    ∃ v', after.document.under? keys = some v' ∧ v'.tag = some m := by
  induction h with
  | refl => exact ⟨v, hv, hm⟩
  | tail hfirst hlast ih =>
      obtain ⟨between, hbetween, hnumber⟩ := ih
      exact hlast.under? (sound_of_patches hfirst hsound) hbetween hnumber

end Patches

end ProtoShape
