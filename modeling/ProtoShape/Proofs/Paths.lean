import ProtoShape.Proofs.Tree

/-!
# Paths in a tree

The children of a list are its items, and those of a mapping are its values.  A path
gives the positions of the children on the way to a node, and `at?` follows it.  Where only
mappings are on the way, `under?` follows their keys.

`tags` lists the tags of all nodes.  Where they are distinct, a tag tells at which path
a node stands: `path_unique`.
-/

namespace ProtoShape.Tree

variable {τ : Type}

/-- The items of a list or the values of a mapping. -/
def children : Tree τ → List (Tree τ)
  | scalar _ _ => []
  | list _ items => items
  | map _ fields => fields.values

@[simp] theorem children_scalar (tag : τ) (s : Scalar) : (scalar tag s).children = [] := rfl

@[simp] theorem children_list (tag : τ) (items : List (Tree τ)) :
    (list tag items).children = items :=
  rfl

@[simp] theorem children_map (tag : τ) (fields : Fields τ) :
    (map tag fields).children = fields.values :=
  rfl

/-- The tree with a function applied to its children. -/
def mapChildren (f : Tree τ → Tree τ) : Tree τ → Tree τ
  | scalar tag s => scalar tag s
  | list tag items => list tag (items.map f)
  | map tag fields => map tag (fields.mapValues f)

@[simp] theorem children_mapChildren (f : Tree τ → Tree τ) (t : Tree τ) :
    (t.mapChildren f).children = t.children.map f := by
  cases t <;> simp [mapChildren, Entries.values, Entries.mapValues]

@[simp] theorem tag_mapChildren (f : Tree τ → Tree τ) (t : Tree τ) :
    (t.mapChildren f).tag = t.tag := by
  cases t <;> rfl

theorem mapChildren_eq_self {f : Tree τ → Tree τ} {t : Tree τ}
    (h : ∀ child ∈ t.children, f child = child) :
    t.mapChildren f = t := by
  cases t with
  | scalar tag s => rfl
  | list tag items => exact congrArg (list tag) ((List.map_congr_left h).trans (List.map_id' items))
  | map tag fields =>
      refine congrArg (fun entries => map tag ⟨entries⟩) ?_
      refine Eq.trans (List.map_congr_left fun entry hentry => ?_) (List.map_id' fields.toList)
      exact congrArg (Prod.mk entry.1) (h entry.2 (List.mem_map_of_mem hentry))

theorem subtrees_eq (t : Tree τ) : t.subtrees = t :: t.children.flatMap subtrees := by
  cases t with
  | map tag fields => simp [Entries.values, List.flatMap_map]
  | _ => simp

theorem children_mapTags {σ : Type} (f : τ → σ) (t : Tree τ) :
    (t.mapTags f).children = t.children.map (mapTags f) := by
  cases t with
  | map tag fields => simp [Fields.mapTags, Entries.values, Entries.mapValues]
  | _ => simp

theorem mem_subtrees_of_child {t child u : Tree τ} (hchild : child ∈ t.children)
    (hu : u ∈ child.subtrees) : u ∈ t.subtrees := by
  rw [subtrees_eq]
  exact List.mem_cons_of_mem _ (List.mem_flatMap.2 ⟨child, hchild, hu⟩)

theorem mem_subtrees_of_get? {tag : τ} {fields : Fields τ} {key : Scalar} {value : Tree τ}
    (h : fields.get? key = some value) : value ∈ (map tag fields).subtrees := by
  obtain ⟨key, -, hmem⟩ := Entries.mem_of_get? h
  exact mem_subtrees_of_child (List.mem_map.2 ⟨(key, value), hmem, rfl⟩) (self_mem_subtrees value)

/-- A fact holds of all trees if every tree inherits it from its children. -/
@[elab_as_elim]
theorem children_induction {motive : Tree τ → Prop}
    (step : ∀ t, (∀ child ∈ t.children, motive child) → motive t) (t : Tree τ) : motive t := by
  induction t using Tree.induction with
  | scalar tag s => exact step _ (by simp)
  | list tag items ih => exact step _ ih
  | map tag fields ih =>
      refine step _ fun child hchild => ?_
      obtain ⟨entry, hentry, rfl⟩ := List.mem_map.1 hchild
      exact ih entry hentry

/-- What stands in a tree is its root or the child of a node there. -/
theorem exists_parent {t u : Tree τ} (h : u ∈ t.subtrees) :
    u = t ∨ ∃ parent ∈ t.subtrees, u ∈ parent.children := by
  induction t using children_induction with
  | step t ih =>
      rw [subtrees_eq] at h
      rcases List.mem_cons.1 h with rfl | hbelow
      · exact Or.inl rfl
      · obtain ⟨child, hchild, hin⟩ := List.mem_flatMap.1 hbelow
        rcases ih child hchild hin with rfl | ⟨parent, hparent, hu⟩
        · exact Or.inr ⟨t, self_mem_subtrees t, hchild⟩
        · exact Or.inr ⟨parent, mem_subtrees_of_child hchild hparent, hu⟩

/-- A fact holds of all trees if every tree inherits it from all that stands below it. -/
@[elab_as_elim]
theorem below_induction {motive : Tree τ → Prop}
    (step : ∀ t, (∀ child ∈ t.children, ∀ u ∈ child.subtrees, motive u) → motive t) (t : Tree τ) :
    motive t := by
  have hall : ∀ u ∈ t.subtrees, motive u := by
    induction t using children_induction with
    | step t ih =>
        intro u hu
        rw [subtrees_eq] at hu
        rcases List.mem_cons.1 hu with rfl | hbelow
        · exact step u ih
        · obtain ⟨child, hchild, hin⟩ := List.mem_flatMap.1 hbelow
          exact ih child hchild u hin
  exact hall t (self_mem_subtrees t)

/-- The node at the end of a path. -/
def at? : Tree τ → List Nat → Option (Tree τ)
  | t, [] => some t
  | t, i :: path => t.children[i]?.bind fun child => child.at? path

@[simp] theorem at?_nil (t : Tree τ) : t.at? [] = some t := rfl

theorem at?_cons (t : Tree τ) (i : Nat) (path : List Nat) :
    t.at? (i :: path) = t.children[i]?.bind fun child => child.at? path := rfl

theorem at?_append (t : Tree τ) (path rest : List Nat) :
    t.at? (path ++ rest) = (t.at? path).bind fun u => u.at? rest := by
  induction path generalizing t with
  | nil => rfl
  | cons i path ih =>
      rw [List.cons_append, at?_cons, at?_cons]
      cases t.children[i]? with
      | none => rfl
      | some child => exact ih child

theorem mem_subtrees_of_at? {t u : Tree τ} {path : List Nat} (h : t.at? path = some u) :
    u ∈ t.subtrees := by
  induction path generalizing t with
  | nil =>
      obtain rfl : t = u := by simpa using h
      exact self_mem_subtrees t
  | cons i path ih =>
      obtain ⟨child, hchild, hrest⟩ := Option.bind_eq_some_iff.1 h
      rw [subtrees_eq]
      exact List.mem_cons_of_mem _
        (List.mem_flatMap.2 ⟨child, List.mem_of_getElem? hchild, ih hrest⟩)

/-- Every node stands at the end of a path. -/
theorem exists_path {t u : Tree τ} (h : u ∈ t.subtrees) : ∃ path, t.at? path = some u := by
  induction t using Tree.children_induction with
  | step t ih =>
      rw [subtrees_eq] at h
      rcases List.mem_cons.1 h with rfl | hbelow
      · exact ⟨[], rfl⟩
      · obtain ⟨child, hchild, hin⟩ := List.mem_flatMap.1 hbelow
        obtain ⟨path, hpath⟩ := ih child hchild hin
        obtain ⟨i, hi⟩ := List.mem_iff_getElem?.1 hchild
        exact ⟨i :: path, by rw [at?_cons, hi, Option.bind_some, hpath]⟩

/-! ## Keys -/

/-- The value that some keys lead to, one after the other. -/
def under? : Tree τ → List String → Option (Tree τ)
  | t, [] => some t
  | t, key :: keys =>
    (t.fields?.bind fun fields => fields.get? key).bind fun value => value.under? keys

@[simp] theorem under?_nil (t : Tree τ) : t.under? [] = some t := rfl

theorem under?_cons (t : Tree τ) (key : String) (keys : List String) :
    t.under? (key :: keys) =
      (t.fields?.bind fun fields => fields.get? key).bind fun value => value.under? keys :=
  rfl

theorem under?_map_cons (tag : τ) (fields : Fields τ) (key : String) (keys : List String) :
    (map tag fields).under? (key :: keys) = (fields.get? key).bind fun value => value.under? keys :=
  rfl

theorem under?_append (t : Tree τ) (keys more : List String) :
    t.under? (keys ++ more) = (t.under? keys).bind fun u => u.under? more := by
  induction keys generalizing t with
  | nil => rfl
  | cons key rest ih =>
      rw [List.cons_append, under?_cons, under?_cons]
      cases t.fields?.bind fun fields => fields.get? key with
      | none => rfl
      | some value => exact ih value

theorem under?_concat {t u : Tree τ} {keys : List String} {key : String} :
    t.under? (keys ++ [key]) = some u ↔ ∃ v, t.under? keys = some v ∧ v.under? [key] = some u := by
  rw [under?_append, Option.bind_eq_some_iff]

theorem mem_subtrees_of_under? {t u : Tree τ} {keys : List String} (h : t.under? keys = some u) :
    u ∈ t.subtrees := by
  induction keys generalizing t with
  | nil =>
      obtain rfl : t = u := by simpa using h
      exact self_mem_subtrees t
  | cons key rest ih =>
      cases t with
      | map tag fields =>
          obtain ⟨value, hget, hrest⟩ := Option.bind_eq_some_iff.1 h
          exact mem_subtrees_trans (ih hrest) (mem_subtrees_of_get? hget)
      | _ => cases h

/-! ## Tags -/

/-- The tags of all nodes, in the order in which the tree is written. -/
def tags (t : Tree τ) : List τ := t.subtrees.map Tree.tag

theorem tags_eq (t : Tree τ) : t.tags = t.tag :: t.children.flatMap tags := by
  rw [tags, subtrees_eq, List.map_cons, List.map_flatMap]
  rfl

@[simp] theorem tags_scalar (tag : τ) (s : Scalar) : (scalar tag s).tags = [tag] := by
  simp [tags, Tree.tag]

@[simp] theorem tags_list (tag : τ) (items : List (Tree τ)) :
    (list tag items).tags = tag :: items.flatMap tags :=
  tags_eq (list tag items)

@[simp] theorem tags_map (tag : τ) (fields : Fields τ) :
    (map tag fields).tags = tag :: fields.toList.flatMap fun entry => entry.2.tags := by
  rw [tags_eq, children_map, Entries.values, List.flatMap_map]
  rfl

theorem tags_mapTags {σ : Type} (f : τ → σ) (t : Tree τ) : (t.mapTags f).tags = t.tags.map f := by
  have hcongr : ∀ l : List (Tree τ), (∀ u ∈ l, (u.mapTags f).tags = u.tags.map f) →
      l.flatMap (fun u => (u.mapTags f).tags) = (l.flatMap tags).map f := by
    intro l h
    rw [List.map_flatMap]
    exact List.flatMap_congr h
  induction t using Tree.induction with
  | scalar tag s => simp
  | list tag items ih => simp [List.flatMap_map, hcongr items ih]
  | map tag fields ih =>
      rw [mapTags_map, tags_map, tags_map, List.map_cons, Fields.mapTags, Entries.mapValues,
        List.flatMap_map, List.map_flatMap]
      exact congrArg _ (List.flatMap_congr ih)

theorem tag_mem_tags {t u : Tree τ} (h : u ∈ t.subtrees) : u.tag ∈ t.tags :=
  List.mem_map_of_mem h

/-- The tags of a part are among those of the whole, in the same order. -/
theorem tags_sublist {t u : Tree τ} (h : u ∈ t.subtrees) : u.tags.Sublist t.tags := by
  induction t using Tree.children_induction with
  | step t ih =>
      rw [subtrees_eq] at h
      rcases List.mem_cons.1 h with rfl | hbelow
      · exact List.Sublist.refl _
      · obtain ⟨child, hchild, hin⟩ := List.mem_flatMap.1 hbelow
        rw [tags_eq t, List.flatMap_def]
        exact ((ih child hchild hin).trans
          (List.sublist_flatten_of_mem (List.mem_map_of_mem hchild))).cons _

/-- Of two lists among lists without a common member, a member tells which one it is. -/
theorem flatMap_index_unique {α β : Type} {l : List α} {f : α → List β} (h : (l.flatMap f).Nodup)
    {i j : Nat} {a b : α} (hi : l[i]? = some a) (hj : l[j]? = some b) {x : β} (ha : x ∈ f a)
    (hb : x ∈ f b) : i = j := by
  have hpair := (List.nodup_flatMap.1 h).2
  rw [List.pairwise_iff_getElem] at hpair
  obtain ⟨hi', rfl⟩ := List.getElem?_eq_some_iff.1 hi
  obtain ⟨hj', rfl⟩ := List.getElem?_eq_some_iff.1 hj
  rcases Nat.lt_trichotomy i j with hlt | heq | hlt
  · exact absurd hb (hpair i j hi' hj' hlt ha)
  · exact heq
  · exact absurd ha (hpair j i hj' hi' hlt hb)

/-- Where all tags are distinct, nodes with one tag stand at one path. -/
theorem path_unique {t u v : Tree τ} (h : t.tags.Nodup) {path other : List Nat}
    (hu : t.at? path = some u) (hv : t.at? other = some v) (htag : u.tag = v.tag) :
    path = other := by
  induction path generalizing t other with
  | nil =>
      obtain rfl : t = u := by simpa using hu
      cases other with
      | nil => rfl
      | cons j other =>
          obtain ⟨child, hchild, hrest⟩ := Option.bind_eq_some_iff.1 hv
          rw [tags_eq, List.nodup_cons, htag] at h
          exact absurd (List.mem_flatMap.2 ⟨child, List.mem_of_getElem? hchild,
            tag_mem_tags (mem_subtrees_of_at? hrest)⟩) h.1
  | cons i path ih =>
      obtain ⟨child, hchild, hrest⟩ := Option.bind_eq_some_iff.1 hu
      have hin := tag_mem_tags (mem_subtrees_of_at? hrest)
      rw [tags_eq, List.nodup_cons] at h
      cases other with
      | nil =>
          obtain rfl : t = v := by simpa using hv
          exact absurd (List.mem_flatMap.2 ⟨child, List.mem_of_getElem? hchild, htag ▸ hin⟩) h.1
      | cons j other =>
          obtain ⟨child', hchild', hrest'⟩ := Option.bind_eq_some_iff.1 hv
          have hin' := tag_mem_tags (mem_subtrees_of_at? hrest')
          obtain rfl := flatMap_index_unique h.2 hchild hchild' hin (htag ▸ hin')
          obtain rfl : child = child' := by simpa [hchild] using hchild'
          have hnodup := (List.nodup_flatMap.1 h.2).1 child (List.mem_of_getElem? hchild)
          rw [ih hnodup hrest hrest']

/-- The path to where keys lead passes through where fewer of them lead. -/
theorem exists_path_of_under? {t u : Tree τ} {keys : List String} (h : t.under? keys = some u) :
    ∃ path, t.at? path = some u ∧
      ∀ front back, path = front ++ back → ∃ pre, pre <+: keys ∧ t.under? pre = t.at? front := by
  induction keys generalizing t with
  | nil =>
      refine ⟨[], h, fun front back heq => ⟨[], List.nil_prefix, ?_⟩⟩
      obtain ⟨rfl, -⟩ := List.append_eq_nil_iff.1 heq.symm
      rfl
  | cons key rest ih =>
      cases t with
      | map tag fields =>
          rw [under?_map_cons, Option.bind_eq_some_iff] at h
          obtain ⟨value, hget, hrest⟩ := h
          obtain ⟨path, hpath, hfront⟩ := ih hrest
          obtain ⟨k, -, hmem⟩ := Entries.mem_of_get? hget
          obtain ⟨i, hi⟩ := List.mem_iff_getElem?.1 hmem
          have hchild : (map tag fields).children[i]? = some value := by
            rw [children_map, Entries.values, List.getElem?_map, hi, Option.map_some]
          refine ⟨i :: path, by rw [at?_cons, hchild, Option.bind_some, hpath], ?_⟩
          intro front back heq
          cases front with
          | nil => exact ⟨[], List.nil_prefix, rfl⟩
          | cons j front =>
              obtain ⟨rfl, hback⟩ := List.cons.inj heq
              obtain ⟨pre, hpre, hunder⟩ := hfront front back hback
              refine ⟨key :: pre, List.cons_prefix_cons.2 ⟨rfl, hpre⟩, ?_⟩
              rw [under?_map_cons, hget, Option.bind_some, at?_cons, hchild, Option.bind_some,
                hunder]
      | _ => cases h

/-- Where all tags are distinct, what stands above a node that keys lead to is what fewer of
them lead to. -/
theorem exists_prefix_of_under? {t v u : Tree τ} (h : t.tags.Nodup) {keys : List String}
    (hu : t.under? keys = some u) (hv : v ∈ t.subtrees) (hbelow : u ∈ v.subtrees) :
    ∃ pre, pre <+: keys ∧ t.under? pre = some v := by
  obtain ⟨path, hpath, hfront⟩ := exists_path_of_under? hu
  obtain ⟨front, hto⟩ := exists_path hv
  obtain ⟨back, hfrom⟩ := exists_path hbelow
  have hwhole : t.at? (front ++ back) = some u := by rw [at?_append, hto, Option.bind_some, hfrom]
  obtain ⟨pre, hpre, hunder⟩ := hfront front back (path_unique h hpath hwhole rfl)
  exact ⟨pre, hpre, hunder.trans hto⟩

end ProtoShape.Tree
