import ProtoShape.Proofs.Reshape.Budget

/-!
# Enumerations that the second phase leaves alone

The walk of the second phase does not go into the values of an `enum`, and no rule puts a list under
this keyword.  So what is found by a test of the lists there was there before
(`Run.HasEnum.of_modifyNode`), if the test looks for a number that has been given out
(`Seeks`).  How many lists pass a test is a charge, so what the rules make of a schema has
been worked out already.

`Run.Encloses` says that a number occurs in an enumeration.  No update brings one in there
(`Update.encloses`), and a child that the walk goes on to is not in there either if its
parent is not (`Run.Sound.encloses_child`).  So the rules are applied outside of enumerations only:
`guides_outside`.
-/

namespace ProtoShape

open Rules Tree

/-! ## Tests -/

/-- A test for lists in which a number occurs. -/
structure Seeks (m : Nat) (test : Node → Prop) : Prop where
  list : ∀ value, test value → value.items?.isSome = true
  uses : ∀ value, test value → 0 < Node.uses m value
  number : ∀ value next, m < next → test (Node.number value next).1 → test value

namespace Charge

open Node

open Classical in
/-- How many lists under `enum` pass a test. -/
noncomputable def enumerated (test : Node → Prop) : Charge :=
  ⟨fun _ key value => if key = .text "enum" ∧ test value then 1 else 0, fun _ => 0⟩

variable {m : Nat} {test : Node → Prop}

theorem uniform_enumerated (h : Seeks m test) : (enumerated test).Uniform 0 where
  other := by
    intro key hkey tag value
    have hne : key ≠ "enum" := by
      rintro rfl
      exact hkey (by decide)
    simp [enumerated, hne]
  mapping := by
    intro tag key inner fields
    have hfails : ¬test (.map inner fields) := fun hpasses => nomatch h.list _ hpasses
    simp [enumerated, hfails]
  dull _ := rfl

theorem tagless_enumerated : (enumerated test).Tagless := fun _ _ _ _ => rfl

theorem load_enumerated_pos {t : Node} : 0 < load (enumerated test) t ↔ ∃ tag fields,
    Tree.map tag fields ∈ t.subtrees ∧ ∃ entry ∈ fields.toList, entry.1.key = .text "enum" ∧
      test entry.2 := by
  have htoll : ∀ (tag : Tag) (fields : Fields Tag), 0 < toll (enumerated test) (.map tag fields) ↔
      ∃ entry ∈ fields.toList, entry.1.key = .text "enum" ∧ test entry.2 := by
    intro tag fields
    rw [toll, Entries.tally, List.sum_pos_iff_exists_pos_nat]
    simp only [List.mem_map, enumerated]
    constructor
    · rintro ⟨_, ⟨entry, hentry, rfl⟩, hpos⟩
      split at hpos
      · rename_i hpasses
        exact ⟨entry, hentry, hpasses⟩
      · cases hpos
    · rintro ⟨entry, hentry, hpasses⟩
      exact ⟨_, ⟨entry, hentry, rfl⟩, by rw [if_pos hpasses]; exact Nat.one_pos⟩
  rw [load, List.sum_pos_iff_exists_pos_nat]
  constructor
  · rintro ⟨_, hcost, hpos⟩
    obtain ⟨u, hu, rfl⟩ := List.mem_map.1 hcost
    cases u with
    | map tag fields => exact ⟨tag, fields, hu, (htoll tag fields).1 hpos⟩
    | list tag items => simp [toll, enumerated] at hpos
    | scalar tag s => cases hpos
  · rintro ⟨tag, fields, hu, hentry⟩
    exact ⟨_, List.mem_map_of_mem hu, (htoll tag fields).2 hentry⟩

/-- What does not use the number has no list that passes. -/
theorem load_enumerated_of_uses (h : Seeks m test) {t : Node} (hzero : uses m t = 0) :
    load (enumerated test) t = 0 := by
  by_contra hne
  obtain ⟨tag, fields, hmem, entry, hentry, -, hpasses⟩ :=
    load_enumerated_pos.1 (Nat.pos_of_ne_zero hne)
  have hbelow : entry.2 ∈ t.subtrees := mem_subtrees_trans (mem_subtrees_of_child
    (List.mem_map_of_mem (f := (·.2)) hentry) (self_mem_subtrees entry.2)) hmem
  have hused := h.uses _ hpasses
  have hle := @uses_le_of_mem m _ _ hbelow
  omega

end Charge

/-! ## Changes -/

/-- What replaces a node puts no list under `enum`. -/
structure Spare (old new : Node) : Prop where
  tag : new.tag = old.tag
  list : new.items?.isSome = true → old.items?.isSome = true
  uses : ∀ m, Node.uses m new ≤ Node.uses m old
  load : ∀ m test, Seeks m test →
    Node.load (.enumerated test) new ≤ Node.load (.enumerated test) old

theorem Spare.refl (u : Node) : Spare u u :=
  ⟨rfl, id, fun _ => Nat.le_refl _, fun _ _ _ => Nat.le_refl _⟩

/-- A list under `enum` passes a test. -/
def Run.HasEnum (run : Run) (test : Node → Prop) : Prop :=
  ∃ tag fields, run.Holds (.map tag fields) ∧ ∃ entry ∈ fields.toList, entry.1.key = .text "enum" ∧
    test entry.2

section Changes

variable {run : Run} {m n : Nat} {test : Node → Prop} {f : Node → Node}

theorem Spare.list_modify (h : ∀ v, run.Holds v → v.tag = some n → Spare v (f v)) {u : Node}
    (hu : run.Holds u) (hlist : (Node.modify n f u).items?.isSome = true) :
    u.items?.isSome = true := by
  by_cases hn : u.tag = some n
  · rw [Node.modify_self hn] at hlist
    exact (h u hu hn).list hlist
  · rw [Node.modify_of_ne hn] at hlist
    cases u with
    | list => rfl
    | _ => cases hlist

/-- What passes a test after a change did so before, if the change itself does not make it pass. -/
theorem Run.HasEnum.of_modifyNode (hseeks : Seeks m test) (hm : m < run.next)
    (h : ∀ v, run.Holds v → v.tag = some n → Spare v (f v))
    (hmodify : ∀ value, run.Holds value → test (Node.modify n f value) → test value)
    (hafter : (run.modifyNode n f).HasEnum test) : run.HasEnum test := by
  obtain ⟨tag', fields', hholds', entry', hentry', hkey', hpasses'⟩ := hafter
  obtain ⟨u, k, hk, hnumber, hfrom⟩ := holds_modifyNode hholds'
  -- The mapping before the numbering.
  obtain ⟨tag, fields, rfl, entry, hentry, hkey, hpasses⟩ : ∃ tag fields, u = .map tag fields ∧
      ∃ entry ∈ fields.toList, entry.1.key = .text "enum" ∧ test entry.2 := by
    cases u with
    | map tag fields =>
        obtain ⟨tag'', fields'', heq, hfilled⟩ := Node.number_map tag fields k
        rw [heq] at hnumber
        cases hnumber
        obtain ⟨entry, hentry, hsame, j, hj, hvalue⟩ := hfilled.entries entry' hentry'
        rw [hvalue] at hpasses'
        exact ⟨tag, fields, rfl, entry, hentry, hsame ▸ hkey',
          hseeks.number entry.2 j (by omega) hpasses'⟩
    | list tag items =>
        obtain ⟨_, _, heq, -⟩ := Node.number_list tag items k
        cases hnumber.trans heq
    | scalar tag s =>
        obtain ⟨_, heq⟩ := number_scalar tag s k
        cases hnumber.trans heq
  rcases hfrom with ⟨v, hv, hne, heq⟩ | ⟨v, hv, hn, hmem⟩
  · rw [Node.modify_of_ne hne] at heq
    cases v with
    | map tag₀ fields₀ =>
        cases heq
        obtain ⟨old, hold, rfl⟩ := List.mem_map.1 hentry
        have hbelow : run.Holds old.2 := hv.below (mem_subtrees_of_child
          (List.mem_map_of_mem (f := (·.2)) hold) (self_mem_subtrees old.2))
        exact ⟨_, _, hv, old, hold, hkey, hmodify old.2 hbelow hpasses⟩
    | _ => cases heq
  · have hload : 0 < Node.load (.enumerated test) (f v) :=
      Charge.load_enumerated_pos.2 ⟨tag, fields, hmem, entry, hentry, hkey, hpasses⟩
    obtain ⟨_, _, hin, hrest⟩ :=
      Charge.load_enumerated_pos.1 (hload.trans_le ((h v hv hn).load m test hseeks))
    exact ⟨_, _, hv.below hin, hrest⟩

end Changes

/-! ## Updates -/

section Updates

variable {run after : Run} {m n : Nat}

theorem Addition.spare {u v : Node} (h : Addition u v) : Spare u v := by
  refine ⟨h.moves.tag, (h.plainer False).list, h.uses_le, fun m test hseeks => ?_⟩
  have hcharge := Charge.uniform_enumerated hseeks
  cases h with
  | same => exact Nat.le_refl _
  | place hkey _ => exact load_place_le hcharge hkey _ _
  | @wrapped tag items index key hmapping _ =>
      cases hitem : items[index]? with
      | some item => exact load_wrapAt_le hcharge hitem (hmapping item hitem) key
      | none =>
          unfold wrapAt
          rw [hitem]

theorem Rewrite.spare {u v : Node} (h : Rewrite u v) : Spare u v := by
  refine ⟨h.tag_text.1, (h.plainer False).list, h.uses_le, fun m test hseeks => ?_⟩
  have hcharge := Charge.uniform_enumerated hseeks
  have htagless := @Charge.tagless_enumerated test
  cases h with
  | same => exact Nat.le_refl _
  | @titled tag fields result hmoves =>
      obtain ⟨_, _, _, _, -, -, -, hload⟩ := Charge.load_titled_le hcharge htagless hmoves tag
      simp only [Charge.enumerated] at hload ⊢
      omega
  | @merged tag fields result hmerges =>
      obtain ⟨_, _, -, hload⟩ := Charge.load_merged_le hcharge htagless hmerges tag
      have hone : (Charge.enumerated test).entry tag (.text "minProperties") (.ofInt 1) = 0 := by
        simp [Charge.enumerated]
      omega
  | @inlined tag fields additional key hone hget hreference =>
      cases additional with
      | map inner more =>
          have hload := Charge.load_inlined_le hcharge tag fields key inner more
          obtain ⟨_, -, hpaid⟩ := (Charge.enumerated test).le_ofMap hone hget tag
          simp only [Charge.among] at hload
          simp only [Charge.enumerated] at hload hpaid ⊢
          omega
      | _ => cases hreference
  | @referred tag fields ref hone =>
      have hload := Charge.load_referred_le hcharge tag fields ref
      omega

/-- A rule changes mappings only. -/
theorem Rewrite.eq_of_list {u v : Node} (h : Rewrite u v)
    (hlist : u.items?.isSome = true) : v = u := by
  cases h with
  | same => rfl
  | _ => cases hlist

theorem spare_insert {key : String} {value : Node} {tag : Tag} {fields : Fields Tag}
    (huses : ∀ m, Node.uses m value = 0) (hmapping : value.fields?.isSome = true) :
    Spare (.map tag fields) (.map tag (fields.insert key value)) := by
  refine ⟨rfl, nofun, fun m => ?_, fun m test hseeks => ?_⟩
  · have hinsert := Entries.total_insert_le (Node.uses m) fields key value
    have hnew := huses m
    rw [Node.uses_map, Node.uses_map]
    omega
  · have hinsert := Entries.tally_insert_le ((Charge.enumerated test).under tag) fields key value
    have hnew := Charge.load_enumerated_of_uses hseeks (huses m)
    cases value with
    | map inner more =>
        have hentry := (Charge.uniform_enumerated hseeks).mapping tag (Scalar.key key) inner more
        rw [Charge.under] at hinsert
        rw [Node.load_map, Node.load_map]
        change _ ≤ 0 at hentry
        omega
    | _ => cases hmapping

theorem spare_part (field : String) (u : Node) : Spare u (onItems (· ++ [keyHolder field]) u) := by
  cases u with
  | list tag items =>
      exact ⟨rfl, id, uses_part_le field _, fun m test hseeks =>
        load_part_le (Charge.uniform_enumerated hseeks) tag items field⟩
  | _ => exact .refl _

/-- A change of one node: what has changed, and whose node it was. -/
structure Update.Changes (P : Run → Nat → Prop) (run after : Run) (n : Nat)
    (f : Node → Node) : Prop where
  holds : ∀ u, after.Holds u → (run.modifyNode n f).Holds u
  spare : ∀ v, run.Holds v → v.tag = some n → Spare v (f v)
  owner : run.Carries n ∨ run.IsSection n ∨
    P run n ∧ ∀ v, run.Holds v → v.tag = some n → v.items?.isSome = true → f v = v

/-- An update changes no node, or one that belongs to a schema that has been remembered, to the
sections or to a schema that the rules are applied to. -/
theorem Update.cases_change {P : Run → Nat → Prop} (h : Update P run after) (hsound : run.Sound) :
    (∀ u, after.Holds u → run.Holds u) ∨ ∃ n f, Update.Changes P run after n f := by
  cases h with
  | rewritten hn _ hrewrites =>
      refine Or.inr ⟨_, _, fun _ => id, fun v hv hm => (hrewrites v hv hm).spare,
        Or.inr (Or.inr ⟨hn, ?_⟩)⟩
      exact fun v hv hm => (hrewrites v hv hm).eq_of_list
  | patch hpatch =>
      cases hpatch with
      | noted => exact Or.inl fun _ => id
      | added _ hadds howner =>
          exact Or.inr ⟨_, _, fun _ => id, fun v hv hn => (hadds v hv hn).spare,
            howner.imp_right Or.inl⟩
      | keyed howner hget _ hmarked =>
          refine Or.inr ⟨_, _, fun _ => id, fun v hv hn => ?_,
            Or.inl ⟨_, _, _, _, howner, hget, rfl, by decide, hmarked⟩⟩
          obtain rfl := hsound.unique hv (howner.below (mem_subtrees_of_get? hget)) hn rfl
          exact spare_insert uses_textSchema rfl
      | parted howner hget hmarked =>
          exact Or.inr ⟨_, _, fun _ => id, fun v _ _ => spare_part _ v,
            Or.inl ⟨_, _, _, _, howner, hget, rfl, by decide, hmarked⟩⟩
      | generated source ref keySchema hschemas _ =>
          refine Or.inr ⟨_, _, fun _ => id, fun v hv hn => ?_,
            Or.inr (Or.inl ⟨_, List.prefix_rfl, _, hschemas, rfl⟩)⟩
          obtain rfl :=
            hsound.unique hv (run.holds_document.below (mem_subtrees_of_under? hschemas)) hn rfl
          exact spare_insert (fun _ => uses_keyValueComponent _ _ _ _) rfl

end Updates

/-! ## Numbers in enumerations -/

namespace Node

variable {whole : Bool} {m next : Nat}

/-- How often a number occurs in the items of a list.  The list itself counts if `whole` says so. -/
def inList (whole : Bool) (m : Nat) : Node → Nat
  | .list tag items => (if whole = true ∧ tag = some m then 1 else 0) + (items.map (uses m)).sum
  | _ => 0

theorem inList_le {u v : Node} (htag : v.tag = some m ↔ u.tag = some m)
    (hlist : v.items?.isSome = true → u.items?.isSome = true)
    (huses : uses m v ≤ uses m u) : inList whole m v ≤ inList whole m u := by
  cases v with
  | list tag' items' =>
      cases u with
      | list tag items =>
          change tag' = some m ↔ tag = some m at htag
          simp only [uses_list, htag] at huses
          simp only [inList, htag]
          omega
      | _ => cases hlist rfl
  | _ => exact Nat.zero_le _

/-- What occurs in a list is the list itself or stands below one of its items. -/
theorem inList_pos {u : Node} (h : 0 < inList whole m u) : ∃ tag items, u = .list tag items ∧
    (whole = true ∧ tag = some m ∨ ∃ item ∈ items, ∃ v ∈ item.subtrees, v.tag = some m) := by
  cases u with
  | list tag items =>
      refine ⟨tag, items, rfl, ?_⟩
      by_cases hself : whole = true ∧ tag = some m
      · exact Or.inl hself
      · rw [inList, if_neg hself, Nat.zero_add, List.sum_pos_iff_exists_pos_nat] at h
        obtain ⟨_, hcount, hpos⟩ := h
        obtain ⟨item, hitem, rfl⟩ := List.mem_map.1 hcount
        obtain ⟨v, hv, htag⟩ := List.mem_map.1 (List.count_pos_iff.1 hpos)
        exact Or.inr ⟨item, hitem, v, hv, htag⟩
  | _ => cases h

theorem inList_pos_of_item {tag : Tag} {items : List Node} {item v : Node} (hitem : item ∈ items)
    (hv : v ∈ item.subtrees) (hm : v.tag = some m) : 0 < inList whole m (.list tag items) := by
  have hpos := uses_pos hv hm
  have hle := List.le_sum_of_mem (List.mem_map_of_mem (f := uses m) hitem)
  rw [inList]
  omega

/-- Numbers that were given out before occur no more often after numbering. -/
theorem uses_number_le (hm : m < next) (t : Node) : uses m (number t next).1 ≤ uses m t := by
  rw [uses, (number_numbers t next).tags, uses]
  generalize t.tags = tags
  clear t
  induction tags generalizing next with
  | nil => exact Nat.le_refl _
  | cons tag rest ih =>
      cases tag with
      | none =>
          have hrest := ih (Nat.lt_succ_of_lt hm)
          have hne : ¬next = m := by omega
          simpa [numbered, List.count_cons, hne] using hrest
      | some k =>
          rw [numbered, List.count_cons, List.count_cons]
          exact Nat.add_le_add_right (ih hm) _

/-- The test for lists in which a number occurs. -/
def encloses (whole : Bool) (m : Nat) (value : Node) : Prop := 0 < inList whole m value

theorem seeks_encloses : Seeks m (encloses whole m) where
  list := by
    intro value hpasses
    obtain ⟨_, _, rfl, -⟩ := inList_pos hpasses
    rfl
  uses := by
    intro value hpasses
    obtain ⟨tag, items, rfl, ⟨-, hself⟩ | ⟨item, hitem, v, hv, hm⟩⟩ := inList_pos hpasses
    · exact uses_pos (self_mem_subtrees _) hself
    · exact uses_pos (mem_subtrees_of_child hitem hv) hm
  number := by
    intro value next hm hpasses
    refine Nat.lt_of_lt_of_le hpasses ?_
    refine inList_le ⟨fun hnew => ?_, fun hold => tag_number_of_some hold next⟩
      ?_ (uses_number_le hm value)
    · rcases tag_number hnew with hold | ⟨-, hfresh⟩
      · exact hold
      · omega
    · exact (plainer_number False value next).list

end Node

/-- A number occurs in an enumeration. -/
def Run.Encloses (whole : Bool) (run : Run) (m : Nat) : Prop := run.HasEnum (Node.encloses whole m)

/-- No update brings a number into an enumeration. -/
theorem Update.encloses {P : Run → Nat → Prop} {run after : Run} {whole : Bool} {m : Nat}
    (h : Update P run after) (hsound : run.Sound) (hm : m < run.next)
    (hencloses : after.Encloses whole m) :
    run.Encloses whole m := by
  obtain ⟨tag, fields, hholds, hentry⟩ := hencloses
  rcases h.cases_change hsound with hsame | ⟨n, f, hchanges⟩
  · exact ⟨tag, fields, hsame _ hholds, hentry⟩
  · refine Run.HasEnum.of_modifyNode Node.seeks_encloses hm hchanges.spare
      (fun value hvalue hpasses => ?_)
      ⟨tag, fields, hchanges.holds _ hholds, hentry⟩
    refine Nat.lt_of_lt_of_le hpasses (Node.inList_le ?_ (Spare.list_modify hchanges.spare hvalue)
      (Node.uses_modify_le fun v hv hn => (hchanges.spare v (hvalue.below hv) hn).uses m))
    rw [Node.tag_modify fun hn => (hchanges.spare value hvalue hn).tag]

/-! ## The walk -/

section Walk

variable {run after : Run} {whole : Bool} {m n : Nat} {place : Place}

/-- A child in an enumeration has its parent there, or it is the list itself. -/
theorem Run.Sound.encloses_child (h : run.Sound) {parent child : Node} {i : Nat}
    (hparent : run.Holds parent) (hn : parent.tag = some n)
    (hchild : parent.children[i]? = some child)
    (hm : child.tag = some m) (hencloses : run.Encloses whole m) :
    run.Encloses false n ∨ (parent.items?.isSome = true ∧ run.Encloses true n) ∨
      (whole = true ∧ ∃ tag fields entry, parent = .map tag fields ∧
        fields.toList[i]? = some entry ∧
        entry.1.key = .text "enum") := by
  obtain ⟨tag, fields, hholds, entry, hentry, hkey, hpasses⟩ := hencloses
  obtain ⟨j, hj⟩ := List.mem_iff_getElem?.1 hentry
  have hat : (Tree.map tag fields).children[j]? = some entry.2 := by
    rw [children_map, Entries.values, List.getElem?_map, hj, Option.map_some]
  have hheld : run.Holds entry.2 := hholds.below
    (mem_subtrees_of_child (List.mem_of_getElem? hat) (self_mem_subtrees entry.2))
  obtain ⟨inner, items, heq, ⟨hwhole, hlist⟩ | ⟨item, hitem, v, hv, hvm⟩⟩ := Node.inList_pos hpasses
  · have hself : entry.2.tag = some m := (congrArg Tree.tag heq).trans hlist
    obtain ⟨rfl, rfl⟩ := h.parent_unique hparent hholds hchild hat (hm.trans hself.symm)
    exact Or.inr (Or.inr ⟨hwhole, tag, fields, entry, rfl, hj, hkey⟩)
  -- The child stands below an item, or it is one.
  have hin : item ∈ entry.2.children := heq ▸ hitem
  rcases exists_parent hv with rfl | ⟨above, habove, hvabove⟩
  · obtain ⟨k, hk⟩ := List.mem_iff_getElem?.1 hin
    obtain ⟨rfl, -⟩ := h.parent_unique hparent hheld hchild hk (hm.trans hvm.symm)
    refine Or.inr (Or.inl ⟨by rw [heq]; rfl, tag, fields, hholds, entry, hentry, hkey, ?_⟩)
    show 0 < Node.inList true n entry.2
    rw [heq, Node.inList, if_pos ⟨rfl, (congrArg Tree.tag heq).symm.trans hn⟩]
    omega
  · obtain ⟨k, hk⟩ := List.mem_iff_getElem?.1 hvabove
    have hbelow : above ∈ entry.2.subtrees := mem_subtrees_of_child hin habove
    obtain ⟨rfl, -⟩ := h.parent_unique hparent (hheld.below hbelow) hchild hk (hm.trans hvm.symm)
    refine Or.inl ⟨tag, fields, hholds, entry, hentry, hkey, ?_⟩
    rw [heq]
    exact Node.inList_pos_of_item hitem habove hn

/-- What is known of a number on a walk: it stands at a place and outside of enumerations.  A
list that is walked through is no enumeration either. -/
structure Outside (run : Run) (n : Nat) (place : Place) : Prop extends Located run n place where
  free : ¬run.Encloses false n
  list : place.spread = .elements → ¬run.Encloses true n

/-- The schemas that the rules are applied to. -/
def IsOuterSchema (run : Run) (n : Nat) : Prop := IsSchema run n ∧ ¬run.Encloses false n

theorem Update.mono {P Q : Run → Nat → Prop} (hmono : ∀ run n, P run n → Q run n)
    (h : Update P run after) :
    Update Q run after := by
  cases h with
  | patch hpatch => exact .patch hpatch
  | rewritten hn hscalar hrewrites => exact .rewritten (hmono _ _ hn) hscalar hrewrites

theorem Update.isSchema (h : Update IsOuterSchema run after) : Update IsSchema run after :=
  h.mono fun _ _ hn => hn.1

theorem Updates.isSchema (h : Updates IsOuterSchema run after) : Updates IsSchema run after := by
  induction h with
  | refl => exact .refl
  | tail _ hlast ih => exact ih.tail hlast.isSchema

theorem Update.outside (h : Update IsOuterSchema run after) (hn : Outside run n place) :
    Outside after n place :=
  ⟨h.isSchema.located hn.toLocated, fun hafter => hn.free (h.encloses hn.sound hn.number hafter),
    fun hspread hafter => hn.list hspread (h.encloses hn.sound hn.number hafter)⟩

/-- The walk comes to schemas outside of enumerations only. -/
theorem guides_outside : Guides (Update IsOuterSchema) RiskyStep.reshapeSchema Outside where
  keep hupdate h := hupdate.outside h
  element := by
    intro run n place tag items item m h hspread hnode hitem hm
    obtain ⟨hholds, hn⟩ := Run.node?_holds hnode
    obtain ⟨i, hi⟩ := List.mem_iff_getElem?.1 hitem
    refine ⟨h.element hnode hitem hm, fun hencloses => ?_, nofun⟩
    rcases h.sound.encloses_child hholds hn hi hm hencloses with hfree | ⟨-, hlist⟩ | ⟨hwhole, -⟩
    · exact h.free hfree
    · exact h.list hspread hlist
    · cases hwhole
  entry := by
    intro run n place tag fields key value m h hspread hnode hentry hm
    obtain ⟨hholds, hn⟩ := Run.node?_holds hnode
    obtain ⟨i, hi⟩ := List.mem_iff_getElem?.1 (List.mem_map_of_mem (f := (·.2)) hentry)
    refine ⟨h.entry hspread hnode hentry hm, fun hencloses => ?_, nofun⟩
    rcases h.sound.encloses_child hholds hn hi hm hencloses with hfree | ⟨hlist, -⟩ | ⟨hwhole, -⟩
    · exact h.free hfree
    · cases hlist
    · cases hwhole
  slot := by
    intro run n place tag fields slot value m h hspread hnode hslot hget hm
    obtain ⟨hholds, hn⟩ := Run.node?_holds hnode
    obtain ⟨i, key, hi, hkey⟩ := Entries.exists_index hget
    have hchild : (Tree.map tag fields).children[i]? = some value := by
      rw [children_map, Entries.values, List.getElem?_map, hi, Option.map_some]
    have hfree : ∀ whole, ¬run.Encloses whole m := by
      intro whole hencloses
      rcases h.sound.encloses_child hholds hn hchild hm hencloses with
        hfree | ⟨hlist, -⟩ | ⟨-, _, _, entry, heq, hentry, henum⟩
      · exact h.free hfree
      · cases hlist
      · cases heq
        obtain rfl := Option.some.inj (hi.symm.trans hentry)
        exact Role.slot_key_ne_enum _ hslot (Entries.text_key_eq_iff.1 (hkey.symm.trans henum))
    exact ⟨h.slot hspread hnode hslot hget hm, hfree false, fun _ => hfree true⟩
  visit h hspread hrole name location :=
    RiskyStep.reshapeSchema_leads
      (fun _ _ _ hupdate hn => ⟨hupdate.isSchema.located hn.1,
        fun hafter => hn.2 (hupdate.encloses hn.1.sound hn.1.number hafter)⟩)
      h.sound ⟨h.isSchema hspread hrole, h.free⟩ name location

/-- The document is no part of an enumeration. -/
theorem outside_root (hsound : run.Sound) (htag : run.document.tag = some n) :
    Outside run n (.one .document) := by
  refine ⟨located_root hsound htag, fun hencloses => ?_, nofun⟩
  obtain ⟨tag, fields, hholds, entry, hentry, -, hpasses⟩ := hencloses
  have hheld : run.Holds entry.2 := hholds.below
    (mem_subtrees_of_child (List.mem_map_of_mem (f := (·.2)) hentry) (self_mem_subtrees entry.2))
  obtain ⟨inner, items, heq, ⟨hwhole, -⟩ | ⟨item, hitem, v, hv, hvn⟩⟩ := Node.inList_pos hpasses
  · cases hwhole
  · have hin : item ∈ entry.2.children := heq ▸ hitem
    rcases exists_parent hv with rfl | ⟨above, habove, hchild⟩
    · exact hsound.tag_ne_of_child hheld hin (hvn.trans htag.symm)
    · exact hsound.tag_ne_of_child (hheld.below (mem_subtrees_of_child hin habove)) hchild
        (hvn.trans htag.symm)

end Walk

end ProtoShape
