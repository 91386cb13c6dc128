import ProtoShape.Proofs.Reshape.Enclosing
import ProtoShape.Proofs.Reshape.TidyRuns

/-!
# Enumerations that no patch has reached

Where a schema has an `enum` after the second phase, it is a list that a schema had as its `enum`
before (`Update.enumerates`).  The list is the same unless a patch has reached one of its
values: a patch changes what belongs to a schema, and the schema has been remembered then
(`Update.intact_or_patched`).  `Updates.intact_or_patched` says so of the whole phase.
-/

namespace ProtoShape

open Rules Tree

variable {permits : Permit} {before run after : Run} {n : Nat} {items : List Node}

/-! ## Lists that were there before -/

/-- A schema that a walk shows has the list with a number as its `enum`. -/
def Run.Enumerates (run : Run) (n : Nat) : Prop :=
  ∃ tag fields place items,
    Tree.Sees (Among run.KeyProperty) run.document (.one .document) (.map tag fields) place ∧
    place.Alike (.one (.schema .schema)) ∧ Fields.isReference fields = false ∧
    fields.get? "enum" = some (.list (some n) items)

/-- In a tidy run the enumerations are what they are. -/
theorem Run.Tidy.renew (h : run.Tidy permits) :
    run.Tidy { permits with enum := run.Enumerates } := by
  refine ⟨h.sound, h.components, fun u place hu hplace fields hfields href key value hget => ?_⟩
  have htidy := h.tidy u place hu hplace fields hfields href key value hget
  refine ⟨htidy.noConst, htidy.lone, htidy.empty, fun hkey tag items heq => ?_, htidy.notOpen,
    htidy.notNull, htidy.distinct⟩
  subst hkey heq
  cases u with
  | map owner inner =>
      cases hfields
      have hheld : run.Holds (.map owner fields) := Or.inl hu.mem_subtrees
      obtain ⟨n, -, hn⟩ := h.sound.exists_tag (hheld.below (mem_subtrees_of_get? hget))
      obtain rfl : tag = some n := hn
      exact ⟨n, rfl, owner, fields, place, items, hu, hplace, href, hget⟩
  | _ => cases hfields

/-- No update makes a list an enumeration. -/
theorem Update.enumerates (hupdate : Update IsSchema run after) (h : run.Tidy permits)
    (hn : after.Enumerates n) : run.Enumerates n := by
  obtain ⟨tag, fields, place, items, hsees, hplace, href, hget⟩ := hn
  obtain ⟨m, heq, hm⟩ :=
    ((hupdate.tidy h.renew).tidy _ place hsees hplace fields rfl href "enum" _ hget).listed
    rfl _ items rfl
  obtain rfl := Option.some.inj heq
  exact hm

/-- The schema that has the list. -/
theorem Run.Enumerates.exists_owner (h : run.Enumerates n) (hsound : run.Sound) :
    ∃ owner fields items m, run.Holds (.map owner fields) ∧ owner = some m ∧ IsSchema run m ∧
      fields.get? "enum" = some (.list (some n) items) := by
  obtain ⟨owner, fields, place, items, hsees, hplace, -, hget⟩ := h
  have hheld : run.Holds (.map owner fields) := Or.inl hsees.mem_subtrees
  obtain ⟨m, -, hm⟩ := hsound.exists_tag hheld
  obtain ⟨hspread, hook, hrole⟩ := hplace.exists_hook
  have hlocated := located_of_sees hsound (hsees.mono fun tag => not_among tag |>.elim) hm
  exact ⟨owner, fields, items, m, hheld, hm, hlocated.isSchema hspread hrole, hget⟩

/-! ## Lists that are the same -/

/-- A list with the number of another list. -/
structure Displaces (old new : Node) : Prop where
  tag : new.tag = old.tag
  list : new.items?.isSome = true
  other : new ≠ old

theorem seeks_displaces {list : Node} (hn : list.tag = some n) (hgaps : Node.gaps list.tags = 0) :
    Seeks n (Displaces list) where
  list _ hnew := hnew.list
  uses value hnew := Node.uses_pos (self_mem_subtrees value) (hnew.tag.trans hn)
  number := by
    intro value next hm hnew
    have hold : value.tag = some n := by
      rcases Node.tag_number (hnew.tag.trans hn) with hold | ⟨-, hfresh⟩
      · exact hold
      · omega
    refine ⟨hold.trans hn.symm, (Node.plainer_number False value next).list hnew.list,
      fun heq => hnew.other ?_⟩
    rw [heq, Node.number_eq_self hgaps]

/-- Where the number of a list stands under `enum`, there is still that list. -/
def Run.Intact (run : Run) (list : Node) : Prop := ¬run.HasEnum (Displaces list)

/-- One of the values, or a schema in it, has been remembered as having the key of a map. -/
def Run.Patched (run : Run) (values : List Node) : Prop :=
  ∃ value ∈ values, ∃ u ∈ value.subtrees, run.carriers.contains (.tag u.tag) = true

theorem Run.Intact.eq (h : run.Intact (.list (some n) items)) {owner : Tag} {fields : Fields Tag}
    {values : List Node} (howner : run.Holds (.map owner fields))
    (hget : fields.get? "enum" = some (.list (some n) values)) : values = items := by
  by_contra hne
  obtain ⟨key, hkey, hentry⟩ := Entries.mem_of_get? hget
  exact h ⟨owner, fields, howner, _, hentry, hkey, rfl, rfl, fun heq => hne (Tree.list.inj heq).2⟩

/-- A change that leaves a list as it is leaves it in its place. -/
theorem Run.Intact.modifyNode {m : Nat} {f : Node → Node} (h : run.Intact (.list (some n) items))
    (hsound : run.Sound) (hlist : run.Holds (.list (some n) items))
    (hspare : ∀ v, run.Holds v → v.tag = some m → Spare v (f v))
    (hsame : Node.modify m f (.list (some n) items) = .list (some n) items) :
    (run.modifyNode m f).Intact (.list (some n) items) := by
  intro hafter
  have hgaps : Node.gaps (Tree.list (some n) items).tags = 0 :=
    hlist.elim (Node.gaps_of_mem hsound.document) (Node.gaps_of_mem hsound.aside)
  obtain ⟨k, hk, hkn⟩ := hsound.exists_tag hlist
  obtain rfl : n = k := Option.some.inj hkn
  refine h (hafter.of_modifyNode (seeks_displaces rfl hgaps) hk hspare fun value hvalue hnew => ?_)
  have htag := hnew.tag
  rw [Node.tag_modify fun hn => (hspare value hvalue hn).tag] at htag
  obtain rfl := hsound.unique hvalue hlist htag rfl
  exact absurd hsame hnew.other

theorem Update.carriers {P : Run → Nat → Prop} (h : Update P run after) (identity : Identity)
    (hin : run.carriers.contains identity = true) : after.carriers.contains identity = true := by
  cases h with
  | patch hpatch => exact hpatch.carriers identity hin
  | rewritten => exact hin

section Enumeration

variable {m : Nat} {owner : Tag} {fields : Fields Tag} (howner : run.Holds (.map owner fields))
  (hget : fields.get? "enum" = some (.list (some n) items))
include howner hget

/-- What stands in an enumeration and belongs to a schema that has been remembered belongs to one of
the values. -/
theorem Run.Carries.patched (h : run.Carries m) (hsound : run.Sound) {u : Node}
    (hu : u ∈ (Tree.list (some n) items).subtrees) (hm : u.tag = some m) : run.Patched items := by
  obtain ⟨schema, inner, key, value, hschema, hvalue, hvm, hkey, hin⟩ := h
  have hlist := howner.below (@mem_subtrees_of_get? _ owner _ _ _ hget)
  have heq := hsound.unique (hlist.below hu) (hschema.below (mem_subtrees_of_get? hvalue)) hm hvm
  subst heq
  rcases exists_parent hu with rfl | ⟨parent, hparent, hchild⟩
  · -- The list itself stands under one keyword only.
    obtain ⟨-, rfl⟩ := hsound.keyword_unique howner hschema hget hvalue rfl
    exact absurd rfl hkey
  · obtain ⟨i, hi⟩ := List.mem_iff_getElem?.1 hchild
    obtain ⟨j, k, hj, -⟩ := Entries.exists_index hvalue
    have hat : (Tree.map schema inner).children[j]? = some u := by
      rw [children_map, Entries.values, List.getElem?_map, hj, Option.map_some]
    obtain ⟨rfl, -⟩ := hsound.parent_unique (hlist.below hparent) hschema hi hat rfl
    rw [subtrees_eq] at hparent
    rcases List.mem_cons.1 hparent with hself | hbelow
    · cases hself
    · obtain ⟨item, hitem, hinside⟩ := List.mem_flatMap.1 hbelow
      exact ⟨item, hitem, _, hinside, hin⟩

/-- What stands in an enumeration, apart from the list itself, is enclosed. -/
theorem encloses_of_mem {u : Node} (hu : u ∈ (Tree.list (some n) items).subtrees)
    (hm : u.tag = some m) (hne : u ≠ .list (some n) items) : run.Encloses false m := by
  obtain ⟨key, hkey, hentry⟩ := Entries.mem_of_get? hget
  rw [subtrees_eq] at hu
  rcases List.mem_cons.1 hu with hself | hbelow
  · exact absurd hself hne
  · obtain ⟨item, hitem, hinside⟩ := List.mem_flatMap.1 hbelow
    exact ⟨owner, fields, howner, _, hentry, hkey, Node.inList_pos_of_item hitem hinside hm⟩

end Enumeration

/-- An update leaves an enumeration as it is, or a patch has been made to one of its values. -/
theorem Update.intact_or_patched (h : Update IsOuterSchema run after) (hsound : run.Sound)
    (hn : run.Enumerates n) (hlist : run.Holds (.list (some n) items))
    (hintact : run.Intact (.list (some n) items)) :
    after.Intact (.list (some n) items) ∨ after.Patched items := by
  rcases h.cases_change hsound with hsame | ⟨m, f, hchanges⟩
  · refine Or.inl fun ⟨tag, fields, hholds, hentry⟩ => ?_
    exact hintact ⟨tag, fields, hsame _ hholds, hentry⟩
  obtain ⟨owner, fields, values, o, howner, ho, hschema, hget⟩ := hn.exists_owner hsound
  obtain rfl := hintact.eq howner hget
  -- Either the changed node is left as it is in the list, or it belongs to one of the values.
  have hcases : run.Patched values ∨
      Node.modify m f (.list (some n) values) = .list (some n) values := by
    by_cases hzero : Node.uses m (.list (some n) values) = 0
    · exact Or.inr (Node.modify_of_uses_eq_zero hzero)
    obtain ⟨u, hu, hm⟩ := List.mem_map.1 (List.count_pos_iff.1 (Nat.pos_of_ne_zero hzero))
    rcases hchanges.owner with hcarries | ⟨keys, hkeys, v, hv, hvm⟩ | ⟨⟨-, hfree⟩, hkeep⟩
    · exact Or.inl (hcarries.patched howner hget hsound hu hm)
    · -- No section stands in a schema.
      have hnone := hschema.uses_section (hsound.node?_of_holds howner ho) hkeys hv hvm
      have hle := @Node.uses_le_of_mem m _ _ (@mem_subtrees_of_get? _ owner _ _ _ hget)
      omega
    · by_cases hself : u = .list (some n) values
      · subst hself
        rw [Node.modify_self hm, hkeep _ hlist hm rfl]
        exact Or.inr rfl
      · exact absurd (encloses_of_mem howner hget hu hm hself) hfree
  rcases hcases with ⟨value, hvalue, u, hu, hin⟩ | hsame
  · exact Or.inr ⟨value, hvalue, u, hu, h.carriers _ hin⟩
  · refine Or.inl fun ⟨tag, inner, hholds, hentry⟩ => ?_
    exact hintact.modifyNode hsound hlist hchanges.spare hsame
      ⟨tag, inner, hchanges.holds _ hholds, hentry⟩

/-- After updates, an enumeration is one from before, which is the same unless a patch has
been made to one of its values. -/
theorem Updates.intact_or_patched (h : Updates IsOuterSchema before run)
    (htidy : before.Tidy permits)
    (hn : run.Enumerates n) : before.Enumerates n ∧ ∀ items, before.Holds (.list (some n) items) →
      run.Intact (.list (some n) items) ∨ run.Patched items := by
  induction h with
  | refl =>
      refine ⟨hn, fun items hlist => Or.inl ?_⟩
      rintro ⟨tag, fields, hholds, entry, hentry, -, hnew⟩
      have hheld : before.Holds entry.2 := hholds.below (mem_subtrees_of_child
        (List.mem_map_of_mem (f := (·.2)) hentry) (self_mem_subtrees entry.2))
      exact hnew.other (htidy.sound.unique hheld hlist hnew.tag rfl)
  | @tail between last hfirst hlast ih =>
      have hbetween := Updates.tidy (Updates.isSchema hfirst) htidy
      have henum := hlast.isSchema.enumerates hbetween hn
      obtain ⟨hbefore, hall⟩ := ih henum
      refine ⟨hbefore, fun items hlist => ?_⟩
      rcases hall items hlist with hintact | ⟨value, hvalue, u, hu, hin⟩
      · obtain ⟨owner, fields, values, o, howner, -, -, hget⟩ := henum.exists_owner hbetween.sound
        obtain rfl := hintact.eq howner hget
        have hheld : between.Holds (.list (some n) values) :=
          howner.below (mem_subtrees_of_get? hget)
        exact hlast.intact_or_patched hbetween.sound henum hheld hintact
      · exact Or.inr ⟨value, hvalue, u, hu, hlast.carriers _ hin⟩

end ProtoShape
