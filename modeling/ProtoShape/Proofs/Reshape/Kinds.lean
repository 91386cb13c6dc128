import ProtoShape.Proofs.Reshape.Standing
import ProtoShape.Rules.SingleMap

/-!
# What every update keeps of a node

An update leaves scalars, lists and mappings what they are, and it leaves titles alone
(`SameKind`).  So no rule ever comes to apply to a schema that is settled
(`Rewrite.settled_eq`): a patch may only give it more entries, and these are untitled
mappings (`IsSettled.insert`).
-/

namespace ProtoShape

open Rules Tree

/-! ## Kinds -/

/-- The title of a mapping, if it is a text. -/
def titleOf? (t : Node) : Option String := t.fields?.bind (Fields.text? · "title")

/-- A node after a change that leaves its kind and its title as they were. -/
structure SameKind (old new : Node) : Prop where
  scalar : new.scalar? = old.scalar?
  list : new.items?.isSome = old.items?.isSome
  title : titleOf? new = titleOf? old

theorem SameKind.refl (t : Node) : SameKind t t := ⟨rfl, rfl, rfl⟩

theorem SameKind.trans {t u v : Node} (h : SameKind t u) (h' : SameKind u v) : SameKind t v :=
  ⟨h'.scalar.trans h.scalar, h'.list.trans h.list, h'.title.trans h.title⟩

theorem sameKind_of_erase {t u : Node} (h : t.erase = u.erase) : SameKind t u := by
  have hscalar := congrArg Tree.scalar? h
  have hlist := congrArg (fun v : Value => v.items?.isSome) h
  have htitle := congrArg (fun v : Value => v.fields?.bind (Fields.text? · "title")) h
  simp only [Tree.erase, Tree.scalar?_mapTags, Tree.items?_mapTags, Option.isSome_map,
    Tree.fields?_mapTags, Option.bind_map, Function.comp_def, Fields.text?_mapTags]
    at hscalar hlist htitle
  exact ⟨hscalar.symm, hlist.symm, htitle.symm⟩

theorem sameKind_number (t : Node) (next : Nat) : SameKind t (Node.number t next).1 :=
  sameKind_of_erase (Node.number_numbers t next).erase.symm

theorem sameKind_mapChildren {g : Node → Node} {t : Node}
    (h : ∀ child ∈ t.children, (g child).scalar? = child.scalar?) :
    SameKind t (t.mapChildren g) := by
  cases t with
  | map tag fields => exact ⟨rfl, rfl, fieldsText?_mapValues h "title"⟩
  | _ => exact ⟨rfl, rfl, rfl⟩

section Modify

variable {n next : Nat} {f : Node → Node} {t : Node}

/-- Where the replaced node keeps its kind, so does every node. -/
theorem scalar?_modify (h : ∀ u ∈ t.subtrees, u.tag = some n → SameKind u (f u)) :
    (Node.modify n (Node.numberedFrom next f) t).scalar? = t.scalar? := by
  by_cases htag : t.tag = some n
  · rw [Node.modify_self htag]
    exact (sameKind_number (f t) next).scalar.trans (h t (self_mem_subtrees t) htag).scalar
  · rw [Node.modify_of_ne htag]
    cases t <;> rfl

theorem sameKind_modify (h : ∀ u ∈ t.subtrees, u.tag = some n → SameKind u (f u)) :
    SameKind t (Node.modify n (Node.numberedFrom next f) t) := by
  by_cases htag : t.tag = some n
  · rw [Node.modify_self htag]
    exact (h t (self_mem_subtrees t) htag).trans (sameKind_number (f t) next)
  · rw [Node.modify_of_ne htag]
    exact sameKind_mapChildren fun child hchild => scalar?_modify fun u hu =>
      h u (mem_subtrees_of_child hchild hu)

end Modify

/-! ## Settled schemas -/

/-- No rule of the second phase applies to a schema. -/
structure IsSettled (fields : Fields Tag) : Prop where
  inline : Fields.isReference fields = false
  union : Fields.items? fields "oneOf" = none
  minimum : holdsOne fields "minProperties" = false
  untitled : ∀ additional, fields.get? "additionalProperties" = some additional →
    titleOf? additional = none

theorem Rewrite.settled_eq {tag : Tag} {fields : Fields Tag} {v : Node}
    (h : Rewrite (.map tag fields) v) (hsettled : IsSettled fields) : v = .map tag fields := by
  have hnotOne : ¬IsMapOfOne fields := by
    rintro ⟨hsingle, -⟩
    simp only [isSingleMap, Bool.and_eq_true] at hsingle
    rw [hsettled.minimum] at hsingle
    exact Bool.false_ne_true hsingle.1.2
  cases h with
  | same => rfl
  | titled hmoves =>
      obtain ⟨hget, -, htitle, -, -, -⟩ := hmoves
      have hnone := hsettled.untitled _ hget
      unfold titleOf? at hnone
      rw [Tree.fields?, Option.bind_some, htitle] at hnone
      cases hnone
  | merged hmerges =>
      obtain ⟨hget, -, -, -⟩ := hmerges
      have hnone := hsettled.union
      unfold Fields.items? at hnone
      rw [hget] at hnone
      cases hnone
  | inlined key hone => exact absurd hone hnotOne
  | referred ref hone => exact absurd hone hnotOne

/-- A schema stays settled where its values keep their kinds. -/
theorem IsSettled.of_sameKind {fields fields' : Fields Tag} (h : IsSettled fields)
    (hsame : ∀ key : String, ∃ g, fields'.get? key = (fields.get? key).map g ∧
      ∀ value, fields.get? key = some value → SameKind value (g value)) : IsSettled fields' := by
  -- A value after the change is the image of the value before.
  have hvalue : ∀ {key : String} {value' : Node}, fields'.get? key = some value' →
      ∃ value, fields.get? key = some value ∧ SameKind value value' := by
    intro key value' hget'
    obtain ⟨g, hget, hkind⟩ := hsame key
    rw [hget'] at hget
    obtain ⟨value, hvalue, rfl⟩ := Option.map_eq_some_iff.1 hget.symm
    exact ⟨value, hvalue, hkind value hvalue⟩
  refine ⟨?_, ?_, ?_, ?_⟩
  · have hinline := h.inline
    unfold Fields.isReference Fields.ref? Fields.text? at hinline ⊢
    cases hget' : fields'.get? "$ref" with
    | none => rfl
    | some value' =>
        obtain ⟨value, hget, hkind⟩ := hvalue hget'
        rw [hget] at hinline
        rw [Option.bind_some, text?_congr hkind.scalar]
        exact hinline
  · have hunion := h.union
    unfold Fields.items? at hunion ⊢
    cases hget' : fields'.get? "oneOf" with
    | none => rfl
    | some value' =>
        obtain ⟨value, hget, hkind⟩ := hvalue hget'
        have hlist := hkind.list
        rw [hget, Option.bind_some] at hunion
        rw [hunion] at hlist
        simpa using hlist
  · have hminimum := h.minimum
    unfold holdsOne at hminimum ⊢
    cases hget' : fields'.get? "minProperties" with
    | none => rfl
    | some value' =>
        obtain ⟨value, hget, hkind⟩ := hvalue hget'
        have hscalar := hkind.scalar
        rw [hget] at hminimum
        cases value' with
        | scalar tag' s' =>
            cases value with
            | scalar tag s =>
                obtain rfl : s' = s := Option.some.inj hscalar
                exact hminimum
            | _ => cases hscalar
        | _ => rfl
  · intro additional' hget'
    obtain ⟨additional, hget, hkind⟩ := hvalue hget'
    exact hkind.title.trans (h.untitled additional hget)

/-- A schema stays settled with one more entry that is an untitled mapping. -/
theorem IsSettled.insert {fields : Fields Tag} (h : IsSettled fields) {key : String} {value : Node}
    (habsent : fields.get? key = none) (hmapping : value.fields?.isSome = true)
    (htitle : titleOf? value = none) : IsSettled (fields.insert key value) := by
  have hplain : value.text? = none ∧ value.items? = none := by
    cases value with
    | map tag inner => exact ⟨rfl, rfl⟩
    | _ => cases hmapping
  have hget : ∀ other : String, (fields.insert key value).get? other =
      if other = key then some value else fields.get? other := by
    intro other
    split
    · rename_i heq
      rw [heq, Entries.get?_insert_self]
    · rename_i hne
      rw [get?_insert_of_ne hne]
  refine ⟨(isReference_insert_absent habsent hplain.1).trans h.inline, ?_, ?_, fun additional => ?_⟩
  · unfold Fields.items?
    rw [hget]
    split
    · exact hplain.2
    · exact h.union
  · unfold holdsOne
    rw [hget]
    by_cases hkey : "minProperties" = key
    · rw [if_pos hkey]
      cases value with
      | map tag inner => rfl
      | _ => cases hmapping
    · rw [if_neg hkey]
      exact h.minimum
  · rw [hget]
    split
    · rintro heq
      cases heq
      exact htitle
    · exact h.untitled additional

/-! ## Changes -/

/-- What every update keeps of a node. -/
structure Keeps (old new : Node) : Prop where
  tag : new.tag = old.tag
  kind : SameKind old new
  settled : ∀ tag fields, old = .map tag fields → IsSettled fields →
    ∃ fields', new = .map tag fields' ∧ IsSettled fields' ∧
      ∀ (key : String) value, fields.get? key = some value → fields'.get? key = some value

theorem Keeps.refl (t : Node) : Keeps t t :=
  ⟨rfl, .refl t, fun _ fields heq h => ⟨fields, heq, h, fun _ _ => id⟩⟩

/-- A node that is no mapping is not settled. -/
theorem keeps_of_list {tag : Tag} (items items' : List Node) :
    Keeps (.list tag items) (.list tag items') :=
  ⟨rfl, ⟨rfl, rfl, rfl⟩, fun _ _ heq => nomatch heq⟩

theorem keeps_insert {tag : Tag} {fields : Fields Tag} {key : String} {value : Node}
    (habsent : fields.get? key = none) (hmapping : value.fields?.isSome = true)
    (htitle : titleOf? value = none) :
    Keeps (.map tag fields) (.map tag (fields.insert key value)) := by
  refine ⟨rfl, ⟨rfl, rfl, ?_⟩, fun tag' fields' heq h => ?_⟩
  · change Fields.text? (fields.insert key value) "title" = Fields.text? fields "title"
    unfold Fields.text?
    by_cases hkey : "title" = key
    · subst hkey
      rw [Entries.get?_insert_self, habsent]
      cases value with
      | map inner more => rfl
      | _ => cases hmapping
    · rw [get?_insert_of_ne hkey]
  · obtain ⟨rfl, rfl⟩ := Tree.map.inj heq
    refine ⟨_, rfl, h.insert habsent hmapping htitle, fun other old hold => ?_⟩
    have hne : other ≠ key := by
      rintro rfl
      rw [habsent] at hold
      cases hold
    rw [get?_insert_of_ne hne, hold]

theorem Addition.keeps {u v : Node} (h : Addition u v) : Keeps u v := by
  cases h with
  | same => exact .refl u
  | wrapped => exact keeps_of_list _ _
  | place _ habsent => exact keeps_insert habsent rfl rfl

theorem Rewrite.keeps {u v : Node} (h : Rewrite u v) : Keeps u v := by
  have hmap : ∀ {tag : Tag} {fields result : Fields Tag},
      Rewrite (.map tag fields) (.map tag result) →
      Keeps (.map tag fields) (.map tag result) := by
    intro tag fields result hrewrite
    refine ⟨rfl, ⟨rfl, rfl, ?_⟩, fun tag' fields' heq hsettled => ?_⟩
    · change Fields.text? result "title" = Fields.text? fields "title"
      unfold Fields.text?
      rw [hrewrite.get? (by decide)]
    · obtain ⟨rfl, rfl⟩ := Tree.map.inj heq
      exact ⟨_, hrewrite.settled_eq hsettled, hsettled, fun _ _ => id⟩
  cases h with
  | same => exact .refl u
  | titled hmoves => exact hmap (.titled hmoves)
  | merged hmerges => exact hmap (.merged hmerges)
  | inlined key hone hget href => exact hmap (.inlined key hone hget href)
  | referred ref hone => exact hmap (.referred ref hone)

/-- An update changes one node at most, and keeps what every update keeps of it.  If it is a
patch, it keeps the values of all keys, too. -/
theorem Update.cases_keeps {P : Run → Nat → Prop} {run after : Run} (h : Update P run after)
    (hsound : run.Sound) : after.document = run.document ∨
      ∃ n f, after.document = (run.modifyNode n f).document ∧
        (∀ u, run.Holds u → u.tag = some n → Keeps u (f u)) ∧
        (P run n ∨ ∀ u, run.Holds u → u.tag = some n →
          ∀ key value, u.under? [key] = some value → (f u).under? [key] = some value) := by
  cases h with
  | rewritten hn _ hrewrites =>
      exact Or.inr ⟨_, _, rfl, fun u hu htag => (hrewrites u hu htag).keeps, Or.inl hn⟩
  | patch hpatch =>
      cases hpatch with
      | noted => exact Or.inl rfl
      | added _ hadds =>
          exact Or.inr ⟨_, _, rfl, fun u hu htag => (hadds u hu htag).keeps,
            Or.inr fun u hu htag _ _ => (hadds u hu htag).under?⟩
      | @keyed owner map fields present howner hget habsent =>
          have hat : ∀ u, run.Holds u → u.tag = some map → u = .map (some map) present :=
            fun u hu htag => hsound.unique hu (howner.below (mem_subtrees_of_get? hget)) htag rfl
          refine Or.inr ⟨_, _, rfl, fun u hu htag => ?_,
            Or.inr fun u hu htag key value hvalue => ?_⟩
          · rw [hat u hu htag]
            exact keeps_insert habsent rfl rfl
          · rw [hat u hu htag] at hvalue ⊢
            exact under?_insert habsent hvalue
      | parted =>
          refine Or.inr ⟨_, _, rfl, fun u _ _ => ?_, Or.inr fun u _ _ key value hvalue => ?_⟩
          · cases u with
            | list tag items => exact keeps_of_list _ _
            | _ => exact .refl _
          · cases u with
            | map tag fields => exact hvalue
            | _ => cases hvalue
      | @generated schemas entries _ _ source ref keySchema hschemas habsent =>
          have hat : ∀ u, run.Holds u → u.tag = some schemas → u = .map (some schemas) entries :=
            fun u hu htag => hsound.unique hu
              (run.holds_document.below (mem_subtrees_of_under? hschemas)) htag rfl
          refine Or.inr ⟨_, _, rfl, fun u hu htag => ?_,
            Or.inr fun u hu htag key value hvalue => ?_⟩
          · rw [hat u hu htag]
            exact keeps_insert habsent rfl rfl
          · rw [hat u hu htag] at hvalue ⊢
            exact under?_insert habsent hvalue

/-- The image of a settled schema after a change is settled. -/
theorem IsSettled.modify {n next : Nat} {f : Node → Node} {tag : Tag} {fields : Fields Tag}
    (h : IsSettled fields)
    (hkeeps : ∀ u ∈ (Tree.map tag fields).subtrees, u.tag = some n → Keeps u (f u)) :
    ∃ tag' fields', Node.modify n (Node.numberedFrom next f) (.map tag fields) = .map tag' fields' ∧
      IsSettled fields' := by
  by_cases htag : (Tree.map tag fields).tag = some n
  · obtain ⟨result, hresult, hsettled, -⟩ :=
      (hkeeps _ (self_mem_subtrees _) htag).settled tag fields rfl h
    obtain ⟨tag', fields', heq, hfilled⟩ := Node.number_map tag result next
    have himage : Node.modify n (Node.numberedFrom next f) (.map tag fields) =
        .map tag' fields' := by
      rw [Node.modify_self htag, Node.numberedFrom, hresult, heq]
    refine ⟨tag', fields', himage, hsettled.of_sameKind fun key => ?_⟩
    obtain ⟨k, -, hget⟩ := hfilled.get? key
    exact ⟨_, hget, fun value _ => sameKind_number value k⟩
  · refine ⟨tag, _, Node.modify_of_ne htag, h.of_sameKind fun key =>
      ⟨_, Entries.get?_mapValues _ _ _, fun value hget => ?_⟩⟩
    exact sameKind_modify fun u hu hn =>
      (hkeeps u (mem_subtrees_trans hu (mem_subtrees_of_get? hget)) hn).kind

end ProtoShape
