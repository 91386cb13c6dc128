import ProtoShape.Proofs.Reshape.Presence
import ProtoShape.Proofs.Reshape.Steps

/-!
# Giving a schema the key of a map

`giveKey` is a sequence of patches, whatever it comes to on the way
(`giveKeyWithin_leads`).  Where it has the schema wrapped, it has changed nothing, and
the schema is a mapping.

A union is read once, and its members are patched one after the other.  What is known
of the union later is that it still has the members that it had: patches only add
(`grown_of_patches`).
-/

namespace ProtoShape

open Rules Relation

/-! ## References -/

theorem mem_children_of_step {t u : Node} {token : String} (h : t.step token = .ok u) :
    u ∈ t.children := by
  cases t with
  | scalar tag s => simp [Tree.step] at h
  | list tag items =>
      simp only [Tree.step] at h
      split at h
      · rename_i item hitem
        obtain rfl : item = u := by simpa using h
        obtain ⟨index, -, hindex⟩ := Option.bind_eq_some_iff.1 hitem
        unfold itemAt? at hindex
        split at hindex
        · exact List.mem_of_getElem? hindex
        · split at hindex
          · exact List.mem_of_getElem? hindex
          · cases hindex
      · cases h
  | map tag fields =>
      simp only [Tree.step] at h
      split at h
      · rename_i value hvalue
        obtain rfl : value = u := by simpa using h
        obtain ⟨key, -, hmem⟩ := Entries.mem_of_get? hvalue
        exact List.mem_map.2 ⟨(key, value), hmem, rfl⟩
      · cases h

theorem mem_subtrees_of_steps {t u : Node} {tokens : List String}
    (h : tokens.foldlM Tree.step t = .ok u) :
    u ∈ t.subtrees := by
  induction tokens generalizing t with
  | nil =>
      obtain rfl : t = u := by simpa [pure, Except.pure] using h
      exact Tree.self_mem_subtrees t
  | cons token rest ih =>
      rw [List.foldlM_cons] at h
      cases hstep : t.step token with
      | error reason =>
          rw [hstep] at h
          cases h
      | ok below =>
          rw [hstep] at h
          exact Tree.mem_subtrees_of_child (mem_children_of_step hstep) (ih h)

theorem exists_tokens_of_resolve {document u : Node} {ref : String}
    (h : document.resolve ref = .ok u) :
    ∃ tokens, Pointer.tokens? ref = some tokens ∧ tokens.foldlM Tree.step document = .ok u := by
  unfold Tree.resolve at h
  split at h
  · cases h
  · rename_i tokens htokens
    split at h
    · rename_i found hfold
      cases h
      exact ⟨tokens, htokens, hfold⟩
    · cases h

/-- A reference leads to a node of the document. -/
theorem mem_subtrees_of_resolve {document u : Node} {ref : String}
    (h : document.resolve ref = .ok u) :
    u ∈ document.subtrees := by
  obtain ⟨tokens, -, hfold⟩ := exists_tokens_of_resolve h
  exact mem_subtrees_of_steps hfold

/-- Following references leads to a node of the document, or stays where it is. -/
theorem followReferences_mem {document node target : Node} {fuel : Nat} {seen : List Tag}
    (h : followReferences document fuel seen node = .ok target) :
    target = node ∨ target ∈ document.subtrees := by
  induction fuel generalizing seen node with
  | zero =>
      unfold followReferences at h
      split at h
      · cases h
        exact Or.inl rfl
      · split at h <;> cases h
  | succ fuel ih =>
      unfold followReferences at h
      split at h
      · cases h
        exact Or.inl rfl
      · split at h
        · cases h
        · simp only at h
          split at h
          · cases h
          · rename_i below hbelow
            rcases ih h with rfl | hmem
            · exact Or.inr (mem_subtrees_of_resolve hbelow)
            · exact Or.inr hmem

/-! ## How a schema takes the key -/

theorem unionCarrier?_eq_some {fields : Fields Tag} {carrier : Carrier}
    (h : unionCarrier? fields = some carrier) :
    ∃ (key : String) (list : Nat) (members : List Node), key ∈ ["oneOf", "anyOf"] ∧
      fields.get? key = some (.list (some list) members) ∧ carrier = .members key list members := by
  obtain ⟨key, hkey, hfound⟩ := List.exists_of_findSome?_eq_some h
  split at hfound
  · rename_i list members hget
    cases hfound
    exact ⟨key, list, members, hkey, hget, rfl⟩
  · cases hfound

/-- What a carrier says of the fields that it is read off. -/
def Carrier.OfFields (fields : Fields Tag) : Carrier → Prop
  | .parts list => ∃ items, fields.get? "allOf" = some (.list (some list) items)
  | .properties map present => fields.get? "properties" = some (.map (some map) present)
  | .members key list items =>
      key ∈ ["oneOf", "anyOf"] ∧ fields.get? key = some (.list (some list) items)
  | _ => True

theorem Carrier.of_ofFields (options : Options) (fields : Fields Tag) :
    (Carrier.of options fields).OfFields fields := by
  unfold Carrier.of
  split
  · rename_i list items hget
    exact ⟨items, hget⟩
  · split
    · rename_i map present hget
      exact hget
    · split
      · rename_i carrier hcarrier
        obtain ⟨key, list, members, hkey, hget, rfl⟩ := unionCarrier?_eq_some hcarrier
        exact ⟨hkey, hget⟩
      · split <;> trivial

/-- What leads to a schema that has to be wrapped is a reference, or has no properties. -/
theorem isBare_of_follow {run : Run} (hsound : run.Sound) {node : Node} {target : Nat}
    {fields : Fields Tag} {fuel : Nat} {seen : List Tag} {options : Options} {key : String}
    (hnode : run.Holds node)
    (hfollow : followReferences run.document fuel seen node = .ok (.map (some target) fields))
    (hcarrier : Carrier.of options fields = .wrapped key) : IsBare node := by
  cases href : node.ref? with
  | some ref =>
      cases node with
      | map tag given => exact ⟨tag, given, rfl, Or.inl (Option.isSome_iff_exists.2 ⟨ref, href⟩)⟩
      | _ => cases href
  | none =>
      unfold followReferences at hfollow
      rw [href] at hfollow
      cases hfollow
      refine ⟨some target, fields, rfl, Or.inr ?_⟩
      cases hproperties : Fields.map? fields "properties" with
      | none => rfl
      | some present =>
          obtain ⟨value, hget, hvalue⟩ := Option.bind_eq_some_iff.1 hproperties
          cases value with
          | map tag inner =>
              obtain ⟨n, -, htag⟩ :=
                hsound.exists_tag (hnode.below (Tree.mem_subtrees_of_get? hget))
              cases htag
              unfold Carrier.of at hcarrier
              split at hcarrier
              · cases hcarrier
              · rw [hget] at hcarrier
                cases hcarrier
          | _ => cases hvalue

namespace Step

/-- The result of giving the key to a schema: where the schema has to be wrapped, nothing
has changed. -/
def Wraps (run : Run) (n : Nat) (wrapped : Option String) (after : Run) : Prop :=
  wrapped.isSome = true → after = run ∧ ∃ item, run.node? n = some item ∧ IsBare item

theorem wraps_none (run after : Run) (n : Nat) : Wraps run n none after := fun h => nomatch h

/-! ### Single changes -/

section Changes

variable {run : Run} {Q : Unit → Run → Prop}

theorem report_leads (diagnostic : Diagnostic) :
    Leads Patch (report diagnostic) run fun _ _ => True :=
  leads_modify (.noted _ run.carriers fun _ => id) trivial

theorem markCarrier_leads (n : Nat) :
    Leads Patch (markCarrier n) run fun _ after =>
      after = { run with carriers := run.carriers.insert (.tag (some n)) } :=
  leads_modify (.noted run.diagnostics _ fun _ hin => by simp [hin]) rfl

theorem modifyFields_leads {n : Nat} {f : Fields Tag → Fields Tag}
    (h : ∀ fields, run.Holds (.map (some n) fields) →
      Addition (.map (some n) fields) (.map (some n) (f fields)))
    (hsection : run.IsSection n) (hQ : Q () (run.modifyNode n (onFields f))) :
    Leads Patch (modifyFields n f) run Q := by
  refine leads_modify (.added (fun _ _ => rfl) (fun u hu htag => ?_) (Or.inr hsection)) hQ
  cases u with
  | map tag fields =>
      obtain rfl : tag = some n := htag
      exact h fields hu
  | _ => exact .same _

theorem modifyItems_leads {n : Nat} {f : List Node → List Node}
    (h : ∀ items, run.Holds (.list (some n) items) →
      Addition (.list (some n) items) (.list (some n) (f items))) (hcarries : run.Carries n) :
    Leads Patch (modifyItems n f) run fun _ _ => True := by
  refine leads_modify (.added (fun _ _ => rfl) (fun u hu htag => ?_) (Or.inl hcarries)) trivial
  cases u with
  | list tag items =>
      obtain rfl : tag = some n := htag
      exact h items hu
  | _ => exact .same _

end Changes

theorem giveKeyProperty_leads {run : Run} {tag : Tag} {fields present : Fields Tag} {map : Nat}
    {location : Location} (hholds : run.Holds (.map tag fields))
    (hget : fields.get? "properties" = some (.map (some map) present))
    (hmarked : run.carriers.contains (.tag tag) = true) :
    Leads Patch (giveKeyProperty map present location) run fun _ _ => True := by
  unfold giveKeyProperty
  refine leads_get ?_
  simp only
  split
  · exact report_leads _
  · rename_i habsent
    exact leads_modify
      (.keyed hholds hget (by simpa [Entries.contains] using habsent) hmarked) trivial

/-- What a member of a union is known to be later on: the node that was read is a mapping if
it has to be wrapped, and a mapping is one still. -/
theorem mapping_of_patches {run between : Run} {list index : Nat}
    {members : List Node} {member : Node}
    (hsound : run.Sound) (hlist : run.Holds (.list (some list) members))
    (hindex : members[index]? = some member) (hbetween : ReflTransGen Patch run between) {m : Nat}
    (htag : member.tag = some m) {node : Node} (hnode : between.node? m = some node)
    (hbare : IsBare node)
    {items : List Node} (hitems : between.Holds (.list (some list) items)) {item : Node}
    (hitem : items[index]? = some item) : item.fields?.isSome = true := by
  have hmember : run.Holds member := hlist.below
    (Tree.mem_subtrees_of_child (List.mem_of_getElem? hindex) (Tree.self_mem_subtrees member))
  obtain ⟨number, hnumber, heq⟩ := hsound.exists_tag hmember
  obtain rfl : number = m := Option.some.inj (heq.symm.trans htag)
  obtain ⟨v, hv, hvtag, hgrown⟩ := grown_of_patches hbetween hsound hnumber
    (Run.node?_holds hnode).1 (Run.node?_holds hnode).2
  obtain rfl := hsound.unique hmember hv htag hvtag
  obtain ⟨tag, fields, rfl, -⟩ := hbare
  obtain ⟨tag', before, rfl, -⟩ := hgrown.fields tag fields rfl
  obtain ⟨count, hcount, hlisttag⟩ := hsound.exists_tag hlist
  cases hlisttag
  obtain ⟨old, hold, holdtag, hgrown'⟩ := grown_of_patches hbetween hsound hcount hitems rfl
  obtain rfl := hsound.unique hlist hold rfl holdtag
  exact hgrown'.child index _ item hindex hitem rfl

/-- A union passes the key on to one of its members.  The list as it stands is the one
that was read with patches, so a lone member is the one that was read. -/
theorem giveKeyMember_leads {run between : Run} {list index : Nat} {members : List Node}
    {member : Node} {give : Nat → Location → Step (Option String)} (location : Location)
    (hgive : ∀ n location {run : Run}, run.Sound → Leads Patch (give n location) run (Wraps run n))
    (hsound : run.Sound) (hlist : run.Holds (.list (some list) members))
    (hcarries : run.Carries list)
    (hindex : members[index]? = some member) (hbetween : ReflTransGen Patch run between)
    (hlone : members.length ≤ 1 → between = run) :
    Leads Patch (match member.tag with
      | none => pure PUnit.unit
      | some m => do
          match ← give m location with
          | some key => wrapItem list index key
          | none => pure PUnit.unit) between fun _ _ => True := by
  have hsound' := sound_of_patches hbetween hsound
  cases htag : member.tag with
  | none => exact leads_pure trivial
  | some m =>
      refine leads_bind (hgive m location hsound') fun wrapped after hafter hwraps => ?_
      cases wrapped with
      | none => exact leads_pure trivial
      | some key =>
          obtain ⟨rfl, node, hnode, hbare⟩ := hwraps rfl
          refine modifyItems_leads (fun items hitems => .wrapped index key (fun item hitem => ?_)
            fun item hitem => ?_) (carries_of_patches hbetween hsound hcarries)
          · exact mapping_of_patches hsound hlist hindex hbetween htag hnode hbare hitems hitem
          subst hitem
          obtain ⟨number, hnumber, heq⟩ := hsound.exists_tag hlist
          cases heq
          obtain ⟨v, hv, hvtag, hgrown⟩ := grown_of_patches hbetween hsound hnumber hitems rfl
          cases hsound.unique hlist hv rfl hvtag
          obtain rfl := hlone hgrown.children
          cases hsound.unique hlist hitems rfl rfl
          obtain rfl : member = item := by simpa using List.mem_of_getElem? hindex
          have hmember := hlist.below (Tree.mem_subtrees_of_child
            (List.mem_singleton_self member) (Tree.self_mem_subtrees member))
          obtain rfl :=
            hsound.unique (Run.node?_holds hnode).1 hmember (Run.node?_holds hnode).2 htag
          exact hbare

/-- A union that has been remembered carries the list of its members. -/
theorem carries_members {run : Run} {target list : Nat} {fields : Fields Tag} {key : String}
    {members : List Node} (hholds : run.Holds (.map (some target) fields))
    (hkey : key ∈ ["oneOf", "anyOf"]) (hget : fields.get? key = some (.list (some list) members)) :
    Run.Carries { run with carriers := run.carriers.insert (.tag (some target)) } list := by
  have hother : ∀ key ∈ ["oneOf", "anyOf"], key ≠ "enum" := by decide
  exact ⟨some target, fields, key, _, hholds, hget, rfl, hother key hkey, by simp⟩

/-- Giving the key of a map to a schema is a sequence of patches. -/
theorem giveKeyWithin_leads (fuel n : Nat) (location : Location) {run : Run} (hsound : run.Sound) :
    Leads Patch (giveKeyWithin fuel n location) run (Wraps run n) := by
  induction fuel generalizing n location run with
  | zero => exact leads_pure (wraps_none _ _ _)
  | succ fuel ih =>
      unfold giveKeyWithin
      refine leads_get ?_
      cases hnode : run.node? n with
      | none => exact leads_pure (wraps_none _ _ _)
      | some node =>
          simp only
          split
          · exact leads_bind (report_leads _) fun _ _ _ _ => leads_pure (wraps_none _ _ _)
          · rename_i target fields hfollow
            have hholds : run.Holds (.map (some target) fields) := by
              rcases followReferences_mem hfollow with heq | hmem
              · exact heq ▸ (Run.node?_holds hnode).1
              · exact Or.inl hmem
            have hmarked : ReflTransGen Patch run
                { run with carriers := run.carriers.insert (.tag (some target)) } :=
              .single (.noted run.diagnostics _ fun _ hin => by simp [hin])
            split
            · exact leads_pure (wraps_none _ _ _)
            · have hof := Carrier.of_ofFields run.options fields
              cases hcarrier : Carrier.of run.options fields with
              | parts list =>
                  rw [hcarrier] at hof
                  obtain ⟨items, hget⟩ := hof
                  refine leads_bind (markCarrier_leads target) ?_
                  rintro _ _ - rfl
                  exact leads_bind (Q := fun _ _ => True) (leads_modify
                    (.parted hholds hget (by simp)) trivial)
                    fun _ _ _ _ => leads_pure (wraps_none _ _ _)
              | properties map present =>
                  rw [hcarrier] at hof
                  refine leads_bind (markCarrier_leads target) ?_
                  rintro _ _ - rfl
                  exact leads_bind (giveKeyProperty_leads hholds hof (by simp)) fun _ _ _ _ =>
                    leads_pure (wraps_none _ _ _)
              | members key list members =>
                  rw [hcarrier] at hof
                  refine leads_bind (markCarrier_leads target) ?_
                  rintro _ _ - rfl
                  refine leads_bind (Q := fun _ _ => True) ?_ fun _ _ _ _ =>
                    leads_pure (wraps_none _ _ _)
                  have hlist : run.Holds (.list (some list) members) :=
                    hholds.imp (Tree.mem_subtrees_trans (Tree.mem_subtrees_of_get? hof.2))
                      (Tree.mem_subtrees_trans (Tree.mem_subtrees_of_get? hof.2))
                  have hsound' := sound_of_patches hmarked hsound
                  have hcarries := carries_members hholds hof.1 hof.2
                  match members, hlist with
                  | [], _ => exact leads_pure trivial
                  | [member], hlist =>
                      exact leads_bind
                        (giveKeyMember_leads _ ih hsound' hlist hcarries rfl .refl fun _ => rfl)
                        fun _ _ _ _ => leads_pure trivial
                  | first :: second :: rest, hlist =>
                      refine leads_forM fun (member, index) hin between hbetween => ?_
                      refine giveKeyMember_leads _ ih hsound' hlist hcarries
                        (List.mem_zipIdx_iff_getElem?.1 hin) hbetween fun hlen => ?_
                      simp at hlen
              | wrapped key =>
                  exact leads_pure fun _ => ⟨rfl, node, hnode,
                    isBare_of_follow hsound (Run.node?_holds hnode).1 hfollow hcarrier⟩
              | none => exact leads_pure (wraps_none _ _ _)
          · exact leads_pure (wraps_none _ _ _)

theorem giveKey_leads (n : Nat) (location : Location) {run : Run} (hsound : run.Sound) :
    Leads Patch (giveKey n location) run (Wraps run n) :=
  leads_get (giveKeyWithin_leads _ n location hsound)

end Step

end ProtoShape
