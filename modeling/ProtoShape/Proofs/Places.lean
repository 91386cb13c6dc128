import Mathlib.Data.List.Induction
import ProtoShape.Proofs.Paths
import ProtoShape.Proofs.Visits

/-!
# What stands at which place

`Sees` is `Reaches` without the names and locations, and it does not go into nodes with a
tag to be passed over.  It serves to follow one node through changes of the document,
since where a walk comes to depends on little: on the place that it starts from up to
`Alike`, and on no tags.

In a tree with distinct tags, a node has one parent (`parent_unique`).
-/

namespace ProtoShape

/-- Places that a walk goes on from in the same way. -/
def Place.Alike (p q : Place) : Prop :=
  p.spread = q.spread ∧
    (p.role = q.role ∨ ∃ hook hook', p.role = .schema hook ∧ q.role = .schema hook')

namespace Place.Alike

variable {p q r : Place}

theorem refl (p : Place) : Alike p p := ⟨rfl, Or.inl rfl⟩

theorem symm (h : Alike p q) : Alike q p := by
  obtain ⟨hspread, hrole | ⟨hook, hook', hp, hq⟩⟩ := h
  · exact ⟨hspread.symm, Or.inl hrole.symm⟩
  · exact ⟨hspread.symm, Or.inr ⟨hook', hook, hq, hp⟩⟩

theorem trans (h : Alike p q) (h' : Alike q r) : Alike p r := by
  obtain ⟨hspread, hrole⟩ := h
  obtain ⟨hspread', hrole'⟩ := h'
  refine ⟨hspread.trans hspread', ?_⟩
  rcases hrole with heq | ⟨hook, hook', hp, hq⟩
  · rw [heq]
    exact hrole'
  · rcases hrole' with heq' | ⟨_, hook'', _, hr⟩
    · exact Or.inr ⟨hook, hook', hp, heq' ▸ hq⟩
    · exact Or.inr ⟨hook, hook'', hp, hr⟩

theorem slots (h : Alike p q) : p.role.slots = q.role.slots := by
  rcases h.2 with heq | ⟨hook, hook', hp, hq⟩
  · rw [heq]
  · rw [hp, hq]
    rfl

theorem admits {τ : Type} (h : Alike p q) (fields : Fields τ) :
    p.role.admits fields = q.role.admits fields := by
  rcases h.2 with heq | ⟨hook, hook', hp, hq⟩
  · rw [heq]
  · rw [hp, hq]
    rfl

theorem one (h : Alike p q) : Alike (.one p.role) (.one q.role) := ⟨rfl, h.2⟩

/-- A place for a schema. -/
theorem exists_hook {hook : Hook} (h : Alike p (.one (.schema hook))) :
    p.spread = .single ∧ ∃ hook', p.role = .schema hook' := by
  obtain ⟨hspread, heq | ⟨hook', -, hp, -⟩⟩ := h
  · exact ⟨hspread, hook, heq⟩
  · exact ⟨hspread, hook', hp⟩

theorem of_schema {hook : Hook} (hspread : p.spread = .single) (hrole : p.role = .schema hook)
    (hook' : Hook) : Alike p (.one (.schema hook')) :=
  ⟨hspread, Or.inr ⟨hook, hook', hrole, rfl⟩⟩

end Place.Alike

namespace Tree

variable {τ : Type}

/-- One step of a walk to a child. -/
inductive StepsTo : Tree τ → Place → Tree τ → Place → Prop where
  | item {tag items place item} : place.spread = .elements → item ∈ items →
      StepsTo (list tag items) place item (.one place.role)
  | entry {tag fields place key value} : place.spread = .entries → (key, value) ∈ fields.toList →
      StepsTo (map tag fields) place value (.one place.role)
  | slot {tag fields place slot value} : place.spread = .single →
      place.role.admits fields = true → slot ∈ place.role.slots →
      fields.get? slot.key = some value → StepsTo (map tag fields) place value slot.place

/-- A walk comes to a node at a place, past no tag that is to be passed over. -/
inductive Sees (skip : τ → Prop) (start : Tree τ) (place₀ : Place) : Tree τ → Place → Prop where
  | here : ¬skip start.tag → Sees skip start place₀ start place₀
  | step {t place u place'} : Sees skip start place₀ t place → StepsTo t place u place' →
      ¬skip u.tag → Sees skip start place₀ u place'

section Sees

variable {skip : τ → Prop} {s t u : Tree τ} {place place' place'' : Place}

theorem StepsTo.mem_children (h : StepsTo t place u place') : u ∈ t.children := by
  cases h with
  | item _ hitem => exact hitem
  | entry _ hentry => exact List.mem_map_of_mem hentry
  | slot _ _ _ hget =>
      obtain ⟨key, -, hmem⟩ := Entries.mem_of_get? hget
      exact List.mem_map.2 ⟨(key, u), hmem, rfl⟩

/-- From alike places a step is to the same child at alike places. -/
theorem StepsTo.alike (h : StepsTo t place u place') {other : Place} (halike : place.Alike other) :
    ∃ stop, StepsTo t other u stop ∧ place'.Alike stop := by
  cases h with
  | item hspread hitem => exact ⟨_, .item (halike.1 ▸ hspread) hitem, halike.one⟩
  | entry hspread hentry => exact ⟨_, .entry (halike.1 ▸ hspread) hentry, halike.one⟩
  | slot hspread hadmits hslot hget =>
      refine ⟨_, .slot (halike.1 ▸ hspread) ?_ ?_ hget, .refl _⟩
      · rw [← halike.admits, hadmits]
      · rw [← halike.slots]
        exact hslot

theorem Sees.not_skip (h : Sees skip s place t place') : ¬skip t.tag := by
  cases h <;> assumption

theorem Sees.not_skip_start (h : Sees skip s place t place') : ¬skip s.tag := by
  induction h with
  | here hskip => exact hskip
  | step _ _ _ ih => exact ih

theorem Sees.trans (h : Sees skip s place t place') (h' : Sees skip t place' u place'') :
    Sees skip s place u place'' := by
  induction h' with
  | here _ => exact h
  | step _ hstep hskip ih => exact ih.step hstep hskip

theorem Sees.of_step (hskip : ¬skip s.tag) (hstep : StepsTo s place t place')
    (h : Sees skip t place' u place'') : Sees skip s place u place'' :=
  Sees.trans (.step (.here hskip) hstep h.not_skip_start) h

theorem Sees.mem_subtrees (h : Sees skip s place t place') : t ∈ s.subtrees := by
  induction h with
  | here _ => exact self_mem_subtrees s
  | step _ hstep _ ih =>
      exact mem_subtrees_trans (mem_subtrees_of_child hstep.mem_children (self_mem_subtrees _)) ih

/-- Where less is passed over, no less is seen. -/
theorem Sees.mono {fewer : τ → Prop} (h : Sees skip s place t place')
    (hfewer : ∀ tag, fewer tag → skip tag) : Sees fewer s place t place' := by
  induction h with
  | here hskip => exact .here (mt (hfewer _) hskip)
  | step _ hstep hskip ih => exact ih.step hstep (mt (hfewer _) hskip)

/-- Below a schema there are schemas only. -/
theorem Sees.schema_role (h : Sees skip s place t place') {hook : Hook}
    (hrole : place.role = .schema hook) :
    ∃ hook', place'.role = .schema hook' := by
  induction h with
  | here _ => exact ⟨hook, hrole⟩
  | step _ hstep _ ih =>
      obtain ⟨hook', hbetween⟩ := ih
      cases hstep with
      | item => exact ⟨hook', hbetween⟩
      | entry => exact ⟨hook', hbetween⟩
      | slot _ _ hslot _ =>
          have hplain : ∀ slot ∈ (Role.schema .schema).slots, ∃ hook, slot.place.role =
              .schema hook := by
            intro slot hin
            have hall : (Role.schema .schema).slots.all
                (fun slot => slot.place.role == .schema .schema || slot.place.role ==
                  .schema .property) := by
              decide
            have hrole := List.all_eq_true.1 hall slot hin
            simp only [Bool.or_eq_true, beq_iff_eq] at hrole
            exact hrole.elim (fun heq => ⟨_, heq⟩) fun heq => ⟨_, heq⟩
          rw [hbetween] at hslot
          exact hplain _ hslot

/-- From alike places a walk comes to the same nodes at alike places. -/
theorem Sees.alike (h : Sees skip s place t place') {other : Place} (halike : place.Alike other) :
    ∃ stop, Sees skip s other t stop ∧ place'.Alike stop := by
  induction h with
  | here hskip => exact ⟨other, .here hskip, halike⟩
  | step _ hstep hskip ih =>
      obtain ⟨between, hsees, hbetween⟩ := ih
      obtain ⟨stop, hnext, hstop⟩ := hstep.alike hbetween
      exact ⟨stop, hsees.step hnext hskip, hstop⟩

/-- A walk ends where it starts, or its first step is to a child. -/
theorem Sees.cases_head (h : Sees skip s place t place') :
    (t = s ∧ place' = place) ∨
      ∃ child between, StepsTo s place child between ∧ Sees skip child between t place' := by
  induction h with
  | here _ => exact Or.inl ⟨rfl, rfl⟩
  | step _ hstep hskip ih =>
      rcases ih with ⟨rfl, rfl⟩ | ⟨child, between, hfirst, hrest⟩
      · exact Or.inr ⟨_, _, hstep, .here hskip⟩
      · exact Or.inr ⟨child, between, hfirst, hrest.step hstep hskip⟩

/-- A walk that comes to a node sees it, or goes into a node that is to be passed over. -/
theorem Reaches.sees {site site' : Site} (h : Reaches s place site t place' site')
    (skip : τ → Prop) :
    Sees skip s place t place' ∨ ∃ e stop siteOf, skip e.tag ∧ Reaches s place site e stop siteOf ∧
      Reaches e stop siteOf t place' site' := by
  have hnext : ∀ {u v : Tree τ} {p q : Place} {b : Site}, Reaches s place site v q b →
      StepsTo u p v q → Sees skip s place u p →
      Sees skip s place v q ∨ ∃ e stop siteOf, skip e.tag ∧ Reaches s place site e stop siteOf ∧
        Reaches e stop siteOf v q b := by
    intro u v p q b hreach hstep hsees
    by_cases hskip : skip v.tag
    · exact Or.inr ⟨v, q, b, hskip, hreach, .here⟩
    · exact Or.inl (hsees.step hstep hskip)
  induction h with
  | here =>
      by_cases hskip : skip s.tag
      · exact Or.inr ⟨s, place, site, hskip, .here, .here⟩
      · exact Or.inl (.here hskip)
  | item hreach hspread hitem ih =>
      rcases ih with hsees | ⟨e, stop, siteOf, hskip, hto, hfrom⟩
      · exact hnext (hreach.item hspread hitem) (.item hspread (List.mem_of_getElem? hitem)) hsees
      · exact Or.inr ⟨e, stop, siteOf, hskip, hto, hfrom.item hspread hitem⟩
  | entry hreach hspread hentry ih =>
      rcases ih with hsees | ⟨e, stop, siteOf, hskip, hto, hfrom⟩
      · exact hnext (hreach.entry hspread hentry) (.entry hspread hentry) hsees
      · exact Or.inr ⟨e, stop, siteOf, hskip, hto, hfrom.entry hspread hentry⟩
  | slot hreach hspread hadmits hslot hget ih =>
      rcases ih with hsees | ⟨e, stop, siteOf, hskip, hto, hfrom⟩
      · exact hnext (hreach.slot hspread hadmits hslot hget)
          (.slot hspread hadmits hslot hget) hsees
      · exact Or.inr ⟨e, stop, siteOf, hskip, hto, hfrom.slot hspread hadmits hslot hget⟩

end Sees

/-! ## Parents -/

/-- In a tree with distinct tags, a node has one parent, and one position there. -/
theorem parent_unique {t p q c d : Tree τ} (h : t.tags.Nodup) (hp : p ∈ t.subtrees)
    (hq : q ∈ t.subtrees) {i j : Nat} (hc : p.children[i]? = some c) (hd : q.children[j]? = some d)
    (htag : c.tag = d.tag) : p = q ∧ i = j := by
  obtain ⟨path, hpath⟩ := exists_path hp
  obtain ⟨other, hother⟩ := exists_path hq
  have hstep : ∀ {u v : Tree τ} {k : Nat} {way : List Nat}, t.at? way = some u →
      u.children[k]? = some v → t.at? (way ++ [k]) = some v := by
    intro u v k way hway hchild
    rw [at?_append, hway, Option.bind_some, at?_cons, hchild]
    rfl
  have heq := path_unique h (hstep hpath hc) (hstep hother hd) htag
  obtain ⟨rfl, hlast⟩ := List.append_inj' heq rfl
  obtain rfl : p = q := Option.some.inj (hpath.symm.trans hother)
  exact ⟨rfl, by simpa using hlast⟩

/-- In a tree with distinct tags, no node is a child of another one and the root. -/
theorem tag_ne_of_child {t p c : Tree τ} (h : t.tags.Nodup) (hp : p ∈ t.subtrees)
    (hc : c ∈ p.children) : c.tag ≠ t.tag := by
  intro htag
  obtain ⟨path, hpath⟩ := exists_path hp
  obtain ⟨i, hi⟩ := List.mem_iff_getElem?.1 hc
  have hat : t.at? (path ++ [i]) = some c := by
    rw [at?_append, hpath, Option.bind_some, at?_cons, hi]
    rfl
  have heq := path_unique h hat (at?_nil t) htag
  simp at heq

/-! ## Locations -/

section Locations

variable {t e u : Tree τ} {place stop : Place} {site siteOf : Site}

theorem location_below (site : Site) (role : Role) (fields : Fields τ) (key : String) :
    ((site.inside role fields).below key).location.keys = site.location.keys ++ [key] := by
  cases role <;> rfl

/-- A walk comes to a node through mappings where keys lead to it, and its location ends in
these keys. -/
theorem Reaches.keys_of_under? (hdistinct : t.tags.Nodup) (h : Reaches t place site e stop siteOf)
    {keys : List String} (hu : t.under? keys = some u) (htag : e.tag = u.tag) :
    siteOf.location.keys = site.location.keys ++ keys := by
  induction keys using List.reverseRecOn generalizing e stop siteOf u with
  | nil =>
      obtain rfl : t = u := Option.some.inj hu
      have hroot : ∀ {p c : Tree τ}, p ∈ t.subtrees → c ∈ p.children → c.tag = t.tag → False :=
        fun hp hc heq => tag_ne_of_child hdistinct hp hc heq
      cases h with
      | here => exact (List.append_nil _).symm
      | item hreach _ hitem =>
          exact (hroot hreach.mem_subtrees (List.mem_of_getElem? hitem) htag).elim
      | entry hreach _ hentry =>
          exact (hroot hreach.mem_subtrees (List.mem_map_of_mem hentry) htag).elim
      | slot hreach hspread hadmits hslot hget =>
          exact (hroot hreach.mem_subtrees
            (StepsTo.slot hspread hadmits hslot hget).mem_children htag).elim
  | append_singleton keys key ih =>
      obtain ⟨v, hv, hkey⟩ := under?_concat.1 hu
      cases v with
      | map tag fields =>
          have hget : fields.get? key = some u := by simpa [under?_map_cons] using hkey
          obtain ⟨i, k, hi, hk⟩ := Entries.exists_index hget
          obtain rfl := Scalar.key_eq_text_iff.1 hk
          have hmem := mem_subtrees_of_under? hv
          have hchild : ∀ {tag : τ} {fields : Fields τ} {i : Nat} {entry : Scalar × Tree τ},
              fields.toList[i]? = some entry →
              (Tree.map tag fields).children[i]? = some entry.2 := by
            intro tag fields i entry hentry
            rw [children_map, Entries.values, List.getElem?_map, hentry, Option.map_some]
          cases h with
          | here =>
              exact absurd htag.symm
                (tag_ne_of_child hdistinct hmem (List.mem_of_getElem? (hchild hi)))
          | item hreach _ hitem =>
              obtain ⟨heq, -⟩ :=
                parent_unique hdistinct hreach.mem_subtrees hmem hitem (hchild hi) htag
              cases heq
          | @entry _ _ _ _ k' _ hreach _ hentry =>
              obtain ⟨j, hj⟩ := List.mem_iff_getElem?.1 hentry
              obtain ⟨heq, rfl⟩ :=
                parent_unique hdistinct hreach.mem_subtrees hmem (hchild hj) (hchild hi) htag
              cases heq
              have hsame : k' = .text key := congrArg Prod.fst (Option.some.inj (hj.symm.trans hi))
              have hkeys := ih hreach hv rfl
              rw [hsame]
              change _ ++ [key] = _
              rw [hkeys, List.append_assoc]
          | @slot _ _ _ _ slot _ hreach _ _ _ hget' =>
              obtain ⟨j, k', hj, hk'⟩ := Entries.exists_index hget'
              obtain ⟨heq, rfl⟩ :=
                parent_unique hdistinct hreach.mem_subtrees hmem (hchild hj) (hchild hi) htag
              cases heq
              have hsame : k' = .text key := congrArg Prod.fst (Option.some.inj (hj.symm.trans hi))
              rw [hsame, Entries.text_key_eq_iff] at hk'
              have hkeys := ih hreach hv rfl
              rw [location_below, hkeys, hk', List.append_assoc]
      | _ => cases hkey

/-- Locations only get longer on the way. -/
theorem Reaches.location_prefix (h : Reaches t place site e stop siteOf) :
    site.location.keys <+: siteOf.location.keys := by
  induction h with
  | here => exact List.prefix_rfl
  | item _ _ _ ih => exact ih.trans (List.prefix_append _ _)
  | entry _ _ _ ih => exact ih.trans (List.prefix_append _ _)
  | slot _ _ _ _ _ ih =>
      rw [location_below]
      exact ih.trans (List.prefix_append _ _)

/-- A walk comes to what it sees. -/
theorem Sees.reaches {skip : τ → Prop} (h : Sees skip t place u stop) (site : Site) :
    ∃ siteOf, Reaches t place site u stop siteOf := by
  induction h with
  | here _ => exact ⟨site, .here⟩
  | step _ hstep _ ih =>
      obtain ⟨between, hreach⟩ := ih
      cases hstep with
      | item hspread hitem =>
          obtain ⟨i, hi⟩ := List.mem_iff_getElem?.1 hitem
          exact ⟨_, hreach.item hspread hi⟩
      | entry hspread hentry => exact ⟨_, hreach.entry hspread hentry⟩
      | slot hspread hadmits hslot hget => exact ⟨_, hreach.slot hspread hadmits hslot hget⟩

end Locations

end Tree

end ProtoShape
