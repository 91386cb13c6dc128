import ProtoShape.Proofs.Reshape.Effects
import ProtoShape.Proofs.Reshape.Maps
import ProtoShape.Proofs.Reshape.Seeing

/-!
# Where a number stands

The walk of the second phase goes by number while rules and patches change the document.
`StandsAt` says that wherever a walk over the document sees the node with a number, it
stands at a given place.  Every update keeps that (`Update.located`), and it goes on from a
node to its children, since a node has one parent.  So the rules are applied to schemas
only: `guides_located`.
-/

namespace ProtoShape

open Rules Tree

/-! ## Parents -/

namespace Run.Sound

variable {run : Run} (h : run.Sound)
include h

/-- No node stands both in the document and in the schema aside. -/
theorem disjoint {u v : Node} (hu : u ∈ run.document.subtrees) (hv : v ∈ run.aside.subtrees) :
    u.tag ≠ v.tag :=
  (List.nodup_append.1 h.nodup).2.2 _ (tag_mem_tags hu) _ (tag_mem_tags hv)

/-- The document is the child of no node. -/
theorem tag_ne_of_child {p c : Node} (hp : run.Holds p) (hc : c ∈ p.children) :
    c.tag ≠ run.document.tag := by
  intro htag
  rcases hp with hin | hin
  · exact Tree.tag_ne_of_child (List.nodup_append.1 h.nodup).1 hin hc htag
  · exact h.disjoint (self_mem_subtrees run.document)
      (mem_subtrees_trans (mem_subtrees_of_child hc (self_mem_subtrees c)) hin) htag.symm

/-- In a run, too, a node has one parent, and one position there. -/
theorem parent_unique {p q c d : Node} (hp : run.Holds p) (hq : run.Holds q) {i j : Nat}
    (hc : p.children[i]? = some c) (hd : q.children[j]? = some d) (htag : c.tag = d.tag) :
    p = q ∧ i = j := by
  obtain ⟨hdocument, haside, -⟩ := List.nodup_append.1 h.nodup
  have hbelow : ∀ {t p c : Node} {i : Nat}, p ∈ t.subtrees → p.children[i]? = some c →
      c ∈ t.subtrees :=
    fun hmem hchild => mem_subtrees_trans
      (mem_subtrees_of_child (List.mem_of_getElem? hchild) (self_mem_subtrees _)) hmem
  rcases hp with hp | hp
  · rcases hq with hq | hq
    · exact Tree.parent_unique hdocument hp hq hc hd htag
    · exact absurd htag (h.disjoint (hbelow hp hc) (hbelow hq hd))
  · rcases hq with hq | hq
    · exact absurd htag.symm (h.disjoint (hbelow hq hd) (hbelow hp hc))
    · exact Tree.parent_unique haside hp hq hc hd htag

/-- The value of a keyword stands under no other keyword and in no other mapping. -/
theorem keyword_unique {tag tag' : Tag} {fields fields' : Fields Tag} {key key' : String}
    {value value' : Node} (hp : run.Holds (.map tag fields)) (hq : run.Holds (.map tag' fields'))
    (hget : fields.get? key = some value) (hget' : fields'.get? key' = some value')
    (htag : value.tag = value'.tag) : Tree.map tag fields = .map tag' fields' ∧ key = key' := by
  obtain ⟨i, k, hi, hk⟩ := Entries.exists_index hget
  obtain ⟨j, k', hj, hk'⟩ := Entries.exists_index hget'
  have hchild : ∀ {tag : Tag} {fields : Fields Tag} {i : Nat} {entry : Scalar × Node},
      fields.toList[i]? = some entry → (Tree.map tag fields).children[i]? = some entry.2 := by
    intro tag fields i entry hentry
    rw [children_map, Entries.values, List.getElem?_map, hentry, Option.map_some]
  obtain ⟨heq, rfl⟩ := h.parent_unique hp hq (hchild hi) (hchild hj) htag
  refine ⟨heq, ?_⟩
  obtain ⟨-, rfl⟩ := Tree.map.inj heq
  obtain ⟨rfl, -⟩ := Prod.mk.inj (Option.some.inj (hi.symm.trans hj))
  exact Entries.text_key_eq_iff.1 (hk.symm.trans hk')

end Run.Sound

/-! ## Places of numbers -/

/-- A walk over the whole document, which passes nothing over. -/
abbrev Run.Sees (run : Run) (u : Node) (place : Place) : Prop :=
  Tree.Sees (Among fun _ => False) run.document (.one .document) u place

/-- Wherever a walk sees a number, it stands at the place. -/
def Run.StandsAt (run : Run) (n : Nat) (place : Place) : Prop :=
  ∀ u stop, run.Sees u stop → u.tag = some n → stop.Alike place

/-- What is known of a number on a walk. -/
structure Located (run : Run) (n : Nat) (place : Place) : Prop where
  sound : run.Sound
  number : n < run.next
  stands : run.StandsAt n place

theorem not_among (tag : Tag) : ¬Among (fun _ => False) tag := fun ⟨_, _, hfalse⟩ => hfalse

section

variable {run : Run} {n m : Nat} {place : Place} {tag : Tag}

/-- The last step of a walk to a child is from the parent. -/
theorem Located.child (h : Located run n place) {parent child : Node} {i : Nat}
    (hparent : run.node? n = some parent) (hchild : parent.children[i]? = some child)
    (hm : child.tag = some m) {place' : Place}
    (hstep : ∀ stop, stop.Alike place → ∀ between (c : Node), StepsTo parent stop c between →
      c.tag = some m → between.Alike place') : Located run m place' := by
  obtain ⟨hholds, htag⟩ := Run.node?_holds hparent
  have hbelow : run.Holds child := hholds.below
    (mem_subtrees_of_child (List.mem_of_getElem? hchild) (self_mem_subtrees child))
  obtain ⟨k, hk, hkm⟩ := h.sound.exists_tag hbelow
  obtain rfl : k = m := Option.some.inj (hkm.symm.trans hm)
  refine ⟨h.sound, hk, fun u stop hsees hu => ?_⟩
  cases hsees with
  | here _ =>
      exact absurd (hm.trans hu.symm) (h.sound.tag_ne_of_child hholds (List.mem_of_getElem? hchild))
  | @step p before _ _ hbefore hlast hskip =>
      obtain ⟨j, hj⟩ := List.mem_iff_getElem?.1 hlast.mem_children
      obtain ⟨rfl, -⟩ := h.sound.parent_unique (Or.inl hbefore.mem_subtrees) hholds hj hchild
        (hu.trans hm.symm)
      exact hstep before (h.stands p before hbefore htag) stop u hlast hu

theorem Located.element (h : Located run n place) {items : List Node}
    (hnode : run.node? n = some (.list tag items)) {item : Node} (hitem : item ∈ items)
    (hm : item.tag = some m) : Located run m (.one place.role) := by
  obtain ⟨i, hi⟩ := List.mem_iff_getElem?.1 hitem
  refine h.child hnode hi hm fun stop halike between c hstep _ => ?_
  cases hstep with
  | item => exact halike.one

theorem Located.entry (h : Located run n place) (hspread : place.spread = .entries)
    {fields : Fields Tag} (hnode : run.node? n = some (.map tag fields))
    {key : Scalar} {value : Node}
    (hentry : (key, value) ∈ fields.toList) (hm : value.tag = some m) :
    Located run m (.one place.role) := by
  obtain ⟨i, hi⟩ := List.mem_iff_getElem?.1 (List.mem_map_of_mem (f := (·.2)) hentry)
  refine h.child hnode hi hm fun stop halike between c hstep _ => ?_
  cases hstep with
  | entry => exact halike.one
  | slot hsingle =>
      have hsame := halike.1
      rw [hsingle, hspread] at hsame
      cases hsame

theorem Located.slot (h : Located run n place) (hspread : place.spread = .single)
    {fields : Fields Tag} (hnode : run.node? n = some (.map tag fields)) {slot : Slot}
    (hslot : slot ∈ place.role.slots) {value : Node} (hget : fields.get? slot.key = some value)
    (hm : value.tag = some m) : Located run m slot.place := by
  obtain ⟨i, k, hi, -⟩ := Entries.exists_index hget
  have hchild : (Tree.map tag fields).children[i]? = some value := by
    rw [children_map, Entries.values, List.getElem?_map, hi, Option.map_some]
  refine h.child hnode hchild hm fun stop halike between c hstep hc => ?_
  cases hstep with
  | entry hentries =>
      have hsame := halike.1
      rw [hentries, hspread] at hsame
      cases hsame
  | @slot _ _ _ other _ _ _ hother hvalue =>
      have hholds := (Run.node?_holds hnode).1
      obtain ⟨-, hkey⟩ := h.sound.keyword_unique hholds hholds hvalue hget (hc.trans hm.symm)
      rw [halike.slots] at hother
      obtain rfl : other = slot :=
        List.inj_on_of_nodup_map place.role.slots_nodup hother hslot hkey
      exact .refl _

theorem located_root (hsound : run.Sound) (htag : run.document.tag = some n) :
    Located run n (.one .document) := by
  obtain ⟨k, hk, hkn⟩ := hsound.exists_tag run.holds_document
  obtain rfl : k = n := Option.some.inj (hkn.symm.trans htag)
  refine ⟨hsound, hk, fun u stop hsees hu => ?_⟩
  cases hsees with
  | here _ => exact .refl _
  | step hbefore hlast _ =>
      exact absurd (hu.trans htag.symm)
        (hsound.tag_ne_of_child (Or.inl hbefore.mem_subtrees) hlast.mem_children)

/-- Wherever a walk sees a node, it sees it at a like place. -/
theorem located_of_sees (hsound : run.Sound) {u : Node} (hsees : run.Sees u place)
    (htag : u.tag = some n) :
    Located run n place := by
  induction hsees generalizing n with
  | here _ => exact located_root hsound htag
  | @step parent place u place' hbefore hstep _ ih =>
      have hholds : run.Holds parent := Or.inl hbefore.mem_subtrees
      obtain ⟨m, -, hm⟩ := hsound.exists_tag hholds
      have hnode := hsound.node?_of_holds hholds hm
      have hparent := ih hm
      cases hstep with
      | item _ hitem => exact hparent.element hnode hitem htag
      | entry hspread hentry => exact hparent.entry hspread hnode hentry htag
      | slot hspread _ hslot hget => exact hparent.slot hspread hnode hslot hget htag

end

/-! ## Updates keep the places -/

section Keep

variable {run after : Run} {n m : Nat} {place : Place}

/-- A change keeps a number where it stands if what is seen below the changed node was seen
there before, or is new. -/
theorem Located.modifyNode (h : Located run m place) {f : Node → Node} {new : Node → Prop}
    (hsound : (run.modifyNode n f).Sound)
    (hf : ∀ v, run.Holds v → v.tag = some n → (f v).tag = v.tag ∧ (f v).text? = v.text?)
    (htraced : ∀ v between, run.Sees v between → v.tag = some n → ∀ u place',
      Sees (Among fun _ => False) (f v) between u place' →
      (u = f v ∧ place' = between) ∨ Traced new (Among fun _ => False) v between u place') :
    Located (run.modifyNode n f) m place := by
  refine ⟨hsound, Nat.lt_of_lt_of_le h.number (Run.next_le_modifyNode n f), ?_⟩
  intro u' stop hsees hu'
  rcases h.sound.sees_modifyNode hf hsees with
    ⟨u, hu, hne, rfl⟩ | ⟨v, between, u, hv, htag, hu, k, hk, rfl⟩
  · rw [Node.modify_of_ne hne, tag_mapChildren] at hu'
    exact h.stands u stop hu hu'
  · have hum : u.tag = some m := by
      rcases Node.tag_number hu' with hold | ⟨-, hnew⟩
      · exact hold
      · have hlt := h.number
        omega
    rcases htraced v between hv htag u stop hu with
      ⟨rfl, rfl⟩ | ⟨old, before, hold, halike, hsame, -⟩ | ⟨hnone, -⟩
    · refine h.stands v stop hv ?_
      rw [← (hf v (Or.inl hv.mem_subtrees) htag).1, hum]
    · exact halike.trans (h.stands old before (hv.trans hold) (hsame.symm.trans hum))
    · rw [hum] at hnone
      cases hnone

theorem Located.congr (h : Located run m place) (hdocument : after.document = run.document)
    (haside : after.aside = run.aside) (hnext : after.next = run.next) : Located after m place := by
  refine ⟨h.sound.congr hdocument haside hnext, hnext ▸ h.number, ?_⟩
  intro u stop hsees
  unfold Run.Sees at hsees
  rw [hdocument] at hsees
  exact h.stands u stop hsees

theorem Addition.tag_text {u v : Node} (h : Addition u v) : v.tag = u.tag ∧ v.text? = u.text? :=
  ⟨h.moves.tag, text?_congr h.after.scalar⟩

theorem Rewrite.tag_text {u v : Node} (h : Rewrite u v) : v.tag = u.tag ∧ v.text? = u.text? := by
  refine ⟨?_, text?_congr h.after.scalar⟩
  cases h <;> rfl

theorem tag_text_onFields (f : Fields Tag → Fields Tag) (v : Node) :
    (onFields f v).tag = v.tag ∧ (onFields f v).text? = v.text? := by
  cases v <;> exact ⟨rfl, rfl⟩

theorem Patch.located (h : Patch run after) (hm : Located run m place) : Located after m place := by
  have hsound := h.sound hm.sound
  cases h with
  | noted => exact hm.congr rfl rfl rfl
  | @added n f _ hadds =>
      exact @Located.modifyNode run n m place hm f
        (IsTidy ⟨fun _ _ _ => False, fun _ => False⟩) hsound
        (fun v hv htag => (hadds v hv htag).tag_text)
        fun v between hv htag u place' => (hadds v (Or.inl hv.mem_subtrees) htag).traced
  | @keyed _ map _ _ howner hget habsent =>
      refine @Located.modifyNode run map m place hm _
        (IsTidy ⟨fun _ _ _ => False, fun _ => False⟩) hsound
        (fun v hv _ => tag_text_onFields _ v) fun v between hv htag u place' hsees => ?_
      cases hm.sound.unique (Or.inl hv.mem_subtrees)
        (howner.below (mem_subtrees_of_get? hget)) htag rfl
      exact traced_keyed habsent hsees
  | @parted _ list _ _ _ _ =>
      refine @Located.modifyNode run list m place hm _
        (IsTidy ⟨fun _ _ _ => False, fun _ => False⟩) hsound
        (fun v hv _ => by cases v <;> exact ⟨rfl, rfl⟩) fun v between hv htag u place' hsees => ?_
      cases v with
      | list tag items => exact traced_part hsees
      | _ => exact Or.inr (traced_self hsees)
  | @generated schemas entries name target source ref keySchema hschemas habsent =>
      refine @Located.congr (run.modifyNode schemas _) _ m place ?_ rfl rfl rfl
      refine @Located.modifyNode run schemas m place hm _ (fun _ => True) (hsound.congr rfl rfl rfl)
        (fun v hv _ => tag_text_onFields _ v) fun v between hv htag u place' hsees => ?_
      cases hm.sound.unique (Or.inl hv.mem_subtrees)
        (run.holds_document.below (mem_subtrees_of_under? hschemas)) htag rfl
      exact traced_insert habsent rfl
        (fun x hx => ⟨tag_of_new (fun m => uses_keyValueComponent _ _ _ _) hx, trivial⟩)
        hsees

/-- The schemas of the document by number. -/
def IsSchema (run : Run) (n : Nat) : Prop := Located run n (.one (.schema .schema))

theorem Update.located (h : Update IsSchema run after) (hm : Located run m place) :
    Located after m place := by
  have hsound := h.sound hm.sound
  cases h with
  | patch hpatch => exact hpatch.located hm
  | rewritten hn _ hrewrites =>
      refine @Located.modifyNode run _ m place hm _ (fun _ => True) hsound
        (fun v hv htag => (hrewrites v hv htag).tag_text) fun v between hv htag u place' => ?_
      exact (hrewrites v (Or.inl hv.mem_subtrees) htag).traced (hn.stands v between hv htag)
        (fun x _ => not_among x.tag) ⟨fun _ _ => trivial, fun _ _ _ => trivial⟩
          fun _ _ _ _ => trivial

end Keep

theorem Located.isSchema {run : Run} {n : Nat} {place : Place} (h : Located run n place)
    (hspread : place.spread = .single) {hook : Hook} (hrole : place.role = .schema hook) :
    IsSchema run n :=
  ⟨h.sound, h.number, fun u stop hsees hu =>
    (h.stands u stop hsees hu).trans (.of_schema hspread hrole _)⟩

/-- The walk comes to schemas only where it applies the rules. -/
theorem guides_located : Guides (Update IsSchema) RiskyStep.reshapeSchema Located where
  keep hupdate h := hupdate.located h
  element h _ hnode hitem hm := h.element hnode hitem hm
  entry h hspread hnode hentry hm := h.entry hspread hnode hentry hm
  slot h hspread hnode hslot hget hm := h.slot hspread hnode hslot hget hm
  visit h hspread hrole _ _ :=
    RiskyStep.reshapeSchema_leads (fun _ _ _ hupdate hn => hupdate.located hn) h.sound
      (h.isSchema hspread hrole) _ _

end ProtoShape
