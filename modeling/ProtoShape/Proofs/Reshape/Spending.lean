import ProtoShape.Proofs.Reshape.Budget
import ProtoShape.Proofs.Reshape.Fuel
import ProtoShape.Proofs.Reshape.Sections

/-!
# What it costs to keep the key of a map

To give a schema the key of a map costs a few nodes, except that a union passes the key on
to each of its members.  These are paid for in advance: a union that is passed the key is
remembered, and then its members are waiting for it no more.  So the members that are
waiting bound both what is added (`Spends`) and how deep the passing on goes
(`giveKeyWithin_suffices`).
-/

namespace ProtoShape

open Rules Node Relation

/-! ## Members that are waiting -/

/-- The members of the unions that have not been given the key of a map. -/
def Run.waiting (run : Run) : Nat := run.load (Charge.waiting run.carriers)

/-- The more carriers there are, the fewer members are waiting. -/
theorem toll_waiting_le {carriers more : IdentitySet}
    (h : ∀ tag, Charge.isMarked carriers tag = true → Charge.isMarked more tag = true) (u : Node) :
    toll (Charge.waiting more) u ≤ toll (Charge.waiting carriers) u := by
  cases u with
  | map tag fields =>
      refine List.sum_le_sum fun entry _ => ?_
      simp only [Charge.waiting]
      split
      · rename_i hcounts
        have hbefore : Charge.isMarked carriers tag = false := by
          cases hmarked : Charge.isMarked carriers tag with
          | false => rfl
          | true =>
              rw [h tag hmarked] at hcounts
              cases hcounts.2
        rw [if_pos ⟨hcounts.1, hbefore⟩]
      · exact Nat.zero_le _
  | _ => exact Nat.le_refl _

theorem isMarked_insert (carriers : IdentitySet) (identity : Identity) (tag : Tag)
    (h : Charge.isMarked carriers tag = true) :
    Charge.isMarked (carriers.insert identity) tag = true := by
  cases tag with
  | none => cases h
  | some n =>
      simp only [Charge.isMarked] at h ⊢
      rw [IdentitySet.contains_insert, h, Bool.true_or]

/-- Where one node costs less and the others no more, all of them together cost less. -/
theorem sum_add_le_sum_of_mem {α : Type} {l : List α} {f g : α → Nat} {a : α}
    {k : Nat} (hmem : a ∈ l)
    (hle : ∀ b ∈ l, f b ≤ g b) (hlt : f a + k ≤ g a) : (l.map f).sum + k ≤ (l.map g).sum := by
  obtain ⟨front, back, rfl⟩ := List.append_of_mem hmem
  have hfront : (front.map f).sum ≤ (front.map g).sum :=
    List.sum_le_sum fun b hb => hle b (by simp [hb])
  have hback : (back.map f).sum ≤ (back.map g).sum :=
    List.sum_le_sum fun b hb => hle b (by simp [hb])
  simp only [List.map_append, List.map_cons, List.sum_append, List.sum_cons]
  omega

theorem load_waiting_insert_le (carriers : IdentitySet) (identity : Identity) (t : Node) :
    Node.load (Charge.waiting (carriers.insert identity)) t ≤
      Node.load (Charge.waiting carriers) t :=
  List.sum_le_sum fun u _ => toll_waiting_le (isMarked_insert carriers identity) u

/-- Members are waiting at the start at least as much as later. -/
theorem Run.waiting_le (run : Run) : run.waiting ≤ run.load (.waiting ∅) := by
  have hnone : ∀ tag, Charge.isMarked ∅ tag = true → Charge.isMarked run.carriers tag = true := by
    intro tag h
    cases tag <;> cases h
  exact Nat.add_le_add (List.sum_le_sum fun u _ => toll_waiting_le hnone u)
    (List.sum_le_sum fun u _ => toll_waiting_le hnone u)

/-- A union that is remembered now gives its members up. -/
theorem load_waiting_insert_add_le {carriers : IdentitySet} {target : Nat} {fields : Fields Tag}
    {key : String} {value : Node} {t : Node} (hmem : Tree.map (some target) fields ∈ t.subtrees)
    (hfresh : carriers.contains (.tag (some target)) = false)
    (hkey : Key.text key ∈ unionKeys) (hget : fields.get? key = some value) :
    Node.load (Charge.waiting (carriers.insert (.tag (some target)))) t + unionLength value ≤
      Node.load (Charge.waiting carriers) t := by
  refine sum_add_le_sum_of_mem hmem (fun u _ => toll_waiting_le (isMarked_insert carriers _) u) ?_
  have hmarked : toll (Charge.waiting (carriers.insert (.tag (some target))))
      (.map (some target) fields) = 0 := by
    refine List.sum_eq_zero fun cost hcost => ?_
    obtain ⟨entry, -, rfl⟩ := List.mem_map.1 hcost
    simp [Charge.waiting, Charge.isMarked]
  have herase := Entries.tally_erase_add_le ((Charge.waiting carriers).entry (some target)) hget
  have hcost : (Charge.waiting carriers).entry (some target) (Scalar.text key).key value =
      unionLength value := by
    rw [Scalar.key_text]
    simp [Charge.waiting, Charge.isMarked, hkey, hfresh]
  rw [hmarked]
  change 0 + unionLength value ≤ fields.tally ((Charge.waiting carriers).entry (some target))
  omega

/-! ## Costs -/

/-- A change that does no harm and costs `k` and what has been paid for by members that were
waiting.  Each of them pays for five nodes. -/
structure Spends (k : Nat) (run after : Run) : Prop where
  workable : run.Workable → after.Workable
  waiting : after.waiting ≤ run.waiting
  cost : ∃ spent, (∀ {c unit}, c.Regular unit → after.load c ≤ run.load c + spent * unit) ∧
    spent + 5 * after.waiting ≤ k + 5 * run.waiting

namespace Spends

variable {k k' : Nat} {run between after : Run}

theorem refl (k : Nat) (run : Run) : Spends k run run :=
  ⟨id, Nat.le_refl _, 0, fun _ => by omega, by omega⟩

theorem mono (h : Spends k run after) (hle : k ≤ k') : Spends k' run after := by
  obtain ⟨hworkable, hwaiting, spent, hload, hspent⟩ := h
  exact ⟨hworkable, hwaiting, spent, hload, by omega⟩

theorem trans (h : Spends k run between) (h' : Spends k' between after) :
    Spends (k + k') run after := by
  obtain ⟨hworkable, hwaiting, spent, hload, hspent⟩ := h
  obtain ⟨hworkable', hwaiting', spent', hload', hspent'⟩ := h'
  refine ⟨fun hrun => hworkable' (hworkable hrun), Nat.le_trans hwaiting' hwaiting, spent + spent',
    fun hc => ?_, by omega⟩
  have hfirst := hload hc
  have hsecond := hload' hc
  rw [Nat.add_mul]
  omega

/-- Where only the carriers and the diagnostics differ, nothing is spent. -/
theorem of_same (hdocument : after.document = run.document) (haside : after.aside = run.aside)
    (hcarriers : after.carriers = run.carriers) : Spends k run after := by
  have hload : ∀ c, after.load c = run.load c := fun c => by
    rw [Run.load, Run.load, hdocument, haside]
  have hwaiting : after.waiting = run.waiting := by
    rw [Run.waiting, Run.waiting, hload, hcarriers]
  refine ⟨fun hrun => ?_, Nat.le_of_eq hwaiting, 0, fun _ => by rw [hload]; omega, by omega⟩
  exact ⟨hdocument ▸ hrun.sections, hdocument ▸ hrun.document, haside ▸ hrun.aside⟩

theorem modifyNode (hsound : run.Sound) {n : Nat} {f : Node → Node}
    (hfits : run.Fits n f) (hharmless : ∀ u, run.Holds u → u.tag = some n → Harmless u (f u))
    (hcost : ∀ u, run.node? n = some u → ∀ {c unit}, c.Regular unit →
      Node.load c (f u) ≤ Node.load c u + k * unit) : Spends k run (run.modifyNode n f) := by
  cases hnode : run.node? n with
  | none =>
      rw [hsound.modifyNode_eq_self fun u hu => nomatch hnode.symm.trans hu]
      exact .refl k run
  | some u =>
      have hload : ∀ {c unit}, c.Regular unit →
          (run.modifyNode n f).load c ≤ run.load c + k * unit := fun hc =>
        hsound.load_modifyNode_le hc.toFair hfits hnode 0 _ (hcost u hnode hc)
      have hwaiting : (run.modifyNode n f).waiting ≤ run.waiting := by
        have hle := hload (Charge.regular_waiting run.carriers)
        rw [Nat.mul_zero, Nat.add_zero] at hle
        exact hle
      exact ⟨fun hrun => hrun.modifyNode hharmless, hwaiting, k, hload, by omega⟩

end Spends

/-! ## The steps -/

namespace Step

variable {run : Run} {fuel : Nat}

/-- After a schema is remembered as a carrier. -/
abbrev marked (run : Run) (target : Nat) : Run :=
  { run with carriers := run.carriers.insert (.tag (some target)) }

theorem markCarrier_marks (target : Nat) :
    Suffices (fun _ => markCarrier target) fuel run fun _ after => after = marked run target :=
  suffices_const rfl

theorem spends_marked (run : Run) (target : Nat) : Spends 0 run (marked run target) := by
  have hwaiting : (marked run target).waiting ≤ run.waiting :=
    Nat.add_le_add (load_waiting_insert_le _ _ _) (load_waiting_insert_le _ _ _)
  exact ⟨fun hrun => ⟨hrun.sections, hrun.document, hrun.aside⟩, hwaiting, 0,
    fun _ => Nat.le_add_right _ _, by omega⟩

theorem waiting_marked_add_le {target : Nat} {fields : Fields Tag} {key : String} {value : Node}
    (hholds : run.Holds (.map (some target) fields))
    (hfresh : run.carriers.contains (.tag (some target)) = false)
    (hkey : key ∈ ["oneOf", "anyOf"]) (hget : fields.get? key = some value) :
    (marked run target).waiting + unionLength value ≤ run.waiting := by
  have hunion : Key.text key ∈ unionKeys := by
    simp only [List.mem_cons, List.not_mem_nil, or_false] at hkey
    rcases hkey with rfl | rfl <;> simp [unionKeys]
  have hmarked : (marked run target).waiting =
      Node.load (Charge.waiting (run.carriers.insert (.tag (some target)))) run.document +
        Node.load (Charge.waiting (run.carriers.insert (.tag (some target)))) run.aside := rfl
  rw [hmarked, Run.waiting, Run.load]
  rcases hholds with hmem | hmem
  · have hdocument := load_waiting_insert_add_le hmem hfresh hunion hget
    have haside := load_waiting_insert_le run.carriers (.tag (some target)) run.aside
    omega
  · have haside := load_waiting_insert_add_le hmem hfresh hunion hget
    have hdocument := load_waiting_insert_le run.carriers (.tag (some target)) run.document
    omega

theorem spends_parted (hsound : run.Sound) {owner : Tag} {list : Nat} {fields : Fields Tag}
    {items : List Node} (howner : run.Holds (.map owner fields))
    (hget : fields.get? "allOf" = some (.list (some list) items)) (field : String) :
    Spends 5 run (run.modifyNode list (onItems (· ++ [keyHolder field]))) := by
  have hlist := howner.below (Tree.mem_subtrees_of_get? hget)
  refine .modifyNode hsound (fits_parted hsound howner hget field) (fun u hu htag => ?_)
    fun u hu c unit hc => ?_
  · obtain rfl := hsound.unique hlist hu rfl htag
    exact harmless_parted field
  · obtain rfl := hsound.unique hlist (Run.node?_holds hu).1 rfl (Run.node?_holds hu).2
    exact load_part_le hc.toUniform _ items field

theorem spends_keyed (hsound : run.Sound) {owner : Tag} {map : Nat} {fields present : Fields Tag}
    {field : String} (howner : run.Holds (.map owner fields))
    (hget : fields.get? "properties" = some (.map (some map) present))
    (habsent : present.get? field = none) :
    Spends 2 run (run.modifyNode map (onFields (·.insert field textSchema))) := by
  have hholds := howner.below (Tree.mem_subtrees_of_get? hget)
  refine .modifyNode hsound (fits_of_unique hsound hholds rfl (plainer_insert habsent rfl True))
    (fun u hu htag => ?_) fun u hu c unit hc => ?_
  · obtain rfl := hsound.unique hholds hu rfl htag
    exact harmless_keyed field
  · obtain rfl := hsound.unique hholds (Run.node?_holds hu).1 rfl (Run.node?_holds hu).2
    exact load_keyed_le hc.toUniform _ present field

/-- The item of a list is wrapped if it was a mapping when the list was read. -/
theorem spends_wrapped (hsound : run.Sound) {list index : Nat} {key : String}
    (hitem : ∀ items, run.Holds (.list (some list) items) → ∀ item, items[index]? = some item →
      item.fields?.isSome = true) :
      Spends 3 run (run.modifyNode list (onItems (wrapAt index key))) := by
  refine .modifyNode hsound (Run.fits_of_plainer fun u hu htag => ?_) (fun u hu htag => ?_)
    fun u hu c unit hc => ?_
  · cases u with
    | list tag items =>
        refine ⟨rfl, id, id, fun _ => ?_⟩
        rw [onItems, unionLength, unionLength, length_wrapAt]
    | _ => exact .refl True _
  · cases u with
    | list tag items => exact harmless_wrapAt index key
    | _ => exact .refl _
  · obtain ⟨hholds, htag⟩ := Run.node?_holds hu
    cases u with
    | list tag items =>
        obtain rfl : tag = some list := htag
        cases hget : items[index]? with
        | none =>
            have hsame : wrapAt index key items = items := by
              unfold wrapAt
              rw [hget]
            rw [onItems, hsame]
            exact Nat.le_add_right _ _
        | some item => exact load_wrapAt_le hc.toUniform hget (hitem items hholds item hget) key
    | _ => exact Nat.le_add_right _ _

theorem report_spends (diagnostic : Diagnostic) (k : Nat) :
    Suffices (fun _ => report diagnostic) fuel run fun _ after => Spends k run after :=
  suffices_const (.of_same rfl rfl rfl)

theorem giveKeyProperty_spends (hsound : run.Sound) {tag : Tag}
    {fields present : Fields Tag} {map : Nat}
    {location : Location} (hholds : run.Holds (.map tag fields))
    (hget : fields.get? "properties" = some (.map (some map) present)) :
    Suffices (fun _ => giveKeyProperty map present location) fuel run fun _ after =>
      Spends 2 run after := by
  unfold giveKeyProperty
  refine suffices_get ?_
  simp only
  split
  · exact report_spends _ 2
  · rename_i habsent
    exact suffices_const
      (spends_keyed hsound hholds hget (by simpa [Entries.contains] using habsent))

/-- What is known of a step that gives the key of a map to a schema. -/
def Gives (give : Nat → Nat → Location → Step (Option String)) (fuel : Nat) : Prop :=
  ∀ n location {run : Run}, run.Sound → run.waiting < fuel →
    Suffices (fun k => give k n location) fuel run fun wrapped after =>
      Spends 5 run after ∧ ReflTransGen Patch run after ∧ Wraps run n wrapped after

/-- A member costs what it is given, or what it is wrapped in. -/
theorem giveKeyMember_suffices {give : Nat → Nat → Location → Step (Option String)}
    (hgives : Gives give fuel) {between : Run} {list index : Nat}
    {members : List Node} {member : Node}
    (location : Location) (hsound : run.Sound) (hlist : run.Holds (.list (some list) members))
    (hindex : members[index]? = some member) (hbetween : ReflTransGen Patch run between)
    (hfuel : between.waiting < fuel) :
    Suffices (fun k => match member.tag with
      | none => pure PUnit.unit
      | some m => do
          match ← give k m location with
          | some key => wrapItem list index key
          | none => pure PUnit.unit) fuel between fun _ after => Spends 5 between after := by
  have hsound' := sound_of_patches hbetween hsound
  cases htag : member.tag with
  | none => exact suffices_pure (.refl 5 _)
  | some m =>
      refine suffices_bind (hgives m location hsound' hfuel) fun wrapped after hgiven => ?_
      obtain ⟨hspends, -, hwraps⟩ := hgiven
      cases wrapped with
      | none => exact suffices_pure hspends
      | some key =>
          obtain ⟨rfl, node, hnode, hbare⟩ := hwraps rfl
          refine suffices_const
            ((spends_wrapped hsound' fun items hitems item hitem => ?_).mono (by omega))
          exact mapping_of_patches hsound hlist hindex hbetween htag hnode hbare hitems hitem

/-- All members of a union that has just been remembered cost what it has given up. -/
theorem giveKeyMembers_suffices (hgives : Gives giveKeyWithin fuel) {list : Nat}
    {members : List Node}
    (location : Location) (hsound : run.Sound) (hlist : run.Holds (.list (some list) members))
    (hcarries : run.Carries list) (hfuel : run.waiting < fuel) :
    Suffices (fun k => members.zipIdx.forM fun (member, index) => match member.tag with
      | none => pure PUnit.unit
      | some m => do
          match ← giveKeyWithin k m (location.item index) with
          | some key => wrapItem list index key
          | none =>
              pure PUnit.unit) fuel run fun _ after => Spends (5 * members.length) run after := by
  -- What is left of the list tells how many members have been given the key.
  have hloop : Suffices _ fuel run _ := suffices_forM (l := members.zipIdx)
    (f := fun k entry => match entry.1.tag with
      | none => pure PUnit.unit
      | some m => do
          match ← giveKeyWithin k m (location.item entry.2) with
          | some key => wrapItem list entry.2 key
          | none => pure PUnit.unit)
    (I := fun rest after => ∃ given, given + rest.length = members.length ∧
      Spends (5 * given) run after ∧ ReflTransGen Patch run after ∧ (given = 0 → after = run)) ?_ ?_
  · refine hloop.mono fun _ after hafter => ?_
    obtain ⟨given, hgiven, hspends, -⟩ := hafter
    exact hspends.mono (by simp at hgiven; omega)
  · rintro ⟨member, index⟩ rest between hsuffix ⟨given, hgiven, hspends, hpatches, hfirst⟩
    have hindex := List.mem_zipIdx_iff_getElem?.1 (hsuffix.mem List.mem_cons_self)
    have hbetween : between.waiting < fuel := Nat.lt_of_le_of_lt hspends.waiting hfuel
    have hmember :=
      (giveKeyMember_suffices hgives (location.item index) hsound hlist hindex hpatches
      hbetween).and_leads (giveKeyMember_leads (location.item index)
        (fun n location _ => giveKeyWithin_leads fuel n location) hsound hlist
          hcarries hindex hpatches
        fun hlen => ?_)
    · refine hmember.mono fun _ after hafter => ?_
      refine ⟨given + 1, ?_, ?_, hpatches.trans hafter.2.1, fun h => by omega⟩
      · simp only [List.length_cons] at hgiven
        omega
      · exact (hspends.trans hafter.1).mono (by omega)
    · refine hfirst ?_
      simp only [List.length_cons] at hgiven
      omega
  · exact ⟨0, by simp, .refl _ run, .refl, fun _ => rfl⟩

/-- To give the key of a map to a schema costs five nodes, and more only where it has been paid
for.  The members that are waiting suffice as fuel. -/
theorem giveKeyWithin_suffices (fuel : Nat) : Gives giveKeyWithin fuel := by
  intro n location run hsound hfuel
  induction fuel generalizing n location run with
  | zero => omega
  | succ fuel ih =>
      refine Suffices.and_leads ?_ (giveKeyWithin_leads (fuel + 1) n location hsound)
      refine suffices_succ ?_
      simp only [giveKeyWithin]
      refine suffices_get ?_
      cases hnode : run.node? n with
      | none => exact suffices_pure (.refl 5 run)
      | some node =>
          simp only
          cases hfollow : followReferences run.document (run.document.nodeCount + 1) [] node with
          | error problem => exact suffices_bind (report_spends _ 5) fun _ _ h => suffices_pure h
          | ok found =>
              cases found with
              | map tag fields =>
                  cases tag with
                  | none => exact suffices_pure (.refl 5 run)
                  | some target =>
                      have hholds : run.Holds (.map (some target) fields) := by
                        rcases followReferences_mem hfollow with heq | hmem
                        · exact heq ▸ (Run.node?_holds hnode).1
                        · exact Or.inl hmem
                      have hof := Carrier.of_ofFields run.options fields
                      have hmarked := spends_marked run target
                      have hsound' : (marked run target).Sound := hsound.congr rfl rfl rfl
                      cases hcontains : run.carriers.contains (.tag (some target)) with
                      | true =>
                          simp only [hcontains, if_true]
                          exact suffices_pure (.refl 5 run)
                      | false =>
                          simp only [hcontains, Bool.false_eq_true, if_false]
                          cases hcarrier : Carrier.of run.options fields with
                          | parts list =>
                              rw [hcarrier] at hof
                              obtain ⟨items, hget⟩ := hof
                              have hparted :=
                                spends_parted hsound' hholds hget run.options.fieldProperty
                              refine suffices_bind (markCarrier_marks target) ?_
                              rintro _ _ rfl
                              exact suffices_bind (Q := fun _ after => Spends 5 run after)
                                (suffices_const ((hmarked.trans hparted).mono (by omega)))
                                fun _ _ h => suffices_pure h
                          | properties map present =>
                              rw [hcarrier] at hof
                              refine suffices_bind (markCarrier_marks target) ?_
                              rintro _ _ rfl
                              refine suffices_bind (giveKeyProperty_spends hsound' hholds hof)
                                fun _ _ h => suffices_pure ?_
                              exact (hmarked.trans h).mono (by omega)
                          | members key list members =>
                              rw [hcarrier] at hof
                              have hpaid := waiting_marked_add_le hholds hcontains hof.1 hof.2
                              rw [unionLength] at hpaid
                              refine suffices_bind (markCarrier_marks target) ?_
                              rintro _ _ rfl
                              have hlist := hholds.below (Tree.mem_subtrees_of_get? hof.2)
                              have hcarries := carries_members hholds hof.1 hof.2
                              refine suffices_bind
                                (giveKeyMembers_suffices (@ih) (location.child key)
                                hsound' hlist hcarries (by omega)) fun _ after h => suffices_pure ?_
                              obtain ⟨hworkable, hwaiting, spent, hload, hspent⟩ := h
                              exact ⟨fun hrun => hworkable (hmarked.workable hrun),
                                by omega, spent, hload,
                                by omega⟩
                          | wrapped key => exact suffices_pure (.refl 5 run)
                          | none => exact suffices_pure (.refl 5 run)
              | _ => exact suffices_pure (.refl 5 run)

/-- More fuel than there are nodes changes nothing. -/
theorem giveKeyWithin_eq (n : Nat) (location : Location) {run : Run}
    (hsound : run.Sound) {fuel : Nat}
    (hfuel : run.document.nodeCount + run.aside.nodeCount + 1 ≤ fuel) :
    giveKeyWithin fuel n location run = giveKey n location run := by
  have hdocument := (Charge.load_waiting_lt run.carriers run.document).1
  have haside := (Charge.load_waiting_lt run.carriers run.aside).1
  have hwaiting : run.waiting < run.document.nodeCount + run.aside.nodeCount + 1 := by
    rw [Run.waiting, Run.load]
    omega
  exact (giveKeyWithin_suffices _ n location hsound hwaiting).1 fuel hfuel

theorem giveKey_suffices (n : Nat) (location : Location) {run : Run}
    (hsound : run.Sound) {fuel : Nat} :
    Suffices (fun _ => giveKey n location) fuel run fun wrapped after =>
      Spends 5 run after ∧ ReflTransGen Patch run after ∧ Wraps run n wrapped after := by
  have hdocument := (Charge.load_waiting_lt run.carriers run.document).1
  have haside := (Charge.load_waiting_lt run.carriers run.aside).1
  have hwaiting : run.waiting < run.document.nodeCount + run.aside.nodeCount + 1 := by
    rw [Run.waiting, Run.load]
    omega
  exact suffices_const (giveKeyWithin_suffices _ n location hsound hwaiting).2

end Step

end ProtoShape
