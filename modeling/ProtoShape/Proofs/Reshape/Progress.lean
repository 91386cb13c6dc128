import ProtoShape.Proofs.Reshape.Generation

/-!
# How the second phase comes to an end

Every rule that applies takes away a chance for the rules to apply (`Costs`).  A chance pays
for all the nodes that come in with the change: at most five for each member that is
waiting to be passed the key of a map, and thirteen more (`Run.price`).

`Advances` is what this comes to for any number of changes: either nothing has changed, or
there are fewer chances, and what the chances are worth with the nodes gets no more.  A visit
of a schema always has a result, and it advances (`reshapeSchema_suffices`).
-/

namespace ProtoShape

open Rules Tree Relation

/-! ## Costs -/

/-- What a chance pays for. -/
def Run.price (run : Run) : Nat := 5 * run.load (.waiting ∅) + 13

/-- A change that takes chances away and costs nodes. -/
structure Costs (gain price : Nat) (run after : Run) : Prop where
  workable : run.Workable → after.Workable
  waiting : after.load (.waiting ∅) ≤ run.load (.waiting ∅)
  chances : after.load .chances + gain ≤ run.load .chances
  size : after.load .size ≤ run.load .size + price

theorem Costs.trans {gain gain' price price' : Nat} {run between after : Run}
    (h : Costs gain price run between) (h' : Costs gain' price' between after) :
    Costs (gain + gain') (price + price') run after := by
  obtain ⟨hworkable, hwaiting, hchances, hsize⟩ := h
  obtain ⟨hworkable', hwaiting', hchances', hsize'⟩ := h'
  exact ⟨fun hrun => hworkable' (hworkable hrun), by omega, by omega, by omega⟩

theorem Spends.costs {k : Nat} {run after : Run} (h : Spends k run after) :
    Costs 0 (k + 5 * run.load (.waiting ∅)) run after := by
  obtain ⟨hworkable, -, spent, hload, hspent⟩ := h
  have hwaiting := hload (Charge.regular_waiting ∅)
  have hchances := hload Charge.regular_chances
  have hsize := hload Charge.regular_size
  have hcarriers := run.waiting_le
  exact ⟨hworkable, by omega, by omega, by omega⟩

/-- What a run becomes: either nothing changes, or chances pay for all that comes in. -/
structure Advances (run after : Run) : Prop where
  workable : run.Workable → after.Workable
  waiting : after.load (.waiting ∅) ≤ run.load (.waiting ∅)
  worth : ∀ unit, run.price ≤ unit →
    after.load .size + unit * after.load .chances ≤ run.load .size + unit * run.load .chances
  change : (after.document = run.document ∧ after.aside = run.aside) ∨
    after.load .chances < run.load .chances

namespace Advances

variable {run between after : Run}

theorem of_same (hdocument : after.document = run.document) (haside : after.aside = run.aside) :
    Advances run after := by
  have hload : ∀ c, after.load c = run.load c := fun c => by
    rw [Run.load, Run.load, hdocument, haside]
  refine ⟨fun hrun => ?_, ?_, fun unit _ => ?_, Or.inl ⟨hdocument, haside⟩⟩
  · exact ⟨hdocument ▸ hrun.sections, hdocument ▸ hrun.document, haside ▸ hrun.aside⟩
  · rw [hload]
  · rw [hload, hload]

theorem refl (run : Run) : Advances run run := of_same rfl rfl

theorem trans (h : Advances run between) (h' : Advances between after) : Advances run after := by
  refine ⟨fun hrun => h'.workable (h.workable hrun), h'.waiting.trans h.waiting,
    fun unit hunit => ?_, ?_⟩
  · have hprice : between.price ≤ run.price := by
      have hwaiting := h.waiting
      unfold Run.price
      omega
    exact (h'.worth unit (hprice.trans hunit)).trans (h.worth unit hunit)
  · rcases h.change with ⟨hdocument, haside⟩ | hfewer
    · rcases h'.change with ⟨hdocument', haside'⟩ | hfewer
      · exact Or.inl ⟨hdocument'.trans hdocument, haside'.trans haside⟩
      · refine Or.inr (hfewer.trans_le (Nat.le_of_eq ?_))
        rw [Run.load, Run.load, hdocument, haside]
    · refine Or.inr (Nat.lt_of_le_of_lt ?_ hfewer)
      rcases h'.change with ⟨hdocument', haside'⟩ | hfewer'
      · rw [Run.load, Run.load, hdocument', haside']
      · exact hfewer'.le

theorem of_costs {gain price : Nat} (h : Costs gain price run after) (hgain : 0 < gain)
    (hprice : price ≤ run.price) : Advances run after := by
  obtain ⟨hworkable, hwaiting, hchances, hsize⟩ := h
  refine ⟨hworkable, hwaiting, fun unit hunit => ?_, Or.inr (by omega)⟩
  have hpaid := Nat.mul_le_mul_left unit (show after.load .chances + 1 ≤ run.load .chances by omega)
  rw [Nat.mul_add, Nat.mul_one] at hpaid
  omega

end Advances

/-! ## The rules -/

section Rules

variable {run : Run} {n : Nat} {tag : Tag} {fields : Fields Tag}

/-- A rule costs what it makes of the schema. -/
theorem costs_of_rewrite (hsound : run.Sound) (hnode : run.node? n = some (.map tag fields))
    {f : Fields Tag → Fields Tag} (hrewrite : Rewrite (.map tag fields) (.map tag (f fields)))
    {gain price : Nat} (hwaiting : Node.load (.waiting ∅) (.map tag (f fields)) ≤
      Node.load (.waiting ∅) (.map tag fields))
    (hchances : Node.load .chances (.map tag (f fields)) + gain ≤
      Node.load .chances (.map tag fields))
    (hsize : Node.load .size (.map tag (f fields)) ≤ Node.load .size (.map tag fields) + price) :
    Costs gain price run (run.modifyNode n (onFields f)) := by
  obtain ⟨hholds, htag⟩ := Run.node?_holds hnode
  have hfits : run.Fits n (onFields f) := fits_of_unique hsound hholds htag (hrewrite.plainer True)
  refine ⟨fun hrun => hrun.modifyNode fun u hu hutag => ?_, ?_, ?_, ?_⟩
  · obtain rfl := hsound.unique hholds hu htag hutag
    exact hrewrite.harmless
  · exact hsound.load_modifyNode_le (Charge.fair_waiting ∅) hfits hnode 0 0 hwaiting
  · exact hsound.load_modifyNode_le Charge.fair_chances hfits hnode gain 0 hchances
  · exact hsound.load_modifyNode_le Charge.fair_size hfits hnode 0 price hsize

/-- A titled value type that loses its title may refer to no more than before. -/
theorem mayRefer_movedSchema {additional : Fields Tag}
    (h : mayRefer (movedSchema additional) = true)
    (inner : Tag) : mayRefer (.map inner additional) = true := by
  have hget : ∀ key : String, key ≠ "title" →
      (additional.erase "title").get? key = additional.get? key := fun key hkey => by
    rw [Entries.get?_erase, if_neg fun heq => hkey (Entries.text_key_eq_iff.1 heq)]
  unfold movedSchema at h
  split at h
  · cases h
  · rw [mayRefer_map] at h ⊢
    rw [Fields.isReference_erase (by decide), holdsOne_eq, hget "minProperties" (by decide),
      ← holdsOne_eq, Fields.items?, hget "oneOf" (by decide)] at h
    exact h

/-- A titled value type gives up its title. -/
theorem titled_costs (hsound : run.Sound) (hnode : run.node? n = some (.map tag fields))
    {result : Fields Tag} (h : MovesTitled fields result) :
    Costs 1 2 run (run.modifyNode n (onFields fun _ => result)) := by
  refine costs_of_rewrite hsound hnode (.titled h) ?_ ?_ ?_
  · obtain ⟨inner, additional, title, text, -, -, -, hload⟩ :=
      Charge.load_titled_le (Charge.regular_waiting ∅).toUniform Charge.tagless_waiting h tag
    have hitem : (Charge.waiting ∅).item (movedSchema additional) = 0 := rfl
    omega
  · obtain ⟨inner, additional, title, text, -, -, htext, hload⟩ :=
      Charge.load_titled_le Charge.regular_chances.toUniform Charge.tagless_chances h tag
    have hrefer : Charge.chances.item (movedSchema additional) ≤
        Charge.chances.entry tag (.text "additionalProperties") (.map inner additional) :=
      Charge.toNat_le_toNat fun hmay => mayRefer_movedSchema hmay inner
    have htitle : Charge.chances.under tag (.text "title") title =
        1 + Node.load .chances title := by
      rw [Charge.under]
      simp [Charge.chances, Charge.chance, htext]
    omega
  · obtain ⟨inner, additional, title, text, -, -, -, hload⟩ :=
      Charge.load_titled_le Charge.regular_size.toUniform Charge.tagless_size h tag
    have hitem : Charge.size.item (movedSchema additional) = 1 := rfl
    have hentry :
        Charge.size.entry tag (.text "additionalProperties") (.map inner additional) = 1 := rfl
    omega

/-- A union of members gives up its list, and looks like half a single map then. -/
theorem merged_costs (hsound : run.Sound) (hnode : run.node? n = some (.map tag fields))
    {result : Fields Tag} (h : MergesMembers fields result) :
    Costs 1 2 run (run.modifyNode n (onFields fun _ => result)) := by
  refine costs_of_rewrite hsound hnode (.merged h) ?_ ?_ ?_
  · obtain ⟨inner, members, -, hload⟩ :=
      Charge.load_merged_le (Charge.regular_waiting ∅).toUniform Charge.tagless_waiting h tag
    have hone : (Charge.waiting ∅).entry tag (.text "minProperties") (.ofInt 1) = 0 := by
      simp [Charge.waiting, unionKeys]
    omega
  · obtain ⟨inner, members, -, hload⟩ :=
      Charge.load_merged_le Charge.regular_chances.toUniform Charge.tagless_chances h tag
    have hone : Charge.chances.entry tag (.text "minProperties") (.ofInt 1) = 2 := rfl
    have hunion : Charge.chances.entry tag (.text "oneOf") (.list inner members) = 3 := rfl
    omega
  · obtain ⟨inner, members, -, hload⟩ :=
      Charge.load_merged_le Charge.regular_size.toUniform Charge.tagless_size h tag
    have hone : Charge.size.entry tag (.text "minProperties") (.ofInt 1) = 1 := rfl
    have hunion : Charge.size.entry tag (.text "oneOf") (.list inner members) = 1 := rfl
    omega

/-! ## Single maps -/

/-- A single map that becomes a reference gives up its keywords. -/
theorem referred_costs (hsound : run.Sound) (hnode : run.node? n = some (.map tag fields))
    (hone : IsMapOfOne fields) (ref : String) : Costs 2 1 run
      (run.modifyNode n (onFields fun fields => (fields.eraseAll mapKeywords).insert "$ref"
        (.ofText ref))) := by
  obtain ⟨additional, hget⟩ := Option.isSome_iff_exists.1 hone.2
  refine costs_of_rewrite hsound hnode (.referred ref hone) ?_ ?_ ?_
  · have hload := Charge.load_referred_le (Charge.regular_waiting ∅).toUniform tag fields ref
    omega
  · have hload := Charge.load_referred_le Charge.regular_chances.toUniform tag fields ref
    obtain ⟨minimum, hminimum, hpaid⟩ := Charge.chances.le_ofMap hone hget tag
    have htwo : Charge.chances.entry tag (.text "minProperties") minimum = 2 := by
      simp [Charge.chances, Charge.chance, hminimum]
    omega
  · have hload := Charge.load_referred_le Charge.regular_size.toUniform tag fields ref
    omega

/-- A single map that becomes an object around its value type does, too. -/
theorem inlined_costs (hsound : run.Sound) (hnode : run.node? n = some (.map tag fields))
    (hone : IsMapOfOne fields) {additional : Node}
    (hget : fields.get? "additionalProperties" = some additional)
    (href : additional.isReference = true) (key : String) : Costs 2 2 run
      (run.modifyNode n (onFields fun fields =>
        (fields.eraseAll mapKeywords).overlay (wrapperOf key additional))) := by
  obtain ⟨inner, more, rfl⟩ : ∃ inner more, additional = .map inner more := by
    cases additional with
    | map inner more => exact ⟨inner, more, rfl⟩
    | _ => cases href
  refine costs_of_rewrite hsound hnode (.inlined key hone hget href) ?_ ?_ ?_
  · have hload :=
      Charge.load_inlined_le (Charge.regular_waiting ∅).toUniform tag fields key inner more
    obtain ⟨minimum, -, hpaid⟩ := (Charge.waiting ∅).le_ofMap hone hget tag
    have hitem : (Charge.waiting ∅).item (.map inner more) = 0 := rfl
    unfold Charge.among at hload
    omega
  · have hload := Charge.load_inlined_le Charge.regular_chances.toUniform tag fields key inner more
    obtain ⟨minimum, hminimum, hpaid⟩ := Charge.chances.le_ofMap hone hget tag
    have htwo : Charge.chances.entry tag (.text "minProperties") minimum = 2 := by
      simp [Charge.chances, Charge.chance, hminimum]
    have hitem : Charge.chances.entry tag (.text "additionalProperties") (.map inner more) =
        Charge.chances.item (.map inner more) := rfl
    unfold Charge.among at hload
    omega
  · have hload := Charge.load_inlined_le Charge.regular_size.toUniform tag fields key inner more
    obtain ⟨minimum, -, hpaid⟩ := Charge.size.le_ofMap hone hget tag
    have hentry : Charge.size.entry tag (.text "additionalProperties") (.map inner more) =
        Charge.size.item (.map inner more) := rfl
    unfold Charge.among at hload
    omega

/-- A single map that becomes a reference to a new component gives up the schema of its keys,
too, which pays for the copy in the component. -/
theorem generated_costs (hsound : run.Sound) {before : Run}
    (hnode : run.node? n = some (.map tag fields)) (hone : IsMapOfOne fields) {additional : Node}
    (hget : fields.get? "additionalProperties" = some additional)
    (href : additional.isReference = true) {ref : String}
    (hgenerates : Generates ref (fields.get? "propertyNames") before run) (target : String) :
    Costs 1 before.price before
      (run.modifyNode n (onFields fun fields => (fields.eraseAll mapKeywords).insert "$ref"
        (.ofText target))) := by
  obtain ⟨hworkable, spent, hspent, hload⟩ := hgenerates
  have hrefer : mayRefer additional = true := by
    cases additional with
    | map inner more => exact mayRefer_map.2 (Or.inl (Or.inl href))
    | _ => cases href
  have hcopy : ∀ (c : Charge) (bound : Nat), (∀ item, c.item item ≤ bound) →
      ((fields.get? "propertyNames").map c.among).getD 0 ≤
        bound + ((fields.get? "propertyNames").map (Node.load c)).getD 0 := by
    intro c bound hbound
    cases fields.get? "propertyNames" with
    | none => exact Nat.zero_le _
    | some keys => exact Nat.add_le_add_right (hbound keys) _
  obtain ⟨hworks, hwaiting, hchances, hsize⟩ := referred_costs hsound hnode hone target
  obtain ⟨hholds, htag⟩ := Run.node?_holds hnode
  have hfits : run.Fits n (onFields fun fields => (fields.eraseAll mapKeywords).insert "$ref"
      (.ofText target)) :=
    fits_of_unique hsound hholds htag (Rewrite.plainer (.referred target hone) True)
  have hafter : ∀ {c : Charge} {unit}, c.Regular unit → (run.modifyNode n (onFields fun fields =>
      (fields.eraseAll mapKeywords).insert "$ref" (.ofText target))).load c + c.ofMap tag fields ≤
        run.load c + unit := fun hc =>
    hsound.load_modifyNode_le hc.toFair hfits hnode _ _
      (Charge.load_referred_le hc.toUniform tag fields target)
  refine ⟨fun hrun => hworks (hworkable hrun), ?_, ?_, ?_⟩
  · have hbefore := hload (Charge.regular_waiting ∅) Charge.tagless_waiting
    have hreferred := hafter (Charge.regular_waiting ∅)
    obtain ⟨minimum, -, hpaid⟩ := (Charge.waiting ∅).le_ofMap hone hget tag
    have hkeys := hcopy (.waiting ∅) 0 fun _ => Nat.le_refl _
    have hitem : (Charge.waiting ∅).item (.ofEntries [("$ref", .ofText ref)]) = 0 := rfl
    omega
  · have hbefore := hload Charge.regular_chances Charge.tagless_chances
    have hreferred := hafter Charge.regular_chances
    obtain ⟨minimum, hminimum, hpaid⟩ := Charge.chances.le_ofMap hone hget tag
    have hbool : ∀ b : Bool, b.toNat ≤ 1 := by decide
    have hkeys := hcopy .chances 1 fun item => hbool (mayRefer item)
    have hitem : Charge.chances.item (.ofEntries [("$ref", .ofText ref)]) ≤ 1 :=
      hbool (mayRefer (.ofEntries [("$ref", (.ofText ref : Node))]))
    have htwo : Charge.chances.entry tag (.text "minProperties") minimum = 2 := by
      simp [Charge.chances, Charge.chance, hminimum]
    have hvalue : Charge.chances.entry tag (.text "additionalProperties") additional = 1 := by
      simp [Charge.chances, Charge.chance, hrefer]
    omega
  · have hbefore := hload Charge.regular_size Charge.tagless_size
    have hreferred := hafter Charge.regular_size
    obtain ⟨minimum, -, hpaid⟩ := Charge.size.le_ofMap hone hget tag
    have hkeys := hcopy .size 1 fun _ => Nat.le_refl _
    have hitem : Charge.size.item (.ofEntries [("$ref", .ofText ref)]) = 1 := rfl
    have hminimum : Charge.size.entry tag (.text "minProperties") minimum = 1 := rfl
    have hvalue : Charge.size.entry tag (.text "additionalProperties") additional = 1 := rfl
    have hmembers := before.waiting_le
    unfold Run.price
    omega

end Rules

/-! ## Visits -/

namespace Step

variable {run : Run} {n : Nat} {fuel : Nat}

theorem apply_advances {rule : Fields Tag → Option (Fields Tag)}
    (hrule : ∀ fields result, run.node? n = some (.map (some n) fields) →
      rule fields = some result →
      Advances run (run.modifyNode n (onFields fun _ => result))) :
    Suffices (fun _ => apply rule n) fuel run fun _ after => Advances run after := by
  unfold apply
  refine suffices_bind (Q := fun found after => run = after ∧
    found = (run.node? n).bind Tree.fields?)
    (suffices_const ⟨rfl, rfl⟩) ?_
  rintro _ _ ⟨rfl, rfl⟩
  cases hfound : ((run.node? n).bind Tree.fields?).bind rule with
  | none => exact suffices_pure (.refl run)
  | some result =>
      obtain ⟨fields, hfields, hresult⟩ := Option.bind_eq_some_iff.1 hfound
      obtain ⟨u, hnode, huf⟩ := Option.bind_eq_some_iff.1 hfields
      have htag := (Run.node?_holds hnode).2
      cases u with
      | map tag inner =>
          obtain rfl : tag = some n := htag
          cases huf
          exact suffices_const (hrule fields result hnode hresult)
      | _ => cases huf

/-- The single map is there still when its value type has got the key. -/
theorem inlineSingleMap_advances (hsound : run.Sound) {tag : Tag} {fields : Fields Tag}
    {additional : Node}
    {location : Location} (hnode : run.node? n = some (.map tag fields)) (hone : IsMapOfOne fields)
    (hget : fields.get? "additionalProperties" = some additional)
    (href : additional.isReference = true) :
    Suffices (fun _ => inlineSingleMap n additional location) fuel run fun _ after =>
      Advances run after := by
  obtain ⟨ref, heq⟩ := Option.isSome_iff_exists.1 href
  have hrefer : ∀ {k : Nat} {after : Run} {f : Fields Tag → Fields Tag}, k ≤ 5 →
      Spends k run after → ReflTransGen Patch run after →
      (∀ fields, f fields = (fields.eraseAll mapKeywords).insert "$ref" (.ofText ref)) →
      Advances run (after.modifyNode n (onFields f)) := by
    intro k after f hk hspends hpatches hf
    obtain rfl : f = fun fields => (fields.eraseAll mapKeywords).insert "$ref" (.ofText ref) :=
      funext hf
    obtain ⟨u, hu, hgrown⟩ := exists_grown_of_patches hpatches hsound hnode
    have hmapping := hgrown.mapping rfl
    cases u with
    | map tag' fields' =>
        have hone' := isMapOfOne_of_patches hsound hpatches hnode hone (Run.node?_holds hu).1
          (Run.node?_holds hu).2
        have hreferred := referred_costs (sound_of_patches hpatches hsound) hu hone' ref
        refine .of_costs (hspends.costs.trans hreferred) (by omega) ?_
        unfold Run.price
        omega
    | _ => cases hmapping
  unfold inlineSingleMap
  rw [heq]
  refine suffices_get ?_
  simp only
  split
  · split
    · refine suffices_bind (giveKey_suffices _ _ hsound) fun wrapped after hgiven => ?_
      obtain ⟨hspends, hpatches, hwraps⟩ := hgiven
      cases wrapped with
      | some key =>
          obtain rfl := (hwraps rfl).1
          refine suffices_const
            (.of_costs (inlined_costs hsound hnode hone hget href key) (by omega) ?_)
          unfold Run.price
          omega
      | none => exact suffices_const (hrefer (Nat.le_refl 5) hspends hpatches fun _ => rfl)
    · exact suffices_const (hrefer (Nat.zero_le 5) (.refl 0 run) .refl fun _ => rfl)
  · exact suffices_const (hrefer (Nat.zero_le 5) (.refl 0 run) .refl fun _ => rfl)

end Step

namespace RiskyStep

variable {run : Run} {n : Nat} {fuel : Nat}

theorem referSingleMap_advances (hn : IsSchema run n) (hworkable : run.Workable)
    (context : Option String) (location : Location) :
    Suffices (fun _ => referSingleMap context location n) fuel run fun _ after =>
      Advances run after := by
  have hsound := hn.sound
  unfold referSingleMap
  refine suffices_get ?_
  split
  · exact suffices_pure (.refl run)
  · rename_i fields hfields
    split
    · exact suffices_pure (.refl run)
    · rename_i additional hget
      split
      · exact suffices_pure (.refl run)
      · rename_i ref href
        split
        · exact suffices_pure (.refl run)
        · rename_i hsingle
          obtain ⟨u, hnode, huf⟩ := Option.bind_eq_some_iff.1 hfields
          obtain ⟨hholds, htag⟩ := Run.node?_holds hnode
          cases u with
          | map tag inner =>
              cases huf
              have hone : IsMapOfOne fields :=
                ⟨by simpa using hsingle, Option.isSome_iff_exists.2 ⟨additional, hget⟩⟩
              have hreference : additional.isReference = true :=
                Option.isSome_iff_exists.2 ⟨ref, href⟩
              split
              · exact suffices_bind (suffices_lift (Step.suffices_const (.of_same rfl rfl)))
                  fun _ _ h => suffices_pure h
              · split
                · exact suffices_bind
                    (suffices_lift (Step.inlineSingleMap_advances hsound hnode hone hget
                    hreference)) fun _ _ h => suffices_pure h
                · have hkeys : ∀ schema, fields.get? "propertyNames" = some schema →
                      schema.HasTextKeys :=
                    fun schema hschema =>
                      hworkable.holds (hholds.below (mem_subtrees_of_get? hschema))
                  refine suffices_bind
                    ((componentFor_suffices hsound hworkable _ ref hkeys location))
                    fun name after hcomponent => ?_
                  obtain ⟨hgenerates, hstays, hsame⟩ := hcomponent
                  cases name with
                  | none => exact suffices_pure (.of_same (hsame rfl).1 (hsame rfl).2)
                  | some name =>
                      obtain ⟨hn', hnode'⟩ := hstays n _ hn hnode
                      refine suffices_bind (suffices_lift (Step.suffices_const (.of_costs
                        (generated_costs hn'.sound hnode' hone hget hreference hgenerates
                          (Pointer.toComponent name)) Nat.one_pos (Nat.le_refl _))))
                        fun _ _ h => suffices_pure h
          | _ => cases huf

/-- A visit has a result, and it advances. -/
theorem reshapeSchema_suffices (hn : IsSchema run n) (hworkable : run.Workable)
    (name : Option String) (location : Location) :
    Suffices (fun _ => reshapeSchema name location n) fuel run fun _ after =>
      Advances run after ∧ Updates IsSchema run after := by
  have hkept : Kept IsSchema := fun _ _ _ hupdate h => hupdate.located h
  have hleads := reshapeSchema_leads hkept hn.sound hn name location
  refine (Suffices.and_leads (x := fun _ => reshapeSchema name location n) ?_ hleads).mono
    fun _ after h => ⟨h.1, h.2.1⟩
  unfold reshapeSchema
  have hrefer : Suffices _ fuel run _ :=
    (referSingleMap_advances hn hworkable name location).and_leads
    (referSingleMap_leads hkept hn.sound hn name location)
  refine suffices_bind hrefer fun _ first hfirst => ?_
  have hsound := Updates.sound hfirst.2.1 hn.sound
  have hn' := hkept.updates hfirst.2.1 hn
  have htitled : Suffices _ fuel first _ := (suffices_lift (Step.apply_advances (n := n)
    fun fields result hnode hrule =>
      .of_costs (titled_costs hsound hnode (movesTitled_of_eq_some hrule))
      Nat.one_pos (by unfold Run.price; omega))).and_leads (leads_lift (Step.apply_leads hsound hn'
        fun _ _ h => .titled (movesTitled_of_eq_some h)))
  refine suffices_bind htitled fun _ second hsecond => ?_
  have hsound' := Updates.sound hsecond.2.1 hsound
  have hmerged : Suffices _ fuel second _ := suffices_lift (Step.apply_advances (n := n)
    fun fields result hnode hrule =>
      .of_costs (merged_costs hsound' hnode (mergesMembers_of_eq_some hrule))
      Nat.one_pos (by unfold Run.price; omega))
  refine suffices_bind hmerged fun _ third hthird => suffices_pure ?_
  exact (hfirst.1.trans hsecond.1).trans hthird

end RiskyStep

end ProtoShape
