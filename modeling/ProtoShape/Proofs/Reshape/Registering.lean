import ProtoShape.Proofs.Reshape.Giving
import ProtoShape.Proofs.Reshape.Registry

/-!
# Entries in the registry

`Registers` is what one change of the second phase does to the registry: nothing, or one
more entry, under a name that was free and that is recorded as generated.  Giving schemas
the key of a map does nothing (`giveKey_registers`), and neither does a rule that rewrites a
schema.  Only generating a component makes an entry (`componentFor_registers`).

`Refers` says what a single map gives way to: a reference to the component for its value
type, which is made at that time or has been recorded before.
-/

namespace ProtoShape

open Rules Tree Relation

/-! ## Entries -/

/-- What one change does to the registry. -/
inductive Registers : Run → Run → Prop where
  /-- No name is bound or recorded. -/
  | kept {run after} : after.Mapped → after.options = run.options → after.registry = run.registry →
      after.valueComponents = run.valueComponents → Registers run after
  /-- A free name is bound to a node and recorded as generated. -/
  | entered {run after} (target : Identity) (name : String) (node : Identity) : after.Mapped →
      after.options = run.options → run.registry.get? name = none →
      after.registry.toList = run.registry.toList ++ [(.text name, node)] →
      after.valueComponents = run.valueComponents ++ [(target, name)] → Registers run after

namespace Registers

variable {run after : Run}

theorem mapped (h : Registers run after) : after.Mapped := by
  cases h <;> assumption

theorem options (h : Registers run after) : after.options = run.options := by
  cases h <;> assumption

theorem of_schemas? (hmapped : run.Mapped) (hschemas : after.schemas? = run.schemas?)
    (hoptions : after.options = run.options)
    (hcomponents : after.valueComponents = run.valueComponents) :
    Registers run after := by
  refine .kept (Run.mapped_iff.2 (hschemas ▸ Run.mapped_iff.1 hmapped)) hoptions ?_ hcomponents
  rw [Run.registry, hschemas, Run.registry]

end Registers

section Chains

variable {run after : Run} (h : ReflTransGen Registers run after)
include h

theorem mapped_of_registers (hmapped : run.Mapped) : after.Mapped := by
  cases h with
  | refl => exact hmapped
  | tail _ hlast => exact hlast.mapped

theorem options_of_registers : after.options = run.options := by
  induction h with
  | refl => rfl
  | tail _ hlast ih => exact hlast.options.trans ih

/-- A name stays bound to the node that it is bound to. -/
theorem get?_of_registers {name : String} {node : Identity}
    (hget : run.registry.get? name = some node) :
    after.registry.get? name = some node := by
  induction h with
  | refl => exact hget
  | tail _ hlast ih =>
      cases hlast with
      | kept _ _ hregistry => exact hregistry ▸ ih
      | entered target other other' _ _ _ hregistry =>
          rw [Entries.get?, hregistry]
          exact Entries.get?_append ih

/-- A name that is free has been free before. -/
theorem free_of_registers {name : String} (hfree : after.registry.get? name = none) :
    run.registry.get? name = none := by
  by_contra hbound
  obtain ⟨node, hnode⟩ := Option.ne_none_iff_exists'.1 hbound
  cases (get?_of_registers h hnode).symm.trans hfree

/-- The component recorded for a value type stays recorded. -/
theorem lookup_of_registers {target : Identity} {name : String}
    (hlookup : run.valueComponents.lookup target = some name) :
    after.valueComponents.lookup target = some name := by
  induction h with
  | refl => exact hlookup
  | tail _ hlast ih =>
      cases hlast with
      | kept _ _ _ hcomponents => exact hcomponents ▸ ih
      | entered target other other' _ _ _ _ hcomponents =>
          rw [hcomponents, List.lookup_append, ih, Option.some_or]

end Chains

/-! ## Changes that enter nothing -/

theorem IsSchema.kept : Kept IsSchema := fun _ _ _ hupdate hn => hupdate.located hn

theorem IsSchema.of_patches {run after : Run} {n : Nat} (hn : IsSchema run n)
    (h : ReflTransGen Patch run after) : IsSchema after n :=
  IsSchema.kept.updates (updates_of_patches h IsSchema) hn

section Changes

variable {run after : Run} {n : Nat}

theorem registers_modifyNode (hsound : run.Sound) (hmapped : run.Mapped) (hn : ¬run.IsSection n)
    {f : Node → Node} (hf : ∀ u, Node.identity (f u) = Node.identity u) :
    Registers run (run.modifyNode n f) :=
  .of_schemas? hmapped (hsound.schemas?_modifyNode hn hf) rfl rfl

/-- A gift changes a node that stands under a keyword of a schema, so it enters nothing. -/
theorem Gift.registers {before : IdentitySet} (h : Gift before run after) (hsound : run.Sound)
    (hmapped : run.Mapped) : Registers run after := by
  have hat : ∀ {schema map : Nat} {fields : Fields Tag} {key : String} {value :
      Node} {f : Node → Node},
      run.Holds (.map (some schema) fields) → fields.get? key = some value → value.tag = some map →
      key ∉ sectionKeys → (∀ u, Node.identity (f u) = Node.identity u) →
      Registers run ((Step.marked run schema).modifyNode map f) := by
    intro schema map fields key value f hholds hget htag hkey hf
    have hmarked : (Step.marked run schema).Sound := hsound.congr rfl rfl rfl
    have hn : ¬run.IsSection map := hsound.not_section_of_get? hholds hget htag hkey
    exact .of_schemas? hmapped (hmarked.schemas?_modifyNode hn hf) rfl rfl
  cases h with
  | reported | kept | passed => exact .of_schemas? hmapped rfl rfl rfl
  | @parted schema fields list hholds _ hcarrier =>
      have hof := Carrier.of_ofFields run.options fields
      rw [hcarrier] at hof
      obtain ⟨items, hget⟩ := hof
      exact hat hholds hget rfl (by decide) (identity_onItems _)
  | @keyed schema fields list present hholds _ hcarrier =>
      have hof := Carrier.of_ofFields run.options fields
      rw [hcarrier] at hof
      exact hat hholds hof rfl (by decide) (identity_onFields _)
  | wrapped wrap hholds _ _ hkey hget =>
      refine registers_modifyNode hsound hmapped (hsound.not_section_of_get? hholds hget rfl ?_)
        (identity_onItems _)
      rcases List.mem_pair.1 hkey with rfl | rfl <;> decide

theorem registers_of_gifts (h : ReflTransGen (Gift run.carriers) run after) (hsound : run.Sound)
    (hmapped : run.Mapped) : ReflTransGen Registers run after := by
  induction h with
  | refl => exact .refl
  | tail hfirst hlast ih =>
      exact ih.tail (hlast.registers (given_of_gifts hfirst hsound).sound
        (mapped_of_registers ih hmapped))

end Changes

namespace Step

variable {run : Run} {n : Nat}

/-- What two contracts of one step say together. -/
theorem Leads.and {α : Type} {U V : Run → Run → Prop} {x : Step α} {Q Q' : α → Run → Prop}
    (h : Leads U x run Q) (h' : Leads V x run Q') :
    Leads U x run fun a after => Q a after ∧ ReflTransGen V run after ∧ Q' a after :=
  ⟨h.1, h.2, h'.1, h'.2⟩

theorem report_registers (hmapped : run.Mapped) (diagnostic : Diagnostic) :
    Leads Registers (report diagnostic) run fun _ _ => True :=
  leads_modify (.of_schemas? hmapped rfl rfl rfl) trivial

theorem giveKey_registers (hsound : run.Sound) (hmapped : run.Mapped) (n : Nat)
    (location : Location) :
    Leads Registers (giveKey n location) run fun _ _ => True :=
  ⟨registers_of_gifts ((giveKey_giving n location hsound).gifts hsound
    (fun _ hin => hin) trivial) hsound
    hmapped, trivial⟩

theorem modifyFields_registers (hmapped : run.Mapped) (hn : IsSchema run n)
    (f : Fields Tag → Fields Tag) :
    Leads Registers (modifyFields n f) run fun _ after => after = run.modifyNode n (onFields f) :=
  leads_modify (registers_modifyNode hn.sound hmapped hn.not_section (identity_onFields f)) rfl

theorem apply_registers (hmapped : run.Mapped) (hn : IsSchema run n)
    (rule : Fields Tag → Option (Fields Tag)) :
    Leads Registers (apply rule n) run fun _ _ => True := by
  unfold apply
  refine leads_bind (Q := fun found after => run = after) ⟨.refl, rfl⟩ ?_
  rintro found _ - rfl
  split
  · exact leads_bind (modifyFields_registers hmapped hn _) fun _ _ _ _ => leads_pure trivial
  · exact leads_pure trivial

theorem inlineSingleMap_registers (hmapped : run.Mapped) (hn : IsSchema run n) (additional : Node)
    (location : Location) : Leads Registers (inlineSingleMap n additional location) run
      fun _ _ => True := by
  have hrewrite : ∀ {after : Run} (f : Fields Tag → Fields Tag), after.Mapped → IsSchema after n →
      Leads Registers (modifyFields n f) after fun _ _ => True := fun f hmapped hn =>
    (modifyFields_registers hmapped hn f).mono fun _ _ _ => trivial
  unfold inlineSingleMap
  refine leads_get ?_
  cases additional.tag with
  | none => exact hrewrite _ hmapped hn
  | some target =>
      simp only
      split
      · refine leads_bind ((giveKey_registers hn.sound hmapped target _).and
          (giveKey_leads target _ hn.sound))
          fun wrapped after hafter hgiven => ?_
        exact hrewrite _ (mapped_of_registers hafter hmapped) (hn.of_patches hgiven.2.1)
      · exact hrewrite _ hmapped hn

/-- A section is made empty, so nothing is bound there. -/
theorem entryOrEmpty_registers (hsound : run.Sound) {keys : List String} {key : String}
    (hkeys : keys ++ [key] <+: sectionKeys) {fields : Fields Tag}
    (hunder : run.document.under? keys = some (.map (some n) fields)) :
    Leads Registers (entryOrEmpty n key) run fun value after =>
      after.document.under? (keys ++ [key]) = some value ∧
        after.valueComponents = run.valueComponents := by
  have hnode := hsound.node?_of_holds (run.holds_document.below (mem_subtrees_of_under? hunder)) rfl
  have hbelow : run.document.under? (keys ++ [key]) = fields.get? key := by
    rw [under?_append, hunder, Option.bind_some, under?_map_cons]
    cases fields.get? key <;> rfl
  unfold Leads
  cases hget : fields.get? key with
  | some value =>
      rw [entryOrEmpty_of_get? hnode hget]
      exact ⟨.refl, hbelow.trans hget, rfl⟩
  | none =>
      rw [entryOrEmpty_of_absent hsound hunder hkeys hget]
      have hplaced := under?_placed hsound hunder hget
      obtain ⟨rest, hrest⟩ := hkeys
      have hbefore : run.schemas? = none := by
        rw [Run.schemas?, ← hrest, under?_append, hbelow, hget]
        rfl
      have hafter : ∀ after : Run, after.document.under? (keys ++ [key]) =
          some (.map (some run.next) ∅) →
          after.schemas? ≠ some none ∧ after.registry = ∅ := by
        intro after hunder
        unfold Run.registry Run.schemas?
        rw [← hrest, under?_append, hunder]
        cases rest with
        | nil => exact ⟨(nomatch ·), rfl⟩
        | cons => exact ⟨(nomatch ·), rfl⟩
      obtain ⟨hschemas, hregistry⟩ := hafter _ hplaced
      refine ⟨.single (.kept (Run.mapped_iff.2 hschemas) rfl ?_ rfl), hplaced, rfl⟩
      rw [hregistry, Run.registry, hbefore]
      rfl

end Step

namespace RiskyStep

open Step (entryOrEmpty_registers modifyFields_registers inlineSingleMap_registers report_registers
  apply_registers)

variable {run : Run} {n : Nat}

/-- What two contracts of one step say together. -/
theorem Leads.and {α : Type} {U V : Run → Run → Prop} {x : RiskyStep α} {Q Q' : α → Run → Prop}
    (h : Leads U x run Q) (h' : Leads V x run Q') :
    Leads U x run fun a after => Q a after ∧ ReflTransGen V run after ∧ Q' a after :=
  ⟨h.1, fun a ha => ⟨h.2 a ha, h'.1, h'.2 a ha⟩⟩

theorem schemas_registers (hsound : run.Sound) :
    Leads Registers schemas run fun value after =>
      after.document.under? sectionKeys = some value ∧
        after.valueComponents = run.valueComponents := by
  unfold schemas
  refine leads_get ?_
  cases hdocument : run.document with
  | map tag fields =>
      cases tag with
      | none => exact leads_throw
      | some root =>
          have hfirst := @entryOrEmpty_registers run root hsound [] "components" (by decide) fields
            (congrArg some hdocument)
          refine leads_bind (leads_lift (hfirst.and (Step.entryOrEmpty_leads (by simp) hsound
            ⟨[], List.nil_prefix, _, rfl, congrArg Tree.tag hdocument⟩)))
            fun components between _ hcomponents => ?_
          obtain ⟨⟨hunder, hvalues⟩, hpatches, -⟩ := hcomponents
          cases components with
          | map tag inner =>
              cases tag with
              | none => exact leads_throw
              | some k =>
                  refine (leads_lift
                    (@entryOrEmpty_registers between k (sound_of_patches hpatches hsound)
                    ["components"] "schemas" (by decide) inner hunder)).mono fun value after h => ?_
                  exact ⟨h.1, h.2.trans hvalues⟩
          | _ => exact leads_throw
  | _ => exact leads_throw

theorem registry_get?_of_absent {tag : Tag} {entries : Fields Tag} {name : String}
    (hunder : run.document.under? sectionKeys = some (.map tag entries))
    (habsent : entries.get? name = none) :
    run.registry.get? name = none := by
  rw [run.registry_get?, show componentPath name = sectionKeys ++ [name] from rfl, under?_append,
    hunder, Option.bind_some, under?_map_cons, habsent]
  rfl

/-- A component is entered under a name that is free. -/
theorem addComponent_registers (hsound : run.Sound) {schemas : Nat}
    {entries : Fields Tag} {name : String}
    (hunder : run.document.under? sectionKeys = some (.map (some schemas) entries))
    (habsent : entries.get? name = none) (target : Identity) (component : Node) :
    Leads Registers (do
      addComponent (.map (some schemas) entries) name component
      (Step.markGenerated target name : Step Unit)
      return some name) run fun found after => found = some name ∧
        after.valueComponents = run.valueComponents ++ [(target, name)] ∧
        after.document.under? (componentPath name) = some (Node.number component run.next).1 := by
  have hinserted := under?_insertion hsound hunder habsent component
  have hschemas : (run.modifyNode schemas (onFields (·.insert name component))).schemas? =
      some (some
      ⟨(entries.mapValues Node.identity).toList ++
        [(.text name, Node.identity (Node.number component run.next).1)]⟩) := by
    rw [Run.schemas?, hinserted]
    simp only [Option.map_some, Tree.bindings?, Tree.fields?, Entries.mapValues, List.map_append]
    rfl
  have hregistry : run.registry = entries.mapValues Node.identity := by
    rw [Run.registry, Run.schemas?, hunder]
    rfl
  refine ⟨.single (.entered target name (Node.identity (Node.number component run.next).1)
    (Run.mapped_iff.2 ?_) rfl (registry_get?_of_absent hunder habsent) ?_ rfl),
    fun found hfound => ?_⟩
  · change (run.modifyNode schemas (onFields (·.insert name component))).schemas? ≠ _
    rw [hschemas]
    simp
  · change (run.modifyNode schemas (onFields (·.insert name component))).registry.toList = _
    rw [Run.registry, hschemas, hregistry]
    rfl
  · cases hfound
    exact ⟨rfl, rfl, under?_generated hsound hunder habsent component⟩

end RiskyStep

/-! ## Components for value types -/

/-- How a value type gets its component: it has been recorded before, or it is made. -/
inductive Supplies (run : Run) (target : Identity) (ref : String)
    (keySchema : Option Node) (name : String) (after : Run) : Prop where
  | recorded : run.valueComponents.lookup target = some name → after = run →
      Supplies run target ref keySchema name after
  | made (component : Node) : run.valueComponents.lookup target = none →
      run.registry.get? name = none →
      after.valueComponents.lookup target = some name →
      after.document.under? (componentPath name) = some component →
      component.erase =
      (keyValueComponent (Pointer.lastToken ref) ref keySchema run.options.fieldProperty).erase →
      (∀ n, IsSchema run n → Node.uses n component = 0) →
      Supplies run target ref keySchema name after

/-- The fields of a single map that has become a reference to a component. -/
def referring (name : String) (fields : Fields Tag) : Fields Tag :=
  (fields.eraseAll mapKeywords).insert "$ref" (.ofText (Pointer.toComponent name))

/-- A single map gives way to a reference, once there is a component for its value type. -/
inductive Refers (run : Run) (n : Nat) (name : String) : Run → Prop where
  | once {fields additional ref target made} : run.node? n = some (.map (some n) fields) →
      fields.get? "additionalProperties" = some additional → additional.ref? = some ref →
      run.document.resolve ref = .ok target →
      Supplies run (Node.identity target) ref (fields.get? "propertyNames") name made →
      ReflTransGen Patch run made → made.Mapped →
      Refers run n name (made.modifyNode n (onFields (referring name)))

namespace RiskyStep

open Step (modifyFields_registers inlineSingleMap_registers report_registers apply_registers)

variable {run : Run} {n : Nat}

theorem componentFor_registers (hsound : run.Sound) (hmapped : run.Mapped)
    (target : Identity) (ref : String) (keySchema : Option Node) (location : Location) :
    Leads Registers (componentFor target ref keySchema location) run fun found after =>
      ∀ name, found = some name → Supplies run target ref keySchema name after := by
  unfold componentFor
  refine leads_get ?_
  cases hlookup : run.valueComponents.lookup target with
  | some name =>
      refine leads_pure fun other hother => ?_
      cases hother
      exact .recorded hlookup rfl
  | none =>
      refine leads_bind ((schemas_registers hsound).and (schemas_leads hsound))
        fun schemas between hbetween hschemas => ?_
      obtain ⟨⟨hunder, hvalues⟩, hpatches, -⟩ := hschemas
      have hsound' := sound_of_patches hpatches hsound
      have hmapped' := mapped_of_registers hbetween hmapped
      have hmapping := hmapped' schemas hunder
      cases schemas with
      | map tag entries =>
          obtain ⟨k, -, htag⟩ := hsound'.exists_tag
            (between.holds_document.below (mem_subtrees_of_under? hunder))
          obtain rfl : tag = some k := htag
          refine leads_bind (leads_except (Q := fun taken after => between = after ∧
            isTaken (.map (some k) entries) _ = .ok taken) fun taken htaken => ⟨rfl, htaken⟩) ?_
          rintro taken _ - ⟨rfl, htaken⟩
          cases taken with
          | true =>
              refine leads_bind (leads_lift (report_registers hmapped' _)) fun _ _ _ _ =>
                leads_pure ?_
              exact fun _ hfound => nomatch hfound
          | false =>
              have habsent :
                  entries.get?
                  (Naming.generated (Pointer.lastToken ref) run.options.singleMapSuffix) =
                  none := by simpa [isTaken, Entries.contains] using htaken
              refine (addComponent_registers hsound' hunder habsent target _).mono
                fun found after h => ?_
              obtain ⟨rfl, hcomponents, hcomponent⟩ := h
              rintro name heq
              cases heq
              have hfree := free_of_registers hbetween (registry_get?_of_absent hunder habsent)
              refine .made _ hlookup hfree ?_ hcomponent (Node.number_numbers _ _).erase
                fun n hn => ?_
              · rw [hcomponents, hvalues, List.lookup_append, hlookup]
                simp
              · have hbelow := (hn.of_patches hpatches).number
                rw [Node.uses_number fun _ _ => uses_keyValueComponent _ _ _ _,
                  uses_keyValueComponent, if_neg]
                omega
      | _ => cases hmapping

theorem referSingleMap_registers (hmapped : run.Mapped) (hn : IsSchema run n)
    (context : Option String)
    (location : Location) : Leads Registers (referSingleMap context location n) run
      fun changed after =>
      changed = true → context.any run.options.inlineContexts.contains = false →
        ∃ name, Refers run n name after := by
  unfold referSingleMap
  refine leads_get ?_
  split
  · exact leads_pure fun hchanged => nomatch hchanged
  · rename_i fields hfields
    split
    · exact leads_pure fun hchanged => nomatch hchanged
    · rename_i additional hget
      split
      · exact leads_pure fun hchanged => nomatch hchanged
      · rename_i ref href
        split
        · exact leads_pure fun hchanged => nomatch hchanged
        · obtain ⟨u, hnode, huf⟩ := Option.bind_eq_some_iff.1 hfields
          cases u with
          | map tag inner =>
              cases huf
              obtain rfl : tag = some n := (Run.node?_holds hnode).2
              split
              · refine leads_bind (leads_lift (report_registers hmapped _)) fun _ _ _ _ => ?_
                exact leads_pure fun hchanged => nomatch hchanged
              · rename_i target hresolve
                split
                · rename_i hexempt
                  refine leads_bind (leads_lift (inlineSingleMap_registers hmapped hn _ _))
                    fun _ _ _ _ =>
                    leads_pure fun _ hcontext => ?_
                  rw [hexempt] at hcontext
                  cases hcontext
                · refine leads_bind ((componentFor_registers hn.sound hmapped _ _ _ _).and
                    (componentFor_leads hn.sound _ _ _ _)) fun found made hmade hfound => ?_
                  obtain ⟨hsupplies, hpatches, -⟩ := hfound
                  cases found with
                  | none => exact leads_pure fun hchanged => nomatch hchanged
                  | some name =>
                      have hmapped' := mapped_of_registers hmade hmapped
                      refine leads_bind
                        (leads_lift (modifyFields_registers hmapped' (hn.of_patches hpatches) _))
                        fun _ after _ hafter => leads_pure fun _ _ => ⟨name, ?_⟩
                      rw [hafter]
                      exact .once hnode hget href hresolve (hsupplies name rfl) hpatches hmapped'
          | _ => cases huf

theorem rewrites_registers (hmapped : run.Mapped) (hn : IsSchema run n) :
    Leads Registers (do
      let _ ← (Step.apply titledToProperty n : Step Bool)
      let _ ← (Step.apply membersToProperties n : Step Bool)) run fun _ _ => True := by
  refine leads_bind (leads_lift ((apply_registers hmapped hn _).and (Step.apply_leads hn.sound hn
    fun _ _ h => .titled (movesTitled_of_eq_some h)))) fun _ between hbetween hupdates => ?_
  exact leads_bind (leads_lift (apply_registers (mapped_of_registers hbetween hmapped)
    (IsSchema.kept.updates hupdates.2.1 hn) _)) fun _ _ _ _ => leads_pure trivial

/-- The rules make an entry where they generate a component, and only there. -/
theorem reshapeSchema_registers (hmapped : run.Mapped) (hn : IsSchema run n)
    (context : Option String)
    (location : Location) : Leads Registers (reshapeSchema context location n) run
      fun _ _ => True := by
  unfold reshapeSchema
  refine leads_bind ((referSingleMap_registers hmapped hn context location).and
    (referSingleMap_leads IsSchema.kept hn.sound hn context location))
      fun _ between hbetween hupdates => ?_
  exact rewrites_registers (mapped_of_registers hbetween hmapped)
    (IsSchema.kept.updates hupdates.2.1 hn)

/-- What is entered after a single map has been looked at. -/
theorem registers_after_refer (hmapped : run.Mapped) (hn : IsSchema run n) {context : Option String}
    {location : Location} {changed : Bool} {next : Run}
    (hrefer : (referSingleMap context location n).run run = (.ok changed, next)) :
    ReflTransGen Registers next ((reshapeSchema context location n).run run).2 := by
  have hfirst := ((referSingleMap_registers hmapped hn context location).of_ok hrefer).1
  have hupdates :=
    ((referSingleMap_leads IsSchema.kept hn.sound hn context location).of_ok hrefer).1
  unfold reshapeSchema
  rw [run_bind_of_ok hrefer]
  exact (rewrites_registers (mapped_of_registers hfirst hmapped)
    (IsSchema.kept.updates hupdates hn)).1

end RiskyStep

end ProtoShape
