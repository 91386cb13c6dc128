import ProtoShape.Proofs.Reshape.Registering

/-!
# The registry only grows

The second phase is one visit after the other, each of which applies the rules to a schema
(`reshapeMaps_reshapes`).  By what a visit enters in the registry, and by induction over the
visits, the registry gets the generated components in the order in which they are
generated, and nothing else becomes of it (`enlarged_of_registers`).

`phases_registry` puts this together for all phases.  A name that was bound stays bound to
its node, so pointers to components lead where they led, and the reference that a single map
gives way to leads to the component for its value type, whatever characters its name has.
-/

namespace ProtoShape

open Rules Tree Relation RiskyStep

/-! ## Visits -/

/-- One visit of the second phase: the rules are applied to a schema. -/
inductive Reshapes : Run → Run → Prop where
  | visit {run n} (context : Option String) (location : Location) : IsSchema run n →
      Reshapes run ((reshapeSchema context location n).run run).2

namespace Reshapes

variable {run after : Run}

theorem updates (h : Reshapes run after) : Updates IsSchema run after := by
  cases h with
  | visit context location hn =>
      exact (reshapeSchema_leads IsSchema.kept hn.sound hn context location).1

theorem registers (h : Reshapes run after) (hmapped : run.Mapped) :
    ReflTransGen Registers run after := by
  cases h with
  | visit context location hn => exact (reshapeSchema_registers hmapped hn context location).1

end Reshapes

/-- The walk comes to schemas only where it makes a visit. -/
theorem guides_reshapes : Guides Reshapes reshapeSchema Located where
  keep h hn := Guides.keep_all guides_located h.updates hn
  element h _ hnode hitem hm := h.element hnode hitem hm
  entry h hspread hnode hentry hm := h.entry hspread hnode hentry hm
  slot h hspread hnode hslot hget hm := h.slot hspread hnode hslot hget hm
  visit h hspread hrole context location :=
    ⟨.single (.visit context location (h.isSchema hspread hrole)), fun _ _ => trivial⟩

/-- The second phase is one visit after the other. -/
theorem reshapeMaps_reshapes {run : Run} (hsound : run.Sound) :
    ReflTransGen Reshapes run (reshapeMaps.run run).2 :=
  (leads_get (walk_leads guides_reshapes _ fun _ htag => located_root hsound htag) :
    Leads Reshapes reshapeMaps run fun _ _ => True).1

theorem registers_of_reshapes {run after : Run} (h : ReflTransGen Reshapes run after)
    (hmapped : run.Mapped) : ReflTransGen Registers run after := by
  induction h with
  | refl => exact .refl
  | tail _ hlast ih => exact ih.trans (hlast.registers (mapped_of_registers ih hmapped))

/-! ## Growth -/

/-- The registry has got the generated components, in their order and after all else.  No
name has been generated twice, and none was bound before. -/
structure Enlarged (before after : Run) : Prop where
  entries : ∃ fresh, after.registry.toList = before.registry.toList ++ fresh ∧
    fresh.map (·.1) = after.generated.map Scalar.text
  nodup : after.generated.Nodup
  free : ∀ name ∈ after.generated, before.registry.get? name = none

/-- A generated name is bound. -/
theorem Enlarged.exists_node {before after : Run} (h : Enlarged before after) {name : String}
    (hname : name ∈ after.generated) : ∃ node, after.registry.get? name = some node := by
  obtain ⟨fresh, hentries, hkeys⟩ := h.entries
  have hin : Scalar.text name ∈ fresh.map (·.1) := hkeys ▸ List.mem_map_of_mem hname
  refine Option.ne_none_iff_exists'.1 fun hnone => ?_
  have hfree := h.free name hname
  unfold Entries.get? at hnone hfree
  rw [hentries, Entries.lookup_append, hfree, Option.none_or, Entries.lookup_eq_none_iff] at hnone
  obtain ⟨entry, hentry, hkey⟩ := List.mem_map.1 hin
  exact hnone entry hentry (congrArg Scalar.key hkey)

/-- Changes that enter generated components enlarge the registry by them. -/
theorem enlarged_of_registers {run after : Run} (h : ReflTransGen Registers run after)
    (hnone : run.valueComponents = []) : Enlarged run after := by
  induction h with
  | refl =>
      have hgenerated : run.generated = [] := by rw [Run.generated, hnone, List.map_nil]
      refine ⟨⟨[], (List.append_nil _).symm, by rw [hgenerated]; rfl⟩,
        by rw [hgenerated]; exact .nil, ?_⟩
      rw [hgenerated]
      exact fun _ hname => nomatch hname
  | @tail between after hfirst hlast ih =>
      obtain ⟨fresh, hentries, hkeys⟩ := ih.entries
      cases hlast with
      | kept _ _ hregistry hcomponents =>
          have hgenerated : after.generated = between.generated := by
            rw [Run.generated, hcomponents, Run.generated]
          exact ⟨⟨fresh, hregistry ▸ hentries, hgenerated ▸ hkeys⟩, hgenerated ▸ ih.nodup,
            hgenerated ▸ ih.free⟩
      | entered target name node _ _ hfree hregistry hcomponents =>
          have hgenerated : after.generated = between.generated ++ [name] := by
            rw [Run.generated, hcomponents, List.map_append]
            rfl
          have hnew : name ∉ between.generated := fun hin => by
            obtain ⟨bound, hbound⟩ := ih.exists_node hin
            rw [hfree] at hbound
            cases hbound
          refine ⟨⟨fresh ++ [(.text name, node)], ?_, ?_⟩, ?_, fun other hother => ?_⟩
          · rw [hregistry, hentries, List.append_assoc]
          · rw [hgenerated, List.map_append, List.map_append, hkeys]
            rfl
          · rw [hgenerated, List.nodup_append]
            exact ⟨ih.nodup, List.nodup_singleton name, fun a ha b hb heq =>
              hnew (List.mem_singleton.1 hb ▸ heq ▸ ha)⟩
          · rw [hgenerated] at hother
            rcases List.mem_append.1 hother with hold | hlast
            · exact ih.free other hold
            · exact List.mem_singleton.1 hlast ▸ free_of_registers hfirst hfree

/-! ## Single maps -/

section Image

variable {run : Run} {n : Nat} {f : Node → Node}

theorem Node.mem_subtrees_modify_of_mem {t u : Node} (honce : uses n t ≤ 1) (hmem : u ∈ t.subtrees)
    (htag : u.tag = some n) : f u ∈ (modify n f t).subtrees := by
  induction t using Tree.children_induction with
  | step t ih =>
      rw [uses_eq] at honce
      rw [subtrees_eq] at hmem
      rcases List.mem_cons.1 hmem with rfl | hbelow
      · rw [modify_self htag]
        exact self_mem_subtrees _
      · obtain ⟨child, hchild, hin⟩ := List.mem_flatMap.1 hbelow
        have hsum := List.le_sum_of_mem (List.mem_map_of_mem (f := uses n) hchild)
        have hpos := uses_pos hin htag
        have hne : t.tag ≠ some n := fun htag => by
          rw [if_pos htag] at honce
          omega
        rw [modify_of_ne hne]
        refine mem_subtrees_of_child ?_ (ih child hchild (by omega) hin)
        rw [children_mapChildren]
        exact List.mem_map_of_mem hchild

/-- After a replacement, a number leads to the image of its node, if that has the number still. -/
theorem Run.Sound.exists_node?_image (h : run.Sound)
    (hafter : (run.modifyNode n f).Sound) {u : Node}
    (hu : run.node? n = some u) (htag : (f u).tag = some n) :
    ∃ k, (run.modifyNode n f).node? n = some (Node.number (f u) k).1 := by
  obtain ⟨hholds, hn⟩ := node?_holds hu
  have honce := h.once n
  unfold Run.uses at honce
  have haside : (run.modifyNode n f).aside = Node.modify n (Node.numberedFrom
      (Node.number (Node.modify n f run.document) run.next).2 f) run.aside :=
    Node.number_modify h.aside (by omega) _
  have hholds' : ∃ k, (run.modifyNode n f).Holds (Node.number (f u) k).1 := by
    rcases hholds with hin | hin
    · refine ⟨run.next, Or.inl ?_⟩
      rw [h.document_modifyNode]
      exact Node.mem_subtrees_modify_of_mem (by omega) hin hn
    · refine ⟨(Node.number (Node.modify n f run.document) run.next).2, Or.inr ?_⟩
      rw [haside]
      exact Node.mem_subtrees_modify_of_mem (by omega) hin hn
  obtain ⟨k, hk⟩ := hholds'
  exact ⟨k, hafter.node?_of_holds hk (Node.tag_number_of_some htag k)⟩

theorem Tree.ref?_number (u : Node) (next : Nat) : (Node.number u next).1.ref? = u.ref? := by
  rw [← Tree.ref?_mapTags fun _ => (), ← Tree.erase, (Node.number_numbers u next).erase, Tree.erase,
    Tree.ref?_mapTags]

end Image

/-- A single map has given way to a reference that leads to the component for its value type:
the one recorded for it before, or one that has been made under a free name. -/
structure Boxed (run after : Run) (n : Nat) (name : String) (component : Node) : Prop where
  reference : (after.node? n).bind Tree.ref? = some (Pointer.toComponent name)
  resolves : after.document.resolve (Pointer.toComponent name) = .ok component
  value : ∃ fields additional ref target, run.node? n = some (.map (some n) fields) ∧
    fields.get? "additionalProperties" = some additional ∧ additional.ref? = some ref ∧
    run.document.resolve ref = .ok target ∧
    after.valueComponents.lookup (Node.identity target) = some name ∧
    (run.valueComponents.lookup (Node.identity target) = some name ∧
        run.registry.get? name = some (Node.identity component) ∨
      run.valueComponents.lookup (Node.identity target) = none ∧ run.registry.get? name = none ∧
        component.erase =
        (keyValueComponent (Pointer.lastToken ref) ref (fields.get? "propertyNames")
          run.options.fieldProperty).erase)

section Boxes

variable {run after : Run} {n : Nat} {name : String}

/-- A change of a schema leaves a component where it is. -/
theorem IsSchema.under?_modifyNode (hn : IsSchema run n) (f : Node → Node) (name : String) :
    (run.modifyNode n f).document.under? (componentPath name) =
      (run.document.under? (componentPath name)).map
        (Node.modify n (Node.numberedFrom run.next f)) := by
  rw [hn.sound.document_modifyNode]
  refine Node.under?_modify_of_ne fun pre key rest heq u hu htag =>
    hn.not_section ⟨pre, ?_, u, hu, htag⟩
  have hprefix : pre <+: sectionKeys ++ [name] := ⟨key :: rest, heq.symm⟩
  rcases List.prefix_concat_iff.1 hprefix with hall | hshort
  · have hlength := congrArg List.length heq
    rw [List.length_append, hall] at hlength
    simp [componentPath, sectionKeys] at hlength
  · exact hshort

theorem Refers.boxed (h : Refers run n name after) (hafter : after.Sound) (hn : IsSchema run n)
    (hbound : ∀ target name, run.valueComponents.lookup target = some name →
      ∃ node, run.registry.get? name = some node) :
      ∃ component, Boxed run after n name component := by
  cases h with
  | @once fields additional ref target made hnode hget href hresolve hsupplies hpatches hmade =>
      have hn' := hn.of_patches hpatches
      obtain ⟨v, hv, hgrown⟩ := exists_grown_of_patches hpatches hn.sound hnode
      have hmapping := hgrown.mapping rfl
      cases v with
      | map tag fields' =>
          obtain rfl : tag = some n := (Run.node?_holds hv).2
          obtain ⟨k, hk⟩ := hn'.sound.exists_node?_image hafter hv rfl
          have hreference :
              ((made.modifyNode n (onFields (referring name))).node? n).bind Tree.ref? =
              some (Pointer.toComponent name) := by
            rw [hk, Option.bind_some, Tree.ref?_number]
            simp [onFields, referring, Tree.ref?, Tree.fields?, Fields.ref?, Fields.text?,
              Tree.text?, Tree.ofText]
          have hunder := hn'.under?_modifyNode (onFields (referring name)) name
          cases hsupplies with
          | recorded hlookup heq =>
              subst heq
              obtain ⟨node, hnode'⟩ := hbound _ _ hlookup
              obtain ⟨u, hu, -⟩ :=
                Option.map_eq_some_iff.1 ((made.registry_get? name).symm.trans hnode')
              rw [hu, Option.map_some] at hunder
              refine ⟨_, hreference, resolve_of_under? (tokens?_toComponent name) hunder,
                fields, additional,
                ref, target, hnode, hget, href, hresolve, hlookup, Or.inl ⟨hlookup, ?_⟩⟩
              rw [Run.registry, ← hn'.sound.schemas?_modifyNode hn'.not_section
                (identity_onFields (referring name))]
              exact (Run.registry_get? _ name).trans (congrArg (Option.map Node.identity) hunder)
          | made component hlookup hfree hrecorded hcomponent herase hnew =>
              rw [hcomponent, Option.map_some, Node.modify_of_uses_eq_zero (hnew n hn)] at hunder
              exact ⟨component, hreference, resolve_of_under? (tokens?_toComponent name) hunder,
                fields, additional,
                ref, target, hnode, hget, href, hresolve, hrecorded,
                Or.inr ⟨hlookup, hfree, herase⟩⟩
      | _ => cases hmapping

/-- A recorded component is bound, where the registry has been enlarged by what is recorded. -/
theorem Enlarged.exists_node_of_lookup {before : Run} (h : Enlarged before run) {target : Identity}
    {name : String} (hlookup : run.valueComponents.lookup target = some name) :
    name ∈ run.generated ∧ ∃ node, run.registry.get? name = some node := by
  obtain ⟨front, back, heq, -⟩ := List.lookup_eq_some_iff.1 hlookup
  have hname : name ∈ run.generated := List.mem_map.2 ⟨(target, name), by rw [heq]; simp, rfl⟩
  exact ⟨hname, h.exists_node hname⟩

/-- Where a single map outside the exempted contexts gives way, it gives way to a reference to
the component for its value type. -/
theorem exists_boxed {before : Run} (hbefore : ReflTransGen Registers before run)
    (hnone : before.valueComponents = []) (hmapped : run.Mapped) (hn : IsSchema run n)
    {context : Option String}
    {location : Location} (hrefer : (referSingleMap context location n).run run = (.ok true, after))
    (hexempt : context.any run.options.inlineContexts.contains = false) :
    ∃ name component, Boxed run after n name component := by
  have hupdates :=
    ((referSingleMap_leads IsSchema.kept hn.sound hn context location).of_ok hrefer).1
  obtain ⟨name, hname⟩ :=
    ((referSingleMap_registers hmapped hn context location).of_ok hrefer).2 rfl hexempt
  obtain ⟨component, hboxed⟩ := hname.boxed (Updates.sound hupdates hn.sound) hn fun _ _ hlookup =>
    ((enlarged_of_registers hbefore hnone).exists_node_of_lookup hlookup).2
  exact ⟨name, component, hboxed⟩

/-- The reference leads to the same node for good, and the component stays recorded. -/
theorem Boxed.stays {component : Node} (h : Boxed run after n name component)
    (hmapped : after.Mapped) {last : Run} (hlast : ReflTransGen Registers after last) :
    (∃ component', last.document.resolve (Pointer.toComponent name) = .ok component' ∧
      Node.identity component' = Node.identity component) ∧
    ∃ target, last.valueComponents.lookup target = some name := by
  have hbound :=
    (hmapped.resolve_component (tokens?_toComponent name)).2 ⟨component, h.resolves, rfl⟩
  obtain ⟨_, _, _, target, -, -, -, -, hlookup, -⟩ := h.value
  exact ⟨((mapped_of_registers hlast hmapped).resolve_component (tokens?_toComponent name)).1
    (get?_of_registers hlast hbound), _, lookup_of_registers hlast hlookup⟩

end Boxes

/-! ## All phases -/

theorem registers_of_phase {phase : Phase} (hphase : phase ≠ .restructure)
    {run after : Run} (h : run.Sound)
    (hmapped : run.Mapped) (hrun : phase.run.run run = (.ok (), after)) : Registers run after := by
  obtain ⟨hschemas, hcomponents, hoptions⟩ := Phase.run_schemas? hphase h hrun
  exact .of_schemas? hmapped hschemas hoptions hcomponents

/-- The second phase over a mapping is one visit after the other. -/
theorem reshapes_of_restructure {run after : Run} (h : run.Sound)
    (hrun : Phase.restructure.run.run run = (.ok (), after)) : ReflTransGen Reshapes run after := by
  have hreshapes := reshapeMaps_reshapes h
  rwa [Phase.restructure_of_ok hrun] at hreshapes

/-- The phases of a reshaping, with the runs between them. -/
structure InPhases (start simplified restructured after : Run) : Prop where
  simplify : Phase.simplify.run.run start = (.ok (), simplified)
  restructure : Phase.restructure.run.run simplified = (.ok (), restructured)
  annotate : Phase.annotate.run.run restructured = (.ok (), after)
  visits : ReflTransGen Reshapes simplified restructured

/-- A single map has given way to a reference that leads to the component for its value type, and
still does so in the end. -/
structure BoxedForGood (run next after : Run) (n : Nat) (name : String) : Prop where
  boxed : ∃ component, Boxed run next n name component ∧
    ∃ component', after.document.resolve (Pointer.toComponent name) = .ok component' ∧
      Node.identity component' = Node.identity component
  generated : name ∈ after.generated

/-- The registry of components only grows, and by the generated components. -/
structure KeepsRegistry (options : Options) (start after : Run) : Prop where
  mapped : after.Mapped
  enlarged : Enlarged start after
  /-- Every pointer to a component that resolved resolves to the same node still. -/
  resolves : ∀ ref name u, Pointer.tokens? ref = some (componentPath name) →
    start.document.resolve ref = .ok u →
      ∃ u', after.document.resolve ref = .ok u' ∧ Node.identity u' = Node.identity u
  /-- The second phase is one visit after the other, and wherever a single map gives way to a
  reference in one of them outside the exempted contexts, it does so for good. -/
  boxes : ∃ simplified restructured, InPhases start simplified restructured after ∧
    ∀ run next context location n, ReflTransGen Reshapes simplified run → IsSchema run n →
      (referSingleMap context location n).run run = (.ok true, next) →
      context.any options.inlineContexts.contains = false →
      ReflTransGen Reshapes ((reshapeSchema context location n).run run).2 restructured →
      ∃ name, BoxedForGood run next after n name

/-- A reshaping that comes to its end keeps the registry of components. -/
theorem phases_registry {τ : Type} (options : Options) {value : Tree τ}
    (hschemas : ∀ u, value.under? sectionKeys = some u → u.fields?.isSome = true) {after : Run}
    (hrun : allPhases.run (Run.start options (.ofValue value)) = (.ok (), after)) :
    KeepsRegistry options (Run.start options (.ofValue value)) after := by
  have hmapped := Run.start_mapped options hschemas
  have hsound := Run.start_sound options value
  obtain ⟨simplified, restructured, hsimplify, hrestructure, hannotate⟩ := allPhases_run_ok hrun
  have hsound₁ := Phase.sound_of_run hsound hsimplify
  have hsound₂ := Phase.sound_of_run hsound₁ hrestructure
  have hreshapes := reshapes_of_restructure hsound₁ hrestructure
  have hfirst : ReflTransGen Registers (Run.start options (.ofValue value)) simplified :=
    .single (registers_of_phase (by decide) hsound hmapped hsimplify)
  have hmapped₁ := mapped_of_registers hfirst hmapped
  have hsecond := registers_of_reshapes hreshapes hmapped₁
  have hthird : ReflTransGen Registers restructured after :=
    .single
      (registers_of_phase (by decide) hsound₂ (mapped_of_registers hsecond hmapped₁) hannotate)
  have hall := (hfirst.trans hsecond).trans hthird
  have hmapped' := mapped_of_registers hall hmapped
  have henlarged := enlarged_of_registers hall rfl
  have hphases : InPhases _ simplified restructured after :=
    ⟨hsimplify, hrestructure, hannotate, hreshapes⟩
  refine ⟨hmapped', henlarged, ?_, simplified, restructured, hphases, ?_⟩
  · intro ref name u htokens hresolve
    have hget := (hmapped.resolve_component htokens).2 ⟨u, hresolve, rfl⟩
    exact (hmapped'.resolve_component htokens).1 (get?_of_registers hall hget)
  · intro run next context location n hrun hn hrefer hexempt hrest
    have hbefore := hfirst.trans (registers_of_reshapes hrun hmapped₁)
    have hmappedRun := mapped_of_registers hbefore hmapped
    have hoptions : run.options = options := options_of_registers hbefore
    obtain ⟨name, component, hboxed⟩ :=
      exists_boxed hbefore rfl hmappedRun hn hrefer (hoptions ▸ hexempt)
    have hnext := ((referSingleMap_registers hmappedRun hn context location).of_ok hrefer).1
    have hmappedNext := mapped_of_registers hnext hmappedRun
    have hvisit := registers_after_refer hmappedRun hn hrefer
    have hlast := (hvisit.trans
      (registers_of_reshapes hrest (mapped_of_registers hvisit hmappedNext))).trans hthird
    obtain ⟨hresolves, target, hlookup⟩ := hboxed.stays hmappedNext hlast
    exact ⟨name, ⟨component, hboxed, hresolves⟩, (henlarged.exists_node_of_lookup hlookup).1⟩

/-- A single map whose value type has a name with the characters that pointers escape. -/
def escapedName : Value :=
  .ofEntries [("components", .ofEntries [("schemas", .ofEntries [
    ("a/b~1", .ofEntries [("type", .ofText "object")]),
    ("Tree", .ofEntries [("type", .ofText "object"), ("minProperties", .ofInt 1),
      ("maxProperties", .ofInt 1),
      ("additionalProperties", .ofEntries [("$ref", .ofText "#/components/schemas/a~1b~01")])])])])]

/-- The generated component is entered, and the pointer to it is read back as its name. -/
theorem phases_registry_escapedName :
    ∃ after, allPhases.run (Run.start .standard (.ofValue escapedName)) = (.ok (), after) ∧
      Enlarged (Run.start .standard (.ofValue escapedName)) after ∧
      after.generated = ["a/b~1SingleMap"] ∧
      (after.document.resolve "#/components/schemas/a~1b~01SingleMap").toOption.isSome = true := by
  have hmapping : ∀ u, escapedName.under? sectionKeys = some u → u.fields?.isSome = true := by
    intro u hu
    cases hu
    rfl
  have hok : (allPhases.run (Run.start .standard (.ofValue escapedName))).1.toOption.isSome = true ∧
      (allPhases.run (Run.start .standard (.ofValue escapedName))).2.generated =
        ["a/b~1SingleMap"] ∧
      ((allPhases.run (Run.start .standard (.ofValue escapedName))).2.document.resolve
        "#/components/schemas/a~1b~01SingleMap").toOption.isSome = true := by decide +kernel
  rcases hresult : allPhases.run (Run.start .standard (.ofValue escapedName)) with
    ⟨fault | done, after⟩
  · rw [hresult] at hok
    cases hok.1
  · rw [hresult] at hok
    exact ⟨after, rfl, (phases_registry .standard hmapping hresult).enlarged, hok.2⟩

end ProtoShape
