import ProtoShape.Proofs.Reshape.Reports
import ProtoShape.Proofs.Reshape.Total

/-!
# A reshaping gives a JSON document

What updates keep of the keys of a mapping (`KeptByUpdates`) holds of every mapping of a run after
a phase where it holds of every mapping before (`Phase.run_everywhere`).  In particular no phase
brings in a key twice: from a JSON document a reshaping makes a JSON document
(`reshape_isJson`).

The first and the third phase replace schemas only, and `replaces_unspoilt` says it of them.  In
the second phase there is one lemma for each step.  What a step puts in is made by a rule or stood
in the run before: a wrapper holds a member or a value type, and a generated component a copy of the
schema of the property names.
-/

namespace ProtoShape

open Rules Tree Relation

variable {p : Fields Tag → Prop} {run after : Run}

/-- A property holds of every mapping of the document and of the schema aside. -/
structure Run.Everywhere (p : Fields Tag → Prop) (run : Run) : Prop where
  document : run.document.Everywhere p
  aside : run.aside.Everywhere p

namespace Run.Everywhere

variable {n : Nat}

theorem holds (h : run.Everywhere p) {u : Node} (hu : run.Holds u) : u.Everywhere p :=
  hu.elim h.document.of_mem_subtrees h.aside.of_mem_subtrees

theorem modifyNode (hp : KeptByUpdates p) (h : run.Everywhere p) {f : Node → Node}
    (hf : ∀ u, u.Everywhere p → (f u).Everywhere p) : (run.modifyNode n f).Everywhere p where
  document := everywhere_number hp (everywhere_modify hp (fun u _ _ => hf u) h.document) _
  aside := everywhere_number hp (everywhere_modify hp (fun u _ _ => hf u) h.aside) _

end Run.Everywhere

theorem everywhere_onFields {f : Fields Tag → Fields Tag}
    (hf : ∀ fields, Fields.Everywhere p fields → Fields.Everywhere p (f fields)) {u : Node}
    (h : u.Everywhere p) : (onFields f u).Everywhere p := by
  cases u with
  | map tag fields => exact everywhere_map_iff.2 (hf fields (everywhere_map_iff.1 h))
  | _ => exact h

theorem everywhere_onItems {f : List Node → List Node}
    (hf : ∀ items, (∀ item ∈ items, item.Everywhere p) → ∀ item ∈ f items, item.Everywhere p)
    {u : Node} (h : u.Everywhere p) : (onItems f u).Everywhere p := by
  cases u with
  | list tag items => exact (everywhere_list _ _).2 (hf items ((everywhere_list tag items).1 h))
  | _ => exact h

/-! ## The second phase -/

/-- What holds of every mapping before holds of every mapping afterwards. -/
def KeepsEverywhere (p : Fields Tag → Prop) (run after : Run) : Prop := run.Everywhere p →
    after.Everywhere p

theorem everywhere_of_steps (h : ReflTransGen (KeepsEverywhere p) run after) :
    KeepsEverywhere p run after := by
  induction h with
  | refl => exact id
  | tail _ hlast ih => exact fun hrun => hlast (ih hrun)

section Steps

variable (hp : KeptByUpdates p) {n : Nat}
include hp

theorem Gift.everywhere {before : IdentitySet} (h : Gift before run after) :
    KeepsEverywhere p run after := by
  intro hrun
  -- To remember a schema changes no mapping.
  have hmarked : ∀ schema, (Step.marked run schema).Everywhere p :=
    fun _ => ⟨hrun.document, hrun.aside⟩
  cases h with
  | reported => exact ⟨hrun.document, hrun.aside⟩
  | parted =>
      exact (hmarked _).modifyNode hp fun _ => everywhere_onItems fun _ => everywhere_parted hp _
  | keyed =>
      exact (hmarked _).modifyNode hp fun _ => everywhere_onFields fun _ hfields =>
        hfields.insert hp _ (everywhere_map_iff.2 (everywhere_typed hp "string"))
  | kept => exact hmarked _
  | passed => exact hmarked _
  | wrapped wrap =>
      exact hrun.modifyNode hp fun _ => everywhere_onItems fun _ => everywhere_wrapAt hp _ wrap

namespace Step

omit hp in
theorem report_everywhere (diagnostic : Diagnostic) :
    Leads (KeepsEverywhere p) (report diagnostic) run fun _ _ => True :=
  leads_modify (fun hrun => ⟨hrun.document, hrun.aside⟩) trivial

theorem modifyFields_everywhere {f : Fields Tag → Fields Tag}
    (hf : ∀ fields, Fields.Everywhere p fields → Fields.Everywhere p (f fields)) :
    Leads (KeepsEverywhere p) (modifyFields n f) run fun _ _ => True :=
  leads_modify (fun hrun => hrun.modifyNode hp fun _ => everywhere_onFields hf) trivial

theorem entryOrEmpty_everywhere (key : String) :
    Leads (KeepsEverywhere p) (entryOrEmpty n key) run fun _ _ => True := by
  unfold entryOrEmpty
  refine leads_bind (Q := fun _ _ => True) ⟨.refl, trivial⟩ fun found _ _ _ => ?_
  split
  · exact leads_pure trivial
  · refine leads_bind (modifyFields_everywhere hp fun fields hfields => ?_) fun _ _ _ _ =>
      ⟨.refl, trivial⟩
    exact hfields.insert hp key (everywhere_map_iff.2 (.empty hp))

theorem apply_everywhere {rule : Fields Tag → Option (Fields Tag)}
    (hrule : ∀ fields result, Fields.Everywhere p fields → rule fields = some result →
      Fields.Everywhere p result) :
    Leads (KeepsEverywhere p) (apply rule n) run fun _ _ => True := by
  unfold apply
  refine leads_bind (Q := fun found after => after = run ∧ found = (run.node? n).bind Tree.fields?)
    ⟨.refl, rfl, rfl⟩ fun found after _ hfound => ?_
  obtain ⟨rfl, rfl⟩ := hfound
  split
  · rename_i result hresult
    obtain ⟨fields, hfields, hof⟩ := Option.bind_eq_some_iff.1 hresult
    obtain ⟨u, hnode, hu⟩ := Option.bind_eq_some_iff.1 hfields
    refine leads_bind (leads_modify (Q := fun _ _ => True) (fun hrun => ?_) trivial) fun _ _ _ _ =>
      leads_pure trivial
    have hheld := hrun.holds (Run.node?_holds hnode).1
    cases u with
    | map tag inner =>
        cases hu
        have hgood := hrule _ result (everywhere_map_iff.1 hheld) hof
        exact hrun.modifyNode hp fun _ => everywhere_onFields fun _ _ => hgood
    | _ => cases hu
  · exact leads_pure trivial

theorem giveKey_everywhere (hsound : run.Sound) (n : Nat) (location : Location) :
    Leads (KeepsEverywhere p) (giveKey n location) run fun _ _ => True :=
  have hgifts := (giveKey_giving n location hsound).gifts hsound (fun _ hin => hin) trivial
  ⟨hgifts.lift id fun _ _ hgift => hgift.everywhere hp, trivial⟩

theorem inlineSingleMap_everywhere (hsound : run.Sound) {additional : Node}
    (hadditional : additional.Everywhere p) (location : Location) :
    Leads (KeepsEverywhere p) (inlineSingleMap n additional location) run fun _ _ => True := by
  have hmodify : ∀ (wrapped : Option String) {run : Run},
      Leads (KeepsEverywhere p) (modifyFields n (inlined additional wrapped)) run
        fun _ _ => True := by
    intro wrapped run
    refine modifyFields_everywhere hp fun fields hfields => ?_
    have hrest := hfields.eraseAll hp mapKeywords
    unfold inlined
    split
    · exact hrest.overlay hp (everywhere_wrapperOf hp _ hadditional)
    · split
      · exact hrest.insert hp "$ref" (everywhere_ofText _)
      · exact hrest
  unfold inlineSingleMap
  refine leads_get ?_
  cases additional.tag with
  | none => exact hmodify none
  | some target =>
      simp only
      split
      · exact leads_bind (giveKey_everywhere hp hsound target _) fun wrapped _ _ _ =>
          hmodify wrapped
      · exact hmodify none

end Step

namespace RiskyStep

open Step (report_everywhere modifyFields_everywhere entryOrEmpty_everywhere apply_everywhere
  inlineSingleMap_everywhere)

theorem schemas_everywhere : Leads (KeepsEverywhere p) schemas run fun _ _ => True := by
  unfold schemas
  refine leads_get ?_
  split
  · refine leads_bind (leads_lift (entryOrEmpty_everywhere hp _)) fun components _ _ _ => ?_
    split
    · exact leads_lift (entryOrEmpty_everywhere hp _)
    · exact leads_throw
  · exact leads_throw

theorem addComponent_everywhere (schemas : Node) (name : String) {component : Node}
    (hcomponent : component.Everywhere p) :
    Leads (KeepsEverywhere p) (addComponent schemas name component) run fun _ _ => True := by
  unfold addComponent
  split
  · exact leads_lift (modifyFields_everywhere hp fun _ hfields => hfields.insert hp name hcomponent)
  · exact leads_throw
  · exact leads_throw

theorem componentFor_everywhere (target : Identity) (ref : String) {keySchema : Option Node}
    (hkeys : ∀ schema, keySchema = some schema → schema.Everywhere p) (location : Location) :
    Leads (KeepsEverywhere p) (componentFor target ref keySchema location) run fun _ _ => True := by
  unfold componentFor
  refine leads_get ?_
  split
  · exact leads_pure trivial
  · refine leads_bind (schemas_everywhere hp) fun schemas _ _ _ => ?_
    refine leads_bind (leads_except (Q := fun _ _ => True) fun _ _ => trivial) fun taken _ _ _ => ?_
    split
    · exact leads_bind (leads_lift (report_everywhere _)) fun _ _ _ _ => leads_pure trivial
    · refine leads_bind (addComponent_everywhere hp _ _ (everywhere_component hp _ _ _ hkeys))
        fun _ _ _ _ => ?_
      exact leads_bind (leads_lift (Step.leads_modify (Q := fun _ _ => True)
        (fun hrun => ⟨hrun.document, hrun.aside⟩) trivial)) fun _ _ _ _ => leads_pure trivial

theorem referSingleMap_everywhere (hsound : run.Sound) (hrun : run.Everywhere p)
    (context : Option String) (location : Location) :
    Leads (KeepsEverywhere p) (referSingleMap context location n) run fun _ _ => True := by
  unfold referSingleMap
  refine leads_get ?_
  split
  · exact leads_pure trivial
  rename_i fields hfields
  have hgood : fields.Everywhere p := by
    obtain ⟨u, hnode, hu⟩ := Option.bind_eq_some_iff.1 hfields
    have hheld := hrun.holds (Run.node?_holds hnode).1
    cases u with
    | map tag inner =>
        cases hu
        exact everywhere_map_iff.1 hheld
    | _ => cases hu
  split
  · exact leads_pure trivial
  rename_i additional hadditional
  split
  · exact leads_pure trivial
  split
  · exact leads_pure trivial
  split
  · exact leads_bind (leads_lift (report_everywhere _)) fun _ _ _ _ => leads_pure trivial
  split
  · exact leads_bind (leads_lift (inlineSingleMap_everywhere hp hsound (hgood.get? hadditional) _))
      fun _ _ _ _ => leads_pure trivial
  · refine leads_bind (componentFor_everywhere hp _ _ (fun _ hschema => hgood.get? hschema) _)
      fun found _ _ _ => ?_
    split
    · exact leads_pure trivial
    · exact leads_bind (leads_lift (modifyFields_everywhere hp fun _ hfields =>
        (hfields.eraseAll hp _).insert hp "$ref" (everywhere_ofText _))) fun _ _ _ _ =>
          leads_pure trivial

theorem reshapeSchema_everywhere (hsound : run.Sound) (hrun : run.Everywhere p)
    (context : Option String) (location : Location) :
    Leads (KeepsEverywhere p) (reshapeSchema context location n) run fun _ _ => True :=
  leads_bind (referSingleMap_everywhere hp hsound hrun context location) fun _ _ _ _ =>
    leads_bind (leads_lift (apply_everywhere hp fun _ _ hfields hresult =>
      (movesTitled_of_eq_some hresult).everywhere hp hfields)) fun _ _ _ _ =>
    leads_bind (leads_lift (apply_everywhere hp fun _ _ hfields hresult =>
      (mergesMembers_of_eq_some hresult).everywhere hp hfields)) fun _ _ _ _ => leads_pure trivial

end RiskyStep

theorem everywhere_of_reshapes (h : ReflTransGen Reshapes run after) :
    KeepsEverywhere p run after := by
  intro hrun
  induction h with
  | refl => exact hrun
  | tail _ hlast ih =>
      cases hlast with
      | visit context location hn =>
          exact everywhere_of_steps
            (RiskyStep.reshapeSchema_everywhere hp hn.sound ih context location).1 ih

/-! ## All phases -/

/-- A phase keeps what updates keep, also where it stops at a fault. -/
theorem Phase.run_everywhere (phase : Phase) (hsound : run.Sound) (hrun : run.Everywhere p) :
    (phase.run.run run).2.Everywhere p := by
  cases hfault : run.document.mappingFault? with
  | some fault =>
      rw [phase.run_not_mapping hfault]
      exact hrun
  | none =>
      cases phase with
      | simplify =>
          rw [Phase.run_simplify (Tree.mappingFault?_eq_none_iff.1 hfault)]
          rcases (cleanUp_total hp run.options hrun.document run.diagnostics).cases with
            ⟨document, log, hclean, -, hdocument⟩ | ⟨fault, log, hclean, -, -⟩
          · rw [hclean]
            exact ⟨everywhere_number hp hdocument.kept _, everywhere_number hp hrun.aside _⟩
          · rw [hclean]
            exact ⟨hrun.document, hrun.aside⟩
      | restructure =>
          rw [Phase.run_restructure hfault]
          exact everywhere_of_reshapes hp (reshapeMaps_reshapes hsound) hrun
      | annotate =>
          obtain ⟨document, hmark, hdocument⟩ := markGroups_total hp run.options hrun.document
          rw [Phase.run_annotate hfault, hmark]
          exact ⟨everywhere_number hp hdocument.kept _, everywhere_number hp hrun.aside _⟩

theorem Phase.everywhere_of_run {phase : Phase} {result : Except Fault Unit} (hsound : run.Sound)
    (hphase : phase.run.run run = (result, after)) : KeepsEverywhere p run after := by
  intro hrun
  have hafter := phase.run_everywhere hp hsound hrun
  rwa [hphase] at hafter

end Steps

/-- A run over a JSON document starts with one. -/
theorem Run.start_isJson {τ : Type} (options : Options) {value : Tree τ} (h : value.IsJson) :
    (Run.start options (.ofValue value)).Everywhere Entries.IsObject where
  document := everywhere_number keptByUpdates_isObject ((isJson_mapTags _).2 h) _
  aside := everywhere_number keptByUpdates_isObject
    (show (default : Node).Everywhere Entries.IsObject from everywhere_scalar _ _) _

/-- A reshaping makes a JSON document from a JSON document. -/
theorem reshape_isJson {τ : Type} (options : Options) {value : Tree τ} (h : value.IsJson)
    {reshaped : Reshaped}
    (hreshape : reshape options (.ofValue value) = .ok reshaped) : reshaped.document.IsJson := by
  have hp := keptByUpdates_isObject (τ := Tag)
  have hsound := Run.start_sound options value
  unfold reshape at hreshape
  split at hreshape
  · rcases hrun : allPhases.run (Run.start options (.ofValue value)) with ⟨fault | done, last⟩
    · rw [hrun] at hreshape
      cases hreshape
    · rw [hrun] at hreshape
      cases hreshape
      obtain ⟨simplified, restructured, hsimplify, hrestructure, hannotate⟩ := allPhases_run_ok hrun
      have hsound' := Phase.sound_of_run hsound hsimplify
      have hfirst := Phase.everywhere_of_run hp hsound hsimplify (Run.start_isJson options h)
      have hsecond := Phase.everywhere_of_run hp hsound' hrestructure hfirst
      have hsound'' := Phase.sound_of_run hsound' hrestructure
      exact (Phase.everywhere_of_run hp hsound'' hannotate hsecond).document
  · cases hreshape

end ProtoShape
