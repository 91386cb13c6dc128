import ProtoShape.Proofs.Reshape.Edits
import ProtoShape.Proofs.Reshape.Generation
import ProtoShape.Proofs.Rules.TextKeys

/-!
# Rules that decline

A rule tells whether it has changed anything.  A rule that declines, or that stops at a fault,
leaves the run as it was: the document, the order of its keys, the registry of generated components
and the schemas that carry a key.  Only diagnostics may have been added
(`Rule.unchanged_of_declines`).

Three rules write before their last check.

* `titledToProperty` makes the properties of a schema, and then declines if the title is taken.  In
  properties that it has just made no title is taken (`Edit.run_titledToProperty`).
* `markExclusive` marks a schema, and then stops if the name of a property is no text.  This is why
  the schema has to have text keys (`Edit.run_markExclusive`).
* `referSingleMap` makes the sections for its component, and then finds the name taken or the
  schemas unfit.  Sections that it has just made are empty mappings, where every name is free
  (`RiskyStep.schemas_cases`).

A program on the fields of a schema that has changed nothing writes them back, and in a sound run
this is no change (`Run.Sound.modifyNode_eq_self`).
-/

namespace ProtoShape

open Rules Tree

/-- The runs are the same, apart from diagnostics that have been added. -/
def Run.Unchanged (run after : Run) : Prop :=
  ∃ reported, after = { run with diagnostics := run.diagnostics ++ reported }

namespace Run.Unchanged

variable {run between after : Run}

theorem refl (run : Run) : run.Unchanged run := ⟨[], by rw [List.append_nil]⟩

theorem trans (h : run.Unchanged between) (h' : between.Unchanged after) : run.Unchanged after := by
  obtain ⟨first, rfl⟩ := h
  obtain ⟨second, rfl⟩ := h'
  exact ⟨first ++ second, by rw [List.append_assoc]⟩

end Run.Unchanged

/-- A program spares fields if it leaves them as they were unless it tells of a change. -/
def Edit.Spares (program : Edit Tag Bool) (fields : Fields Tag) : Prop :=
  (program.run fields).1 ≠ .ok true → (program.run fields).2 = fields

theorem Edit.spares_of_decided {program : Edit Tag Bool} {fields : Fields Tag}
    {fault? : Option Fault} {result? : Option (Fields Tag)}
    (h : program.run fields = decided fault? result? fields) : program.Spares fields := by
  unfold Edit.Spares
  rw [h]
  exact decided_eq_self

namespace RiskyStep

variable {α β : Type} {run : Run}

/-- Unless the step has a result of this kind, it leaves the run unchanged. -/
def Spares (x : RiskyStep α) (run : Run) (kind : α → Prop) : Prop :=
  ∀ result after, x.run run = (result, after) → (∀ a, result = .ok a → ¬kind a) →
    run.Unchanged after

section

variable {kind : α → Prop} {kind' : β → Prop}

theorem spares_pure (a : α) : Spares (pure a) run kind := by
  intro result after hrun _
  cases hrun
  exact .refl run

theorem spares_throw (fault : Fault) : Spares (throw fault : RiskyStep α) run kind := by
  intro result after hrun _
  cases hrun
  exact .refl run

theorem spares_get {f : Run → RiskyStep α} (h : Spares (f run) run kind) :
    Spares (get >>= f) run kind := h

/-- A step that always has a result of the kind may change what it likes. -/
theorem spares_of_kind {x : RiskyStep α} (h : ∃ a after, x.run run = (.ok a, after) ∧ kind a) :
    Spares x run kind := by
  obtain ⟨a, after, hx, hkind⟩ := h
  intro result after' hrun hnot
  cases hx.symm.trans hrun
  exact absurd hkind (hnot a rfl)

/-- Either the first step leaves the run unchanged and the second one counts, or what follows always
has a result of the kind. -/
theorem spares_bind_of_cases {x : RiskyStep α} {f : α → RiskyStep β}
    (hx : ∀ result between, x.run run = (result, between) → run.Unchanged between ∨
      ∃ a, result = .ok a ∧ ∃ b after, (f a).run between = (.ok b, after) ∧ kind' b)
    (hf : ∀ a between, x.run run = (.ok a, between) → Spares (f a) between kind') :
    Spares (x >>= f) run kind' := by
  intro result after hrun hnot
  rcases hfirst : x.run run with ⟨fault | a, between⟩
  · cases (run_bind_of_error hfirst).symm.trans hrun
    rcases hx _ _ hfirst with hbetween | ⟨a, hok, -⟩
    · exact hbetween
    · cases hok
  · rw [run_bind_of_ok hfirst] at hrun
    rcases hx _ _ hfirst with hbetween | ⟨_, hok, b, after', hrest, hkind⟩
    · exact hbetween.trans (hf a between hfirst result after hrun hnot)
    · cases hok
      cases hrest.symm.trans hrun
      exact absurd hkind (hnot b rfl)

/-- Where the first step leaves the run unchanged whatever its result is, the second one counts. -/
theorem spares_bind {x : RiskyStep α} {f : α → RiskyStep β}
    (hx : ∀ result between, x.run run = (result, between) → run.Unchanged between)
    (hf : ∀ a between, x.run run = (.ok a, between) → Spares (f a) between kind') :
    Spares (x >>= f) run kind' :=
  spares_bind_of_cases (fun result between hrun => Or.inl (hx result between hrun)) hf

/-- A step that only adds diagnostics leaves the run unchanged. -/
theorem spares_report_bind {diagnostic : Diagnostic} {f : Unit → RiskyStep β}
    (h : ∀ between, Spares (f ()) between kind') :
    Spares ((Step.report diagnostic : Step Unit) >>= f : RiskyStep β) run kind' := by
  refine spares_bind (fun result between hrun => ?_) fun _ between _ => h between
  cases hrun
  exact ⟨[diagnostic], rfl⟩

theorem run_lift {x : Step α} {a : α} {after : Run} (h : x run = (a, after)) :
    (liftM x : RiskyStep α).run run = (.ok a, after) :=
  congrArg (fun p : α × Run => (Except.ok p.1, p.2)) h

end

/-! ## Rules that decide first -/

theorem fieldsOf_cases (n : Nat) (run : Run) :
    (∃ fault, (fieldsOf n).run run = (.error fault, run)) ∨
      ∃ tag fields, run.node? n = some (.map tag fields) ∧
      (fieldsOf n).run run = (.ok fields, run) := by
  cases hnode : run.node? n with
  | none => exact Or.inl ⟨_, by rw [fieldsOf, run_get_bind, hnode]; rfl⟩
  | some u =>
      cases u with
      | map tag fields =>
          exact Or.inr ⟨tag, fields, rfl, by rw [fieldsOf, run_get_bind, hnode]; rfl⟩
      | _ => exact Or.inl ⟨_, by rw [fieldsOf, run_get_bind, hnode]; rfl⟩

theorem spares_fieldsOf_bind {kind : α → Prop} {n : Nat} {f : Fields Tag → RiskyStep α}
    (h : ∀ tag fields, run.node? n = some (.map tag fields) → Spares (f fields) run kind) :
    Spares (fieldsOf n >>= f) run kind := by
  rcases fieldsOf_cases n run with ⟨fault, hstop⟩ | ⟨tag, fields, hnode, hread⟩
  · refine spares_bind (fun _ _ hrun => ?_) fun _ _ hrun => ?_
    · cases hstop.symm.trans hrun
      exact .refl run
    · cases hstop.symm.trans hrun
  · refine spares_bind (fun _ _ hrun => ?_) fun _ _ hrun => ?_
    · cases hread.symm.trans hrun
      exact .refl run
    · cases hread.symm.trans hrun
      exact h tag fields hnode

/-- A program that spares the fields of a schema has nothing to write back there. -/
theorem spares_edit (hsound : run.Sound) {program : Edit Tag Bool} {n : Nat}
    (h : ∀ tag fields, run.node? n = some (.map tag fields) → program.Spares fields) :
    Spares (edit program n) run (· = true) := by
  refine spares_fieldsOf_bind fun tag fields hnode => ?_
  have hedit : ((do
      (Step.modifyFields n fun _ => (program.run fields).2 : Step Unit)
      ((program.run fields).1 : Except Fault Bool)) : RiskyStep Bool).run run =
    ((program.run fields).1, (Step.modifyFields n (fun _ => (program.run fields).2) run).2) := rfl
  intro result after hrun hdeclines
  cases hedit.symm.trans hrun
  rw [h tag fields hnode fun hchanged => hdeclines true hchanged rfl]
  have hsame : (Step.modifyFields n (fun _ => fields) run).2 = run := by
    refine hsound.modifyNode_eq_self fun u hu => ?_
    cases hnode.symm.trans hu
    rfl
  rw [hsame]
  exact .refl run

theorem unchanged_reports (diagnostics : List Diagnostic) (run : Run) :
    run.Unchanged ((diagnostics.forM Step.report : Step PUnit) run).2 := by
  induction diagnostics generalizing run with
  | nil => exact .refl run
  | cons diagnostic rest ih =>
      have hfirst : run.Unchanged (Step.report diagnostic run).2 := ⟨[diagnostic], rfl⟩
      exact hfirst.trans (ih _)

/-- The last rule of the first phase only adds diagnostics where it declines. -/
theorem spares_dropShorthandAt (location : Location) (n : Nat) (run : Run) :
    Spares (dropShorthandAt location n) run (· = true) := by
  unfold dropShorthandAt
  refine spares_get (spares_fieldsOf_bind fun tag fields _ => ?_)
  refine spares_bind (fun result between hrun => ?_) fun _ between _ => ?_
  · cases hrun
    exact unchanged_reports _ run
  · split
    · exact spares_throw _
    · exact spares_pure _
    · exact spares_of_kind ⟨true, _, rfl, rfl⟩

/-! ## The rule that makes sections -/

/-- A section is there, or it is made and empty. -/
theorem entryOrEmpty_cases (hsound : run.Sound) (keys : List String) {n : Nat}
    {fields : Fields Tag} {key : String} (hkeys : keys ++ [key] <+: sectionKeys)
    (hunder : run.document.under? keys = some (.map (some n) fields)) :
    (∃ value, fields.get? key = some value ∧ Step.entryOrEmpty n key run = (value, run)) ∨
      ∃ k after, Step.entryOrEmpty n key run = (.map (some k) ∅, after) ∧ after.Sound ∧
        after.document.under? (keys ++ [key]) = some (.map (some k) ∅) := by
  cases hget : fields.get? key with
  | some value =>
      have hholds := run.holds_document.below (mem_subtrees_of_under? hunder)
      exact Or.inl ⟨value, rfl, Step.entryOrEmpty_of_get? (hsound.node?_of_holds hholds rfl) hget⟩
  | none =>
      exact Or.inr ⟨run.next, _, Step.entryOrEmpty_of_absent hsound hunder hkeys hget,
        (Step.place_patch hsound hunder hkeys hget).sound hsound,
        Step.under?_placed hsound hunder hget⟩

/-- Looking up the schemas of the components leaves the run as it is, unless they are made.  Then
they are empty. -/
theorem schemas_cases (hsound : run.Sound) {result : Except Fault Node} {after : Run}
    (h : schemas.run run = (result, after)) : after = run ∨
    ∃ k, result = .ok (.map (some k) ∅) := by
  have hcomponents : [] ++ ["components"] <+: sectionKeys := by decide
  have hschemas : ["components"] ++ ["schemas"] <+: sectionKeys := by decide
  obtain ⟨root, -, hroot⟩ := hsound.exists_tag run.holds_document
  unfold schemas at h
  rw [run_get_bind] at h
  cases hdocument : run.document with
  | map tag fields =>
      obtain rfl : tag = some root := by rw [hdocument] at hroot; exact hroot
      rw [hdocument] at h
      simp only at h
      rcases entryOrEmpty_cases hsound [] hcomponents (congrArg some hdocument) with
        ⟨components, hget, hentry⟩ | ⟨n, between, hentry, hbetween, hunder⟩
      · rw [run_bind_of_ok (run_lift hentry)] at h
        split at h
        · rename_i n entries
          have hunder : run.document.under? ["components"] = some (.map (some n) entries) := by
            rw [hdocument, under?_map_cons, hget]
            rfl
          rcases entryOrEmpty_cases hsound ["components"] hschemas hunder with
            ⟨value, -, hentry⟩ | ⟨k, last, hentry, -⟩
          · cases (run_lift hentry).symm.trans h
            exact Or.inl rfl
          · cases (run_lift hentry).symm.trans h
            exact Or.inr ⟨k, rfl⟩
        · cases h
          exact Or.inl rfl
      · -- Nothing stands under components that have just been made.
        rw [run_bind_of_ok (run_lift hentry)] at h
        rcases entryOrEmpty_cases hbetween ["components"] hschemas hunder with
          ⟨value, hget, -⟩ | ⟨k, last, hentry, -⟩
        · cases hget
        · cases (run_lift hentry).symm.trans h
          exact Or.inr ⟨k, rfl⟩
  | _ =>
      rw [hdocument] at h
      cases h
      exact Or.inl rfl

theorem addComponent_cases (schemas : Node) (name : String) (component : Node) (run : Run) :
    (∃ fault, (addComponent schemas name component).run run = (.error fault, run)) ∨
      ∃ after, (addComponent schemas name component).run run = (.ok (), after) := by
  unfold addComponent
  split
  · exact Or.inr ⟨_, rfl⟩
  · exact Or.inl ⟨_, rfl⟩
  · exact Or.inl ⟨_, rfl⟩

/-- Without a component for a value type, the run is unchanged. -/
theorem spares_componentFor (hsound : run.Sound) (target : Identity) (ref : String)
    (keySchema : Option Node) (location : Location) :
    Spares (componentFor target ref keySchema location) run (·.isSome = true) := by
  unfold componentFor
  refine spares_get ?_
  cases run.valueComponents.lookup target with
  | some name => exact spares_pure _
  | none =>
      refine spares_bind_of_cases (fun result between hrun => ?_) fun schemas between _ => ?_
      · rcases schemas_cases hsound hrun with rfl | ⟨k, rfl⟩
        · exact Or.inl (.refl _)
        · -- Every name is free in an empty mapping, so the component is added.
          exact Or.inr ⟨_, rfl, _, _, rfl, rfl⟩
      · refine spares_bind (fun _ _ hrun => ?_) fun taken between' _ => ?_
        · cases hrun
          exact .refl between
        split
        · exact spares_report_bind fun _ => spares_pure _
        · rcases addComponent_cases schemas _ _ between' with ⟨fault, hstop⟩ | ⟨after, hadd⟩
          · refine spares_bind (fun _ _ hrun => ?_) fun _ _ hrun => ?_
            · cases hstop.symm.trans hrun
              exact .refl between'
            · cases hstop.symm.trans hrun
          · exact spares_of_kind ⟨_, _, run_bind_of_ok hadd, rfl⟩

/-- A single map that stays where it is leaves the run unchanged. -/
theorem spares_referSingleMap (hsound : run.Sound) (context : Option String)
    (location : Location) (n : Nat) :
    Spares (referSingleMap context location n) run (· = true) := by
  unfold referSingleMap
  refine spares_get ?_
  split
  · exact spares_pure _
  split
  · exact spares_pure _
  split
  · exact spares_pure _
  split
  · exact spares_pure _
  split
  · exact spares_report_bind fun _ => spares_pure _
  split
  · exact spares_of_kind ⟨true, _, rfl, rfl⟩
  · refine spares_bind_of_cases (fun result between hrun => ?_) fun found between _ => ?_
    · rcases result with fault | _ | name
      · exact Or.inl (spares_componentFor hsound _ _ _ _ _ between hrun fun _ hok => nomatch hok)
      · refine Or.inl (spares_componentFor hsound _ _ _ _ _ between hrun fun found hok => ?_)
        cases hok
        exact Bool.false_ne_true
      · exact Or.inr ⟨some name, rfl, true, _, rfl, rfl⟩
    · cases found with
      | none => exact spares_pure _
      | some name => exact spares_of_kind ⟨true, _, rfl, rfl⟩

end RiskyStep

/-- A rule that declines at a schema with text keys, or that stops at a fault there, leaves the run
unchanged, apart from the diagnostics that it adds. -/
theorem Rule.unchanged_of_declines {run after : Run} (hsound : run.Sound) (rule : Rule) (n : Nat)
    (hkeys : ∀ schema, run.node? n = some schema → schema.HasTextKeys)
    {result : Except Fault Bool} (hrun : (rule.step n).run run = (result, after))
    (hdeclines : result ≠ .ok true) : run.Unchanged after := by
  have hspares : RiskyStep.Spares (rule.step n) run (· = true) := by
    cases rule with
    | constsToEnum =>
        exact RiskyStep.spares_edit hsound fun _ _ _ => Edit.spares_of_decided Edit.run_constsToEnum
    | dropListCovered =>
        exact RiskyStep.spares_edit hsound fun _ _ _ =>
          Edit.spares_of_decided Edit.run_dropListCovered
    | unwrapComposites =>
        exact RiskyStep.spares_edit hsound fun _ _ _ =>
          Edit.spares_of_decided Edit.run_unwrapComposites
    | closeOpenMap =>
        exact RiskyStep.spares_edit hsound fun _ _ _ => Edit.spares_of_decided Edit.run_closeOpenMap
    | distinctEnum =>
        exact RiskyStep.spares_edit hsound fun _ _ _ => Edit.spares_of_decided Edit.run_distinctEnum
    | renameNull sentinel =>
        exact RiskyStep.spares_edit hsound fun _ _ _ =>
          Edit.spares_of_decided (Edit.run_renameNull sentinel)
    | dropShorthand location => exact RiskyStep.spares_dropShorthandAt location n run
    | referSingleMap context location =>
        exact RiskyStep.spares_fieldsOf_bind fun _ _ _ =>
          RiskyStep.spares_referSingleMap hsound context location n
    | titledToProperty =>
        exact RiskyStep.spares_edit hsound fun _ _ _ =>
          Edit.spares_of_decided Edit.run_titledToProperty
    | membersToProperties =>
        exact RiskyStep.spares_edit hsound fun _ _ _ =>
          Edit.spares_of_decided Edit.run_membersToProperties
    | markExclusive flags =>
        refine RiskyStep.spares_edit hsound fun tag fields hnode => ?_
        have hfault := exclusivityFault?_eq_none (hasTextKeys_map.1 (hkeys _ hnode))
        exact Edit.spares_of_decided (Edit.run_markExclusive flags hfault)
  refine hspares result after hrun fun changed hresult hchanged => hdeclines ?_
  rw [hresult, hchanged]

/-- A document with a single map `S` of a type whose component has a name that is taken. -/
def conflictDocument : Value :=
  .ofEntries [("components", .ofEntries [("schemas", .ofEntries [
    ("T", .ofEntries [("type", .ofText "string")]),
    ("TSingleMap", .ofEntries [("type", .ofText "object")]),
    ("S", .ofEntries [("type", .ofText "object"), ("minProperties", .ofInt 1),
      ("maxProperties", .ofInt 1),
      ("additionalProperties", .ofEntries [("$ref", .ofText "#/components/schemas/T")])])])])]

/-- The single map has the number seven.  It is left in place, and a diagnostic says why. -/
theorem Rule.unchanged_of_declines_conflict : ∃ after,
    (Rule.step 7 (.referSingleMap none .root)).run
      (Run.start .standard (.ofValue conflictDocument)) =
      (.ok false, after) ∧
    (Run.start .standard (.ofValue conflictDocument)).Unchanged after ∧
    after.diagnostics.map Diagnostic.code = ["naming_conflict"] := by
  have hresult : ((Rule.step 7 (.referSingleMap none .root)).run
      (Run.start .standard (.ofValue conflictDocument))).1 = .ok false ∧
    ((Rule.step 7 (.referSingleMap none .root)).run
      (Run.start .standard (.ofValue conflictDocument))).2.diagnostics.map Diagnostic.code =
        ["naming_conflict"] := by decide +kernel
  rcases hrun : (Rule.step 7 (.referSingleMap none .root)).run
    (Run.start .standard (.ofValue conflictDocument)) with ⟨result, after⟩
  rw [hrun] at hresult
  obtain ⟨rfl, hcodes⟩ := hresult
  have hkeys : ∀ schema ∈ (Run.start .standard (.ofValue conflictDocument)).node? 7,
      schema.HasTextKeys := by decide +kernel
  have hunchanged := Rule.unchanged_of_declines (Run.start_sound _ _) (.referSingleMap none .root) 7
    hkeys hrun nofun
  exact ⟨after, rfl, hunchanged, hcodes⟩

end ProtoShape
