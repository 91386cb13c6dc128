import ProtoShape.Proofs.Reshape.Registered

/-!
# What is reported

The second phase only adds to the diagnostics of a run (`Reshapes.records`), so what has
been recorded at a visit is there at the end.

`Looked` says what the rule for single maps makes of the schema that it comes to.  A single
map whose value type is a reference gives way, or the reason why it stays is recorded at its
own location (`referSingleMap_looked`).  The rules that follow in the same visit take the
value type away or leave it alone.  So a visit leaves behind such a single map without a
report in one case only, which is that the schema was none before and has become one with
the members of its union (`reshapeSchema_leaves`, `restructure_reports`).
-/

namespace ProtoShape

open Rules Tree Relation

/-! ## Records -/

/-- Diagnostics are only added. -/
def Records (run after : Run) : Prop := run.diagnostics <+: after.diagnostics

/-- The reason why a single map stays inline has been recorded at its location. -/
def Reported (run : Run) (location : Location) : Prop :=
  ∃ diagnostic ∈ run.diagnostics, diagnostic.location = location.render ∧
    diagnostic.code ∈ ["unresolved_reference", "naming_conflict"]

section

variable {run after : Run}

theorem Records.of_eq (h : after.diagnostics = run.diagnostics) : Records run after :=
  ⟨[], (List.append_nil _).trans h.symm⟩

theorem Records.of_steps (h : ReflTransGen Records run after) : Records run after := by
  induction h with
  | refl => exact .of_eq rfl
  | tail _ hlast ih => exact List.IsPrefix.trans ih hlast

theorem Reported.stays {location : Location} (h : Reported run location)
    (hrecords : Records run after) :
    Reported after location := by
  obtain ⟨diagnostic, hin, hreason⟩ := h
  exact ⟨diagnostic, hrecords.subset hin, hreason⟩

theorem Gift.records {before : IdentitySet} (h : Gift before run after) : Records run after := by
  cases h with
  | reported diagnostic => exact List.prefix_append _ _
  | _ => exact .of_eq rfl

end

/-! ## Value types -/

section

variable {τ σ : Type}

/-- The reference to the value type of a map. -/
def valueRef? (fields : Fields τ) : Option String :=
  (fields.get? "additionalProperties").bind Tree.ref?

/-- A single map whose value type is a reference. -/
def mapsToReference (fields : Fields τ) : Bool := isSingleMap fields && (valueRef? fields).isSome

theorem valueRef?_mapTags (f : τ → σ) (fields : Fields τ) :
    valueRef? (Fields.mapTags f fields) = valueRef? fields := by
  rw [valueRef?, Fields.get?_mapTags, Option.bind_map]
  exact congrArg (fields.get? "additionalProperties").bind (funext (Tree.ref?_mapTags f))

theorem valueRef?_congr {tag tag' : τ} {fields fields' : Fields τ}
    (h : (Tree.map tag fields).erase = (Tree.map tag' fields').erase) :
    valueRef? fields = valueRef? fields' := by
  rw [erase_map, erase_map] at h
  rw [← valueRef?_mapTags (fun _ => ()) fields, (Tree.map.inj h).2, valueRef?_mapTags]

theorem mapsToReference_of_valueRef? {fields : Fields τ} (h : valueRef? fields = none) :
    mapsToReference fields = false := by
  rw [mapsToReference, h]
  exact Bool.and_false _

end

section

variable {fields result : Fields Tag}

theorem valueRef?_eraseAll (fields : Fields Tag) {keywords : List String}
    (h : "additionalProperties" ∈ keywords) :
    valueRef? (fields.eraseAll keywords) = none := by
  rw [valueRef?, Entries.get?_eraseAll, if_pos h]
  rfl

theorem valueRef?_insert {key : String} (h : "additionalProperties" ≠ key) (fields : Fields Tag)
    (value : Node) :
    valueRef? (fields.insert key value) = valueRef? fields := by
  rw [valueRef?, get?_insert_of_ne h, valueRef?]

theorem valueRef?_erase {key : String} (h : "additionalProperties" ≠ key) (fields : Fields Tag) :
    valueRef? (fields.erase key) = valueRef? fields := by
  rw [valueRef?, Entries.get?_erase, if_neg (by simpa using h), valueRef?]

/-- What a single map gives way to in an exempted context. -/
def inlined (additional : Node) (wrapped : Option String) (fields : Fields Tag) : Fields Tag :=
  match wrapped with
  | some key => (fields.eraseAll mapKeywords).overlay (wrapperOf key additional)
  | none =>
      match additional.ref? with
      | some ref => (fields.eraseAll mapKeywords).insert "$ref" (.ofText ref)
      | none => fields.eraseAll mapKeywords

theorem valueRef?_inlined (additional : Node) (wrapped : Option String) (fields : Fields Tag) :
    valueRef? (inlined additional wrapped fields) = none := by
  unfold inlined
  split
  · rw [valueRef?, get?_wrapped, get?_wrapperOf]
    rfl
  · split
    · rw [valueRef?_insert (by decide)]
      exact valueRef?_eraseAll fields (by decide)
    · exact valueRef?_eraseAll fields (by decide)

theorem valueRef?_of_movesTitled (h : MovesTitled fields result) : valueRef? result = none := by
  cases h with
  | moved => exact valueRef?_eraseAll _ (by decide)

/-- The members of a union say nothing about the value type. -/
theorem valueRef?_of_mergesMembers (h : MergesMembers fields result) :
    valueRef? result = valueRef? fields := by
  cases h with
  | merged =>
      rw [valueRef?_erase (by decide), valueRef?_insert (by decide), valueRef?_insert (by decide),
        valueRef?_insert (by decide), valueRef?_erase (by decide)]

/-- After the fields of a node have been replaced, the node has the value type that they have. -/
theorem valueRef?_of_node? {run : Run} {n : Nat} (h : run.Sound) {f : Fields Tag → Fields Tag}
    (hafter : (run.modifyNode n (onFields f)).Sound) {tag tag' : Tag} {now : Fields Tag}
    (hnode : run.node? n = some (.map tag fields))
    (hnow : (run.modifyNode n (onFields f)).node? n = some (.map tag' now)) :
    valueRef? now = valueRef? (f fields) := by
  obtain ⟨k, hk⟩ := h.exists_node?_image hafter hnode (Run.node?_holds hnode).2
  have herase : (Tree.map tag' now).erase = (Tree.map tag (f fields)).erase := by
    rw [Option.some.inj (hnow.symm.trans hk)]
    exact (Node.number_numbers _ k).erase
  exact valueRef?_congr herase

end

/-! ## Steps -/

namespace Step

variable {run : Run} {n : Nat}

theorem modify_records {f : Run → Run} (h : (f run).diagnostics = run.diagnostics) :
    Leads Records (modify f) run fun _ after => after = f run := leads_modify (.of_eq h) rfl

theorem report_records (diagnostic : Diagnostic) :
    Leads Records (report diagnostic) run fun _ after => diagnostic ∈ after.diagnostics :=
  leads_modify (List.prefix_append _ _) (List.mem_append_right _ (List.mem_singleton_self _))

theorem modifyFields_records (n : Nat) (f : Fields Tag → Fields Tag) :
    Leads Records (modifyFields n f) run fun _ after => after = run.modifyNode n (onFields f) :=
  modify_records rfl

theorem giveKey_records (hsound : run.Sound) (n : Nat) (location : Location) :
    Leads Records (giveKey n location) run fun _ _ => True :=
  have hgifts := (giveKey_giving n location hsound).gifts hsound (fun _ hin => hin) trivial
  ⟨hgifts.lift id fun _ _ hgift => hgift.records, trivial⟩

theorem entryOrEmpty_records (key : String) :
    Leads Records (entryOrEmpty n key) run fun _ _ => True := by
  unfold entryOrEmpty
  refine leads_bind (Q := fun _ _ => True) ⟨.refl, trivial⟩ fun found _ _ _ => ?_
  split
  · exact leads_pure trivial
  · exact leads_bind (modifyFields_records _ _) fun _ _ _ _ => ⟨.refl, trivial⟩

/-- What a rule makes of a schema, if it makes anything of it. -/
theorem apply_records (rule : Fields Tag → Option (Fields Tag)) :
    Leads Records (apply rule n) run fun _ after => after = run ∨ ∃ tag fields result,
      run.node? n = some (.map tag fields) ∧ rule fields = some result ∧
        after = run.modifyNode n (onFields fun _ => result) := by
  unfold apply
  refine leads_bind (Q := fun found after => run = after ∧ found = (run.node? n).bind Tree.fields?)
    ⟨.refl, rfl, rfl⟩ ?_
  rintro _ _ - ⟨rfl, rfl⟩
  split
  · rename_i result hresult
    obtain ⟨fields, hfields, hrule⟩ := Option.bind_eq_some_iff.1 hresult
    obtain ⟨u, hu, huf⟩ := Option.bind_eq_some_iff.1 hfields
    refine leads_bind (modifyFields_records _ _) fun _ after _ hafter => leads_pure (Or.inr ?_)
    cases u with
    | map tag inner =>
        cases huf
        exact ⟨tag, fields, result, hu, hrule, hafter⟩
    | _ => cases huf
  · exact leads_pure (Or.inl rfl)

theorem inlineSingleMap_records (hsound : run.Sound) (additional : Node) (location : Location) :
    Leads Records (inlineSingleMap n additional location) run fun _ after =>
      ∃ made wrapped, ReflTransGen Patch run made ∧
        after = made.modifyNode n (onFields (inlined additional wrapped)) := by
  have hgives : ∀ {made : Run} (wrapped : Option String), ReflTransGen Patch run made →
      Leads Records (modifyFields n (inlined additional wrapped)) made fun _ after =>
        ∃ made wrapped, ReflTransGen Patch run made ∧
          after = made.modifyNode n (onFields (inlined additional wrapped)) :=
            fun wrapped hpatches =>
    (modifyFields_records n _).mono fun _ _ hafter => ⟨_, wrapped, hpatches, hafter⟩
  unfold inlineSingleMap
  refine leads_get ?_
  cases additional.tag with
  | none => exact hgives none .refl
  | some target =>
      simp only
      split
      · refine leads_bind ((giveKey_records hsound target _).and (giveKey_leads target _ hsound))
          fun wrapped made _ hgiven => ?_
        exact hgives wrapped hgiven.2.1
      · exact hgives none .refl

end Step

/-- What the rule for single maps leaves behind: a schema of another kind as it was, a report,
or a schema that has no value type any more. -/
inductive Looked (run : Run) (n : Nat) (location : Location) : Run → Prop where
  | passed : (∀ tag fields, run.node? n = some (.map tag fields) → mapsToReference fields = false) →
      Looked run n location run
  | reported {after} : Reported after location → Looked run n location after
  | gave {made : Run} {tag fields f} : made.Sound → made.node? n = some (.map tag fields) →
      valueRef? (f fields) = none → Looked run n location (made.modifyNode n (onFields f))

namespace RiskyStep

open Step (modify_records report_records modifyFields_records entryOrEmpty_records
    inlineSingleMap_records
  apply_records)

variable {run : Run} {n : Nat}

theorem schemas_records : Leads Records schemas run fun _ _ => True := by
  unfold schemas
  refine leads_get ?_
  split
  · refine leads_bind (leads_lift (entryOrEmpty_records _)) fun components _ _ _ => ?_
    split
    · exact leads_lift (entryOrEmpty_records _)
    · exact leads_throw
  · exact leads_throw

theorem addComponent_records (schemas : Node) (name : String) (component : Node) :
    Leads Records (addComponent schemas name component) run fun _ _ => True := by
  unfold addComponent
  split
  · exact (leads_lift (modifyFields_records _ _)).mono fun _ _ _ => trivial
  · exact leads_throw
  · exact leads_throw

/-- Where there is no component for a value type, the reason is recorded. -/
theorem componentFor_records (target : Identity) (ref : String) (keySchema : Option Node)
    (location : Location) :
    Leads Records (componentFor target ref keySchema location) run fun found after =>
      found = none → Reported after location := by
  unfold componentFor
  refine leads_get ?_
  split
  · exact leads_pure (by rintro ⟨⟩)
  · refine leads_bind schemas_records fun schemas _ _ _ => ?_
    refine leads_bind (leads_except (Q := fun _ _ => True) fun _ _ => trivial) fun taken _ _ _ => ?_
    split
    · refine leads_bind (leads_lift (report_records _)) fun _ after _ hin => leads_pure fun _ => ?_
      exact ⟨_, hin, rfl, by simp [Location.diagnostic]⟩
    · refine leads_bind (addComponent_records _ _ _) fun _ _ _ _ => ?_
      exact leads_bind (leads_lift (modify_records rfl)) fun _ _ _ _ => leads_pure (by rintro ⟨⟩)

theorem referSingleMap_looked (hsound : run.Sound) (context : Option String) (location : Location) :
    Leads Records (referSingleMap context location n) run fun _ after =>
      Looked run n location after := by
  unfold referSingleMap
  refine leads_get ?_
  split
  · rename_i hfields
    refine leads_pure (.passed fun tag fields hnode => ?_)
    rw [hnode] at hfields
    cases hfields
  · rename_i fields hfields
    obtain ⟨u, hnode, huf⟩ := Option.bind_eq_some_iff.1 hfields
    cases u with
    | map tag inner =>
        cases huf
        -- What the rule reads are the fields of the schema.
        have hpassed : mapsToReference fields = false → Looked run n location run := fun hother =>
          .passed fun tag' fields' hnode' => by
            cases Option.some.inj (hnode.symm.trans hnode')
            exact hother
        have hgave : ∀ {made : Run} {f : Fields Tag → Fields Tag}, ReflTransGen Patch run made →
            (∀ fields, valueRef? (f fields) = none) →
            Looked run n location (made.modifyNode n (onFields f)) := by
          intro made f hpatches hf
          obtain ⟨v, hv, hgrown⟩ := exists_grown_of_patches hpatches hsound hnode
          have hmapping := hgrown.mapping rfl
          cases v with
          | map tag' fields' => exact .gave (sound_of_patches hpatches hsound) hv (hf fields')
          | _ => cases hmapping
        split
        · rename_i hnone
          exact leads_pure (hpassed (mapsToReference_of_valueRef? (by rw [valueRef?, hnone]; rfl)))
        · rename_i additional hget
          split
          · rename_i hnone
            exact leads_pure
              (hpassed (mapsToReference_of_valueRef? (by rw [valueRef?, hget]; exact hnone)))
          · split
            · rename_i hother
              have hsingle : isSingleMap fields = false := by simpa using hother
              exact leads_pure (hpassed (by rw [mapsToReference, hsingle, Bool.false_and]))
            · split
              · refine leads_bind (leads_lift (report_records _)) fun _ after _ hin =>
                  leads_pure (.reported ?_)
                exact ⟨_, hin, rfl, by simp [Location.diagnostic]⟩
              · split
                · refine leads_bind (leads_lift (inlineSingleMap_records hsound _ _))
                    fun _ after _ hafter =>
                    leads_pure ?_
                  obtain ⟨made, wrapped, hpatches, rfl⟩ := hafter
                  exact hgave hpatches (valueRef?_inlined additional wrapped)
                · refine leads_bind
                    ((componentFor_records _ _ _ _).and (componentFor_leads hsound _ _ _ _))
                    fun found made _ hfound => ?_
                  obtain ⟨hreports, hpatches, -⟩ := hfound
                  split
                  · exact leads_pure (.reported (hreports rfl))
                  · refine leads_bind (leads_lift (modifyFields_records n _))
                      fun _ after _ hafter => leads_pure ?_
                    rw [hafter]
                    refine hgave hpatches fun fields => ?_
                    rw [valueRef?_insert (by decide)]
                    exact valueRef?_eraseAll fields (by decide)
    | _ => cases huf

theorem rewrites_records : Leads Records (do
    let _ ← (Step.apply titledToProperty n : Step Bool)
    let _ ← (Step.apply membersToProperties n : Step Bool)) run fun _ _ => True :=
  leads_bind (leads_lift (apply_records _)) fun _ _ _ _ =>
    leads_bind (leads_lift (apply_records _)) fun _ _ _ _ => leads_pure trivial

end RiskyStep

/-! ## Visits -/

open RiskyStep

section

variable {run after : Run} {n : Nat} {context : Option String} {location : Location}

theorem Reshapes.records (h : Reshapes run after) : Records run after := by
  cases h with
  | @visit n context location hn =>
      have hvisit : Leads Records (reshapeSchema context location n) run fun _ _ => True :=
        leads_bind (referSingleMap_looked hn.sound context location) fun _ _ _ _ => rewrites_records
      exact .of_steps hvisit.1

theorem records_of_reshapes (h : ReflTransGen Reshapes run after) : Records run after :=
  .of_steps (h.lift id fun _ _ hvisit => hvisit.records)

/-- A titled value type that is moved is taken away. -/
theorem titled_leaves (hn : IsSchema run n) {changed : Bool}
    (hrun : (Step.apply titledToProperty n : RiskyStep Bool).run run = (.ok changed, after)) :
    IsSchema after n ∧
      (after = run ∨ ∀ tag fields, after.node? n = some (.map tag fields) →
        valueRef? fields = none) := by
  have hupdates := ((leads_lift (Step.apply_leads hn.sound hn
    fun _ _ h => .titled (movesTitled_of_eq_some h))).of_ok hrun).1
  have hn' := IsSchema.kept.updates hupdates hn
  refine ⟨hn', ?_⟩
  rcases ((leads_lift (Step.apply_records titledToProperty)).of_ok hrun).2 with
    hsame | ⟨tag, before, result, hbefore, hresult, rfl⟩
  · exact Or.inl hsame
  · refine Or.inr fun tag' fields hnode => ?_
    rw [valueRef?_of_node? hn.sound hn'.sound hbefore hnode,
      valueRef?_of_movesTitled (movesTitled_of_eq_some hresult)]

/-- Members that are merged leave the value type alone. -/
theorem merged_leaves (hn : IsSchema run n) {changed : Bool}
    (hrun : (Step.apply membersToProperties n : RiskyStep Bool).run run = (.ok changed, after)) :
    after = run ∨ ∃ tag before merged, run.node? n = some (.map tag before) ∧
    MergesMembers before merged ∧
      ∀ tag fields, after.node? n = some (.map tag fields) →
      valueRef? fields = valueRef? before := by
  have hupdates := ((leads_lift (Step.apply_leads hn.sound hn
    fun _ _ h => .merged (mergesMembers_of_eq_some h))).of_ok hrun).1
  rcases ((leads_lift (Step.apply_records membersToProperties)).of_ok hrun).2 with
    hsame | ⟨tag, before, result, hbefore, hresult, rfl⟩
  · exact Or.inl hsame
  · have hmerges := mergesMembers_of_eq_some hresult
    refine Or.inr ⟨tag, before, result, hbefore, hmerges, fun tag' fields hnode => ?_⟩
    rw [valueRef?_of_node? hn.sound (Updates.sound hupdates hn.sound) hbefore hnode,
      valueRef?_of_mergesMembers hmerges]

/-- What a visit leaves behind as a single map whose value type is a reference has been
reported, or it was none before and has got the members of its union. -/
theorem reshapeSchema_leaves (hn : IsSchema run n)
    (hvisit : (reshapeSchema context location n).run run = (.ok (), after)) {tag : Tag}
    {fields : Fields Tag}
    (hnode : after.node? n = some (.map tag fields)) (hmaps : mapsToReference fields = true) :
    Reported after location ∨ ∃ tag' before merged, run.node? n = some (.map tag' before) ∧
      mapsToReference before = false ∧ MergesMembers before merged := by
  obtain ⟨_, looked, hlook, hrest⟩ := exists_of_run_bind hvisit
  obtain ⟨_, moved, hmove, hmerge⟩ := exists_of_run_bind hrest
  obtain ⟨_, last, hmerge, hdone⟩ := exists_of_run_bind hmerge
  cases hdone
  have hvalue : (valueRef? fields).isSome = true := (Bool.and_eq_true_iff.1 hmaps).2
  have hupdates := ((referSingleMap_leads IsSchema.kept hn.sound hn context location).of_ok hlook).1
  have hn₁ := IsSchema.kept.updates hupdates hn
  have hlooked := ((referSingleMap_looked hn.sound context location).of_ok hlook).2
  obtain ⟨hn₂, hmoved⟩ := titled_leaves hn₁ hmove
  have hmerged := merged_leaves hn₂ hmerge
  -- A value type that is there at the end is there before the members are merged.
  have hthere : ¬∀ tag fields, moved.node? n = some (.map tag fields) →
      valueRef? fields = none := by
    intro hnone
    have hlast : valueRef? fields = none := by
      rcases hmerged with rfl | ⟨tag', before, _, hbefore, -, hsame⟩
      · exact hnone tag fields hnode
      · exact (hsame tag fields hnode).trans (hnone tag' before hbefore)
    rw [hlast] at hvalue
    cases hvalue
  rcases hmoved with rfl | hgone
  · cases hlooked with
    | passed hother =>
        rcases hmerged with rfl | ⟨tag', before, merged, hbefore, hmerges, -⟩
        · cases (hother tag fields hnode).symm.trans hmaps
        · exact Or.inr ⟨tag', before, merged, hbefore, hother tag' before hbefore, hmerges⟩
    | reported hreported =>
        have hrecords := ((leads_lift (Step.apply_records membersToProperties)).of_ok hmerge).1
        exact Or.inl (hreported.stays (.of_steps hrecords))
    | gave hmade hbefore hnone =>
        exact absurd (fun tag' now hnow =>
          (valueRef?_of_node? hmade hn₁.sound hbefore hnow).trans hnone) hthere
  · exact absurd hgone hthere

end

/-- Wherever a visit of the second phase leaves behind a single map whose value type is a
reference, the reason is in the record at the end, at its own location.  The one exception is
a schema that was no such single map when the visit came to it, and became one with the
members of its union. -/
theorem restructure_reports {run after : Run} (h : run.Sound)
    (hrun : Phase.restructure.run.run run = (.ok (), after)) :
    ReflTransGen Reshapes run after ∧
    ∀ between next context location n tag fields, ReflTransGen Reshapes run between →
    IsSchema between n →
      (reshapeSchema context location n).run between = (.ok (), next) →
      ReflTransGen Reshapes next after →
      next.node? n = some (.map tag fields) → mapsToReference fields = true →
      Reported after location ∨ ∃ tag' before merged, between.node? n = some (.map tag' before) ∧
        mapsToReference before = false ∧ MergesMembers before merged := by
  refine ⟨reshapes_of_restructure h hrun, ?_⟩
  intro between next context location n tag fields _ hn hvisit hrest hnode hmaps
  exact (reshapeSchema_leaves hn hvisit hnode hmaps).imp_left fun hreported =>
    hreported.stays (records_of_reshapes hrest)

end ProtoShape
