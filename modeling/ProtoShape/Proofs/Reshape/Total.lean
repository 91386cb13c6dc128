import ProtoShape.Proofs.Reshape.CleanUp
import ProtoShape.Proofs.Reshape.Depth
import ProtoShape.Proofs.Reshape.Sharing

/-!
# A reshaping gives a document

A document with text keys whose sections are mappings is reshaped, whatever else it
holds, unless the first phase compares an integer with too many digits (`reshape_total`).

* The first and the third phase replace schemas only.  They leave the sections where they
  are, and no rule brings in a key that is no text, or a key twice (`replaces_unspoilt`).
* So no phase meets another fault, and each leaves a run in which the next one meets none
  (`Phase.run_total`).
* Where the model bounds a recursion by fuel, the fuel is never used up
  (`Run.Sound.ample`).
-/

namespace ProtoShape

open Tree Rules Relation

variable {τ : Type}

/-! ## Sections under a replacement -/

/-- The keys that lead from a place to the sections below it. -/
def Place.opening (place : Place) : List String :=
  match place.spread, place.role with
  | .single, .document => sectionKeys
  | .single, .components => sectionKeys.tail
  | _, _ => []

theorem Place.opening_of_spread {place : Place} (h : place.spread ≠ .single) :
    place.opening = [] := by
  unfold Place.opening
  split
  · exact absurd ‹_› h
  · exact absurd ‹_› h
  · rfl

/-- The first of these keys is a keyword of the part, and the others are those of its value. -/
theorem Place.opening_cons {place : Place} {key : String} {rest : List String}
    (h : place.opening = key :: rest) : ∃ slot ∈ place.role.slots, slot.key = key ∧
    slot.place.opening = rest := by
  unfold Place.opening at h
  split at h
  · rename_i hrole
    cases h
    exact ⟨⟨"components", .single, .components, false⟩, by rw [hrole]; decide, rfl, rfl⟩
  · rename_i hrole
    cases h
    exact ⟨⟨"schemas", .entries, .schema .schema, true⟩, by rw [hrole]; decide, rfl, rfl⟩
  · cases h

/-- A tree that keeps the sections of the tree that it replaces, and in which a property holds of
every mapping. -/
structure Unspoilt (p : Fields τ → Prop) (t : Tree τ) (place : Place) (result : Tree τ) : Prop where
  kept : result.Everywhere p
  opens : t.Opens place.opening → result.Opens place.opening

section Replaces

variable {p : Fields τ → Prop}

/-- A mapping in a place without sections. -/
theorem unspoilt_map {t : Tree τ} {tag : τ} {fields : Fields τ} {place : Place}
    (hkept : fields.Everywhere p)
    (hplace : place.opening = []) : Unspoilt p t place (.map tag fields) := by
  refine ⟨everywhere_map_iff.2 hkept, fun _ => ?_⟩
  rw [hplace]
  rfl

/-- A tree and its replacement. -/
abbrev UnspoiltIn (p : Fields τ → Prop) : Replacement τ :=
  fun t place _ _ result => Unspoilt p t place result

theorem slotsReplaced_everywhere (hp : KeptByUpdates p) {inner : Site} {around : Fields τ → Tree τ}
    {old fields result : Fields τ} {slots : List Slot}
    (h : SlotsReplaced (UnspoiltIn p) inner around old slots fields result)
    (hfields : fields.Everywhere p) :
    result.Everywhere p := by
  induction h with
  | nil => exact hfields
  | absent _ _ ih => exact ih hfields
  | present _ hvalue _ ih => exact ih (hfields.insert hp _ hvalue.kept)

variable {m : Type → Type} [Monad m]

/-- What the replacement of the schemas keeps of every mapping holds in the document, and its
sections stay. -/
theorem replaces_unspoilt (hp : KeptByUpdates p) {L : Outcome m}
    {f : Visit τ → (Tree τ → Tree τ) → m (Fields τ)}
    (hf : ∀ visit around, visit.fields.Everywhere p →
      L.holds (f visit around) (Fields.Everywhere p)) :
    Replaces L f (fun t _ _ => t.Everywhere p) (UnspoiltIn p) where
  below h hreach := h.of_mem_subtrees hreach.mem_subtrees
  keep h _ := ⟨h, id⟩
  list := by
    intro tag items place site around items' h hspread hitems
    refine ⟨(everywhere_list _ _).2 fun item hitem => ?_, fun hopens => nomatch hopens.mapping⟩
    obtain ⟨old, hold, _, _, hitem'⟩ := hitems.exists_of_mem hitem
    exact hitem'.kept
  entries := by
    intro tag fields place site around entries' h hspread hentries
    have hfields := everywhere_map_iff.1 h
    refine unspoilt_map ⟨hp.congr hentries.map_fst.symm hfields.1, fun entry hentry => ?_⟩
      (Place.opening_of_spread (by rw [hspread]; decide))
    obtain ⟨value, -, _, hentry'⟩ := hentries.exists_of_mem hentry
    exact hentry'.kept
  part := by
    intro tag fields place site around result h hspread hadmits hrole hslots
    refine ⟨everywhere_map_iff.2 (slotsReplaced_everywhere hp hslots (everywhere_map_iff.1 h)),
      fun hopens => ?_⟩
    cases hopening : place.opening with
    | nil => rfl
    | cons key rest =>
        rw [hopening] at hopens
        obtain ⟨slot, hslot, rfl, hrest⟩ := Place.opening_cons hopening
        refine opens_map_cons.2 fun value' hvalue' => ?_
        rcases hslots.get?_slot place.role.slots_nodup (fun _ _ => rfl) hslot with
          ⟨-, hnone⟩ | ⟨value, after, _, hvalue, hafter, hM⟩
        · rw [hnone] at hvalue'
          cases hvalue'
        · obtain rfl : after = value' := Option.some.inj (hafter.symm.trans hvalue')
          have hbelow := hM.opens
          rw [hrest] at hbelow
          exact hbelow (opens_map_cons.1 hopens value hvalue)
  schema := by
    intro tag fields place site around fields' hook h hspread hrole hadmits hslots
    refine L.mono (hf _ around (slotsReplaced_everywhere hp hslots (everywhere_map_iff.1 h)))
      fun result hresult => ?_
    refine unspoilt_map hresult ?_
    rw [Place.opening, hspread, hrole]

end Replaces

/-! ## The first phase -/

section CleanUp

variable {p : Fields τ → Prop}

theorem applyRule_everywhere {rule : Fields τ → Option (Fields τ)} {fields : Fields τ}
    (h : fields.Everywhere p) (hrule : ∀ result, rule fields = some result → result.Everywhere p) :
    (applyRule rule fields).Everywhere p :=
  applyRule_induction (fun _ => h) hrule

variable [Inhabited τ]

/-- On a schema with text keys, the clean-ups keep what updates keep.  They stop at an integer
with too many digits only. -/
theorem cleanUpSchema_total (hp : KeptByUpdates p) (options : Options) (location : Location)
    (around : Fields τ → Tree τ) {fields : Fields τ} (h : fields.Everywhere p) :
    (Recording.allowing (StopsAtDigits True)).holds
      (cleanUpSchema options location around fields) (Fields.Everywhere p) := by
  have h₁ := applyRule_everywhere h fun _ => constsToEnum_everywhere hp h
  have h₂ := applyRule_everywhere h₁ fun _ => dropListCovered_everywhere hp h₁
  have h₃ := applyRule_everywhere h₂ fun _ => unwrapComposites_everywhere hp h₂
  have h₄ := applyRule_everywhere h₃ fun _ => closeOpenMap_everywhere hp h₃
  have h₅ := applyRule_everywhere h₄ fun _ => distinctEnum_everywhere hp h₄
  have hrename : ∀ fields result : Fields τ, fields.Everywhere p →
      renameNull options.nullTypeName fields = some result → result.Everywhere p :=
    fun _ _ hfields => renameNull_everywhere hp hfields
  have h₆ := applyRule_everywhere h₅ fun result => hrename _ result h₅
  let L := Recording.allowing (StopsAtDigits True)
  unfold cleanUpSchema
  refine L.bind (Recording.allowing_stopAt fun fault hfault =>
    ⟨(listCoverFault?_long (h₁.textKeys hp) hfault).1, trivial⟩) fun _ _ => ?_
  refine L.bind (Recording.allowing_stopAt fun fault hfault => ?_) fun _ _ => ?_
  · rw [openMapFault?_eq_none (h₃.textKeys hp)] at hfault
    cases hfault
  refine L.bind (Recording.allowing_stopAt fun fault hfault =>
    ⟨(enumFault?_long (h₄.textKeys hp) hfault).1, trivial⟩) fun _ _ => ?_
  refine L.bind (Recording.allowing_record _) fun _ _ => ?_
  refine L.bind (Recording.allowing_ofText fun reason hreason => ?_) fun found hfound => L.pure ?_
  · obtain ⟨rfl, -⟩ := dropShorthandIn_long (h₆.textKeys hp) hreason
    exact ⟨rfl, trivial⟩
  · exact dropShorthandIn_everywhere hp h₆ hfound

theorem cleanUp_total (hp : KeptByUpdates p) (options : Options) {document : Tree τ}
    (h : document.Everywhere p) :
    (Recording.allowing (StopsAtDigits True)).holds (cleanUp options document)
      (Unspoilt p document (.one .document)) :=
  (replaces_unspoilt hp fun visit _ hvisit =>
    cleanUpSchema_total hp options visit.location _ hvisit).holds
      document (.one .document) .root id h

/-! ## The third phase -/

/-- There is no fault, and the result has the property. -/
def faultless : Outcome (Except Fault) where
  holds x p := ∃ a, x = .ok a ∧ p a
  mono := by
    rintro α x p q ⟨a, rfl, hp⟩ hpq
    exact ⟨a, rfl, hpq a hp⟩
  pure := by
    intro α a p hp
    exact ⟨a, rfl, hp⟩
  bind := by
    rintro α β x f p q ⟨a, rfl, hp⟩ hf
    exact hf a hp
  map := by
    rintro α β x g p q ⟨a, rfl, hp⟩ hpq
    exact ⟨g a, rfl, hpq a hp⟩

theorem markGroups_total (hp : KeptByUpdates p) (options : Options) {document : Tree τ}
    (h : document.Everywhere p) :
    ∃ result, markGroups options document = .ok result ∧
    Unspoilt p document (.one .document) result := by
  refine (replaces_unspoilt hp (L := faultless) fun visit _ hvisit => ?_).holds document
    (.one .document)
    .root id h
  rw [exclusivityFault?_eq_none (hvisit.textKeys hp)]
  exact ⟨_, rfl, markExclusive_everywhere hp hvisit options.flags⟩

end CleanUp

/-! ## The phases -/

/-- A document that is left unspoilt keeps a run workable. -/
theorem Run.Workable.settle {run : Run} (h : run.Workable) {document : Node}
    (hdocument : Unspoilt (fun fields => fields.hasTextKeys = true) run.document
      (.one .document) document)
    (diagnostics : List Diagnostic) :
    (Run.settle { run with document, diagnostics }).Workable where
  sections := opens_number (hdocument.opens h.sections) _
  document := hasTextKeys_number hdocument.kept _
  aside := hasTextKeys_number h.aside _

/-- A phase over a workable run ends, and the next one finds the run workable.  Only the first
phase may stop, at an integer with too many digits. -/
theorem Phase.run_total (phase : Phase) {run : Run} (hsound : run.Sound)
    (hworkable : run.Workable) :
    ∃ result after, phase.run.run run = (result, after) ∧ after.Sound ∧ after.Workable ∧
      (result = .ok () ∨ phase = .simplify ∧ result = .error (.unwritable .tooManyDigits)) := by
  have hmapping := hworkable.sections.mapping
  have hfault := Tree.mappingFault?_eq_none_iff.2 hmapping
  have hafter := phase.run_sound hsound
  suffices h : ∃ result after, phase.run.run run = (result, after) ∧ after.Workable ∧
      (result = .ok () ∨ phase = .simplify ∧ result = .error (.unwritable .tooManyDigits)) by
    obtain ⟨result, after, hrun, hworkable, hresult⟩ := h
    rw [hrun] at hafter
    exact ⟨result, after, hrun, hafter, hworkable, hresult⟩
  cases phase with
  | simplify =>
      rw [Phase.run_simplify hmapping]
      rcases (cleanUp_total keptByUpdates_textKeys run.options hworkable.document
          run.diagnostics).cases with
        ⟨document, log, hclean, -, hdocument⟩ | ⟨fault, log, hclean, -, rfl, -⟩
      · rw [hclean]
        exact ⟨_, _, rfl, hworkable.settle hdocument log, .inl rfl⟩
      · rw [hclean]
        exact ⟨_, _, rfl, ⟨hworkable.sections, hworkable.document, hworkable.aside⟩,
          .inr ⟨rfl, rfl⟩⟩
  | restructure =>
      rw [Phase.run_restructure hfault]
      obtain ⟨-, done, hdone, hwalked⟩ := RiskyStep.reshapeMaps_suffices hsound hworkable
      exact ⟨_, _, Prod.ext hdone rfl, hwalked.advances.workable hworkable, .inl rfl⟩
  | annotate =>
      obtain ⟨document, hmark, hdocument⟩ :=
        markGroups_total keptByUpdates_textKeys run.options hworkable.document
      rw [Phase.run_annotate hfault, hmark]
      exact ⟨_, _, rfl, hworkable.settle hdocument run.diagnostics, .inl rfl⟩

theorem phases_total (phases : List Phase) {run : Run} (hsound : run.Sound)
    (hworkable : run.Workable) :
    ∃ result after, (phases.forM Phase.run).run run = (result, after) ∧ after.Sound ∧
      after.Workable ∧ (result = .ok () ∨ result = .error (.unwritable .tooManyDigits)) := by
  induction phases generalizing run with
  | nil => exact ⟨_, run, rfl, hsound, hworkable, .inl rfl⟩
  | cons phase rest ih =>
      obtain ⟨result, between, hphase, hsound', hworkable', rfl | ⟨-, rfl⟩⟩ :=
        phase.run_total hsound hworkable
      · obtain ⟨result, after, hrest, hafter⟩ := ih hsound' hworkable'
        exact ⟨result, after, (RiskyStep.run_bind_of_ok hphase).trans hrest, hafter⟩
      · exact ⟨_, between, RiskyStep.run_bind_of_error hphase, hsound', hworkable', .inr rfl⟩

/-! ## Fuel -/

/-- No recursion of the second phase over a run is cut short by its fuel: neither the walk
itself, nor what it calls on a run that it comes to. -/
structure Run.Ample (run : Run) : Prop where
  walk : ∀ fuel, RiskyStep.depthBound (run.document.nodeCount + run.aside.nodeCount) ≤ fuel →
    (RiskyStep.walk RiskyStep.reshapeSchema fuel (.one .document) .root run.document.tag).run run =
      RiskyStep.reshapeMaps.run run
  key : ∀ after, Updates IsSchema run after → ∀ n location fuel,
    after.document.nodeCount + after.aside.nodeCount + 1 ≤ fuel →
      Step.giveKeyWithin fuel n location after = Step.giveKey n location after
  references : ∀ after, Updates IsSchema run after →
    ∀ node fuel, after.document.nodeCount + 1 ≤ fuel →
    followReferences after.document fuel [] node =
      followReferences after.document (after.document.nodeCount + 1) [] node

theorem Run.Sound.ample {run : Run} (h : run.Sound) (hworkable : run.Workable) : run.Ample where
  walk fuel hfuel := (RiskyStep.reshapeMaps_suffices h hworkable).1 fuel hfuel
  key _ hupdates n location _ hfuel :=
    Step.giveKeyWithin_eq n location (Updates.sound hupdates h) hfuel
  references _ _ node _ hfuel := followReferences_eq _ node hfuel

/-! ## The reshaping -/

/-- A run over a document with text keys and with sections to add to starts workable. -/
theorem Run.start_workable (options : Options) {value : Tree τ} (hkeys : value.HasTextKeys)
    (hsections : value.Opens sectionKeys) : (Run.start options (.ofValue value)).Workable where
  sections := opens_number (opens_mapTags _ hsections) _
  document :=
    hasTextKeys_number ((hasTextKeys_congr (mapTags_mapTags _ (fun _ => ()) value)).2 hkeys) _
  aside := hasTextKeys_number (show (default : Node).HasTextKeys from hasTextKeys_scalar _ _) _

/-- Where no phase stops, the reshaping gives what the last one leaves behind. -/
theorem reshape_of_run {options : Options} {document : Node} {after : Run}
    (hmapping : document.fields?.isSome = true)
    (hrun : allPhases.run (Run.start options document) = (.ok (), after)) :
    reshape options document = .ok ⟨after.document, after.diagnostics, after.generated⟩ := by
  cases document with
  | map tag fields =>
      rw [reshape, hrun]
  | _ => cases hmapping

/-- A reshaping that gives a result has gone through all phases. -/
theorem run_of_reshape {options : Options} {document : Node} {reshaped : Reshaped}
    (h : reshape options document = .ok reshaped) : document.fields?.isSome = true ∧
      ∃ after, allPhases.run (Run.start options document) = (.ok (), after) ∧
        reshaped = ⟨after.document, after.diagnostics, after.generated⟩ := by
  unfold reshape at h
  split at h
  · refine ⟨rfl, ?_⟩
    split at h
    · rename_i after hrun
      exact ⟨after, hrun, (Except.ok.inj h).symm⟩
    · cases h
  · cases h

/-- A document with text keys whose sections are mappings is reshaped, whatever else it holds,
unless the first phase compares an integer with too many digits.  Any phases over it end, and no
recursion is cut short. -/
theorem reshape_total (options : Options) (value : Tree τ) (hkeys : value.HasTextKeys)
    (hsections : value.Opens sectionKeys) :
    ((∃ reshaped, reshape options (.ofValue value) = .ok reshaped ∧
        reshaped.document.Opens sectionKeys) ∨
      reshape options (.ofValue value) = .error (.fault (.unwritable .tooManyDigits))) ∧
    ∀ phases : List Phase, ∃ result run,
      (phases.forM Phase.run).run (Run.start options (.ofValue value)) = (result, run) ∧
        run.Ample ∧ (result = .ok () ∨ result = .error (.unwritable .tooManyDigits)) := by
  have hsound := Run.start_sound options value
  have hworkable := Run.start_workable options hkeys hsections
  have hmapping : (Node.ofValue value).fields?.isSome = true := (opens_mapTags _ hsections).mapping
  constructor
  · obtain ⟨result, after, hrun, -, hafter, rfl | rfl⟩ := phases_total Phase.all hsound hworkable
    · exact .inl ⟨_, reshape_of_run hmapping hrun, hafter.sections⟩
    · refine .inr ?_
      unfold reshape
      split
      · rw [show allPhases.run _ = _ from hrun]
      · rename_i hnot
        cases hvalue : Node.ofValue value with
        | map tag fields => exact absurd hvalue (hnot tag fields)
        | _ =>
            rw [hvalue] at hmapping
            cases hmapping
  · intro phases
    obtain ⟨result, run, hrun, hsound', hworkable', hresult⟩ := phases_total phases hsound hworkable
    exact ⟨result, run, hrun, hsound'.ample hworkable', hresult⟩

/-- A document with references that lead nowhere, in a circle and to themselves, and with
keywords of the wrong kinds. -/
def unruly : Value :=
  .ofEntries [("paths", .ofInt 7), ("components", .ofEntries [("responses", .ofList []),
    ("schemas", .ofEntries [
      ("Self", .ofEntries [("$ref", .ofText "#/components/schemas/Self")]),
      ("Circle", .ofEntries [("type", .ofText "object"), ("minProperties", .ofInt 1),
        ("maxProperties", .ofInt 1),
        ("additionalProperties", .ofEntries [("$ref", .ofText "#/components/schemas/Circle")])]),
      ("Lost", .ofEntries [("type", .ofText "object"), ("minProperties", .ofInt 1),
        ("maxProperties", .ofInt 1),
        ("additionalProperties", .ofEntries [("$ref", .ofText "#/nowhere")])]),
      ("Odd", .ofEntries [("enum", .ofInt 3), ("oneOf", .ofEntries []), ("properties", .ofList []),
        ("title", .ofBool true),
        ("allOf", .ofList [.ofInt 1, .ofEntries [("$ref", .ofInt 2)]])])])])]

/-- The unruly document is reshaped. -/
example : (reshape .standard (.ofValue unruly)).toBool = true := by decide +kernel

end ProtoShape
