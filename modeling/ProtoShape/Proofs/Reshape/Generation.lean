import ProtoShape.Proofs.Reshape.Components
import ProtoShape.Proofs.Reshape.Presence
import ProtoShape.Proofs.Reshape.Spending

/-!
# Generating a component

Where the sections are mappings, a component can be added.  The sections are made where they
are absent (`schemas_suffices`), and then the component is added where its name is free
(`componentFor_suffices`).  Where it is not, the sections have been there before and
nothing has changed.

The schemas of the document do not contain the sections, so they stay as they are
(`Run.Stays`).  What a component costs may depend on the schema of the keys, which it holds a
copy of (`Generates`).
-/

namespace ProtoShape

open Rules Tree Relation

/-! ## Schemas that stay -/

/-- The schemas of the document are what they were. -/
def Run.Stays (run after : Run) : Prop :=
  ∀ n u, IsSchema run n → run.node? n = some u → IsSchema after n ∧ after.node? n = some u

namespace Run.Stays

variable {run between after : Run}

theorem refl (run : Run) : run.Stays run := fun _ _ hn hu => ⟨hn, hu⟩

theorem trans (h : run.Stays between) (h' : between.Stays after) : run.Stays after := by
  intro n u hn hu
  obtain ⟨hn', hu'⟩ := h n u hn hu
  exact h' n u hn' hu'

theorem of_same (hdocument : after.document = run.document) (haside : after.aside = run.aside)
    (hnext : after.next = run.next) : run.Stays after := by
  intro n u hn hu
  refine ⟨Located.congr hn hdocument haside hnext, ?_⟩
  unfold Run.node?
  rw [hdocument, haside]
  exact hu

/-- A section that gets one more entry. -/
theorem of_insert {keys : List String} (hkeys : keys <+: sectionKeys) {section_ : Nat}
    {entries : Fields Tag} {key : String} {value : Node}
    (hunder : run.document.under? keys = some (.map (some section_) entries))
    (habsent : entries.get? key = none) (hnew : ∀ m, Node.uses m value = 0)
    (hpatch : Patch run after) (hdocument :
      after.document = (run.modifyNode section_ (onFields (·.insert key value))).document)
    (haside : after.aside = (run.modifyNode section_ (onFields (·.insert key value))).aside) :
    run.Stays after := by
  intro n u hn hu
  refine ⟨hpatch.located hn, ?_⟩
  have hat : ∀ v, run.Holds v → v.tag = some section_ → v = .map (some section_) entries :=
    fun v hv htag => hn.sound.unique hv
      (run.holds_document.below (mem_subtrees_of_under? hunder)) htag rfl
  unfold Run.node?
  rw [hdocument, haside]
  refine hn.sound.node?_modifyNode hu (fun v hv htag => ?_) (fun v hv htag => ?_)
    (hn.uses_section hu hkeys hunder rfl)
  · rw [hat v hv htag]
    exact moves_insert hnew
  · rw [hat v hv htag]
    exact uses_le_insert habsent value n

end Run.Stays

/-! ## The sections -/

theorem Tree.Opens.under? {τ : Type} {keys rest : List String} {t u : Tree τ}
    (h : t.Opens (keys ++ rest)) (hu : t.under? keys = some u) : u.Opens rest := by
  induction keys generalizing t with
  | nil =>
      obtain rfl : t = u := Option.some.inj hu
      exact h
  | cons key keys ih =>
      rw [← List.singleton_append, under?_append] at hu
      obtain ⟨value, hvalue, hu⟩ := Option.bind_eq_some_iff.1 hu
      exact ih (h.2 value hvalue) hu

namespace Step

variable {run : Run} {fuel : Nat}

/-- A section that is empty. -/
theorem spends_place (hsound : run.Sound) {keys : List String} {n : Nat}
    {fields : Fields Tag} {key : String}
    (hunder : run.document.under? keys = some (.map (some n) fields)) (hkey : key ∈ sectionKeys)
    (habsent : fields.get? key = none) :
    Spends 1 run (run.modifyNode n (onFields (·.insert key (.map default ∅)))) := by
  have hholds := run.holds_document.below (mem_subtrees_of_under? hunder)
  refine .modifyNode hsound (fits_of_unique hsound hholds rfl (plainer_insert habsent rfl True))
    (fun u hu htag => ?_) fun u hu c unit hc => ?_
  · obtain rfl := hsound.unique hholds hu rfl htag
    exact harmless_insert key (fun _ _ => rfl)
      (everywhere_map_iff.2 (.empty keptByUpdates_textKeys))
  · obtain rfl := hsound.unique hholds (Run.node?_holds hu).1 rfl (Run.node?_holds hu).2
    rw [Nat.one_mul]
    exact load_place_le hc.toUniform hkey (some n) fields

/-- A section that is made is a patch. -/
theorem place_patch (hsound : run.Sound) {keys : List String} {n : Nat}
    {fields : Fields Tag} {key : String}
    (hunder : run.document.under? keys = some (.map (some n) fields))
    (hkeys : keys ++ [key] <+: sectionKeys) (habsent : fields.get? key = none) :
    Patch run (run.modifyNode n (onFields (·.insert key (.map default ∅)))) := by
  refine .added (fun _ _ => rfl) (fun u hu htag => ?_)
    (Or.inr ⟨keys, (List.prefix_append keys [key]).trans hkeys, _, hunder, rfl⟩)
  obtain rfl := hsound.unique (run.holds_document.below (mem_subtrees_of_under? hunder)) hu rfl htag
  exact .place (hkeys.mem (List.mem_append_right keys List.mem_cons_self)) habsent

/-- A section that is made is empty. -/
theorem under?_placed (hsound : run.Sound) {keys : List String} {n : Nat}
    {fields : Fields Tag} {key : String}
    (hunder : run.document.under? keys = some (.map (some n) fields))
    (habsent : fields.get? key = none) :
    (run.modifyNode n (onFields (·.insert key (.map default ∅)))).document.under? (keys ++ [key]) =
      some (.map (some run.next) ∅) := by
  rw [under?_append, under?_insertion hsound hunder habsent, Option.bind_some, under?_map_cons,
    get?_append_of_absent habsent]
  rfl

/-- A keyword that is there is read. -/
theorem entryOrEmpty_of_get? {n : Nat} {fields : Fields Tag} {key : String}
    (hnode : run.node? n = some (.map (some n) fields)) {value : Node}
    (hget : fields.get? key = some value) : entryOrEmpty n key run = (value, run) := by
  have hread : fields? n run = (some fields, run) :=
    Prod.ext (congrArg (·.bind Tree.fields?) hnode) rfl
  rw [entryOrEmpty, bind_apply, hread]
  simp only [Option.bind_some, hget]
  rfl

/-- A section that is absent is made. -/
theorem entryOrEmpty_of_absent (hsound : run.Sound) {keys : List String} {n : Nat}
    {fields : Fields Tag}
    {key : String} (hunder : run.document.under? keys = some (.map (some n) fields))
    (hkeys : keys ++ [key] <+: sectionKeys) (habsent : fields.get? key = none) :
    entryOrEmpty n key run =
      (.map (some run.next) ∅, run.modifyNode n (onFields (·.insert key (.map default ∅)))) := by
  have hholds := run.holds_document.below (mem_subtrees_of_under? hunder)
  have hread : fields? n run = (some fields, run) :=
    Prod.ext (congrArg (·.bind Tree.fields?) (hsound.node?_of_holds hholds rfl)) rfl
  have hvalue : ((((run.modifyNode n (onFields (·.insert key (.map default ∅)))).node? n).bind
      Tree.fields?).bind (·.get? key)).getD default = .map (some run.next) ∅ := by
    rw [((place_patch hsound hunder hkeys habsent).sound hsound).node?_of_holds
      ((Run.holds_document _).below
      (mem_subtrees_of_under? (under?_insertion hsound hunder habsent (.map default ∅)))) rfl]
    change ((Entries.get? ⟨fields.toList ++ _⟩ key).getD default) = _
    rw [get?_append_of_absent habsent]
    rfl
  rw [entryOrEmpty, bind_apply, hread]
  simp only [Option.bind_some, habsent]
  exact Prod.ext hvalue rfl

/-- What is known of a section that has been looked up, and made where it was absent. -/
structure Section (keys : List String) (cost : Nat) (run : Run) (value : Node)
    (after : Run) : Prop where
  mapping : ∃ k entries, value = .map (some k) entries ∧ (after = run ∨ entries = ∅)
  under : after.document.under? keys = some value
  sound : after.Sound
  options : after.options = run.options
  spends : Spends cost run after
  stays : run.Stays after

theorem entryOrEmpty_suffices (hsound : run.Sound) (hworkable : run.Workable) {keys : List String}
    {key : String} (hkeys : keys ++ [key] <+: sectionKeys) {n : Nat} {fields : Fields Tag}
    (hunder : run.document.under? keys = some (.map (some n) fields)) :
    Suffices (fun _ => entryOrEmpty n key) fuel run (Section (keys ++ [key]) 1 run) := by
  have hholds := run.holds_document.below (mem_subtrees_of_under? hunder)
  refine suffices_const ?_
  cases hget : fields.get? key with
  | some value =>
      rw [entryOrEmpty_of_get? (hsound.node?_of_holds hholds rfl) hget]
      have hvalue : run.document.under? (keys ++ [key]) = some value := by
        rw [under?_append, hunder, Option.bind_some, under?_map_cons, hget]
        rfl
      have hmapping : value.fields?.isSome = true := by
        obtain ⟨rest, hrest⟩ := hkeys
        exact ((hrest ▸ hworkable.sections).under? hvalue).mapping
      obtain ⟨k, -, htag⟩ := hsound.exists_tag
        (run.holds_document.below (mem_subtrees_of_under? hvalue))
      refine ⟨?_, hvalue, hsound, rfl, .refl 1 run, .refl run⟩
      cases value with
      | map tag entries =>
          obtain rfl : tag = some k := htag
          exact ⟨k, entries, rfl, Or.inl rfl⟩
      | _ => cases hmapping
  | none =>
      have hkey : key ∈ sectionKeys := hkeys.mem (List.mem_append_right keys List.mem_cons_self)
      have hplace := place_patch hsound hunder hkeys hget
      rw [entryOrEmpty_of_absent hsound hunder hkeys hget]
      refine ⟨⟨run.next, ∅, rfl, Or.inr rfl⟩, under?_placed hsound hunder hget,
        hplace.sound hsound, rfl,
        spends_place hsound hunder hkey hget, ?_⟩
      exact .of_insert ((List.prefix_append keys [key]).trans hkeys) hunder hget
        (fun m => by simp [default])
        hplace rfl rfl

end Step

namespace RiskyStep

open Step (Section entryOrEmpty_suffices)

variable {run : Run} {fuel : Nat}

/-- The schemas of the components are there where the sections are mappings.  If they are not
empty, they have been there before. -/
theorem schemas_suffices (hsound : run.Sound) (hworkable : run.Workable) :
    Suffices (fun _ => schemas) fuel run (Section sectionKeys 2 run) := by
  obtain ⟨root, -, hroot⟩ := hsound.exists_tag run.holds_document
  have hmapping := hworkable.sections.mapping
  unfold schemas
  refine suffices_get ?_
  cases hdocument : run.document with
  | map tag fields =>
      obtain rfl : tag = some root := by rw [hdocument] at hroot; exact hroot
      have hcomponents := @entryOrEmpty_suffices run fuel hsound hworkable [] "components"
        (by simp [sectionKeys]) root fields (congrArg some hdocument)
      refine suffices_bind (suffices_lift hcomponents) fun components between hfirst => ?_
      obtain ⟨n, entries, rfl, hempty⟩ := hfirst.mapping
      have hschemas := @entryOrEmpty_suffices between fuel hfirst.sound
        (hfirst.spends.workable hworkable) ["components"] "schemas"
        (by simp [sectionKeys]) n entries
        hfirst.under
      refine (suffices_lift hschemas).mono fun value after hsecond => ?_
      obtain ⟨k, inner, rfl, hinner⟩ := hsecond.mapping
      refine ⟨⟨k, inner, rfl, ?_⟩, hsecond.under, hsecond.sound,
        hsecond.options.trans hfirst.options,
        hfirst.spends.trans hsecond.spends, hfirst.stays.trans hsecond.stays⟩
      rcases hinner with rfl | hinner
      · rcases hempty with rfl | rfl
        · exact Or.inl rfl
        · -- Nothing stands under an empty section.
          have hsection : after.document.under? ["components"] = some (.map (some n) ∅) :=
            hfirst.under
          have hunder := hsecond.under
          rw [under?_append, hsection, Option.bind_some, under?_map_cons] at hunder
          cases hunder
      · exact Or.inr hinner
  | _ =>
      rw [hdocument] at hmapping
      cases hmapping

end RiskyStep

/-! ## The component -/

/-- What it costs to generate a component: the sections, the component and a copy of the
schema of the keys. -/
structure Generates (ref : String) (keySchema : Option Node) (run after : Run) : Prop where
  workable : run.Workable → after.Workable
  cost : ∃ spent, spent ≤ 11 + 5 * run.waiting ∧ ∀ {c unit}, c.Regular unit → c.Tagless →
    after.load c ≤ run.load c + spent * unit + c.item (.ofEntries [("$ref", .ofText ref)]) +
      (keySchema.map c.among).getD 0

theorem Generates.of_same {ref : String} {keySchema : Option Node} {run after : Run}
    (hdocument : after.document = run.document) (haside : after.aside = run.aside) :
    Generates ref keySchema run after := by
  refine ⟨fun hrun => ⟨hdocument ▸ hrun.sections, hdocument ▸ hrun.document, haside ▸ hrun.aside⟩,
    0, Nat.zero_le _, fun _ _ => ?_⟩
  rw [Run.load, Run.load, hdocument, haside]
  omega

theorem generates_of_insert {run : Run} (hsound : run.Sound) {schemas : Nat} {entries : Fields Tag}
    {name : String} (source ref field : String) {keySchema : Option Node}
    (hschemas : run.document.under? sectionKeys = some (.map (some schemas) entries))
    (habsent : entries.get? name = none)
    (hkeys : ∀ schema, keySchema = some schema → schema.HasTextKeys) :
    (run.Workable → (run.modifyNode schemas (onFields
      (·.insert name (keyValueComponent source ref keySchema field)))).Workable) ∧
    ∀ {c : Charge} {unit}, c.Regular unit → c.Tagless → (run.modifyNode schemas (onFields
        (·.insert name (keyValueComponent source ref keySchema field)))).load c ≤
      run.load c + 9 * unit + c.item (.ofEntries [("$ref", .ofText ref)]) +
        (keySchema.map c.among).getD 0 := by
  have hholds := run.holds_document.below (mem_subtrees_of_under? hschemas)
  refine ⟨fun hworkable => hworkable.modifyNode fun u hu htag => ?_, fun {c unit} hc htagless => ?_⟩
  · obtain rfl := hsound.unique hholds hu rfl htag
    exact harmless_generated name source ref field hkeys
  · have hinsert := Entries.tally_insert_of_get?_eq_none (c.under (some schemas)) habsent
      (keyValueComponent source ref keySchema field)
    have hcomponent :=
      Charge.under_component_le hc htagless (some schemas) (Scalar.text name).key source
      ref field keySchema
    have hload := hsound.load_modifyNode_le hc.toFair
      (fits_of_unique hsound hholds rfl (plainer_insert habsent rfl True))
      (hsound.node?_of_holds hholds rfl)
      (f := onFields (·.insert name (keyValueComponent source ref keySchema field))) 0
      (9 * unit + c.item (.ofEntries [("$ref", .ofText ref)]) + (keySchema.map c.among).getD 0)
      (by rw [onFields, Node.load_map, Node.load_map]; omega)
    omega

namespace RiskyStep

variable {run : Run} {fuel : Nat}

/-- There always is a result.  Without a component, nothing has changed. -/
theorem componentFor_suffices (hsound : run.Sound) (hworkable : run.Workable) (target : Identity)
    (ref : String) {keySchema : Option Node}
    (hkeys : ∀ schema, keySchema = some schema → schema.HasTextKeys) (location : Location) :
    Suffices (fun _ => componentFor target ref keySchema location) fuel run fun name after =>
      Generates ref keySchema run after ∧ run.Stays after ∧
        (name = none → after.document = run.document ∧ after.aside = run.aside) := by
  unfold componentFor
  refine suffices_get ?_
  cases run.valueComponents.lookup target with
  | some name => exact suffices_pure ⟨.of_same rfl rfl, .refl run, fun h => by cases h⟩
  | none =>
      refine suffices_bind (schemas_suffices hsound hworkable) fun schemas between hsection => ?_
      obtain ⟨n, entries, rfl, hbetween⟩ := hsection.mapping
      refine suffices_bind (suffices_except (Q := fun taken after => between = after ∧
        taken = entries.contains _) rfl ⟨rfl, rfl⟩) ?_
      rintro taken _ ⟨rfl, rfl⟩
      split
      · rename_i htaken
        rcases hbetween with rfl | rfl
        · refine suffices_bind (suffices_lift (Step.suffices_const (Q := fun _ after =>
            after.document = between.document ∧ after.aside = between.aside ∧
              after.next = between.next)
            ⟨rfl, rfl, rfl⟩)) ?_
          rintro _ after ⟨hdocument, haside, hnext⟩
          exact suffices_pure ⟨.of_same hdocument haside, .of_same hdocument haside hnext,
            fun _ => ⟨hdocument, haside⟩⟩
        · cases htaken
      · rename_i hfree
        have habsent :
            entries.get? (Naming.generated (Pointer.lastToken ref) run.options.singleMapSuffix) =
            none := by simpa [Entries.contains] using hfree
        have hpatch : Patch between { between.modifyNode _ _ with
            valueComponents := between.valueComponents ++ [(target, _)] } :=
          .generated (Pointer.lastToken ref) ref keySchema hsection.under habsent
        rw [hsection.options] at hpatch
        obtain ⟨hworks, hcost⟩ := generates_of_insert hsection.sound (Pointer.lastToken ref) ref
          run.options.fieldProperty hsection.under habsent hkeys
        obtain ⟨hspends, -, spent, hload, hspent⟩ := hsection.spends
        refine ⟨fun _ _ => rfl, some _, rfl,
          ⟨fun hrun => ?_, spent + 9, by omega, fun {c unit} hc htagless => ?_⟩,
          hsection.stays.trans ?_, fun h => by cases h⟩
        · have hafter := hworks (hspends hrun)
          exact ⟨hafter.sections, hafter.document, hafter.aside⟩
        · have hfirst := hload hc
          have hsecond := hcost hc htagless
          rw [Nat.add_mul]
          refine hsecond.trans ?_
          omega
        · exact .of_insert List.prefix_rfl hsection.under habsent
            (fun m => uses_keyValueComponent _ _ _ _)
            hpatch rfl rfl

end RiskyStep

end ProtoShape
