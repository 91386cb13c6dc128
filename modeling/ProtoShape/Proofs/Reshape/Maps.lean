import ProtoShape.Proofs.Reshape.MapKey

/-!
# The second phase as a sequence of updates

The rules of the second phase are updates of the schema that they are applied to
(`reshapeSchema_leads`), and a walk is a sequence of changes if each visit is
(`walk_leads`).  The latter needs to know a visited schema by its number alone, since
the document changes while the walk goes on.  So it takes a relation between runs,
numbers and places that every change keeps, and that goes on from a node to the nodes
below it.
-/

namespace ProtoShape

open Rules Relation

/-! ## The rules -/

section Rules

variable {P : Run → Nat → Prop} {run : Run} {n : Nat}

/-- A predicate on numbers that every update keeps. -/
def Kept (P : Run → Nat → Prop) : Prop :=
  ∀ run after n, Update P run after → P run n → P after n

theorem Kept.updates (hkept : Kept P) {after : Run} (h : Updates P run after) (hn : P run n) :
    P after n := by
  induction h with
  | refl => exact hn
  | tail _ hlast ih => exact hkept _ _ n hlast ih

theorem isMapOfOne_of_patches (hsound : run.Sound) {after : Run} (h : ReflTransGen Patch run after)
    {tag : Tag} {fields : Fields Tag} (hnode : run.node? n = some (.map tag fields))
    (hone : IsMapOfOne fields) {tag' : Tag} {fields' : Fields Tag}
    (hholds : after.Holds (.map tag' fields')) (htag : tag' = some n) : IsMapOfOne fields' := by
  obtain ⟨hbefore, hnumber⟩ := Run.node?_holds hnode
  obtain ⟨k, hk, heq⟩ := hsound.exists_tag hbefore
  obtain rfl : k = n := Option.some.inj (heq.symm.trans hnumber)
  obtain ⟨v, hv, hvtag, hgrown⟩ := grown_of_patches h hsound hk hholds htag
  cases hsound.unique hbefore hv hnumber hvtag
  obtain ⟨_, before, heq, hkeeps⟩ := hgrown.fields _ _ rfl
  cases heq
  exact isMapOfOne_of_keeps hkeeps hone

namespace Step

theorem Leads.of_patches {α : Type} {x : Step α} {Q : α → Run → Prop} (h : Leads Patch x run Q) :
    Leads (Update P) x run fun a after => ReflTransGen Patch run after ∧ Q a after :=
  ⟨updates_of_patches h.1 P, h.1, h.2⟩

/-- A rule that rewrites the schema with a number. -/
theorem modifyFields_rewrites (hn : P run n) {f : Fields Tag → Fields Tag}
    (h : ∀ fields, run.Holds (.map (some n) fields) →
      Rewrite (.map (some n) fields) (.map (some n) (f fields))) :
    Leads (Update P) (modifyFields n f) run fun _ _ => True := by
  refine leads_modify (.rewritten hn (fun _ _ => rfl) fun u hu htag => ?_) trivial
  cases u with
  | map tag fields =>
      obtain rfl : tag = some n := htag
      exact h fields hu
  | _ => exact .same _

theorem apply_leads (hsound : run.Sound) (hn : P run n) {rule : Fields Tag → Option (Fields Tag)}
    (hrule : ∀ fields result, rule fields = some result →
      Rewrite (.map (some n) fields) (.map (some n) result)) :
    Leads (Update P) (apply rule n) run fun _ _ => True := by
  unfold apply
  refine leads_bind (Q := fun found after => run = after ∧ found = (run.node? n).bind Tree.fields?)
    ⟨.refl, rfl, rfl⟩ ?_
  rintro _ _ - ⟨rfl, rfl⟩
  cases hfound : ((run.node? n).bind Tree.fields?).bind rule with
  | none => exact leads_pure trivial
  | some result =>
      refine leads_bind (modifyFields_rewrites hn fun fields hfields => ?_) fun _ _ _ _ =>
        leads_pure trivial
      obtain ⟨inner, hinner, hresult⟩ := Option.bind_eq_some_iff.1 hfound
      obtain ⟨u, hu, huf⟩ := Option.bind_eq_some_iff.1 hinner
      cases hsound.unique (Run.node?_holds hu).1 hfields (Run.node?_holds hu).2 rfl
      cases huf
      exact hrule fields result hresult

/-- The single map is replaced after its value type has got the key. -/
theorem inlineSingleMap_leads (hkept : Kept P) (hsound : run.Sound) (hn : P run n) {tag : Tag}
    {fields : Fields Tag} {additional : Node} {location : Location}
    (hnode : run.node? n = some (.map tag fields)) (hone : IsMapOfOne fields)
    (hget : fields.get? "additionalProperties" = some additional)
    (href : additional.isReference = true) :
    Leads (Update P) (inlineSingleMap n additional location) run fun _ _ => True := by
  obtain ⟨ref, heq⟩ := Option.isSome_iff_exists.1 href
  have hwrap : ∀ (key : String) {f : Fields Tag → Fields Tag},
      (∀ fields, f fields = (fields.eraseAll mapKeywords).overlay (wrapperOf key additional)) →
      Leads (Update P) (modifyFields n f) run fun _ _ => True := by
    intro key f hf
    refine modifyFields_rewrites hn fun fields' hfields' => ?_
    cases hsound.unique (Run.node?_holds hnode).1 hfields' (Run.node?_holds hnode).2 rfl
    rw [hf]
    exact .inlined key hone hget href
  have hrefer : ∀ {after : Run} {f : Fields Tag → Fields Tag}, ReflTransGen Patch run after →
      (∀ fields, f fields = (fields.eraseAll mapKeywords).insert "$ref" (.ofText ref)) →
      Leads (Update P) (modifyFields n f) after fun _ _ => True := by
    intro after f hpatches hf
    refine modifyFields_rewrites (hkept.updates (updates_of_patches hpatches P) hn)
      fun fields' hfields' => ?_
    rw [hf]
    exact .referred ref (isMapOfOne_of_patches hsound hpatches hnode hone hfields' rfl)
  unfold inlineSingleMap
  rw [heq]
  refine leads_get ?_
  simp only
  split
  · split
    · refine leads_bind (giveKey_leads _ _ hsound).of_patches fun wrapped after _ h => ?_
      cases wrapped with
      | some key =>
          obtain rfl := (h.2 rfl).1
          exact hwrap key fun _ => rfl
      | none => exact hrefer h.1 fun _ => rfl
    · exact hrefer .refl fun _ => rfl
  · exact hrefer .refl fun _ => rfl

/-- The value of a keyword that is there at the end. -/
theorem entryOrEmpty_leads {key : String} (hkey : key ∈ ["components", "schemas"])
    (hsound : run.Sound) (hsection : run.IsSection n) :
    Leads Patch (entryOrEmpty n key) run fun value after => ∀ tag fields, value = .map tag fields →
      ∃ fields, after.node? n = some (.map (some n) fields) ∧ fields.get? key = some value := by
  have hread : ∀ (after : Run) value, ((after.node? n).bind Tree.fields?).bind (·.get? key) =
      some value →
      ∃ fields, after.node? n = some (.map (some n) fields) ∧ fields.get? key = some value := by
    intro after value h
    obtain ⟨fields, hfields, hget⟩ := Option.bind_eq_some_iff.1 h
    obtain ⟨u, hu, huf⟩ := Option.bind_eq_some_iff.1 hfields
    have htag := (Run.node?_holds hu).2
    cases u with
    | map tag inner =>
        obtain rfl : tag = some n := htag
        cases huf
        exact ⟨fields, hu, hget⟩
    | _ => cases huf
  unfold entryOrEmpty
  refine leads_bind (Q := fun found after => run = after ∧ found = (run.node? n).bind Tree.fields?)
    ⟨.refl, rfl, rfl⟩ ?_
  rintro _ _ - ⟨rfl, rfl⟩
  cases hfound : ((run.node? n).bind Tree.fields?).bind (·.get? key) with
  | some value => exact leads_pure fun _ _ _ => hread run value hfound
  | none =>
      refine leads_bind (modifyFields_leads (Q := fun _ _ => True) (fun fields hfields => ?_)
          hsection trivial)
        fun _ after _ _ => ?_
      · refine .place hkey ?_
        rw [hsound.node?_of_holds hfields rfl] at hfound
        exact hfound
      · refine ⟨.refl, fun tag fields heq => hread after _ ?_⟩
        change (((after.node? n).bind Tree.fields?).bind (·.get? key)).getD default =
          .map tag fields at heq
        change _ = some ((((after.node? n).bind Tree.fields?).bind (·.get? key)).getD default)
        cases hlast : ((after.node? n).bind Tree.fields?).bind (·.get? key) with
        | some value => rfl
        | none =>
            rw [hlast] at heq
            cases heq

end Step

namespace RiskyStep

open Step (report_leads)

/-- The root of the document is where it was after patches. -/
theorem document_of_patches (hsound : run.Sound) {after : Run} (h : ReflTransGen Patch run after)
    {root : Nat} {fields : Fields Tag} (hroot : run.document.tag = some root)
    (hnode : after.node? root = some (.map (some root) fields)) :
    after.document = .map (some root) fields := by
  obtain ⟨v, hv, htag⟩ := under?_of_patches h hsound (Tree.under?_nil run.document) hroot
  obtain rfl : after.document = v := Option.some.inj hv
  exact (sound_of_patches h hsound).unique after.holds_document (Run.node?_holds hnode).1 htag rfl

theorem schemas_leads (hsound : run.Sound) :
    Leads Patch schemas run fun value after => ∀ tag entries, value = .map tag entries →
      after.document.under? ["components", "schemas"] = some value := by
  unfold schemas
  refine leads_get ?_
  cases hdocument : run.document with
  | map tag fields =>
      cases tag with
      | none => exact leads_throw
      | some root =>
          have hroot : run.document.tag = some root := congrArg Tree.tag hdocument
          refine leads_bind (leads_lift (Step.entryOrEmpty_leads (by simp) hsound
            ⟨[], List.nil_prefix, _, rfl, hroot⟩))
            fun components between hfirst hcomponents => ?_
          have hsound' := sound_of_patches hfirst hsound
          cases components with
          | map tag inner =>
              cases tag with
              | none => exact leads_throw
              | some n =>
                  obtain ⟨fields', hnode, hget⟩ := hcomponents _ _ rfl
                  have hunder : between.document.under? ["components"] =
                      some (.map (some n) inner) := by
                    rw [document_of_patches hsound hfirst hroot hnode, Tree.under?_map_cons, hget]
                    rfl
                  have hsection : between.IsSection n :=
                    ⟨["components"], ⟨["schemas"], rfl⟩, _, hunder, rfl⟩
                  have hentry :=
                    @Step.entryOrEmpty_leads between n "schemas" (by simp) hsound' hsection
                  refine leads_lift ⟨hentry.1, fun tag entries hvalue => ?_⟩
                  obtain ⟨inner', hinner, hschemas⟩ := hentry.2 tag entries hvalue
                  obtain ⟨v, hv, hvtag⟩ := under?_of_patches hentry.1 hsound' hunder rfl
                  obtain rfl := (sound_of_patches hentry.1 hsound').unique
                    ((Run.holds_document _).below (Tree.mem_subtrees_of_under? hv))
                    (Run.node?_holds hinner).1 hvtag rfl
                  rw [← List.singleton_append, Tree.under?_append, hv, Option.bind_some,
                    Tree.under?_map_cons, hschemas]
                  rfl
          | _ => exact leads_throw
  | _ => exact leads_throw

/-- The component is added where its name is free, and remembered. -/
theorem addComponent_leads {schemas : Node} {name : String} {target : Identity}
    (source ref : String) (keySchema : Option Node) (hsound : run.Sound)
    (hschemas : ∀ tag entries, schemas = .map tag entries →
      run.document.under? ["components", "schemas"] = some schemas)
    (hfree : isTaken schemas name = .ok false) :
    Leads Patch (do
      addComponent schemas name (keyValueComponent source ref keySchema run.options.fieldProperty)
      (Step.markGenerated target name : Step Unit)
      return some name) run fun _ _ => True := by
  cases schemas with
  | map tag entries =>
      have hunder := hschemas tag entries rfl
      obtain ⟨n, -, htag⟩ := hsound.exists_tag
        (run.holds_document.below (Tree.mem_subtrees_of_under? hunder))
      obtain rfl : tag = some n := htag
      have habsent : entries.get? name = none := by
        simpa [isTaken, Entries.contains] using hfree
      exact ⟨.single (.generated source ref keySchema hunder habsent), fun _ _ => trivial⟩
  | _ => exact leads_bind (Q := fun _ _ => False) leads_throw fun _ _ _ h => h.elim

theorem componentFor_leads (hsound : run.Sound) (target : Identity) (ref : String)
    (keySchema : Option Node) (location : Location) :
    Leads Patch (componentFor target ref keySchema location) run fun _ _ => True := by
  unfold componentFor
  refine leads_get ?_
  cases run.valueComponents.lookup target with
  | some name => exact leads_pure trivial
  | none =>
      refine leads_bind (schemas_leads hsound) fun schemas between hfirst hschemas => ?_
      refine leads_bind (leads_except (Q := fun taken after => between = after ∧
        isTaken schemas _ = .ok taken)
        fun taken htaken => ⟨rfl, htaken⟩) ?_
      rintro taken _ - ⟨rfl, htaken⟩
      cases taken with
      | true =>
          exact leads_bind (leads_lift (report_leads _)) fun _ _ _ _ => leads_pure trivial
      | false =>
          rw [← Updates.options (updates_of_patches hfirst fun _ _ => True)] at htaken ⊢
          exact addComponent_leads _ ref keySchema (sound_of_patches hfirst hsound) hschemas htaken

/-- A step that patches only, as a part of one that may do more. -/
theorem Leads.of_patches {α : Type} {x : RiskyStep α} {Q : α → Run → Prop}
    (h : Leads Patch x run Q) :
    Leads (Update P) x run fun a after => ReflTransGen Patch run after ∧ Q a after :=
  ⟨updates_of_patches h.1 P, fun a ha => ⟨h.1, h.2 a ha⟩⟩

theorem referSingleMap_leads (hkept : Kept P) (hsound : run.Sound) (hn : P run n)
    (context : Option String) (location : Location) :
    Leads (Update P) (referSingleMap context location n) run fun _ _ => True := by
  unfold referSingleMap
  refine leads_get ?_
  split
  · exact leads_pure trivial
  · rename_i fields hfields
    split
    · exact leads_pure trivial
    · rename_i additional hget
      split
      · exact leads_pure trivial
      · rename_i ref href
        split
        · exact leads_pure trivial
        · rename_i hsingle
          obtain ⟨u, hnode, huf⟩ := Option.bind_eq_some_iff.1 hfields
          cases u with
          | map tag inner =>
              cases huf
              have hone : IsMapOfOne fields :=
                ⟨by simpa using hsingle, Option.isSome_iff_exists.2 ⟨additional, hget⟩⟩
              split
              · refine leads_bind (leads_lift (report_leads _)).of_patches fun _ _ _ _ => ?_
                exact leads_pure trivial
              · split
                · refine leads_bind
                    (leads_lift (Step.inlineSingleMap_leads hkept hsound hn hnode hone
                    hget (Option.isSome_iff_exists.2 ⟨ref, href⟩))) fun _ _ _ _ =>
                      leads_pure trivial
                · refine leads_bind (componentFor_leads hsound _ _ _ _).of_patches
                    fun name after hupdates hpatches => ?_
                  cases name with
                  | none => exact leads_pure trivial
                  | some name =>
                      refine leads_bind (leads_lift (Step.modifyFields_rewrites
                        (hkept.updates hupdates hn) fun fields' hfields' => ?_)) fun _ _ _ _ =>
                          leads_pure trivial
                      exact .referred _
                        (isMapOfOne_of_patches hsound hpatches.1 hnode hone hfields' rfl)
          | _ => cases huf

/-- The rules of the second phase are updates of the schema that they are applied to. -/
theorem reshapeSchema_leads (hkept : Kept P) (hsound : run.Sound) (hn : P run n)
    (name : Option String) (location : Location) :
    Leads (Update P) (reshapeSchema name location n) run fun _ _ => True := by
  unfold reshapeSchema
  refine leads_bind (referSingleMap_leads hkept hsound hn name location) fun _ first hfirst _ => ?_
  refine leads_bind
    (leads_lift (Step.apply_leads (Updates.sound hfirst hsound) (hkept.updates hfirst hn)
    fun _ _ h => .titled (movesTitled_of_eq_some h))) fun _ second hsecond _ => ?_
  have hboth := hfirst.trans hsecond
  refine leads_bind
    (leads_lift (Step.apply_leads (Updates.sound hboth hsound) (hkept.updates hboth hn)
    fun _ _ h => .merged (mergesMembers_of_eq_some h))) fun _ _ _ _ => leads_pure trivial

end RiskyStep

end Rules

/-! ## The walk -/

/-- What a walk has to know of a number: a relation to places that every change keeps,
that goes on from a node to the nodes below it, and that is enough for a visit. -/
structure Guides (U : Run → Run → Prop) (visit : Option String → Location → Nat → RiskyStep Unit)
    (C : Run → Nat → Place → Prop) : Prop where
  keep : ∀ {run after n place}, U run after → C run n place → C after n place
  element : ∀ {run n place tag items item m}, C run n place → place.spread = .elements →
    run.node? n = some (.list tag items) → item ∈ items → item.tag = some m →
    C run m (.one place.role)
  entry : ∀ {run n place tag fields key value m}, C run n place → place.spread = .entries →
    run.node? n = some (.map tag fields) → (key, value) ∈ fields.toList → value.tag = some m →
    C run m (.one place.role)
  slot : ∀ {run n place tag fields slot value m}, C run n place → place.spread = .single →
    run.node? n = some (.map tag fields) → slot ∈ place.role.slots →
    fields.get? slot.key = some value → value.tag = some m → C run m slot.place
  visit : ∀ {run n place hook}, C run n place → place.spread = .single →
    place.role = .schema hook → ∀ name location,
    RiskyStep.Leads U (visit name location n) run fun _ _ => True

namespace RiskyStep

variable {U : Run → Run → Prop} {visit : Option String → Location → Nat → RiskyStep Unit}
  {C : Run → Nat → Place → Prop}

theorem Guides.keep_all (h : Guides U visit C) {run after : Run} {n : Nat} {place : Place}
    (hupdates : ReflTransGen U run after) (hn : C run n place) : C after n place := by
  induction hupdates with
  | refl => exact hn
  | tail _ hlast ih => exact h.keep hlast ih

/-- A walk is a sequence of changes if each visit is. -/
theorem walk_leads (h : Guides U visit C) (fuel : Nat) {run : Run} {place : Place} {site : Site}
    {tag : Tag} (hn : ∀ n, tag = some n → C run n place) :
    Leads U (walk visit fuel place site tag) run fun _ _ => True := by
  induction fuel generalizing run place site tag with
  | zero => exact leads_pure trivial
  | succ fuel ih =>
      cases tag with
      | none => exact leads_pure trivial
      | some n =>
          have hhere := hn n rfl
          unfold walk
          refine leads_get ?_
          split
          · rename_i items hspread hnode
            refine leads_forM fun (item, index) hin between hbetween => ?_
            refine ih fun m hm => Guides.keep_all h hbetween (h.element hhere hspread hnode ?_ hm)
            exact List.mem_of_getElem? (List.mem_zipIdx_iff_getElem?.1 hin)
          · rename_i entries hspread hnode
            refine leads_forM fun (key, value) hin between hbetween => ?_
            exact ih fun m hm => Guides.keep_all h hbetween (h.entry hhere hspread hnode hin hm)
          · rename_i fields hspread hnode
            split
            · refine leads_bind (leads_forM fun slot hslot between hbetween => leads_get ?_)
                fun _ after hafter _ => ?_
              · split
                · rename_i value hvalue
                  obtain ⟨inner, hinner, hget⟩ := Option.bind_eq_some_iff.1 hvalue
                  obtain ⟨u, hu, huf⟩ := Option.bind_eq_some_iff.1 hinner
                  cases u with
                  | map tag fields' =>
                      cases huf
                      exact ih fun m hm => h.slot (Guides.keep_all h hbetween hhere)
                        hspread hu hslot
                        hget hm
                  | _ => cases huf
                · exact leads_pure trivial
              · split
                · rename_i hook hrole
                  exact h.visit (Guides.keep_all h hafter hhere) hspread hrole _ _
                · exact leads_pure trivial
            · exact leads_pure trivial
          · exact leads_pure trivial

/-- The second phase is a sequence of updates, if only updates keep the runs sound. -/
theorem reshapeMaps_leads {P : Run → Nat → Prop} (h : Guides (Update P) reshapeSchema C) {run : Run}
    (hroot : ∀ n, run.document.tag = some n → C run n (.one .document)) :
    Leads (Update P) reshapeMaps run fun _ _ => True :=
  leads_get (walk_leads h _ hroot)

end RiskyStep

/-- Soundness is enough to know that the rules are updates of some schemas. -/
theorem guides_sound : Guides (Update fun _ _ => True) RiskyStep.reshapeSchema fun run _ _ =>
    run.Sound where
  keep h hsound := h.sound hsound
  element h _ _ _ _ := h
  entry h _ _ _ _ := h
  slot h _ _ _ _ _ := h
  visit h _ _ _ _ := RiskyStep.reshapeSchema_leads (fun _ _ _ _ _ => trivial) h trivial _ _

end ProtoShape
