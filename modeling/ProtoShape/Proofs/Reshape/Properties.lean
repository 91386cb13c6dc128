import ProtoShape.Proofs.Reshape.Reports

/-!
# What becomes of properties

A visit of the second phase loses no property of its schema (`reshapeSchema_spares`):
afterwards each leads to the node that it led to.  There are two exceptions.  The schema may have
become a reference. Or it was a single map with properties of its own, and has become an object
around its value type. Then it has that object's only property instead of its own ones
(`properties_wrapped`).

`KeepsProperties` compares two states of a schema by the numbers of the nodes that its properties
lead to.  There are three reasons why properties are kept.

* The two rules that make properties add them to those that there are (`keepsProperties_titled`,
  `keepsProperties_merged`).
* A patch keeps the nodes that the keys of the patched node lead to (`Patch.keepsProperties`).
* The rule for single maps patches other schemas before it replaces its own
  (`referSingleMap_spared`).
-/

namespace ProtoShape

open Rules Tree Relation

/-! ## Numbers of properties -/

namespace Node

/-- The number of the node that a property of a schema leads to. -/
def property? (u : Node) (key : String) : Option Nat := (u.under? ["properties", key]).bind Tree.tag

/-- Every property of the one schema is a property of the other, and leads to the same node. -/
def KeepsProperties (old new : Node) : Prop := ∀ key m, old.property? key = some m →
    new.property? key = some m

theorem property?_map (tag : Tag) (fields : Fields Tag) (key : String) :
    property? (.map tag fields) key =
    ((Fields.map? fields "properties").bind fun properties => properties.get? key).bind
      Tree.tag := by
  unfold property? Fields.map?
  rw [Tree.under?_map_cons]
  cases fields.get? "properties" with
  | none => rfl
  | some properties =>
      rw [Option.bind_some, Option.bind_some, Tree.under?_cons]
      cases (properties.fields?.bind fun fields => fields.get? key) <;> rfl

namespace KeepsProperties

variable {u v w : Node}

theorem refl (u : Node) : KeepsProperties u u := fun _ _ => id

theorem trans (h : KeepsProperties u v) (h' : KeepsProperties v w) : KeepsProperties u w :=
  fun key m hm => h' key m (h key m hm)

theorem number (u : Node) (next : Nat) : KeepsProperties u (Node.number u next).1 := by
  intro key m hm
  obtain ⟨value, hvalue, htag⟩ := Option.bind_eq_some_iff.1 hm
  obtain ⟨k, -, hunder⟩ := under?_number u ["properties", key] next
  rw [property?, hunder, hvalue]
  exact tag_number_of_some htag k

/-- The `properties` have got more. -/
theorem of_properties {tag tag' inner inner' : Tag}
    {fields result properties properties' : Fields Tag}
    (hget : PropertiesOf fields inner properties)
    (hget' : result.get? "properties" = some (.map inner' properties'))
    (hmore : ∀ key value, properties.get? key = some value → properties'.get? key = some value) :
    KeepsProperties (.map tag fields) (.map tag' result) := by
  intro key m hm
  rw [property?_map] at hm ⊢
  obtain ⟨value, hvalue, htag⟩ := Option.bind_eq_some_iff.1 hm
  obtain ⟨found, hfound, hkey⟩ := Option.bind_eq_some_iff.1 hvalue
  obtain ⟨tag'', hat⟩ := Fields.map?_eq_some_iff.1 hfound
  cases hget with
  | present hpresent =>
      cases Option.some.inj (hpresent.symm.trans hat)
      have hnow : Fields.map? result "properties" = some properties' :=
        Fields.map?_eq_some_iff.2 ⟨inner', hget'⟩
      rw [hnow, Option.bind_some, hmore key value hkey]
      exact htag
  | absent habsent => cases habsent.symm.trans hat

end KeepsProperties

end Node

open Node

/-! ## The rules that make properties -/

section

variable {tag : Tag} {fields result : Fields Tag}

theorem get?_insert_more {properties : Fields Tag} {key : Scalar}
    (hfree : properties.contains key = false)
    (added : Node) {other : Scalar} {value : Node} (h : properties.get? other = some value) :
    (properties.insert key added).get? other = some value := by
  rw [Entries.get?_insert, if_neg]
  · exact h
  · intro heq
    rw [Entries.contains, ← Entries.get?_congr properties heq, h] at hfree
    cases hfree

/-- A titled value type that becomes a property joins the properties. -/
theorem keepsProperties_titled (h : MovesTitled fields result) :
    KeepsProperties (.map tag fields) (.map tag result) := by
  cases h with
  | @moved inner tag' additional properties title _ _ _ _ hproperties hfree =>
      have hget : ((fields.insert "properties" (.map tag'
          (properties.insert title (movedSchema additional)))).eraseAll (mapKeywords.drop 1)).get?
            "properties" =
            some (.map tag' (properties.insert title (movedSchema additional))) := by
        rw [Entries.get?_eraseAll, if_neg (by decide), Entries.get?_insert_self]
      exact .of_properties hproperties hget fun _ _ => get?_insert_more hfree _

/-- What is merged into properties leaves them as they are. -/
theorem Rules.Merges.get? {properties merged : Fields Tag} {members : List Node}
    (h : Merges properties members merged) {key : Scalar} {value : Node}
    (hget : properties.get? key = some value) :
    merged.get? key = some value := by
  induction h with
  | done => exact hget
  | next _ hfree _ ih => exact ih (get?_insert_more hfree _ hget)

theorem get?_properties_merged (fields merged : Fields Tag) :
    (((((fields.erase "oneOf").insert "properties" (.map default merged)).insert "minProperties"
      (.ofInt 1)).insert
      "maxProperties" (.ofInt 1)).erase "unevaluatedProperties").get? "properties" =
        some (.map default merged) := by
  rw [Entries.get?_erase, if_neg (by decide), Entries.get?_insert_of_ne _ _ (by decide),
    Entries.get?_insert_of_ne _ _ (by decide), Entries.get?_insert_self]

/-- Members that become properties join the properties. -/
theorem keepsProperties_merged (h : MergesMembers fields result) :
    KeepsProperties (.map tag fields) (.map tag result) := by
  cases h with
  | merged _ _ hproperties hmerges =>
      exact .of_properties hproperties (get?_properties_merged fields _) fun _ _ => hmerges.get?

/-- Neither rule makes a reference a schema again. -/
theorem isReference_titled (h : MovesTitled fields result) :
    Fields.isReference result = Fields.isReference fields := by
  cases h with
  | moved =>
      refine Fields.isReference_congr ?_
      rw [Entries.get?_eraseAll, if_neg (by decide), Entries.get?_insert_of_ne _ _ (by decide)]

theorem isReference_merged (h : MergesMembers fields result) :
    Fields.isReference result = Fields.isReference fields := by
  cases h with
  | merged =>
      rw [Fields.isReference_erase (by decide), Fields.isReference_insert (by decide),
        Fields.isReference_insert (by decide), Fields.isReference_insert (by decide),
        Fields.isReference_erase (by decide)]

end

/-! ## Patches -/

/-- A change keeps the properties of a schema if it keeps, of the changed node, the tag
and the nodes that its keys lead to. -/
theorem Run.Sound.keepsProperties_modify {run : Run} (h : run.Sound) {n : Nat}
    {f : Node → Node} {u : Node}
    (hu : run.Holds u) (hchange : ∀ v, run.Holds v → v.tag = some n → (f v).tag = v.tag ∧
      ∀ key value, v.under? [key] = some value → (f v).under? [key] = some value) :
    KeepsProperties u (Node.modify n f u) := by
  intro key m hm
  obtain ⟨value, hvalue, htag⟩ := Option.bind_eq_some_iff.1 hm
  have hholds {keys : List String} {v : Node} (hv : u.under? keys = some v) : run.Holds v :=
    hu.below (mem_subtrees_of_under? hv)
  have hunder : (Node.modify n f u).under? ["properties", key] = some (Node.modify n f value) := by
    refine Node.under?_modify (fun pre key rest _ v hv hn child hchild => ?_) hvalue
    have hmem : child ∈ v.children := by
      cases v with
      | map tag fields =>
          obtain ⟨key, -, hmem⟩ := Entries.mem_of_get?
            (by simpa [Tree.under?_map_cons] using hchild : fields.get? key = some child)
          exact List.mem_map.2 ⟨(key, child), hmem, rfl⟩
      | _ => cases hchild
    rw [Node.modify_of_uses_eq_zero (h.uses_child (hholds hv) hn hmem)]
    exact (hchange v (hholds hv) hn).2 key child hchild
  rw [property?, hunder, Option.bind_some, Node.tag_modify fun hn =>
    (hchange value (hholds hvalue) hn).1]
  exact htag

/-- A patch keeps the properties of every schema. -/
theorem Patch.keepsProperties {run after : Run} (h : Patch run after) (hsound : run.Sound)
    {m : Nat} {u v : Node}
    (hu : run.node? m = some u) (hv : after.node? m = some v) : KeepsProperties u v := by
  obtain ⟨hholds, htag⟩ := Run.node?_holds hu
  obtain ⟨hholds', htag'⟩ := Run.node?_holds hv
  obtain ⟨k, hk, heq⟩ := hsound.exists_tag hholds
  obtain rfl : k = m := Option.some.inj (heq.symm.trans htag)
  unfold Run.Holds at hholds'
  rcases h.cases_change hsound with ⟨hdocument, haside⟩ | ⟨n, f, ⟨hdocument, haside⟩, -, hchange⟩
  · rw [hdocument, haside] at hholds'
    rw [hsound.unique hholds hholds' htag htag']
    exact .refl v
  · rw [hdocument, haside] at hholds'
    obtain ⟨w, next, hw, hwtag, -, rfl⟩ :=
      hsound.origin_of_modify (fun v hv hn => (hchange v hv hn).1) hk hholds' htag'
    rw [hsound.unique hholds hw htag hwtag]
    exact .trans (hsound.keepsProperties_modify hw fun v hv hn =>
      ⟨(hchange v hv hn).1.tag, (hchange v hv hn).2.2⟩) (.number _ next)

theorem exists_keeping_of_patches {run after : Run} (h : ReflTransGen Patch run after)
    (hsound : run.Sound) {m : Nat} {u : Node} (hu : run.node? m = some u) :
    ∃ v, after.node? m = some v ∧ KeepsProperties u v ∧
    (u.fields?.isSome = true → v.fields?.isSome = true) := by
  induction h with
  | refl => exact ⟨u, hu, .refl u, id⟩
  | tail hfirst hlast ih =>
      obtain ⟨v, hv, hkeeps, hmapping⟩ := ih
      obtain ⟨w, hw, hgrown⟩ :=
        exists_grown_of_patches (.single hlast) (sound_of_patches hfirst hsound) hv
      exact ⟨w, hw, hkeeps.trans (hlast.keepsProperties (sound_of_patches hfirst hsound) hv hw),
        fun hold => hgrown.mapping (hmapping hold)⟩

/-! ## What a visit does to properties -/

/-- A single map in an exempted context has given way to an object that holds its value type in a
property. -/
structure WrapsValue (options : Options) (context : Option String) (fields : Fields Tag)
    (now : Node) : Prop where
  exempted : context.any options.inlineContexts.contains = true
  injects : options.injectOnInline = true
  single : isSingleMap fields = true
  value : ∃ additional m key, fields.get? "additionalProperties" = some additional ∧
    additional.tag = some m ∧
    now.property? key = some m

/-- That object has one property alone. -/
theorem properties_wrapped (additional : Node) (key : String) (fields : Fields Tag) :
    (inlined additional (some key) fields).get? "properties" =
      some (.ofEntries [(.text key, additional)]) := by
  rw [inlined, get?_wrapped, get?_wrapperOf]
  rfl

/-- A schema has given way to a reference or to an object around its value type. -/
def GivesWay (options : Options) (context : Option String) (fields : Fields Tag)
    (now : Node) : Prop :=
  now.isReference = true ∨ WrapsValue options context fields now

section

variable {run after : Run} {n : Nat} {tag : Tag} {fields : Fields Tag}

theorem isReference_number (u : Node) (next : Nat) :
    (Node.number u next).1.isReference = u.isReference := by
  unfold Tree.isReference
  rw [Tree.ref?_number]

/-- A rule that makes properties keeps those that there are. -/
theorem apply_keepsProperties {rule : Fields Tag → Option (Fields Tag)}
    (hrule : ∀ {tag : Tag} {fields result : Fields Tag}, rule fields = some result →
      KeepsProperties (.map tag fields) (.map tag result) ∧
        Fields.isReference result = Fields.isReference fields)
    (hsound : run.Sound) (hafter : after.Sound) {changed : Bool}
    (hrun : (Step.apply rule n : RiskyStep Bool).run run = (.ok changed, after)) {u : Node}
    (hu : run.node? n = some u) :
    ∃ v, after.node? n = some v ∧ KeepsProperties u v ∧
    (u.isReference = true → v.isReference = true) := by
  rcases ((RiskyStep.leads_lift (Step.apply_records rule)).of_ok hrun).2 with
    rfl | ⟨tag, fields, result, hfields, hresult, rfl⟩
  · exact ⟨u, hu, .refl u, id⟩
  · cases Option.some.inj (hu.symm.trans hfields)
    obtain ⟨hkeeps, hreference⟩ := hrule hresult
    obtain ⟨k, hk⟩ := hsound.exists_node?_image hafter hfields (Run.node?_holds hfields).2
    refine ⟨_, hk, .trans hkeeps (.number _ k), fun href => ?_⟩
    rw [isReference_number]
    exact hreference.trans href

theorem GivesWay.keeps {options : Options} {context : Option String} {u v : Node}
    (h : GivesWay options context fields u) (hkeeps : KeepsProperties u v)
    (hreference : u.isReference = true → v.isReference = true) :
    GivesWay options context fields v := by
  refine h.imp hreference fun hwraps => { hwraps with value := ?_ }
  obtain ⟨additional, m, key, hget, htag, hproperty⟩ := hwraps.value
  exact ⟨additional, m, key, hget, htag, hkeeps key m hproperty⟩

theorem isReference_referred (tag : Tag) (now : Fields Tag) (ref : String) :
    (Tree.map tag ((now.eraseAll mapKeywords).insert "$ref" (.ofText ref)) : Node).isReference =
      true := by
  simp [Tree.isReference, Tree.ref?, Tree.fields?, Fields.ref?, Fields.text?, Tree.text?,
    Tree.ofText]

/-- The schema has its properties still, or it has given way. -/
def Spared (run : Run) (n : Nat) (context : Option String) (tag : Tag) (fields : Fields Tag)
    (after : Run) : Prop :=
  ∃ v, after.node? n = some v ∧
    (KeepsProperties (.map tag fields) v ∨ GivesWay run.options context fields v)

variable (hsound : run.Sound) (hnode : run.node? n = some (.map tag fields))
include hsound hnode

theorem spared_of_patches {made : Run} (h : ReflTransGen Patch run made) (context : Option String) :
    Spared run n context tag fields made := by
  obtain ⟨v, hv, hkeeps, -⟩ := exists_keeping_of_patches h hsound hnode
  exact ⟨v, hv, Or.inl hkeeps⟩

/-- After other schemas have been patched, the schema gives way. -/
theorem spared_of_replacement {made : Run} (h : ReflTransGen Patch run made)
    {context : Option String}
    {f : Fields Tag → Fields Tag} (hafter : (made.modifyNode n (onFields f)).Sound)
    (hf : ∀ tag now, GivesWay run.options context fields (.map tag (f now))) :
    Spared run n context tag fields (made.modifyNode n (onFields f)) := by
  obtain ⟨v, hv, -, hmapping⟩ := exists_keeping_of_patches h hsound hnode
  cases v with
  | map tag' now =>
      obtain ⟨k, hk⟩ :=
        (sound_of_patches h hsound).exists_node?_image hafter hv (Run.node?_holds hv).2
      refine ⟨_, hk, Or.inr ((hf tag' now).keeps (.number _ k) fun href => ?_)⟩
      rw [isReference_number]
      exact href
  | _ => cases hmapping rfl

namespace Step

/-- A single map in an exempted context gives way to its value type, or to an object around that. -/
theorem inlineSingleMap_spared {context : Option String} {additional : Node} {ref : String}
    (hget : fields.get? "additionalProperties" = some additional)
    (href : additional.ref? = some ref) (hsingle : isSingleMap fields = true)
    (hexempted : context.any run.options.inlineContexts.contains = true)
    (location : Location) : Leads Records (inlineSingleMap n additional location) run
      fun _ after => after.Sound → Spared run n context tag fields after := by
  have hholds : run.Holds additional := (Run.node?_holds hnode).1.below (mem_subtrees_of_get? hget)
  obtain ⟨m, -, htag⟩ := hsound.exists_tag hholds
  have hgives : ∀ {made : Run} (wrapped : Option String), ReflTransGen Patch run made →
      (wrapped.isSome = true → run.options.injectOnInline = true) →
      Leads Records (modifyFields n (inlined additional wrapped)) made
        fun _ after => after.Sound → Spared run n context tag fields after := by
    intro made wrapped hpatches hinjects
    refine (modifyFields_records n _).mono fun _ after hafter hsound' => ?_
    rw [hafter] at hsound' ⊢
    refine spared_of_replacement hsound hnode hpatches hsound' fun tag now => ?_
    cases wrapped with
    | none =>
        simp only [inlined, href]
        exact Or.inl (isReference_referred tag now ref)
    | some key =>
        refine Or.inr ⟨hexempted, hinjects rfl, hsingle, additional, m, key, hget, htag, ?_⟩
        rw [property?_map, Fields.map?, properties_wrapped]
        simpa [Tree.ofEntries, Tree.fields?, Entries.get?, Entries.lookup] using htag
  unfold inlineSingleMap
  refine leads_get ?_
  simp only [htag]
  split
  · rename_i hinjects
    refine leads_bind ((giveKey_records hsound m _).and (giveKey_leads m _ hsound))
      fun wrapped made _ hgiven => ?_
    exact hgives wrapped hgiven.2.1 fun _ => hinjects
  · exact hgives none .refl (by rintro ⟨⟩)

end Step

namespace RiskyStep

/-- The rule for single maps spares the properties of its schema, unless this gives way. -/
theorem referSingleMap_spared (context : Option String) (location : Location) :
    Leads Records (referSingleMap context location n) run
      fun _ after => after.Sound → Spared run n context tag fields after := by
  have hsame : Spared run n context tag fields run := ⟨_, hnode, Or.inl (.refl _)⟩
  have hfields : (run.node? n).bind Tree.fields? = some fields := by rw [hnode]; rfl
  unfold referSingleMap
  refine leads_get ?_
  rw [hfields]
  simp only
  split
  · exact leads_pure fun _ => hsame
  · rename_i additional hget
    split
    · exact leads_pure fun _ => hsame
    · rename_i ref href
      split
      · exact leads_pure fun _ => hsame
      · rename_i hsingle
        split
        · refine leads_bind
            ((leads_lift (Step.report_records _)).and (leads_lift (Step.report_leads _)))
            fun _ _ _ hreported => leads_pure fun _ => ?_
          exact spared_of_patches hsound hnode hreported.2.1 context
        · split
          · rename_i hexempted
            refine leads_bind (leads_lift (Step.inlineSingleMap_spared hsound hnode hget href
              (by simpa using hsingle) hexempted location)) fun _ _ _ hspared => leads_pure hspared
          · refine leads_bind
              ((componentFor_records _ _ _ _).and (componentFor_leads hsound _ _ _ _))
              fun found made _ hfound => ?_
            split
            · exact leads_pure fun _ => spared_of_patches hsound hnode hfound.2.1 context
            · refine leads_bind (leads_lift (Step.modifyFields_records n _))
                fun _ after _ hafter => leads_pure fun hsound' => ?_
              rw [hafter] at hsound' ⊢
              exact spared_of_replacement hsound hnode hfound.2.1 hsound' fun tag now =>
                Or.inl (isReference_referred tag now _)

end RiskyStep

end

/-- A visit of the second phase loses no property of its schema: each is there afterwards
and leads to the same node, unless the schema was a single map that has become a reference, or an
object around its value type in an exempted context. -/
theorem reshapeSchema_spares {run after : Run} {n : Nat} {context : Option String}
    {location : Location} (hn : IsSchema run n)
    (hvisit : (RiskyStep.reshapeSchema context location n).run run = (.ok (), after))
    {tag : Tag} {fields : Fields Tag} (hnode : run.node? n = some (.map tag fields)) :
    Spared run n context tag fields after := by
  obtain ⟨_, looked, hlook, hrest⟩ := RiskyStep.exists_of_run_bind hvisit
  obtain ⟨_, moved, hmove, hrest⟩ := RiskyStep.exists_of_run_bind hrest
  obtain ⟨_, merged, hmerge, hdone⟩ := RiskyStep.exists_of_run_bind hrest
  cases hdone
  have hn₁ : IsSchema looked n := IsSchema.kept.updates
    ((RiskyStep.referSingleMap_leads IsSchema.kept hn.sound hn context location).of_ok hlook).1 hn
  have hn₂ : IsSchema moved n := (titled_leaves hn₁ hmove).1
  have hafter : after.Sound := Updates.sound ((RiskyStep.leads_lift (Step.apply_leads hn₂.sound hn₂
    fun _ _ h => .merged (mergesMembers_of_eq_some h))).of_ok hmerge).1 hn₂.sound
  obtain ⟨u, hu, hspared⟩ :=
    ((RiskyStep.referSingleMap_spared hn.sound hnode context location).of_ok hlook).2 hn₁.sound
  obtain ⟨v, hv, hkeeps, hreference⟩ := apply_keepsProperties (fun h =>
    ⟨keepsProperties_titled (movesTitled_of_eq_some h),
      isReference_titled (movesTitled_of_eq_some h)⟩)
    hn₁.sound hn₂.sound hmove hu
  obtain ⟨w, hw, hkeeps', hreference'⟩ := apply_keepsProperties (fun h =>
    ⟨keepsProperties_merged (mergesMembers_of_eq_some h),
      isReference_merged (mergesMembers_of_eq_some h)⟩)
    hn₂.sound hafter hmerge hv
  refine ⟨w, hw, hspared.imp (fun h => h.trans (hkeeps.trans hkeeps')) fun h => ?_⟩
  exact (h.keeps hkeeps hreference).keeps hkeeps' hreference'

end ProtoShape
