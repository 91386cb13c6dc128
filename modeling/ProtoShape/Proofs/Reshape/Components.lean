import ProtoShape.Proofs.Reshape.Kinds
import ProtoShape.Proofs.Reshape.Sections

/-!
# Generated components on a walk

A generated component is settled, so no rule applies to it.  Its property for the key of a
map holds a copy of what stood at the single map, which no rule has looked at.  On the way
to that property only the component is a schema (`Run.HasComponent.sees`).  So both stay
where they are (`Update.hasComponent`), and the property stays the same node
(`Update.keyProperty`).
-/

namespace ProtoShape

open Rules Tree

/-- The keys that lead to a component. -/
def componentPath (name : String) : List String := ["components", "schemas", name]

/-- The keys that lead to the property for the key of a map in a component. -/
def Run.keyPath (run : Run) (name : String) : List String :=
  ["components", "schemas", name, "properties", run.options.fieldProperty]

/-- There is a settled component with a property for the key of a map. -/
structure Run.HasComponent (run : Run) (name : String) : Prop where
  component : ∃ tag fields,
    run.document.under? (componentPath name) = some (.map tag fields) ∧ IsSettled fields
  key : ∃ u, run.document.under? (run.keyPath name) = some u

/-- The numbers of the properties for the keys in the generated components. -/
def Run.KeyProperty (run : Run) (n : Nat) : Prop :=
  ∃ name ∈ run.generated, ∃ u, run.document.under? (run.keyPath name) = some u ∧ u.tag = some n

/-! ## The way to a component -/

section Way

variable {run : Run} {u v : Node} {place : Place} {name : String}

theorem Run.Sees.slot (h : run.Sees u place) (hspread : place.spread = .single)
    (hadmits : ∀ fields, u.fields? = some fields → place.role.admits fields = true) {slot : Slot}
    (hslot : slot ∈ place.role.slots) (hv : u.under? [slot.key] = some v) :
    run.Sees v slot.place := by
  cases u with
  | map tag fields =>
      have hget : fields.get? slot.key = some v := by simpa [under?_map_cons] using hv
      exact Tree.Sees.step h (.slot hspread (hadmits fields rfl) hslot hget) (not_among v.tag)
  | _ => cases hv

theorem Run.Sees.entry (h : run.Sees u place) (hspread : place.spread = .entries) {key : String}
    (hv : u.under? [key] = some v) : run.Sees v (.one place.role) := by
  cases u with
  | map tag fields =>
      have hget : fields.get? key = some v := by simpa [under?_map_cons] using hv
      obtain ⟨k, -, hmem⟩ := Entries.mem_of_get? hget
      exact Tree.Sees.step h (.entry hspread hmem) (not_among v.tag)
  | _ => cases hv

theorem sees_components (hu : run.document.under? ["components"] = some u) :
    run.Sees u (.one .components) :=
  Run.Sees.slot (Tree.Sees.here (not_among _)) rfl (fun _ _ => rfl)
    (by decide : ⟨"components", .single, .components, false⟩ ∈ Role.document.slots) hu

theorem sees_schemas (hu : run.document.under? ["components", "schemas"] = some u) :
    run.Sees u ⟨.entries, .schema .schema, true⟩ := by
  obtain ⟨v, hv, hkey⟩ := (@under?_concat _ _ u ["components"] "schemas").1 hu
  exact (sees_components hv).slot rfl (fun _ _ => rfl)
    (by decide : ⟨"schemas", .entries, .schema .schema, true⟩ ∈ Role.components.slots) hkey

theorem sees_component (hu : run.document.under? (componentPath name) = some u) :
    run.Sees u (.one (.schema .schema)) := by
  obtain ⟨v, hv, hkey⟩ := (@under?_concat _ _ u ["components", "schemas"] name).1 hu
  exact (sees_schemas hv).entry rfl hkey

theorem sees_properties (h : run.HasComponent name)
    (hu : run.document.under? (componentPath name ++ ["properties"]) = some u) :
    run.Sees u ⟨.entries, .schema .property, false⟩ := by
  obtain ⟨tag, fields, hcomponent, hsettled⟩ := h.component
  obtain ⟨v, hv, hkey⟩ := under?_concat.1 hu
  obtain rfl : Tree.map tag fields = v := Option.some.inj (hcomponent.symm.trans hv)
  refine (sees_component hv).slot rfl (fun fields' hfields => ?_)
    (by decide : ⟨"properties", .entries, .schema .property, false⟩ ∈ (Role.schema .schema).slots)
      hkey
  cases hfields
  simp [Role.admits, Place.one, hsettled.inline]

theorem sees_keyProperty (h : run.HasComponent name)
    (hu : run.document.under? (run.keyPath name) = some u) :
    run.Sees u (.one (.schema .property)) := by
  obtain ⟨v, hv, hkey⟩ :=
    (@under?_concat _ _ u (componentPath name ++ ["properties"]) run.options.fieldProperty).1 hu
  exact (sees_properties h hv).entry rfl hkey

/-- On the way to the property for the keys, only the component is a schema. -/
theorem Run.HasComponent.sees (h : run.HasComponent name) {pre : List String}
    (hpre : pre <+: run.keyPath name)
    (hu : run.document.under? pre = some u) : ∃ place, run.Sees u place ∧
      (place.Alike (.one (.schema .schema)) → pre = componentPath name ∨
        pre = run.keyPath name) := by
  unfold Run.keyPath at hpre
  match pre with
  | [] =>
      refine ⟨.one .document, ?_, fun halike => ?_⟩
      · obtain rfl : run.document = u := Option.some.inj hu
        exact Tree.Sees.here (not_among _)
      · obtain ⟨-, hook, hrole⟩ := halike.exists_hook
        cases hrole
  | [a] =>
      obtain rfl : a = "components" := by simpa using hpre
      refine ⟨_, sees_components hu, fun halike => ?_⟩
      obtain ⟨-, hook, hrole⟩ := halike.exists_hook
      cases hrole
  | [a, b] =>
      obtain ⟨rfl, rfl⟩ : a = "components" ∧ b = "schemas" := by simpa using hpre
      exact ⟨_, sees_schemas hu, fun halike => nomatch halike.1⟩
  | [a, b, c] =>
      obtain ⟨rfl, rfl, rfl⟩ : a = "components" ∧ b = "schemas" ∧ c = name := by simpa using hpre
      exact ⟨_, sees_component hu, fun _ => Or.inl rfl⟩
  | [a, b, c, d] =>
      obtain ⟨rfl, rfl, rfl, rfl⟩ : a = "components" ∧ b = "schemas" ∧ c = name ∧
          d = "properties" := by
        simpa using hpre
      exact ⟨_, sees_properties h hu, fun halike => nomatch halike.1⟩
  | [a, b, c, d, e] =>
      obtain ⟨rfl, rfl, rfl, rfl, rfl⟩ : a = "components" ∧ b = "schemas" ∧ c = name ∧
          d = "properties" ∧ e = run.options.fieldProperty := by simpa using hpre
      exact ⟨_, sees_keyProperty h hu, fun _ => Or.inr rfl⟩
  | _ :: _ :: _ :: _ :: _ :: _ :: rest => simp at hpre

/-- What is a schema and stands on the way is the component or the property. -/
theorem Run.HasComponent.prefix_of_located (h : run.HasComponent name) {pre : List String}
    (hpre : pre <+: run.keyPath name) (hu : run.document.under? pre = some u) {n : Nat}
    (htag : u.tag = some n)
    (hn : Located run n place) (hplace : place.Alike (.one (.schema .schema))) :
    pre = componentPath name ∨ pre = run.keyPath name := by
  obtain ⟨stop, hsees, hstop⟩ := h.sees hpre hu
  exact hstop ((hn.stands u stop hsees htag).trans hplace)

end Way

/-! ## Components stay -/

section Stay

variable {run after : Run} {name : String}

/-- What stands on the way to the property for the keys, and the image of it after an update. -/
theorem Update.under?_way (h : Update IsSchema run after) (hsound : run.Sound)
    (hname : run.HasComponent name) : after.document = run.document ∨
      ∃ n f, (∀ u, run.Holds u → u.tag = some n → Keeps u (f u)) ∧
        ∀ keys v, keys <+: run.keyPath name → run.document.under? keys = some v →
          after.document.under? keys = some (Node.modify n (Node.numberedFrom run.next f) v) := by
  rcases h.cases_keeps hsound with hsame | ⟨n, f, hdocument, hkeeps, hcase⟩
  · exact Or.inl hsame
  · refine Or.inr ⟨n, f, hkeeps, fun keys v hkeys hv => ?_⟩
    rw [hdocument]
    refine hsound.under?_modifyNode (fun pre key rest heq u hu htag value hvalue => ?_) hv
    have hheld : run.Holds u := Or.inl (mem_subtrees_of_under? hu)
    rcases hcase with hschema | hunder
    · -- A rule is applied to a schema, and that is the component.
      have hpre : pre <+: run.keyPath name :=
        (heq ▸ List.prefix_append pre (key :: rest)).trans hkeys
      have hlength := hkeys.length_le
      rw [heq, List.length_append, List.length_cons] at hlength
      rcases hname.prefix_of_located hpre hu htag hschema (.refl _) with rfl | rfl
      · obtain ⟨tag, fields, hcomponent, hsettled⟩ := hname.component
        obtain rfl : Tree.map tag fields = u := Option.some.inj (hcomponent.symm.trans hu)
        obtain ⟨fields', hresult, -, hget⟩ := (hkeeps _ hheld htag).settled tag fields rfl hsettled
        have hold : fields.get? key = some value := by simpa [under?_map_cons] using hvalue
        rw [hresult, under?_map_cons, hget key value hold]
        rfl
      · omega
    · exact hunder u hheld htag key value hvalue

/-- A component with a property for the keys stays one. -/
theorem Update.hasComponent (h : Update IsSchema run after) (hsound : run.Sound)
    (hname : run.HasComponent name) : after.HasComponent name := by
  have hpath : after.keyPath name = run.keyPath name := by
    unfold Run.keyPath
    rw [h.options]
  rcases h.under?_way hsound hname with hsame | ⟨n, f, hkeeps, hunder⟩
  · refine ⟨hsame ▸ hname.component, ?_⟩
    rw [hpath, hsame]
    exact hname.key
  · obtain ⟨tag, fields, hcomponent, hsettled⟩ := hname.component
    obtain ⟨u, hu⟩ := hname.key
    refine ⟨?_, ?_⟩
    · have hprefix : componentPath name <+: run.keyPath name := ⟨_, rfl⟩
      have hmem := mem_subtrees_of_under? hcomponent
      obtain ⟨tag', fields', himage, hsettled'⟩ :=
        @IsSettled.modify n run.next f tag fields hsettled
        fun v hv hn => hkeeps v (Or.inl (mem_subtrees_trans hv hmem)) hn
      exact ⟨tag', fields', himage ▸ hunder _ _ hprefix hcomponent, hsettled'⟩
    · rw [hpath]
      exact ⟨_, hunder _ u List.prefix_rfl hu⟩

/-- Components are only added. -/
theorem Update.mem_generated {P : Run → Nat → Prop} (h : Update P run after)
    (hname : name ∈ run.generated) : name ∈ after.generated := by
  cases h with
  | rewritten => exact hname
  | patch hpatch =>
      cases hpatch with
      | generated =>
          unfold Run.generated
          rw [List.map_append]
          exact List.mem_append_left _ hname
      | _ => exact hname

/-- The properties for the keys stay the nodes that they are. -/
theorem Update.keyProperty (h : Update IsSchema run after) (hsound : run.Sound)
    (hnames : ∀ name ∈ run.generated, run.HasComponent name) {m : Nat} (hm : run.KeyProperty m) :
    after.KeyProperty m := by
  obtain ⟨name, hname, u, hu, htag⟩ := hm
  have hpath : after.keyPath name = run.keyPath name := by
    unfold Run.keyPath
    rw [h.options]
  refine ⟨name, h.mem_generated hname, ?_⟩
  rw [hpath]
  rcases h.under?_way hsound (hnames name hname) with hsame | ⟨n, f, hkeeps, hunder⟩
  · exact ⟨u, hsame ▸ hu, htag⟩
  · refine ⟨_, hunder _ u List.prefix_rfl hu, ?_⟩
    have hheld : run.Holds u := Or.inl (mem_subtrees_of_under? hu)
    rw [Node.tag_modify, htag]
    intro hn
    exact (Node.tag_number_of_some ((hkeeps u hheld hn).tag.trans hn) run.next).trans hn.symm

end Stay

/-! ## New components -/

theorem keyOfValue_ne (source field : String) : keyOfValue source field ≠ field := by
  unfold keyOfValue
  simp only
  split
  · rename_i heq
    intro hsame
    have hlength := congrArg String.length (hsame.trans heq.symm)
    rw [String.length_append] at hlength
    have hmore : 0 < "_value".length := by decide
    omega
  · assumption

/-- A generated component with its numbers: under the properties stand the schema of the
keys and a reference. -/
theorem number_component (source ref field : String) (keySchema : Option Node) (next : Nat) :
    ∃ tag inner k type required reference,
      (Node.number (keyValueComponent source ref keySchema field) next).1 =
        .map tag ⟨[("type", type), ("properties", .map inner ⟨[
          (.text field, (Node.number (keyPattern keySchema) k).1),
          (.text (keyOfValue source field), reference)]⟩), ("required", required)]⟩ ∧
      reference.isReference = true := by
  have hput : Entries.put [(Scalar.text field, (keyPattern keySchema : Node))]
      (.text (keyOfValue source field)) (.ofEntries [("$ref", .ofText ref)]) =
      [(.text field, keyPattern keySchema),
        (.text (keyOfValue source field), .ofEntries [("$ref", .ofText ref)])] := by
    simp [Entries.put, Ne.symm (keyOfValue_ne source field)]
  rw [keyValueComponent, Entries.insert, hput]
  exact ⟨some next, some (next + 2), next + 3, _, _, _, rfl, rfl⟩

section New

variable {run : Run} {schemas : Nat} {entries : Fields Tag} {name : String}

/-- A mapping of the document with one more entry. -/
theorem numberedFrom_insert (hsound : run.Sound) {keys : List String}
    (hunder : run.document.under? keys = some (.map (some schemas) entries))
    (habsent : entries.get? name = none) (component : Node) :
    Node.numberedFrom run.next (onFields (·.insert name component)) (.map (some schemas) entries) =
      .map (some schemas)
        ⟨entries.toList ++ [(.text name, (Node.number component run.next).1)]⟩ := by
  have hgaps := Node.gaps_of_mem hsound.document (mem_subtrees_of_under? hunder)
  exact Node.number_insert habsent hgaps component run.next

/-- The mapping stands where it stood. -/
theorem under?_insertion (hsound : run.Sound) {keys : List String}
    (hunder : run.document.under? keys = some (.map (some schemas) entries))
    (habsent : entries.get? name = none) (component : Node) :
    (run.modifyNode schemas (onFields (·.insert name component))).document.under? keys =
      some
        (.map (some schemas)
          ⟨entries.toList ++ [(.text name, (Node.number component run.next).1)]⟩) := by
  have himage := hsound.under?_modifyNode (n := schemas) (f := onFields (·.insert name component))
    (fun pre key rest _ u hu hn value hvalue => ?_) hunder
  · rw [Node.modify_self rfl, numberedFrom_insert hsound hunder habsent] at himage
    exact himage
  · cases hsound.unique (run.holds_document.below (mem_subtrees_of_under? hu))
      (run.holds_document.below (mem_subtrees_of_under? hunder)) hn rfl
    exact under?_insert habsent hvalue

theorem get?_append_of_absent (habsent : entries.get? name = none) (value : Node) :
    Entries.get? ⟨entries.toList ++ [(.text name, value)]⟩ name = some value := by
  unfold Entries.get? at habsent ⊢
  rw [Entries.lookup_append, habsent, Option.none_or, Entries.lookup, if_pos rfl]

/-- A new component stands where its name says. -/
theorem under?_generated (hsound : run.Sound)
    (hschemas : run.document.under? ["components", "schemas"] = some (.map (some schemas) entries))
    (habsent : entries.get? name = none) (component : Node) :
    (run.modifyNode schemas (onFields (·.insert name component))).document.under?
      (componentPath name) =
      some (Node.number component run.next).1 := by
  rw [show componentPath name = ["components", "schemas"] ++ [name] from rfl, under?_append,
    under?_insertion hsound hschemas habsent, Option.bind_some, under?_map_cons,
    get?_append_of_absent habsent]
  rfl

/-- The property for the keys comes first. -/
theorem under?_keyPath {tag inner : Tag} {type key : Node} {properties more : List (Scalar × Node)}
    (h : run.document.under? (componentPath name) = some (.map tag ⟨("type", type) :: ("properties",
      .map inner ⟨(.text run.options.fieldProperty, key) :: properties⟩) :: more⟩)) :
    run.document.under? (run.keyPath name) = some key := by
  change run.document.under? (componentPath name ++ ["properties", run.options.fieldProperty]) = _
  rw [under?_append, h]
  simp [under?_map_cons, Entries.get?, Entries.lookup]

theorem hasComponent_generated (hsound : run.Sound)
    (hschemas : run.document.under? ["components", "schemas"] = some (.map (some schemas) entries))
    (habsent : entries.get? name = none) (source ref : String) (keySchema : Option Node) :
    (run.modifyNode schemas (onFields (·.insert name
      (keyValueComponent source ref keySchema run.options.fieldProperty)))).HasComponent name := by
  have hunder := under?_generated hsound hschemas habsent
    (keyValueComponent source ref keySchema run.options.fieldProperty)
  obtain ⟨tag, inner, k, type, required, reference, heq, -⟩ :=
    number_component source ref run.options.fieldProperty keySchema run.next
  rw [heq] at hunder
  exact ⟨⟨tag, _, hunder, rfl, rfl, rfl, fun _ hget => nomatch hget⟩, _, under?_keyPath hunder⟩

end New

/-! ## Schemas and sections -/

/-- On the way to the schemas of the components there is no schema. -/
theorem not_schema_of_section {run : Run} {keys : List String}
    (hkeys : keys <+: sectionKeys) {u : Node} (hu : run.document.under? keys = some u) :
    ∃ place, run.Sees u place ∧ ¬place.Alike (.one (.schema .schema)) := by
  have hnone : ∀ {role : Role}, (∀ hook, role ≠ .schema hook) →
      ¬Place.Alike (.one role) (.one (.schema .schema)) := fun hrole halike => by
    obtain ⟨-, hook, heq⟩ := halike.exists_hook
    exact hrole hook heq
  unfold sectionKeys at hkeys
  match keys with
  | [] =>
      obtain rfl : run.document = u := Option.some.inj hu
      exact ⟨.one .document, Tree.Sees.here (not_among _), hnone fun _ => Role.noConfusion⟩
  | [a] =>
      obtain rfl : a = "components" := by simpa using hkeys
      exact ⟨_, sees_components hu, hnone fun _ => Role.noConfusion⟩
  | [a, b] =>
      obtain ⟨rfl, rfl⟩ : a = "components" ∧ b = "schemas" := by simpa using hkeys
      exact ⟨_, sees_schemas hu, fun halike => nomatch halike.1⟩
  | _ :: _ :: _ :: _ => simp at hkeys

/-- A schema does not contain the sections of the document. -/
theorem IsSchema.uses_section {run : Run} {n : Nat} (h : IsSchema run n) {u : Node}
    (hu : run.node? n = some u) {keys : List String} (hkeys : keys <+: sectionKeys)
    {v : Node} {m : Nat}
    (hv : run.document.under? keys = some v) (htag : v.tag = some m) : Node.uses m u = 0 := by
  have hin := mem_subtrees_of_under? hv
  by_contra hused
  obtain ⟨w, hw, hwtag⟩ := List.mem_map.1 (List.count_pos_iff.1 (Nat.pos_of_ne_zero hused))
  obtain ⟨hholds, hutag⟩ := Run.node?_holds hu
  obtain rfl := h.sound.unique (hholds.below hw) (Or.inl hin) hwtag htag
  rcases hholds with hdocument | haside
  · obtain ⟨pre, hpre, hunder⟩ := exists_prefix_of_under?
      (List.nodup_append.1 h.sound.nodup).1 hv hdocument hw
    obtain ⟨place, hsees, hplace⟩ := not_schema_of_section (hpre.trans hkeys) hunder
    exact hplace (h.stands u place hsees hutag)
  · exact h.sound.disjoint hin (mem_subtrees_trans hw haside) rfl

end ProtoShape
