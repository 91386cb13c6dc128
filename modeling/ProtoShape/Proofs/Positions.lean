import ProtoShape.Proofs.Pointers
import ProtoShape.Proofs.Walk

/-!
# Positions of schemas

`SchemaPosition` says where the inline schemas of a document stand, without the table of
slots that drives a walk.  `Root` lists the places for schemas that are part of no other
schema, `Holds` the places for schemas inside a schema, and a position is an inline schema
at such a place.  References are no positions, and nothing below them is one.

A walk comes to each position once, after all positions below it (`walk_visits_positions`).
-/

namespace ProtoShape

variable {τ : Type}

/-! ## Where schemas stand -/

/-- A container has a schema for one of its media types. -/
inductive InContent (container : Tree τ) : List String → Tree τ → Prop where
  | media {type : String} {schema : Tree τ} : container.isReference = false →
      container.under? ["content", type, "schema"] = some schema →
      InContent container ["content", type, "schema"] schema

/-- A parameter has a schema, of its own or for one of its media types. -/
inductive InParameter (parameter : Tree τ) : List String → Tree τ → Prop where
  | schema {schema : Tree τ} : parameter.isReference = false →
      parameter.under? ["schema"] = some schema → InParameter parameter ["schema"] schema
  | content {keys : List String} {schema : Tree τ} : InContent parameter keys schema →
      InParameter parameter keys schema

/-- A path or an operation has a schema for one of its parameters. -/
inductive InParameters (holder : Tree τ) : List String → Tree τ → Prop where
  | item {tag : τ} {parameters : List (Tree τ)} {i : Nat} {parameter schema :
      Tree τ} {keys : List String} :
      holder.under? ["parameters"] = some (.list tag parameters) → parameters[i]? = some parameter →
      InParameter parameter keys schema →
      InParameters holder ("parameters" :: toString i :: keys) schema

/-- An operation has a schema, for a parameter, its request or one of its responses. -/
inductive InOperation (operation : Tree τ) : List String → Tree τ → Prop where
  | parameter {keys : List String} {schema : Tree τ} : InParameters operation keys schema →
      InOperation operation keys schema
  | requestBody {body schema : Tree τ} {keys : List String} :
      operation.under? ["requestBody"] = some body → InContent body keys schema →
      InOperation operation ("requestBody" :: keys) schema
  | response {status : String} {response schema : Tree τ} {keys : List String} :
      operation.under? ["responses", status] = some response → InContent response keys schema →
      InOperation operation ("responses" :: status :: keys) schema

/-- The identifier of an operation, if it is a text. -/
def Tree.operationId? (operation : Tree τ) : Option String :=
  operation.fields?.bind fun fields => Fields.text? fields "operationId"

/-- The components have a schema, under this name or for what has this name. -/
inductive InComponents (components : Tree τ) (name : String) : List String → Tree τ → Prop where
  | parameter {parameter schema : Tree τ} {keys : List String} :
      components.under? ["parameters", name] = some parameter → InParameter parameter keys schema →
      InComponents components name ("parameters" :: name :: keys) schema
  | content {part : String} {container schema : Tree τ} {keys : List String} :
      part ∈ ["requestBodies", "responses"] → components.under? [part, name] = some container →
      InContent container keys schema → InComponents components name (part :: name :: keys) schema
  | schema {schema : Tree τ} : components.under? ["schemas", name] = some schema →
      InComponents components name ["schemas", name] schema

/-- The places for schemas that are part of no other one, with the name that goes to the schemas
there and below. -/
inductive Root (document : Tree τ) : Option String → List String → Tree τ → Prop where
  | pathParameter {path : String} {item schema : Tree τ} {keys : List String} :
      document.under? ["paths", path] = some item → InParameters item keys schema →
      Root document none ("paths" :: path :: keys) schema
  | operation {path method : String} {operation schema : Tree τ} {keys : List String} :
      method ∈ operationKeys → document.under? ["paths", path, method] = some operation →
      InOperation operation keys schema →
      Root document operation.operationId? ("paths" :: path :: method :: keys) schema
  | component {components schema : Tree τ} {name : String} {keys : List String} :
      document.under? ["components"] = some components → InComponents components name keys schema →
      Root document (some name) ("components" :: keys) schema

/-- The places for schemas inside a schema, with the hook for each. -/
inductive Holds (fields : Fields τ) : Hook → List String → Tree τ → Prop where
  | keyword {key : String} {child : Tree τ} : key ∈ ["items", "additionalProperties", "not"] →
      fields.get? key = some child → Holds fields .property [key] child
  | property {key : String} {properties : Fields τ} {child : Tree τ} :
      Fields.map? fields "properties" = some properties → properties.get? key = some child →
      Holds fields .property ["properties", key] child
  | member {key : String} {members : List (Tree τ)} {i : Nat} {child : Tree τ} :
      key ∈ combiningKeys →
      Fields.items? fields key = some members → members[i]? = some child →
      Holds fields .schema [key, toString i] child

/-- The inline schemas of a document, as they are to be visited. -/
inductive SchemaPosition (document : Tree τ) : Visit τ → Prop where
  | root {name : Option String} {keys : List String} {tag : τ} {fields : Fields τ} :
      Root document name keys (.map tag fields) → Fields.isReference fields = false →
      SchemaPosition document ⟨.schema, name, ⟨keys⟩, tag, fields⟩
  | inside {visit : Visit τ} {hook : Hook} {keys : List String} {tag : τ} {fields : Fields τ} :
      SchemaPosition document visit → Holds visit.fields hook keys (.map tag fields) →
      Fields.isReference fields = false →
      SchemaPosition document ⟨hook, visit.name, ⟨visit.location.keys ++ keys⟩, tag, fields⟩

/-! ## What stands at these places -/

section Parts

variable {t schema : Tree τ} {keys : List String}

theorem InContent.mem_subtrees (h : InContent t keys schema) : schema ∈ t.subtrees := by
  obtain ⟨-, hunder⟩ := h
  exact Tree.mem_subtrees_of_under? hunder

theorem InParameter.mem_subtrees (h : InParameter t keys schema) : schema ∈ t.subtrees := by
  cases h with
  | schema _ hunder => exact Tree.mem_subtrees_of_under? hunder
  | content hcontent => exact hcontent.mem_subtrees

theorem InParameters.mem_subtrees (h : InParameters t keys schema) : schema ∈ t.subtrees := by
  obtain @⟨tag, parameters, i, parameter, _, _, hunder, hitem, hparameter⟩ := h
  have hin : schema ∈ (Tree.list tag parameters).subtrees :=
    Tree.mem_subtrees_of_child (List.mem_of_getElem? hitem) hparameter.mem_subtrees
  exact Tree.mem_subtrees_trans hin (Tree.mem_subtrees_of_under? hunder)

theorem InOperation.mem_subtrees (h : InOperation t keys schema) : schema ∈ t.subtrees := by
  cases h with
  | parameter hparameter => exact hparameter.mem_subtrees
  | requestBody hunder hcontent | response hunder hcontent =>
      exact Tree.mem_subtrees_trans hcontent.mem_subtrees (Tree.mem_subtrees_of_under? hunder)

theorem InComponents.mem_subtrees {name : String} (h : InComponents t name keys schema) :
    schema ∈ t.subtrees := by
  cases h with
  | parameter hunder hparameter =>
      exact Tree.mem_subtrees_trans hparameter.mem_subtrees (Tree.mem_subtrees_of_under? hunder)
  | content _ hunder hcontent =>
      exact Tree.mem_subtrees_trans hcontent.mem_subtrees (Tree.mem_subtrees_of_under? hunder)
  | schema hunder => exact Tree.mem_subtrees_of_under? hunder

theorem Root.mem_subtrees {name : Option String} (h : Root t name keys schema) :
    schema ∈ t.subtrees := by
  cases h with
  | pathParameter hunder hparameter =>
      exact Tree.mem_subtrees_trans hparameter.mem_subtrees (Tree.mem_subtrees_of_under? hunder)
  | operation _ hunder hin =>
      exact Tree.mem_subtrees_trans hin.mem_subtrees (Tree.mem_subtrees_of_under? hunder)
  | component hunder hin =>
      exact Tree.mem_subtrees_trans hin.mem_subtrees (Tree.mem_subtrees_of_under? hunder)

theorem Holds.mem_subtrees {tag : τ} {fields : Fields τ} {hook : Hook} {keys : List String}
    {child : Tree τ} (h : Holds fields hook keys child) :
    ∃ value ∈ (Tree.map tag fields).children, child ∈ value.subtrees := by
  have hvalue : ∀ {key : String} {value : Tree τ}, fields.get? key = some value →
      value ∈ (Tree.map tag fields).children := fun hget => by
    obtain ⟨key, -, hentry⟩ := Entries.mem_of_get? hget
    exact List.mem_map_of_mem hentry
  cases h with
  | keyword _ hget => exact ⟨child, hvalue hget, Tree.self_mem_subtrees child⟩
  | property hproperties hchild =>
      obtain ⟨_, hget⟩ := Fields.map?_eq_some_iff.1 hproperties
      exact ⟨_, hvalue hget, Tree.mem_subtrees_of_get? hchild⟩
  | member _ hitems hchild =>
      obtain ⟨_, hget⟩ := Fields.items?_eq_some_iff.1 hitems
      exact ⟨_, hvalue hget,
        Tree.mem_subtrees_of_child (List.mem_of_getElem? hchild) (Tree.self_mem_subtrees child)⟩

end Parts

/-! ## The walk above the schemas -/

/-- The site some keys further. -/
def Site.after (site : Site) (keys : List String) : Site :=
  { site with location := ⟨site.location.keys ++ keys⟩ }

theorem Site.after_after (site : Site) (keys more : List String) :
    (site.after keys).after more = site.after (keys ++ more) := by
  simp [Site.after]

/-- The site with the name that a part gives to the schemas below it. -/
def Site.within (site : Site) (role : Role) (t : Tree τ) : Site :=
  match role with
  | .operation => { site with name := t.operationId? }
  | _ => site

namespace Tree

variable {t : Tree τ} {site : Site} {visit : Visit τ}

theorem IsJson.of_under? (h : t.IsJson) {keys : List String} {u : Tree τ}
    (hu : t.under? keys = some u) :
    u.IsJson :=
  h.of_mem_subtrees (mem_subtrees_of_under? hu)

theorem under?_cons_iff {key : String} {keys : List String} {u : Tree τ} :
    t.under? (key :: keys) = some u ↔ ∃ v, t.under? [key] = some v ∧ v.under? keys = some u := by
  rw [← List.singleton_append, under?_append, Option.bind_eq_some_iff]

theorem under?_singleton {key : String} {u : Tree τ} :
    t.under? [key] = some u ↔ ∃ tag fields, t = .map tag fields ∧ fields.get? key = some u := by
  cases t with
  | map tag fields => simp [under?_map_cons]
  | _ => simp [under?_cons, fields?]

/-- From the entries of a place a walk comes to the values of its keys. -/
theorem mem_visits_entries (h : t.IsJson) {role : Role} {named : Bool} :
    visit ∈ t.visits ⟨.entries, role, named⟩ site ↔ ∃ key value, t.under? [key] = some value ∧
      visit ∈ value.visits (.one role)
        ((if named then { site with name := some key } else site).after [key]) := by
  cases t with
  | map tag fields =>
      have hobject := ((everywhere_map tag fields).1 h).1
      have hsite : ∀ key : String, site.entry ⟨.entries, role, named⟩ (.text key) =
          (if named then { site with name := some key } else site).after [key] := fun key => by
        cases named <;> rfl
      rw [mem_visits_map_entries rfl]
      constructor
      · rintro ⟨⟨k, value⟩, hentry, hvisit⟩
        obtain ⟨key, rfl, hget⟩ := hobject.mem_iff.1 hentry
        exact ⟨key, value, under?_singleton.2 ⟨tag, fields, rfl, hget⟩, hsite key ▸ hvisit⟩
      · rintro ⟨key, value, hunder, hvisit⟩
        obtain ⟨_, _, heq, hget⟩ := under?_singleton.1 hunder
        cases heq
        exact ⟨(.text key, value), hobject.mem_iff.2 ⟨key, rfl, hget⟩, (hsite key).symm ▸ hvisit⟩
  | _ => simp [visits, under?_singleton]

/-- From the elements of a place a walk comes to the items of a list. -/
theorem mem_visits_elements {role : Role} {named : Bool} :
    visit ∈ t.visits ⟨.elements, role, named⟩ site ↔ ∃ tag items, t = .list tag items ∧
      ∃ (i : Nat) (item : Tree τ), items[i]? = some item ∧
        visit ∈ item.visits (.one role) (site.after [toString i]) := by
  cases t with
  | list tag items =>
      rw [mem_visits_list]
      constructor
      · rintro ⟨-, hitem⟩
        exact ⟨tag, items, rfl, hitem⟩
      · rintro ⟨_, _, heq, hitem⟩
        cases heq
        exact ⟨rfl, hitem⟩
  | map tag fields => simp [visits_map_elements]
  | scalar tag s => simp

/-- From a part that is no schema a walk comes to the values of its slots. -/
theorem mem_visits_part {role : Role} (hrole : ∀ hook, role ≠ .schema hook) :
    visit ∈ t.visits (.one role) site ↔ (role.skipsReferences = true → t.isReference = false) ∧
      ∃ slot ∈ role.slots, ∃ value, t.under? [slot.key] = some value ∧
        visit ∈ value.visits slot.place ((site.within role t).after [slot.key]) := by
  cases t with
  | map tag fields =>
      have hself : Visit.of? role site tag fields = none := by
        cases role with
        | schema hook => exact absurd rfl (hrole hook)
        | _ => rfl
      have hadmits : role.admits fields = true ↔
          (role.skipsReferences = true → (map tag fields).isReference = false) := by
        have hsame : (map tag fields).isReference = Fields.isReference fields := rfl
        rw [Role.admits, hsame]
        cases role.skipsReferences <;> simp
      have hsite : site.inside role fields = site.within role (map tag fields) := by
        cases role <;> rfl
      rw [mem_visits_map_single rfl]
      simp only [Place.one, hself, reduceCtorEq, or_false, hadmits, hsite]
      have hget : ∀ key value, (map tag fields).under? [key] = some value ↔
          fields.get? key = some value :=
        fun key value => by simp [under?_map_cons]
      simp only [hget]
      rfl
  | _ => simp [visits, Place.one, under?_singleton]

theorem mem_visits_media : visit ∈ t.visits (.one .media) site ↔
    ∃ schema, t.under? ["schema"] = some schema ∧
    visit ∈ schema.visits (.one (.schema .schema)) (site.after ["schema"]) := by
  rw [mem_visits_part fun _ => Role.noConfusion]
  simp [Role.slots, Role.skipsReferences, Site.within, Place.one]

/-- From a keyword with entries a walk comes to the values below it. -/
theorem mem_visits_under_entries (h : t.IsJson) {key : String} {role : Role} {named : Bool} :
    (∃ value, t.under? [key] = some value ∧
      visit ∈ value.visits ⟨.entries, role, named⟩ (site.after [key])) ↔
    ∃ name value, t.under? [key, name] = some value ∧
      visit ∈ value.visits (.one role)
        ((if named then { site with name := some name } else site).after [key, name]) := by
  have hsite : ∀ name,
      (if named then { site.after [key] with name := some name }
          else site.after [key]).after [name] =
        (if named then { site with name := some name } else site).after [key, name] := by
    intro name
    cases named <;> simp [Site.after]
  constructor
  · rintro ⟨value, hunder, hvisit⟩
    obtain ⟨name, entry, hentry, hvisit⟩ := (mem_visits_entries (h.of_under? hunder)).1 hvisit
    exact ⟨name, entry, under?_cons_iff.2 ⟨value, hunder, hentry⟩, hsite name ▸ hvisit⟩
  · rintro ⟨name, entry, hunder, hvisit⟩
    obtain ⟨value, hunder, hentry⟩ := under?_cons_iff.1 hunder
    exact ⟨value, hunder,
      (mem_visits_entries (h.of_under? hunder)).2 ⟨name, entry, hentry, hsite name ▸ hvisit⟩⟩

/-- From a container a walk comes to the schemas of its media types. -/
theorem mem_visits_content (h : t.IsJson) : visit ∈ t.visits (.one .content) site ↔
    ∃ keys schema, InContent t keys schema ∧
      visit ∈ schema.visits (.one (.schema .schema)) (site.after keys) := by
  rw [mem_visits_part fun _ => Role.noConfusion]
  simp only [Role.slots, Role.skipsReferences, Site.within, List.mem_singleton, exists_eq_left,
    forall_const, mem_visits_under_entries h, mem_visits_media, Bool.false_eq_true, if_false,
    Site.after_after, List.cons_append, List.nil_append]
  constructor
  · rintro ⟨href, type, media, hmedia, schema, hschema, hvisit⟩
    exact ⟨_, schema, .media href (under?_concat.2 ⟨media, hmedia, hschema⟩), hvisit⟩
  · rintro ⟨_, schema, @⟨type, _, href, hunder⟩, hvisit⟩
    have hmedia : t.under? (["content", type] ++ ["schema"]) = some schema := hunder
    obtain ⟨media, hmedia, hschema⟩ := under?_concat.1 hmedia
    exact ⟨href, type, media, hmedia, schema, hschema, hvisit⟩

/-- From a parameter a walk comes to its own schema and to those of its media types. -/
theorem mem_visits_parameter (h : t.IsJson) : visit ∈ t.visits (.one .parameter) site ↔
    ∃ keys schema, InParameter t keys schema ∧
      visit ∈ schema.visits (.one (.schema .schema)) (site.after keys) := by
  -- the content of a parameter is walked as that of any other container
  have hparts : visit ∈ t.visits (.one .parameter) site ↔
      (t.isReference = false ∧ ∃ schema, t.under? ["schema"] = some schema ∧
        visit ∈ schema.visits (.one (.schema .schema)) (site.after ["schema"])) ∨
      visit ∈ t.visits (.one .content) site := by
    rw [mem_visits_part fun _ => Role.noConfusion, mem_visits_part fun _ => Role.noConfusion]
    simp [Role.slots, Role.skipsReferences, Site.within, Place.one, and_or_left]
  rw [hparts, mem_visits_content h]
  constructor
  · rintro (⟨href, schema, hunder, hvisit⟩ | ⟨keys, schema, hcontent, hvisit⟩)
    · exact ⟨_, schema, .schema href hunder, hvisit⟩
    · exact ⟨keys, schema, .content hcontent, hvisit⟩
  · rintro ⟨_, schema, ⟨href, hunder⟩ | hcontent, hvisit⟩
    · exact Or.inl ⟨href, schema, hunder, hvisit⟩
    · exact Or.inr ⟨_, schema, hcontent, hvisit⟩

/-- From a list of parameters a walk comes to the schemas of each. -/
theorem mem_visits_parameters (h : t.IsJson) :
    (∃ value, t.under? ["parameters"] = some value ∧
      visit ∈ value.visits ⟨.elements, .parameter, false⟩ (site.after ["parameters"])) ↔
    ∃ keys schema, InParameters t keys schema ∧
      visit ∈ schema.visits (.one (.schema .schema)) (site.after keys) := by
  constructor
  · rintro ⟨value, hunder, hvisit⟩
    obtain ⟨tag, items, rfl, i, parameter, hitem, hvisit⟩ := mem_visits_elements.1 hvisit
    have hjson :=
      (everywhere_list tag items).1 (h.of_under? hunder) parameter (List.mem_of_getElem? hitem)
    obtain ⟨keys, schema, hparameter, hvisit⟩ := (mem_visits_parameter hjson).1 hvisit
    exact ⟨_, schema, .item hunder hitem hparameter, by simpa [Site.after_after] using hvisit⟩
  · rintro ⟨_, schema, @⟨tag, items, i, parameter, _, keys, hunder, hitem, hparameter⟩, hvisit⟩
    have hjson :=
      (everywhere_list tag items).1 (h.of_under? hunder) parameter (List.mem_of_getElem? hitem)
    refine ⟨_, hunder, mem_visits_elements.2 ⟨tag, items, rfl, i, parameter, hitem, ?_⟩⟩
    exact (mem_visits_parameter hjson).2
      ⟨keys, schema, hparameter, by simpa [Site.after_after] using hvisit⟩

/-- From an operation a walk comes to the schemas of its parameters, its request and its
responses, and passes the identifier on to them. -/
theorem mem_visits_operation (h : t.IsJson) : visit ∈ t.visits (.one .operation) site ↔
    ∃ keys schema, InOperation t keys schema ∧
      visit ∈ schema.visits (.one (.schema .schema))
        ({ site with name := t.operationId? }.after keys) := by
  rw [mem_visits_part fun _ => Role.noConfusion]
  simp only [Role.slots, Role.skipsReferences, Site.within, List.mem_cons, List.not_mem_nil,
    or_false, exists_eq_or_imp, exists_eq_left, mem_visits_under_entries h, mem_visits_parameters h,
    Bool.false_eq_true, false_implies, true_and, if_false]
  constructor
  · rintro (⟨keys, schema, hparameter, hvisit⟩ | ⟨body, hunder, hvisit⟩ |
      ⟨status, response, hunder, hvisit⟩)
    · exact ⟨keys, schema, .parameter hparameter, hvisit⟩
    · obtain ⟨keys, schema, hcontent, hvisit⟩ := (mem_visits_content (h.of_under? hunder)).1 hvisit
      exact ⟨_, schema, .requestBody hunder hcontent, by simpa [Site.after_after] using hvisit⟩
    · obtain ⟨keys, schema, hcontent, hvisit⟩ := (mem_visits_content (h.of_under? hunder)).1 hvisit
      exact ⟨_, schema, .response hunder hcontent, by simpa [Site.after_after] using hvisit⟩
  · rintro ⟨_, schema, hparameter | ⟨hunder, hcontent⟩ | ⟨hunder, hcontent⟩, hvisit⟩
    · exact Or.inl ⟨_, schema, hparameter, hvisit⟩
    · refine Or.inr
        (Or.inl ⟨_, hunder, (mem_visits_content (h.of_under? hunder)).2 ⟨_, schema, hcontent, ?_⟩⟩)
      simpa [Site.after_after] using hvisit
    · refine Or.inr (Or.inr ⟨_, _, hunder,
        (mem_visits_content (h.of_under? hunder)).2 ⟨_, schema, hcontent, ?_⟩⟩)
      simpa [Site.after_after] using hvisit

/-- From a path a walk comes to the schemas of its parameters and to its operations. -/
theorem mem_visits_path (h : t.IsJson) : visit ∈ t.visits (.one .path) site ↔
    (∃ keys schema, InParameters t keys schema ∧
      visit ∈ schema.visits (.one (.schema .schema)) (site.after keys)) ∨
    ∃ method ∈ operationKeys, ∃ operation, t.under? [method] = some operation ∧
      visit ∈ operation.visits (.one .operation) (site.after [method]) := by
  rw [mem_visits_part fun _ => Role.noConfusion]
  simp only [Role.slots, Role.skipsReferences, Site.within, List.mem_cons, exists_eq_or_imp,
    List.mem_map, mem_visits_parameters h, Bool.false_eq_true, false_implies, true_and]
  refine or_congr_right ⟨?_, ?_⟩
  · rintro ⟨_, ⟨method, hmethod, rfl⟩, hoperation⟩
    exact ⟨method, hmethod, hoperation⟩
  · rintro ⟨method, hmethod, hoperation⟩
    exact ⟨_, ⟨method, hmethod, rfl⟩, hoperation⟩

/-- From the components a walk comes to the schemas of each, and passes its name on to them. -/
theorem mem_visits_components (h : t.IsJson) : visit ∈ t.visits (.one .components) site ↔
    ∃ name keys schema, InComponents t name keys schema ∧
      visit ∈ schema.visits (.one (.schema .schema))
        ({ site with name := some name }.after keys) := by
  rw [mem_visits_part fun _ => Role.noConfusion]
  simp only [Role.slots, Role.skipsReferences, Site.within, List.mem_cons, List.not_mem_nil,
    or_false, exists_eq_or_imp, exists_eq_left, mem_visits_under_entries h, Bool.false_eq_true,
    false_implies, true_and, if_true]
  constructor
  · rintro (⟨name, value, hunder, hvisit⟩ | ⟨name, value, hunder, hvisit⟩ |
      ⟨name, value, hunder, hvisit⟩ |
      ⟨name, schema, hunder, hvisit⟩)
    · obtain ⟨keys, schema, hparameter, hvisit⟩ :=
        (mem_visits_parameter (h.of_under? hunder)).1 hvisit
      exact ⟨name, _, schema, .parameter hunder hparameter,
        by simpa [Site.after_after] using hvisit⟩
    · obtain ⟨keys, schema, hcontent, hvisit⟩ := (mem_visits_content (h.of_under? hunder)).1 hvisit
      exact ⟨name, _, schema, .content (by simp) hunder hcontent,
        by simpa [Site.after_after] using hvisit⟩
    · obtain ⟨keys, schema, hcontent, hvisit⟩ := (mem_visits_content (h.of_under? hunder)).1 hvisit
      exact ⟨name, _, schema, .content (by simp) hunder hcontent,
        by simpa [Site.after_after] using hvisit⟩
    · exact ⟨name, _, schema, .schema hunder, hvisit⟩
  · rintro ⟨name, _, schema, ⟨hunder, hparameter⟩ | @⟨part, container, _, keys, hpart,
      hunder, hcontent⟩ |
      ⟨hunder⟩, hvisit⟩
    · refine Or.inl ⟨name, _, hunder,
        (mem_visits_parameter (h.of_under? hunder)).2 ⟨_, schema, hparameter, ?_⟩⟩
      simpa [Site.after_after] using hvisit
    · have hcontainer : visit ∈ container.visits (.one .content)
          ({ site with name := some name }.after [part, name]) :=
        (mem_visits_content (h.of_under? hunder)).2 ⟨keys, schema, hcontent, by
          simpa [Site.after_after] using hvisit⟩
      rcases List.mem_cons.1 hpart with rfl | hresponses
      · exact Or.inr (Or.inl ⟨name, _, hunder, hcontainer⟩)
      · obtain rfl := List.mem_singleton.1 hresponses
        exact Or.inr (Or.inr (Or.inl ⟨name, _, hunder, hcontainer⟩))
    · exact Or.inr (Or.inr (Or.inr ⟨name, schema, hunder, hvisit⟩))

/-- From a document a walk comes to the schemas that are part of no other one. -/
theorem mem_visits_document (h : t.IsJson) : visit ∈ t.visits (.one .document) .root ↔
    ∃ name keys schema, Root t name keys schema ∧
      visit ∈ schema.visits (.one (.schema .schema)) ⟨name, ⟨keys⟩⟩ := by
  rw [mem_visits_part fun _ => Role.noConfusion]
  simp only [Role.slots, Role.skipsReferences, Site.within, List.mem_cons, List.not_mem_nil,
    or_false, exists_eq_or_imp, exists_eq_left, mem_visits_under_entries h, Bool.false_eq_true,
    false_implies, true_and, if_false]
  constructor
  · rintro (⟨path, item, hunder, hvisit⟩ | ⟨components, hunder, hvisit⟩)
    · rcases (mem_visits_path (h.of_under? hunder)).1 hvisit with
        ⟨keys, schema, hparameter, hvisit⟩ | ⟨method, hmethod, operation, hoperation, hvisit⟩
      · exact ⟨_, _, schema, .pathParameter hunder hparameter, hvisit⟩
      · have hunder : t.under? ["paths", path, method] = some operation :=
          under?_concat.2 ⟨item, hunder, hoperation⟩
        obtain ⟨keys, schema, hin, hvisit⟩ := (mem_visits_operation (h.of_under? hunder)).1 hvisit
        exact ⟨_, _, schema, .operation hmethod hunder hin, hvisit⟩
    · obtain ⟨name, keys, schema, hin, hvisit⟩ :=
        (mem_visits_components (h.of_under? hunder)).1 hvisit
      exact ⟨_, _, schema, .component hunder hin, hvisit⟩
  · rintro ⟨_, _, schema, ⟨hunder, hparameter⟩ | @⟨path, method, operation, _, _,
      hmethod, hunder, hin⟩ |
      ⟨hunder, hin⟩, hvisit⟩
    · exact Or.inl ⟨_, _, hunder,
        (mem_visits_path (h.of_under? hunder)).2 (Or.inl ⟨_, schema, hparameter, hvisit⟩)⟩
    · obtain ⟨item, hitem, hoperation⟩ := under?_concat.1
        (show t.under? (["paths", path] ++ [method]) = some operation from hunder)
      refine Or.inl ⟨_, item, hitem, (mem_visits_path (h.of_under? hitem)).2 (Or.inr ?_)⟩
      exact ⟨method, hmethod, operation, hoperation,
        (mem_visits_operation (h.of_under? hunder)).2 ⟨_, schema, hin, hvisit⟩⟩
    · exact Or.inr ⟨_, hunder, (mem_visits_components (h.of_under? hunder)).2
        ⟨_, _, schema, hin, hvisit⟩⟩

/-! ## The walk inside a schema -/

/-- The slots of a schema hold one schema, the entries of `properties`, or the members of a
composite. -/
theorem mem_slots_schema {hook : Hook} {slot : Slot} : slot ∈ (Role.schema hook).slots ↔
    (∃ key ∈ ["items", "additionalProperties", "not"], slot = ⟨key, .one (.schema .property)⟩) ∨
      slot = ⟨"properties", .entries, .schema .property, false⟩ ∨
        ∃ key ∈ combiningKeys, slot = ⟨key, .elements, .schema .schema, false⟩ := by
  simp only [Role.slots, combiningKeys, Place.one, List.mem_cons, List.not_mem_nil, or_false,
    exists_eq_or_imp, exists_eq_left]
  tauto

/-- From a schema a walk comes to the schemas that it holds, and to the schema itself. -/
theorem mem_visits_schema {tag : τ} {fields : Fields τ}
    (h : (map tag fields).IsJson) {place : Place}
    {hook : Hook} (hspread : place.spread = .single) (hrole : place.role = .schema hook) :
    visit ∈ (map tag fields).visits place site ↔ Fields.isReference fields = false ∧
      ((∃ hook' keys child, Holds fields hook' keys child ∧
          visit ∈ child.visits (.one (.schema hook')) (site.after keys)) ∨
        visit = visitAt hook site tag fields) := by
  have hadmits : place.role.admits fields = true ↔ Fields.isReference fields = false := by
    simp [hrole, Role.admits, Role.skipsReferences]
  have hself : Visit.of? place.role site tag fields = some visit ↔
      visit = visitAt hook site tag fields := by
    rw [hrole]
    exact ⟨fun heq => (Option.some.inj heq).symm, fun heq => congrArg some heq.symm⟩
  have hvalue : ∀ {key : String} {value : Tree τ}, fields.get? key = some value → value.IsJson :=
    fun hget => h.of_under? (under?_singleton.2 ⟨tag, fields, rfl, hget⟩)
  have hbelow : ∀ key, (site.inside place.role fields).below key = site.after [key] := fun key => by
    rw [hrole]
    rfl
  rw [mem_visits_map_single hspread, hadmits, hself]
  refine and_congr_right fun _ => or_congr_left ?_
  have hslots := @mem_slots_schema hook
  rw [← hrole] at hslots
  simp only [hslots, hbelow]
  constructor
  · rintro ⟨_, ⟨key, hkey, rfl⟩ | rfl | ⟨key, hkey, rfl⟩, value, hget, hvisit⟩
    · exact ⟨_, _, value, .keyword hkey hget, hvisit⟩
    · obtain ⟨key, child, hunder, hchildren⟩ := (mem_visits_entries (hvalue hget)).1 hvisit
      obtain ⟨_, properties, rfl, hchild⟩ := under?_singleton.1 hunder
      refine ⟨_, _, child, .property (Fields.map?_eq_some_iff.2 ⟨_, hget⟩) hchild, ?_⟩
      simpa [Site.after_after] using hchildren
    · obtain ⟨_, members, rfl, i, child, hchild, hvisit⟩ := mem_visits_elements.1 hvisit
      refine ⟨_, _, child, .member hkey (Fields.items?_eq_some_iff.2 ⟨_, hget⟩) hchild, ?_⟩
      simpa [Site.after_after] using hvisit
  · rintro ⟨_, _, child, ⟨hkey, hget⟩ | @⟨key, _, _, hproperties, hchild⟩ |
      ⟨hkey, hitems, hchild⟩, hvisit⟩
    · exact ⟨_, Or.inl ⟨_, hkey, rfl⟩, child, hget, hvisit⟩
    · obtain ⟨_, hget⟩ := Fields.map?_eq_some_iff.1 hproperties
      refine ⟨_, Or.inr (Or.inl rfl), _, hget,
        (mem_visits_entries (hvalue hget)).2 ⟨key, child, ?_, ?_⟩⟩
      · exact under?_singleton.2 ⟨_, _, rfl, hchild⟩
      · simpa [Site.after_after] using hvisit
    · obtain ⟨_, hget⟩ := Fields.items?_eq_some_iff.1 hitems
      refine ⟨_, Or.inr (Or.inr ⟨_, hkey, rfl⟩), _, hget,
        mem_visits_elements.2 ⟨_, _, rfl, _, child, hchild, ?_⟩⟩
      simpa [Site.after_after] using hvisit

/-- What holds of an inline schema, and from each schema on of those inside it, holds of all that
a walk comes to from there. -/
theorem forall_mem_visits {P : Visit τ → Prop} (hjson : t.IsJson)
    (hinside : ∀ visit hook keys tag fields, P visit →
      Holds visit.fields hook keys (map tag fields) →
      Fields.isReference fields = false →
        P ⟨hook, visit.name, ⟨visit.location.keys ++ keys⟩, tag, fields⟩)
    {hook : Hook} (hself : ∀ tag fields, t = map tag fields → Fields.isReference fields = false →
      P (visitAt hook site tag fields)) (h : visit ∈ t.visits (.one (.schema hook)) site) :
      P visit := by
  induction t using Tree.below_induction generalizing hook site with
  | step t ih =>
      cases t with
      | map tag fields =>
          obtain ⟨href, ⟨hook', keys, child, hholds, hvisit⟩ | rfl⟩ :=
            (mem_visits_schema hjson rfl rfl).1 h
          · obtain ⟨value, hvalue, hchild⟩ := hholds.mem_subtrees
            have hbelow := hjson.of_mem_subtrees (mem_subtrees_of_child hvalue hchild)
            refine ih value hvalue child hchild hbelow ?_ hvisit
            rintro tag' fields' rfl href'
            exact hinside _ hook' keys tag' fields' (hself tag fields rfl href) hholds href'
          · exact hself tag fields rfl href
      | list tag items => exact absurd (mem_visits_list.1 h).1 Spread.noConfusion
      | scalar tag s => simp at h

/-- A walk that comes to a schema comes to the inline schemas inside it. -/
theorem mem_visits_of_holds {place : Place} {hook : Hook} {keys : List String} {tag : τ}
    {fields : Fields τ} (hjson : t.IsJson) (h : visit ∈ t.visits place site)
    (hholds : Holds visit.fields hook keys (map tag fields))
    (href : Fields.isReference fields = false) :
    ⟨hook, visit.name, ⟨visit.location.keys ++ keys⟩, tag, fields⟩ ∈ t.visits place site := by
  obtain ⟨above, stop, siteOf, hreach, hspread, hrole, hadmits, heq⟩ := reaches_of_mem_visits h
  have hvisit : Visit.location visit = siteOf.location ∧ visit.name = siteOf.name := by
    rw [heq]
    exact ⟨rfl, rfl⟩
  have hschema := hjson.of_mem_subtrees hreach.mem_subtrees
  obtain ⟨value, hvalue, hchild⟩ := hholds.mem_subtrees
  have hchildJson := hschema.of_mem_subtrees (mem_subtrees_of_child hvalue hchild)
  have hadmits : Fields.isReference visit.fields = false := by
    simpa [Role.admits, Role.skipsReferences] using hadmits
  refine hreach.visits_subset ((mem_visits_schema hschema hspread hrole).2 ⟨hadmits, Or.inl ?_⟩)
  refine ⟨hook, keys, _, hholds, (mem_visits_schema hchildJson rfl rfl).2 ⟨href, Or.inr ?_⟩⟩
  rw [hvisit.1, hvisit.2]
  rfl

/-- A walk comes to the positions of schemas, and to nothing else. -/
theorem mem_documentVisits_iff (h : t.IsJson) : visit ∈ t.documentVisits ↔
    SchemaPosition t visit := by
  constructor
  · intro hvisit
    obtain ⟨name, keys, schema, hroot, hvisit⟩ := (mem_visits_document h).1 hvisit
    refine forall_mem_visits (h.of_mem_subtrees hroot.mem_subtrees) ?_ ?_ hvisit
    · exact fun _ _ _ _ _ habove hholds href => habove.inside hholds href
    · rintro tag fields rfl href
      exact .root hroot href
  · intro hposition
    induction hposition with
    | @root name keys tag fields hroot href =>
        have hjson := h.of_mem_subtrees hroot.mem_subtrees
        exact (mem_visits_document h).2
          ⟨name, keys, _, hroot, (mem_visits_schema hjson rfl rfl).2 ⟨href, Or.inr rfl⟩⟩
    | inside _ hholds href ih => exact mem_visits_of_holds h ih hholds href

end Tree

/-- A walk over a JSON document with a hook that changes nothing calls the hook once for each
inline schema of the document and for nothing else, with the name and the location that the
position of the schema gives.  It comes to no location twice, and to each schema after all
schemas below it. -/
theorem walk_visits_positions {tag : τ} {fields : Fields τ} (h : (Tree.map tag fields).IsJson) :
    ∃ visits, (Tree.map tag fields).checkedVisits = .ok visits ∧
      (∀ (m : Type → Type) [Monad m] [LawfulMonad m] (act : Visit τ → m Unit),
        (Tree.map tag fields).replaceSchemas (observing act) (.one .document) .root id =
          (do forM visits act; return .map tag fields)) ∧
      (∀ visit, visit ∈ visits ↔ SchemaPosition (.map tag fields) visit) ∧
      (visits.map fun visit => visit.location.render).Nodup ∧ visits.Pairwise Visit.NotAbove := by
  refine ⟨(Tree.map tag fields).documentVisits, rfl, ?_, fun visit =>
    Tree.mem_documentVisits_iff h, ?_,
    Tree.visits_ordered h _ _⟩
  · intro m _ _ act
    exact Tree.replaceSchemas_observing act _ _ _ _
  · have hnodup := (Tree.nodup_location_visits h (.one .document) .root).map
      fun _ _ => Location.render_injective
    rwa [List.map_map] at hnodup

/-- A document with a parameter of a path, an operation and a component. -/
def petStore : Value := .ofEntries [
  ("paths", .ofEntries [("/pets", .ofEntries [
    ("parameters", .ofList [.ofEntries [("schema", .ofEntries [])],
      .ofEntries [("$ref", .ofText "#/components/parameters/limit")]]),
    ("get", .ofEntries [
      ("operationId", .ofText "listPets"),
      ("responses", .ofEntries [("200", .ofEntries [("content", .ofEntries [
        ("application/json",
          .ofEntries [("schema", .ofEntries [("items", .ofEntries [])])])])])])])])]),
  ("components", .ofEntries [("schemas", .ofEntries [("Pet", .ofEntries [
    ("properties", .ofEntries [("a~b", .ofEntries [])]),
    ("allOf",
      .ofList [.ofEntries [], .ofEntries [("$ref", .ofText "#/components/schemas/Pet")]])])])])]

theorem walk_visits_positions_petStore : petStore.IsJson ∧
    ∃ visits, petStore.checkedVisits = .ok visits ∧
      (∀ visit, visit ∈ visits ↔ SchemaPosition petStore visit) ∧
      visits.map (fun visit => (visit.hook, visit.name, visit.location.render)) = [
        (.schema, none, "#/paths/~1pets/parameters/0/schema"),
        (.property, some "listPets",
          "#/paths/~1pets/get/responses/200/content/application~1json/schema/items"),
        (.schema, some "listPets",
          "#/paths/~1pets/get/responses/200/content/application~1json/schema"),
        (.property, some "Pet", "#/components/schemas/Pet/properties/a~0b"),
        (.schema, some "Pet", "#/components/schemas/Pet/allOf/0"),
        (.schema, some "Pet", "#/components/schemas/Pet")] := by
  have hjson : petStore.IsJson := by decide +kernel
  obtain ⟨visits, hvisits, -, hpositions, -, -⟩ := walk_visits_positions hjson
  refine ⟨hjson, visits, hvisits, hpositions, ?_⟩
  obtain rfl : petStore.documentVisits = visits := Except.ok.inj hvisits
  decide +kernel

end ProtoShape
