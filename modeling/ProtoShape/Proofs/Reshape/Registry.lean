import ProtoShape.Proofs.Pointers
import ProtoShape.Proofs.Reshape.Components
import ProtoShape.Proofs.Reshape.Presence
import ProtoShape.Proofs.Reshape.Total

/-!
# The registry of components

The registry of a run binds the names of the components to nodes, by identity.  What
becomes of the nodes themselves does not show there.

* A change of one node leaves the registry as it is, unless the node is a section, that is
  the document, its components or their schemas (`Run.Sound.schemas?_modifyNode`).
* So does a phase that replaces schemas, since what replaces a schema is the same node
  (`Phase.run_schemas?`).
* A pointer to a component resolves to the node that the registry binds its name to
  (`Run.Mapped.resolve_component`).
-/

namespace ProtoShape

open Rules Tree

/-! ## Bindings -/

/-- The keys of a mapping, each with the identity of its value. -/
def Tree.bindings? (u : Node) : Option (Entries Identity) :=
  u.fields?.map fun fields => fields.mapValues Node.identity

/-- The bindings of the schemas of the components, where there are schemas.  The inner option
says whether they are a mapping. -/
def Run.schemas? (run : Run) : Option (Option (Entries Identity)) :=
  (run.document.under? sectionKeys).map Tree.bindings?

/-- The names of the components with the nodes that they are bound to. -/
def Run.registry (run : Run) : Entries Identity := run.schemas?.join.getD ∅

/-- The schemas of the components are a mapping, if there are any. -/
def Run.Mapped (run : Run) : Prop :=
  ∀ u, run.document.under? sectionKeys = some u → u.fields?.isSome = true

namespace Node

theorem identity_of_tag {u : Node} {n : Nat} (h : u.tag = some n) : identity u ≠ .tag none := by
  unfold identity
  split
  · exact Identity.noConfusion
  · exact Identity.noConfusion
  · rw [h]
    simp

/-- Numbering keeps the identity of a node that has one. -/
theorem identity_number {u : Node} (h : identity u ≠ .tag none) (next : Nat) :
    identity (number u next).1 = identity u := by
  cases u with
  | scalar tag s =>
      cases tag with
      | some n => rfl
      | none =>
          cases s with
          | null | bool => rfl
          | _ => exact absurd rfl h
  | list tag items =>
      cases tag with
      | some n => rfl
      | none => exact absurd rfl h
  | map tag fields =>
      cases tag with
      | some n => rfl
      | none => exact absurd rfl h

theorem identities_numberEntries {entries : List (Scalar × Node)}
    (h : ∀ entry ∈ entries, identity entry.2 ≠ .tag none) (next : Nat) :
    (numberEntries entries next).1.map (fun entry => (entry.1, identity entry.2)) =
      entries.map fun entry => (entry.1, identity entry.2) := by
  induction entries generalizing next with
  | nil => rfl
  | cons entry rest ih =>
      obtain ⟨key, value⟩ := entry
      simp only [numberEntries, List.map_cons, identity_number (h (key, value) List.mem_cons_self),
        ih fun entry hentry => h entry (List.mem_cons_of_mem _ hentry)]

/-- Numbering keeps bindings to nodes that have an identity. -/
theorem bindings?_number {u : Node}
    (h : ∀ bindings, u.bindings? = some bindings → ∀ entry ∈ bindings.toList, entry.2 ≠ .tag none)
    (next : Nat) : (number u next).1.bindings? = u.bindings? := by
  cases u with
  | scalar tag s => cases tag <;> rfl
  | list tag items => cases tag <;> rfl
  | map tag fields =>
      have hentries : ∀ entry ∈ fields.toList, identity entry.2 ≠ .tag none := fun entry hentry =>
        h _ rfl (entry.1, identity entry.2) (List.mem_map.2 ⟨entry, hentry, rfl⟩)
      cases tag <;>
        exact congrArg (fun l => some (Entries.mk l)) (identities_numberEntries hentries _)

theorem identity_mapChildren (g : Node → Node) (u : Node) :
    identity (u.mapChildren g) = identity u := by
  cases u <;> rfl

variable {n : Nat} {f : Node → Node}

theorem identity_modify {t : Node} (h : t.tag = some n → identity (f t) = identity t) :
    identity (modify n f t) = identity t := by
  by_cases htag : t.tag = some n
  · rw [modify_self htag, h htag]
  · rw [modify_of_ne htag, identity_mapChildren]

theorem bindings?_mapChildren {g : Node → Node} {u : Node}
    (h : ∀ child ∈ u.children, identity (g child) = identity child) :
    (u.mapChildren g).bindings? = u.bindings? := by
  cases u with
  | map tag fields =>
      simp only [mapChildren, bindings?, fields?, Option.map_some, Entries.mapValues, List.map_map]
      exact congrArg (fun l => some (Entries.mk l)) (List.map_congr_left fun entry hentry =>
        congrArg (Prod.mk entry.1) (h entry.2 (List.mem_map_of_mem hentry)))
  | _ => rfl

/-- Keys lead to the image of what they led to, where no node on the way is replaced. -/
theorem under?_modify_of_ne {t : Node} {keys : List String}
    (h : ∀ pre key rest, keys = pre ++ key :: rest → ∀ u, t.under? pre = some u → u.tag ≠ some n) :
    (modify n f t).under? keys = (t.under? keys).map (modify n f) := by
  induction keys generalizing t with
  | nil => rfl
  | cons key rest ih =>
      have hhere := h [] key rest rfl t rfl
      rw [modify_of_ne hhere]
      cases t with
      | map tag fields =>
          rw [mapChildren, under?_map_cons, under?_map_cons, Entries.get?_mapValues]
          cases hget : fields.get? key with
          | none => rfl
          | some value =>
              refine ih fun pre next post heq u hu =>
                h (key :: pre) next post (by rw [heq]; rfl) u ?_
              rw [under?_map_cons, hget]
              exact hu
      | _ => rfl

end Node

/-! ## Changes of one node -/

theorem identity_onFields (f : Fields Tag → Fields Tag) (u : Node) :
    Node.identity (onFields f u) = Node.identity u := by
  cases u <;> rfl

theorem identity_onItems (f : List Node → List Node) (u : Node) :
    Node.identity (onItems f u) = Node.identity u := by
  cases u <;> rfl

section Changes

variable {run : Run} {n : Nat}

/-- A change of a node that is no section leaves the bindings of the schemas as they are. -/
theorem Run.Sound.schemas?_modifyNode (h : run.Sound) (hn : ¬run.IsSection n) {f : Node → Node}
    (hf : ∀ u, Node.identity (f u) = Node.identity u) :
    (run.modifyNode n f).schemas? = run.schemas? := by
  have hidentity : ∀ u : Node, u.tag = some n →
      Node.identity (Node.numberedFrom run.next f u) = Node.identity u := by
    intro u htag
    rw [Node.numberedFrom, Node.identity_number, hf]
    rw [hf]
    exact Node.identity_of_tag htag
  have haway : ∀ pre, pre <+: sectionKeys → ∀ u, run.document.under? pre = some u →
      u.tag ≠ some n :=
    fun pre hpre u hu htag => hn ⟨pre, hpre, u, hu, htag⟩
  unfold schemas?
  rw [h.document_modifyNode, Node.under?_modify_of_ne
    fun pre key rest heq => haway pre ⟨key :: rest, heq.symm⟩]
  cases hschemas : run.document.under? sectionKeys with
  | none => rfl
  | some u =>
      simp only [Option.map_some]
      rw [Node.modify_of_ne (haway _ List.prefix_rfl u hschemas),
        Node.bindings?_mapChildren fun child _ => Node.identity_modify (hidentity child)]

/-- A schema is no section. -/
theorem IsSchema.not_section (h : IsSchema run n) : ¬run.IsSection n := by
  rintro ⟨keys, hkeys, u, hu, htag⟩
  obtain ⟨place, hsees, hplace⟩ := not_schema_of_section hkeys hu
  exact hplace (h.stands u place hsees htag)

/-- What stands under another keyword is no section. -/
theorem Run.Sound.not_section_of_get? (h : run.Sound) {owner : Tag}
    {fields : Fields Tag} {key : String}
    {value : Node} (hholds : run.Holds (.map owner fields)) (hget : fields.get? key = some value)
    (htag : value.tag = some n) (hkey : key ∉ sectionKeys) : ¬run.IsSection n := by
  rintro ⟨keys, hkeys, u, hu, hutag⟩
  rcases List.eq_nil_or_concat keys with rfl | ⟨pre, last, rfl⟩
  · -- The document stands under no keyword.
    obtain rfl : run.document = u := Option.some.inj hu
    obtain ⟨k, -, hmem⟩ := Entries.mem_of_get? hget
    have hchild : value ∈ (Tree.map owner fields).children := List.mem_map.2 ⟨_, hmem, rfl⟩
    exact h.tag_ne_of_child hholds hchild (htag.trans hutag.symm)
  · rw [List.concat_eq_append] at hu hkeys
    obtain ⟨v, hv, hlast⟩ := under?_concat.1 hu
    cases v with
    | map tag inner =>
        have hinner : inner.get? last = some u := by simpa [under?_map_cons] using hlast
        obtain ⟨-, rfl⟩ :=
          h.keyword_unique hholds (run.holds_document.below (mem_subtrees_of_under? hv))
          hget hinner (htag.trans hutag.symm)
        exact hkey (hkeys.mem (List.mem_append_right pre List.mem_cons_self))
    | _ => cases hlast

end Changes

/-! ## Phases that replace schemas -/

/-- The keys that lead from a place to the schemas of the components. -/
def Place.toSchemas? (place : Place) : Option (List String) :=
  match place.spread, place.role with
  | .single, .document => some sectionKeys
  | .single, .components => some sectionKeys.tail
  | .entries, .schema _ => some []
  | _, _ => none

theorem Place.toSchemas?_cons {place : Place} {key : String} {rest : List String}
    (h : place.toSchemas? = some (key :: rest)) :
    place.spread = .single ∧ ∃ slot ∈ place.role.slots, slot.key = key ∧
    slot.place.toSchemas? = some rest := by
  unfold Place.toSchemas? at h
  split at h
  · rename_i hspread hrole
    cases h
    exact ⟨hspread, ⟨"components", .single, .components, false⟩, by rw [hrole]; decide, rfl, rfl⟩
  · rename_i hspread hrole
    cases h
    exact ⟨hspread, ⟨"schemas", .entries, .schema .schema, true⟩, by rw [hrole]; decide, rfl, rfl⟩
  · cases h
  · cases h

theorem Place.spread_of_toSchemas? {place : Place} (h : place.toSchemas? = some []) :
    place.spread = .entries := by
  unfold Place.toSchemas? at h
  split at h
  · cases h
  · cases h
  · assumption
  · cases h

/-- The same node, with the same bindings where it leads to the schemas of the components. -/
structure Rebound (t : Node) (place : Place) (result : Node) : Prop where
  identity : Node.identity result = Node.identity t
  schemas : ∀ keys, place.toSchemas? = some keys →
    (result.under? keys).map Tree.bindings? = (t.under? keys).map Tree.bindings?

/-- A node and its replacement. -/
abbrev ReboundIn : Replacement Tag := fun t place _ _ result => Rebound t place result

theorem entriesReplaced_identities {place : Place} {site : Site}
    {entries entries' : List (Scalar × Node)} {around : List (Scalar × Node) → Node}
    (h : EntriesReplaced ReboundIn place site entries around entries') :
    entries'.map (fun entry => (entry.1, Node.identity entry.2)) =
      entries.map fun entry => (entry.1, Node.identity entry.2) := by
  induction h with
  | nil => rfl
  | cons hvalue _ ih => rw [List.map_cons, List.map_cons, ih, hvalue.identity]

/-- What replaces a schema is the same node, whatever becomes of its fields. -/
theorem replaces_rebound {m : Type → Type} [Monad m] {L : Outcome m}
    {f : Visit Tag → (Node → Node) → m (Fields Tag)}
    (hf : ∀ visit around, L.holds (f visit around) fun _ => True) :
    Replaces L f (fun _ _ _ => True) ReboundIn where
  below _ _ := trivial
  keep _ _ := ⟨rfl, fun _ _ => rfl⟩
  list := by
    intro tag items place site around items' _ hspread _
    refine ⟨rfl, fun keys hkeys => ?_⟩
    cases keys with
    | nil => cases hspread.symm.trans (Place.spread_of_toSchemas? hkeys)
    | cons => rfl
  entries := by
    intro tag fields place site around entries' _ hspread hentries
    refine ⟨rfl, fun keys hkeys => ?_⟩
    cases keys with
    | nil =>
        exact congrArg (fun l => some (some (Entries.mk l))) (entriesReplaced_identities hentries)
    | cons key rest => cases hspread.symm.trans (Place.toSchemas?_cons hkeys).1
  part := by
    intro tag fields place site around result _ hspread _ _ hslots
    refine ⟨rfl, fun keys hkeys => ?_⟩
    cases keys with
    | nil => cases hspread.symm.trans (Place.spread_of_toSchemas? hkeys)
    | cons key rest =>
        obtain ⟨-, slot, hslot, rfl, hrest⟩ := Place.toSchemas?_cons hkeys
        rw [under?_map_cons, under?_map_cons]
        rcases hslots.get?_slot place.role.slots_nodup (fun _ _ => rfl) hslot with
          ⟨hbefore, hafter⟩ | ⟨value, value', _, hbefore, hafter, hM⟩
        · rw [hbefore, hafter]
        · rw [hbefore, hafter]
          exact hM.schemas rest hrest
  schema := by
    intro tag fields place site around fields' hook _ hspread hrole _ _
    refine L.mono (hf _ around) fun result _ => ⟨rfl, fun keys hkeys => ?_⟩
    cases keys with
    | nil => cases hspread.symm.trans (Place.spread_of_toSchemas? hkeys)
    | cons key rest =>
        unfold Place.toSchemas? at hkeys
        rw [hspread, hrole] at hkeys
        cases hkeys

/-- Numbering keeps the bindings of the schemas, where the nodes have been numbered before. -/
theorem Run.Sound.schemas?_settle {run : Run} (h : run.Sound) {document : Node}
    (hdocument : Rebound run.document (.one .document) document) (diagnostics : List Diagnostic) :
    (Run.settle { run with document, diagnostics }).schemas? = run.schemas? := by
  have hsame : (document.under? sectionKeys).map Tree.bindings? = run.schemas? :=
    hdocument.schemas sectionKeys rfl
  have hnumber : (Run.settle { run with document, diagnostics }).document =
      (Node.number document run.next).1 := rfl
  obtain ⟨k, -, hunder⟩ := Node.under?_number document sectionKeys run.next
  rw [← hsame]
  unfold schemas?
  rw [hnumber, hunder, Option.map_map]
  cases hschemas : document.under? sectionKeys with
  | none => rfl
  | some u =>
      refine congrArg some (Node.bindings?_number (fun bindings hbindings entry hentry => ?_) k)
      rw [hschemas] at hsame
      obtain ⟨old, hold, heq⟩ := Option.map_eq_some_iff.1 hsame.symm
      rw [hbindings] at heq
      obtain ⟨fields, hfields, rfl⟩ := Option.map_eq_some_iff.1 heq
      obtain ⟨⟨key, value⟩, hvalue, rfl⟩ := List.mem_map.1 hentry
      cases old with
      | map tag inner =>
          cases hfields
          obtain ⟨n, -, htag⟩ := h.exists_tag (run.holds_document.below (mem_subtrees_trans
            (mem_subtrees_of_child (List.mem_map_of_mem hvalue) (self_mem_subtrees value))
            (mem_subtrees_of_under? hold)))
          exact Node.identity_of_tag htag
      | _ => cases hfields

theorem cleanUp_rebound {options : Options} {document result : Node} {log log' : List Diagnostic}
    (h : (cleanUp options document).run log = (.ok result, log')) :
    Rebound document (.one .document) result := by
  have hrecorded : (Recording.allowing fun _ => True).holds (cleanUp options document)
      (Rebound document (.one .document)) :=
    (replaces_rebound fun _ _ => cleanUpSchema_recorded options _ _ _).holds
      document (.one .document) .root id trivial
  exact (hrecorded log).result result (congrArg Prod.fst h)

theorem markGroups_rebound {options : Options} {document result : Node}
    (h : markGroups options document = .ok result) : Rebound document (.one .document) result :=
  (replaces_rebound (L := exceptOutcome) fun _ _ _ _ => trivial).holds
    document (.one .document) .root id trivial result h

/-- The first and the third phase leave the registry as it is. -/
theorem Phase.run_schemas? {phase : Phase} (hphase : phase ≠ .restructure)
    {run after : Run} (h : run.Sound) (hrun : phase.run.run run = (.ok (), after)) :
    after.schemas? = run.schemas? ∧ after.valueComponents = run.valueComponents ∧
    after.options = run.options := by
  cases phase with
  | simplify =>
      obtain ⟨document, diagnostics, hclean, rfl⟩ := Phase.simplify_of_ok hrun
      exact ⟨h.schemas?_settle (cleanUp_rebound hclean) diagnostics, rfl, rfl⟩
  | restructure => exact absurd rfl hphase
  | annotate =>
      obtain ⟨document, hmark, rfl⟩ := Phase.annotate_of_ok hrun
      exact ⟨h.schemas?_settle (markGroups_rebound hmark) run.diagnostics, rfl, rfl⟩

/-! ## Pointers into the registry -/

theorem Run.mapped_iff {run : Run} : run.Mapped ↔ run.schemas? ≠ some none := by
  unfold Mapped schemas?
  cases run.document.under? sectionKeys with
  | none => simp
  | some u => cases u <;> simp [Tree.bindings?, Tree.fields?]

theorem Tree.under?_mapTags {τ σ : Type} (f : τ → σ) (t : Tree τ) (keys : List String) :
    (t.mapTags f).under? keys = (t.under? keys).map fun u => u.mapTags f := by
  induction keys generalizing t with
  | nil => rfl
  | cons key rest ih =>
      cases t with
      | map tag fields =>
          rw [mapTags_map, under?_map_cons, under?_map_cons, Fields.get?_mapTags]
          cases fields.get? key with
          | none => rfl
          | some value => exact ih value
      | _ => rfl

/-- Where the schemas of a value are a mapping, so are those of the run that starts with it. -/
theorem Run.start_mapped {τ : Type} (options : Options) {value : Tree τ}
    (h : ∀ u, value.under? sectionKeys = some u → u.fields?.isSome = true) :
    (Run.start options (.ofValue value)).Mapped := by
  intro u hu
  obtain ⟨k, -, hunder⟩ := Node.under?_number (.ofValue value) sectionKeys 0
  have hu' : (Node.number (.ofValue value) 0).1.under? sectionKeys = some u := hu
  rw [hunder, Node.ofValue, under?_mapTags, Option.map_map] at hu'
  obtain ⟨v, hv, rfl⟩ := Option.map_eq_some_iff.1 hu'
  have hmapping := h v hv
  cases v with
  | map tag fields =>
      have hmap : ((map tag fields).mapTags fun _ => (none : Tag)).fields?.isSome = true := by
        rw [mapTags_map]
        rfl
      exact (isSome_fields?_congr (Node.number_numbers _ k).erase).trans hmap
  | _ => cases hmapping

/-- The registry binds a name to what stands under it. -/
theorem Run.registry_get? (run : Run) (name : String) :
    run.registry.get? name = (run.document.under? (componentPath name)).map Node.identity := by
  have hpath : componentPath name = sectionKeys ++ [name] := rfl
  rw [hpath, under?_append]
  unfold registry schemas?
  cases run.document.under? sectionKeys with
  | none => rfl
  | some u =>
      cases u with
      | map tag fields =>
          rw [Option.bind_some, under?_map_cons]
          change (fields.mapValues Node.identity).get? name = _
          rw [Entries.get?_mapValues]
          cases fields.get? name <;> rfl
      | _ => rfl

/-- A pointer to a component resolves to the node that the registry binds the name to, and
only where it does. -/
theorem Run.Mapped.resolve_component {run : Run} (h : run.Mapped) {ref name : String}
    (htokens : Pointer.tokens? ref = some (componentPath name)) {node : Identity} :
    run.registry.get? name = some node ↔
      ∃ u, run.document.resolve ref = .ok u ∧ Node.identity u = node := by
  rw [run.registry_get?, Option.map_eq_some_iff]
  constructor
  · rintro ⟨u, hu, hnode⟩
    exact ⟨u, resolve_of_under? htokens hu, hnode⟩
  · rintro ⟨u, hu, hnode⟩
    exact ⟨u, under?_of_resolve h htokens hu, hnode⟩

end ProtoShape
