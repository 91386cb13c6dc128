import ProtoShape.Proofs.Reshape.Effects
import ProtoShape.Proofs.Reshape.Run
import ProtoShape.Proofs.Rules.TextKeys

/-!
# What the phases need of a run

The second phase adds components, so `components` and `components.schemas` have to be
mappings where they are present, and the rules of the first and the third phase look at
keys as texts.  A run is `Workable` if it is so.

All changes of the second phase keep that.  They replace a node by one that is as good in
any place (`Harmless`): what is inserted is a mapping with text keys and without the keys
of the sections, and no rule is about these.
-/

namespace ProtoShape

open Rules

variable {τ : Type} {p : Fields Tag → Prop}

namespace Tree

/-- A mapping, and what the keys lead to are mappings as far as they lead. -/
def Opens : List String → Tree τ → Prop
  | [], t => t.fields?.isSome = true
  | key :: keys,
  t => t.fields?.isSome = true ∧ ∀ value, t.under? [key] = some value → Opens keys value

theorem Opens.mapping {keys : List String} {t : Tree τ} (h : Opens keys t) :
    t.fields?.isSome = true := by
  cases keys with
  | nil => exact h
  | cons => exact h.1

theorem opens_map_cons {tag : τ} {fields : Fields τ} {key : String} {keys : List String} :
    Opens (key :: keys) (.map tag fields) ↔ ∀ value, fields.get? key = some value →
    Opens keys value := by
  have hunder : (Tree.map tag fields).under? [key] = fields.get? key := by
    rw [under?_map_cons]
    cases fields.get? key <;> rfl
  rw [Opens, hunder]
  exact and_iff_right rfl

instance decidableOpens : (keys : List String) → (t : Tree τ) → Decidable (Opens keys t)
  | [], t => inferInstanceAs (Decidable (t.fields?.isSome = true))
  | key :: keys, t =>
      match h : t.under? [key] with
      | none => decidable_of_iff (t.fields?.isSome = true) (by simp [Opens, h])
      | some value =>
          have := decidableOpens keys value
          decidable_of_iff (t.fields?.isSome = true ∧ Opens keys value) (by simp [Opens, h])

theorem opens_mapTags {σ : Type} (f : τ → σ) {keys : List String} {t : Tree τ} (h : t.Opens keys) :
    (t.mapTags f).Opens keys := by
  induction keys generalizing t with
  | nil =>
      rw [Opens, fields?_mapTags, Option.isSome_map]
      exact h
  | cons key rest ih =>
      cases t with
      | map tag fields =>
          rw [mapTags_map]
          refine opens_map_cons.2 fun value hvalue => ?_
          rw [Fields.get?_mapTags] at hvalue
          obtain ⟨old, hold, rfl⟩ := Option.map_eq_some_iff.1 hvalue
          exact ih (opens_map_cons.1 h old hold)
      | _ => cases h.mapping

end Tree

open Tree

/-- A run whose document has sections to add to, with text keys only. -/
structure Run.Workable (run : Run) : Prop where
  sections : run.document.Opens sectionKeys
  document : run.document.HasTextKeys
  aside : run.aside.HasTextKeys

/-- A node that is as good as the one that it replaces. -/
structure Harmless (old new : Node) : Prop where
  opens : ∀ keys, keys <:+ sectionKeys → old.Opens keys → new.Opens keys
  keys : old.HasTextKeys → new.HasTextKeys

theorem Harmless.refl (t : Node) : Harmless t t := ⟨fun _ _ => id, id⟩

/-! ## Replacing and numbering -/

theorem opens_number {keys : List String} {t : Node} (h : t.Opens keys) (next : Nat) :
    (Node.number t next).1.Opens keys := by
  have hmapping : (Node.number t next).1.fields?.isSome = true :=
    (isSome_fields?_congr (Node.number_numbers t next).erase).trans h.mapping
  induction keys generalizing t next with
  | nil => exact hmapping
  | cons key rest ih =>
      refine ⟨hmapping, fun value hvalue => ?_⟩
      obtain ⟨k, -, hunder⟩ := Node.under?_number t [key] next
      rw [hunder] at hvalue
      obtain ⟨old, hold, rfl⟩ := Option.map_eq_some_iff.1 hvalue
      have hopens := h.2 old hold
      exact ih hopens k
        ((isSome_fields?_congr (Node.number_numbers old k).erase).trans hopens.mapping)

/-- Numbering keeps the keys of every mapping. -/
theorem everywhere_number (hp : KeptByUpdates p) {t : Node} (h : t.Everywhere p) (next : Nat) :
    (Node.number t next).1.Everywhere p := by
  intro fields' hfields'
  obtain ⟨u', hu', hof⟩ := List.mem_filterMap.1 hfields'
  obtain ⟨u, hu, k, -, rfl⟩ := Node.mem_subtrees_number hu'
  have herase := congrArg Tree.fields? (Node.number_numbers u k).erase
  rw [Tree.erase, Tree.erase, fields?_mapTags, fields?_mapTags, hof, Option.map_some] at herase
  obtain ⟨fields, hfields, hsame⟩ := Option.map_eq_some_iff.1 herase.symm
  have hkeys := congrArg Entries.keys hsame
  rw [Fields.keys_mapTags, Fields.keys_mapTags] at hkeys
  exact hp.congr hkeys.symm (h fields (List.mem_filterMap.2 ⟨u, hu, hfields⟩))

theorem hasTextKeys_number {t : Node} (h : t.HasTextKeys) (next : Nat) :
    (Node.number t next).1.HasTextKeys :=
  everywhere_number keptByUpdates_textKeys h next

section Modify

variable {n : Nat} {f : Node → Node} {t : Node}

theorem opens_modify {keys : List String} (hkeys : keys <:+ sectionKeys)
    (hf : ∀ u ∈ t.subtrees, u.tag = some n → Harmless u (f u)) (h : t.Opens keys) :
    (Node.modify n f t).Opens keys := by
  induction keys generalizing t with
  | nil =>
      by_cases htag : t.tag = some n
      · rw [Node.modify_self htag]
        exact (hf t (self_mem_subtrees t) htag).opens [] hkeys h
      · rw [Node.modify_of_ne htag]
        cases t with
        | map tag fields => rfl
        | _ => cases h.mapping
  | cons key rest ih =>
      by_cases htag : t.tag = some n
      · rw [Node.modify_self htag]
        exact (hf t (self_mem_subtrees t) htag).opens (key :: rest) hkeys h
      · rw [Node.modify_of_ne htag]
        cases t with
        | map tag fields =>
            refine opens_map_cons.2 fun value hvalue => ?_
            rw [Entries.get?_mapValues] at hvalue
            obtain ⟨old, hold, rfl⟩ := Option.map_eq_some_iff.1 hvalue
            refine ih ((List.suffix_cons key rest).trans hkeys) (fun u hu => ?_)
              (opens_map_cons.1 h old hold)
            exact hf u (mem_subtrees_trans hu (mem_subtrees_of_get? hold))
        | _ => cases h.mapping

/-- A replacement keeps the keys of every mapping but the one that it replaces. -/
theorem everywhere_modify (hp : KeptByUpdates p)
    (hf : ∀ u ∈ t.subtrees, u.tag = some n → u.Everywhere p → (f u).Everywhere p)
    (h : t.Everywhere p) :
    (Node.modify n f t).Everywhere p := by
  induction t using Tree.children_induction with
  | step t ih =>
      by_cases htag : t.tag = some n
      · rw [Node.modify_self htag]
        exact hf t (self_mem_subtrees t) htag h
      · rw [Node.modify_of_ne htag]
        have hchild : ∀ child ∈ t.children, child.Everywhere p →
            (Node.modify n f child).Everywhere p :=
          fun child hchild => ih child hchild fun u hu => hf u (mem_subtrees_of_child hchild hu)
        cases t with
        | scalar tag s => exact h
        | list tag items =>
            refine (everywhere_list _ _).2 fun item hitem => ?_
            obtain ⟨old, hold, rfl⟩ := List.mem_map.1 hitem
            exact hchild old hold ((everywhere_list tag items).1 h old hold)
        | map tag fields =>
            exact everywhere_map_iff.2 ((everywhere_map_iff.1 h).mapValues hp hchild)

theorem hasTextKeys_modify (hf : ∀ u ∈ t.subtrees, u.tag = some n → Harmless u (f u))
    (h : t.HasTextKeys) : (Node.modify n f t).HasTextKeys :=
  everywhere_modify keptByUpdates_textKeys (fun u hu htag => (hf u hu htag).keys) h

end Modify

theorem Run.Workable.modifyNode {run : Run} (h : run.Workable) {n : Nat} {f : Node → Node}
    (hf : ∀ u, run.Holds u → u.tag = some n → Harmless u (f u)) :
    (run.modifyNode n f).Workable where
  sections :=
    opens_number (opens_modify List.suffix_rfl (fun u hu => hf u (Or.inl hu)) h.sections) _
  document := hasTextKeys_number (hasTextKeys_modify (fun u hu => hf u (Or.inl hu)) h.document) _
  aside := hasTextKeys_number (hasTextKeys_modify (fun u hu => hf u (Or.inr hu)) h.aside) _

theorem Run.Workable.holds {run : Run} (h : run.Workable) {u : Node} (hu : run.Holds u) :
    u.HasTextKeys :=
  hu.elim h.document.of_mem_subtrees h.aside.of_mem_subtrees

/-! ## What rules make -/

section Made

variable (hp : KeptByUpdates p)
include hp

theorem everywhere_typed (s : String) :
    Fields.Everywhere p (⟨[("type", .ofText s)]⟩ : Fields Tag) :=
  (Fields.Everywhere.empty hp).insert hp "type" (everywhere_ofText s)

theorem everywhere_wrapperOf (key : String) {item : Node} (h : item.Everywhere p) :
    (wrapperOf key item).Everywhere p :=
  (everywhere_typed hp "object").insert hp "properties"
    (everywhere_map_iff.2 ((Fields.Everywhere.empty hp).insert hp key h))

theorem everywhere_keyHolder (field : String) : (keyHolder field).Everywhere p :=
  everywhere_map_iff.2
    (everywhere_wrapperOf hp field (everywhere_map_iff.2 (everywhere_typed hp "string")))

theorem everywhere_wrapAt {items : List Node} (index : Nat) (key : String)
    (h : ∀ item ∈ items, item.Everywhere p) :
    ∀ item ∈ wrapAt index key items, item.Everywhere p := by
  intro item hitem
  rcases mem_wrapAt hitem with hold | ⟨old, hold, rfl⟩
  · exact h item hold
  · exact everywhere_map_iff.2 (everywhere_wrapperOf hp key (h old hold))

theorem everywhere_parted {items : List Node} (field : String)
    (h : ∀ item ∈ items, item.Everywhere p) :
    ∀ item ∈ items ++ [keyHolder field], item.Everywhere p := by
  intro item hitem
  rcases List.mem_append.1 hitem with hold | hnew
  · exact h item hold
  · obtain rfl := List.mem_singleton.1 hnew
    exact everywhere_keyHolder hp field

theorem everywhere_keyPattern {keySchema : Option Node}
    (h : ∀ schema, keySchema = some schema → schema.Everywhere p) :
    (keyPattern keySchema).Everywhere p := by
  unfold keyPattern
  split
  · rename_i tag fields
    refine (everywhere_mapTags fun fields => ?_).2 (h _ rfl)
    have hkeys := Fields.keys_mapTags (fun _ : Tag => (default : Tag)) fields
    exact ⟨hp.congr hkeys.symm, hp.congr hkeys⟩
  · exact everywhere_map_iff.2 (everywhere_typed hp "string")

/-- The fields of a generated component, where the key schema that it holds a copy of is as good. -/
theorem everywhere_component (source ref field : String) {keySchema : Option Node}
    (h : ∀ schema, keySchema = some schema → schema.Everywhere p) :
    (keyValueComponent source ref keySchema field : Node).Everywhere p := by
  have hempty := Fields.Everywhere.empty hp
  have hreference : (Tree.ofEntries [("$ref", .ofText ref)] : Node).Everywhere p :=
    everywhere_map_iff.2 (hempty.insert hp "$ref" (everywhere_ofText ref))
  have hproperties := (hempty.insert hp field (everywhere_keyPattern hp h)).insert hp
    (keyOfValue source field) hreference
  have hrequired : (Tree.ofList [.ofText field, .ofText (keyOfValue source field)] :
      Node).Everywhere p := by
    simp [Tree.ofList, Tree.ofText]
  rw [keyValueComponent]
  exact everywhere_map_iff.2 (((everywhere_typed hp "object").insert hp "properties"
    (everywhere_map_iff.2 hproperties)).insert hp "required" hrequired)

theorem Rewrite.everywhere {u v : Node} (h : Rewrite u v) (hu : u.Everywhere p) :
    v.Everywhere p := by
  cases h with
  | same => exact hu
  | titled hmoves => exact everywhere_map_iff.2 (hmoves.everywhere hp (everywhere_map_iff.1 hu))
  | merged hmerges => exact everywhere_map_iff.2 (hmerges.everywhere hp (everywhere_map_iff.1 hu))
  | inlined key _ hadditional _ =>
      have hfields := everywhere_map_iff.1 hu
      exact everywhere_map_iff.2 ((hfields.eraseAll hp _).overlay hp
        (everywhere_wrapperOf hp key (hfields.get? hadditional)))
  | referred ref _ =>
      exact everywhere_map_iff.2 (((everywhere_map_iff.1 hu).eraseAll hp _).insert hp "$ref"
        (everywhere_ofText ref))

end Made

/-! ## Changes without harm -/

/-- What leads to no section is a mapping in the place of any of them. -/
theorem opens_of_absent {tag : Tag} {fields : Fields Tag}
    (h : ∀ key ∈ sectionKeys, fields.get? key = none) {keys : List String}
    (hkeys : keys <:+ sectionKeys) :
    (Tree.map tag fields).Opens keys := by
  cases keys with
  | nil => rfl
  | cons key rest =>
      refine opens_map_cons.2 fun value hvalue => ?_
      rw [h key (hkeys.mem List.mem_cons_self)] at hvalue
      cases hvalue

/-- A mapping that is inserted. -/
theorem harmless_insert {tag inner : Tag} {fields more : Fields Tag} (key : String)
    (habsent : ∀ key ∈ sectionKeys, more.get? key = none)
    (hmore : (Tree.map inner more).HasTextKeys) :
    Harmless (.map tag fields) (.map tag (fields.insert key (.map inner more))) := by
  refine ⟨fun keys hkeys h => ?_, fun h => ?_⟩
  · cases keys with
    | nil => rfl
    | cons first rest =>
        refine opens_map_cons.2 fun value hvalue => ?_
        rw [Entries.get?_insert] at hvalue
        split at hvalue
        · obtain rfl := Option.some.inj hvalue
          exact opens_of_absent habsent ((List.suffix_cons first rest).trans hkeys)
        · exact opens_map_cons.1 h value hvalue
  · exact everywhere_map_iff.2 ((everywhere_map_iff.1 h).insert keptByUpdates_textKeys key hmore)

theorem harmless_list {tag : Tag} {items items' : List Node}
    (h : (∀ item ∈ items, item.HasTextKeys) → ∀ item ∈ items', item.HasTextKeys) :
    Harmless (.list tag items) (.list tag items') :=
  ⟨fun _ _ hopens => (nomatch hopens.mapping), fun hkeys =>
    hasTextKeys_list.2 (h (hasTextKeys_list.1 hkeys))⟩

theorem harmless_wrapAt {tag : Tag} {items : List Node} (index : Nat) (key : String) :
    Harmless (.list tag items) (.list tag (wrapAt index key items)) :=
  harmless_list (everywhere_wrapAt keptByUpdates_textKeys index key)

theorem Rewrite.harmless {u v : Node} (h : Rewrite u v) : Harmless u v := by
  refine ⟨fun keys hsuffix hopens => ?_, h.everywhere keptByUpdates_textKeys⟩
  have hget : ∀ {tag : Tag} {fields result : Fields Tag},
      Rewrite (.map tag fields) (.map tag result) →
      (Tree.map tag fields).Opens keys → (Tree.map tag result).Opens keys := by
    intro tag fields result hrewrite hopens
    cases keys with
    | nil => rfl
    | cons key rest =>
        have hother : ∀ key ∈ sectionKeys, key ∉ rewrittenKeys := by decide
        refine opens_map_cons.2 fun value hvalue => ?_
        rw [hrewrite.get? (hother key (hsuffix.mem List.mem_cons_self))] at hvalue
        exact opens_map_cons.1 hopens value hvalue
  have hrewrite := h
  cases h with
  | same => exact hopens
  | _ => exact hget hrewrite hopens

theorem harmless_keyed {tag : Tag} {fields : Fields Tag} (field : String) :
    Harmless (.map tag fields) (.map tag (fields.insert field textSchema)) :=
  harmless_insert field (by decide)
    (everywhere_map_iff.2 (everywhere_typed keptByUpdates_textKeys "string"))

theorem harmless_parted {tag : Tag} {items : List Node} (field : String) :
    Harmless (.list tag items) (.list tag (items ++ [keyHolder field])) :=
  harmless_list (everywhere_parted keptByUpdates_textKeys field)

/-- A generated component, where the key schema that it holds a copy of has text keys. -/
theorem harmless_generated {tag : Tag} {entries : Fields Tag} (name source ref field : String)
    {keySchema : Option Node} (h : ∀ schema, keySchema = some schema → schema.HasTextKeys) :
    Harmless (.map tag entries)
      (.map tag (entries.insert name (keyValueComponent source ref keySchema field))) := by
  have hcomponent := everywhere_component keptByUpdates_textKeys source ref field h
  rw [keyValueComponent] at hcomponent ⊢
  refine harmless_insert name (fun key hkey => ?_) hcomponent
  simp only [sectionKeys, List.mem_cons, List.not_mem_nil, or_false] at hkey
  rcases hkey with rfl | rfl
  · rfl
  · rfl

end ProtoShape
