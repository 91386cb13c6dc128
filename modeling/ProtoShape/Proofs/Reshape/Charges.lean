import ProtoShape.Proofs.Loads
import ProtoShape.Proofs.Reshape.Updates
import ProtoShape.Proofs.Rules.Inlining

/-!
# What bounds the second phase

Three charges measure how far the second phase can go.
-/

namespace ProtoShape

open Rules Node

/-! ## The charges -/

namespace Charge

/-- Every node counts. -/
def size : Charge := ⟨fun _ _ _ => 1, fun _ => 1⟩

/-- What an entry contributes to the chances of the rules to apply: a single map has
its `minProperties` and its value type, a titled value type its title and a union of
members its list. -/
def chance (key : Key) (value : Node) : Nat :=
  if key = .text "minProperties" then 2 * (value.scalar?.any Scalar.isOne).toNat
  else if key = .text "additionalProperties" then (mayRefer value).toNat
  else if key = .text "title" then value.text?.isSome.toNat
  else if key = .text "oneOf" then 3 * value.items?.isSome.toNat
  else 0

/-- The chances of the rules to apply. -/
def chances : Charge := ⟨fun _ => chance, fun item => (mayRefer item).toNat⟩

/-- Whether a tag is among the carriers. -/
def isMarked (carriers : IdentitySet) : Tag → Bool
  | some n => carriers.contains (.tag (some n))
  | none => false

/-- The members of the unions that have not been given the key of a map yet. -/
def waiting (carriers : IdentitySet) : Charge :=
  ⟨fun tag key value =>
    if key ∈ unionKeys ∧ isMarked carriers tag = false then unionLength value else 0, fun _ => 0⟩

theorem fair_size : size.Fair :=
  ⟨fun _ => Nat.le_refl _, fun _ => Nat.le_refl _, fun _ _ _ => Nat.le_refl _⟩

theorem toNat_le_toNat {a b : Bool} (h : a = true → b = true) : a.toNat ≤ b.toNat := by
  cases a <;> cases b <;> simp_all

theorem fair_chances : chances.Fair where
  entry := by
    intro tag key old new h
    have htext := text?_congr h.scalar
    have hrefer := toNat_le_toNat h.refer
    have hlist := toNat_le_toNat h.list
    simp only [chances, chance]
    rw [h.scalar, htext]
    repeat' split
    all_goals omega
  item h := toNat_le_toNat h.refer
  tag _ _ _ := Nat.le_refl _

theorem fair_waiting (carriers : IdentitySet) : (waiting carriers).Fair where
  entry := by
    intro tag key old new h
    simp only [waiting]
    split
    · rename_i hcounts
      exact h.length hcounts.1
    · exact Nat.le_refl _
  item _ := Nat.le_refl _
  tag n key value := by
    by_cases hkey : key ∈ unionKeys
    · simp only [waiting, isMarked, hkey, true_and]
      split
      · exact Nat.le_refl _
      · exact Nat.zero_le _
    · simp [waiting, hkey]

/-- The keywords that a charge may look at. -/
def chargedKeys : List String :=
  ["minProperties", "additionalProperties", "title", "oneOf", "anyOf", "enum"]

/-- A charge that takes the same for all that the rules make. -/
structure Uniform (c : Charge) (unit : Nat) : Prop where
  other : ∀ {key : String}, key ∉ chargedKeys → ∀ tag value, c.entry tag (.text key) value = unit
  mapping : ∀ tag key inner fields, c.entry tag key (.map inner fields) ≤ c.item (.map inner fields)
  dull : ∀ {item}, mayRefer item = false → c.item item = unit

/-- A fair charge that does. -/
structure Regular (c : Charge) (unit : Nat) : Prop extends c.Fair, c.Uniform unit

theorem regular_size : size.Regular 1 where
  toFair := fair_size
  other _ _ _ := rfl
  mapping _ _ _ _ := Nat.le_refl _
  dull _ := rfl

theorem regular_chances : chances.Regular 0 where
  toFair := fair_chances
  other := by
    intro key hkey tag value
    simp only [chargedKeys, List.mem_cons, List.not_mem_nil, not_or] at hkey
    simp [chances, chance, hkey]
  mapping := by
    intro tag key inner fields
    simp only [chances, chance]
    repeat' split
    all_goals simp [Tree.scalar?, Tree.text?, Tree.items?]
  dull h := by simp [chances, h]

theorem regular_waiting (carriers : IdentitySet) : (waiting carriers).Regular 0 where
  toFair := fair_waiting carriers
  other := by
    intro key hkey tag value
    simp only [chargedKeys, List.mem_cons, List.not_mem_nil, not_or] at hkey
    simp [waiting, unionKeys, hkey]
  mapping tag key inner fields := by simp [waiting, unionLength]
  dull _ := rfl

/-! ## How the charges compare -/

theorem nodeCount_eq (t : Node) : t.nodeCount = 1 + (t.children.map Tree.nodeCount).sum := by
  cases t with
  | scalar tag s => rfl
  | list tag items =>
      have hitems : ∀ l : List Node, Tree.nodeCountItems l = (l.map Tree.nodeCount).sum := by
        intro l
        induction l with
        | nil => rfl
        | cons item rest ih => rw [Tree.nodeCountItems, ih, List.map_cons, List.sum_cons]
      exact congrArg (1 + ·) (hitems items)
  | map tag fields =>
      have hentries : ∀ l : List (Scalar × Node),
          Tree.nodeCountEntries l = ((l.map (·.2)).map Tree.nodeCount).sum := by
        intro l
        induction l with
        | nil => rfl
        | cons entry rest ih =>
            rw [Tree.nodeCountEntries, ih, List.map_cons, List.map_cons, List.sum_cons]
      exact congrArg (1 + ·) (hentries fields.toList)

/-- Every node but the root stands somewhere. -/
theorem load_size_add_one (t : Node) : load size t + 1 = t.nodeCount := by
  induction t using Tree.children_induction with
  | step t ih =>
      have htoll : toll size t = (t.children.map fun _ => 1).sum := by
        cases t with
        | scalar tag s => rfl
        | list tag items => rfl
        | map tag fields => rw [Tree.children_map, Entries.values, List.map_map]; rfl
      have hcount : (t.children.map Tree.nodeCount).sum =
          (t.children.map fun child => 1 + load size child).sum :=
        congrArg List.sum (List.map_congr_left fun child hchild =>
          by rw [← ih child hchild, Nat.add_comm])
      rw [nodeCount_eq, hcount, List.sum_map_add, ← htoll, ← load_eq, Nat.add_comm]

/-- The waiting members are nodes of the tree, and so are the items of a list. -/
theorem load_waiting_lt (carriers : IdentitySet) (t : Node) :
    load (waiting carriers) t < t.nodeCount ∧
      unionLength t + load (waiting carriers) t ≤ t.nodeCount := by
  induction t using Tree.induction with
  | scalar tag s =>
      rw [load_scalar]
      exact ⟨Nat.zero_lt_one, Nat.zero_le _⟩
  | list tag items ih =>
      have hlength : (items.map fun item => 1 + load (waiting carriers) item).sum ≤
          (items.map Tree.nodeCount).sum := by
        refine List.sum_le_sum fun item hitem => ?_
        have hlt := (ih item hitem).1
        omega
      have hamong : (items.map (waiting carriers).among).sum =
          (items.map (load (waiting carriers))).sum :=
        congrArg List.sum (List.map_congr_left fun item _ => Nat.zero_add _)
      simp only [List.sum_map_add, List.map_const', List.sum_replicate_nat, Nat.mul_one] at hlength
      rw [load_list, nodeCount_eq, Tree.children_list, hamong, unionLength]
      omega
  | map tag fields ih =>
      have hentries : fields.tally ((waiting carriers).under tag) ≤
          (fields.values.map Tree.nodeCount).sum := by
        rw [Entries.tally, Entries.values, List.map_map]
        refine List.sum_le_sum fun entry hentry => ?_
        have hle := (ih entry hentry).2
        simp only [under, waiting, Function.comp_apply] at hle ⊢
        split
        · exact hle
        · omega
      have hnone : unionLength (.map tag fields : Node) = 0 := rfl
      rw [load_map, nodeCount_eq, Tree.children_map, hnone]
      omega

theorem sum_le_mul {α : Type} {l : List α} {f g : α → Nat} {k : Nat} (h : ∀ a ∈ l, f a ≤ k * g a) :
    (l.map f).sum ≤ k * (l.map g).sum := by
  induction l with
  | nil => exact Nat.zero_le _
  | cons a rest ih =>
      have hfirst := h a List.mem_cons_self
      have hrest := ih fun b hb => h b (List.mem_cons_of_mem _ hb)
      simp only [List.map_cons, List.sum_cons, Nat.mul_add]
      omega

theorem load_le_mul {c : Charge} {k : Nat} (hentry : ∀ tag key value, c.entry tag key value ≤ k)
    (hitem : ∀ item, c.item item ≤ k) (t : Node) : load c t ≤ k * load size t := by
  refine sum_le_mul fun u _ => ?_
  cases u with
  | scalar tag s => exact Nat.zero_le _
  | list tag items => exact sum_le_mul fun item _ => by simpa [size] using hitem item
  | map tag fields =>
      exact sum_le_mul fun entry _ => by simpa [size] using hentry tag entry.1.key entry.2

theorem load_chances_le (t : Node) : load chances t ≤ 3 * load size t := by
  have hbool : ∀ b : Bool, b.toNat ≤ 1 := by decide
  refine load_le_mul (fun tag key value => ?_) (fun item => ?_) t
  · simp only [chances, chance]
    have hone := hbool (value.scalar?.any Scalar.isOne)
    have hrefer := hbool (mayRefer value)
    have htext := hbool value.text?.isSome
    have hlist := hbool value.items?.isSome
    repeat' split
    all_goals omega
  · have hrefer := hbool (mayRefer item)
    simp only [chances]
    omega

/-! ## What the rules make -/

section Made

variable {c : Charge} {unit : Nat} (hc : c.Uniform unit)
include hc

theorem under_mapping_le (tag inner : Tag) (key : Key) (fields : Fields Tag) :
    c.under tag key (.map inner fields) ≤ c.among (.map inner fields) :=
  Nat.add_le_add_right (hc.mapping tag key inner fields) _

theorem under_text {key : String} (hkey : key ∉ chargedKeys) (tag : Tag) (s : String) :
    c.under tag (.text key) (.ofText s) = unit := by
  rw [under, hc.other hkey, Tree.ofText, load_scalar, Nat.add_zero]

theorem among_textSchema : c.among textSchema = 2 * unit := by
  have hdull : mayRefer (textSchema : Node) = false := by decide
  rw [among, hc.dull hdull, textSchema, Tree.ofEntries, load_map, Entries.tally_cons,
    Scalar.key_text, under_text hc (by decide)]
  simp [Entries.tally, Nat.two_mul]

theorem among_keyHolder_le (field : String) : c.among (keyHolder field) ≤ 5 * unit := by
  have hdull : mayRefer (keyHolder field) = false := rfl
  have hinner := under_mapping_le hc default default (.text field)
    ⟨[("type", (.ofText "string" : Node))]⟩
  have hschema := among_textSchema hc
  have hproperties := hc.other (by decide : "properties" ∉ chargedKeys) default
    (.ofEntries [(.text field, (textSchema : Node))])
  rw [among, hc.dull hdull, keyHolder, Tree.ofEntries, load_map, Entries.tally_cons,
    Entries.tally_cons, Scalar.key_text, Scalar.key_text, under_text hc (by decide), under,
    hproperties, Tree.ofEntries, load_map, Entries.tally_cons, Scalar.key_text]
  simp only [Entries.tally, List.map_nil, List.sum_nil]
  change c.under default (.text field) textSchema ≤ c.among textSchema at hinner
  omega

/-- A mapping that is wrapped in an object costs what the object costs more. -/
theorem among_wrapper_le (key : String) (inner : Tag) (fields : Fields Tag) :
    c.among (.map default (wrapperOf key (.map inner fields))) ≤
      c.among (.map inner fields) + 3 * unit := by
  have hdull : mayRefer (.map default (wrapperOf key (.map inner fields)) : Node) = false := rfl
  have hinner := under_mapping_le hc default inner (.text key) fields
  have hproperties := hc.other (by decide : "properties" ∉ chargedKeys) default
    (.ofEntries [(.text key, (Tree.map inner fields : Node))])
  rw [among, hc.dull hdull, wrapperOf, load_map, Entries.tally_cons, Entries.tally_cons,
    Scalar.key_text, Scalar.key_text, under_text hc (by decide), under, hproperties, Tree.ofEntries,
    load_map, Entries.tally_cons, Scalar.key_text]
  simp only [Entries.tally, List.map_nil, List.sum_nil]
  omega

end Made

/-! ## What the rules make of a schema -/

/-- A charge that does not look at tags. -/
def Tagless (c : Charge) : Prop :=
  ∀ tag tag' key value, c.entry tag key value = c.entry tag' key value

theorem tagless_size : size.Tagless := fun _ _ _ _ => rfl

theorem tagless_chances : chances.Tagless := fun _ _ _ _ => rfl

theorem tagless_waiting : (waiting ∅).Tagless := by
  have hfree : ∀ tag, isMarked ∅ tag = false := fun tag => by cases tag <;> rfl
  intro tag tag' key value
  simp only [waiting, hfree]

section Rewrites

variable {c : Charge} {unit : Nat} {fields result : Fields Tag}

/-- What the keywords of a map cost. -/
def ofMap (c : Charge) (tag : Tag) (fields : Fields Tag) : Nat :=
  (mapKeywords.map (fields.costOf (c.under tag))).sum

/-- Among the keywords of a single map are its `minProperties`, its value type and the schema of
its keys. -/
theorem le_ofMap (c : Charge) (hone : IsMapOfOne fields) {additional : Node}
    (hget : fields.get? "additionalProperties" = some additional) (tag : Tag) :
    ∃ minimum, minimum.scalar?.any Scalar.isOne = true ∧
      c.entry tag (.text "minProperties") minimum +
          (c.entry tag (.text "additionalProperties") additional + load c additional) +
          ((fields.get? "propertyNames").map (load c)).getD 0 ≤ c.ofMap tag fields := by
  obtain ⟨hsingle, -⟩ := hone
  simp only [isSingleMap, Bool.and_eq_true] at hsingle
  have hminimum := hsingle.1.2
  rw [holdsOne_eq] at hminimum
  cases hvalue : fields.get? "minProperties" with
  | none =>
      rw [hvalue] at hminimum
      cases hminimum
  | some minimum =>
      rw [hvalue] at hminimum
      refine ⟨minimum, hminimum, ?_⟩
      have hfirst := Entries.costOf_of_get? (c.under tag) hvalue
      have hsecond := Entries.costOf_of_get? (c.under tag) hget
      have hthird : ((fields.get? "propertyNames").map (load c)).getD 0 ≤
          fields.costOf (c.under tag) "propertyNames" := by
        unfold Entries.costOf
        cases fields.get? "propertyNames" with
        | none => exact Nat.le_refl _
        | some keys => exact Nat.le_add_left _ _
      simp only [under] at hfirst hsecond
      simp only [ofMap, mapKeywords, List.map_cons, List.map_nil, List.sum_cons, List.sum_nil]
      omega

/-- A single map gives up its keywords for a reference. -/
theorem load_referred_le (hc : c.Uniform unit) (tag : Tag) (fields : Fields Tag) (ref : String) :
    load c (.map tag ((fields.eraseAll mapKeywords).insert "$ref" (.ofText ref))) +
      c.ofMap tag fields ≤
      load c (.map tag fields) + unit := by
  have herase := Entries.tally_eraseAll_sum_le (c.under tag) (by decide : mapKeywords.Nodup) fields
  have hinsert := Entries.tally_insert_le (c.under tag) (fields.eraseAll mapKeywords) (.text "$ref")
    (.ofText ref)
  rw [Scalar.key_text, under_text hc (by decide)] at hinsert
  rw [load_map, load_map, ofMap]
  omega

/-- A single map gives up its keywords for an object around its value type. -/
theorem load_inlined_le (hc : c.Uniform unit) (tag : Tag) (fields : Fields Tag) (key : String)
    (inner : Tag) (more : Fields Tag) :
    load c (.map tag ((fields.eraseAll mapKeywords).overlay (wrapperOf key (.map inner more)))) +
        c.ofMap tag fields ≤
      load c (.map tag fields) + 2 * unit + c.among (.map inner more) := by
  have herase := Entries.tally_eraseAll_sum_le (c.under tag) (by decide : mapKeywords.Nodup) fields
  have hoverlay := Entries.tally_overlay_le (c.under tag) (fields.eraseAll mapKeywords)
    (wrapperOf key (.map inner more))
  have hinner := under_mapping_le hc default inner (.text key) more
  have hproperties := hc.other (by decide : "properties" ∉ chargedKeys) tag
    (.ofEntries [(.text key, (Tree.map inner more : Node))])
  have hwrapper : (wrapperOf key (.map inner more)).tally (c.under tag) ≤
      2 * unit + c.among (.map inner more) := by
    rw [wrapperOf, Entries.tally_cons, Entries.tally_cons, Scalar.key_text, Scalar.key_text,
      under_text hc (by decide), under, hproperties, Tree.ofEntries, load_map, Entries.tally_cons,
      Scalar.key_text]
    simp only [Entries.tally, List.map_nil, List.sum_nil]
    omega
  rw [load_map, load_map, ofMap]
  omega

/-- New properties take the place of the old ones. -/
theorem tally_insert_properties_le (hc : c.Uniform unit) (htagless : c.Tagless)
    (tag : Tag) {inner : Tag}
    {properties : Fields Tag} (hproperties : PropertiesOf fields inner properties) (new : Tag)
    (more : Fields Tag) :
    (fields.insert "properties" (.map new more)).tally (c.under tag) +
      properties.tally (c.under tag) ≤
      fields.tally (c.under tag) + unit + more.tally (c.under tag) := by
  have hunder : ∀ tag', c.under tag' = c.under tag := fun tag' =>
    funext fun key => funext fun value => congrArg (· + load c value) (htagless tag' tag key value)
  have hcost : ∀ value, c.entry tag (Scalar.text "properties").key value = unit :=
    hc.other (by decide) tag
  cases hproperties with
  | present hget =>
      have hinsert := Entries.tally_insert_of_get? (c.under tag) hget (.map new more)
      rw [under, under, hcost, hcost, load_map, load_map, hunder new, hunder inner] at hinsert
      omega
  | absent hget =>
      have hinsert := Entries.tally_insert_of_get?_eq_none (c.under tag) hget (.map new more)
      rw [under, hcost, load_map, hunder new] at hinsert
      rw [Entries.tally_empty]
      omega

/-- A titled value type gives up its title. -/
theorem load_movedSchema_le (hc : c.Uniform unit) (htagless : c.Tagless) (inner : Tag)
    {additional : Fields Tag} {title : Node} (h : additional.get? "title" = some title) :
    load c (movedSchema additional) + c.under inner (.text "title") title ≤
      load c (.map inner additional) + unit := by
  have herase := Entries.tally_erase_add_le (c.under inner) h
  have hunder : c.under default = c.under inner :=
    funext fun key => funext fun value =>
      congrArg (· + load c value) (htagless default inner key value)
  rw [Scalar.key_text] at herase
  rw [load_map]
  unfold movedSchema
  split
  · rw [Tree.ofEntries, load_map, Entries.tally_cons, Scalar.key_text, under_text hc (by decide)]
    simp only [Entries.tally, List.map_nil, List.sum_nil] at herase ⊢
    omega
  · rw [load_map, hunder]
    omega

theorem load_titled_le (hc : c.Uniform unit) (htagless : c.Tagless) (h : MovesTitled fields result)
    (tag : Tag) : ∃ inner additional title text, fields.get? "additionalProperties" =
      some (.map inner additional) ∧
      additional.get? "title" = some title ∧ title.text? = some text ∧
      load c (.map tag result) + c.entry tag (.text "additionalProperties")
        (.map inner additional) +
          c.under tag (.text "title") title ≤
        load c (.map tag fields) + 2 * unit + c.item (movedSchema additional) := by
  cases h with
  | @moved inner new additional properties text hget _ htext _ hproperties hfree =>
      obtain ⟨title, htitle, htext⟩ := Option.bind_eq_some_iff.1 htext
      refine ⟨inner, additional, title, text, hget, htitle, htext, ?_⟩
      have hmoved := load_movedSchema_le hc htagless inner htitle
      have habsent : properties.get? text = none := by simpa [Entries.contains] using hfree
      have hproperty :=
        Entries.tally_insert_of_get?_eq_none (c.under tag) habsent (movedSchema additional)
      have hinsert := tally_insert_properties_le hc htagless tag hproperties new
        (properties.insert text (movedSchema additional))
      have hkeep : (fields.insert "properties" (.map new (properties.insert text
          (movedSchema additional)))).get? "additionalProperties" =
            some (.map inner additional) := by
        rw [Entries.get?_insert, if_neg (by simp), hget]
      have herase := Entries.tally_eraseAll_add_le (c.under tag)
        (by decide : "additionalProperties" ∈ mapKeywords.drop 1) hkeep
      have hunder : c.under inner (.text "title") title = c.under tag (.text "title") title :=
        congrArg (· + load c title) (htagless inner tag (.text "title") title)
      obtain ⟨made, entries, heq⟩ : ∃ made entries, movedSchema additional = .map made entries := by
        unfold movedSchema
        split
        · exact ⟨_, _, rfl⟩
        · exact ⟨_, _, rfl⟩
      have hmapping := hc.mapping tag (.text text) made entries
      rw [← heq] at hmapping
      rw [Scalar.key_text] at hproperty
      simp only [under] at hproperty herase hunder hmoved ⊢
      rw [load_map, load_map]
      omega

/-- The only property of a member costs no more than the member. -/
theorem under_onlyProperty_le (htagless : c.Tagless) {member value : Node} {key : Scalar}
    (h : OnlyProperty key value member) (tag : Tag) :
    c.under tag key.key value ≤ c.among member := by
  cases h with
  | @only outer inner properties _ _ hget =>
      have hproperties := Entries.tally_erase_add_le (c.under outer) hget
      rw [Scalar.key_text, under, load_map, Entries.tally_cons] at hproperties
      have hunder : c.under properties key.key value = c.under tag key.key value :=
        congrArg (· + load c value) (htagless properties tag key.key value)
      rw [among, load_map]
      omega

theorem tally_merges_le (htagless : c.Tagless) {properties merged : Fields Tag}
    {members : List Node} (h : Merges properties members merged) (tag : Tag) :
    merged.tally (c.under tag) ≤ properties.tally (c.under tag) + (members.map c.among).sum := by
  induction h with
  | done => exact Nat.le_add_right _ _
  | @next properties member rest merged key value honly _ _ ih =>
      have hproperty := under_onlyProperty_le htagless honly tag
      have hinsert := Entries.tally_insert_le (c.under tag) properties key value
      rw [List.map_cons, List.sum_cons]
      omega

/-- A union that becomes properties gives up its list. -/
theorem load_merged_le (hc : c.Uniform unit) (htagless : c.Tagless)
    (h : MergesMembers fields result)
    (tag : Tag) : ∃ inner members, fields.get? "oneOf" = some (.list inner members) ∧
      load c (.map tag result) + c.entry tag (.text "oneOf") (.list inner members) ≤
        load c (.map tag fields) + 2 * unit + c.entry tag (.text "minProperties") (.ofInt 1) := by
  cases h with
  | @merged list inner members properties merged hget _ hproperties hmerges =>
      refine ⟨list, members, hget, ?_⟩
      have herase := Entries.tally_erase_add_le (c.under tag) hget
      have hinsert := tally_insert_properties_le hc htagless tag
        (hproperties.erase (by decide : "oneOf" ≠ "properties")) default merged
      have hmerged := tally_merges_le htagless hmerges tag
      have hminimum := Entries.tally_insert_le (c.under tag)
        ((fields.erase "oneOf").insert "properties" (.map default merged))
        (.text "minProperties") (.ofInt 1)
      have hmaximum := Entries.tally_insert_le (c.under tag)
        (((fields.erase "oneOf").insert "properties" (.map default merged)).insert
          "minProperties" (.ofInt 1))
        (.text "maxProperties") (.ofInt 1)
      have hlast := Entries.tally_erase_le (c.under tag)
        ((((fields.erase "oneOf").insert "properties" (.map default merged)).insert "minProperties"
          (.ofInt 1)).insert "maxProperties" (.ofInt 1)) (.text "unevaluatedProperties")
      have hcost := hc.other (by decide : "maxProperties" ∉ chargedKeys) tag (.ofInt 1)
      have hleaf : load c (.ofInt 1) = 0 := load_scalar c default (.int 1)
      rw [Scalar.key_text, under, hleaf] at hminimum hmaximum
      rw [Scalar.key_text, under, load_list] at herase
      rw [load_map, load_map]
      omega

end Rewrites

/-! ## The generated component -/

section Component

variable {c : Charge} {unit : Nat}

/-- A copy costs no more than what it is a copy of. -/
theorem load_mapTags_le (hc : c.Fair) (htagless : c.Tagless) (f : Tag → Tag) (t : Node) :
    load c (t.mapTags f) ≤ load c t := by
  have hplainer : ∀ (inUnion : Prop) (u : Node), Plainer inUnion u (u.mapTags f) := fun inUnion u =>
    plainer_of_erase (Tree.mapTags_mapTags f (fun _ => ()) u).symm
  induction t using Tree.induction with
  | scalar tag s => rw [Tree.mapTags_scalar, load_scalar, load_scalar]
  | list tag items ih =>
      rw [Tree.mapTags_list, load_list, load_list, List.map_map]
      exact List.sum_le_sum fun item hitem =>
        Nat.add_le_add (hc.item (hplainer False item)) (ih item hitem)
  | map tag fields ih =>
      rw [Tree.mapTags_map, load_map, load_map, Fields.mapTags, Entries.mapValues, Entries.tally,
        Entries.tally, List.map_map]
      refine List.sum_le_sum fun entry hentry => Nat.add_le_add ?_ (ih entry hentry)
      exact (hc.entry (hplainer _ entry.2)).trans (Nat.le_of_eq (htagless _ _ _ _))

theorem among_keyPattern_le (hc : c.Regular unit) (htagless : c.Tagless) (keySchema : Option Node) :
    c.among (keyPattern keySchema) ≤ 2 * unit + (keySchema.map c.among).getD 0 := by
  unfold keyPattern
  split
  · rename_i tag fields
    have hload := load_mapTags_le hc.toFair htagless (fun _ => default) (.map tag fields)
    have hitem := hc.item (show Plainer False _ _ from plainer_of_erase
      (Tree.mapTags_mapTags (fun _ => default) (fun _ => ()) (Tree.map tag fields)).symm)
    rw [Option.map_some, Option.getD_some, among, among]
    omega
  · rw [among_textSchema hc.toUniform]
    exact Nat.le_add_right _ _

/-- The two properties of a generated component. -/
theorem tally_component_le (hc : c.Regular unit) (htagless : c.Tagless) (source ref field : String)
    (keySchema : Option Node) :
    (Entries.insert ⟨[(.text field, keyPattern keySchema)]⟩ (.text (keyOfValue source field))
        (.ofEntries [("$ref", (.ofText ref : Node))])).tally (c.under default) ≤
      3 * unit + c.item (.ofEntries [("$ref", .ofText ref)]) + (keySchema.map c.among).getD 0 := by
  have hpattern := among_keyPattern_le hc htagless keySchema
  obtain ⟨inner, fields, heq⟩ : ∃ inner fields, keyPattern keySchema = .map inner fields := by
    unfold keyPattern
    split
    · exact ⟨_, _, Tree.mapTags_map _ _ _⟩
    · exact ⟨_, _, rfl⟩
  have hkey := under_mapping_le hc.toUniform default inner (.text field) fields
  have hvalue := under_mapping_le hc.toUniform default default (.text (keyOfValue source field))
    ⟨[("$ref", (.ofText ref : Node))]⟩
  have hload : load c (.map default ⟨[("$ref", (.ofText ref : Node))]⟩) = unit := by
    rw [load_map, Entries.tally_cons, Scalar.key_text, under_text hc.toUniform (by decide)]
    simp [Entries.tally]
  have hinsert := Entries.tally_insert_le (c.under default) ⟨[(.text field, keyPattern keySchema)]⟩
    (.text (keyOfValue source field)) (.map default ⟨[("$ref", (.ofText ref : Node))]⟩)
  rw [Entries.tally_cons, Scalar.key_text, Scalar.key_text, heq] at hinsert
  rw [heq] at hpattern ⊢
  simp only [Entries.tally, List.map_nil, List.sum_nil] at hinsert ⊢
  simp only [among, hload] at hvalue hpattern hkey
  simp only [Tree.ofEntries] at hpattern ⊢
  omega

/-- A generated component costs what its two properties cost and a little more. -/
theorem under_component_le (hc : c.Regular unit) (htagless : c.Tagless) (tag : Tag) (name : Key)
    (source ref field : String) (keySchema : Option Node) :
    c.under tag name (keyValueComponent source ref keySchema field) ≤
      9 * unit + c.item (.ofEntries [("$ref", .ofText ref)]) + (keySchema.map c.among).getD 0 := by
  have hdull : mayRefer (keyValueComponent source ref keySchema field : Node) = false := rfl
  have hvalues := tally_component_le hc htagless source ref field keySchema
  have hproperties := hc.other (by decide : "properties" ∉ chargedKeys) default (.map default
    (Entries.insert ⟨[(.text field, keyPattern keySchema)]⟩ (.text (keyOfValue source field))
      (.ofEntries [("$ref", (.ofText ref : Node))])))
  have hrequired := hc.other (by decide : "required" ∉ chargedKeys) default
    (.ofList [(.ofText field : Node), .ofText (keyOfValue source field)])
  have htext : ∀ s, c.among (.ofText s) = unit := by
    intro s
    rw [among, hc.dull rfl, Tree.ofText, load_scalar, Nat.add_zero]
  have hcomponent : c.among (keyValueComponent source ref keySchema field) ≤
      9 * unit + c.item (.ofEntries [("$ref", .ofText ref)]) + (keySchema.map c.among).getD 0 := by
    rw [among, hc.dull hdull, keyValueComponent, Tree.ofEntries, load_map, Entries.tally_cons,
      Entries.tally_cons, Entries.tally_cons, Scalar.key_text, Scalar.key_text, Scalar.key_text,
      under_text hc.toUniform (by decide), under, hproperties, under, hrequired, load_map,
      Tree.ofList, load_list]
    simp only [List.map_cons, List.map_nil, List.sum_cons, List.sum_nil, htext]
    simp only [Entries.tally, List.map_nil, List.sum_nil] at hvalues ⊢
    omega
  exact (under_mapping_le hc.toUniform tag default name _).trans hcomponent

end Component

end Charge

end ProtoShape
