import ProtoShape.Proofs.Node
import ProtoShape.Proofs.Rules.Inlining
import ProtoShape.Reshape.MapKey
import ProtoShape.Rules.Composite
import ProtoShape.Rules.Enumeration
import ProtoShape.Rules.Exclusivity
import ProtoShape.Rules.OpenMap
import ProtoShape.Rules.Restatement
import ProtoShape.Rules.SingleMap
import ProtoShape.Rules.Union

/-!
# No rule uses a node twice

A rule moves nodes about, drops some and makes new ones, which have no numbers.  So
a number occurs in the result at most as often as before.  There is one lemma for each
rule; each follows from what the update of a mapping adds to a sum.
-/

namespace ProtoShape.Rules

variable {n : Nat} {fields result : Fields Tag}

@[simp] theorem uses_ofText (s : String) : Node.uses n (Tree.ofText s) = 0 := by
  simp [Tree.ofText, default]

@[simp] theorem uses_ofInt (i : Int) : Node.uses n (Tree.ofInt i) = 0 := by
  simp [Tree.ofInt, default]

@[simp] theorem uses_ofBool (b : Bool) : Node.uses n (Tree.ofBool b) = 0 := by
  simp [Tree.ofBool, default]

@[simp] theorem uses_ofList (items : List Node) :
    Node.uses n (Tree.ofList items) = (items.map (Node.uses n)).sum := by
  simp [Tree.ofList, default]

/-- Items that come from different ones of a list are used at most as often. -/
theorem sum_uses_filterMap_le {f : Tree Tag → Option (Tree Tag)} {items : List (Tree Tag)}
    (h : ∀ item ∈ items, ∀ item', f item = some item' → Node.uses n item' ≤ Node.uses n item) :
    ((items.filterMap f).map (Node.uses n)).sum ≤ (items.map (Node.uses n)).sum := by
  induction items with
  | nil => simp
  | cons item rest ih =>
      have hrest := ih fun item hitem => h item (List.mem_cons_of_mem _ hitem)
      cases hf : f item with
      | none =>
          rw [List.filterMap_cons_none hf, List.map_cons, List.sum_cons]
          omega
      | some item' =>
          have hitem := h item List.mem_cons_self item' hf
          rw [List.filterMap_cons_some hf, List.map_cons, List.map_cons, List.sum_cons,
            List.sum_cons]
          omega

theorem sum_uses_filter_le (p : Tree Tag → Bool) (items : List (Tree Tag)) :
    ((items.filter p).map (Node.uses n)).sum ≤ (items.map (Node.uses n)).sum := by
  rw [← List.filterMap_eq_filter]
  refine sum_uses_filterMap_le fun item _ item' h => ?_
  obtain ⟨rfl, -⟩ := Option.guard_eq_some_iff.1 h
  exact Nat.le_refl _

/-- A value is used at most as often as the mapping that holds it. -/
theorem uses_le_of_get? {tag : Tag} {key : Scalar} {value : Node}
    (h : fields.get? key = some value) :
    Node.uses n value ≤ Node.uses n (.map tag fields) := by
  have hle := Entries.le_total_of_get? (Node.uses n) h
  rw [Node.uses_map]
  omega

theorem uses_literal_le {member value : Tree Tag} (h : literal? member = some value) :
    Node.uses n value ≤ Node.uses n member := by
  cases member with
  | map tag inner =>
      simp only [literal?, Tree.fields?] at h
      split at h
      · simp at h
      · rcases Option.or_eq_some_iff.1 h with hconst | ⟨-, htype⟩
        · exact uses_le_of_get? hconst
        · exact uses_le_of_get? (Option.filter_eq_some_iff.1 htype).1
  | _ => simp [literal?, Tree.fields?] at h

theorem constsToEnum_uses_le (h : constsToEnum fields = some result) :
    result.total (Node.uses n) ≤ fields.total (Node.uses n) := by
  unfold constsToEnum at h
  split at h
  · simp at h
  · rename_i members hmembers
    split at h
    · rw [Option.some.injEq] at h
      subst h
      obtain ⟨tag, hget⟩ := Fields.items?_eq_some_iff.1 hmembers
      have hliterals : Node.uses n (Tree.ofList (members.filterMap literal?)) ≤
          Node.uses n (.list tag members) := by
        have hsum :=
          sum_uses_filterMap_le (n := n) fun member (_ : member ∈ members) literal hliteral =>
          uses_literal_le hliteral
        rw [uses_ofList, Node.uses_list]
        omega
      have herase := Entries.total_erase_add_le (Node.uses n) hget
      have htyped := Entries.total_insert_le (Node.uses n) (fields.erase "oneOf") "type"
        (.ofText (sharedType (members.filterMap literal?)))
      have hlisted := Entries.total_insert_le (Node.uses n) ((fields.erase "oneOf").insert "type"
        (.ofText (sharedType (members.filterMap literal?)))) "enum"
        (.ofList (members.filterMap literal?))
      rw [uses_ofText] at htyped
      omega
    · simp at h

theorem dropListCovered_uses_le (h : dropListCovered fields = some result) :
    result.total (Node.uses n) ≤ fields.total (Node.uses n) := by
  unfold dropListCovered at h
  split at h
  · rename_i tag members hget
    simp only at h
    split at h
    · rw [Option.some.injEq] at h
      subst h
      have hfewer := sum_uses_filter_le (n := n)
        (fun member => !isSubsumed (shapesOfItems members) member) members
      have hinsert := Entries.total_insert_of_get? (Node.uses n) hget
        (.list tag (members.filter fun member => !isSubsumed (shapesOfItems members) member))
      rw [Node.uses_list, Node.uses_list] at hinsert
      omega
    · simp at h
  · simp at h

/-- A member gives way to its schema. -/
theorem merge_uses_le {key : String} {tag inner : Tag} {members : List (Tree Tag)}
    {member : Fields Tag} (hget : fields.get? key = some (.list tag members))
    (hmember : Tree.map inner member ∈ members) :
    ((fields.erase key).overlay member).total (Node.uses n) ≤ fields.total (Node.uses n) := by
  have herase := Entries.total_erase_add_le (Node.uses n) hget
  have hoverlay := Entries.total_overlay_le (Node.uses n) (fields.erase key) member
  have hpart : Node.uses n (.map inner member) ≤ Node.uses n (.list tag members) :=
    Node.uses_le_of_mem (Tree.mem_subtrees_of_child hmember (Tree.self_mem_subtrees _))
  rw [Node.uses_map] at hpart
  omega

theorem unwrapAll_uses_le : (unwrapAll fields).total (Node.uses n) ≤
    fields.total (Node.uses n) := by
  fun_induction unwrapAll fields with
  | case1 fields _ => exact Nat.le_refl _
  | case2 fields unwrapped hstep ih =>
      obtain ⟨key, -, hfound⟩ := List.exists_of_findSome?_eq_some hstep
      obtain ⟨member, hmember, rfl⟩ := Option.map_eq_some_iff.1 hfound
      obtain ⟨tag, inner, hget⟩ := get?_of_singleMember? hmember
      exact Nat.le_trans ih (merge_uses_le hget List.mem_cons_self)

theorem unwrapComposites_uses_le (h : unwrapComposites fields = some result) :
    result.total (Node.uses n) ≤ fields.total (Node.uses n) := by
  obtain ⟨unwrapped, hstep, rfl⟩ := Option.map_eq_some_iff.1 h
  rw [← unwrapAll_of_some hstep]
  exact unwrapAll_uses_le

theorem closeOpenMap_uses_le (h : closeOpenMap fields = some result) :
    result.total (Node.uses n) ≤ fields.total (Node.uses n) := by
  unfold closeOpenMap at h
  split at h
  · simp at h
  · split at h
    · rw [Option.some.injEq] at h
      subst h
      have htyped := Entries.total_insert_le (Node.uses n) fields "type" (.ofText "object")
      have herase := Entries.total_erase_le (Node.uses n) (fields.insert "type" (.ofText "object"))
        "additionalProperties"
      rw [uses_ofText] at htyped
      omega
    · simp at h

theorem sum_uses_settle_le (key : Likeness) (value : Tree Tag)
    (folded : List (Likeness × Tree Tag)) :
    ((settle key value folded).map fun entry => Node.uses n entry.2).sum ≤
      Node.uses n value + (folded.map fun entry => Node.uses n entry.2).sum := by
  induction folded with
  | nil => simp [settle]
  | cons entry rest ih =>
      obtain ⟨other, old⟩ := entry
      by_cases hkey : other = key
      · simp [settle, hkey]
      · simp only [settle, if_neg hkey, List.map_cons, List.sum_cons]
        omega

theorem sum_uses_lastOfEach_le (values : List (Tree Tag)) :
    ((lastOfEach values).map fun entry => Node.uses n entry.2).sum ≤
      (values.map (Node.uses n)).sum := by
  suffices hall : ∀ folded : List (Likeness × Tree Tag),
      ((values.foldl (fun folded value => settle (likeness value) value folded) folded).map
          fun entry => Node.uses n entry.2).sum ≤
        (values.map (Node.uses n)).sum +
        (folded.map fun entry => Node.uses n entry.2).sum from hall []
  induction values with
  | nil => simp
  | cons value rest ih =>
      intro folded
      have hrest := ih (settle (likeness value) value folded)
      have hsettle := sum_uses_settle_le (n := n) (likeness value) value folded
      rw [List.foldl_cons, List.map_cons, List.sum_cons]
      omega

theorem distinctEnum_uses_le (h : distinctEnum fields = some result) :
    result.total (Node.uses n) ≤ fields.total (Node.uses n) := by
  unfold distinctEnum at h
  split at h
  · simp at h
  · rename_i values hvalues
    simp only at h
    split at h
    · simp at h
    · rw [Option.some.injEq] at h
      subst h
      obtain ⟨tag, hget⟩ := Fields.items?_eq_some_iff.1 hvalues
      have hfewer := sum_uses_lastOfEach_le (n := n) values
      have hinsert := Entries.total_insert_of_get? (Node.uses n) hget
        (.ofList ((lastOfEach values).map (·.2)))
      rw [uses_ofList, Node.uses_list, List.map_map] at hinsert
      simp only [Function.comp_def] at hinsert
      omega

theorem renameNull_uses_le {sentinel : String} (h : renameNull sentinel fields = some result) :
    result.total (Node.uses n) ≤ fields.total (Node.uses n) := by
  unfold renameNull at h
  split at h
  · rw [Option.some.injEq] at h
    subst h
    have hinsert := Entries.total_insert_le (Node.uses n) fields "type" (.ofText sentinel)
    rw [uses_ofText] at hinsert
    omega
  · rename_i tag types hget
    split at h
    · rw [Option.some.injEq] at h
      subst h
      have hfewer :
          ((types.map fun type => if type.isText "null" then Tree.ofText sentinel else type).map
          (Node.uses n)).sum ≤ (types.map (Node.uses n)).sum := by
        rw [List.map_map]
        refine List.sum_le_sum fun type _ => ?_
        simp only [Function.comp_apply]
        split
        · rw [uses_ofText]
          omega
        · exact Nat.le_refl _
      have hinsert := Entries.total_insert_of_get? (Node.uses n) hget
        (.ofList (types.map fun type => if type.isText "null" then .ofText sentinel else type))
      rw [uses_ofList, Node.uses_list] at hinsert
      omega
    · simp at h
  · simp at h

theorem KeepsMember.uses_le {key : String} (h : KeepsMember fields key result) :
    result.total (Node.uses n) ≤ fields.total (Node.uses n) := by
  cases h with
  | mapping hget hmember => exact merge_uses_le hget hmember
  | other => exact Entries.total_erase_le (Node.uses n) fields key

theorem dropShorthandIn_uses_le {document : Tree Tag} {location : Location} {keys : List String}
    {found : Option (Fields Tag)}
    (h : (dropShorthandIn document location fields keys).2 = .ok found) :
    (found.getD fields).total (Node.uses n) ≤ fields.total (Node.uses n) := by
  rcases keepsMember_of_dropShorthandIn h with rfl | ⟨result, rfl, key, -, hkeeps⟩
  · exact Nat.le_refl _
  · exact hkeeps.uses_le

/-! ## The rules of the second phase -/

/-- Properties that are replaced bring in what they have more than before. -/
theorem insert_properties_uses_le {tag new : Tag} {properties more : Fields Tag} {extra : Nat}
    (h : PropertiesOf fields tag properties) (htag : new = tag ∨ new = default)
    (hmore : more.total (Node.uses n) ≤ properties.total (Node.uses n) + extra) :
    (fields.insert "properties" (.map new more)).total (Node.uses n) ≤
      fields.total (Node.uses n) + extra := by
  have hnone : ¬(default : Tag) = some n := by simp [default]
  cases h with
  | present hget =>
      have hinsert := Entries.total_insert_of_get? (Node.uses n) hget (.map new more)
      rw [Node.uses_map, Node.uses_map] at hinsert
      rcases htag with rfl | rfl
      · omega
      · rw [if_neg hnone] at hinsert
        omega
  | absent hget =>
      obtain rfl : new = default := by simpa using htag
      have hinsert := Entries.total_insert_of_get?_eq_none (Node.uses n) hget (.map default more)
      rw [Node.uses_map, if_neg hnone] at hinsert
      rw [Entries.total_empty] at hmore
      omega

theorem uses_movedSchema_le {inner : Tag} {additional : Fields Tag} :
    Node.uses n (movedSchema additional) ≤ Node.uses n (.map inner additional) := by
  have herase := Entries.total_erase_le (Node.uses n) additional "title"
  unfold movedSchema
  split
  · simp [Tree.ofEntries, Entries.total, default]
  · rw [Node.uses_map, Node.uses_map, if_neg (by simp [default])]
    omega

theorem MovesTitled.uses_le (h : MovesTitled fields result) :
    result.total (Node.uses n) ≤ fields.total (Node.uses n) := by
  cases h with
  | @moved inner tag additional properties title hget _ _ _ hproperties _ =>
      have hmoved := @uses_movedSchema_le n inner additional
      have hmore := Entries.total_insert_le (Node.uses n) properties title (movedSchema additional)
      have hinsert := insert_properties_uses_le hproperties (Or.inl rfl) hmore
      have hkeep : (fields.insert "properties" (.map tag (properties.insert title
          (movedSchema additional)))).get? "additionalProperties" =
            some (.map inner additional) := by
        rw [Entries.get?_insert, if_neg (by simp), hget]
      have herase := Entries.total_eraseAll_add_le (Node.uses n)
        (by decide : "additionalProperties" ∈ mapKeywords.drop 1) hkeep
      omega

theorem OnlyProperty.uses_le {member value : Tree Tag} {key : Scalar}
    (h : OnlyProperty key value member) : Node.uses n value ≤ Node.uses n member := by
  cases h with
  | @only tag inner properties _ _ hget =>
      have hproperties := @uses_le_of_get? n inner tag _ _ hget
      rw [Node.uses_map, Entries.total_cons] at hproperties
      omega

theorem Merges.uses_le {properties merged : Fields Tag} {members : List (Tree Tag)}
    (h : Merges properties members merged) :
    merged.total (Node.uses n) ≤
      properties.total (Node.uses n) + (members.map (Node.uses n)).sum := by
  induction h with
  | done => simp
  | @next properties member rest merged key value honly _ _ ih =>
      have hvalue := honly.uses_le (n := n)
      have hinsert := Entries.total_insert_le (Node.uses n) properties key value
      rw [List.map_cons, List.sum_cons]
      omega

theorem MergesMembers.uses_le (h : MergesMembers fields result) :
    result.total (Node.uses n) ≤ fields.total (Node.uses n) := by
  cases h with
  | @merged tag inner members properties merged hget _ hproperties hmerges =>
      have hmore := hmerges.uses_le (n := n)
      have herase := Entries.total_erase_add_le (Node.uses n) hget
      have hinsert := insert_properties_uses_le
        (hproperties.erase (by decide : "oneOf" ≠ "properties")) (Or.inr rfl) hmore
      have hmin := Entries.total_insert_le (Node.uses n)
        ((fields.erase "oneOf").insert "properties" (.map default merged))
          "minProperties" (.ofInt 1)
      have hmax := Entries.total_insert_le (Node.uses n)
        (((fields.erase "oneOf").insert "properties" (.map default merged)).insert "minProperties"
          (.ofInt 1)) "maxProperties" (.ofInt 1)
      have hlast := Entries.total_erase_le (Node.uses n)
        ((((fields.erase "oneOf").insert "properties" (.map default merged)).insert "minProperties"
          (.ofInt 1)).insert "maxProperties" (.ofInt 1)) "unevaluatedProperties"
      rw [Node.uses_list] at herase
      rw [uses_ofInt] at hmin hmax
      omega

/-- A value type that is wrapped gives up its old place. -/
theorem wrap_uses_le {additional : Tree Tag} {key : String}
    (hget : fields.get? "additionalProperties" = some additional) :
    ((fields.eraseAll mapKeywords).overlay (wrapperOf key additional)).total (Node.uses n) ≤
      fields.total (Node.uses n) := by
  have herase := Entries.total_eraseAll_add_le (Node.uses n)
    (by decide : "additionalProperties" ∈ mapKeywords) hget
  have hoverlay := Entries.total_overlay_le (Node.uses n) (fields.eraseAll mapKeywords)
    (wrapperOf key additional)
  have hwrapper : (wrapperOf key additional).total (Node.uses n) = Node.uses n additional := by
    simp [wrapperOf, Entries.total, Tree.ofEntries, default]
  omega

theorem uses_mapTags_default (t : Tree Tag) :
    Node.uses n (t.mapTags fun _ => (default : Tag)) = 0 := by
  rw [Node.uses_eq_zero_iff, Tree.tags_mapTags]
  simp [default]

@[simp] theorem uses_ofEntries (entries : List (Scalar × Tree Tag)) :
    Node.uses n (Tree.ofEntries entries) = Entries.total (Node.uses n) ⟨entries⟩ := by
  simp [Tree.ofEntries, default]

theorem uses_keyPattern (keySchema : Option (Tree Tag)) :
    Node.uses n (keyPattern keySchema) = 0 := by
  unfold keyPattern
  split
  · exact uses_mapTags_default _
  · simp [textSchema, Entries.total]

/-- All of a generated component is new. -/
@[simp] theorem uses_keyValueComponent (source ref : String) (keySchema : Option (Tree Tag))
    (field : String) : Node.uses n (keyValueComponent source ref keySchema field) = 0 := by
  have hinsert := Entries.total_insert_le (Node.uses n) ⟨[(.text field, keyPattern keySchema)]⟩
    (.text (keyOfValue source field)) (.ofEntries [("$ref", .ofText ref)])
  rw [Entries.total_cons, uses_keyPattern, uses_ofEntries, Entries.total_cons,
    uses_ofText] at hinsert
  have hzero := Nat.le_zero.1 hinsert
  simp only [keyValueComponent, uses_ofEntries, Entries.total_cons, uses_ofText, uses_ofList,
    Node.uses_map, hzero]
  simp [Entries.total, default]

/-! ## The rule of the third phase -/

theorem uses_markProperty_le (flags : Flags) (note : String) (property : Tree Tag) :
    Node.uses n (markProperty flags note property) ≤ Node.uses n property := by
  cases property with
  | map tag inner =>
      have hflag := Entries.total_insert_le (Node.uses n) inner flags.property (.ofBool true)
      rw [uses_ofBool] at hflag
      simp only [markProperty]
      split
      · rename_i annotation _
        have hnote :=
          Entries.total_insert_le (Node.uses n) (inner.insert flags.property (.ofBool true))
          annotation (.ofText note)
        rw [uses_ofText] at hnote
        rw [Node.uses_map, Node.uses_map]
        omega
      · rw [Node.uses_map, Node.uses_map]
        omega
  | _ => exact Nat.le_refl _

theorem markGroup_uses_le {flags : Flags} (h : markGroup flags fields = some result) :
    result.total (Node.uses n) ≤ fields.total (Node.uses n) := by
  unfold markGroup at h
  split at h
  · rename_i tag properties hget
    split at h
    · rw [Option.some.injEq] at h
      subst h
      have hmarked : (properties.mapValues (markProperty flags (groupNote properties))).total
          (Node.uses n) ≤ properties.total (Node.uses n) := by
        simp only [Entries.total, Entries.mapValues, List.map_map]
        exact List.sum_le_sum fun entry _ => uses_markProperty_le flags _ entry.2
      have hinsert := Entries.total_insert_of_get? (Node.uses n) hget
        (.map tag (properties.mapValues (markProperty flags (groupNote properties))))
      have hflag := Entries.total_insert_le (Node.uses n) (fields.insert "properties"
        (.map tag (properties.mapValues (markProperty flags (groupNote properties))))) flags.schema
        (.ofBool true)
      rw [Node.uses_map, Node.uses_map] at hinsert
      rw [uses_ofBool] at hflag
      omega
    · simp at h
  · simp at h

theorem markComposite_uses_le {flags : Flags} (h : markComposite flags fields = some result) :
    result.total (Node.uses n) ≤ fields.total (Node.uses n) := by
  unfold markComposite at h
  split at h
  · rw [Option.some.injEq] at h
    subst h
    have hflag := Entries.total_insert_le (Node.uses n) fields flags.schema (.ofBool true)
    rw [uses_ofBool] at hflag
    omega
  · simp at h

theorem markExclusive_uses_le {flags : Flags} (h : markExclusive flags fields = some result) :
    result.total (Node.uses n) ≤ fields.total (Node.uses n) := by
  unfold markExclusive at h
  split at h
  · rename_i tagged hgroup
    rw [Option.some.injEq] at h
    subst h
    have hfirst := markGroup_uses_le (n := n) hgroup
    cases hcomposite : markComposite flags tagged with
    | none => exact hfirst
    | some result => exact Nat.le_trans (markComposite_uses_le hcomposite) hfirst
  · exact markComposite_uses_le h

end ProtoShape.Rules
