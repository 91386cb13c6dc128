import ProtoShape.Proofs.Overlays
import ProtoShape.Proofs.Reshape.Marks
import ProtoShape.Proofs.Rules.TextKeys
import ProtoShape.Proofs.Walk

/-!
# The marks that schemas call for

`dueMarks` says which marks a location gets from the schemas of a document: a schema that is
exclusive gets one, and so do the properties of an exclusive group.

Marks are put in while other schemas are still to be looked at.  That does no harm:

* marks are scalars under vendor extensions, and nothing that the rule or a walk looks at has such
  a key (`SameTests`);
* a schema calls for marks at its own location and one step below `properties`, so no other
  part of the document is concerned (`dueMarks_branch`);
* no two schemas stand at one location, so a location gets each mark once (`distinctKeys_dueMarks`).

Hence to mark a schema is to lay its marks over those below it (`markExclusive_overlayBelow`).
-/

namespace ProtoShape

open Config Rules Tree

variable {τ : Type}

/-! ## Due marks -/

theorem dropLast_eq_iff {keys front : List String} {last : String} :
    keys.dropLast = front ++ [last] ↔ ∃ key, keys = front ++ [last, key] := by
  constructor
  · intro h
    have hne : keys ≠ [] := by
      rintro rfl
      simp at h
    refine ⟨keys.getLast hne, ?_⟩
    calc
      keys = keys.dropLast ++ [keys.getLast hne] := (List.dropLast_append_getLast hne).symm
      _ = front ++ [last, keys.getLast hne] := by rw [h, List.append_assoc]; rfl
  · rintro ⟨key, rfl⟩
    rw [List.dropLast_append_of_ne_nil (by simp)]
    rfl

/-- The note on the properties of a schema, if they exclude each other. -/
def Rules.exclusiveNote? (fields : Fields τ) : Option String :=
  if isExclusiveGroup fields then (Fields.map? fields "properties").map groupNote else none

/-- Whether a part is inline and exclusive. -/
def Rules.isExclusivePart (part : Tree τ) : Bool :=
  part.fields?.any fun fields => !Fields.isReference fields && isExclusiveGroup fields

theorem Rules.hasExclusivePart_eq (fields : Fields τ) :
    hasExclusivePart fields = ((Fields.items? fields "allOf").getD []).any isExclusivePart := by
  refine congrArg (List.any _) (funext fun part => ?_)
  cases part <;> rfl

/-- Whether a schema is exclusive by itself or by a part. -/
def Rules.isExclusive (fields : Fields τ) : Bool :=
  (exclusiveNote? fields).isSome || hasExclusivePart fields

theorem Rules.exclusiveNote?_eq_some {fields : Fields τ} {note : String}
    (h : exclusiveNote? fields = some note) :
    isExclusiveGroup fields = true ∧ ∃ tag properties,
      fields.get? "properties" = some (.map tag properties) ∧ groupNote properties = note := by
  unfold exclusiveNote? at h
  split at h
  · rename_i hgroup
    obtain ⟨properties, hmap, hnote⟩ := Option.map_eq_some_iff.1 h
    obtain ⟨tag, hget⟩ := Fields.map?_eq_some_iff.1 hmap
    exact ⟨hgroup, tag, properties, hget, hnote⟩
  · cases h

section Due

variable [Inhabited τ] {flags : Flags} {keys : List String}

/-- The mark on an exclusive schema. -/
def Rules.Flags.schemaMarks (flags : Flags) : List (Scalar × Tree τ) :=
  [(flags.schema, .ofBool true)]

/-- The marks on a property of an exclusive group. -/
def Rules.Flags.propertyMarks (flags : Flags) (note : String) : List (Scalar × Tree τ) :=
  (.text flags.property, .ofBool true) ::
    (flags.annotation.map fun flag => (Scalar.text flag, Tree.ofText note)).toList

/-- The marks that a schema calls for at a location: its own mark where it stands, and those of
its properties one step below `properties`. -/
def Visit.marks (flags : Flags) (visit : Visit τ) (keys : List String) : List (Scalar × Tree τ) :=
  (if keys = visit.location.keys ∧
    isExclusive visit.fields = true then flags.schemaMarks else []) ++
    (if keys.dropLast = visit.location.keys ++ ["properties"] then
      (exclusiveNote? visit.fields).elim [] flags.propertyMarks else [])

/-- The names of the marks. -/
def Rules.Flags.names (flags : Flags) : List String :=
  flags.schema :: flags.property :: flags.annotation.toList

/-- The marks that schemas call for at a location. -/
def dueMarks (flags : Flags) (visits : List (Visit τ)) (keys : List String) :
    List (Scalar × Tree τ) :=
  visits.flatMap fun visit => visit.marks flags keys

theorem Visit.mem_marks {visit : Visit τ} {entry : Scalar × Tree τ} :
    entry ∈ visit.marks flags keys ↔
      (keys = visit.location.keys ∧ isExclusive visit.fields = true ∧ entry ∈ flags.schemaMarks) ∨
        (keys.dropLast = visit.location.keys ++ ["properties"] ∧
          ∃ note, exclusiveNote? visit.fields = some note ∧ entry ∈ flags.propertyMarks note) := by
  rw [marks, List.mem_append]
  refine or_congr ?_ ?_
  · split
    · simp_all
    · simp_all
  · split
    · cases exclusiveNote? visit.fields <;> simp_all
    · simp_all

theorem dueMarks_append (flags : Flags) (visits more : List (Visit τ)) (keys : List String) :
    dueMarks flags (visits ++ more) keys = dueMarks flags visits keys ++ dueMarks flags more keys :=
  List.flatMap_append

/-- A schema calls for no marks outside of what stands at and below it. -/
theorem Visit.marks_eq_nil {visit : Visit τ} (h : ¬visit.location.keys <+: keys) :
    visit.marks flags keys = [] := by
  have hself : keys ≠ visit.location.keys := fun heq => h (heq ▸ List.prefix_rfl)
  have hproperty : keys.dropLast ≠ visit.location.keys ++ ["properties"] := fun heq =>
    h ((heq ▸ List.prefix_append _ _).trans (List.dropLast_prefix keys))
  simp [marks, hself, hproperty]

theorem dueMarks_eq_nil {visits : List (Visit τ)}
    (h : ∀ visit ∈ visits, ¬visit.location.keys <+: keys) :
    dueMarks flags visits keys = [] :=
  List.flatMap_eq_nil_iff.2 fun visit hvisit => visit.marks_eq_nil (h visit hvisit)

section Branches

variable {β : Type} {branches : List β} {visitsOf : β → List (Visit τ)} {keyOf : β → String}
  (hbelow : ∀ b ∈ branches, ∀ visit ∈ visitsOf b, keys ++ [keyOf b] <+: visit.location.keys)

include hbelow

/-- The schemas below a location call for no marks there. -/
theorem dueMarks_above : dueMarks flags (branches.flatMap visitsOf) keys = [] := by
  refine dueMarks_eq_nil fun visit hvisit hprefix => ?_
  obtain ⟨b, hb, hvisit⟩ := List.mem_flatMap.1 hvisit
  have hlength := ((hbelow b hb visit hvisit).trans hprefix).length_le
  rw [List.length_append, List.length_singleton] at hlength
  omega

/-- The schemas of other branches call for no marks in a branch. -/
theorem dueMarks_elsewhere {key : String} (hne : ∀ b ∈ branches, keyOf b ≠ key)
    (more : List String) :
    dueMarks flags (branches.flatMap visitsOf) (keys ++ key :: more) = [] := by
  refine dueMarks_eq_nil fun visit hvisit hprefix => ?_
  obtain ⟨b, hb, hvisit⟩ := List.mem_flatMap.1 hvisit
  have hsame := (hbelow b hb visit hvisit).trans hprefix
  rw [List.prefix_append_right_inj, List.cons_prefix_cons] at hsame
  exact hne b hb hsame.1

/-- In a branch, the schemas of this branch alone call for marks. -/
theorem dueMarks_branch (hdistinct : branches.Pairwise fun b b' => keyOf b ≠ keyOf b') {b : β}
    (hb : b ∈ branches) (more : List String) :
    dueMarks flags (branches.flatMap visitsOf) (keys ++ keyOf b :: more) =
      dueMarks flags (visitsOf b) (keys ++ keyOf b :: more) := by
  obtain ⟨before, behind, rfl⟩ := List.append_of_mem hb
  rw [List.pairwise_append, List.pairwise_cons] at hdistinct
  obtain ⟨-, ⟨hbehind, -⟩, hbefore⟩ := hdistinct
  rw [List.flatMap_append, List.flatMap_cons, dueMarks_append, dueMarks_append]
  rw [dueMarks_elsewhere (fun b' hb' => hbelow b' (List.mem_append_left _ hb'))
      (fun b' hb' => hbefore b' hb' b List.mem_cons_self),
    dueMarks_elsewhere (fun b' hb' =>
      hbelow b' (List.mem_append_right _ (List.mem_cons_of_mem _ hb')))
      (fun b' hb' heq => hbehind b' hb' heq.symm), List.nil_append, List.append_nil]

/-- The order of the branches makes no difference. -/
theorem dueMarks_perm (hdistinct : branches.Pairwise fun b b' => keyOf b ≠ keyOf b')
    {branches' : List β} (hperm : branches.Perm branches') :
    dueMarks flags (branches'.flatMap visitsOf) = dueMarks flags (branches.flatMap visitsOf) := by
  have hbelow' : ∀ b ∈ branches', ∀ visit ∈ visitsOf b, keys ++ [keyOf b] <+: visit.location.keys :=
    fun b hb => hbelow b (hperm.mem_iff.2 hb)
  have hdistinct' := (hperm.pairwise_iff fun hne => Ne.symm hne).1 hdistinct
  funext other
  by_cases hbranch : ∃ b ∈ branches, keys ++ [keyOf b] <+: other
  · obtain ⟨b, hb, more, rfl⟩ := hbranch
    rw [List.append_assoc, List.singleton_append, dueMarks_branch hbelow hdistinct hb,
      dueMarks_branch hbelow' hdistinct' (hperm.mem_iff.1 hb)]
  · have hnone : ∀ l : List β, (∀ b ∈ l, b ∈ branches) →
        dueMarks flags (l.flatMap visitsOf) other = [] := by
      intro l hl
      refine dueMarks_eq_nil fun visit hvisit hprefix => ?_
      obtain ⟨b, hb, hvisit⟩ := List.mem_flatMap.1 hvisit
      exact hbranch ⟨b, hl b hb, (hbelow b (hl b hb) visit hvisit).trans hprefix⟩
    rw [hnone branches fun _ => id, hnone branches' fun _ => hperm.mem_iff.2]

end Branches

/-- What is laid over a branch are the marks that its schemas call for. -/
theorem overlayAt_branch (flags : Flags) {β : Type} {branches : List β}
    {visitsOf : β → List (Visit τ)} {keyOf : β → String}
    (hbelow : ∀ b ∈ branches, ∀ visit ∈ visitsOf b, keys ++ [keyOf b] <+: visit.location.keys)
    (hdistinct : branches.Pairwise fun b b' => keyOf b ≠ keyOf b') {b : β} (hb : b ∈ branches)
    (t : Tree τ) : t.overlayAt (dueMarks flags (branches.flatMap visitsOf)) (keys ++ [keyOf b]) =
      t.overlayAt (dueMarks flags (visitsOf b)) (keys ++ [keyOf b]) := by
  refine overlayAt_congr fun more => ?_
  rw [List.append_assoc, List.singleton_append]
  exact dueMarks_branch hbelow hdistinct hb more

/-- Where the schemas of each branch call for the same marks, those of all branches do. -/
theorem dueMarks_flatMap_congr {β : Type} {branches : List β}
    {visitsOf visitsOf' : β → List (Visit τ)}
    (h : ∀ b ∈ branches, dueMarks flags (visitsOf' b) = dueMarks flags (visitsOf b)) :
    dueMarks flags (branches.flatMap visitsOf') = dueMarks flags (branches.flatMap visitsOf) := by
  funext keys
  rw [dueMarks, dueMarks, List.flatMap_assoc, List.flatMap_assoc]
  exact List.flatMap_congr fun b hb => congrFun (h b hb) keys

end Due

/-! ## What the marks leave as it is -/

/-- Scalars under vendor extensions. -/
def PlainMarks (marks : List (Scalar × Tree τ)) : Prop :=
  ∀ entry ∈ marks, entry.2.scalar?.isSome = true ∧ ∃ flag, entry.1 = .text flag ∧
    isExtension flag = true

/-- The rule for marks finds the same in both, and so does a walk by the texts that it looks at. -/
structure SameTests (fields fields' : Fields τ) : Prop where
  group : isExclusiveGroup fields' = isExclusiveGroup fields
  names : (Fields.map? fields' "properties").map Entries.keys =
    (Fields.map? fields "properties").map Entries.keys
  part : hasExclusivePart fields' = hasExclusivePart fields
  text : ∀ key, isExtension key = false → Fields.text? fields' key = Fields.text? fields key

section Tests

variable {fields fields' fields'' : Fields τ} {marks : List (Scalar × Tree τ)}
  {entriesFor : List String → List (Scalar × Tree τ)} {keys : List String} {key : String}

theorem SameTests.trans (h : SameTests fields fields') (h' : SameTests fields' fields'') :
    SameTests fields fields'' :=
  ⟨h'.group.trans h.group, h'.names.trans h.names, h'.part.trans h.part,
    fun key hkey => (h'.text key hkey).trans (h.text key hkey)⟩

theorem SameTests.note (h : SameTests fields fields') :
    exclusiveNote? fields' = exclusiveNote? fields := by
  have hnote : (Fields.map? fields' "properties").map groupNote =
      (Fields.map? fields "properties").map groupNote := by
    have hnames :=
      congrArg (Option.map fun keys : List Scalar => noteFor (keys.map Scalar.label)) h.names
    rwa [Option.map_map, Option.map_map] at hnames
  rw [exclusiveNote?, exclusiveNote?, h.group, hnote]

theorem SameTests.fault (h : SameTests fields fields') :
    exclusivityFault? fields' = exclusivityFault? fields := by
  have hfault : (Fields.map? fields' "properties").bind noteFault? =
      (Fields.map? fields "properties").bind noteFault? := by
    have hnames := h.names
    revert hnames
    cases Fields.map? fields' "properties" <;> cases Fields.map? fields "properties" <;>
      simp +contextual [noteFault?]
  rw [exclusivityFault?, exclusivityFault?, h.group, hfault]

theorem SameTests.isExclusive (h : SameTests fields fields') :
    isExclusive fields' = isExclusive fields := by
  rw [Rules.isExclusive, Rules.isExclusive, h.note, h.part]

theorem SameTests.admits (h : SameTests fields fields') (role : Role) :
    role.admits fields' = role.admits fields := by
  rw [Role.admits, Role.admits, Fields.isReference, Fields.isReference, Fields.ref?, Fields.ref?,
    h.text "$ref" (by decide)]

theorem SameTests.inside (h : SameTests fields fields') (site : Site) (role : Role) :
    site.inside role fields' = site.inside role fields := by
  cases role <;> first | rfl | simp only [Site.inside, h.text "operationId" (by decide)]

theorem get?_overlay_plain (h : PlainMarks marks) (hkey : isExtension key = false) :
    (fields.overlay ⟨marks⟩).get? key = fields.get? key := by
  induction marks generalizing fields with
  | nil => rfl
  | cons entry rest ih =>
      obtain ⟨k, value⟩ := entry
      obtain ⟨-, flag, hflag, hextension⟩ := h (k, value) List.mem_cons_self
      have hne : (key : Scalar).key ≠ k.key := by
        rw [show k = .text flag from hflag]
        intro heq
        rw [Entries.text_key_eq_iff.1 heq, hextension] at hkey
        cases hkey
      change (Entries.overlay (fields.insert k value) ⟨rest⟩).get? key = _
      rw [ih fun entry hentry => h entry (List.mem_cons_of_mem _ hentry), Entries.get?_insert,
        if_neg hne]

theorem isExclusiveGroup_overlay (h : PlainMarks marks) :
    isExclusiveGroup (fields.overlay ⟨marks⟩) = isExclusiveGroup fields := by
  rw [isExclusiveGroup, isExclusiveGroup, holdsOne, holdsOne, get?_overlay_plain h (by decide)]

/-- The rule finds the same where marks have been laid over a schema. -/
theorem sameTests_overlay (h : PlainMarks marks) : SameTests fields (fields.overlay ⟨marks⟩) := by
  refine ⟨isExclusiveGroup_overlay h, ?_, ?_, fun key hkey => ?_⟩
  · rw [Fields.map?, Fields.map?, get?_overlay_plain h (by decide)]
  · rw [hasExclusivePart, hasExclusivePart, Fields.items?, Fields.items?,
      get?_overlay_plain h (by decide)]
  · rw [Fields.text?, Fields.text?, get?_overlay_plain h hkey]

theorem text?_overlayBelow (key : String) :
    Fields.text? (Fields.overlayBelow entriesFor fields keys) key = Fields.text? fields key := by
  unfold Fields.text?
  rw [Fields.get?_overlayBelow]
  cases fields.get? key with
  | none => rfl
  | some value => cases value <;> simp [overlayAt_list, overlayAt_map, Tree.text?]

theorem isExclusiveGroup_overlayBelow :
    isExclusiveGroup (Fields.overlayBelow entriesFor fields keys) = isExclusiveGroup fields := by
  unfold isExclusiveGroup holdsOne
  rw [Fields.get?_overlayBelow]
  cases fields.get? "maxProperties" with
  | none => rfl
  | some value => cases value <;> simp [overlayAt_list, overlayAt_map]

/-- A part is exclusive as before where marks have been laid over it. -/
theorem isExclusivePart_overlayAt (hplain : ∀ keys, PlainMarks (entriesFor keys)) (part : Tree τ)
    (keys : List String) : isExclusivePart (part.overlayAt entriesFor keys) =
      isExclusivePart part := by
  cases part with
  | map tag fields =>
      have hreference : Fields.isReference ((Fields.overlayBelow entriesFor fields keys).overlay
          ⟨entriesFor keys⟩) = Fields.isReference fields :=
        congrArg Option.isSome (((sameTests_overlay (hplain keys)).text "$ref" (by decide)).trans
          (text?_overlayBelow "$ref"))
      simp only [isExclusivePart, overlayAt_map, Tree.fields?, Option.any_some, hreference,
        isExclusiveGroup_overlay (hplain keys), isExclusiveGroup_overlayBelow]
  | _ => simp [isExclusivePart, overlayAt_list, Tree.fields?]

/-- The rule finds the same where marks have been laid over what is below a schema. -/
theorem sameTests_overlayBelow (hplain : ∀ keys, PlainMarks (entriesFor keys))
    (hproperties : entriesFor (keys ++ ["properties"]) = []) :
    SameTests fields (Fields.overlayBelow entriesFor fields keys) := by
  refine ⟨isExclusiveGroup_overlayBelow, ?_, ?_, fun key _ => text?_overlayBelow key⟩
  · unfold Fields.map?
    rw [Fields.get?_overlayBelow]
    cases fields.get? "properties" with
    | none => rfl
    | some value =>
        cases value with
        | map tag properties => simp [overlayAt_map, hproperties, Entries.overlay_nil, Tree.fields?]
        | _ => simp [overlayAt_list, Tree.fields?]
  · rw [hasExclusivePart_eq, hasExclusivePart_eq]
    unfold Fields.items?
    rw [Fields.get?_overlayBelow]
    cases fields.get? "allOf" with
    | none => rfl
    | some value =>
        cases value with
        | list tag items =>
            simp only [Option.bind_some, Option.map_some, overlayAt_list, Tree.items?,
              Option.getD_some]
            rw [Bool.eq_iff_iff, List.any_eq_true, List.any_eq_true]
            constructor
            · rintro ⟨_, hmem, hexclusive⟩
              obtain ⟨i, hi, rfl⟩ := List.mem_mapIdx.1 hmem
              exact ⟨_, List.getElem_mem hi,
                (isExclusivePart_overlayAt hplain _ _).symm.trans hexclusive⟩
            · rintro ⟨part, hmem, hexclusive⟩
              obtain ⟨i, hi, rfl⟩ := List.mem_iff_getElem.1 hmem
              refine ⟨_, List.mem_mapIdx.2 ⟨i, hi, rfl⟩, ?_⟩
              exact (isExclusivePart_overlayAt hplain _ _).trans hexclusive
        | _ => simp [overlayAt_map, Tree.items?]

end Tests

/-! ## The rule -/

section Rule

variable [Inhabited τ] {options : Options} {fields : Fields τ} {keys : List String}
    {visit : Visit τ}
  {entriesFor : List String → List (Scalar × Tree τ)}

theorem plain_schemaMarks (h : options.HasFlags) :
    PlainMarks (options.flags.schemaMarks : List (Scalar × Tree τ)) := by
  intro entry hentry
  rw [List.mem_singleton.1 hentry]
  exact ⟨rfl, options.schemaFlag, rfl, h.schema⟩

theorem plain_propertyMarks (h : options.HasFlags) (note : String) :
    PlainMarks (options.flags.propertyMarks note : List (Scalar × Tree τ)) := by
  intro entry hentry
  rcases List.mem_cons.1 hentry with rfl | hannotated
  · exact ⟨rfl, options.propertyFlag, rfl, h.property⟩
  · obtain ⟨flag, hflag, rfl⟩ := Option.map_eq_some_iff.1 (Option.mem_toList.1 hannotated)
    exact ⟨rfl, flag, rfl, h.annotation flag hflag⟩

theorem plain_marks (h : options.HasFlags) (visit : Visit τ) (keys : List String) :
    PlainMarks (visit.marks options.flags keys) := by
  intro entry hentry
  rcases Visit.mem_marks.1 hentry with ⟨-, -, hself⟩ | ⟨-, note, -, hproperty⟩
  · exact plain_schemaMarks h entry hself
  · exact plain_propertyMarks h note entry hproperty

theorem plain_dueMarks (h : options.HasFlags) (visits : List (Visit τ)) (keys : List String) :
    PlainMarks (dueMarks options.flags visits keys) := by
  intro entry hentry
  obtain ⟨visit, -, hmarks⟩ := List.mem_flatMap.1 hentry
  exact plain_marks h visit keys entry hmarks

/-- The marks of a property are laid over it. -/
theorem markProperty_eq (h : options.HasFlags) (note : String) (property : Tree τ) :
    markProperty options.flags note property =
      property.overlaid (options.flags.propertyMarks note) := by
  cases property with
  | map tag fields =>
      unfold markProperty overlaid Flags.propertyMarks
      cases hflag : options.flags.annotation with
      | none => rfl
      | some flag =>
          have hne : flag ≠ "" := by
            rintro rfl
            exact absurd (h.annotation "" hflag) (by decide)
          simp only [Option.filter_some, ne_eq, hne, not_false_eq_true, decide_true, if_true]
          rfl
  | _ => rfl

section Marks

variable {flags : Flags}

theorem marks_here : visit.marks flags visit.location.keys =
    if isExclusive visit.fields then flags.schemaMarks else [] := by
  have hproperty : visit.location.keys.dropLast ≠ visit.location.keys ++ ["properties"] := by
    intro heq
    have hlength := congrArg List.length heq
    rw [List.length_dropLast, List.length_append, List.length_singleton] at hlength
    omega
  simp [Visit.marks, hproperty]

theorem marks_property (flags : Flags) (visit : Visit τ) (key : String) :
    visit.marks flags (visit.location.keys ++ ["properties", key]) =
      (exclusiveNote? visit.fields).elim [] flags.propertyMarks := by
  have hdrop : (visit.location.keys ++ ["properties", key]).dropLast =
      visit.location.keys ++ ["properties"] :=
    dropLast_eq_iff.2 ⟨key, rfl⟩
  simp [Visit.marks, hdrop]

/-- A schema calls for no marks besides its own and those of its properties. -/
theorem marks_elsewhere (hself : keys ≠ visit.location.keys)
    (hproperty : exclusiveNote? visit.fields = none ∨
      ∀ key, keys ≠ visit.location.keys ++ ["properties", key]) :
    visit.marks flags keys = [] := by
  rw [Visit.marks, if_neg fun h => hself h.1, List.nil_append]
  split
  · rename_i hdrop
    rcases hproperty with hnone | hproperty
    · rw [hnone]
      rfl
    · obtain ⟨key, hkey⟩ := dropLast_eq_iff.1 hdrop
      exact absurd hkey (hproperty key)
  · rfl

end Marks

theorem markGroup_eq_none (h : exclusiveNote? fields = none) :
    markGroup options.flags fields = none := by
  unfold exclusiveNote? Fields.map? at h
  unfold markGroup
  split
  · rename_i tag properties hget
    split
    · rename_i hgroup
      simp [hgroup, hget, Tree.fields?] at h
    · rfl
  · rfl

/-- The marks for all locations: those given, and those that a schema calls for. -/
abbrev withMarks (flags : Flags) (entriesFor : List String → List (Scalar × Tree τ))
    (visit : Visit τ) (keys : List String) : List (Scalar × Tree τ) :=
  entriesFor keys ++ visit.marks flags keys

/-- The marks of the properties of a group are laid over them last. -/
theorem overlayAt_properties (h : options.HasFlags) {note : String}
    (hnote : exclusiveNote? visit.fields = some note)
    (hproperties : entriesFor (visit.location.keys ++ ["properties"]) = []) (tag : τ)
    (properties : Fields τ) :
    (map tag properties).overlayAt (withMarks options.flags entriesFor visit)
        (visit.location.keys ++ ["properties"]) =
      map tag
        ((Fields.overlayBelow entriesFor properties
          (visit.location.keys ++ ["properties"])).mapValues
        (markProperty options.flags note)) := by
  have hhere :
      withMarks options.flags entriesFor visit (visit.location.keys ++ ["properties"]) = [] := by
    rw [withMarks, hproperties, List.nil_append]
    exact marks_elsewhere (by simp) (Or.inr fun key => by simp)
  rw [overlayAt_map, hhere, Entries.overlay_nil]
  refine congrArg (fun l => map tag ⟨l⟩) ?_
  rw [Fields.overlayBelow, List.map_map]
  refine List.map_congr_left fun entry _ => congrArg (Prod.mk entry.1) ?_
  rw [markProperty_eq h]
  refine overlayAt_overlaid ?_ fun key more => ?_
  · have hmarks := marks_property options.flags visit entry.1.label
    rw [hnote] at hmarks
    rw [withMarks, List.append_assoc]
    exact congrArg _ hmarks
  · rw [withMarks, marks_elsewhere (by simp) (Or.inr fun key => by simp), List.append_nil]

/-- The second look of the rule sets the mark that the first one has set. -/
theorem markComposite_of_get? {flags : Flags} (h : fields.get? flags.schema = some (.ofBool true)) :
    (markComposite flags fields).getD fields = fields := by
  rw [markComposite]
  split
  · exact Entries.insert_of_get? h
  · rfl

section Below

variable {below : Fields τ}
    (hbelow : below = Fields.overlayBelow entriesFor visit.fields visit.location.keys)

include hbelow

/-- A schema that is no group calls for no marks below it. -/
theorem overlayBelow_withMarks (flags : Flags) (hnote : exclusiveNote? visit.fields = none) :
    Fields.overlayBelow (withMarks flags entriesFor visit) visit.fields visit.location.keys =
      below := by
  rw [hbelow]
  refine overlayBelow_congr fun key more => ?_
  rw [withMarks, marks_elsewhere (by simp) (Or.inl hnote), List.append_nil]

variable {note : String} (hnote : exclusiveNote? visit.fields = some note)
  (hproperties : entriesFor (visit.location.keys ++ ["properties"]) = [])

include hnote hproperties

/-- A group gets marks on its properties, in place of what they are, and one of its own. -/
theorem markGroup_overlayBelow (h : options.HasFlags) (hobject : visit.fields.IsObject) :
    markGroup options.flags below =
      some ((Fields.overlayBelow (withMarks options.flags entriesFor visit) visit.fields
        visit.location.keys).insert options.flags.schema (.ofBool true)) := by
  obtain ⟨hgroup, tag, properties, hget, hnamed⟩ := exclusiveNote?_eq_some hnote
  let properties' :=
    Fields.overlayBelow entriesFor properties (visit.location.keys ++ ["properties"])
  have hgetbelow : below.get? "properties" = some (map tag properties') := by
    rw [hbelow, Fields.get?_overlayBelow, hget, Option.map_some, overlayAt_map, hproperties,
      Entries.overlay_nil]
  have hnames : groupNote properties' = note := by
    rw [groupNote, Fields.keys_overlayBelow]
    exact hnamed
  have hfields : below.insert "properties"
      (map tag (properties'.mapValues (markProperty options.flags note))) =
      Fields.overlayBelow (withMarks options.flags entriesFor visit) visit.fields
        visit.location.keys := by
    refine Entries.IsObject.ext (Fields.isObject_overlayBelow hobject) ?_ fun key => ?_
    · rw [Entries.keys_insert, hgetbelow, Option.isSome_some, if_pos rfl, hbelow,
        Fields.keys_overlayBelow, Fields.keys_overlayBelow]
    · rw [Entries.get?_insert, Fields.get?_overlayBelow]
      split
      · rename_i hkey
        obtain rfl := Entries.text_key_eq_iff.1 hkey
        rw [hget, Option.map_some, overlayAt_properties h hnote hproperties]
      · rename_i hkey
        rw [hbelow, Fields.get?_overlayBelow]
        refine congrArg (fun f => Option.map f _)
          (funext fun value => overlayAt_congr fun more => ?_)
        have hne : key ≠ "properties" := fun heq => hkey (Entries.text_key_eq_iff.2 heq)
        rw [withMarks, marks_elsewhere (by simp) (Or.inr fun other => by simp [hne]),
          List.append_nil]
  have hgroup' : isExclusiveGroup below = true := by
    rw [hbelow, isExclusiveGroup_overlayBelow, hgroup]
  rw [markGroup, hgetbelow, ← hfields]
  simp only [hnames, hgroup', if_true]

end Below

/-- The marks of a schema are laid over it after those below it. -/
theorem markExclusive_overlayBelow (h : options.HasFlags) (visit : Visit τ)
    (hobject : visit.fields.IsObject)
    (hplain : ∀ keys, PlainMarks (entriesFor keys)) (hhere : entriesFor visit.location.keys = [])
    (hproperties : entriesFor (visit.location.keys ++ ["properties"]) = []) {below : Fields τ}
    (hbelow : below = Fields.overlayBelow entriesFor visit.fields visit.location.keys) :
    (markExclusive options.flags below).getD below =
      (Fields.overlayBelow (withMarks options.flags entriesFor visit) visit.fields
        visit.location.keys).overlay
        ⟨withMarks options.flags entriesFor visit visit.location.keys⟩ := by
  have htests : SameTests visit.fields below := hbelow ▸ sameTests_overlayBelow hplain hproperties
  have hself : withMarks options.flags entriesFor visit visit.location.keys =
      if isExclusive visit.fields then options.flags.schemaMarks else [] := by
    rw [withMarks, hhere, List.nil_append, marks_here]
  rw [hself, markExclusive, isExclusive]
  cases hnote : exclusiveNote? visit.fields with
  | none =>
      have hgroup : markGroup options.flags below = none :=
        markGroup_eq_none (htests.note.trans hnote)
      rw [overlayBelow_withMarks hbelow options.flags hnote, hgroup, markComposite, htests.part,
        Option.isSome_none, Bool.false_or]
      cases hasExclusivePart visit.fields <;> rfl
  | some note =>
      rw [markGroup_overlayBelow hbelow hnote hproperties h hobject, Option.isSome_some,
        Bool.true_or, if_pos rfl]
      exact markComposite_of_get? (Entries.get?_insert_self _ _ _)

end Rule

/-! ## Marks of a location -/

section Distinct

variable [Inhabited τ] {flags : Flags} {t : Tree τ}

theorem key_ne_of_names (h : flags.names.Nodup) {note : String} {entry entry' : Scalar × Tree τ}
    (hentry : entry ∈ flags.schemaMarks) (hentry' : entry' ∈ flags.propertyMarks note) :
    entry.1.key ≠ entry'.1.key := by
  have hschema := (List.nodup_cons.1 h).1
  rw [List.mem_singleton.1 hentry]
  rcases List.mem_cons.1 hentry' with rfl | hannotated
  · exact fun heq => hschema (List.mem_cons.2 (Or.inl (Entries.text_key_eq_iff.1 heq)))
  · obtain ⟨flag, hflag, rfl⟩ := Option.map_eq_some_iff.1 (Option.mem_toList.1 hannotated)
    intro heq
    rw [Entries.text_key_eq_iff.1 heq] at hschema
    exact hschema (List.mem_cons_of_mem _ (Option.mem_toList.2 hflag))

theorem pairwise_propertyMarks (h : flags.names.Nodup) (note : String) :
    (flags.propertyMarks note : List (Scalar × Tree τ)).Pairwise
      fun entry entry' => entry.1.key ≠ entry'.1.key := by
  have hproperty := (List.nodup_cons.1 (List.nodup_cons.1 h).2).1
  rw [Flags.propertyMarks]
  cases hflag : flags.annotation with
  | none => exact List.pairwise_singleton _ _
  | some flag =>
      rw [hflag] at hproperty
      refine List.pairwise_pair.2 fun heq => hproperty ?_
      exact Option.mem_toList.2 (congrArg some (Entries.text_key_eq_iff.1 heq).symm)

theorem pairwise_marks (h : flags.names.Nodup) (visit : Visit τ) (keys : List String) :
    (visit.marks flags keys).Pairwise fun entry entry' => entry.1.key ≠ entry'.1.key := by
  rw [Visit.marks, List.pairwise_append]
  refine ⟨?_, ?_, fun entry hentry entry' hentry' => ?_⟩
  · split
    · exact List.pairwise_singleton _ _
    · exact List.Pairwise.nil
  · split
    · cases exclusiveNote? visit.fields with
      | none => exact List.Pairwise.nil
      | some note => exact pairwise_propertyMarks h note
    · exact List.Pairwise.nil
  · split at hentry
    · split at hentry'
      · cases hnote : exclusiveNote? visit.fields with
        | none =>
            rw [hnote] at hentry'
            cases hentry'
        | some note =>
            rw [hnote] at hentry'
            exact key_ne_of_names h hentry hentry'
      · cases hentry'
    · cases hentry

/-- Where the names of the marks are different, so are the keys of the marks that are due at a
location. -/
theorem distinctKeys_dueMarks (h : flags.names.Nodup) (hjson : t.IsJson)
    (place : Place) (site : Site) (keys : List String) :
    Entries.DistinctKeys (⟨dueMarks flags (t.visits place site) keys⟩ : Fields τ) := by
  rw [Entries.DistinctKeys, Entries.keys, List.map_map, List.Nodup, List.pairwise_map]
  change (dueMarks flags (t.visits place site) keys).Pairwise fun entry entry' =>
    entry.1.key ≠ entry'.1.key
  rw [dueMarks, List.pairwise_flatMap]
  refine ⟨fun visit _ => pairwise_marks h visit keys, ?_⟩
  -- two schemas stand at different locations, and so do their properties
  refine (List.pairwise_map.1 (nodup_location_visits hjson place site)).imp ?_
  intro visit visit' hne entry hentry entry' hentry'
  have hlocation : visit.location.keys ≠ visit'.location.keys :=
    fun heq => hne (congrArg Location.mk heq)
  rcases Visit.mem_marks.1 hentry with ⟨hself, -, hmark⟩ | ⟨hproperty, note, -, hmark⟩
  · rcases Visit.mem_marks.1 hentry' with ⟨hself', -, -⟩ | ⟨-, note', -, hmark'⟩
    · exact absurd (hself.symm.trans hself') hlocation
    · exact key_ne_of_names h hmark hmark'
  · rcases Visit.mem_marks.1 hentry' with ⟨-, -, hmark'⟩ | ⟨hproperty', -, -, -⟩
    · exact (key_ne_of_names h hmark' hmark).symm
    · exact absurd (List.append_cancel_right (hproperty.symm.trans hproperty')) hlocation

theorem isObject_dueMarks {options : Options} (h : options.HasFlags)
    (hnames : options.flags.names.Nodup)
    (hjson : t.IsJson) (place : Place) (site : Site) (keys : List String) :
    Entries.IsObject (⟨dueMarks options.flags (t.visits place site) keys⟩ : Fields τ) := by
  refine ⟨Entries.hasTextKeys_iff.2 fun entry hentry => ?_,
    distinctKeys_dueMarks hnames hjson place site keys⟩
  obtain ⟨-, flag, hflag, -⟩ := plain_dueMarks h _ keys entry hentry
  exact ⟨flag, hflag⟩

end Distinct

/-! ## Tags -/

section Tags

variable {σ : Type} (f : τ → σ)

theorem isExclusiveGroup_mapTags (fields : Fields τ) :
    isExclusiveGroup (Fields.mapTags f fields) = isExclusiveGroup fields := by
  rw [isExclusiveGroup, isExclusiveGroup, holdsOne, holdsOne, Fields.get?_mapTags]
  cases fields.get? "maxProperties" with
  | none => rfl
  | some value => cases value <;> simp

theorem exclusiveNote?_mapTags (fields : Fields τ) :
    exclusiveNote? (Fields.mapTags f fields) = exclusiveNote? fields := by
  have hnote : (Fields.map? (Fields.mapTags f fields) "properties").map groupNote =
      (Fields.map? fields "properties").map groupNote := by
    unfold Fields.map?
    rw [Fields.get?_mapTags]
    cases fields.get? "properties" with
    | none => rfl
    | some value => cases value <;> simp [Tree.fields?, groupNote]
  rw [exclusiveNote?, exclusiveNote?, isExclusiveGroup_mapTags, hnote]

theorem isExclusive_mapTags (fields : Fields τ) :
    isExclusive (Fields.mapTags f fields) = isExclusive fields := by
  have hpart : hasExclusivePart (Fields.mapTags f fields) = hasExclusivePart fields := by
    rw [hasExclusivePart_eq, hasExclusivePart_eq, Fields.items?_mapTags]
    cases Fields.items? fields "allOf" with
    | none => rfl
    | some parts =>
        rw [Option.map_some, Option.getD_some, Option.getD_some, List.any_map]
        refine congrArg parts.any (funext fun part => ?_)
        cases part <;> simp [isExclusivePart, Tree.fields?, isExclusiveGroup_mapTags]
  rw [isExclusive, isExclusive, exclusiveNote?_mapTags, hpart]

variable [Inhabited τ]

/-- What the values of documents call for is what they call for themselves. -/
theorem dueMarks_erase (flags : Flags) (t : Tree τ) (place : Place) (site : Site)
    (keys : List String) :
    dueMarks flags (t.erase.visits place site) keys =
      (dueMarks flags (t.visits place site) keys).map fun entry => (entry.1, entry.2.erase) := by
  rw [erase, visits_mapTags, dueMarks, dueMarks, List.flatMap_map, List.map_flatMap]
  refine List.flatMap_congr fun visit _ => ?_
  rw [Visit.marks, Visit.marks, List.map_append]
  simp only [Visit.mapTags, isExclusive_mapTags, exclusiveNote?_mapTags]
  congr 1
  · split <;> simp [Flags.schemaMarks, ofBool]
  · split
    · cases exclusiveNote? visit.fields with
      | none => rfl
      | some note =>
          cases hflag : flags.annotation <;> simp [Flags.propertyMarks, hflag, ofBool, ofText]
    · rfl

end Tags

end ProtoShape
