import ProtoShape.Proofs.Repairs
import ProtoShape.Proofs.Reshape.Enums
import ProtoShape.Proofs.Reshape.Marks
import ProtoShape.Proofs.Reshape.Sharing

/-!
# What the second and the third phase leave behind

On a document without violations, the second phase starts tidy (`tidy_of_violations`) and
stays so.  What a walk shows then is tidy or lies inside the property for the keys of a
generated component (`Run.Tidy.visit`), and the third phase shows nothing new.  So the
violations of the result are of three kinds, which `Leftover` lists.

The first phase leaves a tidy run, too, but for composites whose only member is no mapping
(`tidy_of_normalForm`).  So these are the only violations that all phases leave behind besides
(`allPhases_leftovers`).
-/

namespace ProtoShape

open Config Rules Tree

/-- The composites that may get a single member: an `allOf` without members may. -/
def Run.mayFill (run : Run) : Permit where
  lone key n _ := key = "allOf" ∧ Tree.list (some n) [] ∈ run.document.subtrees
  enum _ := True

/-- The composites that may have a single member after the first phase: those whose member is no
mapping, and those that may get one. -/
def Run.mayRemain (run : Run) : Permit where
  lone key n mapping := mapping = true → run.mayFill.lone key n mapping
  enum _ := True

section Tidy

variable {run : Run} {permits : Permit}

/-- A run without components of its own is tidy if every schema of its document is. -/
theorem tidy_of_visits (hsound : run.Sound) (hgenerated : run.generated = [])
    (h : ∀ visit ∈ run.document.documentVisits, visit.fields.Each (TidyValue permits)) :
    run.Tidy permits := by
  refine ⟨hsound, fun name hname => ?_, fun u place hu hplace => ?_⟩
  · rw [hgenerated] at hname
    cases hname
  · rintro fields hfields href
    obtain ⟨hspread, hook, hrole⟩ := hplace.exists_hook
    cases u with
    | map tag fields' =>
        cases hfields
        obtain ⟨site, hreach⟩ := hu.reaches .root
        have hadmits : (Role.schema hook).admits fields = true := by simp [Role.admits, href]
        exact h (visitAt hook site tag fields)
          (mem_visits_iff.2 ⟨hook, place, site, hreach, hspread, hrole, hadmits, rfl⟩)
    | _ => cases hfields

/-- The value of a keyword of a visited schema has a number. -/
theorem exists_tag_of_visit (hsound : run.Sound) {visit : Visit Tag}
    (hvisit : visit ∈ run.document.documentVisits)
    {key : String} {value : Node} (hget : visit.fields.get? key = some value) :
    value ∈ run.document.subtrees ∧ ∃ n, value.tag = some n := by
  obtain ⟨_, _, _, hreach, -⟩ := reaches_of_mem_visits hvisit
  have hmem := mem_subtrees_trans (mem_subtrees_of_get? hget) hreach.mem_subtrees
  obtain ⟨n, -, hn⟩ := hsound.exists_tag (run.holds_document.below hmem)
  exact ⟨hmem, n, hn⟩

theorem mayFill_of_visit (hsound : run.Sound) {visit : Visit Tag}
    (hvisit : visit ∈ run.document.documentVisits)
    {tag : Tag} (hget : visit.fields.get? "allOf" = some (.list tag [])) :
    ∃ n, tag = some n ∧ run.mayFill.lone "allOf" n true := by
  obtain ⟨hmem, n, hn⟩ := exists_tag_of_visit hsound hvisit hget
  obtain rfl : tag = some n := hn
  exact ⟨n, rfl, rfl, hmem⟩

theorem tidy_of_violations (hsound : run.Sound) (hgenerated : run.generated = [])
    (h : documentViolations run.document = []) : run.Tidy run.mayFill :=
  tidy_of_visits hsound hgenerated fun visit hvisit =>
    each_tidy_of_violations (List.flatMap_eq_nil_iff.1 h visit hvisit)
      (fun _ => mayFill_of_visit hsound hvisit)
      fun _ _ hget => (exists_tag_of_visit hsound hvisit hget).2.imp fun _ hn => ⟨hn, trivial⟩

/-- What the first phase has cleaned up is tidy.  A composite may have a single member that is no
mapping then. -/
theorem tidy_of_normalForm {sentinel : String} (hsound : run.Sound)
    (hgenerated : run.generated = [])
    (h : ∀ visit ∈ run.document.documentVisits, NormalForm sentinel visit.fields) :
    run.Tidy run.mayRemain := by
  refine tidy_of_visits hsound hgenerated fun visit hvisit key value hget => ?_
  refine (normalForm_iff_each.1 (h visit hvisit) key value hget).tidy (fun tag member heq _ => ?_)
    (fun hkey tag heq => ?_) fun _ tag items heq => ?_
  · subst heq
    obtain ⟨-, n, hn⟩ := exists_tag_of_visit hsound hvisit hget
    exact ⟨n, hn, nofun⟩
  · subst hkey
    obtain ⟨n, hn, hfill⟩ := mayFill_of_visit hsound hvisit (heq ▸ hget)
    exact ⟨n, hn, fun _ => hfill⟩
  · subst heq
    obtain ⟨-, n, hn⟩ := exists_tag_of_visit hsound hvisit hget
    exact ⟨n, hn, trivial⟩

/-- A schema of a tidy run is tidy and shows its enumeration, or it lies inside a property
for the keys of a map. -/
theorem Run.Tidy.visit (h : run.Tidy permits) {visit : Visit Tag}
    (hvisit : visit ∈ run.document.documentVisits) :
    (visit.fields.Each (TidyValue permits) ∧
        ∀ n items, visit.fields.get? "enum" = some (.list (some n) items) → run.Enumerates n) ∨
      ∃ name ∈ run.generated, run.keyPath name <+: visit.location.keys := by
  obtain ⟨hook, place, site, hreach, hspread, hrole, hadmits, heq⟩ := mem_visits_iff.1 hvisit
  have hlocation : visit.location = site.location := by rw [heq]; rfl
  rcases hreach.sees (Among run.KeyProperty) with hsees | ⟨e, stop, siteOf, hskip, hto, hfrom⟩
  · have href : Fields.isReference visit.fields = false := by
      simpa [Role.admits, Role.skipsReferences] using hadmits
    have halike : place.Alike (.one (.schema .schema)) := .of_schema hspread hrole .schema
    exact Or.inl ⟨h.tidy _ place hsees halike _ rfl href, fun n items hget =>
      ⟨_, _, place, items, hsees, halike, href, hget⟩⟩
  · obtain ⟨m, htag, name, hname, key, hkey, hm⟩ := hskip
    obtain ⟨hnodup, -, -⟩ := List.nodup_append.1 h.sound.nodup
    have hkeys : siteOf.location.keys = run.keyPath name :=
      hto.keys_of_under? hnodup hkey (htag.trans hm.symm)
    exact Or.inr ⟨name, hname, hlocation ▸ hkeys ▸ hfrom.location_prefix⟩

end Tidy

/-! ## Enumerations -/

/-- No enumeration of a visited schema repeats a value. -/
def Run.DistinctEnums (run : Run) : Prop :=
  ∀ visit ∈ run.document.documentVisits, ∀ tag items, visit.fields.get? "enum" =
    some (.list tag items) →
    (items.map likeness).Nodup

section Enums

variable {run : Run}

theorem distinctEnums_of_violations (h : documentViolations run.document = []) :
    run.DistinctEnums := by
  intro visit hvisit tag items hget
  have hnone := List.flatMap_eq_nil_iff.1 h visit hvisit
  unfold violations at hnone
  have henum := ofEnum_eq_nil_iff.1 (List.append_eq_nil_iff.1 hnone).2
  exact length_lastOfEach_iff.1 (henum _ _ hget rfl items rfl)

theorem distinctEnums_of_normalForm {sentinel : String}
    (h : ∀ visit ∈ run.document.documentVisits, NormalForm sentinel visit.fields) :
    run.DistinctEnums :=
  fun visit hvisit _ items hget =>
    length_lastOfEach_iff.1
      ((normalForm_iff_each.1 (h visit hvisit) _ _ hget).distinct rfl items rfl)

/-- A schema that shows an enumeration is visited. -/
theorem Run.Enumerates.exists_visit {n : Nat} (h : run.Enumerates n) :
    ∃ visit ∈ run.document.documentVisits,
    ∃ items, visit.fields.get? "enum" = some (.list (some n) items) := by
  obtain ⟨tag, fields, place, items, hsees, hplace, href, hget⟩ := h
  obtain ⟨hspread, hook, hrole⟩ := hplace.exists_hook
  obtain ⟨site, hreach⟩ := hsees.reaches .root
  have hadmits : (Role.schema hook).admits fields = true := by simp [Role.admits, href]
  exact ⟨visitAt hook site tag fields,
    mem_visits_iff.2 ⟨hook, place, site, hreach, hspread, hrole, hadmits, rfl⟩, items, hget⟩

/-- Where an enumeration repeats a value after the second phase, a patch has been made to a
value that it had before. -/
theorem patched_of_repeated {before : Run} {permits : Permit}
    (hupdates : Updates IsOuterSchema before run)
    (htidy : before.Tidy permits) (hdistinct : before.DistinctEnums) {visit : Visit Tag}
    (hvisit : visit ∈ run.document.documentVisits) {n : Nat} {values : List Node}
    (hn : run.Enumerates n) (hget : visit.fields.get? "enum" = some (.list (some n) values))
    (hrepeated : ¬(values.map likeness).Nodup) :
    ∃ old, Tree.list (some n) old ∈ before.document.subtrees ∧ run.Patched old := by
  obtain ⟨hbefore, hall⟩ := hupdates.intact_or_patched htidy hn
  obtain ⟨origin, horigin, old, hold⟩ := hbefore.exists_visit
  obtain ⟨hlist, -⟩ := exists_tag_of_visit htidy.sound horigin hold
  rcases hall old (Or.inl hlist) with hintact | hpatched
  · obtain ⟨_, _, _, hreach, -⟩ := reaches_of_mem_visits hvisit
    obtain rfl := hintact.eq (Or.inl hreach.mem_subtrees) hget
    exact absurd (hdistinct origin horigin _ _ hold) hrepeated
  · exact ⟨old, hlist, hpatched⟩

/-- Lists that are the same but for numbers have the same likenesses. -/
theorem likenesses_of_erase {items items' : List Node}
    (h : items'.map Tree.erase = items.map Tree.erase) :
    items'.map likeness = items.map likeness := by
  have hplain : ∀ l : List Node, l.map likeness = (l.map Tree.erase).map likeness := by
    intro l
    rw [List.map_map]
    exact List.map_congr_left fun item _ => (likeness_mapTags _ item).symm
  rw [hplain, hplain items, h]

end Enums

/-! ## The phases -/

/-- The second phase only makes updates. -/
theorem restructure_updates {run after : Run} (h : run.Sound)
    (hrun : Phase.restructure.run.run run = (.ok (), after)) : Updates IsOuterSchema run after := by
  have hupdates := (RiskyStep.reshapeMaps_leads guides_outside fun n hn => outside_root h hn).1
  rwa [Phase.restructure_of_ok hrun] at hupdates

/-- The third phase leaves an image of the document, no new component and no new carrier. -/
theorem annotate_image {run after : Run} (h : run.options.HasFlags)
    (hrun : Phase.annotate.run.run run = (.ok (), after)) :
    Image run.document after.document ∧ after.generated = run.generated ∧
    after.carriers = run.carriers := by
  obtain ⟨marked, hmark, rfl⟩ := Phase.annotate_of_ok hrun
  exact ⟨(markGroups_image h hmark).trans (image_number marked run.next), rfl, rfl⟩

/-- The run after the second and the third phase, unless one of them stops. -/
def Run.later? (run : Run) : Option Run :=
  match Phase.restructure.run.run run with
  | (.ok _, between) =>
      match Phase.annotate.run.run between with
      | (.ok _, after) => some after
      | _ => none
  | _ => none

theorem later?_phases {run after : Run} (h : run.later? = some after) : ∃ between,
    Phase.restructure.run.run run = (.ok (), between) ∧
    Phase.annotate.run.run between = (.ok (), after) := by
  unfold Run.later? at h
  split at h
  · rename_i between hrestructure
    split at h
    · rename_i last hannotate
      obtain rfl := Option.some.inj h
      exact ⟨between, hrestructure, hannotate⟩
    · cases h
  · cases h

/-- What the second and the third phase may leave behind, as a violation of a visited schema:
what stands inside the property for the keys of a generated component, a single member of an
`allOf` that was empty before, and a repeated value of an `enum` where a value of that `enum` has
been given the key of a map in this run. -/
inductive Leftover (before after : Run) (visit : Visit Tag) (v : Violation) : Prop where
  | keyProperty {name : String} : name ∈ after.generated →
      before.keyPath name <+: visit.location.keys → Leftover before after visit v
  | filled {n : Nat} {member : Node} : Tree.list (some n) [] ∈ before.document.subtrees →
      visit.fields.get? "allOf" = some (.list (some n) [member]) →
      v = .found (visit.location.child "allOf") "single_member_composite"
        "allOf has a single member." →
      Leftover before after visit v
  | patched {n : Nat} {old values : List Node} {value : Node} :
      Tree.list (some n) old ∈ before.document.subtrees → after.Patched old →
      visit.fields.get? "enum" = some (.list (some n) values) → value ∈ values →
      value.scalar? = none →
      v = .found (visit.location.child "enum") "enum_case_duplicate"
        s!"enum repeats {value.shown} ignoring case." →
      Leftover before after visit v

theorem erase_start {τ : Type} (options : Options) (value : Tree τ) :
    (Run.start options (.ofValue value)).document.erase = value.erase := by
  refine ((Node.number_numbers (.ofValue value) 0).erase).trans ?_
  unfold Node.ofValue Tree.erase
  rw [Tree.mapTags_mapTags]

/-- A violation after the second and the third phase over a tidy run is one of those leftovers or a
composite with a single member that is permitted. -/
theorem leftover_of_tidy {before after : Run} {permits : Permit} (hflags : before.options.HasFlags)
    (htidy : before.Tidy permits) (hdistinct : before.DistinctEnums)
    (hafter : before.later? = some after)
    {v : Violation} (hv : v ∈ documentViolations after.document) :
    ∃ visit ∈ after.document.documentVisits, v ∈ violations visit.fields visit.location ∧
      (Leftover before after visit v ∨ ∃ key ∈ combiningKeys, ∃ n member,
        visit.fields.get? key = some (.list (some n) [member]) ∧
        permits.lone key n member.fields?.isSome ∧
          v = .found (visit.location.child key) "single_member_composite"
            s!"{key} has a single member.") := by
  obtain ⟨visit', hvisit', hfound⟩ := List.mem_flatMap.1 hv
  refine ⟨visit', hvisit', hfound, ?_⟩
  obtain ⟨between, hrestructure, hannotate⟩ := later?_phases hafter
  have hupdates := restructure_updates htidy.sound hrestructure
  have hkeep : between.options = before.options := Updates.options hupdates
  obtain ⟨himage, hgenerated, hcarriers⟩ := annotate_image (hkeep ▸ hflags) hannotate
  obtain ⟨visit, hvisit, hlocation, hkeeps, henum⟩ := himage.visits _ _ visit' hvisit'
  have hbetween := Updates.tidy (Updates.isSchema hupdates) htidy
  rcases hbetween.visit hvisit with ⟨heach, hshows⟩ | ⟨name, hname, hprefix⟩
  · cases mem_violations (hkeeps _ heach) hfound with
    | lone hkey hget hpermit heq => exact Or.inr ⟨_, hkey, _, _, hget, hpermit, heq⟩
    | repeated hitems hrepeated hmem hscalar heq =>
        obtain ⟨tag', hget'⟩ := Fields.items?_eq_some_iff.1 hitems
        obtain ⟨value, hget, hsame⟩ := henum _ hget'
        obtain ⟨tag, values, rfl, htag, herase⟩ := hsame _ _ rfl
        obtain ⟨-, n, hn⟩ := exists_tag_of_visit hbetween.sound hvisit hget
        obtain rfl : tag = some n := hn
        obtain ⟨old, hold, item, hitem, u, hu, hin⟩ :=
          patched_of_repeated hupdates htidy hdistinct hvisit
          (hshows n values hget) hget (likenesses_of_erase herase ▸ hrepeated)
        exact Or.inl (.patched hold ⟨item, hitem, u, hu, hcarriers ▸ hin⟩
          (htag n rfl ▸ hget') hmem hscalar heq)
  · refine Or.inl (.keyProperty (hgenerated ▸ hname) ?_)
    rw [hlocation]
    unfold Run.keyPath at hprefix ⊢
    rw [hkeep] at hprefix
    exact hprefix

/-- On a document without violations, every violation after the second and the third phase is
one of those leftovers. -/
theorem restructure_annotate_leftovers {τ : Type} {options : Options} {value : Tree τ} {after : Run}
    (hoptions : optionsRefusal? options = none) (hclean : documentViolations value = [])
    (hafter : (Run.start options (.ofValue value)).later? = some after) :
    ∀ v ∈ documentViolations after.document, ∃ visit ∈ after.document.documentVisits,
      v ∈ violations visit.fields visit.location ∧
        Leftover (Run.start options (.ofValue value)) after visit v := by
  intro v hv
  have hstart : documentViolations (Run.start options (.ofValue value)).document = [] :=
    (documentViolations_congr (erase_start options value)).trans hclean
  have hsound := Run.start_sound options value
  have hkeep : (Run.start options (.ofValue value)).options = options := rfl
  have htidy := tidy_of_violations hsound rfl hstart
  obtain ⟨visit, hvisit, hfound, hleft | ⟨key, -, n, member, hget, ⟨rfl, hempty⟩, heq⟩⟩ :=
    leftover_of_tidy (hkeep ▸ hasFlags_of_refusal hoptions) htidy
      (distinctEnums_of_violations hstart) hafter hv
  · exact ⟨visit, hvisit, hfound, hleft⟩
  · exact ⟨visit, hvisit, hfound, .filled hempty hget heq⟩

/-- A document with a single map whose keys have the null type. -/
def nullKeys : Value :=
  .ofEntries [("components", .ofEntries [("schemas", .ofEntries [
    ("Leaf", .ofEntries [("type", .ofText "string")]),
    ("Tree", .ofEntries [("type", .ofText "object"), ("minProperties", .ofInt 1),
      ("maxProperties", .ofInt 1), ("propertyNames", .ofEntries [("type", .ofText "null")]),
      ("additionalProperties", .ofEntries [("$ref", .ofText "#/components/schemas/Leaf")])])])])]

/-- The schema of the keys was hidden, and comes to light in the generated component. -/
theorem restructure_annotate_leftovers_nullKeys :
    ∃ after, (Run.start .standard (.ofValue nullKeys)).later? = some after ∧
      documentViolations after.document ≠ [] ∧
      ∀ v ∈ documentViolations after.document, ∃ visit ∈ after.document.documentVisits,
        v ∈ violations visit.fields visit.location ∧
          Leftover (Run.start .standard (.ofValue nullKeys)) after visit v := by
  have hviolated : ((Run.start .standard (.ofValue nullKeys)).later?.map fun after =>
      (documentViolations after.document).isEmpty) = some false := by decide +kernel
  obtain ⟨after, hafter, hsome⟩ := Option.map_eq_some_iff.1 hviolated
  refine ⟨after, hafter, fun hnone => ?_,
    restructure_annotate_leftovers (by decide +kernel) (by decide +kernel) hafter⟩
  rw [hnone] at hsome
  cases hsome

/-- After all phases over a JSON document, every violation is beyond repair or one of those
leftovers of the last two phases. -/
theorem allPhases_leftovers {τ : Type} {options : Options} {value : Tree τ} {after : Run}
    (hoptions : optionsRefusal? options = none) (hne : options.nullTypeName ≠ "null")
    (hjson : value.IsJson) (hplain : value.HasPlainMembers)
    (hafter : allPhases.run (Run.start options (.ofValue value)) = (.ok (), after)) :
    ∃ simplified, Phase.simplify.run.run (Run.start options (.ofValue value)) =
      (.ok (), simplified) ∧
      ∀ v ∈ documentViolations after.document, ∃ visit ∈ after.document.documentVisits,
        v ∈ violations visit.fields visit.location ∧
          (Irreparable visit.fields visit.location v ∨ Leftover simplified after visit v) := by
  obtain ⟨simplified, restructured, hsimplify, hrestructure, hannotate⟩ := allPhases_run_ok hafter
  have hsound := Run.start_sound options value
  have hstart : (Run.start options (.ofValue value)).document.IsSound True := by
    refine (isSound_mapTags fun _ => ()).1 ?_
    change (Run.start options (.ofValue value)).document.erase.IsSound True
    rw [erase_start]
    exact (isSound_mapTags fun _ => ()).2 ⟨hjson, hplain, fun _ => trivial⟩
  have hmapping := Tree.mappingFault?_eq_none_iff.1 (Phase.mapping_of_ok hsimplify)
  have hended := simplify_simplified hmapping hstart.json hstart.plain hne
  obtain ⟨cleaned, hcleaned, hsimplified⟩ := hended.resolve_right <| by
    rintro ⟨stopped, hstopped, -⟩
    cases hsimplify.symm.trans hstopped
  obtain rfl : simplified = cleaned := (Prod.mk.inj (hsimplify.symm.trans hcleaned)).2
  obtain ⟨document, diagnostics, -, heq⟩ := Phase.simplify_of_ok hsimplify
  have hgenerated : simplified.generated = [] := by rw [heq]; rfl
  have htidy :=
    tidy_of_normalForm (Phase.sound_of_run hsound hsimplify) hgenerated (hsimplified.schemas .root)
  have hkeep : simplified.options = options := hsimplified.options
  have hlater : simplified.later? = some after := by
    unfold Run.later?
    rw [hrestructure]
    simp only
    rw [hannotate]
  refine ⟨simplified, hsimplify, fun v hv => ?_⟩
  obtain ⟨visit, hvisit, hfound, hleft | ⟨key, hkey, n, member, hget, hpermit, heq⟩⟩ :=
    leftover_of_tidy (hkeep ▸ hasFlags_of_refusal hoptions) htidy
      (distinctEnums_of_normalForm (hsimplified.schemas .root)) hlater hv
  · exact ⟨visit, hvisit, hfound, Or.inr hleft⟩
  · refine ⟨visit, hvisit, hfound, ?_⟩
    cases hmember : member.fields? with
    | none => exact Or.inl (.lone hkey hget hmember heq)
    | some fields =>
        obtain ⟨rfl, hempty⟩ := hpermit (by rw [hmember]; rfl)
        exact Or.inr (.filled hempty hget heq)

/-- A document with an enumeration of mappings, and a reference to one of them where a map is
inlined. -/
def patchedEnum : Value :=
  .ofEntries [("components", .ofEntries [("schemas", .ofEntries [
    ("E", .ofEntries [("enum", .ofList [.ofEntries [("properties", .ofEntries [])],
      .ofEntries
        [("properties", .ofEntries [("field", .ofEntries [("type", .ofText "string")])])]])]),
    ("QueryContainer", .ofEntries [("properties", .ofEntries [("m", .ofEntries [
      ("type", .ofText "object"), ("minProperties", .ofInt 1), ("maxProperties", .ofInt 1),
      ("additionalProperties",
        .ofEntries [("$ref", .ofText "#/components/schemas/E/enum/0")])])])])])])]

/-- The key property that is given to the referenced value makes it repeat the other one, with
no generated component and no `allOf` in sight. -/
theorem restructure_patches_enum :
    documentViolations patchedEnum = [] ∧
      ∃ after, (Run.start .standard (.ofValue patchedEnum)).later? = some after ∧
        after.generated = [] ∧
        (documentViolations after.document).map (·.code) = ["enum_case_duplicate"] := by
  have hafter : ((Run.start .standard (.ofValue patchedEnum)).later?.map fun after =>
      (after.generated, (documentViolations after.document).map (·.code))) =
        some ([], ["enum_case_duplicate"]) := by decide +kernel
  obtain ⟨after, hrun, hresult⟩ := Option.map_eq_some_iff.1 hafter
  obtain ⟨hgenerated, hcodes⟩ := Prod.mk.inj hresult
  exact ⟨by decide +kernel, after, hrun, hgenerated, hcodes⟩

end ProtoShape
