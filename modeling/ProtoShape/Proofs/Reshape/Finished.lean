import ProtoShape.Proofs.Reshape.Annotation
import ProtoShape.Proofs.Reshape.Blind
import ProtoShape.Proofs.Reshape.Leftovers
import ProtoShape.Proofs.Reshape.Objects
import ProtoShape.Proofs.Walk

/-!
# Reshaping again

A second reshaping need not leave the document as it is: a rule of the first phase that looks at
the rest of the document may have come too early, and a rule of the second phase may bring a schema
into a shape that an earlier rule would have changed.

But this is all that can happen.  A run is `Finished` if each rule of the first two phases, tried
on its own at any schema, declines: it meets no fault there and changes nothing.  Then a whole phase
changes nothing either: a walk comes to each schema with the document as it was
(`Phase.simplify_unchanged`, `Phase.restructure_unchanged`).  The marks of the third phase are there
already.  So the result of a reshaping is left as it is where the run over it is finished
(`reshape_again`).
-/

namespace ProtoShape

open Config Rules Tree Relation

/-- The rules of the first two phases with what they take on a visit. -/
def Visit.rules (options : Options) (visit : Visit Tag) : List Rule :=
  [.constsToEnum, .dropListCovered, .unwrapComposites, .closeOpenMap, .distinctEnum,
    .renameNull options.nullTypeName, .dropShorthand visit.location,
    .referSingleMap visit.name visit.location, .titledToProperty, .membersToProperties]

/-- Every rule of the first two phases declines at every schema of the document. -/
def Run.Finished (run : Run) : Prop :=
  ∀ visit ∈ run.document.documentVisits, ∀ n ∈ visit.tag, ∀ rule ∈ visit.rules run.options,
    ((rule.step n).run run).1 = .ok false

instance (run : Run) : Decidable run.Finished :=
  inferInstanceAs (Decidable (∀ visit ∈ run.document.documentVisits, ∀ n ∈ visit.tag,
    ∀ rule ∈ visit.rules run.options, ((rule.step n).run run).1 = .ok false))

section

variable {run after : Run}

theorem Run.Unchanged.finished (h : run.Unchanged after) (hfinished : run.Finished) :
    after.Finished := by
  have hrules : ∀ visit ∈ run.document.documentVisits, ∀ n ∈ visit.tag,
      ∀ rule ∈ visit.rules run.options, ((rule.step n).run after).1 = .ok false :=
    fun visit hvisit n hn rule hrule =>
      Rule.declines_of_unchanged h (hfinished visit hvisit n hn rule hrule)
  obtain ⟨reported, rfl⟩ := h
  exact hrules

theorem unchanged_of_steps (h : ReflTransGen Run.Unchanged run after) : run.Unchanged after := by
  induction h with
  | refl => exact .refl run
  | tail _ hlast ih => exact ih.trans hlast

theorem Run.Unchanged.sound (h : run.Unchanged after) (hsound : run.Sound) : after.Sound := by
  obtain ⟨reported, rfl⟩ := h
  exact hsound.congr rfl rfl rfl

theorem Run.Unchanged.workable (h : run.Unchanged after) (hworkable : run.Workable) :
    after.Workable := by
  obtain ⟨reported, rfl⟩ := h
  exact ⟨hworkable.sections, hworkable.document, hworkable.aside⟩

theorem Run.Unchanged.node? (h : run.Unchanged after) (n : Nat) : after.node? n = run.node? n := by
  obtain ⟨reported, rfl⟩ := h
  rfl

/-- A walk comes to schemas of the document, and their numbers lead to them. -/
theorem Run.Sound.node?_of_visit (h : run.Sound) {visit : Visit Tag}
    (hvisit : visit ∈ run.document.documentVisits) :
    ∃ n, visit.tag = some n ∧ run.node? n = some (.map (some n) visit.fields) := by
  obtain ⟨_, _, _, hreach, -⟩ := reaches_of_mem_visits hvisit
  have hholds := run.holds_document.below hreach.mem_subtrees
  obtain ⟨n, -, htag⟩ := h.exists_tag hholds
  have htag' : visit.tag = some n := htag
  exact ⟨n, htag', htag' ▸ h.node?_of_holds hholds htag⟩

end

/-! ## Rules on their own -/

namespace RiskyStep

variable {run : Run} {n : Nat} {tag : Tag} {fields : Fields Tag}

theorem run_fieldsOf (hnode : run.node? n = some (.map tag fields)) :
    (fieldsOf n).run run = (.ok fields, run) := by
  rw [fieldsOf, run_get_bind, hnode]
  rfl

theorem run_edit (hnode : run.node? n = some (.map tag fields)) (program : Edit Tag Bool) :
    ((edit program n).run run).1 = (program.run fields).1 := by
  rw [edit, run_bind_of_ok (run_fieldsOf hnode)]
  rfl

/-- Where a program that decides first tells of no change, it meets no fault and has no result. -/
theorem declined_of_edit (hnode : run.node? n = some (.map tag fields))
    {program : Edit Tag Bool} {fault? : Option Fault} {result? : Option (Fields Tag)}
    (hprogram : program.run fields = Edit.decided fault? result? fields)
    (h : ((edit program n).run run).1 = .ok false) : fault? = none ∧ result? = none := by
  rw [run_edit hnode, hprogram] at h
  exact Edit.declined_of_decided h

/-- A rule without a result is not applied. -/
theorem run_applied (hnode : run.node? n = some (.map tag fields))
    {rule : Fields Tag → Option (Fields Tag)} (hrule : rule fields = none) :
    Step.apply rule n run = (false, run) := by
  have hread : Step.fields? n run = (some fields, run) := by
    change ((run.node? n).bind Tree.fields?, run) = _
    rw [hnode]
    rfl
  rw [Step.apply, Step.bind_apply, hread]
  simp only [Option.bind_some, hrule]
  rfl

/-- Where the last rule of the first phase changes nothing, it has no result. -/
theorem declined_of_dropShorthandAt (hnode : run.node? n = some (.map tag fields))
    {location : Location} (h : ((dropShorthandAt location n).run run).1 = .ok false) :
    (dropShorthand run.document location fields).2 = .ok none := by
  rw [dropShorthandAt, run_get_bind, run_bind_of_ok (run_fieldsOf hnode)] at h
  rcases hfound : dropShorthand run.document location fields with ⟨diagnostics, found⟩
  rw [hfound] at h
  have hreports : (diagnostics.forM Step.report : Step PUnit) run = ((), _) := rfl
  simp only at h ⊢
  rw [run_bind_of_ok (run_lift hreports)] at h
  rcases found with reason | _ | result
  · cases h
  · rfl
  · cases h

end RiskyStep

/-! ## The first phase -/

section CleanUp

variable {run : Run}

theorem applyRule_of_eq_none {τ : Type} {rule : Fields τ → Option (Fields τ)} {fields : Fields τ}
    (h : rule fields = none) : applyRule rule fields = fields := by
  rw [applyRule, h]
  rfl

/-- What the first phase records at a schema that it leaves as it is. -/
def Visit.remarks (document : Node) (visit : Visit Tag) : Recording Unit :=
  (dropShorthand document visit.location visit.fields).1.forM Recording.record

/-- The clean-ups leave a schema of a finished run as it is, as long as the rest of the document is
the same. -/
theorem cleanUpSchema_declines (hsound : run.Sound) (hfinished : run.Finished)
    {visit : Visit Tag} (hvisit : visit ∈ run.document.documentVisits)
    {around : Fields Tag → Node} (haround : around visit.fields = run.document) :
    cleanUpSchema run.options visit.location around visit.fields =
      (do visit.remarks run.document; return visit.fields) := by
  obtain ⟨n, htag, hnode⟩ := hsound.node?_of_visit hvisit
  have hdeclines := hfinished visit hvisit n htag
  simp only [Visit.rules, List.forall_mem_cons] at hdeclines
  obtain ⟨hconsts, hcovered, hlone, hopen, hdistinct, hnull, hshorthand, -⟩ := hdeclines
  obtain ⟨-, hconsts⟩ := RiskyStep.declined_of_edit hnode Edit.run_constsToEnum hconsts
  obtain ⟨hcoverFault, hcovered⟩ :=
    RiskyStep.declined_of_edit hnode Edit.run_dropListCovered hcovered
  obtain ⟨-, hlone⟩ := RiskyStep.declined_of_edit hnode Edit.run_unwrapComposites hlone
  obtain ⟨hopenFault, hopen⟩ := RiskyStep.declined_of_edit hnode Edit.run_closeOpenMap hopen
  obtain ⟨henumFault, hdistinct⟩ := RiskyStep.declined_of_edit hnode Edit.run_distinctEnum hdistinct
  obtain ⟨-, hnull⟩ := RiskyStep.declined_of_edit hnode (Edit.run_renameNull _) hnull
  have hnone := RiskyStep.declined_of_dropShorthandAt hnode hshorthand
  -- Each rule gives the fields back, so the next one finds them as they were.
  unfold cleanUpSchema
  simp only [applyRule_of_eq_none hconsts, hcoverFault, applyRule_of_eq_none hcovered,
    applyRule_of_eq_none hlone, hopenFault, applyRule_of_eq_none hopen, henumFault,
    applyRule_of_eq_none hdistinct, applyRule_of_eq_none hnull, haround, hnone, Recording.stopAt,
    pure_bind]
  rfl

theorem cleanUp_finished (hsound : run.Sound) (hfinished : run.Finished) :
    cleanUp run.options run.document =
      (do forM run.document.documentVisits (Visit.remarks run.document); return run.document) := by
  refine replaceSchemas_observed run.document (.one .document) .root id rfl ?_
  exact fun visit hvisit around haround => cleanUpSchema_declines hsound hfinished hvisit haround

/-- The first phase changes nothing in a finished run. -/
theorem Phase.simplify_unchanged (hsound : run.Sound)
    (hmapping : run.document.fields?.isSome = true) (hfinished : run.Finished) :
    ∃ after, Phase.simplify.run.run run = (.ok (), after) ∧ run.Unchanged after := by
  let L := Recording.allowing fun _ => False
  have hkept : L.holds (cleanUp run.options run.document) (· = run.document) := by
    rw [cleanUp_finished hsound hfinished]
    exact L.bind (L.forM fun _ _ => Recording.allowing_record _) fun _ _ => L.pure rfl
  have hrecorded := hkept run.diagnostics
  obtain ⟨document, log, hclean, rfl⟩ := hrecorded.exists_ok
  obtain ⟨reported, hreported⟩ := hrecorded.log
  rw [hclean] at hreported
  refine ⟨_, ?_, reported, rfl⟩
  have hafter : ({ run with diagnostics := log } : Run).Sound := hsound.congr rfl rfl rfl
  rw [Phase.run_simplify hmapping, hclean, hreported, ← hafter.settle_eq_self]

end CleanUp

/-! ## The second phase -/

/-- A walk over the tree has nothing to do: the run is finished, and what the walk comes to are
schemas of the document. -/
structure Run.Idle (run : Run) (t : Node) (place : Place) (site : Site) : Prop where
  sound : run.Sound
  finished : run.Finished
  held : run.Holds t
  visits : ∀ visit ∈ t.visits place site, visit ∈ run.document.documentVisits

namespace Run.Idle

variable {run after : Run} {t child : Node} {place place' : Place} {site site' : Site}

theorem of_unchanged (h : run.Idle t place site) (hafter : run.Unchanged after) :
    after.Idle t place site := by
  have hsound := hafter.sound h.sound
  have hfinished := hafter.finished h.finished
  obtain ⟨reported, rfl⟩ := hafter
  exact ⟨hsound, hfinished, h.held, h.visits⟩

theorem part (h : run.Idle t place site) (hchild : child ∈ t.children)
    (hvisits : ∀ visit ∈ child.visits place' site', visit ∈ t.visits place site) :
    run.Idle child place' site' :=
  ⟨h.sound, h.finished, h.held.below (mem_subtrees_of_child hchild (self_mem_subtrees child)),
    fun visit hvisit => h.visits visit (hvisits visit hvisit)⟩

end Run.Idle

namespace RiskyStep

variable {run : Run} {n : Nat}

/-- A rule that leaves the run unchanged unless it tells of a change, and does not tell of one. -/
theorem leads_unchanged {x : RiskyStep Bool} (h : Spares x run (· = true))
    (hdeclines : (x.run run).1 ≠ .ok true) :
    Leads Run.Unchanged x run fun _ _ => True :=
  ⟨.single (h _ _ rfl fun _ hresult hchanged =>
    hdeclines (hresult.trans (congrArg Except.ok hchanged))),
    fun _ _ => trivial⟩

theorem leads_applied {fields : Fields Tag} (hnode : run.node? n = some (.map (some n) fields))
    {rule : Fields Tag → Option (Fields Tag)} (hrule : rule fields = none) :
    Leads Run.Unchanged (Step.apply rule n : Step Bool) run fun _ _ => True := by
  refine leads_lift ⟨?_, trivial⟩
  rw [run_applied hnode hrule]

/-- The rules of the second phase leave a finished run unchanged. -/
theorem reshapeSchema_unchanged (hsound : run.Sound) (hfinished : run.Finished) {visit : Visit Tag}
    (hvisit : visit ∈ run.document.documentVisits) (htag : visit.tag = some n) :
    Leads Run.Unchanged (reshapeSchema visit.name visit.location n) run fun _ _ => True := by
  obtain ⟨k, hk, hnode⟩ := hsound.node?_of_visit hvisit
  obtain rfl : k = n := Option.some.inj (hk.symm.trans htag)
  have hdeclines := hfinished visit hvisit k htag
  simp only [Visit.rules, List.forall_mem_cons] at hdeclines
  obtain ⟨-, -, -, -, -, -, -, hsingle, htitled, hmembers, -⟩ := hdeclines
  obtain ⟨-, htitled⟩ := declined_of_edit hnode Edit.run_titledToProperty htitled
  obtain ⟨-, hmembers⟩ := declined_of_edit hnode Edit.run_membersToProperties hmembers
  have hsingle : ((referSingleMap visit.name visit.location k).run run).1 ≠ .ok true := by
    have hread : (referSingleMapAt visit.name visit.location k).run run = _ :=
      run_bind_of_ok (run_fieldsOf hnode)
    rw [Rule.step, hread] at hsingle
    rw [hsingle]
    exact nofun
  refine leads_bind (leads_unchanged (spares_referSingleMap hsound _ _ k) hsingle) ?_
  intro _ first hfirst _
  have hnode₁ := ((unchanged_of_steps hfirst).node? k).trans hnode
  refine leads_bind (leads_applied hnode₁ htitled) fun _ second hsecond _ => ?_
  have hnode₂ := ((unchanged_of_steps hsecond).node? k).trans hnode₁
  exact leads_bind (leads_applied hnode₂ hmembers) fun _ _ _ _ => leads_pure trivial

/-- A walk leaves a finished run unchanged.  It comes to each schema with the document as it was. -/
theorem walk_unchanged (fuel : Nat) {t : Node} {place : Place} {site : Site}
    (h : run.Idle t place site) :
    Leads Run.Unchanged (walk reshapeSchema fuel place site t.tag) run fun _ _ => True := by
  -- The induction is on the fuel.  The parts below come one after the other, and what is known of
  -- the walk holds again for the run that each of them starts from.
  induction fuel generalizing run t place site with
  | zero => exact leads_pure trivial
  | succ fuel ih =>
      obtain ⟨n, -, htag⟩ := h.sound.exists_tag h.held
      have hnode := h.sound.node?_of_holds h.held htag
      rw [htag]
      unfold walk
      refine leads_get ?_
      rw [hnode]
      split
      · rename_i tag items hspread heq
        cases heq
        refine leads_forM fun (item, index) hin between hbetween => ?_
        have hitem := List.mem_zipIdx_iff_getElem?.1 hin
        have hidle := h.of_unchanged (unchanged_of_steps hbetween)
        exact ih (hidle.part (List.mem_of_getElem? hitem) fun visit hvisit =>
          mem_visits_list.2 ⟨hspread, index, item, hitem, hvisit⟩)
      · rename_i tag entries hspread heq
        cases heq
        refine leads_forM fun (key, value) hentry between hbetween => ?_
        have hidle := h.of_unchanged (unchanged_of_steps hbetween)
        exact ih (hidle.part (List.mem_map_of_mem hentry) fun visit hvisit =>
          (mem_visits_map_entries hspread).2 ⟨(key, value), hentry, hvisit⟩)
      · rename_i tag fields hspread heq
        cases heq
        split
        · rename_i hadmits
          refine leads_bind (leads_forM fun slot hslot between hbetween => leads_get ?_)
            fun _ after hafter _ => ?_
          · have hidle := h.of_unchanged (unchanged_of_steps hbetween)
            rw [(unchanged_of_steps hbetween).node? n, hnode]
            split
            · rename_i value hget
              obtain ⟨key, -, hentry⟩ := Entries.mem_of_get? hget
              exact ih (hidle.part (List.mem_map_of_mem hentry) fun visit hvisit =>
                (mem_visits_map_single hspread).2
                  ⟨hadmits, .inl ⟨slot, hslot, value, hget, hvisit⟩⟩)
            · exact leads_pure trivial
          · have hidle := h.of_unchanged (unchanged_of_steps hafter)
            split
            · rename_i hook hrole
              have hself : Visit.of? place.role site tag fields =
                  some ⟨hook, site.name, site.location, tag, fields⟩ := by
                rw [hrole, Visit.of?]
              have hvisit :=
                hidle.visits _ ((mem_visits_map_single hspread).2 ⟨hadmits, .inr hself⟩)
              have hschema := reshapeSchema_unchanged hidle.sound hidle.finished hvisit htag
              exact hschema
            · exact leads_pure trivial
        · exact leads_pure trivial
      · exact leads_pure trivial

end RiskyStep

/-- The second phase changes nothing in a finished run. -/
theorem Phase.restructure_unchanged {run : Run} (hsound : run.Sound) (hworkable : run.Workable)
    (hfinished : run.Finished) :
    ∃ after, Phase.restructure.run.run run = (.ok (), after) ∧ run.Unchanged after := by
  obtain ⟨result, after, hrun, -, -, rfl | ⟨hphase, -⟩⟩ :=
    Phase.restructure.run_total hsound hworkable
  case inr => cases hphase
  have hidle : run.Idle run.document (.one .document) .root :=
    ⟨hsound, hfinished, run.holds_document, fun _ hvisit => hvisit⟩
  have hwalk : RiskyStep.Leads Run.Unchanged RiskyStep.reshapeMaps run fun _ _ => True :=
    RiskyStep.leads_get (RiskyStep.walk_unchanged _ hidle)
  exact ⟨after, hrun, unchanged_of_steps (hwalk.of_ok (Phase.restructure_of_ok hrun)).1⟩

/-! ## All phases -/

section AllPhases

variable {τ : Type} {options : Options} {value : Tree τ} {after : Run}

/-- All phases over a JSON document leave a document with the marks of the third phase. -/
theorem allPhases_marked (hflags : options.HasFlags) (hjson : value.IsJson)
    (hrun : allPhases.run (Run.start options (.ofValue value)) = (.ok (), after)) :
    ∃ document marked : Node, document.IsJson ∧
      Marked options.flags document (.one .document) .root marked ∧
      after.document.erase = marked.erase := by
  obtain ⟨simplified, restructured, hsimplify, hrestructure, hannotate⟩ := allPhases_run_ok hrun
  have hp := keptByUpdates_isObject (τ := Tag)
  have hsound := Run.start_sound options value
  have hsound' := Phase.sound_of_run hsound hsimplify
  have hfirst := Phase.everywhere_of_run hp hsound hsimplify (Run.start_isJson options hjson)
  have hsecond := Phase.everywhere_of_run hp hsound' hrestructure hfirst
  have hoptions : restructured.options = options := by
    obtain ⟨document, diagnostics, -, heq⟩ := Phase.simplify_of_ok hsimplify
    calc
      restructured.options = simplified.options :=
        Updates.options (restructure_updates hsound' hrestructure)
      _ = options := by rw [heq]; rfl
  have hmapping := Tree.mappingFault?_eq_none_iff.1 (Phase.mapping_of_ok hannotate)
  obtain ⟨marked, hmarked, hmark⟩ :=
    Phase.run_annotate_marked (hoptions ▸ hflags) hmapping hsecond.document
  cases hannotate.symm.trans hmark
  exact ⟨restructured.document, marked, hsecond.document, hoptions ▸ hmarked,
    (Node.number_numbers marked restructured.next).erase⟩

/-- All phases over a document that is marked leave a finished run as it is. -/
theorem allPhases_finished (hflags : options.HasFlags) (hnames : options.flags.names.Nodup)
    {run : Run} (hoptions : run.options = options) (hsound : run.Sound) (hworkable : run.Workable)
    (hfinished : run.Finished) {document marked : Node} (hjson : document.IsJson)
    (hmarked : Marked options.flags document (.one .document) .root marked)
    (hvalue : run.document.erase = marked.erase) :
    ∃ last, allPhases.run run = (.ok (), last) ∧ last.document.erase = run.document.erase ∧
      last.generated = run.generated := by
  obtain ⟨first, hsimplify, hfirst⟩ :=
    Phase.simplify_unchanged hsound hworkable.sections.mapping hfinished
  obtain ⟨second, hrestructure, hsecond⟩ :=
    Phase.restructure_unchanged (hfirst.sound hsound) (hfirst.workable hworkable)
      (hfirst.finished hfinished)
  obtain ⟨again, hagain, hsame⟩ := markGroups_again hflags hnames hjson hmarked hvalue
  -- Only the record has grown when the third phase begins.
  obtain ⟨reported, heq⟩ := hfirst.trans hsecond
  have hdocument : second.document = run.document := by rw [heq]
  have hkeep : second.options = options := by rw [heq, ← hoptions]
  have hgenerated : second.generated = run.generated := by rw [heq]; rfl
  have hannotate : Phase.annotate.run.run second =
      (.ok (), Run.settle { second with document := again }) := by
    have hmapping := Tree.mappingFault?_eq_none_iff.2 (hdocument ▸ hworkable.sections.mapping)
    rw [Phase.run_annotate hmapping, hkeep, hdocument, hagain]
  have hrun : allPhases.run run = (.ok (), Run.settle { second with document := again }) :=
    calc
      allPhases.run run = _ := RiskyStep.run_bind_of_ok hsimplify
      _ = _ := RiskyStep.run_bind_of_ok hrestructure
      _ = _ := RiskyStep.run_bind_of_ok hannotate
  exact ⟨_, hrun, (Node.number_numbers again second.next).erase.trans hsame, hgenerated⟩

end AllPhases

/-- A reshaping leaves the result of a reshaping as it is, key order included, and generates nothing
if the run over it is finished. -/
theorem reshape_again {τ : Type} {options : Options} (hoptions : optionsRefusal? options = none)
    (hnames : options.flags.names.Nodup) {value : Tree τ} (hjson : value.IsJson)
    (hsections : value.Opens sectionKeys) {first : Reshaped}
    (hfirst : reshape options (.ofValue value) = .ok first)
    (hfinished : (Run.start options (.ofValue first.document)).Finished) :
    ∃ second, reshape options (.ofValue first.document) = .ok second ∧
      second.document.erase = first.document.erase ∧ second.generated = [] := by
  have hflags := hasFlags_of_refusal hoptions
  obtain ⟨-, last, hrun, rfl⟩ := run_of_reshape hfirst
  obtain ⟨result, last', hrun', -, hworkable, -⟩ := phases_total Phase.all
    (Run.start_sound options value) (Run.start_workable options hjson.hasTextKeys hsections)
  cases hrun'.symm.trans hrun
  obtain ⟨document, marked, hdocument, hmarked, hvalue⟩ := allPhases_marked hflags hjson hrun
  obtain ⟨again, hagain, hsame, hgenerated⟩ := allPhases_finished hflags hnames rfl
    (Run.start_sound options last.document)
    (Run.start_workable options hworkable.document hworkable.sections)
    hfinished hdocument hmarked ((erase_start options last.document).trans hvalue)
  refine ⟨_, reshape_of_run (opens_mapTags _ hworkable.sections).mapping hagain, ?_, hgenerated⟩
  exact hsame.trans (erase_start options last.document)

/-- A union `A` with a member that restates a property of its other member `B`.  The property of `B`
is found once `B` has been cleaned up, which is after `A`. -/
def earlyUnion : Value :=
  .ofEntries [("components", .ofEntries [("schemas", .ofEntries [
    ("A", .ofEntries [("oneOf", .ofList [
      .ofEntries [("title", .ofText "foo"), ("type", .ofText "string")],
      .ofEntries [("$ref", .ofText "#/components/schemas/B")]])]),
    ("B", .ofEntries [("oneOf", .ofList [.ofEntries [("type", .ofText "object"),
      ("properties", .ofEntries [("foo", .ofEntries [("type", .ofText "string")])])]])])])])]

/-- The reshaping of a single map is finished, and that of the early union is not. -/
example :
    ([singleMap, earlyUnion].filterMap fun document =>
      (reshape .standard (.ofValue document)).toOption).map
      (fun reshaped => decide (Run.start .standard (.ofValue reshaped.document)).Finished) =
        [true, false] := by
  decide +kernel

end ProtoShape
