import ProtoShape.Proofs.Escapes
import ProtoShape.Proofs.Reshape.Declining
import ProtoShape.Proofs.Reshape.Reports

/-!
# One component for the single maps over a component

The registry of generated components goes by the identity of the value type.  Where a
component has a number of its own, that is as good as its name.

* A number stands at one path, so every pointer to the component has its name as its last
  token (`Run.Sound.tokens?_of_identity`).  Whatever is generated for the component is named
  after it (`recorded_of_reshapes`).
* A single map over the component gives way if a component has been recorded or its name is
  free.  Otherwise it is left as it is, with a diagnostic (`SingleMapOver.cases`).
* A name that is recorded stays recorded, and one that is taken stays taken.  So all single maps
  over the component meet with the same decision (`restructure_decides`).

Null and the booleans have no number.  All components that are the same boolean count as one
value type, and the generated component is named after the one that is come to first.
-/

namespace ProtoShape

open Rules Tree Relation

/-! ## Pointers to a number -/

/-- The last token of a pointer is the last of its tokens. -/
theorem lastToken_of_tokens? {ref name : String} (before : List String)
    (h : Pointer.tokens? ref = some (before ++ [name])) : Pointer.lastToken ref = name := by
  unfold Pointer.tokens? at h
  split at h
  · simp at h
  · rename_i rest hchars
    obtain ⟨front, back, hsplit, -, hback⟩ := List.map_eq_append_iff.1 (Option.some.inj h)
    obtain ⟨token, rfl, rfl⟩ := List.map_eq_singleton_iff.1 hback
    have hpieces : Text.split '/' ref.toList = ['#'] :: front ++ [token] := by
      have hhash : '/' ∉ ['#'] := by decide
      rw [hchars, List.cons_append, ← hsplit]
      exact Text.split_append hhash rest
    rw [Pointer.lastToken, hpieces, List.getLastD_concat]
  · cases h

theorem exists_of_steps_concat {t u : Node} {tokens : List String} {token : String}
    (h : (tokens ++ [token]).foldlM Tree.step t = .ok u) :
    ∃ v, tokens.foldlM Tree.step t = .ok v ∧ v.step token = .ok u := by
  rw [List.foldlM_append] at h
  cases hfold : tokens.foldlM Tree.step t with
  | error reason =>
      rw [hfold] at h
      cases h
  | ok v =>
      rw [hfold] at h
      refine ⟨v, rfl, ?_⟩
      cases hstep : v.step token with
      | error reason =>
          simp [List.foldlM, hstep, bind, Except.bind] at h
      | ok w =>
          simpa [List.foldlM, hstep, bind, Except.bind, pure, Except.pure] using h

/-- Tokens that lead to a number are the keys that lead there. -/
theorem Run.Sound.tokens_unique {run : Run} (h : run.Sound) {keys tokens : List String} {u v : Node}
    (hu : run.document.under? keys = some u) (hv : tokens.foldlM Tree.step run.document = .ok v)
    (htag : u.tag = v.tag) : tokens = keys := by
  induction keys using List.reverseRecOn generalizing tokens u v with
  | nil =>
      obtain rfl : run.document = u := Option.some.inj hu
      rcases List.eq_nil_or_concat tokens with rfl | ⟨before, token, rfl⟩
      · rfl
      · rw [List.concat_eq_append] at hv
        obtain ⟨w, hw, hstep⟩ := exists_of_steps_concat hv
        have hwholds := run.holds_document.below (mem_subtrees_of_steps hw)
        exact absurd htag.symm (h.tag_ne_of_child hwholds (mem_children_of_step hstep))
  | append_singleton pre key ih =>
      obtain ⟨p, hp, hkey⟩ := under?_concat.1 hu
      have hpholds := run.holds_document.below (mem_subtrees_of_under? hp)
      cases p with
      | map tag fields =>
          have hget : fields.get? key = some u := by simpa [under?_map_cons] using hkey
          obtain ⟨i, k, hi, -⟩ := Entries.exists_index hget
          have hchild : (Tree.map tag fields).children[i]? = some u := by
            rw [children_map, Entries.values, List.getElem?_map, hi, Option.map_some]
          rcases List.eq_nil_or_concat tokens with rfl | ⟨before, token, rfl⟩
          · obtain rfl : run.document = v := by simpa [pure, Except.pure] using hv
            exact absurd htag (h.tag_ne_of_child hpholds (List.mem_of_getElem? hchild))
          · rw [List.concat_eq_append] at hv ⊢
            obtain ⟨w, hw, hstep⟩ := exists_of_steps_concat hv
            have hwholds := run.holds_document.below (mem_subtrees_of_steps hw)
            obtain ⟨j, hj⟩ := List.mem_iff_getElem?.1 (mem_children_of_step hstep)
            obtain ⟨rfl, -⟩ := h.parent_unique hpholds hwholds hchild hj htag
            have hget' : fields.get? token = some v := by
              simpa [under?_map_cons] using under?_of_step (Or.inr rfl) hstep
            rw [ih hp hw rfl, (h.keyword_unique hpholds hwholds hget hget' htag).2]
      | _ => cases hkey

theorem tag_of_identity {u : Node} {t : Tag} (h : Node.identity u = .tag t) : u.tag = t := by
  unfold Node.identity at h
  split at h
  · cases h
  · cases h
  · exact Identity.tag.inj h

/-- Every pointer to a component with a number has its name as the last token. -/
theorem Run.Sound.tokens?_of_identity {run : Run} (h : run.Sound) {name ref : String} {number : Tag}
    (hname : run.registry.get? name = some (.tag number)) {target : Node}
    (hresolve : run.document.resolve ref = .ok target)
    (htarget : Node.identity target = .tag number) :
    Pointer.tokens? ref = some (componentPath name) := by
  rw [run.registry_get?] at hname
  obtain ⟨u, hu, hidentity⟩ := Option.map_eq_some_iff.1 hname
  obtain ⟨tokens, htokens, hfold⟩ := exists_tokens_of_resolve hresolve
  rw [htokens, h.tokens_unique hu hfold
    ((tag_of_identity hidentity).trans (tag_of_identity htarget).symm)]

/-! ## What is recorded -/

/-- At most one generated component is recorded, and its name is fit for its value type. -/
def RecordsFit (fit : Identity → String → Prop) (run after : Run) : Prop :=
  after.valueComponents = run.valueComponents ∨
    ∃ target name, fit target name ∧ after.valueComponents = run.valueComponents ++ [(target, name)]

section

variable {fit : Identity → String → Prop} {run after : Run} {n : Nat}

theorem recorded_of_steps (h : ReflTransGen (RecordsFit fit) run after) :
    ∃ more, after.valueComponents = run.valueComponents ++ more ∧
    ∀ entry ∈ more, fit entry.1 entry.2 := by
  induction h with
  | refl => exact ⟨[], (List.append_nil _).symm, fun _ hin => nomatch hin⟩
  | tail _ hlast ih =>
      obtain ⟨more, hmore, hfit⟩ := ih
      rcases hlast with hsame | ⟨target, name, hname, hentered⟩
      · exact ⟨more, hsame.trans hmore, hfit⟩
      · refine ⟨more ++ [(target, name)], by rw [hentered, hmore, List.append_assoc],
          fun entry hin => ?_⟩
        rcases List.mem_append.1 hin with hold | hnew
        · exact hfit entry hold
        · obtain rfl := List.mem_singleton.1 hnew
          exact hname

theorem Gift.recordsFit {before : IdentitySet} (h : Gift before run after) :
    RecordsFit fit run after := by
  cases h <;> exact Or.inl rfl

namespace Step

theorem modify_fit {f : Run → Run} (h : (f run).valueComponents = run.valueComponents) :
    Leads (RecordsFit fit) (modify f) run fun _ _ => True := leads_modify (Or.inl h) trivial

theorem entryOrEmpty_fit (key : String) :
    Leads (RecordsFit fit) (entryOrEmpty n key) run fun _ _ => True := by
  unfold entryOrEmpty
  refine leads_bind (Q := fun _ _ => True) ⟨.refl, trivial⟩ fun found _ _ _ => ?_
  split
  · exact leads_pure trivial
  · exact leads_bind (modify_fit rfl) fun _ _ _ _ => ⟨.refl, trivial⟩

theorem apply_fit (rule : Fields Tag → Option (Fields Tag)) :
    Leads (RecordsFit fit) (apply rule n) run fun _ _ => True := by
  unfold apply
  refine leads_bind (Q := fun _ _ => True) ⟨.refl, trivial⟩ fun found _ _ _ => ?_
  split
  · exact leads_bind (modify_fit rfl) fun _ _ _ _ => leads_pure trivial
  · exact leads_pure trivial

theorem giveKey_fit (hsound : run.Sound) (n : Nat) (location : Location) :
    Leads (RecordsFit fit) (giveKey n location) run fun _ _ => True :=
  have hgifts := (giveKey_giving n location hsound).gifts hsound (fun _ hin => hin) trivial
  ⟨hgifts.lift id fun _ _ hgift => hgift.recordsFit, trivial⟩

theorem inlineSingleMap_fit (hsound : run.Sound) (additional : Node) (location : Location) :
    Leads (RecordsFit fit) (inlineSingleMap n additional location) run fun _ _ => True := by
  unfold inlineSingleMap
  refine leads_get ?_
  cases additional.tag with
  | none => exact modify_fit rfl
  | some target =>
      simp only
      split
      · exact leads_bind (giveKey_fit hsound target _) fun _ _ _ _ => modify_fit rfl
      · exact modify_fit rfl

end Step

namespace RiskyStep

open Step (modify_fit entryOrEmpty_fit apply_fit inlineSingleMap_fit)

theorem schemas_fit : Leads (RecordsFit fit) schemas run fun _ _ => True := by
  unfold schemas
  refine leads_get ?_
  split
  · refine leads_bind (leads_lift (entryOrEmpty_fit _)) fun components _ _ _ => ?_
    split
    · exact leads_lift (entryOrEmpty_fit _)
    · exact leads_throw
  · exact leads_throw

theorem addComponent_fit (schemas : Node) (name : String) (component : Node) :
    Leads (RecordsFit fit) (addComponent schemas name component) run fun _ _ => True := by
  unfold addComponent
  split
  · exact leads_lift (modify_fit rfl)
  · exact leads_throw
  · exact leads_throw

/-- What is recorded for a value type is named after the pointer to it. -/
theorem componentFor_fit {target : Identity} {ref : String}
    (hfit : fit target (Naming.generated (Pointer.lastToken ref) run.options.singleMapSuffix))
    (keySchema : Option Node) (location : Location) :
    Leads (RecordsFit fit) (componentFor target ref keySchema location) run fun _ _ => True := by
  unfold componentFor
  refine leads_get ?_
  split
  · exact leads_pure trivial
  · refine leads_bind schemas_fit fun schemas _ _ _ => ?_
    refine leads_bind (leads_except (Q := fun _ _ => True) fun _ _ => trivial) fun taken _ _ _ => ?_
    split
    · exact leads_bind (leads_lift (modify_fit rfl)) fun _ _ _ _ => leads_pure trivial
    · refine leads_bind (addComponent_fit _ _ _) fun _ _ _ _ => ?_
      exact leads_bind (leads_lift (Step.leads_modify (Q := fun _ _ => True)
        (Or.inr ⟨_, _, hfit, rfl⟩) trivial)) fun _ _ _ _ => leads_pure trivial

theorem referSingleMap_fit (hsound : run.Sound)
    (hfit : ∀ ref target, run.document.resolve ref = .ok target →
      fit (Node.identity target)
      (Naming.generated (Pointer.lastToken ref) run.options.singleMapSuffix))
    (context : Option String) (location : Location) :
    Leads (RecordsFit fit) (referSingleMap context location n) run fun _ _ => True := by
  unfold referSingleMap
  refine leads_get ?_
  split
  · exact leads_pure trivial
  split
  · exact leads_pure trivial
  split
  · exact leads_pure trivial
  split
  · exact leads_pure trivial
  split
  · exact leads_bind (leads_lift (modify_fit rfl)) fun _ _ _ _ => leads_pure trivial
  · rename_i target hresolve
    split
    · exact leads_bind (leads_lift (inlineSingleMap_fit hsound _ _)) fun _ _ _ _ =>
        leads_pure trivial
    · refine leads_bind (componentFor_fit (hfit _ target hresolve) _ _) fun found _ _ _ => ?_
      split
      · exact leads_pure trivial
      · exact leads_bind (leads_lift (modify_fit rfl)) fun _ _ _ _ => leads_pure trivial

theorem reshapeSchema_fit (hsound : run.Sound)
    (hfit : ∀ ref target, run.document.resolve ref = .ok target →
      fit (Node.identity target)
      (Naming.generated (Pointer.lastToken ref) run.options.singleMapSuffix))
    (context : Option String) (location : Location) :
    Leads (RecordsFit fit) (reshapeSchema context location n) run fun _ _ => True :=
  leads_bind (referSingleMap_fit hsound hfit context location) fun _ _ _ _ =>
    leads_bind (leads_lift (apply_fit _)) fun _ _ _ _ =>
      leads_bind (leads_lift (apply_fit _)) fun _ _ _ _ => leads_pure trivial

end RiskyStep

end

/-- What the visits record for a component with a number is named after the component. -/
theorem recorded_of_reshapes {run after : Run} (h : ReflTransGen Reshapes run after)
    (hmapped : run.Mapped)
    {name : String} {number : Tag} (hname : run.registry.get? name = some (.tag number)) :
    ∃ more, after.valueComponents = run.valueComponents ++ more ∧ ∀ entry ∈ more,
      entry.1 = .tag number → entry.2 = Naming.generated name run.options.singleMapSuffix := by
  have hfits : ReflTransGen (RecordsFit fun target found =>
      target = .tag number → found = Naming.generated name run.options.singleMapSuffix) run
        after := by
    induction h with
    | refl => exact .refl
    | tail hfirst hlast ih =>
        have hregisters := registers_of_reshapes hfirst hmapped
        refine ih.trans ?_
        cases hlast with
        | visit context location hn =>
            refine (RiskyStep.reshapeSchema_fit hn.sound (fun ref target hresolve htarget => ?_)
              context location).1
            have htokens :=
              hn.sound.tokens?_of_identity (get?_of_registers hregisters hname) hresolve htarget
            rw [lastToken_of_tokens? sectionKeys htokens, options_of_registers hregisters]
  exact recorded_of_steps hfits

/-! ## A single map over a component -/

/-- The name of the component for the single maps over a component. -/
def Run.boxName (run : Run) (name : String) : String :=
  Naming.generated name run.options.singleMapSuffix

/-- A schema outside the exempted contexts is a single map over a component. -/
structure SingleMapOver (run : Run) (name : String) (n : Nat) (context : Option String) : Prop where
  schema : IsSchema run n
  single : ∃ fields ref, run.node? n = some (.map (some n) fields) ∧ isSingleMap fields = true ∧
    valueRef? fields = some ref ∧ Pointer.tokens? ref = some (componentPath name)
  inPlace : context.any run.options.inlineContexts.contains = false

/-- A single map stays inline, since the name for its component is taken. -/
def Location.conflict (location : Location) (name : String) : Diagnostic :=
  location.diagnostic "naming_conflict"
    s!"Component {Text.quoted name} already exists; single map left inline." "error"

namespace RiskyStep

variable {run : Run} {n : Nat}

/-- Schemas that are there are looked up. -/
theorem run_schemas (hsound : run.Sound) {value : Node}
    (hunder : run.document.under? sectionKeys = some value) :
    schemas.run run = (.ok value, run) := by
  obtain ⟨components, hcomponents, hschemas⟩ :=
    (@under?_concat _ _ value ["components"] "schemas").1 hunder
  cases hdocument : run.document with
  | map tag fields =>
      obtain ⟨root, -, hroot⟩ := hsound.exists_tag run.holds_document
      obtain rfl : tag = some root := by rw [hdocument] at hroot; exact hroot
      have hget : fields.get? "components" = some components := by
        rw [hdocument] at hcomponents
        simpa [under?_map_cons] using hcomponents
      have hholds := run.holds_document.below (mem_subtrees_of_under? hcomponents)
      cases components with
      | map tag inner =>
          obtain ⟨k, -, htag⟩ := hsound.exists_tag hholds
          obtain rfl : tag = some k := htag
          have hget' : inner.get? "schemas" = some value := by
            simpa [under?_map_cons] using hschemas
          have hroot : run.node? root = some (.map (some root) fields) :=
            hsound.node?_of_holds (hdocument ▸ run.holds_document) rfl
          unfold schemas
          rw [run_get_bind, hdocument]
          exact (run_bind_of_ok (run_lift (Step.entryOrEmpty_of_get? hroot hget))).trans
            (run_lift (Step.entryOrEmpty_of_get? (hsound.node?_of_holds hholds rfl) hget'))
      | _ => cases hschemas
  | _ =>
      rw [hdocument] at hcomponents
      cases hcomponents

/-- There is a component for a value type, unless none is recorded and its name is taken. -/
theorem run_componentFor (hsound : run.Sound) {k : Nat} {entries : Fields Tag}
    (hunder : run.document.under? sectionKeys = some (.map (some k) entries))
    (target : Identity) (ref : String) (keySchema : Option Node) (location : Location) :
    (∃ box made, (componentFor target ref keySchema location).run run = (.ok (some box), made)) ∨
      run.valueComponents.lookup target = none ∧
      entries.contains (run.boxName (Pointer.lastToken ref)) = true ∧
      (componentFor target ref keySchema location).run run = (.ok none,
        { run with diagnostics :=
          run.diagnostics ++ [location.conflict (run.boxName (Pointer.lastToken ref))] }) := by
  unfold componentFor
  rw [run_get_bind]
  cases run.valueComponents.lookup target with
  | some box => exact Or.inl ⟨box, run, rfl⟩
  | none =>
      have hlook : ∀ taken, entries.contains (run.boxName (Pointer.lastToken ref)) = taken →
          (liftM (isTaken (.map (some k) entries) (run.boxName (Pointer.lastToken ref))) :
            RiskyStep Bool).run run =
            (.ok taken, run) := by
        rintro _ rfl
        rfl
      rw [run_bind_of_ok (run_schemas hsound hunder)]
      cases htaken : entries.contains (run.boxName (Pointer.lastToken ref)) with
      | true => exact Or.inr ⟨rfl, rfl, run_bind_of_ok (hlook true htaken)⟩
      | false => exact Or.inl ⟨_, _, run_bind_of_ok (hlook false htaken)⟩

end RiskyStep

section

variable {run : Run} {name : String} {n : Nat} {context : Option String} {number : Tag}

/-- The single map gives way to a reference to what is recorded for the component, or its own
component would have a name that is taken. -/
theorem SingleMapOver.cases (h : SingleMapOver run name n context) {before : Run}
    (hbefore : ReflTransGen Registers before run) (hnone : before.valueComponents = [])
    (hmapped : run.Mapped)
    (hname : run.registry.get? name = some (.tag number)) (location : Location) :
    (∃ next box, (RiskyStep.referSingleMap context location n).run run = (.ok true, next) ∧
        next.valueComponents.lookup (.tag number) = some box ∧
        (next.node? n).bind Tree.ref? = some (Pointer.toComponent box)) ∨
      run.valueComponents.lookup (.tag number) = none ∧
      run.registry.get? (run.boxName name) ≠ none ∧
        (RiskyStep.referSingleMap context location n).run run = (.ok false,
          { run with diagnostics :=
            run.diagnostics ++ [location.conflict (run.boxName name)] }) := by
  obtain ⟨fields, ref, hnode, hsingle, hvalue, htokens⟩ := h.single
  obtain ⟨additional, hget, href⟩ := Option.bind_eq_some_iff.1 hvalue
  obtain ⟨target, hresolve, hidentity⟩ := (hmapped.resolve_component htokens).1 hname
  have hlast : Pointer.lastToken ref = name := lastToken_of_tokens? sectionKeys htokens
  have hunder := under?_of_resolve hmapped htokens hresolve
  obtain ⟨schemas, hschemas, hbelow⟩ := (@under?_concat _ _ target sectionKeys name).1 hunder
  have hrefer : (RiskyStep.referSingleMap context location n).run run =
      (RiskyStep.componentFor (.tag number) ref (fields.get? "propertyNames") location >>=
        fun found =>
        found.elim (pure false) fun box => do
          (Step.referToComponent n box : Step Unit)
          return true).run run := by
    unfold RiskyStep.referSingleMap
    rw [RiskyStep.run_get_bind, hnode]
    simp only [Option.bind_some, Tree.fields?, hget, href, hsingle, hresolve, h.inPlace, hidentity]
    refine congrArg (fun rest => (_ >>= rest : RiskyStep Bool).run run) (funext fun found => ?_)
    cases found <;> rfl
  cases schemas with
  | map tag entries =>
      obtain ⟨k, -, htag⟩ :=
        h.schema.sound.exists_tag (run.holds_document.below (mem_subtrees_of_under? hschemas))
      obtain rfl : tag = some k := htag
      rcases RiskyStep.run_componentFor h.schema.sound hschemas (.tag number) ref
        (fields.get? "propertyNames")
        location with ⟨box, made, hmade⟩ | ⟨hlookup, htaken, hmissing⟩
      · have hgives : (RiskyStep.referSingleMap context location n).run run =
            (.ok true, (Step.referToComponent n box made).2) :=
          hrefer.trans (RiskyStep.run_bind_of_ok hmade)
        obtain ⟨found, component, hboxed⟩ :=
          exists_boxed hbefore hnone hmapped h.schema hgives h.inPlace
        obtain ⟨fields', additional', ref', target', hnode', hget', href', hresolve', hlookup',
            -⟩ := hboxed.value
        cases Option.some.inj (hnode.symm.trans hnode')
        cases Option.some.inj (hget.symm.trans hget')
        cases Option.some.inj (href.symm.trans href')
        cases Except.ok.inj (hresolve.symm.trans hresolve')
        exact Or.inl ⟨_, found, hgives, hidentity ▸ hlookup', hboxed.reference⟩
      · rw [hlast] at htaken hmissing
        refine Or.inr ⟨hlookup, ?_, hrefer.trans (RiskyStep.run_bind_of_ok hmissing)⟩
        rw [run.registry_get?, show componentPath (run.boxName name) =
          sectionKeys ++ [run.boxName name] from rfl,
          under?_append, hschemas, Option.bind_some, under?_map_cons]
        obtain ⟨value, hget⟩ := Option.isSome_iff_exists.1 htaken
        rw [hget]
        exact Option.some_ne_none _
  | _ => cases hbelow

end

/-! ## All visits -/

/-- A name that has been bound was bound before, or a component has been generated under it. -/
theorem Enlarged.bound {before after : Run} (h : Enlarged before after) {name : String}
    (hbound : after.registry.get? name ≠ none) : before.registry.get? name ≠ none ∨
    name ∈ after.generated := by
  obtain ⟨fresh, hentries, hkeys⟩ := h.entries
  by_cases hbefore : before.registry.get? name = none
  · refine Or.inr ?_
    unfold Entries.get? at hbound hbefore
    rw [hentries, Entries.lookup_append, hbefore, Option.none_or, Ne,
      Entries.lookup_eq_none_iff] at hbound
    push Not at hbound
    obtain ⟨entry, hentry, hkey⟩ := hbound
    have hin : entry.1 ∈ after.generated.map Scalar.text := hkeys ▸ List.mem_map_of_mem hentry
    obtain ⟨found, hfound, heq⟩ := List.mem_map.1 hin
    obtain rfl : found = name := Entries.text_key_eq_iff.1 (heq ▸ hkey)
    exact hfound
  · exact Or.inl hbefore

theorem boxName_injective {run : Run} {name other : String}
    (h : run.boxName name = run.boxName other) :
    name = other := by
  unfold Run.boxName Naming.generated at h
  exact (String.append_left_inj run.options.singleMapSuffix).1 h

theorem toComponent_injective {name other : String}
    (h : Pointer.toComponent name = Pointer.toComponent other) :
    name = other := by
  rw [← lastToken_toComponent name, h, lastToken_toComponent]

/-- What a single map over a component meets with, where a component is recorded for it in the
end or none: it becomes a reference to that one, or stays as it is, with a diagnostic. -/
def SingleMapMeets (box? : Option String) (run : Run) (name : String) (n : Nat)
    (context : Option String) (location : Location) : Prop :=
  match box? with
  | some box => ∃ next, (RiskyStep.referSingleMap context location n).run run = (.ok true, next) ∧
      (next.node? n).bind Tree.ref? = some (Pointer.toComponent box)
  | none => (RiskyStep.referSingleMap context location n).run run = (.ok false,
      { run with diagnostics := run.diagnostics ++ [location.conflict (run.boxName name)] })

section

variable {run after : Run} {name : String} {number : Tag}

/-- What is recorded for a component has the name that is formed from its own. -/
theorem box_of_reshapes (hmapped : run.Mapped) (hnone : run.valueComponents = [])
    (h : ReflTransGen Reshapes run after) (hname : run.registry.get? name = some (.tag number))
    {box : String}
    (hbox : after.valueComponents.lookup (.tag number) = some box) : box = run.boxName name := by
  obtain ⟨more, hmore, hnamed⟩ := recorded_of_reshapes h hmapped hname
  obtain ⟨front, back, heq, -⟩ := List.lookup_eq_some_iff.1 hbox
  refine hnamed (.tag number, box) ?_ rfl
  rw [hnone, List.nil_append] at hmore
  rw [← hmore, heq]
  simp

/-- While none is recorded for a component and the name is taken, none will be. -/
theorem lookup_of_taken (hmapped : run.Mapped) (hnone : run.valueComponents = []) {between : Run}
    (hbetween : ReflTransGen Reshapes run between) (hafter : ReflTransGen Reshapes between after)
    (hname : run.registry.get? name = some (.tag number))
    (hlookup : between.valueComponents.lookup (.tag number) = none)
    (htaken : between.registry.get? (run.boxName name) ≠ none) :
    after.valueComponents.lookup (.tag number) = none := by
  have hregisters := registers_of_reshapes hbetween hmapped
  have hmapped' := mapped_of_registers hregisters hmapped
  have hwhole :=
    enlarged_of_registers (hregisters.trans (registers_of_reshapes hafter hmapped')) hnone
  obtain ⟨more, hmore, -⟩ :=
    recorded_of_reshapes hafter hmapped' (get?_of_registers hregisters hname)
  by_contra hsome
  obtain ⟨box, hbox⟩ := Option.ne_none_iff_exists'.1 hsome
  -- The name would be among those that are generated later.
  have hlater : run.boxName name ∈ more.map (·.2) := by
    rw [← box_of_reshapes hmapped hnone (hbetween.trans hafter) hname hbox]
    rw [hmore, List.lookup_append, hlookup, Option.none_or] at hbox
    obtain ⟨front, back, heq, -⟩ := List.lookup_eq_some_iff.1 hbox
    exact List.mem_map.2 ⟨(.tag number, box), by rw [heq]; simp, rfl⟩
  have hgenerated : after.generated = between.generated ++ more.map (·.2) := by
    rw [Run.generated, hmore, List.map_append]
    rfl
  rcases (enlarged_of_registers hregisters hnone).bound htaken with hstart | hearlier
  · exact hstart (hwhole.free _ (hgenerated ▸ List.mem_append_right _ hlater))
  · have hnodup := hwhole.nodup
    rw [hgenerated, List.nodup_append] at hnodup
    exact hnodup.2.2 _ hearlier _ hlater rfl

end

/-- All single maps over a component with a number of its own meet with the same in the second
phase, whenever a visit comes to them: they become references to one generated component, or they
are all left inline, each with a diagnostic at its own location.  Single maps over two such
components never become references to the same one. -/
theorem restructure_decides {run after : Run} (hsound : run.Sound) (hmapped : run.Mapped)
    (hnone : run.valueComponents = []) (hrun : Phase.restructure.run.run run = (.ok (), after))
    {name : String} {number : Tag} (hname : run.registry.get? name = some (.tag number)) :
    (∀ between context location n, ReflTransGen Reshapes run between →
      SingleMapOver between name n context →
      ReflTransGen Reshapes ((RiskyStep.reshapeSchema context location n).run between).2 after →
      SingleMapMeets (after.valueComponents.lookup (.tag number)) between name n context location) ∧
    ∀ (other : String) number', run.registry.get? other = some (.tag number') → other ≠ name →
      ∀ box box', after.valueComponents.lookup (.tag number) = some box →
        after.valueComponents.lookup (.tag number') = some box' →
          Pointer.toComponent box ≠ Pointer.toComponent box' := by
  have hreshapes := reshapes_of_restructure hsound hrun
  refine ⟨fun between context location n hbetween hsingle hrest => ?_,
    fun other number' hother hne box box' hbox
    hbox' heq => hne ?_⟩
  · have hregisters := registers_of_reshapes hbetween hmapped
    have hmapped' := mapped_of_registers hregisters hmapped
    have hbox : between.boxName name = run.boxName name := by
      rw [Run.boxName, Run.boxName, options_of_registers hregisters]
    rcases hsingle.cases hregisters hnone hmapped'
      (get?_of_registers hregisters hname) location with
      ⟨next, box, hgives, hlookup, href⟩ | ⟨hlookup, htaken, hleft⟩
    · have hnext :=
        ((RiskyStep.referSingleMap_registers hmapped' hsingle.schema context location).of_ok
          hgives).1
      have hvisit := RiskyStep.registers_after_refer hmapped' hsingle.schema hgives
      have hlast := hvisit.trans (registers_of_reshapes hrest
        (mapped_of_registers (hnext.trans hvisit) hmapped'))
      rw [lookup_of_registers hlast hlookup]
      exact ⟨next, hgives, href⟩
    · have hafter : ReflTransGen Reshapes between after :=
        .head (.visit context location hsingle.schema) hrest
      rw [lookup_of_taken hmapped hnone hbetween hafter hname hlookup (hbox ▸ htaken)]
      exact hleft
  · have hboxes := toComponent_injective heq
    rw [box_of_reshapes hmapped hnone hreshapes hname hbox,
      box_of_reshapes hmapped hnone hreshapes hother hbox'] at hboxes
    exact (boxName_injective hboxes).symm

/-- Single maps over two components, in this order. -/
def overBoth (first second : Value) : Value :=
  let mapOf (name : String) : Value :=
    .ofEntries [("type", .ofText "object"), ("minProperties", .ofInt 1),
    ("maxProperties", .ofInt 1),
      ("additionalProperties", .ofEntries [("$ref", .ofText (Pointer.toComponent name))])]
  .ofEntries [("components", .ofEntries [("schemas", .ofEntries [
    ("A", first), ("B", second),
    ("S", .ofEntries [("properties", .ofEntries [("a", mapOf "A"), ("b", mapOf "B")])])])])]

/-- Two components of their own have a component each; two that are the same boolean share one. -/
example : (Phase.restructure.run.run (Run.start .standard (.ofValue
      (overBoth (.ofEntries []) (.ofEntries []))))).2.generated = ["ASingleMap", "BSingleMap"] ∧
    (Phase.restructure.run.run (Run.start .standard (.ofValue
      (overBoth (.scalar () (.bool true)) (.scalar () (.bool true)))))).2.generated =
        ["ASingleMap"] := by
  decide +kernel

end ProtoShape
