import ProtoShape.Proofs.Reshape.Components

/-!
# Runs of the second phase stay tidy

`Run.Tidy` is the invariant of the second phase: whatever a walk shows is tidy, as long as it
does not enter the properties for the keys of maps in the generated components.  Those hold
copies of schemas that nothing has looked at.

* What was there and only changes below is an image of itself (`isTidy_modify`).
* The changed node itself, and what comes with it, is covered by what is known of the single
  changes (`Run.Tidy.modifyNode`).
* A generated component shows itself and a reference, and hides the copy
  (`tidy_generated`).

`Update.tidy` puts these together, and `Updates.tidy` is the invariant over the whole phase.
-/

namespace ProtoShape

open Rules Tree

variable {permits : Permit}

/-! ## Images -/

theorem isReference_of_erase {tag tag' : Tag} {fields fields' : Fields Tag}
    (h : (Tree.map tag fields).erase = (Tree.map tag' fields').erase) :
    Fields.isReference fields = Fields.isReference fields' := by
  have hsame := congrArg (fun v : Value => v.isReference) h
  have hplain : ∀ {tag : Tag} {fields : Fields Tag},
      (Tree.map tag fields).erase.isReference = Fields.isReference fields := by
    intro tag fields
    rw [Tree.erase, Tree.mapTags_map]
    exact Fields.isReference_mapTags _ fields
  simpa only [hplain] using hsame

/-- Numbering a tidy schema leaves it tidy. -/
theorem isTidy_number {u : Node} (hu : IsTidy permits u) (next : Nat) :
    IsTidy permits (Node.number u next).1 := by
  have herase := (Node.number_numbers u next).erase
  cases u with
  | map tag fields =>
      obtain ⟨tag', fields', heq, hfilled⟩ := Node.number_map tag fields next
      rw [heq] at herase ⊢
      intro other hother href key value hget
      cases hother
      obtain ⟨k, -, hvalue⟩ := hfilled.get? key
      rw [hget] at hvalue
      obtain ⟨old, hold, rfl⟩ := Option.map_eq_some_iff.1 hvalue.symm
      have htidy := hu fields rfl ((isReference_of_erase herase).symm.trans href) key old hold
      exact htidy.after (valueAfter_of_erase (Node.number_numbers old k).erase.symm
        fun m hm => Node.tag_number_of_some hm k)
  | scalar tag s => cases tag <;> exact fun _ hfields => nomatch hfields
  | list tag items => cases tag <;> exact fun _ hfields => nomatch hfields

/-- A tidy schema stays tidy where something below it changes.  The change has to suit the
place that the changed node takes under a keyword of the schema or in a list there. -/
theorem isTidy_modify {n next : Nat} {f : Node → Node} {u : Node} (hu : IsTidy permits u)
    (hne : u.tag ≠ some n) (hkind : ∀ v ∈ u.subtrees, v.tag = some n → Keeps v (f v))
    (hitem : ∀ v ∈ u.subtrees, v.tag = some n → ∀ tag items, Tree.list tag items ∈ u.subtrees →
      v ∈ items → MemberAfter v (f v))
    (hvalue : ∀ tag fields, u = .map tag fields →
      ∀ key ∈ watchedKeys, ∀ v, fields.get? key = some v →
      v.tag = some n → TidyValue permits key v → TidyValue permits key (f v)) :
    IsTidy permits (Node.modify n (Node.numberedFrom next f) u) := by
  cases u with
  | map tag fields =>
      rw [Node.modify_of_ne hne]
      have hscalar : ∀ v ∈ (Tree.map tag fields).subtrees,
          (Node.modify n (Node.numberedFrom next f) v).scalar? = v.scalar? := by
        intro v hv
        exact scalar?_modify fun w hw hn => (hkind w (mem_subtrees_trans hw hv) hn).kind
      intro fields' heq href key value' hget'
      cases heq
      rw [Entries.get?_mapValues] at hget'
      obtain ⟨value, hget, rfl⟩ := Option.map_eq_some_iff.1 hget'
      have hmem : value ∈ (Tree.map tag fields).subtrees := mem_subtrees_of_get? hget
      have hinline : Fields.isReference fields = false := by
        rw [← href, isReference_mapValues]
        intro v hv
        exact hscalar v (mem_subtrees_of_child hv (self_mem_subtrees v))
      by_cases hwatched : key ∈ watchedKeys
      · have htidy := hu fields rfl hinline key value hget
        by_cases hn : value.tag = some n
        · have hchanged := hvalue tag fields rfl key hwatched value hget hn htidy
          rw [Node.modify_self hn]
          exact hchanged.after (valueAfter_of_erase (Node.number_numbers (f value) next).erase.symm
            fun m hm => Node.tag_number_of_some hm next)
        · rw [Node.modify_of_ne hn]
          refine htidy.after (valueAfter_mapChildren (fun child hchild => ?_) ?_)
          · exact hscalar child (mem_subtrees_trans (mem_subtrees_of_child hchild
              (self_mem_subtrees child)) hmem)
          · rintro tag' items rfl item hitem'
            have hbelow : item ∈ (Tree.map tag fields).subtrees :=
              mem_subtrees_trans (mem_subtrees_of_child hitem' (self_mem_subtrees item)) hmem
            by_cases hin : item.tag = some n
            · rw [Node.modify_self hin]
              exact (hitem item hbelow hin tag' items hmem hitem').trans
                (memberAfter_of_erase (Node.number_numbers (f item) next).erase.symm)
            · rw [Node.modify_of_ne hin]
              exact memberAfter_mapChildren fun child hchild => hscalar child
                (mem_subtrees_trans (mem_subtrees_of_child hchild (self_mem_subtrees child)) hbelow)
      · exact .of_not_mem hwatched _
  | scalar tag s =>
      rw [Node.modify_of_ne hne]
      exact fun _ hfields => nomatch hfields
  | list tag items =>
      rw [Node.modify_of_ne hne]
      exact fun _ hfields => nomatch hfields

/-! ## The invariant -/

/-- Whatever a walk shows of a run is tidy, except for what lies at or below the properties for
the keys. -/
structure Run.Tidy (permits : Permit) (run : Run) : Prop where
  sound : run.Sound
  components : ∀ name ∈ run.generated, run.HasComponent name
  tidy : ∀ u place, Tree.Sees (Among run.KeyProperty) run.document (.one .document) u place →
    place.Alike (.one (.schema .schema)) → IsTidy permits u

section Changes

variable {run after : Run} {n : Nat} {f : Node → Node} {u : Node} {place : Place}

/-- A change suits the place of the changed node, be it in a list or under a keyword. -/
structure Run.Suits (permits : Permit) (run : Run) (n : Nat) (f : Node → Node) : Prop where
  keeps : ∀ v, run.Holds v → v.tag = some n → Keeps v (f v)
  item : ∀ v, run.Holds v → v.tag = some n → ∀ tag items, run.Holds (.list tag items) → v ∈ items →
    MemberAfter v (f v)
  value : ∀ tag fields, run.Holds (.map tag fields) → ∀ key ∈ watchedKeys, ∀ v,
    fields.get? key = some v → v.tag = some n → TidyValue permits key v →
    TidyValue permits key (f v)

/-- A change of which a value after it is known suits every place. -/
theorem suits_of_after (hkeeps : ∀ v, run.Holds v → v.tag = some n → Keeps v (f v))
    (hafter : ∀ v, run.Holds v → v.tag = some n → ValueAfter v (f v)) : run.Suits permits n f := by
  refine ⟨hkeeps, fun v hv hn _ _ _ _ => (hafter v hv hn).toMemberAfter, ?_⟩
  intro tag fields hheld key _ v hget hn htidy
  exact htidy.after (hafter v (hheld.below (mem_subtrees_of_get? hget)) hn)

/-- A mapping under a keyword that a tidy value is not asked for may change as it likes.  It is
no item of a list, as it has one parent. -/
theorem suits_of_unwatched (hsound : run.Sound) {owner : Tag} {fields : Fields Tag} {key : String}
    {value : Node} (howner : run.Holds (.map owner fields)) (hget : fields.get? key = some value)
    (hkey : key ∉ watchedKeys) (htag : value.tag = some n) (hkeeps : Keeps value (f value)) :
    run.Suits permits n f := by
  have hat : ∀ v, run.Holds v → v.tag = some n → v = value :=
    fun v hv hn => hsound.unique hv (howner.below (mem_subtrees_of_get? hget)) hn htag
  refine ⟨fun v hv hn => hat v hv hn ▸ hkeeps, fun v hv hn tag items hlist hitem => ?_,
    fun tag fields' hheld other hwatched v hv hn => ?_⟩
  · exfalso
    obtain ⟨i, hi⟩ := List.mem_iff_getElem?.1 hitem
    obtain ⟨j, k, hj, -⟩ := Entries.exists_index hget
    have hchild : (Tree.map owner fields).children[j]? = some value := by
      rw [children_map, Entries.values, List.getElem?_map, hj, Option.map_some]
    obtain ⟨heq, -⟩ :=
      hsound.parent_unique (p := .list tag items) hlist howner hi hchild (hn.trans htag.symm)
    cases heq
  · obtain ⟨-, rfl⟩ := hsound.keyword_unique hheld howner hv hget (hn.trans htag.symm)
    exact absurd hwatched hkey

/-- The images of the schemas that a walk shows are tidy. -/
theorem Run.Tidy.image (h : run.Tidy permits) (hsuits : run.Suits permits n f)
    (hu : Tree.Sees (Among run.KeyProperty) run.document (.one .document) u place)
    (hplace : place.Alike (.one (.schema .schema))) (hne : u.tag ≠ some n) :
    IsTidy permits (Node.modify n (Node.numberedFrom run.next f) u) := by
  have hbelow : ∀ v ∈ u.subtrees, run.Holds v :=
    fun v hv => Or.inl (mem_subtrees_trans hv hu.mem_subtrees)
  refine isTidy_modify (h.tidy u place hu hplace) hne (fun v hv => hsuits.keeps v (hbelow v hv))
    (fun v hv hn tag items hlist => hsuits.item v (hbelow v hv) hn tag items (hbelow _ hlist)) ?_
  rintro tag fields rfl
  exact hsuits.value tag fields (Or.inl hu.mem_subtrees)

/-- What a walk shows after a change is tidy if the changed node is, and what comes with it. -/
theorem Run.Tidy.modifyNode (h : run.Tidy permits) (hsuits : run.Suits permits n f)
    (hself : ∀ v between, run.Sees v between → v.tag = some n →
      between.Alike (.one (.schema .schema)) → IsTidy permits v → IsTidy permits (f v))
    (htraced : ∀ v between, Tree.Sees (Among run.KeyProperty) run.document
      (.one .document) v between →
      v.tag = some n → ∀ u place', Tree.Sees (Among run.KeyProperty) (f v) between u place' →
      (u = f v ∧ place' = between) ∨
        Traced (IsTidy permits) (Among run.KeyProperty) v between u place')
    (hu : Tree.Sees (Among run.KeyProperty) (run.modifyNode n f).document (.one .document) u place)
    (hplace : place.Alike (.one (.schema .schema))) : IsTidy permits u := by
  have hsame : ∀ v, run.Holds v → v.tag = some n → (f v).tag = v.tag ∧ (f v).text? = v.text? :=
    fun v hv hn => ⟨(hsuits.keeps v hv hn).tag, text?_congr (hsuits.keeps v hv hn).kind.scalar⟩
  rcases h.sound.sees_modifyNode hsame hu with
    ⟨old, hold, hne, rfl⟩ | ⟨v, between, new, hv, hn, hnew, k, -, rfl⟩
  · exact h.image hsuits hold hplace hne
  · refine isTidy_number ?_ k
    rcases htraced v between hv hn new place hnew with
      ⟨rfl, rfl⟩ | ⟨old, stop, hold, halike, -, hsingle⟩ | ⟨-, htidy⟩
    · exact hself v place (hv.mono fun tag => not_among tag |>.elim) hn hplace
        (h.tidy v place hv hplace)
    · rw [hsingle hplace.1]
      exact h.tidy old stop (hv.trans hold) (halike.symm.trans hplace)
    · exact htidy hplace.1

/-- The other parts of the invariant hold after every update. -/
theorem Run.Tidy.update (h : run.Tidy permits) (hupdate : Update IsSchema run after)
    (hnew : ∀ name ∈ after.generated, name ∈ run.generated ∨ after.HasComponent name)
    (htidy : ∀ u place, Tree.Sees (Among after.KeyProperty) after.document
      (.one .document) u place →
      place.Alike (.one (.schema .schema)) → IsTidy permits u) : after.Tidy permits where
  sound := hupdate.sound h.sound
  components name hname :=
    (hnew name hname).elim (fun hold => hupdate.hasComponent h.sound (h.components name hold)) id
  tidy := htidy

/-- Where no component is generated, it is enough to look outside of the properties for the
keys as they were. -/
theorem Run.Tidy.updateOld (h : run.Tidy permits) (hupdate : Update IsSchema run after)
    (hsame : after.generated = run.generated)
    (htidy : ∀ u place, Tree.Sees (Among run.KeyProperty) after.document (.one .document) u place →
      place.Alike (.one (.schema .schema)) → IsTidy permits u) : after.Tidy permits := by
  refine h.update hupdate (fun name hname => Or.inl (hsame ▸ hname)) fun u place hu hplace => ?_
  refine htidy u place (hu.mono ?_) hplace
  rintro tag ⟨m, htag, hm⟩
  exact ⟨m, htag, hupdate.keyProperty h.sound h.components hm⟩

end Changes

/-! ## The updates -/

section Updates

variable {run after : Run} {n : Nat} {f : Node → Node} {u : Node} {place : Place}

/-- What a walk shows of a run after a change, outside of the properties for the keys as
they were before. -/
def Run.ShowsTidy (permits : Permit) (run after : Run) : Prop :=
  ∀ u place, Tree.Sees (Among run.KeyProperty) after.document (.one .document) u place →
    place.Alike (.one (.schema .schema)) → IsTidy permits u

theorem showsTidy_added (h : run.Tidy permits)
    (hadds : ∀ v, run.Holds v → v.tag = some n → Addition v (f v)) :
    run.ShowsTidy permits (run.modifyNode n f) := by
  intro u place hu hplace
  have hheld : ∀ {v : Node} {between : Place},
      Tree.Sees (Among run.KeyProperty) run.document (.one .document) v between → run.Holds v :=
    fun hv => Or.inl hv.mem_subtrees
  refine h.modifyNode ?_ ?_ ?_ hu hplace
  · exact suits_of_after (fun v hv hn => (hadds v hv hn).keeps) fun v hv hn => (hadds v hv hn).after
  · exact fun v between hv hn _ htidy => (hadds v (Or.inl hv.mem_subtrees) hn).tidy htidy
  · exact fun v between hv hn u place' => (hadds v (hheld hv) hn).traced

theorem showsTidy_keyed (h : run.Tidy permits) {owner : Tag} {map : Nat}
    {fields present : Fields Tag} {field : String} (howner : run.Holds (.map owner fields))
    (hget : fields.get? "properties" = some (.map (some map) present))
    (habsent : present.get? field = none) :
    run.ShowsTidy permits (run.modifyNode map (onFields (·.insert field textSchema))) := by
  intro u place hu hplace
  have hat : ∀ v, run.Holds v → v.tag = some map → v = .map (some map) present :=
    fun v hv hn => h.sound.unique hv (howner.below (mem_subtrees_of_get? hget)) hn rfl
  have hsuits : run.Suits permits map (onFields (·.insert field textSchema)) :=
    suits_of_unwatched h.sound howner hget (by decide) rfl (keeps_insert habsent rfl rfl)
  refine h.modifyNode hsuits (fun v between hv hn _ htidy => ?_)
    (fun v between hv hn u place' hsees => ?_)
    hu hplace
  · obtain rfl := hat v (Or.inl hv.mem_subtrees) hn
    exact isTidy_keyed htidy habsent
  · obtain rfl := hat v (Or.inl hv.mem_subtrees) hn
    exact traced_keyed habsent hsees

/-- The list that gets one more part stands under an `allOf`. -/
theorem showsTidy_parted (h : run.Tidy permits) {owner : Tag} {list : Nat} {fields : Fields Tag}
    {items : List Node} (field : String) (howner : run.Holds (.map owner fields))
    (hget : fields.get? "allOf" = some (.list (some list) items)) :
    run.ShowsTidy permits (run.modifyNode list (onItems (· ++ [keyHolder field]))) := by
  intro u place hu hplace
  have hat : ∀ v, run.Holds v → v.tag = some list → v = .list (some list) items :=
    fun v hv hn => h.sound.unique hv (howner.below (mem_subtrees_of_get? hget)) hn rfl
  have hsuits : run.Suits permits list (onItems (· ++ [keyHolder field])) := by
    refine ⟨fun v hv hn => ?_, fun v hv hn _ _ _ _ => ?_,
      fun tag fields' hheld key _ v hv hn htidy => ?_⟩
    · rw [hat v hv hn]
      exact keeps_of_list _ _
    · rw [hat v hv hn]
      exact memberAfter_list _ _
    · obtain ⟨-, rfl⟩ := h.sound.keyword_unique hheld howner hv hget hn
      obtain rfl := hat v (hheld.below (mem_subtrees_of_get? hv)) hn
      exact tidyValue_part field htidy
  refine h.modifyNode hsuits (fun v between hv hn _ htidy => ?_)
    (fun v between hv hn u place' hsees => ?_)
    hu hplace
  · obtain rfl := hat v (Or.inl hv.mem_subtrees) hn
    exact fun _ hfields => nomatch hfields
  · obtain rfl := hat v (Or.inl hv.mem_subtrees) hn
    exact traced_part hsees

/-- A rule that changes a schema has no generated component below it. -/
theorem showsTidy_rewritten (h : run.Tidy permits) (hschema : IsSchema run n)
    (hrewrites : ∀ v, run.Holds v → v.tag = some n → Rewrite v (f v)) :
    run.ShowsTidy permits (run.modifyNode n f) := by
  intro u place hu hplace
  refine h.modifyNode ?_ (fun v between hv hn _ htidy => ?_)
    (fun v between hv hn u place' hsees => ?_)
    hu hplace
  · exact suits_of_after (fun v hv hn => (hrewrites v hv hn).keeps)
      fun v hv hn => (hrewrites v hv hn).after
  · exact (hrewrites v (Or.inl hv.mem_subtrees) hn).tidy htidy
  · have hheld : run.Holds v := Or.inl hv.mem_subtrees
    have halike : between.Alike (.one (.schema .schema)) :=
      hschema.stands v between (hv.mono fun tag => not_among tag |>.elim) hn
    by_cases hhides : ∃ x ∈ v.subtrees, Among run.KeyProperty x.tag
    · -- Then the schema is a generated component, to which no rule applies.
      obtain ⟨x, hx, m, hm, name, hname, e, he, hem⟩ := hhides
      have hcomponent := h.components name hname
      obtain rfl : x = e := h.sound.unique (hheld.below hx)
        (run.holds_document.below (mem_subtrees_of_under? he)) hm hem
      obtain ⟨hnodup, -, -⟩ := List.nodup_append.1 h.sound.nodup
      obtain ⟨pre, hpre, hv'⟩ := exists_prefix_of_under? hnodup he hv.mem_subtrees hx
      rcases hcomponent.prefix_of_located hpre hv' hn hschema (.refl _) with rfl | rfl
      · obtain ⟨tag, fields, hat, hsettled⟩ := hcomponent.component
        obtain rfl : Tree.map tag fields = v := Option.some.inj (hat.symm.trans hv')
        have hsame : f (.map tag fields) = .map tag fields :=
          (hrewrites _ hheld hn).settled_eq hsettled
        rw [hsame] at hsees
        exact Or.inr (traced_self hsees)
      · obtain rfl : x = v := Option.some.inj (he.symm.trans hv')
        exact absurd ⟨m, hm, name, hname, x, he, hem⟩ hv.not_skip
    · refine (hrewrites v hheld hn).traced halike (fun x hx hskip => hhides ⟨x, hx, hskip⟩)
        (handedOn_tidy permits) (fun x stop hx hsingle => ?_) hsees
      obtain ⟨-, hook, hrole⟩ := halike.exists_hook
      obtain ⟨hook', hrole'⟩ := hx.schema_role hrole
      exact h.tidy x stop (hv.trans hx) (.of_schema hsingle hrole' .schema)

/-! ### New components -/

/-- A generated component is tidy itself. -/
theorem isTidy_component (source ref field : String) (keySchema : Option Node) :
    IsTidy permits (keyValueComponent source ref keySchema field) := by
  intro fields heq _ key value hget
  rw [keyValueComponent] at heq
  cases heq
  by_cases htype : key = "type"
  · subst htype
    cases hget
    exact .ofText (by decide)
  · refine .of_not_mem (fun hwatched => ?_) value
    have hother : key = "properties" ∨ key = "required" := by
      by_contra hne
      rw [not_or] at hne
      simp [Entries.get?, Entries.lookup, Ne.symm htype, Ne.symm hne.1, Ne.symm hne.2] at hget
    rcases hother with rfl | rfl
    · exact absurd hwatched (by decide)
    · exact absurd hwatched (by decide)

/-- Of a numbered component, a walk that does not enter the property for the keys shows the
component and a reference. -/
theorem sees_component_tidy {skip : Tag → Prop} {tag inner : Tag}
    {type required key reference : Node} {field value : String} {hook : Hook}
    (htidy : IsTidy permits (.map tag ⟨[("type", type), ("properties", .map inner ⟨[
      (.text field, key), (.text value, reference)]⟩), ("required", required)]⟩))
    (hkey : skip key.tag) (href : reference.isReference = true)
    (hu : Tree.Sees skip (.map tag ⟨[("type", type), ("properties", .map inner ⟨[
      (.text field, key), (.text value, reference)]⟩), ("required", required)]⟩)
      (.one (.schema hook)) u place)
    (hplace : place.Alike (.one (.schema .schema))) : IsTidy permits u := by
  rcases hu.cases_head with ⟨rfl, -⟩ | ⟨child, between, hstep, hrest⟩
  · exact htidy
  · cases hstep with
    | entry hspread => cases hspread
    | @slot _ _ _ slot _ _ _ hslot hget =>
        have hplain : ∀ slot ∈ (Role.schema .schema).slots, slot.key ≠ "type" ∧
            slot.key ≠ "required" := by
          decide
        obtain ⟨htype, hrequired⟩ := hplain slot hslot
        have hproperties : slot.key = "properties" := by
          by_contra hne
          simp [Entries.get?, Entries.lookup, Ne.symm htype, Ne.symm hrequired, Ne.symm hne] at hget
        rw [hproperties] at hget
        cases hget
        rw [(slot_properties hslot hproperties).2] at hrest
        rcases hrest.cases_head with ⟨-, rfl⟩ | ⟨property, between, hinner, hbelow⟩
        · cases hplace.1
        · cases hinner with
          | slot hspread => cases hspread
          | entry _ hentry =>
              rcases List.mem_cons.1 hentry with heq | hlast
              · obtain ⟨-, hsame⟩ := Prod.mk.inj heq
                rw [hsame] at hbelow
                exact absurd hkey hbelow.not_skip_start
              · obtain ⟨-, hsame⟩ := Prod.mk.inj (List.mem_singleton.1 hlast)
                rw [hsame] at hbelow
                cases reference with
                | map outer fields =>
                    have hfields : Fields.isReference fields = true := href
                    rcases hbelow.cases_head with ⟨rfl, -⟩ | ⟨_, _, hlower, -⟩
                    · intro fields' heq hinline
                      cases heq
                      rw [hfields] at hinline
                      cases hinline
                    · cases hlower with
                      | entry hspread => cases hspread
                      | slot _ hadmits =>
                          simp [Role.admits, Place.one, Role.skipsReferences, hfields] at hadmits
                | _ => cases href

/-- What a walk shows of the schemas with one more component. -/
theorem tidy_of_schemas {schemas : Nat} {entries : Fields Tag} {name : String}
    {source ref : String} {keySchema : Option Node} {skip : Tag → Prop} {between : Place}
    (hbetween : between.Alike ⟨.entries, .schema .schema, true⟩)
    (hold : ∀ entry ∈ entries.toList, ∀ u place,
      Tree.Sees skip entry.2 (.one between.role) u place →
      place.Alike (.one (.schema .schema)) → IsTidy permits u)
    (hkey : ∀ inner key value properties more tag type,
      (Node.number (keyValueComponent source ref keySchema run.options.fieldProperty) run.next).1 =
        .map tag ⟨("type", type) :: ("properties", .map inner
          ⟨(.text run.options.fieldProperty, key) :: value :: properties⟩) :: more⟩ → skip key.tag)
    (hu : Tree.Sees skip (.map (some schemas) ⟨entries.toList ++ [(.text name, (Node.number
      (keyValueComponent source ref keySchema run.options.fieldProperty) run.next).1)]⟩)
        between u place)
    (hplace : place.Alike (.one (.schema .schema))) : IsTidy permits u := by
  obtain ⟨hspread, hrole⟩ := hbetween
  rcases hu.cases_head with ⟨rfl, rfl⟩ | ⟨child, stop, hstep, hrest⟩
  · have hsingle := hplace.1
    rw [hspread] at hsingle
    cases hsingle
  · cases hstep with
    | slot hsingle =>
        rw [hspread] at hsingle
        cases hsingle
    | entry _ hentry =>
        rcases List.mem_append.1 hentry with hin | hlast
        · exact hold _ hin u place hrest hplace
        · obtain ⟨-, hsame⟩ := Prod.mk.inj (List.mem_singleton.1 hlast)
          obtain ⟨tag, inner, k, type, required, reference, heq, href⟩ :=
            number_component source ref run.options.fieldProperty keySchema run.next
          have htidy : IsTidy permits (Node.number
              (keyValueComponent source ref keySchema run.options.fieldProperty) run.next).1 :=
            isTidy_number (isTidy_component source ref run.options.fieldProperty keySchema) run.next
          rw [hsame] at hrest
          rw [heq] at hrest htidy
          have hhook : ∃ hook, between.role = .schema hook := by
            rcases hrole with hsame | ⟨hook, _, hhook, -⟩
            · exact ⟨.schema, hsame⟩
            · exact ⟨hook, hhook⟩
          obtain ⟨hook, hhook⟩ := hhook
          rw [hhook] at hrest
          exact sees_component_tidy htidy (hkey _ _ _ _ _ _ _ heq) href hrest hplace

/-- What a walk shows after a component has been generated: an image of what it has shown before, or
something at or below the section of the components, which has one entry more. -/
theorem sees_generated (h : run.Sound) {schemas : Nat} {entries : Fields Tag} {name : String}
    {component : Node} {numbers : Nat → Prop}
    (hschemas : run.document.under? ["components", "schemas"] = some (.map (some schemas) entries))
    (habsent : entries.get? name = none)
    (hu : Tree.Sees (Among numbers)
      (run.modifyNode schemas (onFields (·.insert name component))).document
      (.one .document) u place) :
    (∃ old, Tree.Sees (Among numbers) run.document (.one .document) old place ∧
      old.tag ≠ some schemas ∧ u = Node.modify schemas
        (Node.numberedFrom run.next (onFields (·.insert name component))) old) ∨
    ∃ between, Tree.Sees (Among numbers) run.document (.one .document)
        (.map (some schemas) entries) between ∧
      Tree.Sees (Among numbers) (.map (some schemas) ⟨entries.toList ++
        [(.text name, (Node.number component run.next).1)]⟩) between u place := by
  have himage := numberedFrom_insert h hschemas habsent component
  have hat : ∀ v ∈ run.document.subtrees, v.tag = some schemas →
      v = .map (some schemas) entries := fun v hv hn =>
    h.unique (.inl hv) (run.holds_document.below (mem_subtrees_of_under? hschemas)) hn rfl
  have hsame : ∀ v ∈ run.document.subtrees, v.tag = some schemas →
      (Node.numberedFrom run.next (onFields (·.insert name component)) v).tag = v.tag ∧
      (Node.numberedFrom run.next (onFields (·.insert name component)) v).text? = v.text? := by
    intro v hv hn
    obtain rfl := hat v hv hn
    rw [himage]
    exact ⟨rfl, rfl⟩
  rw [h.document_modifyNode] at hu
  rcases Node.sees_modify hsame hu with ⟨old, hold, hne, rfl⟩ | ⟨v, between, hv, hn, hbelow⟩
  · exact .inl ⟨old, hold, hne, rfl⟩
  · obtain rfl := hat v hv.mem_subtrees hn
    rw [himage] at hbelow
    exact .inr ⟨between, hv, hbelow⟩

theorem tidy_generated (h : run.Tidy permits) {schemas : Nat} {entries : Fields Tag} {name : String}
    {target : Identity} (source ref : String) (keySchema : Option Node)
    (hschemas : run.document.under? ["components", "schemas"] = some (.map (some schemas) entries))
    (habsent : entries.get? name = none)
    (hafter : after = { run.modifyNode schemas (onFields
        (·.insert name (keyValueComponent source ref keySchema run.options.fieldProperty))) with
        valueComponents := run.valueComponents ++ [(target, name)] }) : after.Tidy permits := by
  have hupdate : Update IsSchema run after :=
    hafter ▸ .patch (.generated source ref keySchema hschemas habsent)
  have hnames : after.generated = run.generated ++ [name] := by
    rw [hafter, Run.generated, List.map_append]
    rfl
  have hnew : after.HasComponent name := by
    obtain ⟨hcomponent, hkey⟩ :=
      hasComponent_generated h.sound hschemas habsent source ref keySchema
    rw [hafter]
    exact ⟨hcomponent, hkey⟩
  refine h.update hupdate (fun other hother => ?_) fun u place hu hplace => ?_
  · rw [hnames, List.mem_append, List.mem_singleton] at hother
    exact hother.imp_right fun heq => by rw [heq]; exact hnew
  · have hfewer : ∀ tag, Among run.KeyProperty tag → Among after.KeyProperty tag := by
      rintro tag ⟨m, htag, hm⟩
      exact ⟨m, htag, hupdate.keyProperty h.sound h.components hm⟩
    have hdocument : after.document = (run.modifyNode schemas (onFields (·.insert name
        (keyValueComponent source ref keySchema run.options.fieldProperty)))).document := by
      rw [hafter]
    rw [hdocument] at hu
    rcases sees_generated h.sound hschemas habsent hu with
      ⟨old, hold, hne, rfl⟩ | ⟨between, hv, hbelow⟩
    · obtain ⟨components, hcomponents, hkey⟩ :=
        (@under?_concat _ _ _ ["components"] "schemas").1 hschemas
      cases components with
      | map owner fields =>
          have hget : fields.get? "schemas" = some (.map (some schemas) entries) := by
            simpa [under?_map_cons] using hkey
          have howner : run.Holds (.map owner fields) :=
            run.holds_document.below (mem_subtrees_of_under? hcomponents)
          exact h.image (suits_of_unwatched h.sound howner hget (by decide) rfl
            (keeps_insert habsent rfl rfl)) (hold.mono hfewer) hplace hne
      | _ => cases hkey
    · have hbetween : between.Alike ⟨.entries, .schema .schema, true⟩ :=
        (located_of_sees h.sound (sees_schemas hschemas) rfl).stands _ between
          (hv.mono fun tag => not_among tag |>.elim) rfl
      refine tidy_of_schemas hbetween (fun entry hentry u place hu hplace => ?_) ?_ hbelow hplace
      · refine h.tidy u place ?_ hplace
        have hchild : Tree.Sees (Among after.KeyProperty) run.document (.one .document) entry.2
            (.one between.role) := hv.step (.entry hbetween.1 hentry) hu.not_skip_start
        exact (hchild.trans hu).mono hfewer
      · intro inner key value properties more tag type heq
        have hunder := under?_generated h.sound hschemas habsent
          (keyValueComponent source ref keySchema run.options.fieldProperty)
        rw [heq] at hunder
        have hat : after.document.under? (after.keyPath name) = some key := by
          rw [hafter]
          exact under?_keyPath hunder
        obtain ⟨m, -, hm⟩ := (hupdate.sound h.sound).exists_tag
          (after.holds_document.below (mem_subtrees_of_under? hat))
        exact ⟨m, hm, name, hnames ▸ List.mem_append_right _ (List.mem_singleton_self name), key,
          hat, hm⟩

theorem Update.tidy (hupdate : Update IsSchema run after) (h : run.Tidy permits) :
    after.Tidy permits := by
  cases hupdate with
  | rewritten hschema hscalar hrewrites =>
      exact h.updateOld (.rewritten hschema hscalar hrewrites) rfl
        (showsTidy_rewritten h hschema hrewrites)
  | patch hpatch =>
      cases hpatch with
      | noted => exact ⟨h.sound.congr rfl rfl rfl, fun name hname =>
          ⟨(h.components name hname).component, (h.components name hname).key⟩, h.tidy⟩
      | added hscalar hadds hplace =>
          exact h.updateOld (.patch (.added hscalar hadds hplace)) rfl (showsTidy_added h hadds)
      | keyed howner hget habsent hmarked =>
          exact h.updateOld (.patch (.keyed howner hget habsent hmarked)) rfl
            (showsTidy_keyed h howner hget habsent)
      | parted howner hget hmarked =>
          exact h.updateOld (.patch (.parted howner hget hmarked)) rfl
            (showsTidy_parted h _ howner hget)
      | generated source ref keySchema hschemas habsent =>
          exact tidy_generated h source ref keySchema hschemas habsent rfl

theorem Updates.tidy (hupdates : Updates IsSchema run after) (h : run.Tidy permits) :
    after.Tidy permits := by
  induction hupdates with
  | refl => exact h
  | tail _ hlast ih => exact hlast.tidy ih

end Updates

end ProtoShape
