import ProtoShape.Proofs.Reshape.Given

/-!
# Giving the key without fuel

`Follows` and `Giving` are the recursions of `followReferences` and of `giveKey` without
fuel, one constructor for each way that the code takes.  A derivation is finite, so there is
one only if the recursion ends.  There always is (`giveKey_giving`): a chain of references
does not pass a node twice, and the members of the unions that have not been remembered
get fewer with every union that the key is passed on by.

A derivation is also what the changes are read off (`Giving.gifts`).  Together with
`given_of_gifts` this says what any sequence of calls does: `giveKeys_once`.
-/

namespace ProtoShape

open Rules Tree Relation Step

/-! ## References -/

/-- Following references, however many. -/
inductive Follows (document : Node) : List Tag → Node → Except Unresolved Node → Prop where
  | ends {seen node} : node.ref? = none → Follows document seen node (.ok node)
  | cycle {seen node ref} : node.ref? = some ref → node.tag ∈ seen →
      Follows document seen node (.error ⟨ref, .cycle⟩)
  | unresolved {seen node ref problem} : node.ref? = some ref → node.tag ∉ seen →
      document.resolve ref = .error problem → Follows document seen node (.error problem)
  | next {seen node ref target result} : node.ref? = some ref → node.tag ∉ seen →
      document.resolve ref = .ok target → Follows document (node.tag :: seen) target result →
      Follows document seen node result

theorem Follows.functional {document node : Node} {seen : List Tag}
    {result result' : Except Unresolved Node}
    (h : Follows document seen node result) (h' : Follows document seen node result') :
    result = result' := by
  induction h with
  | ends hnone =>
      cases h' with
      | ends => rfl
      | cycle href => cases hnone.symm.trans href
      | unresolved href => cases hnone.symm.trans href
      | next href => cases hnone.symm.trans href
  | cycle href hseen =>
      cases h' with
      | ends hnone => cases hnone.symm.trans href
      | cycle href' =>
          obtain rfl := Option.some.inj (href.symm.trans href')
          rfl
      | unresolved _ hfresh => exact absurd hseen hfresh
      | next _ hfresh => exact absurd hseen hfresh
  | unresolved href hfresh hresolve =>
      cases h' with
      | ends hnone => cases hnone.symm.trans href
      | cycle _ hseen => exact absurd hseen hfresh
      | unresolved href' _ hresolve' =>
          obtain rfl := Option.some.inj (href.symm.trans href')
          exact congrArg _ (Except.error.inj (hresolve.symm.trans hresolve'))
      | next href' _ hresolve' =>
          obtain rfl := Option.some.inj (href.symm.trans href')
          cases hresolve.symm.trans hresolve'
  | next href hfresh hresolve _ ih =>
      cases h' with
      | ends hnone => cases hnone.symm.trans href
      | cycle _ hseen => exact absurd hseen hfresh
      | unresolved href' _ hresolve' =>
          obtain rfl := Option.some.inj (href.symm.trans href')
          cases hresolve.symm.trans hresolve'
      | next href' _ hresolve' hrest =>
          obtain rfl := Option.some.inj (href.symm.trans href')
          obtain rfl := Except.ok.inj (hresolve.symm.trans hresolve')
          exact ih hrest

/-- With the tags that have not been passed, the recursion ends. -/
theorem follows_of_free {document node : Node} {seen : List Tag} {fuel : Nat}
    (hnode : node ∈ document.subtrees)
    (hfree : (document.tags.filter fun tag => tag ∉ seen).length ≤ fuel) :
    Follows document seen node (followReferences document fuel seen node) := by
  induction fuel generalizing node seen with
  | zero =>
      have hseen := mem_of_no_free hnode (Nat.le_zero.1 hfree)
      unfold followReferences
      split
      · exact .ends ‹_›
      · rw [if_pos hseen]
        exact .cycle ‹_› hseen
  | succ fuel ih =>
      unfold followReferences
      split
      · exact .ends ‹_›
      · split
        · exact .cycle ‹_› ‹_›
        · rename_i ref href hfresh
          simp only
          split
          · exact .unresolved href hfresh ‹_›
          · rename_i target hresolve
            have hfewer := length_free_lt hnode hfresh
            exact .next href hfresh hresolve (ih (mem_subtrees_of_resolve hresolve) (by omega))

/-- Following references ends, wherever it starts. -/
theorem follows_followReferences (document node : Node) :
    Follows document [] node (followReferences document (document.nodeCount + 1) [] node) := by
  unfold followReferences
  split
  · exact .ends ‹_›
  · rename_i ref href
    simp only [List.not_mem_nil, if_false]
    split
    · exact .unresolved href List.not_mem_nil ‹_›
    · rename_i target hresolve
      refine .next href List.not_mem_nil hresolve
        (follows_of_free (mem_subtrees_of_resolve hresolve) ?_)
      rw [← Tree.length_tags]
      exact List.length_filter_le _ _

theorem Follows.eq_followReferences {document node : Node} {result : Except Unresolved Node}
    (h : Follows document [] node result) :
    followReferences document (document.nodeCount + 1) [] node = result :=
  (follows_followReferences document node).functional h

theorem holds_of_follows {run : Run} {n : Nat} {node target : Node}
    (hnode : run.node? n = some node)
    (h : Follows run.document [] node (.ok target)) : run.Holds target := by
  rcases followReferences_mem h.eq_followReferences with rfl | hmem
  · exact (Run.node?_holds hnode).1
  · exact Or.inl hmem

/-! ## The key -/

/-- What there is to do: to give the key to the schema that a node leads to, or to members
of a union with their positions. -/
inductive Task where
  | schema (n : Nat) (location : Location)
  | members (list : Nat) (rest : List (Node × Nat)) (location : Location)

/-- Giving the key of a map, however deep the unions are.  The result is the key under which
the node has to be wrapped, if it has to be. -/
inductive Giving : Run → Task → Option String → Run → Prop where
  | missing {run n location} : run.node? n = none → Giving run (.schema n location) none run
  | unresolved {run n location node problem} : run.node? n = some node →
      Follows run.document [] node (.error problem) →
      Giving run (.schema n location) none { run with
        diagnostics := run.diagnostics ++
          [location.diagnostic "unresolved_reference" problem.message] }
  | other {run n location node target} : run.node? n = some node →
      Follows run.document [] node (.ok target) → (∀ m fields, target ≠ .map (some m) fields) →
      Giving run (.schema n location) none run
  | again {run n location node target fields} : run.node? n = some node →
      Follows run.document [] node (.ok (.map (some target) fields)) →
      run.carriers.contains (.tag (some target)) = true → Giving run (.schema n location) none run
  | part {run n location node target fields list} : run.node? n = some node →
      Follows run.document [] node (.ok (.map (some target) fields)) →
      run.carriers.contains (.tag (some target)) = false →
      Carrier.of run.options fields = .parts list →
      Giving run (.schema n location) none ((marked run target).modifyNode list
        (onItems (· ++ [keyHolder run.options.fieldProperty])))
  | property {run n location node target fields inner present} : run.node? n = some node →
      Follows run.document [] node (.ok (.map (some target) fields)) →
      run.carriers.contains (.tag (some target)) = false →
      Carrier.of run.options fields = .properties inner present →
      present.get? run.options.fieldProperty = none →
      Giving run (.schema n location) none ((marked run target).modifyNode inner
        (onFields (·.insert run.options.fieldProperty textSchema)))
  | conflict {run n location node target fields inner present} : run.node? n = some node →
      Follows run.document [] node (.ok (.map (some target) fields)) →
      run.carriers.contains (.tag (some target)) = false →
      Carrier.of run.options fields = .properties inner present →
      present.contains run.options.fieldProperty = true →
      Giving run (.schema n location) none { marked run target with
        diagnostics := run.diagnostics ++ [location.fieldConflict run.options.fieldProperty] }
  | union {run n location node target fields key list members after} : run.node? n = some node →
      Follows run.document [] node (.ok (.map (some target) fields)) →
      run.carriers.contains (.tag (some target)) = false →
      Carrier.of run.options fields = .members key list members →
      Giving (marked run target) (.members list members.zipIdx (location.child key)) none after →
      Giving run (.schema n location) none after
  | wrapped {run n location node target fields key} : run.node? n = some node →
      Follows run.document [] node (.ok (.map (some target) fields)) →
      run.carriers.contains (.tag (some target)) = false →
      Carrier.of run.options fields = .wrapped key →
      Giving run (.schema n location) (some key) run
  | nothing {run n location node target fields} : run.node? n = some node →
      Follows run.document [] node (.ok (.map (some target) fields)) →
      run.carriers.contains (.tag (some target)) = false → Carrier.of run.options fields = .none →
      Giving run (.schema n location) none run
  | done {run list location} : Giving run (.members list [] location) none run
  | stays {run between after list member m index rest location} : member.tag = some m →
      Giving run (.schema m (location.item index)) none between →
      Giving between (.members list rest location) none after →
      Giving run (.members list ((member, index) :: rest) location) none after
  | held {run between after list member m index rest location key} : member.tag = some m →
      Giving run (.schema m (location.item index)) (some key) between →
      Giving (between.modifyNode list (onItems (wrapAt index key))) (.members list rest location)
        none after →
      Giving run (.members list ((member, index) :: rest) location) none after

/-! ### The recursion ends -/

/-- What holds of the result of a step and of the run after it. -/
def Step.Ends {α : Type} (x : Step α) (run : Run) (Q : α → Run → Prop) : Prop :=
  Q (x run).1 (x run).2

theorem Step.ends_get {α : Type} {f : Run → Step α} {run : Run} {Q : α → Run → Prop}
    (h : Ends (f run) run Q) : Ends (get >>= f) run Q := h

/-- The state after a member has been given the key, with the rest of the members. -/
def memberStep (fuel list : Nat) (location : Location) (entry : Node × Nat) : Step PUnit :=
  match entry.1.tag with
  | none => pure PUnit.unit
  | some m => do
      match ← giveKeyWithin fuel m (location.item entry.2) with
      | some key => wrapItem list entry.2 key
      | none => pure PUnit.unit

theorem memberStep_eq (fuel list index : Nat) (location : Location) {member : Node} {m : Nat}
    (hm : member.tag = some m) (run : Run) : memberStep fuel list location (member, index) run =
      (match (giveKeyWithin fuel m (location.item index) run).1 with
        | some key => wrapItem list index key
        | none => pure PUnit.unit) (giveKeyWithin fuel m (location.item index) run).2 := by
  unfold memberStep
  simp only [hm]
  rfl

/-- The recursion ends on the members of a union if it ends on each. -/
theorem members_giving {fuel : Nat}
    (hgiving : ∀ n location {run : Run}, run.Sound → run.waiting < fuel →
      Giving run (.schema n location)
      (giveKeyWithin fuel n location run).1 (giveKeyWithin fuel n location run).2)
    {run : Run} (hsound : run.Sound) {list : Nat} {members : List Node} (location : Location)
    (hlist : run.Holds (.list (some list) members)) (hcarries : run.Carries list)
    (hwaiting : run.waiting < fuel)
    {rest : List (Node × Nat)} (hrest : rest <:+ members.zipIdx) {between : Run}
    (hpatches : ReflTransGen Patch run between)
    (hfirst : rest.length = members.length → between = run) (hle : between.waiting ≤ run.waiting) :
    Giving between (.members list rest location) none
      ((rest.forM (memberStep fuel list location)) between).2 := by
  induction rest generalizing between with
  | nil => exact .done
  | cons entry rest ih =>
      obtain ⟨member, index⟩ := entry
      have hindex := List.mem_zipIdx_iff_getElem?.1 (hrest.mem List.mem_cons_self)
      have hlength : rest.length < members.length := by
        have hsuffix := hrest.length_le
        rw [List.length_cons, List.length_zipIdx] at hsuffix
        exact hsuffix
      have hlone : members.length ≤ 1 → between = run := fun hlen =>
        hfirst (by rw [List.length_cons]; omega)
      have hsound' := sound_of_patches hpatches hsound
      have hleads := giveKeyMember_leads (location.item index)
        (fun n location _ => giveKeyWithin_leads fuel n location) hsound hlist hcarries hindex
        hpatches hlone
      have hspends :=
        (giveKeyMember_suffices (giveKeyWithin_suffices fuel) (location.item index) hsound
        hlist hindex hpatches (Nat.lt_of_le_of_lt hle hwaiting)).2
      have hnext : Giving (memberStep fuel list location (member, index) between).2
          (.members list rest location) none ((rest.forM (memberStep fuel list location))
            (memberStep fuel list location (member, index) between).2).2 :=
        ih ((List.suffix_cons _ rest).trans hrest) (hpatches.trans hleads.1) (fun heq => by omega)
          (hspends.waiting.trans hle)
      obtain ⟨m, -, hm⟩ := hsound.exists_tag (hlist.below (mem_subtrees_of_child
        (List.mem_of_getElem? hindex) (self_mem_subtrees member)))
      have hmember := hgiving m (location.item index) hsound' (Nat.lt_of_le_of_lt hle hwaiting)
      change Giving between _ none ((rest.forM (memberStep fuel list location))
        (memberStep fuel list location (member, index) between).2).2
      rw [memberStep_eq fuel list index location hm] at hnext ⊢
      cases hwrap : (giveKeyWithin fuel m (location.item index) between).1 with
      | none =>
          rw [hwrap] at hmember hnext
          exact .stays hm hmember hnext
      | some key =>
          rw [hwrap] at hmember hnext
          exact .held hm hmember hnext

theorem property_giving {run : Run} {n target inner : Nat} {location : Location} {node : Node}
    {fields present : Fields Tag} (hnode : run.node? n = some node)
    (hfollows : Follows run.document [] node (.ok (.map (some target) fields)))
    (hfresh : run.carriers.contains (.tag (some target)) = false)
    (hcarrier : Carrier.of run.options fields = .properties inner present) :
    Giving run (.schema n location) none
      (giveKeyProperty inner present location (marked run target)).2 := by
  change Giving _ _ _ (((if present.contains run.options.fieldProperty then
    report (location.fieldConflict run.options.fieldProperty)
    else modifyFields inner (·.insert run.options.fieldProperty textSchema)) : Step Unit)
      (marked run target)).2
  split
  · exact .conflict hnode hfollows hfresh hcarrier ‹_›
  · rename_i habsent
    exact .property hnode hfollows hfresh hcarrier (by simpa [Entries.contains] using habsent)

/-- To give the key of a map to a schema ends, if there is fuel for the members that are
waiting. -/
theorem giveKeyWithin_giving (fuel n : Nat) (location : Location) {run : Run} (hsound : run.Sound)
    (hwaiting : run.waiting < fuel) : Giving run (.schema n location)
      (giveKeyWithin fuel n location run).1 (giveKeyWithin fuel n location run).2 := by
  induction fuel generalizing n location run with
  | zero => omega
  | succ fuel ih =>
      change Ends (giveKeyWithin (fuel + 1) n location) run (Giving run (.schema n location))
      unfold giveKeyWithin
      refine ends_get ?_
      cases hnode : run.node? n with
      | none => exact .missing hnode
      | some node =>
          have hfollows := follows_followReferences run.document node
          cases hresult : followReferences run.document (run.document.nodeCount + 1) [] node with
          | error problem =>
              rw [hresult] at hfollows
              simp only [hresult]
              exact .unresolved hnode hfollows
          | ok found =>
              rw [hresult] at hfollows
              simp only [hresult]
              cases found with
              | scalar tag s => exact .other hnode hfollows (by rintro _ _ ⟨⟩)
              | list tag items => exact .other hnode hfollows (by rintro _ _ ⟨⟩)
              | map tag fields =>
                  cases tag with
                  | none => exact .other hnode hfollows (by rintro _ _ ⟨⟩)
                  | some target =>
                      simp only
                      cases hcontains : run.carriers.contains (.tag (some target)) with
                      | true => exact .again hnode hfollows hcontains
                      | false =>
                          simp only [Bool.false_eq_true, if_false]
                          cases hcarrier : Carrier.of run.options fields with
                          | parts list => exact .part hnode hfollows hcontains hcarrier
                          | properties inner present =>
                              exact property_giving hnode hfollows hcontains hcarrier
                          | members key list members =>
                              have hholds : run.Holds (.map (some target) fields) :=
                                holds_of_follows hnode hfollows
                              have hof := Carrier.of_ofFields run.options fields
                              rw [hcarrier] at hof
                              have hpaid := waiting_marked_add_le hholds hcontains hof.1 hof.2
                              rw [unionLength] at hpaid
                              have hsound' : (marked run target).Sound := hsound.congr rfl rfl rfl
                              have hless : (marked run target).waiting < fuel := by omega
                              have hlist : (marked run target).Holds (.list (some list) members) :=
                                hholds.below (mem_subtrees_of_get? hof.2)
                              refine .union hnode hfollows hcontains hcarrier ?_
                              exact members_giving ih hsound' (location.child key) hlist
                                (carries_members hholds hof.1 hof.2) hless List.suffix_rfl .refl
                                (fun _ => rfl) (Nat.le_refl _)
                          | wrapped key => exact .wrapped hnode hfollows hcontains hcarrier
                          | none => exact .nothing hnode hfollows hcontains hcarrier

/-- To give the key of a map to a schema ends. -/
theorem giveKey_giving (n : Nat) (location : Location) {run : Run} (hsound : run.Sound) :
    Giving run (.schema n location) (giveKey n location run).1 (giveKey n location run).2 := by
  have hdocument := (Charge.load_waiting_lt run.carriers run.document).1
  have haside := (Charge.load_waiting_lt run.carriers run.aside).1
  refine giveKeyWithin_giving _ n location hsound ?_
  rw [Run.waiting, Run.load]
  omega

/-! ### The changes -/

section

variable {run after : Run} {schema n list : Nat} {key : String} {o : Outline}

/-- Links stay. -/
theorem Given.links (h : Given run after) (hlinks : run.Links schema key n) :
    after.Links schema key n := by
  obtain ⟨entries, houtline, hget⟩ := hlinks
  obtain ⟨now, hnow, hpatched⟩ := h.outlines schema _ houtline
  cases hpatched with
  | same => exact ⟨entries, hnow, hget⟩
  | keyed => exact ⟨_, hnow, Entries.get?_append hget⟩

/-- What a schema holds stays as it is once the schema has been remembered. -/
theorem Given.outline?_of_remembered (h : Given run after) (hlinks : run.Links schema key n)
    (hmarked : run.carriers.contains (.tag (some schema)) = true) (ho : run.outline? n = some o) :
    after.outline? n = some o := by
  obtain ⟨now, hnow, hpatched⟩ := h.outlines n o ho
  have hnone : ∀ other, ¬Gained run after other n := by
    rintro other ⟨owner, howner, hfresh, -⟩
    obtain ⟨rfl, -⟩ := howner.unique h.sound (h.links hlinks)
    exact Bool.eq_false_iff.1 hfresh hmarked
  cases hpatched with
  | same => exact hnow
  | parted hgained => exact absurd hgained (hnone _)
  | keyed hgained => exact absurd hgained (hnone _)
  | wrapped _ hgained => exact absurd hgained (hnone _)

/-- A node that has to be wrapped is bare, and nothing has been changed. -/
theorem Giving.of_some {location : Location} (hsound : run.Sound)
    (h : Giving run (.schema n location) (some key) after) :
    after = run ∧ ∃ node, run.node? n = some node ∧ IsBare node := by
  cases h with
  | wrapped hnode hfollows _ hcarrier =>
      exact ⟨rfl, _, hnode,
        isBare_of_follow hsound (Run.node?_holds hnode).1 hfollows.eq_followReferences hcarrier⟩

/-- What is known when there is something to do for the members of a union: the union has
been remembered, and the members that are left are in their places. -/
def Task.Ready (before : IdentitySet) (run : Run) : Task → Prop
  | .schema _ _ => True
  | .members list rest _ =>
    ∃ schema key items, key ∈ ["oneOf", "anyOf"] ∧ run.Links schema key list ∧
      before.contains (.tag (some schema)) = false ∧
      run.carriers.contains (.tag (some schema)) = true ∧
      run.outline? list = some (.list items) ∧
      (∀ entry ∈ rest, items[entry.2]? = some entry.1.tag) ∧ (rest.map (·.2)).Nodup

/-- A union that has just been remembered is ready to pass the key on. -/
theorem ready_of_union {before : IdentitySet} {fields : Fields Tag} {members : List Node}
    (hsound : run.Sound) (hholds : run.Holds (.map (some schema) fields))
    (hfresh : before.contains (.tag (some schema)) = false)
    (hcarrier : Carrier.of run.options fields = .members key list members) (location : Location) :
    (Task.members list members.zipIdx location).Ready before (marked run schema) := by
  have hof := Carrier.of_ofFields run.options fields
  rw [hcarrier] at hof
  obtain ⟨hkey, hget⟩ := hof
  refine ⟨schema, key, members.map Tree.tag, hkey, hsound.links_of_get? hholds hget rfl, hfresh,
    contains_marked_self run schema, ?_, ?_, ?_⟩
  · exact hsound.outline?_of_holds (hholds.below (mem_subtrees_of_get? hget)) rfl
  · intro entry hentry
    rw [List.getElem?_map, List.mem_zipIdx_iff_getElem?.1 hentry, Option.map_some]
  · rw [List.zipIdx_map_snd]
    exact List.nodup_range'

/-- A union stays ready while one of its members is given the key. -/
theorem Task.Ready.of_given {before : IdentitySet} {entry : Node × Nat} {rest : List (Node × Nat)}
    {location : Location} (h : (Task.members list (entry :: rest) location).Ready before run)
    (hgiven : Given run after) : (Task.members list rest location).Ready before after := by
  obtain ⟨schema, key, items, hkey, hlinks, hfresh, hmarked, houtline, hitems, hnodup⟩ := h
  exact ⟨schema, key, items, hkey, hgiven.links hlinks, hfresh, hgiven.carriers _ hmarked,
    hgiven.outline?_of_remembered hlinks hmarked houtline,
    fun entry hentry => hitems entry (List.mem_cons_of_mem _ hentry), (List.nodup_cons.1 hnodup).2⟩

/-- A member that has to be wrapped stands in its place, and the others stay in theirs. -/
theorem Task.Ready.of_wrapped {before : IdentitySet} {member node : Node} {m index : Nat}
    {rest : List (Node × Nat)} {location : Location}
    (h : (Task.members list ((member, index) :: rest) location).Ready before run)
    (hsound : run.Sound)
    (htag : member.tag = some m) (hnode : run.node? m = some node) (hbare : IsBare node)
    (wrap : String) :
    Gift before run (run.modifyNode list (onItems (wrapAt index wrap))) ∧
      (run.modifyNode list (onItems (wrapAt index wrap))).Sound ∧
      (Task.members list rest location).Ready before
        (run.modifyNode list (onItems (wrapAt index wrap))) := by
  obtain ⟨schema, key, items, hkey, hlinks, hfresh, hmarked, houtline, hitems, hnodup⟩ := h
  obtain ⟨fields, value, hschema, hget, hvalue⟩ := hlinks.exists_get?
  obtain ⟨nodes, hlist, rfl⟩ := Run.exists_list_of_outline? houtline
  have hholds := (Run.node?_holds hschema).1
  obtain rfl :=
    hsound.unique (hholds.below (mem_subtrees_of_get? hget)) (Run.node?_holds hlist).1 hvalue rfl
  have hindex : nodes[index]? = some node := by
    have hslot := hitems (member, index) List.mem_cons_self
    rw [List.getElem?_map] at hslot
    obtain ⟨item, hitem, hitemTag⟩ := Option.map_eq_some_iff.1 hslot
    obtain rfl := hsound.unique ((Run.node?_holds hlist).1.below (mem_subtrees_of_child
      (List.mem_of_getElem? hitem) (self_mem_subtrees item))) (Run.node?_holds hnode).1
      (hitemTag.trans htag) (Run.node?_holds hnode).2
    exact hitem
  have hadds := addsAt_wrapper hsound (Run.node?_holds hlist).1 hindex hbare wrap
  have htouches := touches_list hsound (fun _ hin => hin) hadds houtline
  obtain ⟨wrapper, -, hnow, -⟩ := outline?_wrapper hsound hlist hindex hbare wrap
  refine ⟨.wrapped wrap hholds hmarked hfresh hkey hget hindex hbare, htouches.sound,
    schema, key, _, hkey, htouches.persists.links hlinks, hfresh, hmarked, hnow,
    fun entry hentry => ?_,
    (List.nodup_cons.1 hnodup).2⟩
  rw [List.getElem?_set_ne]
  · exact hitems entry (List.mem_cons_of_mem _ hentry)
  · rintro rfl
    exact (List.nodup_cons.1 hnodup).1 (List.mem_map.2 ⟨entry, hentry, rfl⟩)

/-- Giving the key is a sequence of gifts. -/
theorem Giving.gifts {task : Task} {wrap : Option String} (h : Giving run task wrap after)
    (hsound : run.Sound) {before : IdentitySet}
    (hbefore : ∀ identity, before.contains identity = true → run.carriers.contains identity = true)
    (hready : task.Ready before run) : ReflTransGen (Gift before) run after := by
  induction h generalizing before with
  | missing | other | again | wrapped | nothing | done => exact .refl
  | unresolved => exact .single (.reported _)
  | part hnode hfollows hfresh hcarrier =>
      exact .single (.parted (holds_of_follows hnode hfollows) hfresh hcarrier)
  | property hnode hfollows hfresh hcarrier habsent =>
      exact .single (.keyed (holds_of_follows hnode hfollows) hfresh hcarrier habsent)
  | conflict hnode hfollows hfresh hcarrier =>
      exact (ReflTransGen.single (.kept (holds_of_follows hnode hfollows) hfresh hcarrier)).tail
        (.reported _)
  | @union run _ _ _ target _ _ _ _ _ hnode hfollows hfresh hcarrier _ ih =>
      have hholds := holds_of_follows hnode hfollows
      refine (ih (hsound.congr rfl rfl rfl)
        (fun _ hin => carriers_marked run target _ (hbefore _ hin))
        (ready_of_union hsound hholds (fresh_of_le hbefore hfresh) hcarrier _)).head ?_
      exact .passed hholds hfresh hcarrier
  | stays _ _ _ ihfirst ihrest =>
      have hfirst := ihfirst hsound (fun _ hin => hin) trivial
      have hgiven := given_of_gifts hfirst hsound
      exact (gifts_mono hfirst hbefore).trans (ihrest hgiven.sound
        (fun _ hin => hgiven.carriers _ (hbefore _ hin)) (hready.of_given hgiven))
  | held htag hfirst _ _ ihrest =>
      obtain ⟨rfl, node, hnode, hbare⟩ := hfirst.of_some hsound
      obtain ⟨hgift, hsound', hready'⟩ := hready.of_wrapped hsound htag hnode hbare _
      exact (ihrest hsound' hbefore hready').head hgift

end

/-! ## Any number of calls -/

/-- Gives the key of a map to one schema after the other. -/
def Step.giveKeys (calls : List (Nat × Location)) : Step Unit :=
  calls.forM fun call => do
    let _ ← giveKey call.1 call.2

/-- Calls one after the other, each of which ends. -/
inductive Givings : Run → List (Nat × Location) → Run → Prop where
  | done (run : Run) : Givings run [] run
  | call {run between after n location rest wrap} : Giving run (.schema n location) wrap between →
      Givings between rest after → Givings run ((n, location) :: rest) after

theorem giveKeys_givings (calls : List (Nat × Location)) {run : Run} (hsound : run.Sound) :
    Givings run calls (giveKeys calls run).2 := by
  induction calls generalizing run with
  | nil => exact .done run
  | cons call rest ih =>
      have hgiving := giveKey_giving call.1 call.2 hsound
      have hgiven := given_of_gifts (hgiving.gifts hsound (fun _ hin => hin) trivial) hsound
      exact .call hgiving (ih hgiven.sound)

theorem Givings.gifts {run after : Run} {calls : List (Nat × Location)}
    (h : Givings run calls after)
    (hsound : run.Sound) : ReflTransGen (Gift run.carriers) run after := by
  induction h with
  | done => exact .refl
  | call hgiving _ ih =>
      have hfirst := hgiving.gifts hsound (fun _ hin => hin) trivial
      have hgiven := given_of_gifts hfirst hsound
      exact hfirst.trans (gifts_mono (ih hgiven.sound) hgiven.carriers)

/-- Giving the key to a schema that has been remembered does nothing. -/
theorem giveKey_again {run : Run} {n target : Nat} {location : Location} {node : Node}
    {fields : Fields Tag} (hnode : run.node? n = some node)
    (hfollows : Follows run.document [] node (.ok (.map (some target) fields)))
    (hmarked : run.carriers.contains (.tag (some target)) = true) :
    giveKey n location run = (none, run) := by
  rw [giveKey, get_bind_apply, giveKeyWithin, get_bind_apply, hnode]
  simp only [hfollows.eq_followReferences, hmarked, if_true]
  rfl

/-- Giving the key of a map ends, and patches each schema once at most, whatever the
document is, whatever has been recorded and however many calls there are.  All that is done
is a sequence of gifts.  Every container from before is there afterwards, and it is the same
or has been patched once.  Where a call comes to a schema that has been remembered, it does
nothing and records nothing. -/
theorem giveKeys_once {run : Run} (hsound : run.Sound) (calls : List (Nat × Location)) :
    Givings run calls (giveKeys calls run).2 ∧
    ReflTransGen (Gift run.carriers) run (giveKeys calls run).2 ∧
    Given run (giveKeys calls run).2 ∧
    ∀ n location node target fields, (giveKeys calls run).2.node? n = some node →
      Follows (giveKeys calls run).2.document [] node (.ok (.map (some target) fields)) →
      (giveKeys calls run).2.carriers.contains (.tag (some target)) = true →
      giveKey n location (giveKeys calls run).2 = (none, (giveKeys calls run).2) := by
  have hgivings := giveKeys_givings calls hsound
  have hgifts := hgivings.gifts hsound
  exact ⟨hgivings, hgifts, given_of_gifts hgifts hsound,
    fun _ _ _ _ _ hnode hfollows hmarked => giveKey_again hnode hfollows hmarked⟩

/-- A union of a primitive, of itself, and of what becomes of the primitive. -/
def cyclicUnion : Value :=
  .ofEntries [("components", .ofEntries [("schemas", .ofEntries [
    ("A", .ofEntries [("oneOf", .ofList [
      .ofEntries [("type", .ofText "string")],
      .ofEntries [("$ref", .ofText "#/components/schemas/A")],
      .ofEntries [("$ref", .ofText "#/components/schemas/A/oneOf/0")]])])])])]

/-- The union and the object around the primitive are remembered, however often the key is
given to the union. -/
theorem giveKeys_once_cyclicUnion :
    (Run.start .standard (.ofValue cyclicUnion)).Sound ∧
    Given (Run.start .standard (.ofValue cyclicUnion))
      (giveKeys [(3, .root), (3, .root)] (Run.start .standard (.ofValue cyclicUnion))).2 ∧
    (giveKeys [(3, .root), (3, .root)]
      (Run.start .standard (.ofValue cyclicUnion))).2.carriers.size = 2 :=
  ⟨Run.start_sound .standard cyclicUnion,
    (giveKeys_once (Run.start_sound .standard cyclicUnion) _).2.2.1, by decide +kernel⟩

end ProtoShape
