import ProtoShape.Proofs.Reshape.Log
import ProtoShape.Proofs.Resolving

/-!
# Where the first phase reports

The document changes while the first phase goes on.  So whether a location leads to what a
diagnostic is about has to be asked of the document as it stands when the diagnostic is
recorded.

* Seats.  The replacement of all schemas hands each visit the document around the schema.
  `Seats` says that the keys of the visit's location lead to whatever is put there.  It holds at the
  root and goes on to items, entries and slots, also past those that have been replaced.  So a
  replacement may rely on it (`replaceSchemas_congr`).
* Reports.  The last rule reports a member of a union that refers to nothing.  Where its schema
  has its seat, the location of the diagnostic leads to that member (`pointsToFailure_of_mem`).
* `cleanUp_pointsToFailures` puts both together: recording only what points to such a reference
  changes nothing about the phase.
-/

namespace ProtoShape

open Tree Rules

variable {τ : Type}

/-! ## Seats -/

/-- Whatever is put into the document there, the keys of the location lead to it. -/
def Seats (location : Location) (around : Tree τ → Tree τ) : Prop :=
  ∀ t, location.keys.foldlM step (around t) = .ok t

section Seating

variable {location : Location} {around : Tree τ → Tree τ} {tag : τ}

theorem seats_root : Seats .root (id : Tree τ → Tree τ) := fun _ => rfl

/-- A seat in a part that has its seat. -/
theorem Seats.child (h : Seats location around) {key : String} {part : Tree τ → Tree τ}
    (hstep : ∀ t, (part t).step key = .ok t) :
    Seats (location.child key) fun t => around (part t) :=
  fun t => foldlM_step_concat (h (part t)) (hstep t)

theorem Seats.slot (h : Seats location around) (fields : Fields τ) (key : String) :
    Seats (location.child key) fun value => around (.map tag (fields.insert key value)) :=
  h.child fun _ => step_of_under? (under?_singleton.2 ⟨tag, _, rfl, Entries.get?_insert_self _ _ _⟩)

theorem Seats.item (h : Seats location around) (before : List (Tree τ)) {rest : List (Tree τ)}
    (hlength : before.length + (rest.length + 1) ≤ 10 ^ Decimal.maxDigits) :
    Seats (location.item before.length) fun item =>
      around (.list tag (before ++ item :: rest)) := by
  refine h.child fun item => step_item ?_ ?_
  · rw [List.length_append, List.length_cons]
    exact hlength
  · rw [List.getElem?_append_right (Nat.le_refl _), Nat.sub_self]
    rfl

/-- An object with another value under one of its keys. -/
theorem isObject_replace {before rest : List (Scalar × Tree τ)} {key : Scalar} {value : Tree τ}
    (other : Tree τ) (h : Entries.IsObject ⟨before ++ (key, value) :: rest⟩) :
    Entries.IsObject ⟨before ++ (key, other) :: rest⟩ :=
  (Entries.isObject_congr (by simp [Entries.keys])).1 h

theorem Seats.entry (h : Seats location around)
    {before rest : List (Scalar × Tree τ)} {key : String}
    {value : Tree τ} (hobject : Entries.IsObject ⟨before ++ (.text key, value) :: rest⟩) :
    Seats (location.child key) fun value =>
      around (.map tag ⟨before ++ (.text key, value) :: rest⟩) := by
  refine h.child fun other => ?_
  have hget := Entries.get?_of_mem (isObject_replace other hobject).2
    (List.mem_append_right before List.mem_cons_self)
  exact step_of_under? (under?_singleton.2 ⟨tag, _, rfl, hget⟩)

end Seating

/-! ## Replacements at seats -/

namespace Tree

variable {m : Type → Type} [Monad m] {f g : Visit τ → (Tree τ → Tree τ) → m (Fields τ)}
  {place : Place} {role : Role} {site : Site} {around : Tree τ → Tree τ}

/-- Two replacements do the same to a tree that has its seat. -/
def SameAt (f g : Visit τ → (Tree τ → Tree τ) → m (Fields τ)) (t : Tree τ) (place : Place) : Prop :=
  ∀ (site : Site) (around : Tree τ → Tree τ), Seats site.location around →
    t.replaceSchemas f place site around = t.replaceSchemas g place site around

theorem replaceItems_congr (hseat : Seats site.location around) (tag : τ) (before : List (Tree τ))
    {items : List (Tree τ)} (hlength : before.length + items.length ≤ 10 ^ Decimal.maxDigits)
    (h : ∀ item ∈ items, SameAt f g item (.one role)) :
    replaceItems f items role site before.length
      (fun items => around (.list tag (before ++ items))) =
      replaceItems g items role site before.length
        (fun items => around (.list tag (before ++ items))) := by
  induction items generalizing before with
  | nil => rfl
  | cons item rest ih =>
      rw [replaceItems, replaceItems, h item List.mem_cons_self _ _ (hseat.item before hlength)]
      refine bind_congr fun item' => ?_
      -- The item stands among those before the next one now.
      have hmore : (before ++ [item']).length + rest.length ≤ 10 ^ Decimal.maxDigits := by
        rw [List.length_append, List.length_singleton, Nat.add_assoc, Nat.add_comm 1]
        exact hlength
      have hrest := ih (before ++ [item']) hmore fun other hother =>
        h other (List.mem_cons_of_mem _ hother)
      simp only [List.length_append, List.length_singleton, List.append_assoc,
        List.singleton_append] at hrest
      rw [hrest]

theorem replaceEntries_congr (hseat : Seats site.location around) (tag : τ)
    (before : List (Scalar × Tree τ)) {entries : List (Scalar × Tree τ)}
    (hobject : Entries.IsObject ⟨before ++ entries⟩)
    (h : ∀ entry ∈ entries, SameAt f g entry.2 (.one place.role)) :
    replaceEntries f entries place site (fun entries => around (.map tag ⟨before ++ entries⟩)) =
      replaceEntries g entries place site
        (fun entries => around (.map tag ⟨before ++ entries⟩)) := by
  induction entries generalizing before with
  | nil => rfl
  | cons entry rest ih =>
      obtain ⟨key, value⟩ := entry
      obtain ⟨key, rfl⟩ := Entries.hasTextKeys_iff.1 hobject.1 (key, value) (by simp)
      have hfirst := h _ List.mem_cons_self (site.entry place (.text key))
        (fun value => around (.map tag ⟨before ++ (.text key, value) :: rest⟩))
        (hseat.entry hobject)
      rw [replaceEntries, replaceEntries, hfirst]
      refine bind_congr fun value' => ?_
      have hmore : Entries.IsObject ⟨(before ++ [(.text key, value')]) ++ rest⟩ := by
        rw [List.append_assoc, List.singleton_append]
        exact isObject_replace value' hobject
      have hrest := ih (before ++ [(.text key, value')]) hmore
        fun other hother => h other (List.mem_cons_of_mem _ hother)
      simp only [List.append_assoc, List.singleton_append] at hrest
      rw [hrest]

theorem replaceSlots_congr {inner : Site} (hseat : Seats inner.location around) (tag : τ)
    (old : Fields τ)
    {slots : List Slot} (h : ∀ slot ∈ slots, ∀ value, old.get? slot.key = some value →
      SameAt f g value slot.place) (fields : Fields τ) :
    slots.foldlM
        (fun (fields : Fields τ) slot =>
          match Entries.lookup (branchReplacements f old.toList) slot.key with
          | some branch =>
              fields.insert slot.key <$>
                branch slot.place (inner.below slot.key)
                  (fun value => around (.map tag (fields.insert slot.key value)))
          | none => pure fields)
        fields =
      slots.foldlM
        (fun (fields : Fields τ) slot =>
          match Entries.lookup (branchReplacements g old.toList) slot.key with
          | some branch =>
              fields.insert slot.key <$>
                branch slot.place (inner.below slot.key)
                  (fun value => around (.map tag (fields.insert slot.key value)))
          | none => pure fields)
        fields := by
  induction slots generalizing fields with
  | nil => rfl
  | cons slot rest ih =>
      rw [List.foldlM_cons, List.foldlM_cons, lookup_branchReplacements, lookup_branchReplacements]
      have hrest := ih fun slot hslot => h slot (List.mem_cons_of_mem _ hslot)
      cases hget : old.get? slot.key with
      | none => exact bind_congr hrest
      | some value =>
          simp only [Option.map_some]
          rw [h slot List.mem_cons_self value hget _ _ (hseat.slot fields slot.key)]
          exact bind_congr hrest

/-- Replacements that agree on the visits that have their seat do the same to the schemas of a
document. -/
theorem replaceSchemas_congr
    (hfg : ∀ visit around, Seats visit.location around → f visit around = g visit around)
    {t : Tree τ} (hjson : t.IsJson) (hindex : t.Indexable) : SameAt f g t place := by
  induction t using Tree.induction generalizing place with
  | scalar tag s =>
      intro site around hseat
      rw [replaceSchemas, replaceSchemas]
  | list tag items ih =>
      intro site around hseat
      have hitem : ∀ item ∈ items, SameAt f g item (.one place.role) := fun item hitem => by
        have hbelow := mem_subtrees_of_child (t := list tag items) hitem (self_mem_subtrees item)
        exact ih item hitem (hjson.of_mem_subtrees hbelow) (hindex.of_mem_subtrees hbelow)
      have hlength := hindex.length_le (self_mem_subtrees (list tag items))
      rw [replaceSchemas, replaceSchemas]
      split
      · exact congrArg (list tag <$> ·)
          (replaceItems_congr hseat tag [] (by rwa [List.length_nil, Nat.zero_add]) hitem)
      · rfl
  | map tag fields ih =>
      intro site around hseat
      have hentry : ∀ entry ∈ fields.toList, ∀ place, SameAt f g entry.2 place :=
        fun entry hentry place => by
        have hbelow := mem_subtrees_of_child (t := map tag fields) (List.mem_map_of_mem hentry)
          (self_mem_subtrees entry.2)
        exact ih entry hentry (hjson.of_mem_subtrees hbelow) (hindex.of_mem_subtrees hbelow)
      have hobject := ((everywhere_map tag fields).1 hjson).1
      obtain ⟨entries⟩ := fields
      rw [replaceSchemas, replaceSchemas]
      cases hspread : place.spread with
      | elements => rfl
      | entries =>
          exact congrArg ((fun entries => map tag ⟨entries⟩) <$> ·)
            (replaceEntries_congr hseat tag [] hobject fun entry hmem => hentry entry hmem _)
      | single =>
          have hinner : (site.inside place.role (⟨entries⟩ : Fields τ)).location =
              site.location := by
            cases place.role <;> rfl
          have hvalue : ∀ slot ∈ place.role.slots, ∀ value,
              Entries.get? ⟨entries⟩ slot.key = some value →
              SameAt f g value slot.place := fun slot _ value hget => by
            obtain ⟨_, -, hmem⟩ := Entries.mem_of_get? hget
            exact hentry _ hmem slot.place
          have hslots := replaceSlots_congr (hinner ▸ hseat) tag ⟨entries⟩ hvalue ⟨entries⟩
          simp only
          split
          · refine (congrArg (· >>= _) hslots).trans (bind_congr fun fields' => ?_)
            cases hrole : place.role with
            | schema hook => exact congrArg (map tag <$> ·) (hfg _ _ hseat)
            | _ => rfl
          · rfl

end Tree

/-! ## Reports of one schema -/

theorem Tree.resolved_eq_error_iff {t document : Tree τ} {problem : Unresolved} :
    t.resolved document = .error problem ↔ ∃ ref, t.ref? = some ref ∧
    document.resolve ref = .error problem := by
  unfold resolved
  cases t.ref? <;> simp

/-- Whether a diagnostic points to a reference in a document and says why it leads nowhere. -/
def pointsToFailure (document : Tree τ) (diagnostic : Diagnostic) : Bool :=
  match document.resolve diagnostic.location with
  | .error _ => false
  | .ok node =>
      match node.resolved document with
      | .ok _ => false
      | .error problem =>
          diagnostic = ⟨"unresolved_reference", problem.message, diagnostic.location, "warning"⟩

theorem pointsToFailure_iff {document : Tree τ} {diagnostic : Diagnostic} :
    pointsToFailure document diagnostic = true ↔
      ∃ node ref problem, document.resolve diagnostic.location = .ok node ∧ node.ref? = some ref ∧
        document.resolve ref = .error problem ∧
        diagnostic = ⟨"unresolved_reference", problem.message, diagnostic.location, "warning"⟩ := by
  unfold pointsToFailure
  constructor
  · intro h
    split at h
    · cases h
    · rename_i node hnode
      split at h
      · cases h
      · rename_i problem hproblem
        obtain ⟨ref, href, hresolve⟩ := resolved_eq_error_iff.1 hproblem
        exact ⟨node, ref, problem, hnode, href, hresolve, of_decide_eq_true h⟩
  · intro h
    obtain ⟨node, ref, problem, hnode, href, hresolve, heq⟩ := h
    simp only [hnode, resolved_eq_error_iff.2 ⟨ref, href, hresolve⟩]
    exact decide_eq_true heq

theorem resolved_of_restatement {document shorthand other : Tree τ} {problem : Unresolved}
    (h : restatement document shorthand other = .unresolved problem) :
    other.resolved document = .error problem := by
  unfold restatement at h
  split at h
  · cases h
  · split at h
    · rename_i hresolved
      cases h
      exact hresolved
    · -- Once the other member is resolved, every branch has an answer.
      split at h
      · cases h
      · split at h
        · cases h
        · split at h <;> cases h

section Schema

variable {document : Tree τ} {location : Location} {tag : τ} {fields : Fields τ}

/-- A member that leads nowhere is reported at its own place. -/
theorem pointsToFailure_member (hlead : location.keys.foldlM step document = .ok (.map tag fields))
    {key : String}
    {members : List (Tree τ)} (hitems : Fields.items? fields key = some members) {i : Nat}
    {member : Tree τ}
    (hmember : members[i]? = some member) (hlength : members.length ≤ 10 ^ Decimal.maxDigits)
    {problem : Unresolved} (hproblem : member.resolved document = .error problem) :
    pointsToFailure document
      (((location.child key).item i).diagnostic "unresolved_reference" problem.message) = true := by
  obtain ⟨inner, hget⟩ := Fields.items?_eq_some_iff.1 hitems
  obtain ⟨ref, href, hresolve⟩ := resolved_eq_error_iff.1 hproblem
  have hunion : (location.child key).keys.foldlM step document = .ok (.list inner members) :=
    foldlM_step_concat hlead (step_of_under? (under?_singleton.2 ⟨tag, fields, rfl, hget⟩))
  have hplace : ((location.child key).item i).keys.foldlM step document = .ok member :=
    foldlM_step_concat hunion (step_item hlength hmember)
  exact pointsToFailure_iff.2 ⟨member, ref, problem, resolve_render hplace, href, hresolve, rfl⟩

/-- What is reported about a union of two: either member, if it leads nowhere. -/
theorem mem_dropShorthandIn_cons {key : String} {keys : List String} {first second : Tree τ}
    (hitems : Fields.items? fields key = some [first, second]) {diagnostic : Diagnostic}
    (h : diagnostic ∈ (dropShorthandIn document location fields (key :: keys)).1) :
    (∃ (i : Nat) (member shorthand : Tree τ) (problem : Unresolved),
      [first, second][i]? = some member ∧
      restatement document shorthand member = .unresolved problem ∧
      diagnostic = ((location.child key).item i).diagnostic "unresolved_reference"
        problem.message) ∨
    diagnostic ∈ (dropShorthandIn document location fields keys).1 := by
  simp only [dropShorthandIn, hitems] at h
  -- A member that is restated, or that cannot be written, ends the search, and one that is not
  -- restated is not reported.
  cases hone : restatement document first second with
  | yes | unwritable _ => simp [hone] at h
  | no =>
      cases htwo : restatement document second first with
      | yes | unwritable _ => simp [hone, htwo] at h
      | no => exact Or.inr (by simpa only [hone, htwo, List.nil_append] using h)
      | unresolved problem =>
          simp only [hone, htwo, List.nil_append, List.singleton_append, List.mem_cons] at h
          exact h.imp_left fun heq => ⟨0, first, second, problem, rfl, htwo, heq⟩
  | unresolved problem =>
      cases htwo : restatement document second first with
      | yes | unwritable _ =>
          simp only [hone, htwo, List.mem_singleton] at h
          exact Or.inl ⟨1, second, first, problem, rfl, hone, h⟩
      | no =>
          simp only [hone, htwo, List.append_nil, List.singleton_append, List.mem_cons] at h
          exact h.imp_left fun heq => ⟨1, second, first, problem, rfl, hone, heq⟩
      | unresolved other =>
          simp only [hone, htwo, List.cons_append, List.nil_append, List.mem_cons] at h
          rcases h with heq | heq | hrest
          · exact Or.inl ⟨1, second, first, problem, rfl, hone, heq⟩
          · exact Or.inl ⟨0, first, second, other, rfl, htwo, heq⟩
          · exact Or.inr hrest

/-- The last rule of the phase points to references that lead nowhere. -/
theorem pointsToFailure_of_mem (hlead : location.keys.foldlM step document = .ok (.map tag fields))
    {keys : List String} {diagnostic : Diagnostic}
    (h : diagnostic ∈ (dropShorthandIn document location fields keys).1) :
    pointsToFailure document diagnostic = true := by
  induction keys with
  | nil => cases h
  | cons key rest ih =>
      by_cases hunion : ∃ first second, Fields.items? fields key = some [first, second]
      · obtain ⟨first, second, hitems⟩ := hunion
        rcases mem_dropShorthandIn_cons hitems h with
          ⟨i, member, shorthand, problem, hi, hproblem, rfl⟩ | hrest
        · have hlength : Decimal.maxDigits ≤ 10 ^ Decimal.maxDigits :=
            (Nat.lt_pow_self (by decide)).le
          exact pointsToFailure_member hlead hitems hi
            (Nat.le_trans (by decide : 2 ≤ Decimal.maxDigits) hlength)
            (resolved_of_restatement hproblem)
        · exact ih hrest
      · rw [dropShorthandIn] at h
        split at h
        · rename_i first second hitems
          exact absurd ⟨first, second, hitems⟩ hunion
        · exact ih h

end Schema

/-! ## Reports of the phase -/

namespace Recording

variable {α : Type}

/-- The computation with only those of its diagnostics in the record that pass a test. -/
def only (test : Diagnostic → Bool) (x : Recording α) : Recording α :=
  ExceptT.mk fun log =>
    ((x.run log).1, log ++ ((x.run log).2.drop log.length).filter test)

/-- What the computation adds to the record has a property. -/
def Adds (x : Recording α) (p : Diagnostic → Prop) : Prop :=
  ∀ log, ∃ added, (x.run log).2 = log ++ added ∧ ∀ diagnostic ∈ added, p diagnostic

/-- A computation whose diagnostics pass the test records all of them. -/
theorem only_eq_self {test : Diagnostic → Bool} {x : Recording α}
    (h : Adds x fun diagnostic => test diagnostic = true) : only test x = x := by
  refine ExceptT.ext (funext fun log => ?_)
  obtain ⟨added, hadded, htest⟩ := h log
  change ((x.run log).1, log ++ ((x.run log).2.drop log.length).filter test) = x.run log
  rw [hadded, List.drop_left, List.filter_eq_self.2 htest, ← hadded, Prod.mk.eta]

theorem adds_stopAt_bind {p : Diagnostic → Prop} (fault? : Option Fault) {f : Unit → Recording α}
    (h : Adds (f ()) p) : Adds (stopAt fault? >>= f) p := by
  cases fault? with
  | none => exact h
  | some fault => exact fun log => ⟨[], (List.append_nil log).symm, fun _ hmem => nomatch hmem⟩

theorem run_forM_record (diagnostics log : List Diagnostic) :
    (diagnostics.forM record).run log = (.ok (), log ++ diagnostics) := by
  induction diagnostics generalizing log with
  | nil => rw [List.append_nil]; rfl
  | cons diagnostic rest ih =>
      have hrest := ih (log ++ [diagnostic])
      rw [List.append_assoc, List.singleton_append] at hrest
      exact hrest

theorem adds_forM_record_bind (diagnostics : List Diagnostic) {f : Unit → Recording α}
    (h : ∀ log, ((f ()).run log).2 = log) :
    Adds (diagnostics.forM record >>= f) (· ∈ diagnostics) := by
  intro log
  refine ⟨diagnostics, ?_, fun _ hmem => hmem⟩
  rw [ExceptT.run_bind]
  change (StateT.bind (diagnostics.forM record).run _ log).2 = _
  rw [StateT.bind, run_forM_record]
  exact h _

end Recording

variable [Inhabited τ]

/-- The fields of a schema when the last rule of the phase comes to it. -/
def tidied (options : Options) (fields : Fields τ) : Fields τ :=
  [constsToEnum, dropListCovered, unwrapComposites, closeOpenMap, distinctEnum,
    renameNull options.nullTypeName].foldl (fun fields rule => applyRule rule fields) fields

/-- What is recorded about a schema comes from the last rule, which comes to the schema when the
others have been applied. -/
theorem cleanUpSchema_adds (options : Options) (location : Location) (around : Fields τ → Tree τ)
    (fields : Fields τ) :
    Recording.Adds (cleanUpSchema options location around fields)
      (· ∈
        (dropShorthand (around (tidied options fields)) location (tidied options fields)).1) := by
  unfold cleanUpSchema
  refine Recording.adds_stopAt_bind _ ?_
  refine Recording.adds_stopAt_bind _ ?_
  refine Recording.adds_stopAt_bind _ ?_
  refine Recording.adds_forM_record_bind _ fun log => ?_
  generalize (dropShorthand _ location _).2 = found
  cases found <;> rfl

/-- Recording only what points to a reference that leads nowhere, in the document as it stands when
the diagnostic is recorded, changes nothing about the first phase. -/
theorem cleanUp_pointsToFailures (options : Options) {document : Tree τ} (hjson : document.IsJson)
    (hindex : document.Indexable) :
    cleanUp options document = document.replaceSchemas
      (fun visit around =>
        Recording.only (pointsToFailure (around (.map visit.tag (tidied options visit.fields))))
          (cleanUpSchema options visit.location
            (fun fields => around (.map visit.tag fields)) visit.fields))
      (.one .document) .root id := by
  refine replaceSchemas_congr (fun visit around hseat => ?_) hjson hindex .root id seats_root
  refine (Recording.only_eq_self fun log => ?_).symm
  obtain ⟨added, hadded, hrule⟩ := cleanUpSchema_adds options visit.location
    (fun fields => around (.map visit.tag fields)) visit.fields log
  exact ⟨added, hadded, fun diagnostic hmem =>
    pointsToFailure_of_mem (hseat _) (hrule diagnostic hmem)⟩

/-- A document whose only component is a union of a titled text and a reference to nothing. -/
def lostAlternative : Value :=
  .ofEntries
    [("components", .ofEntries [("schemas", .ofEntries [("A", .ofEntries [("oneOf", .ofList [
    .ofEntries [("title", .ofText "name"), ("type", .ofText "string")],
    .ofEntries [("$ref", .ofText "#/components/schemas/B")]])])])])]

example : ((cleanUp .standard lostAlternative).run []).2 = [⟨"unresolved_reference",
    "Cannot resolve '#/components/schemas/B': key 'B' not found", "#/components/schemas/A/oneOf/1",
    "warning"⟩] := by
  decide +kernel

end ProtoShape
