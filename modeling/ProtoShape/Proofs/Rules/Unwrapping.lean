import Mathlib.Logic.Relation
import ProtoShape.Proofs.Entries
import ProtoShape.Proofs.Rules.NormalForm

/-!
# Merging single members

`unwrapComposites` is a loop.  `MergesMember` is one round of it as a relation: which keyword is
taken, which member it holds, and what the schema is afterwards.  The loop does not come to the
composites of the schema one by one, since a member may bring in composites of its own and may take
the place of those that were still to come.  What it ends in is given by the order of the merges:

* a step of the loop is a merge (`unwrapStep?_eq_some_iff`), and at most one merge is possible at a
  time;
* merges do not go on for ever, since each one takes away the list around a member
  (`wellFounded_mergesOne`);
* the loop follows the merges to their end (`reaches_unwrapAll`), and whoever follows them to an end
  comes to the same one (`unwrapAll_eq_of_reaches`).

`unwrapComposites_mergesAll` puts this together.  That the member wins (`MergesMember.get?`) needs
distinct keys in the member, and all mappings in the tree keep distinct keys along the merges
(`distinctKeys_of_reaches`).
-/

namespace ProtoShape.Rules

variable {τ : Type} {fields before after : Fields τ} {key : String} {member : Fields τ}

/-! ## One merge -/

/-- A keyword holds exactly one member, and this is a mapping. -/
def HoldsOneMapping (fields : Fields τ) (key : String) (member : Fields τ) : Prop :=
  ∃ tag inner, fields.get? key = some (.list tag [.map inner member])

/-- One merge.  The keyword is the first one of those that combine schemas which holds one member.
It is removed, and the entries of the member are laid over what is left. -/
structure MergesMember (before : Fields τ) (key : String) (member after : Fields τ) : Prop where
  first : ∃ earlier later, combiningKeys = earlier ++ key :: later ∧
    ∀ other ∈ earlier, ∀ inner, ¬HoldsOneMapping before other inner
  holds : HoldsOneMapping before key member
  merged : after = (before.erase key).overlay member

/-- Some member is merged. -/
def MergesOne (before after : Fields τ) : Prop := ∃ key member, MergesMember before key member after

theorem singleMember?_eq_some_iff : singleMember? fields key = some member ↔
    HoldsOneMapping fields key member := by
  constructor
  · exact get?_of_singleMember?
  · intro h
    obtain ⟨tag, inner, hget⟩ := h
    simp only [singleMember?, hget]

theorem singleMember?_eq_none_iff_not_holds :
    singleMember? fields key = none ↔ ∀ member, ¬HoldsOneMapping fields key member := by
  simp only [Option.eq_none_iff_forall_ne_some, ne_eq, singleMember?_eq_some_iff]

/-- A step of the loop is a merge. -/
theorem unwrapStep?_eq_some_iff : unwrapStep? before = some after ↔ MergesOne before after := by
  unfold unwrapStep?
  rw [List.findSome?_eq_some_iff]
  constructor
  · intro h
    obtain ⟨earlier, key, later, hkeys, hkey, hearlier⟩ := h
    obtain ⟨member, hmember, hmerged⟩ := Option.map_eq_some_iff.1 hkey
    have hnone : ∀ other ∈ earlier, ∀ inner, ¬HoldsOneMapping before other inner :=
      fun other hother =>
      singleMember?_eq_none_iff_not_holds.1 (Option.map_eq_none_iff.1 (hearlier other hother))
    exact ⟨key, member, ⟨earlier, later, hkeys, hnone⟩,
      singleMember?_eq_some_iff.1 hmember, hmerged.symm⟩
  · intro h
    obtain ⟨key, member, ⟨earlier, later, hkeys, hnone⟩, hholds, rfl⟩ := h
    refine ⟨earlier, key, later, hkeys, ?_, fun other hother => ?_⟩
    · rw [singleMember?_eq_some_iff.2 hholds, Option.map_some]
    · rw [singleMember?_eq_none_iff_not_holds.2 (hnone other hother), Option.map_none]

/-- The loop stops where no keyword holds exactly one mapping. -/
theorem unwrapStep?_stops_iff : unwrapStep? fields = none ↔
    ∀ key ∈ combiningKeys, ∀ member, ¬HoldsOneMapping fields key member := by
  simp only [unwrapStep?, List.findSome?_eq_none_iff, Option.map_eq_none_iff,
    singleMember?_eq_none_iff_not_holds]

/-- Merges cannot go on for ever: each of them takes the list around the member away. -/
theorem wellFounded_mergesOne : WellFounded fun after before : Fields τ => MergesOne before after :=
  Subrelation.wf (fun h => weight_unwrapStep?_lt (unwrapStep?_eq_some_iff.2 h)) (measure weight).wf

/-- In a merge the member wins. -/
theorem MergesMember.get? (h : MergesMember before key member after)
    (hkeys : member.DistinctKeys) (k : Scalar) :
    after.get? k = (member.get? k).or (if k.key = .text key then none else before.get? k) := by
  rw [h.merged, Entries.get?_overlay _ hkeys, Entries.get?_erase]
  rfl

/-! ## The loop -/

/-- The loop goes from merge to merge. -/
theorem reaches_unwrapAll (fields : Fields τ) :
    Relation.ReflTransGen MergesOne fields (unwrapAll fields) := by
  fun_induction unwrapAll fields with
  | case1 fields _ => exact .refl
  | case2 fields unwrapped hstep ih => exact .head (unwrapStep?_eq_some_iff.1 hstep) ih

/-- Merges do not change what the loop ends in. -/
theorem unwrapAll_eq_of_reaches (h : Relation.ReflTransGen MergesOne before after) :
    unwrapAll before = unwrapAll after := by
  induction h with
  | refl => rfl
  | tail _ hlast ih => rw [ih, unwrapAll_of_some (unwrapStep?_eq_some_iff.2 hlast)]

theorem getD_unwrapComposites (fields : Fields τ) :
    (unwrapComposites fields).getD fields = unwrapAll fields := by
  unfold unwrapComposites
  cases hstep : unwrapStep? fields with
  | none => rw [unwrapAll_of_none hstep, Option.map_none, Option.getD_none]
  | some unwrapped => rw [unwrapAll_of_some hstep, Option.map_some, Option.getD_some]

theorem unwrapComposites_isSome_iff :
    (unwrapComposites fields).isSome = true ↔
    Relation.TransGen MergesOne fields (unwrapAll fields) := by
  rw [unwrapComposites, Option.isSome_map]
  constructor
  · intro h
    obtain ⟨unwrapped, hstep⟩ := Option.isSome_iff_exists.1 h
    rw [unwrapAll_of_some hstep]
    exact .head' (unwrapStep?_eq_some_iff.1 hstep) (reaches_unwrapAll unwrapped)
  · intro h
    obtain ⟨unwrapped, hfirst, -⟩ := Relation.TransGen.head'_iff.1 h
    rw [unwrapStep?_eq_some_iff.2 hfirst, Option.isSome_some]

/-! ## Keys -/

/-- Entries laid over a mapping leave the keys distinct everywhere, whether they replace values or
are new. -/
theorem everywhere_overlay {tag : τ} {other : Fields τ}
    (h : (Tree.map tag fields).Everywhere Entries.DistinctKeys)
    (hother : ∀ entry ∈ other.toList, entry.2.Everywhere Entries.DistinctKeys) :
    (Tree.map tag (fields.overlay other)).Everywhere Entries.DistinctKeys := by
  obtain ⟨entries⟩ := other
  unfold Entries.overlay
  dsimp only at hother ⊢
  induction entries generalizing fields with
  | nil => exact h
  | cons entry rest ih =>
      obtain ⟨hentry, hrest⟩ := List.forall_mem_cons.1 hother
      obtain ⟨hdistinct, hvalues⟩ := (Tree.everywhere_map _ _).1 h
      refine ih
        ((Tree.everywhere_map _ _).2 ⟨hdistinct.insert _ _, fun changed hchanged => ?_⟩) hrest
      rcases Entries.mem_put hchanged with hold | ⟨hvalue, -⟩
      · exact hvalues changed hold
      · exact hvalue ▸ hentry

/-- A merge leaves the keys distinct everywhere, as they are in the member. -/
theorem MergesMember.distinctKeys {tag : τ} (h : MergesMember before key member after)
    (hkeys : (Tree.map tag before).Everywhere Entries.DistinctKeys) :
    member.DistinctKeys ∧ (Tree.map tag after).Everywhere Entries.DistinctKeys := by
  obtain ⟨hbefore, hvalues⟩ := (Tree.everywhere_map _ _).1 hkeys
  obtain ⟨list, inner, hget⟩ := h.holds
  obtain ⟨k, -, hentry⟩ := Entries.mem_of_get? hget
  have hitems := (Tree.everywhere_list _ _).1 (hvalues _ hentry)
  obtain ⟨hmember, hinner⟩ := (Tree.everywhere_map _ _).1 (hitems _ (List.mem_singleton_self _))
  refine ⟨hmember, h.merged ▸ everywhere_overlay ?_ hinner⟩
  refine (Tree.everywhere_map _ _).2 ⟨hbefore.filter _, fun entry hleft => ?_⟩
  exact hvalues entry (List.mem_filter.1 hleft).1

theorem distinctKeys_of_reaches {tag : τ} (h : Relation.ReflTransGen MergesOne before after)
    (hkeys : (Tree.map tag before).Everywhere Entries.DistinctKeys) :
    (Tree.map tag after).Everywhere Entries.DistinctKeys := by
  induction h with
  | refl => exact hkeys
  | tail _ hlast ih =>
      obtain ⟨key, member, hmerge⟩ := hlast
      exact (hmerge.distinctKeys ih).2

/-! ## The result -/

/-- What the loop does with a schema, and what comes out. -/
structure MergesAll (tag : τ) (fields result : Fields τ) : Prop where
  ends : Acc (fun after before : Fields τ => MergesOne before after) fields
  reaches : Relation.ReflTransGen MergesOne fields result
  /-- Wherever the merges come to an end, it is this one. -/
  unique : ∀ last, Relation.ReflTransGen MergesOne fields last → (¬∃ after, MergesOne last after) →
    last = result
  /-- No keyword holds exactly one mapping any more. -/
  done : ∀ key ∈ combiningKeys, ∀ member, ¬HoldsOneMapping result key member
  /-- The loop says that it has changed the schema if there was a merge. -/
  changes : (unwrapComposites fields).isSome = true ↔ Relation.TransGen MergesOne fields result
  again : unwrapComposites result = none
  /-- In each merge the member wins over the rest of the schema. -/
  wins : (Tree.map tag fields).Everywhere Entries.DistinctKeys → ∀ before key member after,
    Relation.ReflTransGen MergesOne fields before → MergesMember before key member after →
      ∀ k : Scalar, after.get? k =
        (member.get? k).or (if k.key = .text key then none else before.get? k)

/-- The loop ends for every schema.  Its result is the one that the merges lead to, each of them for
the first keyword that holds exactly one mapping. -/
theorem unwrapComposites_mergesAll (tag : τ) (fields : Fields τ) :
    MergesAll tag fields ((unwrapComposites fields).getD fields) := by
  rw [getD_unwrapComposites]
  have hstops := unwrapStep?_unwrapAll fields
  refine ⟨wellFounded_mergesOne.apply fields, reaches_unwrapAll fields, ?_,
    unwrapStep?_stops_iff.1 hstops, unwrapComposites_isSome_iff, ?_, ?_⟩
  · intro last hreaches hlast
    have hnone : unwrapStep? last = none := by
      rw [Option.eq_none_iff_forall_ne_some]
      intro after hstep
      exact hlast ⟨after, unwrapStep?_eq_some_iff.1 hstep⟩
    rw [unwrapAll_eq_of_reaches hreaches, unwrapAll_of_none hnone]
  · rw [unwrapComposites, hstops, Option.map_none]
  · intro hkeys before key member after hreaches hmerge
    exact hmerge.get? (hmerge.distinctKeys (distinctKeys_of_reaches hreaches hkeys)).1

/-- A member with a `oneOf` of its own. -/
def overwritingMember : Fields Unit := ⟨[
  ("type", .ofText "object"),
  ("oneOf", .ofList [.ofEntries [
    ("oneOf", .ofList [.ofBool true]),
    ("allOf", .ofList [.ofEntries [("type", .ofText "string"), ("title", .ofText "inner")]])]])]⟩

/-- A schema whose `oneOf` is replaced by that of the member of its `anyOf`. -/
def overwrittenUnion : Fields Unit := ⟨[
  ("title", .ofText "outer"),
  ("oneOf", .ofList [.ofEntries [("format", .ofText "lost")]]),
  ("anyOf", .ofList [.map default overwritingMember])]⟩

/-- The `format` of the replaced `oneOf` is never merged.  The member that takes its place brings in
an `allOf`, and then only a member is left that is no mapping. -/
theorem unwrapComposites_mergesAll_overwrittenUnion :
    (unwrapComposites overwrittenUnion).getD overwrittenUnion =
      ⟨[("title", .ofText "inner"), ("type", .ofText "string"),
        ("oneOf", .ofList [.ofBool true])]⟩ ∧
    (unwrapComposites overwrittenUnion).isSome = true ∧
    ∃ after, MergesMember overwrittenUnion "anyOf" overwritingMember after ∧
      after.get? "oneOf" = overwritingMember.get? "oneOf" ∧ after.get? "anyOf" = none := by
  have hkeys : (Tree.map () overwrittenUnion).Everywhere Entries.DistinctKeys := by decide +kernel
  have hmerge : MergesMember overwrittenUnion "anyOf" overwritingMember
      ((overwrittenUnion.erase "anyOf").overlay overwritingMember) := by
    refine ⟨⟨["allOf"], ["oneOf"], rfl, ?_⟩, ⟨default, default, rfl⟩, rfl⟩
    intro other hother inner hholds
    obtain rfl := List.mem_singleton.1 hother
    obtain ⟨_, _, hget⟩ := hholds
    cases hget
  have hreaches : Relation.TransGen MergesOne overwrittenUnion
      ⟨[("title", .ofText "inner"), ("type", .ofText "string"),
        ("oneOf", .ofList [.ofBool true])]⟩ :=
    .head (unwrapStep?_eq_some_iff.1 rfl) (.head (unwrapStep?_eq_some_iff.1 rfl)
      (.single (unwrapStep?_eq_some_iff.1 rfl)))
  have hstops : ¬∃ after, MergesOne
      ⟨[("title", .ofText "inner"), ("type", .ofText "string"), ("oneOf", .ofList [.ofBool true])]⟩
      (after : Fields Unit) := by
    intro h
    obtain ⟨after, hafter⟩ := h
    cases unwrapStep?_eq_some_iff.2 hafter
  have hall := unwrapComposites_mergesAll () overwrittenUnion
  have hlast := hall.unique _ hreaches.to_reflTransGen hstops
  refine ⟨hlast.symm, ?_, _, hmerge, ?_, ?_⟩
  · rw [hall.changes, ← hlast]
    exact hreaches
  · rw [hall.wins hkeys _ _ _ _ .refl hmerge]
    rfl
  · rw [hall.wins hkeys _ _ _ _ .refl hmerge]
    rfl

end ProtoShape.Rules
