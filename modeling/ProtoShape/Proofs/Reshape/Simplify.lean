import ProtoShape.Proofs.Node
import ProtoShape.Proofs.Reshape.CleanUp
import ProtoShape.Proofs.Reshape.Steps
import ProtoShape.Proofs.Rules.Tags
import ProtoShape.Reshape.Phases

/-!
# The first phase of a run

The first phase cleans the document of a run up and numbers what is new.  Numbering
changes no value, so what `cleanUp_cleaned` says of the document holds of the run:
either all its schemas are in normal form, or the phase has stopped at an integer with
too many digits (`simplify_reaches_normalForm`).
-/

namespace ProtoShape

open Rules

variable {τ : Type}

theorem isSound_mapTags {σ : Type} (f : τ → σ) {long : Prop} {t : Tree τ} :
    (t.mapTags f).IsSound long ↔ t.IsSound long := by
  constructor
  · rintro ⟨hjson, hplain, hdigits⟩
    rw [Tree.anyScalar_mapTags] at hdigits
    exact ⟨(Tree.isJson_mapTags f).1 hjson, (Tree.hasPlainMembers_mapTags f).1 hplain, hdigits⟩
  · rintro ⟨hjson, hplain, hdigits⟩
    refine ⟨(Tree.isJson_mapTags f).2 hjson, (Tree.hasPlainMembers_mapTags f).2 hplain, ?_⟩
    rwa [Tree.anyScalar_mapTags]

/-- Trees with the same value are sound alike. -/
theorem isSound_congr {long : Prop} {t u : Tree τ} (h : t.erase = u.erase) :
    t.IsSound long ↔ u.IsSound long := by
  have heq : t.erase.IsSound long ↔ u.erase.IsSound long := by rw [h]
  exact (isSound_mapTags fun _ => ()).symm.trans (heq.trans (isSound_mapTags fun _ => ()))

/-- In a sound document, the fields of every schema are sound. -/
theorem Tree.IsSound.visit {long : Prop} {document : Tree τ} (h : document.IsSound long)
    {visit : Visit τ} (hvisit : visit ∈ document.documentVisits) :
    visit.fields.IsObject ∧ visit.fields.Each (SoundValue long) := by
  obtain ⟨_, _, _, hreach, -⟩ := Tree.reaches_of_mem_visits hvisit
  exact isSound_map_iff.1 (h.of_mem_subtrees hreach.mem_subtrees)

theorem Tree.mappingFault?_eq_none_iff {t : Tree τ} :
    t.mappingFault? = none ↔ t.fields?.isSome = true := by
  cases t <;> simp [Tree.fields?, Tree.mappingFault?]

/-- The first phase puts the cleaned document in place, or stops where the clean-up stops. -/
theorem Phase.run_simplify {run : Run} (h : run.document.fields?.isSome = true) :
    Phase.simplify.run.run run =
      match (cleanUp run.options run.document).run run.diagnostics with
      | (.ok document, diagnostics) => (.ok (), Run.settle { run with document, diagnostics })
      | (.error fault, diagnostics) => (.error fault, { run with diagnostics }) := by
  unfold Phase.run
  rw [RiskyStep.run_get_bind]
  simp only [Tree.mappingFault?_eq_none_iff.2 h]
  rcases (cleanUp run.options run.document).run run.diagnostics with ⟨fault | document, log⟩
  · rfl
  · rfl

/-- The document of a run after its first phase. -/
structure Simplified (run after : Run) : Prop where
  sound : after.document.IsSound (run.document.anyScalar Scalar.isTooLong = true)
  schemas : after.document.AllSchemas (NormalForm run.options.nullTypeName) (.one .document)
  mapping : after.document.fields?.isSome = true
  options : after.options = run.options

/-- The first phase ends, or it stops at an integer with too many digits. -/
theorem simplify_simplified {run : Run} (hmapping : run.document.fields?.isSome = true)
    (hjson : run.document.IsJson) (hplain : run.document.HasPlainMembers)
    (hne : run.options.nullTypeName ≠ "null") :
    (∃ after, Phase.simplify.run.run run = (.ok (), after) ∧ Simplified run after) ∨
      ∃ stopped, Phase.simplify.run.run run = (.error (.unwritable .tooManyDigits), stopped) ∧
        run.document.anyScalar Scalar.isTooLong = true := by
  have hsound : run.document.IsSound (run.document.anyScalar Scalar.isTooLong = true) :=
    ⟨hjson, hplain, id⟩
  rcases (cleanUp_cleaned hne hsound run.diagnostics).cases with
    ⟨result, log, hrun, -, hclean⟩ | ⟨fault, log, hrun, -, rfl, hlong⟩
  · refine Or.inl ⟨Run.settle { run with document := result, diagnostics := log }, ?_, ?_⟩
    · rw [Phase.run_simplify hmapping, hrun]
    · have herase := (Node.number_numbers result run.next).erase
      refine ⟨(isSound_congr herase).2 hclean.sound, ?_, ?_, rfl⟩
      · exact (Tree.allSchemas_congr (fun _ => normalForm_mapTags) herase).2 hclean.schemas
      · exact (Tree.isSome_fields?_congr herase).trans (hclean.mapping hmapping)
  · refine Or.inr ⟨{ run with diagnostics := log }, ?_, hlong⟩
    rw [Phase.run_simplify hmapping, hrun]

/-- After the first phase, no clean-up changes a schema of the document or meets a fault there.
The phase stops before its end only where an integer of the document has too many digits. -/
theorem simplify_reaches_normalForm (run : Run) (hmapping : run.document.fields?.isSome = true)
    (hjson : run.document.IsJson) (hplain : run.document.HasPlainMembers)
    (hne : run.options.nullTypeName ≠ "null") :
    (∃ after, Phase.simplify.run.run run = (.ok (), after) ∧
      ∀ visit ∈ after.document.documentVisits,
        NormalForm run.options.nullTypeName visit.fields ∧ openMapFault? visit.fields = none) ∨
    ∃ stopped, Phase.simplify.run.run run = (.error (.unwritable .tooManyDigits), stopped) ∧
      run.document.anyScalar Scalar.isTooLong = true := by
  refine (simplify_simplified hmapping hjson hplain hne).imp_left ?_
  rintro ⟨after, hrun, hafter⟩
  refine ⟨after, hrun, fun visit hvisit => ?_⟩
  obtain ⟨hobject, heach⟩ := hafter.sound.visit hvisit
  exact ⟨hafter.schemas .root visit hvisit,
    openMapFault?_eq_none (textKeys_of_sound hobject heach)⟩

/-- A document whose only component enumerates the smallest integer that has too many digits. -/
def longEnum : Value :=
  .ofEntries [("components", .ofEntries [("schemas", .ofEntries [("A", .ofEntries [("enum",
    .ofList [.ofInt (Nat.pow 10 Decimal.maxDigits)])])])])]

/-- The first phase stops at that integer. -/
example : (Phase.simplify.run.run (Run.start .standard (.ofValue longEnum))).1 =
    .error (.unwritable .tooManyDigits) := by decide +kernel

end ProtoShape
