import ProtoShape.Proofs.Reshape.Reports

/-!
# What a phase leaves in the record

No phase takes back what has been recorded, also where it stops at a fault
(`Phase.run_records`).  For the second phase this is `records_of_reshapes`, the third one
records nothing, and the first one is a computation that only appends
(`cleanUpSchema_recorded`), schema by schema.
-/

namespace ProtoShape

open Tree Rules Relation

variable {τ : Type} [Inhabited τ]

/-- The first phase only adds to the record. -/
theorem cleanUp_keepsLog (options : Options) (document : Tree τ) (log : List Diagnostic) :
    log <+: ((cleanUp options document).run log).2 := by
  have hreplaces : Replaces (Recording.allowing fun _ => True)
      (fun (visit : Visit τ) around => cleanUpSchema options visit.location
        (fun fields => around (.map visit.tag fields)) visit.fields)
      (fun _ _ _ => True) (fun _ _ _ _ _ => True) := by
    refine ⟨fun _ _ => trivial, fun _ _ => trivial, fun _ _ _ => trivial, fun _ _ _ => trivial,
      fun _ _ _ _ _ => trivial, ?_⟩
    intro tag fields place site around fields' hook _ _ _ _ _
    exact cleanUpSchema_recorded options _ _ _
  exact (hreplaces.holds document (.one .document) .root id trivial log).log

/-- Every phase only adds to the record, also where it stops at a fault. -/
theorem Phase.run_records (phase : Phase) {run : Run} (h : run.Sound) :
    Records run (phase.run.run run).2 := by
  cases hfault : run.document.mappingFault? with
  | some fault =>
      rw [phase.run_not_mapping hfault]
      exact .of_eq rfl
  | none =>
      cases phase with
      | simplify =>
          have hlog := cleanUp_keepsLog run.options run.document run.diagnostics
          rw [Phase.run_simplify (Tree.mappingFault?_eq_none_iff.1 hfault)]
          rcases hclean : (cleanUp run.options run.document).run run.diagnostics with
            ⟨fault | document, log⟩
          · rw [hclean] at hlog
            exact hlog
          · rw [hclean] at hlog
            exact hlog
      | restructure =>
          rw [Phase.run_restructure hfault]
          exact records_of_reshapes (reshapeMaps_reshapes h)
      | annotate =>
          rw [Phase.run_annotate hfault]
          cases markGroups run.options run.document with
          | error fault => exact .of_eq rfl
          | ok document => exact .of_eq rfl

end ProtoShape
