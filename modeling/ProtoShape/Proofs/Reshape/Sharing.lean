import ProtoShape.Proofs.Reshape.Maps
import ProtoShape.Proofs.Reshape.Numbers
import ProtoShape.Proofs.Reshape.Simplify

/-!
# No node stands at two places

Rules move subtrees, copy schemas and patch schemas from afar, and they do so by number.
A node that stood at two places would have one number at both.  Every phase keeps a run
sound (`Phase.run_sound`), with or without a fault, and in a sound run a number stands at
one path.
-/

namespace ProtoShape

open Rules

/-- The phase stops at once where the document is no mapping. -/
theorem Phase.run_not_mapping {run : Run} {fault : Fault} (phase : Phase)
    (h : run.document.mappingFault? = some fault) : phase.run.run run = (.error fault, run) := by
  unfold Phase.run
  rw [RiskyStep.run_get_bind, h]
  rfl

theorem Phase.run_restructure {run : Run} (h : run.document.mappingFault? = none) :
    Phase.restructure.run.run run = RiskyStep.reshapeMaps.run run := by
  unfold Phase.run
  rw [RiskyStep.run_get_bind, h]

/-- The third phase puts the marked document in place, or stops where the marking stops. -/
theorem Phase.run_annotate {run : Run} (h : run.document.mappingFault? = none) :
    Phase.annotate.run.run run =
      match markGroups run.options run.document with
      | .ok document => (.ok (), Run.settle { run with document })
      | .error fault => (.error fault, run) := by
  unfold Phase.run
  rw [RiskyStep.run_get_bind, h]
  simp only
  cases markGroups run.options run.document <;> rfl

section Ends

variable {run after : Run}

/-- A phase that ends was over a mapping. -/
theorem Phase.mapping_of_ok {phase : Phase} (hrun : phase.run.run run = (.ok (), after)) :
    run.document.mappingFault? = none := by
  by_contra hfault
  obtain ⟨fault, hfault⟩ := Option.ne_none_iff_exists'.1 hfault
  rw [phase.run_not_mapping hfault] at hrun
  cases hrun

theorem Phase.simplify_of_ok (hrun : Phase.simplify.run.run run = (.ok (), after)) :
    ∃ document diagnostics, (cleanUp run.options run.document).run run.diagnostics =
      (.ok document, diagnostics) ∧
      after = Run.settle { run with document, diagnostics } := by
  rw [Phase.run_simplify (Tree.mappingFault?_eq_none_iff.1 (Phase.mapping_of_ok hrun))] at hrun
  rcases hclean : (cleanUp run.options run.document).run run.diagnostics with ⟨fault | result, log⟩
  · rw [hclean] at hrun
    cases hrun
  · rw [hclean] at hrun
    cases hrun
    exact ⟨result, log, rfl, rfl⟩

theorem Phase.restructure_of_ok (hrun : Phase.restructure.run.run run = (.ok (), after)) :
    RiskyStep.reshapeMaps.run run = (.ok (), after) :=
  Phase.run_restructure (Phase.mapping_of_ok hrun) ▸ hrun

theorem Phase.annotate_of_ok (hrun : Phase.annotate.run.run run = (.ok (), after)) :
    ∃ document, markGroups run.options run.document = .ok document ∧
      after = Run.settle { run with document } := by
  rw [Phase.run_annotate (Phase.mapping_of_ok hrun)] at hrun
  cases hmark : markGroups run.options run.document with
  | error fault =>
      rw [hmark] at hrun
      cases hrun
  | ok document =>
      rw [hmark] at hrun
      cases hrun
      exact ⟨document, rfl, rfl⟩

end Ends

/-- A document that uses no number more often than the one before it keeps a run sound. -/
theorem Run.Sound.settle {run : Run} (h : run.Sound) {document : Node}
    (hle : ∀ n, Node.uses n document ≤ Node.uses n run.document) (diagnostics : List Diagnostic) :
    (Run.settle { run with document, diagnostics }).Sound := by
  have huses : ∀ n, ({ run with document, diagnostics } : Run).uses n ≤ run.uses n :=
    fun n => Nat.add_le_add_right (hle n) _
  exact Run.settle_sound ⟨fun n => Nat.le_trans (huses n) (h.once n),
    fun n hn => Nat.le_zero.1 (h.below n hn ▸ huses n)⟩

/-- Every phase keeps a run sound, also where it stops at a fault. -/
theorem Phase.run_sound (phase : Phase) {run : Run} (h : run.Sound) :
    (phase.run.run run).2.Sound := by
  cases hfault : run.document.mappingFault? with
  | some fault =>
      rw [phase.run_not_mapping hfault]
      exact h
  | none =>
      cases phase with
      | simplify =>
          rw [Phase.run_simplify (Tree.mappingFault?_eq_none_iff.1 hfault)]
          rcases hclean : (cleanUp run.options run.document).run run.diagnostics with
            ⟨fault | document, log⟩
          · exact h.congr rfl rfl rfl
          · exact h.settle (cleanUp_uses_le hclean) log
      | restructure =>
          rw [Phase.run_restructure hfault]
          exact Updates.sound (RiskyStep.reshapeMaps_leads guides_sound fun _ _ => h).1 h
      | annotate =>
          rw [Phase.run_annotate hfault]
          cases hmark : markGroups run.options run.document with
          | error fault => exact h
          | ok document => exact h.settle (markGroups_uses_le hmark) run.diagnostics

theorem phases_sound (phases : List Phase) {run : Run} (h : run.Sound) :
    ((phases.forM Phase.run).run run).2.Sound := by
  have hphases : RiskyStep.Leads (fun run after => run.Sound → after.Sound)
      (phases.forM Phase.run) run fun _ _ => True :=
    RiskyStep.leads_forM fun phase _ between _ =>
      ⟨.single fun hsound => phase.run_sound hsound, fun _ _ => trivial⟩
  obtain ⟨hchanges, -⟩ := hphases
  revert hchanges
  generalize ((phases.forM Phase.run).run run).2 = after
  intro hchanges
  induction hchanges with
  | refl => exact h
  | tail _ hlast ih => exact hlast ih

theorem Phase.sound_of_run {phase : Phase} {run after : Run} (h : run.Sound)
    {result : Except Fault Unit} (hrun : phase.run.run run = (result, after)) : after.Sound := by
  have hsound := phase.run_sound h
  rwa [hrun] at hsound

/-- A reshaping that ends has gone through all three phases. -/
theorem allPhases_run_ok {run after : Run} (h : allPhases.run run = (.ok (), after)) :
    ∃ simplified restructured, Phase.simplify.run.run run = (.ok (), simplified) ∧
      Phase.restructure.run.run simplified = (.ok (), restructured) ∧
      Phase.annotate.run.run restructured = (.ok (), after) := by
  obtain ⟨_, simplified, hsimplify, h⟩ := RiskyStep.exists_of_run_bind h
  obtain ⟨_, restructured, hrestructure, h⟩ := RiskyStep.exists_of_run_bind h
  obtain ⟨_, last, hannotate, h⟩ := RiskyStep.exists_of_run_bind h
  cases h
  exact ⟨simplified, restructured, hsimplify, hrestructure, hannotate⟩

/-- Nodes that are the same node stand at the same path. -/
def Unshared (document : Node) : Prop :=
  ∀ path other u v, document.at? path = some u → document.at? other = some v → u.tag = v.tag →
    path = other

theorem Run.Sound.unshared {run : Run} (h : run.Sound) : Unshared run.document :=
  fun _ _ _ _ hu hv htag => Tree.path_unique (List.nodup_append.1 h.nodup).1 hu hv htag

/-- After any phases over a tree, and so after a reshaping, the document is a tree. -/
theorem phases_unshared {τ : Type} (options : Options) (value : Tree τ) :
    (∀ phases : List Phase,
      Unshared ((phases.forM Phase.run).run (Run.start options (.ofValue value))).2.document) ∧
    ∀ reshaped, reshape options (.ofValue value) = .ok reshaped → Unshared reshaped.document := by
  have hphases : ∀ phases : List Phase,
      ((phases.forM Phase.run).run (Run.start options (.ofValue value))).2.Sound :=
    fun phases => phases_sound phases (Run.start_sound options value)
  refine ⟨fun phases => (hphases phases).unshared, fun reshaped hreshaped => ?_⟩
  unfold reshape at hreshaped
  split at hreshaped
  · rcases hrun : allPhases.run (Run.start options (.ofValue value)) with ⟨fault | done, run⟩
    · rw [hrun] at hreshaped
      cases hreshaped
    · rw [hrun] at hreshaped
      cases hreshaped
      have hall := hphases Phase.all
      change (allPhases.run (Run.start options (.ofValue value))).2.Sound at hall
      rw [hrun] at hall
      exact hall.unshared
  · cases hreshaped

/-- A document with a single map of component type, which gives way to a generated
component. -/
def singleMap : Value :=
  .ofEntries [("components", .ofEntries [("schemas", .ofEntries [
    ("Leaf", .ofEntries [("type", .ofText "object")]),
    ("Tree", .ofEntries [("type", .ofText "object"), ("minProperties", .ofInt 1),
      ("maxProperties", .ofInt 1),
      ("additionalProperties", .ofEntries [("$ref", .ofText "#/components/schemas/Leaf")])])])])]

/-- The generated component is shared with nothing else. -/
theorem phases_unshared_singleMap :
    ∃ reshaped, reshape .standard (.ofValue singleMap) = .ok reshaped ∧
    Unshared reshaped.document := by
  have hok : (reshape .standard (.ofValue singleMap)).toOption.isSome = true := by decide +kernel
  cases hresult : reshape .standard (.ofValue singleMap) with
  | ok reshaped => exact ⟨reshaped, rfl, (phases_unshared .standard singleMap).2 reshaped hresult⟩
  | error problem =>
      rw [hresult] at hok
      cases hok

end ProtoShape
