import ProtoShape.Proofs.Reshape.Declining

/-!
# What has been recorded makes no difference

Diagnostics are written and not read.  A step is `Blind` if it does the same whatever has been
recorded before, and records the same after it.  There is one lemma for each construct that steps
are written with, and then each step of the second phase follows its own shape.

The results are about the walk (`RiskyStep.reshapeMaps_blind`) and about the rules of all phases
(`Rule.step_blind`): a rule that declines still declines when more has been recorded
(`Rule.declines_of_unchanged`).
-/

namespace ProtoShape

open Rules

variable {α β : Type}

/-- The run with more diagnostics that have been recorded before all others. -/
def Run.logged (log : List Diagnostic) (run : Run) : Run :=
  { run with diagnostics := log ++ run.diagnostics }

/-- A replacement does the same whatever has been recorded. -/
theorem Run.modifyNode_logged (log : List Diagnostic) (run : Run) (n : Nat) (f : Node → Node) :
    (run.logged log).modifyNode n f = (run.modifyNode n f).logged log := rfl

namespace Step

/-- What has been recorded before makes no difference to the step. -/
def Blind (x : Step α) : Prop := ∀ run log, x (run.logged log) = ((x run).1, (x run).2.logged log)

theorem blind_pure (a : α) : Blind (pure a) := fun _ _ => rfl

theorem blind_bind {x : Step α} {f : α → Step β} (hx : Blind x) (hf : ∀ a, Blind (f a)) :
    Blind (x >>= f) := by
  intro run log
  rw [bind_apply, hx]
  exact hf _ _ log

/-- A step that looks at the run, but not at what has been recorded. -/
theorem blind_get {f : Run → Step β} (hsame : ∀ run log, f (run.logged log) = f run)
    (hf : ∀ run, Blind (f run)) : Blind (get >>= f) := by
  intro run log
  change f (run.logged log) (run.logged log) = _
  rw [hsame]
  exact hf run run log

theorem blind_modify {f : Run → Run} (h : ∀ run log, f (run.logged log) = (f run).logged log) :
    Blind (modify f) :=
  fun run log => congrArg (Prod.mk ()) (h run log)

theorem blind_forM {l : List α} {f : α → Step PUnit} (h : ∀ a, Blind (f a)) : Blind (l.forM f) := by
  induction l with
  | nil => exact blind_pure _
  | cons a rest ih => exact blind_bind (h a) fun _ => ih

theorem blind_report (diagnostic : Diagnostic) : Blind (report diagnostic) :=
  blind_modify fun run log => by
    simp only [Run.logged, List.append_assoc]

theorem blind_fields? (n : Nat) : Blind (fields? n) := fun _ _ => rfl

theorem blind_modifyFields (n : Nat) (f : Fields Tag → Fields Tag) : Blind (modifyFields n f) :=
  blind_modify fun run log => run.modifyNode_logged log n _

theorem blind_modifyItems (n : Nat) (f : List Node → List Node) : Blind (modifyItems n f) :=
  blind_modify fun run log => run.modifyNode_logged log n _

theorem blind_apply (rule : Fields Tag → Option (Fields Tag)) (n : Nat) : Blind (apply rule n) := by
  unfold apply
  refine blind_bind (blind_fields? n) fun found => ?_
  cases found.bind rule with
  | some result => exact blind_bind (blind_modifyFields n _) fun _ => blind_pure true
  | none => exact blind_pure false

theorem blind_entryOrEmpty (n : Nat) (key : String) : Blind (entryOrEmpty n key) := by
  unfold entryOrEmpty
  refine blind_bind (blind_fields? n) fun found => ?_
  cases found.bind (·.get? key) with
  | some value => exact blind_pure value
  | none =>
      exact blind_bind (blind_modifyFields n _) fun _ =>
        blind_bind (blind_fields? n) fun _ => blind_pure _

theorem blind_giveKeyProperty (map : Nat) (present : Fields Tag) (location : Location) :
    Blind (giveKeyProperty map present location) := by
  unfold giveKeyProperty
  refine blind_get (fun _ _ => rfl) fun run => ?_
  simp only
  split
  · exact blind_report _
  · exact blind_modifyFields map _

/-- Giving a schema the key of a map passes the request on to members with less fuel. -/
theorem blind_giveKeyWithin (fuel n : Nat) (location : Location) :
    Blind (giveKeyWithin fuel n location) := by
  have hmark : ∀ target, Blind (markCarrier target) := fun _ => blind_modify fun _ _ => rfl
  induction fuel generalizing n location with
  | zero => exact blind_pure none
  | succ fuel ih =>
      unfold giveKeyWithin
      refine blind_get (fun _ _ => rfl) fun run => ?_
      split
      · exact blind_pure none
      split
      · exact blind_bind (blind_report _) fun _ => blind_pure none
      · split
        · exact blind_pure none
        split
        · exact blind_bind (hmark _) fun _ => blind_bind (blind_modifyItems _ _)
            fun _ => blind_pure none
        · exact blind_bind (hmark _) fun _ => blind_bind (blind_giveKeyProperty _ _ _)
            fun _ => blind_pure none
        · refine blind_bind (hmark _) fun _ => blind_bind (blind_forM fun entry => ?_)
            fun _ => blind_pure none
          obtain ⟨member, index⟩ := entry
          simp only
          cases member.tag with
          | none => exact blind_pure _
          | some m =>
              refine blind_bind (ih m _) fun wrap => ?_
              cases wrap with
              | some key => exact blind_modifyItems _ _
              | none => exact blind_pure _
        · exact blind_pure _
        · exact blind_pure none
      · exact blind_pure none

theorem blind_giveKey (n : Nat) (location : Location) : Blind (giveKey n location) :=
  blind_get (fun _ _ => rfl) fun _ => blind_giveKeyWithin _ n location

theorem blind_inlineSingleMap (n : Nat) (additional : Node) (location : Location) :
    Blind (inlineSingleMap n additional location) := by
  unfold inlineSingleMap
  refine blind_get (fun _ _ => rfl) fun run => ?_
  cases additional.tag with
  | none => exact blind_modifyFields n _
  | some target =>
      simp only
      split
      · exact blind_bind (blind_giveKey target _) fun _ => blind_modifyFields n _
      · exact blind_modifyFields n _

end Step

namespace RiskyStep

/-- What has been recorded before makes no difference to the step, also where it stops
at a fault. -/
def Blind (x : RiskyStep α) : Prop := Step.Blind x.run

theorem blind_pure (a : α) : Blind (pure a) := Step.blind_pure _

theorem blind_throw (fault : Fault) : Blind (throw fault : RiskyStep α) := Step.blind_pure _

theorem blind_lift {x : Step α} (h : Step.Blind x) : Blind (liftM x : RiskyStep α) := by
  intro run log
  change (Except.ok (x (run.logged log)).1, (x (run.logged log)).2) = _
  rw [h]
  rfl

theorem blind_except (x : Except Fault α) : Blind (liftM x : RiskyStep α) := Step.blind_pure x

theorem blind_bind {x : RiskyStep α} {f : α → RiskyStep β} (hx : Blind x) (hf : ∀ a, Blind (f a)) :
    Blind (x >>= f) := by
  unfold Blind
  rw [ExceptT.run_bind]
  refine Step.blind_bind hx fun result => ?_
  cases result with
  | error fault => exact Step.blind_pure _
  | ok a => exact hf a

theorem blind_get {f : Run → RiskyStep β} (hsame : ∀ run log, f (run.logged log) = f run)
    (hf : ∀ run, Blind (f run)) : Blind (get >>= f) := by
  intro run log
  rw [run_get_bind, run_get_bind, hsame]
  exact hf run run log

theorem blind_forM {l : List α} {f : α → RiskyStep PUnit} (h : ∀ a, Blind (f a)) :
    Blind (l.forM f) := by
  induction l with
  | nil => exact blind_pure _
  | cons a rest ih => exact blind_bind (h a) fun _ => ih

theorem blind_schemas : Blind schemas := by
  unfold schemas
  refine blind_get (fun _ _ => rfl) fun run => ?_
  split
  · refine blind_bind (blind_lift (Step.blind_entryOrEmpty _ _)) fun components => ?_
    split
    · exact blind_lift (Step.blind_entryOrEmpty _ _)
    · exact blind_throw _
  · exact blind_throw _

theorem blind_addComponent (schemas : Node) (name : String) (component : Node) :
    Blind (addComponent schemas name component) := by
  unfold addComponent
  split
  · exact blind_lift (Step.blind_modifyFields _ _)
  · exact blind_throw _
  · exact blind_throw _

theorem blind_componentFor (target : Identity) (ref : String) (keySchema : Option Node)
    (location : Location) :
    Blind (componentFor target ref keySchema location) := by
  unfold componentFor
  refine blind_get (fun _ _ => rfl) fun run => ?_
  split
  · exact blind_pure _
  · refine blind_bind blind_schemas fun schemas => blind_bind (blind_except _) fun taken => ?_
    split
    · exact blind_bind (blind_lift (Step.blind_report _)) fun _ => blind_pure _
    · refine blind_bind (blind_addComponent schemas _ _) fun _ => ?_
      exact blind_bind (blind_lift (Step.blind_modify fun _ _ => rfl)) fun _ => blind_pure _

theorem blind_referSingleMap (context : Option String) (location : Location) (n : Nat) :
    Blind (referSingleMap context location n) := by
  unfold referSingleMap
  refine blind_get (fun _ _ => rfl) fun run => ?_
  split
  · exact blind_pure _
  split
  · exact blind_pure _
  split
  · exact blind_pure _
  split
  · exact blind_pure _
  split
  · exact blind_bind (blind_lift (Step.blind_report _)) fun _ => blind_pure _
  split
  · exact blind_bind (blind_lift (Step.blind_inlineSingleMap _ _ _)) fun _ => blind_pure _
  · refine blind_bind (blind_componentFor _ _ _ _) fun found => ?_
    cases found with
    | none => exact blind_pure _
    | some name => exact blind_bind (blind_lift (Step.blind_modifyFields _ _)) fun _ => blind_pure _

theorem blind_reshapeSchema (context : Option String) (location : Location) (n : Nat) :
    Blind (reshapeSchema context location n) :=
  blind_bind (blind_referSingleMap context location n) fun _ =>
    blind_bind (blind_lift (Step.blind_apply _ n)) fun _ =>
      blind_bind (blind_lift (Step.blind_apply _ n)) fun _ => blind_pure _

theorem blind_walk {visit : Option String → Location → Nat → RiskyStep Unit}
    (hvisit : ∀ name location n, Blind (visit name location n)) (fuel : Nat)
    (place : Place) (site : Site) (tag : Tag) : Blind (walk visit fuel place site tag) := by
  induction fuel generalizing place site tag with
  | zero => exact blind_pure _
  | succ fuel ih =>
      cases tag with
      | none => exact blind_pure _
      | some n =>
          unfold walk
          refine blind_get (fun _ _ => rfl) fun run => ?_
          split
          · exact blind_forM fun _ => ih _ _ _
          · exact blind_forM fun _ => ih _ _ _
          · split
            · refine blind_bind (blind_forM fun slot => ?_) fun _ => ?_
              · refine blind_get (fun _ _ => rfl) fun run => ?_
                split
                · exact ih _ _ _
                · exact blind_pure _
              · split
                · exact hvisit _ _ _
                · exact blind_pure _
            · exact blind_pure _
          · exact blind_pure _

/-- The second phase does the same whatever has been recorded before. -/
theorem reshapeMaps_blind : Blind reshapeMaps :=
  blind_get (fun _ _ => rfl) fun _ => blind_walk blind_reshapeSchema _ _ _ _

theorem blind_fieldsOf (n : Nat) : Blind (fieldsOf n) := by
  unfold fieldsOf
  refine blind_get (fun _ _ => rfl) fun run => ?_
  split
  · exact blind_pure _
  · exact blind_throw _

theorem blind_edit (program : Edit Tag Bool) (n : Nat) : Blind (edit program n) :=
  blind_bind (blind_fieldsOf n) fun _ =>
    blind_bind (blind_lift (Step.blind_modifyFields n _)) fun _ => blind_except _

theorem blind_dropShorthandAt (location : Location) (n : Nat) :
    Blind (dropShorthandAt location n) := by
  unfold dropShorthandAt
  refine blind_get (fun _ _ => rfl) fun run => blind_bind (blind_fieldsOf n) fun fields => ?_
  refine blind_bind (blind_lift (Step.blind_forM Step.blind_report)) fun _ => ?_
  split
  · exact blind_throw _
  · exact blind_pure _
  · exact blind_bind (blind_lift (Step.blind_modifyFields n _)) fun _ => blind_pure _

end RiskyStep

/-! ## The rules of all phases -/

/-- A rule does the same whatever has been recorded before. -/
theorem Rule.step_blind (rule : Rule) (n : Nat) : RiskyStep.Blind (rule.step n) := by
  cases rule with
  | dropShorthand location => exact RiskyStep.blind_dropShorthandAt location n
  | referSingleMap context location =>
      exact RiskyStep.blind_bind (RiskyStep.blind_fieldsOf n) fun _ =>
        RiskyStep.blind_referSingleMap context location n
  | _ =>
      unfold Rule.step
      exact RiskyStep.blind_edit _ n

/-- A step that is blind has the same result after diagnostics have been added. -/
theorem RiskyStep.Blind.result_eq {x : RiskyStep α} (h : Blind x) {run after : Run}
    (hafter : run.Unchanged after) :
    (x.run after).1 = (x.run run).1 := by
  obtain ⟨reported, rfl⟩ := hafter
  -- Both runs are the run without a record, with one put before it.
  have hempty : ∀ log, (x.run { run with diagnostics := log }).1 =
    (x.run { run with diagnostics := [] }).1 := by
    intro log
    have hlogged : x.run { run with diagnostics := log ++ [] } = _ :=
      h { run with diagnostics := [] } log
    rw [List.append_nil] at hlogged
    rw [hlogged]
  exact (hempty _).trans (hempty run.diagnostics).symm

/-- A rule that declines still declines when more has been recorded. -/
theorem Rule.declines_of_unchanged {run after : Run} (h : run.Unchanged after) {rule : Rule}
    {n : Nat} (hdeclines : ((rule.step n).run run).1 = .ok false) :
    ((rule.step n).run after).1 = .ok false := by
  rwa [(rule.step_blind n).result_eq h]

end ProtoShape
