import Mathlib.Logic.Relation
import ProtoShape.Reshape.Run

/-!
# Steps as sequences of changes

`Leads U x run Q` says that the step `x`, taken from `run`, is a sequence of changes of
the kind `U`, and that `Q` holds of its result and of the run after it.  The rules
below follow the constructs that steps are written with, so that the proof about a
step has the shape of the step.

A `RiskyStep` that stops at a fault still is a sequence of changes; only `Q` is about
the results.
-/

namespace ProtoShape

variable {U : Run → Run → Prop} {run : Run} {α β : Type}

namespace Step

theorem bind_apply (x : Step α) (f : α → Step β) (run : Run) :
    (x >>= f) run = f (x run).1 (x run).2 := rfl

theorem get_bind_apply (f : Run → Step α) (run : Run) : (get >>= f) run = f run run := rfl

/-- The step is a sequence of changes, and its result has the property. -/
def Leads (U : Run → Run → Prop) (x : Step α) (run : Run) (Q : α → Run → Prop) : Prop :=
  Relation.ReflTransGen U run (x run).2 ∧ Q (x run).1 (x run).2

variable {Q : α → Run → Prop}

theorem Leads.mono {x : Step α} {Q' : α → Run → Prop} (h : Leads U x run Q)
    (hQ : ∀ a after, Q a after → Q' a after) : Leads U x run Q' :=
  ⟨h.1, hQ _ _ h.2⟩

theorem leads_pure {a : α} (h : Q a run) : Leads U (pure a) run Q := ⟨.refl, h⟩

theorem leads_get {f : Run → Step β} {Q : β → Run → Prop} (h : Leads U (f run) run Q) :
    Leads U (get >>= f) run Q := h

theorem leads_bind {x : Step α} {f : α → Step β} {Q' : β → Run → Prop} (h : Leads U x run Q)
    (hf : ∀ a after, Relation.ReflTransGen U run after → Q a after → Leads U (f a) after Q') :
    Leads U (x >>= f) run Q' := by
  obtain ⟨hrest, hQ⟩ := hf _ _ h.1 h.2
  exact ⟨h.1.trans hrest, hQ⟩

/-- A single change. -/
theorem leads_modify {f : Run → Run} {Q : Unit → Run → Prop} (h : U run (f run))
    (hQ : Q () (f run)) : Leads U (modify f) run Q := ⟨.single h, hQ⟩

theorem leads_forM {l : List α} {f : α → Step PUnit}
    (h : ∀ a ∈ l, ∀ after, Relation.ReflTransGen U run after →
      Leads U (f a) after fun _ _ => True) : Leads U (l.forM f) run fun _ _ => True := by
  induction l generalizing run with
  | nil => exact leads_pure trivial
  | cons a rest ih =>
      refine leads_bind (h a List.mem_cons_self run .refl) fun _ between hbetween _ => ?_
      exact ih fun b hb after hafter =>
        h b (List.mem_cons_of_mem _ hb) after (hbetween.trans hafter)

end Step

namespace RiskyStep

theorem run_get_bind (f : Run → RiskyStep α) (run : Run) :
    (get >>= f : RiskyStep α).run run = (f run).run run := rfl

/-- A step that has a result is followed by the next one. -/
theorem run_bind_of_ok {x : RiskyStep α} {f : α → RiskyStep β} {a : α} {between : Run}
    (h : x.run run = (.ok a, between)) : (x >>= f).run run = (f a).run between := by
  rw [ExceptT.run_bind]
  change StateT.bind x.run _ run = _
  rw [StateT.bind, h]
  rfl

/-- A step that stops at a fault is not followed by the next one. -/
theorem run_bind_of_error {x : RiskyStep α} {f : α → RiskyStep β} {stopped : Run} {fault : Fault}
    (h : x.run run = (.error fault, stopped)) : (x >>= f).run run = (.error fault, stopped) := by
  rw [ExceptT.run_bind]
  change StateT.bind x.run _ run = _
  rw [StateT.bind, h]
  rfl

/-- A sequence that has a result is a step that has one, and then the next step. -/
theorem exists_of_run_bind {x : RiskyStep α} {f : α → RiskyStep β} {b : β} {after : Run}
    (h : (x >>= f).run run = (.ok b, after)) :
    ∃ a between, x.run run = (.ok a, between) ∧ (f a).run between = (.ok b, after) := by
  rcases hx : x.run run with ⟨fault | a, between⟩
  · rw [ExceptT.run_bind] at h
    change StateT.bind x.run _ run = _ at h
    rw [StateT.bind, hx] at h
    cases h
  · exact ⟨a, between, rfl, (run_bind_of_ok hx).symm.trans h⟩

/-- The step is a sequence of changes, and its result has the property, if there is one. -/
def Leads (U : Run → Run → Prop) (x : RiskyStep α) (run : Run) (Q : α → Run → Prop) : Prop :=
  Step.Leads U x.run run fun result after => ∀ a, result = .ok a → Q a after

variable {Q : α → Run → Prop}

theorem Leads.of_ok {x : RiskyStep α} (h : Leads U x run Q) {a : α} {after : Run}
    (hx : x.run run = (.ok a, after)) : Relation.ReflTransGen U run after ∧ Q a after := by
  obtain ⟨hsteps, hresult⟩ := h
  rw [hx] at hsteps hresult
  exact ⟨hsteps, hresult a rfl⟩

theorem Leads.mono {x : RiskyStep α} {Q' : α → Run → Prop} (h : Leads U x run Q)
    (hQ : ∀ a after, Q a after → Q' a after) : Leads U x run Q' :=
  Step.Leads.mono h fun _ after hresult a ha => hQ a after (hresult a ha)

theorem leads_pure {a : α} (h : Q a run) : Leads U (pure a) run Q :=
  Step.leads_pure fun b hb => by
    cases hb
    exact h

theorem leads_throw {fault : Fault} : Leads U (throw fault : RiskyStep α) run Q :=
  Step.leads_pure fun _ ha => nomatch ha

theorem leads_get {f : Run → RiskyStep β} {Q : β → Run → Prop} (h : Leads U (f run) run Q) :
    Leads U (get >>= f) run Q := h

theorem leads_bind {x : RiskyStep α} {f : α → RiskyStep β} {Q' : β → Run → Prop}
    (h : Leads U x run Q)
    (hf : ∀ a after, Relation.ReflTransGen U run after → Q a after → Leads U (f a) after Q') :
    Leads U (x >>= f) run Q' := by
  unfold Leads
  rw [ExceptT.run_bind]
  refine Step.leads_bind h fun result after hafter hresult => ?_
  cases result with
  | error fault => exact leads_throw
  | ok a => exact hf a after hafter (hresult a rfl)

theorem leads_lift {x : Step α} (h : Step.Leads U x run Q) :
    Leads U (monadLift x : RiskyStep α) run Q :=
  ⟨h.1, fun _ ha => by
    cases ha
    exact h.2⟩

theorem leads_except {x : Except Fault α} (h : ∀ a, x = .ok a → Q a run) :
    Leads U (liftM x : RiskyStep α) run Q :=
  ⟨.refl, h⟩

theorem leads_forM {l : List α} {f : α → RiskyStep PUnit}
    (h : ∀ a ∈ l, ∀ after, Relation.ReflTransGen U run after →
      Leads U (f a) after fun _ _ => True) : Leads U (l.forM f) run fun _ _ => True := by
  induction l generalizing run with
  | nil => exact leads_pure trivial
  | cons a rest ih =>
      refine leads_bind (h a List.mem_cons_self run .refl) fun _ between hbetween _ => ?_
      exact ih fun b hb after hafter =>
        h b (List.mem_cons_of_mem _ hb) after (hbetween.trans hafter)

end RiskyStep

end ProtoShape
