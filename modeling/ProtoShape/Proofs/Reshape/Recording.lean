import ProtoShape.Proofs.Replacement
import ProtoShape.Reshape.CleanUp

/-!
# Outcomes of a recording computation

A computation that records diagnostics ends with a result or stops at a fault.  `Recorded` says
what is left behind in both cases: what was recorded before is still there, a result has a
property, and a fault is one of those that are allowed.  `Recording.allowing` is the `Outcome`
that asks for it, so it is carried through `replaceSchemas` like any other.

The steps that can stop come with what is known where they do not: `allowing_stopAt` and
`allowing_ofText`.
-/

namespace ProtoShape

open Tree

/-- What a computation may leave behind that finds a record. -/
structure Recorded {α : Type} (stops : Fault → Prop) (p : α → Prop) (log : List Diagnostic)
    (left : Except Fault α × List Diagnostic) : Prop where
  log : log <+: left.2
  result : ∀ a, left.1 = .ok a → p a
  fault : ∀ fault, left.1 = .error fault → stops fault

namespace Recorded

variable {α β : Type} {stops : Fault → Prop} {p q : α → Prop} {log log' : List Diagnostic}

theorem of_ok {a : α} (hlog : log <+: log') (hp : p a) : Recorded stops p log (.ok a, log') := by
  refine ⟨hlog, fun b hb => ?_, fun fault hfault => nomatch hfault⟩
  cases hb
  exact hp

theorem of_error {fault : Fault} (hlog : log <+: log') (hstops : stops fault) :
    Recorded stops p log (.error fault, log') := by
  refine ⟨hlog, (fun a ha => nomatch ha), fun other hother => ?_⟩
  cases hother
  exact hstops

/-- Either there is a result with the property, or the computation has stopped. -/
theorem cases {left : Except Fault α × List Diagnostic} (h : Recorded stops p log left) :
    (∃ a log', left = (.ok a, log') ∧ log <+: log' ∧ p a) ∨
      ∃ fault log', left = (.error fault, log') ∧ log <+: log' ∧ stops fault := by
  obtain ⟨fault | a, log'⟩ := left
  · exact Or.inr ⟨fault, log', rfl, h.log, h.fault fault rfl⟩
  · exact Or.inl ⟨a, log', rfl, h.log, h.result a rfl⟩

/-- Where no fault is allowed, there is a result. -/
theorem exists_ok {left : Except Fault α × List Diagnostic}
    (h : Recorded (fun _ => False) p log left) : ∃ a log', left = (.ok a, log') ∧ p a := by
  rcases h.cases with ⟨a, log', heq, -, hp⟩ | ⟨fault, log', -, -, hfalse⟩
  · exact ⟨a, log', heq, hp⟩
  · exact hfalse.elim

end Recorded

namespace Recording

variable {α : Type} {stops : Fault → Prop}

/-- Whatever has been recorded before is kept, a result has the property, and a fault is
allowed. -/
def allowing (stops : Fault → Prop) : Outcome Recording where
  holds x p := ∀ log, Recorded stops p log (x.run log)
  mono h hpq := fun log => ⟨(h log).log, fun a ha => hpq a ((h log).result a ha), (h log).fault⟩
  pure hp := fun _ => .of_ok List.prefix_rfl hp
  bind := by
    intro α β x f p q h hf log
    have hbind : (x >>= f).run log = StateT.bind x.run (ExceptT.bindCont f) log := rfl
    rw [hbind, StateT.bind]
    rcases (h log).cases with ⟨a, between, hrun, hlog, hp⟩ | ⟨fault, stopped, hrun, hlog, hstops⟩
    · rw [hrun]
      have hrest := hf a hp between
      exact ⟨hlog.trans hrest.log, hrest.result, hrest.fault⟩
    · rw [hrun]
      exact .of_error hlog hstops
  map := by
    intro α β x g p q h hpq log
    rw [ExceptT.run_map]
    change Recorded stops q log (StateT.map _ x.run log)
    rw [StateT.map]
    rcases (h log).cases with ⟨a, after, hrun, hlog, hp⟩ | ⟨fault, stopped, hrun, hlog, hstops⟩
    · rw [hrun]
      exact .of_ok hlog (hpq a hp)
    · rw [hrun]
      exact .of_error hlog hstops

theorem allowing_record (diagnostics : List Diagnostic) :
    (allowing stops).holds (diagnostics.forM record) fun _ => True :=
  (allowing stops).forM fun diagnostic _ log =>
    .of_ok (List.prefix_append log [diagnostic]) trivial

theorem allowing_stopAt {fault? : Option Fault} (h : ∀ fault, fault? = some fault → stops fault) :
    (allowing stops).holds (stopAt fault?) fun _ => fault? = none := by
  cases fault? with
  | none => exact (allowing stops).pure rfl
  | some fault => exact fun _ => .of_error List.prefix_rfl (h fault rfl)

theorem allowing_ofText {x : Except Json.Unwritable α}
    (h : ∀ reason, x = .error reason → stops (.unwritable reason)) :
    (allowing stops).holds (ofText x) fun a => x = .ok a := by
  cases x with
  | ok a => exact (allowing stops).pure rfl
  | error reason => exact fun _ => .of_error List.prefix_rfl (h reason rfl)

end Recording

open Recording

/-- Whatever the clean-up of a schema meets, it keeps the record. -/
theorem cleanUpSchema_recorded {τ : Type} [Inhabited τ] (options : Options) (location : Location)
    (around : Fields τ → Tree τ) (fields : Fields τ) :
    (allowing fun _ => True).holds (cleanUpSchema options location around fields)
      fun _ => True := by
  let L := allowing fun _ => True
  unfold cleanUpSchema
  refine L.bind (allowing_stopAt fun _ _ => trivial) fun _ _ => ?_
  refine L.bind (allowing_stopAt fun _ _ => trivial) fun _ _ => ?_
  refine L.bind (allowing_stopAt fun _ _ => trivial) fun _ _ => ?_
  refine L.bind (allowing_record _) fun _ _ => ?_
  exact L.bind (allowing_ofText fun _ _ => trivial) fun _ _ => L.pure trivial

end ProtoShape
