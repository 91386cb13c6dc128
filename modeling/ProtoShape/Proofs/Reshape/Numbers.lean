import ProtoShape.Proofs.Reshape.Recording
import ProtoShape.Proofs.Reshape.Run
import ProtoShape.Proofs.Rules.Uses
import ProtoShape.Reshape.Phases

/-!
# The numbers after the first and the third phase

Both phases replace schemas one after the other.  Where the replacement of a schema uses
no number more often than the schema did, the same holds of the document
(`replaces_uses`), and so the run stays sound.
-/

namespace ProtoShape

open Tree Rules

/-- No number is used more often than before. -/
def FewerUses (fields result : Fields Tag) : Prop :=
  ∀ n, result.total (Node.uses n) ≤ fields.total (Node.uses n)

theorem FewerUses.refl (fields : Fields Tag) : FewerUses fields fields := fun _ => Nat.le_refl _

theorem FewerUses.trans {first second third : Fields Tag} (h : FewerUses first second)
    (h' : FewerUses second third) : FewerUses first third :=
  fun n => Nat.le_trans (h' n) (h n)

/-! ## Replacements -/

variable {m : Type → Type} [Monad m]

/-- A tree and its replacement. -/
abbrev FewerIn : Replacement Tag := fun t _ _ _ result => ∀ n, Node.uses n result ≤ Node.uses n t

theorem itemsReplaced_fewer {role : Role} {site : Site} {index : Nat}
    {items items' : List (Tree Tag)} {around : List (Tree Tag) → Tree Tag}
    (h : ItemsReplaced FewerIn role site items index around items') (n : Nat) :
    (items'.map (Node.uses n)).sum ≤ (items.map (Node.uses n)).sum := by
  induction h with
  | nil => exact Nat.le_refl _
  | cons hitem _ ih => exact Nat.add_le_add (hitem n) ih

theorem entriesReplaced_fewer {place : Place} {site : Site}
    {entries entries' : List (Scalar × Tree Tag)} {around : List (Scalar × Tree Tag) → Tree Tag}
    (h : EntriesReplaced FewerIn place site entries around entries') :
    FewerUses ⟨entries⟩ ⟨entries'⟩ := by
  intro n
  induction h with
  | nil => exact Nat.le_refl _
  | cons hvalue _ ih => exact Nat.add_le_add (hvalue n) ih

theorem slotsReplaced_fewer {inner : Site} {around : Fields Tag → Tree Tag}
    {old fields result : Fields Tag}
    {slots : List Slot} (h : SlotsReplaced FewerIn inner around old slots fields result)
    (hnodup : (slots.map Slot.key).Nodup)
    (hsame : ∀ slot ∈ slots, fields.get? slot.key = old.get? slot.key) :
    FewerUses fields result := by
  induction h with
  | nil => exact .refl _
  | absent _ _ ih =>
      rw [List.map_cons, List.nodup_cons] at hnodup
      exact ih hnodup.2 fun slot hslot => hsame slot (List.mem_cons_of_mem _ hslot)
  | @present head rest fields result value value' hget hvalue _ ih =>
      rw [List.map_cons, List.nodup_cons] at hnodup
      have hhead : FewerUses fields (fields.insert head.key value') := by
        intro n
        have hold := (hsame head List.mem_cons_self).trans hget
        have hinsert := Entries.total_insert_of_get? (Node.uses n) hold value'
        have hle := hvalue n
        omega
      refine hhead.trans (ih hnodup.2 fun slot hslot => ?_)
      rw [Entries.get?_insert, if_neg, hsame slot (List.mem_cons_of_mem _ hslot)]
      intro heq
      exact hnodup.1 (Entries.text_key_eq_iff.1 heq ▸ List.mem_map_of_mem hslot)

/-- Where a schema uses no number more often than before, neither does the document. -/
theorem replaces_uses {L : Outcome m} {f : Visit Tag → (Tree Tag → Tree Tag) → m (Fields Tag)}
    (hf : ∀ visit around, L.holds (f visit around) (FewerUses visit.fields)) :
    Replaces L f (fun _ _ _ => True) FewerIn where
  below _ _ := trivial
  keep _ _ := fun _ => Nat.le_refl _
  list := by
    intro tag items place site around items' _ _ hitems n
    have hsum := itemsReplaced_fewer hitems n
    rw [Node.uses_list, Node.uses_list]
    omega
  entries := by
    intro tag fields place site around entries' _ _ hentries n
    have hsum : Entries.total (Node.uses n) ⟨entries'⟩ ≤ fields.total (Node.uses n) :=
      entriesReplaced_fewer hentries n
    rw [Node.uses_map, Node.uses_map]
    omega
  part := by
    intro tag fields place site around result _ _ _ _ hslots n
    have hle := slotsReplaced_fewer hslots place.role.slots_nodup (fun _ _ => rfl) n
    rw [Node.uses_map, Node.uses_map]
    omega
  schema := by
    intro tag fields place site around fields' hook _ _ _ _ hslots
    have hle := slotsReplaced_fewer hslots place.role.slots_nodup fun _ _ => rfl
    refine L.mono (hf _ around) fun result hresult n => ?_
    have hboth := hle.trans hresult n
    rw [Node.uses_map, Node.uses_map]
    omega

/-! ## The first phase -/

theorem applyRule_fewer {rule : Fields Tag → Option (Fields Tag)} {fields : Fields Tag}
    (h : ∀ result, rule fields = some result → FewerUses fields result) :
    FewerUses fields (applyRule rule fields) := by
  unfold applyRule
  cases hrule : rule fields with
  | none => exact .refl fields
  | some result => exact h result hrule

theorem cleanUpSchema_fewer (options : Options) (location : Location)
    (around : Fields Tag → Tree Tag) (fields : Fields Tag) :
    (Recording.allowing fun _ => True).holds (cleanUpSchema options location around fields)
      (FewerUses fields) := by
  have h₁ : FewerUses fields (applyRule constsToEnum fields) :=
    applyRule_fewer fun _ h _ => constsToEnum_uses_le h
  have h₂ := h₁.trans (applyRule_fewer fun _ h _ => dropListCovered_uses_le h)
  have h₃ := h₂.trans (applyRule_fewer fun _ h _ => unwrapComposites_uses_le h)
  have h₄ := h₃.trans (applyRule_fewer fun _ h _ => closeOpenMap_uses_le h)
  have h₅ := h₄.trans (applyRule_fewer fun _ h _ => distinctEnum_uses_le h)
  have hrename : ∀ fields result : Fields Tag,
      renameNull options.nullTypeName fields = some result →
      FewerUses fields result := fun _ _ h _ => renameNull_uses_le h
  have h₆ := h₅.trans (applyRule_fewer fun result => hrename _ result)
  let L := Recording.allowing fun _ => True
  unfold cleanUpSchema
  refine L.bind (Recording.allowing_stopAt fun _ _ => trivial) fun _ _ => ?_
  refine L.bind (Recording.allowing_stopAt fun _ _ => trivial) fun _ _ => ?_
  refine L.bind (Recording.allowing_stopAt fun _ _ => trivial) fun _ _ => ?_
  refine L.bind (Recording.allowing_record _) fun _ _ => ?_
  refine L.bind (Recording.allowing_ofText fun _ _ => trivial) fun found hfound => L.pure ?_
  exact h₆.trans fun _ => dropShorthandIn_uses_le hfound

theorem cleanUp_uses_le {options : Options} {document result : Node} {log log' : List Diagnostic}
    (h : (cleanUp options document).run log = (.ok result, log')) (n : Nat) :
    Node.uses n result ≤ Node.uses n document := by
  have hrecorded : (Recording.allowing fun _ => True).holds (cleanUp options document)
      fun result => ∀ n, Node.uses n result ≤ Node.uses n document :=
    (replaces_uses fun visit _ => cleanUpSchema_fewer options visit.location _ visit.fields).holds
      document (.one .document) .root id trivial
  exact (hrecorded log).result result (congrArg Prod.fst h) n

/-! ## The third phase -/

/-- Where there is no fault, the result has the property. -/
def exceptOutcome : Outcome (Except Fault) where
  holds x p := ∀ a, x = .ok a → p a
  mono h hpq := fun a hx => hpq a (h a hx)
  pure := by
    intro α a p hp b hb
    cases hb
    exact hp
  bind := by
    intro α β x f p q h hf b hb
    cases x with
    | error fault => cases hb
    | ok a => exact hf a (h a rfl) b hb
  map := by
    intro α β x g p q h hpq b hb
    cases x with
    | error fault => cases hb
    | ok a =>
        cases hb
        exact hpq a (h a rfl)

theorem markGroups_uses_le {options : Options} {document result : Node}
    (h : markGroups options document = .ok result) (n : Nat) :
    Node.uses n result ≤ Node.uses n document := by
  refine (replaces_uses (L := exceptOutcome) fun visit _ => ?_).holds document
    (.one .document) .root id
    trivial result h n
  intro marked hmarked
  split at hmarked
  · cases hmarked
  · cases hmarked
    cases hrule : markExclusive options.flags visit.fields with
    | none => exact .refl _
    | some result => exact fun _ => markExclusive_uses_le hrule

end ProtoShape
