import ProtoShape.Layout

/-!
# Composites with a single member

An `allOf`, `anyOf` or `oneOf` with one member says what the member says.
`unwrapComposites` puts the entries of the member over those of the schema,
again and again, since a member may bring in further composites.  Every step
removes the list and the member, so the number of nodes below the schema
decreases.
-/

namespace ProtoShape.Rules

variable {τ : Type}

/-- The fields of the single member of a composite. -/
def singleMember? (fields : Fields τ) (key : String) : Option (Fields τ) :=
  match fields.get? key with
  | some (.list _ [.map _ member]) => some member
  | _ => none

/-- One step: the first composite with a single member gives way to it. -/
def unwrapStep? (fields : Fields τ) : Option (Fields τ) :=
  combiningKeys.findSome? fun key =>
    (singleMember? fields key).map fun member => (fields.erase key).overlay member

/-- The number of nodes below a schema. -/
def weight (fields : Fields τ) : Nat := Tree.nodeCountEntries fields.toList

/-- An update adds at most the new value. -/
theorem weight_put_le (l : List (Scalar × Tree τ)) (key : Scalar) (value : Tree τ) :
    Tree.nodeCountEntries (Entries.put l key value) ≤
      Tree.nodeCountEntries l + value.nodeCount := by
  induction l with
  | nil => simp [Entries.put, Tree.nodeCountEntries]
  | cons entry rest ih =>
      obtain ⟨k, v⟩ := entry
      by_cases h : k.key = key.key <;> simp [Entries.put, Tree.nodeCountEntries, h] <;> omega

/-- An overlay adds at most what is laid over. -/
theorem weight_overlay_le (fields other : Fields τ) :
    weight (fields.overlay other) ≤ weight fields + weight other := by
  obtain ⟨l⟩ := other
  simp only [Entries.overlay]
  induction l generalizing fields with
  | nil => simp [weight, Tree.nodeCountEntries]
  | cons entry rest ih =>
      obtain ⟨k, v⟩ := entry
      have hput := weight_put_le fields.toList k v
      have hrest := ih (fields.insert k v)
      simp only [weight, Entries.insert, List.foldl_cons, Tree.nodeCountEntries] at *
      omega

/-- Dropping entries does not add weight. -/
theorem weight_filter_le (l : List (Scalar × Tree τ)) (p : Scalar × Tree τ → Bool) :
    Tree.nodeCountEntries (l.filter p) ≤ Tree.nodeCountEntries l := by
  induction l with
  | nil => simp
  | cons entry rest ih =>
      obtain ⟨k, v⟩ := entry
      by_cases h : p (k, v) <;> simp [h, Tree.nodeCountEntries] <;> omega

/-- Erasing a key takes away at least the value found under it. -/
theorem weight_erase_add_le {fields : Fields τ} {key : Scalar} {value : Tree τ}
    (h : fields.get? key = some value) :
    weight (fields.erase key) + value.nodeCount ≤ weight fields := by
  obtain ⟨l⟩ := fields
  simp only [weight, Entries.erase, Entries.get?] at *
  induction l with
  | nil => simp [Entries.lookup] at h
  | cons entry rest ih =>
      obtain ⟨k, v⟩ := entry
      by_cases hk : k.key = key.key
      · have := weight_filter_le rest fun e => !decide (e.1.key = key.key)
        simp_all [Entries.lookup, Tree.nodeCountEntries]
        omega
      · have := ih (by simpa [Entries.lookup, hk] using h)
        simp_all [Tree.nodeCountEntries]
        omega

/-- A single member stands alone in a list under the key. -/
theorem get?_of_singleMember? {fields : Fields τ} {key : String} {member : Fields τ}
    (h : singleMember? fields key = some member) :
    ∃ tag inner, fields.get? key = some (.list tag [.map inner member]) := by
  unfold singleMember? at h
  split at h
  · rename_i tag inner m hget
    exact ⟨tag, inner, by simpa using (Option.some.inj h) ▸ hget⟩
  · simp at h

/-- Every step makes the schema lighter: the list node around the member is gone. -/
theorem weight_unwrapStep?_lt {fields unwrapped : Fields τ}
    (h : unwrapStep? fields = some unwrapped) : weight unwrapped < weight fields := by
  obtain ⟨key, -, hkey⟩ := List.exists_of_findSome?_eq_some h
  obtain ⟨member, hmember, rfl⟩ := Option.map_eq_some_iff.1 hkey
  obtain ⟨tag, inner, hget⟩ := get?_of_singleMember? hmember
  have herase := weight_erase_add_le hget
  have hoverlay := weight_overlay_le (fields.erase key) member
  obtain ⟨l⟩ := member
  simp only [Tree.nodeCount, Tree.nodeCountItems, weight] at *
  omega

/-- Unwraps composites with a single member until none is left. -/
def unwrapAll (fields : Fields τ) : Fields τ :=
  match _h : unwrapStep? fields with
  | none => fields
  | some unwrapped => unwrapAll unwrapped
termination_by weight fields
decreasing_by exact weight_unwrapStep?_lt (by assumption)

theorem unwrapAll_of_none {fields : Fields τ} (h : unwrapStep? fields = none) :
    unwrapAll fields = fields := by
  rw [unwrapAll]
  split
  · rfl
  · cases h.symm.trans ‹_›

theorem unwrapAll_of_some {fields unwrapped : Fields τ} (h : unwrapStep? fields = some unwrapped) :
    unwrapAll fields = unwrapAll unwrapped := by
  rw [unwrapAll]
  split
  · cases h.symm.trans ‹_›
  · rename_i hstep
    rw [Option.some.inj (h.symm.trans hstep)]

/-- Unwraps all composites with a single member, if there is one. -/
def unwrapComposites (fields : Fields τ) : Option (Fields τ) :=
  (unwrapStep? fields).map unwrapAll

end ProtoShape.Rules
