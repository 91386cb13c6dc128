import ProtoShape.Json.Writer
import ProtoShape.Proofs.Json.Order
import ProtoShape.Proofs.Tree

/-!
# When a value has a JSON text

A value with text keys has a JSON text unless an integer in it has too many digits
(`write_stops`).  `Stops long x` says so of one computation: it stops at such an integer if
`long` is true, and gives a result if it is false.  Computations that follow each other stop
where one of them does, so there is one lemma for `bind` and one for a list of results.

A foreign value is written by the styles that take it as a text.  In the style of documents
there must be none.
-/

namespace ProtoShape.Json

variable {α β : Type}

/-- A computation stops at an integer with too many digits, or it gives a result. -/
def Stops (long : Bool) (x : Except Unwritable α) : Prop :=
  if long then x = .error .tooManyDigits else ∃ a, x = .ok a

namespace Stops

variable {long long' : Bool} {x : Except Unwritable α}

theorem pure (a : α) : Stops false (pure a : Except Unwritable α) := ⟨a, rfl⟩

/-- What follows is only come to where there is a result. -/
theorem bind {f : α → Except Unwritable β} (h : Stops long x) (hf : ∀ a, Stops long' (f a)) :
    Stops (long || long') (x >>= f) := by
  cases long with
  | true =>
      obtain rfl : x = .error .tooManyDigits := h
      exact (rfl : (Except.error Unwritable.tooManyDigits >>= f) = _)
  | false =>
      obtain ⟨a, rfl⟩ : ∃ a, x = .ok a := h
      exact hf a

theorem map {f : α → β} (h : Stops long x) : Stops long (x >>= fun a => Pure.pure (f a)) := by
  have hmap : Stops (long || false) (x >>= fun a => Pure.pure (f a)) := h.bind fun a => .pure (f a)
  rwa [Bool.or_false] at hmap

/-- Results one after the other. -/
theorem mapM {f : β → Except Unwritable α} {p : β → Bool} {items : List β}
    (h : ∀ item ∈ items, Stops (p item) (f item)) : Stops (items.any p) (items.mapM f) := by
  induction items with
  | nil => exact .pure []
  | cons item items ih =>
      rw [List.mapM_cons, List.any_cons]
      have hrest := ih fun other hother => h other (List.mem_cons_of_mem item hother)
      exact (h item List.mem_cons_self).bind fun text => hrest.map

theorem toBool_eq (h : Stops long x) : x.toBool = !long := by
  cases long with
  | true =>
      obtain rfl : x = .error .tooManyDigits := h
      rfl
  | false =>
      obtain ⟨a, rfl⟩ : ∃ a, x = .ok a := h
      rfl

/-- Computations in another order.  It only changes which of them is the first one to stop. -/
theorem mapM_perm {γ : Type} {f : γ → Except Unwritable α} {g : β → γ} {p : β → Bool}
    {items : List β} (h : ∀ item ∈ items, Stops (p item) (f (g item))) {ordered : List γ}
    (hperm : ordered.Perm (items.map g)) : Stops (items.any p) (ordered.mapM f) := by
  have hordered : ∀ item ∈ ordered, Stops (!(f item).toBool) (f item) := by
    intro item hitem
    obtain ⟨source, hmem, rfl⟩ := List.mem_map.1 (hperm.mem_iff.1 hitem)
    rw [(h source hmem).toBool_eq, Bool.not_not]
    exact h source hmem
  have hsame : items.any p = items.any ((fun item => !(f item).toBool) ∘ g) := by
    rw [Bool.eq_iff_iff, List.any_eq_true, List.any_eq_true]
    refine exists_congr fun item => and_congr_right fun hmem => ?_
    rw [Function.comp_apply, (h item hmem).toBool_eq, Bool.not_not]
  have hstops := Stops.mapM hordered
  rwa [hperm.any_eq, List.any_map, ← hsame] at hstops

/-- Where an integer has too many digits, there is no result. -/
theorem eq_error (h : Stops true x) : x = .error .tooManyDigits := h

/-- Where none has, there is one. -/
theorem exists_ok (h : Stops false x) : ∃ a, x = .ok a := h

end Stops

variable {τ : Type} {style : Style}

/-- A leaf is written, unless it is foreign or has too many digits. -/
theorem scalarText_stops {s : Scalar} (h : style.foreignAsText = true ∨ s.isForeign = false) :
    Stops s.isTooLong (scalarText style s) := by
  cases s with
  | null => exact .pure _
  | bool b => cases b <;> exact .pure _
  | int i =>
      rw [scalarText]
      cases hlong : (Scalar.int i).isTooLong with
      | true => exact if_pos rfl
      | false => exact ⟨_, if_neg Bool.false_ne_true⟩
  | float x => exact .pure _
  | text s => exact .pure _
  | foreign value =>
      rw [scalarText]
      rcases h with h | h
      · exact ⟨_, if_pos h⟩
      · cases h

theorem writeItems_eq (style : Style) (level : Nat) (items : List (Tree τ)) :
    writeItems style level items = items.mapM (write style level) := by
  induction items with
  | nil => rfl
  | cons item items ih =>
      rw [writeItems, ih, List.mapM_cons]

/-- A member of a mapping, with its key for sorting. -/
def writtenMember (style : Style) (level : Nat) (member : Scalar × Tree τ) :
    Scalar × Except Unwritable String :=
  (member.1, do
    return stringText style.asciiOnly (← keyText style member.1) ++ style.keySeparator ++
      (← write style level member.2))

theorem writeMembers_eq (style : Style) (level : Nat) (members : List (Scalar × Tree τ)) :
    writeMembers style level members = members.map (writtenMember style level) := by
  induction members with
  | nil => rfl
  | cons member members ih =>
      obtain ⟨key, value⟩ := member
      rw [writeMembers, ih]
      rfl

theorem writtenMember_stops {level : Nat} {key : String} {value : Tree τ} {long : Bool}
    (h : Stops long (write style level value)) :
    Stops long (writtenMember style level (.text key, value)).2 :=
  h.map

/-- A value with text keys is written, unless an integer in it has too many digits.  What is
foreign in it must be taken as a text by the style. -/
theorem write_stops (style : Style) (level : Nat) {t : Tree τ} (hkeys : t.HasTextKeys)
    (hforeign : style.foreignAsText = true ∨ t.anyScalar Scalar.isForeign = false) :
    Stops (t.anyScalar Scalar.isTooLong) (write style level t) := by
  induction t using Tree.induction generalizing level with
  | scalar tag s =>
      rw [Tree.anyScalar_scalar] at hforeign ⊢
      rw [write]
      exact scalarText_stops hforeign
  | list tag items ih =>
      rw [Tree.anyScalar_list] at hforeign ⊢
      rw [write, writeItems_eq]
      refine Stops.map (Stops.mapM fun item hitem => ih item hitem (level + 1) ?_ ?_)
      · exact (Tree.everywhere_list tag items).1 hkeys item hitem
      · exact hforeign.imp_right fun h => by simpa using List.any_eq_false.1 h item hitem
  | map tag fields ih =>
      obtain ⟨htexts, hbelow⟩ := (Tree.everywhere_map tag fields).1 hkeys
      rw [Tree.anyScalar_map] at hforeign ⊢
      obtain ⟨members⟩ := fields
      have hmember : ∀ member ∈ members,
          Stops (member.1.isTooLong || member.2.anyScalar Scalar.isTooLong)
            (writtenMember style (level + 1) member).2 := by
        intro member hmem
        obtain ⟨s, hs⟩ := Entries.hasTextKeys_iff.1 htexts member hmem
        obtain ⟨key, value⟩ := member
        obtain rfl : key = .text s := hs
        refine writtenMember_stops (ih _ hmem (level + 1) (hbelow _ hmem) ?_)
        rcases hforeign with h | h
        · exact .inl h
        · exact .inr (Bool.or_eq_false_iff.1 (Bool.eq_false_iff.2 (List.any_eq_false.1 h _ hmem))).2
      rw [write, writeMembers_eq]
      split
      · have hkeys : TextKeys (members.map (writtenMember style (level + 1))) :=
          fun entry hentry => by
          obtain ⟨member, hmem, rfl⟩ := List.mem_map.1 hentry
          exact Entries.hasTextKeys_iff.1 htexts member hmem
        obtain ⟨ordered, hordered, hperm⟩ := sortEntries_of_text hkeys
        rw [hordered]
        exact (Stops.mapM_perm hmember hperm).map
      · exact (Stops.mapM_perm hmember .rfl).map

end ProtoShape.Json
