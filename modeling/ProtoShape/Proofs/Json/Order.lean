import ProtoShape.Json.Order

/-!
# The keys of an object have an order

Texts can always be compared, so sorting the entries of an object does not fail
(`sortEntries_of_text`), and it only changes their order.
-/

namespace ProtoShape.Json

variable {α : Type}

/-- All keys are texts. -/
abbrev TextKeys (entries : List (Scalar × α)) : Prop := ∀ entry ∈ entries, ∃ s, entry.1 = .text s

theorem keyBefore_text (s t : String) : keyBefore (.text s) (.text t) = .ok (decide (s < t)) := rfl

theorem runLength_of_text (descending : Bool) (previous : String) {entries : List (Scalar × α)}
    (h : TextKeys entries) : ∃ n, runLength descending (.text previous) entries = .ok n := by
  induction entries generalizing previous with
  | nil => exact ⟨0, rfl⟩
  | cons entry rest ih =>
      obtain ⟨key, value⟩ := entry
      obtain ⟨s, hs⟩ := h (key, value) (by simp)
      simp only at hs
      subst hs
      obtain ⟨n, hn⟩ := ih s fun entry hmem => h entry (List.mem_cons_of_mem _ hmem)
      rw [runLength, keyBefore_text]
      by_cases hdir : decide (s < previous) = descending
      · exact ⟨n + 1, by simp only [bind, Except.bind, if_pos hdir, hn, pure, Except.pure]⟩
      · exact ⟨0, by simp only [bind, Except.bind, if_neg hdir, pure, Except.pure]⟩

theorem bisect_of_text {sorted : List (Scalar × α)} (h : TextKeys sorted) (key : String)
    (fuel low high : Nat) : ∃ n, bisect sorted (.text key) fuel low high = .ok n := by
  induction fuel generalizing low high with
  | zero => exact ⟨low, rfl⟩
  | succ fuel ih =>
      rw [bisect]
      split
      · simp only
        split
        · exact ⟨low, rfl⟩
        · rename_i other value hget
          obtain ⟨s, hs⟩ := h (other, value) (List.mem_of_getElem? hget)
          simp only at hs
          subst hs
          rw [keyBefore_text]
          simp only [bind, Except.bind]
          split
          · exact ih _ _
          · exact ih _ _
      · exact ⟨low, rfl⟩

theorem insertSorted_of_text {sorted entries : List (Scalar × α)} (hsorted : TextKeys sorted)
    (h : TextKeys entries) :
    ∃ result, insertSorted sorted entries = .ok result ∧ result.Perm (sorted ++ entries) := by
  induction entries generalizing sorted with
  | nil => exact ⟨sorted, rfl, by rw [List.append_nil]⟩
  | cons entry rest ih =>
      obtain ⟨key, value⟩ := entry
      obtain ⟨s, hs⟩ := h (key, value) (by simp)
      simp only at hs
      subst hs
      obtain ⟨place, hplace⟩ := bisect_of_text hsorted s sorted.length 0 sorted.length
      have hput : (sorted.take place ++ (Scalar.text s, value) :: sorted.drop place).Perm
          ((Scalar.text s, value) :: sorted) := by
        have hmiddle : (sorted.take place ++ (Scalar.text s, value) :: sorted.drop place).Perm
            ((Scalar.text s, value) :: (sorted.take place ++ sorted.drop place)) :=
          List.perm_middle
        rwa [List.take_append_drop] at hmiddle
      have hnew : TextKeys (sorted.take place ++ (Scalar.text s, value) :: sorted.drop place) := by
        intro entry hentry
        rcases List.mem_cons.1 (hput.mem_iff.1 hentry) with rfl | hold
        · exact ⟨s, rfl⟩
        · exact hsorted entry hold
      obtain ⟨result, hresult, hperm⟩ :=
        ih hnew fun entry hentry => h entry (List.mem_cons_of_mem _ hentry)
      refine ⟨result, ?_, hperm.trans ((hput.append_right rest).trans List.perm_middle.symm)⟩
      rw [insertSorted, hplace]
      exact hresult

/-- Entries with text keys can be sorted, and sorting only changes their order. -/
theorem sortEntries_of_text {entries : List (Scalar × α)} (h : TextKeys entries) :
    ∃ result, sortEntries entries = .ok result ∧ result.Perm entries := by
  match entries, h with
  | [], _ => exact ⟨[], rfl, .rfl⟩
  | [entry], _ => exact ⟨[entry], rfl, .rfl⟩
  | (first, v) :: (second, w) :: rest, h =>
      obtain ⟨s, hs⟩ := h (first, v) (by simp)
      obtain ⟨t, ht⟩ := h (second, w) (by simp)
      simp only at hs ht
      subst hs ht
      have hrest : TextKeys rest := fun entry hmem => h entry (by simp [hmem])
      obtain ⟨n, hn⟩ := runLength_of_text (decide (t < s)) t hrest
      generalize hall : (Scalar.text s, v) :: (Scalar.text t, w) :: rest = entries at h ⊢
      have hrun : (if decide (t < s) = true then (entries.take (n + 2)).reverse
          else entries.take (n + 2)).Perm (entries.take (n + 2)) := by
        split
        · exact List.reverse_perm _
        · exact .rfl
      have htake : TextKeys (entries.take (n + 2)) :=
        fun entry hmem => h entry (List.mem_of_mem_take hmem)
      have hdrop : TextKeys (entries.drop (n + 2)) :=
        fun entry hmem => h entry (List.mem_of_mem_drop hmem)
      obtain ⟨result, hresult, hperm⟩ := insertSorted_of_text
        (fun entry hmem => htake entry (hrun.mem_iff.1 hmem)) hdrop
      refine ⟨result, ?_, hperm.trans ?_⟩
      · rw [← hall]
        simp only [sortEntries, keyBefore_text, bind, Except.bind, hn]
        rw [hall]
        exact hresult
      · exact (hrun.append_right _).trans (by rw [List.take_append_drop])

end ProtoShape.Json
