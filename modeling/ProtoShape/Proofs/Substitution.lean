import Mathlib.Data.List.TakeWhile

/-!
# Substitutions in texts

`substitute` goes through a text once and writes every match of a pattern anew.  A match is taken at
the first place where there is one, and the next one is looked for behind its last character, so
matches do not overlap.  What has been written is not looked at again.

The function needs its counter only to recurse on the text.  The rules that proofs use have none:

* `substitute_of_match` and `substitute_of_none` say what happens at the first character;
* `substitute_induction` is the induction along the matches;
* `substitute_eq` shows that a function with these two rules is the substitution.

There are two kinds of patterns here: a text (`literal`) and a run of characters of one class
(`runOf`).
-/

namespace ProtoShape.Text

/-- What a pattern matches at the start of a text: how many characters, and what is written for
them.  No pattern here matches nothing, and the first character is always passed over. -/
structure Match where
  length : Nat
  written : List Char

/-- A pattern says what it matches at the start of a text. -/
abbrev Pattern := List Char → Option Match

/-- `substitute`, with a number of characters still to be passed over. -/
def substituteFrom (pattern : Pattern) : Nat → List Char → List Char
  | _, [] => []
  | passed + 1, _ :: rest => substituteFrom pattern passed rest
  | 0, c :: rest =>
      match pattern (c :: rest) with
      | some found => found.written ++ substituteFrom pattern (found.length - 1) rest
      | none => c :: substituteFrom pattern 0 rest

/-- A text with all matches of a pattern written anew. -/
def substitute (pattern : Pattern) (cs : List Char) : List Char := substituteFrom pattern 0 cs

/-- A text itself as a pattern. -/
def literal (old new : List Char) : Pattern := fun cs =>
  if old.isPrefixOf cs then some ⟨old.length, new⟩ else none

/-- A run of characters of one class, as long as it goes, and at least so many of them. -/
def runOf (least : Nat) (p : Char → Bool) (written : List Char) : Pattern := fun cs =>
  if least ≤ (cs.takeWhile p).length then some ⟨(cs.takeWhile p).length, written⟩ else none

/-- A text with all occurrences of another one replaced. -/
def replaceAll (old new cs : List Char) : List Char := substitute (literal old new) cs

section Substitute

variable {pattern : Pattern} {c : Char} {rest : List Char}

theorem substituteFrom_eq (passed : Nat) (cs : List Char) :
    substituteFrom pattern passed cs = substitute pattern (cs.drop passed) := by
  induction cs generalizing passed with
  | nil => cases passed <;> simp [substitute, substituteFrom]
  | cons c rest ih =>
      cases passed with
      | zero => rfl
      | succ passed =>
          rw [substituteFrom, List.drop_succ_cons]
          exact ih passed

@[simp] theorem substitute_nil : substitute pattern [] = [] := by
  rw [substitute, substituteFrom]

theorem substitute_of_match {found : Match} (h : pattern (c :: rest) = some found) :
    substitute pattern (c :: rest) =
      found.written ++ substitute pattern (rest.drop (found.length - 1)) := by
  rw [substitute, substituteFrom, h, ← substituteFrom_eq]

theorem substitute_of_none (h : pattern (c :: rest) = none) :
    substitute pattern (c :: rest) = c :: substitute pattern rest := by
  rw [substitute, substituteFrom, h, substitute]

/-- A fact about the substituted text is carried from behind each match, and from each character
where there is none, to the text from there on. -/
@[elab_as_elim]
theorem substitute_induction (pattern : Pattern) {motive : List Char → List Char → Prop}
    (nil : motive [] [])
    (hit : ∀ c rest found, pattern (c :: rest) = some found →
      motive (rest.drop (found.length - 1)) (substitute pattern (rest.drop (found.length - 1))) →
      motive (c :: rest) (found.written ++ substitute pattern (rest.drop (found.length - 1))))
    (miss : ∀ c rest, pattern (c :: rest) = none → motive rest (substitute pattern rest) →
      motive (c :: rest) (c :: substitute pattern rest))
    (cs : List Char) : motive cs (substitute pattern cs) := by
  -- The hypothesis is needed behind a match, so it has to hold of every rest of the text.
  have hbehind : ∀ passed, motive (cs.drop passed) (substitute pattern (cs.drop passed)) := by
    induction cs with
    | nil => simpa using nil
    | cons c rest ih =>
        intro passed
        cases passed with
        | succ passed => exact ih passed
        | zero =>
            rw [List.drop_zero]
            cases hpattern : pattern (c :: rest) with
            | none =>
                rw [substitute_of_none hpattern]
                exact miss c rest hpattern (ih 0)
            | some found =>
                rw [substitute_of_match hpattern]
                exact hit c rest found hpattern (ih (found.length - 1))
  exact hbehind 0

/-- A function that obeys the two rules of the substitution is the substitution. -/
theorem substitute_eq {f : List Char → List Char} (nil : f [] = [])
    (hit : ∀ c rest found, pattern (c :: rest) = some found →
      f (c :: rest) = found.written ++ f (rest.drop (found.length - 1)))
    (miss : ∀ c rest, pattern (c :: rest) = none → f (c :: rest) = c :: f rest) (cs : List Char) :
    substitute pattern cs = f cs := by
  induction cs using substitute_induction pattern with
  | nil => exact nil.symm
  | hit c rest found hpattern ih => rw [hit c rest found hpattern, ih]
  | miss c rest hpattern ih => rw [miss c rest hpattern, ih]

end Substitute

/-! ## Texts -/

section Literal

variable {old new cs rest : List Char} {c : Char}

@[simp] theorem replaceAll_nil : replaceAll old new [] = [] := substitute_nil

/-- An occurrence at the front is replaced. -/
theorem replaceAll_append (h : old ≠ []) :
    replaceAll old new (old ++ rest) = new ++ replaceAll old new rest := by
  obtain ⟨c, more, rfl⟩ := List.exists_cons_of_ne_nil h
  have hfound : literal (c :: more) new (c :: (more ++ rest)) = some ⟨(c :: more).length, new⟩ := by
    rw [literal, if_pos (by simp)]
  rw [replaceAll, List.cons_append, substitute_of_match hfound, List.length_cons,
    Nat.add_sub_cancel, List.drop_left, replaceAll]

/-- Where no occurrence begins, the first character stays. -/
theorem replaceAll_cons (h : ¬old <+: c :: rest) :
    replaceAll old new (c :: rest) = c :: replaceAll old new rest := by
  have hnone : literal old new (c :: rest) = none := by
    rw [literal, if_neg (by simpa using h)]
  rw [replaceAll, substitute_of_none hnone, replaceAll]

/-- To replace a character is to write each character by itself. -/
theorem replaceAll_singleton (old : Char) (new cs : List Char) :
    replaceAll [old] new cs = cs.flatMap fun c => if c = old then new else [c] := by
  induction cs with
  | nil => exact replaceAll_nil
  | cons c rest ih =>
      rw [List.flatMap_cons, ← ih]
      by_cases hc : c = old
      · subst hc
        rw [if_pos rfl]
        exact replaceAll_append (List.cons_ne_nil _ _)
      · rw [if_neg hc, List.singleton_append]
        refine replaceAll_cons fun hprefix => ?_
        exact hc (List.cons_prefix_cons.1 hprefix).1.symm

end Literal

/-! ## Runs of characters -/

section Run

variable {least : Nat} {p : Char → Bool} {written rest : List Char} {c : Char}

theorem drop_length_takeWhile (p : Char → Bool) (cs : List Char) :
    cs.drop (cs.takeWhile p).length = cs.dropWhile p :=
  calc cs.drop (cs.takeWhile p).length
    _ = (cs.takeWhile p ++ cs.dropWhile p).drop (cs.takeWhile p).length := by
        rw [List.takeWhile_append_dropWhile]
    _ = cs.dropWhile p := List.drop_left

/-- A run that is found begins with its first character and goes on to the end of the class. -/
theorem runOf_eq_some {found : Match} (h : runOf (least + 1) p written (c :: rest) = some found) :
    p c = true ∧ least ≤ (rest.takeWhile p).length ∧ found.written = written ∧
      rest.drop (found.length - 1) = rest.dropWhile p := by
  unfold runOf at h
  split at h
  · rename_i hlong
    cases h
    by_cases hc : p c = true
    · rw [List.takeWhile_cons_of_pos hc, List.length_cons] at hlong ⊢
      exact ⟨hc, by omega, rfl, drop_length_takeWhile p rest⟩
    · rw [List.takeWhile_cons_of_neg hc, List.length_nil] at hlong
      omega
  · cases h

/-- Where no run is found, those characters of the class are too few. -/
theorem runOf_eq_none (h : runOf (least + 1) p written (c :: rest) = none) (hc : p c = true) :
    (rest.takeWhile p).length < least := by
  unfold runOf at h
  split at h
  · cases h
  · rename_i hlong
    rw [List.takeWhile_cons_of_pos hc, List.length_cons] at hlong
    omega

end Run

end ProtoShape.Text
