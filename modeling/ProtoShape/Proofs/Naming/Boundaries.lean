import Mathlib
import ProtoShape.Naming
import ProtoShape.Proofs.Substitution

/-!
# Snake case as substitutions

A name gets into snake case by four substitutions, one after the other, and then loses the
underscores at its ends and its capitals (`toList_snakeCase`):

* a separator is put between an acronym and the word behind it (`acronymBoundary`);
* a separator is put between a word and the capital behind it (`wordBoundary`);
* each run of other characters becomes one separator (`foreignRun`);
* each run of separators becomes one separator (`underscoreRun`).

Each pass of `snakeCase` is one of them, though the passes look at every character and a
substitution goes on behind its match.  For the first two this is so because a match ends with a
character that no further match could have begun with.  The third differs from its pass by the
number of underscores that it writes, and the fourth leaves one of them in either case.
-/

namespace ProtoShape.Naming

open Text

variable {c d : Char} {cs rest : List Char}

/-! ## The four patterns -/

/-- The start of a word: a capital and a small letter. -/
def wordStart? : List Char → Option (List Char)
  | d :: e :: _ => if d.isUpper && e.isLower then some [d, e] else none
  | _ => none

/-- An acronym and the start of the word behind it.  The acronym takes as many capitals as it can:
one more is tried first, and the word may start here only if that fails. -/
def acronym? : List Char → Option (List Char × List Char)
  | [] => none
  | c :: rest =>
      if c.isUpper then
        ((acronym? rest).map fun (capitals, start) => (c :: capitals, start)).or
          ((wordStart? rest).map fun start => ([c], start))
      else none

/-- The end of an acronym: both parts stay, with a separator between them. -/
def acronymBoundary : Pattern := fun cs =>
  (acronym? cs).map fun (capitals, start) =>
    ⟨capitals.length + start.length, capitals ++ '_' :: start⟩

/-- A small letter or a digit before a capital: both stay, with a separator between them. -/
def wordBoundary : Pattern
  | c :: d :: _ => if (c.isLower || c.isDigit) && d.isUpper then some ⟨2, [c, '_', d]⟩ else none
  | _ => none

/-- A character that is no letter, no digit and no underscore. -/
def isForeign (c : Char) : Bool := !c.isAlphanum && c ≠ '_'

/-- A run of foreign characters. -/
def foreignRun : Pattern := runOf 1 isForeign ['_']

/-- Two underscores or more. -/
def underscoreRun : Pattern := runOf 2 (· = '_') ['_']

/-! ## Boundaries -/

theorem splitAcronyms_cons (h : ¬∃ d e more, rest = d :: e :: more ∧
    (c.isUpper && d.isUpper && e.isLower) = true) :
    splitAcronyms (c :: rest) = c :: splitAcronyms rest := by
  match rest with
  | [] => rfl
  | [d] => rfl
  | d :: e :: more =>
      rw [splitAcronyms, if_neg fun hbreak => h ⟨d, e, more, rfl, hbreak⟩]

theorem wordStart?_eq_some {start : List Char} (h : wordStart? cs = some start) :
    ∃ d e more, start = [d, e] ∧ cs = d :: e :: more ∧ d.isUpper = true ∧ e.isLower = true := by
  unfold wordStart? at h
  split at h
  · rename_i d e more
    split at h
    · rename_i hstart
      cases h
      exact ⟨d, e, more, rfl, rfl, Bool.and_eq_true_iff.1 hstart⟩
    · cases h
  · cases h

/-- What is found is a run of capitals, and then a capital and a small letter. -/
theorem acronym?_eq_some {capitals start : List Char} (h : acronym? cs = some (capitals, start)) :
    ∃ d e more, start = [d, e] ∧ cs = capitals ++ d :: e :: more ∧ capitals ≠ [] ∧
      (∀ c ∈ capitals, c.isUpper = true) ∧ d.isUpper = true ∧ e.isLower = true := by
  induction cs generalizing capitals start with
  | nil => cases h
  | cons c rest ih =>
      rw [acronym?] at h
      split at h
      · rename_i hc
        rcases Option.or_eq_some_iff.1 h with hlonger | ⟨-, hhere⟩
        · obtain ⟨⟨before, start'⟩, hrest, heq⟩ := Option.map_eq_some_iff.1 hlonger
          cases heq
          obtain ⟨d, e, more, rfl, rfl, -, hcapitals, hstart⟩ := ih hrest
          exact ⟨d, e, more, rfl, rfl, List.cons_ne_nil _ _,
            List.forall_mem_cons.2 ⟨hc, hcapitals⟩, hstart⟩
        · obtain ⟨start', hword, heq⟩ := Option.map_eq_some_iff.1 hhere
          cases heq
          obtain ⟨d, e, more, rfl, rfl, hstart⟩ := wordStart?_eq_some hword
          exact ⟨d, e, more, rfl, rfl, List.cons_ne_nil _ _, by simpa using hc, hstart⟩
      · cases h

/-- A separator is put before the last one of a run of capitals, and none between those before. -/
theorem splitAcronyms_acronym {capitals : List Char} {d e : Char} (hne : capitals ≠ [])
    (hcapitals : ∀ c ∈ capitals, c.isUpper = true) (hd : d.isUpper = true) (he : e.isLower = true) :
    splitAcronyms (capitals ++ d :: e :: rest) =
      capitals ++ '_' :: d :: e :: splitAcronyms rest := by
  have hupper : ¬e.isUpper = true := Char.not_isUpper_of_isLower he
  induction capitals with
  | nil => exact absurd rfl hne
  | cons c more ih =>
      obtain ⟨hc, hmore⟩ := List.forall_mem_cons.1 hcapitals
      cases more with
      | nil =>
          have hend : (c.isUpper && d.isUpper && e.isLower) = true := by simp [hc, hd, he]
          rw [List.singleton_append, splitAcronyms, if_pos hend, splitAcronyms_cons,
            splitAcronyms_cons]
          · rfl
          · rintro ⟨_, _, _, -, hbreak⟩
            simp [hupper] at hbreak
          · rintro ⟨_, _, _, heq, hbreak⟩
            cases heq
            simp [hupper] at hbreak
      | cons c' more =>
          rw [List.cons_append, splitAcronyms_cons, ih (List.cons_ne_nil _ _) hmore]
          · rfl
          · -- The third character is a capital still, be it `d` or one of the run.
            rintro ⟨_, third, _, heq, hbreak⟩
            have hthird : third.isUpper = true := by
              cases more with
              | nil =>
                  cases heq
                  exact hd
              | cons _ _ =>
                  cases heq
                  exact hmore _ (by simp)
            simp only [Bool.and_eq_true] at hbreak
            exact Char.not_isLower_of_isUpper hthird hbreak.2

/-- The first substitution finds every end of an acronym, though a match takes the start of the next
word along. -/
theorem substitute_acronymBoundary (cs : List Char) :
    substitute acronymBoundary cs = splitAcronyms cs := by
  refine substitute_eq rfl (fun c rest found h => ?_) (fun c rest h => ?_) cs
  · obtain ⟨⟨capitals, start⟩, hacronym, rfl⟩ := Option.map_eq_some_iff.1 h
    obtain ⟨d, e, more, rfl, heq, hne, hcapitals, hd, he⟩ := acronym?_eq_some hacronym
    have hrest : rest.drop (capitals.length + 2 - 1) = more := by
      have hdrop : (c :: rest).drop (capitals.length + 2) = more := by
        rw [heq, ← List.drop_drop, List.drop_left]
        rfl
      exact hdrop
    simp only [List.length_cons, List.length_nil, hrest]
    rw [heq, splitAcronyms_acronym hne hcapitals hd he, List.append_assoc]
    rfl
  · refine splitAcronyms_cons ?_
    rintro ⟨d, e, more, rfl, hbreak⟩
    simp only [Bool.and_eq_true] at hbreak
    have hnone := Option.map_eq_none_iff.1 h
    rw [acronym?, if_pos hbreak.1.1, Option.or_eq_none_iff] at hnone
    simp [wordStart?, hbreak] at hnone

theorem isDigit_of_isUpper (h : c.isUpper = true) : c.isDigit = false := by
  simp only [Char.isUpper, Char.isDigit, decide_eq_true_eq, Bool.and_eq_false_iff,
    decide_eq_false_iff_not, UInt32.le_iff_toNat_le] at *
  have hA : 'A'.val.toNat = 65 := rfl
  have h9 : '9'.val.toNat = 57 := rfl
  omega

theorem splitWords_cons (h : ¬∃ d more, rest = d :: more ∧
    ((c.isLower || c.isDigit) && d.isUpper) = true) :
    splitWords (c :: rest) = c :: splitWords rest := by
  cases rest with
  | nil => rfl
  | cons d more => rw [splitWords, if_neg fun hbreak => h ⟨d, more, rfl, hbreak⟩]

/-- The second substitution finds every end of a word, though a match takes the capital behind it
along: no word ends at a capital. -/
theorem substitute_wordBoundary (cs : List Char) : substitute wordBoundary cs = splitWords cs := by
  refine substitute_eq rfl (fun c rest found h => ?_) (fun c rest h => ?_) cs
  · unfold wordBoundary at h
    split at h
    · rename_i heq
      cases heq
      split at h
      · rename_i d more hbreak
        cases h
        obtain ⟨-, hd⟩ := Bool.and_eq_true_iff.1 hbreak
        rw [splitWords, if_pos hbreak, splitWords_cons]
        · rfl
        · rintro ⟨_, _, -, hend⟩
          simp [Char.not_isLower_of_isUpper hd, isDigit_of_isUpper hd] at hend
      · cases h
    · cases h
  · refine splitWords_cons ?_
    rintro ⟨d, more, rfl, hbreak⟩
    simp [wordBoundary, hbreak] at h

/-! ## Separators -/

theorem squeeze_cons (h : c ≠ '_') (cs : List Char) : squeeze (c :: cs) = c :: squeeze cs := by
  rw [squeeze]
  rintro _ heq
  exact absurd heq h

/-- Of a run of underscores the first one stays. -/
theorem squeeze_underscore (cs : List Char) :
    squeeze ('_' :: cs) = '_' :: squeeze (cs.dropWhile (· = '_')) := by
  induction cs with
  | nil => rfl
  | cons c rest ih =>
      by_cases hc : c = '_'
      · subst hc
        rw [squeeze, ih, List.dropWhile_cons_of_pos (by simp)]
      · rw [List.dropWhile_cons_of_neg (by simpa using hc), squeeze]
        rintro _ - heq
        exact absurd (List.cons.inj heq).1 hc

theorem dropWhile_squeeze (cs : List Char) :
    (squeeze cs).dropWhile (· = '_') = squeeze (cs.dropWhile (· = '_')) := by
  induction cs with
  | nil => rfl
  | cons c rest ih =>
      by_cases hc : c = '_'
      · subst hc
        rw [squeeze_underscore, List.dropWhile_cons_of_pos (by simp),
          List.dropWhile_cons_of_pos (by simp), ← ih, List.dropWhile_idempotent]
      · rw [squeeze_cons hc, List.dropWhile_cons_of_neg (by simpa using hc),
          List.dropWhile_cons_of_neg (by simpa using hc), squeeze_cons hc]

/-- Further characters of a run do not count, once there is a separator for the run. -/
theorem squeeze_underscore_congr {cs cs' : List Char}
    (h : (squeeze cs).dropWhile (· = '_') = (squeeze cs').dropWhile (· = '_')) :
    squeeze ('_' :: cs) = squeeze ('_' :: cs') := by
  rw [squeeze_underscore, squeeze_underscore, ← dropWhile_squeeze, ← dropWhile_squeeze, h]

theorem isAlphanum_of_isForeign (h : isForeign c = true) : c.isAlphanum = false := by
  simpa using (Bool.and_eq_true_iff.1 h).1

theorem separate_cons (c : Char) (cs : List Char) :
    separate (c :: cs) = (if c.isAlphanum then c else '_') :: separate cs := rfl

theorem dropWhile_separate_dropWhile (cs : List Char) :
    (separate (cs.dropWhile isForeign)).dropWhile (· = '_') =
      (separate cs).dropWhile (· = '_') := by
  induction cs with
  | nil => rfl
  | cons c rest ih =>
      by_cases hc : isForeign c = true
      · have hword := isAlphanum_of_isForeign hc
        rw [List.dropWhile_cons_of_pos hc, ih, separate_cons, hword,
          List.dropWhile_cons_of_pos (by simp)]
      · rw [List.dropWhile_cons_of_neg hc]

/-- The third substitution writes one underscore for each run of foreign characters.  This makes no
difference where runs of underscores become one. -/
theorem squeeze_substitute_foreignRun (cs : List Char) :
    squeeze (substitute foreignRun cs) = squeeze (separate cs) := by
  induction cs using substitute_induction foreignRun with
  | nil => rfl
  | hit c rest found h ih =>
      obtain ⟨hc, -, hwritten, hrest⟩ := runOf_eq_some h
      have hword := isAlphanum_of_isForeign hc
      rw [hrest] at ih
      rw [hwritten, hrest, separate_cons, hword, List.singleton_append]
      refine squeeze_underscore_congr ?_
      rw [ih, dropWhile_squeeze, dropWhile_separate_dropWhile, dropWhile_squeeze]
  | miss c rest h ih =>
      have hkept : (if c.isAlphanum then c else '_') = c := by
        by_cases hc : isForeign c = true
        · exact absurd (runOf_eq_none h hc) (Nat.not_lt_zero _)
        · by_cases hword : c.isAlphanum = true <;> simp_all [isForeign]
      rw [separate_cons, hkept]
      by_cases hc : c = '_'
      · subst hc
        exact squeeze_underscore_congr (by rw [ih])
      · rw [squeeze_cons hc, squeeze_cons hc, ih]

/-- The fourth substitution leaves one underscore of each run. -/
theorem substitute_underscoreRun (cs : List Char) : substitute underscoreRun cs = squeeze cs := by
  refine substitute_eq rfl (fun c rest found h => ?_) (fun c rest h => ?_) cs
  · obtain ⟨hc, -, hwritten, hrest⟩ := runOf_eq_some h
    obtain rfl := of_decide_eq_true hc
    rw [hwritten, hrest, squeeze_underscore]
    rfl
  · by_cases hc : c = '_'
    · subst hc
      have hnone : rest.takeWhile (· = '_') = [] :=
        List.length_eq_zero_iff.1 (Nat.lt_one_iff.1 (runOf_eq_none h (by simp)))
      have hsame := List.takeWhile_append_dropWhile (p := (· = '_')) (l := rest)
      rw [hnone, List.nil_append] at hsame
      rw [squeeze_underscore, hsame]
    · exact squeeze_cons hc rest

/-- The name in snake case is what the four substitutions leave, without underscores at its ends and
in small letters. -/
theorem toList_snakeCase (name : String) : (snakeCase name).toList =
    (stripUnderscores (substitute underscoreRun (substitute foreignRun
      (substitute wordBoundary (substitute acronymBoundary name.toList))))).map Char.toLower := by
  rw [substitute_underscoreRun, squeeze_substitute_foreignRun, substitute_wordBoundary,
    substitute_acronymBoundary, snakeCase, String.toList_ofList]

end ProtoShape.Naming
