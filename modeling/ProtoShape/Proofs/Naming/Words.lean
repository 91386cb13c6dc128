import ProtoShape.Proofs.Naming.Boundaries

/-!
# The words of a name

`words` says which words a name has, without looking at how `snakeCase` goes about it.  A name is
looked at place by place: each character with all that follows it in the name.  The letters and
digits of ASCII are taken together as long as they stand next to each other and the name is not cut
between them (`isCut`).

* `words_cons` says what one more character in front does to the words; all else about words is by
  induction with it.
* `flatten_words` and `isAlphanum_of_mem_words` say that words hold the letters and digits and
  nothing else.
* `splitWords_splitAcronyms` says that the first two passes find all cuts, and `separated_markCuts`
  that the others write the words behind them.

From these follows that a name in snake case is its words in small letters, with single underscores
between them (`snakeCase_writesWords`).
-/

namespace ProtoShape.Naming

open Text

variable {c d : Char} {cs rest : List Char}

/-! ## Words -/

/-- Whether what is left of a name is cut behind its first character: between a small letter or a
digit and a capital, and between two capitals if a small letter follows. -/
def isCut : List Char → Bool
  | c :: d :: more =>
      (c.isLower || c.isDigit) && d.isUpper || c.isUpper && d.isUpper && more.head?.any Char.isLower
  | _ => false

/-- Whether what is left of a name begins with a letter or a digit. -/
def startsInWord (cs : List Char) : Bool := cs.head?.any Char.isAlphanum

/-- The words of a name.  Each character is looked at with what follows it in the name.  Letters and
digits that stand next to each other are in one word, unless the name is cut between them. -/
def words (name : List Char) : List (List Char) :=
  ((name.tails.filter startsInWord).splitBy fun here next => here.tail == next && !isCut here).map
    (·.filterMap List.head?)

example : words "HTTPRule2Go_x é".toList =
    ["HTTP".toList, "Rule2".toList, "Go".toList, "x".toList] := by
  decide +kernel

/-- An element that is related to the next one goes to the front of its run. -/
theorem splitBy_cons_of_rel {α : Type} {r : α → α → Bool} {a b : α} (l : List α)
    (h : r a b = true) :
    (a :: b :: l).splitBy r = ((b :: l).splitBy r).modifyHead (a :: ·) := by
  cases hsplit : (b :: l).splitBy r with
  | nil => exact absurd (List.splitBy_eq_nil.1 hsplit) (List.cons_ne_nil b l)
  | cons run others =>
      obtain ⟨hflatten, hnil, hchain, hborders⟩ := List.splitBy_eq_iff.1 hsplit
      cases run with
      | nil => exact absurd List.mem_cons_self hnil
      | cons b' run =>
          obtain ⟨rfl, hl⟩ := List.cons.inj hflatten
          rw [List.modifyHead_cons, List.splitBy_eq_iff]
          refine ⟨by rw [hflatten]; rfl, ?_, ?_, ?_⟩
          · simpa using hnil
          · rw [List.forall_mem_cons] at hchain ⊢
            exact ⟨hchain.1.cons_cons h, hchain.2⟩
          · cases others with
            | nil => exact .singleton _
            | cons next others =>
                rw [List.isChain_cons_cons] at hborders ⊢
                exact ⟨by simpa using hborders.1, hborders.2⟩

theorem words_cons_of_not (h : c.isAlphanum = false) : words (c :: rest) = words rest := by
  unfold words
  rw [List.tails, List.filter_cons_of_neg (by simp [startsInWord, h])]

theorem words_cons_of_joined (h : c.isAlphanum = true) (hnext : startsInWord rest = true)
    (hcut : isCut (c :: rest) = false) : words (c :: rest) = (words rest).modifyHead (c :: ·) := by
  cases rest with
  | nil => cases hnext
  | cons d more =>
      have hstarts : startsInWord (c :: d :: more) = true := h
      unfold words
      rw [List.tails, List.filter_cons_of_pos hstarts, List.tails, List.filter_cons_of_pos hnext,
        splitBy_cons_of_rel _ (by simp [hcut])]
      cases List.splitBy _ _ <;> rfl

theorem words_cons_of_end (h : c.isAlphanum = true)
    (hend : startsInWord rest = false ∨ isCut (c :: rest) = true) :
    words (c :: rest) = [c] :: words rest := by
  have hstarts : startsInWord (c :: rest) = true := h
  unfold words
  rw [List.tails, List.filter_cons_of_pos hstarts, ← List.singleton_append, List.splitBy_append]
  · rfl
  · rintro here hhere next hnext
    obtain rfl : c :: rest = here := by simpa using hhere
    rcases hend with hrest | hcut
    · have hstarts : startsInWord next = true := (List.mem_filter.1 (List.mem_of_mem_head? hnext)).2
      have hne : rest ≠ next := by
        rintro rfl
        simp [hrest] at hstarts
      simp [hne]
    · simp [hcut]

theorem words_ne_nil (h : startsInWord cs = true) : words cs ≠ [] := by
  unfold words
  rw [Ne, List.map_eq_nil_iff, List.splitBy_eq_nil]
  cases cs with
  | nil => cases h
  | cons c rest =>
      rw [List.tails, List.filter_cons_of_pos h]
      exact List.cons_ne_nil _ _

/-- A character is left out, or goes to the front of the next word, or is a word of its
own so far. -/
theorem words_cons (c : Char) (rest : List Char) :
    (c.isAlphanum = false ∧ words (c :: rest) = words rest) ∨
    (c.isAlphanum = true ∧ startsInWord rest = true ∧ isCut (c :: rest) = false ∧
      ∃ word others, words rest = word :: others ∧ words (c :: rest) = (c :: word) :: others) ∨
    (c.isAlphanum = true ∧ (startsInWord rest = false ∨ isCut (c :: rest) = true) ∧
      words (c :: rest) = [c] :: words rest) := by
  by_cases hc : c.isAlphanum = true
  · by_cases hjoined : startsInWord rest = true ∧ isCut (c :: rest) = false
    · obtain ⟨hnext, hcut⟩ := hjoined
      obtain ⟨word, others, hrest⟩ := List.exists_cons_of_ne_nil (words_ne_nil hnext)
      have hwords := words_cons_of_joined hc hnext hcut
      rw [hrest] at hwords
      exact .inr (.inl ⟨hc, hnext, hcut, word, others, hrest, hwords⟩)
    · have hend : startsInWord rest = false ∨ isCut (c :: rest) = true := by
        simpa [or_iff_not_imp_left] using hjoined
      exact .inr (.inr ⟨hc, hend, words_cons_of_end hc hend⟩)
  · have hnot := Bool.eq_false_iff.2 hc
    exact .inl ⟨hnot, words_cons_of_not hnot⟩

/-- The words hold the letters and digits of the name, in their order. -/
theorem flatten_words (cs : List Char) : (words cs).flatten = cs.filter Char.isAlphanum := by
  induction cs with
  | nil => rfl
  | cons c rest ih =>
      rcases words_cons c rest with ⟨hc, hwords⟩ | ⟨hc, -, -, word, others, hrest, hwords⟩ |
        ⟨hc, -, hwords⟩
      · rw [hwords, ih, List.filter_cons_of_neg (by simp [hc])]
      · rw [hrest, List.flatten_cons] at ih
        rw [hwords, List.flatten_cons, List.cons_append, ih, List.filter_cons_of_pos hc]
      · rw [hwords, List.flatten_cons, ih, List.filter_cons_of_pos hc, List.singleton_append]

/-- No word is empty. -/
theorem ne_nil_of_mem_words {word : List Char} (h : word ∈ words cs) : word ≠ [] := by
  induction cs generalizing word with
  | nil => cases h
  | cons c rest ih =>
      rcases words_cons c rest with ⟨-, hwords⟩ | ⟨-, -, -, next, others, hrest, hwords⟩ |
        ⟨-, -, hwords⟩
      · exact ih (hwords ▸ h)
      · rw [hwords] at h
        rcases List.mem_cons.1 h with rfl | hother
        · exact List.cons_ne_nil _ _
        · exact ih (hrest ▸ List.mem_cons_of_mem _ hother)
      · rw [hwords] at h
        rcases List.mem_cons.1 h with rfl | hother
        · exact List.cons_ne_nil _ _
        · exact ih hother

/-- A word holds letters and digits only. -/
theorem isAlphanum_of_mem_words {word : List Char} (h : word ∈ words cs) (hc : c ∈ word) :
    c.isAlphanum = true := by
  have hmem : c ∈ (words cs).flatten := List.mem_flatten.2 ⟨word, h, hc⟩
  rw [flatten_words] at hmem
  exact (List.mem_filter.1 hmem).2

/-! ## The passes write the words -/

/-- The name with an underscore wherever it is cut. -/
def markCuts : List Char → List Char
  | [] => []
  | c :: rest => if isCut (c :: rest) then c :: '_' :: markCuts rest else c :: markCuts rest

theorem exists_splitAcronyms_cons (c : Char) (rest : List Char) :
    ∃ more, splitAcronyms (c :: rest) = c :: more := by
  match rest with
  | [] => exact ⟨[], rfl⟩
  | [d] => exact ⟨[d], rfl⟩
  | d :: e :: more =>
      rw [splitAcronyms]
      split <;> exact ⟨_, rfl⟩

/-- The first two passes find the cuts of the name. -/
theorem splitWords_splitAcronyms (cs : List Char) :
    splitWords (splitAcronyms cs) = markCuts cs := by
  induction cs with
  | nil => rfl
  | cons c rest ih =>
      cases rest with
      | nil => rfl
      | cons d more =>
          obtain ⟨behind, hbehind⟩ := exists_splitAcronyms_cons d more
          by_cases hacronym : (c.isUpper && d.isUpper && more.head?.any Char.isLower) = true
          · have hcut : isCut (c :: d :: more) = true := by simp [isCut, hacronym]
            cases more with
            | nil => simp at hacronym
            | cons e more =>
                have hend : (c.isUpper && d.isUpper && e.isLower) = true := hacronym
                rw [markCuts, if_pos hcut, ← ih, splitAcronyms, if_pos hend, splitWords_cons,
                  splitWords_cons]
                · rintro ⟨_, _, -, hend⟩
                  exact absurd hend (by simp)
                · rintro ⟨_, _, heq, hend⟩
                  cases heq
                  simp at hend
          · have hsplit : splitAcronyms (c :: d :: more) = c :: splitAcronyms (d :: more) := by
              refine splitAcronyms_cons ?_
              rintro ⟨_, _, _, heq, hend⟩
              cases heq
              exact hacronym hend
            by_cases hword : ((c.isLower || c.isDigit) && d.isUpper) = true
            · have hcut : isCut (c :: d :: more) = true := by simp [isCut, hword]
              rw [markCuts, if_pos hcut, ← ih, hsplit, hbehind, splitWords, if_pos hword]
            · have hcut : ¬isCut (c :: d :: more) = true := by
                rw [isCut, Bool.or_eq_true, not_or]
                exact ⟨hword, hacronym⟩
              rw [markCuts, if_neg hcut, ← ih, hsplit, splitWords_cons]
              rintro ⟨_, _, heq, hend⟩
              rw [hbehind] at heq
              cases heq
              exact hword hend

/-- What the last passes make of a text: words with single underscores between them. -/
def separated (cs : List Char) : List Char := stripUnderscores (squeeze (separate cs))

theorem separated_eq (cs : List Char) :
    separated cs = (squeeze ((separate cs).dropWhile (· = '_'))).rdropWhile (· = '_') := by
  rw [separated, stripUnderscores, dropWhile_squeeze]
  rfl

theorem rdropWhile_cons_of_neg {α : Type} {p : α → Bool} {a : α} (h : ¬p a = true) (l : List α) :
    (a :: l).rdropWhile p = a :: l.rdropWhile p := by
  rw [List.rdropWhile, List.rdropWhile, List.reverse_cons, List.dropWhile_append]
  split
  · rename_i hnone
    rw [List.isEmpty_iff.1 hnone, List.dropWhile_cons_of_neg h]
    rfl
  · rw [List.reverse_append]
    rfl

theorem rdropWhile_cons_of_pos {α : Type} {p : α → Bool} {a : α} (h : p a = true) (l : List α) :
    (a :: l).rdropWhile p = if l.rdropWhile p = [] then [] else a :: l.rdropWhile p := by
  rw [List.rdropWhile, List.rdropWhile, List.reverse_cons, List.dropWhile_append]
  by_cases hnone : l.reverse.dropWhile p = []
  · rw [hnone, List.isEmpty_nil, if_pos rfl, List.dropWhile_cons_of_pos h]
    rfl
  · rw [if_neg (by simpa using hnone), if_neg (by simpa using hnone), List.reverse_append]
    rfl

theorem separated_cons_of_not (h : c.isAlphanum = false) (cs : List Char) :
    separated (c :: cs) = separated cs := by
  rw [separated_eq, separated_eq, separate_cons, h, if_neg Bool.false_ne_true,
    List.dropWhile_cons_of_pos (by simp)]

theorem ne_underscore_of_isAlphanum (h : c.isAlphanum = true) : c ≠ '_' := by
  rintro rfl
  exact absurd h (by decide)

theorem separated_cons (h : c.isAlphanum = true) (cs : List Char) :
    separated (c :: cs) = c :: (squeeze (separate cs)).rdropWhile (· = '_') := by
  have hne := ne_underscore_of_isAlphanum h
  rw [separated_eq, separate_cons, h, if_pos rfl, List.dropWhile_cons_of_neg (by simpa using hne),
    squeeze_cons hne, rdropWhile_cons_of_neg (by simpa using hne)]

theorem separated_cons_of_startsInWord (h : c.isAlphanum = true) (hnext : startsInWord cs = true) :
    separated (c :: cs) = c :: separated cs := by
  cases cs with
  | nil => cases hnext
  | cons d more =>
      have hd : d.isAlphanum = true := hnext
      have hne := ne_underscore_of_isAlphanum hd
      rw [separated_cons h, separated_eq, separate_cons, hd, if_pos rfl,
        List.dropWhile_cons_of_neg (by simpa using hne)]

theorem separated_cons_of_not_startsInWord (h : c.isAlphanum = true)
    (hnext : startsInWord cs = false) :
    separated (c :: cs) = c :: if separated cs = [] then [] else '_' :: separated cs := by
  cases cs with
  | nil =>
      rw [separated_cons h]
      rfl
  | cons d more =>
      have hd : d.isAlphanum = false := hnext
      rw [separated_cons h, separated_cons_of_not hd, separate_cons, hd, if_neg Bool.false_ne_true,
        squeeze_underscore, rdropWhile_cons_of_pos (by simp), separated_eq]

theorem startsInWord_markCuts (cs : List Char) : startsInWord (markCuts cs) = startsInWord cs := by
  cases cs with
  | nil => rfl
  | cons c rest =>
      rw [markCuts]
      split <;> rfl

theorem isAlphanum_of_isCut (h : isCut (c :: rest) = true) : c.isAlphanum = true := by
  cases rest with
  | nil => cases h
  | cons d more =>
      simp only [isCut, Bool.or_eq_true, Bool.and_eq_true] at h
      simp only [Char.isAlphanum, Char.isAlpha, Bool.or_eq_true]
      tauto

theorem intercalate_cons {word : List Char} {others : List (List Char)}
    (hothers : ∀ other ∈ others, other ≠ []) :
    ['_'].intercalate (word :: others) =
      word ++ if ['_'].intercalate others = [] then [] else '_' :: ['_'].intercalate others := by
  cases others with
  | nil => simp
  | cons next others =>
      obtain ⟨c, more, rfl⟩ := List.exists_cons_of_ne_nil (hothers next List.mem_cons_self)
      have hne : ['_'].intercalate ((c :: more) :: others) ≠ [] := by
        cases others with
        | nil => simp
        | cons _ _ => rw [List.intercalate_cons_cons]; simp
      rw [List.intercalate_cons_cons, if_neg hne]
      simp

/-- The passes write the words of the name, with an underscore between each two of them. -/
theorem separated_markCuts (cs : List Char) :
    separated (markCuts cs) = ['_'].intercalate (words cs) := by
  induction cs with
  | nil => rfl
  | cons c rest ih =>
      rcases words_cons c rest with ⟨hc, hwords⟩ | ⟨hc, hnext, hcut, word, others, hrest, hwords⟩ |
        ⟨hc, hend, hwords⟩
      · have hcut : ¬isCut (c :: rest) = true :=
          fun hcut => by simp [isAlphanum_of_isCut hcut] at hc
        rw [hwords, ← ih, markCuts, if_neg hcut, separated_cons_of_not hc]
      · have hstarts : startsInWord (markCuts rest) = true := by rw [startsInWord_markCuts, hnext]
        rw [markCuts, hcut, if_neg Bool.false_ne_true, separated_cons_of_startsInWord hc hstarts,
          ih, hwords, hrest]
        cases others with
        | nil => simp
        | cons _ _ => simp [List.intercalate_cons_cons]
      · have hall : ∀ word ∈ words rest, word ≠ [] := fun _ => ne_nil_of_mem_words
        by_cases hcut : isCut (c :: rest) = true
        · rw [markCuts, if_pos hcut, separated_cons_of_not_startsInWord hc rfl,
            separated_cons_of_not (by decide), ih, hwords, intercalate_cons hall,
            List.singleton_append]
        · have hstarts : startsInWord (markCuts rest) = false := by
            rw [startsInWord_markCuts]
            exact hend.resolve_right hcut
          rw [markCuts, if_neg hcut, separated_cons_of_not_startsInWord hc hstarts, ih, hwords,
            intercalate_cons hall, List.singleton_append]

/-! ## Names in snake case -/

/-- A text in snake case: small letters and digits, and underscores, of which no two stand side by
side and none at either end. -/
structure IsSnakeCase (cs : List Char) : Prop where
  plain : ∀ c ∈ cs, c.isLower = true ∨ c.isDigit = true ∨ c = '_'
  single : cs.IsChain fun c d => ¬(c = '_' ∧ d = '_')
  start : cs.head? ≠ some '_'
  stop : cs.getLast? ≠ some '_'

theorem map_intercalate {α β : Type} (f : α → β) (separator : List α) (pieces : List (List α)) :
    (separator.intercalate pieces).map f =
      (separator.map f).intercalate (pieces.map (·.map f)) := by
  cases pieces with
  | nil => rfl
  | cons first others =>
      induction others generalizing first with
      | nil => simp
      | cons next others ih =>
          simp only [List.intercalate_cons_cons, List.map_append, List.map_cons, ih]

/-- A text of small letters and digits alone is in snake case. -/
theorem isSnakeCase_of_plain (h : ∀ c ∈ cs, c.isLower = true ∨ c.isDigit = true) :
    IsSnakeCase cs := by
  have hne : ∀ c ∈ cs, c ≠ '_' := by
    rintro c hc rfl
    simpa using h _ hc
  refine ⟨fun c hc => ?_, ?_, ?_, ?_⟩
  · rcases h c hc with hlower | hdigit
    · exact .inl hlower
    · exact .inr (.inl hdigit)
  · refine List.Pairwise.isChain (List.pairwise_of_forall_mem_list ?_)
    intro c hc d _ hboth
    exact hne c hc hboth.1
  · intro hhead
    exact hne _ (List.mem_of_mem_head? hhead) rfl
  · intro hlast
    exact hne _ (List.mem_of_mem_getLast? hlast) rfl

/-- A word before a text in snake case, with an underscore between them, is in snake case again. -/
theorem IsSnakeCase.append {word : List Char}
    (hword : ∀ c ∈ word, c.isLower = true ∨ c.isDigit = true)
    (hne : word ≠ []) (h : IsSnakeCase cs) (hcs : cs ≠ []) : IsSnakeCase (word ++ '_' :: cs) := by
  have hfirst := isSnakeCase_of_plain hword
  refine ⟨?_, ?_, ?_, ?_⟩
  · intro c hc
    rcases List.mem_append.1 hc with hc | hc
    · exact hfirst.plain c hc
    · rcases List.mem_cons.1 hc with rfl | hc
      · exact .inr (.inr rfl)
      · exact h.plain c hc
  · rw [List.isChain_append]
    refine ⟨hfirst.single, List.isChain_cons.2 ⟨?_, h.single⟩, ?_⟩
    · rintro d hd ⟨-, rfl⟩
      exact h.start hd
    · rintro c hc d - ⟨rfl, -⟩
      exact hfirst.stop hc
  · rw [List.head?_append_of_ne_nil _ hne]
    exact hfirst.start
  · rw [List.getLast?_append_of_ne_nil _ (List.cons_ne_nil _ _), List.getLast?_cons_of_ne_nil hcs]
    exact h.stop

theorem isSnakeCase_intercalate {pieces : List (List Char)}
    (h : ∀ word ∈ pieces, word ≠ [] ∧ ∀ c ∈ word, c.isLower = true ∨ c.isDigit = true) :
    IsSnakeCase (['_'].intercalate pieces) := by
  induction pieces with
  | nil => exact isSnakeCase_of_plain (by simp)
  | cons word others ih =>
      obtain ⟨⟨hne, hword⟩, hothers⟩ := List.forall_mem_cons.1 h
      rw [intercalate_cons fun other hother => (hothers other hother).1]
      split
      · rw [List.append_nil]
        exact isSnakeCase_of_plain hword
      · rename_i hbehind
        exact (ih hothers).append hword hne hbehind

theorem filter_intercalate {pieces : List (List Char)}
    (h : ∀ word ∈ pieces, ∀ c ∈ word, c.isAlphanum = true) :
    (['_'].intercalate pieces).filter Char.isAlphanum = pieces.flatten := by
  have hflatten : pieces.flatten.filter Char.isAlphanum = pieces.flatten := by
    rw [List.filter_eq_self]
    intro c hc
    obtain ⟨word, hword, hin⟩ := List.mem_flatten.1 hc
    exact h word hword c hin
  have hfilter : (['_'].intercalate pieces).filter Char.isAlphanum =
      pieces.flatten.filter Char.isAlphanum := by
    cases pieces with
    | nil => rfl
    | cons first others =>
        clear h hflatten
        induction others generalizing first with
        | nil => simp
        | cons next others ih =>
            rw [List.intercalate_cons_cons, List.filter_append, List.filter_append, ih,
              List.filter_cons_of_neg (by decide), List.filter_nil, List.append_nil,
              ← List.filter_append]
            rfl
  rw [hfilter, hflatten]

theorem plain_toLower (h : c.isAlphanum = true) : c.toLower.isLower = true ∨
    c.toLower.isDigit = true := by
  rcases Bool.or_eq_true_iff.1 h with halpha | hdigit
  · exact .inl (by rw [Char.isLower_toLower_eq_isAlpha, halpha])
  · have hupper : ¬c.isUpper = true := fun hupper => by simp [isDigit_of_isUpper hupper] at hdigit
    exact .inr (by rw [Char.toLower_eq_of_not_isUpper hupper, hdigit])

theorem isAlphanum_of_plain (h : c.isLower = true ∨ c.isDigit = true) : c.isAlphanum = true := by
  rcases h with hlower | hdigit
  · simp [Char.isAlphanum, Char.isAlpha, hlower]
  · simp [Char.isAlphanum, hdigit]

theorem IsSnakeCase.isUpper (h : IsSnakeCase cs) (hc : c ∈ cs) : ¬c.isUpper = true := by
  intro hupper
  rcases h.plain c hc with hlower | hdigit | rfl
  · exact Char.not_isLower_of_isUpper hupper hlower
  · simp [isDigit_of_isUpper hupper] at hdigit
  · simp at hupper

theorem markCuts_eq_self (h : ∀ c ∈ cs, ¬c.isUpper = true) : markCuts cs = cs := by
  induction cs with
  | nil => rfl
  | cons c rest ih =>
      obtain ⟨-, hrest⟩ := List.forall_mem_cons.1 h
      have hcut : ¬isCut (c :: rest) = true := by
        cases rest with
        | nil => simp [isCut]
        | cons d more => simp [isCut, hrest d List.mem_cons_self]
      rw [markCuts, if_neg hcut, ih hrest]

theorem squeeze_eq_self (h : cs.IsChain fun c d => ¬(c = '_' ∧ d = '_')) : squeeze cs = cs := by
  induction cs with
  | nil => rfl
  | cons c rest ih =>
      obtain ⟨hnext, hrest⟩ := List.isChain_cons.1 h
      by_cases hc : c = '_'
      · subst hc
        have hstay : rest.dropWhile (· = '_') = rest := by
          cases rest with
          | nil => rfl
          | cons d more =>
              have hd : d ≠ '_' := fun heq => hnext d rfl ⟨rfl, heq⟩
              exact List.dropWhile_cons_of_neg (by simpa using hd)
        rw [squeeze_underscore, hstay, ih hrest]
      · rw [squeeze_cons hc, ih hrest]

theorem separate_eq_self (h : ∀ c ∈ cs, c.isAlphanum = true ∨ c = '_') : separate cs = cs := by
  refine (List.map_congr_left fun c hc => ?_).trans (List.map_id' cs)
  rcases h c hc with hword | rfl
  · exact if_pos hword
  · rfl

theorem stripUnderscores_eq_self (hstart : cs.head? ≠ some '_') (hstop : cs.getLast? ≠ some '_') :
    stripUnderscores cs = cs := by
  have hleft : cs.dropWhile (· = '_') = cs := by
    cases cs with
    | nil => rfl
    | cons c rest =>
        have hc : c ≠ '_' := by simpa using hstart
        exact List.dropWhile_cons_of_neg (by simpa using hc)
  rw [stripUnderscores, hleft]
  refine List.rdropWhile_eq_self_iff.2 fun hne hlast => hstop ?_
  rw [List.getLast?_eq_getLast_of_ne_nil hne, of_decide_eq_true hlast]

/-- A name in snake case stays as it is. -/
theorem snakeCase_of_isSnakeCase {name : String} (h : IsSnakeCase name.toList) :
    snakeCase name = name := by
  have hlower : name.toList.map Char.toLower = name.toList :=
    (List.map_congr_left fun c hc => Char.toLower_eq_of_not_isUpper (h.isUpper hc)).trans
      (List.map_id' _)
  have hword : ∀ c ∈ name.toList, c.isAlphanum = true ∨ c = '_' := by
    intro c hc
    rcases h.plain c hc with hplain | hplain | hplain
    · exact .inl (isAlphanum_of_plain (.inl hplain))
    · exact .inl (isAlphanum_of_plain (.inr hplain))
    · exact .inr hplain
  rw [snakeCase, splitWords_splitAcronyms, markCuts_eq_self fun c => h.isUpper,
    separate_eq_self hword, squeeze_eq_self h.single, stripUnderscores_eq_self h.start h.stop,
    hlower, String.ofList_toList]

/-- The name in snake case has the words of the name in small letters. -/
theorem toList_snakeCase_eq (name : String) :
    (snakeCase name).toList = ['_'].intercalate ((words name.toList).map (·.map Char.toLower)) := by
  have hmap := map_intercalate Char.toLower ['_'] (words name.toList)
  rw [← separated_markCuts] at hmap
  rw [snakeCase, String.toList_ofList, splitWords_splitAcronyms]
  exact hmap

/-- What a name in snake case is. -/
structure WritesWords (name : String) : Prop where
  /-- It is what four substitutions, one after the other, leave of the name, without underscores at
  its ends and in small letters. -/
  substitutes : (snakeCase name).toList =
    (stripUnderscores (substitute underscoreRun (substitute foreignRun
      (substitute wordBoundary (substitute acronymBoundary name.toList))))).map Char.toLower
  /-- It is the words of the name in small letters, with an underscore between each two of them. -/
  joins : snakeCase name =
    "_".intercalate ((words name.toList).map fun word => String.ofList (word.map Char.toLower))
  plain : IsSnakeCase (snakeCase name).toList
  /-- The letters and digits of the name are all there, in their order. -/
  letters : (snakeCase name).toList.filter Char.isAlphanum =
    (name.toList.filter Char.isAlphanum).map Char.toLower
  idempotent : snakeCase (snakeCase name) = snakeCase name

/-- The four substitutions cut a name into its words, and these are written in small letters with an
underscore between each two of them. -/
theorem snakeCase_writesWords (name : String) : WritesWords name := by
  have hchars := toList_snakeCase_eq name
  have hplain : ∀ word ∈ (words name.toList).map (·.map Char.toLower),
      word ≠ [] ∧ ∀ c ∈ word, c.isLower = true ∨ c.isDigit = true := by
    intro word hword
    obtain ⟨origin, horigin, rfl⟩ := List.mem_map.1 hword
    refine ⟨by simpa using ne_nil_of_mem_words horigin, fun c hc => ?_⟩
    obtain ⟨d, hd, rfl⟩ := List.mem_map.1 hc
    exact plain_toLower (isAlphanum_of_mem_words horigin hd)
  have hsnake : IsSnakeCase (snakeCase name).toList := hchars ▸ isSnakeCase_intercalate hplain
  refine ⟨toList_snakeCase name, ?_, hsnake, ?_, snakeCase_of_isSnakeCase hsnake⟩
  · show snakeCase name = _
    have hletters : (words name.toList).map
        (String.toList ∘ fun word => String.ofList (word.map Char.toLower)) =
        (words name.toList).map (·.map Char.toLower) :=
      List.map_congr_left fun _ _ => String.toList_ofList
    have hseparator : "_".toList = ['_'] := by decide
    rw [← String.toList_inj, String.toList_intercalate, hchars, hseparator, List.map_map, hletters]
  · show (snakeCase name).toList.filter Char.isAlphanum = _
    have hword : ∀ word ∈ (words name.toList).map (·.map Char.toLower), ∀ c ∈ word,
        c.isAlphanum = true :=
      fun word hword c hc => isAlphanum_of_plain ((hplain word hword).2 c hc)
    rw [hchars, filter_intercalate hword, ← List.map_flatten, flatten_words]

end ProtoShape.Naming
