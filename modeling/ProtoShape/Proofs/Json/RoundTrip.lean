import Mathlib
import ProtoShape.Document
import ProtoShape.Proofs.Json.Tokens
import ProtoShape.Proofs.Json.Writing

/-!
# Values written and read back

The text of a document is read as that document (`read_text`), if no floating point number and no
integer with too many digits is in it.

`ReadsBack` says so of one value at one level of indentation, and `readsBack` proves it of all
values by induction on the tree.  The text of a list or a mapping is its first item and what is
`remaining` behind it: a comma and a line for each further item, and the closing bracket.  The
reader goes the same way, with one call for each item (`itemsFrom_written`, `membersFrom_written`).

* A value is read with any text behind it that `Closes` it, so the facts about items compose.
* Two calls for each character that is left are enough, so the reader always has calls left.
* A member whose key is new comes behind the others, so the order of the keys stays.
* No carriage return is in the text (`return_not_mem_layout`), so it does not matter that a file is
  read with all line ends as line feeds.
-/

namespace ProtoShape

/-- Whether a scalar is a floating point number. -/
def Scalar.isFloat : Scalar → Bool
  | .float _ => true
  | _ => false

theorem Scalar.natAbs_lt_of_isTooLong {i : Int} (h : isTooLong (.int i) = false) :
    i.natAbs < 10 ^ Decimal.maxDigits := by
  rw [isTooLong, decide_eq_false_iff_not, Nat.not_le] at h
  -- The power must not be computed.
  generalize Decimal.maxDigits = count at h ⊢
  exact h

namespace Json

/-! ## Lines -/

/-- The line break and the blanks in front of what stands at a level. -/
def gap (level : Nat) : List Char := '\n' :: List.replicate (2 * level) ' '

/-- What follows an item between brackets: the items behind it and the closing bracket. -/
def remaining (level : Nat) (closing : Char) : List String → List Char → List Char
  | [], rest => gap level ++ closing :: rest
  | item :: items,
  rest => ',' :: (gap (level + 1) ++ (item.toList ++ remaining level closing items rest))

theorem remaining_closes (level : Nat) (closing : Char) (items : List String) (rest : List Char) :
    Closes (remaining level closing items rest) := by
  cases items with
  | nil => exact ⟨'\n', _, rfl, Or.inr rfl⟩
  | cons item items => exact ⟨',', _, rfl, Or.inl rfl⟩

theorem lineBreak_pretty (level : Nat) : (lineBreak pretty level).toList = gap level := by
  have hbreak : lineBreak pretty level = "\n" ++ String.ofList (List.replicate (2 * level) ' ') :=
    rfl
  rw [hbreak]
  simp [gap]

theorem bracketed_nil (level : Nat) (opening closing : String) :
    bracketed pretty level opening closing [] = opening ++ closing := rfl

/-- Items between brackets, the first of them apart. -/
theorem bracketed_cons {opening closing : String} {o c : Char} (hopening : opening.toList = [o])
    (hclosing : closing.toList = [c]) (level : Nat) (item : String) (items : List String)
    (rest : List Char) :
    (bracketed pretty level opening closing (item :: items)).toList ++ rest =
      o :: (gap (level + 1) ++ (item.toList ++ remaining level c items rest)) := by
  have hseparator : (pretty.itemSeparator ++ lineBreak pretty (level + 1)).toList =
      ',' :: gap (level + 1) := by
    rw [String.toList_append, lineBreak_pretty]
    rfl
  have hitems : ∀ item : String, ((pretty.itemSeparator ++ lineBreak pretty (level + 1)).intercalate
      (item :: items)).toList ++ (gap level ++ c :: rest) =
        item.toList ++ remaining level c items rest := by
    induction items with
    | nil => simp [remaining]
    | cons next items ih =>
        intro item
        have hnext := ih next
        rw [String.toList_intercalate, hseparator] at hnext ⊢
        rw [List.map_cons, List.map_cons, List.intercalate_cons_cons, remaining, ← hnext]
        simp
  have hnonempty : (item :: items).isEmpty = false := rfl
  rw [bracketed, hnonempty, if_neg Bool.false_ne_true]
  simp only [String.toList_append, hopening, hclosing, lineBreak_pretty, List.append_assoc,
    List.cons_append, List.nil_append, hitems]

theorem skipSpace_of_not {c : Char} (h : isSpace c = false) (cs : List Char) :
    skipSpace (c :: cs) = c :: cs := by
  simp [skipSpace, h]

theorem skipSpace_gap (level : Nat) (cs : List Char) :
    skipSpace (gap level ++ cs) = skipSpace cs := by
  have hall : ∀ c ∈ gap level, isSpace c = true := by
    intro c hc
    rcases List.mem_cons.1 hc with rfl | hc
    · rfl
    · rw [List.eq_of_mem_replicate hc]
      rfl
  exact List.dropWhile_append_of_pos hall

/-! ## Values -/

mutual
/-- The text of a value, with what cannot be written left out of account. -/
def layout (level : Nat) : Value → String
  | .scalar _ s => leafText s
  | .list _ items => bracketed pretty level "[" "]" (layoutItems (level + 1) items)
  | .map _ ⟨members⟩ =>
      bracketed pretty level "\x7b" "\x7d" (layoutMembers (level + 1) members)

/-- The texts of the items of a list. -/
def layoutItems (level : Nat) : List Value → List String
  | [] => []
  | item :: items => layout level item :: layoutItems level items

/-- The texts of the members of a mapping. -/
def layoutMembers (level : Nat) : List (Scalar × Value) → List String
  | [] => []
  | (key, item) :: members =>
      (stringText false key.label ++ ": " ++ layout level item) :: layoutMembers level members
end

/-- The text of a member of a mapping. -/
def memberText (level : Nat) (member : Scalar × Value) : String :=
  stringText false member.1.label ++ ": " ++ layout level member.2

theorem layout_list (level : Nat) (items : List Value) : layout level (.list () items) =
    bracketed pretty level "[" "]" (items.map (layout (level + 1))) := by
  have hitems : layoutItems (level + 1) items = items.map (layout (level + 1)) := by
    induction items with
    | nil => rfl
    | cons item items ih => rw [layoutItems, ih, List.map_cons]
  rw [layout, hitems]

theorem layout_map (level : Nat) (members : List (Scalar × Value)) :
    layout level (.map () ⟨members⟩) =
      bracketed pretty level "\x7b" "\x7d" (members.map (memberText (level + 1))) := by
  have hmembers : layoutMembers (level + 1) members = members.map (memberText (level + 1)) := by
    induction members with
    | nil => rfl
    | cons member members ih =>
        obtain ⟨key, item⟩ := member
        rw [layoutMembers, ih, List.map_cons]
        rfl
  rw [layout, hmembers]

/-- A list of computations that all give the result that is expected. -/
theorem mapM_eq_map {α β : Type} {f : α → Except Unwritable β} {g : α → β} {items : List α}
    (h : ∀ item ∈ items, f item = .ok (g item)) : items.mapM f = .ok (items.map g) := by
  induction items with
  | nil => rfl
  | cons item items ih =>
      have hrest := ih fun other hother => h other (List.mem_cons_of_mem item hother)
      rw [List.mapM_cons, h item List.mem_cons_self, hrest]
      rfl

/-- A value that can be written is written as its text. -/
theorem write_eq_layout (level : Nat) {v : Value} (hkeys : v.HasTextKeys)
    (hforeign : v.anyScalar Scalar.isForeign = false)
    (hdigits : v.anyScalar Scalar.isTooLong = false) :
    write pretty level v = .ok (layout level v) := by
  induction v using Tree.induction generalizing level with
  | scalar tag s =>
      rw [Tree.anyScalar_scalar] at hforeign hdigits
      exact scalarText_pretty hforeign hdigits
  | list tag items ih =>
      rw [Tree.anyScalar_list, List.any_eq_false] at hforeign hdigits
      have hitems := mapM_eq_map fun item hitem => ih item hitem (level + 1)
        ((Tree.everywhere_list tag items).1 hkeys item hitem) (by simpa using hforeign item hitem)
        (by simpa using hdigits item hitem)
      rw [write, writeItems_eq, hitems, layout_list]
      rfl
  | map tag fields ih =>
      rw [Tree.anyScalar_map, List.any_eq_false] at hforeign hdigits
      obtain ⟨htexts, hbelow⟩ := (Tree.everywhere_map tag fields).1 hkeys
      obtain ⟨members⟩ := fields
      have hmember : ∀ member ∈ members, (writtenMember pretty (level + 1) member).2 =
          .ok (memberText (level + 1) member) := by
        intro member hmem
        obtain ⟨s, hs⟩ := Entries.hasTextKeys_iff.1 htexts member hmem
        have hvalue := ih member hmem (level + 1) (hbelow member hmem)
          (Bool.or_eq_false_iff.1 (Bool.eq_false_iff.2 (hforeign member hmem))).2
          (Bool.or_eq_false_iff.1 (Bool.eq_false_iff.2 (hdigits member hmem))).2
        obtain ⟨key, item⟩ := member
        obtain rfl : key = .text s := hs
        simp only [writtenMember, keyText, hvalue]
        rfl
      have hmembers : (members.map (writtenMember pretty (level + 1))).mapM (·.2) =
          .ok (members.map (memberText (level + 1))) := by
        rw [List.mapM_map]
        exact mapM_eq_map hmember
      simp only [write, writeMembers_eq]
      rw [if_neg (by decide)]
      simp only [pure, Except.pure, bind, Except.bind, hmembers]
      exact congrArg Except.ok (layout_map level members).symm

/-- The text of a value at a level of indentation is read as that value.  It starts with
a token, which is neither blank nor a closing bracket nor a byte order mark. -/
structure ReadsBack (level : Nat) (v : Value) : Prop where
  starts : ∃ c tail, (layout level v).toList = c :: tail ∧ isSpace c = false ∧
    c ≠ ']' ∧ c ≠ '\uFEFF'
  reads : ∀ (rest : List Char) (fuel : Nat), Closes rest →
    2 * ((layout level v).toList ++ rest).length < fuel →
    value fuel ((layout level v).toList ++ rest) = .ok (v, rest)

theorem ReadsBack.skipSpace {level : Nat} {v : Value} (h : ReadsBack level v) (rest : List Char) :
    skipSpace ((layout level v).toList ++ rest) = (layout level v).toList ++ rest := by
  obtain ⟨c, tail, hstart, hspace, -⟩ := h.starts
  rw [hstart]
  exact skipSpace_of_not hspace _

/-- Null, booleans and integers start with the sign or digit of a number or with the letter
of a word. -/
theorem exists_leafText_eq {s : Scalar} (hfloat : ∀ x, s ≠ .float x) (htext : ∀ t, s ≠ .text t)
    (hforeign : ∀ value, s ≠ .foreign value) :
    ∃ c tail, (leafText s).toList = c :: tail ∧ (c.isDigit = true ∨ c ∈ ['-', 'n', 't', 'f']) := by
  cases s with
  | null => exact ⟨'n', _, rfl, by simp⟩
  | bool b =>
      cases b with
      | false => exact ⟨'f', _, rfl, by simp⟩
      | true => exact ⟨'t', _, rfl, by simp⟩
  | int i =>
      have hdigit : ∀ c ∈ Nat.toDigits 10 i.natAbs, c.isDigit = true :=
        fun c hc => toDigits_isDigit hc
      rw [leafText, toList_toString]
      split
      · exact ⟨'-', _, rfl, by simp⟩
      · cases hdigits : Nat.toDigits 10 i.natAbs with
        | nil => exact absurd hdigits Nat.toDigits_ne_nil
        | cons d digits => exact ⟨d, digits, rfl, Or.inl (hdigit d (hdigits ▸ List.mem_cons_self))⟩
  | float x => exact absurd rfl (hfloat x)
  | text t => exact absurd rfl (htext t)
  | foreign value => exact absurd rfl (hforeign value)

theorem readsBack_text (level : Nat) (s : String) : ReadsBack level (.scalar () (.text s)) where
  starts := by
    obtain ⟨chars, hchars, -⟩ := string_text s []
    exact ⟨'"', chars, hchars, rfl, by decide, by decide⟩
  reads rest fuel _ hfuel := by
    obtain ⟨fuel, rfl⟩ := Nat.exists_eq_add_one.2 (Nat.zero_lt_of_lt hfuel)
    obtain ⟨chars, hchars, hstring⟩ := string_text s rest
    have htext : (layout level (.scalar () (.text s) : Value)).toList = '"' :: chars := hchars
    rw [htext, List.cons_append, value, hstring]
    rfl

/-- A leaf is read back, unless it is foreign or a floating point number, or has too many digits. -/
theorem readsBack_scalar (level : Nat) {s : Scalar} (hforeign : s.isForeign = false)
    (hfloat : s.isFloat = false) (hdigits : Scalar.isTooLong s = false) :
    ReadsBack level (.scalar () s) := by
  by_cases htext : ∃ t, s = .text t
  · obtain ⟨t, rfl⟩ := htext
    exact readsBack_text level t
  · have hnoText : ∀ t, s ≠ .text t := fun t h => htext ⟨t, h⟩
    have hnoFloat : ∀ x, s ≠ .float x := by
      rintro x rfl
      cases hfloat
    have hnoForeign : ∀ value, s ≠ .foreign value := by
      rintro value rfl
      cases hforeign
    have hint : ∀ i, s = .int i → i.natAbs < 10 ^ Decimal.maxDigits := by
      rintro i rfl
      exact Scalar.natAbs_lt_of_isTooLong hdigits
    obtain ⟨c, tail, hstart, hc⟩ := exists_leafText_eq hnoFloat hnoText hnoForeign
    have hne {d : Char} (hdigit : d.isDigit = false) (hother : d ∉ ['-', 'n', 't', 'f']) :
        c ≠ d := by
      rintro rfl
      rcases hc with hc | hc
      · exact Bool.false_ne_true (hdigit.symm.trans hc)
      · exact hother hc
    have hspace : isSpace c = false := by
      simp [isSpace, hne (d := ' ') rfl (by decide), hne (d := '\t') rfl (by decide),
        hne (d := '\n') rfl (by decide), hne (d := '\r') rfl (by decide)]
    refine ⟨⟨c, tail, hstart, hspace, hne rfl (by decide), hne rfl (by decide)⟩,
      fun rest fuel hrest hfuel => ?_⟩
    obtain ⟨fuel, rfl⟩ := Nat.exists_eq_add_one.2 (Nat.zero_lt_of_lt hfuel)
    have hread := hrest.wordOrNumber_scalar hnoFloat hnoText hnoForeign hint
    have htext : layout level (.scalar () s : Value) = leafText s := rfl
    rw [hstart, List.cons_append] at hread
    rw [htext, hstart, List.cons_append, value.eq_def]
    simp only
    split
    · rename_i heq
      exact absurd (List.cons.inj heq).1 (hne rfl (by decide))
    · rename_i heq
      exact absurd (List.cons.inj heq).1 (hne rfl (by decide))
    · rename_i heq
      exact absurd (List.cons.inj heq).1 (hne rfl (by decide))
    · rw [hread]
      rfl

/-- The items of a list up to its closing bracket. -/
theorem itemsFrom_written {level : Nat} {items : List Value}
    (h : ∀ item ∈ items, ReadsBack (level + 1) item)
    {first : Value} (hfirst : ReadsBack (level + 1) first) (rest : List Char) (fuel : Nat)
    (hfuel : 2 * ((layout (level + 1) first).toList ++
      remaining level ']' (items.map (layout (level + 1))) rest).length + 1 < fuel) :
    itemsFrom fuel ((layout (level + 1) first).toList ++
      remaining level ']' (items.map (layout (level + 1))) rest) = .ok (first :: items, rest) := by
  induction items generalizing first fuel with
  | nil =>
      obtain ⟨fuel, rfl⟩ := Nat.exists_eq_add_one.2 (Nat.zero_lt_of_lt hfuel)
      have hread :=
        hfirst.reads _ fuel (remaining_closes level ']' [] rest) (Nat.lt_of_succ_lt_succ hfuel)
      rw [List.map_nil, itemsFrom, hread]
      simp only [bind, Except.bind, remaining, skipSpace_gap, skipSpace_of_not (c := ']') rfl]
      rfl
  | cons next items ih =>
      obtain ⟨fuel, rfl⟩ := Nat.exists_eq_add_one.2 (Nat.zero_lt_of_lt hfuel)
      have hread := hfirst.reads _ fuel
        (remaining_closes level ']' ((next :: items).map (layout (level + 1))) rest)
        (Nat.lt_of_succ_lt_succ hfuel)
      have hnext := h next List.mem_cons_self
      have hmore := ih (fun item hitem => h item (List.mem_cons_of_mem next hitem)) hnext fuel (by
        simp only [List.map_cons, remaining, List.length_append, List.length_cons] at hfuel ⊢
        omega)
      rw [itemsFrom, hread]
      simp only [bind, Except.bind, List.map_cons, remaining, skipSpace_of_not (c := ',') rfl,
        skipSpace_gap, hnext.skipSpace, hmore]
      rfl

theorem readsBack_list (level : Nat) {items : List Value}
    (h : ∀ item ∈ items, ReadsBack (level + 1) item) :
    ReadsBack level (.list () items) := by
  cases items with
  | nil =>
      have htext : (layout level (.list () [] : Value)).toList = ['[', ']'] := by
        rw [layout_list, List.map_nil, bracketed_nil]
        rfl
      refine ⟨⟨'[', _, htext, rfl, by decide, by decide⟩, fun rest fuel _ hfuel => ?_⟩
      obtain ⟨fuel, rfl⟩ := Nat.exists_eq_add_one.2 (Nat.zero_lt_of_lt hfuel)
      rw [htext]
      rfl
  | cons first items =>
      have hfirst := h first List.mem_cons_self
      have htext (rest : List Char) :
          (layout level (.list () (first :: items) : Value)).toList ++ rest =
          '[' :: (gap (level + 1) ++ ((layout (level + 1) first).toList ++
            remaining level ']' (items.map (layout (level + 1))) rest)) := by
        rw [layout_list]
        exact bracketed_cons rfl rfl level _ _ rest
      refine ⟨⟨'[', _, (List.append_nil _).symm.trans (htext []), rfl, by decide, by decide⟩,
        fun rest fuel _ hfuel => ?_⟩
      obtain ⟨fuel, rfl⟩ := Nat.exists_eq_add_one.2 (Nat.zero_lt_of_lt hfuel)
      obtain ⟨c, tail, hstart, -, hclosing, -⟩ := hfirst.starts
      have hitems :=
        itemsFrom_written (fun item hitem => h item (List.mem_cons_of_mem first hitem)) hfirst
        rest fuel (by
          rw [htext] at hfuel
          simp only [List.length_append, List.length_cons] at hfuel ⊢
          omega)
      rw [htext, value.eq_def]
      simp only [skipSpace_gap, hfirst.skipSpace]
      rw [hstart, List.cons_append] at hitems ⊢
      split
      · rename_i heq
        exact absurd (List.cons.inj heq).1 hclosing
      · rw [hitems]
        rfl

theorem toList_memberText (level : Nat) (key : String) (item : Value) (rest : List Char) :
    (memberText level (.text key, item)).toList ++ rest =
      (stringText false key).toList ++ ':' :: ' ' :: ((layout level item).toList ++ rest) := by
  have hseparator : (": ").toList = [':', ' '] := rfl
  rw [memberText, String.toList_append, String.toList_append, hseparator]
  simp [Scalar.label]

theorem skipSpace_memberText (level : Nat) (key : String) (item : Value) (rest : List Char) :
    skipSpace ((memberText level (.text key, item)).toList ++ rest) =
      (memberText level (.text key, item)).toList ++ rest := by
  obtain ⟨chars, hchars, -⟩ := string_text key []
  rw [toList_memberText, hchars]
  exact skipSpace_of_not rfl _

/-- A member is read and comes behind those before it, which do not have its key. -/
theorem membersFrom_member {level : Nat} {rest : List Char} {before : Fields Unit}
    {key : String} {item : Value}
    (hnew : ∀ member ∈ before.toList, member.1.key ≠ (Scalar.text key).key)
    (hitem : ReadsBack level item) (hrest : Closes rest) {fuel : Nat}
    (hfuel : 2 * ((memberText level (.text key, item)).toList ++ rest).length < fuel) :
    membersFrom (fuel + 1) before ((memberText level (.text key, item)).toList ++ rest) =
      match skipSpace rest with
      | '\x7d' :: final => .ok (⟨before.toList ++ [(.text key, item)]⟩, final)
      | ',' :: more => membersFrom fuel ⟨before.toList ++ [(.text key, item)]⟩ (skipSpace more)
      | rest => failAt .expectingComma rest := by
  have htext := toList_memberText level key item rest
  obtain ⟨chars, hchars, hstring⟩ :=
    string_text key (':' :: ' ' :: ((layout level item).toList ++ rest))
  have hread := hitem.reads rest fuel hrest (by
    rw [htext] at hfuel
    simp only [List.length_append, List.length_cons] at hfuel ⊢
    omega)
  have hinsert : before.insert (.text key) item = ⟨before.toList ++ [(.text key, item)]⟩ :=
    congrArg Entries.mk (Entries.put_of_lookup (Entries.lookup_eq_none_iff.2 hnew) item)
  have hblank : skipSpace (' ' :: ((layout level item).toList ++ rest)) =
      (layout level item).toList ++ rest := hitem.skipSpace rest
  rw [htext, hchars, List.cons_append, membersFrom]
  simp only [hstring, bind, Except.bind, skipSpace_of_not (c := ':') rfl, hblank, hread, hinsert]
  rfl

/-- The members of a mapping up to its closing bracket, behind those before them. -/
theorem membersFrom_written {level : Nat} {members : List (Scalar × Value)}
    (before : Fields Unit) {key : String}
    {first : Value} (hobject : Entries.IsObject ⟨before.toList ++ (.text key, first) :: members⟩)
    (h : ∀ member ∈ members, ReadsBack (level + 1) member.2) (hfirst : ReadsBack (level + 1) first)
    (rest : List Char) (fuel : Nat)
    (hfuel : 2 * ((memberText (level + 1) (.text key, first)).toList ++
      remaining level '\x7d' (members.map (memberText (level + 1))) rest).length + 1 < fuel) :
    membersFrom fuel before ((memberText (level + 1) (.text key, first)).toList ++
      remaining level '\x7d' (members.map (memberText (level + 1))) rest) =
        .ok (⟨before.toList ++ (.text key, first) :: members⟩, rest) := by
  induction members generalizing before key first fuel with
  | nil =>
      obtain ⟨fuel, rfl⟩ := Nat.exists_eq_add_one.2 (Nat.zero_lt_of_lt hfuel)
      rw [membersFrom_member hobject.2.ne_of_append hfirst (remaining_closes level '\x7d' _ rest)
        (Nat.lt_of_succ_lt_succ hfuel)]
      simp only [List.map_nil, remaining, skipSpace_gap, skipSpace_of_not (c := '\x7d') rfl]
  | cons next members ih =>
      obtain ⟨fuel, rfl⟩ := Nat.exists_eq_add_one.2 (Nat.zero_lt_of_lt hfuel)
      rw [membersFrom_member hobject.2.ne_of_append hfirst (remaining_closes level '\x7d' _ rest)
        (Nat.lt_of_succ_lt_succ hfuel)]
      obtain ⟨k, value⟩ := next
      obtain ⟨nextKey, rfl⟩ : ∃ nextKey, k = .text nextKey :=
        Entries.hasTextKeys_iff.1 hobject.1 (k, value) (by simp)
      have hmore : ∀ member ∈ members, ReadsBack (level + 1) member.2 :=
        fun member hmember => h member (List.mem_cons_of_mem _ hmember)
      have hread := ih ⟨before.toList ++ [(.text key, first)]⟩ (by simpa using hobject) hmore
        (h _ List.mem_cons_self) fuel (by
          simp only [List.map_cons, remaining, List.length_append, List.length_cons] at hfuel ⊢
          omega)
      simp only [List.map_cons, remaining, skipSpace_of_not (c := ',') rfl, skipSpace_gap,
        skipSpace_memberText, hread]
      simp

theorem readsBack_map (level : Nat) {fields : Fields Unit} (hobject : fields.IsObject)
    (h : ∀ member ∈ fields.toList, ReadsBack (level + 1) member.2) :
    ReadsBack level (.map () fields) := by
  obtain ⟨members⟩ := fields
  cases members with
  | nil =>
      have htext : (layout level (.map () ⟨[]⟩ : Value)).toList = ['\x7b', '\x7d'] := by
        rw [layout_map, List.map_nil, bracketed_nil]
        rfl
      refine ⟨⟨'\x7b', _, htext, rfl, by decide, by decide⟩, fun rest fuel _ hfuel => ?_⟩
      obtain ⟨fuel, rfl⟩ := Nat.exists_eq_add_one.2 (Nat.zero_lt_of_lt hfuel)
      rw [htext]
      rfl
  | cons first members =>
      obtain ⟨k, first⟩ := first
      obtain ⟨key, rfl⟩ : ∃ key, k = .text key :=
        Entries.hasTextKeys_iff.1 hobject.1 (k, first) (by simp)
      have hmembers : ∀ member ∈ members, ReadsBack (level + 1) member.2 :=
        fun member hmember => h member (List.mem_cons_of_mem _ hmember)
      have htext (rest : List Char) :
          (layout level (.map () ⟨(.text key, first) :: members⟩ : Value)).toList ++ rest =
            '\x7b' :: (gap (level + 1) ++ ((memberText (level + 1) (.text key, first)).toList ++
              remaining level '\x7d' (members.map (memberText (level + 1))) rest)) := by
        rw [layout_map]
        exact bracketed_cons rfl rfl level _ _ rest
      refine ⟨⟨'\x7b', _, (List.append_nil _).symm.trans (htext []), rfl, by decide, by decide⟩,
        fun rest fuel _ hfuel => ?_⟩
      obtain ⟨fuel, rfl⟩ := Nat.exists_eq_add_one.2 (Nat.zero_lt_of_lt hfuel)
      have hread := membersFrom_written ∅ hobject hmembers (h _ List.mem_cons_self) rest fuel (by
          rw [htext] at hfuel
          simp only [List.length_append, List.length_cons] at hfuel ⊢
          omega)
      obtain ⟨chars, hchars, -⟩ := string_text key []
      rw [htext, value.eq_def]
      simp only [skipSpace_gap, skipSpace_memberText]
      rw [toList_memberText, hchars, List.cons_append] at hread ⊢
      split
      · rename_i heq
        cases heq
      · rw [hread]
        rfl

/-- Every JSON value whose leaves can be written is read back from its text. -/
theorem readsBack (level : Nat) {v : Value} (hjson : v.IsJson)
    (hforeign : v.anyScalar Scalar.isForeign = false)
    (hfloats : v.anyScalar Scalar.isFloat = false)
    (hdigits : v.anyScalar Scalar.isTooLong = false) : ReadsBack level v := by
  induction v using Tree.induction generalizing level with
  | scalar tag s =>
      rw [Tree.anyScalar_scalar] at hforeign hfloats hdigits
      exact readsBack_scalar level hforeign hfloats hdigits
  | list tag items ih =>
      rw [Tree.anyScalar_list, List.any_eq_false] at hforeign hfloats hdigits
      refine readsBack_list level fun item hitem => ih item hitem (level + 1) ?_ ?_ ?_ ?_
      · exact (Tree.everywhere_list tag items).1 hjson item hitem
      · simpa using hforeign item hitem
      · simpa using hfloats item hitem
      · simpa using hdigits item hitem
  | map tag fields ih =>
      have below : ∀ {p : Scalar → Bool}, (Tree.map tag fields).anyScalar p = false →
          ∀ member ∈ fields.toList, member.2.anyScalar p = false := by
        intro p hnone member hmember
        rw [Tree.anyScalar_map, List.any_eq_false] at hnone
        exact (Bool.or_eq_false_iff.1 (Bool.eq_false_iff.2 (hnone member hmember))).2
      obtain ⟨hobject, hbelow⟩ := (Tree.everywhere_map tag fields).1 hjson
      exact readsBack_map level hobject fun member hmember => ih member hmember (level + 1)
        (hbelow member hmember) (below hforeign member hmember) (below hfloats member hmember)
        (below hdigits member hmember)

/-! ## Line ends -/

theorem return_not_mem_gap (level : Nat) : '\r' ∉ gap level := by
  simp [gap, List.mem_replicate]

theorem return_not_mem_bracketed {level : Nat} {items : List String}
    (h : ∀ item ∈ items, '\r' ∉ item.toList)
    {opening closing : String} {o c : Char} (hopening : opening.toList = [o])
    (hclosing : closing.toList = [c]) (ho : '\r' ≠ o) (hc : '\r' ≠ c) :
    '\r' ∉ (bracketed pretty level opening closing items).toList := by
  have hremaining : ∀ items : List String, (∀ item ∈ items, '\r' ∉ item.toList) →
      '\r' ∉ remaining level c items [] := by
    intro items h
    induction items with
    | nil => simp [remaining, return_not_mem_gap, hc]
    | cons item items ih =>
        have hitem := h item List.mem_cons_self
        have hitems := ih fun other hother => h other (List.mem_cons_of_mem item hother)
        simp [remaining, return_not_mem_gap, hitem, hitems]
  cases items with
  | nil =>
      rw [bracketed_nil, String.toList_append, hopening, hclosing]
      simp [ho, hc]
  | cons item items =>
      have hitem := h item List.mem_cons_self
      have hitems := hremaining items fun other hother => h other (List.mem_cons_of_mem item hother)
      rw [← List.append_nil (String.toList _), bracketed_cons hopening hclosing]
      simp [return_not_mem_gap, hitem, hitems, ho]

theorem return_not_mem_escapedChar (c : Char) : '\r' ∉ (escapedChar false c).toList := by
  unfold escapedChar
  split_ifs with _ _ _ hreturn _ _ _ hcontrol
  any_goals decide
  · have hc : c.toNat < 0x20 := by simpa using hcontrol
    have hdigit : ∀ d < 16, '\r' ≠ Nat.digitChar d := by decide
    rw [toList_unicodeEscape hc, hexadecimal_control _ hc]
    simp [hdigit (c.toNat / 16) (by omega), hdigit (c.toNat % 16) (by omega)]
  · rw [Char.toString_eq_singleton, String.toList_singleton, List.mem_singleton]
    exact fun h => hreturn h.symm

theorem return_not_mem_stringText (s : String) : '\r' ∉ (stringText false s).toList := by
  simp [stringText, return_not_mem_escapedChar]

theorem return_not_mem_leafText {s : Scalar} (hfloat : s.isFloat = false) :
    '\r' ∉ (leafText s).toList := by
  cases s with
  | null => decide
  | bool b => cases b <;> decide
  | int i =>
      have hdigits : '\r' ∉ Nat.toDigits 10 i.natAbs := fun h => nomatch toDigits_isDigit h
      rw [leafText, toList_toString]
      split <;> simp [hdigits]
  | float x => cases hfloat
  | text s => exact return_not_mem_stringText s
  | foreign value => exact return_not_mem_stringText value.text

/-- No line of the text of a value ends with a carriage return. -/
theorem return_not_mem_layout (level : Nat) {v : Value}
    (hfloats : v.anyScalar Scalar.isFloat = false) :
    '\r' ∉ (layout level v).toList := by
  induction v using Tree.induction generalizing level with
  | scalar tag s => exact return_not_mem_leafText (by simpa using hfloats)
  | list tag items ih =>
      rw [Tree.anyScalar_list, List.any_eq_false] at hfloats
      rw [layout_list]
      refine return_not_mem_bracketed (fun text htext => ?_) rfl rfl (by decide) (by decide)
      obtain ⟨item, hitem, rfl⟩ := List.mem_map.1 htext
      exact ih item hitem (level + 1) (by simpa using hfloats item hitem)
  | map tag fields ih =>
      rw [Tree.anyScalar_map, List.any_eq_false] at hfloats
      obtain ⟨members⟩ := fields
      rw [layout_map]
      refine return_not_mem_bracketed (fun text htext => ?_) rfl rfl (by decide) (by decide)
      obtain ⟨member, hmember, rfl⟩ := List.mem_map.1 htext
      have hvalue := ih member hmember (level + 1)
        (Bool.or_eq_false_iff.1 (Bool.eq_false_iff.2 (hfloats member hmember))).2
      rw [memberText, String.toList_append, String.toList_append]
      simp [return_not_mem_stringText, hvalue]

/-! ## Whole texts -/

/-- The text of a document is read as that document. -/
theorem read_text {v : Value} (hjson : v.IsJson) (hforeign : v.anyScalar Scalar.isForeign = false)
    (hfloats : v.anyScalar Scalar.isFloat = false)
    (hdigits : v.anyScalar Scalar.isTooLong = false) :
    read (layout 0 v ++ "\n") = .ok v := by
  have hback := readsBack 0 hjson hforeign hfloats hdigits
  obtain ⟨c, tail, hstart, -, -, hmark⟩ := hback.starts
  have hchars : (layout 0 v ++ "\n").toList = (layout 0 v).toList ++ ['\n'] := String.toList_append
  have hread : readChars ((layout 0 v).toList ++ ['\n']) = .ok v := by
    have hhead : ((layout 0 v).toList ++ ['\n']).head? ≠ some '\uFEFF' := by
      rw [hstart]
      exact fun h => hmark (Option.some.inj h)
    have hvalue := hback.reads ['\n'] _ ⟨'\n', [], rfl, Or.inr rfl⟩
      (Nat.lt_add_of_pos_right Nat.two_pos)
    rw [readChars, if_neg hhead, hback.skipSpace, hvalue]
    rfl
  rw [read, hchars, hread]

end Json

end ProtoShape
