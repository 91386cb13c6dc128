import ProtoShape.Proofs.Positions
import ProtoShape.Proofs.Repairs

/-!
# What locations lead to

A walk writes the place of a schema as the keys on the way to it, and an item of a list has its
index as its key.  These keys lead to the schema (`foldlM_step_of_mem_visits`), and the pointer
to the location has them as its tokens (`resolve_render`): rendering keeps every key, and an index
is read back from its digits.  A violation has the pointer to what is wrong: the schema, a
composite, a member or an enumeration (`Offender`).
-/

namespace ProtoShape

variable {τ : Type}

/-! ## Indices -/

namespace Text

section Digits

variable {c : Char} {cs : List Char}

theorem isDigit_iff : c.isDigit = true ↔ 0x30 ≤ c.toNat ∧ c.toNat ≤ 0x39 := by
  simp [Char.isDigit, UInt32.le_iff_toNat_le]

theorem digitValue?_of_isDigit (h : c.isDigit = true) :
    digitValue? c = some (c.toNat - '0'.toNat) := by
  obtain ⟨hlow, hhigh⟩ := isDigit_iff.1 h
  have hzero : '0'.toNat = 0x30 := rfl
  rw [digitValue?, digitRanges, offsetInRanges?, if_neg (by omega), if_pos hhigh, Option.map_some,
    Nat.mod_eq_of_lt (by omega), hzero]

theorem isIntegerPadding_of_isDigit (h : c.isDigit = true) : isIntegerPadding c = false := by
  obtain ⟨hlow, hhigh⟩ := isDigit_iff.1 h
  have hblank : ∀ code < 0x3A, 0x30 ≤ code → inRanges blankRanges code = false := by decide
  rw [isIntegerPadding, isBlank, hblank _ (by omega) hlow, Bool.false_and]

theorem moreDigits?_of_isDigit (h : ∀ c ∈ cs, c.isDigit = true) (value : Nat) :
    moreDigits? value cs = some (Nat.ofDigitChars 10 cs value) := by
  induction cs generalizing value with
  | nil => rfl
  | cons c rest ih =>
      have hdigit := h c List.mem_cons_self
      rw [moreDigits?, digitValue?_of_isDigit hdigit]
      · exact ih (fun d hd => h d (List.mem_cons_of_mem _ hd)) _
      · rintro d more rfl -
        exact absurd hdigit (by decide)

theorem natural?_of_isDigit (h : ∀ c ∈ cs, c.isDigit = true) (hne : cs ≠ [])
    (hlength : cs.length ≤ Decimal.maxDigits) : natural? cs = some (Nat.ofDigitChars 10 cs 0) := by
  cases cs with
  | nil => exact absurd rfl hne
  | cons c rest =>
      have hcount : ¬Decimal.maxDigits < (c :: rest).countP (· ≠ '_') :=
        Nat.not_lt.2 (Nat.le_trans List.countP_le_length hlength)
      rw [natural?, if_neg hcount, digitValue?_of_isDigit (h c List.mem_cons_self),
        Nat.ofDigitChars_cons, Nat.mul_zero, Nat.zero_add]
      exact moreDigits?_of_isDigit (fun d hd => h d (List.mem_cons_of_mem _ hd)) _

end Digits

/-- An index is read back from its digits, if there are not too many. -/
theorem integer?_toString {i : Nat} (h : i < 10 ^ Decimal.maxDigits) :
    integer? (toString i) = some (i : Int) := by
  have hchars : (toString i : String).toList = Nat.toDigits 10 i := by
    rw [Nat.toString_eq_ofList_toDigits, String.toList_ofList]
  have hdigit : ∀ c ∈ Nat.toDigits 10 i, c.isDigit = true := fun c hc =>
    Nat.isDigit_of_mem_toDigits (by decide) (by decide) hc
  have hpadding : ∀ cs : List Char, (∀ c ∈ cs, c.isDigit = true) →
      cs.dropWhile isIntegerPadding = cs := by
    intro cs hcs
    cases cs with
    | nil => rfl
    | cons c rest =>
        rw [List.dropWhile_cons_of_neg]
        simp [isIntegerPadding_of_isDigit (hcs c List.mem_cons_self)]
  have hinner :
      (((Nat.toDigits 10 i).dropWhile isIntegerPadding).reverse.dropWhile
        isIntegerPadding).reverse =
      Nat.toDigits 10 i := by
    rw [hpadding _ hdigit, hpadding _ fun c hc => hdigit c (List.mem_reverse.1 hc),
      List.reverse_reverse]
  have hlength : (Nat.toDigits 10 i).length ≤ Decimal.maxDigits :=
    (Nat.length_toDigits_le_iff (by decide) (by decide)).2 h
  simp only [integer?, hchars, hinner]
  split
  · rename_i digits heq
    exact absurd (hdigit '-' (heq ▸ List.mem_cons_self)) (by decide)
  · rename_i digits heq
    exact absurd (hdigit '+' (heq ▸ List.mem_cons_self)) (by decide)
  · rw [natural?_of_isDigit hdigit Nat.toDigits_ne_nil hlength, Nat.ofDigitChars_ten_toDigits]
    rfl

end Text

/-! ## Schemas -/

namespace Tree

variable {t u v : Tree τ} {place stop : Place} {site siteOf : Site} {keys : List String}

/-- Every index into a list of the tree has at most `Decimal.maxDigits` digits.  A pointer whose
token has more does not resolve.  This is a matter of lists too long for any memory: with that many
digits, an index counts further than a machine can. -/
def Indexable (t : Tree τ) : Prop :=
  ∀ items ∈ t.subtrees.filterMap Tree.items?, items.length ≤ 10 ^ Decimal.maxDigits

instance (t : Tree τ) : Decidable t.Indexable :=
  inferInstanceAs (Decidable (∀ items ∈ t.subtrees.filterMap Tree.items?,
    items.length ≤ 10 ^ Decimal.maxDigits))

theorem Indexable.length_le (h : t.Indexable) {tag : τ} {items : List (Tree τ)}
    (hmem : list tag items ∈ t.subtrees) : items.length ≤ 10 ^ Decimal.maxDigits :=
  h items (List.mem_filterMap.2 ⟨_, hmem, rfl⟩)

theorem Indexable.of_mem_subtrees (h : t.Indexable) (hmem : u ∈ t.subtrees) : u.Indexable := by
  intro items hitems
  obtain ⟨v, hv, hof⟩ := List.mem_filterMap.1 hitems
  exact h items (List.mem_filterMap.2 ⟨v, mem_subtrees_trans hv hmem, hof⟩)

/-- The index of an item leads to the item. -/
theorem step_item {tag : τ} {items : List (Tree τ)}
    (hlength : items.length ≤ 10 ^ Decimal.maxDigits)
    {i : Nat} (hitem : items[i]? = some u) : (list tag items).step (toString i) = .ok u := by
  obtain ⟨hi, -⟩ := List.getElem?_eq_some_iff.1 hitem
  have hindex : itemAt? items (i : Int) = some u := by
    rw [itemAt?, if_pos (Int.natCast_nonneg i), Int.toNat_natCast, hitem]
  rw [step, Text.integer?_toString (Nat.lt_of_lt_of_le hi hlength), Option.bind_some, hindex]

/-- The key of a value leads to the value. -/
theorem foldlM_step_of_get? {tag : τ} {fields : Fields τ} {key : String}
    (hget : fields.get? key = some u) :
    [key].foldlM step (map tag fields) = .ok u :=
  foldlM_step_of_under? (under?_singleton.2 ⟨tag, fields, rfl, hget⟩)

theorem foldlM_step_concat {key : String} (h : keys.foldlM step t = .ok v)
    (hstep : v.step key = .ok u) :
    (keys ++ [key]).foldlM step t = .ok u := by
  rw [List.foldlM_append, h]
  exact (bind_pure _).trans hstep

/-- The keys of a location lead to what a walk has come to there. -/
theorem Reaches.exists_keys (hjson : t.IsJson) (hindex : t.Indexable)
    (h : Reaches t place site u stop siteOf) :
    ∃ keys, siteOf.location.keys = site.location.keys ++ keys ∧ keys.foldlM step t = .ok u := by
  induction h with
  | here => exact ⟨[], (List.append_nil _).symm, rfl⟩
  | @item tag items place site i item hreach _ hitem ih =>
      obtain ⟨keys, hkeys, hlead⟩ := ih
      refine ⟨keys ++ [toString i], ?_, foldlM_step_concat hlead ?_⟩
      · rw [← List.append_assoc, ← hkeys]
        rfl
      · exact step_item (hindex.length_le hreach.mem_subtrees) hitem
  | @entry tag fields place site key value hreach _ hentry ih =>
      obtain ⟨keys, hkeys, hlead⟩ := ih
      have hobject := ((everywhere_map tag fields).1 (hjson.of_mem_subtrees hreach.mem_subtrees)).1
      obtain ⟨key, rfl, hget⟩ := hobject.mem_iff.1 hentry
      refine ⟨keys ++ [key], ?_, foldlM_step_concat hlead ?_⟩
      · rw [← List.append_assoc, ← hkeys]
        rfl
      · exact step_of_under? (under?_singleton.2 ⟨tag, fields, rfl, hget⟩)
  | @slot tag fields place site slot value hreach _ _ _ hget ih =>
      obtain ⟨keys, hkeys, hlead⟩ := ih
      refine ⟨keys ++ [slot.key], ?_, foldlM_step_concat hlead ?_⟩
      · rw [location_below, ← List.append_assoc, ← hkeys]
      · exact step_of_under? (under?_singleton.2 ⟨tag, fields, rfl, hget⟩)

/-- The pointer to a location resolves to what its keys lead to. -/
theorem resolve_render {l : Location} (h : l.keys.foldlM step t = .ok u) :
    t.resolve l.render = .ok u := by
  simp only [resolve, Location.tokens?_render, h]

/-- The keys of a schema lead to it from the root of its document. -/
theorem foldlM_step_of_mem_visits (hjson : t.IsJson) (hindex : t.Indexable) {visit : Visit τ}
    (h : visit ∈ t.documentVisits) :
    visit.location.keys.foldlM step t = .ok (map visit.tag visit.fields) ∧
      map visit.tag visit.fields ∈ t.subtrees := by
  obtain ⟨hook, stop, siteOf, hreach, -, -, -, heq⟩ := reaches_of_mem_visits h
  obtain ⟨keys, hkeys, hlead⟩ := hreach.exists_keys hjson hindex
  have hlocation : visit.location.keys = keys := by
    rw [heq]
    exact hkeys
  exact ⟨hlocation ▸ hlead, hreach.mem_subtrees⟩

end Tree

/-! ## Violations -/

/-- What a violation of a schema is about, given its code. -/
inductive Offender (tag : τ) (fields : Fields τ) : String → Tree τ → Prop where
  | allowsAll {additional : Tree τ} : fields.get? "additionalProperties" = some additional →
      Rules.isTrue additional = true →
      Offender tag fields "additional_properties_true" (.map tag fields)
  | unconstrained {additional : Tree τ} : fields.get? "additionalProperties" = some additional →
      Rules.isUnconstrained additional = true →
      Offender tag fields "additional_properties_empty" (.map tag fields)
  | lone {key : String} {inner : τ} {member : Tree τ} : key ∈ combiningKeys →
      fields.get? key = some (.list inner [member]) →
      Offender tag fields "single_member_composite" (.list inner [member])
  | const {inner : τ} {members : List (Tree τ)} {i : Nat} {member : Tree τ} :
      fields.get? "oneOf" = some (.list inner members) → members[i]? = some member →
      Violation.carriesConst member = true → Offender tag fields "oneof_const" member
  | nullType {type : Tree τ} : fields.get? "type" = some type → Violation.isNullType type = true →
      Offender tag fields "null_type" (.map tag fields)
  | repeats {inner : τ} {values : List (Tree τ)} : fields.get? "enum" = some (.list inner values) →
      ¬(values.map Rules.likeness).Nodup →
      Offender tag fields "enum_case_duplicate" (.list inner values)

/-- From the location of a schema on, a violation points to what it is about. -/
def Violation.Points (tag : τ) (fields : Fields τ) (location : Location) (v : Violation) : Prop :=
  ∃ keys offender, v.location = (Location.mk (location.keys ++ keys)).render ∧
    keys.foldlM Tree.step (.map tag fields) = .ok offender ∧ Offender tag fields v.code offender

namespace Violation

variable {tag : τ} {fields : Fields τ} {location : Location} {v : Violation} {code message : String}

theorem points_here (h : Offender tag fields code (.map tag fields)) :
    Points tag fields location (found location code message) :=
  ⟨[], _, by rw [List.append_nil]; rfl, rfl, h⟩

theorem points_value {key : String} {value : Tree τ} (hget : fields.get? key = some value)
    (h : Offender tag fields code value) :
    Points tag fields location (found (location.child key) code message) :=
  ⟨[key], value, rfl, Tree.foldlM_step_of_get? hget, h⟩

theorem points_of_mem_ofAdditional (h : v ∈ ofAdditional fields location) :
    Points tag fields location v := by
  unfold ofAdditional at h
  split at h
  · cases h
  · rename_i additional hget
    split at h
    · rename_i htrue
      rw [List.mem_singleton.1 h]
      exact points_here (.allowsAll hget htrue)
    · split at h
      · rename_i hany
        rw [List.mem_singleton.1 h]
        exact points_here (.unconstrained hget hany)
      · cases h

theorem points_of_mem_ofComposites (h : v ∈ ofComposites fields location) :
    Points tag fields location v := by
  obtain ⟨key, hkey, inner, member, hget, rfl⟩ := mem_ofComposites_iff.1 h
  exact points_value hget (.lone hkey hget)

theorem points_of_mem_ofConstMembers (hindex : (Tree.map tag fields).Indexable)
    (h : v ∈ ofConstMembers fields location) : Points tag fields location v := by
  obtain ⟨⟨member, i⟩, hmember, hfound⟩ := List.mem_filterMap.1 h
  have hi := List.mem_zipIdx_iff_getElem?.1 hmember
  dsimp only at hfound hi
  split at hfound
  · rename_i hconst
    obtain rfl := Option.some.inj hfound
    cases hitems : Fields.items? fields "oneOf" with
    | none => simp [hitems] at hi
    | some members =>
        rw [hitems, Option.getD_some] at hi
        obtain ⟨inner, hget⟩ := Fields.items?_eq_some_iff.1 hitems
        have hlength := hindex.length_le (Tree.mem_subtrees_of_get? hget)
        refine ⟨["oneOf", toString i], member, ?_, ?_, .const hget hi hconst⟩
        · simp [found, Location.item, Location.child]
        · exact Tree.foldlM_step_concat (Tree.foldlM_step_of_get? hget) (Tree.step_item hlength hi)
  · cases hfound

theorem points_of_mem_ofType (h : v ∈ ofType fields location) : Points tag fields location v := by
  unfold ofType at h
  split at h
  · rename_i type hget
    split at h
    · rename_i hnull
      rw [List.mem_singleton.1 h]
      exact points_here (.nullType hget hnull)
    · cases h
  · cases h

theorem points_of_mem_ofEnum (h : v ∈ ofEnum fields location) : Points tag fields location v := by
  obtain ⟨value, hrepeated, rfl⟩ := List.mem_map.1 h
  cases hitems : Fields.items? fields "enum" with
  | none => simp [hitems, repeated] at hrepeated
  | some values =>
      rw [hitems, Option.getD_some] at hrepeated
      obtain ⟨inner, hget⟩ := Fields.items?_eq_some_iff.1 hitems
      refine points_value hget (.repeats hget fun hnodup => ?_)
      rw [repeated_eq_nil_iff.2 ⟨hnodup, fun _ _ => List.not_mem_nil⟩] at hrepeated
      cases hrepeated

/-- Every violation of a schema points to what it is about. -/
theorem points_of_mem (hindex : (Tree.map tag fields).Indexable)
    (h : v ∈ violations fields location) :
    Points tag fields location v := by
  rcases mem_violations_iff.1 h with hmem | hmem | hmem | hmem | hmem
  · exact points_of_mem_ofComposites hmem
  · exact points_of_mem_ofAdditional hmem
  · exact points_of_mem_ofConstMembers hindex hmem
  · exact points_of_mem_ofType hmem
  · exact points_of_mem_ofEnum hmem

end Violation

section Document

variable {t : Tree τ}

/-- In a document with texts as keys, the checker stops only at an integer with too many digits. -/
theorem checkedViolations_cases {tag : τ} {fields : Fields τ}
    (h : (Tree.map tag fields).HasTextKeys) :
    checkedViolations (Tree.map tag fields) = .ok (documentViolations (.map tag fields)) ∨
      checkedViolations (Tree.map tag fields) = .error (.unwritable .tooManyDigits) ∧
        (Tree.map tag fields).anyScalar Scalar.isTooLong = true := by
  have hvisits : (Tree.map tag fields).checkedVisits = .ok (Tree.map tag fields).documentVisits :=
    rfl
  cases hfault : (Tree.map tag fields).documentVisits.findSome?
      fun visit => violationFault? visit.fields with
  | none =>
      refine Or.inl ?_
      simp only [checkedViolations, hvisits, hfault]
  | some fault =>
      obtain ⟨visit, hvisit, hstop⟩ := List.exists_of_findSome?_eq_some hfault
      obtain ⟨hook, stop, siteOf, hreach, -⟩ := Tree.reaches_of_mem_visits hvisit
      have hkeys := hasTextKeys_map.1 (h.of_mem_subtrees hreach.mem_subtrees)
      rw [violationFault?_eq hkeys] at hstop
      obtain ⟨rfl, hlong⟩ := Rules.enumFault?_long hkeys hstop
      refine Or.inr ⟨?_, Tree.anyScalar_of_mem_subtrees hreach.mem_subtrees hlong.anyScalar⟩
      simp only [checkedViolations, hvisits, hfault]

/-- The location of a violation resolves to what the violation is about. -/
theorem exists_offender_of_mem (hjson : t.IsJson) (hindex : t.Indexable) {v : Violation}
    (h : v ∈ documentViolations t) :
    ∃ visit ∈ t.documentVisits, v ∈ violations visit.fields visit.location ∧
      ∃ offender, t.resolve v.location = .ok offender ∧
      Offender visit.tag visit.fields v.code offender := by
  obtain ⟨visit, hvisit, hv⟩ := List.mem_flatMap.1 h
  obtain ⟨hlead, hmem⟩ := Tree.foldlM_step_of_mem_visits hjson hindex hvisit
  obtain ⟨keys, offender, hlocation, hfurther, hoffender⟩ :=
    Violation.points_of_mem (hindex.of_mem_subtrees hmem) hv
  refine ⟨visit, hvisit, hv, offender, hlocation ▸ Tree.resolve_render ?_, hoffender⟩
  rw [List.foldlM_append, hlead]
  exact hfurther

end Document

/-- In a JSON document the location of every visit resolves to the schema of the visit, and the
location of every violation to what the violation is about.  Violations are reported unless an
integer of the document has too many digits. -/
theorem resolve_locations {tag : τ} {fields : Fields τ} (hjson : (Tree.map tag fields).IsJson)
    (hindex : (Tree.map tag fields).Indexable) :
    ∃ visits, (Tree.map tag fields).checkedVisits = .ok visits ∧
      (∀ visit ∈ visits, (Tree.map tag fields).resolve visit.location.render =
        .ok (.map visit.tag visit.fields)) ∧
      ((∃ reported, checkedViolations (Tree.map tag fields) = .ok reported ∧
        ∀ v ∈ reported, ∃ visit ∈ visits, v ∈ violations visit.fields visit.location ∧
          ∃ offender, (Tree.map tag fields).resolve v.location = .ok offender ∧
            Offender visit.tag visit.fields v.code offender) ∨
        checkedViolations (Tree.map tag fields) = .error (.unwritable .tooManyDigits) ∧
          (Tree.map tag fields).anyScalar Scalar.isTooLong = true) := by
  refine ⟨(Tree.map tag fields).documentVisits, rfl, fun _ hvisit => ?_, ?_⟩
  · exact Tree.resolve_render (Tree.foldlM_step_of_mem_visits hjson hindex hvisit).1
  · refine (checkedViolations_cases hjson.hasTextKeys).imp_left fun hreported => ?_
    exact ⟨_, hreported, fun _ hv => exists_offender_of_mem hjson hindex hv⟩

/-- A document with an empty key, a key of escapes and a key of digits. -/
def oddKeys : Value := .ofEntries [("components", .ofEntries [("schemas", .ofEntries [
  ("", .ofEntries [("properties", .ofEntries [
    ("~1/", .ofEntries [("type", .ofText "null")]),
    ("0", .ofEntries [("oneOf", .ofList [.ofEntries [("const", .ofInt 1)],
      .ofEntries [("enum", .ofList [.ofText "a", .ofText "A"])]])])])])])])]

theorem resolve_locations_oddKeys : oddKeys.IsJson ∧ oddKeys.Indexable ∧
    ∃ visits reported, oddKeys.checkedVisits = .ok visits ∧
      checkedViolations oddKeys = .ok reported ∧
      (∀ visit ∈ visits,
        oddKeys.resolve visit.location.render = .ok (.map visit.tag visit.fields)) ∧
      (∀ v ∈ reported, ∃ visit ∈ visits, v ∈ violations visit.fields visit.location ∧
        ∃ offender, oddKeys.resolve v.location = .ok offender ∧
          Offender visit.tag visit.fields v.code offender) ∧
      reported.map (fun v => (v.code, v.location)) = [
        ("null_type", "#/components/schemas//properties/~01~1"),
        ("enum_case_duplicate", "#/components/schemas//properties/0/oneOf/1/enum"),
        ("oneof_const", "#/components/schemas//properties/0/oneOf/0")] := by
  have hjson : oddKeys.IsJson := by decide +kernel
  have hindex : oddKeys.Indexable := by decide +kernel
  obtain ⟨visits, hvisits, hschemas, ⟨reported, hreported, hoffenders⟩ | ⟨-, hlong⟩⟩ :=
    resolve_locations hjson hindex
  · refine ⟨hjson, hindex, visits, reported, hvisits, hreported, hschemas, hoffenders, ?_⟩
    obtain rfl : documentViolations oddKeys = reported := by
      rcases checkedViolations_cases hjson.hasTextKeys with hall | ⟨hstopped, -⟩
      · exact Except.ok.inj (hall.symm.trans hreported)
      · cases hstopped.symm.trans hreported
    decide +kernel
  · exact absurd hlong (by decide +kernel)

end ProtoShape
