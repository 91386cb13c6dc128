import Mathlib.Algebra.GroupWithZero.Nat
import Mathlib.Data.List.Nodup
import ProtoShape.Entries

/-!
# The laws of mappings in insertion order

What an update of a mapping does to a look-up, and what it does to the keys.

There are four groups.

* Look-ups.  `get?_insert`, `get?_erase`, `get?_eraseAll` and `get?_overlay`
  say what each update does to every key at once.
* Objects.  `IsObject` says that all keys are texts and no two of them are the
  same, as in a JSON object.  Every update keeps it.
* Properties of the entries.  `Each` says that a property holds of every value
  with its key.  A rule changes a few keys only, so what it keeps is stated with
  `Each` and follows from one lemma for each update.
* Sums over the entries.  `tally` adds up what the entries cost under their keys, and
  `total` what they cost whatever their keys are.  The lemmas bound what an update brings
  in by what it takes away.
-/

namespace ProtoShape.Entries

variable {α β : Type}

/-! ## Look-ups -/

theorem text_key_eq_iff {s t : String} : (Scalar.text s).key = (Scalar.text t).key ↔ s = t := by
  simp

/-- Keys that count as the same lead to the same value. -/
theorem get?_congr (e : Entries α) {key other : Scalar} (h : key.key = other.key) :
    e.get? key = e.get? other := by
  obtain ⟨l⟩ := e
  simp only [get?]
  induction l with
  | nil => rfl
  | cons entry rest ih =>
      obtain ⟨k, v⟩ := entry
      simp [lookup, h, ih]

theorem get?_insert (e : Entries α) (key other : Scalar) (value : α) :
    (e.insert key value).get? other = if other.key = key.key then some value else e.get? other := by
  by_cases h : other.key = key.key
  · rw [if_pos h, get?_congr _ h, get?_insert_self]
  · rw [get?_insert_of_ne e value h, if_neg h]

theorem lookup_filter (l : List (Scalar × α)) (key other : Scalar) :
    lookup (l.filter (·.1.key ≠ key.key)) other =
      if other.key = key.key then none else lookup l other := by
  induction l with
  | nil => simp [lookup]
  | cons entry rest ih =>
      obtain ⟨k, v⟩ := entry
      by_cases hk : k.key = key.key
      · rw [List.filter_cons, if_neg (by simp [hk]), ih]
        by_cases ho : other.key = key.key
        · simp [ho]
        · have hne : ¬ key.key = other.key := fun h => ho h.symm
          simp [ho, lookup, hk, hne]
      · rw [List.filter_cons, if_pos (by simp [hk])]
        rw [lookup, lookup, ih]
        by_cases ho : other.key = key.key
        · rw [if_pos ho, if_pos ho, if_neg fun h => hk (h.trans ho)]
        · rw [if_neg ho, if_neg ho]

theorem get?_erase (e : Entries α) (key other : Scalar) :
    (e.erase key).get? other = if other.key = key.key then none else e.get? other :=
  lookup_filter e.toList key other

/-- Removing several keys hides these keys and no others. -/
theorem get?_eraseAll (e : Entries α) (keys : List String) (other : String) :
    (e.eraseAll keys).get? other = if other ∈ keys then none else e.get? other := by
  unfold eraseAll
  induction keys generalizing e with
  | nil => simp
  | cons key rest ih =>
      rw [List.foldl_cons, ih, get?_erase]
      by_cases h : other = key
      · simp [h]
      · simp [h, List.mem_cons]

@[simp] theorem get?_mapValues (f : α → β) (e : Entries α) (key : Scalar) :
    (e.mapValues f).get? key = (e.get? key).map f := by
  obtain ⟨l⟩ := e
  simp only [get?, mapValues]
  induction l with
  | nil => rfl
  | cons entry rest ih =>
      obtain ⟨k, v⟩ := entry
      by_cases h : k.key = key.key <;> simp [lookup, h, ih]

theorem lookup_append (l l' : List (Scalar × α)) (key : Scalar) :
    lookup (l ++ l') key = (lookup l key).or (lookup l' key) := by
  induction l with
  | nil => simp [lookup]
  | cons entry rest ih =>
      obtain ⟨k, v⟩ := entry
      by_cases h : k.key = key.key <;> simp [lookup, h, ih]

/-- A key that is found stays found where entries are appended. -/
theorem get?_append {l more : List (Scalar × α)} {key : Scalar} {value : α}
    (h : get? ⟨l⟩ key = some value) : get? ⟨l ++ more⟩ key = some value := by
  rw [get?] at h ⊢
  rw [lookup_append, h, Option.some_or]

/-- A key that is found stands in the mapping with the value found. -/
theorem mem_of_lookup {l : List (Scalar × α)} {key : Scalar} {value : α}
    (h : lookup l key = some value) : ∃ k, k.key = key.key ∧ (k, value) ∈ l := by
  induction l with
  | nil => simp [lookup] at h
  | cons entry rest ih =>
      obtain ⟨k, v⟩ := entry
      by_cases hk : k.key = key.key
      · have hv : v = value := by simpa [lookup, hk] using h
        subst hv
        exact ⟨k, hk, by simp⟩
      · obtain ⟨k', hk', hmem⟩ := ih (by simpa [lookup, hk] using h)
        exact ⟨k', hk', List.mem_cons_of_mem _ hmem⟩

theorem mem_of_get? {e : Entries α} {key : Scalar} {value : α} (h : e.get? key = some value) :
    ∃ k, k.key = key.key ∧ (k, value) ∈ e.toList :=
  mem_of_lookup h

theorem exists_index {e : Entries α} {key : Scalar} {value : α} (h : e.get? key = some value) :
    ∃ (i : Nat) (k : Scalar), e.toList[i]? = some (k, value) ∧ k.key = key.key := by
  obtain ⟨k, hk, hmem⟩ := mem_of_get? h
  obtain ⟨i, hi⟩ := List.mem_iff_getElem?.1 hmem
  exact ⟨i, k, hi, hk⟩

theorem lookup_eq_none_iff {l : List (Scalar × α)} {key : Scalar} :
    lookup l key = none ↔ ∀ entry ∈ l, entry.1.key ≠ key.key := by
  induction l with
  | nil => simp [lookup]
  | cons entry rest ih =>
      obtain ⟨k, v⟩ := entry
      by_cases h : k.key = key.key <;> simp [lookup, h, ih]

/-! ## Objects -/

/-- No two keys count as the same. -/
def DistinctKeys (e : Entries α) : Prop := (e.keys.map Scalar.key).Nodup

instance (e : Entries α) : Decidable e.DistinctKeys :=
  inferInstanceAs (Decidable (e.keys.map Scalar.key).Nodup)

/-- All keys are texts and no two of them are the same, as in a JSON object. -/
def IsObject (e : Entries α) : Prop := e.hasTextKeys = true ∧ e.DistinctKeys

instance (e : Entries α) : Decidable e.IsObject :=
  inferInstanceAs (Decidable (e.hasTextKeys = true ∧ e.DistinctKeys))

theorem hasTextKeys_iff {e : Entries α} :
    e.hasTextKeys = true ↔ ∀ entry ∈ e.toList, ∃ s, entry.1 = .text s := by
  have htext : ∀ k : Scalar, k.text?.isSome = true ↔ ∃ s, k = .text s := by
    intro k
    cases k <;> simp [Scalar.text?]
  simp [hasTextKeys, keys, htext]

theorem distinctKeys_cons {k : Scalar} {v : α} {rest : List (Scalar × α)} :
    DistinctKeys ⟨(k, v) :: rest⟩ ↔
      (∀ entry ∈ rest, entry.1.key ≠ k.key) ∧ DistinctKeys ⟨rest⟩ := by
  simp [DistinctKeys, keys]

/-- Where keys are distinct, those before an entry are not its key. -/
theorem DistinctKeys.ne_of_append {before more : List (Scalar × α)} {key : Scalar} {value : α}
    (h : DistinctKeys ⟨before ++ (key, value) :: more⟩) :
    ∀ entry ∈ before, entry.1.key ≠ key.key := by
  intro entry hentry
  simp only [DistinctKeys, keys, List.map_append, List.map_cons, List.nodup_append] at h
  exact h.2.2 _ (List.mem_map_of_mem (List.mem_map_of_mem hentry)) _ List.mem_cons_self

/-- Where keys are distinct, an entry is what its key leads to. -/
theorem get?_of_mem {e : Entries α} (h : e.DistinctKeys) {key : Scalar} {value : α}
    (hmem : (key, value) ∈ e.toList) : e.get? key = some value := by
  obtain ⟨l⟩ := e
  simp only [get?] at *
  induction l with
  | nil => simp at hmem
  | cons entry rest ih =>
      obtain ⟨k, v⟩ := entry
      obtain ⟨hhead, htail⟩ := distinctKeys_cons.1 h
      rcases List.mem_cons.1 hmem with heq | hrest
      · obtain ⟨rfl, rfl⟩ := Prod.mk.inj heq
        simp [lookup]
      · have hne : ¬ k.key = key.key := fun hk => hhead _ hrest hk.symm
        rw [lookup, if_neg hne]
        exact ih htail hrest

theorem IsObject.mem_iff {e : Entries α} (h : e.IsObject) {key : Scalar} {value : α} :
    (key, value) ∈ e.toList ↔ ∃ s : String, key = .text s ∧ e.get? s = some value := by
  constructor
  · intro hmem
    obtain ⟨s, rfl⟩ := hasTextKeys_iff.1 h.1 _ hmem
    exact ⟨s, rfl, get?_of_mem h.2 hmem⟩
  · rintro ⟨s, rfl, hget⟩
    obtain ⟨k, hk, hmem⟩ := mem_of_get? hget
    obtain rfl := Scalar.key_eq_text_iff.1 hk
    exact hmem

/-- Where keys are distinct, an overlay prefers the mapping laid over. -/
theorem get?_overlay (e : Entries α) {other : Entries α} (h : other.DistinctKeys) (key : Scalar) :
    (e.overlay other).get? key = (other.get? key).or (e.get? key) := by
  obtain ⟨l⟩ := other
  simp only [overlay, get?]
  induction l generalizing e with
  | nil => simp [lookup]
  | cons entry rest ih =>
      obtain ⟨k, v⟩ := entry
      obtain ⟨hhead, htail⟩ := distinctKeys_cons.1 h
      have hrec := ih (e.insert k v) htail
      rw [List.foldl_cons, hrec]
      by_cases hk : k.key = key.key
      · have hnone : lookup rest key = none :=
          lookup_eq_none_iff.2 fun entry hmem => hk ▸ hhead entry hmem
        have hins := get?_insert e k key v
        rw [if_pos hk.symm] at hins
        simp only [get?] at hins
        simp [hnone, lookup, hk, hins]
      · have hins := get?_insert e k key v
        rw [if_neg fun h => hk h.symm] at hins
        simp only [get?] at hins
        simp [lookup, hk, hins]

/-- A new key comes last. -/
theorem put_of_lookup {α : Type} {l : List (Scalar × α)} {key : Scalar} (h : lookup l key = none)
    (value : α) : put l key value = l ++ [(key, value)] := by
  induction l with
  | nil => rfl
  | cons entry rest ih =>
      obtain ⟨k, v⟩ := entry
      by_cases hkey : k.key = key.key
      · simp [lookup, hkey] at h
      · have hrest : lookup rest key = none := by simpa [lookup, hkey] using h
        rw [put, if_neg hkey, ih hrest, List.cons_append]

/-- To bind a key to the value that it has changes nothing. -/
theorem put_of_lookup_eq {α : Type} {l : List (Scalar × α)} {key : Scalar} {value : α}
    (h : lookup l key = some value) : put l key value = l := by
  induction l with
  | nil => simp [lookup] at h
  | cons entry rest ih =>
      obtain ⟨k, v⟩ := entry
      by_cases hkey : k.key = key.key
      · obtain rfl : v = value := by simpa [lookup, hkey] using h
        rw [put, if_pos hkey]
      · have hrest : lookup rest key = some value := by simpa [lookup, hkey] using h
        rw [put, if_neg hkey, ih hrest]

theorem insert_of_get? {α : Type} {e : Entries α} {key : Scalar} {value : α}
    (h : e.get? key = some value) :
    e.insert key value = e := by
  obtain ⟨l⟩ := e
  exact congrArg Entries.mk (put_of_lookup_eq h)

/-- The last value of a key counts. -/
theorem put_put (l : List (Scalar × α)) (key : Scalar) (value last : α) :
    put (put l key value) key last = put l key last := by
  induction l with
  | nil => simp [put]
  | cons entry rest ih =>
      obtain ⟨k, v⟩ := entry
      by_cases hkey : k.key = key.key <;> simp [put, hkey, ih]

@[simp]
theorem insert_insert (e : Entries α) (key : Scalar) (value last : α) :
    (e.insert key value).insert key last = e.insert key last :=
  congrArg Entries.mk (put_put e.toList key value last)

/-- Where a key is there already, it does not matter whether another key is bound before it. -/
theorem put_comm {l : List (Scalar × α)} {key other : Scalar} {old : α}
    (h : lookup l key = some old) (hne : other.key ≠ key.key) (value added : α) :
    put (put l other added) key value = put (put l key value) other added := by
  induction l with
  | nil => simp [lookup] at h
  | cons entry rest ih =>
      obtain ⟨k, v⟩ := entry
      by_cases hkey : k.key = key.key
      · simp [put, hkey, hne.symm]
      · have hrest : lookup rest key = some old := by simpa [lookup, hkey] using h
        by_cases hother : k.key = other.key <;> simp [put, hkey, hother, hne, ih hrest]

theorem insert_comm {e : Entries α} {key other : Scalar} {old : α} (h : e.get? key = some old)
    (hne : other.key ≠ key.key) (value added : α) :
    (e.insert other added).insert key value = (e.insert key value).insert other added :=
  congrArg Entries.mk (put_comm h hne value added)

theorem mem_put {l : List (Scalar × α)} {key : Scalar} {value : α} {entry : Scalar × α}
    (h : entry ∈ put l key value) :
    entry ∈ l ∨ entry.2 = value ∧ (entry.1 = key ∨ ∃ old, (entry.1, old) ∈ l) := by
  induction l with
  | nil =>
      obtain rfl : entry = (key, value) := by simpa [put] using h
      exact Or.inr ⟨rfl, Or.inl rfl⟩
  | cons head rest ih =>
      obtain ⟨k, v⟩ := head
      by_cases hk : k.key = key.key
      · rcases List.mem_cons.1 (by simpa [put, hk] using h) with rfl | hrest
        · exact Or.inr ⟨rfl, Or.inr ⟨v, by simp⟩⟩
        · exact Or.inl (List.mem_cons_of_mem _ hrest)
      · rcases List.mem_cons.1 (by simpa [put, hk] using h) with rfl | hrest
        · exact Or.inl (by simp)
        · rcases ih hrest with hold | ⟨hv, hkey | ⟨old, hold⟩⟩
          · exact Or.inl (List.mem_cons_of_mem _ hold)
          · exact Or.inr ⟨hv, Or.inl hkey⟩
          · exact Or.inr ⟨hv, Or.inr ⟨old, List.mem_cons_of_mem _ hold⟩⟩

theorem keys_put (l : List (Scalar × α)) (key : Scalar) (value : α) :
    (put l key value).map (·.1) =
      if (lookup l key).isSome then l.map (·.1) else l.map (·.1) ++ [key] := by
  induction l with
  | nil => simp [put, lookup]
  | cons entry rest ih =>
      obtain ⟨k, v⟩ := entry
      by_cases hk : k.key = key.key
      · simp [put, lookup, hk]
      · simp only [put, hk, if_false, List.map_cons, lookup, ih]
        split <;> rfl

/-- An update keeps the keys in their order; a new key comes last. -/
theorem keys_insert (e : Entries α) (key : Scalar) (value : α) :
    (e.insert key value).keys = if (e.get? key).isSome then e.keys else e.keys ++ [key] :=
  keys_put e.toList key value

theorem DistinctKeys.insert {e : Entries α} (h : e.DistinctKeys) (key : Scalar) (value : α) :
    (e.insert key value).DistinctKeys := by
  unfold DistinctKeys at *
  rw [keys_insert]
  split
  · exact h
  · rename_i hnone
    have hget : lookup e.toList key = none := by simpa [get?] using hnone
    rw [List.map_append, List.map_cons, List.map_nil, ← List.concat_eq_append, List.nodup_concat]
    refine ⟨?_, h⟩
    intro hmem
    obtain ⟨k, hk, hkey⟩ := List.mem_map.1 hmem
    obtain ⟨entry, hentry, rfl⟩ := List.mem_map.1 hk
    exact lookup_eq_none_iff.1 hget entry hentry hkey

theorem DistinctKeys.filter {e : Entries α} (h : e.DistinctKeys) (p : Scalar × α → Bool) :
    DistinctKeys ⟨e.toList.filter p⟩ := by
  unfold DistinctKeys keys at *
  rw [List.map_map] at *
  exact h.sublist (List.filter_sublist.map _)

theorem IsObject.insert {e : Entries α} (h : e.IsObject) (key : String) (value : α) :
    (e.insert key value).IsObject := by
  refine ⟨hasTextKeys_iff.2 ?_, h.2.insert key value⟩
  intro entry hmem
  rcases mem_put hmem with hold | ⟨_, hkey | ⟨old, hold⟩⟩
  · exact hasTextKeys_iff.1 h.1 entry hold
  · exact ⟨key, hkey⟩
  · exact hasTextKeys_iff.1 h.1 (entry.1, old) hold

theorem IsObject.erase {e : Entries α} (h : e.IsObject) (key : Scalar) :
    (e.erase key).IsObject := by
  refine ⟨hasTextKeys_iff.2 ?_, h.2.filter _⟩
  intro entry hmem
  exact hasTextKeys_iff.1 h.1 entry (List.mem_filter.1 hmem).1

theorem IsObject.overlay {e other : Entries α} (h : e.IsObject) (ho : other.hasTextKeys = true) :
    (e.overlay other).IsObject := by
  obtain ⟨l⟩ := other
  unfold Entries.overlay
  induction l generalizing e with
  | nil => exact h
  | cons entry rest ih =>
      obtain ⟨k, v⟩ := entry
      obtain ⟨s, hs⟩ := hasTextKeys_iff.1 ho (k, v) (by simp)
      simp only at hs
      subst hs
      refine ih (h.insert s v) (hasTextKeys_iff.2 ?_)
      intro entry hmem
      exact hasTextKeys_iff.1 ho entry (List.mem_cons_of_mem _ hmem)

theorem keys_mapValues (f : α → β) (e : Entries α) : (e.mapValues f).keys = e.keys := by
  simp [keys, mapValues]

/-- Whether a mapping is an object depends on its keys alone. -/
theorem isObject_congr {e : Entries α} {other : Entries β} (h : e.keys = other.keys) :
    e.IsObject ↔ other.IsObject := by
  simp [IsObject, DistinctKeys, hasTextKeys, h]

/-- Objects with the same keys in the same order are the same, if they have the same values. -/
theorem IsObject.ext {e e' : Entries α} (h : e.IsObject) (hkeys : e'.keys = e.keys)
    (hget : ∀ key : String, e'.get? key = e.get? key) : e' = e := by
  obtain ⟨l⟩ := e
  obtain ⟨l'⟩ := e'
  have hobject' : (⟨l'⟩ : Entries α).IsObject := (isObject_congr hkeys).2 h
  refine congrArg Entries.mk (List.ext_getElem? fun i => ?_)
  have hi : (l'.map (·.1))[i]? = (l.map (·.1))[i]? := congrArg (·[i]?) hkeys
  rw [List.getElem?_map, List.getElem?_map] at hi
  cases hentry' : l'[i]? with
  | none =>
      rw [hentry'] at hi
      cases hentry : l[i]? with
      | none => rfl
      | some entry =>
          rw [hentry] at hi
          cases hi
  | some entry' =>
      rw [hentry'] at hi
      obtain ⟨entry, hentry, hkey⟩ := Option.map_eq_some_iff.1 hi.symm
      obtain ⟨key, hk, hget₁⟩ := h.mem_iff.1 (List.mem_of_getElem? hentry)
      obtain ⟨key', hk', hget₂⟩ := hobject'.mem_iff.1 (List.mem_of_getElem? hentry')
      obtain rfl : key = key' := Scalar.text.inj (hk.symm.trans (hkey.trans hk'))
      rw [hentry]
      refine congrArg some (Prod.ext hkey.symm ?_)
      exact Option.some.inj (hget₂.symm.trans ((hget key).trans hget₁))

theorem isObject_mapValues (f : α → β) (e : Entries α) :
    (e.mapValues f).IsObject ↔ e.IsObject :=
  isObject_congr (keys_mapValues f e)

/-! ## Properties of the entries -/

/-- A property holds of every value under a text key. -/
def Each (P : String → α → Prop) (e : Entries α) : Prop :=
  ∀ (key : String) (value : α), e.get? key = some value → P key value

variable {P Q : String → α → Prop} {e other : Entries α}

theorem Each.mono (h : e.Each P) (hPQ : ∀ key value, P key value → Q key value) : e.Each Q :=
  fun key value hget => hPQ key value (h key value hget)

theorem Each.insert (h : e.Each P) {key : String} {value : α} (hv : P key value) :
    (e.insert key value).Each P := by
  intro k v hget
  rw [get?_insert] at hget
  split at hget
  · rename_i hk
    obtain rfl := text_key_eq_iff.1 hk
    cases hget
    exact hv
  · exact h k v hget

theorem Each.erase (h : e.Each P) (key : Scalar) : (e.erase key).Each P := by
  intro k v hget
  rw [get?_erase] at hget
  split at hget
  · simp at hget
  · exact h k v hget

theorem Each.eraseAll (h : e.Each P) (keys : List String) : (e.eraseAll keys).Each P := by
  intro k v hget
  rw [get?_eraseAll] at hget
  split at hget
  · simp at hget
  · exact h k v hget

theorem Each.overlay (h : e.Each P) (ho : other.DistinctKeys) (hP : other.Each P) :
    (e.overlay other).Each P := by
  intro k v hget
  rw [get?_overlay e ho] at hget
  rcases Option.or_eq_some_iff.1 hget with hother | ⟨-, hold⟩
  · exact hP k v hother
  · exact h k v hold

/-- In an object, `Each` speaks of all entries. -/
theorem IsObject.each_iff (h : e.IsObject) {p : α → Prop} :
    e.Each (fun _ value => p value) ↔ ∀ entry ∈ e.toList, p entry.2 := by
  constructor
  · rintro heach ⟨k, v⟩ hmem
    obtain ⟨s, -, hget⟩ := h.mem_iff.1 hmem
    exact heach s v hget
  · intro hall key value hget
    obtain ⟨k, -, hmem⟩ := mem_of_get? hget
    exact hall _ hmem

/-! ## Sums over the entries -/

/-- The sum over all entries of what each costs under its key. -/
def tally (cost : Key → α → Nat) (e : Entries α) : Nat :=
  (e.toList.map fun entry => cost entry.1.key entry.2).sum

section Tally

variable (cost : Key → α → Nat)

@[simp] theorem tally_empty : tally cost (∅ : Entries α) = 0 := rfl

theorem tally_cons (k : Scalar) (v : α) (rest : List (Scalar × α)) :
    tally cost ⟨(k, v) :: rest⟩ = cost k.key v + tally cost ⟨rest⟩ := by
  simp [tally]

/-- What a key leads to is replaced: its cost gives way to that of the new value. -/
theorem tally_insert_of_get? {key : Scalar} {old : α} (h : e.get? key = some old) (value : α) :
    tally cost (e.insert key value) + cost key.key old = tally cost e + cost key.key value := by
  obtain ⟨l⟩ := e
  simp only [insert, get?] at *
  induction l with
  | nil => simp [lookup] at h
  | cons entry rest ih =>
      obtain ⟨k, v⟩ := entry
      by_cases hk : k.key = key.key
      · obtain rfl : v = old := by simpa [lookup, hk] using h
        simp only [put, hk, if_true, tally_cons]
        omega
      · have hrest := ih (by simpa [lookup, hk] using h)
        simp only [put, hk, if_false, tally_cons]
        omega

theorem tally_insert_of_get?_eq_none {key : Scalar} (h : e.get? key = none) (value : α) :
    tally cost (e.insert key value) = tally cost e + cost key.key value := by
  obtain ⟨l⟩ := e
  simp only [insert, get?] at *
  induction l with
  | nil => simp [put, tally]
  | cons entry rest ih =>
      obtain ⟨k, v⟩ := entry
      by_cases hk : k.key = key.key
      · simp [lookup, hk] at h
      · have hrest := ih (by simpa [lookup, hk] using h)
        simp only [put, hk, if_false, tally_cons]
        omega

theorem tally_insert_le (e : Entries α) (key : Scalar) (value : α) :
    tally cost (e.insert key value) ≤ tally cost e + cost key.key value := by
  cases h : e.get? key with
  | none => exact Nat.le_of_eq (tally_insert_of_get?_eq_none cost h value)
  | some old =>
      have hsum := tally_insert_of_get? cost h value
      omega

theorem tally_overlay_le (e other : Entries α) :
    tally cost (e.overlay other) ≤ tally cost e + tally cost other := by
  obtain ⟨l⟩ := other
  simp only [overlay]
  induction l generalizing e with
  | nil => simp [tally]
  | cons entry rest ih =>
      obtain ⟨k, v⟩ := entry
      have hput := tally_insert_le cost e k v
      have hrest := ih (e.insert k v)
      simp only [List.foldl_cons, tally_cons]
      omega

theorem tally_filter_le (l : List (Scalar × α)) (p : Scalar × α → Bool) :
    tally cost ⟨l.filter p⟩ ≤ tally cost ⟨l⟩ := by
  induction l with
  | nil => exact Nat.le_refl _
  | cons entry rest ih =>
      obtain ⟨k, v⟩ := entry
      by_cases h : p (k, v) = true
      · rw [List.filter_cons, if_pos h, tally_cons, tally_cons]
        omega
      · rw [List.filter_cons, if_neg h, tally_cons]
        omega

theorem tally_erase_le (e : Entries α) (key : Scalar) : tally cost (e.erase key) ≤ tally cost e :=
  tally_filter_le cost e.toList _

/-- Erasing a key gives up what it leads to. -/
theorem tally_erase_add_le {key : Scalar} {value : α} (h : e.get? key = some value) :
    tally cost (e.erase key) + cost key.key value ≤ tally cost e := by
  obtain ⟨l⟩ := e
  simp only [erase, get?] at *
  induction l with
  | nil => simp [lookup] at h
  | cons entry rest ih =>
      obtain ⟨k, v⟩ := entry
      by_cases hk : k.key = key.key
      · obtain rfl : v = value := by simpa [lookup, hk] using h
        have hrest := tally_filter_le cost rest fun entry => entry.1.key ≠ key.key
        rw [List.filter_cons, if_neg (by simp [hk]), tally_cons, hk]
        omega
      · have hrest := ih (by simpa [lookup, hk] using h)
        rw [List.filter_cons, if_pos (by simp [hk]), tally_cons, tally_cons]
        omega

theorem tally_eraseAll_le (e : Entries α) (keys : List String) :
    tally cost (e.eraseAll keys) ≤ tally cost e := by
  unfold eraseAll
  induction keys generalizing e with
  | nil => exact Nat.le_refl _
  | cons key rest ih => exact Nat.le_trans (ih (e.erase key)) (tally_erase_le cost e key)

theorem tally_eraseAll_add_le {keys : List String} {key : String} (hkey : key ∈ keys) {value : α}
    (h : e.get? key = some value) :
    tally cost (e.eraseAll keys) + cost (.text key) value ≤ tally cost e := by
  induction keys generalizing e with
  | nil => simp at hkey
  | cons first rest ih =>
      have hstep : e.eraseAll (first :: rest) = (e.erase first).eraseAll rest := rfl
      rw [hstep]
      by_cases hfirst : key = first
      · subst hfirst
        have herase := tally_erase_add_le cost h
        have hrest := tally_eraseAll_le cost (e.erase key) rest
        rw [Scalar.key_text] at herase
        omega
      · have hget : (e.erase first).get? key = some value := by
          rw [get?_erase, if_neg (by simpa using hfirst), h]
        have hrest := ih ((List.mem_cons.1 hkey).resolve_left hfirst) hget
        have herase := tally_erase_le cost e first
        omega

/-- What a key costs with the value that it leads to, if any. -/
def costOf (e : Entries α) (key : String) : Nat := ((e.get? key).map (cost (.text key))).getD 0

theorem costOf_of_get? {key : String} {value : α} (h : e.get? key = some value) :
    costOf cost e key = cost (.text key) value := by
  rw [costOf, h, Option.map_some, Option.getD_some]

/-- Erasing keys gives up what each of them leads to. -/
theorem tally_eraseAll_sum_le {keys : List String} (h : keys.Nodup) (e : Entries α) :
    tally cost (e.eraseAll keys) + (keys.map (costOf cost e)).sum ≤ tally cost e := by
  induction keys generalizing e with
  | nil => exact Nat.le_refl _
  | cons first rest ih =>
      have hstep : e.eraseAll (first :: rest) = (e.erase first).eraseAll rest := rfl
      obtain ⟨hfirst, hnodup⟩ := List.nodup_cons.1 h
      have hrest := ih hnodup (e.erase first)
      have hsame : rest.map (costOf cost (e.erase first)) = rest.map (costOf cost e) := by
        refine List.map_congr_left fun key hkey => ?_
        have hne : key ≠ first := fun heq => hfirst (heq ▸ hkey)
        rw [costOf, costOf, get?_erase, if_neg (by simpa using hne)]
      rw [hsame] at hrest
      rw [hstep, List.map_cons, List.sum_cons]
      cases hget : e.get? first with
      | none =>
          have hzero : costOf cost e first = 0 := by rw [costOf, hget]; rfl
          have herase := tally_erase_le cost e first
          omega
      | some value =>
          have hcost := costOf_of_get? cost hget
          have herase := tally_erase_add_le cost hget
          rw [Scalar.key_text] at herase
          omega

end Tally

/-- The sum of a count over all values. -/
def total (count : α → Nat) (e : Entries α) : Nat := (e.toList.map fun entry => count entry.2).sum

variable (count : α → Nat)

@[simp] theorem total_empty : total count (∅ : Entries α) = 0 := rfl

theorem total_cons (k : Scalar) (v : α) (rest : List (Scalar × α)) :
    total count ⟨(k, v) :: rest⟩ = count v + total count ⟨rest⟩ :=
  tally_cons (fun _ => count) k v rest

theorem total_insert_of_get? {key : Scalar} {old : α} (h : e.get? key = some old) (value : α) :
    total count (e.insert key value) + count old = total count e + count value :=
  tally_insert_of_get? (fun _ => count) h value

theorem total_insert_of_get?_eq_none {key : Scalar} (h : e.get? key = none) (value : α) :
    total count (e.insert key value) = total count e + count value :=
  tally_insert_of_get?_eq_none (fun _ => count) h value

theorem total_insert_le (e : Entries α) (key : Scalar) (value : α) :
    total count (e.insert key value) ≤ total count e + count value :=
  tally_insert_le (fun _ => count) e key value

theorem total_overlay_le (e other : Entries α) :
    total count (e.overlay other) ≤ total count e + total count other :=
  tally_overlay_le (fun _ => count) e other

theorem total_erase_le (e : Entries α) (key : Scalar) : total count (e.erase key) ≤ total count e :=
  tally_erase_le (fun _ => count) e key

theorem total_erase_add_le {key : Scalar} {value : α} (h : e.get? key = some value) :
    total count (e.erase key) + count value ≤ total count e :=
  tally_erase_add_le (fun _ => count) h

theorem total_eraseAll_le (e : Entries α) (keys : List String) :
    total count (e.eraseAll keys) ≤ total count e :=
  tally_eraseAll_le (fun _ => count) e keys

theorem total_eraseAll_add_le {keys : List String} {key : String} (hkey : key ∈ keys) {value : α}
    (h : e.get? key = some value) :
    total count (e.eraseAll keys) + count value ≤ total count e :=
  tally_eraseAll_add_le (fun _ => count) hkey h

theorem le_total_of_get? {key : Scalar} {value : α} (h : e.get? key = some value) :
    count value ≤ total count e := by
  have herase := total_erase_add_le count h
  omega

end ProtoShape.Entries
